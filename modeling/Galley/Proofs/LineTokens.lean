import Galley.Proofs.Stream

/-!
The tokens of a line, character by character. Reading a line without strictness is a run over its
buffer, each character giving the tokens that it completes and a phase for the next one; so the
tokens of a buffer in two parts come from a run over the first and then one over the second.
-/

namespace Galley

/-- Where reading stands in a line: between two tokens, behind an escape character, in the name of a
control word, or behind all that counts of the line. -/
inductive Phase
  | between (s : LineState)
  | escaped
  | naming (letters : List Char)
  | spent
  deriving DecidableEq, Repr

namespace Phase

variable {cats : CategoryTable}

/-- The token of an end of line, if it has one. -/
def lineEnd : LineState → List Token
  | .midLine => [.ch ' ' .space]
  | .newLine => [.cs "par"]
  | .skipBlanks => []

/-- Reads a character that begins a token or stands between two. -/
def start (cats : CategoryTable) (s : LineState) (c : Char) : List Token × Phase :=
  match cats.of c with
  | .escape => ([], .escaped)
  | .endOfLine => (lineEnd s, .spent)
  | .space =>
    if s = .midLine then ([.ch ' ' .space], .between .skipBlanks) else ([], .between s)
  | .comment => ([], .spent)
  | .ignored => ([], .between s)
  | .invalid => ([], .between s)
  | cat => ([.ch c cat], .between .midLine)

def react (cats : CategoryTable) : Phase → Char → List Token × Phase
  | .between s, c => start cats s c
  | .escaped, c =>
    if cats.of c = .letter then ([], .naming [c])
    else ([.cs (String.singleton c)],
      .between (if cats.of c = .space then .skipBlanks else .midLine))
  | .naming letters, c =>
    if cats.of c = .letter then ([], .naming (letters ++ [c]))
    else (.cs (String.ofList letters) :: (start cats .skipBlanks c).1, (start cats .skipBlanks c).2)
  | .spent, _ => ([], .spent)

/-- The token that the end of the buffer completes, if there is one. -/
@[simp] def atEnd : Phase → List Token
  | .between _ => []
  | .escaped => [.cs ""]
  | .naming letters => [.cs (String.ofList letters)]
  | .spent => []

def run (cats : CategoryTable) : Phase → List Char → List Token × Phase
  | p, [] => ([], p)
  | p, c :: s =>
    ((p.react cats c).1 ++ (run cats (p.react cats c).2 s).1, (run cats (p.react cats c).2 s).2)

/-- All tokens of what is left of a buffer. -/
def tokens (cats : CategoryTable) (p : Phase) (s : List Char) : List Token :=
  (p.run cats s).1 ++ (p.run cats s).2.atEnd

@[simp] theorem run_nil (p : Phase) : p.run cats [] = ([], p) := rfl

@[simp] theorem tokens_nil (p : Phase) : p.tokens cats [] = p.atEnd := rfl

theorem run_cons (p : Phase) (c : Char) (s : List Char) :
    p.run cats (c :: s) =
      ((p.react cats c).1 ++ ((p.react cats c).2.run cats s).1,
        ((p.react cats c).2.run cats s).2) := rfl

theorem run_append (p : Phase) (s t : List Char) :
    p.run cats (s ++ t) =
      ((p.run cats s).1 ++ ((p.run cats s).2.run cats t).1, ((p.run cats s).2.run cats t).2) := by
  induction s generalizing p with
  | nil => simp
  | cons c s ih => simp only [List.cons_append, run_cons, ih, List.append_assoc]

theorem tokens_cons (p : Phase) (c : Char) (s : List Char) :
    p.tokens cats (c :: s) = (p.react cats c).1 ++ (p.react cats c).2.tokens cats s := by
  simp only [tokens, run_cons, List.append_assoc]

theorem tokens_append (p : Phase) (s t : List Char) :
    p.tokens cats (s ++ t) = (p.run cats s).1 ++ (p.run cats s).2.tokens cats t := by
  simp only [tokens, run_append, List.append_assoc]

theorem tokens_spent (s : List Char) : spent.tokens cats s = [] := by
  induction s with
  | nil => rfl
  | cons c s ih => simp [tokens_cons, react, ih]

/-- A control word is read to its last letter, and the blanks behind it are skipped. -/
theorem tokens_naming (letters s : List Char) :
    (naming letters).tokens cats s =
      .cs (String.ofList (letters ++ s.takeWhile fun c => cats.of c = .letter)) ::
        (between .skipBlanks).tokens cats (s.dropWhile fun c => cats.of c = .letter) := by
  induction s generalizing letters with
  | nil => simp [atEnd]
  | cons c s ih =>
    rw [tokens_cons]
    by_cases hc : cats.of c = .letter
    · simp [react, hc, ih]
    · simp [react, hc, tokens_cons]

/-! ## Words and blanks -/

theorem run_naming {s : List Char} (h : ∀ c ∈ s, cats.of c = .letter) (letters : List Char) :
    (naming letters).run cats s = ([], naming (letters ++ s)) := by
  induction s generalizing letters with
  | nil => simp
  | cons c s ih =>
    have hc : (naming letters).react cats c = ([], naming (letters ++ [c])) :=
      if_pos (h c List.mem_cons_self)
    rw [run_cons, hc, ih fun d hd => h d (List.mem_cons_of_mem c hd)]
    simp

/-- Letters and other characters stand for themselves. -/
theorem run_word {s : List Char} (hs : s ≠ [])
    (h : ∀ c ∈ s, cats.of c = .letter ∨ cats.of c = .other) (p : LineState) :
    (between p).run cats s = (s.map fun c => .ch c (cats.of c), between .midLine) := by
  induction s generalizing p with
  | nil => exact absurd rfl hs
  | cons c s ih =>
    have hc : (between p).react cats c = ([.ch c (cats.of c)], between .midLine) := by
      rcases h c List.mem_cons_self with hc | hc
      · simp [react, start, hc]
      · simp [react, start, hc]
    rw [run_cons, hc]
    cases s with
    | nil => rfl
    | cons d s =>
      rw [ih (List.cons_ne_nil d s) (fun e he => h e (List.mem_cons_of_mem c he))]
      rfl

/-- Blanks where none are counted. -/
theorem run_skipped {s : List Char} (h : ∀ c ∈ s, cats.of c = .space) {p : LineState}
    (hp : p ≠ .midLine) : (between p).run cats s = ([], between p) := by
  induction s with
  | nil => rfl
  | cons c s ih =>
    have hc : (between p).react cats c = ([], between p) := by
      simp [react, start, h c List.mem_cons_self, hp]
    rw [run_cons, hc, ih fun d hd => h d (List.mem_cons_of_mem c hd)]
    rfl

/-- Blanks behind something count as one space. -/
def gap (s : List Char) : List Token := if s = [] then [] else [.ch ' ' .space]

theorem run_gap {s : List Char} (h : ∀ c ∈ s, cats.of c = .space) :
    (between .midLine).run cats s =
      (gap s, between (if s = [] then .midLine else .skipBlanks)) := by
  cases s with
  | nil => rfl
  | cons c s =>
    have hc : (between .midLine).react cats c = ([.ch ' ' .space], between .skipBlanks) := by
      simp [react, start, h c List.mem_cons_self]
    have hs : (between .skipBlanks).run cats s = ([], between .skipBlanks) :=
      run_skipped (fun d hd => h d (List.mem_cons_of_mem c hd)) (by decide)
    rw [run_cons, hc]
    simp [hs, gap]

/-- So do the blanks at the end of a line, together with the end itself. -/
theorem tokens_lineEnd {s : List Char} (h : ∀ c ∈ s, cats.of c = .space) {c : Char}
    (hc : cats.of c = .endOfLine) :
    (between .midLine).tokens cats (s ++ [c]) = [.ch ' ' .space] := by
  rw [tokens_append, run_gap h, tokens_cons]
  cases s with
  | nil => simp [gap, react, start, hc, lineEnd]
  | cons d s => simp [gap, react, start, hc, lineEnd]

end Phase

/-- Trailing spaces stand behind the last character that is none. -/
theorem withoutTrailingSpaces_append (s : List Char) {c : Char} (hc : c ≠ ' ') (t : List Char) :
    withoutTrailingSpaces (s ++ c :: t) = s ++ c :: withoutTrailingSpaces t := by
  have hreverse : (s ++ c :: t).reverse = t.reverse ++ c :: s.reverse := by simp
  rw [withoutTrailingSpaces, hreverse, List.dropWhile_append]
  split
  · rename_i hempty
    rw [List.isEmpty_iff] at hempty
    simp [withoutTrailingSpaces, hempty, hc]
  · simp [withoutTrailingSpaces]

theorem mem_of_withoutTrailingSpaces {s : List Char} {c : Char} (h : c ∈ withoutTrailingSpaces s) :
    c ∈ s := by
  rw [withoutTrailingSpaces, List.mem_reverse] at h
  exact List.mem_reverse.mp ((List.dropWhile_sublist _).mem h)

/-! ## What the lexer reads -/

/-- What a scan comes to, against the tokens of what it scans. -/
def Scanned.Splits (cats : CategoryTable) (ts : List Token) : Scanned → Prop
  | .token t _ after => ts = t :: (Phase.between after.state).tokens cats after.rest
  | .invalid _ _ _ => False
  | .finished after => ts = [] ∧ after.rest = []

theorem tokens_escaped (cats : CategoryTable) (c : Cursor) :
    Phase.escaped.tokens cats c.rest = (scanControl cats c).1 ::
      (Phase.between (scanControl cats c).2.state).tokens cats (scanControl cats c).2.rest := by
  obtain ⟨rest, column, state⟩ := c
  cases rest with
  | nil => rfl
  | cons ch rest =>
    rw [Phase.tokens_cons]
    by_cases hc : cats.of ch = .letter
    · simp [Phase.react, scanControl, hc, Phase.tokens_naming]
    · simp [Phase.react, scanControl, hc, Cursor.advance]

theorem scanFrom_splits (cats : CategoryTable) (state : LineState) (column : Nat) (s : List Char) :
    (scanFrom cats false state column s).Splits cats ((Phase.between state).tokens cats s) := by
  induction s generalizing column with
  | nil => exact ⟨rfl, rfl⟩
  | cons ch rest ih =>
    rw [Phase.tokens_cons]
    unfold scanFrom
    cases hc : cats.of ch with
    | escape =>
      simp only [Phase.react, Phase.start, hc]
      exact tokens_escaped cats ⟨rest, column + 1, state⟩
    | endOfLine =>
      cases state <;>
        simp [Phase.react, Phase.start, hc, Scanned.Splits, Phase.lineEnd, Phase.tokens_spent,
          Cursor.toEnd]
    | space =>
      simp only [Phase.react, Phase.start, hc]
      split
      · rfl
      · exact ih (column + 1)
    | comment =>
      simp [Phase.react, Phase.start, hc, Scanned.Splits, Phase.tokens_spent, Cursor.toEnd]
    | ignored =>
      simp only [Phase.react, Phase.start, hc]
      exact ih (column + 1)
    | invalid =>
      simp only [Phase.react, Phase.start, hc]
      exact ih (column + 1)
    | _ =>
      simp only [Phase.react, Phase.start, hc]
      rfl

/-- The tokens of a line that has not been entered. -/
def Alphabet.lineTokens (a : Alphabet) (line : String) : List Token :=
  (Phase.between .newLine).tokens a.categories (a.buffer line)

theorem Alphabet.lineTokens_plain (s : List Char) : Alphabet.lineTokens {} (String.ofList s) =
    (Phase.between .newLine).tokens .plain (withoutTrailingSpaces s ++ ['\r']) := by
  rw [lineTokens, buffer, String.toList_ofList]
  rfl

namespace Lexer

/-- The tokens of the current line and of the lines after it. -/
def tokensLeft (a : Alphabet) (l : Lexer) : List Token :=
  (Phase.between l.cursor.state).tokens a.categories l.cursor.rest ++
    l.pending.flatMap a.lineTokens

/-- A reading takes the first of the tokens that are left. -/
def Takes (a : Alphabet) (ts : List Token) : Lexed → Prop
  | .token t after => ts = t.token :: after.tokensLeft a
  | .invalid _ _ _ => False
  | .finished _ => ts = []

theorem scan_splits (cats : CategoryTable) {l : Lexer} (hs : l.strict = false) :
    (l.cursor.scan cats l.strict).Splits cats
      ((Phase.between l.cursor.state).tokens cats l.cursor.rest) := by
  rw [hs]
  exact scanFrom_splits cats l.cursor.state l.cursor.column l.cursor.rest

theorem nextFrom_takes (a : Alphabet) {l : Lexer} {pending : List String} (hs : l.strict = false)
    (hp : l.pending = pending) : Takes a (l.tokensLeft a) (l.nextFrom a pending) := by
  fun_induction nextFrom a l pending with
  | case1 pending l t start after hscan =>
    have h := scan_splits a.categories hs
    rw [hscan] at h
    simp only [Scanned.Splits] at h
    simp [Takes, tokensLeft, h, lexeme]
  | case2 pending l c start after hscan =>
    have h := scan_splits a.categories hs
    rw [hscan] at h
    exact h.elim
  | case3 l after hscan =>
    have h := scan_splits a.categories hs
    rw [hscan] at h
    simp [Takes, tokensLeft, h.1, hp]
  | case4 l after hscan line more ih =>
    have h := scan_splits a.categories hs
    rw [hscan] at h
    simp only [tokensLeft, h.1, hp, List.nil_append]
    exact ih hs rfl

/-- What is drained without strictness are the tokens that are left. -/
theorem drain_tokens (a : Alphabet) {l : Lexer} (hs : l.strict = false) :
    (l.drain a).tokens.map (·.token) = l.tokensLeft a := by
  induction hn : l.size a using Nat.strongRecOn generalizing l with
  | ind n ih =>
    have htake : Takes a (l.tokensLeft a) (l.next a) := nextFrom_takes a hs rfl
    have hleft := l.next_leaves a
    rcases next_of_lenient a hs with ⟨t, after, hnext, hstrict, hd⟩ | ⟨after, hnext, -, hd, -⟩
    · rw [hnext] at htake hleft
      simp only [Takes] at htake
      rw [hd, htake, List.map_cons, ih (after.size a) (hn ▸ hleft.2) hstrict rfl]
    · rw [hnext] at htake
      simp only [Takes] at htake
      rw [hd, htake, List.map_nil]

end Lexer

theorem tokenize_tokens (a : Alphabet) (lines : List String) :
    (tokenize a lines).map (·.token) = lines.flatMap a.lineTokens :=
  Lexer.drain_tokens a rfl

theorem Input.ofLines_tokens (a : Alphabet) (lines : List String) (nested : Bool)
    (capacity : Capacity) :
    ((ofLines lines false nested capacity).stream a).map (·.token) = lines.flatMap a.lineTokens :=
  Lexer.drain_tokens a rfl

end Galley
