import Galley.Proofs.History
import Galley.Proofs.Strictness

/-!
Spaces in what the lexer delivers. A log (`Lexer.Logs`) records, in order, the characters that are
scanned, with the categories they have then, and the tokens that are delivered, under alphabets that
may change from one reading to the next. In every log a space stands behind something else of its
line, and a line is a paragraph end of its own exactly where nothing but blanks was scanned before
its end (`Lexer.Logs.spaces_normal`).
-/

namespace Galley

/-! ## What is scanned -/

/-- The characters of a control sequence behind its escape character. -/
def controlName (cats : CategoryTable) : List Char → List Char
  | [] => []
  | ch :: rest =>
    ch :: if cats.of ch = .letter then rest.takeWhile fun d => cats.of d = .letter else []

/-- The characters that are scanned up to a token, to an invalid character where these are refused,
or to the end of the buffer. What is left behind an end of line or a comment is not scanned. -/
def scannedFrom (cats : CategoryTable) (strict : Bool) (state : LineState) : List Char → List Char
  | [] => []
  | ch :: rest =>
    ch :: match cats.of ch with
      | .escape => controlName cats rest
      | .space => if state = .midLine then [] else scannedFrom cats strict state rest
      | .ignored => scannedFrom cats strict state rest
      | .invalid => if strict then [] else scannedFrom cats strict state rest
      | _ => []

/-- The cursor behind a scan. -/
def Scanned.after : Scanned → Cursor
  | .token _ _ after => after
  | .invalid _ _ after => after
  | .finished after => after

theorem controlName_append (cats : CategoryTable) (c : Cursor) :
    controlName cats c.rest ++ (scanControl cats c).2.rest = c.rest := by
  obtain ⟨rest, column, state⟩ := c
  cases rest with
  | nil => rfl
  | cons ch rest =>
    by_cases hc : cats.of ch = .letter
    · simp [controlName, scanControl, hc]
    · simp [controlName, scanControl, hc, Cursor.advance]

/-! ## Logs -/

/-- A character that has been scanned, with the category it had then, or a token that has been
delivered. -/
inductive Event
  | scanned (place : Position) (cat : Category)
  | delivered (t : Lexeme)
  deriving DecidableEq, Repr

namespace Lexer

variable {a : Alphabet} {l m : Lexer} {log : List Event}

/-- What is scanned of the current line. -/
def scannedHere (a : Alphabet) (l : Lexer) : List Event :=
  ((scannedFrom a.categories l.strict l.cursor.state l.cursor.rest).zipIdx l.cursor.column).map
    fun d => .scanned (l.place d.2) (a.categories.of d.1)

/-- What a reading scans of the current line and of the pending ones. -/
def scanning (a : Alphabet) (l : Lexer) (pending : List String) : List Event :=
  l.scannedHere a ++
    match pending with
    | [] => []
    | line :: more =>
      match l.cursor.scan a.categories l.strict with
      | .finished _ => scanning a (l.enter a line more) more
      | _ => []

/-- What a reading scans, and what it delivers. -/
def events (a : Alphabet) (l : Lexer) : List Event :=
  l.scanning a l.pending ++ (l.next a).lexeme?.toList.map .delivered

/-- Readings that led from one lexer to another, each under an alphabet of its own. -/
inductive Logs (l : Lexer) : List Event → Lexer → Prop
  | start : Logs l [] l
  | read {log : List Event} {m : Lexer} (h : Logs l log m) (a : Alphabet) :
    Logs l (log ++ m.events a) (m.next a).after

/-- The log of readings under these alphabets, and the lexer behind them. -/
def logged (l : Lexer) : List Alphabet → List Event × Lexer
  | [] => ([], l)
  | a :: more =>
    let rest := (l.next a).after.logged more
    (l.events a ++ rest.1, rest.2)

theorem Logs.logged (h : Logs l log m) (alphabets : List Alphabet) :
    Logs l (log ++ (m.logged alphabets).1) (m.logged alphabets).2 := by
  induction alphabets generalizing log m with
  | nil =>
    rw [Lexer.logged, List.append_nil]
    exact h
  | cons a more ih =>
    have hmore := ih (h.read a)
    rwa [List.append_assoc] at hmore

end Lexer

/-- The line that a token was read from. -/
def Lexeme.line? (t : Lexeme) : Option Nat := t.span.map (·.start.line)

namespace Event

def token? : Event → Option Lexeme
  | .scanned _ _ => none
  | .delivered t => some t

def categoryOn? (n : Nat) : Event → Option Category
  | .scanned place cat => if place.line = n then some cat else none
  | .delivered _ => none

/-- All tokens of a log. -/
def stream (log : List Event) : List Lexeme := log.filterMap token?

/-- The tokens of a line. -/
def tokensOn (n : Nat) (log : List Event) : List Lexeme :=
  (stream log).filter fun t => t.line? = some n

/-- The categories of the characters that were scanned of a line. -/
def scannedOn (n : Nat) (log : List Event) : List Category := log.filterMap (categoryOn? n)

/-- Begins with an escape character. -/
def Written (log : List Event) (t : Lexeme) : Prop :=
  ∃ span, t.span = some span ∧ .scanned span.start .escape ∈ log

end Event

/-- No token, and no line end, comes of these where nothing of a line has been read. -/
def Category.Skipped (cat : Category) : Prop := cat = .space ∨ cat = .ignored ∨ cat = .invalid

/-! ## Kinds of lines -/

namespace Event

variable {log log' : List Event} {cs : List Category} {ts : List Lexeme} {n : Nat}

/-- Nothing but blanks. -/
def BlankLine (cs : List Category) (ts : List Lexeme) : Prop := ts = [] ∧ ∀ c ∈ cs, c.Skipped

/-- Nothing but blanks before the end of the line, which makes a paragraph end. -/
def ParLine (cs : List Category) (ts : List Lexeme) : Prop :=
  ∃ front t, cs = front ++ [.endOfLine] ∧ (∀ c ∈ front, c.Skipped) ∧ ts = [t] ∧
    t.token = .cs "par"

/-- Something else comes before the end of the line. -/
def TextLine (log : List Event) (cs : List Category) (ts : List Lexeme) : Prop :=
  (∃ front c more, cs = front ++ c :: more ∧ (∀ d ∈ front, d.Skipped) ∧ ¬ c.Skipped ∧
    c ≠ .endOfLine) ∧ ∀ t ∈ ts, t.token = .cs "par" → Written log t

def KnownLine (log : List Event) (cs : List Category) (ts : List Lexeme) : Prop :=
  BlankLine cs ts ∨ ParLine cs ts ∨ TextLine log cs ts

theorem Written.mono {t : Lexeme} (h : Written log t) (hsub : log ⊆ log') : Written log' t := by
  obtain ⟨span, hspan, hmem⟩ := h
  exact ⟨span, hspan, hsub hmem⟩

theorem TextLine.mono (h : TextLine log cs ts) (hsub : log ⊆ log') : TextLine log' cs ts :=
  ⟨h.1, fun t ht hpar => (h.2 t ht hpar).mono hsub⟩

theorem KnownLine.mono (h : KnownLine log cs ts) (hsub : log ⊆ log') : KnownLine log' cs ts :=
  h.imp_right (Or.imp_right fun ht => ht.mono hsub)

theorem TextLine.append (h : TextLine log cs ts) (hsub : log ⊆ log') (more : List Category)
    {made : List Lexeme} (hmade : ∀ t ∈ made, t.token = .cs "par" → Written log' t) :
    TextLine log' (cs ++ more) (ts ++ made) := by
  obtain ⟨⟨front, c, rest, rfl, hfront, hc⟩, hts⟩ := h
  refine ⟨⟨front, c, rest ++ more, by simp, hfront, hc⟩, fun t ht hpar => ?_⟩
  rcases List.mem_append.mp ht with ht | ht
  · exact (hts t ht hpar).mono hsub
  · exact hmade t ht hpar

/-- Text begins in a blank line. -/
theorem BlankLine.text (h : BlankLine cs ts) {c : Category} (hc : ¬ c.Skipped)
    (he : c ≠ .endOfLine) (more : List Category) {made : List Lexeme}
    (hmade : ∀ t ∈ made, t.token = .cs "par" → Written log' t) :
    TextLine log' (cs ++ c :: more) (ts ++ made) := by
  obtain ⟨rfl, hcs⟩ := h
  exact ⟨⟨cs, c, more, rfl, hcs, hc, he⟩, hmade⟩

theorem BlankLine.skip (h : BlankLine cs ts) {c : Category} (hc : c.Skipped) :
    BlankLine (cs ++ [c]) ts :=
  ⟨h.1, List.forall_mem_append.mpr ⟨h.2, List.forall_mem_singleton.mpr hc⟩⟩

/-- The first character that is no blank decides. -/
theorem eq_of_blanks {front blanks : List Category} {c d : Category} {more rest : List Category}
    (h : front ++ c :: more = blanks ++ d :: rest) (hfront : ∀ e ∈ front, e.Skipped)
    (hblanks : ∀ e ∈ blanks, e.Skipped) (hc : ¬ c.Skipped) (hd : ¬ d.Skipped) : c = d := by
  induction front generalizing blanks with
  | nil =>
    cases blanks with
    | nil => exact (List.cons.inj h).1
    | cons e blanks =>
      have he : c = e := (List.cons.inj h).1
      exact absurd (he ▸ hblanks e List.mem_cons_self) hc
  | cons e front ih =>
    cases blanks with
    | nil =>
      have he : e = d := (List.cons.inj h).1
      exact absurd (he ▸ hfront e List.mem_cons_self) hd
    | cons f blanks =>
      exact ih (List.cons.inj h).2 (fun x hx => hfront x (List.mem_cons_of_mem e hx))
        fun x hx => hblanks x (List.mem_cons_of_mem f hx)

theorem not_skipped_endOfLine : ¬ Category.endOfLine.Skipped := by simp [Category.Skipped]

/-- A paragraph end that is not written is all that a known line has. -/
theorem KnownLine.par (h : KnownLine log cs ts) {t : Lexeme} (ht : t ∈ ts)
    (hpar : t.token = .cs "par") (hw : ¬ Written log t) : ParLine cs ts ∧ ts = [t] := by
  rcases h with h | h | h
  · rw [h.1] at ht
    cases ht
  · obtain ⟨front, u, hcs, hfront, hts, hu⟩ := h
    have htu : t = u := by rwa [hts, List.mem_singleton] at ht
    subst htu
    exact ⟨⟨front, t, hcs, hfront, hts, hu⟩, hts⟩
  · exact absurd (h.2 t ht hpar) hw

/-- A known line that ends behind nothing but blanks is a paragraph end. -/
theorem KnownLine.of_blanks (h : KnownLine log cs ts) {blanks rest : List Category}
    (hcs : cs = blanks ++ .endOfLine :: rest) (hblanks : ∀ c ∈ blanks, c.Skipped) :
    ParLine cs ts := by
  rcases h with h | h | h
  · have hend : Category.endOfLine ∈ cs := by simp [hcs]
    exact absurd (h.2 _ hend) not_skipped_endOfLine
  · exact h
  · obtain ⟨⟨front, c, more, hfront, hskipped, hc, hne⟩, -⟩ := h
    exact absurd
      (eq_of_blanks (hfront.symm.trans hcs) hskipped hblanks hc not_skipped_endOfLine) hne

/-! ## Filters of logs -/

theorem stream_append (log more : List Event) :
    stream (log ++ more) = stream log ++ stream more := List.filterMap_append

theorem tokensOn_append (n : Nat) (log more : List Event) :
    tokensOn n (log ++ more) = tokensOn n log ++ tokensOn n more := by
  simp only [tokensOn, stream_append, List.filter_append]

theorem scannedOn_append (n : Nat) (log more : List Event) :
    scannedOn n (log ++ more) = scannedOn n log ++ scannedOn n more := List.filterMap_append

/-- Characters of one line, and the token that they make. -/
def ofLine (line : Nat) (seen : List (Nat × Category)) (made : Option Lexeme) : List Event :=
  (seen.map fun d => .scanned ⟨line, d.1⟩ d.2) ++ made.toList.map .delivered

theorem stream_ofLine (line : Nat) (seen : List (Nat × Category)) (made : Option Lexeme) :
    stream (ofLine line seen made) = made.toList := by
  unfold ofLine
  rw [stream_append]
  have hseen : stream (seen.map fun d => .scanned ⟨line, d.1⟩ d.2) = [] := by
    simp [stream, List.filterMap_map, Function.comp_def, token?]
  rw [hseen]
  cases made <;> rfl

theorem scannedOn_ofLine (line n : Nat) (seen : List (Nat × Category)) (made : Option Lexeme) :
    scannedOn n (ofLine line seen made) = if line = n then seen.map (·.2) else [] := by
  unfold ofLine
  rw [scannedOn_append]
  have hmade : scannedOn n (made.toList.map .delivered) = [] := by cases made <;> rfl
  rw [hmade, List.append_nil]
  simp only [scannedOn, List.filterMap_map]
  split
  · rename_i h
    have hseen : categoryOn? n ∘ (fun d : Nat × Category => .scanned ⟨line, d.1⟩ d.2) =
        some ∘ (·.2) := funext fun d => if_pos h
    rw [hseen, List.filterMap_eq_map]
  · rename_i h
    simp [categoryOn?, h]

theorem tokensOn_ofLine {line : Nat} (n : Nat) (seen : List (Nat × Category))
    {made : Option Lexeme} (h : ∀ t ∈ made, t.line? = some line) :
    tokensOn n (ofLine line seen made) = if line = n then made.toList else [] := by
  unfold tokensOn
  rw [stream_ofLine]
  cases made with
  | none => simp
  | some t =>
    have ht := h t rfl
    split
    · rename_i hn
      simp [ht, hn]
    · rename_i hn
      simp [ht, hn]

/-- A token of a line in which no escape character was scanned is not written. -/
theorem not_written {t : Lexeme} (ht : t ∈ tokensOn n log) (h : .escape ∉ scannedOn n log) :
    ¬ Written log t := by
  rintro ⟨span, hspan, hmem⟩
  have hline : t.line? = some n := by simpa using (List.mem_filter.mp ht).2
  rw [Lexeme.line?, hspan] at hline
  have hn : span.start.line = n := Option.some.inj hline
  exact h (List.mem_filterMap.mpr ⟨_, hmem, by simp [categoryOn?, hn]⟩)

/-! ## Spaces in a stream -/

/-- Behind a token that is no space and stands in the same line. -/
def SpacesNormal (ts : List Lexeme) : Prop :=
  ∀ front t back, ts = front ++ t :: back → t.token.isSpace = true →
    ∃ u, front.getLast? = some u ∧ u.token.isSpace = false ∧ u.line? = t.line?

theorem SpacesNormal.snoc (h : SpacesNormal ts) {t : Lexeme}
    (ht : t.token.isSpace = true →
      ∃ u, ts.getLast? = some u ∧ u.token.isSpace = false ∧ u.line? = t.line?) :
    SpacesNormal (ts ++ [t]) := by
  intro front u back hsplit hu
  rcases List.eq_nil_or_concat back with rfl | ⟨back, v, rfl⟩
  · obtain ⟨rfl, hlast⟩ := List.append_inj' hsplit rfl
    cases hlast
    exact ht hu
  · rw [List.concat_eq_append, ← List.cons_append, ← List.append_assoc] at hsplit
    exact h front u back (List.append_inj' hsplit rfl).1 hu

end Event

/-! ## The invariant -/

namespace Lexer

open Event

variable {a : Alphabet} {l m : Lexer} {log : List Event}

/-- What a log says of the lexer that it led to. -/
structure Normal (log : List Event) (l : Lexer) : Prop where
  spaces : SpacesNormal (stream log)
  known : ∀ n, KnownLine log (scannedOn n log) (tokensOn n log)
  ahead : ∀ n, l.line < n → scannedOn n log = [] ∧ tokensOn n log = []
  entered : l.cursor.rest ≠ [] → 1 ≤ l.line
  mid : l.cursor.state = .midLine →
    ∃ u, (stream log).getLast? = some u ∧ u.token.isSpace = false ∧ u.line? = some l.line
  fresh : l.cursor.rest ≠ [] → l.cursor.state = .newLine →
    BlankLine (scannedOn l.line log) (tokensOn l.line log)
  begun : l.cursor.rest ≠ [] → l.cursor.state ≠ .newLine →
    TextLine log (scannedOn l.line log) (tokensOn l.line log)

theorem normal_start (lines : List String) (strict : Bool) :
    Normal [] { lines := lines, strict := strict } where
  spaces front t back h := by simp [stream] at h
  known n := Or.inl ⟨rfl, nofun⟩
  ahead n _ := ⟨rfl, rfl⟩
  entered h := absurd rfl h
  mid := nofun
  fresh h := absurd rfl h
  begun h := absurd rfl h

/-- The events of a line are added to a log. -/
theorem Normal.extend (h : Normal log l) (hline : 1 ≤ l.line) {seen : List (Nat × Category)}
    {made : Option Lexeme} {after : Cursor} (hmade : ∀ t ∈ made, t.line? = some l.line)
    (hspace : ∀ t ∈ made, t.token.isSpace = true → l.cursor.state = .midLine)
    (hmid : after.state = .midLine → made = none ∧ l.cursor.state = .midLine ∨
      ∃ t, made = some t ∧ t.token.isSpace = false)
    (hknown : KnownLine (log ++ ofLine l.line seen made)
      (scannedOn l.line log ++ seen.map (·.2)) (tokensOn l.line log ++ made.toList))
    (hfresh : after.rest ≠ [] → after.state = .newLine →
      BlankLine (scannedOn l.line log ++ seen.map (·.2)) (tokensOn l.line log ++ made.toList))
    (hbegun : after.rest ≠ [] → after.state ≠ .newLine →
      TextLine (log ++ ofLine l.line seen made)
        (scannedOn l.line log ++ seen.map (·.2)) (tokensOn l.line log ++ made.toList)) :
    Normal (log ++ ofLine l.line seen made) { l with cursor := after } := by
  have hscanned : scannedOn l.line (log ++ ofLine l.line seen made) =
      scannedOn l.line log ++ seen.map (·.2) := by
    rw [scannedOn_append, scannedOn_ofLine, if_pos rfl]
  have htokens : tokensOn l.line (log ++ ofLine l.line seen made) =
      tokensOn l.line log ++ made.toList := by
    rw [tokensOn_append, tokensOn_ofLine _ _ hmade, if_pos rfl]
  have hother (n : Nat) (hn : l.line ≠ n) :
      scannedOn n (log ++ ofLine l.line seen made) = scannedOn n log ∧
        tokensOn n (log ++ ofLine l.line seen made) = tokensOn n log := by
    rw [scannedOn_append, scannedOn_ofLine, tokensOn_append, tokensOn_ofLine _ _ hmade,
      if_neg hn, if_neg hn, List.append_nil, List.append_nil]
    exact ⟨rfl, rfl⟩
  have hstream : stream (log ++ ofLine l.line seen made) = stream log ++ made.toList := by
    rw [stream_append, stream_ofLine]
  refine ⟨?_, fun n => ?_, fun n hn => ?_, fun _ => hline, fun hs => ?_, fun hr hs => ?_,
    fun hr hs => ?_⟩
  · rw [hstream]
    cases made with
    | none => simpa using h.spaces
    | some t =>
      refine h.spaces.snoc fun ht => ?_
      obtain ⟨u, hu, hnot, hl⟩ := h.mid (hspace t rfl ht)
      exact ⟨u, hu, hnot, hl.trans (hmade t rfl).symm⟩
  · by_cases hn : l.line = n
    · subst hn
      rw [hscanned, htokens]
      exact hknown
    · rw [(hother n hn).1, (hother n hn).2]
      exact (h.known n).mono (List.subset_append_left _ _)
  · have hne : l.line ≠ n := Nat.ne_of_lt hn
    rw [(hother n hne).1, (hother n hne).2]
    exact h.ahead n hn
  · rw [hstream]
    rcases hmid hs with ⟨rfl, hstate⟩ | ⟨t, rfl, ht⟩
    · obtain ⟨u, hu, hnot, hl⟩ := h.mid hstate
      exact ⟨u, by simpa using hu, hnot, hl⟩
    · exact ⟨t, by simp, ht, hmade t rfl⟩
  · rw [hscanned, htokens]
    exact hfresh hr hs
  · rw [hscanned, htokens]
    exact hbegun hr hs

/-- Where text has been read, anything makes the line go on as text. -/
theorem Normal.extend_text (h : Normal log l) (hline : 1 ≤ l.line) {seen : List (Nat × Category)}
    {made : Option Lexeme} {after : Cursor} (hmade : ∀ t ∈ made, t.line? = some l.line)
    (hspace : ∀ t ∈ made, t.token.isSpace = true → l.cursor.state = .midLine)
    (hmid : after.state = .midLine → made = none ∧ l.cursor.state = .midLine ∨
      ∃ t, made = some t ∧ t.token.isSpace = false)
    (htext : TextLine (log ++ ofLine l.line seen made)
      (scannedOn l.line log ++ seen.map (·.2)) (tokensOn l.line log ++ made.toList))
    (hstate : after.rest ≠ [] → after.state ≠ .newLine) :
    Normal (log ++ ofLine l.line seen made) { l with cursor := after } :=
  h.extend hline hmade hspace hmid (Or.inr (Or.inr htext)) (fun hr hs => absurd hs (hstate hr))
    fun _ _ => htext

/-- A character that makes no token and ends no line. -/
theorem Normal.skip (h : Normal log l) (hline : 1 ≤ l.line) (hrest : l.cursor.rest ≠ [])
    {cat : Category} (hcat : cat.Skipped) (column : Nat) (rest : List Char) :
    Normal (log ++ ofLine l.line [(column + 1, cat)] none)
      { l with cursor := l.cursor.advance rest l.cursor.state } := by
  have hmid : (l.cursor.advance rest l.cursor.state).state = .midLine →
      (none : Option Lexeme) = none ∧ l.cursor.state = .midLine ∨
        ∃ t, (none : Option Lexeme) = some t ∧ t.token.isSpace = false :=
    fun hs => Or.inl ⟨rfl, hs⟩
  by_cases hs : l.cursor.state = .newLine
  · have hblank : BlankLine (scannedOn l.line log ++ [cat]) (tokensOn l.line log ++ []) := by
      rw [List.append_nil]
      exact (h.fresh hrest hs).skip hcat
    exact h.extend hline nofun nofun hmid (Or.inl hblank) (fun _ _ => hblank)
      fun _ hn => absurd hs hn
  · refine h.extend_text hline nofun nofun hmid ?_ fun _ => hs
    exact (h.begun hrest hs).append (List.subset_append_left _ _) _ nofun

/-- A character that begins or goes on with text. -/
theorem Normal.text (h : Normal log l) (hline : 1 ≤ l.line) (hrest : l.cursor.rest ≠ [])
    {first : Nat × Category} {more : List (Nat × Category)} {made : Option Lexeme} {after : Cursor}
    (hcat : l.cursor.state = .newLine → ¬ first.2.Skipped ∧ first.2 ≠ .endOfLine)
    (hmade : ∀ t ∈ made, t.line? = some l.line)
    (hspace : ∀ t ∈ made, t.token.isSpace = true → l.cursor.state = .midLine)
    (hmid : after.state = .midLine → made = none ∧ l.cursor.state = .midLine ∨
      ∃ t, made = some t ∧ t.token.isSpace = false)
    (hpar : ∀ t ∈ made, t.token = .cs "par" →
      Written (log ++ ofLine l.line (first :: more) made) t)
    (hstate : after.rest ≠ [] → after.state ≠ .newLine) :
    Normal (log ++ ofLine l.line (first :: more) made) { l with cursor := after } := by
  refine h.extend_text hline hmade hspace hmid ?_ hstate
  have hlist : ∀ t ∈ made.toList, t.token = .cs "par" →
      Written (log ++ ofLine l.line (first :: more) made) t :=
    fun t ht => hpar t (Option.mem_toList.mp ht)
  by_cases hs : l.cursor.state = .newLine
  · exact (h.fresh hrest hs).text (hcat hs).1 (hcat hs).2 _ hlist
  · exact (h.begun hrest hs).append (List.subset_append_left _ _) _ hlist

/-! ### A scan -/

section scan

variable {ch : Char} {rest : List Char} {column : Nat} {state : LineState}

theorem line?_lexeme (hline : 1 ≤ l.line) (t : Token) (start : Nat) (after : Cursor) :
    ∀ u ∈ some (l.lexeme t start after), u.line? = some l.line := by
  intro u hu
  cases hu
  exact congrArg some (Nat.max_eq_left hline)

/-- A character is dropped. -/
theorem Normal.skipped (h : Normal log { l with cursor := ⟨ch :: rest, column, state⟩ })
    (hline : 1 ≤ l.line) {cat : Category} (hcat : cat.Skipped) :
    Normal (log ++ ofLine l.line [(column + 1, cat)] none)
      { l with cursor := ⟨rest, column + 1, state⟩ } :=
  h.skip hline (List.cons_ne_nil ch rest) hcat column rest

/-- A comment, or the end of a line whose blanks are skipped. -/
theorem Normal.stopped (h : Normal log { l with cursor := ⟨ch :: rest, column, state⟩ })
    (hline : 1 ≤ l.line) {cat : Category}
    (hcat : state = .newLine → ¬ cat.Skipped ∧ cat ≠ .endOfLine) {after : Cursor}
    (hrest : after.rest = []) (hstate : after.state = .midLine → state = .midLine) :
    Normal (log ++ ofLine l.line [(column + 1, cat)] none) { l with cursor := after } :=
  h.text hline (List.cons_ne_nil ch rest) hcat nofun nofun (fun hs => Or.inl ⟨rfl, hstate hs⟩)
    nofun fun hr => absurd hrest hr

/-- A space, which text stands before. -/
theorem Normal.spaced (h : Normal log { l with cursor := ⟨ch :: rest, column, .midLine⟩ })
    (hline : 1 ≤ l.line) (cat : Category) {after : Cursor} (hstate : after.state ≠ .midLine)
    (hafter : after.rest ≠ [] → after.state ≠ .newLine) :
    Normal (log ++ ofLine l.line [(column + 1, cat)]
      (some (l.lexeme (.ch ' ' .space) column after))) { l with cursor := after } :=
  h.text hline (List.cons_ne_nil ch rest) nofun (line?_lexeme hline _ _ _) (fun _ _ _ => rfl)
    (fun hs => absurd hs hstate) (fun t ht hpar => by cases ht; cases hpar) hafter

/-- A control sequence. -/
theorem Normal.controlled (h : Normal log { l with cursor := ⟨ch :: rest, column, state⟩ })
    (hline : 1 ≤ l.line) (name : String) (more : List (Nat × Category)) {after : Cursor}
    (hafter : after.state ≠ .newLine) :
    Normal (log ++ ofLine l.line ((column + 1, .escape) :: more)
      (some (l.lexeme (.cs name) column after))) { l with cursor := after } := by
  refine h.text hline (List.cons_ne_nil ch rest)
    (fun _ => ⟨by simp [Category.Skipped], nofun⟩) (line?_lexeme hline _ _ _)
    (fun t ht hspace => by cases ht; cases hspace) (fun _ => Or.inr ⟨_, rfl, rfl⟩) ?_
    fun _ => hafter
  intro t ht _
  cases ht
  have hplace : l.place column = ⟨l.line, column + 1⟩ := by
    simp only [place, Nat.max_eq_left hline]
  refine ⟨_, rfl, List.mem_append_right log (List.mem_append_left _ ?_)⟩
  rw [hplace]
  exact List.mem_cons_self

/-- A character that stands for itself. -/
theorem Normal.character (h : Normal log { l with cursor := ⟨ch :: rest, column, state⟩ })
    (hline : 1 ≤ l.line) {cat : Category} (hcat : ¬ cat.Skipped) (hend : cat ≠ .endOfLine) :
    Normal (log ++ ofLine l.line [(column + 1, cat)]
        (some (l.lexeme (.ch ch cat) column ⟨rest, column + 1, .midLine⟩)))
      { l with cursor := ⟨rest, column + 1, .midLine⟩ } := by
  have hspace : (Token.ch ch cat).isSpace = false := by
    simpa [Token.isSpace, Token.hasCategory] using fun hs => hcat (Or.inl hs)
  refine h.text hline (List.cons_ne_nil ch rest) (fun _ => ⟨hcat, hend⟩) (line?_lexeme hline _ _ _)
    (fun t ht hs => ?_) (fun _ => Or.inr ⟨_, rfl, hspace⟩)
    (fun t ht hpar => by cases ht; cases hpar) fun _ => nofun
  cases ht
  exact absurd hs (by rw [lexeme, hspace]; exact nofun)

/-- A line in which nothing has been read. -/
theorem Normal.parEnded (h : Normal log { l with cursor := ⟨ch :: rest, column, .newLine⟩ })
    (hline : 1 ≤ l.line) {after : Cursor} (hrest : after.rest = [])
    (hafter : after.state ≠ .midLine) :
    Normal (log ++ ofLine l.line [(column + 1, .endOfLine)]
      (some (l.lexeme (.cs "par") column after))) { l with cursor := after } := by
  obtain ⟨htokens, hskipped⟩ := h.fresh (List.cons_ne_nil ch rest) rfl
  refine h.extend hline (line?_lexeme hline _ _ _)
    (fun t ht hspace => by cases ht; cases hspace) (fun hs => absurd hs hafter)
    (Or.inr (Or.inl ?_)) (fun hr => absurd hrest hr) fun hr => absurd hrest hr
  exact ⟨_, _, rfl, hskipped, by rw [htokens]; rfl, rfl⟩

end scan

theorem scanControl_state (cats : CategoryTable) (c : Cursor) :
    (scanControl cats c).2.state ≠ .newLine := by
  unfold scanControl
  cases c.rest with
  | nil => exact nofun
  | cons ch rest =>
    dsimp only
    split
    · exact nofun
    · dsimp only [Cursor.advance]
      split <;> exact nofun

theorem exists_scanControl (cats : CategoryTable) (c : Cursor) :
    ∃ name, (scanControl cats c).1 = .cs name := by
  unfold scanControl
  cases c.rest with
  | nil => exact ⟨_, rfl⟩
  | cons ch rest =>
    dsimp only
    split <;> exact ⟨_, rfl⟩

/-- The token of a scan. -/
def made? (l : Lexer) : Scanned → Option Lexeme
  | .token t start after => some (l.lexeme t start after)
  | _ => none

/-- The columns and categories of characters that stand from a column on. -/
def seenFrom (cats : CategoryTable) (column : Nat) (s : List Char) : List (Nat × Category) :=
  (s.zipIdx column).map fun d => (d.2 + 1, cats.of d.1)

theorem seenFrom_cons (cats : CategoryTable) (column : Nat) (ch : Char) (s : List Char) :
    seenFrom cats column (ch :: s) =
      (column + 1, cats.of ch) :: seenFrom cats (column + 1) s := rfl

theorem ofLine_cons (line : Nat) (d : Nat × Category) (seen : List (Nat × Category))
    (made : Option Lexeme) : ofLine line (d :: seen) made =
      ofLine line [d] none ++ ofLine line seen made := rfl

/-- A scan of the current line keeps the invariant. -/
theorem Normal.scanLine (cats : CategoryTable) (hline : 1 ≤ l.line) (state : LineState)
    (column : Nat) (s : List Char)
    (h : Normal log { l with cursor := ⟨s, column, state⟩ }) :
    Normal (log ++ ofLine l.line (seenFrom cats column (scannedFrom cats l.strict state s))
        (l.made? (scanFrom cats l.strict state column s)))
      { l with cursor := (scanFrom cats l.strict state column s).after } := by
  induction s generalizing column log with
  | nil =>
    change Normal (log ++ []) { l with cursor := ⟨[], column, state⟩ }
    rwa [List.append_nil]
  | cons ch rest ih =>
    have passed {cat : Category} (hcat : cat.Skipped) :
        Normal (log ++ ofLine l.line
            ((column + 1, cat) :: seenFrom cats (column + 1) (scannedFrom cats l.strict state rest))
            (l.made? (scanFrom cats l.strict state (column + 1) rest)))
          { l with cursor := (scanFrom cats l.strict state (column + 1) rest).after } := by
      have hlater := ih (column + 1) (h.skipped hline hcat)
      rwa [List.append_assoc, ← ofLine_cons] at hlater
    unfold scannedFrom scanFrom
    rw [seenFrom_cons]
    cases hc : cats.of ch with
    | escape =>
      obtain ⟨name, hname⟩ := exists_scanControl cats ⟨rest, column + 1, state⟩
      have hcontrol := h.controlled hline name (seenFrom cats (column + 1) (controlName cats rest))
        (scanControl_state cats ⟨rest, column + 1, state⟩)
      rw [← hname] at hcontrol
      exact hcontrol
    | endOfLine =>
      cases state with
      | midLine => exact h.spaced hline _ (by simp [Cursor.toEnd]) fun hr => absurd rfl hr
      | skipBlanks => exact h.stopped hline (by simp) rfl (by simp [Scanned.after, Cursor.toEnd])
      | newLine => exact h.parEnded hline rfl (by simp [Cursor.toEnd])
    | comment =>
      have hcomment : state = .newLine →
          ¬ Category.comment.Skipped ∧ Category.comment ≠ .endOfLine :=
        fun _ => ⟨by simp [Category.Skipped], by simp⟩
      exact h.stopped hline hcomment rfl id
    | space =>
      simp only
      split
      · rename_i hs
        subst hs
        exact h.spaced hline _ (by simp) fun _ => by simp
      · exact passed (Or.inl rfl)
    | ignored => exact passed (Or.inr (Or.inl rfl))
    | invalid =>
      simp only
      split
      · exact h.skipped hline (Or.inr (Or.inr rfl))
      · exact passed (Or.inr (Or.inr rfl))
    | _ =>
      refine h.character hline ?_ ?_
      · simp [Category.Skipped]
      · simp

/-! ### Readings -/

theorem scannedHere_made (hline : 1 ≤ l.line) (made : Option Lexeme) :
    l.scannedHere a ++ made.toList.map .delivered =
      ofLine l.line (seenFrom a.categories l.cursor.column
        (scannedFrom a.categories l.strict l.cursor.state l.cursor.rest)) made := by
  simp only [scannedHere, ofLine, seenFrom, List.map_map, place, Nat.max_eq_left hline,
    Function.comp_def]

theorem Normal.scanHere (a : Alphabet) (h : Normal log l) :
    Normal (log ++ (l.scannedHere a ++
        (l.made? (l.cursor.scan a.categories l.strict)).toList.map .delivered))
      { l with cursor := (l.cursor.scan a.categories l.strict).after } := by
  by_cases hrest : l.cursor.rest = []
  · rw [scan_of_rest hrest, scannedHere, hrest]
    change Normal (log ++ []) l
    rwa [List.append_nil]
  · have hline := h.entered hrest
    rw [scannedHere_made hline]
    exact Normal.scanLine a.categories hline l.cursor.state l.cursor.column l.cursor.rest h

/-- The next line is entered with nothing read of it. -/
theorem Normal.enter (h : Normal log l) (a : Alphabet) (line : String) (more : List String) :
    Normal log (l.enter a line more) where
  spaces := h.spaces
  known := h.known
  ahead n hn := h.ahead n (Nat.lt_of_succ_lt hn)
  entered _ := Nat.succ_pos _
  mid hs := by cases hs
  fresh _ _ := by
    obtain ⟨hscanned, htokens⟩ := h.ahead (l.line + 1) (Nat.lt_succ_self _)
    exact ⟨htokens, by rw [Lexer.enter, hscanned]; exact List.forall_mem_nil _⟩
  begun _ hs := absurd rfl hs

theorem Normal.nextFrom (h : Normal log l) (pending : List String) :
    Normal (log ++ (l.scanning a pending ++
        (l.nextFrom a pending).lexeme?.toList.map .delivered))
      (l.nextFrom a pending).after := by
  fun_induction Lexer.nextFrom a l pending generalizing log with
  | case1 pending l t start after hs =>
    have hscan := h.scanHere a
    rw [hs] at hscan
    have hscanning : l.scanning a pending = l.scannedHere a := by
      unfold scanning
      cases pending <;> simp [hs]
    rw [hscanning]
    exact hscan
  | case2 pending l c start after hs =>
    have hscan := h.scanHere a
    rw [hs] at hscan
    have hscanning : l.scanning a pending = l.scannedHere a := by
      unfold scanning
      cases pending <;> simp [hs]
    rw [hscanning]
    exact hscan
  | case3 l after hs =>
    have hscan := h.scanHere a
    rw [hs] at hscan
    have hscanning : l.scanning a [] = l.scannedHere a := List.append_nil _
    rw [hscanning]
    exact hscan
  | case4 l after hs line more ih =>
    have hscan := h.scanHere a
    rw [hs] at hscan
    have hscanning : l.scanning a (line :: more) =
        l.scannedHere a ++ (l.enter a line more).scanning a more := by
      rw [scanning, hs]
    have hnone : l.made? (.finished after) = none := rfl
    rw [hnone, Option.toList_none, List.map_nil, List.append_nil] at hscan
    have hrest := ih (hscan.enter a line more)
    rw [hscanning, List.append_assoc, ← List.append_assoc log]
    exact hrest

theorem Logs.normal {lines : List String} {strict : Bool}
    (h : Logs { lines := lines, strict := strict } log m) : Normal log m := by
  induction h with
  | start => exact normal_start lines strict
  | read h a ih => exact ih.nextFrom _

theorem stream_scanning (a : Alphabet) (l : Lexer) (pending : List String) :
    stream (l.scanning a pending) = [] := by
  have hhere (l : Lexer) : stream (l.scannedHere a) = [] := by
    simp [stream, scannedHere, List.filterMap_map, Function.comp_def, token?]
  induction pending generalizing l with
  | nil =>
    rw [scanning, List.append_nil]
    exact hhere l
  | cons line more ih =>
    rw [scanning, stream_append, hhere l, List.nil_append]
    cases l.cursor.scan a.categories l.strict with
    | token t start after => rfl
    | invalid c start after => rfl
    | finished after => exact ih _

/-- The tokens of a reading's events are what it delivers. -/
theorem stream_events (a : Alphabet) (l : Lexer) :
    stream (l.events a) = (l.next a).lexeme?.toList := by
  rw [events, stream_append, stream_scanning, List.nil_append]
  cases (l.next a).lexeme? <;> rfl

/-- What has been delivered comes from a line. -/
theorem Logs.exists_line (h : Logs l log m) : ∀ t ∈ stream log, ∃ n, t.line? = some n := by
  induction h with
  | start => exact nofun
  | @read log m h a ih =>
    intro t ht
    rw [stream_append, stream_events] at ht
    rcases List.mem_append.mp ht with ht | ht
    · exact ih t ht
    · cases hn : m.next a with
      | token u after =>
        rw [hn] at ht
        obtain rfl := List.mem_singleton.mp ht
        obtain ⟨span, hspan⟩ := exists_span_of_next hn
        exact ⟨span.start.line, by rw [Lexeme.line?, hspan]; rfl⟩
      | invalid c place after =>
        rw [hn] at ht
        cases ht
      | finished after =>
        rw [hn] at ht
        cases ht

/-! ## Spaces and ends of paragraphs -/

/-- In every log, a space is delivered right behind a token of the same line that is no space and no
end of a blank line. Of a line comes a paragraph end that is not written as a control sequence just
if its end was scanned behind nothing but blanks; and then it is all that comes of the line. -/
theorem Logs.spaces_normal {lines : List String} {strict : Bool}
    (h : Logs { lines := lines, strict := strict } log m) :
    (∀ front t back, stream log = front ++ t :: back → t.token.isSpace = true →
      ∃ u, front.getLast? = some u ∧ u.token.isSpace = false ∧ u.line? = t.line? ∧
        (u.token = .cs "par" → Written log u)) ∧
    ∀ n,
      ((∃ t ∈ tokensOn n log, t.token = .cs "par" ∧ ¬ Written log t) ↔
        ∃ blanks rest, scannedOn n log = blanks ++ .endOfLine :: rest ∧ ∀ c ∈ blanks, c.Skipped) ∧
      ∀ t ∈ tokensOn n log, t.token = .cs "par" → ¬ Written log t → tokensOn n log = [t] := by
  have hnormal := h.normal
  refine ⟨fun front t back hsplit ht => ?_, fun n => ⟨⟨?_, ?_⟩, ?_⟩⟩
  · obtain ⟨u, hu, hnot, hline⟩ := hnormal.spaces front t back hsplit ht
    refine ⟨u, hu, hnot, hline, fun hpar => Classical.byContradiction fun hw => ?_⟩
    -- the space would be a second token of the blank line that the paragraph end came of
    have hmem : t ∈ stream log := by rw [hsplit]; simp
    have hmem' : u ∈ stream log := by
      rw [hsplit]
      exact List.mem_append_left _ (List.mem_of_getLast? hu)
    obtain ⟨n, hn⟩ := h.exists_line t hmem
    have htn : t ∈ tokensOn n log := List.mem_filter.mpr ⟨hmem, by simp [hn]⟩
    have hun : u ∈ tokensOn n log := List.mem_filter.mpr ⟨hmem', by simp [hline, hn]⟩
    have hall := ((hnormal.known n).par hun hpar hw).2
    rw [hall, List.mem_singleton] at htn
    rw [htn, hnot] at ht
    cases ht
  · rintro ⟨t, ht, hpar, hw⟩
    obtain ⟨⟨front, u, hcs, hfront, -⟩, -⟩ := (hnormal.known n).par ht hpar hw
    exact ⟨front, [], hcs, hfront⟩
  · rintro ⟨blanks, rest, hcs, hblanks⟩
    obtain ⟨front, t, hfront, hskipped, htokens, hpar⟩ :=
      (hnormal.known n).of_blanks hcs hblanks
    have ht : t ∈ tokensOn n log := by rw [htokens]; exact List.mem_singleton_self t
    refine ⟨t, ht, hpar, not_written ht fun hescape => ?_⟩
    rw [hfront] at hescape
    rcases List.mem_append.mp hescape with hescape | hescape
    · exact absurd (hskipped _ hescape) (by simp [Category.Skipped])
    · cases List.mem_singleton.mp hescape
  · intro t ht hpar hw
    exact ((hnormal.known n).par ht hpar hw).2

/-- Tildes are blanks, and two characters stand at the end of each line. -/
def tildesBlank : Alphabet :=
  { categories := CategoryTable.plain.set 126 .space, endLine := some "\rx" }

/-- Both lines end behind a tilde; the alphabet changes in the first one. -/
theorem Logs.spaces_normal_tildesBlank :
    let log := (Lexer.logged { lines := ["a ~", " ~"] } ({} :: List.replicate 4 tildesBlank)).1
    (stream log).map (·.token) = [.ch 'a' .letter, .ch ' ' .space, .cs "par"] ∧
      (∀ front t back, stream log = front ++ t :: back → t.token.isSpace = true →
        ∃ u, front.getLast? = some u ∧ u.token.isSpace = false ∧ u.line? = t.line?) ∧
      ∃ t ∈ tokensOn 2 log, t.token = .cs "par" ∧ ¬ Written log t ∧ tokensOn 2 log = [t] := by
  intro log
  have hlogs := (@Logs.start { lines := ["a ~", " ~"] }).logged
    ({} :: List.replicate 4 tildesBlank)
  rw [List.nil_append] at hlogs
  have hnormal := hlogs.spaces_normal
  have hscanned : scannedOn 2 log = [.space, .space, .endOfLine] := by decide +kernel
  obtain ⟨t, ht, hpar, hw⟩ := (hnormal.2 2).1.mpr
    ⟨[.space, .space], [], hscanned, by simp [Category.Skipped]⟩
  refine ⟨by decide +kernel, fun front u back hsplit hu => ?_, t, ht, hpar, hw, ?_⟩
  · obtain ⟨v, hv, hnot, hline, -⟩ := hnormal.1 front u back hsplit hu
    exact ⟨v, hv, hnot, hline⟩
  · exact (hnormal.2 2).2 t ht hpar hw

end Lexer

end Galley
