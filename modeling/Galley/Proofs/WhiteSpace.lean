import Galley.Proofs.Extension
import Galley.Proofs.Legible
import Mathlib.Data.List.Forall2

/-!
White space in lines. Lines that differ in the amount of their white space alone (`Respaced`) are
read alike under a fresh alphabet: cursors that agree (`Cursor.Agrees`) come to the same token, and
agree behind it; so the lines have the same tokens (`tokens_respaced`).
-/

namespace Galley

/-! ## Lines that differ in white space -/

def White (c : Char) : Prop := c = ' ' ∨ c = '\t'

instance : DecidablePred White := fun c => inferInstanceAs (Decidable (c = ' ' ∨ c = '\t'))

/-- Behind the given last character, the second text is the first one with other white space, but
not less than one character, in the place of each longest stretch of it; right behind a backslash it
is the same. -/
inductive Respaced : Option Char → List Char → List Char → Prop
  | nil (last : Option Char) : Respaced last [] []
  | char {last : Option Char} {s t : List Char} (c : Char) (hc : ¬ White c)
    (h : Respaced (some c) s t) : Respaced last (c :: s) (c :: t)
  | white {last : Option Char} {s t : List Char} (r r' : List Char) (hr : ∀ c ∈ r, White c)
    (hr' : ∀ c ∈ r', White c) (hne : r ≠ []) (hne' : r' ≠ []) (hlast : ∀ c ∈ last, ¬ White c)
    (hescape : last = some '\\' → r = r') (h : Respaced (some ' ') s t) :
    Respaced last (r ++ s) (r' ++ t)

/-- Lines with the same text, but for the amount of white space. -/
def RespacedLine (line line' : String) : Prop := Respaced none line.toList line'.toList

/-- The buffers of such lines. At the end there may be no white space in one of the two. -/
inductive RespacedBuffer : Option Char → List Char → List Char → Prop
  | ending {last : Option Char} (r r' : List Char) (hr : ∀ c ∈ r, White c)
    (hr' : ∀ c ∈ r', White c) (hescape : last = some '\\' → r = r') :
    RespacedBuffer last (r ++ ['\r']) (r' ++ ['\r'])
  | char {last : Option Char} {s t : List Char} (c : Char) (hc : ¬ White c)
    (h : RespacedBuffer (some c) s t) : RespacedBuffer last (c :: s) (c :: t)
  | white {last : Option Char} {s t : List Char} (r r' : List Char) (hr : ∀ c ∈ r, White c)
    (hr' : ∀ c ∈ r', White c) (hne : r ≠ []) (hne' : r' ≠ [])
    (hescape : last = some '\\' → r = r') (h : RespacedBuffer (some ' ') s t) :
    RespacedBuffer last (r ++ s) (r' ++ t)

theorem withoutTrailingSpaces_cons {c : Char} (hc : ¬ White c) (s : List Char) :
    withoutTrailingSpaces (c :: s) = c :: withoutTrailingSpaces s :=
  withoutTrailingSpaces_append [] (fun h => hc (Or.inl h)) s

theorem Respaced.buffer {last : Option Char} {s t : List Char} (h : Respaced last s t) :
    RespacedBuffer last (withoutTrailingSpaces s ++ ['\r'])
      (withoutTrailingSpaces t ++ ['\r']) := by
  induction h with
  | nil last =>
    exact .ending [] [] (List.forall_mem_nil _) (List.forall_mem_nil _) fun _ => rfl
  | char c hc h ih =>
    rw [withoutTrailingSpaces_cons hc, withoutTrailingSpaces_cons hc]
    exact .char c hc ih
  | white r r' hr hr' hne hne' hlast hescape h ih =>
    cases h with
    | nil =>
      -- what is left of white space at the end may be nothing
      rw [List.append_nil, List.append_nil]
      refine .ending _ _ (fun c hc => hr c (mem_of_withoutTrailingSpaces hc))
        (fun c hc => hr' c (mem_of_withoutTrailingSpaces hc)) fun hl => ?_
      rw [hescape hl]
    | char c hc h =>
      have hspace : c ≠ ' ' := fun h => hc (Or.inl h)
      rw [withoutTrailingSpaces_append r hspace, withoutTrailingSpaces_append r' hspace,
        List.append_assoc, List.append_assoc]
      rw [withoutTrailingSpaces_cons hc, withoutTrailingSpaces_cons hc] at ih
      exact .white r r' hr hr' hne hne' hescape ih
    | white _ _ _ _ _ _ hlast _ _ => exact absurd (Or.inl rfl) (hlast ' ' rfl)

/-! ## Plain categories -/

namespace CategoryTable

variable {c : Char}

theorem plain_space_iff : plain.of c = .space ↔ White c := by
  have hnarrow : ∀ n, n < 128 → plain.get n = .space → n = ' '.toNat ∨ n = '\t'.toNat := by decide
  constructor
  · intro h
    by_cases hc : c.toNat < 128
    · exact (hnarrow c.toNat hc h).imp Char.toNat_inj.mp Char.toNat_inj.mp
    · rw [of, plain_wide (Nat.le_of_not_lt hc)] at h
      cases h
  · rintro (rfl | rfl)
    · rfl
    · rfl

theorem eq_of_plain_escape (h : plain.of c = .escape) : c = '\\' := by
  have hnarrow : ∀ n, n < 128 → plain.get n = .escape → n = '\\'.toNat := by decide
  by_cases hc : c.toNat < 128
  · exact Char.toNat_inj.mp (hnarrow c.toNat hc h)
  · rw [of, plain_wide (Nat.le_of_not_lt hc)] at h
    cases h

end CategoryTable

/-! ## Cursors that agree -/

/-- Nothing is to come of this line. -/
def Cursor.Idle (c : Cursor) : Prop := ∀ strict, ∃ after, c.scan .plain strict = .finished after

/-- Two cursors in the same text, but for the amount of white space; where blanks are skipped it may
stand at the front and be less than one character. -/
inductive Cursor.Agrees : Cursor → Cursor → Prop
  | level {c d : Cursor} {last : Option Char} (hs : c.state = d.state)
    (h : RespacedBuffer last c.rest d.rest) : Agrees c d
  | skipping {last : Option Char} {s t : List Char} (q q' : List Char) (n m : Nat)
    (hq : ∀ c ∈ q, White c) (hq' : ∀ c ∈ q', White c) (h : RespacedBuffer last s t) :
    Agrees ⟨q ++ s, n, .skipBlanks⟩ ⟨q' ++ t, m, .skipBlanks⟩
  | idle {c d : Cursor} (hc : c.Idle) (hd : d.Idle) : Agrees c d

/-- Two scans come to the same, and the cursors behind them agree. -/
inductive Scanned.Agrees : Scanned → Scanned → Prop
  | token (t : Token) (n m : Nat) {c d : Cursor} (h : c.Agrees d) :
    Agrees (.token t n c) (.token t m d)
  | invalid (ch : Char) (n m : Nat) {c d : Cursor} (h : c.Agrees d) :
    Agrees (.invalid ch n c) (.invalid ch m d)
  | finished (c d : Cursor) : Agrees (.finished c) (.finished d)

section scan

variable {strict : Bool} {last : Option Char} {s t r : List Char}

theorem idle_of_rest {c : Cursor} (h : c.rest = []) : c.Idle :=
  fun strict => ⟨c, Lexer.scan_of_rest h .plain strict⟩

/-- White space is passed over, except in the middle of a line. -/
theorem scanFrom_white {state : LineState} (hs : state ≠ .midLine) (hr : ∀ c ∈ r, White c)
    (column : Nat) (s : List Char) :
    scanFrom .plain strict state column (r ++ s) =
      scanFrom .plain strict state (column + r.length) s := by
  induction r generalizing column with
  | nil => rfl
  | cons c r ih =>
    obtain ⟨hc, hr⟩ := List.forall_mem_cons.mp hr
    rw [List.cons_append, scanFrom, CategoryTable.plain_space_iff.mpr hc]
    simp only [if_neg hs]
    rw [ih hr, List.length_cons, Nat.add_right_comm]
    rfl

/-- There its first character makes a space. -/
theorem scanFrom_space {c : Char} (hc : White c) (column : Nat) (s : List Char) :
    scanFrom .plain strict .midLine column (c :: s) =
      .token (.ch ' ' .space) column ⟨s, column + 1, .skipBlanks⟩ := by
  rw [scanFrom, CategoryTable.plain_space_iff.mpr hc]
  rfl

/-- What comes at the end of a line, whatever white space stands before it. -/
theorem exists_scan_ending (strict : Bool) (state : LineState) (column : Nat)
    (hr : ∀ c ∈ r, White c) : ∃ start after, Cursor.Idle after ∧
      scanFrom .plain strict state column (r ++ ['\r']) =
        match state with
        | .midLine => .token (.ch ' ' .space) start after
        | .newLine => .token (.cs "par") start after
        | .skipBlanks => .finished after := by
  cases state with
  | newLine =>
    rw [scanFrom_white (by simp) hr]
    exact ⟨_, _, idle_of_rest rfl, rfl⟩
  | skipBlanks =>
    rw [scanFrom_white (by simp) hr]
    exact ⟨0, _, idle_of_rest rfl, rfl⟩
  | midLine =>
    cases r with
    | nil => exact ⟨_, _, idle_of_rest rfl, rfl⟩
    | cons c r =>
      obtain ⟨hc, hr⟩ := List.forall_mem_cons.mp hr
      refine ⟨column, ⟨r ++ ['\r'], column + 1, .skipBlanks⟩, fun strict => ?_, ?_⟩
      · rw [Cursor.scan, scanFrom_white (by simp) hr]
        exact ⟨_, rfl⟩
      · rw [List.cons_append, scanFrom_space hc]

/-- Whether a character belongs to a control word. -/
def isNameLetter (c : Char) : Bool := CategoryTable.plain.of c = .letter

theorem no_name {s : List Char} (h : ∀ c ∈ s.head?, isNameLetter c = false) :
    s.takeWhile isNameLetter = [] ∧ s.dropWhile isNameLetter = s := by
  cases s with
  | nil => exact ⟨rfl, rfl⟩
  | cons c s =>
    have hc : isNameLetter c = false := h c rfl
    simp [hc]

theorem head_white (hr : ∀ c ∈ r, White c) (hs : ∀ c ∈ s.head?, isNameLetter c = false) :
    ∀ c ∈ (r ++ s).head?, isNameLetter c = false := by
  cases r with
  | nil => exact hs
  | cons c r =>
    intro d hd
    cases hd
    simp [isNameLetter, CategoryTable.plain_space_iff.mpr (hr c List.mem_cons_self)]

theorem head_white_of_ne (hr : ∀ c ∈ r, White c) (hne : r ≠ []) (s : List Char) :
    ∀ c ∈ (r ++ s).head?, isNameLetter c = false := by
  cases r with
  | nil => exact absurd rfl hne
  | cons c r => exact head_white (s := []) hr (by simp)

/-- The letters at the front are the same, and the text behind them is the same again. -/
theorem RespacedBuffer.name (h : RespacedBuffer last s t) :
    s.takeWhile isNameLetter = t.takeWhile isNameLetter ∧
      ∃ last', RespacedBuffer last' (s.dropWhile isNameLetter) (t.dropWhile isNameLetter) := by
  have stop {last : Option Char} {s t : List Char} (h : RespacedBuffer last s t)
      (hs : ∀ c ∈ s.head?, isNameLetter c = false) (ht : ∀ c ∈ t.head?, isNameLetter c = false) :
      s.takeWhile isNameLetter = t.takeWhile isNameLetter ∧
        ∃ last', RespacedBuffer last' (s.dropWhile isNameLetter) (t.dropWhile isNameLetter) := by
    rw [(no_name hs).1, (no_name ht).1, (no_name hs).2, (no_name ht).2]
    exact ⟨rfl, last, h⟩
  have hend : ∀ c ∈ ['\r'].head?, isNameLetter c = false := by
    intro c hc
    cases hc
    rfl
  induction h with
  | ending r r' hr hr' hescape =>
    exact stop (.ending r r' hr hr' hescape) (head_white hr hend) (head_white hr' hend)
  | white r r' hr hr' hne hne' hescape h ih =>
    exact stop (.white r r' hr hr' hne hne' hescape h) (head_white_of_ne hr hne _)
      (head_white_of_ne hr' hne' _)
  | char c hc h ih =>
    by_cases hn : isNameLetter c = true
    · simp only [List.takeWhile_cons, List.dropWhile_cons, hn, if_true]
      exact ⟨congrArg (c :: ·) ih.1, ih.2⟩
    · have hn : ∀ s : List Char, ∀ d ∈ (c :: s).head?, isNameLetter d = false := by
        intro s d hd
        cases hd
        exact eq_false_of_ne_true hn
      exact stop (.char c hc h : RespacedBuffer none _ _) (hn _) (hn _)

/-- A control sequence is the same, since the text right behind a backslash is. -/
theorem RespacedBuffer.control (h : RespacedBuffer (some '\\') s t) (n m : Nat)
    (state state' : LineState) :
    (scanControl .plain ⟨s, n, state⟩).1 = (scanControl .plain ⟨t, m, state'⟩).1 ∧
      (scanControl .plain ⟨s, n, state⟩).2.Agrees (scanControl .plain ⟨t, m, state'⟩).2 := by
  have blank {c : Char} {q s t : List Char} {last : Option Char} (hr : ∀ d ∈ c :: q, White d)
      (h : RespacedBuffer last s t) :
      (scanControl .plain ⟨c :: q ++ s, n, state⟩).1 =
          (scanControl .plain ⟨c :: q ++ t, m, state'⟩).1 ∧
        (scanControl .plain ⟨c :: q ++ s, n, state⟩).2.Agrees
          (scanControl .plain ⟨c :: q ++ t, m, state'⟩).2 := by
    obtain ⟨hc, hq⟩ := List.forall_mem_cons.mp hr
    simp only [List.cons_append, scanControl, CategoryTable.plain_space_iff.mpr hc,
      Cursor.advance, if_true]
    exact ⟨rfl, .skipping q q _ _ hq hq h⟩
  cases h with
  | ending r r' hr hr' hescape =>
    obtain rfl := hescape rfl
    cases r with
    | nil => exact ⟨rfl, .idle (idle_of_rest rfl) (idle_of_rest rfl)⟩
    | cons c q =>
      have hempty : RespacedBuffer none ([] ++ ['\r']) ([] ++ ['\r']) :=
        .ending [] [] (List.forall_mem_nil _) (List.forall_mem_nil _) fun _ => rfl
      exact blank hr hempty
  | white r r' hr hr' hne hne' hescape h =>
    obtain rfl := hescape rfl
    cases r with
    | nil => exact absurd rfl hne
    | cons c q => exact blank hr h
  | @char _ s t c hc h =>
    by_cases hn : CategoryTable.plain.of c = .letter
    · obtain ⟨hname, last', hrest⟩ := h.name
      have hscan (s : List Char) (n : Nat) (state : LineState) :
          scanControl .plain ⟨c :: s, n, state⟩ =
            (.cs (String.ofList (c :: s.takeWhile isNameLetter)), ⟨s.dropWhile isNameLetter,
              n + (c :: s.takeWhile isNameLetter).length, .skipBlanks⟩) := if_pos hn
      rw [hscan, hscan, hname]
      exact ⟨rfl, .level rfl hrest⟩
    · have hscan (s : List Char) (n : Nat) (state : LineState) :
          scanControl .plain ⟨c :: s, n, state⟩ = (.cs (String.singleton c),
            Cursor.advance ⟨c :: s, n, state⟩ s
              (if CategoryTable.plain.of c = .space then .skipBlanks else .midLine)) := if_neg hn
      rw [hscan, hscan]
      exact ⟨rfl, .level rfl h⟩

/-- In the same state, the same comes of both. -/
theorem RespacedBuffer.scan (h : RespacedBuffer last s t) (strict : Bool) (state : LineState)
    (n m : Nat) :
    (scanFrom .plain strict state n s).Agrees (scanFrom .plain strict state m t) := by
  induction h generalizing n m with
  | ending r r' hr hr' hescape =>
    obtain ⟨start, after, hidle, hscan⟩ := exists_scan_ending strict state n hr
    obtain ⟨start', after', hidle', hscan'⟩ := exists_scan_ending strict state m hr'
    rw [hscan, hscan']
    cases state with
    | midLine => exact .token _ _ _ (.idle hidle hidle')
    | newLine => exact .token _ _ _ (.idle hidle hidle')
    | skipBlanks => exact .finished _ _
  | white r r' hr hr' hne hne' hescape h ih =>
    by_cases hs : state = .midLine
    · subst hs
      obtain ⟨c, q, rfl⟩ := List.exists_cons_of_ne_nil hne
      obtain ⟨c', q', rfl⟩ := List.exists_cons_of_ne_nil hne'
      obtain ⟨hc, hq⟩ := List.forall_mem_cons.mp hr
      obtain ⟨hc', hq'⟩ := List.forall_mem_cons.mp hr'
      rw [List.cons_append, List.cons_append, scanFrom_space hc, scanFrom_space hc']
      exact .token _ _ _ (.skipping q q' _ _ hq hq' h)
    · rw [scanFrom_white hs hr, scanFrom_white hs hr']
      exact ih _ _
  | @char last s t c hc h ih =>
    unfold scanFrom
    cases hcat : CategoryTable.plain.of c with
    | space => exact absurd (CategoryTable.plain_space_iff.mp hcat) hc
    | escape =>
      obtain rfl := CategoryTable.eq_of_plain_escape hcat
      obtain ⟨ht, hafter⟩ := h.control (n + 1) (m + 1) state state
      simp only [Cursor.advance]
      rw [ht]
      exact .token _ _ _ hafter
    | endOfLine =>
      have hidle : ∀ (s : List Char) (k : Nat),
          (Cursor.toEnd ⟨c :: s, k, state⟩ .newLine).Idle := fun _ _ => idle_of_rest rfl
      cases state with
      | midLine => exact .token _ _ _ (.idle (hidle s n) (hidle t m))
      | newLine => exact .token _ _ _ (.idle (hidle s n) (hidle t m))
      | skipBlanks => exact .finished _ _
    | comment => exact .finished _ _
    | ignored => exact ih _ _
    | invalid =>
      cases strict with
      | true => exact .invalid _ _ _ (.level rfl h)
      | false => exact ih _ _
    | _ => exact .token _ _ _ (.level rfl h)

theorem Cursor.Agrees.scan {c d : Cursor} (h : c.Agrees d) (strict : Bool) :
    (c.scan .plain strict).Agrees (d.scan .plain strict) := by
  cases h with
  | level hs h =>
    rw [Cursor.scan, Cursor.scan, hs]
    exact h.scan strict _ _ _
  | skipping q q' n m hq hq' h =>
    rw [Cursor.scan, Cursor.scan, scanFrom_white (by simp) hq, scanFrom_white (by simp) hq']
    exact h.scan strict _ _ _
  | idle hc hd =>
    obtain ⟨_, hc⟩ := hc strict
    obtain ⟨_, hd⟩ := hd strict
    rw [hc, hd]
    exact .finished _ _

end scan

/-! ## Lexers that agree -/

/-- Two lexers in the same lines, but for the amount of white space. -/
structure Lexer.Agrees (l m : Lexer) : Prop where
  strict : l.strict = m.strict
  pending : List.Forall₂ RespacedLine l.pending m.pending
  cursor : l.cursor.Agrees m.cursor

/-- Two readings come to the same, and the lexers behind them agree. -/
inductive Lexed.Agrees : Lexed → Lexed → Prop
  | token {t u : Lexeme} {l m : Lexer} (ht : t.token = u.token) (h : l.Agrees m) :
    Agrees (.token t l) (.token u m)
  | invalid (c : Char) (p q : Position) {l m : Lexer} (h : l.Agrees m) :
    Agrees (.invalid c p l) (.invalid c q m)
  | finished (l m : Lexer) : Agrees (.finished l) (.finished m)

/-- What has been drained, without places. -/
def Lexer.Drained.values (d : Lexer.Drained) : List Token × Option Char :=
  (d.tokens.map (·.token), d.invalid.map (·.1))

namespace Lexer

variable {l m : Lexer}

/-- The next lines are entered at their beginnings. -/
theorem Agrees.enter (h : l.Agrees m) {line line' : String} (hline : RespacedLine line line')
    {more more' : List String} (hmore : List.Forall₂ RespacedLine more more') :
    (l.enter {} line more).Agrees (m.enter {} line' more') :=
  ⟨h.strict, hmore, .level rfl hline.buffer⟩

theorem nextFrom_agrees (h : l.Agrees m) {pending pending' : List String}
    (hp : List.Forall₂ RespacedLine pending pending') :
    (l.nextFrom {} pending).Agrees (m.nextFrom {} pending') := by
  induction hp generalizing l m with
  | nil =>
    have hs := h.cursor.scan l.strict
    rw [nextFrom.eq_def, nextFrom.eq_def {} m, ← h.strict]
    dsimp only
    generalize l.cursor.scan .plain l.strict = x at hs ⊢
    generalize m.cursor.scan .plain l.strict = y at hs ⊢
    cases hs with
    | token t _ _ hafter => exact .token rfl ⟨rfl, h.pending, hafter⟩
    | invalid c _ _ hafter => exact .invalid c _ _ ⟨rfl, h.pending, hafter⟩
    | finished => exact .finished _ _
  | cons hline hmore ih =>
    have hs := h.cursor.scan l.strict
    have henter := h.enter hline hmore
    rw [nextFrom.eq_def, nextFrom.eq_def {} m, ← h.strict]
    dsimp only
    generalize l.cursor.scan .plain l.strict = x at hs ⊢
    generalize m.cursor.scan .plain l.strict = y at hs ⊢
    cases hs with
    | token t _ _ hafter => exact .token rfl ⟨rfl, h.pending, hafter⟩
    | invalid c _ _ hafter => exact .invalid c _ _ ⟨rfl, h.pending, hafter⟩
    | finished => exact ih henter

theorem next_agrees (h : l.Agrees m) : (l.next {}).Agrees (m.next {}) :=
  nextFrom_agrees h h.pending

theorem drainWithin_agrees (h : l.Agrees m) {n k : Nat} (hn : l.size {} < n) (hk : m.size {} < k) :
    (drainWithin {} n l).values = (drainWithin {} k m).values := by
  induction n generalizing l m k with
  | zero => exact absurd hn (Nat.not_lt_zero _)
  | succ n ih =>
    obtain ⟨k, rfl⟩ : ∃ j, k = j + 1 := ⟨k - 1, by omega⟩
    have hl := l.next_leaves {}
    have hm := m.next_leaves {}
    have hnext := next_agrees h
    rw [drainWithin, drainWithin]
    generalize l.next {} = x at hl hnext ⊢
    generalize m.next {} = y at hm hnext ⊢
    cases hnext with
    | token ht h =>
      have hrest := ih h (Nat.lt_of_lt_of_le hl.2 (Nat.le_of_lt_succ hn))
        (Nat.lt_of_lt_of_le hm.2 (Nat.le_of_lt_succ hk))
      simp only [Drained.values, List.map_cons, Prod.mk.injEq] at hrest ⊢
      exact ⟨by rw [ht, hrest.1], hrest.2⟩
    | invalid c p q h => rfl
    | finished l m => rfl

end Lexer

/-- How much white space stands in a line plays no part, as long as there is some: lines that differ
in the amount of it alone have the same tokens under a fresh alphabet, and the same first invalid
character where these are refused. -/
theorem tokens_respaced {lines lines' : List String} (h : List.Forall₂ RespacedLine lines lines')
    (strict : Bool) :
    (Lexer.drain {} { lines := lines, strict := strict }).values =
      (Lexer.drain {} { lines := lines', strict := strict }).values := by
  have hagrees : Lexer.Agrees { lines := lines, strict := strict }
      { lines := lines', strict := strict } :=
    ⟨rfl, h, .idle (idle_of_rest rfl) (idle_of_rest rfl)⟩
  exact Lexer.drainWithin_agrees hagrees (Nat.lt_succ_self _) (Nat.lt_succ_self _)

/-- White space at the beginning, behind a control word, behind a backslash, where it stays, and in
a comment; and in a line of its own. -/
theorem tokens_respaced_everywhere :
    List.Forall₂ RespacedLine ["\t\\b  c\\ \t%\t", " "] [" \t\\b\tc\\ \t%  ", "\t\t"] ∧
      (Lexer.drain {} { lines := ["\t\\b  c\\ \t%\t", " "] }).values =
        (Lexer.drain {} { lines := [" \t\\b\tc\\ \t%  ", "\t\t"] }).values := by
  have first : RespacedLine "\t\\b  c\\ \t%\t" " \t\\b\tc\\ \t%  " := by
    refine .white ['\t'] [' ', '\t'] ?_ ?_ ?_ ?_ ?_ ?_ (.char '\\' ?_ (.char 'b' ?_
      (.white [' ', ' '] ['\t'] ?_ ?_ ?_ ?_ ?_ ?_ (.char 'c' ?_ (.char '\\' ?_
        (.white [' ', '\t'] [' ', '\t'] ?_ ?_ ?_ ?_ ?_ ?_ (.char '%' ?_
          (.white ['\t'] [' ', ' '] ?_ ?_ ?_ ?_ ?_ ?_ (.nil _))))))))) <;> simp [White]
  have second : RespacedLine " " "\t\t" := by
    refine .white [' '] ['\t', '\t'] ?_ ?_ ?_ ?_ ?_ ?_ (.nil _) <;> simp [White]
  have h := List.Forall₂.cons first (.cons second .nil)
  exact ⟨h, tokens_respaced h false⟩

end Galley
