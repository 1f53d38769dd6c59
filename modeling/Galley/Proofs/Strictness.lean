import Galley.Proofs.Extension
import Galley.Proofs.Following

/-!
Strict reading. A strict lexer that is read on behind each invalid character delivers the tokens of
a lenient one, and stops once at each invalid character that the lenient one drops
(`Lexer.readsThrough_readings`); so a strict run that meets none of them is the lenient one.
-/

namespace Galley

/-! ## Characters that are passed over -/

namespace Cursor

/-- Makes no token and ends no line: what lenient scanning passes over. -/
def passes (cats : CategoryTable) (state : LineState) (ch : Char) : Bool :=
  match cats.of ch with
  | .ignored | .invalid => true
  | .space => state ≠ .midLine
  | _ => false

/-- The characters before the first one that makes a token or ends the line, with their columns. -/
def passed (cats : CategoryTable) (c : Cursor) : List (Char × Nat) :=
  (c.rest.takeWhile (passes cats c.state)).zipIdx c.column

/-- The invalid ones among the characters that are passed over. -/
def dropped (cats : CategoryTable) (c : Cursor) : List (Char × Nat) :=
  (c.passed cats).filter fun d => cats.of d.1 = .invalid

variable {cats : CategoryTable} {state : LineState} {column : Nat} {ch : Char} {rest : List Char}

theorem dropped_invalid (h : cats.of ch = .invalid) :
    dropped cats ⟨ch :: rest, column, state⟩ =
      (ch, column) :: dropped cats ⟨rest, column + 1, state⟩ := by
  simp [dropped, passed, passes, h]

theorem dropped_passed (h : passes cats state ch = true) (hi : cats.of ch ≠ .invalid) :
    dropped cats ⟨ch :: rest, column, state⟩ = dropped cats ⟨rest, column + 1, state⟩ := by
  simp [dropped, passed, h, hi]

theorem dropped_stop (h : passes cats state ch = false) :
    dropped cats ⟨ch :: rest, column, state⟩ = [] := by
  simp [dropped, passed, h]

theorem scan_invalid (h : cats.of ch = .invalid) :
    scan cats true ⟨ch :: rest, column, state⟩ = .invalid ch column ⟨rest, column + 1, state⟩ := by
  simp [scan, scanFrom, h, advance]

/-- A character that is passed over leaves the scan to those behind it. -/
theorem scan_passed (h : passes cats state ch = true) {strict : Bool}
    (hi : strict = true → cats.of ch ≠ .invalid) :
    scan cats strict ⟨ch :: rest, column, state⟩ = scan cats strict ⟨rest, column + 1, state⟩ := by
  unfold passes at h
  simp only [scan, scanFrom]
  split at h
  · rename_i hc
    simp [hc]
  · rename_i hc
    cases strict with
    | false => simp [hc]
    | true => exact absurd hc (hi rfl)
  · rename_i hc
    have hs : state ≠ .midLine := by simpa using h
    simp [hc, hs]
  · cases h

/-- Where nothing is passed over, strict scanning comes to the same. -/
theorem scan_stop (h : passes cats state ch = false) :
    scan cats true ⟨ch :: rest, column, state⟩ = scan cats false ⟨ch :: rest, column, state⟩ := by
  unfold passes at h
  simp only [scan, scanFrom]
  cases hc : cats.of ch with
  | space =>
    have hs : state = .midLine := by simpa [hc] using h
    simp [hs]
  | ignored => simp [hc] at h
  | invalid => simp [hc] at h
  | _ => rfl

end Cursor

/-! ## Reading on -/

/-- The same with another lexer behind it. -/
def Lexed.behind (f : Lexer → Lexer) : Lexed → Lexed
  | .token t after => .token t (f after)
  | .invalid c place after => .invalid c place (f after)
  | .finished after => .finished (f after)

/-- The lexer behind a reading. -/
def Lexed.after : Lexed → Lexer
  | .token _ after => after
  | .invalid _ _ after => after
  | .finished after => after

/-- The token that was read, if it was one. -/
def Lexed.lexeme? : Lexed → Option Lexeme
  | .token t _ => some t
  | _ => none

namespace Lexer

/-- The same lexer, reading strictly. -/
def strictly (l : Lexer) : Lexer := { l with strict := true }

/-- The same lexer, dropping invalid characters. -/
def lenient (l : Lexer) : Lexer := { l with strict := false }

/-- The invalid characters that lenient reading drops of the current line, with their places. -/
def droppedHere (a : Alphabet) (l : Lexer) : List (Char × Position) :=
  (l.cursor.dropped a.categories).map fun d => (d.1, l.place d.2)

/-- Those that it drops before it comes to a token or to the end of the lines. -/
def droppedFrom (a : Alphabet) (l : Lexer) (pending : List String) : List (Char × Position) :=
  l.droppedHere a ++
    match pending with
    | [] => []
    | line :: more =>
      match l.cursor.scan a.categories false with
      | .finished _ => droppedFrom a (l.enter a line more) more
      | _ => []

def dropped (a : Alphabet) (l : Lexer) : List (Char × Position) := l.droppedFrom a l.pending

/-- Reads up to a token or to the end of the lines, and on behind each invalid character. -/
inductive ReadsOn (a : Alphabet) : Lexer → List (Char × Position) → Lexed → Prop
  | token {l after : Lexer} {t : Lexeme} (h : l.next a = .token t after) :
    ReadsOn a l [] (.token t after)
  | finished {l after : Lexer} (h : l.next a = .finished after) : ReadsOn a l [] (.finished after)
  | invalid {l after : Lexer} {c : Char} {place : Position} {met : List (Char × Position)}
    {o : Lexed} (h : l.next a = .invalid c place after) (rest : ReadsOn a after met o) :
    ReadsOn a l ((c, place) :: met) o

variable {a : Alphabet} {l m : Lexer} {met : List (Char × Position)} {o : Lexed}

theorem ReadsOn.of_next (h : m.ReadsOn a met o) (hn : l.next a = m.next a) :
    l.ReadsOn a met o := by
  cases h with
  | token h => exact .token (hn.trans h)
  | finished h => exact .finished (hn.trans h)
  | invalid h rest => exact .invalid (hn.trans h) rest

/-- Only what a scan comes to matters of a cursor. -/
theorem nextFrom_cursor {c : Cursor}
    (h : l.cursor.scan a.categories l.strict = c.scan a.categories l.strict)
    (pending : List String) : l.nextFrom a pending = nextFrom a { l with cursor := c } pending := by
  rw [nextFrom.eq_def, nextFrom.eq_def a { l with cursor := c }, h]
  cases c.scan a.categories l.strict with
  | token t start after => rfl
  | invalid ch start after => rfl
  | finished after => cases pending <;> rfl

/-- Strict reading goes on over the characters that lenient scanning drops, to where both come to
the same. -/
theorem readsOn_passed (hl : l.strict = true) {c : Cursor}
    (h : ∀ d : Cursor, d.scan a.categories true = d.scan a.categories false →
      d.scan a.categories false = c.scan a.categories false →
      ReadsOn a { l with cursor := d } met o) :
    ReadsOn a { l with cursor := c }
      (droppedHere a { l with cursor := c } ++ met) o := by
  obtain ⟨s, column, state⟩ := c
  induction s generalizing column with
  | nil => exact h ⟨[], column, state⟩ rfl rfl
  | cons ch rest ih =>
    cases hp : Cursor.passes a.categories state ch with
    | false =>
      rw [droppedHere, Cursor.dropped_stop hp]
      exact h _ (Cursor.scan_stop hp) rfl
    | true =>
      have hlenient : Cursor.scan a.categories false ⟨ch :: rest, column, state⟩ =
          Cursor.scan a.categories false ⟨rest, column + 1, state⟩ := Cursor.scan_passed hp nofun
      have hrest := ih (column + 1) fun d hd hc => h d hd (hc.trans hlenient.symm)
      by_cases hi : a.categories.of ch = .invalid
      · -- strict reading stops here, and is read on behind the character
        have hn : next a { l with cursor := ⟨ch :: rest, column, state⟩ } =
            .invalid ch (l.place column) { l with cursor := ⟨rest, column + 1, state⟩ } :=
          nextFrom_invalid (by rw [hl]; exact Cursor.scan_invalid hi) l.pending
        rw [droppedHere, Cursor.dropped_invalid hi]
        exact .invalid hn hrest
      · rw [droppedHere, Cursor.dropped_passed hp hi]
        refine hrest.of_next (nextFrom_cursor ?_ l.pending)
        exact Cursor.scan_passed hp fun _ => hi

theorem scan_lenient_ne (cats : CategoryTable) (c : Cursor) {ch : Char} {start : Nat}
    {after : Cursor} : c.scan cats false ≠ .invalid ch start after := by
  intro h
  have hleaves := scanFrom_leaves cats false c.state c.column c.rest
  rw [show scanFrom cats false c.state c.column c.rest = _ from h] at hleaves
  cases hleaves.2

theorem droppedFrom_token {t : Token} {start : Nat} {after : Cursor}
    (h : l.cursor.scan a.categories false = .token t start after) (pending : List String) :
    l.droppedFrom a pending = l.droppedHere a ++ [] := by
  rw [droppedFrom.eq_def]
  cases pending with
  | nil => rfl
  | cons line more => rw [h]

theorem droppedFrom_finished {after : Cursor}
    (h : l.cursor.scan a.categories false = .finished after) (line : String) (more : List String) :
    l.droppedFrom a (line :: more) =
      l.droppedHere a ++ droppedFrom a (l.enter a line more) more := by
  rw [droppedFrom, h]

/-- Strict reading that is read on comes to the same token or end as lenient reading, and stops at
the characters that this drops. -/
theorem readsOn_dropped (a : Alphabet) {l : Lexer} (hl : l.strict = false) :
    ReadsOn a l.strictly (l.dropped a) ((l.next a).behind strictly) := by
  suffices h : ∀ pending, l.pending = pending → ReadsOn a l.strictly (l.droppedFrom a pending)
      ((l.nextFrom a pending).behind strictly) from h _ rfl
  intro pending hp
  fun_induction nextFrom a l pending with
  | case1 pending l t start after hs =>
    rw [hl] at hs
    rw [droppedFrom_token hs]
    refine readsOn_passed (l := l.strictly) (c := l.cursor) rfl fun d hd hc => ?_
    exact .token (nextFrom_token (hd.trans (hc.trans hs)) _)
  | case2 pending l ch start after hs =>
    rw [hl] at hs
    exact absurd hs (scan_lenient_ne _ _)
  | case3 l after hs =>
    rw [hl] at hs
    refine readsOn_passed (l := l.strictly) (c := l.cursor) rfl fun d hd hc => .finished ?_
    rw [next, nextFrom_finished (l := { l.strictly with cursor := d }) (hd.trans (hc.trans hs))]
    simp only [strictly, hp]
  | case4 l after hs line more ih =>
    rw [hl] at hs
    rw [droppedFrom_finished hs]
    refine readsOn_passed (l := l.strictly) (c := l.cursor) rfl fun d hd hc => ?_
    refine (ih hl rfl).of_next ?_
    rw [next, nextFrom_finished (l := { l.strictly with cursor := d }) (hd.trans (hc.trans hs))]
    simp only [strictly, hp]
    rfl

/-- A stretch of the lines: the invalid characters in it, and the token behind them, if the lines do
not end there. -/
structure Stretch where
  invalid : List (Char × Position)
  token : Option Lexeme
  deriving DecidableEq, Repr

/-- What lenient reading drops and delivers under each of the alphabets. -/
def readings : List Alphabet → Lexer → List Stretch
  | [], _ => []
  | a :: more, l => ⟨l.dropped a, (l.next a).lexeme?⟩ :: readings more (l.next a).after

/-- Under each of the alphabets, reading goes on to the next token or to the end of the lines, and
stops on the way at the invalid characters. -/
inductive ReadsThrough : List Alphabet → Lexer → List Stretch → Prop
  | nil {l : Lexer} : ReadsThrough [] l []
  | cons {a : Alphabet} {l : Lexer} {met : List (Char × Position)} {o : Lexed}
    {as : List Alphabet} {rs : List Stretch} (h : l.ReadsOn a met o)
    (more : ReadsThrough as o.after rs) : ReadsThrough (a :: as) l (⟨met, o.lexeme?⟩ :: rs)

theorem next_after_strict (a : Alphabet) (l : Lexer) : (l.next a).after.strict = l.strict := by
  have h := l.next_leaves a
  cases hn : l.next a with
  | token t after =>
    rw [hn] at h
    exact h.1
  | invalid c place after =>
    rw [hn] at h
    exact h.1
  | finished after =>
    rw [hn] at h
    exact h.1

/-- However the alphabet changes between tokens, strict reading comes to what lenient reading comes
to and stops at what this drops. -/
theorem readsThrough_readings (as : List Alphabet) {l : Lexer} (hl : l.strict = false) :
    ReadsThrough as l.strictly (readings as l) := by
  induction as generalizing l with
  | nil => exact .nil
  | cons a as ih =>
    have hlexeme : ((l.next a).behind strictly).lexeme? = (l.next a).lexeme? := by
      cases l.next a <;> rfl
    have hafter : ((l.next a).behind strictly).after = (l.next a).after.strictly := by
      cases l.next a <;> rfl
    have hmore := ih ((next_after_strict a l).trans hl)
    rw [← hafter] at hmore
    rw [readings, ← hlexeme]
    exact .cons (readsOn_dropped a hl) hmore

/-- Two invalid characters before a token are dropped; one in a comment is not even scanned. -/
example : readings [{}, {}, {}] { lines := ["\x7f \x7fa", "%\x7f"] } =
    [⟨[('\x7f', ⟨1, 1⟩), ('\x7f', ⟨1, 3⟩)], some ⟨.ch 'a' .letter, some ⟨⟨1, 4⟩, ⟨1, 5⟩⟩⟩⟩,
      ⟨[], some ⟨.ch ' ' .space, some ⟨⟨1, 5⟩, ⟨1, 6⟩⟩⟩⟩, ⟨[], none⟩] := by
  decide +kernel

end Lexer

/-! ## Runs -/

/-- A fault of the lexer. -/
def Fault.OfLexing (f : Fault) : Prop := f.cause.stage = .lexing

namespace Input

/-- The first input is the second one, which drops invalid characters, read strictly. -/
def Stricter (i j : Input) : Prop :=
  j.lexer.strict = false ∧ i = { j with lexer := j.lexer.strictly }

variable {i j : Input}

theorem next_stricter (a : Alphabet) (h : i.Stricter j) :
    (i.next a).Followed Fault.OfLexing Stricter (j.next a) := by
  obtain ⟨hj, rfl⟩ := h
  cases ht : takePending j.chunks with
  | some p =>
    obtain ⟨t, chunks⟩ := p
    rw [next_of_pending ht, next_of_pending (i := { j with lexer := j.lexer.strictly }) ht]
    exact .done ⟨hj, rfl⟩
  | none =>
    rw [next_of_lexer ht, next_of_lexer (i := { j with lexer := j.lexer.strictly }) ht]
    obtain ⟨met, hon⟩ : ∃ met, j.lexer.strictly.ReadsOn a met
        ((j.lexer.next a).behind Lexer.strictly) := ⟨_, Lexer.readsOn_dropped a hj⟩
    have hafter := (Lexer.next_after_strict a j.lexer).trans hj
    dsimp only
    cases hn : j.lexer.next a with
    | token t after =>
      rw [hn] at hon hafter
      cases hon with
      | token h =>
        rw [h]
        exact .done ⟨hafter, rfl⟩
      | invalid h rest =>
        rw [h]
        exact .lostTo rfl
    | invalid c place after =>
      have hleaves := j.lexer.next_leaves a
      rw [hn] at hleaves
      exact absurd hleaves.2.2 (by simp [hj])
    | finished after =>
      rw [hn] at hon hafter
      cases hon with
      | finished h =>
        rw [h]
        exact .done ⟨hafter, rfl⟩
      | invalid h rest =>
        rw [h]
        exact .lostTo rfl

theorem push_stricter (c : Chunk) (h : i.Stricter j) :
    (i.push c).Followed Fault.OfLexing Stricter (j.push c) := by
  obtain ⟨hj, rfl⟩ := h
  unfold push
  by_cases hc : c.tokens.isEmpty = true
  · simp only [hc, if_true]
    exact .done ⟨hj, rfl⟩
  · simp only [hc]
    by_cases hfull : j.capacity.chunks ≤ (dropEmpty j.chunks).length
    · simp only [hfull, if_true]
      exact .failed ⟨hj, rfl⟩
    · simp only [hfull]
      exact .done ⟨hj, rfl⟩

theorem follows_stricter : Follows Fault.OfLexing Stricter where
  next a _ _ h := next_stricter a h
  push _ _ c h := push_stricter c h
  opened := by
    rintro _ j n ⟨hj, rfl⟩
    exact ⟨hj, rfl⟩
  chunks := by
    rintro _ j ⟨hj, rfl⟩
    rfl
  last := by
    rintro _ j ⟨hj, rfl⟩
    rfl
  nested := by
    rintro _ j ⟨hj, rfl⟩
    rfl
  openBranches := by
    rintro _ j ⟨hj, rfl⟩
    rfl

end Input

/-- Strict reading only adds faults. Read on behind each of them, a strict lexer comes to the same
tokens as a lenient one and stops at the invalid characters that this drops; and a strict run that
ends without one does so with the list or the fault of the lenient run, and leaves the same
tables. -/
theorem strict_only_adds_faults :
    (∀ (as : List Alphabet) (l : Lexer),
      Lexer.ReadsThrough as l.strictly (Lexer.readings as l.lenient)) ∧
    ∀ (config : Config) (metrics : Metrics) (tables : Tables) (lines : List String) (mode : Mode)
      (rounds : Nat),
      ((Engine.start { config with strict := true } metrics tables lines).run rounds mode).Followed
        Fault.OfLexing Engine.SameTables
        ((Engine.start { config with strict := false } metrics tables lines).run rounds mode) := by
  refine ⟨fun as l => Lexer.readsThrough_readings as (l := l.lenient) rfl, ?_⟩
  intro config metrics tables lines mode rounds
  have hrun := Input.follows_stricter.run rounds mode
    (e := Engine.start { config with strict := true } metrics tables lines)
    (f := Engine.start { config with strict := false } metrics tables lines) rfl
    ⟨rfl, rfl, rfl⟩
  exact hrun.mono fun _ _ hef => hef.1

end Galley
