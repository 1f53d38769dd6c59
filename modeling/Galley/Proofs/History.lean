import Galley.Engine
import Galley.Proofs.Extension
import Galley.Proofs.ReaderLogic

/-!
What a run has read of its lines. Each reading of the lexer begins in the lines (`Lexer.next_fits`).
A run asks for raw tokens under the tables that it has at the time (`Engine.readings`), and where
none is pending, a token or an invalid character is scanned then (`Machine.Scans`).
-/

namespace Galley

/-! ## One line -/

/-- A token or an invalid character begins before the end of the buffer, and what is behind it is
left. -/
def Scanned.Within (stop : Nat) : Scanned → Prop
  | .token _ start after => start < stop ∧ after.column + after.rest.length ≤ stop
  | .invalid _ start after => start < stop ∧ after.column + after.rest.length ≤ stop
  | .finished after => after.rest = []

theorem scanControl_within (cats : CategoryTable) (c : Cursor) :
    (scanControl cats c).2.column + (scanControl cats c).2.rest.length =
      c.column + c.rest.length := by
  obtain ⟨rest, column, state⟩ := c
  cases rest with
  | nil => rfl
  | cons ch rest =>
    simp only [scanControl]
    split
    · have hlength := congrArg List.length
        (List.takeWhile_append_dropWhile (p := fun d => decide (cats.of d = .letter)) (l := rest))
      simp only [List.length_append] at hlength
      simp only [List.length_cons]
      omega
    · simp only [Cursor.advance, List.length_cons]
      omega

theorem scanFrom_within (cats : CategoryTable) (strict : Bool) (state : LineState) (column : Nat)
    (s : List Char) : (scanFrom cats strict state column s).Within (column + s.length) := by
  induction s generalizing column with
  | nil => rfl
  | cons ch rest ih =>
    have later : (scanFrom cats strict state (column + 1) rest).Within
        (column + (ch :: rest).length) := by
      have h := ih (column + 1)
      rwa [Nat.add_right_comm] at h
    have here : column < column + (ch :: rest).length := by simp
    unfold scanFrom
    dsimp only
    split
    · refine ⟨here, Nat.le_of_eq ?_⟩
      rw [scanControl_within]
      simp only [Cursor.advance, List.length_cons]
      omega
    · split
      · exact ⟨here, Nat.le_refl _⟩
      · exact ⟨here, Nat.le_refl _⟩
      · rfl
    · split
      · refine ⟨here, ?_⟩
        simp only [Cursor.advance, List.length_cons]
        omega
      · exact later
    · rfl
    · exact later
    · split
      · refine ⟨here, ?_⟩
        simp only [Cursor.advance, List.length_cons]
        omega
      · exact later
    · refine ⟨here, ?_⟩
      simp only [Cursor.advance, List.length_cons]
      omega

/-! ## Lines -/

/-- A place in one of the lines or in the text that is put at its end. -/
def Position.LiesIn (lines : List String) (ending : Nat) (p : Position) : Prop :=
  ∃ line, 1 ≤ p.line ∧ lines[p.line - 1]? = some line ∧ 1 ≤ p.column ∧
    p.column ≤ line.length + ending

namespace Lexer

/-- What is left of the current line does not reach beyond it, and the lines behind it are
pending. -/
structure Fits (ending : Nat) (l : Lexer) : Prop where
  pending : l.pending = l.lines.drop l.line
  cursor : l.cursor.rest = [] ∨ ∃ line, 1 ≤ l.line ∧ l.lines[l.line - 1]? = some line ∧
    l.cursor.column + l.cursor.rest.length ≤ line.length + ending

end Lexer

/-- A reading begins in the lines of the lexer and leaves one of the same kind. -/
def Lexed.Fits (lines : List String) (ending : Nat) : Lexed → Prop
  | .token t after => (∃ span, t.span = some span ∧ span.start.LiesIn lines ending) ∧
      after.Fits ending ∧ after.lines = lines
  | .invalid _ place after => place.LiesIn lines ending ∧ after.Fits ending ∧ after.lines = lines
  | .finished after => after.Fits ending ∧ after.lines = lines

namespace Lexer

variable {a : Alphabet} {l m : Lexer} {ending : Nat}

theorem buffer_length_le (a : Alphabet) (line : String) :
    (a.buffer line).length ≤ line.length + (a.endLine.getD "").length := by
  have hle : (line.toList.reverse.dropWhile (· = ' ')).length ≤ line.toList.reverse.length :=
    (List.dropWhile_suffix _).length_le
  simp only [Alphabet.buffer, withoutTrailingSpaces, List.length_append, List.length_reverse,
    String.length_toList] at hle ⊢
  omega

/-- Where a token or an invalid character has been scanned, it lies in the current line. -/
theorem Fits.scanned (h : l.Fits ending) {start : Nat} {after : Cursor}
    (hs : l.cursor.rest ≠ []) (hstart : start < l.cursor.column + l.cursor.rest.length)
    (hafter : after.column + after.rest.length ≤ l.cursor.column + l.cursor.rest.length) :
    (l.place start).LiesIn l.lines ending ∧ Fits ending { l with cursor := after } := by
  obtain ⟨line, hpos, hline, hle⟩ := h.cursor.resolve_left hs
  have hplace : (l.place start).line = l.line := Nat.max_eq_left hpos
  refine ⟨⟨line, ?_, ?_, ?_, ?_⟩, h.pending, Or.inr ⟨line, hpos, hline, ?_⟩⟩
  · rw [hplace]
    exact hpos
  · rw [hplace]
    exact hline
  · simp [place]
  · simp only [place]
    omega
  · simp only
    omega

/-- The next line is entered at its beginning. -/
theorem Fits.enter (h : l.Fits (a.endLine.getD "").length) {line : String} {more : List String}
    (hp : l.pending = line :: more) : (l.enter a line more).Fits (a.endLine.getD "").length := by
  have hdrop : l.lines.drop l.line = line :: more := h.pending.symm.trans hp
  have hline : l.lines[l.line]? = some line := by
    rw [← List.head?_drop, hdrop]
    rfl
  refine ⟨?_, Or.inr ⟨line, Nat.succ_pos _, hline, ?_⟩⟩
  · change more = l.lines.drop (l.line + 1)
    rw [← List.drop_drop, hdrop]
    rfl
  · have hle := buffer_length_le a line
    simp only [Lexer.enter]
    omega

theorem nextFrom_fits {pending : List String} (hp : l.pending = pending)
    (h : l.Fits (a.endLine.getD "").length) :
    (l.nextFrom a pending).Fits l.lines (a.endLine.getD "").length := by
  have hwithin (l : Lexer) : (l.cursor.scan a.categories l.strict).Within
      (l.cursor.column + l.cursor.rest.length) := scanFrom_within _ _ _ _ _
  fun_induction nextFrom a l pending with
  | case1 pending l t start after hs =>
    have hw := hwithin l
    rw [hs] at hw
    have hrest : l.cursor.rest ≠ [] := fun hr => by
      rw [scan_of_rest hr] at hs
      cases hs
    obtain ⟨hplace, hfits⟩ := h.scanned hrest hw.1 hw.2
    exact ⟨⟨_, rfl, hplace⟩, hfits, rfl⟩
  | case2 pending l c start after hs =>
    have hw := hwithin l
    rw [hs] at hw
    have hrest : l.cursor.rest ≠ [] := fun hr => by
      rw [scan_of_rest hr] at hs
      cases hs
    obtain ⟨hplace, hfits⟩ := h.scanned hrest hw.1 hw.2
    exact ⟨hplace, hfits, rfl⟩
  | case3 l after hs =>
    have hw := hwithin l
    rw [hs] at hw
    exact ⟨⟨h.pending, Or.inl hw⟩, rfl⟩
  | case4 l after hs line more ih => exact ih rfl (h.enter hp)

theorem next_fits (h : l.Fits (a.endLine.getD "").length) :
    (l.next a).Fits l.lines (a.endLine.getD "").length := nextFrom_fits rfl h

/-- A token that is read has a place. -/
theorem exists_span_of_next {t : Lexeme} {after : Lexer} (h : l.next a = .token t after) :
    ∃ span, t.span = some span := by
  suffices hs : ∀ pending, l.nextFrom a pending = .token t after → ∃ span, t.span = some span from
    hs _ h
  intro pending h
  fun_induction nextFrom a l pending with
  | case1 pending l u start after hs =>
    injection h with ht
    subst ht
    exact ⟨_, rfl⟩
  | case2 => cases h
  | case3 => cases h
  | case4 l after hs line more ih => exact ih h h

end Lexer

/-! ## Readings -/

/-- What has been read is a token or an invalid character that begins there. -/
def Lexed.Begins (p : Position) : Lexed → Prop
  | .token t _ => t.span.map (·.start) = some p
  | .invalid _ place _ => place = p
  | .finished _ => False

instance (p : Position) : (o : Lexed) → Decidable (o.Begins p)
  | .token t _ => inferInstanceAs (Decidable (t.span.map (·.start) = some p))
  | .invalid _ place _ => inferInstanceAs (Decidable (place = p))
  | .finished _ => inferInstanceAs (Decidable False)

theorem Lexed.Fits.lies {lines : List String} {ending : Nat} {o : Lexed} (h : o.Fits lines ending)
    {p : Position} (hp : o.Begins p) : p.LiesIn lines ending := by
  cases o with
  | token t after =>
    obtain ⟨⟨span, hs, hplace⟩, -⟩ := h
    rw [Begins, hs, Option.map_some, Option.some.injEq] at hp
    exact hp ▸ hplace
  | invalid c place after => exact hp ▸ h.1
  | finished after => exact hp.elim

/-- The inputs in which a consumer asks for a token. -/
def Input.consumeReadings (a : Alphabet) (rounds : Nat) {β : Type} (c : Consumer β) (i : Input) :
    List Input :=
  match c.start with
  | .finish _ => []
  | .again s =>
    iterateStates (fun s i => (i.next a).map fun
      | some t => c.step s t
      | none => .finish (c.atEnd s)) (fun _ i => [i]) rounds s i

/-- The inputs in which a raw token is asked for. -/
def RawRequest.readings (tables : Tables) (rounds : Nat) {α : Type} :
    RawRequest α → Input → List Input
  | .next, i => [i]
  | .consume c, i => i.consumeReadings tables.alphabet rounds c
  | .skip toElse, i => i.consumeReadings tables.alphabet rounds (skipper i.nested toElse)
  | _, _ => []

/-- Expansion, with the inputs in which it asks for raw tokens. -/
def rawReadings (tables : Tables) (rounds : Nat) : Watched RawRequest Input :=
  ⟨rawHandler tables rounds, RawRequest.readings tables rounds⟩

def Request.readings (tables : Tables) (rounds : Nat) {α : Type} : Request α → Input → List Input
  | .expanded, i => Expansion.next.states (rawReadings tables rounds) rounds i
  | .unexpanded, i => [i]
  | .back _, _ => []
  | .consume c, i => i.consumeReadings tables.alphabet rounds c

namespace Machine

/-- The machines in which one command asks for a raw token, all under the tables that it is read
under. -/
def turnReadings (face : Typeface) (rounds : Nat) (nest : Nest) (m : Machine) : List Machine :=
  ((Build.step face nest).states
    ⟨handler m.tables rounds, Request.readings m.tables rounds⟩ rounds m.input).map
      fun i => { m with input := i }

/-- Asked for a raw token, the machine scans a token or an invalid character of these lines that
begins there: none is pending, and the lexer reads this one under the tables of the machine. -/
def Scans (lines : List String) (m : Machine) (p : Position) : Prop :=
  m.input.lexer.lines = lines ∧ Input.takePending m.input.chunks = none ∧
    (m.input.lexer.next m.tables.alphabet).Begins p

instance (lines : List String) (m : Machine) (p : Position) : Decidable (m.Scans lines p) :=
  inferInstanceAs (Decidable (_ ∧ _ ∧ _))

end Machine

/-- The machines in which a run asks for a raw token, in that order. -/
def Engine.readings (rounds : Nat) (mode : Mode) (e : Engine) : List Machine :=
  iterateStates (Machine.turn e.face rounds) (Machine.turnReadings e.face rounds) rounds
    (.outer mode []) e.machine

end Galley
