import Galley.Lexer

/-!
What a reading of the lexer leaves. A token or an invalid character takes at least one character, so
every reading makes the lexer smaller, until nothing is left of its lines; and strict reading alone
meets invalid characters.
-/

namespace Galley

theorem scanControl_rest_le (cats : CategoryTable) (c : Cursor) :
    (scanControl cats c).2.rest.length ≤ c.rest.length := by
  obtain ⟨rest, column, state⟩ := c
  cases rest with
  | nil => exact Nat.le_refl _
  | cons ch rest =>
    simp only [scanControl]
    split
    · have := (List.dropWhile_suffix (fun d => decide (cats.of d = .letter)) (l := rest)).length_le
      simp only [List.length_cons]
      omega
    · simp [Cursor.advance]

/-- What scanning leaves of that many characters. -/
def Scanned.Leaves (strict : Bool) (size : Nat) : Scanned → Prop
  | .token _ _ after => after.rest.length < size
  | .invalid _ _ after => after.rest.length < size ∧ strict = true
  | .finished after => after.rest = []

theorem Scanned.Leaves.mono {strict : Bool} {m n : Nat} {o : Scanned} (h : o.Leaves strict m)
    (hm : m ≤ n) : o.Leaves strict n := by
  cases o with
  | token t start after => exact Nat.lt_of_lt_of_le h hm
  | invalid c start after => exact ⟨Nat.lt_of_lt_of_le h.1 hm, h.2⟩
  | finished after => exact h

theorem scanFrom_leaves (cats : CategoryTable) (strict : Bool) (state : LineState) (column : Nat)
    (s : List Char) : (scanFrom cats strict state column s).Leaves strict s.length := by
  induction s generalizing column with
  | nil => rfl
  | cons ch rest ih =>
    have later := (ih (column + 1)).mono (Nat.le_succ rest.length)
    unfold scanFrom
    dsimp only
    split
    · exact Nat.lt_succ_of_le
        (scanControl_rest_le cats (Cursor.advance ⟨ch :: rest, column, state⟩ rest state))
    · split
      · exact Nat.succ_pos _
      · exact Nat.succ_pos _
      · rfl
    · split
      · exact Nat.lt_succ_self _
      · exact later
    · rfl
    · exact later
    · split
      · exact ⟨Nat.lt_succ_self _, by assumption⟩
      · exact later
    · exact Nat.lt_succ_self _

/-- What a reading leaves of a lexer. -/
def Lexed.Leaves (a : Alphabet) (l : Lexer) : Lexed → Prop
  | .token _ after => after.strict = l.strict ∧ after.size a < l.size a
  | .invalid _ _ after => after.strict = l.strict ∧ after.size a < l.size a ∧ l.strict = true
  | .finished after => after.strict = l.strict ∧ after.size a = 0

theorem Lexed.Leaves.mono {a : Alphabet} {l m : Lexer} {o : Lexed} (h : o.Leaves a m)
    (hs : m.strict = l.strict) (hm : m.size a ≤ l.size a) : o.Leaves a l := by
  cases o with
  | token t after => exact ⟨h.1.trans hs, Nat.lt_of_lt_of_le h.2 hm⟩
  | invalid c place after =>
    exact ⟨h.1.trans hs, Nat.lt_of_lt_of_le h.2.1 hm, hs.symm.trans h.2.2⟩
  | finished after => exact ⟨h.1.trans hs, h.2⟩

namespace Lexer

theorem scan_leaves (cats : CategoryTable) (l : Lexer) :
    (l.cursor.scan cats l.strict).Leaves l.strict l.cursor.rest.length :=
  scanFrom_leaves cats l.strict l.cursor.state l.cursor.column l.cursor.rest

theorem nextFrom_leaves (a : Alphabet) {l : Lexer} {pending : List String}
    (h : l.pending = pending) : (l.nextFrom a pending).Leaves a l := by
  fun_induction nextFrom a l pending with
  | case1 pending l t start after hs =>
    have hlt := scan_leaves a.categories l
    rw [hs] at hlt
    exact ⟨rfl, Nat.add_lt_add_right hlt _⟩
  | case2 pending l c start after hs =>
    have hlt := scan_leaves a.categories l
    rw [hs] at hlt
    exact ⟨rfl, Nat.add_lt_add_right hlt.1 _, hlt.2⟩
  | case3 l after hs =>
    have hrest := scan_leaves a.categories l
    rw [hs] at hrest
    refine ⟨rfl, ?_⟩
    rw [Scanned.Leaves] at hrest
    simp [size, hrest, h]
  | case4 l after hs line more ih =>
    have hle : (l.enter a line more).size a ≤ l.size a := by
      simp only [size, enter, h, List.flatMap_cons, List.length_append]
      omega
    exact (ih rfl).mono rfl hle

/-- A reading goes on from a lexer of the same strictness, smaller unless nothing is left. -/
theorem next_leaves (a : Alphabet) (l : Lexer) : (l.next a).Leaves a l := nextFrom_leaves a rfl

end Lexer

end Galley
