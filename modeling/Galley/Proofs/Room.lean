import Galley.Proofs.Following

/-!
Runs with more room. How many chunks may wait at once matters to a push alone, and there only if the
chunks do not fit: a run that is not lost to its capacity goes the same way with a larger one.
-/

namespace Galley

namespace Input

/-- The second input is the first one with room for at least as many chunks. -/
def NoRoomier (i j : Input) : Prop :=
  ∃ larger : Capacity, i.capacity.chunks ≤ larger.chunks ∧ j = { i with capacity := larger }

variable {i j : Input}

theorem next_roomier (a : Alphabet) (h : i.NoRoomier j) :
    (i.next a).Followed Fault.OfCapacity NoRoomier (j.next a) := by
  obtain ⟨larger, hroom, rfl⟩ := h
  cases ht : takePending i.chunks with
  | some p =>
    obtain ⟨t, chunks⟩ := p
    rw [next_of_pending ht, next_of_pending (i := { i with capacity := larger }) ht]
    exact .done ⟨larger, hroom, rfl⟩
  | none =>
    rw [next_of_lexer ht, next_of_lexer (i := { i with capacity := larger }) ht]
    dsimp only
    cases i.lexer.next a with
    | token t l => exact .done ⟨larger, hroom, rfl⟩
    | invalid c place l => exact .failed ⟨larger, hroom, rfl⟩
    | finished l => exact .done ⟨larger, hroom, rfl⟩

theorem push_roomier (c : Chunk) (h : i.NoRoomier j) :
    (i.push c).Followed Fault.OfCapacity NoRoomier (j.push c) := by
  obtain ⟨larger, hroom, rfl⟩ := h
  unfold push
  by_cases hc : c.tokens.isEmpty = true
  · simp only [hc, if_true]
    exact .done ⟨larger, hroom, rfl⟩
  · simp only [hc]
    by_cases hfull : i.capacity.chunks ≤ (dropEmpty i.chunks).length
    · simp only [hfull, if_true]
      exact .lostTo ⟨i.capacity, rfl⟩
    · -- what fits into the smaller room fits into the larger one
      have hfits : ¬larger.chunks ≤ (dropEmpty i.chunks).length := by omega
      simp only [hfull, hfits]
      exact .done ⟨larger, hroom, rfl⟩

theorem follows_roomier : Follows Fault.OfCapacity NoRoomier where
  next a _ _ h := next_roomier a h
  push _ _ c h := push_roomier c h
  opened := by
    rintro i _ n ⟨larger, hroom, rfl⟩
    exact ⟨larger, hroom, rfl⟩
  chunks := by
    rintro i _ ⟨larger, hroom, rfl⟩
    rfl
  last := by
    rintro i _ ⟨larger, hroom, rfl⟩
    rfl
  nested := by
    rintro i _ ⟨larger, hroom, rfl⟩
    rfl
  openBranches := by
    rintro i _ ⟨larger, hroom, rfl⟩
    rfl

end Input

namespace Engine

/-- With a larger capacity a run ends with the same list or the same fault and leaves the same
tables, or goes on as long, unless with the smaller one it ended for lack of room. -/
theorem run_larger {config : Config} {larger : Capacity}
    (h : config.capacity.chunks ≤ larger.chunks) (metrics : Metrics) (tables : Tables)
    (lines : List String) (mode : Mode) (rounds : Nat) :
    ((start config metrics tables lines).run rounds mode).Followed Fault.OfCapacity SameTables
      ((start { config with capacity := larger } metrics tables lines).run rounds mode) := by
  have hrun := Input.follows_roomier.run rounds mode
    (e := start config metrics tables lines)
    (f := start { config with capacity := larger } metrics tables lines) rfl
    ⟨rfl, larger, h, rfl⟩
  exact hrun.mono fun _ _ hef => hef.1

/-- A call within a call, with a character behind the inner one. -/
def nestedCalls : List String := ["\\def\\a\x7b\\b b\x7d\\def\\b\x7bc\x7d\\a"]

theorem run_larger_nested :
    ∃ list e f,
      (start { capacity := { chunks := 2 } } (usualMetrics {}) {} nestedCalls).run 60 .vertical =
        .done list e ∧
      (start {} (usualMetrics {}) {} nestedCalls).run 60 .vertical = .done list f ∧
      e.SameTables f := by
  obtain ⟨list, e, he, -⟩ : ∃ list e,
      (start { capacity := { chunks := 2 } } (usualMetrics {}) {} nestedCalls).run 60 .vertical =
        .done list e ∧ True := Outcome.exists_done_of_yields (by decide +kernel)
  have hroom : ({ capacity := { chunks := 2 } } : Config).capacity.chunks ≤
      ({ chunks := 5000 } : Capacity).chunks := by decide
  have hf : (Outcome.done list e).Followed Fault.OfCapacity SameTables
      ((start {} (usualMetrics {}) {} nestedCalls).run 60 .vertical) :=
    he ▸ run_larger hroom (usualMetrics {}) {} nestedCalls .vertical 60
  obtain ⟨f, hf, ht⟩ := hf.of_done
  exact ⟨list, e, f, he, hf, ht⟩

end Engine

end Galley
