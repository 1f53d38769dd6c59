import Galley.Proofs.Recording

/-!
States that can be reached. Any requests under any tables lead from new inputs to them
(`Recorded.Reached`), or pass them on the way. Runs visit no others (`Engine.Visits`), and what is
said of the faults of requests there holds of every fault of a run.
-/

namespace Galley

/-! ## Requests -/

namespace Recorded

variable {r s : Recorded Input} {tables : Tables} {rounds : Nat} {α : Type}

/-- What every reading keeps, every consumer keeps, and all states that it passes have it. -/
theorem consume_passes {as : Lexeme → InputEvent} {a : Alphabet} {inv : Recorded Input → Prop}
    {bad : Fault → Recorded Input → Prop}
    (hnext : ∀ r, inv r → (r.next as a).Ensures (fun _ s => inv s) bad)
    (hbad : ∀ f r, bad f r → inv r) (rounds : Nat) {β : Type} (c : Consumer β) (hr : inv r) :
    (∀ s ∈ r.consumeStates as a rounds c, inv s) ∧
      (r.consume as a rounds c).Ensures (fun _ s => inv s) bad := by
  unfold consumeStates consume
  cases c.start with
  | finish b => exact ⟨List.forall_mem_nil _, hr⟩
  | again s =>
    have hround : ∀ (s : c.State) (r : Recorded Input), inv r →
        ((r.next as a).map (c.receive s)).Ensures
          (fun turn s => turn.Holds (fun _ => inv s) fun _ => inv s) bad := by
      intro s r hr
      rw [Outcome.map_eq_andThen]
      refine Outcome.Ensures.andThen ((hnext r hr).mono (fun x r hr => ?_) fun _ _ hf => hf)
      change (c.receive s x).Holds _ _
      cases c.receive s x with
      | again s => exact hr
      | finish b => exact hr
    refine ⟨forall_mem_iterateStates (fun _ r => inv r) (fun s r hr r' hr' => ?_) ?_ rounds hr,
      iterate_ensures (fun _ r => inv r) hround rounds hr⟩
    · exact (hnext r hr).of_state? (fun _ _ hs => hs) hbad (by simpa using hr')
    · intro s r u r' hr ho
      have hends := hround s r hr
      rw [ho] at hends
      exact hends

theorem consumeStates_endsAt (as : Lexeme → InputEvent) (a : Alphabet) (rounds : Nat) {β : Type}
    (c : Consumer β) (h : (r.consume as a rounds c).state? = some s) :
    EndsAt r (r.consumeStates as a rounds c) s := by
  unfold consume at h
  unfold consumeStates
  cases hc : c.start with
  | finish b =>
    rw [hc] at h
    cases h
    rfl
  | again u =>
    rw [hc] at h
    refine iterateStates_endsAt (fun s r r' hr => ?_) rounds h
    cases ho : r.next as a <;> rw [ho] at hr <;> cases hr <;> rfl

theorem rawStates_endsAt (q : RawRequest α) (h : (q.record tables rounds r).state? = some s) :
    EndsAt r (q.recordedStates tables rounds r) s := by
  cases q with
  | consume c => exact consumeStates_endsAt _ _ rounds c h
  | skip toElse =>
    refine consumeStates_endsAt .skipped tables.alphabet rounds (skipper r.state.nested toElse) ?_
    simp only [RawRequest.record, skip] at h
    cases ho : r.consume .skipped tables.alphabet rounds (skipper r.state.nested toElse) with
    | unfinished =>
      rw [ho] at h
      cases h
    | failed f k =>
      rw [ho] at h
      exact h
    | done landed k =>
      rw [ho] at h
      cases landed with
      | none => exact h
      | some landed => exact h
  | next => simp [RawRequest.recordedStates, h, EndsAt]
  | push ts origin => simp [RawRequest.recordedStates, h, EndsAt]
  | meaning t => simp [RawRequest.recordedStates, h, EndsAt]
  | openBranch => simp [RawRequest.recordedStates, h, EndsAt]
  | closeBranch => simp [RawRequest.recordedStates, h, EndsAt]

theorem states_endsAt (q : Request α) (h : (q.record tables rounds r).state? = some s) :
    EndsAt r (q.recordedStates tables rounds r) s := by
  cases q with
  | expanded =>
    exact Reader.states_endsAt (h := rawRecorder tables rounds)
      (fun q _ _ h => rawStates_endsAt q h) rounds Expansion.next h
  | consume c => exact consumeStates_endsAt _ _ rounds c h
  | unexpanded => simp [Request.recordedStates, h, EndsAt]
  | back ts => simp [Request.recordedStates, h, EndsAt]

/-- A turn ends with the input that it begins with, or with one that it passes. -/
theorem turn_passed (face : Typeface) (nest : Nest) (m : Recorded Machine) :
    (m.turn face rounds nest).Ensures
      (fun _ m' => m'.input = m.input ∨ m'.input ∈ (m.turnStates face rounds nest).map input)
      (fun _ m' => m'.input = m.input ∨ m'.input ∈ (m.turnStates face rounds nest).map input) := by
  have hends : ∀ s, ((Build.step face nest).run (recorder m.state.tables rounds).toHandler rounds
      m.input).state? = some s → s = m.input ∨ s ∈ (m.turnStates face rounds nest).map input := by
    intro s hs
    have hlast := Reader.states_endsAt (h := recorder m.state.tables rounds)
      (fun q _ _ h => states_endsAt q h) rounds (Build.step face nest) hs
    refine hlast.mem.imp_right fun hs => ?_
    rw [turnStates, List.map_map]
    exact List.mem_map.mpr ⟨s, hs, rfl⟩
  unfold turn
  cases ho : (Build.step face nest).run (recorder m.state.tables rounds).toHandler rounds
    m.input with
  | unfinished => trivial
  | failed f s => exact hends s (by rw [ho]; rfl)
  | done e s => exact hends s (by rw [ho]; rfl)

/-- Requests lead from a new input to this state, or pass it: each under tables of its own, in any
order, finished or not. -/
inductive Reached : Recorded Input → Prop
  | new (lines : List String) (strict nested : Bool) (capacity : Capacity) :
    Reached ⟨.ofLines lines strict nested capacity, []⟩
  | passed {r s : Recorded Input} {α : Type} (h : Reached r) (tables : Tables) (rounds : Nat)
    (q : Request α) (hs : s ∈ q.recordedStates tables rounds r) : Reached s
  | peeked {r s : Recorded Input} (h : Reached r) (a : Alphabet)
    (hs : (r.peek a).state? = some s) : Reached s

namespace Reached

theorem ended (h : r.Reached) (tables : Tables) (rounds : Nat) (q : Request α)
    (hs : (q.record tables rounds r).state? = some s) : s.Reached := by
  rcases (states_endsAt q hs).mem with rfl | hs
  · exact h
  · exact h.passed tables rounds q hs

/-- A property of faults that every request has, readers and runs have too. -/
theorem passes {bad : Fault → Recorded Input → Prop}
    (answers : ∀ {γ : Type} (q : Request γ) (tables : Tables) (r : Recorded Input), r.Reached →
      (q.record tables rounds r).Ensures (fun _ _ => True) bad)
    (blames : ∀ (c : Cause) (r : Recorded Input), bad (r.state.fault c) r) (tables : Tables)
    (x : Scan α) (h : r.Reached) :
    x.Passes (recorder tables rounds) rounds Reached r (fun _ s => s.Reached)
      fun f s => s.Reached ∧ bad f s := by
  refine Reader.passes_of_answers (fun q s hs => ?_) (fun c s hs => ⟨hs, blames c s⟩) x h
  refine .ask (fun s' hs' => hs.passed tables rounds q hs') ?_
  have hends := answers q tables s hs
  change (q.record tables rounds s).Ensures _ _
  cases ho : q.record tables rounds s with
  | done a s' => exact hs.ended tables rounds q (by rw [ho]; rfl)
  | failed f s' =>
    rw [ho] at hends
    exact ⟨hs.ended tables rounds q (by rw [ho]; rfl), hends⟩
  | unfinished => trivial

theorem turn {bad : Fault → Recorded Input → Prop}
    (answers : ∀ {γ : Type} (q : Request γ) (tables : Tables) (r : Recorded Input), r.Reached →
      (q.record tables rounds r).Ensures (fun _ _ => True) bad)
    (blames : ∀ (c : Cause) (r : Recorded Input), bad (r.state.fault c) r) (face : Typeface)
    (nest : Nest) {m : Recorded Machine} (h : m.input.Reached) :
    (∀ m' ∈ m.turnStates face rounds nest, m'.input.Reached) ∧
      (m.turn face rounds nest).Ensures (fun _ m => m.input.Reached)
        fun f m => m.input.Reached ∧ bad f m.input := by
  have hstep := h.passes answers blames m.state.tables (Build.step face nest)
  constructor
  · intro m' hm'
    obtain ⟨s, hs, rfl⟩ := List.mem_map.mp hm'
    exact hstep.through s hs
  · have hends := hstep.ends
    unfold Recorded.turn
    generalize (Build.step face nest).run (recorder m.state.tables rounds).toHandler rounds
      m.input = o at hends ⊢
    cases o with
    | done e s => exact hends
    | failed f s => exact hends
    | unfinished => trivial

end Reached

end Recorded

/-! ## Runs -/

namespace Engine

variable {rounds : Nat}

/-- A run passes states that can be reached. -/
theorem reached_of_runStates (config : Config) (metrics : Metrics) (tables : Tables)
    (lines : List String) (mode : Mode) :
    ∀ r ∈ (start config metrics tables lines).runStates rounds mode, r.Reached := by
  let e := start config metrics tables lines
  have hany : ∀ {γ : Type} (q : Request γ) (tables : Tables) (r : Recorded Input), r.Reached →
      (q.record tables rounds r).Ensures (fun _ _ => True) fun _ _ => True := by
    intro γ q tables r _
    cases q.record tables rounds r <;> trivial
  have hturn := fun (nest : Nest) (m : Recorded Machine) (hm : m.input.Reached) =>
    hm.turn hany (fun _ _ => trivial) e.face nest
  have hstates : ∀ m ∈ iterateStates (Recorded.turn e.face rounds)
      (Recorded.turnStates e.face rounds) rounds (.outer mode []) ⟨e.machine, []⟩,
      m.input.Reached := by
    refine forall_mem_iterateStates (fun _ m => m.input.Reached)
      (fun nest m hm => (hturn nest m hm).1) ?_ rounds
      (.new lines config.strict config.nested config.capacity)
    intro nest m nest' m' hm ho
    have hends := (hturn nest m hm).2
    rw [ho] at hends
    exact hends
  exact List.forall_mem_map.mpr hstates

/-- A run begins in this state or passes it. -/
def Visits (rounds : Nat) (mode : Mode) (e : Engine) (r : Recorded Input) : Prop :=
  r = ⟨e.machine.input, []⟩ ∨ r ∈ e.runStates rounds mode

theorem Visits.reached {config : Config} {metrics : Metrics} {tables : Tables}
    {lines : List String} {mode : Mode} {r : Recorded Input}
    (h : (start config metrics tables lines).Visits rounds mode r) : r.Reached := by
  rcases h with rfl | hr
  · exact .new lines config.strict config.nested config.capacity
  · exact reached_of_runStates config metrics tables lines mode r hr

/-- A recorded run ends in a state that it visits, and fails as its turns do. -/
theorem build_visits (e : Engine) (mode : Mode) (bad : Fault → Recorded Input → Prop)
    (turns : ∀ (nest : Nest) (m : Recorded Machine), e.Visits rounds mode m.input →
      (m.turn e.face rounds nest).Ensures (fun _ _ => True) fun f m => bad f m.input) :
    (Recorded.build e.face rounds mode ⟨e.machine, []⟩).Ensures
      (fun _ m => e.Visits rounds mode m.input)
      fun f m => e.Visits rounds mode m.input ∧ bad f m.input := by
  refine iterate_ensures_passing (fun m => m.input ∈ e.runStates rounds mode)
    (Recorded.turnStates e.face rounds) (fun _ m => e.Visits rounds mode m.input)
    (fun nest m hm hin => ?_) rounds (Or.inl rfl) fun m hm => List.mem_map_of_mem hm
  have hvisits : ∀ m' : Recorded Machine, m'.input = m.input ∨
      m'.input ∈ (m.turnStates e.face rounds nest).map Recorded.input →
        e.Visits rounds mode m'.input := by
    rintro m' (hm' | hm')
    · exact hm' ▸ hm
    · obtain ⟨n, hn, hm'⟩ := List.mem_map.mp hm'
      exact Or.inr (hm' ▸ hin n hn)
  have hlast : (m.turn e.face rounds nest).Ensures _ _ := Recorded.turn_passed e.face nest m
  have hturn := turns nest m hm
  cases ho : m.turn e.face rounds nest with
  | unfinished => trivial
  | failed f m' =>
    rw [ho] at hlast hturn
    exact ⟨hvisits m' hlast, hturn⟩
  | done turn m' =>
    rw [ho] at hlast
    cases turn with
    | again nest => exact hvisits m' hlast
    | finish list => exact hvisits m' hlast

/-- A run fails in a state that it visits, and for a fault that the requests are known to have. -/
theorem exists_visited_of_failed {bad : Fault → Recorded Input → Prop}
    (answers : ∀ {γ : Type} (q : Request γ) (tables : Tables) (r : Recorded Input), r.Reached →
      (q.record tables rounds r).Ensures (fun _ _ => True) bad)
    (blames : ∀ (c : Cause) (r : Recorded Input), bad (r.state.fault c) r) {config : Config}
    {metrics : Metrics} {tables : Tables} {lines : List String} {mode : Mode} {f : Fault}
    {e : Engine} (h : (start config metrics tables lines).run rounds mode = .failed f e) :
    ∃ r : Recorded Input, (start config metrics tables lines).Visits rounds mode r ∧
      r.state = e.machine.input ∧ bad f r := by
  have hends := build_visits (start config metrics tables lines) mode bad
    fun nest m (hm : Visits rounds mode _ _) =>
      (hm.reached.turn answers blames ⟨metrics, config.font⟩ nest).2.mono (fun _ _ _ => trivial)
        fun _ _ hf => hf.2
  have hbuild := Recorded.build_related ⟨metrics, config.font⟩ rounds mode
    (start config metrics tables lines).machine
  unfold run at h
  dsimp only [start] at h hbuild hends
  generalize Recorded.build _ rounds mode _ = o at hends hbuild
  generalize Machine.build _ rounds mode _ = p at h hbuild
  cases p with
  | done list m => cases h
  | unfinished => cases h
  | failed g m =>
    cases h
    cases o with
    | done list m => exact hbuild.elim
    | unfinished => exact hbuild.elim
    | failed g n =>
      obtain ⟨rfl, hm⟩ := hbuild
      exact ⟨n.input, hends.1, congrArg Machine.input hm, hends.2⟩

end Engine

end Galley
