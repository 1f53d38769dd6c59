import Galley.Expansion
import Galley.Proofs.ReaderLogic

/-!
The states that a run passes on its way. A run without end comes to no outcome, and one that fails
may have been in a worse state before; what is to hold at all times is said of every state that the
answers to requests leave, in any number of rounds (`Reader.states`). `Reader.Passes` carries an
invariant through all of them, with one rule for each way to build a reader.
-/

namespace Galley

/-- The state that a reading has ended in. -/
def Outcome.state? {σ α : Type} : Outcome σ α → Option σ
  | .done _ s => some s
  | .failed _ s => some s
  | .unfinished => none

theorem Outcome.Ensures.of_state? {σ α : Type} {inv : σ → Prop} {post : α → σ → Prop}
    {bad : Fault → σ → Prop} {o : Outcome σ α} {s : σ} (h : o.Ensures post bad)
    (hpost : ∀ a s, post a s → inv s) (hbad : ∀ f s, bad f s → inv s) (hs : o.state? = some s) :
    inv s := by
  cases o with
  | done a s' =>
    cases hs
    exact hpost a s h
  | failed f s' =>
    cases hs
    exact hbad f s h
  | unfinished => cases hs

theorem Outcome.Ensures.not_failedBy {σ α : Type} {lost : Fault → Prop} {post : α → σ → Prop}
    {bad : Fault → σ → Prop} {o : Outcome σ α} (h : o.Ensures post bad)
    (hbad : ∀ f s, bad f s → ¬ lost f) : ¬ o.FailedBy lost := by
  cases o with
  | done a s => exact id
  | failed f s => exact hbad f s h
  | unfinished => exact id

theorem forall_mem_iterateStates {σ τ α : Type} {body : τ → σ → Outcome σ (Turn τ α)}
    {inside : τ → σ → List σ} {inv : σ → Prop} (start : τ → σ → Prop)
    (hin : ∀ t s, start t s → ∀ s' ∈ inside t s, inv s')
    (hagain : ∀ t s u s', start t s → body t s = .done (.again u) s' → start u s')
    (rounds : Nat) {t : τ} {s : σ} (hs : start t s) :
    ∀ s' ∈ iterateStates body inside rounds t s, inv s' := by
  induction rounds generalizing t s with
  | zero => exact List.forall_mem_nil _
  | succ rounds ih =>
    rw [iterateStates]
    refine List.forall_mem_append.mpr ⟨hin t s hs, ?_⟩
    split
    · rename_i u s' ho
      exact ih (hagain t s u s' hs ho)
    · exact List.forall_mem_nil _

/-- A list of states ends in this one, or is empty where it is the first. -/
def EndsAt {σ : Type} (first : σ) (states : List σ) (s : σ) : Prop := states.getLast?.getD first = s

theorem EndsAt.append {σ : Type} {first s s' : σ} {states more : List σ} (h : EndsAt first states s)
    (hm : EndsAt s more s') : EndsAt first (states ++ more) s' := by
  unfold EndsAt at h hm ⊢
  rw [List.getLast?_append, ← hm, ← h]
  cases more.getLast? <;> rfl

theorem EndsAt.mem {σ : Type} {first s : σ} {states : List σ} (h : EndsAt first states s) :
    s = first ∨ s ∈ states := by
  unfold EndsAt at h
  cases hl : states.getLast? with
  | none =>
    rw [hl] at h
    exact Or.inl h.symm
  | some u =>
    rw [hl] at h
    exact Or.inr (h ▸ List.mem_of_getLast? hl)

theorem iterateStates_endsAt {σ τ α : Type} {body : τ → σ → Outcome σ (Turn τ α)}
    {inside : τ → σ → List σ}
    (h : ∀ t s s', (body t s).state? = some s' → EndsAt s (inside t s) s') (rounds : Nat) {t : τ}
    {s s' : σ} (hs : (iterate body rounds t s).state? = some s') :
    EndsAt s (iterateStates body inside rounds t s) s' := by
  induction rounds generalizing t s with
  | zero => cases hs
  | succ rounds ih =>
    rw [iterate_succ] at hs
    rw [iterateStates]
    cases ho : body t s with
    | unfinished =>
      rw [ho] at hs
      cases hs
    | failed f u =>
      have hu := h t s u (by rw [ho]; rfl)
      rw [ho] at hs
      cases hs
      exact hu.append rfl
    | done turn u =>
      have hu := h t s u (by rw [ho]; rfl)
      rw [ho] at hs
      cases turn with
      | again t' => exact hu.append (ih hs)
      | finish a =>
        cases hs
        exact hu.append rfl

/-- What a round is asked in is what the rounds begin with, or passed in them. -/
theorem mem_iterateStates {σ τ α : Type} {body : τ → σ → Outcome σ (Turn τ α)}
    {inside asked : τ → σ → List σ}
    (hasked : ∀ t s, ∀ s' ∈ asked t s, s' = s ∨ s' ∈ inside t s)
    (hends : ∀ t s s', (body t s).state? = some s' → EndsAt s (inside t s) s') (rounds : Nat)
    {t : τ} {s s' : σ} (hs : s' ∈ iterateStates body asked rounds t s) :
    s' = s ∨ s' ∈ iterateStates body inside rounds t s := by
  induction rounds generalizing t s with
  | zero => cases hs
  | succ rounds ih =>
    rw [iterateStates, List.mem_append] at hs ⊢
    rcases hs with hs | hs
    · exact (hasked t s s' hs).imp_right Or.inl
    · cases ho : body t s with
      | failed f u =>
        rw [ho] at hs
        cases hs
      | unfinished =>
        rw [ho] at hs
        cases hs
      | done turn u =>
        rw [ho] at hs
        cases turn with
        | finish a => cases hs
        | again t' =>
          -- the next round begins where this one ends
          have hu := hends t s u (by rw [ho]; rfl)
          rcases ih hs with rfl | hs
          · exact hu.mem.imp_right Or.inl
          · exact Or.inr (Or.inr hs)

/-! ## Readers -/

namespace Reader

variable {Request : Type → Type 1} {σ α β : Type}

/-- Where a run ends is the last state that it passes, if this holds of each answer. -/
theorem states_endsAt {h : Watched Request σ}
    (answers : ∀ {γ : Type} (q : Request γ) (s s' : σ), (h.answer q s).state? = some s' →
      EndsAt s (h.passes q s) s')
    (rounds : Nat) (r : Reader Request α) {s s' : σ}
    (hs : (r.run h.toHandler rounds s).state? = some s') : EndsAt s (r.states h rounds s) s' := by
  induction r generalizing s s' with
  | pure a =>
    cases hs
    rfl
  | bind r k ihr ihk =>
    change ((r >>= k).run h.toHandler rounds s).state? = some s' at hs
    rw [run_bind] at hs
    rw [states]
    cases ho : r.run h.toHandler rounds s with
    | unfinished =>
      rw [ho] at hs
      cases hs
    | failed f u =>
      have hu : EndsAt s (r.states h rounds s) u := ihr (by rw [ho]; rfl)
      rw [ho] at hs
      cases hs
      exact hu.append rfl
    | done a u =>
      have hu : EndsAt s (r.states h rounds s) u := ihr (by rw [ho]; rfl)
      rw [ho] at hs
      exact hu.append (ihk a hs)
  | ask q => exact answers q s s' hs
  | fail c =>
    cases hs
    rfl
  | loop body t ih => exact iterateStates_endsAt (fun t s u hu => ih t hu) rounds hs

/-- What is noted of the states that requests are asked in is where the reader begins, or passed. -/
theorem mem_states_of_asked {h : Watched Request σ}
    {asked : {γ : Type} → Request γ → σ → List σ}
    (hasked : ∀ {γ : Type} (q : Request γ) (s : σ), ∀ s' ∈ asked q s, s' = s)
    (hends : ∀ {γ : Type} (q : Request γ) (s s' : σ), (h.answer q s).state? = some s' →
      EndsAt s (h.passes q s) s')
    {rounds : Nat} (r : Reader Request α) {s s' : σ}
    (hs : s' ∈ r.states ⟨h.toHandler, asked⟩ rounds s) : s' = s ∨ s' ∈ r.states h rounds s := by
  induction r generalizing s s' with
  | pure a => cases hs
  | bind r k ihr ihk =>
    rw [states, List.mem_append] at hs ⊢
    rcases hs with hs | hs
    · exact (ihr hs).imp_right Or.inl
    · cases ho : r.run h.toHandler rounds s with
      | failed f u =>
        rw [ho] at hs
        cases hs
      | unfinished =>
        rw [ho] at hs
        cases hs
      | done b u =>
        rw [ho] at hs
        have hu : EndsAt s (r.states h rounds s) u := states_endsAt hends rounds r (by rw [ho]; rfl)
        rcases ihk b hs with rfl | hs
        · exact hu.mem.imp_right Or.inl
        · exact Or.inr (Or.inr hs)
  | ask q => exact Or.inl (hasked q s s' hs)
  | fail c => cases hs
  | loop body t ih =>
    exact mem_iterateStates (fun t s s' hs => ih t hs)
      (fun t s s' hs => states_endsAt hends rounds (body t) hs) rounds hs

/-- All states on the way have the invariant, and the end is as wanted. -/
structure Passes (h : Watched Request σ) (rounds : Nat) (inv : σ → Prop) (r : Reader Request α)
    (s : σ) (post : α → σ → Prop) (bad : Fault → σ → Prop) : Prop where
  through : ∀ s' ∈ r.states h rounds s, inv s'
  ends : (r.run h.toHandler rounds s).Ensures post bad

namespace Passes

variable {h : Watched Request σ} {rounds : Nat} {inv : σ → Prop} {s : σ} {post : α → σ → Prop}
  {bad : Fault → σ → Prop}

theorem mono {r : Reader Request α} {post' : α → σ → Prop} (hr : r.Passes h rounds inv s post bad)
    (hp : ∀ a s, post a s → post' a s) : r.Passes h rounds inv s post' bad :=
  ⟨hr.through, hr.ends.mono hp fun _ _ hf => hf⟩

theorem pure {a : α} (ha : post a s) :
    (Pure.pure a : Reader Request α).Passes h rounds inv s post bad :=
  ⟨List.forall_mem_nil _, ha⟩

theorem fail {c : Cause} (hc : bad (h.blame c s) s) :
    (Reader.fail c : Reader Request α).Passes h rounds inv s post bad :=
  ⟨List.forall_mem_nil _, hc⟩

theorem ask {q : Request α} (hq : ∀ s' ∈ h.passes q s, inv s')
    (ha : (h.answer q s).Ensures post bad) : (Reader.ask q).Passes h rounds inv s post bad :=
  ⟨hq, ha⟩

/-- A request with which no other state is passed than the one it is answered in. -/
theorem ask_once {q : Request α} (hq : h.passes q s = (h.answer q s).state?.toList)
    (ha : (h.answer q s).Ensures post bad) (hpost : ∀ a s, post a s → inv s)
    (hbad : ∀ f s, bad f s → inv s) : (Reader.ask q).Passes h rounds inv s post bad := by
  refine ⟨fun s' hs' => ha.of_state? hpost hbad ?_, ha⟩
  rw [states, hq] at hs'
  simpa using hs'

theorem bind {r : Reader Request β} {k : β → Reader Request α}
    (hr : r.Passes h rounds inv s (fun b s => (k b).Passes h rounds inv s post bad) bad) :
    (r >>= k).Passes h rounds inv s post bad where
  through := by
    have hends := hr.ends
    change ∀ s' ∈ (Reader.bind r k).states h rounds s, inv s'
    rw [states]
    refine List.forall_mem_append.mpr ⟨hr.through, ?_⟩
    split
    · rename_i ho
      rw [ho] at hends
      exact hends.through
    · exact List.forall_mem_nil _
  ends := by
    rw [run_bind]
    exact Outcome.Ensures.andThen (hr.ends.mono (fun _ _ hb => hb.ends) fun _ _ hf => hf)

theorem loop {τ : Type} {body : τ → Reader Request (Turn τ α)} (start : τ → σ → Prop)
    (hbody : ∀ t s, start t s → (body t).Passes h rounds inv s
      (fun turn s => turn.Holds (start · s) (post · s)) bad)
    {t : τ} (hs : start t s) : (Reader.loop body t).Passes h rounds inv s post bad where
  through := by
    rw [states]
    refine forall_mem_iterateStates start (fun t s ht => (hbody t s ht).through) ?_ rounds hs
    intro t s u s' ht ho
    have hends := (hbody t s ht).ends
    rw [ho] at hends
    exact hends
  ends := iterate_ensures start (fun t s ht => (hbody t s ht).ends) rounds hs

end Passes

/-- What every answer passes and keeps, every reader does. -/
theorem passes_of_answers {h : Watched Request σ} {rounds : Nat} {inv : σ → Prop}
    {bad : Fault → σ → Prop}
    (answers : ∀ {γ : Type} (q : Request γ) (s : σ), inv s →
      (Reader.ask q).Passes h rounds inv s (fun _ s => inv s) bad)
    (blames : ∀ (c : Cause) (s : σ), inv s → bad (h.blame c s) s) (r : Reader Request α) {s : σ}
    (hs : inv s) : r.Passes h rounds inv s (fun _ s => inv s) bad := by
  induction r generalizing s with
  | pure a => exact .pure hs
  | bind r k ihr ihk => exact .bind ((ihr hs).mono fun a s hs => ihk a hs)
  | ask q => exact answers q s hs
  | fail c => exact .fail (blames c s hs)
  | loop body t ih =>
    refine .loop (fun _ s => inv s) (fun t s hs => (ih t hs).mono fun turn s hs => ?_) hs
    cases turn with
    | again t => exact hs
    | finish a => exact hs

end Reader

/-! ## Expansion -/

namespace Input

/-- The inputs that a consumer leaves behind each of its readings. -/
def consumeStates (a : Alphabet) (rounds : Nat) {β : Type} (c : Consumer β) (i : Input) :
    List Input :=
  match c.start with
  | .finish _ => []
  | .again s =>
    iterateStates (fun s i => (i.next a).map fun
      | some t => c.step s t
      | none => .finish (c.atEnd s)) (fun _ i => (i.next a).state?.toList) rounds s i

theorem consumeStates_endsAt (a : Alphabet) (rounds : Nat) {β : Type} (c : Consumer β) {i j : Input}
    (h : (i.consume a rounds c).state? = some j) : EndsAt i (i.consumeStates a rounds c) j := by
  unfold consume at h
  unfold consumeStates
  cases hc : c.start with
  | finish b =>
    rw [hc] at h
    cases h
    rfl
  | again s =>
    rw [hc] at h
    refine iterateStates_endsAt (fun s i j hj => ?_) rounds h
    cases ho : i.next a <;> rw [ho] at hj <;> cases hj <;> rfl

theorem forall_mem_consumeStates {a : Alphabet} {inv : Input → Prop} {bad : Fault → Input → Prop}
    (hnext : ∀ i, inv i → (i.next a).Ensures (fun _ j => inv j) bad)
    (hbad : ∀ f i, bad f i → inv i) (rounds : Nat) {β : Type} (c : Consumer β) {i : Input}
    (hi : inv i) : ∀ j ∈ i.consumeStates a rounds c, inv j := by
  unfold consumeStates
  cases c.start with
  | finish b => exact List.forall_mem_nil _
  | again s =>
    refine forall_mem_iterateStates (fun _ j => inv j) (fun s j hj k hk => ?_) ?_ rounds hi
    · exact (hnext j hj).of_state? (fun _ _ hk => hk) hbad (by simpa using hk)
    · intro s j s' k hj ho
      have hn := hnext j hj
      cases hx : j.next a with
      | done x k' =>
        rw [hx] at ho hn
        injection ho with _ hk
        exact hk ▸ hn
      | failed f k' => simp [hx, Outcome.map] at ho
      | unfinished => simp [hx, Outcome.map] at ho

end Input

/-- The inputs passed with an answer: that behind each raw reading, and that behind each push and
each change of the open branches. -/
def RawRequest.states (tables : Tables) (rounds : Nat) {α : Type} :
    RawRequest α → Input → List Input
  | .consume c, i => i.consumeStates tables.alphabet rounds c
  | .skip toElse, i => i.consumeStates tables.alphabet rounds (skipper i.nested toElse)
  | q, i => (q.answer tables rounds i).state?.toList

def watched (tables : Tables) (rounds : Nat) : Watched RawRequest Input :=
  ⟨rawHandler tables rounds, RawRequest.states tables rounds⟩

theorem RawRequest.states_endsAt {tables : Tables} {rounds : Nat} {α : Type} (q : RawRequest α)
    {i j : Input} (h : (q.answer tables rounds i).state? = some j) :
    EndsAt i (q.states tables rounds i) j := by
  cases q with
  | consume c => exact Input.consumeStates_endsAt _ rounds c h
  | skip toElse =>
    refine Input.consumeStates_endsAt tables.alphabet rounds (skipper i.nested toElse) ?_
    simp only [answer, Input.skip] at h
    cases ho : i.consume tables.alphabet rounds (skipper i.nested toElse) with
    | unfinished =>
      rw [ho] at h
      cases h
    | failed f k =>
      rw [ho] at h
      exact h
    | done landed k =>
      rw [ho] at h
      cases landed with
      | none => exact h
      | some landed => exact h
  | next => simp [states, h, EndsAt]
  | push ts origin => simp [states, h, EndsAt]
  | meaning t => simp [states, h, EndsAt]
  | openBranch => simp [states, h, EndsAt]
  | closeBranch => simp [states, h, EndsAt]

/-- The inputs that a call of expansion passes. -/
def Input.passed (tables : Tables) (rounds : Nat) (i : Input) : List Input :=
  Expansion.next.states (watched tables rounds) rounds i

/-- A call of expansion ends in the last input that it passes. -/
theorem Input.passed_endsAt {tables : Tables} {rounds : Nat} {i j : Input}
    (h : (i.nextExpanded tables rounds).state? = some j) : EndsAt i (i.passed tables rounds) j :=
  Reader.states_endsAt (fun q _ _ hq => q.states_endsAt hq) rounds Expansion.next h

end Galley
