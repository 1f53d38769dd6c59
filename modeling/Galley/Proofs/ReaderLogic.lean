import Galley.Reader

/-!
What a reader is sure to do. From what the answers to requests promise, `Reader.wp` computes the
states in which a reader ends as wanted; `Reader.run_wp` carries this over to runs under every
handler that keeps the promises on states of its own. A handler may also note states with each
answer (`Reader.states`); where the promises are kept only while these are as they should be, so is
what is computed from them (`Reader.run_wp_passing`).
-/

namespace Galley

/-- A reading that ends does so in `post`, and one that fails in `bad`. -/
def Outcome.Ensures {σ α : Type} (post : α → σ → Prop) (bad : Fault → σ → Prop) :
    Outcome σ α → Prop
  | .done a s => post a s
  | .failed fault s => bad fault s
  | .unfinished => True

theorem Outcome.Ensures.mono {σ α : Type} {post post' : α → σ → Prop} {bad bad' : Fault → σ → Prop}
    {o : Outcome σ α} (h : o.Ensures post bad) (hp : ∀ a s, post a s → post' a s)
    (hb : ∀ f s, bad f s → bad' f s) : o.Ensures post' bad' := by
  cases o with
  | done a s => exact hp a s h
  | failed f s => exact hb f s h
  | unfinished => trivial

theorem Outcome.Ensures.andThen {σ α β : Type} {post : β → σ → Prop} {bad : Fault → σ → Prop}
    {o : Outcome σ α} {k : α → σ → Outcome σ β}
    (h : o.Ensures (fun a s => (k a s).Ensures post bad) bad) :
    (o.andThen k).Ensures post bad := by
  cases o with
  | done a s => exact h
  | failed f s => exact h
  | unfinished => trivial

/-- A reading comes to a value of the property. -/
def Outcome.Yields {σ α : Type} (p : α → Prop) : Outcome σ α → Prop
  | .done a _ => p a
  | _ => False

instance {σ α : Type} (p : α → Prop) [DecidablePred p] : (o : Outcome σ α) → Decidable (o.Yields p)
  | .done a _ => inferInstanceAs (Decidable (p a))
  | .failed _ _ => inferInstanceAs (Decidable False)
  | .unfinished => inferInstanceAs (Decidable False)

theorem Outcome.exists_done_of_yields {σ α : Type} {p : α → Prop} {o : Outcome σ α}
    (h : o.Yields p) : ∃ a s, o = .done a s ∧ p a := by
  cases o with
  | done a s => exact ⟨a, s, rfl, h⟩
  | failed f s => exact h.elim
  | unfinished => exact h.elim

instance {σ α : Type} (p : Fault → Prop) [DecidablePred p] :
    (o : Outcome σ α) → Decidable (o.FailedBy p)
  | .failed f _ => inferInstanceAs (Decidable (p f))
  | .done _ _ => inferInstanceAs (Decidable False)
  | .unfinished => inferInstanceAs (Decidable False)

theorem Outcome.exists_failed_of_failedBy {σ α : Type} {p : Fault → Prop} {o : Outcome σ α}
    (h : o.FailedBy p) : ∃ f s, o = .failed f s ∧ p f := by
  cases o with
  | failed f s => exact ⟨f, s, rfl, h⟩
  | done a s => exact h.elim
  | unfinished => exact h.elim

/-- What a round of a repetition is to leave behind: the invariant, or the result. -/
def Turn.Holds {τ α : Type} (inv : τ → Prop) (post : α → Prop) : Turn τ α → Prop
  | .again t => inv t
  | .finish a => post a

/-- The states passed in a repetition, where `inside` lists those of one round. -/
def iterateStates {σ τ α : Type} (body : τ → σ → Outcome σ (Turn τ α)) (inside : τ → σ → List σ) :
    Nat → τ → σ → List σ
  | 0, _, _ => []
  | rounds + 1, t, s =>
    inside t s ++
      match body t s with
      | .done (.again t) s => iterateStates body inside rounds t s
      | _ => []

/-- A repetition is right by an invariant of its rounds, each of which may rely on what holds of the
states that are noted in it. -/
theorem iterate_ensures_passing {σ τ α : Type} {body : τ → σ → Outcome σ (Turn τ α)}
    {post : α → σ → Prop} {bad : Fault → σ → Prop} (ok : σ → Prop) (inside : τ → σ → List σ)
    (inv : τ → σ → Prop)
    (h : ∀ t s, inv t s → (∀ s' ∈ inside t s, ok s') →
      (body t s).Ensures (fun turn s => turn.Holds (inv · s) (post · s)) bad)
    (rounds : Nat) {t : τ} {s : σ} (hs : inv t s)
    (hok : ∀ s' ∈ iterateStates body inside rounds t s, ok s') :
    (iterate body rounds t s).Ensures post bad := by
  induction rounds generalizing t s with
  | zero => trivial
  | succ rounds ih =>
    rw [iterateStates] at hok
    obtain ⟨hin, hrest⟩ := List.forall_mem_append.mp hok
    have hround := h t s hs hin
    rw [iterate_succ]
    cases ho : body t s with
    | unfinished => trivial
    | failed f s' =>
      rw [ho] at hround
      exact hround
    | done turn s' =>
      rw [ho] at hround hrest
      cases turn with
      | again t' => exact ih hround hrest
      | finish a => exact hround

theorem iterate_ensures {σ τ α : Type} {body : τ → σ → Outcome σ (Turn τ α)}
    {post : α → σ → Prop} {bad : Fault → σ → Prop} (inv : τ → σ → Prop)
    (h : ∀ t s, inv t s →
      (body t s).Ensures (fun turn s => turn.Holds (inv · s) (post · s)) bad)
    (rounds : Nat) {t : τ} {s : σ} (hs : inv t s) :
    (iterate body rounds t s).Ensures post bad :=
  iterate_ensures_passing (fun _ => True) (fun _ _ => []) inv (fun t s hs _ => h t s hs) rounds hs
    fun _ _ => trivial

/-- What every answer keeps, every reader keeps. -/
theorem Reader.run_keeps {Request : Type → Type 1} {σ α : Type} {h : Handler Request σ}
    {inv : σ → Prop}
    (answers : ∀ {γ : Type} (q : Request γ) (s : σ), inv s →
      (h.answer q s).Ensures (fun _ s => inv s) (fun _ s => inv s))
    (rounds : Nat) (r : Reader Request α) {s : σ} (hs : inv s) :
    (r.run h rounds s).Ensures (fun _ s => inv s) (fun _ s => inv s) := by
  induction r generalizing s with
  | pure a => exact hs
  | bind r k ihr ihk =>
    change ((r >>= k).run h rounds s).Ensures _ _
    rw [run_bind]
    exact Outcome.Ensures.andThen ((ihr hs).mono (fun a s hs => ihk a hs) fun _ _ hs => hs)
  | ask q => exact answers q s hs
  | fail c => exact hs
  | loop body t ih =>
    refine iterate_ensures (fun _ s => inv s) (fun t s hs => ?_) rounds hs
    refine (ih t hs).mono (fun turn s hs => ?_) fun _ _ hs => hs
    cases turn with
    | again t => exact hs
    | finish a => exact hs

/-- A handler that also notes states with each answer, such as those that it passes. -/
structure Watched (Request : Type → Type 1) (σ : Type) extends Handler Request σ where
  passes : {α : Type} → Request α → σ → List σ

/-- The states that a reader passes, in the order of its requests. -/
def Reader.states {Request : Type → Type 1} {σ : Type} (h : Watched Request σ) (rounds : Nat)
    {α : Type} : Reader Request α → σ → List σ
  | .pure _, _ => []
  | .bind r k, s =>
    r.states h rounds s ++
      match r.run h.toHandler rounds s with
      | .done a s => (k a).states h rounds s
      | _ => []
  | .ask q, s => h.passes q s
  | .fail _, _ => []
  | .loop body t, s =>
    iterateStates (fun t s => (body t).run h.toHandler rounds s)
      (fun t s => (body t).states h rounds s) rounds t s

/-- For each request and each claim on its answer, the states in which the claim is sure. -/
abbrev Promises (Request : Type → Type 1) (τ : Type) : Type 1 :=
  {γ : Type} → Request γ → (γ → τ → Prop) → τ → Prop

namespace Reader

variable {Request : Type → Type 1} {τ α β : Type}

/-- The states in which a reader ends in `post` or fails for a cause in `fails`. -/
def wp (promises : Promises Request τ) (fails : Cause → Prop) {α : Type} :
    Reader Request α → (α → τ → Prop) → τ → Prop
  | .pure a, post, t => post a t
  | .bind r k, post, t => r.wp promises fails (fun a t => (k a).wp promises fails post t) t
  | .ask q, post, t => promises q post t
  | .fail c, _, _ => fails c
  | @Reader.loop _ υ _ body u, post, t => ∃ inv : υ → τ → Prop, inv u t ∧
      ∀ u t, inv u t →
        (body u).wp promises fails (fun turn t => turn.Holds (inv · t) (post · t)) t

variable {promises : Promises Request τ} {fails : Cause → Prop}

@[simp] theorem wp_pure (a : α) (post : α → τ → Prop) (t : τ) :
    (Pure.pure a : Reader Request α).wp promises fails post t ↔ post a t := Iff.rfl

@[simp] theorem wp_bind (r : Reader Request α) (k : α → Reader Request β) (post : β → τ → Prop)
    (t : τ) : (r >>= k).wp promises fails post t ↔
      r.wp promises fails (fun a t => (k a).wp promises fails post t) t := Iff.rfl

@[simp] theorem wp_ask (q : Request α) (post : α → τ → Prop) (t : τ) :
    (Reader.ask q).wp promises fails post t ↔ promises q post t := Iff.rfl

@[simp] theorem wp_fail (c : Cause) (post : α → τ → Prop) (t : τ) :
    (Reader.fail c : Reader Request α).wp promises fails post t ↔ fails c := Iff.rfl

/-- A repetition is right by an invariant of its rounds. -/
theorem wp_loop {υ : Type} {body : υ → Reader Request (Turn υ α)} {post : α → τ → Prop}
    (inv : υ → τ → Prop)
    (h : ∀ u t, inv u t →
      (body u).wp promises fails (fun turn t => turn.Holds (inv · t) (post · t)) t)
    {u : υ} {t : τ} (ht : inv u t) : (Reader.loop body u).wp promises fails post t := ⟨inv, ht, h⟩

/-- Fails for causes in `fails` alone, whatever it is answered. -/
def Safe (promises : Promises Request τ) (fails : Cause → Prop) (r : Reader Request α) : Prop :=
  ∀ post t, (∀ a t, post a t) → r.wp promises fails post t

theorem Safe.pure (a : α) : (Pure.pure a : Reader Request α).Safe promises fails :=
  fun _ t h => h a t

theorem Safe.fail {c : Cause} (h : fails c) :
    (Reader.fail c : Reader Request α).Safe promises fails :=
  fun _ _ _ => h

theorem Safe.bind {r : Reader Request α} {k : α → Reader Request β}
    (hr : r.Safe promises fails) (hk : ∀ a, (k a).Safe promises fails) :
    (r >>= k).Safe promises fails :=
  fun post t h => hr _ t fun a t => hk a post t h

theorem Safe.loop {υ : Type} {body : υ → Reader Request (Turn υ α)}
    (h : ∀ u, (body u).Safe promises fails) (u : υ) :
    (Reader.loop body u).Safe promises fails := by
  intro post t hp
  refine wp_loop (fun _ _ => True) (fun u t _ => h u _ t fun turn t => ?_) trivial
  cases turn with
  | again u' => trivial
  | finish a => exact hp a t

/-- A handler that keeps the promises, its states standing for those of the promises by `rel`,
runs every reader to where `wp` says; it may rely on what holds of the states that are noted. -/
theorem run_wp_passing {σ : Type} {h : Watched Request σ} {rel : σ → τ → Prop}
    {bad : Fault → σ → Prop} (ok : σ → Prop)
    (answers : ∀ {γ : Type} (q : Request γ) (post : γ → τ → Prop) (s : σ) (t : τ), rel s t →
      (∀ s' ∈ h.passes q s, ok s') → promises q post t →
        (h.answer q s).Ensures (fun a s => ∃ t, rel s t ∧ post a t) bad)
    (blames : ∀ (c : Cause) (s : σ) (t : τ), rel s t → fails c → bad (h.blame c s) s)
    (rounds : Nat) (r : Reader Request α) {post : α → τ → Prop} {s : σ} {t : τ} (hs : rel s t)
    (hok : ∀ s' ∈ r.states h rounds s, ok s') (hw : r.wp promises fails post t) :
    (r.run h.toHandler rounds s).Ensures (fun a s => ∃ t, rel s t ∧ post a t) bad := by
  induction r generalizing s t with
  | pure a => exact ⟨t, hs, hw⟩
  | bind r k ihr ihk =>
    rw [states] at hok
    obtain ⟨hr, hk⟩ := List.forall_mem_append.mp hok
    have hfirst := ihr hs hr hw
    change ((r >>= k).run h.toHandler rounds s).Ensures _ bad
    rw [run_bind]
    cases ho : r.run h.toHandler rounds s with
    | unfinished => trivial
    | failed f s' =>
      rw [ho] at hfirst
      exact hfirst
    | done a s' =>
      rw [ho] at hfirst hk
      obtain ⟨t', hs', hwk⟩ := hfirst
      exact ihk a hs' hk hwk
  | ask q => exact answers q post s t hs hok hw
  | fail c => exact blames c s t hs hw
  | loop body u ih =>
    obtain ⟨inv, hu, hb⟩ := hw
    refine iterate_ensures_passing ok _ (fun u s => ∃ t, rel s t ∧ inv u t) ?_ rounds
      ⟨t, hs, hu⟩ hok
    rintro u s ⟨t, hs, ht⟩ hin
    refine (ih u hs hin (hb u t ht)).mono ?_ fun _ _ hf => hf
    rintro turn s' ⟨t', hs', hturn⟩
    cases turn with
    | again u' => exact ⟨t', hs', hturn⟩
    | finish a => exact ⟨t', hs', hturn⟩

theorem run_wp {σ : Type} {h : Handler Request σ} {rel : σ → τ → Prop} {bad : Fault → σ → Prop}
    (answers : ∀ {γ : Type} (q : Request γ) (post : γ → τ → Prop) (s : σ) (t : τ), rel s t →
      promises q post t → (h.answer q s).Ensures (fun a s => ∃ t, rel s t ∧ post a t) bad)
    (blames : ∀ (c : Cause) (s : σ) (t : τ), rel s t → fails c → bad (h.blame c s) s)
    (rounds : Nat) (r : Reader Request α) {post : α → τ → Prop} {s : σ} {t : τ} (hs : rel s t)
    (hw : r.wp promises fails post t) :
    (r.run h rounds s).Ensures (fun a s => ∃ t, rel s t ∧ post a t) bad :=
  run_wp_passing (h := ⟨h, fun _ _ => []⟩) (fun _ => True)
    (fun q post s t hs _ hq => answers q post s t hs hq) blames rounds r hs (fun _ _ => trivial) hw

end Reader

end Galley
