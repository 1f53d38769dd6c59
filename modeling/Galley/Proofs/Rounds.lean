import Galley.Engine

/-!
Runs with a bounded number of rounds. More rounds never change an outcome that has been reached
(`Outcome.Below`, one lemma for each function that takes rounds), so every run settles: on what it
reaches with enough rounds, or on being unfinished with any number of them.
-/

namespace Galley

/-! ## The order of outcomes -/

namespace Outcome

variable {σ α β : Type}

/-- More rounds may turn the one outcome into the other: only an unfinished one may change. -/
def Below (o p : Outcome σ α) : Prop := o = .unfinished ∨ o = p

theorem Below.refl (o : Outcome σ α) : o.Below o := Or.inr rfl

theorem unfinished_below (o : Outcome σ α) : (unfinished : Outcome σ α).Below o := Or.inl rfl

theorem Below.trans {o p q : Outcome σ α} (h : o.Below p) (h' : p.Below q) : o.Below q := by
  rcases h with rfl | rfl
  · exact unfinished_below q
  · exact h'

theorem Below.eq_of_ne {o p : Outcome σ α} (h : o.Below p) (ho : o ≠ .unfinished) : p = o := by
  rcases h with rfl | rfl
  · exact absurd rfl ho
  · rfl

theorem Below.antisymm {o p : Outcome σ α} (h : o.Below p) (h' : p.Below o) : o = p := by
  rcases h with rfl | rfl
  · rcases h' with h' | h'
    · exact h'.symm
    · exact h'.symm
  · rfl

theorem Below.andThen {o p : Outcome σ α} (h : o.Below p) {k l : α → σ → Outcome σ β}
    (hk : ∀ a s, (k a s).Below (l a s)) : (o.andThen k).Below (p.andThen l) := by
  rcases h with rfl | rfl
  · exact unfinished_below _
  · cases o with
    | done a s => exact hk a s
    | failed fault s => exact Below.refl _
    | unfinished => exact Below.refl _

end Outcome

theorem iterate_below {σ τ α : Type} {f g : τ → σ → Outcome σ (Turn τ α)}
    (h : ∀ t s, (f t s).Below (g t s)) {n m : Nat} (hn : n ≤ m) (t : τ) (s : σ) :
    (iterate f n t s).Below (iterate g m t s) := by
  induction n generalizing m t s with
  | zero => exact Outcome.unfinished_below _
  | succ n ih =>
    obtain ⟨m, rfl⟩ : ∃ k, m = k + 1 := ⟨m - 1, by omega⟩
    rw [iterate_succ, iterate_succ]
    refine (h t s).andThen fun turn s' => ?_
    cases turn with
    | again t' => exact ih (by omega) t' s'
    | finish a => exact Outcome.Below.refl _

theorem Reader.run_below {Request : Type → Type 1} {σ α : Type} {h h' : Handler Request σ}
    (answers : ∀ {γ : Type} (q : Request γ) (s : σ), (h.answer q s).Below (h'.answer q s))
    (blames : h.blame = h'.blame) {n m : Nat} (hn : n ≤ m) (r : Reader Request α) (s : σ) :
    (r.run h n s).Below (r.run h' m s) := by
  induction r generalizing s with
  | pure a => exact Outcome.Below.refl _
  | bind r k ihr ihk =>
    change ((r >>= k).run h n s).Below ((r >>= k).run h' m s)
    rw [run_bind, run_bind]
    exact (ihr s).andThen fun a s' => ihk a s'
  | ask q => exact answers q s
  | fail c =>
    simp only [run, blames]
    exact Outcome.Below.refl _
  | loop body t ih => exact iterate_below (fun t s => ih t s) hn t s

/-! ## The functions that take rounds -/

namespace Input

variable {n m : Nat}

theorem consume_below (hn : n ≤ m) (a : Alphabet) {β : Type} (c : Consumer β) (i : Input) :
    (i.consume a n c).Below (i.consume a m c) := by
  unfold consume
  cases c.start with
  | again s => exact iterate_below (fun _ _ => Outcome.Below.refl _) hn s i
  | finish b => exact Outcome.Below.refl _

theorem skip_below (hn : n ≤ m) (a : Alphabet) (toElse : Bool) (i : Input) :
    (i.skip a n toElse).Below (i.skip a m toElse) :=
  (consume_below hn a _ i).andThen fun _ _ => Outcome.Below.refl _

theorem rawAnswer_below (hn : n ≤ m) (tables : Tables) {γ : Type} (q : RawRequest γ) (i : Input) :
    (q.answer tables n i).Below (q.answer tables m i) := by
  cases q with
  | consume c => exact consume_below hn _ c i
  | skip toElse => exact skip_below hn _ toElse i
  | next => exact Outcome.Below.refl _
  | push ts origin => exact Outcome.Below.refl _
  | meaning t => exact Outcome.Below.refl _
  | openBranch => exact Outcome.Below.refl _
  | closeBranch => exact Outcome.Below.refl _

theorem nextExpanded_below (hn : n ≤ m) (tables : Tables) (i : Input) :
    (i.nextExpanded tables n).Below (i.nextExpanded tables m) :=
  @Reader.run_below _ _ _ (rawHandler tables n) (rawHandler tables m) (rawAnswer_below hn tables)
    rfl _ _ hn Expansion.next i

theorem answer_below (hn : n ≤ m) (tables : Tables) {γ : Type} (q : Request γ) (i : Input) :
    (q.answer tables n i).Below (q.answer tables m i) := by
  cases q with
  | expanded => exact nextExpanded_below hn tables i
  | consume c => exact consume_below hn _ c i
  | unexpanded => exact Outcome.Below.refl _
  | back ts => exact Outcome.Below.refl _

end Input

theorem Machine.turn_below {n m : Nat} (hn : n ≤ m) (face : Typeface) (nest : Nest) (e : Machine) :
    (e.turn face n nest).Below (e.turn face m nest) := by
  have h := @Reader.run_below _ _ _ (handler e.tables n) (handler e.tables m)
    (Input.answer_below hn e.tables) rfl _ _ hn (Build.step face nest) e.input
  unfold turn
  rcases h with h | h
  · rw [h]
    exact Outcome.unfinished_below _
  · rw [h]
    exact Outcome.Below.refl _

theorem Machine.build_below {n m : Nat} (hn : n ≤ m) (face : Typeface) (mode : Mode)
    (e : Machine) : (e.build face n mode).Below (e.build face m mode) :=
  iterate_below (fun nest e => turn_below hn face nest e) hn _ e

theorem Engine.run_below {n m : Nat} (hn : n ≤ m) (mode : Mode) (e : Engine) :
    (e.run n mode).Below (e.run m mode) := by
  unfold run
  rcases Machine.build_below hn e.face mode e.machine with h | h
  · rw [h]
    exact Outcome.unfinished_below _
  · rw [h]
    exact Outcome.Below.refl _

/-! ## Runs that settle -/

/-- With enough rounds the outcome is this one; a run that goes on forever settles on being
unfinished. -/
def Settles {σ α : Type} (run : Nat → Outcome σ α) (o : Outcome σ α) : Prop :=
  ∃ enough, ∀ rounds, enough ≤ rounds → run rounds = o

/-- More rounds keep what has been reached. -/
def Steady {σ α : Type} (run : Nat → Outcome σ α) : Prop :=
  ∀ n m, n ≤ m → (run n).Below (run m)

section Settling

variable {σ α : Type} {run : Nat → Outcome σ α} {o p : Outcome σ α}

theorem Settles.unique (h : Settles run o) (h' : Settles run p) : o = p := by
  obtain ⟨n, hn⟩ := h
  obtain ⟨m, hm⟩ := h'
  rw [← hn (max n m) (Nat.le_max_left n m), hm (max n m) (Nat.le_max_right n m)]

theorem Steady.settles_of_eq (h : Steady run) {n : Nat} (hn : run n = o) (ho : o ≠ .unfinished) :
    Settles run o := by
  subst hn
  exact ⟨n, fun m hm => (h n m hm).eq_of_ne ho⟩

theorem Steady.exists_settles (h : Steady run) : ∃ o, Settles run o := by
  by_cases hf : ∃ n, run n ≠ .unfinished
  · obtain ⟨n, hn⟩ := hf
    exact ⟨run n, h.settles_of_eq rfl hn⟩
  · refine ⟨.unfinished, 0, fun n _ => ?_⟩
    exact Classical.byContradiction fun hn => hf ⟨n, hn⟩

/-- No run comes to anything but what runs settle on. -/
theorem Steady.below_of_settles (h : Steady run) (ho : Settles run o) (n : Nat) :
    (run n).Below o := by
  obtain ⟨m, hm⟩ := ho
  rw [← hm (max n m) (Nat.le_max_right n m)]
  exact h n (max n m) (Nat.le_max_left n m)

end Settling

/-! ## Repetitions that settle -/

section Repetition

variable {σ τ α : Type} {f : Nat → τ → σ → Outcome σ (Turn τ α)} {t u : τ} {s s' : σ}

theorem settles_iterate {o : Outcome σ α}
    (h : Settles (fun rounds => (f (rounds + 1) t s).andThen fun turn s =>
      match turn with
      | .again t => iterate (f (rounds + 1)) rounds t s
      | .finish a => .done a s) o) :
    Settles (fun rounds => iterate (f rounds) rounds t s) o := by
  obtain ⟨n, hn⟩ := h
  refine ⟨n + 1, fun rounds hr => ?_⟩
  obtain ⟨m, rfl⟩ : ∃ m, rounds = m + 1 := ⟨rounds - 1, by omega⟩
  exact (iterate_succ _ _ _ _).trans (hn m (by omega))

/-- A repetition goes on from where a round of it has come to. -/
theorem Settles.iterate_again (hf : ∀ n m, n ≤ m → ∀ t s, (f n t s).Below (f m t s))
    {o : Outcome σ α} (hb : Settles (fun rounds => f rounds t s) (.done (.again u) s'))
    (hl : Settles (fun rounds => iterate (f rounds) rounds u s') o) :
    Settles (fun rounds => iterate (f rounds) rounds t s) o := by
  obtain ⟨n₁, h₁⟩ := hb
  obtain ⟨n₂, h₂⟩ := hl
  refine settles_iterate ⟨max n₁ n₂, fun m hm => ?_⟩
  simp only [h₁ (m + 1) (by omega), Outcome.andThen]
  -- the rest of the rounds lies between two runs of them, of which both have come to `o`
  have low : iterate (f m) m u s' = o := h₂ m (by omega)
  have high : iterate (f (m + 1)) (m + 1) u s' = o := h₂ (m + 1) (by omega)
  have below := iterate_below (hf m (m + 1) (Nat.le_succ m)) (Nat.le_refl m) u s'
  have above := iterate_below (fun t s => Outcome.Below.refl (f (m + 1) t s)) (Nat.le_succ m) u s'
  rw [low] at below
  rw [high] at above
  exact above.antisymm below

theorem Settles.iterate_finish {a : α}
    (hb : Settles (fun rounds => f rounds t s) (.done (.finish a) s')) :
    Settles (fun rounds => iterate (f rounds) rounds t s) (.done a s') := by
  obtain ⟨n, hn⟩ := hb
  exact settles_iterate ⟨n, fun m hm => by simp only [hn (m + 1) (by omega), Outcome.andThen]⟩

theorem Settles.iterate_failed {fault : Fault}
    (hb : Settles (fun rounds => f rounds t s) (.failed fault s')) :
    Settles (fun rounds => iterate (f rounds) rounds t s) (.failed fault s') := by
  obtain ⟨n, hn⟩ := hb
  exact settles_iterate ⟨n, fun m hm => by simp only [hn (m + 1) (by omega), Outcome.andThen]⟩

theorem Settles.iterate_unfinished (hb : Settles (fun rounds => f rounds t s) .unfinished) :
    Settles (fun rounds => iterate (f rounds) rounds t s) .unfinished := by
  obtain ⟨n, hn⟩ := hb
  exact settles_iterate ⟨n, fun m hm => by simp only [hn (m + 1) (by omega), Outcome.andThen]⟩

end Repetition

/-! ## Readers that settle -/

/-- Handlers for each number of rounds, of which those with more keep what the others reach. -/
structure Improving {Request : Type → Type 1} {σ : Type} (h : Nat → Handler Request σ) : Prop where
  answers : ∀ {n m : Nat}, n ≤ m → ∀ {γ : Type} (q : Request γ) (s : σ),
    ((h n).answer q s).Below ((h m).answer q s)
  blames : ∀ n m, (h n).blame = (h m).blame

/-- With enough rounds the reader comes to this outcome. -/
def Reader.Comes {Request : Type → Type 1} {σ α : Type} (h : Nat → Handler Request σ)
    (r : Reader Request α) (s : σ) (o : Outcome σ α) : Prop :=
  Settles (fun rounds => r.run (h rounds) rounds s) o

namespace Reader.Comes

variable {Request : Type → Type 1} {σ τ α β : Type} {h : Nat → Handler Request σ} {s t : σ}

theorem pure (a : α) : Comes h (Pure.pure a) s (.done a s) := ⟨0, fun _ _ => rfl⟩

theorem bind {r : Reader Request α} {k : α → Reader Request β} {a : α} {o : Outcome σ β}
    (hr : Comes h r s (.done a t)) (hk : Comes h (k a) t o) : Comes h (r >>= k) s o := by
  obtain ⟨n, hn⟩ := hr
  obtain ⟨m, hm⟩ := hk
  refine ⟨max n m, fun rounds hrounds => ?_⟩
  simp only at hn hm ⊢
  rw [run_bind, hn rounds (by omega)]
  exact hm rounds (by omega)

theorem bind_failed {r : Reader Request α} {k : α → Reader Request β} {f : Fault}
    (hr : Comes h r s (.failed f t)) : Comes h (r >>= k) s (.failed f t) := by
  obtain ⟨n, hn⟩ := hr
  refine ⟨n, fun rounds hrounds => ?_⟩
  simp only at hn ⊢
  rw [run_bind, hn rounds hrounds]
  rfl

theorem bind_unfinished {r : Reader Request α} {k : α → Reader Request β}
    (hr : Comes h r s .unfinished) : Comes h (r >>= k) s .unfinished := by
  obtain ⟨n, hn⟩ := hr
  refine ⟨n, fun rounds hrounds => ?_⟩
  simp only at hn ⊢
  rw [run_bind, hn rounds hrounds]
  rfl

variable {body : τ → Reader Request (Turn τ α)} {u v : τ}

theorem run_loop_succ (rounds : Nat) :
    (Reader.loop body u).run (h (rounds + 1)) (rounds + 1) s =
      ((body u).run (h (rounds + 1)) (rounds + 1) s).andThen fun turn s =>
        match turn with
        | .again u =>
          iterate (fun u s => (body u).run (h (rounds + 1)) (rounds + 1) s) rounds u s
        | .finish a => .done a s := by
  have hrun : (Reader.loop body u).run (h (rounds + 1)) (rounds + 1) s =
      iterate (fun u s => (body u).run (h (rounds + 1)) (rounds + 1) s) (rounds + 1) u s := by
    rw [Reader.run]
  refine hrun.trans ((iterate_succ _ _ _ _).trans ?_)
  cases (body u).run (h (rounds + 1)) (rounds + 1) s with
  | done turn s' => cases turn <;> rfl
  | failed f s' => rfl
  | unfinished => rfl

/-- A repetition goes on from where a round of it has come to. -/
theorem loop_again (hi : Improving h) {o : Outcome σ α}
    (hb : Comes h (body u) s (.done (.again v) t)) (hl : Comes h (.loop body v) t o) :
    Comes h (.loop body u) s o :=
  Settles.iterate_again (f := fun rounds u s => (body u).run (h rounds) rounds s)
    (fun n m hn u s => run_below (hi.answers hn) (hi.blames n m) hn (body u) s) hb hl

theorem loop_finish {a : α} (hb : Comes h (body u) s (.done (.finish a) t)) :
    Comes h (.loop body u) s (.done a t) :=
  Settles.iterate_finish (f := fun rounds u s => (body u).run (h rounds) rounds s) hb

theorem loop_failed {f : Fault} (hb : Comes h (body u) s (.failed f t)) :
    Comes h (.loop body u) s (.failed f t) :=
  Settles.iterate_failed (f := fun rounds u s => (body u).run (h rounds) rounds s) hb

theorem loop_unfinished (hb : Comes h (body u) s .unfinished) :
    Comes h (.loop body u) s .unfinished :=
  Settles.iterate_unfinished (f := fun rounds u s => (body u).run (h rounds) rounds s) hb

theorem steady (hi : Improving h) (r : Reader Request α) (s : σ) :
    Steady fun rounds => r.run (h rounds) rounds s :=
  fun n m hn => run_below (hi.answers hn) (hi.blames n m) hn r s

/-- What is reached in some number of rounds is what the reader comes to. -/
theorem of_run (hi : Improving h) {r : Reader Request α} {o : Outcome σ α} {n : Nat}
    (hr : r.run (h n) n s = o) (ho : o ≠ .unfinished) : Comes h r s o :=
  (steady hi r s).settles_of_eq hr ho

/-- A sequence that has come to a value has come to one behind its first part. -/
theorem exists_of_bind (hi : Improving h) {r : Reader Request α} {k : α → Reader Request β} {b : β}
    (hb : Comes h (r >>= k) s (.done b t)) :
    ∃ a u, Comes h r s (.done a u) ∧ Comes h (k a) u (.done b t) := by
  obtain ⟨n, hn⟩ := hb
  have hrun : (r >>= k).run (h n) n s = .done b t := hn n (Nat.le_refl n)
  rw [run_bind] at hrun
  cases hr : r.run (h n) n s with
  | done a u =>
    rw [hr] at hrun
    exact ⟨a, u, of_run hi hr nofun, of_run hi hrun nofun⟩
  | failed f u =>
    rw [hr] at hrun
    cases hrun
  | unfinished =>
    rw [hr] at hrun
    cases hrun

/-- What the last round of a repetition has, and each round passes on to the one before it, the
first one has. -/
theorem loop_induction (hi : Improving h) {a : α} {motive : τ → σ → Prop}
    (finish : ∀ u s, Comes h (body u) s (.done (.finish a) t) → motive u s)
    (again : ∀ u v s s', Comes h (body u) s (.done (.again v) s') → motive v s' → motive u s)
    (hl : Comes h (.loop body u) s (.done a t)) : motive u s := by
  obtain ⟨n, hn⟩ := hl
  have hrun : iterate (fun u s => (body u).run (h n) n s) n u s = .done a t := hn n (Nat.le_refl n)
  clear hn
  -- the rounds are counted down, while those of the handler stay
  generalize n = handling at hrun
  revert hrun
  suffices hall : ∀ m u s, iterate (fun u s => (body u).run (h handling) handling s) m u s =
      .done a t → motive u s from hall handling u s
  intro m
  induction m with
  | zero =>
    intro u s hrun
    cases hrun
  | succ m ih =>
    intro u s hrun
    rw [iterate_succ] at hrun
    cases hb : (body u).run (h handling) handling s with
    | unfinished =>
      rw [hb] at hrun
      cases hrun
    | failed f s' =>
      rw [hb] at hrun
      cases hrun
    | done turn s' =>
      rw [hb] at hrun
      cases turn with
      | again v => exact again u v s s' (of_run hi hb nofun) (ih v s' hrun)
      | finish b =>
        cases hrun
        exact finish u s (of_run hi hb nofun)

end Reader.Comes

theorem rawHandler_improving (tables : Tables) : Improving (rawHandler tables) where
  answers hn _ q s := Input.rawAnswer_below hn tables q s
  blames _ _ := rfl

theorem handler_improving (tables : Tables) : Improving (handler tables) where
  answers hn _ q s := Input.answer_below hn tables q s
  blames _ _ := rfl

theorem Input.nextExpanded_steady (tables : Tables) (i : Input) :
    Steady fun rounds => i.nextExpanded tables rounds :=
  fun _ _ hn => nextExpanded_below hn tables i

theorem Engine.run_steady (mode : Mode) (e : Engine) : Steady fun rounds => e.run rounds mode :=
  fun _ _ hn => run_below hn mode e

end Galley
