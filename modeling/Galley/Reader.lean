import Galley.Consumer
import Galley.Fault

/-!
Readers: what a stage of the run asks of the stage below it, as data. A reader is run by a handler
that answers its requests on a state of its own. `run_alike`: if two handlers give answers that are
alike in related states, every reader ends alike under both.
-/

namespace Galley

/-- Reading ends with a value or a fault, and says in what state; it is unfinished if a repetition
took more rounds than it was given. -/
inductive Outcome (σ α : Type)
  | done (a : α) (s : σ)
  | failed (fault : Fault) (s : σ)
  | unfinished

namespace Outcome

variable {σ α β : Type}

def map (f : α → β) : Outcome σ α → Outcome σ β
  | .done a s => .done (f a) s
  | .failed fault s => .failed fault s
  | .unfinished => .unfinished

def andThen (o : Outcome σ α) (k : α → σ → Outcome σ β) : Outcome σ β :=
  match o with
  | .done a s => k a s
  | .failed fault s => .failed fault s
  | .unfinished => .unfinished

/-- Two readings end with one value or with related faults, in related states. -/
def Related {τ : Type} (states : σ → τ → Prop) (faults : Fault → Fault → Prop) :
    Outcome σ α → Outcome τ α → Prop
  | .done a s, .done b t => a = b ∧ states s t
  | .failed f s, .failed g t => faults f g ∧ states s t
  | .unfinished, .unfinished => True
  | _, _ => False

/-- Failed with such a fault. -/
def FailedBy (lost : Fault → Prop) : Outcome σ α → Prop
  | .failed f _ => lost f
  | _ => False

/-- Two readings end alike, unless one is lost to a fault that the other need not have. -/
def Alike {τ : Type} (lost : Fault → Prop) (states : σ → τ → Prop)
    (faults : Fault → Fault → Prop) (o : Outcome σ α) (p : Outcome τ α) : Prop :=
  o.FailedBy lost ∨ p.FailedBy lost ∨ o.Related states faults p

theorem FailedBy.andThen {lost : Fault → Prop} {o : Outcome σ α} (h : o.FailedBy lost)
    (k : α → σ → Outcome σ β) : (o.andThen k).FailedBy lost := by
  cases o with
  | failed f s => exact h
  | done a s => exact h.elim
  | unfinished => exact h.elim

section alike

variable {τ : Type} {lost : Fault → Prop} {states : σ → τ → Prop} {faults : Fault → Fault → Prop}

theorem Alike.done {a : α} {s : σ} {t : τ} (h : states s t) :
    (Outcome.done a s).Alike lost states faults (.done a t) := Or.inr (Or.inr ⟨rfl, h⟩)

theorem Alike.failed {f g : Fault} {s : σ} {t : τ} (hf : faults f g) (h : states s t) :
    (Outcome.failed f s : Outcome σ α).Alike lost states faults (.failed g t) :=
  Or.inr (Or.inr ⟨hf, h⟩)

theorem Alike.andThen {o : Outcome σ α} {p : Outcome τ α} (h : o.Alike lost states faults p)
    {k : α → σ → Outcome σ β} {l : α → τ → Outcome τ β}
    (hk : ∀ a s t, states s t → (k a s).Alike lost states faults (l a t)) :
    (o.andThen k).Alike lost states faults (p.andThen l) := by
  rcases h with h | h | h
  · exact Or.inl (h.andThen k)
  · exact Or.inr (Or.inl (h.andThen l))
  cases o with
  | done a s =>
    cases p with
    | done b t =>
      obtain ⟨rfl, hs⟩ := h
      exact hk a s t hs
    | failed g t => exact h.elim
    | unfinished => exact h.elim
  | failed f s =>
    cases p with
    | done b t => exact h.elim
    | failed g t => exact Or.inr (Or.inr h)
    | unfinished => exact h.elim
  | unfinished =>
    cases p with
    | done b t => exact h.elim
    | failed g t => exact h.elim
    | unfinished => exact Or.inr (Or.inr trivial)

end alike

end Outcome

inductive Reader (Request : Type → Type 1) : Type → Type 1
  | pure {α : Type} (a : α) : Reader Request α
  | bind {α β : Type} (r : Reader Request α) (k : α → Reader Request β) : Reader Request β
  | ask {α : Type} (q : Request α) : Reader Request α
  | fail {α : Type} (c : Cause) : Reader Request α
  | loop {σ α : Type} (body : σ → Reader Request (Turn σ α)) (s : σ) : Reader Request α

instance (Request : Type → Type 1) : Monad (Reader Request) where
  pure := .pure
  bind := .bind

/-- Answers requests on a state, and says who is to blame for a fault in it. -/
structure Handler (Request : Type → Type 1) (σ : Type) where
  answer : {α : Type} → Request α → σ → Outcome σ α
  blame : Cause → σ → Fault

/-- Repeats a step for at most the given number of rounds. -/
def iterate {σ τ α : Type} (body : τ → σ → Outcome σ (Turn τ α)) : Nat → τ → σ → Outcome σ α
  | 0, _, _ => .unfinished
  | rounds + 1, t, s =>
    match body t s with
    | .done (.again t) s => iterate body rounds t s
    | .done (.finish a) s => .done a s
    | .failed fault s => .failed fault s
    | .unfinished => .unfinished

theorem iterate_succ {σ τ α : Type} (body : τ → σ → Outcome σ (Turn τ α)) (rounds : Nat) (t : τ)
    (s : σ) :
    iterate body (rounds + 1) t s = (body t s).andThen fun turn s =>
      match turn with
      | .again t => iterate body rounds t s
      | .finish a => .done a s := by
  rw [iterate]
  cases body t s with
  | done turn s' => cases turn <;> rfl
  | failed fault s' => rfl
  | unfinished => rfl

theorem iterate_alike {σ σ' τ α : Type} {lost : Fault → Prop} {states : σ → σ' → Prop}
    {faults : Fault → Fault → Prop}
    {f : τ → σ → Outcome σ (Turn τ α)} {g : τ → σ' → Outcome σ' (Turn τ α)}
    (h : ∀ t s s', states s s' → (f t s).Alike lost states faults (g t s')) (rounds : Nat) (t : τ)
    {s : σ} {s' : σ'} (hs : states s s') :
    (iterate f rounds t s).Alike lost states faults (iterate g rounds t s') := by
  induction rounds generalizing t s s' with
  | zero => exact Or.inr (Or.inr trivial)
  | succ rounds ih =>
    rw [iterate_succ, iterate_succ]
    refine (h t s s' hs).andThen fun turn u u' hu => ?_
    cases turn with
    | again t' => exact ih t' hu
    | finish a => exact .done hu

namespace Reader

variable {Request : Type → Type 1} {σ : Type}

def run (h : Handler Request σ) (rounds : Nat) {α : Type} : Reader Request α → σ → Outcome σ α
  | .pure a, s => .done a s
  | .bind r k, s =>
    match r.run h rounds s with
    | .done a s => (k a).run h rounds s
    | .failed fault s => .failed fault s
    | .unfinished => .unfinished
  | .ask q, s => h.answer q s
  | .fail c, s => .failed (h.blame c s) s
  | .loop body t, s => iterate (fun t s => (body t).run h rounds s) rounds t s

variable {h : Handler Request σ} {rounds : Nat} {α β : Type}

@[simp] theorem run_pure (a : α) (s : σ) :
    (Pure.pure a : Reader Request α).run h rounds s = .done a s := rfl

theorem run_bind (r : Reader Request α) (k : α → Reader Request β) (s : σ) :
    (r >>= k).run h rounds s = (r.run h rounds s).andThen fun a s => (k a).run h rounds s := by
  change (Reader.bind r k).run h rounds s = _
  rw [run]
  cases r.run h rounds s <;> rfl

theorem run_alike {σ' : Type} {h' : Handler Request σ'} {lost : Fault → Prop}
    {states : σ → σ' → Prop} {faults : Fault → Fault → Prop}
    (answers : ∀ {γ : Type} (q : Request γ) (s : σ) (s' : σ'), states s s' →
      (h.answer q s).Alike lost states faults (h'.answer q s'))
    (blames : ∀ (c : Cause) (s : σ) (s' : σ'), states s s' → faults (h.blame c s) (h'.blame c s'))
    (r : Reader Request α) {s : σ} {s' : σ'} (hs : states s s') :
    (r.run h rounds s).Alike lost states faults (r.run h' rounds s') := by
  induction r generalizing s s' with
  | pure a => exact .done hs
  | bind r k ihr ihk =>
    change ((r >>= k).run h rounds s).Alike lost states faults ((r >>= k).run h' rounds s')
    rw [run_bind, run_bind]
    exact (ihr hs).andThen fun a u u' hu => ihk a hu
  | ask q => exact answers q s s' hs
  | fail c => exact .failed (blames c s s' hs) hs
  | loop body t ih => exact iterate_alike (fun t u u' hu => ih t hu) rounds t hs

end Reader

end Galley
