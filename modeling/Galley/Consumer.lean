import Galley.Token

/-!
Consumers: readers of raw tokens that take one token at a time and stop by themselves. A consumer
is run on a list by `run`; `run_bind` says that consumers in sequence read one after the other.
-/

namespace Galley

/-- One round of a repetition: either another one from a new state, or the result. -/
inductive Turn (σ α : Type)
  | again (s : σ)
  | finish (a : α)

structure Consumer (β : Type) : Type 1 where
  State : Type
  start : Turn State β
  step : State → Lexeme → Turn State β
  atEnd : State → β

namespace Consumer

variable {α β σ : Type}

def drive (c : Consumer β) : c.State → List Lexeme → β × List Lexeme
  | s, [] => (c.atEnd s, [])
  | s, t :: ts =>
    match c.step s t with
    | .again s => c.drive s ts
    | .finish b => (b, ts)

/-- The result, and what is left of the list. -/
def run (c : Consumer β) (ts : List Lexeme) : β × List Lexeme :=
  match c.start with
  | .again s => c.drive s ts
  | .finish b => (b, ts)

/-- Reads nothing. -/
def pure (b : β) : Consumer β := ⟨Empty, .finish b, fun s _ => s.elim, fun s => s.elim⟩

/-- Reads one token, `none` standing for the end of input. -/
def one : Consumer (Option Lexeme) := ⟨Unit, .again (), fun _ t => .finish (some t), fun _ => none⟩

def scan (step : σ → Lexeme → Turn σ β) (atEnd : σ → β) (s : σ) : Consumer β :=
  ⟨σ, .again s, step, atEnd⟩

section bind

variable (c : Consumer α) (k : α → Consumer β)

abbrev BindState : Type := c.State ⊕ (Σ a : α, (k a).State)

def enter (a : α) : Turn (BindState c k) β :=
  match (k a).start with
  | .again s => .again (.inr ⟨a, s⟩)
  | .finish b => .finish b

def endAfter (a : α) : β :=
  match (k a).start with
  | .again s => (k a).atEnd s
  | .finish b => b

def bindStep : BindState c k → Lexeme → Turn (BindState c k) β
  | .inl s, t =>
    match c.step s t with
    | .again s => .again (.inl s)
    | .finish a => enter c k a
  | .inr ⟨a, s⟩, t =>
    match (k a).step s t with
    | .again s => .again (.inr ⟨a, s⟩)
    | .finish b => .finish b

def bindEnd : BindState c k → β
  | .inl s => endAfter k (c.atEnd s)
  | .inr ⟨a, s⟩ => (k a).atEnd s

def bind : Consumer β where
  State := BindState c k
  start :=
    match c.start with
    | .again s => .again (.inl s)
    | .finish a => enter c k a
  step := bindStep c k
  atEnd := bindEnd c k

end bind

instance : Monad Consumer where
  pure := pure
  bind := bind

@[simp] theorem run_pure (b : β) (ts : List Lexeme) : (pure b).run ts = (b, ts) := rfl

@[simp] theorem run_one_nil : one.run [] = (none, []) := rfl

@[simp] theorem run_one_cons (t : Lexeme) (ts : List Lexeme) :
    one.run (t :: ts) = (some t, ts) := rfl

theorem drive_inr (c : Consumer α) (k : α → Consumer β) (a : α) (s : (k a).State)
    (ts : List Lexeme) :
    (bind c k).drive (.inr ⟨a, s⟩) ts = (k a).drive s ts := by
  induction ts generalizing s with
  | nil => rfl
  | cons t ts ih =>
    simp only [drive, bind, bindStep]
    cases (k a).step s t with
    | again s' => exact ih s'
    | finish b => rfl

theorem drive_inl (c : Consumer α) (k : α → Consumer β) (s : c.State) (ts : List Lexeme) :
    (bind c k).drive (.inl s) ts = (k (c.drive s ts).1).run (c.drive s ts).2 := by
  induction ts generalizing s with
  | nil =>
    simp only [drive, bind, bindEnd, run, endAfter]
    cases (k (c.atEnd s)).start <;> rfl
  | cons t ts ih =>
    simp only [drive, bind, bindStep]
    cases c.step s t with
    | again s' => exact ih s'
    | finish a =>
      simp only [enter, run]
      cases h : (k a).start with
      | again s' => exact drive_inr c k a s' ts
      | finish b => rfl

theorem run_bind (c : Consumer α) (k : α → Consumer β) (ts : List Lexeme) :
    (bind c k).run ts = (k (c.run ts).1).run (c.run ts).2 := by
  cases h : c.start with
  | again s =>
    have hc : c.run ts = c.drive s ts := by simp [run, h]
    rw [hc, ← drive_inl c k s ts]
    simp [run, bind, h]
  | finish a =>
    have hc : c.run ts = (a, ts) := by simp [run, h]
    rw [hc]
    cases hk : (k a).start with
    | again s =>
      have : (bind c k).run ts = (bind c k).drive (.inr ⟨a, s⟩) ts := by
        simp [run, bind, h, enter, hk]
      rw [this, drive_inr]
      simp [run, hk]
    | finish b => simp [run, bind, h, enter, hk]

end Consumer

end Galley
