import Galley.Proofs.Rounds
import Galley.Proofs.View

/-!
What expansion answers. Inputs of one view answer alike, call after call, as long as there is room
for their chunks. A step of expansion that delivers nothing leaves the answers as they are, so an
input can be followed step by step to another one that answers alike (`Reaches`).
-/

namespace Galley

/-- Who is blamed, and in which calls, is left open. -/
def Fault.SameCause (f g : Fault) : Prop := f.cause = g.cause

/-! ## Inputs of one view -/

namespace Outcome

variable {σ τ α β : Type}

theorem map_eq_andThen (f : α → β) (o : Outcome σ α) :
    o.map f = o.andThen fun a s => .done (f a) s := by
  cases o <;> rfl

theorem Alike.mono {lost : Fault → Prop} {states states' : σ → τ → Prop}
    {faults : Fault → Fault → Prop} {o : Outcome σ α} {p : Outcome τ α}
    (h : o.Alike lost states faults p) (hs : ∀ s t, states s t → states' s t) :
    o.Alike lost states' faults p := by
  rcases h with h | h | h
  · exact Or.inl h
  · exact Or.inr (Or.inl h)
  · refine Or.inr (Or.inr ?_)
    cases o <;> cases p <;> first | exact h | exact ⟨h.1, hs _ _ h.2⟩

end Outcome

namespace Input

/-- Readings that end alike, in states of one view, if there is room enough in both. -/
abbrev Agree (a : Alphabet) {α : Type} (o p : Outcome Input α) : Prop :=
  o.Alike Fault.OfCapacity (fun i j => i.view a = j.view a) Fault.SameCause p

variable {a : Alphabet} {i j : Input}

theorem next_agree (h : i.view a = j.view a) : Agree a (i.next a) (j.next a) := by
  have hi := i.next_view a
  have hj := j.next_view a
  rw [h] at hi
  refine Or.inr (Or.inr ?_)
  cases hn : (j.view a).next with
  | done x v =>
    rw [hn] at hi hj
    cases ho : i.next a <;> cases hp : j.next a <;> rw [ho] at hi <;> rw [hp] at hj <;>
      first | exact hi.elim | exact hj.elim | exact ⟨hi.1.trans hj.1.symm, hi.2.trans hj.2.symm⟩
  | failed f v =>
    rw [hn] at hi hj
    cases ho : i.next a <;> cases hp : j.next a <;> rw [ho] at hi <;> rw [hp] at hj <;>
      first
      | exact hi.elim
      | exact hj.elim
      | exact ⟨congrArg Fault.cause (hi.1.trans hj.1.symm), hi.2.trans hj.2.symm⟩
  | unfinished =>
    rw [hn] at hi hj
    cases ho : i.next a <;> cases hp : j.next a <;> rw [ho] at hi <;> rw [hp] at hj <;>
      first | exact hi.elim | exact hj.elim | trivial

theorem push_agree (c : Chunk) (h : i.view a = j.view a) : Agree a (i.push c) (j.push c) := by
  rcases i.push_view a c with ⟨s, ho, hs⟩ | ⟨f, s, ho, hf⟩
  · rcases j.push_view a c with ⟨t, hp, ht⟩ | ⟨f, t, hp, hf⟩
    · rw [ho, hp]
      exact .done (by rw [hs, ht, h])
    · rw [hp]
      exact Or.inr (Or.inl hf)
  · rw [ho]
    exact Or.inl hf

/-! ## Expansion on related inputs -/

/-- Raw reading and pushing do the same on related inputs and leave related ones, unless they are
lost to a fault that one of the two need not have. -/
structure Congruent (a : Alphabet) (lost : Fault → Prop) (rel : Input → Input → Prop) : Prop where
  next : ∀ i j, rel i j → (i.next a).Alike lost rel Fault.SameCause (j.next a)
  push : ∀ i j c, rel i j → (i.push c).Alike lost rel Fault.SameCause (j.push c)
  nested : ∀ i j, rel i j → i.nested = j.nested
  openBranches : ∀ i j, rel i j → i.openBranches = j.openBranches
  opened : ∀ i j n, rel i j → rel { i with openBranches := n } { j with openBranches := n }

namespace Congruent

variable {lost : Fault → Prop} {rel : Input → Input → Prop} {tables : Tables} {α : Type}

theorem consume (h : Congruent a lost rel) (rounds : Nat) {β : Type} (c : Consumer β)
    (hij : rel i j) :
    (i.consume a rounds c).Alike lost rel Fault.SameCause (j.consume a rounds c) := by
  unfold Input.consume
  cases c.start with
  | finish b => exact .done hij
  | again s =>
    refine iterate_alike (fun s i j hij => ?_) rounds s hij
    rw [Outcome.map_eq_andThen, Outcome.map_eq_andThen]
    exact (h.next i j hij).andThen fun _ _ _ hij => .done hij

theorem skip (h : Congruent a lost rel) (rounds : Nat) (toElse : Bool) (hij : rel i j) :
    (i.skip a rounds toElse).Alike lost rel Fault.SameCause (j.skip a rounds toElse) := by
  unfold Input.skip
  rw [h.nested i j hij]
  refine (h.consume rounds _ hij).andThen fun landed _ _ hij => ?_
  cases landed with
  | some landed => exact .done hij
  | none => exact .failed rfl hij

theorem closeBranch (h : Congruent a lost rel) (hij : rel i j) :
    i.closeBranch.Alike lost rel Fault.SameCause j.closeBranch := by
  unfold Input.closeBranch
  rw [h.openBranches i j hij]
  cases j.openBranches with
  | zero => exact .done hij
  | succ n => exact .done (h.opened i j n hij)

theorem rawAnswer (h : Congruent tables.alphabet lost rel) (rounds : Nat) {γ : Type}
    (q : RawRequest γ) (hij : rel i j) :
    (q.answer tables rounds i).Alike lost rel Fault.SameCause (q.answer tables rounds j) := by
  cases q with
  | next => exact h.next i j hij
  | push ts origin => exact h.push i j _ hij
  | consume c => exact h.consume rounds c hij
  | skip toElse => exact h.skip rounds toElse hij
  | meaning t => exact .done hij
  | openBranch =>
    simp only [RawRequest.answer, h.openBranches i j hij]
    exact .done (h.opened i j _ hij)
  | closeBranch => exact h.closeBranch hij

theorem nextExpanded (h : Congruent tables.alphabet lost rel) (rounds : Nat) (hij : rel i j) :
    (i.nextExpanded tables rounds).Alike lost rel Fault.SameCause
      (j.nextExpanded tables rounds) := by
  unfold Input.nextExpanded
  exact Reader.run_alike (fun q _ _ hij => h.rawAnswer rounds q hij) (fun _ _ _ _ => rfl)
    Expansion.next hij

theorem answer (h : Congruent tables.alphabet lost rel) (rounds : Nat) {γ : Type} (q : Request γ)
    (hij : rel i j) :
    (q.answer tables rounds i).Alike lost rel Fault.SameCause (q.answer tables rounds j) := by
  cases q with
  | expanded => exact h.nextExpanded rounds hij
  | unexpanded => exact h.next i j hij
  | back ts => exact h.push i j _ hij
  | consume c => exact h.consume rounds c hij

/-- So does every reader of expanded tokens. -/
theorem scan (h : Congruent tables.alphabet lost rel) (rounds : Nat) (r : Scan α) (hij : rel i j) :
    (r.run (handler tables rounds) rounds i).Alike lost rel Fault.SameCause
      (r.run (handler tables rounds) rounds j) :=
  Reader.run_alike (fun q _ _ hij => h.answer rounds q hij) (fun _ _ _ _ => rfl) r hij

end Congruent

theorem congruent_view (a : Alphabet) :
    Congruent a Fault.OfCapacity fun i j => i.view a = j.view a where
  next _ _ h := next_agree h
  push _ _ c h := push_agree c h
  nested _ _ h := congrArg View.nested h
  openBranches _ _ h := congrArg View.openBranches h
  opened _ _ n h := congrArg (fun v : View => { v with openBranches := n }) h

theorem nextExpanded_agree {tables : Tables} (rounds : Nat)
    (h : i.view tables.alphabet = j.view tables.alphabet) :
    Agree tables.alphabet (i.nextExpanded tables rounds) (j.nextExpanded tables rounds) :=
  (congruent_view tables.alphabet).nextExpanded rounds h

end Input

/-! ## Answers of two inputs -/

namespace Input

/-- The given number of calls of expansion deliver the same on both inputs and leave the same ahead,
as long as there is room. -/
def AnswersAlike (tables : Tables) : Nat → Input → Input → Prop
  | 0, _, _ => True
  | n + 1, i, j => ∃ o p,
    Settles (fun rounds => i.nextExpanded tables rounds) o ∧
    Settles (fun rounds => j.nextExpanded tables rounds) p ∧
    o.Alike Fault.OfCapacity
      (fun i j => i.view tables.alphabet = j.view tables.alphabet ∧ AnswersAlike tables n i j)
      Fault.SameCause p

variable {tables : Tables} {i j k : Input}

theorem answersAlike_of_view (h : i.view tables.alphabet = j.view tables.alphabet) (n : Nat) :
    AnswersAlike tables n i j := by
  induction n generalizing i j with
  | zero => trivial
  | succ n ih =>
    obtain ⟨o, ho⟩ := (i.nextExpanded_steady tables).exists_settles
    obtain ⟨p, hp⟩ := (j.nextExpanded_steady tables).exists_settles
    refine ⟨o, p, ho, hp, ?_⟩
    obtain ⟨n₁, h₁⟩ := ho
    obtain ⟨n₂, h₂⟩ := hp
    rw [← h₁ (max n₁ n₂) (Nat.le_max_left n₁ n₂), ← h₂ (max n₁ n₂) (Nat.le_max_right n₁ n₂)]
    exact (nextExpanded_agree _ h).mono fun s t hs => ⟨hs, ih hs⟩

/-! ## Steps of expansion -/

/-- One step of expansion comes to this. -/
def Steps (tables : Tables) (i : Input) (o : Outcome Input (Turn Unit (Option Lexeme))) : Prop :=
  Settles (fun rounds => Expansion.step.run (rawHandler tables rounds) rounds i) o

theorem nextExpanded_succ (tables : Tables) (rounds : Nat) (i : Input) :
    i.nextExpanded tables (rounds + 1) =
      (Expansion.step.run (rawHandler tables (rounds + 1)) (rounds + 1) i).andThen fun turn i =>
        match turn with
        | .again u => iterate (fun _ i =>
            Expansion.step.run (rawHandler tables (rounds + 1)) (rounds + 1) i) rounds u i
        | .finish t => .done t i := by
  refine Eq.trans (Reader.Comes.run_loop_succ (h := rawHandler tables) rounds) ?_
  congr 1
  funext turn j
  cases turn <;> rfl

theorem Steps.settles_again {o : Outcome Input (Option Lexeme)}
    (h : Steps tables i (.done (.again ()) j))
    (hj : Settles (fun rounds => j.nextExpanded tables rounds) o) :
    Settles (fun rounds => i.nextExpanded tables rounds) o :=
  Reader.Comes.loop_again (rawHandler_improving tables) h hj

theorem Steps.settles_finish {t : Option Lexeme} (h : Steps tables i (.done (.finish t) j)) :
    Settles (fun rounds => i.nextExpanded tables rounds) (.done t j) :=
  Reader.Comes.loop_finish h

theorem Steps.settles_failed {f : Fault} (h : Steps tables i (.failed f j)) :
    Settles (fun rounds => i.nextExpanded tables rounds) (.failed f j) :=
  Reader.Comes.loop_failed h

/-- What a call comes to on an input. -/
theorem run_call (t : Token) (d : Definition) (rounds : Nat) (i : Input) :
    (Expansion.call t d).run (rawHandler tables rounds) rounds i =
      (i.consume tables.alphabet rounds d.capture).andThen fun captured j =>
        match captured with
        | .error fault => .failed (j.fault (.capture t.text fault)) j
        | .ok args =>
          match d.substitute args with
          | some ts => j.push ⟨ts, some (Expansion.originOf t)⟩
          | none => .failed (j.fault (.defect .missingArgument)) j := by
  rw [Expansion.call, Reader.run_bind]
  change ((i.consume tables.alphabet rounds d.capture).andThen _) = _
  congr 1
  funext captured j
  cases captured with
  | error fault => rfl
  | ok args =>
    dsimp only
    cases d.substitute args <;> rfl

/-- What a part of a conditional comes to on an input. -/
theorem run_resolve (b : Branch) (rounds : Nat) (i : Input) :
    (Expansion.resolve b).run (rawHandler tables rounds) rounds i =
      match b with
      | .opening true => .done () { i with openBranches := i.openBranches + 1 }
      | .opening false => (i.skip tables.alphabet rounds true).andThen fun landed j =>
        .done () { j with openBranches := if landed then j.openBranches + 1 else j.openBranches }
      | .alternative => i.closeBranch.andThen fun closed j =>
        if closed then (j.skip tables.alphabet rounds false).andThen fun _ k => .done () k
        else .failed (j.fault .extraElse) j
      | .closing => i.closeBranch.andThen fun closed j =>
        if closed then .done () j else .failed (j.fault .extraFi) j := by
  cases b with
  | opening taken =>
    cases taken with
    | true => rfl
    | false =>
      rw [Expansion.resolve, Reader.run_bind]
      change ((i.skip tables.alphabet rounds true).andThen _) = _
      congr 1
      funext landed j
      cases landed <;> rfl
  | alternative =>
    rw [Expansion.resolve, Reader.run_bind]
    change (i.closeBranch.andThen _) = _
    congr 1
    funext closed j
    cases closed with
    | true => exact Reader.run_bind _ _ j
    | false => rfl
  | closing =>
    rw [Expansion.resolve, Reader.run_bind]
    change (i.closeBranch.andThen _) = _
    congr 1
    funext closed j
    cases closed <;> rfl

/-- What a step comes to on an input. -/
theorem run_step_next (rounds : Nat) (i : Input) :
    Expansion.step.run (rawHandler tables rounds) rounds i =
      (i.next tables.alphabet).andThen fun x j =>
        match x with
        | none => .done (.finish none) j
        | some t =>
          match t.token.branch? with
          | some b => ((Expansion.resolve b).run (rawHandler tables rounds) rounds j).andThen
              fun _ k => .done (.again ()) k
          | none =>
            match tables.meaning? t.token with
            | some d => ((Expansion.call t.token d).run (rawHandler tables rounds) rounds j).andThen
                fun _ k => .done (.again ()) k
            | none => .done (.finish (some t)) j := by
  rw [Expansion.step, Reader.run_bind]
  change ((i.next tables.alphabet).andThen _) = _
  congr 1
  funext x j
  cases x with
  | none => rfl
  | some t =>
    dsimp only
    cases t.token.branch? with
    | some b => exact Reader.run_bind _ _ j
    | none =>
      simp only [Reader.run_bind]
      change (Outcome.andThen (.done (tables.meaning? t.token) j) _) = _
      simp only [Outcome.andThen]
      cases tables.meaning? t.token with
      | some d => exact Reader.run_bind _ _ j
      | none => rfl

/-- A step on a token that has been read. -/
theorem run_step {t : Lexeme} (h : i.next tables.alphabet = .done (some t) j) (rounds : Nat) :
    Expansion.step.run (rawHandler tables rounds) rounds i =
      match t.token.branch? with
      | some b => ((Expansion.resolve b).run (rawHandler tables rounds) rounds j).andThen
          fun _ k => .done (.again ()) k
      | none =>
        match tables.meaning? t.token with
        | some d => ((Expansion.call t.token d).run (rawHandler tables rounds) rounds j).andThen
            fun _ k => .done (.again ()) k
        | none => .done (.finish (some t)) j := by
  rw [run_step_next, h]
  rfl

theorem run_step_end (h : i.next tables.alphabet = .done none j) (rounds : Nat) :
    Expansion.step.run (rawHandler tables rounds) rounds i = .done (.finish none) j := by
  rw [run_step_next, h]
  rfl

/-- A round that goes on does not finish. -/
theorem andThen_again_ne (o : Outcome Input Unit) (x : Option Lexeme) (k : Input) :
    (o.andThen fun _ j => .done (.again ()) j) ≠ .done (Turn.finish x : Turn Unit _) k := by
  cases o with
  | done u j => exact nofun
  | failed f j => exact nofun
  | unfinished => exact nofun

/-- A step finishes with what has been read, if that stands for nothing else. -/
theorem step_finish {rounds : Nat} {x : Option Lexeme}
    (h : Expansion.step.run (rawHandler tables rounds) rounds i = .done (.finish x) k) :
    i.next tables.alphabet = .done x k ∧
      ∀ t, x = some t → t.token.branch? = none ∧ tables.meaning? t.token = none := by
  rw [run_step_next] at h
  cases hn : i.next tables.alphabet with
  | failed f j =>
    rw [hn] at h
    cases h
  | unfinished =>
    rw [hn] at h
    cases h
  | done y j =>
    rw [hn] at h
    simp only [Outcome.andThen] at h
    cases y with
    | none =>
      cases h
      exact ⟨rfl, fun t ht => by cases ht⟩
    | some t =>
      dsimp only at h
      cases hb : t.token.branch? with
      | some b =>
        rw [hb] at h
        exact absurd h (andThen_again_ne _ _ _)
      | none =>
        rw [hb] at h
        cases hm : tables.meaning? t.token with
        | some d =>
          rw [hm] at h
          exact absurd h (andThen_again_ne _ _ _)
        | none =>
          rw [hm] at h
          cases h
          refine ⟨rfl, fun u hu => ?_⟩
          injection hu with hu
          exact hu ▸ ⟨hb, hm⟩

/-- A token that stands for itself is delivered. -/
theorem steps_of_inert {t : Lexeme} {ts : List Lexeme} {v : View} (hb : t.token.branch? = none)
    (hm : tables.meaning? t.token = none) (hi : i.view tables.alphabet = v.push (t :: ts)) :
    ∃ j, Steps tables i (.done (.finish (some t)) j) ∧ j.view tables.alphabet = v.push ts := by
  obtain ⟨j, hn, hj⟩ := next_of_view hi
  refine ⟨j, ⟨0, fun rounds _ => ?_⟩, hj⟩
  simp only [run_step hn, hb, hm]

/-! ## Sequences of answers -/

/-- Steps of expansion lead from one input to another and deliver these tokens. -/
inductive Reaches (tables : Tables) : Input → List Lexeme → Input → Prop
  | refl (i : Input) : Reaches tables i [] i
  | again {i j k : Input} {ts : List Lexeme} (h : Steps tables i (.done (.again ()) j))
    (rest : Reaches tables j ts k) : Reaches tables i ts k
  | deliver {i j k : Input} {t : Lexeme} {ts : List Lexeme}
    (h : Steps tables i (.done (.finish (some t)) j)) (rest : Reaches tables j ts k) :
    Reaches tables i (t :: ts) k

/-- Successive calls of expansion deliver these tokens, and then there is this input. -/
inductive Delivers (tables : Tables) : Input → List Lexeme → Input → Prop
  | nil (i : Input) : Delivers tables i [] i
  | cons {i j k : Input} {t : Lexeme} {ts : List Lexeme}
    (h : Settles (fun rounds => i.nextExpanded tables rounds) (.done (some t) j))
    (rest : Delivers tables j ts k) : Delivers tables i (t :: ts) k

theorem Reaches.trans {ts us : List Lexeme} (h : Reaches tables i ts j)
    (h' : Reaches tables j us k) : Reaches tables i (ts ++ us) k := by
  induction h with
  | refl i => exact h'
  | again hs rest ih => exact .again hs (ih h')
  | deliver hs rest ih => exact .deliver hs (ih h')

/-- What is reached is delivered, up to steps that the next call will take. -/
theorem Reaches.delivers {ts : List Lexeme} (h : Reaches tables i ts k) :
    ∃ m, Delivers tables i ts m ∧ ∀ o, Settles (fun rounds => k.nextExpanded tables rounds) o →
      Settles (fun rounds => m.nextExpanded tables rounds) o := by
  induction h with
  | refl i => exact ⟨i, .nil i, fun _ => id⟩
  | @again i j k ts hs rest ih =>
    obtain ⟨m, hd, hm⟩ := ih
    cases hd with
    | nil => exact ⟨i, .nil i, fun o ho => hs.settles_again (hm o ho)⟩
    | cons hn rest => exact ⟨m, .cons (hs.settles_again hn) rest, hm⟩
  | deliver hs rest ih =>
    obtain ⟨m, hd, hm⟩ := ih
    exact ⟨m, .cons hs.settles_finish hd, hm⟩

theorem AnswersAlike.of_settles {n : Nat} (h : AnswersAlike tables n i j)
    (hk : ∀ o, Settles (fun rounds => i.nextExpanded tables rounds) o →
      Settles (fun rounds => k.nextExpanded tables rounds) o) : AnswersAlike tables n k j := by
  cases n with
  | zero => trivial
  | succ n =>
    obtain ⟨o, p, ho, hp, h⟩ := h
    exact ⟨o, p, hk o ho, hp, h⟩

/-! ## All that is left -/

/-- Calls with so many rounds deliver these tokens, and one more call comes to this ending. -/
inductive DrainsIn (tables : Tables) (rounds : Nat) (o : Outcome Input Unit) :
    Input → List Lexeme → Prop
  | last {i : Input} (h : i.nextExpanded tables rounds = o.map fun _ => none) :
    DrainsIn tables rounds o i []
  | next {i j : Input} {t : Lexeme} {ts : List Lexeme}
    (h : i.nextExpanded tables rounds = .done (some t) j) (rest : DrainsIn tables rounds o j ts) :
    DrainsIn tables rounds o i (t :: ts)

theorem drain_succ (tables : Tables) (rounds n : Nat) (i : Input) :
    i.drain tables rounds (n + 1) =
      match i.nextExpanded tables rounds with
      | .done (some t) j =>
        ⟨t :: (j.drain tables rounds n).tokens, (j.drain tables rounds n).ending⟩
      | .done none j => ⟨[], .done () j⟩
      | .failed f j => ⟨[], .failed f j⟩
      | .unfinished => ⟨[], .unfinished⟩ := rfl

theorem drainsIn_of_drain {rounds n : Nat} {ts : List Lexeme} {o : Outcome Input Unit}
    (h : i.drain tables rounds n = ⟨ts, o⟩) (ho : o ≠ .unfinished) :
    DrainsIn tables rounds o i ts := by
  induction n generalizing i ts with
  | zero =>
    injection h with _ h
    exact absurd h.symm ho
  | succ n ih =>
    rw [drain_succ] at h
    cases hn : i.nextExpanded tables rounds with
    | unfinished =>
      rw [hn] at h
      cases h
      exact .last hn
    | failed f j =>
      rw [hn] at h
      cases h
      exact .last hn
    | done x j =>
      rw [hn] at h
      cases x with
      | none =>
        cases h
        exact .last hn
      | some t =>
        injection h with ht he
        subst ht
        exact .next hn (ih (by rw [← he]))

end Input

end Galley
