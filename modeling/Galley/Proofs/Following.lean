import Galley.Proofs.Answers

/-!
Runs that follow one another. Where every raw reading and every push on one input goes as on another
one, except that it may be lost to a fault that the other does not have, the same is true of every
reader and of whole runs: `Input.Follows.run` says it of engines that differ in their inputs alone.
-/

namespace Galley

/-- Unless the first reading is lost to such a fault, both end with one value or with one fault, in
related states. -/
inductive Outcome.Followed {σ τ α : Type} (lost : Fault → Prop) (states : σ → τ → Prop) :
    Outcome σ α → Outcome τ α → Prop
  | lostTo {f : Fault} {s : σ} {p : Outcome τ α} (h : lost f) :
    Followed lost states (.failed f s) p
  | done {a : α} {s : σ} {t : τ} (h : states s t) : Followed lost states (.done a s) (.done a t)
  | failed {f : Fault} {s : σ} {t : τ} (h : states s t) :
    Followed lost states (.failed f s) (.failed f t)
  | unfinished : Followed lost states .unfinished .unfinished

theorem Outcome.Followed.andThen {σ τ α β : Type} {lost : Fault → Prop} {states : σ → τ → Prop}
    {o : Outcome σ α} {p : Outcome τ α} (h : o.Followed lost states p)
    {k : α → σ → Outcome σ β} {l : α → τ → Outcome τ β}
    (hk : ∀ a s t, states s t → (k a s).Followed lost states (l a t)) :
    (o.andThen k).Followed lost states (p.andThen l) := by
  cases h with
  | lostTo h => exact .lostTo h
  | done h => exact hk _ _ _ h
  | failed h => exact .failed h
  | unfinished => exact .unfinished

theorem Outcome.Followed.mono {σ τ α : Type} {lost : Fault → Prop} {states states' : σ → τ → Prop}
    {o : Outcome σ α} {p : Outcome τ α} (h : o.Followed lost states p)
    (hs : ∀ s t, states s t → states' s t) : o.Followed lost states' p := by
  cases h with
  | lostTo h => exact .lostTo h
  | done h => exact .done (hs _ _ h)
  | failed h => exact .failed (hs _ _ h)
  | unfinished => exact .unfinished

theorem Outcome.Followed.of_done {σ τ α : Type} {lost : Fault → Prop} {states : σ → τ → Prop}
    {a : α} {s : σ} {p : Outcome τ α} (h : (Outcome.done a s).Followed lost states p) :
    ∃ t, p = .done a t ∧ states s t := by
  cases h with
  | done h => exact ⟨_, rfl, h⟩

theorem iterate_followed {σ σ' τ α : Type} {lost : Fault → Prop} {states : σ → σ' → Prop}
    {f : τ → σ → Outcome σ (Turn τ α)} {g : τ → σ' → Outcome σ' (Turn τ α)}
    (h : ∀ t s s', states s s' → (f t s).Followed lost states (g t s')) (rounds : Nat) (t : τ)
    {s : σ} {s' : σ'} (hs : states s s') :
    (iterate f rounds t s).Followed lost states (iterate g rounds t s') := by
  induction rounds generalizing t s s' with
  | zero => exact .unfinished
  | succ rounds ih =>
    rw [iterate_succ, iterate_succ]
    refine (h t s s' hs).andThen fun turn u u' hu => ?_
    cases turn with
    | again t' => exact ih t' hu
    | finish a => exact .done hu

/-- What the answers do, every reader does. -/
theorem Reader.run_followed {Request : Type → Type 1} {σ σ' α : Type} {h : Handler Request σ}
    {g : Handler Request σ'} {lost : Fault → Prop} {states : σ → σ' → Prop}
    (answers : ∀ {γ : Type} (q : Request γ) (s : σ) (s' : σ'), states s s' →
      (h.answer q s).Followed lost states (g.answer q s'))
    (blames : ∀ (c : Cause) (s : σ) (s' : σ'), states s s' → h.blame c s = g.blame c s')
    (rounds : Nat) (r : Reader Request α) {s : σ} {s' : σ'} (hs : states s s') :
    (r.run h rounds s).Followed lost states (r.run g rounds s') := by
  induction r generalizing s s' with
  | pure a => exact .done hs
  | bind r k ihr ihk =>
    change ((r >>= k).run h rounds s).Followed lost states ((r >>= k).run g rounds s')
    rw [run_bind, run_bind]
    exact (ihr hs).andThen fun a u u' hu => ihk a hu
  | ask q => exact answers q s s' hs
  | fail c =>
    rw [run, run, blames c s s' hs]
    exact .failed hs
  | loop body t ih => exact iterate_followed (fun t u u' hu => ih t hu) rounds t hs

/-! ## Inputs -/

namespace Input

/-- Reading and pushing on the first input go as on the second one, unless they are lost. The two
have in common what faults are blamed on and what conditionals depend on. -/
structure Follows (lost : Fault → Prop) (rel : Input → Input → Prop) : Prop where
  next : ∀ a i j, rel i j → (i.next a).Followed lost rel (j.next a)
  push : ∀ i j c, rel i j → (i.push c).Followed lost rel (j.push c)
  opened : ∀ i j n, rel i j → rel { i with openBranches := n } { j with openBranches := n }
  chunks : ∀ i j, rel i j → i.chunks = j.chunks
  last : ∀ i j, rel i j → i.last = j.last
  nested : ∀ i j, rel i j → i.nested = j.nested
  openBranches : ∀ i j, rel i j → i.openBranches = j.openBranches

end Input

/-- Runs in progress under the same tables, on related inputs. -/
def Machine.Beside (rel : Input → Input → Prop) (m n : Machine) : Prop :=
  m.tables = n.tables ∧ rel m.input n.input

/-- Engines under the same tables, with related inputs. -/
def Engine.Beside (rel : Input → Input → Prop) (e f : Engine) : Prop :=
  e.machine.Beside rel f.machine

/-- Engines that leave the same tables behind. -/
def Engine.SameTables (e f : Engine) : Prop := e.machine.tables = f.machine.tables

namespace Input.Follows

variable {lost : Fault → Prop} {rel : Input → Input → Prop} {i j : Input}

theorem faultAt (h : Follows lost rel) (hij : rel i j) (c : Cause) (place : Position) :
    i.faultAt c place = j.faultAt c place := by
  rw [Input.faultAt, Input.faultAt, chain, chain, h.chunks i j hij]

theorem fault (h : Follows lost rel) (hij : rel i j) (c : Cause) : i.fault c = j.fault c := by
  rw [Input.fault, Input.fault, h.last i j hij, h.faultAt hij]

theorem consume (h : Follows lost rel) (hij : rel i j) (a : Alphabet) (rounds : Nat) {β : Type}
    (c : Consumer β) : (i.consume a rounds c).Followed lost rel (j.consume a rounds c) := by
  unfold Input.consume
  cases c.start with
  | finish b => exact .done hij
  | again s =>
    refine iterate_followed (fun s i j hij => ?_) rounds s hij
    rw [Outcome.map_eq_andThen, Outcome.map_eq_andThen]
    exact (h.next a i j hij).andThen fun _ _ _ hij => .done hij

theorem skip (h : Follows lost rel) (hij : rel i j) (a : Alphabet) (rounds : Nat)
    (toElse : Bool) : (i.skip a rounds toElse).Followed lost rel (j.skip a rounds toElse) := by
  unfold Input.skip
  rw [h.nested i j hij, h.last i j hij]
  refine (h.consume hij a rounds _).andThen fun landed i j hij => ?_
  cases landed with
  | some landed => exact .done hij
  | none =>
    dsimp only
    rw [h.faultAt hij]
    exact .failed hij

theorem closeBranch (h : Follows lost rel) (hij : rel i j) :
    i.closeBranch.Followed lost rel j.closeBranch := by
  unfold Input.closeBranch
  rw [h.openBranches i j hij]
  cases j.openBranches with
  | zero => exact .done hij
  | succ n => exact .done (h.opened i j n hij)

theorem rawAnswer (h : Follows lost rel) (tables : Tables) (rounds : Nat) {γ : Type}
    (q : RawRequest γ) (i j : Input) (hij : rel i j) :
    (q.answer tables rounds i).Followed lost rel (q.answer tables rounds j) := by
  cases q with
  | next => exact h.next _ i j hij
  | push ts origin => exact h.push i j _ hij
  | consume c => exact h.consume hij _ rounds c
  | skip toElse => exact h.skip hij _ rounds toElse
  | meaning t => exact .done hij
  | openBranch =>
    simp only [RawRequest.answer, h.openBranches i j hij]
    exact .done (h.opened i j _ hij)
  | closeBranch => exact h.closeBranch hij

theorem nextExpanded (h : Follows lost rel) (hij : rel i j) (tables : Tables) (rounds : Nat) :
    (i.nextExpanded tables rounds).Followed lost rel (j.nextExpanded tables rounds) :=
  Reader.run_followed (h := rawHandler tables rounds) (g := rawHandler tables rounds)
    (h.rawAnswer tables rounds) (fun c _ _ hij => h.fault hij c) rounds Expansion.next hij

theorem answer (h : Follows lost rel) (tables : Tables) (rounds : Nat) {γ : Type} (q : Request γ)
    (i j : Input) (hij : rel i j) :
    (q.answer tables rounds i).Followed lost rel (q.answer tables rounds j) := by
  cases q with
  | expanded => exact h.nextExpanded hij tables rounds
  | unexpanded => exact h.next _ i j hij
  | back ts => exact h.push i j _ hij
  | consume c => exact h.consume hij _ rounds c

/-! ## Runs -/

variable {m n : Machine}

theorem turn (h : Follows lost rel) (face : Typeface) (rounds : Nat) (nest : Nest)
    (hmn : m.Beside rel n) :
    (m.turn face rounds nest).Followed lost (Machine.Beside rel) (n.turn face rounds nest) := by
  obtain ⟨tables, i⟩ := m
  obtain ⟨_, j⟩ := n
  obtain ⟨rfl, hij⟩ := hmn
  have hs := Reader.run_followed (h := handler tables rounds) (g := handler tables rounds)
    (h.answer tables rounds) (fun c _ _ hij => h.fault hij c) rounds (Build.step face nest) hij
  simp only [Machine.turn]
  generalize (Build.step face nest).run (handler tables rounds) rounds i = o at hs ⊢
  generalize (Build.step face nest).run (handler tables rounds) rounds j = p at hs ⊢
  cases hs with
  | lostTo hf => exact .lostTo hf
  | done hij => exact .done ⟨rfl, hij⟩
  | failed hij => exact .failed ⟨rfl, hij⟩
  | unfinished => exact .unfinished

/-- A run goes as one on a related input and leaves the same tables, unless it is lost. -/
theorem run (h : Follows lost rel) (rounds : Nat) (mode : Mode) {e f : Engine}
    (hface : e.face = f.face) (hef : e.Beside rel f) :
    (e.run rounds mode).Followed lost (Engine.Beside rel) (f.run rounds mode) := by
  have hb : (e.machine.build e.face rounds mode).Followed lost (Machine.Beside rel)
      (f.machine.build e.face rounds mode) :=
    iterate_followed (fun nest _ _ hmn => h.turn e.face rounds nest hmn) rounds _ hef
  unfold Engine.run
  rw [← hface]
  generalize e.machine.build e.face rounds mode = o at hb ⊢
  generalize f.machine.build e.face rounds mode = p at hb ⊢
  cases hb with
  | lostTo hf => exact .lostTo hf
  | done hmn => exact .done hmn
  | failed hmn => exact .failed hmn
  | unfinished => exact .unfinished

end Input.Follows

end Galley
