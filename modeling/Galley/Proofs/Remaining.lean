import Galley.Proofs.Answers

/-!
The expanded tokens that remain of an input. Taking the next one and putting tokens back that stand
for themselves are described on the list that remains, for every reader of expanded tokens.
-/

namespace Galley

/-- Stands for itself. -/
def Inert (tables : Tables) (t : Lexeme) : Prop :=
  t.token.branch? = none ∧ tables.meaning? t.token = none

namespace Input

variable {tables : Tables} {i j : Input} {ts us : List Lexeme}

theorem ahead_of_next_none (a : Alphabet) (h : i.next a = .done none j) :
    (j.view a).ahead = [] := by
  have hn := i.next_view a
  rw [h] at hn
  unfold View.next at hn
  split at hn
  · rename_i ha
    obtain ⟨-, hj⟩ := hn
    rw [hj, ha]
  · cases hn.1
  · exact hn.elim

/-- Expansion delivers tokens that stand for themselves, and nothing only where nothing is ahead. -/
def Delivered (tables : Tables) : Option Lexeme → Input → Prop
  | none, i => (i.view tables.alphabet).ahead = []
  | some t, _ => Inert tables t

theorem nextExpanded_delivered (tables : Tables) (rounds : Nat) (i : Input) :
    (i.nextExpanded tables rounds).Ensures (Delivered tables) (fun _ _ => True) := by
  refine iterate_ensures (fun _ _ => True) (fun _ i _ => ?_) rounds trivial
  cases hs : Expansion.step.run (rawHandler tables rounds) rounds i with
  | failed f j => trivial
  | unfinished => trivial
  | done turn j =>
    cases turn with
    | again u => trivial
    | finish x =>
      obtain ⟨hn, ht⟩ := step_finish hs
      cases x with
      | none => exact ahead_of_next_none tables.alphabet hn
      | some t => exact ht t rfl

theorem delivered_of_settles {x : Option Lexeme}
    (h : Settles (fun rounds => i.nextExpanded tables rounds) (.done x j)) :
    Delivered tables x j := by
  obtain ⟨n, hn⟩ := h
  have ho : i.nextExpanded tables n = .done x j := hn n (Nat.le_refl n)
  have hd := nextExpanded_delivered tables n i
  rw [ho] at hd
  exact hd

/-- On an input of the same view expansion delivers the same, if it comes to anything. -/
theorem nextExpanded_of_settles {i₀ : Input} {x : Option Lexeme}
    (hi : i.view tables.alphabet = i₀.view tables.alphabet)
    (h : Settles (fun rounds => i₀.nextExpanded tables rounds) (.done x j)) (rounds : Nat) :
    (i.nextExpanded tables rounds).Ensures
      (fun y k => y = x ∧ k.view tables.alphabet = j.view tables.alphabet) (fun _ _ => True) := by
  have hbelow : (i₀.nextExpanded tables rounds).Below (.done x j) :=
    (i₀.nextExpanded_steady tables).below_of_settles h rounds
  have hagree := nextExpanded_agree rounds hi
  cases ho : i.nextExpanded tables rounds with
  | failed f k => trivial
  | unfinished => trivial
  | done y k =>
    rw [ho] at hagree
    rcases hbelow with hb | hb
    · rw [hb] at hagree
      rcases hagree with h | h | h <;> exact h.elim
    · rw [hb] at hagree
      rcases hagree with h | h | h
      · exact h.elim
      · exact h.elim
      · exact h

/-- On inputs of this view with room enough, expansion delivers these tokens and no others. -/
def Remains (tables : Tables) : List Lexeme → Input → Prop
  | [], i => ∃ i₀ j : Input, i.view tables.alphabet = i₀.view tables.alphabet ∧
    Settles (fun rounds => i₀.nextExpanded tables rounds) (.done none j)
  | t :: ts, i => ∃ i₀ j : Input, i.view tables.alphabet = i₀.view tables.alphabet ∧
    Settles (fun rounds => i₀.nextExpanded tables rounds) (.done (some t) j) ∧ Remains tables ts j

theorem Remains.of_view (h : Remains tables ts i)
    (hv : j.view tables.alphabet = i.view tables.alphabet) : Remains tables ts j := by
  cases ts with
  | nil =>
    obtain ⟨i₀, k, hi, hs⟩ := h
    exact ⟨i₀, k, hv.trans hi, hs⟩
  | cons t ts =>
    obtain ⟨i₀, k, hi, hs, hr⟩ := h
    exact ⟨i₀, k, hv.trans hi, hs, hr⟩

theorem Remains.inert (h : Remains tables ts i) : ∀ t ∈ ts, Inert tables t := by
  induction ts generalizing i with
  | nil => exact nofun
  | cons t ts ih =>
    obtain ⟨i₀, j, -, hs, hr⟩ := h
    exact List.forall_mem_cons.mpr ⟨delivered_of_settles hs, ih hr⟩

/-- Nothing remains where nothing is ahead. -/
theorem remains_nil (h : (i.view tables.alphabet).ahead = []) : Remains tables [] i := by
  have hn := i.next_view tables.alphabet
  unfold View.next at hn
  rw [h] at hn
  cases ho : i.next tables.alphabet with
  | done x j =>
    rw [ho] at hn
    obtain ⟨rfl, -⟩ := hn
    have hs : Steps tables i (.done (.finish none) j) := ⟨0, fun rounds _ => run_step_end ho rounds⟩
    exact ⟨i, j, rfl, hs.settles_finish⟩
  | failed f j =>
    rw [ho] at hn
    exact hn.elim
  | unfinished =>
    rw [ho] at hn
    exact hn.elim

theorem Remains.push (h : Remains tables ts i) (hu : ∀ t ∈ us, Inert tables t)
    (hj : j.view tables.alphabet = (i.view tables.alphabet).push us) :
    Remains tables (us ++ ts) j := by
  induction us generalizing j with
  | nil => exact h.of_view hj
  | cons t us ih =>
    obtain ⟨ht, hus⟩ := List.forall_mem_cons.mp hu
    obtain ⟨k, hs, hk⟩ := steps_of_inert ht.1 ht.2 hj
    exact ⟨j, k, rfl, hs.settles_finish, ih hus hk⟩

/-- What has been drained is what remained. -/
theorem remains_of_drain {rounds n : Nat} {j : Input}
    (h : i.drain tables rounds n = ⟨ts, .done () j⟩) : Remains tables ts i := by
  have hd := drainsIn_of_drain h (by simp)
  clear h
  induction hd with
  | @last i hn => exact ⟨i, j, rfl, (i.nextExpanded_steady tables).settles_of_eq hn nofun⟩
  | @next i k t ts hn rest ih =>
    exact ⟨i, k, rfl, (i.nextExpanded_steady tables).settles_of_eq hn nofun, ih⟩

end Input

/-! ## Readers of expanded tokens -/

/-- What the answers do to the tokens that remain; raw readings are not spoken of. -/
def Request.taking (tables : Tables) : Promises Request (List Lexeme)
  | _, .expanded, post, [] => post none []
  | _, .expanded, post, t :: ts => post (some t) ts
  | _, .back us, post, ts => (∀ t ∈ us, Inert tables t) ∧ post () (us ++ ts)
  | _, _, _, _ => False

theorem Request.answer_taking {tables : Tables} (rounds : Nat) {γ : Type} (q : Request γ)
    (post : γ → List Lexeme → Prop) (i : Input) (ts : List Lexeme) (h : i.Remains tables ts)
    (hq : q.taking tables post ts) :
    (q.answer tables rounds i).Ensures (fun a j => ∃ us, j.Remains tables us ∧ post a us)
      (fun _ _ => True) := by
  cases q with
  | expanded =>
    cases ts with
    | nil =>
      obtain ⟨i₀, j, hi, hs⟩ := h
      refine (Input.nextExpanded_of_settles hi hs rounds).mono ?_ fun _ _ hf => hf
      rintro x k ⟨rfl, hk⟩
      have hend : (k.view tables.alphabet).ahead = [] := by
        rw [hk]
        exact Input.delivered_of_settles hs
      exact ⟨[], Input.remains_nil hend, hq⟩
    | cons t ts =>
      obtain ⟨i₀, j, hi, hs, hr⟩ := h
      refine (Input.nextExpanded_of_settles hi hs rounds).mono ?_ fun _ _ hf => hf
      rintro x k ⟨rfl, hk⟩
      exact ⟨ts, hr.of_view hk, hq⟩
  | back us =>
    obtain ⟨hu, hp⟩ := hq
    rcases i.push_view tables.alphabet ⟨us, none⟩ with ⟨j, ho, hj⟩ | ⟨f, j, ho, -⟩
    · simp only [answer, Input.back, ho]
      exact ⟨us ++ ts, h.push hu hj, hp⟩
    · simp only [answer, Input.back, ho]
      trivial
  | unexpanded => exact hq.elim
  | consume c => exact hq.elim

end Galley
