import Galley.Definition.Capture
import Galley.Definition.Reading
import Galley.Proofs.Consumption

/-!
Valid definitions: parameters numbered from one without gaps, and no reference to any other. What
`read` delivers is valid, so its own check of this never refuses anything; and a call of a valid
definition that is captured has an argument for each reference, so `substitute` never lacks one.
-/

namespace Galley.Definition

def Valid (d : Definition) : Prop :=
  ∃ count, countFrom 0 d.parameters = .ok count ∧ checkParts count d.replacement = .ok ()

theorem make_valid {d : Definition} (h : d.Valid) : make d.parameters d.replacement = .ok d := by
  obtain ⟨count, hc, hp⟩ := h
  simp [make, hc, hp, bind, Except.bind, pure, Except.pure]

/-! ## What is read is valid -/

theorem countFrom_append (es fs : List Element) (count : Nat) :
    countFrom count (es ++ fs) = (countFrom count es).bind fun n => countFrom n fs := by
  induction es generalizing count with
  | nil => rfl
  | cons e es ih =>
    cases e with
    | delimiter t => exact ih count
    | parameter n =>
      simp only [List.cons_append, countFrom]
      split
      · exact ih (count + 1)
      · rfl

theorem checkParts_append (ps qs : List Part) (count : Nat) :
    checkParts count (ps ++ qs) = (checkParts count ps).bind fun _ => checkParts count qs := by
  induction ps with
  | nil => rfl
  | cons p ps ih =>
    cases p with
    | literal t => exact ih
    | reference n =>
      simp only [List.cons_append, checkParts]
      split
      · exact ih
      · rfl

namespace Reading

theorem one_le_of_number? {t : Token} {n : Nat} (h : number? t = some n) : 1 ≤ n := by
  cases t with
  | cs name => simp [number?] at h
  | ch c cat =>
    simp only [number?] at h
    split at h
    · rename_i hc
      have h1 : '1'.toNat ≤ c.toNat := hc.1
      have h49 : '1'.toNat = 49 := rfl
      injection h with h
      omega
    · cases h

/-- What has been read has the property, or the fault is not that of a check. -/
def Accepted {α : Type} (post : α → Prop) : Except ReadingFault α → Prop
  | .ok a => post a
  | .error f => ∀ e, f ≠ .rejected e

/-- The elements read so far are numbered in order, up to the count that is kept. -/
def ParameterText.Numbered (s : ParameterText) : Prop :=
  countFrom 0 s.elements.reverse = .ok s.count

theorem ParameterText.step_numbered {s : ParameterText} (hs : s.Numbered) (t : Lexeme) :
    (s.step t).Holds Numbered (Accepted Numbered) := by
  have hs' : countFrom 0 s.elements.reverse = .ok s.count := hs
  unfold ParameterText.step
  split
  · split
    · simp [Turn.Holds, Numbered, countFrom_append, hs', countFrom, Except.bind]
    · exact fun e => nofun
  · split
    · exact hs
    · split
      · exact fun e => nofun
      · split
        · exact hs
        · simp [Turn.Holds, Numbered, countFrom_append, hs', countFrom, Except.bind]

theorem parameterText_numbered (ts : List Lexeme) :
    Accepted ParameterText.Numbered (Consumer.run parameterText ts).1 := by
  have start : ParameterText.Numbered {} := rfl
  refine Consumer.scan_result _ _ (fun s t hs => ParameterText.step_numbered hs t) ?_ start ts
  intro s _ e
  split <;> exact nofun

/-- The parts read so far refer to parameters that there are. -/
def Replacement.Refers (count : Nat) (s : Replacement) : Prop :=
  checkParts count s.parts.reverse = .ok ()

theorem Replacement.Refers.literal {count depth : Nat} {marked : Bool} {s : Replacement}
    (hs : s.Refers count) (t : Lexeme) :
    (Replacement.mk (.literal t :: s.parts) depth marked).Refers count := by
  have hs' : checkParts count s.parts.reverse = .ok () := hs
  simp [Refers, checkParts_append, hs', checkParts, Except.bind]

theorem Replacement.afterMark_refers {count : Nat} {s : Replacement} (hs : s.Refers count)
    (t : Lexeme) : (s.afterMark count t).Holds (Refers count)
      (Accepted fun parts => checkParts count parts = .ok ()) := by
  have hs' : checkParts count s.parts.reverse = .ok () := hs
  unfold afterMark
  split
  · exact hs.literal t
  · split
    · rename_i n hn
      have h1 := one_le_of_number? hn
      split
      · have hr : (1 : Int) ≤ n ∧ (n : Int) ≤ count := by omega
        simp [Turn.Holds, Refers, checkParts_append, hs', checkParts, Except.bind, hr]
      · exact fun e => nofun
    · exact fun e => nofun

theorem Replacement.step_refers {count : Nat} {s : Replacement} (hs : s.Refers count)
    (t : Lexeme) : (s.step count t).Holds (Refers count)
      (Accepted fun parts => checkParts count parts = .ok ()) := by
  unfold step
  split
  · exact afterMark_refers hs t
  · split
    · exact hs.literal t
    · split
      · split
        · exact hs
        · exact hs.literal t
      · split
        · exact hs
        · exact hs.literal t

theorem replacement_refers (count : Nat) (ts : List Lexeme) :
    Accepted (fun parts => checkParts count parts = .ok ())
      (Consumer.run (replacement count) ts).1 := by
  have start : Replacement.Refers count {} := rfl
  refine Consumer.scan_result _ _ (fun s t hs => Replacement.step_refers hs t) ?_ start ts
  intro s _ e
  split <;> exact nofun

end Reading

theorem read_valid (ts : List Lexeme) : Reading.Accepted Valid (Consumer.run read ts).1 := by
  unfold read
  rw [Consumer.run_bind_except]
  have ht := Reading.parameterText_numbered ts
  rcases hr : Consumer.run Reading.parameterText ts with ⟨f | text, more⟩
  · rw [hr] at ht
    exact ht
  · rw [hr] at ht
    have hp := Reading.replacement_refers text.count more
    simp only
    rw [Consumer.run_bind_except]
    rcases hq : Consumer.run (Reading.replacement text.count) more with ⟨f | parts, rest⟩
    · rw [hq] at hp
      exact hp
    · rw [hq] at hp
      have hv : Valid ⟨text.elements.reverse, parts⟩ := ⟨text.count, ht, hp⟩
      have hm := make_valid hv
      simp only at hm ⊢
      rw [hm]
      exact hv

/-- A definition that is read has a parameter text and behind it a replacement. -/
theorem exists_of_read {ts rest : List Lexeme} {d : Definition}
    (h : Consumer.run read ts = (.ok d, rest)) :
    ∃ text parts more, Consumer.run Reading.parameterText ts = (.ok text, more) ∧
      Consumer.run (Reading.replacement text.count) more = (.ok parts, rest) ∧
      d = ⟨text.elements.reverse, parts⟩ := by
  obtain ⟨text, more, ht, hk⟩ := Consumer.run_bind_except_ok h
  obtain ⟨parts, more', hp, hm⟩ := Consumer.run_bind_except_ok hk
  cases hd : make text.elements.reverse parts with
  | error e => simp [hd] at hm
  | ok d' =>
    simp only [hd, Consumer.run_pure_except, Prod.mk.injEq, Except.ok.injEq] at hm
    obtain ⟨rfl, rfl⟩ := hm
    exact ⟨text, parts, more, ht, hp, make_eq_ok hd⟩

/-! ## What is captured is enough -/

namespace Capture

theorem mem_of_leading {es es' : List Element} {ts rest : List Lexeme}
    (h : Consumer.run (leading es) ts = (.ok es', rest)) {n : Int} (hn : .parameter n ∈ es) :
    .parameter n ∈ es' := by
  induction es generalizing ts with
  | nil => cases hn
  | cons e es ih =>
    cases e with
    | parameter m =>
      simp only [leading, Consumer.run_pure_except, Prod.mk.injEq, Except.ok.injEq] at h
      rw [← h.1]
      exact hn
    | delimiter t =>
      rw [leading] at h
      obtain ⟨u, more, -, h⟩ := Consumer.run_bind_except_ok h
      split at h
      · refine ih h ?_
        simpa using hn
      · simp at h

theorem isSome_of_parameters {es : List Element} {args args' : Arguments} {ts rest : List Lexeme}
    (h : Consumer.run (parameters args es) ts = (.ok args', rest)) {n : Int}
    (hn : (args.get? n).isSome ∨ .parameter n ∈ es) : (args'.get? n).isSome := by
  induction es generalizing args ts with
  | nil =>
    simp only [parameters, Consumer.run_pure_except, Prod.mk.injEq, Except.ok.injEq] at h
    rw [← h.1]
    simpa using hn
  | cons e es ih =>
    cases e with
    | delimiter t =>
      refine ih h ?_
      simpa using hn
    | parameter m =>
      rw [parameters] at h
      obtain ⟨arg, more, -, h⟩ := Consumer.run_bind_except_ok h
      refine ih h ?_
      by_cases hm : n = m
      · left
        simp [Table.get?_set, hm]
      · simpa [Table.get?_set, hm] using hn

end Capture

theorem isSome_of_capture {d : Definition} {args : Arguments} {ts rest : List Lexeme}
    (h : Consumer.run d.capture ts = (.ok args, rest)) {n : Int}
    (hn : .parameter n ∈ d.parameters) : (args.get? n).isSome := by
  obtain ⟨es, more, hl, hp⟩ := Consumer.run_bind_except_ok h
  exact Capture.isSome_of_parameters hp (Or.inr (Capture.mem_of_leading hl hn))

theorem mem_of_countFrom {es : List Element} {first count : Nat}
    (h : countFrom first es = .ok count) {n : Int} (h1 : first < n) (h2 : n ≤ count) :
    .parameter n ∈ es := by
  induction es generalizing first with
  | nil =>
    injection h with h
    omega
  | cons e es ih =>
    cases e with
    | delimiter t => exact List.mem_cons_of_mem _ (ih h h1)
    | parameter m =>
      simp only [countFrom] at h
      split at h
      · by_cases hm : n = m
        · simp [hm]
        · exact List.mem_cons_of_mem _ (ih h (by omega))
      · cases h

theorem fill_isSome {parts : List Part} {args : Arguments} {count : Nat}
    (h : checkParts count parts = .ok ())
    (hargs : ∀ n : Int, 1 ≤ n → n ≤ count → (args.get? n).isSome) : (fill args parts).isSome := by
  induction parts with
  | nil => rfl
  | cons p parts ih =>
    cases p with
    | literal t =>
      simpa [fill] using ih h
    | reference n =>
      simp only [checkParts] at h
      split at h
      · rename_i hn
        obtain ⟨arg, ha⟩ := Option.isSome_iff_exists.mp (hargs n hn.1 hn.2)
        obtain ⟨rest, hr⟩ := Option.isSome_iff_exists.mp (ih h)
        simp [fill, ha, hr]
      · cases h

/-- A captured call of a valid definition can be replaced. -/
theorem substitute_isSome {d : Definition} (hd : d.Valid) {args : Arguments}
    {ts rest : List Lexeme} (h : Consumer.run d.capture ts = (.ok args, rest)) :
    (d.substitute args).isSome := by
  obtain ⟨count, hc, hp⟩ := hd
  refine fill_isSome hp fun n h1 h2 => isSome_of_capture h ?_
  exact mem_of_countFrom hc (by omega) h2

end Galley.Definition
