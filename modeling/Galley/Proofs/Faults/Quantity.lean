import Galley.Proofs.Faults.Input
import Galley.Proofs.Numerals

/-!
The faults that reading a quantity can end in. The digits of a decimal number that pass its checks
can be read, and an order of glue that is not the highest has a next one, so none is a defect.
-/

namespace Galley

/-! ## Readers of expanded tokens -/

/-- As for expansion, with all else that is asked for left open. -/
def Request.promise : Promises Request Unit
  | _, .consume c, post, u => ∀ ts, post (c.run ts).1 u
  | _, _, post, u => ∀ a, post a u

theorem Request.promise_of_all {γ : Type} (q : Request γ) (post : γ → Unit → Prop) (u : Unit)
    (h : ∀ a u, post a u) : Request.promise q post u := by
  cases q <;> simp [Request.promise, h]

theorem Request.answer_ensures {tables : Tables} (ht : tables.Valid) (rounds : Nat)
    {strict : Bool} {γ : Type} (q : Request γ) (post : γ → Unit → Prop) (i : Input) (u : Unit)
    (h : i.lexer.strict = strict) (hq : q.promise post u) :
    (q.answer tables rounds i).Ensures
      (fun a j => ∃ u, j.lexer.strict = strict ∧ post a u) (fun f _ => f.cause.Proper strict) := by
  cases q with
  | expanded =>
    exact (Input.nextExpanded_ensures ht rounds h).mono (fun a j hj => ⟨u, hj, hq a⟩)
      fun _ _ hf => hf
  | unexpanded =>
    exact (Input.next_ensures _ h).mono (fun a j hj => ⟨u, hj, hq a⟩) fun _ _ hf => hf
  | back ts => exact (Input.push_ensures _ h).mono (fun a j hj => ⟨u, hj, hq a⟩) fun _ _ hf => hf
  | consume c =>
    refine (Input.consume_ensures _ rounds c h).mono ?_ fun _ _ hf => hf
    rintro b j ⟨hj, ts, rfl⟩
    exact ⟨u, hj, hq ts⟩

namespace Scan

/-- Ends in no fault that a run may not end in. -/
abbrev Safe (strict : Bool) {α : Type} (r : Scan α) : Prop :=
  Reader.Safe Request.promise (Cause.Proper strict) r

variable {strict : Bool}

theorem ask_safe {γ : Type} (q : Request γ) : Safe strict (Reader.ask q) := q.promise_of_all

end Scan

/-! ## Quantities -/

namespace Quantity

open Scan (Safe ask_safe)

variable {strict : Bool}

theorem fault_safe {α : Type} (f : ScanFault) : Safe strict (fault f : Scan α) :=
  .fail (Cause.proper_of_stage nofun nofun)

theorem nonBlank_safe : Safe strict nonBlank :=
  .loop (fun _ => .bind (ask_safe _) fun _ => .pure _) ()

theorem putBack_safe (t : Option Lexeme) (b : Bool) :
    Safe strict (if b then pure () else Scan.back t.toList) := by
  split
  · exact .pure ()
  · exact ask_safe _

theorem optionalSpace_safe : Safe strict optionalSpace :=
  .bind (ask_safe _) fun t => putBack_safe t (isSpace t)

theorem optionalEquals_safe : Safe strict optionalEquals :=
  .bind nonBlank_safe fun t => putBack_safe t (isOther t ['='])

theorem matchLetter_safe (matched : List Lexeme) (letter : Char) (t : Option Lexeme)
    {more : Lexeme → Scan Bool} (h : ∀ t, Safe strict (more t)) :
    Safe strict (matchLetter matched letter t more) := by
  unfold matchLetter
  split
  · exact .bind (ask_safe _) fun _ => .pure _
  · split
    · exact h _
    · exact .bind (ask_safe _) fun _ => .pure _

theorem matchLetters_safe (matched : List Lexeme) (letters : List Char) :
    Safe strict (matchLetters matched letters) := by
  induction letters generalizing matched with
  | nil => exact .pure _
  | cons letter letters ih =>
    exact .bind (ask_safe _) fun t => matchLetter_safe matched letter t fun t => ih (t :: matched)

theorem keyword_safe (word : String) : Safe strict (keyword word) := by
  unfold keyword
  split
  · exact .pure _
  · exact .bind nonBlank_safe fun t => matchLetter_safe [] _ t fun t => matchLetters_safe [t] _

theorem signs_safe : Safe strict signs := by
  refine .loop (fun negative => .bind nonBlank_safe fun t => ?_) false
  split
  · exact .pure _
  · split
    · exact .pure _
    · exact .bind (ask_safe _) fun _ => .pure _

theorem digits_safe (radix : Nat) (t : Option Lexeme) : Safe strict (digits radix t) := by
  refine .loop (fun s => ?_) _
  split
  · exact .bind (ask_safe _) fun _ => .pure _
  · exact .pure _

theorem natural_safe (radix : Nat) (t : Option Lexeme) : Safe strict (natural radix t) := by
  refine .bind (digits_safe radix t) fun s => ?_
  split
  · exact .bind (ask_safe _) fun _ => fault_safe _
  · dsimp only
    split
    · exact .pure _
    · exact .bind (ask_safe _) fun _ => .pure _

theorem constant_safe : Safe strict constant := by
  refine .bind (ask_safe _) fun t => ?_
  split
  · exact .bind optionalSpace_safe fun _ => .pure _
  · exact fault_safe _

theorem int_safe : Safe strict int := by
  refine .bind signs_safe fun negative => .bind (ask_safe _) fun t => ?_
  split
  · exact .bind constant_safe fun _ => .pure _
  · split
    · exact .bind (ask_safe _) fun _ => .bind (natural_safe 8 _) fun _ => .pure _
    · split
      · exact .bind (ask_safe _) fun _ => .bind (natural_safe 16 _) fun _ => .pure _
      · exact .bind (natural_safe 10 t) fun _ => .pure _

theorem unitFrom_safe (us : List LengthUnit) : Safe strict (unitFrom us) := by
  induction us with
  | nil => exact fault_safe _
  | cons u us ih =>
    refine .bind (keyword_safe _) fun found => ?_
    split
    · exact .pure _
    · exact ih

theorem next?_isSome {o : GlueOrder} (h : o ≠ .filll) : o.next?.isSome := by
  cases o <;> first | rfl | exact absurd rfl h

theorem infiniteOrder_safe : Safe strict infiniteOrder := by
  refine .loop (fun order => .bind (keyword_safe _) fun found => ?_) _
  split
  · split
    · exact fault_safe _
    · rename_i ho
      obtain ⟨o, hn⟩ := Option.isSome_iff_exists.mp (next?_isSome ho)
      rw [hn]
      exact .pure _
  · exact .pure _

theorem unit_safe (infinite : Bool) : Safe strict (unit infinite) := by
  unfold unit
  extract_lets chosen
  have hc : ∀ infinite, Safe strict (chosen infinite) := by
    intro infinite
    dsimp only [chosen]
    split
    · exact .bind infiniteOrder_safe fun _ => .pure _
    · exact .bind (keyword_safe _) fun _ => .bind (unitFrom_safe _) fun _ => .pure _
  split
  · exact .bind (keyword_safe _) hc
  · exact .bind (.pure _) hc

/-! ## Decimal numbers -/

/-- A digit or a point. -/
def IsDecimalChar (c : Char) : Prop := c = '.' ∨ c ≠ '.' ∧ (Text.digitValue? c).isSome

theorem decimalChar?_isDecimalChar {t : Option Lexeme} {c : Char} (h : decimalChar? t = some c) :
    IsDecimalChar c := by
  unfold decimalChar? at h
  split at h
  · split at h
    · rename_i hc
      injection h with h
      subst h
      simp only [decimalChars, List.contains_eq_mem, List.mem_cons, List.not_mem_nil, or_false,
        decide_eq_true_eq] at hc
      rcases hc with rfl | rfl | rfl | rfl | rfl | rfl | rfl | rfl | rfl | rfl | rfl | rfl
      all_goals simp [IsDecimalChar] <;> decide
    · cases h
  · cases h

/-- Digits with at most one point and more than that can be read. -/
theorem readDecimal?_isSome {s : List Char} (h : ∀ c ∈ s, IsDecimalChar c)
    (hone : ¬ 1 < s.count '.') (hsome : ¬ s.all (· = '.') = true) :
    (Number.readDecimal? s).isSome := by
  have digits : ∀ w : List Char, (∀ c ∈ w, c ∈ s) → '.' ∉ w →
      ∀ c ∈ w, (Text.digitValue? c).isSome := by
    intro w hw hp c hc
    rcases h c (hw c hc) with rfl | ⟨-, hd⟩
    · exact absurd hc hp
    · exact hd
  have hnil {w : List Char} (hw : ∀ c ∈ w, (Text.digitValue? c).isSome)
      (h : Number.digitsOf w = []) : w = [] := by
    rw [← List.length_eq_zero_iff, ← Number.digitsOf_length hw, h, List.length_nil]
  by_cases hp : '.' ∈ s
  · obtain ⟨w, f, rfl, hwp⟩ := List.eq_append_cons_of_mem hp
    have hfp : '.' ∉ f := by
      intro hf
      have := List.count_pos_iff.mpr hf
      simp only [List.count_append, List.count_cons_self] at hone
      omega
    have hwd := digits w (fun c hc => List.mem_append_left _ hc) hwp
    have hfd := digits f (fun c hc => List.mem_append_right _ (List.mem_cons_of_mem _ hc)) hfp
    have hw := Number.takeDigits_digits hwd (Number.endsDigits_point f)
    have hf := Number.takeDigits_digits hfd Number.endsDigits_nil
    rw [List.append_nil] at hf
    have hne : ¬ (Number.digitsOf w = [] ∧ Number.digitsOf f = []) := by
      rintro ⟨hw0, hf0⟩
      simp [hnil hwd hw0, hnil hfd hf0] at hsome
    simp only [Number.readDecimal?, hw, hf]
    simpa using Classical.not_and_iff_not_or_not.mp hne
  · have hsd := digits s (fun _ hc => hc) hp
    have hs := Number.takeDigits_digits hsd Number.endsDigits_nil
    rw [List.append_nil] at hs
    have hne : Number.digitsOf s ≠ [] := by
      intro hs0
      simp [hnil hsd hs0] at hsome
    simp only [Number.readDecimal?, hs]
    simpa using hne

/-- The text of a decimal number has none but its characters, whatever has been asked before. -/
theorem decimalText_wp {post : List Char → Unit → Prop} {u : Unit}
    (h : ∀ text u, (∀ c ∈ text, IsDecimalChar c) → post text u) :
    decimalText.wp Request.promise (Cause.Proper strict) post u := by
  intro t
  refine Reader.wp_loop (fun s _ => ∀ c ∈ s.1, IsDecimalChar c) ?_ nofun
  rintro ⟨text, t⟩ u ht
  dsimp only
  split
  · rename_i c hc
    intro t' d hd
    rcases List.mem_cons.mp hd with rfl | hd
    · exact decimalChar?_isDecimalChar hc
    · exact ht d hd
  · intro _
    refine h _ _ fun c hc => ht c ?_
    simpa using hc

theorem decimal_wp {post : List Char → Unit → Prop} {u : Unit}
    (h : ∀ text u, (Number.readDecimal? text).isSome → post text u) :
    decimal.wp Request.promise (Cause.Proper strict) post u := by
  refine decimalText_wp fun text u ht => ?_
  dsimp only
  split
  · exact Cause.proper_of_stage nofun nofun
  · rename_i hone
    split
    · exact Cause.proper_of_stage nofun nofun
    · rename_i hsome
      exact h text u (readDecimal?_isSome ht hone hsome)

theorem flex_safe (infinite : Bool) : Safe strict (flex infinite) := by
  refine fun post u h => signs_safe _ u fun negative u => decimal_wp fun text u ht => ?_
  obtain ⟨q, hq⟩ := Option.isSome_iff_exists.mp ht
  refine unit_safe infinite _ u fun w u => optionalSpace_safe _ u fun _ u => ?_
  simp only [hq]
  split
  · exact h _ u
  · exact Cause.proper_of_stage nofun nofun

theorem dimension_safe : Safe strict dimension := .bind (flex_safe false) fun _ => .pure _

theorem flexAfter_safe (word : String) : Safe strict (flexAfter word) := by
  refine .bind (keyword_safe word) fun found => ?_
  split
  · exact flex_safe true
  · exact .pure _

theorem glue_safe : Safe strict glue :=
  .bind dimension_safe fun _ => .bind (flexAfter_safe _) fun _ => .bind (flexAfter_safe _) fun _ =>
    .pure _

end Quantity

end Galley
