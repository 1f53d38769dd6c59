import Galley.Proofs.Blame.Input

/-!
Readers of quantities put back only tokens that they have read, so they keep where the tokens of a
run stand.
-/

namespace Galley

/-! ## Readers of expanded tokens -/

/-- As for expansion. -/
def Request.placed (src : Source) : Promises Request Unit
  | _, .expanded, post, u => ∀ t, StandIn src t.toList → post t u
  | _, .unexpanded, post, u => ∀ t, StandIn src t.toList → post t u
  | _, .back ts, post, u => StandIn src ts ∧ ∀ a, post a u
  | _, .consume c, post, u => ∀ ts, StandIn src ts → post (c.run ts).1 u

theorem Request.answer_traced {src : Source} {tables : Tables} (rounds : Nat) {γ : Type}
    (q : Request γ) (post : γ → Unit → Prop) (i : Input) (u : Unit)
    (h : Machine.Traced src ⟨tables, i⟩)
    (hscan : ∀ j ∈ q.readings tables rounds i, Machine.ScansIn src ⟨tables, j⟩)
    (hq : q.placed src post u) :
    (q.answer tables rounds i).Ensures (fun a j => ∃ u, Machine.Traced src ⟨tables, j⟩ ∧ post a u)
      (fun f j => Machine.BlamedIn src f ⟨tables, j⟩) := by
  cases q with
  | expanded =>
    exact Input.ensures_of_traced (Input.nextExpanded_traced h rounds hscan) fun t _ ht => hq t ht
  | unexpanded =>
    exact Input.ensures_of_traced (Input.next_traced h (hscan i List.mem_cons_self))
      fun t _ ht => hq t ht
  | back ts =>
    exact (Input.push_traced h hq.1).mono (fun a _ hj => ⟨u, hj, hq.2 a⟩) fun _ _ hf => hf
  | consume c =>
    refine Input.ensures_of_traced (Input.consume_traced h rounds c hscan) ?_
    rintro b _ ⟨ts, hts, rfl⟩
    exact hq ts hts

namespace Scan

/-- Readers of expanded tokens that come to such values. -/
abbrev Brings {α : Type} (src : Source) (values : α → Prop) (r : Scan α) : Prop :=
  Reader.Brings (Request.placed src) values r

/-- A reader puts back only tokens of the source, whatever it comes to. -/
abbrev Tidy {α : Type} (src : Source) (r : Scan α) : Prop := Brings src (fun _ => True) r

variable {src : Source} {α β : Type}

theorem Tidy.pure (a : α) : Tidy src (Pure.pure a) := Reader.Brings.pure trivial

theorem Tidy.bind {r : Scan α} {k : α → Scan β} (hr : Tidy src r) (hk : ∀ a, Tidy src (k a)) :
    Tidy src (r >>= k) := Reader.Brings.bind hr fun a _ => hk a

/-- The values that come first may be used up to the end. -/
theorem Tidy.after {values : α → Prop} {r : Scan α} {k : α → Scan β}
    (hr : Brings src values r) (hk : ∀ a, values a → Tidy src (k a)) : Tidy src (r >>= k) :=
  Reader.Brings.bind hr hk

theorem Tidy.loop {υ : Type} {body : υ → Scan (Turn υ α)} (h : ∀ u, Tidy src (body u)) (u : υ) :
    Tidy src (.loop body u) := by
  refine Reader.Brings.loop (fun _ => True) (fun u _ post hpost => ?_) trivial
  refine h u post fun turn v _ => hpost turn v ?_
  cases turn with
  | again u' => trivial
  | finish a => trivial

theorem next_brings : Brings src (fun t => StandIn src t.toList) next :=
  fun _ hpost t ht => hpost t () ht

theorem nextRaw_brings : Brings src (fun t => StandIn src t.toList) nextRaw :=
  fun _ hpost t ht => hpost t () ht

theorem back_tidy {ts : List Lexeme} (h : StandIn src ts) : Tidy src (back ts) :=
  fun _ hpost => ⟨h, fun a => hpost a () trivial⟩

end Scan

/-! ## Quantities -/

namespace Quantity

open Scan (Brings Tidy next_brings nextRaw_brings back_tidy)

variable {src : Source}

theorem fault_brings {α : Type} {values : α → Prop} (f : ScanFault) :
    Brings src values (fault f) := .fail _

theorem nonBlank_brings : Brings src (fun t => StandIn src t.toList) nonBlank := by
  refine .loop (fun _ => True) (fun _ _ => .bind next_brings fun t ht => ?_) trivial
  refine .pure ?_
  split
  · trivial
  · exact ht

theorem putBack_tidy {t : Option Lexeme} (h : StandIn src t.toList) (used : Bool) :
    Tidy src (if used then pure () else Scan.back t.toList) := by
  split
  · exact .pure ()
  · exact back_tidy h

theorem optionalSpace_tidy : Tidy src optionalSpace :=
  .after next_brings fun t ht => putBack_tidy ht (isSpace t)

theorem optionalEquals_tidy : Tidy src optionalEquals :=
  .after nonBlank_brings fun t ht => putBack_tidy ht (isOther t ['='])

theorem matchLetter_tidy {matched : List Lexeme} (hm : StandIn src matched) (letter : Char)
    {t : Option Lexeme} (ht : StandIn src t.toList) {more : Lexeme → Scan Bool}
    (h : ∀ u, StandIn src [u] → Tidy src (more u)) :
    Tidy src (matchLetter matched letter t more) := by
  have hback : StandIn src matched.reverse :=
    hm.subset (List.reverse_subset.mpr (List.Subset.refl matched))
  unfold matchLetter
  split
  · exact .bind (back_tidy hback) fun _ => .pure _
  · split
    · exact h _ ht
    · exact .bind (back_tidy (hback.append ht)) fun _ => .pure _

theorem matchLetters_tidy {matched : List Lexeme} (hm : StandIn src matched) (letters : List Char) :
    Tidy src (matchLetters matched letters) := by
  induction letters generalizing matched with
  | nil => exact .pure true
  | cons letter letters ih =>
    exact .after next_brings fun t ht =>
      matchLetter_tidy hm letter ht fun u hu => ih (hu.cons hm)

theorem keyword_tidy (word : String) : Tidy src (keyword word) := by
  unfold keyword
  split
  · exact .pure true
  · exact .after nonBlank_brings fun t ht =>
      matchLetter_tidy .nil _ ht fun u hu => matchLetters_tidy hu _

theorem signs_tidy : Tidy src signs := by
  refine .loop (fun negative => .after nonBlank_brings fun t ht => ?_) false
  split
  · exact .pure _
  · split
    · exact .pure _
    · exact .bind (back_tidy ht) fun _ => .pure _

theorem digits_brings (radix : Nat) {t : Option Lexeme} (ht : StandIn src t.toList) :
    Brings src (fun s => StandIn src s.after.toList) (digits radix t) := by
  refine .loop (fun s => StandIn src s.after.toList) (fun s hs => ?_) ht
  split
  · exact .bind next_brings fun _ hu => .pure hu
  · exact .pure hs

theorem natural_tidy (radix : Nat) {t : Option Lexeme} (ht : StandIn src t.toList) :
    Tidy src (natural radix t) := by
  refine .after (digits_brings radix ht) fun s hs => ?_
  split
  · exact .bind (back_tidy hs) fun _ => fault_brings _
  · dsimp only
    split
    · exact .pure _
    · exact .bind (back_tidy hs) fun _ => .pure _

theorem constant_tidy : Tidy src constant := by
  refine .after nextRaw_brings fun t _ => ?_
  split
  · exact .bind optionalSpace_tidy fun _ => .pure _
  · exact fault_brings _

theorem int_tidy : Tidy src int := by
  refine .bind signs_tidy fun negative => .after next_brings fun t ht => ?_
  split
  · exact .bind constant_tidy fun _ => .pure _
  · split
    · exact .after next_brings fun _ hu => .bind (natural_tidy 8 hu) fun _ => .pure _
    · split
      · exact .after next_brings fun _ hu => .bind (natural_tidy 16 hu) fun _ => .pure _
      · exact .bind (natural_tidy 10 ht) fun _ => .pure _

theorem decimalText_tidy : Tidy src decimalText := by
  refine .after next_brings fun t ht => ?_
  refine Reader.Brings.loop (fun s => StandIn src s.2.toList) (fun s hs => ?_) ht
  split
  · exact .bind next_brings fun _ hu => .pure hu
  · exact .bind (back_tidy hs) fun _ _ => .pure trivial

theorem decimal_tidy : Tidy src decimal := by
  refine .bind decimalText_tidy fun text => ?_
  split
  · exact fault_brings _
  · split
    · exact fault_brings _
    · exact .pure _

theorem unitFrom_tidy (us : List LengthUnit) : Tidy src (unitFrom us) := by
  induction us with
  | nil => exact fault_brings _
  | cons u us ih =>
    refine .bind (keyword_tidy _) fun found => ?_
    split
    · exact .pure u
    · exact ih

theorem infiniteOrder_tidy : Tidy src infiniteOrder := by
  refine .loop (fun order => .bind (keyword_tidy _) fun found => ?_) _
  split
  · split
    · exact fault_brings _
    · split
      · exact .pure _
      · exact .fail _
  · exact .pure _

theorem unit_tidy (infinite : Bool) : Tidy src (unit infinite) := by
  unfold unit
  extract_lets chosen
  have hc : ∀ infinite, Tidy src (chosen infinite) := by
    intro infinite
    dsimp only [chosen]
    split
    · exact .bind infiniteOrder_tidy fun _ => .pure _
    · exact .bind (keyword_tidy _) fun _ => .bind (unitFrom_tidy _) fun _ => .pure _
  split
  · exact .bind (keyword_tidy _) hc
  · exact .bind (.pure _) hc

theorem flex_tidy (infinite : Bool) : Tidy src (flex infinite) := by
  refine .bind signs_tidy fun negative => .bind decimal_tidy fun text =>
    .bind (unit_tidy infinite) fun u => .bind optionalSpace_tidy fun _ => ?_
  split
  · exact .fail _
  · split
    · exact .pure _
    · exact fault_brings _

theorem dimension_tidy : Tidy src dimension := .bind (flex_tidy false) fun _ => .pure _

theorem flexAfter_tidy (word : String) : Tidy src (flexAfter word) := by
  refine .bind (keyword_tidy word) fun found => ?_
  split
  · exact flex_tidy true
  · exact .pure _

theorem glue_tidy : Tidy src glue :=
  .bind dimension_tidy fun _ => .bind (flexAfter_tidy _) fun _ =>
    .bind (flexAfter_tidy _) fun _ => .pure _

end Quantity

end Galley
