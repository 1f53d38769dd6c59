import Galley.Proofs.Faults.Quantity
import Galley.Proofs.Rounds

/-!
The faults that a run can end in: on tables that hold no definitions yet, every run comes to a list,
goes on forever, or ends in a fault of one of its stages, which is the lexer only in strict reading.
What is defined on the way has been read, so all definitions are valid at all times.
-/

namespace Galley

namespace Build

open Scan (Safe ask_safe)

variable {strict : Bool}

/-- A command that defines something defines it validly. -/
def Effect.DefinesValid (e : Effect) : Prop :=
  ∀ name d, e.assignment = some (.define name d) → d.Valid

/-- Ends in no fault that a run may not end in, and defines nothing but valid definitions. -/
def Sound (strict : Bool) (r : Step) : Prop :=
  ∀ u, r.wp Request.promise (Cause.Proper strict) (fun e _ => e.DefinesValid) u

theorem Sound.bind {α : Type} {r : Scan α} {k : α → Step} (hr : Safe strict r)
    (hk : ∀ a, Sound strict (k a)) : Sound strict (r >>= k) :=
  fun u => hr _ u fun a u => hk a u

theorem Sound.fail {c : Cause} (h : c.Proper strict) : Sound strict (.fail c) := fun _ => h

theorem fault_sound (f : BuildFault) : Sound strict (fault f) :=
  .fail (Cause.proper_of_stage nofun nofun)

theorem goOn_sound (nest : Nest) : Sound strict (goOn nest) := fun _ _ _ => nofun

theorem ofGlyph_safe {α : Type} (a : Except UnknownGlyph α) : Safe strict (ofGlyph a) := by
  unfold ofGlyph
  split
  · exact .pure _
  · exact .fail (Cause.proper_of_stage nofun nofun)

theorem package_safe (mode : Mode) (items : List Item) : Safe strict (package mode items) := by
  unfold package
  split
  · exact .pure _
  · exact .fail (Cause.proper_of_stage nofun nofun)

theorem closeParagraph_sound (items : List Item) (within : Nest) :
    Sound strict (closeParagraph items within) := by
  unfold closeParagraph
  split
  · exact goOn_sound _
  · exact .bind (package_safe _ _) fun _ => goOn_sound _

theorem closeGroup_sound (mode : Mode) (items : List Item) (within : Nest) :
    Sound strict (closeGroup mode items within) :=
  .bind (package_safe _ _) fun _ => goOn_sound _

theorem openParagraph_sound (t : Lexeme) (nest : Nest) : Sound strict (openParagraph t nest) :=
  .bind (ask_safe _) fun _ => goOn_sound _

theorem interword_sound (face : Typeface) (nest : Nest) : Sound strict (interword face nest) :=
  .bind (ofGlyph_safe _) fun _ => goOn_sound _

theorem letter_sound (face : Typeface) (c : Char) (nest : Nest) :
    Sound strict (letter face c nest) :=
  .bind (ofGlyph_safe _) fun _ => goOn_sound _

theorem endGroup_sound (t : Lexeme) (nest : Nest) : Sound strict (endGroup t nest) := by
  cases nest with
  | outer mode items => exact fault_sound _
  | group mode items within => exact closeGroup_sound _ _ _
  | paragraph items within => exact .bind (ask_safe _) fun _ => closeParagraph_sound _ _

theorem character_sound (face : Typeface) (t : Lexeme) (c : Char) (cat : Category) (nest : Nest) :
    Sound strict (character face t c cat nest) := by
  unfold character
  split
  · exact endGroup_sound _ _
  · exact goOn_sound _
  · split
    · exact openParagraph_sound _ _
    · exact letter_sound _ _ _
  · split
    · exact openParagraph_sound _ _
    · exact letter_sound _ _ _
  · split
    · exact goOn_sound _
    · exact interword_sound _ _
  · exact fault_sound _
  · exact fault_sound _

theorem define_sound (nest : Nest) : Sound strict (define nest) := by
  refine .bind (ask_safe _) fun t => ?_
  cases t with
  | none => exact fault_sound _
  | some t =>
    dsimp only
    split
    · intro u ts
      have hv := Definition.read_valid ts
      rcases hr : Consumer.run Definition.read ts with ⟨f | d, rest⟩
      · rw [hr] at hv
        cases f with
        | rejected e => exact absurd rfl (hv e)
        | runaway => exact Cause.proper_of_stage nofun nofun
        | missingBegin => exact Cause.proper_of_stage nofun nofun
        | numbering => exact Cause.proper_of_stage nofun nofun
        | illegalNumber => exact Cause.proper_of_stage nofun nofun
      · rw [hr] at hv
        rintro name d' ⟨⟩
        exact hv
    · exact fault_sound _

theorem categorize_sound (nest : Nest) : Sound strict (categorize nest) := by
  refine .bind Quantity.int_safe fun code => ?_
  split
  · rename_i hcode
    refine .bind Quantity.optionalEquals_safe fun _ => .bind Quantity.int_safe fun value => ?_
    split
    · rename_i hv
      obtain ⟨cat, hc⟩ := Option.isSome_iff_exists.mp ((Category.ofCode?_isSome_iff value).mpr hv)
      rw [codePoint?_eq hcode, hc]
      exact fun _ _ _ => nofun
    · exact fault_sound _
  · exact fault_sound _

theorem openBox_sound (mode : Mode) (nest : Nest) : Sound strict (openBox mode nest) := by
  refine .bind (.loop (fun _ => .bind Quantity.nonBlank_safe fun _ => .pure _) ()) fun t => ?_
  split
  · exact goOn_sound _
  · exact fault_sound _

theorem ruleStep_safe (r : Rule) : Safe strict (ruleStep r) := by
  have dimension : ∀ set : Dimension → Rule, Safe strict (do
      let d ← Quantity.dimension
      return Turn.again (set d) : Scan (Turn Rule Rule)) :=
    fun _ => .bind Quantity.dimension_safe fun _ => .pure _
  refine .bind (Quantity.keyword_safe _) fun _ => ?_
  split
  · exact dimension _
  · refine .bind (Quantity.keyword_safe _) fun _ => ?_
    split
    · exact dimension _
    · refine .bind (Quantity.keyword_safe _) fun _ => ?_
      split
      · exact dimension _
      · exact .pure _

theorem rule_sound (nest : Nest) : Sound strict (rule nest) :=
  .bind (.loop ruleStep_safe _) fun _ => goOn_sound _

theorem skip_sound (nest : Nest) : Sound strict (skip nest) :=
  .bind Quantity.glue_safe fun _ => goOn_sound _

theorem primitive_sound (face : Typeface) (name : String) (nest : Nest) :
    Sound strict (primitive face name nest) := by
  unfold primitive
  split
  · exact goOn_sound _
  · exact define_sound _
  · exact categorize_sound _
  · exact skip_sound _
  · exact skip_sound _
  · exact openBox_sound _ _
  · exact openBox_sound _ _
  · exact rule_sound _
  · exact rule_sound _
  · exact interword_sound _ _
  · exact fault_sound _

theorem control_sound (face : Typeface) (t : Lexeme) (name : String) (nest : Nest) :
    Sound strict (control face t name nest) := by
  unfold control
  split
  · cases nest with
    | paragraph items within => exact closeParagraph_sound _ _
    | outer mode items => exact goOn_sound _
    | group mode items within => exact goOn_sound _
  · split
    · exact openParagraph_sound _ _
    · split
      · cases nest with
        | paragraph items within => exact .bind (ask_safe _) fun _ => closeParagraph_sound _ _
        | outer mode items => exact fault_sound _
        | group mode items within => exact fault_sound _
      · exact primitive_sound _ _ _

theorem atEnd_sound (nest : Nest) : Sound strict (atEnd nest) := by
  cases nest with
  | outer mode items => exact fun _ _ _ => nofun
  | group mode items within => exact fault_sound _
  | paragraph items within => exact closeParagraph_sound _ _

theorem step_sound (face : Typeface) (nest : Nest) : Sound strict (step face nest) := by
  refine .bind (ask_safe _) fun t => ?_
  cases t with
  | none => exact atEnd_sound _
  | some t =>
    dsimp only
    split
    · exact character_sound _ _ _ _ _
    · exact control_sound _ _ _ _

end Build

theorem Tables.Valid.assign {t : Tables} (h : t.Valid) {a : Assignment}
    (ha : ∀ name d, a = .define name d → d.Valid) : (t.assign a).Valid := by
  intro token d hd
  cases a with
  | categorize code cat => exact h token d hd
  | define name d' =>
    rw [meaning?_define] at hd
    split at hd
    · injection hd with hd
      exact hd ▸ ha name d' rfl
    · exact h token d hd

/-- A run in progress whose definitions are valid. -/
def Machine.Sound (strict : Bool) (m : Machine) : Prop :=
  m.tables.Valid ∧ m.input.lexer.strict = strict

theorem Machine.turn_ensures {strict : Bool} (face : Typeface) (rounds : Nat) (nest : Nest)
    {m : Machine} (h : m.Sound strict) :
    (m.turn face rounds nest).Ensures (fun _ m => m.Sound strict)
      (fun f _ => f.cause.Proper strict) := by
  have hs : ((Build.step face nest).run (handler m.tables rounds) rounds m.input).Ensures
      (fun e j => ∃ _ : Unit, j.lexer.strict = strict ∧ e.DefinesValid)
      (fun f _ => f.cause.Proper strict) :=
    Reader.run_wp (h := handler m.tables rounds) (Request.answer_ensures h.1 rounds)
      (fun _ _ _ _ hc => hc) rounds (Build.step face nest) h.2 (Build.step_sound face nest ())
  unfold turn
  split
  · rename_i e j ho
    rw [ho] at hs
    obtain ⟨-, hj, he⟩ := hs
    refine ⟨?_, hj⟩
    cases ha : e.assignment with
    | none => exact h.1
    | some a => exact h.1.assign fun name d hd => he name d (by rw [ha, hd])
  · rename_i f j ho
    rw [ho] at hs
    exact hs
  · trivial

theorem Machine.build_ensures {strict : Bool} (face : Typeface) (rounds : Nat) (mode : Mode)
    {m : Machine} (h : m.Sound strict) :
    (m.build face rounds mode).Ensures (fun _ _ => True) (fun f _ => f.cause.Proper strict) :=
  (iterate_ensures (fun _ m => m.Sound strict)
    (fun nest _ hm => (turn_ensures face rounds nest hm).mono
      (fun turn _ ht => by cases turn <;> simp [Turn.Holds, ht]) fun _ _ hf => hf)
    rounds h)

/-- How a run of an engine ends: with a list, never, or with a fault of one of the stages. -/
def Outcome.EndsProperly {σ α : Type} (strict : Bool) : Outcome σ α → Prop
  | .done _ _ => True
  | .unfinished => True
  | .failed f _ => f.cause.stage = .lexing ∧ strict = true ∨ f.cause.stage = .expansion ∨
      f.cause.stage = .building ∨ f.cause.stage = .metrics

theorem Engine.run_endsProperly {strict : Bool} (rounds : Nat) (mode : Mode) {e : Engine}
    (h : e.machine.Sound strict) : (e.run rounds mode).EndsProperly strict := by
  have hb := Machine.build_ensures e.face rounds mode h
  unfold run
  split
  · trivial
  · rename_i f m ho
    rw [ho] at hb
    obtain ⟨hd, hl⟩ := hb
    simp only [Outcome.EndsProperly]
    cases hs : f.cause.stage with
    | lexing => exact Or.inl ⟨rfl, hl hs⟩
    | defect => exact absurd hs hd
    | expansion => simp
    | building => simp
    | metrics => simp
  · trivial

theorem Engine.start_sound (config : Config) (metrics : Metrics) (lines : List String) :
    (start config metrics {} lines).machine.Sound config.strict := by
  refine ⟨fun token d h => ?_, rfl⟩
  cases (Tables.meaning?_fresh token).symm.trans h

/-- Every run on lines under fresh tables settles: it comes to a list, goes on forever, or ends in a
fault of expansion, of building or of the metrics, or in strict reading of the lexer. -/
theorem Engine.run_settles_properly (config : Config) (metrics : Metrics) (lines : List String)
    (mode : Mode) :
    ∃ o, Settles (fun rounds => (start config metrics {} lines).run rounds mode) o ∧
      o.EndsProperly config.strict := by
  obtain ⟨o, ho⟩ := ((start config metrics {} lines).run_steady mode).exists_settles
  refine ⟨o, ho, ?_⟩
  obtain ⟨enough, he⟩ := ho
  rw [← he enough (Nat.le_refl enough)]
  exact run_endsProperly enough mode (start_sound config metrics lines)

end Galley
