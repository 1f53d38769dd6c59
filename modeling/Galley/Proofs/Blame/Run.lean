import Galley.Diagnostic
import Galley.Proofs.Blame.Quantity

/-!
The places that runs blame faults on. A command defines nothing but tokens of the source, so a run
under fresh tables blames every fault on the first place of all or on one where it scans a token or
an invalid character; and this is a place in its lines (`Engine.run_blames`).
-/

namespace Galley

open Definition (literals)

/-! ## Commands -/

namespace Build

open Scan (Brings Tidy next_brings nextRaw_brings back_tidy)

/-- A definition that a command makes holds tokens of the source. -/
def Effect.DefinesRead (src : Source) (e : Effect) : Prop :=
  ∀ name d, e.assignment = some (.define name d) → StandIn src (literals d.replacement)

/-- A command puts back and defines only tokens of the source. -/
abbrev Sourced (src : Source) (r : Step) : Prop := Brings src (fun e => e.DefinesRead src) r

variable {src : Source}

theorem Sourced.after {α : Type} {values : α → Prop} {r : Scan α} {k : α → Step}
    (hr : Brings src values r) (hk : ∀ a, values a → Sourced src (k a)) : Sourced src (r >>= k) :=
  Reader.Brings.bind hr hk

theorem Sourced.bind {α : Type} {r : Scan α} {k : α → Step} (hr : Tidy src r)
    (hk : ∀ a, Sourced src (k a)) : Sourced src (r >>= k) := .after hr fun a _ => hk a

theorem fault_sourced {values : Effect → Prop} (f : BuildFault) :
    Brings src values (fault f) := .fail _

theorem goOn_sourced (nest : Nest) : Sourced src (goOn nest) :=
  Reader.Brings.pure fun _ _ => nofun

theorem ofGlyph_tidy {α : Type} (x : Except UnknownGlyph α) : Tidy src (ofGlyph x) := by
  cases x with
  | ok a => exact .pure a
  | error e => exact .fail _

theorem package_tidy (mode : Mode) (items : List Item) : Tidy src (package mode items) := by
  unfold package
  split
  · exact .pure _
  · exact .fail _

theorem closeParagraph_sourced (items : List Item) (within : Nest) :
    Sourced src (closeParagraph items within) := by
  unfold closeParagraph
  split
  · exact goOn_sourced _
  · exact .bind (package_tidy _ _) fun _ => goOn_sourced _

theorem closeGroup_sourced (mode : Mode) (items : List Item) (within : Nest) :
    Sourced src (closeGroup mode items within) :=
  .bind (package_tidy _ _) fun _ => goOn_sourced _

theorem openParagraph_sourced {t : Lexeme} (ht : StandIn src [t]) (nest : Nest) :
    Sourced src (openParagraph t nest) := .bind (back_tidy ht) fun _ => goOn_sourced _

theorem interword_sourced (face : Typeface) (nest : Nest) : Sourced src (interword face nest) :=
  .bind (ofGlyph_tidy _) fun _ => goOn_sourced _

theorem letter_sourced (face : Typeface) (c : Char) (nest : Nest) :
    Sourced src (letter face c nest) := .bind (ofGlyph_tidy _) fun _ => goOn_sourced _

theorem endGroup_sourced {t : Lexeme} (ht : StandIn src [t]) (nest : Nest) :
    Sourced src (endGroup t nest) := by
  cases nest with
  | outer mode items => exact fault_sourced _
  | group mode items within => exact closeGroup_sourced _ _ _
  | paragraph items within => exact .bind (back_tidy ht) fun _ => closeParagraph_sourced _ _

theorem character_sourced (face : Typeface) {t : Lexeme} (ht : StandIn src [t]) (c : Char)
    (cat : Category) (nest : Nest) : Sourced src (character face t c cat nest) := by
  unfold character
  split
  · exact endGroup_sourced ht nest
  · exact goOn_sourced _
  · split
    · exact openParagraph_sourced ht nest
    · exact letter_sourced face c nest
  · split
    · exact openParagraph_sourced ht nest
    · exact letter_sourced face c nest
  · split
    · exact goOn_sourced _
    · exact interword_sourced _ _
  · exact fault_sourced _
  · exact fault_sourced _

theorem define_sourced (nest : Nest) : Sourced src (define nest) := by
  refine .after nextRaw_brings fun t _ => ?_
  cases t with
  | none => exact fault_sourced _
  | some t =>
    dsimp only
    split
    · intro post hpost ts hts
      rcases hr : Consumer.run Definition.read ts with ⟨f | d, rest⟩
      · trivial
      · refine hpost _ () fun name d' hd => ?_
        cases hd
        exact hts.subset (Definition.subset_of_read hr)
    · exact fault_sourced _

theorem categorize_sourced (nest : Nest) : Sourced src (categorize nest) := by
  refine .bind Quantity.int_tidy fun code => ?_
  split
  · refine .bind Quantity.optionalEquals_tidy fun _ => .bind Quantity.int_tidy fun value => ?_
    split
    · split
      · exact Reader.Brings.pure fun _ _ => nofun
      · exact .fail _
      · exact .fail _
    · exact fault_sourced _
  · exact fault_sourced _

theorem openBox_sourced (mode : Mode) (nest : Nest) : Sourced src (openBox mode nest) := by
  refine .bind (.loop (fun _ => .after Quantity.nonBlank_brings fun _ _ => .pure _) ())
    fun t => ?_
  split
  · exact goOn_sourced _
  · exact fault_sourced _

theorem ruleStep_tidy (r : Rule) : Tidy src (ruleStep r) := by
  have dimension (set : Dimension → Rule) : Tidy src (do
      let d ← Quantity.dimension
      return Turn.again (set d) : Scan (Turn Rule Rule)) :=
    .bind Quantity.dimension_tidy fun _ => .pure _
  refine .bind (Quantity.keyword_tidy _) fun _ => ?_
  split
  · exact dimension _
  · refine .bind (Quantity.keyword_tidy _) fun _ => ?_
    split
    · exact dimension _
    · refine .bind (Quantity.keyword_tidy _) fun _ => ?_
      split
      · exact dimension _
      · exact .pure _

theorem rule_sourced (nest : Nest) : Sourced src (rule nest) :=
  .bind (.loop (fun r => ruleStep_tidy r) _) fun _ => goOn_sourced _

theorem skip_sourced (nest : Nest) : Sourced src (skip nest) :=
  .bind Quantity.glue_tidy fun _ => goOn_sourced _

theorem primitive_sourced (face : Typeface) (name : String) (nest : Nest) :
    Sourced src (primitive face name nest) := by
  unfold primitive
  split
  · exact goOn_sourced _
  · exact define_sourced _
  · exact categorize_sourced _
  · exact skip_sourced _
  · exact skip_sourced _
  · exact openBox_sourced _ _
  · exact openBox_sourced _ _
  · exact rule_sourced _
  · exact rule_sourced _
  · exact interword_sourced _ _
  · exact fault_sourced _

theorem control_sourced (face : Typeface) {t : Lexeme} (ht : StandIn src [t]) (name : String)
    (nest : Nest) : Sourced src (control face t name nest) := by
  unfold control
  split
  · cases nest with
    | paragraph items within => exact closeParagraph_sourced _ _
    | outer mode items => exact goOn_sourced _
    | group mode items within => exact goOn_sourced _
  · split
    · exact openParagraph_sourced ht _
    · split
      · cases nest with
        | paragraph items within => exact .bind (back_tidy ht) fun _ => closeParagraph_sourced _ _
        | outer mode items => exact fault_sourced _
        | group mode items within => exact fault_sourced _
      · exact primitive_sourced _ _ _

theorem atEnd_sourced (nest : Nest) : Sourced src (atEnd nest) := by
  cases nest with
  | outer mode items => exact Reader.Brings.pure fun _ _ => nofun
  | group mode items within => exact fault_sourced _
  | paragraph items within => exact closeParagraph_sourced _ _

theorem step_sourced (face : Typeface) (nest : Nest) : Sourced src (step face nest) := by
  refine .after next_brings fun t ht => ?_
  cases t with
  | none => exact atEnd_sourced _
  | some t =>
    dsimp only
    split
    · exact character_sourced face ht _ _ nest
    · exact control_sourced face ht _ nest

end Build

/-! ## Runs -/

namespace Machine

variable {src : Source} {m : Machine}

theorem Traced.assign (h : m.Traced src) {e : Build.Effect} (he : e.DefinesRead src) :
    Traced src ⟨e.assignment.elim m.tables m.tables.assign, m.input⟩ := by
  cases ha : e.assignment with
  | none => exact h
  | some a =>
    cases a with
    | categorize code cat => exact { h with }
    | define name d =>
      refine { h with definitions := fun t d' hd => ?_ }
      rw [Option.elim, Tables.meaning?_define] at hd
      split at hd
      · injection hd with hd
        exact hd ▸ he name d ha
      · exact h.definitions t d' hd

theorem turn_traced (face : Typeface) (rounds : Nat) (nest : Nest) (h : m.Traced src)
    (hscan : ∀ m' ∈ m.turnReadings face rounds nest, m'.ScansIn src) :
    (m.turn face rounds nest).Ensures (fun _ m => m.Traced src) (BlamedIn src) := by
  have hs : ((Build.step face nest).run (handler m.tables rounds) rounds m.input).Ensures
      (fun e j => ∃ _ : Unit, Traced src ⟨m.tables, j⟩ ∧ e.DefinesRead src)
      (fun f j => BlamedIn src f ⟨m.tables, j⟩) :=
    Reader.run_wp_passing (h := ⟨handler m.tables rounds, Request.readings m.tables rounds⟩)
      (fun j => ScansIn src ⟨m.tables, j⟩) (Request.answer_traced rounds)
      (fun c j _ hj _ => ⟨hj, hj.last⟩) rounds (Build.step face nest) h
      (fun j hj => hscan _ (List.mem_map_of_mem hj))
      (Build.step_sourced face nest _ fun _ _ he => he)
  unfold turn
  split
  · rename_i e j ho
    rw [ho] at hs
    obtain ⟨-, hj, he⟩ := hs
    exact hj.assign he
  · rename_i f j ho
    rw [ho] at hs
    exact hs
  · trivial

end Machine

namespace Position

/-- The place of a character of the lines or of the end of one; the first place of all counts as
one even if there are no lines. -/
def Within (lines : List String) (p : Position) : Prop :=
  1 ≤ p.line ∧ p.line ≤ max 1 lines.length ∧ 1 ≤ p.column ∧
    p.column ≤ (lines.getD (p.line - 1) "").length + 1

theorem first_within (lines : List String) : Within lines ⟨1, 1⟩ :=
  ⟨Nat.le_refl 1, Nat.le_max_left 1 _, Nat.le_refl 1, Nat.succ_le_succ (Nat.zero_le _)⟩

theorem LiesIn.within {lines : List String} {p : Position} (h : p.LiesIn lines 1) :
    p.Within lines := by
  obtain ⟨line, hpos, hline, hcol, hle⟩ := h
  obtain ⟨hlt, -⟩ := List.getElem?_eq_some_iff.mp hline
  refine ⟨hpos, by omega, hcol, ?_⟩
  rw [List.getD_eq_getElem?_getD, hline]
  exact hle

end Position

namespace Engine

variable {src : Source} {e : Engine}

/-- A run over a source, of which it scans the places, fails at one of these or at the first place
of all. -/
theorem run_traced (rounds : Nat) (mode : Mode) (h : e.machine.Traced src)
    (hscan : ∀ m ∈ e.readings rounds mode, m.ScansIn src) :
    (e.run rounds mode).Ensures (fun _ after => after.machine.Traced src)
      (fun f after => after.machine.BlamedIn src f) := by
  have hb : (e.machine.build e.face rounds mode).Ensures (fun _ m => m.Traced src)
      (Machine.BlamedIn src) := by
    refine iterate_ensures_passing (Machine.ScansIn src) (Machine.turnReadings e.face rounds)
      (fun _ m => m.Traced src) (fun nest m hm hin => ?_) rounds h hscan
    refine (Machine.turn_traced e.face rounds nest hm hin).mono (fun turn m hm => ?_)
      fun _ _ hf => hf
    cases turn with
    | again nest => exact hm
    | finish list => exact hm
  unfold run
  split
  · rename_i list m ho
    rw [ho] at hb
    exact hb
  · rename_i f m ho
    rw [ho] at hb
    exact hb
  · trivial

/-- What is scanned of the lines in a run under fresh tables. -/
def sourceOf (rounds : Nat) (mode : Mode) (config : Config) (metrics : Metrics)
    (lines : List String) : Source where
  lines := lines
  ending := 1
  scanned p := p.LiesIn lines 1 ∧
    ∃ m ∈ (start config metrics {} lines).readings rounds mode, m.Scans lines p

theorem start_traced (rounds : Nat) (mode : Mode) (config : Config) (metrics : Metrics)
    (lines : List String) :
    (start config metrics {} lines).machine.Traced (sourceOf rounds mode config metrics lines) := by
  have hending : "\r".length = 1 := by decide
  refine ⟨rfl, hending, ⟨rfl, Or.inl rfl⟩, .nil, Or.inl rfl, fun t d hd => ?_⟩
  cases (Tables.meaning?_fresh t).symm.trans hd

theorem place_of_run {config : Config} {metrics : Metrics} {lines : List String} {mode : Mode}
    {rounds : Nat} {f : Fault} {e : Engine}
    (h : (start config metrics {} lines).run rounds mode = .failed f e) :
    e.lines = lines ∧ f.place.Within lines ∧ (f.place = ⟨1, 1⟩ ∨
      ∃ m ∈ (start config metrics {} lines).readings rounds mode, m.Scans lines f.place) := by
  have ht := run_traced rounds mode (start_traced rounds mode config metrics lines)
    fun m hm p hp hl => ⟨hl, m, hm, hp⟩
  rw [h] at ht
  refine ⟨ht.traced.lines_eq, ?_⟩
  rcases ht.place with hfirst | ⟨hlies, hscanned⟩
  · exact ⟨hfirst ▸ Position.first_within lines, Or.inl hfirst⟩
  · exact ⟨hlies.within, Or.inr hscanned⟩

end Engine

namespace Diagnostic

/-- A diagnostic tells of the fault in which the run of the text ends. -/
theorem exists_of_mem {rounds : Nat} {text : String} {ds : List Diagnostic} {d : Diagnostic}
    (h : ofText? rounds text = some ds) (hd : d ∈ ds) :
    ∃ f e, (Engine.start {} (Engine.usualMetrics {}) {} (Text.linesOf text)).run rounds .vertical =
      .failed f e ∧ d = ofFault f := by
  unfold ofText? at h
  dsimp only at h
  split at h
  · cases h
    cases hd
  · rename_i f e hf
    cases h
    exact ⟨f, e, hf, List.mem_singleton.mp hd⟩
  · cases h

/-- Counted from zero, a place within the lines is one of a character or of the end of its line. -/
theorem ofFault_within {lines : List String} {f : Fault} (h : f.place.Within lines) :
    0 ≤ (ofFault f).line ∧ (ofFault f).line < max 1 lines.length ∧ 0 ≤ (ofFault f).character ∧
      (ofFault f).character ≤ (lines.getD (ofFault f).line.toNat "").length := by
  obtain ⟨hline, hlines, hcolumn, hle⟩ := h
  have hindex : ((f.place.line : Int) - 1).toNat = f.place.line - 1 := by omega
  simp only [ofFault, hindex]
  exact ⟨by omega, by omega, by omega, by omega⟩

end Diagnostic

namespace Engine

/-- Every fault of a run under fresh tables is blamed on the first place of all or on one where the
run scans a token or an invalid character of the lines, under the tables that it has then, however
the token at fault came to be read: both lie in the lines. So every diagnostic of a text begins at a
line of it and at a character of that line or at its end. -/
theorem run_blames :
    (∀ (config : Config) (metrics : Metrics) (lines : List String) (mode : Mode) (rounds : Nat)
      (f : Fault) (e : Engine),
      (start config metrics {} lines).run rounds mode = .failed f e →
        (f.place = ⟨1, 1⟩ ∨
          ∃ m ∈ (start config metrics {} lines).readings rounds mode, m.Scans lines f.place) ∧
        f.place.Within lines) ∧
    ∀ (rounds : Nat) (text : String) (ds : List Diagnostic) (d : Diagnostic),
      Diagnostic.ofText? rounds text = some ds → d ∈ ds →
        0 ≤ d.line ∧ d.line < max 1 (Text.linesOf text).length ∧ 0 ≤ d.character ∧
          d.character ≤ ((Text.linesOf text).getD d.line.toNat "").length := by
  constructor
  · intro config metrics lines mode rounds f e h
    obtain ⟨-, hwithin, hplace⟩ := place_of_run h
    exact ⟨hplace, hwithin⟩
  · intro rounds text ds d hds hd
    obtain ⟨f, e, hf, rfl⟩ := Diagnostic.exists_of_mem hds hd
    exact Diagnostic.ofFault_within (place_of_run hf).2.1

/-- A control sequence that stands for an undefined one, called behind a branch that is skipped. -/
def brokenCall : String := "\\def\\a\x7b\\b\x7d\n\\iffalse x\\fi\\a"

theorem run_blames_definition :
    ∃ f e d, (start {} (usualMetrics {}) {} (Text.linesOf brokenCall)).run 60 .vertical =
        .failed f e ∧
      f.place = ⟨1, 8⟩ ∧ f.place.Within (Text.linesOf brokenCall) ∧
      (∃ m ∈ (start {} (usualMetrics {}) {} (Text.linesOf brokenCall)).readings 60 .vertical,
        m.Scans (Text.linesOf brokenCall) ⟨1, 8⟩) ∧
      Diagnostic.ofText? 60 brokenCall = some [d] ∧
      d.character ≤ ((Text.linesOf brokenCall).getD d.line.toNat "").length := by
  obtain ⟨f, e, hf, hplace⟩ : ∃ f e,
      (start {} (usualMetrics {}) {} (Text.linesOf brokenCall)).run 60 .vertical = .failed f e ∧
        f.place = ⟨1, 8⟩ := Outcome.exists_failed_of_failedBy (by decide +kernel)
  obtain ⟨d, hd⟩ : ∃ d, Diagnostic.ofText? 60 brokenCall = some [d] :=
    ⟨.ofFault f, by simp only [Diagnostic.ofText?, hf]⟩
  obtain ⟨hscanned, hwithin⟩ := run_blames.1 {} (usualMetrics {}) (Text.linesOf brokenCall)
    .vertical 60 f e hf
  have hends := run_blames.2 60 brokenCall [d] d hd List.mem_cons_self
  refine ⟨f, e, d, hf, hplace, hwithin, ?_, hd, hends.2.2.2⟩
  rw [hplace] at hscanned
  exact hscanned.resolve_left (by decide)

/-- A control word is scanned where it begins, and nowhere within it. -/
example : ((List.range 5).filter fun column =>
    ((start {} (usualMetrics {}) {} ["\\abc"]).readings 9 .vertical).any fun m =>
      decide (m.Scans ["\\abc"] ⟨1, column⟩)) = [1] := by
  decide +kernel

end Engine

end Galley
