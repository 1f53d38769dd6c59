import Galley.Engine
import Galley.Proofs.ReaderLogic

/-!
Well-formed lists. Whatever a run builds, every list of it holds what its mode allows, at every
depth: characters in horizontal lists alone, with the font and the extent of the face, rules of the
size that the list cannot lend them, and boxes that have a size. As long as no `\hbox` is executed,
the horizontal boxes of a vertical list are paragraphs, which end in something else than glue.

The face is any table of metrics with any font. A run asks for the extents of finitely many
characters and for one glue, so a table can give all the answers that other metrics would.
-/

namespace Galley

/-! ## Lists within lists -/

/-- The list itself, or a list boxed in it at any depth. -/
inductive Composed.Within : Composed → Composed → Prop
  | refl (list : Composed) : Within list list
  | box {list outer : Composed} {mode : Mode} {items : List Item}
    (h : Item.box mode items ∈ outer.items) (within : Within outer list) :
    Within ⟨mode, items⟩ list

/-- A rule may run along its list only: upright in a horizontal one, across in a vertical one. -/
def Rule.Fits (r : Rule) : Mode → Prop
  | .horizontal => r.width.isSome
  | .vertical => r.height.isSome ∧ r.depth.isSome

/-- The items of one list are such as belong there. -/
structure Composed.Sound (face : Typeface) (list : Composed) : Prop where
  chars : ∀ text font e, .char text font e ∈ list.items →
    list.mode = .horizontal ∧ font = face.font ∧ face.metrics.extentOf face.font text = .ok e
  rules : ∀ r, .rule r ∈ list.items → r.Fits list.mode
  boxes : ∀ mode items, .box mode items ∈ list.items →
    (Item.width? mode items).isSome ∧ (Item.height? mode items).isSome ∧
      (Item.depth? mode items).isSome

/-- There is a last item, and it is no glue. -/
def EndsSolid (items : List Item) : Prop := ∃ i, items.getLast? = some i ∧ i.isGlue = false

/-- The horizontal boxes of a vertical list end in something else than glue. -/
def Composed.Filled (list : Composed) : Prop :=
  ∀ items, list.mode = .vertical → .box .horizontal items ∈ list.items → EndsSolid items

/-! ## Items that fit -/

/-- An item fits into a list of a mode, and so does all that is boxed in it. If no `\hbox` has been
executed (`boxed`), a horizontal box in a vertical list is a paragraph. -/
inductive Item.Fits (face : Typeface) (boxed : Prop) : Mode → Item → Prop
  | char {text : String} {e : Extent} (h : face.metrics.extentOf face.font text = .ok e) :
    Fits face boxed .horizontal (.char text face.font e)
  | rule {mode : Mode} {r : Rule} (h : r.Fits mode) : Fits face boxed mode (.rule r)
  | glue {mode : Mode} (g : Glue) : Fits face boxed mode (.glue g)
  | box {mode inner : Mode} {items : List Item} (size : (Item.extent? inner items).isSome)
    (solid : mode = .vertical → inner = .horizontal → boxed ∨ EndsSolid items)
    (fits : ∀ i ∈ items, Fits face boxed inner i) : Fits face boxed mode (.box inner items)

namespace Item

variable {face : Typeface} {boxed : Prop} {mode inner : Mode} {items : List Item}

theorem exists_sizes_of_extent (h : (extent? mode items).isSome) :
    ∃ sizes w t, sizes? items = some sizes ∧ Size.width? mode sizes = some w ∧
      Size.height? mode sizes = some t := by
  obtain ⟨e, he⟩ := Option.isSome_iff_exists.mp h
  simp only [extent?, Size.extent?, Option.bind_eq_bind, Option.bind_eq_some_iff] at he
  obtain ⟨sizes, hs, w, hw, t, ht, -⟩ := he
  exact ⟨sizes, w, t, hs, hw, ht⟩

theorem size?_isSome_of_mem {sizes : List Size} (h : sizes? items = some sizes) {i : Item}
    (hi : i ∈ items) : i.size?.isSome := by
  induction items generalizing sizes with
  | nil => cases hi
  | cons j items ih =>
    simp only [sizes?, Option.bind_eq_bind, Option.bind_eq_some_iff] at h
    obtain ⟨s, hs, more, hm, -⟩ := h
    rcases List.mem_cons.mp hi with rfl | hi
    · exact Option.isSome_iff_exists.mpr ⟨s, hs⟩
    · exact ih hm hi

/-- A box whose size is in range has each of its three dimensions. -/
theorem dimensions_isSome (h : (extent? mode items).isSome) :
    (width? mode items).isSome ∧ (height? mode items).isSome ∧ (depth? mode items).isSome := by
  obtain ⟨sizes, w, t, hs, hw, ht⟩ := exists_sizes_of_extent h
  refine ⟨by simp [width?, hs, hw], by simp [height?, hs, ht], ?_⟩
  cases mode with
  | horizontal => simp [depth?, hs]
  | vertical =>
    unfold depth?
    cases hl : items.getLast? with
    | none => rfl
    | some i =>
      have hi := size?_isSome_of_mem hs (List.mem_of_getLast? hl)
      obtain ⟨s, hs⟩ := Option.isSome_iff_exists.mp hi
      simp [hs]

theorem dumpAll?_isSome (level : Nat) (h : ∀ i ∈ items, (i.dump? level).isSome) :
    (dumpAll? level items).isSome := by
  induction items with
  | nil => rfl
  | cons i items ih =>
    obtain ⟨hi, hmore⟩ := List.forall_mem_cons.mp h
    obtain ⟨lines, hl⟩ := Option.isSome_iff_exists.mp hi
    obtain ⟨more, hm⟩ := Option.isSome_iff_exists.mp (ih hmore)
    simp [dumpAll?, hl, hm]

theorem Fits.of_char {text font : String} {e : Extent}
    (h : Fits face boxed mode (.char text font e)) :
    mode = .horizontal ∧ font = face.font ∧ face.metrics.extentOf face.font text = .ok e := by
  cases h with
  | char h => exact ⟨rfl, rfl, h⟩

theorem Fits.of_rule {r : Rule} (h : Fits face boxed mode (.rule r)) : r.Fits mode := by
  cases h with
  | rule h => exact h

theorem Fits.of_box (h : Fits face boxed mode (.box inner items)) :
    (extent? inner items).isSome ∧
      (mode = .vertical → inner = .horizontal → boxed ∨ EndsSolid items) ∧
      ∀ i ∈ items, Fits face boxed inner i := by
  cases h with
  | box size solid fits => exact ⟨size, solid, fits⟩

theorem Fits.dump?_isSome {i : Item} (h : i.Fits face boxed mode) (level : Nat) :
    (i.dump? level).isSome := by
  induction h generalizing level with
  | char h => rfl
  | rule h => rfl
  | glue g => rfl
  | box size solid fits ih =>
    obtain ⟨e, he⟩ := Option.isSome_iff_exists.mp size
    have hall := dumpAll?_isSome (level + 1) fun i hi => ih i hi (level + 1)
    obtain ⟨lines, hl⟩ := Option.isSome_iff_exists.mp hall
    simp [dump?, he, hl]

end Item

namespace Composed

variable {face : Typeface} {boxed : Prop} {list inner : Composed}

/-- All items fit, at every depth. -/
def Fits (face : Typeface) (boxed : Prop) (list : Composed) : Prop :=
  ∀ i ∈ list.items, i.Fits face boxed list.mode

theorem Fits.within (h : list.Fits face boxed) (hi : inner.Within list) :
    inner.Fits face boxed := by
  induction hi with
  | refl list => exact h
  | box hbox within ih =>
    obtain ⟨-, -, hfits⟩ := (ih h _ hbox).of_box
    exact hfits

theorem Fits.sound (h : list.Fits face boxed) : list.Sound face where
  chars _ _ _ hc := (h _ hc).of_char
  rules _ hr := (h _ hr).of_rule
  boxes _ _ hb := Item.dimensions_isSome (h _ hb).of_box.1

theorem Fits.filled (h : list.Fits face boxed) (hn : ¬ boxed) : list.Filled := by
  intro items hv hb
  obtain ⟨-, hsolid, -⟩ := (h _ hb).of_box
  exact (hsolid hv rfl).resolve_left hn

theorem Fits.dump?_isSome (h : list.Fits face boxed) : list.dump?.isSome := by
  have hall := Item.dumpAll?_isSome 1 fun i hi => (h i hi).dump?_isSome 1
  obtain ⟨lines, hl⟩ := Option.isSome_iff_exists.mp hall
  simp [dump?, hl]

end Composed

/-! ## The nest -/

/-- The items of all lists under construction fit, and the outermost list is of this mode. -/
def Nest.Fits (face : Typeface) (boxed : Prop) (outermost : Mode) : Nest → Prop
  | outer mode items => mode = outermost ∧ ∀ i ∈ items, i.Fits face boxed mode
  | group mode items within => (∀ i ∈ items, i.Fits face boxed mode) ∧
    (within.mode = .vertical → mode = .horizontal → boxed) ∧ within.Fits face boxed outermost
  | paragraph items within =>
    (∀ i ∈ items, i.Fits face boxed .horizontal) ∧ within.Fits face boxed outermost

theorem Nest.Fits.add {face : Typeface} {boxed : Prop} {outermost : Mode} {nest : Nest} {i : Item}
    (h : nest.Fits face boxed outermost) (hi : i.Fits face boxed nest.mode) :
    (nest.add i).Fits face boxed outermost := by
  cases nest with
  | outer mode items => exact ⟨h.1, List.forall_mem_cons.mpr ⟨hi, h.2⟩⟩
  | group mode items within => exact ⟨List.forall_mem_cons.mpr ⟨hi, h.1⟩, h.2⟩
  | paragraph items within => exact ⟨List.forall_mem_cons.mpr ⟨hi, h.1⟩, h.2⟩

/-! ## The builder -/

/-- Nothing is known of the answers. -/
def Request.anything : Promises Request Unit := fun _ post u => ∀ a, post a u

theorem Scan.safe_anything {α : Type} (r : Scan α) :
    Reader.Safe Request.anything (fun _ => True) r := by
  induction r with
  | pure a => exact .pure a
  | bind r k ihr ihk => exact Reader.Safe.bind ihr ihk
  | ask q => exact fun post u h a => h a u
  | fail c => exact .fail trivial
  | loop body t ih => exact .loop ih t

/-- What holds whatever is answered, holds of a run. -/
theorem Scan.ensures_of_anything {α : Type} {r : Scan α} {post : α → Unit → Prop}
    (h : r.wp Request.anything (fun _ => True) post ()) (tables : Tables) (rounds : Nat)
    (i : Input) : (r.run (handler tables rounds) rounds i).Ensures (fun a _ => post a ())
      (fun _ _ => True) := by
  have hr : (r.run (handler tables rounds) rounds i).Ensures
      (fun a _ => ∃ u, True ∧ post a u) (fun _ _ => True) :=
    Reader.run_wp (h := handler tables rounds)
      (fun q post s u (_ : True) hq => by
        cases (handler tables rounds).answer q s with
        | done a j => exact ⟨u, trivial, hq a⟩
        | failed f j => trivial
        | unfinished => trivial)
      (fun _ _ _ _ _ => trivial) rounds r trivial h
  exact hr.mono (fun _ _ ⟨_, _, he⟩ => he) fun _ _ _ => trivial

namespace Build

variable {face : Typeface} {boxed : Prop} {outermost : Mode} {nest within : Nest}
  {items : List Item}

/-- A command that goes on with fitting lists, or ends the outermost one. -/
def Effect.Fits (face : Typeface) (boxed : Prop) (outermost : Mode) (e : Effect) : Prop :=
  e.turn.Holds (Nest.Fits face boxed outermost)
    (fun list => list.mode = outermost ∧ list.Fits face boxed)

/-- Whatever it is answered, the command comes to fitting lists, or it fails. -/
def Builds (face : Typeface) (boxed : Prop) (outermost : Mode) (r : Step) : Prop :=
  r.wp Request.anything (fun _ => True) (fun e _ => e.Fits face boxed outermost) ()

theorem builds_bind {α : Type} {r : Scan α} {k : α → Step}
    (h : ∀ a, Builds face boxed outermost (k a)) : Builds face boxed outermost (r >>= k) :=
  Scan.safe_anything r _ () fun a _ => h a

theorem fault_builds (f : BuildFault) : Builds face boxed outermost (fault f) := trivial

theorem goOn_builds (h : nest.Fits face boxed outermost) :
    Builds face boxed outermost (goOn nest) := h

/-- A box is made only of items whose size is in range. -/
theorem package_builds {mode : Mode} {k : Item → Step}
    (h : (Item.extent? mode items).isSome → Builds face boxed outermost (k (.box mode items))) :
    Builds face boxed outermost (package mode items >>= k) := by
  rw [Builds, Reader.wp_bind, package]
  split
  · rename_i e he
    exact h (Option.isSome_iff_exists.mpr ⟨e, he⟩)
  · trivial

theorem closeParagraph_builds (h : (Nest.paragraph items within).Fits face boxed outermost) :
    Builds face boxed outermost (closeParagraph items within) := by
  obtain ⟨hitems, hwithin⟩ := h
  unfold closeParagraph
  split
  · exact goOn_builds hwithin
  · rename_i hne
    refine package_builds fun hsize => goOn_builds (hwithin.add (.box hsize ?_ ?_))
    · intro _ _
      right
      -- the first item that is kept comes last in the finished list
      cases hk : items.dropWhile Item.isGlue with
      | nil => exact absurd hk hne
      | cons i kept =>
        refine ⟨i, by simp, ?_⟩
        have hhead := List.head_dropWhile_not Item.isGlue (l := items) (by simp [hk])
        simpa [hk] using hhead
    · intro i hi
      exact hitems i ((List.dropWhile_suffix _).mem (List.mem_reverse.mp hi))

theorem closeGroup_builds {mode : Mode}
    (h : (Nest.group mode items within).Fits face boxed outermost) :
    Builds face boxed outermost (closeGroup mode items within) := by
  obtain ⟨hitems, hmode, hwithin⟩ := h
  refine package_builds fun hsize => goOn_builds (hwithin.add (.box hsize ?_ ?_))
  · intro hv hh
    exact Or.inl (hmode hv hh)
  · intro i hi
    exact hitems i (List.mem_reverse.mp hi)

theorem paragraph_fits (h : nest.Fits face boxed outermost) :
    (Nest.paragraph [] nest).Fits face boxed outermost := ⟨nofun, h⟩

theorem openParagraph_builds (t : Lexeme) (h : nest.Fits face boxed outermost) :
    Builds face boxed outermost (openParagraph t nest) :=
  builds_bind fun _ => goOn_builds (paragraph_fits h)

theorem group_fits {mode : Mode} (h : nest.Fits face boxed outermost)
    (hm : nest.mode = .vertical → mode = .horizontal → boxed) :
    (Nest.group mode [] nest).Fits face boxed outermost := ⟨nofun, hm, h⟩

theorem interword_builds (h : nest.Fits face boxed outermost) :
    Builds face boxed outermost (interword face nest) :=
  builds_bind fun g => goOn_builds (h.add (.glue g))

theorem letter_builds (c : Char) (h : nest.Fits face boxed outermost)
    (hm : nest.mode = .horizontal) : Builds face boxed outermost (letter face c nest) := by
  rw [Builds, letter, Reader.wp_bind]
  cases he : face.metrics.extentOf face.font (String.singleton c) with
  | error e => trivial
  | ok e => exact h.add (hm ▸ .char he)

theorem endGroup_builds (t : Lexeme) (h : nest.Fits face boxed outermost) :
    Builds face boxed outermost (endGroup t nest) := by
  cases nest with
  | outer mode items => exact fault_builds _
  | group mode items within => exact closeGroup_builds h
  | paragraph items within => exact builds_bind fun _ => closeParagraph_builds h

theorem character_builds (t : Lexeme) (c : Char) (cat : Category)
    (h : nest.Fits face boxed outermost) :
    Builds face boxed outermost (character face t c cat nest) := by
  have hglyph (hc : cat = .letter ∨ cat = .other) :
      Builds face boxed outermost (character face t c cat nest) := by
    rcases hc with rfl | rfl
    all_goals
      unfold character
      cases hm : nest.mode with
      | vertical => exact openParagraph_builds t h
      | horizontal => exact letter_builds c h hm
  cases cat with
  | endGroup => exact endGroup_builds t h
  | beginGroup =>
    refine goOn_builds (group_fits h fun hv hh => ?_)
    rw [hv] at hh
    cases hh
  | letter => exact hglyph (Or.inl rfl)
  | other => exact hglyph (Or.inr rfl)
  | space =>
    unfold character
    cases nest.mode with
    | vertical => exact goOn_builds h
    | horizontal => exact interword_builds h
  | _ => exact fault_builds _

theorem define_builds (h : nest.Fits face boxed outermost) :
    Builds face boxed outermost (define nest) := by
  refine builds_bind fun t => ?_
  cases t with
  | none => exact fault_builds _
  | some t =>
    dsimp only
    split
    · refine builds_bind fun d => ?_
      cases d with
      | ok d => exact h
      | error f => trivial
    · exact fault_builds _

theorem categorize_builds (h : nest.Fits face boxed outermost) :
    Builds face boxed outermost (categorize nest) := by
  refine builds_bind fun code => ?_
  split
  · refine builds_bind fun _ => builds_bind fun value => ?_
    split
    · split
      · exact h
      · trivial
      · trivial
    · exact fault_builds _
  · exact fault_builds _

theorem openBox_builds (mode : Mode) (h : nest.Fits face boxed outermost)
    (hm : nest.mode = .vertical → mode = .horizontal → boxed) :
    Builds face boxed outermost (openBox mode nest) := by
  refine builds_bind fun t => ?_
  split
  · exact goOn_builds (group_fits h hm)
  · exact fault_builds _

/-! ## Rules -/

theorem usual_fits (mode : Mode) : (Rule.usual mode).Fits mode := by
  cases mode with
  | horizontal => rfl
  | vertical => exact ⟨rfl, rfl⟩

/-- A dimension that is given is no running one. -/
theorem ruleStep_wp {mode : Mode} {r : Rule} {post : Turn Rule Rule → Unit → Prop}
    (h : r.Fits mode) (hagain : ∀ r : Rule, r.Fits mode → post (.again r) ())
    (hfinish : ∀ r : Rule, r.Fits mode → post (.finish r) ()) :
    (ruleStep r).wp Request.anything (fun _ => True) post () := by
  have given : ∀ set : Dimension → Rule, (∀ d, (set d).Fits mode) → Reader.wp Request.anything
      (fun _ => True) (do
        let d ← Quantity.dimension
        return Turn.again (set d) : Scan (Turn Rule Rule)) post () :=
    fun _ hset => Scan.safe_anything Quantity.dimension _ () fun d _ => hagain _ (hset d)
  refine Scan.safe_anything (Quantity.keyword _) _ () fun width _ => ?_
  dsimp only
  split
  · refine given _ fun d => ?_
    cases mode with
    | horizontal => rfl
    | vertical => exact h
  · refine Scan.safe_anything (Quantity.keyword _) _ () fun height _ => ?_
    dsimp only
    split
    · refine given _ fun d => ?_
      cases mode with
      | horizontal => exact h
      | vertical => exact ⟨rfl, h.2⟩
    · refine Scan.safe_anything (Quantity.keyword _) _ () fun depth _ => ?_
      dsimp only
      split
      · refine given _ fun d => ?_
        cases mode with
        | horizontal => exact h
        | vertical => exact ⟨h.1, rfl⟩
      · exact hfinish r h

theorem rule_builds (h : nest.Fits face boxed outermost) :
    Builds face boxed outermost (rule nest) := by
  refine Reader.wp_loop (fun r _ => r.Fits nest.mode) (fun r _ hr => ?_) (usual_fits nest.mode)
  apply ruleStep_wp hr
  · intro r hr
    exact hr
  · intro r hr
    exact goOn_builds (h.add (.rule hr))

theorem skip_builds (h : nest.Fits face boxed outermost) :
    Builds face boxed outermost (skip nest) :=
  builds_bind fun g => goOn_builds (h.add (.glue g))

/-! ## Commands -/

theorem primitive_builds (name : String) (h : nest.Fits face boxed outermost)
    (hbox : name = "hbox" → boxed) : Builds face boxed outermost (primitive face name nest) := by
  unfold primitive
  split
  · exact goOn_builds h
  · exact define_builds h
  · exact categorize_builds h
  · exact skip_builds h
  · exact skip_builds h
  · exact openBox_builds _ h fun _ _ => hbox rfl
  · exact openBox_builds _ h fun _ => nofun
  · exact rule_builds h
  · exact rule_builds h
  · exact interword_builds h
  · exact fault_builds _

theorem control_builds (t : Lexeme) (name : String) (h : nest.Fits face boxed outermost)
    (hbox : name = "hbox" → boxed) : Builds face boxed outermost (control face t name nest) := by
  unfold control
  split
  · cases nest with
    | paragraph items within => exact closeParagraph_builds h
    | outer mode items => exact goOn_builds h
    | group mode items within => exact goOn_builds h
  · split
    · exact openParagraph_builds t h
    · split
      · cases nest with
        | paragraph items within => exact builds_bind fun _ => closeParagraph_builds h
        | outer mode items => exact fault_builds _
        | group mode items within => exact fault_builds _
      · exact primitive_builds name h hbox

theorem atEnd_builds (h : nest.Fits face boxed outermost) :
    Builds face boxed outermost (atEnd nest) := by
  cases nest with
  | outer mode items => exact ⟨h.1, fun i hi => h.2 i (List.mem_reverse.mp hi)⟩
  | group mode items within => exact fault_builds _
  | paragraph items within => exact closeParagraph_builds h

/-- What a command does with its first token. -/
def onToken (face : Typeface) (nest : Nest) : Option Lexeme → Step
  | none => atEnd nest
  | some t =>
    match t.token with
    | .ch c cat => character face t c cat nest
    | .cs name => control face t name nest

theorem onToken_builds {t : Option Lexeme} (h : nest.Fits face boxed outermost)
    (hbox : t.map (·.token) = some (.cs "hbox") → boxed) :
    Builds face boxed outermost (onToken face nest t) := by
  cases t with
  | none => exact atEnd_builds h
  | some t =>
    unfold onToken
    dsimp only
    split
    · exact character_builds _ _ _ h
    · rename_i name ht
      refine control_builds t name h fun hn => hbox ?_
      rw [Option.map_some, ht, hn]

end Build

/-! ## Whole runs -/

namespace Machine

/-- The token with which the next command begins. -/
def command? (rounds : Nat) (m : Machine) : Option Token :=
  match m.input.nextExpanded m.tables rounds with
  | .done t _ => t.map (·.token)
  | _ => none

/-- The first tokens of the commands that a run executes, in that order. A token that is put back,
such as a letter that begins a paragraph, counts once more when it is read again. -/
def commandsFrom (face : Typeface) (rounds : Nat) : Nat → Nest → Machine → List Token
  | 0, _, _ => []
  | n + 1, nest, m =>
    (m.command? rounds).toList ++
      match m.turn face rounds nest with
      | .done (.again nest) m => commandsFrom face rounds n nest m
      | _ => []

def commands (face : Typeface) (rounds : Nat) (mode : Mode) (m : Machine) : List Token :=
  commandsFrom face rounds rounds (.outer mode []) m

variable {face : Typeface} {boxed : Prop} {outermost : Mode} {nest : Nest} {m : Machine}

theorem turn_fits (rounds : Nat) (h : nest.Fits face boxed outermost)
    (hbox : m.command? rounds = some (.cs "hbox") → boxed) :
    (m.turn face rounds nest).Ensures
      (fun turn _ => turn.Holds (Nest.Fits face boxed outermost)
        (fun list => list.mode = outermost ∧ list.Fits face boxed)) (fun _ _ => True) := by
  have hrun : ((Build.step face nest).run (handler m.tables rounds) rounds m.input).Ensures
      (fun e _ => e.Fits face boxed outermost) (fun _ _ => True) := by
    change ((Scan.next >>= Build.onToken face nest).run (handler m.tables rounds) rounds
      m.input).Ensures _ _
    rw [Reader.run_bind]
    change ((m.input.nextExpanded m.tables rounds).andThen _).Ensures _ _
    cases hn : m.input.nextExpanded m.tables rounds with
    | failed f i => trivial
    | unfinished => trivial
    | done t i =>
      have hw : Build.Builds face boxed outermost (Build.onToken face nest t) := by
        refine Build.onToken_builds h fun ht => hbox ?_
        rw [command?, hn]
        exact ht
      exact Scan.ensures_of_anything hw m.tables rounds i
  unfold turn
  cases ho : (Build.step face nest).run (handler m.tables rounds) rounds m.input with
  | done e i =>
    rw [ho] at hrun
    exact hrun
  | failed f i => trivial
  | unfinished => trivial

theorem iterate_fits (rounds n : Nat) (h : nest.Fits face boxed outermost)
    (hbox : .cs "hbox" ∈ commandsFrom face rounds n nest m → boxed) :
    (iterate (turn face rounds) n nest m).Ensures
      (fun list _ => list.mode = outermost ∧ list.Fits face boxed) (fun _ _ => True) := by
  induction n generalizing nest m with
  | zero => trivial
  | succ n ih =>
    rw [commandsFrom] at hbox
    have hturn := turn_fits (m := m) rounds h fun hc => hbox (by simp [hc])
    rw [iterate_succ]
    cases ho : m.turn face rounds nest with
    | failed f m' => trivial
    | unfinished => trivial
    | done turn m' =>
      rw [ho] at hturn hbox
      cases turn with
      | finish list => exact hturn
      | again nest' => exact ih hturn fun hc => hbox (List.mem_append_right _ hc)

end Machine

namespace Engine

/-- The first tokens of the commands that a run executes. -/
def commands (rounds : Nat) (mode : Mode) (e : Engine) : List Token :=
  e.machine.commands e.face rounds mode

/-- A list that is built is of the mode asked for; it and all lists boxed in it hold what their
modes allow, so that all of it can be shown; and if no `\hbox` was executed, each horizontal box in
one of its vertical lists ends in something else than glue. -/
theorem run_wellFormed {e after : Engine} {rounds : Nat} {mode : Mode} {list : Composed}
    (h : e.run rounds mode = .done list after) :
    list.mode = mode ∧ (∀ inner : Composed, inner.Within list → inner.Sound e.face) ∧
      list.dump?.isSome ∧
      (.cs "hbox" ∉ e.commands rounds mode →
        ∀ inner : Composed, inner.Within list → inner.Filled) := by
  have hb : (e.machine.build e.face rounds mode).Ensures
      (fun list _ => list.mode = mode ∧ list.Fits e.face (.cs "hbox" ∈ e.commands rounds mode))
      (fun _ _ => True) :=
    Machine.iterate_fits rounds rounds ⟨rfl, nofun⟩ id
  unfold run at h
  cases ho : e.machine.build e.face rounds mode with
  | failed f m => simp [ho] at h
  | unfinished => simp [ho] at h
  | done built m =>
    simp only [ho, Outcome.done.injEq] at h
    obtain ⟨rfl, -⟩ := h
    rw [ho] at hb
    obtain ⟨hmode, hfits⟩ := hb
    exact ⟨hmode, fun inner hi => (hfits.within hi).sound, hfits.dump?_isSome,
      fun hn inner hi => (hfits.within hi).filled hn⟩

/-- A paragraph above a box that holds a rule and another paragraph. -/
def boxedLines : List String := ["a b", "", "\\vbox\x7b\\hrule c\\ \x7d"]

theorem run_wellFormed_of_lines :
    ∃ list after, (start {} (usualMetrics {}) {} boxedLines).run 60 .vertical = .done list after ∧
      .cs "hbox" ∉ (start {} (usualMetrics {}) {} boxedLines).commands 60 .vertical ∧
      list.dump?.isSome ∧ ∀ inner : Composed, inner.Within list →
        inner.Sound ⟨usualMetrics {}, "cmr10"⟩ ∧ inner.Filled := by
  have hr : ∃ list after, (start {} (usualMetrics {}) {} boxedLines).run 60 .vertical =
      .done list after ∧ True := Outcome.exists_done_of_yields (by decide +kernel)
  have hn : .cs "hbox" ∉ (start {} (usualMetrics {}) {} boxedLines).commands 60 .vertical := by
    decide +kernel
  obtain ⟨list, after, hr, -⟩ := hr
  obtain ⟨-, hsound, hdump, hfilled⟩ := run_wellFormed hr
  exact ⟨list, after, hr, hn, hdump, fun inner hi => ⟨hsound inner hi, hfilled hn inner hi⟩⟩

end Engine

end Galley
