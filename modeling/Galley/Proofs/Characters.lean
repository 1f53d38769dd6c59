import Galley.Engine
import Galley.Proofs.Balance
import Galley.Proofs.Remaining

/-!
The characters of running text. On text without commands that take arguments, the builder sets every
letter and every other character that expansion delivers once and in order, whatever lists it sets
them in, and its groups are those of the text.
-/

namespace Galley

/-! ## Characters of items and of tokens -/

namespace Item

mutual

/-- The texts of the characters, depth first. -/
def glyphs : Item → List String
  | .char text _ _ => [text]
  | .rule _ => []
  | .glue _ => []
  | .box _ items => glyphsAll items

def glyphsAll : List Item → List String
  | [] => []
  | i :: more => i.glyphs ++ glyphsAll more

end

theorem glyphsAll_append (items more : List Item) :
    glyphsAll (items ++ more) = glyphsAll items ++ glyphsAll more := by
  induction items with
  | nil => rfl
  | cons i items ih => simp [glyphsAll, ih]

/-- Dropped glue takes no characters with it. -/
theorem glyphsAll_dropGlue (items : List Item) :
    glyphsAll (items.dropWhile isGlue).reverse = glyphsAll items.reverse := by
  induction items with
  | nil => rfl
  | cons i items ih =>
    cases i with
    | glue g =>
      have hg : isGlue (.glue g) = true := rfl
      rw [List.dropWhile_cons_of_pos hg, ih]
      simp [glyphsAll_append, glyphsAll, glyphs]
    | char text font e => rfl
    | rule r => rfl
    | box mode items => rfl

end Item

/-- The text that a letter or an other character is set as. -/
def Token.letters : Token → List String
  | .ch c .letter => [String.singleton c]
  | .ch c .other => [String.singleton c]
  | _ => []

/-- The letters and other characters in order. -/
def letters (ts : List Lexeme) : List String := ts.flatMap (·.token.letters)

theorem letters_of_isBegin {t : Token} (h : t.isBegin = true) : t.letters = [] := by
  obtain ⟨c, rfl⟩ := Token.eq_ch_of_hasCategory h
  rfl

/-- Running text: no token that takes an argument. -/
def Token.Textual : Token → Prop
  | .cs name => name ∈ ["par", "relax", "hbox", "vbox", " "]
  | .ch _ cat => cat ∈ [Category.letter, .other, .space, .beginGroup, .endGroup]

instance : (t : Token) → Decidable t.Textual
  | .cs name => inferInstanceAs (Decidable (name ∈ _))
  | .ch _ cat => inferInstanceAs (Decidable (cat ∈ _))

/-! ## The nest -/

namespace Nest

/-- The characters set so far. -/
def glyphs : Nest → List String
  | outer _ items => Item.glyphsAll items.reverse
  | group _ items within => within.glyphs ++ Item.glyphsAll items.reverse
  | paragraph items within => within.glyphs ++ Item.glyphsAll items.reverse

/-- The number of open groups. -/
def depth : Nest → Nat
  | outer _ _ => 0
  | group _ _ within => within.depth + 1
  | paragraph _ within => within.depth

@[simp] theorem glyphs_add (i : Item) (nest : Nest) :
    (nest.add i).glyphs = nest.glyphs ++ i.glyphs := by
  cases nest <;> simp [add, glyphs, Item.glyphsAll_append, Item.glyphsAll]

@[simp] theorem depth_add (i : Item) (nest : Nest) : (nest.add i).depth = nest.depth := by
  cases nest <;> rfl

end Nest

/-- What is set and what remains make up the whole text; `final` is the depth at its end. -/
structure Setting (tables : Tables) (text : List String) (final : Option Nat) (nest : Nest)
    (ts : List Lexeme) : Prop where
  chars : nest.glyphs ++ letters ts = text
  depth : depthThrough nest.depth ts = final
  textual : ∀ t ∈ ts, t.token.Textual
  inert : ∀ t ∈ ts, Inert tables t

namespace Setting

variable {tables : Tables} {text : List String} {final : Option Nat} {nest within : Nest}
  {t : Lexeme} {ts : List Lexeme} {items : List Item}

/-- A token that is set as these characters and may begin or end a group. -/
theorem step {nest' : Nest} (h : Setting tables text final nest (t :: ts))
    (hg : nest'.glyphs = nest.glyphs ++ t.token.letters)
    (hd : Definition.Capture.depthAfter nest.depth t.token = some nest'.depth) :
    Setting tables text final nest' ts := by
  refine ⟨?_, ?_, fun u hu => h.textual u (List.mem_cons_of_mem _ hu),
    fun u hu => h.inert u (List.mem_cons_of_mem _ hu)⟩
  · rw [hg, ← h.chars, List.append_assoc]
    rfl
  · rw [← h.depth, depthThrough_cons hd]

/-- Another nest of the same characters and groups. -/
theorem change {nest' : Nest} (h : Setting tables text final nest ts)
    (hg : nest'.glyphs = nest.glyphs) (hd : nest'.depth = nest.depth) :
    Setting tables text final nest' ts :=
  ⟨by rw [hg, h.chars], by rw [hd, h.depth], h.textual, h.inert⟩

/-- A token that is not set. -/
theorem drop (h : Setting tables text final nest (t :: ts)) (hl : t.token.letters = [])
    (hp : t.token.Plain) : Setting tables text final nest ts :=
  h.step (by simp [hl]) (Token.depthAfter_plain _ hp)

theorem dropSpace (h : Setting tables text final nest (t :: ts)) (hs : t.token.isSpace = true) :
    Setting tables text final nest ts := by
  obtain ⟨c, ht⟩ := Token.eq_ch_of_hasCategory hs
  exact h.drop (by rw [ht]; rfl) (by rw [ht]; exact ⟨rfl, rfl⟩)

theorem dropControl (h : Setting tables text final nest (t :: ts)) {name : String}
    (ht : t.token = .cs name) : Setting tables text final nest ts :=
  h.drop (by rw [ht]; rfl) (by rw [ht]; exact ⟨rfl, rfl⟩)

theorem addBlank (h : Setting tables text final nest ts) (g : Glue) :
    Setting tables text final (nest.add (.glue g)) ts :=
  h.change (by simp [Item.glyphs]) (by simp)

theorem paragraph (h : Setting tables text final nest ts) :
    Setting tables text final (.paragraph [] nest) ts :=
  h.change (by simp [Nest.glyphs, Item.glyphsAll]) rfl

end Setting

/-! ## The builder -/

namespace Build

/-- A command that changes no table and goes on with what is then left of the text, or ends the
outermost list with all of it. -/
def Effect.Sets (tables : Tables) (text : List String) (final : Option Nat) (e : Effect)
    (ts : List Lexeme) : Prop :=
  e.assignment = none ∧ e.turn.Holds (fun nest => Setting tables text final nest ts)
    (fun list => Item.glyphsAll list.items = text ∧ final = some 0)

/-- With these tokens left the command sets what it is given. -/
abbrev SetsOn (tables : Tables) (text : List String) (final : Option Nat) (r : Step)
    (ts : List Lexeme) : Prop :=
  r.wp (Request.taking tables) (fun _ => True) (Effect.Sets tables text final) ts

variable {tables : Tables} {text : List String} {final : Option Nat} {nest within : Nest}
  {t : Lexeme} {ts : List Lexeme} {items : List Item}

theorem goOn_sets (h : Setting tables text final nest ts) :
    SetsOn tables text final (goOn nest) ts := ⟨rfl, h⟩

theorem fault_sets (f : BuildFault) : SetsOn tables text final (fault f) ts := trivial

/-- A finished list goes into a box, which holds the same characters. -/
theorem package_sets (mode : Mode) {kept : List Item} {k : Item → Step}
    (h : SetsOn tables text final (k (.box mode kept)) ts) :
    SetsOn tables text final (package mode kept >>= k) ts := by
  rw [SetsOn, Reader.wp_bind, package]
  split
  · exact h
  · trivial

theorem closeParagraph_sets (h : Setting tables text final (.paragraph items within) ts) :
    SetsOn tables text final (closeParagraph items within) ts := by
  have hdrop := Item.glyphsAll_dropGlue items
  unfold closeParagraph
  split
  · rename_i hnone
    rw [hnone] at hdrop
    refine goOn_sets (h.change ?_ rfl)
    rw [Nest.glyphs, ← hdrop]
    simp [Item.glyphsAll]
  · refine package_sets _ (goOn_sets (h.change ?_ (by simp [Nest.depth])))
    rw [Nest.glyphs_add, Item.glyphs, hdrop, Nest.glyphs]

theorem openParagraph_sets (h : Setting tables text final nest (t :: ts)) :
    SetsOn tables text final (openParagraph t nest) ts := by
  refine ⟨fun u hu => ?_, goOn_sets h.paragraph⟩
  rw [List.mem_singleton.mp hu]
  exact h.inert t (by simp)

theorem ofGlyph_sets {α : Type} (a : Except UnknownGlyph α) {k : α → Step}
    (h : ∀ a, SetsOn tables text final (k a) ts) :
    SetsOn tables text final (ofGlyph a >>= k) ts := by
  cases a with
  | ok a => exact h a
  | error e => trivial

theorem interword_sets (face : Typeface) (h : Setting tables text final nest ts) :
    SetsOn tables text final (interword face nest) ts :=
  ofGlyph_sets _ fun g => goOn_sets (h.addBlank g)

theorem letter_sets (face : Typeface) {c : Char} (h : Setting tables text final nest (t :: ts))
    (hl : t.token.letters = [String.singleton c]) (hp : t.token.Plain) :
    SetsOn tables text final (letter face c nest) ts := by
  refine ofGlyph_sets _ fun extent => goOn_sets (h.step ?_ ?_)
  · simp [Item.glyphs, hl]
  · simpa using Token.depthAfter_plain nest.depth hp

theorem endGroup_sets (h : Setting tables text final nest (t :: ts))
    (hl : t.token.letters = []) (he : t.token.isEnd = true) :
    SetsOn tables text final (endGroup t nest) ts := by
  cases nest with
  | outer mode items => exact fault_sets _
  | group mode items within =>
    refine package_sets _ (goOn_sets (h.step ?_ ?_))
    · simp [Nest.glyphs, Item.glyphs, hl]
    · simpa [Nest.depth] using Token.depthAfter_end within.depth he
  | paragraph items within =>
    refine ⟨fun u hu => ?_, closeParagraph_sets h⟩
    rw [List.mem_singleton.mp hu]
    exact h.inert t (by simp)

theorem beginGroup_sets (mode : Mode) (h : Setting tables text final nest (t :: ts))
    (hl : t.token.letters = []) (hb : t.token.isBegin = true) :
    SetsOn tables text final (goOn (.group mode [] nest)) ts := by
  refine goOn_sets (h.step ?_ (Token.depthAfter_begin _ hb))
  simp [Nest.glyphs, Item.glyphsAll, hl]

theorem character_sets (face : Typeface) {c : Char} {cat : Category}
    (ht : t.token = .ch c cat) (h : Setting tables text final nest (t :: ts)) :
    SetsOn tables text final (character face t c cat nest) ts := by
  have htext : cat ∈ [Category.letter, .other, .space, .beginGroup, .endGroup] := by
    have hin := h.textual t (by simp)
    rwa [ht] at hin
  have hglyph (hc : cat = .letter ∨ cat = .other) :
      SetsOn tables text final (character face t c cat nest) ts := by
    rcases hc with rfl | rfl
    all_goals
      unfold character
      cases nest.mode with
      | vertical => exact openParagraph_sets h
      | horizontal => exact letter_sets face h (by rw [ht]; rfl) (by rw [ht]; exact ⟨rfl, rfl⟩)
  simp only [List.mem_cons, List.not_mem_nil, or_false] at htext
  rcases htext with rfl | rfl | rfl | rfl | rfl
  · exact hglyph (Or.inl rfl)
  · exact hglyph (Or.inr rfl)
  · have hdrop := h.dropSpace (by rw [ht]; rfl)
    unfold character
    cases nest.mode with
    | vertical => exact goOn_sets hdrop
    | horizontal => exact interword_sets face hdrop
  · exact beginGroup_sets _ h (by rw [ht]; rfl) (by rw [ht]; rfl)
  · exact endGroup_sets h (by rw [ht]; rfl) (by rw [ht]; rfl)

/-- Skipping blanks drops no character. -/
theorem nonBlank_wp {post : Option Lexeme → List Lexeme → Prop}
    (h : Setting tables text final nest ts) (hnone : post none [])
    (hsome : ∀ u us, Setting tables text final nest (u :: us) → post (some u) us) :
    Quantity.nonBlank.wp (Request.taking tables) (fun _ => True) post ts := by
  refine Reader.wp_loop (fun _ us => Setting tables text final nest us) (fun _ us hs => ?_) h
  cases us with
  | nil => exact hnone
  | cons u us =>
    change Turn.Holds _ _ (if Quantity.isSpace (some u) then .again () else .finish (some u))
    split
    · rename_i hspace
      exact hs.dropSpace (by simpa [Quantity.isSpace] using hspace)
    · exact hsome u us hs

/-- Before the brace of a box only blanks and `\relax` are dropped. -/
theorem openBox_sets (mode : Mode) (h : Setting tables text final nest ts) :
    SetsOn tables text final (openBox mode nest) ts := by
  refine Reader.wp_loop (fun _ us => Setting tables text final nest us) (fun _ us hs => ?_) h
  refine nonBlank_wp hs trivial fun u us hs => ?_
  simp only [Reader.wp_pure, Option.any_some, decide_eq_true_eq]
  split
  · rename_i hrelax
    exact hs.dropControl hrelax
  · simp only [Turn.Holds, Option.any_some]
    split
    · rename_i hb
      exact beginGroup_sets mode hs (letters_of_isBegin hb) hb
    · exact fault_sets _

theorem control_sets (face : Typeface) {name : String} (ht : t.token = .cs name)
    (h : Setting tables text final nest (t :: ts)) :
    SetsOn tables text final (control face t name nest) ts := by
  have htext : name ∈ ["par", "relax", "hbox", "vbox", " "] := by
    have hin := h.textual t (by simp)
    rwa [ht] at hin
  have hdrop := h.dropControl ht
  simp only [List.mem_cons, List.not_mem_nil, or_false] at htext
  rcases htext with rfl | rfl | rfl | rfl | rfl
  · cases nest with
    | paragraph items within => exact closeParagraph_sets hdrop
    | outer mode items => exact goOn_sets hdrop
    | group mode items within => exact goOn_sets hdrop
  · simpa [control, horizontalCommands, verticalCommands, primitive] using goOn_sets hdrop
  · simpa [control, horizontalCommands, verticalCommands, primitive] using
      openBox_sets .horizontal hdrop
  · simpa [control, horizontalCommands, verticalCommands, primitive] using
      openBox_sets .vertical hdrop
  · cases hm : nest.mode with
    | vertical => simpa [control, horizontalCommands, hm] using openParagraph_sets h
    | horizontal =>
      simpa [control, horizontalCommands, verticalCommands, primitive, hm] using
        interword_sets face hdrop

theorem atEnd_sets (h : Setting tables text final nest []) :
    SetsOn tables text final (atEnd nest) [] := by
  cases nest with
  | outer mode items => exact ⟨rfl, by simpa [Nest.glyphs, letters] using h.chars, h.depth.symm⟩
  | group mode items within => exact fault_sets _
  | paragraph items within => exact closeParagraph_sets h

theorem step_sets (face : Typeface) (h : Setting tables text final nest ts) :
    SetsOn tables text final (step face nest) ts := by
  cases ts with
  | nil => exact atEnd_sets h
  | cons t ts =>
    rw [SetsOn, step, Reader.wp_bind]
    dsimp only [Scan.next, Reader.wp, Request.taking]
    split
    · rename_i ht
      exact character_sets face ht h
    · rename_i ht
      exact control_sets face ht h

end Build

/-! ## Whole runs -/

namespace Machine

/-- A run in progress on text that is set as the tables were at its beginning. -/
def OnText (tables : Tables) (text : List String) (final : Option Nat) (nest : Nest)
    (m : Machine) : Prop :=
  m.tables = tables ∧ ∃ ts, m.input.Remains tables ts ∧ Setting tables text final nest ts

variable {tables : Tables} {text : List String} {final : Option Nat} {nest : Nest} {m : Machine}

theorem turn_onText (face : Typeface) (rounds : Nat) (h : m.OnText tables text final nest) :
    (m.turn face rounds nest).Ensures
      (fun turn m => turn.Holds (fun nest => m.OnText tables text final nest)
        (fun list => Item.glyphsAll list.items = text ∧ final = some 0)) (fun _ _ => True) := by
  obtain ⟨rfl, ts, hr, hs⟩ := h
  have hrun : ((Build.step face nest).run (handler m.tables rounds) rounds m.input).Ensures
      (fun e j => ∃ us, j.Remains m.tables us ∧ e.Sets m.tables text final us)
      (fun _ _ => True) :=
    Reader.run_wp (h := handler m.tables rounds) (Request.answer_taking rounds)
      (fun _ _ _ _ _ => trivial) rounds (Build.step face nest) hr (Build.step_sets face hs)
  unfold turn
  split
  · rename_i e j ho
    rw [ho] at hrun
    obtain ⟨us, hj, ha, ht⟩ := hrun
    simp only [ha, Option.elim_none, Outcome.Ensures]
    cases hturn : e.turn with
    | again nest' =>
      rw [hturn] at ht
      exact ⟨rfl, us, hj, ht⟩
    | finish list =>
      rw [hturn] at ht
      exact ht
  · trivial
  · trivial

theorem build_onText (face : Typeface) (rounds : Nat) (mode : Mode)
    (h : m.OnText tables text final (.outer mode [])) :
    (m.build face rounds mode).Ensures
      (fun list _ => Item.glyphsAll list.items = text ∧ final = some 0) (fun _ _ => True) :=
  iterate_ensures (fun nest m => m.OnText tables text final nest)
    (fun _ _ hm => turn_onText face rounds hm) rounds h

end Machine

namespace Engine

theorem remains_of_expand {e after : Engine} {rounds : Nat} {ts : List Lexeme}
    (h : e.expand rounds = .done ts after) : e.machine.input.Remains e.machine.tables ts := by
  unfold expand at h
  simp only at h
  split at h
  · rename_i i he
    injection h with ht _
    exact Input.remains_of_drain (by rw [← ht, ← he])
  · cases h
  · cases h

/-- If expansion delivers running text, a list that is built from the same input holds the letters
and other characters of the text, each once and in order, and the braces of the text are
balanced. -/
theorem run_sets_text {e expanded built : Engine} {rounds rounds' : Nat} {mode : Mode}
    {ts : List Lexeme} {list : Composed} (he : e.expand rounds = .done ts expanded)
    (ht : ∀ t ∈ ts, t.token.Textual) (hr : e.run rounds' mode = .done list built) :
    Item.glyphsAll list.items = letters ts ∧ Balanced ts := by
  have hrem := remains_of_expand he
  have hset : Setting e.machine.tables (letters ts) (depthThrough 0 ts) (.outer mode []) ts :=
    ⟨rfl, rfl, ht, hrem.inert⟩
  have hb := Machine.build_onText e.face rounds' mode ⟨rfl, ts, hrem, hset⟩
  unfold run at hr
  split at hr
  · rename_i list' m ho
    rw [ho] at hb
    injection hr with hlist _
    exact hlist ▸ hb
  · cases hr
  · cases hr

/-- Here a character starts a paragraph, and a box is set in it. -/
theorem run_sets_text_of_line :
    ∃ list built, (start {} (usualMetrics {}) {} ["a\\hbox{b}{c}"]).run 50 .vertical =
      .done list built ∧ Item.glyphsAll list.items = ["a", "b", "c"] := by
  have he : ∃ ts after, (start {} (usualMetrics {}) {} ["a\\hbox{b}{c}"]).expand 50 =
      .done ts after ∧ (∀ t ∈ ts, t.token.Textual) ∧ letters ts = ["a", "b", "c"] :=
    Outcome.exists_done_of_yields (by decide +kernel)
  have hr : ∃ list built, (start {} (usualMetrics {}) {} ["a\\hbox{b}{c}"]).run 50 .vertical =
      .done list built ∧ True := Outcome.exists_done_of_yields (by decide +kernel)
  obtain ⟨ts, after, he, ht, hl⟩ := he
  obtain ⟨list, built, hr, -⟩ := hr
  exact ⟨list, built, hr, (run_sets_text he ht hr).1.trans hl⟩

end Engine

end Galley
