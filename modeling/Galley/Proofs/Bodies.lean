import Galley.Build
import Galley.Proofs.Balance

/-!
Running text as a tree, and the lists that it is set as. A body is a sequence of characters, spaces,
paragraph ends and groups. `Body.horizontal` and `Body.vertical` say what items it comes to, by
recursion over the tree; the builder goes through its tokens one at a time and keeps a nest of lists
under construction. `Nest.feed` is the change of the nest by one such token, and feeding all tokens
of a body makes just these items, or finds a box too large.
-/

namespace Galley

/-! ## Bodies -/

inductive Body
  | nil
  | glyph (c : Char) (letter : Bool) (more : Body)
  | space (c : Char) (more : Body)
  | par (more : Body)
  | group (o c : Char) (inner more : Body)
  deriving DecidableEq, Repr

/-- The character of the face, with no extent if it has none. -/
def Typeface.glyph (face : Typeface) (c : Char) : Item :=
  .char (String.singleton c) face.font
    ((face.metrics.extentOf face.font (String.singleton c)).toOption.getD {})

def Typeface.blank (face : Typeface) : Item := .glue face.metrics.space

/-- Without the glue at the end. -/
def Item.trimmed (items : List Item) : List Item := (items.reverse.dropWhile isGlue).reverse

/-- All boxes among the items have a size. -/
def Item.sized (items : List Item) : Bool := items.all fun i => i.size?.isSome

namespace Body

def tokens : Body → List Token
  | nil => []
  | glyph c letter more => .ch c (if letter then .letter else .other) :: more.tokens
  | space c more => .ch c .space :: more.tokens
  | par more => .cs "par" :: more.tokens
  | group o c inner more =>
    .ch o .beginGroup :: (inner.tokens ++ .ch c .endGroup :: more.tokens)

/-- In a horizontal list every character, space and group counts. -/
def horizontal (face : Typeface) : Body → List Item
  | nil => []
  | glyph c _ more => face.glyph c :: more.horizontal face
  | space _ more => face.blank :: more.horizontal face
  | par more => more.horizontal face
  | group _ _ inner more => .box .horizontal (inner.horizontal face) :: more.horizontal face

/-- Up to the next paragraph end that is not in a group. -/
def stretch : Body → Body
  | nil => nil
  | glyph c letter more => glyph c letter more.stretch
  | space c more => space c more.stretch
  | par _ => nil
  | group o c inner more => group o c inner more.stretch

mutual

/-- In a vertical list a character begins a paragraph, which takes all of the stretch that it stands
at the head of; spaces and paragraph ends between paragraphs leave nothing. -/
def vertical (face : Typeface) : Body → List Item
  | nil => []
  | glyph c letter more =>
    .box .horizontal (Item.trimmed ((glyph c letter more).stretch.horizontal face)) ::
      more.verticalBehind face
  | space _ more => more.vertical face
  | par more => more.vertical face
  | group _ _ inner more => .box .vertical (inner.vertical face) :: more.vertical face

/-- The vertical list of what comes behind the stretch. -/
def verticalBehind (face : Typeface) : Body → List Item
  | nil => []
  | glyph _ _ more => more.verticalBehind face
  | space _ more => more.verticalBehind face
  | par more => more.vertical face
  | group _ _ _ more => more.verticalBehind face

end

def items (face : Typeface) (mode : Mode) (b : Body) : List Item :=
  match mode with
  | .horizontal => b.horizontal face
  | .vertical => b.vertical face

end Body

/-! ## The nest, token by token -/

namespace Nest

/-- A box, if its size is in range. -/
def boxed (mode : Mode) (items : List Item) : Except BuildFault Item :=
  if (Item.extent? mode items).isSome then .ok (.box mode items) else .error .boxTooLarge

/-- Ends the paragraph under construction, if there is one. -/
def settled : Nest → Except BuildFault Nest
  | .paragraph items within =>
    match items.dropWhile Item.isGlue with
    | [] => .ok within
    | kept => do return within.add (← boxed .horizontal kept.reverse)
  | nest => .ok nest

/-- Ends a group. -/
def ended : Nest → Except BuildFault Nest
  | .group mode items within => do return within.add (← boxed mode items.reverse)
  | _ => .error .unopenedGroup

/-- The outermost list, if no group is open. -/
def finished (nest : Nest) : Except BuildFault Composed := do
  match ← nest.settled with
  | .outer mode items => return ⟨mode, items.reverse⟩
  | _ => throw .unclosedGroup

/-- A character begins a paragraph in a vertical list. -/
def setGlyph (face : Typeface) (c : Char) (nest : Nest) : Nest :=
  match nest.mode with
  | .vertical => .paragraph [face.glyph c] nest
  | .horizontal => nest.add (face.glyph c)

/-- A space counts in a horizontal list alone. -/
def setSpace (face : Typeface) (nest : Nest) : Nest :=
  match nest.mode with
  | .vertical => nest
  | .horizontal => nest.add face.blank

/-- What a token of running text makes of the nest. -/
def feed (face : Typeface) (nest : Nest) : Token → Except BuildFault Nest
  | .ch _ .beginGroup => .ok (.group nest.mode [] nest)
  | .ch _ .endGroup => do ended (← nest.settled)
  | .ch _ .space => .ok (nest.setSpace face)
  | .ch c _ => .ok (nest.setGlyph face c)
  | .cs _ => nest.settled

def feedAll (face : Typeface) (nest : Nest) (ts : List Token) : Except BuildFault Nest :=
  ts.foldlM (feed face) nest

def addAll (nest : Nest) (items : List Item) : Nest := items.foldl (fun nest i => nest.add i) nest

def isParagraph : Nest → Bool
  | .paragraph _ _ => true
  | _ => false

variable {face : Typeface} {nest within : Nest} {items more : List Item}

@[simp] theorem mode_add (nest : Nest) (i : Item) : (nest.add i).mode = nest.mode := by
  cases nest <;> rfl

@[simp] theorem isParagraph_add (nest : Nest) (i : Item) :
    (nest.add i).isParagraph = nest.isParagraph := by
  cases nest <;> rfl

theorem addAll_cons (nest : Nest) (i : Item) (items : List Item) :
    nest.addAll (i :: items) = (nest.add i).addAll items := rfl

theorem isParagraph_addAll (nest : Nest) (items : List Item) :
    (nest.addAll items).isParagraph = nest.isParagraph := by
  induction items generalizing nest with
  | nil => rfl
  | cons i items ih => rw [addAll_cons, ih, isParagraph_add]

theorem addAll_eq (nested : List Item → Nest)
    (h : ∀ items i, (nested items).add i = nested (i :: items)) (items more : List Item) :
    (nested items).addAll more = nested (more.reverse ++ items) := by
  induction more generalizing items with
  | nil => rfl
  | cons i more ih =>
    rw [addAll_cons, h, ih]
    simp

theorem addAll_group (mode : Mode) (items more : List Item) (within : Nest) :
    (Nest.group mode items within).addAll more = .group mode (more.reverse ++ items) within :=
  addAll_eq (.group mode · within) (fun _ _ => rfl) items more

theorem addAll_paragraph (items more : List Item) (within : Nest) :
    (Nest.paragraph items within).addAll more = .paragraph (more.reverse ++ items) within :=
  addAll_eq (.paragraph · within) (fun _ _ => rfl) items more

theorem addAll_outer (mode : Mode) (items more : List Item) :
    (Nest.outer mode items).addAll more = .outer mode (more.reverse ++ items) :=
  addAll_eq (.outer mode) (fun _ _ => rfl) items more

theorem isParagraph_of_vertical (h : nest.mode = .vertical) : nest.isParagraph = false := by
  cases nest with
  | paragraph items within => cases h
  | outer mode items => rfl
  | group mode items within => rfl

@[simp] theorem settled_level (h : nest.isParagraph = false) : nest.settled = .ok nest := by
  cases nest with
  | paragraph items within => cases h
  | outer mode items => rfl
  | group mode items within => rfl

theorem feed_glyph (nest : Nest) (c : Char) (letter : Bool) :
    nest.feed face (.ch c (if letter then .letter else .other)) = .ok (nest.setGlyph face c) := by
  cases letter <;> rfl

theorem setGlyph_vertical (h : nest.mode = .vertical) (c : Char) :
    nest.setGlyph face c = .paragraph [face.glyph c] nest := by
  simp [setGlyph, h]

theorem setGlyph_horizontal (h : nest.mode = .horizontal) (c : Char) :
    nest.setGlyph face c = nest.add (face.glyph c) := by
  simp [setGlyph, h]

theorem feed_space_vertical (h : nest.mode = .vertical) (c : Char) :
    nest.feed face (.ch c .space) = .ok nest := by
  simp [feed, setSpace, h]

theorem feed_space_horizontal (h : nest.mode = .horizontal) (c : Char) :
    nest.feed face (.ch c .space) = .ok (nest.add face.blank) := by
  simp [feed, setSpace, h]

theorem feed_begin {mode : Mode} (h : nest.mode = mode) (c : Char) :
    nest.feed face (.ch c .beginGroup) = .ok (.group mode [] nest) := by
  rw [feed, h]

theorem feed_par (h : nest.isParagraph = false) (name : String) :
    nest.feed face (.cs name) = .ok nest :=
  settled_level h

theorem feedAll_cons (nest : Nest) (t : Token) (ts : List Token) :
    nest.feedAll face (t :: ts) = nest.feed face t >>= fun nest => nest.feedAll face ts :=
  List.foldlM_cons

theorem feedAll_append (nest : Nest) (ts us : List Token) :
    nest.feedAll face (ts ++ us) = nest.feedAll face ts >>= fun nest => nest.feedAll face us :=
  List.foldlM_append

end Nest

/-! ## Sizes -/

namespace Item

variable {items more : List Item}

theorem sized_reverse : sized items.reverse = sized items := List.all_reverse

theorem sizes?_isSome : (sizes? items).isSome = sized items := by
  induction items with
  | nil => rfl
  | cons i items ih =>
    rw [sized, List.all_cons, ← sized, ← ih, sizes?]
    cases i.size? <;> cases sizes? items <;> rfl

theorem box_sized (mode : Mode) (items : List Item) :
    (Item.box mode items).size?.isSome = (extent? mode items).isSome := by
  rw [size?, extent?]
  cases sizes? items with
  | none => rfl
  | some sizes =>
    dsimp only [Option.bind_eq_bind, Option.bind_some]
    cases Size.extent? mode sizes <;> rfl

theorem sized_of_extent? {mode : Mode} (h : (extent? mode items).isSome) : sized items := by
  rw [← sizes?_isSome]
  rw [extent?] at h
  cases hs : sizes? items with
  | none => simp [hs] at h
  | some sizes => rfl

/-- Glue always has a size. -/
theorem sized_dropGlue : sized (items.dropWhile isGlue) = sized items := by
  induction items with
  | nil => rfl
  | cons i items ih =>
    cases i with
    | glue g =>
      have hg : isGlue (.glue g) = true := rfl
      rw [List.dropWhile_cons_of_pos hg, ih]
      simp [sized, size?]
    | char text font e => rfl
    | rule r => rfl
    | box mode items => rfl

theorem sized_trimmed : sized (trimmed items) = sized items := by
  rw [trimmed, sized_reverse, sized_dropGlue, sized_reverse]

end Item

/-! ## What bodies come to -/

namespace Nest

variable {face : Typeface} {nest within : Nest} {items more : List Item} {mode : Mode}

/-- Adds finished items, if all boxes among them have a size. -/
def sets (nest : Nest) (items : List Item) : Except BuildFault Nest :=
  if Item.sized items then .ok (nest.addAll items) else .error .boxTooLarge

theorem sets_cons {i : Item} (h : i.size?.isSome) (nest : Nest) (items : List Item) :
    nest.sets (i :: items) = (nest.add i).sets items := by
  have hs : Item.sized (i :: items) = Item.sized items := by simp [Item.sized, h]
  rw [sets, sets, hs, addAll_cons]

theorem sets_glyph (face : Typeface) (c : Char) (nest : Nest) (items : List Item) :
    nest.sets (face.glyph c :: items) = (nest.add (face.glyph c)).sets items :=
  sets_cons rfl nest items

theorem sets_blank (face : Typeface) (nest : Nest) (items : List Item) :
    nest.sets (face.blank :: items) = (nest.add face.blank).sets items :=
  sets_cons rfl nest items

/-- A box that is finished is followed by what comes after it. -/
theorem boxed_sets (mode : Mode) (items : List Item) (nest : Nest) (more : List Item) :
    (boxed mode items >>= fun i => (nest.add i).sets more) =
      nest.sets (.box mode items :: more) := by
  unfold boxed
  split
  · rename_i h
    rw [sets_cons (by rw [Item.box_sized]; exact h)]
    rfl
  · rename_i h
    have hs : Item.sized (.box mode items :: more) = false := by
      simp only [Item.sized, List.all_cons, Item.box_sized]
      simp [h]
    rw [sets, hs]
    rfl

theorem boxed_error (h : Item.sized items = false) : boxed mode items = .error .boxTooLarge := by
  rw [boxed, if_neg]
  intro he
  simp [Item.sized_of_extent? he] at h

/-- A group of finished items is a box. -/
theorem ended_sets (mode : Mode) (items : List Item) (within : Nest) :
    ((Nest.group mode [] within).sets items >>= ended) =
      boxed mode items >>= fun i => pure (within.add i) := by
  cases hs : Item.sized items with
  | false =>
    rw [boxed_error hs, sets, hs]
    rfl
  | true =>
    rw [sets, hs, if_pos rfl, addAll_group, List.append_nil]
    show ended (.group mode items.reverse within) = _
    rw [ended, List.reverse_reverse]

/-- The body of a group, and what comes behind its end. -/
theorem feedAll_group {inner : List Token} {items : List Item} {within : Nest}
    (h : ((Nest.group mode [] within).feedAll face inner >>= settled) =
      (Nest.group mode [] within).sets items) (c : Char) (ts : List Token) :
    (Nest.group mode [] within).feedAll face (inner ++ .ch c .endGroup :: ts) =
      boxed mode items >>= fun i => (within.add i).feedAll face ts := by
  have hend : ((Nest.group mode [] within).feedAll face inner >>= fun nest =>
      nest.feed face (.ch c .endGroup)) = boxed mode items >>= fun i => pure (within.add i) := by
    rw [← ended_sets, ← h, bind_assoc]
    rfl
  rw [feedAll_append]
  simp only [feedAll_cons]
  rw [← bind_assoc, hend, bind_assoc]
  simp only [pure_bind]

/-- A list that is no paragraph is left as it is. -/
theorem sets_settled (h : nest.isParagraph = false) (items : List Item) :
    (nest.sets items >>= settled) = nest.sets items := by
  rw [sets]
  split
  · exact settled_level (by rw [isParagraph_addAll, h])
  · rfl

theorem feedAll_horizontal (b : Body) (hm : nest.mode = .horizontal)
    (hp : nest.isParagraph = false) :
    nest.feedAll face b.tokens = nest.sets (b.horizontal face) := by
  induction b generalizing nest with
  | nil => rfl
  | glyph c letter more ih =>
    rw [Body.tokens, feedAll_cons, feed_glyph, setGlyph_horizontal hm, Body.horizontal, sets_glyph]
    exact ih (by rw [mode_add, hm]) (by rw [isParagraph_add, hp])
  | space c more ih =>
    rw [Body.tokens, feedAll_cons, feed_space_horizontal hm, Body.horizontal, sets_blank]
    exact ih (by rw [mode_add, hm]) (by rw [isParagraph_add, hp])
  | par more ih =>
    rw [Body.tokens, feedAll_cons, feed_par hp]
    exact ih hm hp
  | group o c inner more ihi ihm =>
    have hinner : ((Nest.group .horizontal [] nest).feedAll face inner.tokens >>= settled) =
        (Nest.group .horizontal [] nest).sets (inner.horizontal face) := by
      rw [ihi rfl rfl]
      exact sets_settled rfl _
    rw [Body.tokens, feedAll_cons, feed_begin hm, Body.horizontal, ← boxed_sets]
    refine (feedAll_group hinner c more.tokens).trans (bind_congr fun i => ?_)
    exact ihm (by rw [mode_add, hm]) (by rw [isParagraph_add, hp])

/-! ## Paragraphs -/

variable {nest' : Nest}

theorem exists_of_boxed {mode : Mode} {k : Item → Nest}
    (h : (boxed mode items >>= fun i => pure (k i)) = .ok nest') : ∃ i, nest' = k i := by
  cases hb : boxed mode items with
  | error e =>
    rw [hb] at h
    cases h
  | ok i =>
    rw [hb] at h
    cases h
    exact ⟨i, rfl⟩

/-- The end of a paragraph leaves the list around it, with a box more or as it was. -/
theorem exists_of_settled (h : (Nest.paragraph items within).settled = .ok nest') :
    nest' = within ∨ ∃ i, nest' = within.add i := by
  rw [settled] at h
  split at h
  · cases h
    exact Or.inl rfl
  · exact Or.inr (exists_of_boxed h)

theorem mode_of_settled (h : (Nest.paragraph items within).settled = .ok nest') :
    nest'.mode = within.mode := by
  rcases exists_of_settled h with rfl | ⟨i, rfl⟩
  · rfl
  · exact mode_add within i

/-- A paragraph that a character begins leaves a box. -/
theorem settled_sets (face : Typeface) (c : Char) (items : List Item) (within : Nest) :
    ((Nest.paragraph [face.glyph c] within).sets items >>= settled) =
      boxed .horizontal (Item.trimmed (face.glyph c :: items)) >>= fun i =>
        pure (within.add i) := by
  cases hs : Item.sized items with
  | false =>
    have ht : Item.sized (Item.trimmed (face.glyph c :: items)) = false := by
      rw [Item.sized_trimmed]
      simpa [Item.sized] using fun _ => hs
    rw [boxed_error ht, sets, hs]
    rfl
  | true =>
    rw [sets, hs, if_pos rfl, addAll_paragraph]
    show settled (.paragraph (items.reverse ++ [face.glyph c]) within) = _
    rw [settled, Item.trimmed, List.reverse_cons]
    split
    · rename_i hd
      -- the character at the end is no glue
      have hg : [face.glyph c].dropWhile Item.isGlue = [face.glyph c] := rfl
      rw [List.dropWhile_append, hg] at hd
      split at hd
      · cases hd
      · simp at hd
    · rfl

/-- Running text in a vertical list, and in a paragraph there. Both at once, since a character
begins a paragraph and a paragraph end leads back. -/
theorem feedAll_both (face : Typeface) (b : Body) :
    (∀ nest : Nest, nest.mode = .vertical →
      (nest.feedAll face b.tokens >>= settled) = nest.sets (b.vertical face)) ∧
    (∀ (items : List Item) (within : Nest), within.mode = .vertical →
      ((Nest.paragraph items within).feedAll face b.tokens >>= settled) =
        ((Nest.paragraph items within).sets (b.stretch.horizontal face) >>= settled) >>=
          fun nest => nest.sets (b.verticalBehind face)) := by
  induction b with
  | nil =>
    constructor
    · intro nest hm
      exact settled_level (isParagraph_of_vertical hm)
    · intro items within hm
      exact (bind_pure _).symm
  | glyph c letter more ih =>
    constructor
    · intro nest hm
      rw [Body.tokens, feedAll_cons, feed_glyph, setGlyph_vertical hm, Body.vertical, ← boxed_sets]
      refine (ih.2 _ nest hm).trans ?_
      rw [settled_sets, bind_assoc]
      simp only [pure_bind]
      rfl
    · intro items within hm
      rw [Body.tokens, feedAll_cons, feed_glyph, Body.stretch, Body.horizontal, sets_glyph]
      exact ih.2 _ within hm
  | space c more ih =>
    constructor
    · intro nest hm
      rw [Body.tokens, feedAll_cons, feed_space_vertical hm]
      exact ih.1 nest hm
    · intro items within hm
      rw [Body.tokens, feedAll_cons, Body.stretch, Body.horizontal, sets_blank]
      exact ih.2 _ within hm
  | par more ih =>
    constructor
    · intro nest hm
      rw [Body.tokens, feedAll_cons, feed_par (isParagraph_of_vertical hm)]
      exact ih.1 nest hm
    · intro items within hm
      rw [Body.tokens, feedAll_cons]
      show (settled (.paragraph items within) >>= _) >>= _ =
        settled (.paragraph items within) >>= _
      cases hs : settled (.paragraph items within) with
      | error e => rfl
      | ok nest => exact ih.1 nest (by rw [mode_of_settled hs, hm])
  | group o c inner more ihi ihm =>
    constructor
    · intro nest hm
      rw [Body.tokens, feedAll_cons, feed_begin hm, Body.vertical, ← boxed_sets]
      show ((Nest.group .vertical [] nest).feedAll face _ >>= _) = _
      rw [feedAll_group (ihi.1 (.group .vertical [] nest) rfl), bind_assoc]
      apply bind_congr
      intro i
      exact ihm.1 _ (by rw [mode_add, hm])
    · intro items within hm
      have hinner : ((Nest.group .horizontal [] (.paragraph items within)).feedAll face
          inner.tokens >>= settled) =
            (Nest.group .horizontal [] (.paragraph items within)).sets (inner.horizontal face) := by
        rw [feedAll_horizontal inner rfl rfl]
        exact sets_settled rfl _
      rw [Body.tokens, feedAll_cons, Body.stretch, Body.horizontal, ← boxed_sets]
      show ((Nest.group .horizontal [] (.paragraph items within)).feedAll face _ >>= _) = _
      rw [feedAll_group hinner, bind_assoc, bind_assoc, bind_assoc]
      apply bind_congr
      intro i
      rw [← bind_assoc]
      exact ihm.2 _ within hm

/-- The tokens of a body, and the end of the paragraph that they leave open, make its items. -/
theorem feedAll_body (face : Typeface) (b : Body) (h : nest.isParagraph = false) :
    (nest.feedAll face b.tokens >>= settled) = nest.sets (b.items face nest.mode) := by
  unfold Body.items
  cases hm : nest.mode with
  | horizontal =>
    rw [feedAll_horizontal b hm h]
    exact sets_settled h _
  | vertical => exact (feedAll_both face b).1 nest hm

end Nest

/-! ## Nests that tokens build -/

/-- A token that running text is made of. -/
def Token.OfBody : Token → Prop
  | .cs name => name = "par"
  | .ch _ cat => cat ∈ [Category.letter, .other, .space, .beginGroup, .endGroup]

instance : (t : Token) → Decidable t.OfBody
  | .cs _ => inferInstanceAs (Decidable (_ = _))
  | .ch _ _ => inferInstanceAs (Decidable (_ ∈ _))

namespace Nest

variable {face : Typeface} {nest nest' within : Nest} {items : List Item} {t : Token}

/-- Every paragraph stands in a vertical list. -/
def Upright : Nest → Prop
  | outer _ _ => True
  | group _ _ within => within.Upright
  | paragraph _ within => within.mode = .vertical ∧ within.Upright

/-- All lists are vertical, so no paragraph has begun. -/
def AllVertical : Nest → Prop
  | outer mode _ => mode = .vertical
  | group mode _ within => mode = .vertical ∧ within.AllVertical
  | paragraph _ _ => False

theorem AllVertical.mode (h : nest.AllVertical) : nest.mode = .vertical := by
  cases nest with
  | outer mode items => exact h
  | group mode items within => exact h.1
  | paragraph items within => exact h.elim

theorem Upright.add (h : nest.Upright) (i : Item) : (nest.add i).Upright := by
  cases nest <;> exact h

theorem AllVertical.add (h : nest.AllVertical) (i : Item) : (nest.add i).AllVertical := by
  cases nest <;> exact h

theorem Upright.settled (h : nest.Upright) (hs : nest.settled = .ok nest') :
    nest'.Upright ∧ nest'.isParagraph = false := by
  cases nest with
  | outer mode items =>
    cases hs
    exact ⟨h, rfl⟩
  | group mode items within =>
    cases hs
    exact ⟨h, rfl⟩
  | paragraph items within =>
    have hp := isParagraph_of_vertical h.1
    rcases exists_of_settled hs with rfl | ⟨i, rfl⟩
    · exact ⟨h.2, hp⟩
    · exact ⟨h.2.add i, by rw [isParagraph_add, hp]⟩

theorem Upright.ended (h : nest.Upright) (he : nest.ended = .ok nest') : nest'.Upright := by
  cases nest with
  | outer mode items => cases he
  | paragraph items within => cases he
  | group mode items within =>
    obtain ⟨i, rfl⟩ := exists_of_boxed he
    exact (show within.Upright from h).add i

theorem Upright.setGlyph (h : nest.Upright) (c : Char) : (nest.setGlyph face c).Upright := by
  unfold Nest.setGlyph
  split
  · rename_i hm
    exact ⟨hm, h⟩
  · exact h.add _

theorem Upright.setSpace (h : nest.Upright) : (nest.setSpace face).Upright := by
  unfold Nest.setSpace
  split
  · exact h
  · exact h.add _

theorem exists_of_bind {α β ε : Type} {o : Except ε α} {k : α → Except ε β} {b : β}
    (h : (o >>= k) = .ok b) : ∃ a, o = .ok a ∧ k a = .ok b := by
  cases o with
  | error e => cases h
  | ok a => exact ⟨a, rfl, h⟩

theorem eq_boxTooLarge_of_boxed {mode : Mode} {k : Item → Nest} {e : BuildFault}
    (h : (boxed mode items >>= fun i => pure (k i)) = .error e) : e = .boxTooLarge := by
  unfold boxed at h
  split at h
  · cases h
  · cases h
    rfl

theorem eq_boxTooLarge_of_settled {e : BuildFault} (h : nest.settled = .error e) :
    e = .boxTooLarge := by
  cases nest with
  | outer mode items => cases h
  | group mode items within => cases h
  | paragraph items within =>
    rw [Nest.settled] at h
    split at h
    · cases h
    · exact eq_boxTooLarge_of_boxed h

/-- No token finds a group unclosed. -/
theorem ne_unclosedGroup_of_feed {e : BuildFault} (h : nest.feed face t = .error e) :
    e ≠ .unclosedGroup := by
  have hbox (he : e = .boxTooLarge) : e ≠ .unclosedGroup := by
    rw [he]
    intro h
    cases h
  cases t with
  | cs name => exact hbox (eq_boxTooLarge_of_settled h)
  | ch c cat =>
    cases cat with
    | endGroup =>
      cases hs : nest.settled with
      | error e' =>
        rw [Nest.feed, hs] at h
        cases h
        exact hbox (eq_boxTooLarge_of_settled hs)
      | ok mid =>
        rw [Nest.feed, hs] at h
        cases mid with
        | outer mode items =>
          cases h
          intro h
          cases h
        | paragraph items within =>
          cases h
          intro h
          cases h
        | group mode items within => exact hbox (eq_boxTooLarge_of_boxed h)
    | _ => cases h

theorem Upright.feed (h : nest.Upright) (hf : nest.feed face t = .ok nest') : nest'.Upright := by
  cases t with
  | cs name => exact (h.settled hf).1
  | ch c cat =>
    cases cat with
    | beginGroup =>
      cases hf
      exact h
    | endGroup =>
      obtain ⟨mid, hs, he⟩ := exists_of_bind hf
      exact (h.settled hs).1.ended he
    | space =>
      cases hf
      exact h.setSpace
    | _ =>
      cases hf
      exact h.setGlyph c

/-- Without characters no paragraph begins. -/
theorem AllVertical.feed (h : nest.AllVertical) (ht : t.OfBody)
    (hg : ∀ c, t ≠ .ch c .letter ∧ t ≠ .ch c .other) (hf : nest.feed face t = .ok nest') :
    nest'.AllVertical := by
  have hset := settled_level (isParagraph_of_vertical h.mode)
  cases t with
  | cs name =>
    have he : nest.settled = .ok nest' := hf
    rw [hset] at he
    cases he
    exact h
  | ch c cat =>
    cases cat with
    | beginGroup =>
      cases hf
      exact ⟨h.mode, h⟩
    | endGroup =>
      obtain ⟨mid, hs, he⟩ := exists_of_bind hf
      rw [hset] at hs
      cases hs
      cases nest with
      | outer mode items => cases he
      | paragraph items within => cases he
      | group mode items within =>
        obtain ⟨i, rfl⟩ := exists_of_boxed he
        exact h.2.add i
    | space =>
      cases hf
      rw [Nest.setSpace, h.mode]
      exact h
    | letter => exact absurd rfl (hg c).1
    | other => exact absurd rfl (hg c).2
    | _ => simp [Token.OfBody] at ht

end Nest

/-! ## Lists of tokens -/

namespace Body

theorem balanced {b : Body} {ts : List Lexeme} (h : ts.map (·.token) = b.tokens) : Balanced ts := by
  have cons {t : Lexeme} {ts : List Lexeme} (ht : t.token.Plain) (hts : Balanced ts) :
      Balanced (t :: ts) :=
    (depthThrough_cons (Token.depthAfter_plain 0 ht) ts).trans hts
  induction b generalizing ts with
  | nil =>
    rw [List.map_eq_nil_iff.mp h]
    rfl
  | glyph c letter more ih =>
    obtain ⟨t, ts, rfl, ht, hts⟩ := List.map_eq_cons_iff.mp h
    refine cons ?_ (ih hts)
    rw [ht]
    cases letter <;> exact ⟨rfl, rfl⟩
  | space c more ih =>
    obtain ⟨t, ts, rfl, ht, hts⟩ := List.map_eq_cons_iff.mp h
    exact cons (ht ▸ ⟨rfl, rfl⟩) (ih hts)
  | par more ih =>
    obtain ⟨t, ts, rfl, ht, hts⟩ := List.map_eq_cons_iff.mp h
    exact cons (ht ▸ ⟨rfl, rfl⟩) (ih hts)
  | group o c inner more ihi ihm =>
    obtain ⟨t, ts, rfl, ht, hts⟩ := List.map_eq_cons_iff.mp h
    obtain ⟨us, vs, rfl, hus, hvs⟩ := List.map_eq_append_iff.mp hts
    obtain ⟨u, vs, rfl, hu, hvs⟩ := List.map_eq_cons_iff.mp hvs
    have ho : t.token.isBegin = true := by
      rw [ht]
      rfl
    have hc : u.token.isEnd = true := by
      rw [hu]
      rfl
    have hgroup := ((ihi hus).group ho hc).append (ihm hvs)
    simpa using hgroup

/-- What stops a body: nothing is left, a group ends that it has not begun, or one begins that is
never ended. -/
inductive Stops : List Lexeme → Prop
  | nil : Stops []
  | closing {brace : Lexeme} (h : brace.token.isEnd = true) (more : List Lexeme) :
    Stops (brace :: more)
  | opening {brace : Lexeme} {more : List Lexeme} {d : Nat} (h : brace.token.isBegin = true)
    (hd : depthThrough 0 more = some d) : Stops (brace :: more)

/-- Running text begins with a body. -/
theorem exists_body {ts : List Lexeme} (h : ∀ t ∈ ts, t.token.OfBody) :
    ∃ (b : Body) (front rest : List Lexeme),
      ts = front ++ rest ∧ front.map (·.token) = b.tokens ∧ Stops rest := by
  induction hn : ts.length using Nat.strongRecOn generalizing ts with
  | ind n ih =>
    subst hn
    cases ts with
    | nil => exact ⟨.nil, [], [], rfl, rfl, .nil⟩
    | cons t ts =>
      obtain ⟨ht, hts⟩ := List.forall_mem_cons.mp h
      obtain ⟨b, front, rest, rfl, hb, hrest⟩ := ih ts.length (Nat.lt_succ_self _) hts rfl
      -- a token that is no brace comes before the body that follows it
      have plain (b' : Body) (hb' : b'.tokens = t.token :: b.tokens) :
          ∃ (b : Body) (us vs : List Lexeme), t :: (front ++ rest) = us ++ vs ∧
            us.map (·.token) = b.tokens ∧ Stops vs :=
        ⟨b', t :: front, rest, rfl, by rw [List.map_cons, hb, hb'], hrest⟩
      obtain ⟨token, span⟩ := t
      cases token with
      | cs name =>
        obtain rfl : name = "par" := ht
        exact plain b.par rfl
      | ch c cat =>
        cases cat with
        | letter => exact plain (b.glyph c true) rfl
        | other => exact plain (b.glyph c false) rfl
        | space => exact plain (b.space c) rfl
        | endGroup => exact ⟨.nil, [], _, rfl, rfl, .closing rfl _⟩
        | beginGroup =>
          have hfront := (balanced hb).through
          cases hrest with
          | nil =>
            refine ⟨.nil, [], _, rfl, rfl, .opening (d := 0) rfl ?_⟩
            rw [List.append_nil]
            exact hfront 0
          | @opening brace more d hbrace hd =>
            refine ⟨.nil, [], _, rfl, rfl, .opening (d := d + 1) rfl ?_⟩
            refine depthThrough_trans (hfront 0) ?_
            rw [depthThrough_cons (Token.depthAfter_begin 0 hbrace)]
            exact depthThrough_succ hd
          | @closing brace hbrace more =>
            obtain ⟨e, he⟩ := Token.eq_ch_of_hasCategory hbrace
            obtain ⟨b', front', rest', rfl, hb', hrest'⟩ := ih more.length (by simp; omega)
              (fun u hu => hts u (by simp [hu])) rfl
            refine ⟨.group c e b b', ⟨.ch c .beginGroup, span⟩ :: (front ++ brace :: front'), rest',
              by simp, ?_, hrest'⟩
            simp [tokens, hb, hb', he]
        | _ => simp [Token.OfBody] at ht

end Body

/-! ## Whole lists -/

/-- The tokens hold a body with a box that is too large. -/
def Oversized (face : Typeface) (ts : List Token) : Prop :=
  ∃ (b : Body) (mode : Mode), b.tokens <:+: ts ∧ Item.sized (b.items face mode) = false

theorem Oversized.mono {face : Typeface} {ts us : List Token} (h : Oversized face ts)
    (hi : ts <:+: us) : Oversized face us := by
  obtain ⟨b, mode, hb, hs⟩ := h
  exact ⟨b, mode, hb.trans hi, hs⟩

namespace Nest

variable {face : Typeface} {nest : Nest} {b : Body}

theorem oversized_of_error {e : BuildFault} (hp : nest.isParagraph = false)
    (h : nest.feedAll face b.tokens = .error e) :
    e = .boxTooLarge ∧ Oversized face b.tokens := by
  have hb := feedAll_body face b hp
  rw [h, sets] at hb
  split at hb
  · cases hb
  · rename_i hs
    cases hb
    exact ⟨rfl, b, nest.mode, List.infix_refl _, by simpa using hs⟩

/-- A body is finished as its items. -/
theorem finished_body {mode : Mode} (hs : Item.sized (b.items face mode)) :
    ((Nest.outer mode []).feedAll face b.tokens >>= finished) =
      .ok ⟨mode, b.items face mode⟩ := by
  have hb : ((Nest.outer mode []).feedAll face b.tokens >>= settled) =
      (Nest.outer mode []).sets (b.items face mode) := feedAll_body face b rfl
  rw [sets, hs, if_pos rfl, addAll_outer, List.append_nil] at hb
  change ((Nest.outer mode []).feedAll face b.tokens >>= fun nest => settled nest >>= _) = _
  rw [← bind_assoc, hb]
  show Except.ok (Composed.mk mode (b.items face mode).reverse.reverse) = _
  rw [List.reverse_reverse]

/-- Behind a body no group is open. -/
theorem feed_unopened {mode : Mode} (hs : Item.sized (b.items face mode)) (c : Char) :
    ∃ nest, (Nest.outer mode []).feedAll face b.tokens = .ok nest ∧
      nest.feed face (.ch c .endGroup) = .error .unopenedGroup := by
  have hb : ((Nest.outer mode []).feedAll face b.tokens >>= settled) =
      (Nest.outer mode []).sets (b.items face mode) := feedAll_body face b rfl
  rw [sets, hs, if_pos rfl, addAll_outer] at hb
  cases hn : (Nest.outer mode []).feedAll face b.tokens with
  | error e =>
    rw [hn] at hb
    cases hb
  | ok nest =>
    rw [hn] at hb
    refine ⟨nest, rfl, ?_⟩
    have hset : nest.settled = _ := hb
    rw [feed, hset]
    rfl

/-- An open group is not finished at the end. -/
theorem finished_unclosed {ts : List Lexeme} {d : Nat} (hts : ∀ t ∈ ts, t.token.OfBody)
    (hd : depthThrough 0 ts = some d) (hp : nest.isParagraph = false)
    (hopen : d = 0 → ∃ mode items within, nest = .group mode items within) :
    ∃ e, (nest.feedAll face (ts.map (·.token)) >>= finished) = .error e ∧
      (e = .unclosedGroup ∨ e = .boxTooLarge ∧ Oversized face (ts.map (·.token))) := by
  induction hn : ts.length using Nat.strongRecOn generalizing ts d nest with
  | ind n ih =>
    subst hn
    obtain ⟨b, front, rest, rfl, hb, hrest⟩ := Body.exists_body hts
    have hfront := Body.balanced hb
    rw [List.map_append, feedAll_append, hb]
    cases hf : nest.feedAll face b.tokens with
    | error e =>
      obtain ⟨rfl, hover⟩ := oversized_of_error hp hf
      exact ⟨_, rfl, Or.inr ⟨rfl, hover.mono (List.infix_append' [] _ _)⟩⟩
    | ok after =>
      cases hrest with
      | closing hbrace more =>
        rw [depthThrough_append, hfront] at hd
        simp [depthThrough, Definition.Capture.depthAfter, hbrace,
          Token.isBegin_false_of_isEnd hbrace] at hd
      | nil =>
        rw [List.append_nil] at hd
        obtain ⟨mode, items, within, rfl⟩ := hopen (Option.some.inj (hd.symm.trans hfront))
        have hbody := feedAll_body face b hp
        rw [hf, sets] at hbody
        split at hbody
        · rw [addAll_group] at hbody
          have hset : after.settled = _ := hbody
          refine ⟨.unclosedGroup, ?_, Or.inl rfl⟩
          show finished after = _
          rw [finished, hset]
          rfl
        · rename_i hs
          have hset : after.settled = _ := hbody
          refine ⟨.boxTooLarge, ?_, Or.inr ⟨rfl, b, _, List.infix_append' [] _ _, by
            simpa using hs⟩⟩
          show finished after = _
          rw [finished, hset]
          rfl
      | @opening brace more d' hbrace hd' =>
        obtain ⟨c, hc⟩ := Token.eq_ch_of_hasCategory hbrace
        have hgroup : (Nest.group after.mode [] after).isParagraph = false := rfl
        obtain ⟨e, he, hcause⟩ := ih more.length (by simp; omega)
          (fun t ht => hts t (by simp [ht])) hd' hgroup (fun _ => ⟨_, _, _, rfl⟩) rfl
        refine ⟨e, ?_, hcause.imp_right (And.imp_right fun hover => hover.mono ?_)⟩
        · rw [← he, List.map_cons, hc]
          rfl
        · exact ⟨b.tokens ++ [brace.token], [], by simp⟩

end Nest

end Galley
