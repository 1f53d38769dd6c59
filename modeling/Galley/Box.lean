import Galley.Metrics

/-!
Boxes: the items of a list, the sizes of a box made of them, and two views of a list, its characters
alone and a tree of all of it. Sums are checked term by term, so a size may be refused on the way.
-/

namespace Galley

inductive Mode
  | horizontal | vertical
  deriving DecidableEq, Repr

def Mode.name : Mode → String
  | horizontal => "horizontal"
  | vertical => "vertical"

/-- A missing dimension runs to the size of the enclosing box. -/
structure Rule where
  width : Option Dimension
  height : Option Dimension
  depth : Option Dimension
  deriving DecidableEq, Repr

namespace Rule

def thickness : Dimension := .ofPoints (mkRat 2 5)

/-- The rule of a list when nothing is said about its size. -/
def usual : Mode → Rule
  | .horizontal => ⟨some thickness, none, none⟩
  | .vertical => ⟨none, some thickness, some .zero⟩

/-- Running dimensions count as zero. -/
def extent (r : Rule) : Extent :=
  ⟨r.width.getD .zero, r.height.getD .zero, r.depth.getD .zero⟩

end Rule

inductive Item
  | char (text font : String) (extent : Extent)
  | rule (r : Rule)
  | glue (g : Glue)
  | box (mode : Mode) (items : List Item)
  deriving Repr

/-- What an item adds to the sizes of the box that holds it. -/
inductive Size
  | glue (natural : Dimension)
  | solid (extent : Extent)
  deriving DecidableEq, Repr

namespace Size

/-- Glue has no extent. -/
def extent : Size → Extent
  | .glue _ => {}
  | .solid e => e

/-- What the item adds to the width of a horizontal list. -/
def advance : Size → Dimension
  | .glue natural => natural
  | .solid e => e.width

def sumFrom (total : Dimension) : List Dimension → Option Dimension
  | [] => some total
  | d :: more => do sumFrom (← total.add? d) more

def greatest : List Dimension → Dimension
  | [] => .zero
  | d :: more => more.foldl Dimension.max d

/-- What the item adds to the height of a vertical list. -/
def drops : Size → List Dimension
  | .glue natural => [natural]
  | .solid e => [e.height, e.depth]

def lastDepth (sizes : List Size) : Dimension :=
  match sizes.getLast? with
  | some (.solid e) => e.depth
  | _ => .zero

def width? (mode : Mode) (sizes : List Size) : Option Dimension :=
  match mode with
  | .horizontal => sumFrom .zero (sizes.map advance)
  | .vertical => some (greatest (sizes.map (·.extent.width)))

/-- The depth of the last item hangs below a vertical list. -/
def height? (mode : Mode) (sizes : List Size) : Option Dimension :=
  match mode with
  | .horizontal => some (greatest (sizes.map (·.extent.height)))
  | .vertical => do (← sumFrom .zero (sizes.flatMap drops)).sub? (lastDepth sizes)

def depth (mode : Mode) (sizes : List Size) : Dimension :=
  match mode with
  | .horizontal => greatest (sizes.map (·.extent.depth))
  | .vertical => lastDepth sizes

def extent? (mode : Mode) (sizes : List Size) : Option Extent := do
  return ⟨← width? mode sizes, ← height? mode sizes, depth mode sizes⟩

end Size

namespace Item

def isGlue : Item → Bool
  | .glue _ => true
  | _ => false

mutual

/-- The size of an item; `none` if that of a box in it is out of range. -/
def size? : Item → Option Size
  | .char _ _ e => some (.solid e)
  | .rule r => some (.solid r.extent)
  | .glue g => some (.glue g.natural)
  | .box mode items => do
    let sizes ← sizes? items
    return .solid (← Size.extent? mode sizes)

def sizes? : List Item → Option (List Size)
  | [] => some []
  | i :: more => do return (← i.size?) :: (← sizes? more)

end

def width? (mode : Mode) (items : List Item) : Option Dimension := do
  Size.width? mode (← sizes? items)

def height? (mode : Mode) (items : List Item) : Option Dimension := do
  Size.height? mode (← sizes? items)

/-- For a vertical list the last item alone is looked at. -/
def depth? (mode : Mode) (items : List Item) : Option Dimension :=
  match mode with
  | .horizontal => do return Size.depth .horizontal (← sizes? items)
  | .vertical =>
    match items.getLast? with
    | none => some .zero
    | some i => do return Size.lastDepth [← i.size?]

def extent? (mode : Mode) (items : List Item) : Option Extent := do
  Size.extent? mode (← sizes? items)

mutual

/-- The characters in order, with a space for each glue. -/
def flat : Item → List Char
  | .char text _ _ => text.toList
  | .rule _ => []
  | .glue _ => [' ']
  | .box _ items => flatAll items

def flatAll : List Item → List Char
  | [] => []
  | i :: more => i.flat ++ flatAll more

end

def sizeText (e : Extent) : String :=
  "(" ++ e.width.text ++ ", " ++ e.height.text ++ ", " ++ e.depth.text ++ ")"

def runningText (d : Option Dimension) : String := (d.map Dimension.text).getD "*"

def boxName : Mode → String
  | .horizontal => "HBox"
  | .vertical => "VBox"

def indented (level : Nat) (s : String) : String :=
  String.ofList (List.replicate (2 * level) ' ') ++ s

mutual

/-- One line for each item, behind two spaces for each level; `none` if a box has no size. -/
def dump? (level : Nat) : Item → Option (List String)
  | .char text font e =>
    some [indented level ("Char " ++ Text.quoted text ++ " " ++ font ++ " " ++ sizeText e)]
  | .rule r =>
    some [indented level ("Rule (" ++ runningText r.width ++ ", " ++ runningText r.height ++ ", " ++
      runningText r.depth ++ ")")]
  | .glue g => some [indented level ("Glue " ++ g.text)]
  | .box mode items => do
    let e ← extent? mode items
    let lines ← dumpAll? (level + 1) items
    return indented level (boxName mode ++ " " ++ sizeText e) :: lines

def dumpAll? (level : Nat) : List Item → Option (List String)
  | [] => some []
  | i :: more => do return (← i.dump? level) ++ (← dumpAll? level more)

end

end Item

/-- A finished list that is not packaged in a box. -/
structure Composed where
  mode : Mode
  items : List Item
  deriving Repr

namespace Composed

def flat (list : Composed) : String := String.ofList (Item.flatAll list.items)

def dump? (list : Composed) : Option String := do
  let lines ← Item.dumpAll? 1 list.items
  return String.join ((("TypesetList " ++ list.mode.name) :: lines).map (· ++ "\n"))

end Composed

end Galley
