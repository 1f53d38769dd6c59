import Galley.Box
import Galley.Quantity

/-!
The list builder: expanded tokens to items. The lists under construction form a nest; `step` reads
one command and says how the nest changes, and `Machine.build` repeats it to the end of input.
-/

namespace Galley

/-- The lists under construction, the innermost first, each with its items, last one first. -/
inductive Nest
  | outer (mode : Mode) (items : List Item)
  | group (mode : Mode) (items : List Item) (within : Nest)
  | paragraph (items : List Item) (within : Nest)
  deriving Repr

namespace Nest

/-- A paragraph is a horizontal list. -/
def mode : Nest → Mode
  | outer mode _ => mode
  | group mode _ _ => mode
  | paragraph _ _ => .horizontal

def add (i : Item) : Nest → Nest
  | outer mode items => .outer mode (i :: items)
  | group mode items within => .group mode (i :: items) within
  | paragraph items within => .paragraph (i :: items) within

end Nest

/-- Where the extents of characters come from. -/
structure Typeface where
  metrics : Metrics
  font : String
  deriving DecidableEq, Repr

namespace Build

/-- The effect of one command: what becomes of the nest, and a change of the tables. -/
structure Effect where
  turn : Turn Nest Composed
  assignment : Option Assignment := none

abbrev Step := Scan Effect

def fault {α : Type} (f : BuildFault) : Scan α := .fail (.build f)

def goOn (nest : Nest) : Step := return { turn := .again nest }

def ofGlyph {α : Type} : Except UnknownGlyph α → Scan α
  | .ok a => return a
  | .error e => .fail (.glyph e)

/-- A box of finished items, whose size must be in range. -/
def package (mode : Mode) (items : List Item) : Scan Item :=
  match Item.extent? mode items with
  | some _ => return .box mode items
  | none => fault .boxTooLarge

/-- Ends a paragraph: its trailing glue is dropped, and it leaves nothing if it is empty. -/
def closeParagraph (items : List Item) (within : Nest) : Step :=
  match items.dropWhile Item.isGlue with
  | [] => goOn within
  | kept => do goOn (within.add (← package .horizontal kept.reverse))

def closeGroup (mode : Mode) (items : List Item) (within : Nest) : Step := do
  goOn (within.add (← package mode items.reverse))

/-- Starts a paragraph with a token that is put back. -/
def openParagraph (t : Lexeme) (nest : Nest) : Step := do
  Scan.back [t]
  goOn (.paragraph [] nest)

def interword (face : Typeface) (nest : Nest) : Step := do
  goOn (nest.add (.glue (← ofGlyph (face.metrics.interword face.font))))

def letter (face : Typeface) (c : Char) (nest : Nest) : Step := do
  let text := String.singleton c
  let extent ← ofGlyph (face.metrics.extentOf face.font text)
  goOn (nest.add (.char text face.font extent))

def endGroup (t : Lexeme) : Nest → Step
  | .outer _ _ => fault .unopenedGroup
  | .group mode items within => closeGroup mode items within
  | .paragraph items within => do
    Scan.back [t]
    closeParagraph items within

def character (face : Typeface) (t : Lexeme) (c : Char) (cat : Category) (nest : Nest) : Step :=
  match cat with
  | .endGroup => endGroup t nest
  | .beginGroup => goOn (.group nest.mode [] nest)
  | .letter | .other =>
    match nest.mode with
    | .vertical => openParagraph t nest
    | .horizontal => letter face c nest
  | .space =>
    match nest.mode with
    | .vertical => goOn nest
    | .horizontal => interword face nest
  | .active => fault (.undefinedActive c)
  | cat => fault (.unsupported c cat)

/-- Reads the name and the text of a definition. -/
def define (nest : Nest) : Step := do
  match ← Scan.nextRaw with
  | none => fault .nothingToDefine
  | some t =>
    if t.token.isDefinable then
      match ← Scan.consume Definition.read with
      | .ok d => return { turn := .again nest, assignment := some (.define t.token d) }
      | .error f => .fail (.definition t.token.text f)
    else fault .nothingToDefine

def maxCodePoint : Int := 0x10FFFF

/-- Only the numbers from 0 to the highest code point stand for characters. -/
def codePoint? (n : Int) : Option Nat := if 0 ≤ n ∧ n ≤ maxCodePoint then some n.toNat else none

theorem codePoint?_eq {n : Int} (h : 0 ≤ n ∧ n ≤ maxCodePoint) : codePoint? n = some n.toNat :=
  if_pos h

/-- Reads a character code and the category that it gets. -/
def categorize (nest : Nest) : Step := do
  let code ← Quantity.int
  if 0 ≤ code ∧ code ≤ maxCodePoint then
    Quantity.optionalEquals
    let value ← Quantity.int
    if 0 ≤ value ∧ value ≤ 15 then
      match codePoint? code, Category.ofCode? value with
      | some c, some cat =>
        return { turn := .again nest, assignment := some (.categorize c cat) }
      | none, _ => .fail (.defect .noCharacter)
      | some _, none => .fail (.defect .noCategory)
    else fault (.badCategoryCode value)
  else fault (.badCharacterCode code)

/-- Reads the beginning of a box, before which blanks and `\relax` may stand. -/
def openBox (mode : Mode) (nest : Nest) : Step := do
  let t ← .loop (fun () => do
    let t ← Quantity.nonBlank
    return if t.any (·.token = .cs "relax") then .again () else .finish t) ()
  if t.any (·.token.isBegin) then goOn (.group mode [] nest) else fault .missingBox

/-- Reads one dimension of a rule, if there is a further one. -/
def ruleStep (r : Rule) : Scan (Turn Rule Rule) := do
  if ← Quantity.keyword "width" then
    let d ← Quantity.dimension
    return .again { r with width := some d }
  else if ← Quantity.keyword "height" then
    let d ← Quantity.dimension
    return .again { r with height := some d }
  else if ← Quantity.keyword "depth" then
    let d ← Quantity.dimension
    return .again { r with depth := some d }
  else return .finish r

/-- Reads the dimensions of a rule; the last one for each keyword counts. -/
def rule (nest : Nest) : Step := do
  let r ← .loop ruleStep (Rule.usual nest.mode)
  goOn (nest.add (.rule r))

def skip (nest : Nest) : Step := do goOn (nest.add (.glue (← Quantity.glue)))

/-- Commands that start a paragraph in a vertical list. -/
def horizontalCommands : List String := ["hskip", "vrule", " "]

/-- Commands that end a paragraph. -/
def verticalCommands : List String := ["vskip", "hrule"]

def primitive (face : Typeface) (name : String) (nest : Nest) : Step :=
  match name with
  | "relax" => goOn nest
  | "def" => define nest
  | "catcode" => categorize nest
  | "hskip" | "vskip" => skip nest
  | "hbox" => openBox .horizontal nest
  | "vbox" => openBox .vertical nest
  | "hrule" | "vrule" => rule nest
  | " " => interword face nest
  | _ => fault (.undefinedControl name)

def paragraphEnd : Nest → Step
  | .paragraph items within => closeParagraph items within
  | nest => goOn nest

/-- A vertical command in a horizontal list. -/
def interrupt (t : Lexeme) (name : String) : Nest → Step
  | .paragraph items within => do
    Scan.back [t]
    closeParagraph items within
  | _ => fault (.notHorizontal name)

def control (face : Typeface) (t : Lexeme) (name : String) (nest : Nest) : Step :=
  if name = "par" then paragraphEnd nest
  else if nest.mode = .vertical ∧ name ∈ horizontalCommands then openParagraph t nest
  else if nest.mode = .horizontal ∧ name ∈ verticalCommands then interrupt t name nest
  else primitive face name nest

def atEnd : Nest → Step
  | .outer mode items => return { turn := .finish ⟨mode, items.reverse⟩ }
  | .group _ _ _ => fault .unclosedGroup
  | .paragraph items within => closeParagraph items within

/-- Reads one command. -/
def step (face : Typeface) (nest : Nest) : Step := do
  match ← Scan.next with
  | none => atEnd nest
  | some t =>
    match t.token with
    | .ch c cat => character face t c cat nest
    | .cs name => control face t name nest

end Build

/-- A run in progress. -/
structure Machine where
  tables : Tables
  input : Input
  deriving DecidableEq, Repr

namespace Machine

/-- Carries out one command; a failed one changes no table. -/
def turn (face : Typeface) (rounds : Nat) (nest : Nest) (m : Machine) :
    Outcome Machine (Turn Nest Composed) :=
  match (Build.step face nest).run (handler m.tables rounds) rounds m.input with
  | .done e i => .done e.turn ⟨e.assignment.elim m.tables m.tables.assign, i⟩
  | .failed fault i => .failed fault { m with input := i }
  | .unfinished => .unfinished

/-- Builds a list from all that is left of the input. -/
def build (face : Typeface) (rounds : Nat) (mode : Mode) (m : Machine) : Outcome Machine Composed :=
  iterate (turn face rounds) rounds (.outer mode []) m

end Machine

end Galley
