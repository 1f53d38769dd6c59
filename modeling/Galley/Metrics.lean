import Galley.Glue
import Galley.Value

/-!
Metrics of a font: the extent of each of its characters, and the glue between words. All printable
plain characters have one extent unless they have one of their own.
-/

namespace Galley

structure Extent where
  width : Dimension := .zero
  height : Dimension := .zero
  depth : Dimension := .zero
  deriving DecidableEq, Repr

inductive UnknownGlyph
  | noFont (name : String)
  | noCharacter (font text : String)
  deriving DecidableEq, Repr

def UnknownGlyph.message : UnknownGlyph → String
  | .noFont name => "no metrics loaded for font " ++ name
  | .noCharacter font text => "font " ++ font ++ " has no character " ++ Text.quoted text

/-- A number of points, zero if out of range. -/
def Dimension.ofPoints (q : Rat) : Dimension := (ofUnits? q .pt).getD .zero

structure Metrics where
  name : String := "cmr10"
  extent : Extent := { width := .ofPoints 5, height := .ofPoints 7 }
  space : Glue :=
    { natural := .ofPoints (mkRat 333333 100000)
      stretch := { amount := .ofPoints (mkRat 166666 100000) }
      shrink := { amount := .ofPoints (mkRat 111111 100000) } }
  overrides : Table Char Extent := {}
  deriving DecidableEq, Repr

inductive SettingError
  | dimension (e : DimensionError)
  | tooLarge (key : String)
  | character (text : String)
  deriving DecidableEq, Repr

def SettingError.message : SettingError → String
  | .dimension e => e.message
  | .tooLarge key => "font " ++ key ++ ": " ++ DimensionError.tooLarge.message
  | .character text => "invalid metrics for character " ++ Text.quoted text

namespace Metrics

def isPlain (c : Char) : Bool := 33 ≤ c.toNat && c.toNat ≤ 126

def checkFont (m : Metrics) (font : String) : Except UnknownGlyph Unit :=
  if font = m.name then .ok () else .error (.noFont font)

/-- The extent of a text, which must be a single character of the font. -/
def extentOf (m : Metrics) (font text : String) : Except UnknownGlyph Extent := do
  m.checkFont font
  match text.toList with
  | [c] =>
    match m.overrides.get? c with
    | some e => return e
    | none => if isPlain c then return m.extent else throw (.noCharacter font text)
  | _ => throw (.noCharacter font text)

def interword (m : Metrics) (font : String) : Except UnknownGlyph Glue := do
  m.checkFont font
  return m.space

def readDimension (key : String) (v : Value) : Except SettingError Dimension :=
  match Dimension.parse v.shown with
  | .ok d => .ok d
  | .error .tooLarge => .error (.tooLarge key)
  | .error e => .error (.dimension e)

def dimensionOr (settings : Settings) (key : String) (usual : Dimension) :
    Except SettingError Dimension :=
  match settings.get? key with
  | some v => readDimension key v
  | none => .ok usual

def readExtent (text : String) : Value → Except SettingError (Char × Extent)
  | .list [width, height, depth] =>
    match text.toList with
    | [c] => do
      let key := "chars." ++ text
      let width ← readDimension key width
      let height ← readDimension key height
      let depth ← readDimension key depth
      return (c, ⟨width, height, depth⟩)
    | _ => .error (.character text)
  | _ => .error (.character text)

def readOverrides (overrides : Table Char Extent) :
    List (String × Value) → Except SettingError (Table Char Extent)
  | [] => .ok overrides
  | (text, v) :: more => do
    let (c, extent) ← readExtent text v
    readOverrides (overrides.set c extent) more

/-- The metrics that settings describe; what they leave out is as usual. -/
def ofSettings (settings : Settings) : Except SettingError Metrics := do
  let usual : Metrics := {}
  let name := ((settings.get? "name").map Value.shown).getD usual.name
  let width ← dimensionOr settings "width" usual.extent.width
  let height ← dimensionOr settings "height" usual.extent.height
  let depth ← dimensionOr settings "depth" usual.extent.depth
  let natural ← dimensionOr settings "space" usual.space.natural
  let stretch ← dimensionOr settings "stretch" usual.space.stretch.amount
  let shrink ← dimensionOr settings "shrink" usual.space.shrink.amount
  let overrides ← readOverrides {} (((settings.get? "chars").map Value.entries).getD [])
  return {
    name := name
    extent := ⟨width, height, depth⟩
    space := ⟨natural, { amount := stretch }, { amount := shrink }⟩
    overrides := overrides }

end Metrics

end Galley
