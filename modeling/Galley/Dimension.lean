import Galley.Number.Double
import Galley.Number.RationalText
import Galley.Number.Rounding
import Galley.Text.Lower
import Galley.Text.Quoted

/-!
Dimensions: whole numbers of scaled points within a fixed range. A length given in another unit is
rounded to the nearest scaled point.
-/

namespace Galley

/-- The units of length, in the order in which a reader tries them. -/
inductive LengthUnit
  | pt | pc | inch | bp | cm | mm | dd | cc | sp
  deriving DecidableEq, Repr

namespace LengthUnit

def all : List LengthUnit := [pt, pc, inch, bp, cm, mm, dd, cc, sp]

def name : LengthUnit → String
  | pt => "pt" | pc => "pc" | inch => "in" | bp => "bp" | cm => "cm" | mm => "mm" | dd => "dd"
  | cc => "cc" | sp => "sp"

/-- The number of points in the unit. -/
def points : LengthUnit → Rat
  | pt => 1
  | pc => 12
  | inch => mkRat 7227 100
  | bp => mkRat 7227 7200
  | cm => mkRat 7227 254
  | mm => mkRat 7227 2540
  | dd => mkRat 1238 1157
  | cc => mkRat 14856 1157
  | sp => mkRat 1 65536

/-- Finds a unit by its name in any letter case. -/
def ofName? (s : String) : Option LengthUnit :=
  all.find? fun u => u.name.toList = s.toList.flatMap Text.lower

end LengthUnit

/-- The number of scaled points in a point. -/
def scale : Nat := 65536

def maxDimension : Int := 1073741823

structure Dimension where
  sp : Int
  lower : -maxDimension ≤ sp
  upper : sp ≤ maxDimension
  deriving DecidableEq, Repr

inductive DimensionError
  | tooLarge
  | unknownUnit (unit : String)
  | notDimension (text : String)
  | notNumber (text : String)
  | notDigits (letters : String)
  | zeroDenominator
  | infinite
  | undefined
  deriving DecidableEq, Repr

def DimensionError.message : DimensionError → String
  | .tooLarge => "dimension too large"
  | .unknownUnit unit => "unknown unit: " ++ unit
  | .notDimension text => "invalid dimension: " ++ Text.quoted text
  | .notNumber text => "Invalid literal for Fraction: " ++ Text.quoted text
  | .notDigits letters =>
    "invalid literal for int() with base 10: " ++ Text.quotedUpTo 200 letters
  | .zeroDenominator => "zero denominator"
  | .infinite => "cannot convert Infinity to integer ratio"
  | .undefined => "cannot convert NaN to integer ratio"

namespace Dimension

/-- Refuses what is out of range. -/
def ofSp? (n : Int) : Option Dimension :=
  if h : -maxDimension ≤ n ∧ n ≤ maxDimension then some ⟨n, h.1, h.2⟩ else none

def zero : Dimension := ⟨0, by decide, by decide⟩

instance : Inhabited Dimension := ⟨zero⟩

def add? (a b : Dimension) : Option Dimension := ofSp? (a.sp + b.sp)

def sub? (a b : Dimension) : Option Dimension := ofSp? (a.sp - b.sp)

def mul? (a : Dimension) (k : Int) : Option Dimension := ofSp? (a.sp * k)

def neg (a : Dimension) : Dimension :=
  ⟨-a.sp, by have := a.upper; omega, by have := a.lower; unfold maxDimension at *; omega⟩

def max (a b : Dimension) : Dimension := if a.sp < b.sp then b else a

/-- The scaled points nearest to a length. -/
def spOf (value : Rat) (unit : LengthUnit) : Int :=
  Number.round (value * unit.points * (scale : Nat))

def ofUnits? (value : Rat) (unit : LengthUnit) : Option Dimension := ofSp? (spOf value unit)

/-- A number as text may have a comma for its point; no text at all is zero. -/
def readNumber (text : String) : Except DimensionError Rat :=
  let plain := String.ofList (text.toList.map fun c => if c = ',' then '.' else c)
  match Number.readRational (if plain.isEmpty then "0" else plain) with
  | .ok q => .ok q
  | .error .malformed => .error (.notNumber plain)
  | .error (.notDigits letters) => .error (.notDigits (String.ofList letters))
  | .error .zeroDenominator => .error .zeroDenominator

def checked (d : Option Dimension) : Except DimensionError Dimension :=
  match d with
  | some d => .ok d
  | none => .error .tooLarge

def ofValue (value : Rat) (unit : String) : Except DimensionError Dimension :=
  match LengthUnit.ofName? unit with
  | some u => checked (ofUnits? value u)
  | none => .error (.unknownUnit unit)

/-- The exact value of a binary number, which must be finite. -/
def ofDouble (value : Number.Double) (unit : String) : Except DimensionError Dimension :=
  match LengthUnit.ofName? unit with
  | none => .error (.unknownUnit unit)
  | some u =>
    match value with
    | .infinite _ => .error .infinite
    | .undefined => .error .undefined
    | value => checked (value.toRat?.bind (ofUnits? · u))

/-- The unit is looked up before the number is read. -/
def ofText (value unit : String) : Except DimensionError Dimension :=
  match LengthUnit.ofName? unit with
  | some u => do checked (ofUnits? (← readNumber value) u)
  | none => .error (.unknownUnit unit)

/-- A written dimension taken apart: whether it is negative, its number and its unit. -/
structure Written where
  negative : Bool
  number : List Char
  unit : List Char
  deriving DecidableEq, Repr

def isPoint (c : Char) : Bool := c = '.' || c = ','

def isUnitLetter (c : Char) : Bool := ('a' ≤ c && c ≤ 'z') || ('A' ≤ c && c ≤ 'Z')

/-- The digits, with at most one point, that a text begins with, and the rest of it. -/
def takeNumber (s : List Char) : List Char × List Char :=
  let rest := s.dropWhile Text.isDigit
  match rest with
  | c :: more =>
    if isPoint c then
      (s.takeWhile Text.isDigit ++ c :: more.takeWhile Text.isDigit, more.dropWhile Text.isDigit)
    else (s.takeWhile Text.isDigit, rest)
  | [] => (s.takeWhile Text.isDigit, [])

/-- Takes apart a sign, a number and a unit of two letters; blanks may stand around each. -/
def takeApart? (s : List Char) : Option Written :=
  let s := s.dropWhile Text.isBlank
  let sign := Number.takeSign s
  let number := takeNumber (sign.2.dropWhile Text.isBlank)
  match number.2.dropWhile Text.isBlank with
  | a :: b :: rest =>
    if isUnitLetter a && isUnitLetter b && rest.all Text.isBlank && number.1.any Text.isDigit then
      some ⟨sign.1, number.1, [a, b]⟩
    else none
  | _ => none

def parse (text : String) : Except DimensionError Dimension :=
  match takeApart? text.toList with
  | none => .error (.notDimension text)
  | some w => do
    let d ← ofText (String.ofList w.number) (String.ofList w.unit)
    return if w.negative then d.neg else d

/-- The number of points, rounded to five places. -/
def pointsText (d : Dimension) : List Char :=
  Number.placesText 5 (Number.roundDiv (d.sp * 100000) scale)

def text (d : Dimension) : String := String.ofList (d.pointsText ++ ['p', 't'])

theorem ofSp?_eq_some_iff {n : Int} {d : Dimension} : ofSp? n = some d ↔ d.sp = n := by
  unfold ofSp?
  split
  · constructor
    · rintro h
      rw [← Option.some.inj h]
    · intro h
      congr 1
      cases d
      simp_all
  · rename_i h
    constructor
    · intro h'
      cases h'
    · intro h'
      exact absurd ⟨h' ▸ d.lower, h' ▸ d.upper⟩ h

theorem ofSp?_isSome_iff (n : Int) :
    (ofSp? n).isSome ↔ -maxDimension ≤ n ∧ n ≤ maxDimension := by
  unfold ofSp?
  split <;> simp_all

@[ext] theorem ext {a b : Dimension} (h : a.sp = b.sp) : a = b := by
  cases a
  cases b
  simp_all

end Dimension

end Galley
