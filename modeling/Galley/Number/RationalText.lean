import Galley.Number.Decimal
import Galley.Text.Blank

/-!
Rationals as text: a sign, then a whole number over another one, or a decimal number with or without
an exponent. Blanks may stand around all of it, and single underscores between digits. Letters `d`
in place of the digits behind a point are a fault of their own, which names them and not the whole
text.
-/

namespace Galley.Number

inductive RationalFault
  | malformed
  | notDigits (letters : List Char)
  | zeroDenominator
  deriving DecidableEq, Repr

/-- The digits that a text goes on with; an underscore counts if a digit follows it. -/
def moreDigits : List Char → List Nat × List Char
  | [] => ([], [])
  | '_' :: c :: s =>
    match Text.digitValue? c with
    | some d => (d :: (moreDigits s).1, (moreDigits s).2)
    | none => ([], '_' :: c :: s)
  | c :: s =>
    match Text.digitValue? c with
    | some d => (d :: (moreDigits s).1, (moreDigits s).2)
    | none => ([], c :: s)

def groupedDigits : List Char → List Nat × List Char
  | [] => ([], [])
  | c :: s =>
    match Text.digitValue? c with
    | some d => (d :: (moreDigits s).1, (moreDigits s).2)
    | none => ([], c :: s)

def takeSign : List Char → Bool × List Char
  | '-' :: s => (true, s)
  | '+' :: s => (false, s)
  | s => (false, s)

/-- Reads what may follow the digits of a decimal number. -/
def readExponent? : List Char → Option Int
  | [] => some 0
  | c :: s =>
    if c = 'e' ∨ c = 'E' then
      let sign := takeSign s
      match groupedDigits sign.2 with
      | ([], _) => none
      | (ds, []) => some (if sign.1 then -(ofDigits ds : Int) else ofDigits ds)
      | _ => none
    else none

def scaleBy (q : Rat) : Int → Rat
  | .ofNat n => q * mkRat (Nat.pow 10 n) 1
  | .negSucc n => q * mkRat 1 (Nat.pow 10 (n + 1))

def isFractionLetter (c : Char) : Bool := c = 'd' || c = 'D'

/-- The letters that stand for the digits behind a point, if only an exponent follows them. -/
def fractionLetters? (s : List Char) : Option (List Char) :=
  match s.takeWhile isFractionLetter with
  | [] => none
  | letters => (readExponent? (s.dropWhile isFractionLetter)).map fun _ => letters

/-- Reads a decimal number from the digits before its point and what follows them. -/
def readScaled (whole : List Nat) (s : List Char) : Except RationalFault Rat :=
  let fraction := match s with
    | '.' :: s => groupedDigits s
    | s => ([], s)
  if whole.isEmpty && fraction.1.isEmpty then .error .malformed
  else
    match readExponent? fraction.2 with
    | some e => .ok (scaleBy (decimal whole fraction.1) e)
    | none => .error .malformed

/-- Reads what may follow a sign. -/
def readUnsigned (s : List Char) : Except RationalFault Rat :=
  match groupedDigits s with
  | (whole@(_ :: _), '/' :: s) =>
    match groupedDigits s with
    | ([], _) => .error .malformed
    | (ds, []) =>
      if ofDigits ds = 0 then .error .zeroDenominator
      else .ok (mkRat (ofDigits whole) (ofDigits ds))
    | _ => .error .malformed
  | (whole@(_ :: _), '.' :: s) =>
    match fractionLetters? s with
    | some letters => .error (.notDigits letters)
    | none => readScaled whole ('.' :: s)
  | (whole, s) => readScaled whole s

def readRational (s : String) : Except RationalFault Rat := do
  let sign := takeSign (Text.trimBlank s.toList)
  let q ← readUnsigned sign.2
  return if sign.1 then -q else q

end Galley.Number
