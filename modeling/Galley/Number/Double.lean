import Galley.Number.Rounding

/-!
Binary numbers of 53 bits: read from decimal ones by rounding to nearest, and written with the
fewest digits that read back.
-/

namespace Galley.Number

/-- A finite number is `m * 2 ^ e`, with its sign. -/
inductive Double
  | finite (negative : Bool) (m : Nat) (e : Int)
  | infinite (negative : Bool)
  | undefined
  deriving DecidableEq, Repr

namespace Double

/-- `b ^ e` as a quotient. -/
def power (b : Nat) : Int → Nat × Nat
  | .ofNat n => (b.pow n, 1)
  | .negSucc n => (1, b.pow (n + 1))

def leastExponent : Int := -1074

/-- The exponent that leaves 53 bits of a positive quotient, or the least one. -/
def exponentFor (num den : Nat) : Int :=
  let e : Int := (num.log2 : Int) - den.log2 - 53
  let p := power 2 e
  let e := if den * p.1 * Nat.pow 2 53 ≤ num * p.2 then e + 1 else e
  if e < leastExponent then leastExponent else e

/-- The number nearest to `n * 10 ^ e`. -/
def ofDecimal (negative : Bool) (n : Nat) (e : Int) : Double :=
  if n = 0 then .finite negative 0 0
  else
    let ten := power 10 e
    let num := n * ten.1
    let den := ten.2
    let e := exponentFor num den
    let two := power 2 e
    let m := (roundDiv (num * two.2 : Nat) (den * two.1)).toNat
    if Nat.pow 2 1024 * two.2 ≤ m * two.1 then .infinite negative else .finite negative m e

/-- The exact value of a finite number. -/
def toRat? : Double → Option Rat
  | .finite negative m e =>
    let two := power 2 e
    some (mkRat (if negative then -(m * two.1 : Nat) else (m * two.1 : Nat)) two.2)
  | .infinite _ | .undefined => none

/-- Says whether `c * 10 ^ k` reads back as `m * 2 ^ e`. Units of a quarter of the last bit keep all
bounds whole. -/
def readsBack (m : Nat) (e : Int) (c : Nat) (k : Int) : Bool :=
  let ten := power 10 k
  let two := power 2 e
  let low := if m = Nat.pow 2 52 ∧ leastExponent < e then 4 * m - 1 else 4 * m - 2
  let value := 4 * c * ten.1 * two.2
  let unit := ten.2 * two.1
  if m % 2 = 0 then low * unit ≤ value && value ≤ (4 * m + 2) * unit
  else low * unit < value && value < (4 * m + 2) * unit

/-- The multiple of `10 ^ k` that reads back, the nearer one of two. -/
def onGrid? (m : Nat) (e : Int) (k : Int) : Option Nat :=
  let ten := power 10 k
  let two := power 2 e
  let num := m * two.1 * ten.2
  let den := two.2 * ten.1
  let c := num / den
  let twice := 2 * (num % den)
  let near := if twice < den ∨ (twice = den ∧ c % 2 = 0) then [c, c + 1] else [c + 1, c]
  near.find? fun c => readsBack m e c k

/-- The first hit on the grids from `10 ^ k` downwards. -/
def shortestFrom (m : Nat) (e : Int) (k : Int) : Nat → Nat × Int
  | 0 => (m, 0)
  | n + 1 =>
    match onGrid? m e k with
    | some 0 => shortestFrom m e (k - 1) n
    | some c => (c, k)
    | none => shortestFrom m e (k - 1) n

/-- The fewest digits of a positive number, as a whole number and a power of ten. -/
def shortest (m : Nat) (e : Int) : Nat × Int :=
  let two := power 2 e
  let k : Int := ((toString (m * two.1 / two.2)).length : Int)
  shortestFrom m e k 400

/-- Digits and the place of the point, positional between `1e-4` and `1e16`. -/
def digitsText (digits : String) (point : Int) : String :=
  let n : Int := digits.length
  if -4 < point ∧ point ≤ 16 then
    if point ≤ 0 then "0." ++ String.ofList (List.replicate (-point).toNat '0') ++ digits
    else if n ≤ point then
      digits ++ String.ofList (List.replicate (point - n).toNat '0') ++ ".0"
    else (digits.take point.toNat).toString ++ "." ++ (digits.drop point.toNat).toString
  else
    let e := point - 1
    let size := toString e.natAbs
    let mantissa :=
      if n = 1 then digits else (digits.take 1).toString ++ "." ++ (digits.drop 1).toString
    mantissa ++ "e" ++ (if e < 0 then "-" else "+") ++ (if size.length = 1 then "0" else "") ++ size

def text : Double → String
  | .undefined => "nan"
  | .infinite negative => if negative then "-inf" else "inf"
  | .finite negative m e =>
    (if negative then "-" else "") ++
      if m = 0 then "0.0"
      else
        let s := shortest m e
        let digits := String.ofList
          ((toString s.1).toList.reverse.dropWhile (· = '0')).reverse
        digitsText digits (((toString s.1).length : Int) + s.2)

end Double

end Galley.Number
