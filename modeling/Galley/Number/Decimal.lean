import Galley.Text.Digit

/-!
Decimal numbers: digits with at most one point among them, read to rationals, and multiples of a
power of a tenth, written without needless zeros.
-/

namespace Galley.Number

def ofDigits (ds : List Nat) : Nat := ds.foldl (fun n d => 10 * n + d) 0

/-- The digits that a text begins with, and the rest of it. -/
def takeDigits : List Char → List Nat × List Char
  | [] => ([], [])
  | c :: s =>
    match Text.digitValue? c with
    | some d => (d :: (takeDigits s).1, (takeDigits s).2)
    | none => ([], c :: s)

/-- The number with these digits before and behind the point. -/
def decimal (whole fraction : List Nat) : Rat :=
  mkRat (ofDigits (whole ++ fraction)) (Nat.pow 10 fraction.length)

/-- Reads digits with at most one point, at least one digit being there. -/
def readDecimal? (s : List Char) : Option Rat :=
  let whole := takeDigits s
  let fraction := match whole.2 with
    | '.' :: s => takeDigits s
    | s => ([], s)
  if fraction.2.isEmpty && !(whole.1.isEmpty && fraction.1.isEmpty) then
    some (decimal whole.1 fraction.1)
  else none

/-- The last `places` digits of a number. -/
def lastDigits : Nat → Nat → List Char
  | 0, _ => []
  | places + 1, n => lastDigits places (n / 10) ++ [Char.ofNat (48 + n % 10)]

def withoutTrailingZeros (s : List Char) : List Char :=
  (s.reverse.dropWhile (· = '0')).reverse

/-- The digits behind the point; one zero is kept if there are none. -/
def fractionText (places n : Nat) : List Char :=
  match withoutTrailingZeros (lastDigits places n) with
  | [] => ['0']
  | s => s

/-- Writes `k` units of the given decimal place. -/
def placesText (places : Nat) (k : Int) : List Char :=
  let n := k.natAbs
  (if k < 0 then ['-'] else []) ++ (toString (n / Nat.pow 10 places)).toList ++
    '.' :: fractionText places (n % Nat.pow 10 places)

theorem lastDigits_length (places n : Nat) : (lastDigits places n).length = places := by
  induction places generalizing n with
  | zero => rfl
  | succ places ih => simp [lastDigits, ih]

end Galley.Number
