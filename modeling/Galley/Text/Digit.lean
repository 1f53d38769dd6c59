/-!
Decimal digits of all scripts. Their code points come in runs of ten, from zero to nine.
-/

namespace Galley.Text

/-- Code points of the zeros, that of the plain digits first. -/
def zeros : List Nat :=
  [48, 1632, 1776, 1984, 2406, 2534, 2662, 2790, 2918, 3046, 3174, 3302, 3430, 3558, 3664, 3792,
   3872, 4160, 4240, 6112, 6160, 6470, 6608, 6784, 6800, 6992, 7088, 7232, 7248, 42528, 43216,
   43264, 43472, 43504, 43600, 44016, 65296, 66720, 68912, 69734, 69872, 69942, 70096, 70384,
   70736, 70864, 71248, 71360, 71472, 71904, 72016, 72784, 73040, 73120, 92768, 92864, 93008,
   120782, 120792, 120802, 120812, 120822, 123200, 123632, 125264, 130032]

def digitFrom (n : Nat) : List Nat → Option Nat
  | [] => none
  | z :: more => if z ≤ n ∧ n < z + 10 then some (n - z) else digitFrom n more

def digitValue? (c : Char) : Option Nat := digitFrom c.toNat zeros

def isDigit (c : Char) : Bool := (digitValue? c).isSome

theorem digitFrom_lt {n d : Nat} {zs : List Nat} (h : digitFrom n zs = some d) : d < 10 := by
  induction zs with
  | nil => simp [digitFrom] at h
  | cons z more ih =>
    unfold digitFrom at h
    split at h
    · simp at h
      omega
    · exact ih h

theorem digitValue?_lt {c : Char} {d : Nat} (h : digitValue? c = some d) : d < 10 :=
  digitFrom_lt h

end Galley.Text
