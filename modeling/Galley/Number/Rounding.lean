/-!
Rounding of quotients to the nearest integer, a half going to the even neighbour.
-/

namespace Galley.Number

def roundDiv (n : Int) (d : Nat) : Int :=
  let q := n / d
  let twice := 2 * (n % d)
  if twice < d then q
  else if d < twice then q + 1
  else if q % 2 = 0 then q
  else q + 1

def round (q : Rat) : Int := roundDiv q.num q.den

/-- The result is at most half a unit away. -/
theorem roundDiv_near (n : Int) {d : Nat} (h : 0 < d) :
    2 * (roundDiv n d * d - n) ≤ d ∧ 2 * (n - roundDiv n d * d) ≤ d := by
  have hm := Int.emod_add_mul_ediv n d
  have h0 := Int.emod_nonneg n (show (d : Int) ≠ 0 by omega)
  have h1 := Int.emod_lt_of_pos n (show (0 : Int) < d by omega)
  have hc : n / d * (d : Int) = d * (n / d) := Int.mul_comm _ _
  have hs : (n / d + 1) * (d : Int) = d * (n / d) + d := by
    rw [Int.add_mul, Int.one_mul, hc]
  unfold roundDiv
  dsimp only
  split
  · rw [hc]
    omega
  · split
    · rw [hs]
      omega
    · split
      · rw [hc]
        omega
      · rw [hs]
        omega

theorem roundDiv_of_dvd (n : Int) {d : Nat} (h : 0 < d) : roundDiv (n * d) d = n := by
  have hd : (d : Int) ≠ 0 := by omega
  simp [roundDiv, Int.mul_ediv_cancel n hd, h]

end Galley.Number
