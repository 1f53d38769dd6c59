import Galley.Number.Rounding
import Mathlib.Algebra.Order.Field.Basic
import Mathlib.Algebra.Order.Field.Rat
import Mathlib.Tactic.Linarith
import Mathlib.Tactic.Ring

/-!
What rounding comes to: the nearest integer, and the even one of two. There is only one such integer
for each rational, so a rounding is known from any integer that is seen to be near enough.
-/

namespace Galley.Number

/-- An integer nearest to a rational, the even one of two. -/
structure Nearest (q : ℚ) (n : ℤ) : Prop where
  close : |q - n| ≤ 1 / 2
  even : |q - n| = 1 / 2 → n % 2 = 0

variable {q : ℚ} {n m : ℤ}

/-- Of two integers that lie equally near the even one is chosen. -/
theorem roundDiv_even (n : ℤ) {d : ℕ} (h : 0 < d)
    (ht : 2 * (roundDiv n d * d - n) = d ∨ 2 * (n - roundDiv n d * d) = d) :
    roundDiv n d % 2 = 0 := by
  have hm := Int.emod_add_mul_ediv n d
  have h0 := Int.emod_nonneg n (show (d : ℤ) ≠ 0 by omega)
  have h1 := Int.emod_lt_of_pos n (show (0 : ℤ) < d by omega)
  have hc : n / d * (d : ℤ) = d * (n / d) := Int.mul_comm _ _
  have hs : (n / d + 1) * (d : ℤ) = d * (n / d) + d := by
    rw [Int.add_mul, Int.one_mul, hc]
  revert ht
  unfold roundDiv
  dsimp only
  split
  · rw [hc]
    omega
  · split
    · rw [hs]
      omega
    · split
      · intro _
        assumption
      · intro _
        omega

/-- The distance of an integer, in whole multiples of the denominator. -/
theorem abs_sub_eq (q : ℚ) (n : ℤ) : |q - n| = (|q.num - n * q.den| : ℤ) / q.den := by
  have hd : (0 : ℚ) < q.den := by exact_mod_cast q.den_pos
  have hq : q - n = ((q.num - n * q.den : ℤ) : ℚ) / q.den := by
    push_cast
    rw [sub_div, mul_div_cancel_right₀ _ hd.ne', Rat.num_div_den]
  rw [hq, abs_div, abs_of_pos hd, Int.cast_abs]

theorem round_nearest (q : ℚ) : Nearest q (round q) := by
  have hd : (0 : ℚ) < q.den := by exact_mod_cast q.den_pos
  have hnear := roundDiv_near q.num q.den_pos
  refine ⟨?_, fun ht => ?_⟩
  · have habs : 2 * |q.num - round q * q.den| ≤ q.den := by
      unfold round
      rcases abs_cases (q.num - roundDiv q.num q.den * q.den) with h | h <;> omega
    rw [abs_sub_eq, div_le_div_iff₀ hd two_pos]
    have : ((2 * |q.num - round q * q.den| : ℤ) : ℚ) ≤ (q.den : ℤ) := by exact_mod_cast habs
    push_cast at this ⊢
    linarith
  · rw [abs_sub_eq, div_eq_div_iff hd.ne' two_ne_zero] at ht
    have habs : |q.num - round q * q.den| * 2 = 1 * q.den := by exact_mod_cast ht
    apply roundDiv_even q.num q.den_pos
    unfold round at habs
    rcases abs_cases (q.num - roundDiv q.num q.den * q.den) with h | h <;> omega

/-- Of two neighbours halfway from a rational one is odd. -/
theorem Nearest.not_succ (h : Nearest q n) : ¬ Nearest q (n + 1) := by
  intro h'
  have hn := abs_le.mp h.close
  have hm := abs_le.mp h'.close
  push_cast at hm
  have hq : q - n = 1 / 2 := by linarith
  have hq' : q - ((n + 1 : ℤ) : ℚ) = -(1 / 2) := by
    push_cast
    linarith
  have heven : n % 2 = 0 := h.even (by rw [hq, abs_of_pos one_half_pos])
  have heven' : (n + 1) % 2 = 0 := h'.even (by rw [hq', abs_neg, abs_of_pos one_half_pos])
  omega

theorem Nearest.le (h : Nearest q n) (h' : Nearest q m) : n ≤ m := by
  have hn := abs_le.mp h.close
  have hm := abs_le.mp h'.close
  have hgap : n ≤ m + 1 := by
    have : (n : ℚ) ≤ ((m + 1 : ℤ) : ℚ) := by
      push_cast
      linarith
    exact_mod_cast this
  rcases Int.lt_or_eq_of_le hgap with hlt | rfl
  · omega
  · exact absurd h h'.not_succ

theorem Nearest.unique (h : Nearest q n) (h' : Nearest q m) : n = m :=
  Int.le_antisymm (h.le h') (h'.le h)

theorem Nearest.round_eq (h : Nearest q n) : round q = n := (round_nearest q).unique h

theorem Nearest.neg (h : Nearest q n) : Nearest (-q) (-n) := by
  have habs : |-q - ((-n : ℤ) : ℚ)| = |q - n| := by
    push_cast
    rw [← abs_neg]
    congr 1
    ring
  refine ⟨habs ▸ h.close, fun ht => ?_⟩
  have := h.even (habs ▸ ht)
  omega

theorem round_neg (q : ℚ) : round (-q) = -round q := (round_nearest q).neg.round_eq

/-- An integer that lies nearer than half a unit is nearest. -/
theorem nearest_of_lt (h : |q - n| < 1 / 2) : Nearest q n :=
  ⟨h.le, fun ht => absurd ht h.ne⟩

end Galley.Number
