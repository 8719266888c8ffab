import RehldsM.Lib.Smoothing

/-
  An exponential average with a weight of `c` at least, while the samples stay near a value.

  The distance to the value, beyond that of the samples, shrinks by the factor `1 - c` in each
  step and grows by 1 for the rounding. `radius` is how far it is after `n` steps; what it was in
  the beginning is forgotten, and the roundings amount to `1 / c` (`radius_le`).
-/

namespace RehldsM.Lib

universe u

variable {K : Type u} [Field K]

/-- The bound `r` after `n` steps. -/
def radius (c r : K) : Nat → K
  | 0 => r
  | n + 1 => radius c ((1 - c) * r + 1) n

theorem radius_eq {c : K} (hc : c ≠ 0) (r : K) (n : Nat) :
    radius c r n = (1 - c) ^ n * r + (1 - (1 - c) ^ n) / c := by
  induction n generalizing r with
  | zero => simp [radius]
  | succ n ih =>
    rw [radius, ih, pow_succ]
    field_simp
    ring

variable [LinearOrder K] [IsStrictOrderedRing K]

theorem radius_le {c : K} (hpos : 0 < c) (hle : c ≤ 1) (r : K) (n : Nat) :
    radius c r n ≤ (1 - c) ^ n * r + 1 / c := by
  have hpow : 0 ≤ (1 - c) ^ n := pow_nonneg (by linarith) n
  rw [radius_eq (ne_of_gt hpos)]
  have hdiv : (1 - (1 - c) ^ n) / c ≤ 1 / c := by
    apply div_le_div_of_nonneg_right _ hpos.le
    linarith
  linarith

/-- One step, with a sample near `x`. -/
theorem abs_smooth_sub_le_radius [FloorRing K] {alpha c r eps x : K} {sample average : Int}
    (hc : c ≤ alpha) (h0 : 0 ≤ alpha) (h1 : alpha ≤ 1) (hr : 0 ≤ r)
    (hsample : |(sample : K) - x| ≤ eps) (haverage : |(average : K) - x| ≤ r + eps) :
    |(smooth alpha sample average : K) - x| ≤ (1 - c) * r + 1 + eps := by
  have hround := abs_truncate_sub_le (alpha * sample + (1 - alpha) * average)
  have hmix : alpha * sample + (1 - alpha) * average - x =
      alpha * ((sample : K) - x) + (1 - alpha) * ((average : K) - x) := by ring
  have hrest : 0 ≤ 1 - alpha := by linarith
  have hnear : |alpha * sample + (1 - alpha) * average - x| ≤ (1 - c) * r + eps := by
    calc |alpha * sample + (1 - alpha) * average - x|
        ≤ |alpha * ((sample : K) - x)| + |(1 - alpha) * ((average : K) - x)| := by
          rw [hmix]
          exact abs_add_le _ _
      _ = alpha * |(sample : K) - x| + (1 - alpha) * |(average : K) - x| := by
          rw [abs_mul, abs_mul, abs_of_nonneg h0, abs_of_nonneg hrest]
      _ ≤ alpha * eps + (1 - alpha) * (r + eps) :=
          add_le_add (mul_le_mul_of_nonneg_left hsample h0)
            (mul_le_mul_of_nonneg_left haverage hrest)
      _ = (1 - alpha) * r + eps := by ring
      _ ≤ (1 - c) * r + eps := by
          have hfactor := mul_le_mul_of_nonneg_right (by linarith : 1 - alpha ≤ 1 - c) hr
          linarith
  have hsplit : (smooth alpha sample average : K) - x =
      ((smooth alpha sample average : K) - (alpha * sample + (1 - alpha) * average)) +
        (alpha * sample + (1 - alpha) * average - x) := by ring
  calc |(smooth alpha sample average : K) - x|
      ≤ |(smooth alpha sample average : K) - (alpha * sample + (1 - alpha) * average)| +
          |alpha * sample + (1 - alpha) * average - x| := by
        rw [hsplit]
        exact abs_add_le _ _
    _ ≤ 1 + ((1 - c) * r + eps) := add_le_add hround hnear
    _ = (1 - c) * r + 1 + eps := by ring

end RehldsM.Lib
