import Mathlib.Data.Rat.Floor
import Mathlib.Tactic.Linarith
import Mathlib.Tactic.Ring

/-
  Rounding toward zero, and an exponential average that is rounded so after every step.

  The rounding does not leave a range with integer bounds (`truncate_mem`), so the average stays
  in a range that holds it and the sample (`smooth_mem`). One step brings the average nearer to
  the sample by the factor `1 - alpha`, up to 1 for the rounding (`abs_smooth_sub_le`).

  A deviation that is first divided as a whole number counts in steps only: this is
  `div_lt_div_iff_exists_mul`.
-/

namespace RehldsM.Lib

universe u

variable {K : Type u} [Field K] [LinearOrder K] [IsStrictOrderedRing K] [FloorRing K]

/-- The integer part. -/
def truncate (x : K) : Int := if 0 ≤ x then ⌊x⌋ else ⌈x⌉

/-- Rounding does not leave a range with integer bounds. -/
theorem truncate_mem {x : K} {lo hi : Int} (hlo : (lo : K) ≤ x) (hhi : x ≤ (hi : K)) :
    lo ≤ truncate x ∧ truncate x ≤ hi := by
  unfold truncate
  split
  · exact ⟨Int.le_floor.mpr hlo, Int.floor_le_iff.mpr (hhi.trans_lt (lt_add_one _))⟩
  · exact ⟨Int.le_ceil_iff.mpr ((sub_one_lt _).trans_le hlo), Int.ceil_le.mpr hhi⟩

theorem abs_truncate_sub_le (x : K) : |(truncate x : K) - x| ≤ 1 := by
  have hfloor := Int.floor_le x
  have hfloor' := Int.lt_floor_add_one x
  have hceil := Int.le_ceil x
  have hceil' := Int.ceil_lt_add_one x
  unfold truncate
  rw [abs_le]
  split
  · constructor <;> linarith
  · constructor <;> linarith

/-- One step of the average, with the weight `alpha` of the sample. -/
def smooth (alpha : K) (sample average : Int) : Int :=
  truncate (alpha * sample + (1 - alpha) * average)

section smooth

variable {alpha : K} {sample average lo hi : Int}

theorem smooth_mem (h0 : 0 ≤ alpha) (h1 : alpha ≤ 1)
    (hs : lo ≤ sample ∧ sample ≤ hi) (ha : lo ≤ average ∧ average ≤ hi) :
    lo ≤ smooth alpha sample average ∧ smooth alpha sample average ≤ hi := by
  have hrest : 0 ≤ 1 - alpha := by linarith
  have hslo : (lo : K) ≤ sample := Int.cast_le.mpr hs.1
  have hshi : (sample : K) ≤ hi := Int.cast_le.mpr hs.2
  have halo : (lo : K) ≤ average := Int.cast_le.mpr ha.1
  have hahi : (average : K) ≤ hi := Int.cast_le.mpr ha.2
  apply truncate_mem
  · calc (lo : K) = alpha * lo + (1 - alpha) * lo := by ring
      _ ≤ alpha * sample + (1 - alpha) * average :=
          add_le_add (mul_le_mul_of_nonneg_left hslo h0) (mul_le_mul_of_nonneg_left halo hrest)
  · calc alpha * sample + (1 - alpha) * average ≤ alpha * hi + (1 - alpha) * hi :=
          add_le_add (mul_le_mul_of_nonneg_left hshi h0) (mul_le_mul_of_nonneg_left hahi hrest)
      _ = hi := by ring

theorem abs_smooth_sub_le (h1 : alpha ≤ 1) :
    |(smooth alpha sample average : K) - sample| ≤ (1 - alpha) * |(average : K) - sample| + 1 := by
  have hmix : alpha * sample + (1 - alpha) * average - sample =
      (1 - alpha) * ((average : K) - sample) := by ring
  have hround := abs_truncate_sub_le (alpha * sample + (1 - alpha) * average)
  calc |(smooth alpha sample average : K) - sample|
      = |((smooth alpha sample average : K) - (alpha * sample + (1 - alpha) * average)) +
          (alpha * sample + (1 - alpha) * average - sample)| := by rw [sub_add_sub_cancel]
    _ ≤ |(smooth alpha sample average : K) - (alpha * sample + (1 - alpha) * average)| +
          |alpha * sample + (1 - alpha) * average - sample| := abs_add_le _ _
    _ ≤ 1 + (1 - alpha) * |(average : K) - sample| := by
        rw [hmix, abs_mul, abs_of_nonneg (by linarith : 0 ≤ 1 - alpha)]
        exact add_le_add_left hround _
    _ = (1 - alpha) * |(average : K) - sample| + 1 := add_comm _ _

end smooth

/-- Quotients differ exactly when a multiple of the divisor lies between the dividends. -/
theorem div_lt_div_iff_exists_mul {a b c : Nat} (hc : 0 < c) :
    a / c < b / c ↔ ∃ k, a < k * c ∧ k * c ≤ b := by
  constructor
  · intro h
    exact ⟨b / c, (Nat.div_lt_iff_lt_mul hc).mp h, Nat.div_mul_le_self b c⟩
  · rintro ⟨k, ha, hb⟩
    exact ((Nat.div_lt_iff_lt_mul hc).mpr ha).trans_le ((Nat.le_div_iff_mul_le hc).mpr hb)

end RehldsM.Lib
