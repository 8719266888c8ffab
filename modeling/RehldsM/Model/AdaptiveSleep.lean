import Mathlib.Algebra.Order.Ring.NNRat
import RehldsM.Lib.Smoothing

/-
  `ServerLoop::run(serverapi_interface, target_fps)` (libs/model/src/model/server_loop.cpp): how
  long the loop sleeps in each frame, and the moving average of its execution times that this
  depends on.

  Durations are in nanoseconds; what the clock measures in a frame is a parameter. The
  floating-point numbers are rationals, and `std::exp` is a `Decay`. A division whose divisor is
  zero is an error, so a run that returns has made none.

  `iterate_spec` is one turn of the loop, `frames_spec` the induction along it.

  The deviation of a duration is divided by the average before it is a floating-point number. So
  the coefficient depends on how often the deviation contains the average, as a whole number of
  times: deviations below the average have all the same one (`coefficient_lt_iff`).
-/

namespace RehldsM.Model

open Lib

/-- What the code relies on of `std::exp(-n)`. -/
structure Decay where
  value : Nat → ℚ
  zero : value 0 = 1
  pos : ∀ n, 0 < value n
  le_one : ∀ n, value n ≤ 1

inductive Platform where
  | linux
  | windows
deriving DecidableEq

/-- The least sleep of the loop. -/
def Platform.minSleepDuration : Platform → Int
  | linux => 1
  | windows => 100

inductive DivisionByZero where
  | divisionByZero
deriving DecidableEq

/-- The integer division of C++, toward zero. -/
def divide (a b : Int) : Except DivisionByZero Int :=
  if b = 0 then .error .divisionByZero else .ok (a.tdiv b)

def fastSmoothingCoefficient : ℚ := 1

def slowSmoothingCoefficient : ℚ := 1 / 10

def calculateAdaptiveSmoothingCoefficient (exp : Decay) (duration amaDuration : Int) :
    Except DivisionByZero ℚ :=
  if 0 = amaDuration then .ok fastSmoothingCoefficient
  else do
    let quotient ← divide (duration - amaDuration) amaDuration
    .ok (fastSmoothingCoefficient +
      (slowSmoothingCoefficient - fastSmoothingCoefficient) * exp.value quotient.natAbs)

def fpsIncreaseFactor : ℚ := 1015 / 1000

def targetSleepDuration (targetFps : Int) : Except DivisionByZero Int :=
  divide 1000000000 (truncate (targetFps * fpsIncreaseFactor))

/-- A turn of the loop. `interval` is what `delay_execution` is given on Windows. -/
structure Iteration where
  amaDuration : Int
  sleepDuration : Int
  interval : Option Int
  duration : Int
  nextAmaDuration : Int
deriving DecidableEq

def delayInterval (platform : Platform) (sleepDuration : Int) :
    Except DivisionByZero (Option Int) :=
  match platform with
  | .linux => .ok none
  | .windows => (divide sleepDuration (-100)).map some

def iterate (exp : Decay) (platform : Platform) (target amaDuration duration : Int) :
    Except DivisionByZero Iteration := do
  let sleepDuration := max platform.minSleepDuration (target - amaDuration)
  let interval ← delayInterval platform sleepDuration
  let alpha ← calculateAdaptiveSmoothingCoefficient exp duration amaDuration
  let nextAmaDuration := smooth alpha duration amaDuration
  .ok { amaDuration, sleepDuration, interval, duration, nextAmaDuration }

/-- The loop, while `run_frame` returns true: once for each measured duration. -/
def frames (exp : Decay) (platform : Platform) (target : Int) :
    Int → List Int → Except DivisionByZero (List Iteration)
  | _, [] => .ok []
  | amaDuration, duration :: durations => do
    let iteration ← iterate exp platform target amaDuration duration
    let iterations ← frames exp platform target iteration.nextAmaDuration durations
    .ok (iteration :: iterations)

def run (exp : Decay) (platform : Platform) (targetFps : Int) (durations : List Int) :
    Except DivisionByZero (List Iteration) := do
  let target ← targetSleepDuration targetFps
  frames exp platform target 0 durations

/-- What is promised of a turn when the average begins in the range of the measured durations. -/
structure Controlled (platform : Platform) (target lo hi : Int) (iteration : Iteration) : Prop where
  average_mem : lo ≤ iteration.amaDuration ∧ iteration.amaDuration ≤ hi
  next_mem : lo ≤ iteration.nextAmaDuration ∧ iteration.nextAmaDuration ≤ hi
  min_le_sleep : platform.minSleepDuration ≤ iteration.sleepDuration
  sleep_le : iteration.sleepDuration ≤ max platform.minSleepDuration (target - lo)
  target_le_sleep : target - hi ≤ iteration.sleepDuration
  interval_neg : ∀ interval ∈ iteration.interval, interval < 0
  contracts : |(iteration.nextAmaDuration : ℚ) - iteration.duration| ≤
    9 / 10 * |(iteration.amaDuration : ℚ) - iteration.duration| + 1

/-! ## One turn -/

theorem coefficient_spec (exp : Decay) (duration amaDuration : Int) :
    ∃ alpha, calculateAdaptiveSmoothingCoefficient exp duration amaDuration = .ok alpha ∧
      1 / 10 ≤ alpha ∧ alpha ≤ 1 := by
  unfold calculateAdaptiveSmoothingCoefficient
  by_cases hzero : 0 = amaDuration
  · refine ⟨1, if_pos hzero, ?_, le_refl 1⟩
    norm_num
  · rw [if_neg hzero, divide, if_neg fun h => hzero h.symm]
    refine ⟨_, rfl, ?_, ?_⟩
    · have hle := exp.le_one ((duration - amaDuration).tdiv amaDuration).natAbs
      unfold fastSmoothingCoefficient slowSmoothingCoefficient
      linarith
    · have hpos := exp.pos ((duration - amaDuration).tdiv amaDuration).natAbs
      unfold fastSmoothingCoefficient slowSmoothingCoefficient
      linarith

/-- A hundred nanoseconds are one unit of the interval at least. -/
theorem delayInterval_spec {platform : Platform} {sleepDuration : Int}
    (h : platform.minSleepDuration ≤ sleepDuration) :
    ∃ interval, delayInterval platform sleepDuration = .ok interval ∧ ∀ i ∈ interval, i < 0 := by
  cases platform with
  | linux => exact ⟨none, rfl, by simp⟩
  | windows =>
    refine ⟨some (sleepDuration.tdiv (-100)), rfl, fun i hi => ?_⟩
    obtain rfl := Option.some.inj hi
    have hmin : 100 ≤ sleepDuration := h
    rw [Int.tdiv_neg, Int.tdiv_eq_ediv_of_nonneg (by omega)]
    omega

theorem iterate_spec (exp : Decay) (platform : Platform) (target : Int)
    {amaDuration duration lo hi : Int} (hama : lo ≤ amaDuration ∧ amaDuration ≤ hi)
    (hduration : lo ≤ duration ∧ duration ≤ hi) :
    ∃ iteration, iterate exp platform target amaDuration duration = .ok iteration ∧
      iteration.duration = duration ∧ Controlled platform target lo hi iteration := by
  have hmin : platform.minSleepDuration ≤ max platform.minSleepDuration (target - amaDuration) :=
    le_max_left _ _
  obtain ⟨interval, hinterval, hneg⟩ := delayInterval_spec hmin
  obtain ⟨alpha, halpha, hslow, hfast⟩ := coefficient_spec exp duration amaDuration
  have hnext := smooth_mem (by linarith : 0 ≤ alpha) hfast hduration hama
  have hnear : |(smooth alpha duration amaDuration : ℚ) - duration| ≤
      (1 - alpha) * |(amaDuration : ℚ) - duration| + 1 := abs_smooth_sub_le hfast
  have habs := abs_nonneg ((amaDuration : ℚ) - duration)
  refine ⟨⟨amaDuration, max platform.minSleepDuration (target - amaDuration), interval, duration,
    smooth alpha duration amaDuration⟩, ?_, rfl, ?_⟩
  · unfold iterate
    simp only [hinterval, halpha, bind, Except.bind]
  · exact {
      average_mem := hama
      next_mem := hnext
      min_le_sleep := hmin
      sleep_le := max_le_max (le_refl _) (by omega)
      target_le_sleep := le_max_of_le_right (by omega)
      interval_neg := hneg
      contracts := by
        refine hnear.trans ?_
        have hfactor := mul_le_mul_of_nonneg_right (by linarith : 1 - alpha ≤ 9 / 10) habs
        linarith }

/-! ## The loop -/

theorem frames_spec (exp : Decay) (platform : Platform) (target : Int) {lo hi : Int}
    {durations : List Int} (hdurations : ∀ d ∈ durations, lo ≤ d ∧ d ≤ hi) {amaDuration : Int}
    (hama : lo ≤ amaDuration ∧ amaDuration ≤ hi) :
    ∃ iterations, frames exp platform target amaDuration durations = .ok iterations ∧
      iterations.map Iteration.duration = durations ∧
      ∀ iteration ∈ iterations, Controlled platform target lo hi iteration := by
  induction durations generalizing amaDuration with
  | nil => exact ⟨[], rfl, rfl, by simp⟩
  | cons duration durations ih =>
    obtain ⟨hduration, hrest⟩ := List.forall_mem_cons.mp hdurations
    obtain ⟨iteration, hiterate, hmeasured, hcontrolled⟩ :=
      iterate_spec exp platform target hama hduration
    obtain ⟨iterations, hframes, hmap, hall⟩ := ih hrest hcontrolled.next_mem
    refine ⟨iteration :: iterations, ?_, ?_, List.forall_mem_cons.mpr ⟨hcontrolled, hall⟩⟩
    · simp only [frames, hiterate, hframes, bind, Except.bind]
    · rw [List.map_cons, hmeasured, hmap]

theorem truncate_fpsIncreaseFactor {targetFps : Int} (h : 0 < targetFps) :
    truncate (targetFps * fpsIncreaseFactor) = targetFps * 1015 / 1000 := by
  have hquotient : targetFps * fpsIncreaseFactor =
      ((targetFps * 1015 : Int) : ℚ) / (1000 : Nat) := by
    unfold fpsIncreaseFactor
    push_cast
    ring
  have hnonneg : (0 : ℚ) ≤ targetFps * fpsIncreaseFactor := by
    have hcast : (0 : ℚ) ≤ targetFps := by exact_mod_cast h.le
    exact mul_nonneg hcast (by norm_num [fpsIncreaseFactor])
  unfold truncate
  rw [if_pos hnonneg, hquotient, Rat.floor_intCast_div_natCast]
  rfl

/-- The factor does not take a positive number of frames below one. -/
theorem targetSleepDuration_spec {targetFps : Int} (h : 0 < targetFps) :
    ∃ target, targetSleepDuration targetFps = .ok target ∧ 0 ≤ target := by
  unfold targetSleepDuration divide
  rw [truncate_fpsIncreaseFactor h, if_neg (by omega)]
  exact ⟨_, rfl, Int.tdiv_nonneg (by decide) (by omega)⟩

/-- Three decimals of `exp(-1)`, to the power. -/
def decimalExp : Decay where
  value n := (368 / 1000) ^ n
  zero := pow_zero _
  pos _ := pow_pos (by norm_num) _
  le_one _ := pow_le_one₀ (by norm_num) (by norm_num)

/-- `x ↦ exp(-x)` as a strictly decreasing function. -/
structure StrictDecay where
  value : ℚ≥0 → ℚ
  zero : value 0 = 1
  pos : ∀ x, 0 < value x
  strictAnti : StrictAnti value

/-- `std::exp` is called for whole numbers only. -/
def StrictDecay.toDecay (exp : StrictDecay) : Decay where
  value n := exp.value n
  zero := by rw [Nat.cast_zero, exp.zero]
  pos n := exp.pos n
  le_one n := by
    rw [← exp.zero]
    exact exp.strictAnti.antitone (Nat.cast_nonneg n)

/-- The coefficient of a deviation that contains the average `n` times. -/
def coefficientAt (exp : StrictDecay) (n : Nat) : ℚ :=
  fastSmoothingCoefficient +
    (slowSmoothingCoefficient - fastSmoothingCoefficient) * exp.value n

theorem coefficientAt_strictMono (exp : StrictDecay) : StrictMono (coefficientAt exp) := by
  intro m n hmn
  have hcast : (m : ℚ≥0) < n := Nat.cast_lt.mpr hmn
  have hvalue := exp.strictAnti hcast
  unfold coefficientAt fastSmoothingCoefficient slowSmoothingCoefficient
  linarith

theorem coefficient_eq (exp : StrictDecay) (duration : Int) {amaDuration : Int}
    (h : 0 < amaDuration) :
    calculateAdaptiveSmoothingCoefficient exp.toDecay duration amaDuration =
      .ok (coefficientAt exp ((duration - amaDuration).natAbs / amaDuration.natAbs)) := by
  unfold calculateAdaptiveSmoothingCoefficient
  have hquotient : ((duration - amaDuration).tdiv amaDuration).natAbs =
      (duration - amaDuration).natAbs / amaDuration.natAbs := Int.natAbs_tdiv _ _
  rw [if_neg (by omega), divide, if_neg (by omega), ← hquotient]
  rfl

/-- The coefficient of the larger deviation is larger exactly when a multiple of the average lies
    between the two. -/
theorem coefficient_lt_iff (exp : StrictDecay) {amaDuration duration₁ duration₂ : Int}
    (hama : 0 < amaDuration) (h : |duration₁ - amaDuration| < |duration₂ - amaDuration|) :
    ∃ alpha₁ alpha₂,
      calculateAdaptiveSmoothingCoefficient exp.toDecay duration₁ amaDuration = .ok alpha₁ ∧
      calculateAdaptiveSmoothingCoefficient exp.toDecay duration₂ amaDuration = .ok alpha₂ ∧
      (alpha₁ < alpha₂ ↔ ∃ k : Nat, |duration₁ - amaDuration| < k * amaDuration ∧
        k * amaDuration ≤ |duration₂ - amaDuration|) := by
  refine ⟨_, _, coefficient_eq exp duration₁ hama, coefficient_eq exp duration₂ hama, ?_⟩
  obtain ⟨average, rfl⟩ := Int.eq_ofNat_of_zero_le hama.le
  have haverage : 0 < average := Int.natCast_pos.mp hama
  rw [(coefficientAt_strictMono exp).lt_iff_lt, Int.natAbs_natCast,
    div_lt_div_iff_exists_mul haverage, Int.abs_eq_natAbs, Int.abs_eq_natAbs]
  norm_cast

/-- It has the values of `exp(-x)` at zero and, to three decimals, at one. -/
def hyperbolicExp : StrictDecay where
  value x := (1 + 1718 / 1000 * x)⁻¹
  zero := by norm_num
  pos x := by
    have hx : (0 : ℚ) ≤ x := x.2
    positivity
  strictAnti x y hxy := by
    have hx : (0 : ℚ) ≤ x := x.2
    have hcast : (x : ℚ) < y := hxy
    exact inv_strictAnti₀ (by positivity) (by linarith)

/-- A duration 50 percent above the average, and one that is two and a half times the average. -/
theorem coefficient_lt_iff_twice :
    ∃ alpha₁ alpha₂,
      calculateAdaptiveSmoothingCoefficient hyperbolicExp.toDecay 150 100 = .ok alpha₁ ∧
      calculateAdaptiveSmoothingCoefficient hyperbolicExp.toDecay 250 100 = .ok alpha₂ ∧
      (alpha₁ < alpha₂ ↔
        ∃ k : Nat, |(150 : Int) - 100| < k * 100 ∧ k * 100 ≤ |(250 : Int) - 100|) :=
  coefficient_lt_iff hyperbolicExp (by decide) (by decide)

/-- A duration 50 percent above the average has the weight of one that is equal to it. -/
theorem half_above_average_same_coefficient :
    |(100 : Int) - 100| < |(150 : Int) - 100| ∧
      calculateAdaptiveSmoothingCoefficient hyperbolicExp.toDecay 100 100 = .ok (1 / 10) ∧
      calculateAdaptiveSmoothingCoefficient hyperbolicExp.toDecay 150 100 = .ok (1 / 10) := by
  have hzero : coefficientAt hyperbolicExp 0 = 1 / 10 := by
    unfold coefficientAt fastSmoothingCoefficient slowSmoothingCoefficient
    rw [Nat.cast_zero, hyperbolicExp.zero]
    norm_num
  refine ⟨by decide, ?_, ?_⟩
  · rw [coefficient_eq hyperbolicExp 100 (by decide), ← hzero]
    rfl
  · rw [coefficient_eq hyperbolicExp 150 (by decide), ← hzero]
    rfl

end RehldsM.Model
