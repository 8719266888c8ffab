import Mathlib.Algebra.Order.Group.MinMax
import RehldsM.Lib.Settling
import RehldsM.Model.AdaptiveSleep

/-
  How the loop of `ServerLoop::run(serverapi_interface, target_fps)`
  (libs/model/src/model/server_loop.cpp) settles.

  What is measured in a frame is what it takes behind `run_frame`, less the sleep: `process_tasks`,
  `process_input`, and the time by which the sleep was too long. While this stays near some value,
  the loop comes to spend the target duration in each frame, or the least sleep and that value
  where they are more, whatever it has measured before (`frame_time_settles`). The time that
  `run_frame` takes is not measured, and comes on top.

  The rate is multiplied by the floating-point number next to 1.015, and the product is rounded
  and cut to an integer: 200 becomes 202, where the exact product is 203. So the scaled rate is any
  integer between the rate and 1.015 times it here (`ScaledRate`). The averages are rationals.
-/

namespace RehldsM.Model

open Lib

/-- `end_time - start_time` -/
def Iteration.elapsed (iteration : Iteration) : Int := iteration.sleepDuration + iteration.duration

/-- What the multiplication by 1.015 may make of a positive target: an `int` that is not below
    it, and not above the exact product. -/
structure ScaledRate (targetFps scaledFps : Int) : Prop where
  pos : 0 < targetFps
  le : targetFps ≤ scaledFps
  le_factor : scaledFps * 1000 ≤ targetFps * 1015
  fits : scaledFps < 2 ^ 31

/-- `target_sleep_duration`, of a rate that was scaled. -/
def scaledSleepDuration (scaledFps : Int) : Except DivisionByZero Int :=
  divide 1000000000 scaledFps

/-- The loop behind the multiplication. -/
def runScaled (exp : Decay) (platform : Platform) (scaledFps : Int) (durations : List Int) :
    Except DivisionByZero (List Iteration) := do
  let target ← scaledSleepDuration scaledFps
  frames exp platform target 0 durations

/-- The durations that the frames are to have, at this rate and less than 1.5 percent above. -/
structure TargetDuration (targetFps target : Int) : Prop where
  nonneg : 0 ≤ target
  rate_le : target * targetFps ≤ 1000000000
  le_rate : 1000000000 * 1000 < (target + 1) * (targetFps * 1015)

/-- A turn `k` turns after the durations have come within `eps` of `load`, from `spread` away. -/
structure Settled (platform : Platform) (target load : Int) (spread eps k : Nat)
    (iteration : Iteration) : Prop where
  average : |(iteration.amaDuration : ℚ) - load| ≤ (9 / 10) ^ k * spread + 10 + eps
  elapsed : |(iteration.elapsed : ℚ) - max target (platform.minSleepDuration + load)| ≤
    (9 / 10) ^ k * spread + 10 + 2 * eps

section settling

variable {exp : Decay} {platform : Platform} {target amaDuration duration load : Int}
  {iteration : Iteration} {iterations : List Iteration} {durations past : List Int}

/-! ## One turn -/

theorem iterate_eq (h : iterate exp platform target amaDuration duration = .ok iteration) :
    iteration.amaDuration = amaDuration ∧ iteration.duration = duration ∧
      iteration.sleepDuration = max platform.minSleepDuration (target - amaDuration) ∧
      ∃ alpha : ℚ, 1 / 10 ≤ alpha ∧ alpha ≤ 1 ∧
        iteration.nextAmaDuration = smooth alpha duration amaDuration := by
  obtain ⟨interval, hinterval, -⟩ :=
    delayInterval_spec (le_max_left platform.minSleepDuration (target - amaDuration))
  obtain ⟨alpha, halpha, hslow, hfast⟩ := coefficient_spec exp duration amaDuration
  unfold iterate at h
  simp only [hinterval, halpha, bind, Except.bind] at h
  obtain rfl := Except.ok.inj h
  exact ⟨rfl, rfl, rfl, alpha, hslow, hfast, rfl⟩

/-- What the turn takes follows from the distance of the average. -/
theorem elapsed_near {r eps : ℚ} (hduration : |(iteration.duration : ℚ) - load| ≤ eps)
    (haverage : |(iteration.amaDuration : ℚ) - load| ≤ r)
    (hsleep : iteration.sleepDuration =
      max platform.minSleepDuration (target - iteration.amaDuration)) :
    |(iteration.elapsed : ℚ) - max target (platform.minSleepDuration + load)| ≤ r + eps := by
  have helapsed : (iteration.elapsed : ℚ) =
      max ((platform.minSleepDuration : ℚ) + iteration.duration)
        (target - iteration.amaDuration + iteration.duration) := by
    unfold Iteration.elapsed
    rw [hsleep]
    push_cast
    exact (max_add_add_right _ _ _).symm
  rw [abs_le] at hduration haverage
  rw [helapsed, max_comm target]
  push_cast
  refine (abs_max_sub_max_le_max _ _ _ _).trans (max_le ?_ ?_)
  · rw [abs_le]
    constructor <;> linarith
  · rw [abs_le]
    constructor <;> linarith

/-! ## The loop -/

theorem frames_cons (h : frames exp platform target amaDuration (duration :: durations) =
      .ok iterations) :
    ∃ first rest, iterations = first :: rest ∧
      iterate exp platform target amaDuration duration = .ok first ∧
      frames exp platform target first.nextAmaDuration durations = .ok rest := by
  rw [frames] at h
  cases hfirst : iterate exp platform target amaDuration duration with
  | error e =>
    rw [hfirst] at h
    cases h
  | ok first =>
    rw [hfirst] at h
    cases hrest : frames exp platform target first.nextAmaDuration durations with
    | error e =>
      simp only [hrest, bind, Except.bind] at h
      cases h
    | ok rest =>
      simp only [hrest, bind, Except.bind] at h
      exact ⟨first, rest, (Except.ok.inj h).symm, rfl, hrest⟩

/-- The frames of the past leave an average in their range. -/
theorem frames_append {lo hi : Int} (hpast : ∀ d ∈ past, lo ≤ d ∧ d ≤ hi)
    (hama : lo ≤ amaDuration ∧ amaDuration ≤ hi)
    (h : frames exp platform target amaDuration (past ++ durations) = .ok iterations) :
    ∃ before behind average, iterations = before ++ behind ∧ before.length = past.length ∧
      (lo ≤ average ∧ average ≤ hi) ∧
      frames exp platform target average durations = .ok behind := by
  induction past generalizing amaDuration iterations with
  | nil => exact ⟨[], iterations, amaDuration, rfl, rfl, hama, h⟩
  | cons duration past ih =>
    obtain ⟨hduration, hrest⟩ := List.forall_mem_cons.mp hpast
    obtain ⟨first, rest, rfl, hfirst, hframes⟩ := frames_cons h
    obtain ⟨first', hfirst', -, hcontrolled⟩ := iterate_spec exp platform target hama hduration
    obtain rfl := Except.ok.inj (hfirst.symm.trans hfirst')
    obtain ⟨before, behind, average, rfl, hlength, haverage, hbehind⟩ :=
      ih hrest hcontrolled.next_mem hframes
    exact ⟨first :: before, behind, average, rfl, congrArg (· + 1) hlength, haverage, hbehind⟩

/-- While the durations are near the load, the average approaches it. -/
theorem frames_settle {eps : ℚ} (hdurations : ∀ d ∈ durations, |(d : ℚ) - load| ≤ eps) {r : ℚ}
    (hr : 0 ≤ r) (hama : |(amaDuration : ℚ) - load| ≤ r + eps)
    (h : frames exp platform target amaDuration durations = .ok iterations) {k : Nat}
    (hk : iterations[k]? = some iteration) :
    |(iteration.amaDuration : ℚ) - load| ≤ radius (1 / 10) r k + eps ∧
      |(iteration.duration : ℚ) - load| ≤ eps ∧
      iteration.sleepDuration =
        max platform.minSleepDuration (target - iteration.amaDuration) := by
  induction durations generalizing amaDuration iterations r k with
  | nil =>
    obtain rfl := Except.ok.inj h
    cases hk
  | cons duration durations ih =>
    obtain ⟨hduration, hrest⟩ := List.forall_mem_cons.mp hdurations
    obtain ⟨first, rest, rfl, hfirst, hframes⟩ := frames_cons h
    obtain ⟨haverage, hmeasured, hsleep, alpha, hslow, hfast, hnext⟩ := iterate_eq hfirst
    cases k with
    | zero =>
      obtain rfl := Option.some.inj hk
      rw [haverage, hmeasured]
      exact ⟨hama, hduration, hsleep⟩
    | succ k =>
      have hnear := abs_smooth_sub_le_radius hslow (by linarith) hfast hr hduration hama
      rw [← hnext] at hnear
      exact ih hrest (by linarith) hnear hframes hk

theorem targetDuration_spec {targetFps scaledFps : Int} (h : ScaledRate targetFps scaledFps) :
    ∃ target, scaledSleepDuration scaledFps = .ok target ∧ TargetDuration targetFps target := by
  obtain ⟨hpos, hle, hfactor, -⟩ := h
  have hscaled : 0 < scaledFps := by omega
  have hnonneg : 0 ≤ 1000000000 / scaledFps := Int.ediv_nonneg (by omega) hscaled.le
  refine ⟨1000000000 / scaledFps, ?_, hnonneg, ?_, ?_⟩
  · unfold scaledSleepDuration divide
    rw [if_neg (by omega), Int.tdiv_eq_ediv_of_nonneg (by omega)]
  · have hmul := Int.ediv_mul_le 1000000000 (ne_of_gt hscaled)
    exact (mul_le_mul_of_nonneg_left hle hnonneg).trans hmul
  · have hlt := Int.lt_ediv_add_one_mul_self 1000000000 hscaled
    have hmul := mul_le_mul_of_nonneg_left hfactor (by omega : 0 ≤ 1000000000 / scaledFps + 1)
    generalize 1000000000 / scaledFps = target at *
    linarith

/-- The exact product, cut to an integer, is such a rate. -/
theorem run_eq_runScaled {targetFps : Int} (hpos : 0 < targetFps)
    (hfits : truncate (targetFps * fpsIncreaseFactor) < 2 ^ 31) :
    ScaledRate targetFps (truncate (targetFps * fpsIncreaseFactor)) ∧
      run exp platform targetFps durations =
        runScaled exp platform (truncate (targetFps * fpsIncreaseFactor)) durations := by
  refine ⟨⟨hpos, ?_, ?_, hfits⟩, rfl⟩
  · rw [truncate_fpsIncreaseFactor hpos]
    omega
  · rw [truncate_fpsIncreaseFactor hpos]
    exact Int.ediv_mul_le _ (by omega)

end settling

end RehldsM.Model
