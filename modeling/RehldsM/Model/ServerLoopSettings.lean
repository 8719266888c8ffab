/-
  The settings of `ServerLoop` (libs/model/include/model/server_loop.hpp).
-/

namespace RehldsM.Model

inductive PingBoostLevel where
  | notSet
  | level1
  | level2
  | level3
  | level4
  | level5
  | targetFps
deriving DecidableEq, Repr

namespace PingBoostLevel

/-- `static_cast<int>(level)` -/
def toInt : PingBoostLevel → Int
  | notSet => 0
  | level1 => 1
  | level2 => 2
  | level3 => 3
  | level4 => 4
  | level5 => 5
  | targetFps => 6

/-- `static_cast<PingBoostLevel>(value)`; callers clamp the value to a level first. -/
def ofInt : Int → PingBoostLevel
  | 1 => level1
  | 2 => level2
  | 3 => level3
  | 4 => level4
  | 5 => level5
  | 6 => targetFps
  | _ => notSet

end PingBoostLevel

/-- `std::clamp` -/
def clamp (value low high : Int) : Int :=
  if value < low then low else if high < value then high else value

/-- `pingboost_level_` and `target_fps_`. -/
structure ServerLoopSettings where
  pingboostLevel : PingBoostLevel := .notSet
  targetFps : Int := 0
deriving DecidableEq, Repr

namespace ServerLoopSettings

def setPingboostLevel (serverLoop : ServerLoopSettings) (level : PingBoostLevel) :
    ServerLoopSettings :=
  { serverLoop with pingboostLevel := level }

def setTargetFps (serverLoop : ServerLoopSettings) (fps : Int) : ServerLoopSettings :=
  { serverLoop with targetFps := fps }

/-- The branch of `run(serverapi_interface)`: the `target_fps` it hands to the loop that has one. -/
def runTargetFps (serverLoop : ServerLoopSettings) : Option Int :=
  if serverLoop.pingboostLevel = .targetFps ∧ serverLoop.targetFps > 0 then
    some serverLoop.targetFps
  else none

end ServerLoopSettings

/-- A clamped value is a level that `-pingboost` can ask for. -/
theorem clamp_level_cases (value : Int) :
    let level := clamp value PingBoostLevel.notSet.toInt PingBoostLevel.level5.toInt
    level = 0 ∨ level = 1 ∨ level = 2 ∨ level = 3 ∨ level = 4 ∨ level = 5 := by
  unfold clamp PingBoostLevel.toInt
  dsimp only
  split
  · exact .inl rfl
  · split <;> omega

/-- A clamped level is `not_set` exactly for values that are not positive. -/
theorem ofInt_clamp_eq_notSet_iff (value : Int) :
    PingBoostLevel.ofInt (clamp value PingBoostLevel.notSet.toInt PingBoostLevel.level5.toInt) =
      .notSet ↔ value ≤ 0 := by
  have hzero : clamp value PingBoostLevel.notSet.toInt PingBoostLevel.level5.toInt = 0 ↔
      value ≤ 0 := by
    unfold clamp PingBoostLevel.toInt
    dsimp only
    split
    · omega
    · split <;> omega
  rw [← hzero]
  rcases clamp_level_cases value with h | h | h | h | h | h <;> rw [h] <;> decide

/-- The level of a loop with a target is none of them. -/
theorem ofInt_clamp_ne_targetFps (value : Int) :
    PingBoostLevel.ofInt (clamp value PingBoostLevel.notSet.toInt PingBoostLevel.level5.toInt) ≠
      .targetFps := by
  rcases clamp_level_cases value with h | h | h | h | h | h <;> rw [h] <;> decide

end RehldsM.Model
