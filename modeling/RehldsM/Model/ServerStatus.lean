import Mathlib.Algebra.Group.Int.Defs
import RehldsM.Lib.Throttle
import RehldsM.Util.Observable
import RehldsM.Util.Strings

/-
  `ServerLoop::update_status` (libs/model/src/model/server_loop.cpp), with `ServerStatus`
  (libs/model/include/model/server_status.hpp).

  `is_time_to_update` reads the clock and compares with a static variable, which the first call
  initialises with a reading of its own. The times are nanoseconds, the difference is truncated to
  milliseconds. So the calls that go on to ask the engine are those that a throttle of 500 ms lets
  through (`isTimeToUpdate_eq`, `dueCalls`).
-/

namespace RehldsM.Model

open Lib Util

universe u v w

variable {φ : Type u} {σ : Type v} {β : Type w}

structure ServerStatus (φ : Type u) where
  fps : φ
  numPlayers : Int
  maxPlayers : Int
  currentMap : Str

/-- What the engine's `update_status` stores, for a map name that fits into the buffer. -/
structure EngineStatus (φ : Type u) where
  fps : φ
  numPlayers : Int
  maxPlayers : Int
  map : Str
  fits : map.length ≤ 32
  noNul : '\x00' ∉ map

/-- A call of `update_status`: the readings of the clock, the first of them for the static
    variable if it is not initialised yet, and what the engine answers if it is asked. -/
structure StatusCall (φ : Type u) where
  first : Int
  now : Int
  answer : EngineStatus φ

inductive ServerLoopEvent where
  | statusUpdated
deriving DecidableEq

/-- 500 ms. -/
def updateInterval : Int := 500

/-- `duration_cast<milliseconds>` -/
def toMilliseconds (nanoseconds : Int) : Int := nanoseconds.tdiv 1000000

/-- `is_time_to_update`, with the static variable that it leaves behind. -/
def isTimeToUpdate (lastUpdateTime : Option Int) (first now : Int) : Bool × Int :=
  let lastUpdateTime := lastUpdateTime.getD first
  if toMilliseconds (now - lastUpdateTime) ≥ updateInterval then (true, now)
  else (false, lastUpdateTime)

/-- The C string is written over the front of the buffer, with its NUL. -/
def writeCStr (buffer s : Str) : Str :=
  (s ++ '\x00' :: buffer.drop (s.length + 1)).take buffer.length

/-- `current_map` is cleared and made 32 NULs long, and the engine writes into it. -/
def ServerStatus.update (status : ServerStatus φ) (answer : EngineStatus φ) : ServerStatus φ :=
  let currentMap := List.replicate 32 '\x00'
  { status with
    fps := answer.fps
    numPlayers := answer.numPlayers
    maxPlayers := answer.maxPlayers
    currentMap := writeCStr currentMap answer.map }

/-- The part of `ServerLoop` that the listeners read, with what they have done so far. -/
structure StatusProgram (φ : Type u) (σ : Type v) where
  status : ServerStatus φ
  listened : σ

structure StatusLoop (β : Type w) (φ : Type u) (σ : Type v) where
  lastUpdateTime : Option Int
  observable : Observable β (StatusProgram φ σ)

/-- `ServerLoop::update_status`, for listeners that append none. -/
def updateStatus (callback : β → ServerLoopEvent → StatusProgram φ σ →
    List (ListenerCall β) × StatusProgram φ σ) (s : StatusLoop β φ σ) (call : StatusCall φ) :
    Except DanglingIterator (StatusLoop β φ σ) :=
  match isTimeToUpdate s.lastUpdateTime call.first call.now with
  | (false, lastUpdateTime) => .ok { s with lastUpdateTime := some lastUpdateTime }
  | (true, lastUpdateTime) => do
    let program := s.observable.program
    let observable ← Observable.notify (callback · .statusUpdated)
      { s.observable with
        program := { program with status := program.status.update call.answer } }
    .ok { lastUpdateTime := some lastUpdateTime, observable }

/-- 500 ms in nanoseconds. -/
def updateNanoseconds : Int := 500000000

/-- The calls of a run that ask the engine. -/
def dueCalls : List (StatusCall φ) → List (StatusCall φ)
  | [] => []
  | call :: calls => throttled updateNanoseconds StatusCall.now call.first (call :: calls)

/-! ## The timer and the buffer -/

theorem updateInterval_le_iff (elapsed : Int) :
    toMilliseconds elapsed ≥ updateInterval ↔ updateNanoseconds ≤ elapsed := by
  unfold toMilliseconds updateInterval updateNanoseconds
  rcases Int.le_total 0 elapsed with hpos | hneg
  · rw [Int.tdiv_eq_ediv_of_nonneg hpos]
    omega
  · obtain ⟨n, rfl⟩ : ∃ n, elapsed = -n := ⟨-elapsed, by omega⟩
    rw [Int.neg_tdiv, Int.tdiv_eq_ediv_of_nonneg (by omega)]
    omega

theorem isTimeToUpdate_eq (lastUpdateTime : Option Int) (first now : Int) :
    isTimeToUpdate lastUpdateTime first now =
      if updateNanoseconds ≤ now - lastUpdateTime.getD first then (true, now)
      else (false, lastUpdateTime.getD first) := by
  unfold isTimeToUpdate
  simp only [updateInterval_le_iff]

/-- The whole name is there, and the buffer keeps its length. -/
theorem update_currentMap (status : ServerStatus φ) (answer : EngineStatus φ) :
    (status.update answer).currentMap.length = 32 ∧
      cStr (status.update answer).currentMap = answer.map := by
  have hfits := answer.fits
  have hshape : (status.update answer).currentMap =
      answer.map ++ List.replicate (32 - answer.map.length) '\x00' := by
    show writeCStr (List.replicate 32 '\x00') answer.map = _
    rw [writeCStr, List.drop_replicate, List.length_replicate]
    rcases Nat.lt_or_eq_of_le hfits with hlt | heq
    · have hrest : '\x00' :: List.replicate (32 - (answer.map.length + 1)) '\x00' =
          List.replicate (32 - answer.map.length) '\x00' := by
        rw [← List.replicate_succ]
        congr 1
        omega
      rw [hrest, List.take_of_length_le]
      rw [List.length_append, List.length_replicate]
      omega
    · rw [List.take_append_of_le_length (Nat.le_of_eq heq.symm), heq,
        List.take_of_length_le (Nat.le_of_eq heq)]
      simp
  rw [hshape]
  constructor
  · rw [List.length_append, List.length_replicate]
    omega
  · have hmap : ∀ c ∈ answer.map, (c != '\x00') = true := by
      intro c hc
      rw [bne_iff_ne]
      rintro rfl
      exact answer.noNul hc
    have hnul : (List.replicate (32 - answer.map.length) '\x00').takeWhile (· != '\x00') = [] := by
      cases 32 - answer.map.length with
      | zero => rfl
      | succ n => rfl
    rw [cStr, List.takeWhile_append_of_pos hmap, hnul, List.append_nil]

end RehldsM.Model
