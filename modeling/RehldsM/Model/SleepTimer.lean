import RehldsM.Lib.Run
import Mathlib.Logic.Function.Basic

/-
  The sleep of pingboost 1 (`sleep_timer`, `set_timer_real`, `sigalrm_handler` and the loop of
  `ServerLoop::run`, libs/model/src/model/linux/server_loop.cpp).

  The loop thread arms a one-shot timer and pauses until a signal is handled on it. The alarm can
  expire, and can be handled on any thread, between any two steps. An alarm handled between
  `set_timer_real` and `pause` wakes nobody, and so does one handled on another thread; for them
  the handler arms the timer again while `paused` is 0.

  `TimerInv` is what excludes a sleep without a wake-up: from `set_timer_real` up to the end of
  `pause`, an alarm is on its way, or a handler has still to arm the timer.
-/

namespace RehldsM.Model

open Lib

universe u

/-- Where the loop thread is. `process_tasks` and `process_input` touch nothing of the timer. -/
inductive SleepLoop where
  | runFrame
  /-- In `sleep_timer`, in front of `paused = 0`. -/
  | clearPaused
  | setTimer
  /-- In front of `pause`. -/
  | callPause
  | inPause
  /-- In front of `paused = 1`. -/
  | setPaused
  | ended
deriving DecidableEq

/-- Where a `sigalrm_handler` is. -/
inductive AlarmHandler where
  | reinstall
  | testPaused
  | setTimer
  | leave
deriving DecidableEq

/-- The process as the timer sees it. A thread `t` executes the handlers in `handlers t`, the
    innermost first; `pending` is the pending `SIGALRM`, of which there is one at most. -/
structure SleepTimer (α : Type u) where
  loop : SleepLoop
  paused : Nat
  armed : Bool
  pending : Bool
  handlers : α → List AlarmHandler

inductive SleepEvent (α : Type u) where
  | frame (result : Bool)
  /-- The loop thread takes its next step; `setsTimer` is whether `setitimer` succeeds in it. -/
  | loop (setsTimer : Bool)
  | expire
  | deliver (t : α)
  /-- The innermost handler on `t` takes its next step; `reinstalls` is whether `signal`
      succeeds in it. -/
  | handler (t : α) (reinstalls : Bool)
  /-- A signal other than `SIGALRM` is handled on the loop thread. -/
  | interrupt

/-- Why a step is not taken. -/
inductive SleepStop where
  | notEnabled
  | aborted

namespace SleepTimer

variable {α : Type u}

def start : SleepTimer α where
  loop := .runFrame
  paused := 0
  armed := false
  pending := false
  handlers _ := []

/-- `set_timer_real`. -/
def setTimerReal (s : SleepTimer α) : SleepTimer α := { s with armed := true }

/-- `pause` returns, if the loop thread is in it. -/
def wake (s : SleepTimer α) : SleepTimer α :=
  if s.loop = .inPause then { s with loop := .setPaused } else s

/-- The steps of `sleep_timer`. -/
def stepLoop (s : SleepTimer α) (setsTimer : Bool) : Except SleepStop (SleepTimer α) :=
  match s.loop with
  | .runFrame => .error .notEnabled
  | .clearPaused => .ok { s with paused := 0, loop := .setTimer }
  | .setTimer =>
    .ok (if setsTimer then { s.setTimerReal with loop := .callPause }
      else { s with loop := .setPaused })
  | .callPause => .ok { s with loop := .inPause }
  | .inPause => .error .notEnabled
  | .setPaused => .ok { s with paused := 1, loop := .runFrame }
  | .ended => .error .notEnabled

variable [DecidableEq α]

/-- Replaces the handlers on `t`. -/
def onThread (s : SleepTimer α) (t : α) (hs : List AlarmHandler) : SleepTimer α :=
  { s with handlers := Function.update s.handlers t hs }

/-- The steps of `sigalrm_handler` on `t`, where `setitimer` does not fail. When the last handler
    on the loop thread returns, so does `pause`. -/
def stepHandler (main : α) (s : SleepTimer α) (t : α) (reinstalls : Bool) :
    Except SleepStop (SleepTimer α) :=
  match s.handlers t with
  | [] => .error .notEnabled
  | .reinstall :: hs =>
    if reinstalls then .ok (s.onThread t (.testPaused :: hs)) else .error .aborted
  | .testPaused :: hs =>
    .ok (s.onThread t ((if s.paused = 0 then .setTimer else .leave) :: hs))
  | .setTimer :: hs => .ok (s.setTimerReal.onThread t (.leave :: hs))
  | .leave :: hs =>
    .ok (if t = main ∧ hs = [] then (s.onThread t hs).wake else s.onThread t hs)

/-- The loop thread takes no step of its own while a handler is on top of it. -/
def step (main : α) (s : SleepTimer α) : SleepEvent α → Except SleepStop (SleepTimer α)
  | .frame result =>
    if s.handlers main = [] ∧ s.loop = .runFrame then
      .ok { s with loop := if result then .clearPaused else .ended }
    else .error .notEnabled
  | .loop setsTimer => if s.handlers main = [] then s.stepLoop setsTimer else .error .notEnabled
  | .expire =>
    if s.armed then .ok { s with armed := false, pending := true } else .error .notEnabled
  | .deliver t =>
    if s.pending then .ok ({ s with pending := false }.onThread t (.reinstall :: s.handlers t))
    else .error .notEnabled
  | .handler t reinstalls => s.stepHandler main t reinstalls
  | .interrupt => if s.handlers main = [] then .ok s.wake else .error .notEnabled

end SleepTimer

open SleepTimer

/-! ## What waits for the alarm -/

section steps

variable {α : Type u} {s s' : SleepTimer α}

/-- In `sleep_timer`, where `paused` is 0. -/
def SleepLoop.Cleared (loop : SleepLoop) : Prop :=
  loop = .setTimer ∨ loop = .callPause ∨ loop = .inPause

/-- The timer was set for a `pause` that has not returned. -/
def SleepLoop.AwaitsAlarm (loop : SleepLoop) : Prop := loop = .callPause ∨ loop = .inPause

theorem SleepLoop.AwaitsAlarm.cleared {loop : SleepLoop} (h : loop.AwaitsAlarm) : loop.Cleared :=
  Or.inr h

/-- A handler on `t` that has not come to `set_timer_real`, or around it. -/
def HandlesAlarm (s : SleepTimer α) (t : α) : Prop := ∃ h ∈ s.handlers t, h ≠ .leave

/-- The alarm will come, or a handler is about to set it again. -/
def AlarmComes (s : SleepTimer α) : Prop :=
  s.armed = true ∨ s.pending = true ∨ ∃ t, HandlesAlarm s t

structure TimerInv (s : SleepTimer α) : Prop where
  paused : s.loop.Cleared → s.paused = 0
  alarm : s.loop.AwaitsAlarm → AlarmComes s

theorem timerInv_start : TimerInv (start : SleepTimer α) := by
  constructor <;> simp [start, SleepLoop.Cleared, SleepLoop.AwaitsAlarm]

/-- The loop thread is where it awaits nothing. -/
theorem timerInv_of_not_cleared (h : ¬ s.loop.Cleared) : TimerInv s :=
  ⟨fun hc => absurd hc h, fun ha => absurd ha.cleared h⟩

theorem timerInv_wake (h : TimerInv s) : TimerInv s.wake := by
  unfold wake
  split
  · apply timerInv_of_not_cleared
    simp [SleepLoop.Cleared]
  · exact h

/-- A step that is not the loop thread's: it only has to keep the alarm coming. -/
theorem TimerInv.of_alarm (h : TimerInv s) (hloop : s'.loop = s.loop)
    (hpaused : s'.paused = s.paused)
    (halarm : s.loop.AwaitsAlarm → AlarmComes s → AlarmComes s') : TimerInv s' := by
  refine ⟨fun hc => ?_, fun ha => ?_⟩
  · rw [hpaused]
    exact h.paused (hloop ▸ hc)
  · rw [hloop] at ha
    exact halarm ha (h.alarm ha)

theorem timerInv_stepLoop (h : TimerInv s) {setsTimer : Bool}
    (hstep : s.stepLoop setsTimer = .ok s') : TimerInv s' := by
  unfold stepLoop at hstep
  cases hloop : s.loop with
  | runFrame | inPause | ended =>
    rw [hloop] at hstep
    cases hstep
  | clearPaused =>
    rw [hloop] at hstep
    cases hstep
    refine ⟨fun _ => rfl, ?_⟩
    simp [SleepLoop.AwaitsAlarm]
  | setTimer =>
    rw [hloop] at hstep
    cases hstep
    have hzero : s.paused = 0 := h.paused (Or.inl hloop)
    cases setsTimer with
    | true => exact ⟨fun _ => hzero, fun _ => Or.inl rfl⟩
    | false =>
      apply timerInv_of_not_cleared
      simp [SleepLoop.Cleared]
  | callPause =>
    rw [hloop] at hstep
    cases hstep
    have ha : s.loop.AwaitsAlarm := Or.inl hloop
    exact ⟨fun _ => h.paused ha.cleared, fun _ => h.alarm ha⟩
  | setPaused =>
    rw [hloop] at hstep
    cases hstep
    apply timerInv_of_not_cleared
    simp [SleepLoop.Cleared]

variable [DecidableEq α] {t : α} {hs : List AlarmHandler}

theorem handlesAlarm_onThread_self {h : AlarmHandler} (hmem : h ∈ hs) (hne : h ≠ .leave) :
    HandlesAlarm (s.onThread t hs) t := by
  refine ⟨h, ?_, hne⟩
  show h ∈ Function.update s.handlers t hs t
  rwa [Function.update_self]

/-- The innermost handler on `t` moves on. If it was the one the alarm depended on, it still is,
    or the timer is set. -/
theorem alarmComes_onThread {h : AlarmHandler} {hs' : List AlarmHandler}
    (ht : s.handlers t = h :: hs) (hrest : ∀ x ∈ hs, x ∈ hs')
    (hkeeps : h ≠ .leave → ∃ x ∈ hs', x ≠ AlarmHandler.leave) (halarm : AlarmComes s) :
    AlarmComes (s.onThread t hs') := by
  rcases halarm with harmed | hpending | ⟨t', x, hx, hne⟩
  · exact Or.inl harmed
  · exact Or.inr (Or.inl hpending)
  · right
    right
    by_cases htt : t' = t
    · subst htt
      rw [ht] at hx
      rcases List.mem_cons.mp hx with rfl | hx
      · obtain ⟨y, hy, hyne⟩ := hkeeps hne
        exact ⟨t', handlesAlarm_onThread_self hy hyne⟩
      · exact ⟨t', handlesAlarm_onThread_self (hrest x hx) hne⟩
    · refine ⟨t', x, ?_, hne⟩
      show x ∈ Function.update s.handlers t hs' t'
      rwa [Function.update_of_ne htt]

theorem timerInv_stepHandler {main : α} (h : TimerInv s) {reinstalls : Bool}
    (hstep : s.stepHandler main t reinstalls = .ok s') : TimerInv s' := by
  unfold stepHandler at hstep
  cases ht : s.handlers t with
  | nil =>
    rw [ht] at hstep
    cases hstep
  | cons handler hs =>
    rw [ht] at hstep
    cases handler with
    | reinstall =>
      dsimp only at hstep
      split at hstep
      · cases hstep
        refine h.of_alarm rfl rfl fun _ halarm => ?_
        exact alarmComes_onThread ht (fun x => List.mem_cons_of_mem _)
          (fun _ => ⟨_, List.mem_cons_self, by decide⟩) halarm
      · cases hstep
    | testPaused =>
      cases hstep
      refine h.of_alarm rfl rfl fun hawaits halarm => ?_
      -- While the alarm is awaited the flag is clear: the handler will set the timer.
      rw [if_pos (h.paused hawaits.cleared)]
      exact alarmComes_onThread ht (fun x => List.mem_cons_of_mem _)
        (fun _ => ⟨_, List.mem_cons_self, by decide⟩) halarm
    | setTimer =>
      cases hstep
      exact h.of_alarm rfl rfl fun _ _ => Or.inl rfl
    | leave =>
      have hreturned : TimerInv (s.onThread t hs) :=
        h.of_alarm rfl rfl fun _ halarm =>
          alarmComes_onThread ht (fun x hx => hx) (fun hne => absurd rfl hne) halarm
      cases hstep
      split
      · exact timerInv_wake hreturned
      · exact hreturned

theorem timerInv_step {main : α} (h : TimerInv s) {ev : SleepEvent α}
    (hstep : s.step main ev = .ok s') : TimerInv s' := by
  cases ev with
  | frame result =>
    simp only [SleepTimer.step] at hstep
    split at hstep
    · cases hstep
      apply timerInv_of_not_cleared
      cases result <;> simp [SleepLoop.Cleared]
    · cases hstep
  | loop setsTimer =>
    simp only [SleepTimer.step] at hstep
    split at hstep
    · exact timerInv_stepLoop h hstep
    · cases hstep
  | expire =>
    simp only [SleepTimer.step] at hstep
    split at hstep
    · cases hstep
      exact h.of_alarm rfl rfl fun _ _ => Or.inr (Or.inl rfl)
    · cases hstep
  | deliver t =>
    simp only [SleepTimer.step] at hstep
    split at hstep
    · cases hstep
      refine h.of_alarm rfl rfl fun _ _ => Or.inr (Or.inr ⟨t, ?_⟩)
      exact handlesAlarm_onThread_self List.mem_cons_self (by decide)
    · cases hstep
  | handler t reinstalls => exact timerInv_stepHandler h hstep
  | interrupt =>
    simp only [SleepTimer.step] at hstep
    split at hstep
    · cases hstep
      exact timerInv_wake h
    · cases hstep

end steps

/-! ## Runs -/

section runs

variable {α : Type u} [DecidableEq α] (main : α) (events : List (SleepEvent α))

theorem timerInv_run : Always TimerInv start (traceOk (SleepTimer.step main) start events) :=
  always_of_step (fun _ _ _ h hstep => timerInv_step h hstep.2) timerInv_start (isRun_traceOk _ _ _)

/-- Over any number of frames, whatever thread handles the alarms and whenever they expire: while
    the loop thread is in `pause`, the timer is armed, or a `SIGALRM` is pending or handled. -/
theorem pause_awaits_alarm :
    Always (fun s => s.loop = .inPause →
        s.armed = true ∨ s.pending = true ∨ ∃ t, s.handlers t ≠ [])
      start (traceOk (SleepTimer.step main) start events) := by
  refine (timerInv_run main events).mono fun s h hpause => ?_
  rcases h.alarm (Or.inr hpause) with harmed | hpending | ⟨t, x, hx, -⟩
  · exact Or.inl harmed
  · exact Or.inr (Or.inl hpending)
  · exact Or.inr (Or.inr ⟨t, List.ne_nil_of_mem hx⟩)

end runs

/-- The alarm is handled on another thread in front of `pause`: the timer is set once more. -/
example :
    let s := final start (traceOk (SleepTimer.step false) start
      [.frame true, .loop true, .loop true, .expire, .deliver true, .handler true true,
        .handler true true, .loop true, .handler true true])
    s.loop = .inPause ∧ s.armed = true := by decide

end RehldsM.Model
