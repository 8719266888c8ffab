import RehldsM.Lib.Run
import RehldsM.Model.ServerLoop

/-
  `run_server_loop` (apps/hlds/src/hlds/hlds.main.cpp): the main thread in `ServerLoop::run`, and
  the input thread of `ConsoleInput` (`read_input`, `start`, `stop`) that asks it for completions.

  On a Tab the input thread enqueues a task and waits for its result. The task queue is only
  drained inside the loop. A task that is still queued when `run_frame` returns false, or that
  is enqueued after that, is never executed: the input thread waits for it, and the main
  thread, in `stop`, for the input thread. This is the only way into such a deadlock
  (`deadlock_iff`).
-/

namespace RehldsM.Hlds

open Lib Util Model

/-- Where the main thread is. The sleep of a frame touches nothing that is shared. -/
inductive MainThread where
  | runFrame
  | processTasks
  | runTask (task : Nat)
  | processInput
  | shutdown
  /-- In `ConsoleInput::stop`, in front of `running_ = false`. -/
  | stop
  | join
  | returned
deriving DecidableEq

/-- Where the input thread is. -/
inductive InputThread where
  /-- In front of `while (running_)`. -/
  | loop
  | poll
  /-- In `find_command_matches`, in front of `enqueue_task`. -/
  | enqueueTask
  /-- In `matches.get()`. -/
  | getMatches (task : Nat)
  | exited
deriving DecidableEq

/-- What `poll` and `read` give. -/
inductive Polled where
  | timeout
  | tab
  | newline (input : Str)
  /-- A key that only edits the line. -/
  | editing
deriving DecidableEq

structure Server where
  loop : ServerLoop
  main : MainThread
  input : InputThread
  running : Bool
deriving DecidableEq

/-- `run_frame` returns, the main thread or the input thread goes on, or `poll` returns. -/
inductive Event where
  | frame (result : Bool)
  | main
  | input
  | polled (polled : Polled)
deriving DecidableEq

namespace Server

/-- `ConsoleInput` has started its thread, and the loop is entered. -/
def start : Server where
  loop := .new
  main := .runFrame
  input := .loop
  running := true

def stepMain (s : Server) : Except NotEnabled Server :=
  match s.main with
  | .runFrame => .error .notEnabled
  | .processTasks =>
    match s.loop.takeTask with
    | some (task, loop) => .ok { s with loop, main := .runTask task }
    | none => .ok { s with main := .processInput }
  | .runTask task => .ok { s with loop := s.loop.execute task, main := .processInput }
  | .processInput => .ok { s with loop := s.loop.processInput, main := .runFrame }
  | .shutdown => .ok { s with main := .stop }
  | .stop =>
    .ok (if s.running then { s with running := false, main := .join }
      else { s with main := .returned })
  | .join => if s.input = .exited then .ok { s with main := .returned } else .error .notEnabled
  | .returned => .error .notEnabled

def stepInput (s : Server) : Except NotEnabled Server :=
  match s.input with
  | .loop => .ok { s with input := if s.running then .poll else .exited }
  | .poll => .error .notEnabled
  | .enqueueTask =>
    let (task, loop) := s.loop.enqueueTask
    .ok { s with loop, input := .getMatches task }
  | .getMatches task =>
    if task ∈ s.loop.executed then .ok { s with input := .loop } else .error .notEnabled
  | .exited => .error .notEnabled

def step (s : Server) : Event → Except NotEnabled Server
  | .frame result =>
    match s.main with
    | .runFrame => .ok { s with main := if result then .processTasks else .shutdown }
    | _ => .error .notEnabled
  | .main => s.stepMain
  | .input => s.stepInput
  | .polled polled =>
    match s.input, polled with
    | .poll, .tab => .ok { s with input := .enqueueTask }
    | .poll, .newline input =>
      .ok { s with
        loop := { s.loop with inputQueue := enqueueInput s.loop.inputQueue input }
        input := .loop }
    | .poll, .timeout | .poll, .editing => .ok { s with input := .loop }
    | _, _ => .error .notEnabled

/-- What an event can do. -/
inductive Moves (s : Server) : Event → Server → Prop where
  | frame (result : Bool) (hmain : s.main = .runFrame) :
      Moves s (.frame result) { s with main := if result then .processTasks else .shutdown }
  | takeTask {task taskQueue} (hmain : s.main = .processTasks)
      (hqueue : s.loop.taskQueue = task :: taskQueue) :
      Moves s .main { s with loop := { s.loop with taskQueue }, main := .runTask task }
  | noTask (hmain : s.main = .processTasks) (hqueue : s.loop.taskQueue = []) :
      Moves s .main { s with main := .processInput }
  | runTask {task} (hmain : s.main = .runTask task) :
      Moves s .main { s with loop := s.loop.execute task, main := .processInput }
  | processInput (hmain : s.main = .processInput) :
      Moves s .main { s with loop := s.loop.processInput, main := .runFrame }
  | shutdown (hmain : s.main = .shutdown) : Moves s .main { s with main := .stop }
  | stop (hmain : s.main = .stop) (hrunning : s.running = true) :
      Moves s .main { s with running := false, main := .join }
  | stopped (hmain : s.main = .stop) (hrunning : s.running = false) :
      Moves s .main { s with main := .returned }
  | join (hmain : s.main = .join) (hinput : s.input = .exited) :
      Moves s .main { s with main := .returned }
  | check (hinput : s.input = .loop) :
      Moves s .input { s with input := if s.running then .poll else .exited }
  | enqueueTask (hinput : s.input = .enqueueTask) :
      Moves s .input
        { s with loop := s.loop.enqueueTask.2, input := .getMatches s.loop.enqueueTask.1 }
  | getMatches {task} (hinput : s.input = .getMatches task) (hdone : task ∈ s.loop.executed) :
      Moves s .input { s with input := .loop }
  | tab (hinput : s.input = .poll) : Moves s (.polled .tab) { s with input := .enqueueTask }
  | newline (input : Str) (hinput : s.input = .poll) :
      Moves s (.polled (.newline input))
        { s with
          loop := { s.loop with inputQueue := enqueueInput s.loop.inputQueue input }
          input := .loop }
  | other (polled : Polled) (hinput : s.input = .poll) :
      Moves s (.polled polled) { s with input := .loop }

theorem moves_of_stepMain {s s' : Server} (h : s.stepMain = .ok s') : Moves s .main s' := by
  unfold stepMain at h
  split at h
  · cases h
  · rename_i hmain
    rw [ServerLoop.takeTask] at h
    cases hqueue : s.loop.taskQueue with
    | nil =>
      rw [hqueue] at h
      cases h
      exact .noTask hmain hqueue
    | cons task taskQueue =>
      rw [hqueue] at h
      cases h
      exact .takeTask hmain hqueue
  · rename_i hmain
    cases h
    exact .runTask hmain
  · rename_i hmain
    cases h
    exact .processInput hmain
  · rename_i hmain
    cases h
    exact .shutdown hmain
  · rename_i hmain
    cases h
    split
    · exact .stop hmain ‹_›
    · exact .stopped hmain (Bool.eq_false_iff.mpr ‹_›)
  · rename_i hmain
    split at h
    · cases h
      exact .join hmain ‹_›
    · cases h
  · cases h

theorem moves_of_stepInput {s s' : Server} (h : s.stepInput = .ok s') : Moves s .input s' := by
  unfold stepInput at h
  split at h
  · rename_i hinput
    cases h
    exact .check hinput
  · cases h
  · rename_i hinput
    cases h
    exact .enqueueTask hinput
  · rename_i hinput
    split at h
    · cases h
      exact .getMatches hinput ‹_›
    · cases h
  · cases h

theorem moves_of_step {s s' : Server} {ev : Event} (h : s.step ev = .ok s') : Moves s ev s' := by
  cases ev with
  | frame result =>
    rw [step] at h
    split at h
    · rename_i hmain
      cases h
      exact .frame result hmain
    · cases h
  | main => exact moves_of_stepMain h
  | input => exact moves_of_stepInput h
  | polled polled =>
    unfold step at h
    dsimp only at h
    split at h
    · cases h
      exact .tab ‹_›
    · cases h
      exact .newline _ ‹_›
    · cases h
      exact .other _ ‹_›
    · cases h
      exact .other _ ‹_›
    · cases h

end Server

open Server

section steps

variable {s s' : Server} {ev : Event}

/-! ## What waits for what -/

/-- The loop has ended. -/
def MainThread.Over : MainThread → Prop
  | .shutdown | .stop | .join | .returned => True
  | .runFrame | .processTasks | .runTask _ | .processInput => False

/-- The task is queued, was not executed, and the input thread waits for it. -/
def Waits (s : Server) (task : Nat) : Prop :=
  s.input = .getMatches task ∧ s.loop.taskQueue = [task] ∧ task ∉ s.loop.executed

structure ServerInv (s : Server) : Prop where
  queue : s.loop.taskQueue ≠ [] → ∃ task, Waits s task
  task : ∀ task, s.main = .runTask task →
    s.input = .getMatches task ∧ s.loop.taskQueue = [] ∧ task ∉ s.loop.executed
  executed : ∀ task ∈ s.loop.executed, task < s.loop.tasks
  waiting : ∀ task, s.input = .getMatches task → task < s.loop.tasks
  running : s.main ≠ .join → s.main ≠ .returned → s.running = true
  returned : s.main = .returned → s.input = .exited

theorem serverInv_start : ServerInv .start := by
  refine ⟨fun h => absurd rfl h, ?_, ?_, ?_, fun _ _ => rfl, ?_⟩ <;>
    simp [start, ServerLoop.new]

/-- The input thread waits for no task, so there is none. -/
theorem ServerInv.no_task (h : ServerInv s) (hinput : ∀ task, s.input ≠ .getMatches task) :
    s.loop.taskQueue = [] ∧ ∀ task, s.main ≠ .runTask task := by
  refine ⟨?_, fun task hmain => hinput task (h.task task hmain).1⟩
  by_contra hne
  obtain ⟨task, hwaits⟩ := h.queue hne
  exact hinput task hwaits.1

/-- The main thread goes on, without a task. -/
theorem ServerInv.withMain (h : ServerInv s) (main : MainThread)
    (hloop : ∀ task, main ≠ .runTask task)
    (hrunning : main ≠ .join → main ≠ .returned → s.running = true)
    (hreturned : main = .returned → s.input = .exited) : ServerInv { s with main } :=
  ⟨h.queue, fun task hmain => absurd hmain (hloop task), h.executed, h.waiting, hrunning, hreturned⟩

/-- The main thread goes from one turn of the loop to the next. -/
theorem ServerInv.advance (h : ServerInv s) {main : MainThread} (hmain : s.main = main)
    (hloop : main ≠ .join ∧ main ≠ .returned) (main' : MainThread)
    (hnext : (∀ task, main' ≠ .runTask task) ∧ main' ≠ .returned) :
    ServerInv { s with main := main' } := by
  have hon : s.running = true := h.running (hmain ▸ hloop.1) (hmain ▸ hloop.2)
  exact h.withMain main' hnext.1 (fun _ _ => hon) fun hreturned => absurd hreturned hnext.2

/-- The input thread goes on, with no task queued or run. -/
theorem ServerInv.withInput (h : ServerInv s) (input : InputThread) (hqueue : s.loop.taskQueue = [])
    (htask : ∀ task, s.main ≠ .runTask task) (hinput : ∀ task, input ≠ .getMatches task)
    (hexited : s.input ≠ .exited) : ServerInv { s with input } :=
  ⟨fun hne => absurd hqueue hne, fun task hmain => absurd hmain (htask task), h.executed,
    fun task hwait => absurd hwait (hinput task), h.running,
    fun hmain => absurd (h.returned hmain) hexited⟩

/-- The tasks stay as they are. -/
theorem ServerInv.withLoop (h : ServerInv s) (loop : ServerLoop)
    (hloop : loop.taskQueue = s.loop.taskQueue ∧ loop.tasks = s.loop.tasks ∧
      loop.executed = s.loop.executed) : ServerInv { s with loop } := by
  obtain ⟨hqueue, htasks, hexecuted⟩ := hloop
  refine ⟨?_, ?_, ?_, ?_, h.running, h.returned⟩
  · rw [hqueue]
    unfold Waits
    rw [hqueue, hexecuted]
    exact h.queue
  · rw [hqueue, hexecuted]
    exact h.task
  · rw [hexecuted, htasks]
    exact h.executed
  · rw [htasks]
    exact h.waiting

theorem serverInv_step (h : ServerInv s) (hmove : Moves s ev s') : ServerInv s' := by
  have hrunning : s.main ≠ .join → s.main ≠ .returned → s.running = true := h.running
  cases hmove with
  | frame result hmain =>
    refine h.advance hmain (by simp) _ ?_
    cases result <;> simp
  | @takeTask task taskQueue hmain hqueue =>
    obtain ⟨task', hinput, hqueue', hnot⟩ := h.queue (by simp [hqueue])
    obtain ⟨rfl, rfl⟩ := List.cons.inj (hqueue.symm.trans hqueue')
    refine ⟨fun hne => absurd rfl hne, ?_, h.executed, h.waiting, fun _ _ => ?_, by simp⟩
    · rintro _ ⟨⟩
      exact ⟨hinput, rfl, hnot⟩
    · exact hrunning (by simp [hmain]) (by simp [hmain])
  | noTask hmain hqueue => exact h.advance hmain (by simp) _ (by simp)
  | @runTask task hmain =>
    obtain ⟨hinput, hqueue, -⟩ := h.task task hmain
    refine ⟨fun hne => absurd hqueue hne, by simp, ?_, h.waiting, fun _ _ => ?_, by simp⟩
    · intro task' hmem
      rcases List.mem_append.mp hmem with hold | hnew
      · exact h.executed task' hold
      · obtain rfl := List.mem_singleton.mp hnew
        exact h.waiting _ hinput
    · exact hrunning (by simp [hmain]) (by simp [hmain])
  | processInput hmain =>
    have hloop := h.withLoop _ s.loop.processInput_eq
    exact hloop.advance hmain (by simp) _ (by simp)
  | shutdown hmain => exact h.advance hmain (by simp) _ (by simp)
  | stop hmain hon =>
    exact ⟨h.queue, by simp, h.executed, h.waiting, fun hne => absurd rfl hne, by simp⟩
  | stopped hmain hoff =>
    have hon := hrunning (by simp [hmain]) (by simp [hmain])
    exact absurd (hon.symm.trans hoff) (by simp)
  | join hmain hinput => exact h.withMain _ (by simp) (by simp) (fun _ => hinput)
  | check hinput =>
    obtain ⟨hqueue, htask⟩ := h.no_task (by simp [hinput])
    refine h.withInput _ hqueue htask ?_ (by simp [hinput])
    split <;> simp
  | enqueueTask hinput =>
    obtain ⟨hqueue, htask⟩ := h.no_task (by simp [hinput])
    have hnew : s.loop.tasks ∉ s.loop.executed := fun hmem =>
      Nat.lt_irrefl _ (h.executed _ hmem)
    refine ⟨fun _ => ⟨s.loop.tasks, rfl, ?_, hnew⟩, fun task hmain => absurd hmain (htask task),
      fun task hmem => Nat.lt_succ_of_lt (h.executed task hmem), ?_, h.running, fun hmain => ?_⟩
    · change s.loop.taskQueue ++ [s.loop.tasks] = [s.loop.tasks]
      rw [hqueue, List.nil_append]
    · rintro _ ⟨⟩
      exact Nat.lt_succ_self _
    · exact absurd (h.returned hmain) (by simp [hinput])
  | @getMatches task hinput hdone =>
    have hqueue : s.loop.taskQueue = [] := by
      by_contra hne
      obtain ⟨task', hinput', -, hnot⟩ := h.queue hne
      obtain rfl := InputThread.getMatches.inj (hinput.symm.trans hinput')
      exact hnot hdone
    refine h.withInput _ hqueue (fun task' hmain => ?_) (by simp) (by simp [hinput])
    obtain ⟨hinput', -, hnot⟩ := h.task task' hmain
    obtain rfl := InputThread.getMatches.inj (hinput.symm.trans hinput')
    exact hnot hdone
  | tab hinput =>
    obtain ⟨hqueue, htask⟩ := h.no_task (by simp [hinput])
    exact h.withInput _ hqueue htask (by simp) (by simp [hinput])
  | newline input hinput =>
    obtain ⟨hqueue, htask⟩ := h.no_task (by simp [hinput])
    exact (h.withInput .loop hqueue htask (by simp) (by simp [hinput])).withLoop _ ⟨rfl, rfl, rfl⟩
  | other polled hinput =>
    obtain ⟨hqueue, htask⟩ := h.no_task (by simp [hinput])
    exact h.withInput _ hqueue htask (by simp) (by simp [hinput])

/-! ## Into the deadlock and around it -/

/-- A task is left over: `run_frame` returns false with a task queued, or a task is enqueued
    when the loop has ended. -/
def LeavesTask (s : Server) : Event → Prop
  | .frame false => s.loop.taskQueue ≠ []
  | .input => s.input = .enqueueTask ∧ s.main.Over
  | _ => False

/-- No task is queued once the loop has ended. -/
def OverEmpty (s : Server) : Prop := s.main.Over → s.loop.taskQueue = []

theorem overEmpty_step (h : OverEmpty s) (hmove : Moves s ev s') (hev : ¬ LeavesTask s ev) :
    OverEmpty s' := by
  cases hmove with
  | frame result hmain =>
    cases result with
    | true => exact fun hover => hover.elim
    | false => exact fun _ => not_not.mp hev
  | takeTask hmain hqueue => exact fun hover => hover.elim
  | noTask hmain hqueue => exact fun hover => hover.elim
  | runTask hmain => exact fun hover => hover.elim
  | processInput hmain => exact fun hover => hover.elim
  | shutdown hmain => exact fun _ => h (by simp [hmain, MainThread.Over])
  | stop hmain hrunning => exact fun _ => h (by simp [hmain, MainThread.Over])
  | stopped hmain hrunning => exact fun _ => h (by simp [hmain, MainThread.Over])
  | join hmain hinput => exact fun _ => h (by simp [hmain, MainThread.Over])
  | enqueueTask hinput => exact fun hover => absurd ⟨hinput, hover⟩ hev
  | check hinput => exact h
  | getMatches hinput hdone => exact h
  | tab hinput => exact h
  | newline input hinput => exact h
  | other polled hinput => exact h

/-- The loop has ended, and the input thread waits for a task that is still queued. -/
def Orphaned (s : Server) (task : Nat) : Prop :=
  s.main.Over ∧ s.main ≠ .returned ∧ Waits s task

theorem orphaned_of_leaves (hinv : ServerInv s) (hmove : Moves s ev s') (hev : LeavesTask s ev) :
    ∃ task, Orphaned s' task := by
  match ev, hev, hmove with
  | .frame false, hqueue, .frame _ hmain =>
    obtain ⟨task, hwaits⟩ := hinv.queue hqueue
    exact ⟨task, trivial, nofun, hwaits⟩
  | .input, ⟨hinput, hover⟩, hmove =>
    have hinv' := serverInv_step hinv hmove
    cases hmove with
    | check hinput' => exact absurd (hinput.symm.trans hinput') (by simp)
    | getMatches hinput' hdone => exact absurd (hinput.symm.trans hinput') (by simp)
    | enqueueTask hinput' =>
      obtain ⟨task, hwaits⟩ := hinv'.queue (by simp [ServerLoop.enqueueTask])
      refine ⟨task, hover, fun hreturned => ?_, hwaits⟩
      exact absurd (hinv.returned hreturned) (by simp [hinput])

/-- Nothing leads out of it. -/
theorem orphaned_step {task : Nat} (hinv : ServerInv s) (h : Orphaned s task)
    (hmove : Moves s ev s') : Orphaned s' task := by
  obtain ⟨hover, hmain', hinput', hqueue', hnot⟩ := h
  cases hmove with
  | frame result hmain => exact absurd hover (by simp [hmain, MainThread.Over])
  | takeTask hmain hqueue => exact absurd hover (by simp [hmain, MainThread.Over])
  | noTask hmain hqueue => exact absurd hover (by simp [hmain, MainThread.Over])
  | runTask hmain => exact absurd hover (by simp [hmain, MainThread.Over])
  | processInput hmain => exact absurd hover (by simp [hmain, MainThread.Over])
  | shutdown hmain => exact ⟨trivial, nofun, hinput', hqueue', hnot⟩
  | stop hmain hrunning => exact ⟨trivial, nofun, hinput', hqueue', hnot⟩
  | stopped hmain hrunning =>
    have hon := hinv.running (by simp [hmain]) (by simp [hmain])
    exact absurd (hon.symm.trans hrunning) (by simp)
  | join hmain hinput => exact absurd (hinput'.symm.trans hinput) (by simp)
  | check hinput => exact absurd (hinput'.symm.trans hinput) (by simp)
  | enqueueTask hinput => exact absurd (hinput'.symm.trans hinput) (by simp)
  | getMatches hinput hdone =>
    obtain rfl := InputThread.getMatches.inj (hinput'.symm.trans hinput)
    exact absurd hdone hnot
  | tab hinput => exact absurd (hinput'.symm.trans hinput) (by simp)
  | newline input hinput => exact absurd (hinput'.symm.trans hinput) (by simp)
  | other polled hinput => exact absurd (hinput'.symm.trans hinput) (by simp)

end steps

/-! ## Runs -/

/-- The task is not executed, whatever happens from here on. -/
def NeverRun (s : Server) (task : Nat) : Prop :=
  ∀ events, task ∉ (final s (traceOk step s events)).loop.executed

/-- The main thread is in `join`, and the input thread waits for a task that is in the queue
    and will never be run. -/
def Deadlocked (s : Server) : Prop :=
  s.main = .join ∧ ∃ task, s.input = .getMatches task ∧ task ∈ s.loop.taskQueue ∧ NeverRun s task

/-- No thread can go on, and nothing more is polled. -/
def Stuck (s : Server) : Prop := ∀ ev s', s.step ev ≠ .ok s'

section runs

variable {s : Server}

theorem isRun_moves (s : Server) (events : List Event) :
    IsRun Moves s (traceOk step s events) :=
  (isRun_traceOk step s events).mono fun _ _ _ h => moves_of_step h.2

theorem serverInv_run (events : List Event) :
    Always ServerInv .start (traceOk step .start events) :=
  always_of_step (fun _ _ _ h hmove => serverInv_step h hmove) serverInv_start
    (isRun_moves .start events)

theorem orphaned_run {task : Nat} (hinv : ServerInv s) (h : Orphaned s task)
    {tr : List (Event × Server)} (hrun : IsRun Moves s tr) : Orphaned (final s tr) task := by
  have halways : Always (fun s => ServerInv s ∧ Orphaned s task) s tr :=
    always_of_step (fun _ _ _ h hmove => ⟨serverInv_step h.1 hmove, orphaned_step h.1 h.2 hmove⟩)
      ⟨hinv, h⟩ hrun
  exact halways.final.2

theorem neverRun_of_orphaned {task : Nat} (hinv : ServerInv s) (h : Orphaned s task) :
    NeverRun s task := by
  intro events
  exact (orphaned_run hinv h (isRun_moves s events)).2.2.2.2

/-- A run that goes on from there until nothing can go on ends in the deadlock. -/
theorem deadlocked_of_stuck {task : Nat} (hinv : ServerInv s) (h : Orphaned s task)
    (hstuck : Stuck s) : Deadlocked s := by
  obtain ⟨hover, hmain', hinput, hqueue, hnot⟩ := h
  cases hmain : s.main with
  | shutdown => exact absurd (by rw [step, stepMain, hmain]) (hstuck .main _)
  | stop => exact absurd (by rw [step, stepMain, hmain]) (hstuck .main _)
  | join =>
    refine ⟨hmain, task, hinput, by simp [hqueue], ?_⟩
    exact neverRun_of_orphaned hinv ⟨hover, hmain', hinput, hqueue, hnot⟩
  | returned => exact absurd hmain hmain'
  | runFrame | processTasks | runTask task | processInput =>
    exact absurd hover (by simp [hmain, MainThread.Over])

theorem meets_of_not_deadlocked {tr : List (Event × Server)} (hinv : ServerInv s)
    (hrun : IsRun Moves s tr) (hstuck : Stuck (final s tr))
    (h : Always (fun s => ¬ Deadlocked s) s tr) :
    Meets (fun s ev => ¬ LeavesTask s ev) s tr := by
  induction tr generalizing s with
  | nil => trivial
  | cons x tr ih =>
    obtain ⟨ev, s'⟩ := x
    have hinv' := serverInv_step hinv hrun.1
    refine ⟨fun hev => ?_, ih hinv' hrun.2 hstuck h.2⟩
    obtain ⟨task, horphaned⟩ := orphaned_of_leaves hinv hrun.1 hev
    have hfinal := orphaned_run hinv' horphaned hrun.2
    have hinvs : Always ServerInv s' tr :=
      always_of_step (fun _ _ _ h hmove => serverInv_step h hmove) hinv' hrun.2
    exact h.2.final (deadlocked_of_stuck hinvs.final hfinal hstuck)

end runs

/-- Over every interleaving: no state is a deadlock if the last frame leaves no task and no task
    is enqueued after it; and only then, in a run that goes on until no thread can. -/
theorem deadlock_iff (events : List Event) :
    let tr := traceOk step .start events
    (Meets (fun s ev => ¬ LeavesTask s ev) .start tr →
        Always (fun s => ¬ Deadlocked s) .start tr) ∧
      (Stuck (final .start tr) → Always (fun s => ¬ Deadlocked s) .start tr →
        Meets (fun s ev => ¬ LeavesTask s ev) .start tr) := by
  intro tr
  have hrun : IsRun Moves .start tr := isRun_moves .start events
  refine ⟨fun hmeets => ?_, fun hstuck => meets_of_not_deadlocked serverInv_start hrun hstuck⟩
  have halways : Always OverEmpty .start tr := by
    refine always_of_meets ?_ (fun _ => rfl) hrun hmeets
    exact fun s ev s' h hev hmove => overEmpty_step h hmove hev
  refine halways.mono fun s h hdead => ?_
  obtain ⟨hmain, task, -, hmem, -⟩ := hdead
  rw [h (by rw [hmain]; trivial)] at hmem
  exact List.not_mem_nil hmem

/-- Tab is pressed in a frame; the task is enqueued behind that frame's `process_tasks`, and
    the next `run_frame` is the last. -/
def tabInLastFrame : List Event :=
  [.frame true, .input, .main, .polled .tab, .main, .input, .frame false, .main, .main]

theorem tab_deadlocks :
    Deadlocked (final .start (traceOk step .start tabInLastFrame)) := by
  have hinv := (serverInv_run tabInLastFrame).final
  have horphaned : Orphaned (final .start (traceOk step .start tabInLastFrame)) 0 :=
    ⟨trivial, by decide, rfl, rfl, by decide⟩
  exact ⟨rfl, 0, rfl, by decide, neverRun_of_orphaned hinv horphaned⟩

end RehldsM.Hlds
