import RehldsM.Lib.Backlog
import RehldsM.Model.ServerLoopDelivery

/-
  What is enqueued reaches its end: each turn of the server loop executes one of the tasks that
  wait, and hands one of the lines that wait to the engine.

  `process_tasks` and `process_input` take one element in a turn, and other threads may enqueue
  faster than that. Still an element waits for those in front of it only (`backlog_served`).
-/

namespace RehldsM.Model

open Lib Util Delivery

universe u

variable {α : Type u}

namespace Delivery

/-- The tasks that were not executed yet, the one in the hands of the loop thread first. -/
def waitingTasks (s : Delivery) : List Nat := s.thread.task.toList ++ s.loop.taskQueue

/-- The texts the engine will be given for the lines that wait. -/
def waitingText (s : Delivery) : List Str :=
  (s.thread.input.toList ++ s.loop.inputQueue).map cStr

/-- The loop thread is at the end of `process_tasks`. -/
def endsTasks (s : Delivery) : DeliveryEvent α → Bool
  | .loop =>
    match s.thread with
    | .tasksEmpty => s.loop.taskQueue.isEmpty
    | .callTask _ => true
    | _ => false
  | _ => false

/-- It is at the end of `process_input`, and so of a turn. -/
def endsInput (s : Delivery) : DeliveryEvent α → Bool
  | .loop =>
    match s.thread with
    | .inputEmpty => s.loop.inputQueue.isEmpty
    | .addConsoleText _ => true
    | _ => false
  | _ => false

/-- What an event can do. -/
inductive Moves (s : Delivery) : DeliveryEvent α → Delivery → Prop where
  | enqueueInput (t : α) (input : Str) :
      Moves s (.enqueueInput t input)
        { s with
          loop := { s.loop with inputQueue := Model.enqueueInput s.loop.inputQueue input }
          inputs := s.inputs ++ [input] }
  | enqueueTask (t : α) : Moves s (.enqueueTask t) { s with loop := s.loop.enqueueTask.2 }
  | frame (result : Bool) (hthread : s.thread = .runFrame) :
      Moves s (.frame result) { s with thread := if result then .tasksEmpty else .ended }
  | noTask (hthread : s.thread = .tasksEmpty) (hqueue : s.loop.taskQueue = []) :
      Moves s .loop { s with thread := .inputEmpty }
  | someTask (hthread : s.thread = .tasksEmpty) (hqueue : s.loop.taskQueue ≠ []) :
      Moves s .loop { s with thread := .popTask }
  | popTask {task taskQueue} (hthread : s.thread = .popTask)
      (hqueue : s.loop.taskQueue = task :: taskQueue) :
      Moves s .loop { s with loop := { s.loop with taskQueue }, thread := .callTask task }
  | callTask {task} (hthread : s.thread = .callTask task) :
      Moves s .loop { s with loop := s.loop.execute task, thread := .inputEmpty }
  | noInput (hthread : s.thread = .inputEmpty) (hqueue : s.loop.inputQueue = []) :
      Moves s .loop { s with thread := .runFrame }
  | someInput (hthread : s.thread = .inputEmpty) (hqueue : s.loop.inputQueue ≠ []) :
      Moves s .loop { s with thread := .popInput }
  | popInput {input inputQueue} (hthread : s.thread = .popInput)
      (hqueue : s.loop.inputQueue = input :: inputQueue) :
      Moves s .loop { s with loop := { s.loop with inputQueue }, thread := .addConsoleText input }
  | addConsoleText {input} (hthread : s.thread = .addConsoleText input) :
      Moves s .loop { s with loop := s.loop.addConsoleText input, thread := .runFrame }

theorem moves_of_stepLoop {s s' : Delivery} (h : s.stepLoop = .ok s') :
    Moves s (.loop : DeliveryEvent α) s' := by
  unfold stepLoop at h
  split at h
  · cases h
  · rename_i hthread
    cases hqueue : s.loop.taskQueue with
    | nil =>
      rw [hqueue] at h
      obtain rfl := Except.ok.inj h
      exact .noTask hthread hqueue
    | cons task taskQueue =>
      have hne : s.loop.taskQueue ≠ [] := by simp [hqueue]
      rw [hqueue] at h
      obtain rfl := Except.ok.inj h
      exact .someTask hthread hne
  · rename_i hthread
    rw [ServerLoop.takeTask] at h
    cases hqueue : s.loop.taskQueue with
    | nil =>
      rw [hqueue] at h
      cases h
    | cons task taskQueue =>
      rw [hqueue] at h
      obtain rfl := Except.ok.inj h
      exact .popTask hthread hqueue
  · rename_i hthread
    obtain rfl := Except.ok.inj h
    exact .callTask hthread
  · rename_i hthread
    cases hqueue : s.loop.inputQueue with
    | nil =>
      rw [hqueue] at h
      obtain rfl := Except.ok.inj h
      exact .noInput hthread hqueue
    | cons input inputQueue =>
      have hne : s.loop.inputQueue ≠ [] := by simp [hqueue]
      rw [hqueue] at h
      obtain rfl := Except.ok.inj h
      exact .someInput hthread hne
  · rename_i hthread
    rw [ServerLoop.takeInput] at h
    cases hqueue : s.loop.inputQueue with
    | nil =>
      rw [hqueue] at h
      cases h
    | cons input inputQueue =>
      rw [hqueue] at h
      obtain rfl := Except.ok.inj h
      exact .popInput hthread hqueue
  · rename_i hthread
    obtain rfl := Except.ok.inj h
    exact .addConsoleText hthread
  · cases h

theorem moves_of_step {s s' : Delivery} {ev : DeliveryEvent α} (h : s.step ev = .ok s') :
    Moves s ev s' := by
  cases ev with
  | enqueueInput t input =>
    obtain rfl := Except.ok.inj h
    exact .enqueueInput t input
  | enqueueTask t =>
    obtain rfl := Except.ok.inj h
    exact .enqueueTask t
  | loop => exact moves_of_stepLoop h
  | frame result =>
    rw [Delivery.step] at h
    split at h
    · rename_i hthread
      obtain rfl := Except.ok.inj h
      exact .frame result hthread
    · cases h

/-! ## One turn, one element -/

theorem serves_tasks :
    Serves (Moves (α := α)) endsTasks (fun s => s.loop.executed) waitingTasks where
  keeps hmove := by
    cases hmove with
    | enqueueTask t => exact ⟨[_], by simp [waitingTasks, ServerLoop.enqueueTask]; rfl⟩
    | enqueueInput t input => exact List.prefix_rfl
    | frame result hthread =>
      cases result <;> simp [waitingTasks, hthread, LoopThread.task]
    | noTask hthread hqueue | someTask hthread hqueue =>
      simp [waitingTasks, hthread, LoopThread.task]
    | popTask hthread hqueue => simp [waitingTasks, hthread, hqueue, LoopThread.task]
    | callTask hthread => simp [waitingTasks, hthread, LoopThread.task, ServerLoop.execute]
    | noInput hthread hqueue | someInput hthread hqueue =>
      simp [waitingTasks, hthread, LoopThread.task]
    | popInput hthread hqueue => simp [waitingTasks, hthread, LoopThread.task]
    | addConsoleText hthread =>
      simp [waitingTasks, hthread, LoopThread.task, ServerLoop.addConsoleText]
  grows hmove := by
    cases hmove with
    | callTask hthread => simp [ServerLoop.execute]
    | _ => exact Nat.le_refl _
  serves hmove hends := by
    cases hmove with
    | noTask hthread hqueue =>
      exact Or.inl (by simp [waitingTasks, hthread, hqueue, LoopThread.task])
    | someTask hthread hqueue => simp [endsTasks, hthread, hqueue] at hends
    | callTask hthread => exact Or.inr (by simp [ServerLoop.execute])
    | enqueueInput | enqueueTask | frame => cases hends
    | popTask hthread | noInput hthread | someInput hthread | popInput hthread
    | addConsoleText hthread => simp [endsTasks, hthread] at hends

theorem serves_lines :
    Serves (Moves (α := α)) endsInput (fun s => s.loop.consoleText) waitingText where
  keeps hmove := by
    cases hmove with
    | enqueueInput t input => exact ⟨[_], by simp [waitingText, Model.enqueueInput]; rfl⟩
    | enqueueTask t => exact List.prefix_rfl
    | frame result hthread =>
      cases result <;> simp [waitingText, hthread, LoopThread.input]
    | noTask hthread hqueue | someTask hthread hqueue =>
      simp [waitingText, hthread, LoopThread.input]
    | popTask hthread hqueue => simp [waitingText, hthread, LoopThread.input]
    | callTask hthread => simp [waitingText, hthread, LoopThread.input, ServerLoop.execute]
    | noInput hthread hqueue | someInput hthread hqueue =>
      simp [waitingText, hthread, LoopThread.input]
    | popInput hthread hqueue => simp [waitingText, hthread, hqueue, LoopThread.input]
    | addConsoleText hthread =>
      simp [waitingText, hthread, LoopThread.input, ServerLoop.addConsoleText]
  grows hmove := by
    cases hmove with
    | addConsoleText hthread => simp [ServerLoop.addConsoleText]
    | _ => exact Nat.le_refl _
  serves hmove hends := by
    cases hmove with
    | noInput hthread hqueue =>
      exact Or.inl (by simp [waitingText, hthread, hqueue, LoopThread.input])
    | someInput hthread hqueue => simp [endsInput, hthread, hqueue] at hends
    | addConsoleText hthread => exact Or.inr (by simp [ServerLoop.addConsoleText])
    | enqueueInput | enqueueTask | frame => cases hends
    | noTask hthread | someTask hthread | popTask hthread | popInput hthread | callTask hthread =>
      simp [endsInput, hthread] at hends

end Delivery

/-- From any state on, and whatever is enqueued in the meantime: the first tasks that wait are
    executed, one for each time the loop passes `process_tasks`, and the engine is given the first
    lines that wait, one for each time it passes `process_input`. -/
theorem backlog_served (s : Delivery) (events : List (DeliveryEvent α)) :
    let tr := traceOk Delivery.step s events
    s.loop.executed ++ s.waitingTasks.take (turnsTaken endsTasks s tr) <+:
        (final s tr).loop.executed ∧
      s.loop.consoleText ++ s.waitingText.take (turnsTaken endsInput s tr) <+:
        (final s tr).loop.consoleText := by
  intro tr
  have hrun : IsRun Moves s tr :=
    (isRun_traceOk Delivery.step s events).mono fun _ _ _ hstep => moves_of_step hstep.2
  exact ⟨served_of_turns serves_tasks hrun, served_of_turns serves_lines hrun⟩

end RehldsM.Model
