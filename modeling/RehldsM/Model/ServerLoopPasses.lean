import RehldsM.Lib.Projection
import RehldsM.Model.ServerLoopDelivery

/-
  `process_tasks` and `process_input` as one step each.

  Both ask for `empty()`, `pop()`, and then call the task or hand the line to the engine, and other
  threads enqueue in between. In `Passes` each of the two functions is a single step. Only the loop
  takes elements out, so every run of `Delivery` is seen as one of `Passes`: a function takes place
  in its last step, and what the loop has in its hands until then is still queued
  (`passes_atomic`).
-/

namespace RehldsM.Model

open Lib Util

universe u

variable {α : Type u}

/-- `process_tasks` -/
def ServerLoop.processTasks (loop : ServerLoop) : ServerLoop :=
  match loop.takeTask with
  | none => loop
  | some (task, loop) => loop.execute task

/-- What the loop does next. -/
inductive Pass where
  | runFrame
  | processTasks
  | processInput
  | ended
deriving DecidableEq

/-- `Delivery` with the loop between two of its functions. -/
structure Passes where
  loop : ServerLoop
  next : Pass
  inputs : List Str
deriving DecidableEq

/-- The other threads do what they do in `Delivery`; `loop` is a call of one of the functions. -/
def Passes.step (s : Passes) : DeliveryEvent α → Except NotEnabled Passes
  | .enqueueInput _ input =>
    .ok { s with
      loop := { s.loop with inputQueue := enqueueInput s.loop.inputQueue input }
      inputs := s.inputs ++ [input] }
  | .enqueueTask _ => .ok { s with loop := s.loop.enqueueTask.2 }
  | .loop =>
    match s.next with
    | .processTasks => .ok { s with loop := s.loop.processTasks, next := .processInput }
    | .processInput => .ok { s with loop := s.loop.processInput, next := .runFrame }
    | .runFrame | .ended => .error .notEnabled
  | .frame result =>
    match s.next with
    | .runFrame => .ok { s with next := if result then .processTasks else .ended }
    | .processTasks | .processInput | .ended => .error .notEnabled

/-- The call of another thread, or a frame of the engine. -/
def DeliveryEvent.ofOthers : DeliveryEvent α → Bool
  | .loop => false
  | .enqueueInput _ _ | .enqueueTask _ | .frame _ => true

/-- The function that the loop thread is in. -/
def LoopThread.pass : LoopThread → Pass
  | .runFrame => .runFrame
  | .tasksEmpty | .popTask | .callTask _ => .processTasks
  | .inputEmpty | .popInput | .addConsoleText _ => .processInput
  | .ended => .ended

namespace Delivery

/-- The state in which the function has not taken place yet. -/
def passes (s : Delivery) : Passes where
  loop := { s.loop with
    taskQueue := s.thread.task.toList ++ s.loop.taskQueue
    inputQueue := s.thread.input.toList ++ s.loop.inputQueue }
  next := s.thread.pass
  inputs := s.inputs

/-- The next step of the loop thread is the last of its function. -/
def lastStep (s : Delivery) : Bool :=
  match s.thread with
  | .tasksEmpty => s.loop.taskQueue.isEmpty
  | .inputEmpty => s.loop.inputQueue.isEmpty
  | .callTask _ | .addConsoleText _ => true
  | .runFrame | .popTask | .popInput | .ended => false

def passEvent (s : Delivery) : DeliveryEvent α → Option (DeliveryEvent α)
  | .loop => if s.lastStep then some .loop else none
  | .enqueueInput t input => some (.enqueueInput t input)
  | .enqueueTask t => some (.enqueueTask t)
  | .frame result => some (.frame result)

variable {s s' : Delivery}

/-- A step of the loop thread is a call of its function, or nothing. -/
theorem seenAs_stepLoop (h : s.stepLoop = .ok s') :
    SeenAs (fun s e s' => Passes.step s e = .ok s') s.passes
      (passEvent s (.loop : DeliveryEvent α)) s'.passes := by
  obtain ⟨loop, thread, inputs⟩ := s
  unfold stepLoop at h
  cases thread with
  | runFrame | ended => cases h
  | tasksEmpty =>
    obtain rfl := Except.ok.inj h
    cases hqueue : loop.taskQueue with
    | nil =>
      simp only [SeenAs, passEvent, lastStep, hqueue, List.isEmpty_nil, if_true]
      simp [Passes.step, passes, LoopThread.pass, LoopThread.task, LoopThread.input,
        ServerLoop.processTasks, ServerLoop.takeTask, hqueue]
    | cons task taskQueue =>
      simp [SeenAs, passEvent, lastStep, hqueue, passes, LoopThread.pass, LoopThread.task,
        LoopThread.input]
  | popTask =>
    unfold ServerLoop.takeTask at h
    cases hqueue : loop.taskQueue with
    | nil => simp [hqueue] at h
    | cons task taskQueue =>
      simp only [hqueue] at h
      obtain rfl := Except.ok.inj h
      simp [SeenAs, passEvent, lastStep, hqueue, passes, LoopThread.pass, LoopThread.task,
        LoopThread.input]
  | callTask task =>
    obtain rfl := Except.ok.inj h
    simp only [SeenAs, passEvent, lastStep, if_true]
    simp [Passes.step, passes, LoopThread.pass, LoopThread.task, LoopThread.input,
      ServerLoop.processTasks, ServerLoop.takeTask, ServerLoop.execute]
  | inputEmpty =>
    obtain rfl := Except.ok.inj h
    cases hqueue : loop.inputQueue with
    | nil =>
      simp only [SeenAs, passEvent, lastStep, hqueue, List.isEmpty_nil, if_true]
      simp [Passes.step, passes, LoopThread.pass, LoopThread.task, LoopThread.input,
        ServerLoop.processInput, ServerLoop.takeInput, hqueue]
    | cons input inputQueue =>
      simp [SeenAs, passEvent, lastStep, hqueue, passes, LoopThread.pass, LoopThread.task,
        LoopThread.input]
  | popInput =>
    unfold ServerLoop.takeInput at h
    cases hqueue : loop.inputQueue with
    | nil => simp [hqueue] at h
    | cons input inputQueue =>
      simp only [hqueue] at h
      obtain rfl := Except.ok.inj h
      simp [SeenAs, passEvent, lastStep, hqueue, passes, LoopThread.pass, LoopThread.task,
        LoopThread.input]
  | addConsoleText input =>
    obtain rfl := Except.ok.inj h
    simp only [SeenAs, passEvent, lastStep, if_true]
    simp [Passes.step, passes, LoopThread.pass, LoopThread.task, LoopThread.input,
      ServerLoop.processInput, ServerLoop.takeInput, ServerLoop.addConsoleText]

theorem seenAs_passes (s : Delivery) (ev : DeliveryEvent α) (s' : Delivery)
    (h : s.step ev = .ok s') :
    SeenAs (fun s e s' => Passes.step s e = .ok s') s.passes (passEvent s ev) s'.passes := by
  cases ev with
  | loop => exact seenAs_stepLoop h
  | enqueueInput t input =>
    obtain rfl := Except.ok.inj h
    simp [SeenAs, passEvent, Passes.step, passes, enqueueInput]
  | enqueueTask t =>
    obtain rfl := Except.ok.inj h
    simp [SeenAs, passEvent, Passes.step, passes, ServerLoop.enqueueTask]
  | frame result =>
    obtain ⟨loop, thread, inputs⟩ := s
    unfold step at h
    dsimp only at h
    cases thread with
    | runFrame =>
      obtain rfl := Except.ok.inj h
      cases result <;> rfl
    | tasksEmpty | popTask | callTask task | inputEmpty | popInput | addConsoleText input | ended =>
      cases h

end Delivery

open Delivery

/-- Over every interleaving of the loop thread with any number of threads that enqueue, from any
    state on: there is a run in which `process_tasks` and `process_input` are one step each, with
    the same calls of the other threads and the same frames, in the same order, and it leads to the
    same state, but for a function that the loop thread is still in. -/
theorem passes_atomic (s : Delivery) (events : List (DeliveryEvent α)) :
    let tr := traceOk Delivery.step s events
    ∃ calls : List (DeliveryEvent α),
      calls.foldlM Passes.step s.passes = .ok (final s tr).passes ∧
        calls.filter DeliveryEvent.ofOthers =
          (tr.map Prod.fst).filter DeliveryEvent.ofOthers := by
  intro tr
  have hrun : IsRun (fun s e s' => Delivery.step s e = .ok s') s tr :=
    (isRun_traceOk _ _ _).mono fun _ _ _ hstep => hstep.2
  obtain ⟨hseen, hfinal⟩ := isRun_seen seenAs_passes hrun
  refine ⟨(seen passes passEvent s tr).map Prod.fst, ?_, ?_⟩
  · rw [foldlM_of_isRun hseen, hfinal]
  · refine filter_seen fun s ev => ?_
    cases ev with
    | loop =>
      unfold passEvent
      cases s.lastStep <;> rfl
    | enqueueInput t input | enqueueTask t | frame result => rfl

end RehldsM.Model
