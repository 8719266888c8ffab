import RehldsM.Lib.Run
import RehldsM.Lib.Backlog
import RehldsM.Model.ServerLoop

/-
  `ServerLoop::process_tasks` and `process_input` (libs/model/src/model/server_loop.cpp) against
  the threads that enqueue.

  Both ask `empty()` and then call `pop()`, which waits while the queue is empty. Every call on a
  `ThreadSafeQueue` is one step, as it is one critical section. Between the two steps any thread
  can enqueue, but only the loop takes elements out: what it has seen is still there.
-/

namespace RehldsM.Model

open Lib Util

universe u

/-- Where the loop thread is. The sleep of a frame touches no queue. -/
inductive LoopThread where
  | runFrame
  /-- In front of `task_queue_.empty()`. -/
  | tasksEmpty
  | popTask
  | callTask (task : Nat)
  /-- In front of `input_queue_.empty()`. -/
  | inputEmpty
  | popInput
  | addConsoleText (input : Str)
  | ended
deriving DecidableEq

namespace LoopThread

/-- The task that was taken and not called yet. -/
def task : LoopThread → Option Nat
  | .callTask task => some task
  | .runFrame | .tasksEmpty | .popTask | .inputEmpty | .popInput | .addConsoleText _
  | .ended => none

/-- The line that was taken and not handed to the engine yet. -/
def input : LoopThread → Option Str
  | .addConsoleText input => some input
  | .runFrame | .tasksEmpty | .popTask | .callTask _ | .inputEmpty | .popInput | .ended => none

end LoopThread

/-- The loop, its thread, and all lines that were enqueued so far. -/
structure Delivery where
  loop : ServerLoop
  thread : LoopThread
  inputs : List Str
deriving DecidableEq

/-- A thread enqueues, the loop thread takes a step, or `run_frame` returns. -/
inductive DeliveryEvent (α : Type u) where
  | enqueueInput (t : α) (input : Str)
  | enqueueTask (t : α)
  | loop
  | frame (result : Bool)

namespace Delivery

def start : Delivery := ⟨.new, .runFrame, []⟩

/-- `pop()` waits while the queue is empty. -/
def stepLoop (s : Delivery) : Except NotEnabled Delivery :=
  match s.thread with
  | .runFrame => .error .notEnabled
  | .tasksEmpty =>
    .ok { s with thread := if s.loop.taskQueue.isEmpty then .inputEmpty else .popTask }
  | .popTask =>
    match s.loop.takeTask with
    | none => .error .notEnabled
    | some (task, loop) => .ok { s with loop, thread := .callTask task }
  | .callTask task => .ok { s with loop := s.loop.execute task, thread := .inputEmpty }
  | .inputEmpty =>
    .ok { s with thread := if s.loop.inputQueue.isEmpty then .runFrame else .popInput }
  | .popInput =>
    match s.loop.takeInput with
    | none => .error .notEnabled
    | some (input, loop) => .ok { s with loop, thread := .addConsoleText input }
  | .addConsoleText input =>
    .ok { s with loop := s.loop.addConsoleText input, thread := .runFrame }
  | .ended => .error .notEnabled

def step {α : Type u} (s : Delivery) : DeliveryEvent α → Except NotEnabled Delivery
  | .enqueueInput _ input =>
    .ok { s with
      loop := { s.loop with inputQueue := Model.enqueueInput s.loop.inputQueue input }
      inputs := s.inputs ++ [input] }
  | .enqueueTask _ => .ok { s with loop := s.loop.enqueueTask.2 }
  | .loop => s.stepLoop
  | .frame result =>
    match s.thread with
    | .runFrame => .ok { s with thread := if result then .tasksEmpty else .ended }
    | _ => .error .notEnabled

/-- The enqueued lines, each with its newline. -/
def lines (s : Delivery) : List Str := s.inputs.map (· ++ ['\n'])

/-- At `pop()` there is an element. -/
def NeverWaits (s : Delivery) : Prop :=
  (s.thread = .popTask → s.loop.taskQueue ≠ []) ∧ (s.thread = .popInput → s.loop.inputQueue ≠ [])

end Delivery

open Delivery

/-! ## One step -/

section steps

variable {α : Type u} {s s' : Delivery}

structure DeliveryInv (s : Delivery) : Prop where
  tasks : InOrder (List.range s.loop.tasks) s.loop.executed s.thread.task s.loop.taskQueue
  inputs : ∃ given, InOrder s.lines given s.thread.input s.loop.inputQueue ∧
    s.loop.consoleText = given.map cStr
  pops : s.NeverWaits

theorem deliveryInv_start : DeliveryInv start :=
  ⟨inOrder_nil, ⟨[], inOrder_nil, rfl⟩, nofun, nofun⟩

theorem lines_enqueue (s : Delivery) (input : Str) :
    (s.inputs ++ [input]).map (· ++ ['\n']) = s.lines ++ [input ++ ['\n']] := List.map_append

/-- The loop thread moves on with nothing in its hands. -/
theorem DeliveryInv.withThread (h : DeliveryInv s) (thread : LoopThread)
    (htask : thread.task = s.thread.task) (hinput : thread.input = s.thread.input)
    (hpops : NeverWaits { s with thread }) : DeliveryInv { s with thread } := by
  refine ⟨?_, ?_, hpops⟩
  · change InOrder _ _ thread.task _
    rw [htask]
    exact h.tasks
  · change ∃ given, InOrder _ _ thread.input _ ∧ _
    rw [hinput]
    exact h.inputs

theorem deliveryInv_enqueueInput (h : DeliveryInv s) (input : Str) :
    DeliveryInv { s with
      loop := { s.loop with inputQueue := Model.enqueueInput s.loop.inputQueue input }
      inputs := s.inputs ++ [input] } := by
  obtain ⟨given, horder, htext⟩ := h.inputs
  refine ⟨h.tasks, ⟨given, ?_, htext⟩, h.pops.1, fun _ => List.concat_ne_nil _ _⟩
  show InOrder ((s.inputs ++ [input]).map (· ++ ['\n'])) _ _ _
  rw [lines_enqueue]
  exact horder.enqueue

theorem deliveryInv_enqueueTask (h : DeliveryInv s) :
    DeliveryInv { s with loop := s.loop.enqueueTask.2 } := by
  refine ⟨?_, h.inputs, fun _ => List.concat_ne_nil _ _, h.pops.2⟩
  show InOrder (List.range (s.loop.tasks + 1)) _ _ _
  rw [List.range_succ]
  exact h.tasks.enqueue

theorem deliveryInv_stepLoop (h : DeliveryInv s) (hstep : s.stepLoop = .ok s') :
    DeliveryInv s' := by
  obtain ⟨loop, thread, sent⟩ := s
  obtain ⟨given, horder, htext⟩ := h.inputs
  unfold stepLoop at hstep
  cases thread with
  | runFrame | ended => cases hstep
  | tasksEmpty =>
    cases hstep
    cases hqueue : loop.taskQueue with
    | nil => exact h.withThread .inputEmpty rfl rfl ⟨nofun, nofun⟩
    | cons task taskQueue =>
      refine h.withThread .popTask rfl rfl ⟨fun _ => ?_, nofun⟩
      rw [hqueue]
      exact List.cons_ne_nil _ _
  | popTask =>
    dsimp only [ServerLoop.takeTask] at hstep
    cases hqueue : loop.taskQueue with
    | nil => exact absurd hqueue (h.pops.1 rfl)
    | cons task taskQueue =>
      rw [hqueue] at hstep
      cases hstep
      have htasks := h.tasks
      dsimp only at htasks
      rw [hqueue] at htasks
      exact ⟨htasks.take, ⟨given, horder, htext⟩, nofun, nofun⟩
  | callTask task =>
    cases hstep
    exact ⟨h.tasks.handOn, ⟨given, horder, htext⟩, nofun, nofun⟩
  | inputEmpty =>
    cases hstep
    cases hqueue : loop.inputQueue with
    | nil => exact h.withThread .runFrame rfl rfl ⟨nofun, nofun⟩
    | cons input inputQueue =>
      refine h.withThread .popInput rfl rfl ⟨nofun, fun _ => ?_⟩
      rw [hqueue]
      exact List.cons_ne_nil _ _
  | popInput =>
    dsimp only [ServerLoop.takeInput] at hstep
    cases hqueue : loop.inputQueue with
    | nil => exact absurd hqueue (h.pops.2 rfl)
    | cons input inputQueue =>
      rw [hqueue] at hstep
      cases hstep
      dsimp only at horder
      rw [hqueue] at horder
      exact ⟨h.tasks, ⟨given, horder.take, htext⟩, nofun, nofun⟩
  | addConsoleText input =>
    cases hstep
    refine ⟨h.tasks, ⟨given ++ [input], horder.handOn, ?_⟩, nofun, nofun⟩
    show loop.consoleText ++ [cStr input] = _
    rw [List.map_append]
    exact congrArg (· ++ [cStr input]) htext

theorem deliveryInv_step (h : DeliveryInv s) {ev : DeliveryEvent α} (hstep : s.step ev = .ok s') :
    DeliveryInv s' := by
  cases ev with
  | enqueueInput t input =>
    cases hstep
    exact deliveryInv_enqueueInput h input
  | enqueueTask t =>
    cases hstep
    exact deliveryInv_enqueueTask h
  | loop => exact deliveryInv_stepLoop h hstep
  | frame result =>
    simp only [Delivery.step] at hstep
    split at hstep
    · rename_i hthread
      cases hstep
      cases result with
      | true =>
        exact h.withThread .tasksEmpty (by rw [hthread]; rfl) (by rw [hthread]; rfl)
          ⟨nofun, nofun⟩
      | false =>
        exact h.withThread .ended (by rw [hthread]; rfl) (by rw [hthread]; rfl) ⟨nofun, nofun⟩
    · cases hstep

/-- No line has a NUL. -/
def NoNuls (s : Delivery) : Prop := ∀ input ∈ s.inputs, '\x00' ∉ input

theorem inputs_stepLoop (hstep : s.stepLoop = .ok s') : s'.inputs = s.inputs := by
  obtain ⟨loop, thread, sent⟩ := s
  unfold stepLoop at hstep
  cases thread with
  | runFrame | ended => cases hstep
  | tasksEmpty | callTask | inputEmpty | addConsoleText =>
    cases hstep
    rfl
  | popTask =>
    dsimp only at hstep
    split at hstep
    · cases hstep
    · cases hstep
      rfl
  | popInput =>
    dsimp only at hstep
    split at hstep
    · cases hstep
    · cases hstep
      rfl

theorem noNuls_step (h : NoNuls s) {ev : DeliveryEvent α} (hstep : s.step ev = .ok s')
    (hev : ∀ t input, ev = .enqueueInput t input → '\x00' ∉ input) : NoNuls s' := by
  cases ev with
  | enqueueInput t input =>
    cases hstep
    intro input' hmem
    rcases List.mem_append.mp hmem with hold | hnew
    · exact h input' hold
    · obtain rfl := List.mem_singleton.mp hnew
      exact hev t input' rfl
  | enqueueTask t =>
    cases hstep
    exact h
  | loop =>
    unfold NoNuls
    rw [inputs_stepLoop hstep]
    exact h
  | frame result =>
    simp only [Delivery.step] at hstep
    split at hstep
    · cases hstep
      exact h
    · cases hstep

/-- Lines without a NUL reach the engine as they were enqueued. -/
theorem DeliveryInv.consoleText_lines (h : DeliveryInv s) (hnul : NoNuls s) :
    s.loop.consoleText <+: s.lines := by
  obtain ⟨given, horder, htext⟩ := h.inputs
  have hsame : given.map cStr = given := by
    refine (List.map_congr_left fun line hline => ?_).trans (List.map_id given)
    apply cStr_of_noNul
    obtain ⟨input, hmem, rfl⟩ := List.mem_map.mp (horder.done_sent.subset hline)
    have hinput : '\x00' ∉ input := hnul input hmem
    simpa using hinput
  rw [htext, hsame]
  exact horder.done_sent

theorem DeliveryInv.executed_nodup (h : DeliveryInv s) : s.loop.executed.Nodup :=
  h.tasks.done_sent.sublist.nodup List.nodup_range

end steps

/-! ## Runs -/

section runs

variable {α : Type u} (events : List (DeliveryEvent α))

theorem deliveryInv_run : Always DeliveryInv start (traceOk Delivery.step start events) :=
  always_of_step (fun _ _ _ h hstep => deliveryInv_step h hstep.2) deliveryInv_start
    (isRun_traceOk _ _ _)

theorem noNuls_run (hevents : ∀ t input, .enqueueInput t input ∈ events → '\x00' ∉ input) :
    Always NoNuls start (traceOk Delivery.step start events) := by
  refine always_of_step ?_ (fun input hmem => absurd hmem List.not_mem_nil) (isRun_traceOk _ _ _)
  intro s ev s' h hstep
  refine noNuls_step h hstep.2 fun t input hev => hevents t input ?_
  rw [← hev]
  exact hstep.1

end runs

/-- Whatever threads enqueue, and whenever they do: the loop never waits in `pop()`; the engine
    has been given the first lines that were enqueued, in order, each with one newline; and the
    first tasks that were enqueued were executed, in order and once. -/
theorem delivered_in_order {α : Type u} (events : List (DeliveryEvent α))
    (hevents : ∀ t input, .enqueueInput t input ∈ events → '\x00' ∉ input) :
    Always (fun s => s.NeverWaits ∧ s.loop.consoleText <+: s.inputs.map (· ++ ['\n']) ∧
        s.loop.executed <+: List.range s.loop.tasks ∧ s.loop.executed.Nodup)
      start (traceOk Delivery.step start events) := by
  refine ((deliveryInv_run events).and (noNuls_run events hevents)).mono ?_
  rintro s ⟨h, hnul⟩
  exact ⟨h.pops, h.consoleText_lines hnul, h.tasks.done_sent, h.executed_nodup⟩

/-- Two threads enqueue; the second line comes in between `empty()` and `pop()`. -/
def twoProducers : List (DeliveryEvent Bool) :=
  [.enqueueInput false "map".toList, .enqueueTask true, .frame true, .loop, .loop, .loop, .loop,
    .enqueueInput true "quit".toList, .loop, .loop]

theorem delivered_in_order_twoProducers :
    (final start (traceOk Delivery.step start twoProducers)).loop.consoleText =
        ["map\n".toList] ∧
      Always (fun s => s.NeverWaits ∧ s.loop.consoleText <+: s.inputs.map (· ++ ['\n']) ∧
          s.loop.executed <+: List.range s.loop.tasks ∧ s.loop.executed.Nodup)
        start (traceOk Delivery.step start twoProducers) := by
  refine ⟨by decide, delivered_in_order twoProducers fun t input hmem => ?_⟩
  simp only [twoProducers, List.mem_cons, DeliveryEvent.enqueueInput.injEq, reduceCtorEq, false_or,
    or_false, List.not_mem_nil] at hmem
  rcases hmem with ⟨-, rfl⟩ | ⟨-, rfl⟩ <;> decide

end RehldsM.Model
