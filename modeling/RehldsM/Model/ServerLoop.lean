import RehldsM.Util.Strings

/-
  The two queues of `ServerLoop` (libs/model/src/model/server_loop.cpp,
  libs/model/include/model/server_loop.hpp).

  Tasks are numbered in the order they are enqueued. A task's future has its result once the task
  was executed.
-/

namespace RehldsM.Model

open Util

/-- `ServerLoop::enqueue_input`: the line with its newline. -/
def enqueueInput (inputQueue : List Str) (input : Str) : List Str := inputQueue ++ [input ++ ['\n']]

structure ServerLoop where
  taskQueue : List Nat
  /-- How many tasks were enqueued. -/
  tasks : Nat
  /-- The tasks that were executed. -/
  executed : List Nat
  inputQueue : List Str
  /-- What `add_console_text` was given. -/
  consoleText : List Str
deriving DecidableEq

namespace ServerLoop

def new : ServerLoop where
  taskQueue := []
  tasks := 0
  executed := []
  inputQueue := []
  consoleText := []

/-- `enqueue_task`: the task behind the future, and the loop it waits in. -/
def enqueueTask (loop : ServerLoop) : Nat × ServerLoop :=
  (loop.tasks,
    { loop with taskQueue := loop.taskQueue ++ [loop.tasks], tasks := loop.tasks + 1 })

/-- The task `process_tasks` takes: at most one. -/
def takeTask (loop : ServerLoop) : Option (Nat × ServerLoop) :=
  match loop.taskQueue with
  | [] => none
  | task :: taskQueue => some (task, { loop with taskQueue })

/-- `task()`. -/
def execute (loop : ServerLoop) (task : Nat) : ServerLoop :=
  { loop with executed := loop.executed ++ [task] }

/-- The line `process_input` takes: at most one. -/
def takeInput (loop : ServerLoop) : Option (Str × ServerLoop) :=
  match loop.inputQueue with
  | [] => none
  | input :: inputQueue => some (input, { loop with inputQueue })

/-- `add_console_text(input.c_str())`. -/
def addConsoleText (loop : ServerLoop) (input : Str) : ServerLoop :=
  { loop with consoleText := loop.consoleText ++ [cStr input] }

def processInput (loop : ServerLoop) : ServerLoop :=
  match loop.takeInput with
  | none => loop
  | some (input, loop) => loop.addConsoleText input

theorem processInput_eq (loop : ServerLoop) :
    loop.processInput.taskQueue = loop.taskQueue ∧ loop.processInput.tasks = loop.tasks ∧
      loop.processInput.executed = loop.executed := by
  unfold processInput takeInput
  cases loop.inputQueue <;> exact ⟨rfl, rfl, rfl⟩

end ServerLoop

end RehldsM.Model
