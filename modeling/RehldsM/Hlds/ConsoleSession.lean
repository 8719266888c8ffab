import RehldsM.Model.ServerLoopDelivery
import RehldsM.View.LineEditor
import RehldsM.View.LinuxConsoleInput

/-
  From the keyboard to the engine.

  The input thread decodes what the terminal sends and calls the handlers of `ConsoleInput`; on
  Enter the line goes into the input queue, and on a Tab the thread waits until the server loop
  has executed the task that looks for the matches. The loop thread takes a line out of the queue
  in each turn and hands it to the engine. The two threads take their steps in any order.

  `lines_reach_engine`: the engine has got the lines that the reference editor has entered for
  the keys read so far, in order and none twice; the others are all on their way. Where
  `handle_tab` throws, the process is at its end, and so is the run.
-/

namespace RehldsM.Hlds

open Lib Util Model View

structure Session where
  /-- What the decoder has still to hand out. -/
  keyboard : List (Stroke Char)
  console : ConsoleInput
  /-- The task that the input thread waits for, behind a Tab. -/
  matchTask : Option Nat
  delivery : Delivery
  /-- The handlers that were called. -/
  keys : List Key

/-- The next stroke is read, the matches of a Tab are there, the loop thread takes a step, or
    `run_frame` returns. -/
inductive SessionEvent where
  | input
  | found (systemInterface : Option GetCommandMatches) (consoleWidth : Nat)
  | loop
  | frame (result : Bool)

namespace Session

variable (strpy : Strpy)

/-- A server that starts with this history file, on a terminal that sends these bytes. -/
def start (filename : Str) (fs : FileSystem) (bytes : Str) : Session where
  keyboard := strokes id bytes
  console := .initial strpy filename fs
  matchTask := none
  delivery := .start
  keys := []

/-- `ServerLoop::enqueue_input`, on Enter. -/
def enqueue (delivery : Delivery) (input : Str) : Key → Delivery
  | .newline =>
    { delivery with
      loop := { delivery.loop with inputQueue := enqueueInput delivery.loop.inputQueue input }
      inputs := delivery.inputs ++ [input] }
  | .char _ | .left | .right | .home | .toEnd | .backspace | .delete | .up | .down | .tab _ _ =>
    delivery

/-- The handler of a key. -/
def call (s : Session) (key : Key) : Except NotEnabled Session :=
  match handle strpy s.console key with
  | .ok console =>
    .ok { s with
      console
      delivery := enqueue s.delivery s.console.inputLine key
      keys := s.keys ++ [key] }
  | .error _ => .error .notEnabled

def step (s : Session) : SessionEvent → Except NotEnabled Session
  | .input =>
    match s.matchTask, s.keyboard with
    | none, .char c :: keyboard => call strpy { s with keyboard } (.char c)
    | none, .key key :: keyboard => call strpy { s with keyboard } key
    | none, .tab :: keyboard =>
      let (task, loop) := s.delivery.loop.enqueueTask
      .ok { s with keyboard, matchTask := some task, delivery := { s.delivery with loop } }
    | _, _ => .error .notEnabled
  | .found systemInterface consoleWidth =>
    match s.matchTask with
    | some task =>
      if task ∈ s.delivery.loop.executed then
        call strpy { s with matchTask := none }
          (.tab (findCommandMatches strpy systemInterface s.console.inputLine) consoleWidth)
      else .error .notEnabled
    | none => .error .notEnabled
  | .loop => s.delivery.stepLoop.map fun delivery => { s with delivery }
  | .frame result =>
    (s.delivery.step (.frame result : DeliveryEvent Unit)).map fun delivery => { s with delivery }

/-- The reference editor, for the keys so far. -/
def editor (filename : Str) (fs : FileSystem) (s : Session) : LineEditor :=
  s.keys.foldl (LineEditor.step strpy) (.initial strpy filename fs)

/-- The handler is the one of the stroke. -/
def CalledFor : Stroke Char → Key → Prop
  | .char c, key => key = .char c
  | .tab, key => ∃ commands consoleWidth, key = .tab commands consoleWidth
  | .key key', key => key = key'

/-- The strokes are those of the bytes: first the ones whose handlers were called, then the Tab
    that waits, then the rest. -/
def ReadInOrder (bytes : Str) (s : Session) : Prop :=
  ∃ read, read ++ s.matchTask.toList.map (fun _ => .tab) ++ s.keyboard = strokes id bytes ∧
    List.Forall₂ CalledFor read s.keys

structure SessionInv (filename : Str) (fs : FileSystem) (bytes : Str) (s : Session) : Prop where
  read : ReadInOrder bytes s
  follows : Follows s.console (s.editor strpy filename fs)
  inputs : s.delivery.inputs = (s.editor strpy filename fs).entered
  delivery : DeliveryInv s.delivery

/-! ## One step -/

section steps

variable {strpy} {filename : Str} {fs : FileSystem} {bytes : Str} {s s' : Session} {key : Key}

theorem editor_concat (h : s'.keys = s.keys ++ [key]) :
    s'.editor strpy filename fs = (s.editor strpy filename fs).step strpy key := by
  rw [editor, h, List.foldl_append]
  rfl

/-- Only Enter enters a line, and only then one is enqueued: the line of the console. -/
theorem inputs_enqueue {delivery : Delivery} {e : LineEditor} (h : delivery.inputs = e.entered)
    (key : Key) :
    (enqueue delivery e.line.toList key).inputs = (e.step strpy key).entered := by
  cases key with
  | newline => exact congrArg (· ++ [e.line.toList]) h
  | char c =>
    rw [LineEditor.step]
    split <;> exact h
  | up | down =>
    unfold LineEditor.step
    dsimp only
    split <;> exact h
  | tab commands consoleWidth =>
    rcases commands with _ | ⟨command, _ | ⟨command', commands⟩⟩ <;> exact h
  | left | right | home | toEnd | backspace | delete => exact h

theorem deliveryInv_enqueue {delivery : Delivery} (h : DeliveryInv delivery) (input : Str)
    (key : Key) : DeliveryInv (enqueue delivery input key) := by
  cases key with
  | newline => exact deliveryInv_enqueueInput h input
  | char _ | left | right | home | toEnd | backspace | delete | up | down | tab _ _ => exact h

/-- A handler that returns has done to the console what the key does to the editor. -/
theorem sessionInv_call {read : List (Stroke Char)} {stroke : Stroke Char}
    (hfollows : Follows s.console (s.editor strpy filename fs))
    (hinputs : s.delivery.inputs = (s.editor strpy filename fs).entered)
    (hdelivery : DeliveryInv s.delivery)
    (hread : read ++ stroke :: s.keyboard = strokes id bytes) (hmatch : s.matchTask = none)
    (hcalled : List.Forall₂ CalledFor read s.keys) (hstroke : CalledFor stroke key)
    (hcall : s.call strpy key = .ok s') : SessionInv strpy filename fs bytes s' := by
  unfold call at hcall
  split at hcall
  · rename_i console hok
    obtain rfl := Except.ok.inj hcall
    have hline : s.console.inputLine = (s.editor strpy filename fs).line.toList := hfollows.line.1
    have heditor : Session.editor strpy filename fs ⟨s.keyboard, console, s.matchTask,
        enqueue s.delivery s.console.inputLine key, s.keys ++ [key]⟩ =
          (s.editor strpy filename fs).step strpy key := editor_concat rfl
    constructor
    · refine ⟨read ++ [stroke], ?_, List.rel_append hcalled (.cons hstroke .nil)⟩
      dsimp only
      rw [hmatch, ← hread]
      simp
    · rw [heditor]
      exact (handle_ok hfollows hok).1
    · rw [heditor]
      dsimp only
      rw [hline]
      exact inputs_enqueue hinputs key
    · exact deliveryInv_enqueue hdelivery _ key
  · cases hcall

theorem sessionInv_start (strpy : Strpy) (filename : Str) (fs : FileSystem) (bytes : Str) :
    SessionInv strpy filename fs bytes (start strpy filename fs bytes) where
  read := ⟨[], rfl, .nil⟩
  follows := follows_new strpy filename fs
  inputs := rfl
  delivery := deliveryInv_start

/-- The loop thread moves on, and leaves what was enqueued as it is. -/
theorem sessionInv_withDelivery (h : SessionInv strpy filename fs bytes s) {delivery : Delivery}
    (hdelivery : DeliveryInv delivery) (hinputs : delivery.inputs = s.delivery.inputs) :
    SessionInv strpy filename fs bytes { s with delivery } :=
  ⟨h.read, h.follows, hinputs.trans h.inputs, hdelivery⟩

theorem sessionInv_step (h : SessionInv strpy filename fs bytes s) {ev : SessionEvent}
    (hstep : s.step strpy ev = .ok s') : SessionInv strpy filename fs bytes s' := by
  obtain ⟨keyboard, console, matchTask, delivery, keys⟩ := s
  obtain ⟨⟨read, hread, hcalled⟩, hfollows, hinputs, hdelivery⟩ := h
  cases ev with
  | input =>
    match matchTask, keyboard with
    | none, .char c :: keyboard =>
      have hstroke : CalledFor (.char c) (.char c) := rfl
      rw [Option.toList_none, List.map_nil, List.append_nil] at hread
      exact sessionInv_call (s := ⟨keyboard, console, none, delivery, keys⟩) hfollows hinputs
        hdelivery hread rfl hcalled hstroke hstep
    | none, .key key :: keyboard =>
      have hstroke : CalledFor (.key key) key := rfl
      rw [Option.toList_none, List.map_nil, List.append_nil] at hread
      exact sessionInv_call (s := ⟨keyboard, console, none, delivery, keys⟩) hfollows hinputs
        hdelivery hread rfl hcalled hstroke hstep
    | none, .tab :: keyboard =>
      obtain rfl := Except.ok.inj hstep
      refine ⟨⟨read, ?_, hcalled⟩, hfollows, hinputs, deliveryInv_enqueueTask hdelivery⟩
      rw [← hread]
      simp
    | none, [] | some task, _ => cases hstep
  | found systemInterface consoleWidth =>
    match matchTask with
    | none => cases hstep
    | some task =>
      simp only [step] at hstep
      split at hstep
      · have hstroke : CalledFor .tab (.tab (findCommandMatches strpy systemInterface
            console.inputLine) consoleWidth) := ⟨_, _, rfl⟩
        rw [Option.toList_some, List.map_singleton, List.append_assoc] at hread
        exact sessionInv_call (s := ⟨keyboard, console, none, delivery, keys⟩) hfollows hinputs
          hdelivery hread rfl hcalled hstroke hstep
      · cases hstep
  | loop =>
    cases hloop : delivery.stepLoop with
    | error e =>
      rw [step, hloop] at hstep
      cases hstep
    | ok delivery' =>
      rw [step, hloop] at hstep
      obtain rfl := Except.ok.inj hstep
      exact sessionInv_withDelivery ⟨⟨read, hread, hcalled⟩, hfollows, hinputs, hdelivery⟩
        (deliveryInv_stepLoop hdelivery hloop) (inputs_stepLoop hloop)
  | frame result =>
    cases hframe : delivery.step (.frame result : DeliveryEvent Unit) with
    | error e =>
      rw [step, hframe] at hstep
      cases hstep
    | ok delivery' =>
      rw [step, hframe] at hstep
      obtain rfl := Except.ok.inj hstep
      refine sessionInv_withDelivery ⟨⟨read, hread, hcalled⟩, hfollows, hinputs, hdelivery⟩
        (deliveryInv_step hdelivery hframe) ?_
      rw [Delivery.step] at hframe
      split at hframe
      · obtain rfl := Except.ok.inj hframe
        rfl
      · cases hframe

end steps

end Session

open Session

/-- In every state of every run: the handlers called so far are those of the first strokes of what
    the terminal sends; the console holds the line of the reference editor for these keys; and of
    the lines the editor has entered the engine was given the first, in order, one line may be in
    the hands of the loop thread, and the others are queued. -/
theorem lines_reach_engine (strpy : Strpy) (filename : Str) (fs : FileSystem) (bytes : Str)
    (events : List SessionEvent) :
    let start := Session.start strpy filename fs bytes
    Always (fun s => s.ReadInOrder bytes ∧
        let e := s.editor strpy filename fs
        Zipper.cut s.console.inputLine s.console.cursorPosition = e.line ∧
          ∃ given, InOrder (e.entered.map (· ++ ['\n'])) given s.delivery.thread.input
              s.delivery.loop.inputQueue ∧
            s.delivery.loop.consoleText = given.map cStr)
      start (traceOk (Session.step strpy) start events) := by
  intro start
  have hrun : Always (SessionInv strpy filename fs bytes) start
      (traceOk (Session.step strpy) start events) :=
    always_of_step (fun _ _ _ h hstep => sessionInv_step h hstep.2)
      (sessionInv_start strpy filename fs bytes) (isRun_traceOk _ _ _)
  refine hrun.mono fun s h => ⟨h.read, h.follows.line.cut_eq, ?_⟩
  obtain ⟨given, horder, htext⟩ := h.delivery.inputs
  refine ⟨given, ?_, htext⟩
  rw [← h.inputs]
  exact horder

end RehldsM.Hlds
