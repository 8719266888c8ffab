import RehldsM.Hlds.Shutdown
import RehldsM.Lib.Projection
import RehldsM.View.TerminalSettings

/-
  The terminal over the life of the server: the input thread in `read_input`
  (libs/view/src/view/linux/console_input.cpp) and the main thread in `run_server_loop`
  (apps/hlds/src/hlds/hlds.main.cpp).

  Around its loop the input thread has two objects, the settings of the terminal and the
  redirection of `std::cout`. They are constructed when the thread begins, at any time in the
  life of the main thread, and are destroyed before `join` goes on. Seen through its server such a
  run is one of `Server`, and seen through its objects one of nested scopes.

  So the console is as it was found whenever `run_server_loop` has returned, and it returns unless a
  task is left over. If one is, both threads wait inside of the two scopes, and the terminal is
  raw for good (`terminal_put_back`).
-/

namespace RehldsM.Hlds

open Lib Util Model View

structure ConsoleServer where
  server : Server
  scopes : ConsoleScopes

/-- The input thread constructs its next object, with what the system answers to it, or destroys
    the last; or an event of the server. -/
inductive ConsoleEvent where
  | construct (scope : ConsoleScope)
  | server (ev : Event)
  | destruct

namespace ConsoleServer

def start (console : Console) : ConsoleServer := ⟨.start, ⟨console, []⟩⟩

/-- The next object of `read_input`. -/
def Constructs (s : ConsoleServer) : ConsoleScope → Prop
  | .settings _ => s.scopes.live.length = 0
  | .redirect _ => s.scopes.live.length = 1

instance (s : ConsoleServer) : DecidablePred s.Constructs
  | .settings _ | .redirect _ => Nat.decEq _ _

/-- The loop of the input thread is inside of both scopes, and `join` waits for their end. -/
def Allows (s : ConsoleServer) : Event → Prop
  | .input | .polled _ => s.scopes.live.length = 2
  | .main => s.server.main = .join → s.scopes.live.length = 0
  | .frame _ => True

instance (s : ConsoleServer) : DecidablePred s.Allows
  | .input | .polled _ => Nat.decEq _ _
  | .main => inferInstanceAs (Decidable (_ → _))
  | .frame _ => .isTrue trivial

def step (s : ConsoleServer) : ConsoleEvent → Except NotEnabled ConsoleServer
  | .construct scope =>
    if s.server.input ≠ .exited ∧ s.Constructs scope then
      (consoleScope.step s.scopes (.enter scope)).map fun scopes => { s with scopes }
    else .error .notEnabled
  | .server ev =>
    if s.Allows ev then (s.server.step ev).map fun server => { s with server }
    else .error .notEnabled
  | .destruct =>
    if s.server.input = .exited then
      (consoleScope.step s.scopes .leave).map fun scopes => { s with scopes }
    else .error .notEnabled

/-- What an event can do. -/
inductive Moves (s : ConsoleServer) : ConsoleEvent → ConsoleServer → Prop where
  | construct {scope scopes} (hinput : s.server.input ≠ .exited) (hnext : s.Constructs scope)
      (hstep : consoleScope.step s.scopes (.enter scope) = .ok scopes) :
      Moves s (.construct scope) { s with scopes }
  | server {ev server} (hallows : s.Allows ev) (hstep : s.server.step ev = .ok server) :
      Moves s (.server ev) { s with server }
  | destruct {scopes} (hinput : s.server.input = .exited)
      (hstep : consoleScope.step s.scopes .leave = .ok scopes) :
      Moves s .destruct { s with scopes }

theorem moves_of_step {s s' : ConsoleServer} {ev : ConsoleEvent} (h : s.step ev = .ok s') :
    Moves s ev s' := by
  cases ev with
  | construct scope =>
    unfold step at h
    dsimp only at h
    split at h
    · rename_i hnext
      obtain ⟨scopes, hstep, rfl⟩ := ok_map h
      exact .construct hnext.1 hnext.2 hstep
    · cases h
  | server ev =>
    unfold step at h
    dsimp only at h
    split at h
    · rename_i hallows
      obtain ⟨server, hstep, rfl⟩ := ok_map h
      exact .server hallows hstep
    · cases h
  | destruct =>
    unfold step at h
    dsimp only at h
    split at h
    · rename_i hinput
      obtain ⟨scopes, hstep, rfl⟩ := ok_map h
      exact .destruct hinput hstep
    · cases h

/-! ## The two machines in it -/

def serverEvent (_ : ConsoleServer) : ConsoleEvent → Option Event
  | .server ev => some ev
  | .construct _ | .destruct => none

def scopeEvent (_ : ConsoleServer) : ConsoleEvent → Option (ScopeEvent ConsoleScope)
  | .construct scope => some (.enter scope)
  | .destruct => some .leave
  | .server _ => none

theorem seenAs_server (s : ConsoleServer) (ev : ConsoleEvent) (s' : ConsoleServer)
    (hmove : Moves s ev s') : SeenAs Server.Moves s.server (serverEvent s ev) s'.server := by
  cases hmove with
  | server hallows hstep => exact Server.moves_of_step hstep
  | construct hinput hnext hstep => rfl
  | destruct hinput hstep => rfl

theorem seenAs_scopes (s : ConsoleServer) (ev : ConsoleEvent) (s' : ConsoleServer)
    (hmove : Moves s ev s') :
    SeenAs (fun s e s' => consoleScope.step s e = .ok s') s.scopes (scopeEvent s ev) s'.scopes := by
  cases hmove with
  | server hallows hstep => rfl
  | construct hinput hnext hstep => exact hstep
  | destruct hinput hstep => exact hstep

/-- The event leaves no task over. -/
def LeavesNone (s : ConsoleServer) (ev : ConsoleEvent) : Prop :=
  ∀ ev' ∈ serverEvent s ev, ¬ LeavesTask s.server ev'

/-- A scope that begins finds what it needs, to leave the console as it was. -/
def EntersRestorable (s : ConsoleServer) (ev : ConsoleEvent) : Prop :=
  ∀ e ∈ scopeEvent s ev, ScopeClass.Entering Restorable s.scopes e

/-- The input thread waits for a key, or handles one. -/
def Reading (s : ConsoleServer) : Prop := s.server.input ≠ .loop ∧ s.server.input ≠ .exited

/-- `run_server_loop` has returned, and the input thread has ended, behind its scopes. -/
def Done (s : ConsoleServer) : Prop := s.server.Ended ∧ s.scopes.live = []

/-- No thread can go on, and nothing more is polled. -/
def Stuck (s : ConsoleServer) : Prop := ∀ ev s', s.step ev ≠ .ok s'

/-! ## Where the scopes are -/

structure ScopesFit (s : ConsoleServer) : Prop where
  depth : s.scopes.live.length ≤ 2
  reading : s.Reading → s.scopes.live.length = 2
  returned : s.server.main = .returned → s.scopes.live = []

section steps

variable {s s' : ConsoleServer} {ev : ConsoleEvent}

theorem scopesFit_start (console : Console) : ScopesFit (start console) :=
  ⟨Nat.zero_le 2, fun h => absurd rfl h.1, fun _ => rfl⟩

/-- The input thread is where it was, or was inside of both scopes. -/
theorem input_of_allows {ev : Event} {server : Server} (hallows : s.Allows ev)
    (hmove : Server.Moves s.server ev server) :
    server.input = s.server.input ∨ s.scopes.live.length = 2 := by
  cases hmove with
  | frame result hmain | takeTask hmain hqueue | noTask hmain hqueue | runTask hmain
  | processInput hmain | shutdown hmain | stop hmain hrunning | stopped hmain hrunning
  | join hmain hinput => exact .inl rfl
  | check hinput | enqueueTask hinput | getMatches hinput hdone | tab hinput
  | newline input hinput | other polled hinput => exact .inr hallows

/-- `run_server_loop` returns behind both scopes. -/
theorem returned_of_allows {ev : Event} {server : Server} (hinv : ServerInv s.server)
    (hallows : s.Allows ev) (hmove : Server.Moves s.server ev server)
    (hreturned : server.main = .returned) :
    s.server.main = .returned ∨ s.scopes.live = [] := by
  cases hmove with
  | frame result hmain =>
    dsimp only at hreturned
    split at hreturned <;> cases hreturned
  | takeTask hmain hqueue | noTask hmain hqueue | runTask hmain | processInput hmain
  | shutdown hmain | stop hmain hrunning => cases hreturned
  | stopped hmain hrunning =>
    have hon := hinv.running (by simp [hmain]) (by simp [hmain])
    exact absurd (hon.symm.trans hrunning) (by simp)
  | join hmain hinput => exact .inr (List.eq_nil_of_length_eq_zero (hallows hmain))
  | check hinput | enqueueTask hinput | getMatches hinput hdone | tab hinput
  | newline input hinput | other polled hinput => exact .inl hreturned

theorem serverInv_moves (h : ServerInv s.server) (hmove : Moves s ev s') : ServerInv s'.server := by
  cases hmove with
  | server hallows hstep => exact serverInv_step h (Server.moves_of_step hstep)
  | construct hinput hnext hstep => exact h
  | destruct hinput hstep => exact h

theorem scopesFit_step (hinv : ServerInv s.server) (h : ScopesFit s) (hmove : Moves s ev s') :
    ScopesFit s' := by
  cases hmove with
  | @construct scope scopes hinput hnext hstep =>
    obtain rfl := Except.ok.inj hstep
    have hdepth : s.scopes.live.length ≤ 1 := by
      cases scope with
      | settings answers => exact (Nat.le_of_eq hnext).trans (Nat.zero_le 1)
      | redirect answers => exact Nat.le_of_eq hnext
    refine ⟨Nat.succ_le_succ hdepth, fun hreading => ?_, fun hreturned => ?_⟩
    · exact absurd (h.reading hreading) (by omega)
    · exact absurd (hinv.returned hreturned) hinput
  | @server ev server hallows hstep =>
    have hserver := Server.moves_of_step hstep
    refine ⟨h.depth, fun hreading => ?_, fun hreturned => ?_⟩
    · rcases input_of_allows hallows hserver with hsame | hlength
      · rw [Reading, hsame] at hreading
        exact h.reading hreading
      · exact hlength
    · exact (returned_of_allows hinv hallows hserver hreturned).elim h.returned id
  | @destruct scopes hinput hstep =>
    obtain ⟨arg, harg, -⟩ | ⟨scope, live, -, hlive, rfl⟩ := ScopeClass.step_cases hstep
    · cases harg
    · have hdepth := h.depth
      rw [hlive, List.length_cons] at hdepth
      refine ⟨Nat.le_of_succ_le hdepth, fun hreading => ?_, fun hreturned => ?_⟩
      · exact absurd hinput hreading.2
      · exact absurd (h.returned hreturned) (by simp [hlive])

/-! ## Where nothing goes on -/

/-- Either no scope is left behind the loop, or the input thread is inside of both. -/
theorem live_of_stuck (h : ScopesFit s) (hstuck : Stuck s) :
    (s.server.input = .exited ∧ s.scopes.live = []) ∨
      (s.server.input ≠ .exited ∧ s.scopes.live.length = 2) := by
  by_cases hinput : s.server.input = .exited
  · refine .inl ⟨hinput, ?_⟩
    cases hlive : s.scopes.live with
    | nil => rfl
    | cons scope live =>
      refine absurd ?_ (hstuck .destruct { s with
        scopes := { state := consoleScope.destruct scope.object s.scopes.state, live } })
      unfold step ScopeClass.step
      dsimp only
      rw [if_pos hinput, hlive]
      rfl
  · refine .inr ⟨hinput, ?_⟩
    have hnext : ∀ scope, ¬ s.Constructs scope := fun scope hnext =>
      absurd (if_pos ⟨hinput, hnext⟩) (hstuck (.construct scope) _)
    have hnone : s.scopes.live.length ≠ 0 := hnext (.settings ⟨true, true, true⟩)
    have hone : s.scopes.live.length ≠ 1 := hnext (.redirect ⟨none, true⟩)
    have hdepth := h.depth
    omega

/-- The server in it is stuck, too: the scopes keep nobody waiting. -/
theorem stuck_server (h : ScopesFit s) (hstuck : Stuck s) : Hlds.Stuck s.server := by
  intro ev server hstep
  have hrefused : ¬ s.Allows ev := by
    intro hallows
    refine absurd ?_ (hstuck (.server ev) { s with server })
    unfold step
    dsimp only
    rw [if_pos hallows, hstep]
    rfl
  refine hrefused ?_
  have hmove := Server.moves_of_step hstep
  rcases live_of_stuck h hstuck with ⟨hinput, hlive⟩ | ⟨hinput, hlength⟩
  · cases hmove with
    | frame result hmain => trivial
    | takeTask hmain hqueue | noTask hmain hqueue | runTask hmain | processInput hmain
    | shutdown hmain | stop hmain hrunning | stopped hmain hrunning | join hmain hinput' =>
      intro _
      rw [hlive]
      rfl
    | check hinput' | enqueueTask hinput' | getMatches hinput' hdone | tab hinput'
    | newline input hinput' | other polled hinput' =>
      exact absurd (hinput.symm.trans hinput') (by simp)
  · cases hmove with
    | frame result hmain => trivial
    | takeTask hmain hqueue | noTask hmain hqueue | runTask hmain | processInput hmain
    | shutdown hmain | stop hmain hrunning | stopped hmain hrunning =>
      intro hjoin
      exact absurd (hmain.symm.trans hjoin) (by simp)
    | join hmain hinput' => exact absurd hinput' hinput
    | check hinput' | enqueueTask hinput' | getMatches hinput' hdone | tab hinput'
    | newline input hinput' | other polled hinput' => exact hlength

end steps

theorem isRun_moves (s : ConsoleServer) (events : List ConsoleEvent) :
    IsRun Moves s (traceOk step s events) :=
  (isRun_traceOk step s events).mono fun _ _ _ h => moves_of_step h.2

end ConsoleServer

open ConsoleServer

/-- The server is stopped while the input thread polls. -/
example :
    let console : Console :=
      ⟨some { Termios.zero with lflag := Termios.ICANON }, ⟨∅, by simp⟩, some .original⟩
    let constructs : List ConsoleEvent :=
      [.construct (.settings ⟨true, true, true⟩), .construct (.redirect ⟨none, true⟩)]
    let stops : List Event := [.input, .frame false, .main, .main, .polled .timeout, .input]
    let events := constructs ++ stops.map .server ++ [.destruct, .destruct, .server .main]
    let s := final (start console) (traceOk step (start console) events)
    s.server.Ended ∧ s.scopes.live.length = 0 ∧ s.scopes.state = console := by
  decide

end RehldsM.Hlds
