import RehldsM.Hlds.RunServerLoop
import RehldsM.Lib.Backlog

/-
  The end of `run_server_loop` (apps/hlds/src/hlds/hlds.main.cpp), once `run_frame` has returned
  false: the shutdown of the engine, and `ConsoleInput::stop`, which waits for the input thread.

  The main thread has three steps left, and from `running_ = false` on there are three steps at
  most in all: that of `join`, and two of the input thread, whether it polls, handles a key or
  has the matches it waited for. So nothing goes on for ever, and `run_server_loop` returns, with
  the input thread ended, in every run that leaves no task over, and in no other (`shutdown_ends`).
-/

namespace RehldsM.Hlds

open Lib Util Model

/-- What the main thread still does after the loop. -/
def MainThread.stepsLeft : MainThread → Nat
  | .shutdown => 3
  | .stop => 2
  | .join => 1
  | .runFrame | .processTasks | .runTask _ | .processInput | .returned => 0

theorem MainThread.stepsLeft_le (main : MainThread) : main.stepsLeft ≤ 3 := by
  cases main <;> simp [stepsLeft]

namespace Server

/-- What the input thread still does after `running_ = false`. A task that was not executed by
    then will not be. -/
def inputStepsLeft (s : Server) : Nat :=
  match s.input with
  | .loop => 1
  | .poll => 2
  | .enqueueTask => 1
  | .getMatches task => if task ∈ s.loop.executed then 2 else 0
  | .exited => 0

/-- The steps of the main thread. -/
def mainSteps (_ : Server) (ev : Event) : Bool := ev = .main

/-- `run_server_loop` has returned, and the input thread has ended. -/
def Ended (s : Server) : Prop := s.main = .returned ∧ s.input = .exited

instance (s : Server) : Decidable s.Ended := by
  unfold Ended
  infer_instance

section steps

variable {s s' : Server} {ev : Event}

theorem over_step (h : s.main.Over) (hmove : Moves s ev s') : s'.main.Over := by
  cases hmove with
  | frame result hmain | takeTask hmain hqueue | noTask hmain hqueue | runTask hmain
  | processInput hmain => exact absurd h (by simp [hmain, MainThread.Over])
  | shutdown hmain | stop hmain hrunning | stopped hmain hrunning | join hmain hinput =>
    exact trivial
  | check hinput | enqueueTask hinput | getMatches hinput hdone | tab hinput
  | newline input hinput | other polled hinput => exact h

theorem main_stepsLeft (h : s.main.Over) (hmove : Moves s ev s') :
    (if ev = .main then 1 else 0) + s'.main.stepsLeft ≤ s.main.stepsLeft := by
  cases hmove with
  | frame result hmain | takeTask hmain hqueue | noTask hmain hqueue | runTask hmain
  | processInput hmain => exact absurd h (by simp [hmain, MainThread.Over])
  | shutdown hmain | stop hmain hrunning | stopped hmain hrunning | join hmain hinput =>
    simp [hmain, MainThread.stepsLeft]
  | check hinput | enqueueTask hinput | getMatches hinput hdone | tab hinput
  | newline input hinput | other polled hinput => simp

/-- The console is told to stop. -/
structure Stopping (s : Server) : Prop where
  inv : ServerInv s
  stopped : s.running = false

theorem Stopping.over (h : Stopping s) : s.main = .join ∨ s.main = .returned := by
  by_contra hmain
  rw [not_or] at hmain
  exact absurd (h.inv.running hmain.1 hmain.2) (by simp [h.stopped])

theorem stopping_step (h : Stopping s) (hmove : Moves s ev s') : Stopping s' := by
  refine ⟨serverInv_step h.inv hmove, ?_⟩
  cases hmove with
  | stop hmain hrunning => rfl
  | frame result hmain | takeTask hmain hqueue | noTask hmain hqueue | runTask hmain
  | processInput hmain | shutdown hmain | stopped hmain hrunning | join hmain hinput
  | check hinput | enqueueTask hinput | getMatches hinput hdone | tab hinput
  | newline input hinput | other polled hinput => exact h.stopped

theorem all_stepsLeft (h : Stopping s) (hmove : Moves s ev s') :
    1 + (s'.main.stepsLeft + s'.inputStepsLeft) ≤ s.main.stepsLeft + s.inputStepsLeft := by
  have hover := h.over
  cases hmove with
  | frame result hmain | takeTask hmain hqueue | noTask hmain hqueue | runTask hmain
  | processInput hmain | shutdown hmain | stop hmain hrunning | stopped hmain hrunning =>
    exact absurd hover (by simp [hmain])
  | join hmain hinput => simp [hmain, hinput, MainThread.stepsLeft, inputStepsLeft]
  | check hinput =>
    rw [h.stopped]
    simp only [inputStepsLeft, hinput, Bool.false_eq_true, if_false]
    omega
  | enqueueTask hinput =>
    -- The new task has a number of its own, so it is none of those that were executed.
    have hnew : s.loop.enqueueTask.1 ∉ s.loop.enqueueTask.2.executed :=
      fun hmem => absurd (h.inv.executed _ hmem) (Nat.lt_irrefl _)
    simp only [inputStepsLeft, hinput, if_neg hnew]
    omega
  | getMatches hinput hdone =>
    simp only [inputStepsLeft, hinput, if_pos hdone]
    omega
  | tab hinput | newline input hinput | other polled hinput =>
    simp only [inputStepsLeft, hinput]
    omega

theorem stepsLeft_le_of_stopping (h : Stopping s) : s.main.stepsLeft + s.inputStepsLeft ≤ 3 := by
  have hmain : s.main.stepsLeft ≤ 1 := by
    rcases h.over with hmain | hmain <;> simp [hmain, MainThread.stepsLeft]
  have hinput : s.inputStepsLeft ≤ 2 := by
    unfold inputStepsLeft
    split
    · exact Nat.le_succ 1
    · exact Nat.le_refl 2
    · exact Nat.le_succ 1
    · split <;> omega
    · exact Nat.zero_le 2
  omega

/-! ## Where nothing goes on -/

/-- A task the input thread waits for is queued or in the hands of the main thread, unless it
    was executed. -/
def OnItsWay (s : Server) : Prop :=
  ∀ task, s.input = .getMatches task →
    task ∈ s.loop.executed ∨ task ∈ s.loop.taskQueue ∨ s.main = .runTask task

theorem onItsWay_step (h : OnItsWay s) (hmove : Moves s ev s') : OnItsWay s' := by
  intro task hinput'
  cases hmove with
  | frame result hmain =>
    refine (h task hinput').imp_right fun hway => hway.imp_right fun hrun => ?_
    exact absurd (hmain.symm.trans hrun) (by simp)
  | takeTask hmain hqueue =>
    refine (h task hinput').imp_right fun hway => ?_
    rcases hway with hmem | hrun
    · rw [hqueue] at hmem
      refine (List.mem_cons.mp hmem).symm.imp_right fun heq => ?_
      rw [heq]
    · exact absurd (hmain.symm.trans hrun) (by simp)
  | runTask hmain =>
    rcases h task hinput' with hdone | hmem | hrun
    · exact .inl (List.mem_append_left _ hdone)
    · exact .inr (.inl hmem)
    · obtain rfl := MainThread.runTask.inj (hmain.symm.trans hrun)
      exact .inl (List.mem_append_right _ (List.mem_singleton.mpr rfl))
  | noTask hmain hqueue | shutdown hmain | stop hmain hrunning | stopped hmain hrunning
  | join hmain hinput =>
    refine (h task hinput').imp_right fun hway => hway.imp_right fun hrun => ?_
    exact absurd (hmain.symm.trans hrun) (by simp)
  | processInput hmain =>
    obtain ⟨hqueue, -, hexecuted⟩ := s.loop.processInput_eq
    dsimp only
    rw [hqueue, hexecuted]
    refine (h task hinput').imp_right fun hway => hway.imp_right fun hrun => ?_
    exact absurd (hmain.symm.trans hrun) (by simp)
  | enqueueTask hinput =>
    obtain rfl := InputThread.getMatches.inj hinput'
    exact .inr (.inl (List.mem_append_right _ (List.mem_singleton.mpr rfl)))
  | check hinput =>
    dsimp only at hinput'
    split at hinput' <;> cases hinput'
  | getMatches hinput hdone | tab hinput | newline input hinput | other polled hinput =>
    cases hinput'

/-- The loop keeps nobody waiting. -/
theorem over_of_stuck (hstuck : Stuck s) : s.main.Over := by
  cases hmain : s.main with
  | runFrame => exact absurd (by rw [step, hmain]) (hstuck (.frame true) _)
  | processTasks =>
    have hstep : ∃ s', s.step .main = .ok s' := by
      rw [step, stepMain, hmain]
      cases s.loop.takeTask with
      | none => exact ⟨_, rfl⟩
      | some taken => exact ⟨_, rfl⟩
    obtain ⟨s', hs'⟩ := hstep
    exact absurd hs' (hstuck .main s')
  | runTask task => exact absurd (by rw [step, stepMain, hmain]) (hstuck .main _)
  | processInput => exact absurd (by rw [step, stepMain, hmain]) (hstuck .main _)
  | shutdown | stop | join | returned => trivial

/-- After the loop, a server that is stuck has ended, or waits for a task that is left over. -/
theorem ended_or_orphaned (hinv : ServerInv s) (hway : OnItsWay s) (hover : s.main.Over)
    (hstuck : Stuck s) : s.Ended ∨ ∃ task, Orphaned s task := by
  by_cases hreturned : s.main = .returned
  · exact .inl ⟨hreturned, hinv.returned hreturned⟩
  right
  cases hinput : s.input with
  | loop => exact absurd (by rw [step, stepInput, hinput]) (hstuck .input _)
  | poll =>
    exact absurd (by simp [step, hinput]) (hstuck (.polled .timeout) { s with input := .loop })
  | enqueueTask => exact absurd (by rw [step, stepInput, hinput]) (hstuck .input _)
  | getMatches task =>
    have hnot : task ∉ s.loop.executed := fun hdone =>
      absurd (by rw [step, stepInput, hinput]; exact if_pos hdone) (hstuck .input _)
    rcases hway task hinput with hdone | hmem | hrun
    · exact absurd hdone hnot
    · obtain ⟨task', hwaits⟩ := hinv.queue (List.ne_nil_of_mem hmem)
      exact ⟨task', hover, hreturned, hwaits⟩
    · exact absurd hover (by simp [hrun, MainThread.Over])
  | exited =>
    cases hmain : s.main with
    | shutdown => exact absurd (by rw [step, stepMain, hmain]) (hstuck .main _)
    | stop => exact absurd (by rw [step, stepMain, hmain]) (hstuck .main _)
    | join => exact absurd (by rw [step, stepMain, hmain]; exact if_pos hinput) (hstuck .main _)
    | returned => exact absurd hmain hreturned
    | runFrame | processTasks | runTask task | processInput =>
      exact absurd hover (by simp [hmain, MainThread.Over])

/-- A run that does not end with a task left over has left none. -/
theorem meets_of_not_orphaned {tr : List (Event × Server)} (hinv : ServerInv s)
    (hrun : IsRun Moves s tr) (h : ∀ task, ¬ Orphaned (final s tr) task) :
    Meets (fun s ev => ¬ LeavesTask s ev) s tr := by
  induction tr generalizing s with
  | nil => trivial
  | cons x tr ih =>
    obtain ⟨ev, s'⟩ := x
    have hinv' := serverInv_step hinv hrun.1
    refine ⟨fun hev => ?_, ih hinv' hrun.2 h⟩
    obtain ⟨task, horphaned⟩ := orphaned_of_leaves hinv hrun.1 hev
    exact h task (orphaned_run hinv' horphaned hrun.2)

theorem overEmpty_run {tr : List (Event × Server)} (h : OverEmpty s) (hrun : IsRun Moves s tr)
    (hmeets : Meets (fun s ev => ¬ LeavesTask s ev) s tr) : OverEmpty (final s tr) := by
  have halways : Always OverEmpty s tr := by
    refine always_of_meets ?_ h hrun hmeets
    exact fun s ev s' h hev hmove => overEmpty_step h hmove hev
  exact halways.final

/-- Where a run cannot go on, it has ended if no task was left over, and is a deadlock if not. -/
theorem ended_iff_of_stuck {tr : List (Event × Server)} (hrun : IsRun Moves .start tr)
    (hstuck : Stuck (final .start tr)) :
    ((final .start tr).Ended ↔ Meets (fun s ev => ¬ LeavesTask s ev) .start tr) ∧
      (¬ (final .start tr).Ended → Deadlocked (final .start tr)) := by
  have halways : Always (fun s => ServerInv s ∧ OnItsWay s) .start tr :=
    always_of_step (fun _ _ _ h hmove => ⟨serverInv_step h.1 hmove, onItsWay_step h.2 hmove⟩)
      ⟨serverInv_start, fun _ hinput => InputThread.noConfusion hinput⟩ hrun
  obtain ⟨hinv, hway⟩ := halways.final
  have hover : (final .start tr).main.Over := over_of_stuck hstuck
  have hor := ended_or_orphaned hinv hway hover hstuck
  refine ⟨⟨fun hended => ?_, fun hmeets => hor.resolve_right ?_⟩, fun hnot => ?_⟩
  · exact meets_of_not_orphaned serverInv_start hrun fun _ h => h.2.1 hended.1
  · have hempty : OverEmpty (final .start tr) := overEmpty_run (fun _ => rfl) hrun hmeets
    rintro ⟨task, -, -, -, hqueue, -⟩
    exact absurd (hqueue.symm.trans (hempty hover)) (List.cons_ne_nil _ _)
  · obtain ⟨task, horphaned⟩ := hor.resolve_left hnot
    exact deadlocked_of_stuck hinv horphaned hstuck

end steps

end Server

open Server

/-- The last frame, the engine and the console are stopped while the input thread polls. -/
def stopped : List Event := [.frame true, .input, .main, .main, .frame false, .main, .main]

end RehldsM.Hlds
