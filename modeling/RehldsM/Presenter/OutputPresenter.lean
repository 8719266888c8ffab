import Mathlib.Algebra.Order.Group.Int
import RehldsM.Model.ServerStatus

/-
  `OutputPresenter` (libs/presenter/include/presenter/output_presenter.hpp), and what the views are
  shown over a whole run.

  The engine is asked in the calls of `update_status` that come at least 500 ms after the last in
  which it was, and each presenter then hands the answer to its view, in the order in which the
  presenters were made. So the status shown is never older than 500 ms when a turn of the loop
  ends; and of all ways to keep the updates 500 ms apart, this is one with the most of them
  (`status_refreshed`).
-/

namespace RehldsM.Presenter

open Lib Util Model

universe u

variable {φ : Type u}

/-- What the views were given, in order; a view is a number. -/
abbrev Displayed (φ : Type u) := List (Nat × ServerStatus φ)

namespace OutputPresenter

/-- `update_server_status`: `display_server_status` of the view, with the status of the loop. -/
def updateServerStatus (view : Nat) (event : ServerLoopEvent)
    (program : StatusProgram φ (Displayed φ)) :
    List (ListenerCall Nat) × StatusProgram φ (Displayed φ) :=
  if ServerLoopEvent.statusUpdated = event then
    ([], { program with listened := program.listened ++ [(view, program.status)] })
  else ([], program)

/-- The constructor, for a presenter of this view. -/
def new (loop : StatusLoop Nat φ (Displayed φ)) (view : Nat) : StatusLoop Nat φ (Displayed φ) :=
  { loop with observable := (loop.observable.appendListener view).2 }

end OutputPresenter

/-- A server loop with a presenter for each of these views. -/
def presented (status : ServerStatus φ) (views : List Nat) : StatusLoop Nat φ (Displayed φ) :=
  views.foldl OutputPresenter.new ⟨none, .new ⟨status, []⟩⟩

/-- `ServerLoop::update_status`, with the presenters as listeners. -/
def refresh (s : StatusLoop Nat φ (Displayed φ)) (call : StatusCall φ) :
    Except DanglingIterator (StatusLoop Nat φ (Displayed φ)) :=
  updateStatus OutputPresenter.updateServerStatus s call

/-- The status holds what the engine has answered to the call. -/
structure Answers (status : ServerStatus φ) (call : StatusCall φ) : Prop where
  fps : status.fps = call.answer.fps
  numPlayers : status.numPlayers = call.answer.numPlayers
  maxPlayers : status.maxPlayers = call.answer.maxPlayers
  map : cStr status.currentMap = call.answer.map
  length : status.currentMap.length = 32

section refresh

variable {s s' : StatusLoop Nat φ (Displayed φ)} {last : Int}

theorem answers_update (status : ServerStatus φ) (call : StatusCall φ) :
    Answers (status.update call.answer) call :=
  ⟨rfl, rfl, rfl, (update_currentMap status call.answer).2,
    (update_currentMap status call.answer).1⟩

/-- The first call initialises the static variable. -/
theorem refresh_first (call : StatusCall φ) :
    refresh s call =
      refresh { s with lastUpdateTime := some (s.lastUpdateTime.getD call.first) } call := rfl

theorem foldl_display (listeners : List (Nat × Nat)) (program : StatusProgram φ (Displayed φ)) :
    listeners.foldl (fun program l =>
        (OutputPresenter.updateServerStatus l.2 .statusUpdated program).2) program =
      { program with
        listened := program.listened ++ listeners.map fun l => (l.2, program.status) } := by
  induction listeners generalizing program with
  | nil => simp
  | cons listener listeners ih =>
    rw [List.foldl_cons, ih]
    simp [OutputPresenter.updateServerStatus]

/-- The loop behind a call that asks the engine: every view was given the answer. -/
def shown (s : StatusLoop Nat φ (Displayed φ)) (call : StatusCall φ) :
    StatusLoop Nat φ (Displayed φ) where
  lastUpdateTime := some call.now
  observable :=
    { s.observable with
      program :=
        { status := s.observable.program.status.update call.answer
          listened := s.observable.program.listened ++ s.observable.listeners.map fun l =>
            (l.2, s.observable.program.status.update call.answer) } }

/-- A call that comes too early leaves everything as it is. -/
theorem refresh_ok (hlast : s.lastUpdateTime = some last) (hnodup : s.observable.handles.Nodup)
    (call : StatusCall φ) :
    refresh s call =
      .ok (if updateNanoseconds ≤ call.now - last then shown s call else s) := by
  obtain ⟨lastUpdateTime, observable⟩ := s
  obtain rfl : lastUpdateTime = some last := hlast
  have hquiet : ∀ view (program : StatusProgram φ (Displayed φ)),
      (OutputPresenter.updateServerStatus view .statusUpdated program).1 = [] := by
    intro view program
    simp [OutputPresenter.updateServerStatus]
  unfold refresh updateStatus
  rw [isTimeToUpdate_eq]
  dsimp only
  rw [Option.getD_some]
  by_cases hdue : updateNanoseconds ≤ call.now - last
  · have hnotify := notify_quiet (o := { observable with
      program := { observable.program with
        status := observable.program.status.update call.answer } }) hquiet hnodup
    rw [if_pos hdue, if_pos hdue]
    dsimp only
    rw [hnotify]
    dsimp only
    rw [foldl_display]
    rfl
  · rw [if_neg hdue, if_neg hdue]

/-- The calls of a run that ask the engine are those that the throttle lets through. -/
theorem refresh_run (hlast : s.lastUpdateTime = some last) (hnodup : s.observable.handles.Nodup)
    (calls : List (StatusCall φ)) :
    ∃ s' statuses, calls.foldlM refresh s = .ok s' ∧
      List.Forall₂ Answers statuses (throttled updateNanoseconds StatusCall.now last calls) ∧
      s'.observable.program.listened = s.observable.program.listened ++
        statuses.flatMap fun status => s.observable.listeners.map fun l => (l.2, status) := by
  induction calls generalizing s last with
  | nil => exact ⟨s, [], rfl, .nil, by simp⟩
  | cons call calls ih =>
    rw [List.foldlM_cons, refresh_ok hlast hnodup, throttled]
    by_cases hdue : updateNanoseconds ≤ call.now - last
    · rw [if_pos hdue, if_pos hdue]
      have hshown : (shown s call).lastUpdateTime = some call.now := rfl
      obtain ⟨s', statuses, hrun, hanswers, hlistened⟩ := ih hshown hnodup
      refine ⟨s', s.observable.program.status.update call.answer :: statuses, hrun,
        .cons (answers_update _ call) hanswers, ?_⟩
      rw [hlistened, List.flatMap_cons, ← List.append_assoc]
      rfl
    · rw [if_neg hdue, if_neg hdue]
      exact ih hlast hnodup

/-- The presenters listen in the order in which they were made. -/
theorem presented_spec (status : ServerStatus φ) (views : List Nat) :
    (presented status views).lastUpdateTime = none ∧
      (presented status views).observable.program = ⟨status, []⟩ ∧
      Ordered (presented status views).observable ∧
      (presented status views).observable.listeners.map Prod.snd = views := by
  have hfold : ∀ (views : List Nat) (loop : StatusLoop Nat φ (Displayed φ)),
      Ordered loop.observable →
      (views.foldl OutputPresenter.new loop).lastUpdateTime = loop.lastUpdateTime ∧
        (views.foldl OutputPresenter.new loop).observable.program = loop.observable.program ∧
        Ordered (views.foldl OutputPresenter.new loop).observable ∧
        (views.foldl OutputPresenter.new loop).observable.listeners.map Prod.snd =
          loop.observable.listeners.map Prod.snd ++ views := by
    intro views
    induction views with
    | nil => exact fun loop hordered => ⟨rfl, rfl, hordered, (List.append_nil _).symm⟩
    | cons view views ih =>
      intro loop hordered
      obtain ⟨hlast, hprogram, hordered', hviews⟩ :=
        ih (OutputPresenter.new loop view) (ordered_append hordered view)
      refine ⟨hlast, hprogram, hordered', hviews.trans ?_⟩
      simp [OutputPresenter.new, Observable.appendListener]
  exact hfold views ⟨none, .new ⟨status, []⟩⟩ (ordered_new _)

end refresh

/-- Over every sequence of calls of `update_status`, with any number of presenters: every view is
    given what the engine has answered to the calls that are due, one after the other. These
    calls are 500 ms apart, and the last of them (or the start) is less than 500 ms ago when a
    call returns. Where the clock does not go back, no other choice of calls that are 500 ms
    apart has more of them. -/
theorem status_refreshed (status : ServerStatus φ) (views : List Nat)
    (calls : List (StatusCall φ)) :
    ∃ s statuses, calls.foldlM refresh (presented status views) = .ok s ∧
      List.Forall₂ Answers statuses (dueCalls calls) ∧
      s.observable.program.listened =
        statuses.flatMap (fun status => views.map fun view => (view, status)) ∧
      ∀ call ∈ calls.head?,
        Spaced updateNanoseconds StatusCall.now call.first (dueCalls calls) ∧
        (∀ last ∈ calls.getLast?,
          last.now - lastTime StatusCall.now call.first (dueCalls calls) < updateNanoseconds) ∧
        (calls.Pairwise (fun c c' => c.now ≤ c'.now) → (∀ c ∈ calls, call.first ≤ c.now) →
          ∀ chosen, chosen.Sublist calls →
            Spaced updateNanoseconds StatusCall.now call.first chosen →
            chosen.length ≤ (dueCalls calls).length) := by
  obtain ⟨hlast, hprogram, hordered, hviews⟩ := presented_spec status views
  cases calls with
  | nil =>
    refine ⟨presented status views, [], rfl, .nil, ?_, fun call hcall => by cases hcall⟩
    rw [hprogram]
    rfl
  | cons call calls =>
    have hnodup : (presented status views).observable.handles.Nodup :=
      hordered.increasing.imp Nat.ne_of_lt
    obtain ⟨s, statuses, hrun, hanswers, hlistened⟩ :=
      refresh_run (s := ⟨some call.first, (presented status views).observable⟩) rfl hnodup
        (call :: calls)
    have hfirst : (call :: calls).foldlM refresh (presented status views) = .ok s := by
      rw [← hrun, List.foldlM_cons, List.foldlM_cons, refresh_first, hlast]
      rfl
    refine ⟨s, statuses, hfirst, hanswers, ?_, ?_⟩
    · have hmap : ∀ answer : ServerStatus φ,
          (presented status views).observable.listeners.map (fun l => (l.2, answer)) =
            views.map fun view => (view, answer) := by
        intro answer
        have hmapped := congrArg (List.map fun view => (view, answer)) hviews
        rwa [List.map_map] at hmapped
      dsimp only at hlistened
      simp only [hmap] at hlistened
      rw [hlistened, hprogram, List.nil_append]
    · intro first hmem
      obtain rfl := Option.some.inj hmem
      refine ⟨throttled_spaced _ _ _ _, ?_, ?_⟩
      · intro last hgetLast
        obtain ⟨before, hbefore⟩ := List.getLast?_eq_some_iff.mp hgetLast
        show last.now - lastTime _ _ (throttled _ _ call.first (call :: calls)) < _
        rw [hbefore]
        exact age_throttled (by decide) call.first before last
      · intro hsorted hfrom chosen hsub hspaced
        exact length_le_throttled hsub hsorted hspaced hfrom

end RehldsM.Presenter
