import RehldsM.Lib.Run

/-
  The two specialisations of `SingletonHolder` (libs/util/include/util/singleton.hpp), with
  `CreateUnique` and any lifetime policy whose `handle_dead_reference` returns.

  Instances are numbered as they are created, and `effects` is what the holder has done so far.
  The life cycle both are meant to have is `Life`. The plain holder tests the pointer and
  follows it (`plain_step`). The thread-safe holder creates under a once-flag that nothing
  resets, so behind a destruction it dereferences a null pointer: the test of `destroyed` in its
  lambda is never reached a second time. The two are alike exactly as long as nobody asks for the
  instance after it was destroyed (`singletons_alike_iff`).

  A scheduled callback is executed once at most, at any time or never; a policy that schedules
  nothing is one under which it is never executed.
-/

namespace RehldsM.Util

open Lib

inductive SingletonEffect where
  | handleDeadReference
  | create (i : Nat)
  | scheduleDestruction (i : Nat)
  /-- A reference to the live instance `i` is returned. -/
  | reference (i : Nat)
  | destroy (i : Nat)
  | nullDereference
  | assertionFailed
deriving DecidableEq

structure SingletonHolder where
  instancePtr : Option Nat
  destroyed : Bool
  /-- How many instances were created. -/
  created : Nat
  /-- The scheduled callbacks that were not executed. -/
  scheduled : Nat
  effects : List SingletonEffect
deriving DecidableEq

/-- The static members of `SingletonHolder<T, C, L, true>`. -/
structure SafeSingletonHolder extends SingletonHolder where
  getInstanceFlag : Bool
deriving DecidableEq

namespace SingletonHolder

def start : SingletonHolder where
  instancePtr := none
  destroyed := false
  created := 0
  scheduled := 0
  effects := []

def perform (h : SingletonHolder) (effects : List SingletonEffect) : SingletonHolder :=
  { h with effects := h.effects ++ effects }

/-- What both specialisations do to create the instance. -/
def createInstance (h : SingletonHolder) : SingletonHolder :=
  let h := if h.destroyed then { h with destroyed := false }.perform [.handleDeadReference] else h
  { h with
    instancePtr := some h.created
    created := h.created + 1
    scheduled := h.scheduled + 1 }.perform [.create h.created, .scheduleDestruction h.created]

/-- `return *instance` -/
def dereference (h : SingletonHolder) : SingletonHolder :=
  match h.instancePtr with
  | some i => h.perform [.reference i]
  | none => h.perform [.nullDereference]

/-- `get_instance` of `SingletonHolder<T, C, L, false>` -/
def getInstance (h : SingletonHolder) : SingletonHolder :=
  let h := if h.instancePtr.isNone then h.createInstance else h
  h.dereference

/-- `destroy_singleton`, when one of the scheduled callbacks is executed. -/
def destroySingleton (h : SingletonHolder) : SingletonHolder :=
  if h.scheduled = 0 then h
  else
    let h := { h with scheduled := h.scheduled - 1 }
    let h := if h.destroyed then h.perform [.assertionFailed] else h
    let h :=
      match h.instancePtr with
      | some i => { h with instancePtr := none }.perform [.destroy i]
      | none => h
    { h with destroyed := true }

end SingletonHolder

namespace SafeSingletonHolder

def start : SafeSingletonHolder := { SingletonHolder.start with getInstanceFlag := false }

/-- `get_instance` of `SingletonHolder<T, C, L, true>` -/
def getInstance (h : SafeSingletonHolder) : SafeSingletonHolder :=
  let created := if h.getInstanceFlag then h.toSingletonHolder else h.createInstance
  { created.dereference with getInstanceFlag := true }

/-- The same function, under a mutex. -/
def destroySingleton (h : SafeSingletonHolder) : SafeSingletonHolder :=
  { h.toSingletonHolder.destroySingleton with getInstanceFlag := h.getInstanceFlag }

end SafeSingletonHolder

/-- The singleton is asked for, or a scheduled callback is executed. -/
inductive SingletonEvent where
  | getInstance
  | destroySingleton
deriving DecidableEq

/-- The life cycle: not created yet, alive as instance `i`, or dead after instance `i`. -/
inductive Life where
  | unborn
  | alive (i : Nat)
  | dead (i : Nat)
deriving DecidableEq

/-- What a holder is meant to do. -/
def Life.step : Life → SingletonEvent → List SingletonEffect × Life
  | .unborn, .getInstance => ([.create 0, .scheduleDestruction 0, .reference 0], .alive 0)
  | .alive i, .getInstance => ([.reference i], .alive i)
  | .dead i, .getInstance =>
    ([.handleDeadReference, .create (i + 1), .scheduleDestruction (i + 1), .reference (i + 1)],
      .alive (i + 1))
  | .alive i, .destroySingleton => ([.destroy i], .dead i)
  | .unborn, .destroySingleton => ([], .unborn)
  | .dead i, .destroySingleton => ([], .dead i)

/-- The two holders under the same events, and the life cycle. -/
structure Singletons where
  plain : SingletonHolder
  safe : SafeSingletonHolder
  life : Life
  /-- What the life cycle has done. -/
  meant : List SingletonEffect

namespace Singletons

def start : Singletons := ⟨.start, .start, .unborn, []⟩

def step (s : Singletons) (event : SingletonEvent) : Singletons where
  plain :=
    match event with
    | .getInstance => s.plain.getInstance
    | .destroySingleton => s.plain.destroySingleton
  safe :=
    match event with
    | .getInstance => s.safe.getInstance
    | .destroySingleton => s.safe.destroySingleton
  life := (s.life.step event).2
  meant := s.meant ++ (s.life.step event).1

/-- Both holders have done what the life cycle says. -/
def Alike (s : Singletons) : Prop := s.plain.effects = s.meant ∧ s.safe.effects = s.meant

/-- Nobody asks for the instance after its destruction. -/
def NoLateGet (s : Singletons) (event : SingletonEvent) : Prop :=
  event = .getInstance → ∀ i, s.life ≠ .dead i

end Singletons

/-! ## The holders follow the life cycle -/

/-- The members of a holder at a point of the life cycle. -/
def Lives (h : SingletonHolder) : Life → Prop
  | .unborn => h.instancePtr = none ∧ h.destroyed = false ∧ h.created = 0 ∧ h.scheduled = 0
  | .alive i =>
    h.instancePtr = some i ∧ h.destroyed = false ∧ h.created = i + 1 ∧ h.scheduled = 1
  | .dead i => h.instancePtr = none ∧ h.destroyed = true ∧ h.created = i + 1 ∧ h.scheduled = 0

/-- The once-flag is set when the first instance was created. -/
def SafeLives (h : SafeSingletonHolder) (life : Life) : Prop :=
  Lives h.toSingletonHolder life ∧ (h.getInstanceFlag = true ↔ life ≠ .unborn)

section holders

variable {h : SingletonHolder} {safe : SafeSingletonHolder} {life : Life}

theorem destroySingleton_step (hlives : Lives h life) :
    Lives h.destroySingleton (life.step .destroySingleton).2 ∧
      h.destroySingleton.effects = h.effects ++ (life.step .destroySingleton).1 := by
  unfold SingletonHolder.destroySingleton
  cases life with
  | unborn =>
    obtain ⟨hptr, hdestroyed, hcreated, hscheduled⟩ := hlives
    rw [if_pos hscheduled]
    exact ⟨⟨hptr, hdestroyed, hcreated, hscheduled⟩, (List.append_nil _).symm⟩
  | alive i =>
    obtain ⟨hptr, hdestroyed, hcreated, hscheduled⟩ := hlives
    simp [SingletonHolder.perform, Life.step, Lives, hptr, hdestroyed, hcreated, hscheduled]
  | dead i =>
    obtain ⟨hptr, hdestroyed, hcreated, hscheduled⟩ := hlives
    rw [if_pos hscheduled]
    exact ⟨⟨hptr, hdestroyed, hcreated, hscheduled⟩, (List.append_nil _).symm⟩

theorem createInstance_step (hlives : Lives h life) (hnot : ∀ i, life ≠ .alive i) :
    Lives h.createInstance.dereference (life.step .getInstance).2 ∧
      h.createInstance.dereference.effects = h.effects ++ (life.step .getInstance).1 := by
  cases life with
  | unborn =>
    obtain ⟨hptr, hdestroyed, hcreated, hscheduled⟩ := hlives
    simp [SingletonHolder.createInstance, SingletonHolder.dereference, SingletonHolder.perform,
      Life.step, Lives, hdestroyed, hcreated, hscheduled]
  | alive i => exact absurd rfl (hnot i)
  | dead i =>
    obtain ⟨hptr, hdestroyed, hcreated, hscheduled⟩ := hlives
    simp [SingletonHolder.createInstance, SingletonHolder.dereference, SingletonHolder.perform,
      Life.step, Lives, hdestroyed, hcreated, hscheduled]

theorem dereference_alive {i : Nat} (hlives : Lives h (.alive i)) :
    Lives h.dereference (.alive i) ∧ h.dereference.effects = h.effects ++ [.reference i] := by
  have hptr := hlives.1
  unfold SingletonHolder.dereference
  rw [hptr]
  exact ⟨hlives, rfl⟩

/-- The plain holder does what the life cycle says, in every event. -/
theorem plain_step (hlives : Lives h life) :
    Lives h.getInstance (life.step .getInstance).2 ∧
      h.getInstance.effects = h.effects ++ (life.step .getInstance).1 := by
  unfold SingletonHolder.getInstance
  cases life with
  | unborn =>
    have hnone : h.instancePtr.isNone = true := by rw [hlives.1]; rfl
    rw [if_pos hnone]
    exact createInstance_step hlives fun i => Life.noConfusion
  | alive i =>
    have hsome : ¬ h.instancePtr.isNone = true := by simp [hlives.1]
    rw [if_neg hsome]
    exact dereference_alive hlives
  | dead i =>
    have hnone : h.instancePtr.isNone = true := by rw [hlives.1]; rfl
    rw [if_pos hnone]
    exact createInstance_step hlives fun i => Life.noConfusion

/-- The thread-safe holder does so unless the instance was destroyed. -/
theorem safe_step (hlives : SafeLives safe life) (hnot : ∀ i, life ≠ .dead i) :
    SafeLives safe.getInstance (life.step .getInstance).2 ∧
      safe.getInstance.effects = safe.effects ++ (life.step .getInstance).1 := by
  obtain ⟨hholder, hflag⟩ := hlives
  unfold SafeSingletonHolder.getInstance
  cases life with
  | unborn =>
    have hclear : ¬ safe.getInstanceFlag = true := fun hset => hflag.mp hset rfl
    rw [if_neg hclear]
    obtain ⟨hnext, heffects⟩ := createInstance_step hholder fun i => Life.noConfusion
    exact ⟨⟨hnext, iff_of_true rfl Life.noConfusion⟩, heffects⟩
  | alive i =>
    rw [if_pos (hflag.mpr Life.noConfusion)]
    obtain ⟨hnext, heffects⟩ := dereference_alive hholder
    exact ⟨⟨hnext, iff_of_true rfl Life.noConfusion⟩, heffects⟩
  | dead i => exact absurd rfl (hnot i)

/-- Behind a destruction it dereferences a null pointer. -/
theorem safe_dead {i : Nat} (hlives : SafeLives safe (.dead i)) :
    safe.getInstance.effects = safe.effects ++ [.nullDereference] := by
  obtain ⟨⟨hptr, -, -, -⟩, hflag⟩ := hlives
  unfold SafeSingletonHolder.getInstance
  rw [if_pos (hflag.mpr Life.noConfusion)]
  show safe.toSingletonHolder.dereference.effects = _
  unfold SingletonHolder.dereference
  rw [hptr]
  rfl

theorem safe_destroy (hlives : SafeLives safe life) :
    SafeLives safe.destroySingleton (life.step .destroySingleton).2 ∧
      safe.destroySingleton.effects = safe.effects ++ (life.step .destroySingleton).1 := by
  obtain ⟨hholder, hflag⟩ := hlives
  obtain ⟨hnext, heffects⟩ := destroySingleton_step hholder
  refine ⟨⟨hnext, hflag.trans ?_⟩, heffects⟩
  cases life <;> simp [Life.step]

end holders

/-! ## Runs -/

namespace Singletons

/-- The plain holder follows the life cycle, whatever happens. -/
structure PlainInv (s : Singletons) : Prop where
  lives : Lives s.plain s.life
  effects_eq : s.plain.effects = s.meant

/-- While nobody asks too late, the thread-safe holder does too. -/
structure AlikeInv (s : Singletons) : Prop extends PlainInv s where
  safe_lives : SafeLives s.safe s.life
  safe_effects_eq : s.safe.effects = s.meant

theorem plainInv_step {s : Singletons} (h : s.PlainInv) (event : SingletonEvent) :
    (s.step event).PlainInv := by
  cases event with
  | getInstance =>
    obtain ⟨hlives, heffects⟩ := plain_step h.lives
    exact ⟨hlives, heffects.trans (congrArg (· ++ _) h.effects_eq)⟩
  | destroySingleton =>
    obtain ⟨hlives, heffects⟩ := destroySingleton_step h.lives
    exact ⟨hlives, heffects.trans (congrArg (· ++ _) h.effects_eq)⟩

theorem alikeInv_step {s : Singletons} (h : s.AlikeInv) (event : SingletonEvent)
    (hevent : NoLateGet s event) : (s.step event).AlikeInv := by
  refine ⟨plainInv_step h.toPlainInv event, ?_, ?_⟩
  · cases event with
    | getInstance => exact (safe_step h.safe_lives (hevent rfl)).1
    | destroySingleton => exact (safe_destroy h.safe_lives).1
  · cases event with
    | getInstance =>
      exact (safe_step h.safe_lives (hevent rfl)).2.trans (congrArg (· ++ _) h.safe_effects_eq)
    | destroySingleton =>
      exact (safe_destroy h.safe_lives).2.trans (congrArg (· ++ _) h.safe_effects_eq)

/-- A call that comes too late sets the two apart. -/
theorem not_alike_step {s : Singletons} (h : s.AlikeInv) (event : SingletonEvent)
    (hevent : ¬ NoLateGet s event) : ¬ (s.step event).Alike := by
  unfold NoLateGet at hevent
  push Not at hevent
  obtain ⟨rfl, i, hdead⟩ := hevent
  intro halike
  have hsafe : s.safe.getInstance.effects = s.meant ++ (s.life.step .getInstance).1 := halike.2
  have hlives := h.safe_lives
  rw [hdead] at hlives
  rw [safe_dead hlives, h.safe_effects_eq, hdead] at hsafe
  exact absurd (List.append_cancel_left hsafe) (by simp [Life.step])

theorem alikeInv_start : start.AlikeInv where
  lives := ⟨rfl, rfl, rfl, rfl⟩
  effects_eq := rfl
  safe_lives := ⟨⟨rfl, rfl, rfl, rfl⟩, by simp [start, SafeSingletonHolder.start]⟩
  safe_effects_eq := rfl

/-- Over every sequence of events the plain holder has the life cycle it is meant to have; both
    holders have it exactly when nobody asks for the instance after its destruction. -/
theorem singletons_alike_iff (events : List SingletonEvent) :
    Always (fun s => s.plain.effects = s.meant) start (trace step start events) ∧
      (Always Alike start (trace step start events) ↔
        Meets NoLateGet start (trace step start events)) := by
  constructor
  · have hplain : Always PlainInv start (trace step start events) := by
      refine always_of_step ?_ alikeInv_start.toPlainInv (isRun_trace _ _ _)
      intro s event s' h hstep
      rw [hstep]
      exact plainInv_step h event
    exact hplain.mono fun s h => h.effects_eq
  · refine always_iff_meets (fun s h => ⟨h.effects_eq, h.safe_effects_eq⟩) ?_ ?_ alikeInv_start
      (isRun_trace _ _ _)
    · intro s event s' h hevent hstep
      rw [hstep]
      exact alikeInv_step h event hevent
    · intro s event s' h hevent hstep
      rw [hstep]
      exact not_alike_step h event hevent

/-- The instance is created and destroyed, and asked for once more. -/
theorem late_get_dereferences_null :
    (final start (trace step start
        [.getInstance, .destroySingleton, .getInstance])).safe.effects =
      [.create 0, .scheduleDestruction 0, .reference 0, .destroy 0, .nullDereference] ∧
    (final start (trace step start
        [.getInstance, .destroySingleton, .getInstance])).plain.effects =
      [.create 0, .scheduleDestruction 0, .reference 0, .destroy 0, .handleDeadReference,
        .create 1, .scheduleDestruction 1, .reference 1] ∧
    ¬ Always Alike start (trace step start [.getInstance, .destroySingleton, .getInstance]) := by
  refine ⟨rfl, rfl, fun h => ?_⟩
  exact absurd h.final.2 (by decide)

end Singletons

end RehldsM.Util
