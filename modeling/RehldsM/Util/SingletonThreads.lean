import RehldsM.Lib.CallOnce
import RehldsM.Util.Singleton

/-
  `SingletonHolder<T, C, L, true>` (libs/util/include/util/singleton.hpp) under threads: any number
  of them call `get_instance`, and the scheduled callback is executed at any time.

  The lambda of `get_instance` is executed under `std::call_once`. It tests `destroyed`, creates
  the instance, where the constructor may throw, and schedules its destruction. Behind it a thread
  follows the pointer, which `destroy_singleton` does not wait for.

  Whatever the threads do, the constructor returns once at most, the destruction is scheduled
  right behind it, then there are references to this instance, and behind its destruction only
  null pointers (`created_once`).
-/

namespace RehldsM.Util

open Lib CallOnce

universe u

namespace SingletonHolder

/-- `if (destroyed)`, the first step of the lambda. -/
def testDestroyed (h : SingletonHolder) : SingletonHolder :=
  if h.destroyed then { h with destroyed := false }.perform [.handleDeadReference] else h

/-- `instance = CreationPolicy<T>::create(...)` -/
def create (h : SingletonHolder) : SingletonHolder :=
  { h with instancePtr := some h.created, created := h.created + 1 }.perform [.create h.created]

/-- `LifetimePolicy<T>::schedule_destruction(*instance, &destroy_singleton)` -/
def scheduleDestruction (h : SingletonHolder) : SingletonHolder :=
  match h.instancePtr with
  | some i => { h with scheduled := h.scheduled + 1 }.perform [.scheduleDestruction i]
  | none => h.perform [.nullDereference]

/-- One after the other the steps do what `createInstance` does. -/
theorem createInstance_eq (h : SingletonHolder) :
    h.createInstance = h.testDestroyed.create.scheduleDestruction := by
  unfold createInstance scheduleDestruction create testDestroyed perform
  cases h.destroyed <;> simp

/-- The holder in front of the last step of the lambda. -/
def constructed : SingletonHolder where
  instancePtr := some 0
  destroyed := false
  created := 1
  scheduled := 0
  effects := [.create 0]

/-- The instance is there, and was asked for `n` times. -/
def alive (n : Nat) : SingletonHolder where
  instancePtr := some 0
  destroyed := false
  created := 1
  scheduled := 1
  effects := [.create 0, .scheduleDestruction 0] ++ List.replicate n (.reference 0)

/-- It was destroyed, and asked for `m` times since. -/
def dead (n m : Nat) : SingletonHolder where
  instancePtr := none
  destroyed := true
  created := 1
  scheduled := 0
  effects := (alive n).effects ++ .destroy 0 :: List.replicate m .nullDereference

/-- Behind the lambda. -/
def Published (h : SingletonHolder) : Prop := ∃ n, h = alive n ∨ ∃ m, h = dead n m

end SingletonHolder

open SingletonHolder

/-- `get_instance` under threads; the others execute the callback. -/
def safeGetInstance : OnceProgram SingletonHolder Unit where
  callable := [⟨testDestroyed, false⟩, ⟨create, true⟩, ⟨scheduleDestruction, false⟩]
  behind := dereference
  others _ := destroySingleton

/-- The instance does not exist before the lambda creates it. -/
def safeOutline : Outline SingletonHolder where
  fresh h := h = .start
  before code h :=
    match code.length with
    | 0 => Published h
    | 1 => h = constructed
    | _ => h = .start
  done := Published

/-! ## The outline holds -/

theorem published_dereference {h : SingletonHolder} (hpub : Published h) :
    Published h.dereference := by
  obtain ⟨n, rfl | ⟨m, rfl⟩⟩ := hpub
  · refine ⟨n + 1, .inl ?_⟩
    simp [dereference, perform, alive, List.replicate_succ']
  · refine ⟨n, .inr ⟨m + 1, ?_⟩⟩
    simp [dereference, perform, dead, List.replicate_succ']

theorem published_destroySingleton {h : SingletonHolder} (hpub : Published h) :
    Published h.destroySingleton := by
  obtain ⟨n, rfl | ⟨m, rfl⟩⟩ := hpub
  · exact ⟨n, .inr ⟨0, rfl⟩⟩
  · exact ⟨n, .inr ⟨m, rfl⟩⟩

/-- The callback is not scheduled before the last step of the lambda. -/
theorem destroySingleton_of_unscheduled {h : SingletonHolder} (hnone : h.scheduled = 0) :
    h.destroySingleton = h := if_pos hnone

/-- The steps of the lambda, each in front of the rest. -/
theorem suffix_callable {y : OnceStep SingletonHolder} {code : List (OnceStep SingletonHolder)}
    (h : y :: code <:+ safeGetInstance.callable) :
    (y = ⟨testDestroyed, false⟩ ∧ code = [⟨create, true⟩, ⟨scheduleDestruction, false⟩]) ∨
      (y = ⟨create, true⟩ ∧ code = [⟨scheduleDestruction, false⟩]) ∨
      (y = ⟨scheduleDestruction, false⟩ ∧ code = []) := by
  simpa [safeGetInstance, List.suffix_cons_iff] using h

theorem checked_safeOutline : safeOutline.Checked safeGetInstance where
  enter h := h
  act := by
    intro y code x hsuffix hbefore
    rcases suffix_callable hsuffix with ⟨rfl, rfl⟩ | ⟨rfl, rfl⟩ | ⟨rfl, rfl⟩
    · obtain rfl : x = .start := hbefore
      rfl
    · obtain rfl : x = .start := hbefore
      rfl
    · obtain rfl : x = constructed := hbefore
      exact ⟨0, .inl rfl⟩
  throws := by
    intro y code x hsuffix hthrow hbefore
    rcases suffix_callable hsuffix with ⟨rfl, -⟩ | ⟨rfl, rfl⟩ | ⟨rfl, -⟩
    · cases hthrow
    · exact hbefore
    · cases hthrow
  leave h := h
  behind := published_dereference
  others_fresh := by
    intro e x hfresh
    obtain rfl : x = .start := hfresh
    rfl
  others_before := by
    intro e code x hsuffix hbefore
    cases code with
    | nil => exact published_destroySingleton hbefore
    | cons y code =>
      have hnone : x.scheduled = 0 := by
        rcases suffix_callable hsuffix with ⟨rfl, rfl⟩ | ⟨rfl, rfl⟩ | ⟨rfl, rfl⟩
        · exact congrArg SingletonHolder.scheduled (show x = .start from hbefore)
        · exact congrArg SingletonHolder.scheduled (show x = .start from hbefore)
        · exact congrArg SingletonHolder.scheduled (show x = constructed from hbefore)
      show safeOutline.before (y :: code) x.destroySingleton
      rw [destroySingleton_of_unscheduled hnone]
      exact hbefore
  others_done _ _ h := published_destroySingleton h

/-! ## Runs -/

/-- What a holder does in its life: the instance is created and its destruction is scheduled, then
    there are `n` references to it, and behind its destruction `m` null pointers. -/
def lifeEffects (n m : Nat) : List SingletonEffect :=
  [.create 0, .scheduleDestruction 0] ++ List.replicate n (.reference 0) ++
    .destroy 0 :: List.replicate m .nullDereference

theorem effects_of_published {h : SingletonHolder} (hpub : Published h) :
    ∃ n m, h.effects <+: lifeEffects n m := by
  obtain ⟨n, rfl | ⟨m, rfl⟩⟩ := hpub
  · exact ⟨n, 0, List.prefix_append _ _⟩
  · exact ⟨n, m, List.prefix_rfl⟩

section runs

variable {α : Type u} {s : CallOnce α SingletonHolder}

theorem effects_of_outlined (h : Outlined safeGetInstance safeOutline s) :
    ∃ n m, s.shared.effects <+: lifeEffects n m := by
  have hstart : ∀ {h : SingletonHolder}, h = .start → ∃ n m, h.effects <+: lifeEffects n m := by
    rintro h rfl
    exact ⟨0, 0, List.nil_prefix⟩
  have hholds := h.holds
  cases hflag : s.flag with
  | fresh =>
    rw [hflag] at hholds
    exact hstart hholds
  | done =>
    rw [hflag] at hholds
    exact effects_of_published hholds
  | active t =>
    rw [hflag] at hholds
    obtain ⟨code, -, hsuffix, hbefore⟩ := hholds
    cases code with
    | nil => exact effects_of_published hbefore
    | cons y code =>
      rcases suffix_callable hsuffix with ⟨rfl, rfl⟩ | ⟨rfl, rfl⟩ | ⟨rfl, rfl⟩
      · exact hstart hbefore
      · exact hstart hbefore
      · have heq : s.shared = constructed := hbefore
        rw [heq]
        exact ⟨0, 0, _, rfl⟩

end runs

/-- In every run of any number of threads that call `get_instance`, however often the constructor
    throws and whenever the callback is executed: the effects are the first ones of a life. No
    thread waits but for one that executes the lambda, and that one goes on. -/
theorem created_once {α : Type u} [DecidableEq α] (events : List (OnceEvent α Unit)) :
    let start : CallOnce α SingletonHolder := init .start
    Always (fun s => (∃ n m, s.shared.effects <+: lifeEffects n m) ∧
        ∀ t, s.thread t ≠ .idle → (∃ s', s.run safeGetInstance t = .ok s') ∨
          ∃ t' s', t' ≠ t ∧ s.flag = .active t' ∧ s.run safeGetInstance t' = .ok s')
      start (traceOk (step safeGetInstance) start events) := by
  intro start
  have hfresh : safeOutline.fresh .start := rfl
  have hrun : Always (Outlined safeGetInstance safeOutline) start _ :=
    always_outlined checked_safeOutline hfresh events
  exact hrun.mono fun s h => ⟨effects_of_outlined h, fun t ht => h.goes_on ht⟩

end RehldsM.Util
