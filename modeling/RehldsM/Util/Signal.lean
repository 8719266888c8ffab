import Mathlib.Data.Finset.Disjoint
import Mathlib.Data.Finset.Filter
import Mathlib.Data.Finset.Lattice.Lemmas
import Mathlib.Data.Finset.SDiff
import RehldsM.Lib.Scopes

/-
  `ScopedSignalBlocker` (libs/util/include/util/linux/signal.hpp,
  libs/util/src/util/linux/signal.cpp).

  The mask of the thread is a set of signals. `sigaddset` fails for a number that is no signal;
  `sigprocmask` passes over signals that cannot be blocked, and does not fail. `LogErrors` has a
  say in what is logged only.

  The destructor unblocks the set of its object, not what the constructor has added to the mask.
  So a signal that was blocked before is no longer so behind the scope, and `mask_restored_iff`
  says that nothing else goes wrong.
-/

namespace RehldsM.Util

open Lib

inductive SignalErrorCode where
  | success
  | fault
  | interrupted
  | invalidArgument
  | unknown
deriving DecidableEq

/-- The signals of a system. -/
structure SignalSystem where
  /-- The numbers that `sigaddset` takes. -/
  isSignal : Int → Bool
  /-- `SIGKILL` and `SIGSTOP` cannot be blocked. -/
  canBlock : Int → Bool

/-- `sigset_t` -/
abbrev SignalSet := Finset Int

/-- The signal mask of a thread. -/
structure SignalMask (system : SignalSystem) where
  signals : SignalSet
  blockable : ∀ signal ∈ signals, system.isSignal signal = true ∧ system.canBlock signal = true
deriving DecidableEq

/-- `SIG_BLOCK` and `SIG_UNBLOCK` -/
inductive How where
  | block
  | unblock

variable {system : SignalSystem}

namespace SignalMask

theorem ext_signals {mask mask' : SignalMask system} (h : mask.signals = mask'.signals) :
    mask = mask' := by
  obtain ⟨signals, hsignals⟩ := mask
  obtain rfl : signals = mask'.signals := h
  rfl

def block (mask : SignalMask system) (set : SignalSet) : SignalMask system where
  signals := mask.signals ∪ set.filter fun signal => system.isSignal signal ∧ system.canBlock signal
  blockable := by
    intro signal hsignal
    rcases Finset.mem_union.mp hsignal with hold | hnew
    · exact mask.blockable signal hold
    · exact (Finset.mem_filter.mp hnew).2

def unblock (mask : SignalMask system) (set : SignalSet) : SignalMask system where
  signals := mask.signals \ set
  blockable signal hsignal := mask.blockable signal (Finset.mem_sdiff.mp hsignal).1

end SignalMask

/-- The loop of `create_signal_set`. -/
def addSignals (system : SignalSystem) : List Int → SignalSet → SignalErrorCode × SignalSet
  | [], set => (.success, set)
  | signal :: signals, set =>
    if system.isSignal signal then addSignals system signals (insert signal set)
    else (.invalidArgument, set)

def createSignalSet (system : SignalSystem) (signals : List Int) : SignalErrorCode × SignalSet :=
  addSignals system signals ∅

def changeSignalMask (how : How) (set : SignalSet) (mask : SignalMask system) :
    SignalErrorCode × SignalMask system :=
  match how with
  | .block => (.success, mask.block set)
  | .unblock => (.success, mask.unblock set)

structure ScopedSignalBlocker where
  blocked : Bool
  set : SignalSet
deriving DecidableEq

namespace ScopedSignalBlocker

def construct (signals : List Int) (mask : SignalMask system) :
    ScopedSignalBlocker × SignalMask system :=
  let (code, set) := createSignalSet system signals
  if code = .success then
    let (code, mask) := changeSignalMask .block set mask
    ({ blocked := code = .success, set }, mask)
  else ({ blocked := false, set }, mask)

def destruct (blocker : ScopedSignalBlocker) (mask : SignalMask system) : SignalMask system :=
  if blocker.blocked then (changeSignalMask .unblock blocker.set mask).2 else mask

end ScopedSignalBlocker

def signalBlocker (system : SignalSystem) :
    ScopeClass (List Int) ScopedSignalBlocker (SignalMask system) where
  construct := ScopedSignalBlocker.construct
  destruct := ScopedSignalBlocker.destruct

abbrev SignalScopes (system : SignalSystem) :=
  Scopes (List Int) ScopedSignalBlocker (SignalMask system)

/-- The signals can be blocked, and are not blocked yet. -/
def Unblocked (signals : List Int) (mask : SignalMask system) : Prop :=
  ∀ signal ∈ signals, system.isSignal signal = true ∧ system.canBlock signal = true ∧
    signal ∉ mask.signals

/-- The signals of every scope are blocked. -/
def AllBlocked (s : SignalScopes system) : Prop :=
  ∀ scope ∈ s.live, ∀ signal ∈ scope.arg, signal ∈ s.state.signals

/-- Every scope that ends leaves the mask as it was in front of it, and its signals have been
    blocked throughout. -/
structure RestoresMask (s : SignalScopes system)
    (tr : List (ScopeEvent (List Int) × SignalScopes system)) : Prop where
  restores : Meets (signalBlocker system).Restores s tr
  blocked : Always AllBlocked s tr

/-! ## One scope -/

theorem addSignals_eq {signals : List Int} (h : ∀ signal ∈ signals, system.isSignal signal = true)
    (set : SignalSet) :
    addSignals system signals set = (.success, set ∪ signals.toFinset) := by
  induction signals generalizing set with
  | nil => simp [addSignals]
  | cons signal signals ih =>
    obtain ⟨hsignal, hsignals⟩ := List.forall_mem_cons.mp h
    rw [addSignals, if_pos hsignal, ih hsignals, List.toFinset_cons, Finset.insert_union,
      Finset.union_insert]

theorem addSignals_ne_success {signals : List Int}
    (h : ¬ ∀ signal ∈ signals, system.isSignal signal = true) (set : SignalSet) :
    (addSignals system signals set).1 ≠ .success := by
  induction signals generalizing set with
  | nil => exact absurd (List.forall_mem_nil _) h
  | cons signal signals ih =>
    rw [addSignals]
    split
    · rename_i hsignal
      exact ih (fun hall => h (List.forall_mem_cons.mpr ⟨hsignal, hall⟩)) _
    · simp

theorem construct_eq {signals : List Int} (h : ∀ signal ∈ signals, system.isSignal signal = true)
    (mask : SignalMask system) :
    (signalBlocker system).construct signals mask =
      (⟨true, signals.toFinset⟩, mask.block signals.toFinset) := by
  show ScopedSignalBlocker.construct signals mask = _
  unfold ScopedSignalBlocker.construct createSignalSet
  rw [addSignals_eq h, Finset.empty_union]
  rfl

/-- Where a number is no signal, nothing is blocked. -/
theorem construct_snd_of_not_signal {signals : List Int}
    (h : ¬ ∀ signal ∈ signals, system.isSignal signal = true) (mask : SignalMask system) :
    ((signalBlocker system).construct signals mask).2 = mask := by
  show (ScopedSignalBlocker.construct signals mask).2 = mask
  unfold ScopedSignalBlocker.construct createSignalSet
  dsimp only
  rw [if_neg (addSignals_ne_success h ∅)]

theorem unblock_block_eq_iff (mask : SignalMask system) (set : SignalSet) :
    (mask.block set).unblock set = mask ↔ Disjoint mask.signals set := by
  have hsignals : ((mask.block set).unblock set).signals = mask.signals \ set := by
    ext signal
    simp only [SignalMask.unblock, SignalMask.block, Finset.mem_sdiff, Finset.mem_union,
      Finset.mem_filter]
    tauto
  rw [← Finset.sdiff_eq_self_iff_disjoint, ← hsignals]
  exact ⟨fun h => congrArg SignalMask.signals h, SignalMask.ext_signals⟩

/-- A scope is undone, and blocks its signals, exactly when they can be blocked and are not blocked
    yet. -/
theorem unblocked_iff (signals : List Int) (mask : SignalMask system) :
    Unblocked signals mask ↔ (signalBlocker system).Undone signals mask ∧
      ∀ signal ∈ signals, signal ∈ ((signalBlocker system).construct signals mask).2.signals := by
  by_cases hall : ∀ signal ∈ signals, system.isSignal signal = true
  · rw [ScopeClass.Undone, construct_eq hall]
    have hundone : (signalBlocker system).destruct ⟨true, signals.toFinset⟩
        (mask.block signals.toFinset) = mask ↔ Disjoint mask.signals signals.toFinset :=
      unblock_block_eq_iff mask signals.toFinset
    rw [hundone, Finset.disjoint_right]
    constructor
    · intro h
      refine ⟨fun signal hsignal => (h signal (List.mem_toFinset.mp hsignal)).2.2, ?_⟩
      intro signal hsignal
      obtain ⟨his, hcan, -⟩ := h signal hsignal
      exact Finset.mem_union_right _
        (Finset.mem_filter.mpr ⟨List.mem_toFinset.mpr hsignal, his, hcan⟩)
    · rintro ⟨hdisjoint, hblocked⟩ signal hsignal
      have hcan := (mask.block signals.toFinset).blockable signal (hblocked signal hsignal)
      exact ⟨hcan.1, hcan.2, hdisjoint (List.mem_toFinset.mpr hsignal)⟩
  · refine iff_of_false (fun h => hall fun signal hsignal => (h signal hsignal).1) ?_
    rintro ⟨-, hblocked⟩
    rw [construct_snd_of_not_signal hall] at hblocked
    exact hall fun signal hsignal => (mask.blockable signal (hblocked signal hsignal)).1

/-! ## All scopes -/

/-- What is blocked in front of a scope is so inside of it. -/
theorem signals_subset_construct (signals : List Int) (mask : SignalMask system) :
    mask.signals ⊆ ((signalBlocker system).construct signals mask).2.signals := by
  by_cases hall : ∀ signal ∈ signals, system.isSignal signal = true
  · rw [construct_eq hall]
    exact Finset.subset_union_left
  · rw [construct_snd_of_not_signal hall]

/-- Inner scopes that have ended do not unblock the signals of the outer ones. -/
theorem allBlocked_of_live {s : SignalScopes system}
    (h : (signalBlocker system).Live Unblocked s) : AllBlocked s := by
  obtain ⟨mask, live⟩ := s
  obtain ⟨hchain, hall⟩ := h
  dsimp only at hchain hall
  unfold AllBlocked
  dsimp only
  induction live generalizing mask with
  | nil => exact List.forall_mem_nil _
  | cons scope live ih =>
    obtain ⟨hscope, hlive⟩ := List.forall_mem_cons.mp hall
    obtain ⟨hconstruct, hchain⟩ := hchain
    have hmask : ((signalBlocker system).construct scope.arg scope.before).2 = mask := by
      rw [hconstruct]
    rw [List.forall_mem_cons, ← hmask]
    refine ⟨((unblocked_iff _ _).mp hscope).2, fun outer houter signal hsignal => ?_⟩
    exact signals_subset_construct _ _ (ih scope.before hchain hlive outer houter signal hsignal)

/-- Scopes that are undone, and block their signals at once. -/
theorem entering_unblocked {s : SignalScopes system}
    {tr : List (ScopeEvent (List Int) × SignalScopes system)}
    (hrun : IsRun (fun s e s' => (signalBlocker system).step s e = .ok s') s tr)
    (hentered : Meets (ScopeClass.Entering (signalBlocker system).Undone) s tr)
    (hblocked : Always AllBlocked s tr) : Meets (ScopeClass.Entering Unblocked) s tr := by
  induction tr generalizing s with
  | nil => trivial
  | cons x tr ih =>
    obtain ⟨e, s'⟩ := x
    refine ⟨?_, ih hrun.2 hentered.2 hblocked.2⟩
    obtain ⟨signals, rfl, rfl⟩ | ⟨scope, live, rfl, -, -⟩ := ScopeClass.step_cases hrun.1
    · exact (unblocked_iff signals s.state).mpr ⟨hentered.1, hblocked.2.head _ (.head _)⟩
    · trivial

/-- A run keeps the property when the signals of each scope are unblocked at its beginning; and a
    run in which every scope ends keeps it only then. -/
theorem mask_restored_iff (mask : SignalMask system) (events : List (ScopeEvent (List Int))) :
    let start : SignalScopes system := ⟨mask, []⟩
    let tr := traceOk (signalBlocker system).step start events
    (Meets (ScopeClass.Entering Unblocked) start tr → RestoresMask start tr) ∧
      ((final start tr).live = [] →
        (RestoresMask start tr ↔ Meets (ScopeClass.Entering Unblocked) start tr)) := by
  intro start tr
  have hrun : IsRun (fun s e s' => (signalBlocker system).step s e = .ok s') start tr :=
    (isRun_traceOk _ _ _).mono fun _ _ _ hstep => hstep.2
  have hundone : ∀ signals (mask : SignalMask system), Unblocked signals mask →
      (signalBlocker system).Undone signals mask :=
    fun signals mask h => ((unblocked_iff signals mask).mp h).1
  have hstart : (signalBlocker system).Live Unblocked start := ⟨trivial, List.forall_mem_nil _⟩
  have henough : Meets (ScopeClass.Entering Unblocked) start tr → RestoresMask start tr :=
    fun h => ⟨ScopeClass.meets_restores hundone hstart hrun h,
      (ScopeClass.always_live hundone hstart hrun h).mono fun _ => allBlocked_of_live⟩
  refine ⟨henough, fun hend => ⟨fun h => ?_, henough⟩⟩
  have hentered := (ScopeClass.undone_of_restores hstart.1 hrun hend h.restores).2
  exact entering_unblocked hrun hentered h.blocked

/-- Linux, with `SIGKILL` and `SIGSTOP`. The threads library keeps 32 and 33 for itself, and
    `sigaddset` turns them down. -/
def linuxSignals : SignalSystem where
  isSignal signal := 1 ≤ signal ∧ signal ≤ 64 ∧ signal ≠ 32 ∧ signal ≠ 33
  canBlock signal := signal ≠ 9 ∧ signal ≠ 19

def SIGTTIN : Int := 21

def SIGTTOU : Int := 22

/-- Nothing is blocked in the beginning. -/
def noneBlocked : SignalScopes linuxSignals where
  state := { signals := ∅, blockable := by simp }
  live := []

/-- A scope for `SIGTTIN`, and one for `SIGTTIN` and `SIGTTOU` inside of it. -/
def nestedScopes : List (ScopeEvent (List Int)) :=
  [.enter [SIGTTIN], .enter [SIGTTIN, SIGTTOU], .leave, .leave]

/-- Behind the inner scope `SIGTTIN` is not blocked any more. -/
theorem inner_scope_unblocks :
    let tr := traceOk (signalBlocker linuxSignals).step noneBlocked nestedScopes
    tr.map (fun x => x.2.state.signals) = [{SIGTTIN}, {SIGTTIN, SIGTTOU}, ∅, ∅] ∧
      ¬ RestoresMask noneBlocked tr := by
  intro tr
  refine ⟨by decide, fun h => ?_⟩
  have hblocked := h.blocked.2.2.2.head
  have hmem := hblocked _ (.head _) SIGTTIN (.head _)
  revert hmem
  decide

end RehldsM.Util
