import Mathlib.Logic.Relation
import RehldsM.Util.Lifecycle
import RehldsM.Util.Singleton

/-
  Singletons that use each other: `SingletonHolder` with `DefaultLifetime`
  (libs/util/include/util/singleton.hpp) on top of `at_exit` and `run_callbacks`
  (libs/util/src/util/lifecycle.cpp).

  The constructor of a class may ask for other singletons: `uses k` are the classes that the one
  of `k` asks for, in order. `get_instance` schedules the destruction when the constructor has
  returned, so what a singleton uses was scheduled before it, however the calls are nested, and
  `run_callbacks` goes backwards. Each singleton is outlived by those it uses
  (`singletons_outlived`). The same holds of a callback that is registered behind what it uses,
  as in `init_filesystem` (libs/core/src/core/init.cpp).
-/

namespace RehldsM.Util

open Lifecycle

universe u

variable {κ : Type u}

/-- The holders of all classes, and the callbacks that were registered: the `destroy_singleton`
    of a class is the class. -/
abbrev SingletonProcess (κ : Type u) := Lifecycle κ (κ → SingletonHolder)

inductive GetInstanceFault where
  /-- `handle_dead_reference` of `DefaultLifetime`, which ends the process. -/
  | deadReference
  | nestedTooDeep
deriving DecidableEq

namespace SingletonProcess

variable [DecidableEq κ]

/-- No instance exists yet. -/
def start : SingletonProcess κ := .new fun _ => .start

def setHolder (l : SingletonProcess κ) (k : κ) (holder : SingletonHolder) : SingletonProcess κ :=
  { l with program := Function.update l.program k holder }

/-- `get_instance` of class `k`, where `std::atexit` succeeds; `fuel` bounds the nesting of the
    constructors. -/
def getInstance (uses : κ → List κ) :
    Nat → κ → SingletonProcess κ → Except GetInstanceFault (SingletonProcess κ)
  | 0, _, _ => .error .nestedTooDeep
  | fuel + 1, k, l =>
    if (l.program k).instancePtr.isSome then .ok (l.setHolder k (l.program k).dereference)
    else if (l.program k).destroyed then .error .deadReference
    else do
      let l ← (uses k).foldlM (fun l j => getInstance uses fuel j l) l
      .ok ((l.setHolder k (l.program k).createInstance.dereference).atExit k true).2

/-- The callback of a class. -/
def destroySingleton (k : κ) (holders : κ → SingletonHolder) :
    List κ × (κ → SingletonHolder) :=
  ([], Function.update holders k (holders k).destroySingleton)

/-- The classes whose destruction is scheduled, the next one first. -/
def scheduled (l : SingletonProcess κ) : List κ := l.stack.map Registration.callback

end SingletonProcess

open SingletonProcess

/-- The constructor of `i` asks for `j`. -/
def UsedBy (uses : κ → List κ) (j i : κ) : Prop := j ∈ uses i

/-- The constructor of `k` comes to an end with less than this many nested in it. -/
def Nested (uses : κ → List κ) : Nat → κ → Prop
  | 0, _ => False
  | fuel + 1, k => ∀ j ∈ uses k, Nested uses fuel j

/-- Everything a class uses stands behind it, and no class stands there twice. -/
def Supported (uses : κ → List κ) : List κ → Prop
  | [] => True
  | k :: ks => k ∉ ks ∧ (∀ j ∈ uses k, j ∈ ks) ∧ Supported uses ks

/-- The effects that are faults. -/
def faults : List SingletonEffect := [.handleDeadReference, .nullDereference, .assertionFailed]

/-- The holder of a class that was constructed once at most, and has done nothing wrong. -/
structure HolderInv (h : SingletonHolder) : Prop where
  sound : ∀ effect ∈ h.effects, effect ∉ faults
  alive : h.instancePtr.isSome = true → h.destroyed = false ∧ h.scheduled = 1
  unborn : h.instancePtr = none → h.destroyed = false → h.created = 0 ∧ h.scheduled = 0
  dead : h.destroyed = true → h.scheduled = 0
  once : h.created ≤ 1

/-- What is scheduled is what is alive. -/
structure SingletonsInv (uses : κ → List κ) (l : SingletonProcess κ) : Prop where
  supported : Supported uses l.scheduled
  alive : ∀ k, (l.program k).instancePtr.isSome = true ↔ k ∈ l.scheduled
  holders : ∀ k, HolderInv (l.program k)

/-- Nothing was destroyed yet, and `ks` were asked for since `l`. -/
structure Constructed (uses : κ → List κ) (ks : List κ) (l l' : SingletonProcess κ) : Prop where
  inv : SingletonsInv uses l'
  undestroyed : ∀ k, (l'.program k).destroyed = false
  alive : ∀ k ∈ ks, k ∈ l'.scheduled
  pushed : ∃ pushed, l'.scheduled = pushed ++ l.scheduled ∧
    ∀ i ∈ pushed, ∃ k ∈ ks, Relation.ReflTransGen (UsedBy uses) i k

/-- How the program `l` exits: each instance is destroyed before those that its constructor has
    used, which are still alive in its turn; in the end all are destroyed, no class had a second
    instance, and no holder has met a fault. -/
structure Outlived [DecidableEq κ] (uses : κ → List κ) (l : SingletonProcess κ) : Prop where
  turn : ∀ n top rest, (turns destroySingleton n l).stack = top :: rest →
    ∀ k, k = top.callback ∨ k ∈ uses top.callback →
      ((turns destroySingleton n l).program k).instancePtr.isSome = true
  ended : ∃ fuel l', runCallbacks destroySingleton fuel l = some l' ∧
    ∀ k, (l'.program k).instancePtr = none ∧ (l'.program k).created ≤ 1 ∧
      ∀ effect ∈ (l'.program k).effects, effect ∉ faults

section singletons

variable {uses : κ → List κ} {l l' l'' : SingletonProcess κ} {h : SingletonHolder} {k : κ}

/-! ## The holder -/

theorem holderInv_start : HolderInv .start := by
  constructor <;> simp [SingletonHolder.start]

theorem holderInv_dereference (hinv : HolderInv h) (hsome : h.instancePtr.isSome = true) :
    HolderInv h.dereference := by
  obtain ⟨i, hi⟩ := Option.isSome_iff_exists.mp hsome
  have heq : h.dereference = h.perform [.reference i] := by
    unfold SingletonHolder.dereference
    rw [hi]
  rw [heq]
  refine ⟨?_, hinv.alive, hinv.unborn, hinv.dead, hinv.once⟩
  intro effect hmem
  rcases List.mem_append.mp hmem with hmem | hmem
  · exact hinv.sound effect hmem
  · rw [List.mem_singleton.mp hmem]
    simp [faults]

theorem dereference_eq (h : SingletonHolder) :
    h.dereference.instancePtr = h.instancePtr ∧ h.dereference.destroyed = h.destroyed := by
  unfold SingletonHolder.dereference
  split <;> exact ⟨rfl, rfl⟩

/-- The first instance. -/
theorem holderInv_createInstance (hinv : HolderInv h) (hnone : h.instancePtr = none)
    (hdestroyed : h.destroyed = false) :
    HolderInv h.createInstance ∧ h.createInstance.instancePtr.isSome = true ∧
      h.createInstance.destroyed = false := by
  obtain ⟨hcreated, hscheduled⟩ := hinv.unborn hnone hdestroyed
  have heq : h.createInstance = { h with
      instancePtr := some h.created
      created := h.created + 1
      scheduled := h.scheduled + 1
      effects := h.effects ++ [.create h.created, .scheduleDestruction h.created] } := by
    simp [SingletonHolder.createInstance, SingletonHolder.perform, hdestroyed]
  rw [heq]
  refine ⟨⟨?_, ?_, ?_, ?_, ?_⟩, rfl, hdestroyed⟩
  · intro effect hmem
    rcases List.mem_append.mp hmem with hmem | hmem
    · exact hinv.sound effect hmem
    · rcases List.mem_cons.mp hmem with rfl | hmem
      · simp [faults]
      · rw [List.mem_singleton.mp hmem]
        simp [faults]
  · exact fun _ => ⟨hdestroyed, congrArg (· + 1) hscheduled⟩
  · exact fun hcon => absurd hcon (by simp)
  · exact fun hdead => absurd (hdead.symm.trans hdestroyed) (by simp)
  · show h.created + 1 ≤ 1
    omega

theorem holderInv_destroySingleton (hinv : HolderInv h) (hsome : h.instancePtr.isSome = true) :
    HolderInv h.destroySingleton ∧ h.destroySingleton.instancePtr = none := by
  obtain ⟨i, hi⟩ := Option.isSome_iff_exists.mp hsome
  obtain ⟨hdestroyed, hscheduled⟩ := hinv.alive hsome
  have heq : h.destroySingleton = { h with
      instancePtr := none
      destroyed := true
      scheduled := 0
      effects := h.effects ++ [.destroy i] } := by
    simp [SingletonHolder.destroySingleton, SingletonHolder.perform, hscheduled, hdestroyed, hi]
  rw [heq]
  constructor
  · refine ⟨?_, fun hcon => absurd hcon (by simp), fun _ hcon => absurd hcon (by simp),
      fun _ => rfl, hinv.once⟩
    intro effect hmem
    rcases List.mem_append.mp hmem with hmem | hmem
    · exact hinv.sound effect hmem
    · rw [List.mem_singleton.mp hmem]
      simp [faults]
  · rfl

/-! ## Constructors that use other singletons -/

theorem nested_mono {fuel fuel' : Nat} (h : Nested uses fuel k) (hle : fuel ≤ fuel') :
    Nested uses fuel' k := by
  induction fuel generalizing k fuel' with
  | zero => exact h.elim
  | succ fuel ih =>
    obtain ⟨fuel', rfl⟩ : ∃ n, fuel' = n + 1 := ⟨fuel' - 1, by omega⟩
    exact fun j hj => ih (h j hj) (by omega)

theorem exists_nested_list {js : List κ} (h : ∀ j ∈ js, ∃ fuel, Nested uses fuel j) :
    ∃ fuel, ∀ j ∈ js, Nested uses fuel j := by
  induction js with
  | nil => exact ⟨0, fun j hj => absurd hj List.not_mem_nil⟩
  | cons j js ih =>
    obtain ⟨fuel, hfuel⟩ := h j List.mem_cons_self
    obtain ⟨fuel', hfuel'⟩ := ih fun i hi => h i (List.mem_cons_of_mem j hi)
    refine ⟨max fuel fuel', fun i hi => ?_⟩
    rcases List.mem_cons.mp hi with rfl | hi
    · exact nested_mono hfuel (Nat.le_max_left fuel fuel')
    · exact nested_mono (hfuel' i hi) (Nat.le_max_right fuel fuel')

theorem exists_nested (hacc : Acc (UsedBy uses) k) : ∃ fuel, Nested uses fuel k := by
  induction hacc with
  | intro k _ ih =>
    obtain ⟨fuel, hfuel⟩ := exists_nested_list ih
    exact ⟨fuel + 1, hfuel⟩

theorem acc_of_nested {fuel : Nat} (h : Nested uses fuel k) : Acc (UsedBy uses) k := by
  induction fuel generalizing k with
  | zero => exact h.elim
  | succ fuel ih => exact ⟨k, fun j hj => ih (h j hj)⟩

/-- No constructor that comes to an end asks for its own class, however indirectly. -/
theorem not_usedBy_self {fuel : Nat} (h : Nested uses fuel k) :
    ¬ Relation.TransGen (UsedBy uses) k k := by
  have hacc := (acc_of_nested h).transGen
  clear h
  induction hacc with
  | intro k _ ih => exact fun hself => ih k hself hself

/-! ## The calls of `get_instance` -/

theorem scheduled_atExit (l : SingletonProcess κ) (k : κ) :
    SingletonProcess.scheduled (l.atExit k true).2 = k :: l.scheduled := by
  unfold scheduled
  rw [stack_atExit, List.map_cons]

theorem singletonsInv_start : SingletonsInv uses start where
  supported := trivial
  alive k := by simp [start, new, SingletonHolder.start, scheduled, stack]
  holders _ := holderInv_start

theorem constructed_nil (hinv : SingletonsInv uses l)
    (hlive : ∀ i, (l.program i).destroyed = false) : Constructed uses [] l l where
  inv := hinv
  undestroyed := hlive
  alive _ hmem := absurd hmem List.not_mem_nil
  pushed := ⟨[], rfl, fun _ hmem => absurd hmem List.not_mem_nil⟩

theorem constructed_cons {ks : List κ} (hfirst : Constructed uses [k] l l')
    (hrest : Constructed uses ks l' l'') : Constructed uses (k :: ks) l l'' := by
  obtain ⟨pushed, hpushed, horigin⟩ := hfirst.pushed
  obtain ⟨pushed', hpushed', horigin'⟩ := hrest.pushed
  refine ⟨hrest.inv, hrest.undestroyed, ?_, pushed' ++ pushed, ?_, ?_⟩
  · intro i hi
    rcases List.mem_cons.mp hi with rfl | hi
    · rw [hpushed']
      exact List.mem_append_right _ (hfirst.alive i List.mem_cons_self)
    · exact hrest.alive i hi
  · rw [hpushed', hpushed, List.append_assoc]
  · intro i hi
    rcases List.mem_append.mp hi with hi | hi
    · obtain ⟨j, hj, hused⟩ := horigin' i hi
      exact ⟨j, List.mem_cons_of_mem k hj, hused⟩
    · obtain ⟨j, hj, hused⟩ := horigin i hi
      rw [List.mem_singleton.mp hj] at hused
      exact ⟨k, List.mem_cons_self, hused⟩

variable [DecidableEq κ]

theorem program_setHolder (l : SingletonProcess κ) (k i : κ) (h : SingletonHolder) :
    (l.setHolder k h).program i = if i = k then h else l.program i :=
  Function.update_apply l.program k h i

/-- The singleton exists already. -/
theorem constructed_alive (hinv : SingletonsInv uses l)
    (hlive : ∀ i, (l.program i).destroyed = false)
    (hsome : (l.program k).instancePtr.isSome = true) :
    Constructed uses [k] l (l.setHolder k (l.program k).dereference) := by
  obtain ⟨hptr, hdestroyed⟩ := dereference_eq (l.program k)
  refine ⟨⟨hinv.supported, ?_, ?_⟩, ?_, ?_, [], rfl, fun _ hmem => absurd hmem List.not_mem_nil⟩
  · intro i
    rw [program_setHolder]
    split
    · next hi =>
      subst hi
      rw [hptr]
      exact hinv.alive i
    · exact hinv.alive i
  · intro i
    rw [program_setHolder]
    split
    · exact holderInv_dereference (hinv.holders k) hsome
    · exact hinv.holders i
  · intro i
    rw [program_setHolder]
    split
    · rw [hdestroyed]
      exact hlive k
    · exact hlive i
  · intro i hi
    rw [List.mem_singleton.mp hi]
    exact (hinv.alive k).mp hsome

/-- The singleton is created when all that its constructor uses is there. -/
theorem constructed_create (hinv : SingletonsInv uses l)
    (hlive : ∀ i, (l.program i).destroyed = false) (hnot : k ∉ l.scheduled)
    (huses : ∀ j ∈ uses k, j ∈ l.scheduled) :
    SingletonsInv uses
        ((l.setHolder k (l.program k).createInstance.dereference).atExit k true).2 ∧
      ∀ i, (((l.setHolder k (l.program k).createInstance.dereference).atExit k true).2.program
        i).destroyed = false := by
  have hnone : (l.program k).instancePtr = none := by
    rw [← Option.not_isSome_iff_eq_none, hinv.alive k]
    exact hnot
  obtain ⟨hcreated, hsome, hdestroyed⟩ :=
    holderInv_createInstance (hinv.holders k) hnone (hlive k)
  obtain ⟨hptr, hdestroyed'⟩ := dereference_eq (l.program k).createInstance
  have hprogram := (atExit_eq (l.setHolder k (l.program k).createInstance.dereference) k).2.2
  have hscheduled := scheduled_atExit (l.setHolder k (l.program k).createInstance.dereference) k
  refine ⟨⟨?_, ?_, ?_⟩, ?_⟩
  · rw [hscheduled]
    exact ⟨hnot, huses, hinv.supported⟩
  · intro i
    rw [hprogram, hscheduled, List.mem_cons, program_setHolder]
    split
    · next hi =>
      rw [hptr]
      exact ⟨fun _ => Or.inl hi, fun _ => hsome⟩
    · next hi =>
      rw [hinv.alive i]
      exact ⟨Or.inr, fun hmem => hmem.resolve_left hi⟩
  · intro i
    rw [hprogram, program_setHolder]
    split
    · exact holderInv_dereference hcreated hsome
    · exact hinv.holders i
  · intro i
    rw [hprogram, program_setHolder]
    split
    · rw [hdestroyed', hdestroyed]
    · exact hlive i

/-- One call after the other. -/
theorem getInstances_constructed {fuel : Nat} {ks : List κ}
    (hget : ∀ k ∈ ks, ∀ l, SingletonsInv uses l → (∀ i, (l.program i).destroyed = false) →
      ∃ l', getInstance uses fuel k l = .ok l' ∧ Constructed uses [k] l l')
    (hinv : SingletonsInv uses l) (hlive : ∀ i, (l.program i).destroyed = false) :
    ∃ l', ks.foldlM (fun l k => getInstance uses fuel k l) l = .ok l' ∧
      Constructed uses ks l l' := by
  induction ks generalizing l with
  | nil => exact ⟨l, rfl, constructed_nil hinv hlive⟩
  | cons k ks ih =>
    obtain ⟨l', hfirst, hconstructed⟩ := hget k List.mem_cons_self l hinv hlive
    obtain ⟨l'', hrest, hconstructed'⟩ :=
      ih (fun i hi => hget i (List.mem_cons_of_mem k hi)) hconstructed.inv hconstructed.undestroyed
    refine ⟨l'', ?_, constructed_cons hconstructed hconstructed'⟩
    rw [List.foldlM_cons, hfirst]
    exact hrest

/-- A call of `get_instance` whose constructors come to an end. -/
theorem getInstance_constructed {fuel : Nat} (hnested : Nested uses fuel k)
    (hinv : SingletonsInv uses l) (hlive : ∀ i, (l.program i).destroyed = false) :
    ∃ l', getInstance uses fuel k l = .ok l' ∧ Constructed uses [k] l l' := by
  induction fuel generalizing k l with
  | zero => exact hnested.elim
  | succ fuel ih =>
    rw [getInstance]
    by_cases hsome : (l.program k).instancePtr.isSome = true
    · rw [if_pos hsome]
      exact ⟨_, rfl, constructed_alive hinv hlive hsome⟩
    · obtain ⟨l', hconstructor, hconstructed⟩ :=
        getInstances_constructed (fun j hj l => ih (hnested j hj)) hinv hlive
      obtain ⟨pushed, hpushed, horigin⟩ := hconstructed.pushed
      -- The constructor has not asked for its own class.
      have hnot : k ∉ l'.scheduled := by
        rw [hpushed, List.mem_append, not_or]
        constructor
        · intro hmem
          obtain ⟨j, hj, hused⟩ := horigin k hmem
          exact not_usedBy_self hnested (Relation.TransGen.tail' hused hj)
        · rw [← hinv.alive k]
          exact hsome
      obtain ⟨hinv', hlive'⟩ := constructed_create hconstructed.inv hconstructed.undestroyed hnot
        hconstructed.alive
      rw [if_neg hsome, if_neg (by rw [hlive k]; simp), hconstructor]
      refine ⟨_, rfl, hinv', hlive', ?_, k :: pushed, ?_, ?_⟩
      · intro i hi
        rw [scheduled_atExit, List.mem_singleton.mp hi]
        exact List.mem_cons_self
      · rw [scheduled_atExit, List.cons_append, ← hpushed]
        rfl
      · intro i hi
        refine ⟨k, List.mem_cons_self, ?_⟩
        rcases List.mem_cons.mp hi with rfl | hi
        · exact .refl
        · obtain ⟨j, hj, hused⟩ := horigin i hi
          exact hused.tail hj

/-! ## The exit -/

/-- One turn of the loop of `run_callbacks`. -/
theorem singletonsInv_turn {top : Registration κ} {rest : List (Registration κ)}
    (hinv : SingletonsInv uses l) (hstack : l.stack = top :: rest) :
    ∃ l', l.turn destroySingleton = some l' ∧ l'.stack = rest ∧ SingletonsInv uses l' := by
  have hquiet : (destroySingleton top.callback l.program).1 = [] := rfl
  obtain ⟨l', hturn, hrest, -, -, hprogram⟩ := turn_quiet hstack hquiet
  have hscheduled : l.scheduled = top.callback :: SingletonProcess.scheduled l' := by
    unfold scheduled
    rw [hstack, hrest, List.map_cons]
  have hsupported := hinv.supported
  rw [hscheduled] at hsupported
  obtain ⟨hnot, -, hsupported⟩ := hsupported
  have hholder := holderInv_destroySingleton (hinv.holders top.callback)
    ((hinv.alive top.callback).mpr (by rw [hscheduled]; exact List.mem_cons_self))
  have happly : ∀ i, l'.program i =
      if i = top.callback then (l.program top.callback).destroySingleton else l.program i := by
    intro i
    rw [hprogram]
    exact Function.update_apply l.program top.callback _ i
  refine ⟨l', hturn, hrest, hsupported, ?_, ?_⟩
  · intro i
    rw [happly]
    split
    · next hi =>
      rw [hholder.2, hi]
      exact ⟨fun hcon => absurd hcon (by simp), fun hmem => absurd hmem hnot⟩
    · next hi =>
      rw [hinv.alive i, hscheduled, List.mem_cons]
      exact ⟨fun hmem => hmem.resolve_left hi, Or.inr⟩
  · intro i
    rw [happly]
    split
    · exact hholder.1
    · exact hinv.holders i

theorem singletonsInv_turns (hinv : SingletonsInv uses l) (n : Nat) :
    SingletonsInv uses (turns destroySingleton n l) ∧
      (turns destroySingleton n l).stack = l.stack.drop n := by
  induction n generalizing l with
  | zero => exact ⟨hinv, rfl⟩
  | succ n ih =>
    cases hstack : l.stack with
    | nil =>
      rw [turns, (turn_eq_none_iff l).mpr hstack]
      exact ⟨hinv, hstack⟩
    | cons top rest =>
      obtain ⟨l', hturn, hrest, hinv'⟩ := singletonsInv_turn hinv hstack
      rw [turns, hturn, List.drop_succ_cons, ← hrest]
      exact ih hinv'

theorem runCallbacks_end (hinv : SingletonsInv uses l) :
    ∃ fuel l', runCallbacks destroySingleton fuel l = some l' ∧ SingletonsInv uses l' ∧
      SingletonProcess.scheduled l' = [] := by
  cases hnull : l.callbacks with
  | none =>
    refine ⟨0, l, by rw [runCallbacks, hnull], hinv, ?_⟩
    rw [scheduled, stack, hnull]
    rfl
  | some s =>
    obtain ⟨hinv', hend⟩ := singletonsInv_turns hinv l.stack.length
    rw [List.drop_length] at hend
    refine ⟨l.stack.length, { turns destroySingleton l.stack.length l with callbacks := none },
      ?_, ?_, rfl⟩
    · rw [runCallbacks, hnull]
      dsimp only
      rw [if_pos (by rw [hend]; rfl)]
    · refine ⟨trivial, fun i => ?_, hinv'.holders⟩
      have halive := hinv'.alive i
      rw [scheduled, hend] at halive
      exact halive

theorem outlived (hinv : SingletonsInv uses l) : Outlived uses l where
  turn n top rest hstack k hk := by
    obtain ⟨hinv', -⟩ := singletonsInv_turns hinv n
    have hscheduled : SingletonProcess.scheduled (turns destroySingleton n l) =
        top.callback :: rest.map Registration.callback := by
      rw [scheduled, hstack, List.map_cons]
    have hsupported := hinv'.supported
    rw [hscheduled] at hsupported
    rw [hinv'.alive k, hscheduled]
    rcases hk with rfl | hk
    · exact List.mem_cons_self
    · exact List.mem_cons_of_mem _ (hsupported.2.1 k hk)
  ended := by
    obtain ⟨fuel, l', hrun, hinv', hend⟩ := runCallbacks_end hinv
    refine ⟨fuel, l', hrun, fun k => ⟨?_, (hinv'.holders k).once, (hinv'.holders k).sound⟩⟩
    rw [← Option.not_isSome_iff_eq_none, hinv'.alive k, hend]
    exact List.not_mem_nil

end singletons

/-- The program asks for singletons whose constructors ask for others, as deep as it may be:
    every call returns an instance, and at the exit no singleton outlives one that its constructor
    has used. -/
theorem singletons_outlived [DecidableEq κ] (uses : κ → List κ) (gets : List κ)
    (hacc : ∀ k ∈ gets, Acc (UsedBy uses) k) :
    ∃ fuel l, gets.foldlM (fun l k => getInstance uses fuel k l) start = .ok l ∧
      (∀ k ∈ gets, (l.program k).instancePtr.isSome = true) ∧ Outlived uses l := by
  obtain ⟨fuel, hfuel⟩ := exists_nested_list fun k hk => exists_nested (hacc k hk)
  obtain ⟨l, hgets, hconstructed⟩ : ∃ l, gets.foldlM (fun l k => getInstance uses fuel k l) start =
      .ok l ∧ Constructed uses gets start l :=
    getInstances_constructed (fun k hk l => getInstance_constructed (hfuel k hk))
      singletonsInv_start fun _ => rfl
  refine ⟨fuel, l, hgets, fun k hk => ?_, outlived hconstructed.inv⟩
  exact (hconstructed.inv.alive k).mpr (hconstructed.alive k hk)

/-- What `main` starts and the exit has to end: `init_filesystem` asks for the wrapper, mounts the
    file system and registers the callback that unmounts it; `init_engine` asks for the other
    wrapper. -/
inductive StartUp where
  | fileSystemWrapper
  | mountedFileSystem
  | engineWrapper
deriving DecidableEq

def StartUp.uses : StartUp → List StartUp
  | .mountedFileSystem => [.fileSystemWrapper]
  | .fileSystemWrapper | .engineWrapper => []

/-- The file system is unmounted before the wrapper unloads its module. -/
theorem singletons_outlived_startUp :
    let gets := [StartUp.mountedFileSystem, .engineWrapper]
    ∃ fuel l, gets.foldlM (fun l k => getInstance StartUp.uses fuel k l) start = .ok l ∧
      (∀ k ∈ gets, (l.program k).instancePtr.isSome = true) ∧ Outlived StartUp.uses l := by
  have hnone : ∀ k, StartUp.uses k = [] → Acc (UsedBy StartUp.uses) k := by
    intro k hk
    refine ⟨k, fun j hj => ?_⟩
    rw [UsedBy, hk] at hj
    exact absurd hj List.not_mem_nil
  have hacc : ∀ k, Acc (UsedBy StartUp.uses) k := by
    intro k
    cases k with
    | fileSystemWrapper => exact hnone _ rfl
    | engineWrapper => exact hnone _ rfl
    | mountedFileSystem =>
      refine ⟨_, fun j hj => ?_⟩
      rw [List.mem_singleton.mp hj]
      exact hnone _ rfl
  exact singletons_outlived StartUp.uses [.mountedFileSystem, .engineWrapper] fun k _ => hacc k

end RehldsM.Util
