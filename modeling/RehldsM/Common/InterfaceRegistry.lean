import Mathlib.Data.List.AList
import Mathlib.Data.List.Perm.Basic
import RehldsM.Common.ModuleWrapper

/-
  `InterfaceRegistry` and `CreateInterface` (libs/common/src/common/interface.cpp), and a module
  that exposes interfaces behind a `ModuleWrapper`.

  A module registers an instantiation function for each interface while its static objects are
  constructed. The order of these is not fixed across translation units, and does not matter as
  long as no name is registered twice (`CreateInterface` then finds the same functions);
  otherwise the last registration of a name counts.

  The function of `EXPOSE_INTERFACE` makes a new object in each call. A wrapper that is asked to
  cache asks the module once: what it has handed out under a name with `cache` it hands out
  from then on, and the module makes no other object for it. Every other request runs the function
  of its name in the state that the requests before it have left the module in
  (`exposed_interfaces`).
-/

namespace RehldsM.Common

open Lib Util

universe u

variable {ρ : Type u}

/-- A pointer or null, with the state of the module that the function leaves behind. -/
abbrev InstantiateFunc (ρ : Type u) := ρ → Option Nat × ρ

/-- `get_interface_registry_list()` -/
abbrev RegistryList (ρ : Type u) := AList fun _ : Str => InstantiateFunc ρ

/-- The constructor of `InterfaceRegistry`: `list[interface_name] = instantiate_func`. -/
def InterfaceRegistry.register (list : RegistryList ρ) (exposed : Str × InstantiateFunc ρ) :
    RegistryList ρ := list.insert exposed.1 exposed.2

/-- The list after the static objects of a module were constructed, in this order. -/
def registered (exposed : List (Str × InstantiateFunc ρ)) : RegistryList ρ :=
  exposed.foldl InterfaceRegistry.register ∅

/-- `CreateInterface`. `name` is a C string or null, `status` says whether there is a variable
    to store the status in; that one is returned if there is. -/
def createInterface (list : RegistryList ρ) (name : Option Str) (status : Bool) (program : ρ) :
    (Option Nat × Option CreateInterfaceStatus) × ρ :=
  let (interface, program) :=
    match name with
    | none | some [] => (none, program)
    | some (c :: cs) =>
      match list.lookup (c :: cs) with
      | some instantiateFunc => instantiateFunc program
      | none => (none, program)
  ((interface, if status then some (if interface.isNone then .failed else .succeeded) else none),
    program)

/-- A call of `get_interface`, and what came of it. -/
structure Request (ρ : Type u) where
  name : Str
  cache : Bool
  interface : Option InterfacePtr
  /-- An instantiation function was called. -/
  instantiated : Bool
  /-- The state of the module behind it. -/
  program : ρ

/-- A wrapper that holds a module with these registrations. -/
structure Client (ρ : Type u) where
  wrapper : ModuleWrapper
  list : RegistryList ρ
  program : ρ
  requests : List (Request ρ)

/-- The state these requests have left a module in that began with `program`. -/
def programBehind (program : ρ) (requests : List (Request ρ)) : ρ :=
  (requests.getLast?.map Request.program).getD program

/-- The request has cached this interface under this name. -/
def Request.Caches (r : Request ρ) (name : Str) (ptr : InterfacePtr) : Prop :=
  r.name = name ∧ r.cache = true ∧ r.interface = some ptr

/-- How a request is answered, behind `earlier` ones, by a module in `image` that exposes these
    functions and began with `program`. -/
structure Request.AnsweredBy (image : Nat) (exposed : Str → Option (InstantiateFunc ρ))
    (program : ρ) (earlier : List (Request ρ)) (r : Request ρ) : Prop where
  /-- A name that was cached gives the same interface, and the module is left alone. -/
  cached : ∀ r₀ ∈ earlier, ∀ ptr, r₀.Caches r.name ptr →
    r.interface = some ptr ∧ r.instantiated = false ∧ r.program = programBehind program earlier
  /-- Otherwise the function of the name is called, in the state the module was left in. -/
  known : (∀ r₀ ∈ earlier, ∀ ptr, ¬ r₀.Caches r.name ptr) →
    ∀ f, exposed (cStr r.name) = some f → cStr r.name ≠ [] →
      r.interface = (f (programBehind program earlier)).1.map (InterfacePtr.mk (some image)) ∧
        r.instantiated = true ∧ r.program = (f (programBehind program earlier)).2
  /-- Nothing comes of a name that is not exposed. -/
  unknown : (∀ r₀ ∈ earlier, ∀ ptr, ¬ r₀.Caches r.name ptr) →
    (exposed (cStr r.name) = none ∨ cStr r.name = []) →
      r.interface = none ∧ r.instantiated = false ∧ r.program = programBehind program earlier

namespace Client

def start (image : Nat) (exposed : List (Str × InstantiateFunc ρ)) (program : ρ) : Client ρ where
  wrapper := { ModuleWrapper.new [] with handle := some image }
  list := registered exposed
  program := program
  requests := []

/-- `get_interface(name, cache)`: the module is asked for a name that is not in the cache. -/
def getInterface (s : Client ρ) (name : Str) (cache : Bool) : Client ρ :=
  match s.wrapper.interfaces.lookup name with
  | some _ =>
    let (interface, wrapper) := s.wrapper.getInterface name cache none
    { s with wrapper, requests := s.requests ++ [⟨name, cache, interface, false, s.program⟩] }
  | none =>
    let ((interface, status), program) := createInterface s.list (some (cStr name)) true s.program
    let factory := some ⟨interface, status.getD .failed⟩
    let (interface, wrapper) := s.wrapper.getInterface name cache factory
    let instantiated := cStr name ≠ [] ∧ (s.list.lookup (cStr name)).isSome
    { s with
      wrapper
      program
      requests := s.requests ++ [⟨name, cache, interface, decide instantiated, program⟩] }

def run (s : Client ρ) (calls : List (Str × Bool)) : Client ρ :=
  calls.foldl (fun s call => s.getInterface call.1 call.2) s

/-- The last registration of a name. -/
def exposes (exposed : List (Str × InstantiateFunc ρ)) (name : Str) :
    Option (InstantiateFunc ρ) :=
  (exposed.reverse.find? (·.1 = name)).map Prod.snd

end Client

/-- The cache holds what the requests have put there, and every request was answered. -/
structure ClientInv (image : Nat) (exposed : Str → Option (InstantiateFunc ρ)) (program : ρ)
    (s : Client ρ) : Prop where
  list : ∀ name, s.list.lookup name = exposed name
  handle : s.wrapper.handle = some image
  state : s.program = programBehind program s.requests
  cache : ∀ name ptr, s.wrapper.interfaces.lookup name = some ptr ↔
    ∃ r ∈ s.requests, r.Caches name ptr
  answered : ∀ u r v, s.requests = u ++ r :: v → r.AnsweredBy image exposed program u

open Client

section registry

/-! ## The registrations -/

theorem lookup_foldl_register (exposed : List (Str × InstantiateFunc ρ)) (list : RegistryList ρ)
    (name : Str) :
    (exposed.foldl InterfaceRegistry.register list).lookup name =
      (exposes exposed name).or (list.lookup name) := by
  induction exposed using List.reverseRecOn with
  | nil => rfl
  | append_singleton exposed last ih =>
    obtain ⟨name', instantiateFunc⟩ := last
    rw [List.foldl_concat, InterfaceRegistry.register, exposes, List.reverse_concat,
      List.find?_cons]
    by_cases hname : name' = name
    · subst hname
      simp [AList.lookup_insert]
    · have hne : name ≠ name' := fun heq => hname heq.symm
      rw [AList.lookup_insert_ne hne, ih]
      simp [hname, exposes]

/-- The last registration of a name counts. -/
theorem lookup_registered (exposed : List (Str × InstantiateFunc ρ)) (name : Str) :
    (registered exposed).lookup name = exposes exposed name := by
  rw [registered, lookup_foldl_register, AList.lookup_empty, Option.or_none]

theorem exposes_eq_some_iff {exposed : List (Str × InstantiateFunc ρ)}
    (hnodup : (exposed.map Prod.fst).Nodup) {name : Str} {f : InstantiateFunc ρ} :
    exposes exposed name = some f ↔ (name, f) ∈ exposed := by
  unfold exposes
  rw [Option.map_eq_some_iff]
  constructor
  · rintro ⟨⟨name', f'⟩, hfind, rfl⟩
    obtain rfl : name' = name := by simpa using List.find?_some hfind
    exact List.mem_reverse.mp (List.mem_of_find?_eq_some hfind)
  · intro hmem
    cases hfind : exposed.reverse.find? (·.1 = name) with
    | none =>
      have hnone := List.find?_eq_none.mp hfind (name, f) (List.mem_reverse.mpr hmem)
      simp at hnone
    | some entry =>
      have hname : entry.1 = name := by simpa using List.find?_some hfind
      have hentry := List.mem_reverse.mp (List.mem_of_find?_eq_some hfind)
      have hsame : entry = (name, f) := List.inj_on_of_nodup_map hnodup hentry hmem hname
      exact ⟨entry, rfl, by rw [hsame]⟩

/-- Where no name is registered twice, the order does not matter. -/
theorem exposes_perm {exposed exposed' : List (Str × InstantiateFunc ρ)}
    (hperm : exposed.Perm exposed') (hnodup : (exposed.map Prod.fst).Nodup) (name : Str) :
    exposes exposed' name = exposes exposed name := by
  have hnodup' : (exposed'.map Prod.fst).Nodup := (hperm.map Prod.fst).nodup_iff.mp hnodup
  apply Option.ext
  intro f
  rw [exposes_eq_some_iff hnodup', exposes_eq_some_iff hnodup, hperm.mem_iff]

/-! ## One call -/

variable {s s' : Client ρ} {name : Str} {cache : Bool}

/-- What `CreateInterface` answers for a name, if it is one. -/
def answer (list : RegistryList ρ) (name : Str) (program : ρ) : Option Nat × ρ :=
  match if name = [] then none else list.lookup name with
  | some instantiateFunc => instantiateFunc program
  | none => (none, program)

theorem createInterface_eq (list : RegistryList ρ) (name : Str) (program : ρ) :
    createInterface list (some name) true program =
      (((answer list name program).1,
        some (if (answer list name program).1.isNone then .failed else .succeeded)),
        (answer list name program).2) := by
  cases name with
  | nil => rfl
  | cons c cs => rfl

/-- A name in the cache is handed out, and the module is not asked. -/
theorem getInterface_cached {ptr : InterfacePtr}
    (hlookup : s.wrapper.interfaces.lookup name = some ptr) :
    s.getInterface name cache =
      { s with requests := s.requests ++ [⟨name, cache, some ptr, false, s.program⟩] } := by
  unfold getInterface ModuleWrapper.getInterface
  rw [hlookup]

/-- Otherwise the module answers, and its answer is cached where that is asked for. -/
theorem getInterface_asked (hlookup : s.wrapper.interfaces.lookup name = none) :
    s.getInterface name cache =
      let interface := (answer s.list (cStr name) s.program).1.map
        fun address => InterfacePtr.mk s.wrapper.handle address
      { s with
        wrapper := { s.wrapper with
          interfaces := (if cache then (interface.map (name, ·)).toList else []) ++
            s.wrapper.interfaces }
        program := (answer s.list (cStr name) s.program).2
        requests := s.requests ++ [⟨name, cache, interface,
          decide (cStr name ≠ [] ∧ (s.list.lookup (cStr name)).isSome),
          (answer s.list (cStr name) s.program).2⟩] } := by
  unfold getInterface ModuleWrapper.getInterface
  rw [hlookup, createInterface_eq]
  cases hanswer : (answer s.list (cStr name) s.program).1 with
  | none => cases cache <;> simp
  | some address => cases cache <;> simp

variable {image : Nat} {exposed : Str → Option (InstantiateFunc ρ)} {program : ρ}

theorem programBehind_concat (program : ρ) (requests : List (Request ρ)) (r : Request ρ) :
    programBehind program (requests ++ [r]) = r.program := by
  rw [programBehind, List.getLast?_concat]
  rfl

/-- One more request at the end. -/
theorem answered_concat {requests : List (Request ρ)} {last : Request ρ}
    (h : ∀ u r v, requests = u ++ r :: v → r.AnsweredBy image exposed program u)
    (hlast : last.AnsweredBy image exposed program requests) :
    ∀ u r v, requests ++ [last] = u ++ r :: v → r.AnsweredBy image exposed program u := by
  intro u r v heq
  rcases List.eq_nil_or_concat v with rfl | ⟨v, r', rfl⟩
  · obtain ⟨rfl, hr⟩ := List.append_inj' heq rfl
    obtain rfl := List.singleton_inj.mp hr
    exact hlast
  · rw [List.concat_eq_append, ← List.cons_append, ← List.append_assoc] at heq
    exact h u r v (List.append_inj' heq rfl).1

theorem exists_caches_concat {requests : List (Request ρ)} {last : Request ρ} {name : Str}
    {ptr : InterfacePtr} : (∃ r ∈ requests ++ [last], r.Caches name ptr) ↔
      (∃ r ∈ requests, r.Caches name ptr) ∨ last.Caches name ptr := by
  simp [or_and_right, exists_or]

theorem clientInv_cached (h : ClientInv image exposed program s) {ptr : InterfacePtr}
    (hlookup : s.wrapper.interfaces.lookup name = some ptr) :
    ClientInv image exposed program (s.getInterface name cache) := by
  rw [getInterface_cached hlookup]
  have hcaches := (h.cache name ptr).mp hlookup
  refine ⟨h.list, h.handle, ?_, fun name' ptr' => ?_, answered_concat h.answered ⟨?_, ?_, ?_⟩⟩
  · dsimp only
    rw [programBehind_concat]
  · rw [exists_caches_concat, ← h.cache name' ptr']
    refine (or_iff_left_of_imp ?_).symm
    rintro ⟨rfl, -, hptr⟩
    exact hlookup.trans hptr
  · intro r₀ hr₀ ptr' hcaches'
    have hheld := (h.cache name ptr').mpr ⟨r₀, hr₀, hcaches'⟩
    exact ⟨hlookup.symm.trans hheld, rfl, h.state⟩
  · intro hnone
    obtain ⟨r₀, hr₀, hcaches⟩ := hcaches
    exact absurd hcaches (hnone r₀ hr₀ ptr)
  · intro hnone
    obtain ⟨r₀, hr₀, hcaches⟩ := hcaches
    exact absurd hcaches (hnone r₀ hr₀ ptr)

/-- The cache behind an answer. -/
theorem lookup_answered {interfaces : List (Str × InterfacePtr)}
    (hlookup : interfaces.lookup name = none) (cache : Bool) (interface : Option InterfacePtr)
    (name' : Str) :
    ((if cache then (interface.map (name, ·)).toList else []) ++ interfaces).lookup name' =
      if name' = name then (if cache then interface else none) else interfaces.lookup name' := by
  by_cases hname : name' = name
  · subst hname
    cases cache <;> cases interface <;> simp [hlookup]
  · have hbeq : (name' == name) = false := by simpa using hname
    cases cache <;> cases interface <;> simp [hname, hbeq, List.lookup_cons]

theorem clientInv_asked (h : ClientInv image exposed program s)
    (hlookup : s.wrapper.interfaces.lookup name = none) :
    ClientInv image exposed program (s.getInterface name cache) := by
  rw [getInterface_asked hlookup]
  refine ⟨h.list, h.handle, ?_, fun name' ptr => ?_, answered_concat h.answered ⟨?_, ?_, ?_⟩⟩
  · dsimp only
    rw [programBehind_concat]
  · dsimp only
    rw [exists_caches_concat, lookup_answered hlookup]
    by_cases hname : name' = name
    · subst hname
      have hnone : ¬ ∃ r ∈ s.requests, r.Caches name' ptr := fun hr =>
        absurd (hlookup.symm.trans ((h.cache name' ptr).mpr hr)) (by simp)
      rw [if_pos rfl, or_iff_right hnone, Request.Caches]
      cases cache <;> simp
    · rw [if_neg hname, h.cache name' ptr]
      refine (or_iff_left fun hcaches => ?_).symm
      exact hname hcaches.1.symm
  · intro r₀ hr₀ ptr hcaches
    have hheld := (h.cache name ptr).mpr ⟨r₀, hr₀, hcaches⟩
    exact absurd (hlookup.symm.trans hheld) (by simp)
  · intro _ f hf hname
    replace hf : exposed (cStr name) = some f := hf
    replace hname : cStr name ≠ [] := hname
    have hanswer : answer s.list (cStr name) s.program = f (programBehind program s.requests) := by
      rw [answer, h.list, if_neg hname, hf, h.state]
    dsimp only
    rw [hanswer, h.list, hf, h.handle]
    exact ⟨rfl, by simp [hname], rfl⟩
  · intro _ hunknown
    replace hunknown : exposed (cStr name) = none ∨ cStr name = [] := hunknown
    have hnone : (if cStr name = [] then none else exposed (cStr name)) = none := by
      rcases hunknown with hnone | hempty
      · rw [hnone, ite_self]
      · rw [if_pos hempty]
    have hanswer : answer s.list (cStr name) s.program =
        (none, programBehind program s.requests) := by
      rw [answer, h.list, hnone, h.state]
    dsimp only
    rw [hanswer, h.list]
    refine ⟨rfl, ?_, rfl⟩
    rcases hunknown with hnone | hempty
    · simp [hnone]
    · simp [hempty]

theorem clientInv_run (h : ClientInv image exposed program s) (calls : List (Str × Bool)) :
    ClientInv image exposed program (s.run calls) := by
  induction calls generalizing s with
  | nil => exact h
  | cons call calls ih =>
    refine ih ?_
    cases hlookup : s.wrapper.interfaces.lookup call.1 with
    | some ptr => exact clientInv_cached h hlookup
    | none => exact clientInv_asked h hlookup

theorem clientInv_start (image : Nat) (exposed : List (Str × InstantiateFunc ρ)) (program : ρ) :
    ClientInv image (exposes exposed) program (start image exposed program) where
  list := lookup_registered exposed
  handle := rfl
  state := rfl
  cache _ _ := iff_of_false (fun hlookup => nomatch hlookup) fun ⟨_, hr, _⟩ =>
    absurd hr List.not_mem_nil
  answered u r v heq := absurd heq.symm (by simp [start])

/-- Every call makes one request. -/
theorem map_requests_run (s : Client ρ) (calls : List (Str × Bool)) :
    (s.run calls).requests.map (fun r => (r.name, r.cache)) =
      s.requests.map (fun r => (r.name, r.cache)) ++ calls := by
  induction calls generalizing s with
  | nil => exact (List.append_nil _).symm
  | cons call calls ih =>
    refine (ih (s.getInterface call.1 call.2)).trans ?_
    cases hlookup : s.wrapper.interfaces.lookup call.1 with
    | some ptr => simp [getInterface_cached hlookup]
    | none => simp [getInterface_asked hlookup]

/-! ## Two orders of registration -/

/-- The clients differ in their lists at most, and these hold the same functions. -/
def Alike (s s' : Client ρ) : Prop :=
  s.wrapper = s'.wrapper ∧ s.program = s'.program ∧ s.requests = s'.requests ∧
    ∀ name, s.list.lookup name = s'.list.lookup name

theorem alike_getInterface (h : Alike s s') (name : Str) (cache : Bool) :
    Alike (s.getInterface name cache) (s'.getInterface name cache) := by
  obtain ⟨wrapper, list, program, requests⟩ := s
  obtain ⟨wrapper', list', program', requests'⟩ := s'
  obtain ⟨rfl, rfl, rfl, hlist⟩ := h
  have hanswer : answer list (cStr name) program = answer list' (cStr name) program := by
    unfold answer
    rw [hlist]
  cases hlookup : wrapper.interfaces.lookup name with
  | some ptr =>
    rw [getInterface_cached hlookup, getInterface_cached hlookup]
    exact ⟨rfl, rfl, rfl, hlist⟩
  | none =>
    rw [getInterface_asked hlookup, getInterface_asked hlookup]
    dsimp only
    rw [hanswer, hlist]
    exact ⟨rfl, rfl, rfl, hlist⟩

theorem alike_run (h : Alike s s') (calls : List (Str × Bool)) :
    Alike (s.run calls) (s'.run calls) := by
  induction calls generalizing s s' with
  | nil => exact h
  | cons call calls ih => exact ih (alike_getInterface h call.1 call.2)

end registry

/-- Whatever a module exposes, and whichever calls of `get_interface` follow each other on a
    wrapper that holds it: every call is answered, a name that was cached with the interface it
    was cached with, and any other by the last registration of the name, run in the state that
    the calls before have left the module in; and where no name is exposed twice, this does not
    depend on the order in which the static objects of the module were constructed. -/
theorem exposed_interfaces (image : Nat) (exposed : List (Str × InstantiateFunc ρ)) (program : ρ)
    (calls : List (Str × Bool)) :
    let requests := ((start image exposed program).run calls).requests
    requests.map (fun r => (r.name, r.cache)) = calls ∧
      (∀ u r v, requests = u ++ r :: v → r.AnsweredBy image (exposes exposed) program u) ∧
      ∀ exposed' : List (Str × InstantiateFunc ρ), exposed.Perm exposed' →
        (exposed.map Prod.fst).Nodup →
        ((start image exposed' program).run calls).requests = requests := by
  intro requests
  have hinv := clientInv_run (clientInv_start image exposed program) calls
  refine ⟨map_requests_run (start image exposed program) calls, hinv.answered, ?_⟩
  intro exposed' hperm hnodup
  have halike : Alike (start image exposed' program) (start image exposed program) := by
    refine ⟨rfl, rfl, rfl, fun name => ?_⟩
    exact (lookup_registered exposed' name).trans
      ((exposes_perm hperm hnodup name).trans (lookup_registered exposed name).symm)
  exact (alike_run halike calls).2.2.1

end RehldsM.Common
