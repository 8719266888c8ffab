import RehldsM.Lib.Run
import RehldsM.Util.Strings

/-
  `ModuleWrapper` (libs/common/include/common/module_wrapper.hpp,
  libs/common/src/common/module_wrapper.cpp) over the dynamic loader.

  Every image the loader maps has a number of its own. Of a pointer only its origin counts: the
  image whose `CreateInterface` has returned it, or the global scope of the process, where
  `dlsym` looks when the handle is null. What `dlopen`, `dlclose` and the factory answer is up to
  them, and is part of the event.

  `get_interface` does not ask whether the module is loaded. So a call in front of the first
  load, or behind an unload, can hand out an interface of whatever `CreateInterface` the global
  scope holds. `hands_out_own_iff` says that this is the only way for a foreign or stale pointer
  to get out.
-/

namespace RehldsM.Common

open Lib Util

inductive CreateInterfaceStatus where
  | succeeded
  | failed
deriving DecidableEq

/-- A pointer a factory has returned: the image of the factory (`none`: the global scope). -/
structure InterfacePtr where
  origin : Option Nat
  address : Nat
deriving DecidableEq

/-- What a `CreateInterface` function returns: null or an address, and the status. -/
structure FactoryAnswer where
  interface : Option Nat
  status : CreateInterfaceStatus
deriving DecidableEq

structure ModuleWrapper where
  name : Str
  handle : Option Nat
  interfaces : List (Str × InterfacePtr)
deriving DecidableEq

/-- The loader: the image that is mapped for the wrapper, and how many there were so far. -/
structure Loader where
  image : Option Nat
  images : Nat
deriving DecidableEq

namespace Loader

/-- `dlopen`, which may fail. -/
def load (loader : Loader) (opens : Bool) : Option Nat × Loader :=
  if opens then
    (some loader.images, { image := some loader.images, images := loader.images + 1 })
  else (none, loader)

/-- `dlclose`, which may fail. -/
def unload (loader : Loader) (closes : Bool) : Bool × Loader :=
  (closes, if closes then { loader with image := none } else loader)

end Loader

namespace ModuleWrapper

def new (name : Str) : ModuleWrapper where
  name := name
  handle := none
  interfaces := []

def isLoaded (w : ModuleWrapper) : Bool := w.handle.isSome

def load (w : ModuleWrapper) (loader : Loader) (opens : Bool) : Bool × ModuleWrapper × Loader :=
  if w.isLoaded then (true, w, loader)
  else
    let (handle, loader) := loader.load opens
    let w := { w with handle }
    if w.isLoaded then (true, { w with interfaces := [] }, loader) else (false, w, loader)

def unload (w : ModuleWrapper) (loader : Loader) (closes : Bool) : ModuleWrapper × Loader :=
  if w.isLoaded then
    let (unloaded, loader) := loader.unload closes
    if unloaded then ({ w with interfaces := [], handle := none }, loader) else (w, loader)
  else (w, loader)

/-- `get_interface`. `factory` is what the `CreateInterface` function answers that
    `get_interface_factory` finds for the handle, or `none` when there is no such function. -/
def getInterface (w : ModuleWrapper) (name : Str) (cache : Bool)
    (factory : Option FactoryAnswer) : Option InterfacePtr × ModuleWrapper :=
  match w.interfaces.lookup name with
  | some interface => (some interface, w)
  | none =>
    let status := (factory.map FactoryAnswer.status).getD .failed
    let interface := (factory.bind FactoryAnswer.interface).map fun address =>
      InterfacePtr.mk w.handle address
    match interface with
    | some ptr =>
      if cache ∧ status = .succeeded then
        (interface, { w with interfaces := (name, ptr) :: w.interfaces })
      else (interface, w)
    | none => (interface, w)

end ModuleWrapper

/-- A call on the wrapper, with what the system answers. -/
inductive ModuleCall where
  | load (opens : Bool)
  | unload (closes : Bool)
  | getInterface (name : Str) (cache : Bool) (factory : Option FactoryAnswer)

/-- The wrapper and the loader. `replies` are the returns of `get_interface`, each with the
    image that was mapped then. -/
structure Modules where
  wrapper : ModuleWrapper
  loader : Loader
  replies : List (Option Nat × Option InterfacePtr)

namespace Modules

def start (name : Str) : Modules := ⟨.new name, ⟨none, 0⟩, []⟩

def step (s : Modules) : ModuleCall → Modules
  | .load opens =>
    let (_, wrapper, loader) := s.wrapper.load s.loader opens
    { s with wrapper, loader }
  | .unload closes =>
    let (wrapper, loader) := s.wrapper.unload s.loader closes
    { s with wrapper, loader }
  | .getInterface name cache factory =>
    let (reply, wrapper) := s.wrapper.getInterface name cache factory
    { s with wrapper, replies := s.replies ++ [(s.loader.image, reply)] }

/-- Every pointer handed out came from the factory of the image mapped at the time; so none was
    handed out while there was none. -/
def HandsOutOwn (s : Modules) : Prop :=
  ∀ r ∈ s.replies, ∀ ptr, r.2 = some ptr → ∃ image, r.1 = some image ∧ ptr.origin = some image

/-- No interface is asked for while the wrapper is not loaded, unless the global scope has no
    `CreateInterface` or that one returns null. -/
def NoForeignFactory (s : Modules) : ModuleCall → Prop
  | .getInterface _ _ factory =>
    s.wrapper.isLoaded = false → factory.bind FactoryAnswer.interface = none
  | .load _ | .unload _ => True

instance (s : Modules) (call : ModuleCall) : Decidable (NoForeignFactory s call) := by
  cases call <;> unfold NoForeignFactory <;> infer_instance

/-- The wrapper and the loader agree, and the cache holds interfaces of the mapped image. -/
structure Coherent (s : Modules) : Prop where
  handle_eq : s.wrapper.handle = s.loader.image
  cache_own : ∀ entry ∈ s.wrapper.interfaces,
    ∃ image, s.loader.image = some image ∧ entry.2.origin = some image
  hands_out : s.HandsOutOwn

/-! ## One call -/

theorem coherent_start (name : Str) : (start name).Coherent where
  handle_eq := rfl
  cache_own := fun _ h => absurd h List.not_mem_nil
  hands_out := fun _ h => absurd h List.not_mem_nil

theorem coherent_load {s : Modules} (h : s.Coherent) (opens : Bool) :
    (s.step (.load opens)).Coherent := by
  unfold step ModuleWrapper.load
  dsimp only
  by_cases hloaded : s.wrapper.isLoaded = true
  · rw [if_pos hloaded]
    exact h
  · rw [if_neg hloaded]
    have hnull : s.wrapper.handle = none := by
      simpa [ModuleWrapper.isLoaded] using hloaded
    cases opens with
    | true => exact ⟨rfl, fun entry hentry => absurd hentry List.not_mem_nil, h.hands_out⟩
    | false => exact ⟨hnull.symm.trans h.handle_eq, h.cache_own, h.hands_out⟩

theorem coherent_unload {s : Modules} (h : s.Coherent) (closes : Bool) :
    (s.step (.unload closes)).Coherent := by
  unfold step ModuleWrapper.unload
  dsimp only
  by_cases hloaded : s.wrapper.isLoaded = true
  · rw [if_pos hloaded]
    cases closes with
    | true => exact ⟨rfl, fun entry hentry => absurd hentry List.not_mem_nil, h.hands_out⟩
    | false => exact h
  · rw [if_neg hloaded]
    exact h

/-- What `get_interface` can return, and what it leaves behind: a cached pointer, nothing, or a
    pointer of the factory its handle leads to. -/
theorem getInterface_cases (w : ModuleWrapper) (name : Str) (cache : Bool)
    (factory : Option FactoryAnswer) :
    (∃ ptr, (name, ptr) ∈ w.interfaces ∧ w.getInterface name cache factory = (some ptr, w)) ∨
      (w.interfaces.lookup name = none ∧ factory.bind FactoryAnswer.interface = none ∧
        w.getInterface name cache factory = (none, w)) ∨
      ∃ address, factory.bind FactoryAnswer.interface = some address ∧
        w.interfaces.lookup name = none ∧
        (w.getInterface name cache factory).1 = some ⟨w.handle, address⟩ ∧
        (w.getInterface name cache factory).2.handle = w.handle ∧
        ∀ entry ∈ (w.getInterface name cache factory).2.interfaces,
          entry ∈ w.interfaces ∨ entry = (name, ⟨w.handle, address⟩) := by
  unfold ModuleWrapper.getInterface
  cases hlookup : w.interfaces.lookup name with
  | some ptr =>
    obtain ⟨l₁, l₂, hsplit, -⟩ := List.lookup_eq_some_iff.mp hlookup
    exact Or.inl ⟨ptr, by simp [hsplit], rfl⟩
  | none =>
    right
    cases hinterface : factory.bind FactoryAnswer.interface with
    | none => exact Or.inl ⟨rfl, rfl, rfl⟩
    | some address =>
      refine Or.inr ⟨address, rfl, rfl, ?_⟩
      dsimp only [Option.map_some]
      split
      · exact ⟨rfl, rfl, fun entry hentry => (List.mem_cons.mp hentry).symm⟩
      · exact ⟨rfl, rfl, fun entry hentry => Or.inl hentry⟩

theorem step_getInterface (s : Modules) (name : Str) (cache : Bool)
    (factory : Option FactoryAnswer) :
    s.step (.getInterface name cache factory) =
      ⟨(s.wrapper.getInterface name cache factory).2, s.loader,
        s.replies ++ [(s.loader.image, (s.wrapper.getInterface name cache factory).1)]⟩ := rfl

theorem handsOutOwn_concat {s : Modules} (h : s.HandsOutOwn) {w : ModuleWrapper}
    {reply : Option InterfacePtr}
    (hreply : ∀ ptr, reply = some ptr → ∃ image, s.loader.image = some image ∧
      ptr.origin = some image) :
    HandsOutOwn ⟨w, s.loader, s.replies ++ [(s.loader.image, reply)]⟩ := by
  intro r hr
  rcases List.mem_append.mp hr with hr | hr
  · exact h r hr
  · obtain rfl := List.mem_singleton.mp hr
    exact hreply

theorem coherent_getInterface {s : Modules} (h : s.Coherent) {name : Str} {cache : Bool}
    {factory : Option FactoryAnswer}
    (hcall : NoForeignFactory s (.getInterface name cache factory)) :
    (s.step (.getInterface name cache factory)).Coherent := by
  rcases getInterface_cases s.wrapper name cache factory with
    ⟨ptr, hmem, heq⟩ | ⟨-, -, heq⟩ | ⟨address, hfactory, -, hreply, hhandle, hcache⟩
  · rw [step_getInterface, heq]
    refine ⟨h.handle_eq, h.cache_own, handsOutOwn_concat h.hands_out fun p hp => ?_⟩
    obtain rfl := Option.some.inj hp
    exact h.cache_own _ hmem
  · rw [step_getInterface, heq]
    exact ⟨h.handle_eq, h.cache_own, handsOutOwn_concat h.hands_out fun p hp => nomatch hp⟩
  · have hloaded : s.wrapper.isLoaded = true := by
      by_contra hnot
      have hnone := hcall (by simpa using hnot)
      rw [hfactory] at hnone
      exact absurd hnone (by simp)
    obtain ⟨image, himage⟩ := Option.isSome_iff_exists.mp hloaded
    have hown : ∃ i, s.loader.image = some i ∧
        (InterfacePtr.mk s.wrapper.handle address).origin = some i :=
      ⟨image, h.handle_eq ▸ himage, himage⟩
    refine ⟨hhandle.trans h.handle_eq, fun entry hentry => ?_, ?_⟩
    · rcases hcache entry hentry with hold | rfl
      · exact h.cache_own entry hold
      · exact hown
    · refine handsOutOwn_concat h.hands_out fun p hp => ?_
      obtain rfl := Option.some.inj (hp.symm.trans hreply)
      exact hown

theorem coherent_step {s : Modules} (h : s.Coherent) (call : ModuleCall)
    (hcall : NoForeignFactory s call) : (s.step call).Coherent := by
  cases call with
  | load opens => exact coherent_load h opens
  | unload closes => exact coherent_unload h closes
  | getInterface name cache factory => exact coherent_getInterface h hcall

/-- An answer of the global scope is handed out as it is. -/
theorem not_handsOutOwn_step {s : Modules} (h : s.Coherent) (call : ModuleCall)
    (hcall : ¬ NoForeignFactory s call) : ¬ (s.step call).HandsOutOwn := by
  cases call with
  | load opens => exact absurd trivial hcall
  | unload closes => exact absurd trivial hcall
  | getInterface name cache factory =>
    unfold NoForeignFactory at hcall
    push Not at hcall
    obtain ⟨hloaded, hfactory⟩ := hcall
    have hnull : s.wrapper.handle = none := by simpa [ModuleWrapper.isLoaded] using hloaded
    have himage : s.loader.image = none := h.handle_eq ▸ hnull
    have hsome : ∃ ptr, (s.wrapper.getInterface name cache factory).1 = some ptr := by
      rcases getInterface_cases s.wrapper name cache factory with
        ⟨ptr, -, heq⟩ | ⟨-, hnone, -⟩ | ⟨address, -, -, hreply, -⟩
      · exact ⟨ptr, by rw [heq]⟩
      · exact absurd hnone hfactory
      · exact ⟨_, hreply⟩
    obtain ⟨ptr, hptr⟩ := hsome
    intro hown
    obtain ⟨image, hheld, -⟩ := hown (s.loader.image, _)
      (List.mem_append_right _ (List.mem_singleton.mpr rfl)) ptr hptr
    rw [himage] at hheld
    exact absurd hheld (by simp)

/-! ## Runs -/

/-- In every run of calls, all pointers `get_interface` hands out are those of the module that
    is loaded, exactly when no call made without one is answered by the global scope. -/
theorem hands_out_own_iff (name : Str) (calls : List ModuleCall) :
    Always HandsOutOwn (start name) (trace step (start name) calls) ↔
      Meets NoForeignFactory (start name) (trace step (start name) calls) := by
  refine always_iff_meets (fun s h => h.hands_out) ?_ ?_ (coherent_start name)
    (isRun_trace _ _ _)
  · intro s call s' h hcall hstep
    rw [hstep]
    exact coherent_step h call hcall
  · intro s call s' h hcall hstep
    rw [hstep]
    exact not_handsOutOwn_step h call hcall

/-- In front of the first load the `CreateInterface` of the program itself answers. -/
def earlyCalls : List ModuleCall :=
  [.getInterface "VENGINE_DEDICATEDEXPORTS_API_VERSION001".toList true
    (some ⟨some 4096, .succeeded⟩)]

/-- A pointer is handed out although no module is loaded, and it is cached. -/
theorem unloaded_hands_out_foreign :
    (final (start []) (trace step (start []) earlyCalls)).replies =
        [(none, some ⟨none, 4096⟩)] ∧
      ¬ Always HandsOutOwn (start []) (trace step (start []) earlyCalls) := by
  have hreplies : (final (start []) (trace step (start []) earlyCalls)).replies =
      [(none, some ⟨none, 4096⟩)] := by decide
  refine ⟨hreplies, fun h => ?_⟩
  have hown : HandsOutOwn _ := h.final
  unfold HandsOutOwn at hown
  rw [hreplies] at hown
  obtain ⟨image, himage, -⟩ := hown _ List.mem_cons_self _ rfl
  exact absurd himage (by simp)

end Modules

end RehldsM.Common
