import RehldsM.Common.ObjectList
import RehldsM.Lib.Zipper

/-
  `ObjectContainer` (libs/common/include/common/object_container.hpp): what the engine sees of an
  `ObjectList`. `remove_tail`, whose cursor is wrong, is not among it.

  Through this interface the list is a zipper: the objects in front of the cursor and those
  behind it. `contains` sets the cursor in front of the object it finds, so that `next` returns
  that one and then what stands behind it. The objects are the engine's: the list frees them only
  where `clear` is told to, and each one only once as long as the engine adds none that the list
  holds or has freed (`container_owns`).
-/

namespace RehldsM.Common

open Lib

universe u

variable {α : Type u}

/-! ## The list of a zipper -/

/-- The list that holds the objects of a zipper, with the cursor between its sides. -/
def ObjectList.ofZipper (z : Zipper α) : ObjectList α := ⟨z.toList, z.before.length⟩

@[simp]
theorem container_ofZipper (z : Zipper α) : (ObjectList.ofZipper z).container = z.toList := rfl

theorem add_ofZipper (z : Zipper α) (object : α) :
    (ObjectList.ofZipper z).add object = (true, .ofZipper ⟨z.before, z.after ++ [object]⟩) := by
  simp [ObjectList.add, ObjectList.addTail, ObjectList.ofZipper, Zipper.toList]

theorem first_ofZipper (z : Zipper α) :
    (ObjectList.ofZipper z).first = (z.toList.head?, .ofZipper z.home.right) := by
  unfold ObjectList.first ObjectList.ofZipper
  rw [Zipper.toList_right, Zipper.toList_home]
  cases h : z.toList <;> simp [Zipper.home, Zipper.right, h]

theorem next_ofZipper (z : Zipper α) :
    (ObjectList.ofZipper z).next = (z.after.head?, .ofZipper z.right) := by
  obtain ⟨before, after⟩ := z
  have hget : (before ++ after)[before.length]? = after.head? := by
    rw [List.getElem?_append_right (Nat.le_refl _), Nat.sub_self, List.head?_eq_getElem?]
  unfold ObjectList.next ObjectList.ofZipper
  rw [Zipper.toList_right]
  unfold Zipper.toList
  dsimp only
  rw [hget]
  cases after <;> simp [Zipper.right]

/-- The first occurrence goes, and the cursor stays between the same objects. -/
theorem remove_ofZipper [DecidableEq α] (z : Zipper α) (object : α) :
    (ObjectList.ofZipper z).remove object =
      (decide (object ∈ z.toList),
        .ofZipper (if object ∈ z.before then ⟨z.before.erase object, z.after⟩
          else ⟨z.before, z.after.erase object⟩)) := by
  obtain ⟨before, after⟩ := z
  have hlength : (before ++ after).idxOf object = (before ++ after).length ↔
      object ∉ before ++ after := List.idxOf_eq_length_iff
  unfold ObjectList.remove ObjectList.ofZipper Zipper.toList
  dsimp only
  rw [List.eraseIdx_idxOf_eq_erase]
  by_cases hbefore : object ∈ before
  · have hlt : (before ++ after).idxOf object < before.length := by
      rw [List.idxOf_append_of_mem hbefore]
      exact List.idxOf_lt_length_iff.mpr hbefore
    have hmem : object ∈ before ++ after := List.mem_append_left _ hbefore
    rw [if_neg fun h => hlength.mp h hmem, if_pos hbefore,
      if_pos ⟨Nat.zero_lt_of_lt hlt, hlt⟩, List.erase_append_left _ hbefore,
      List.length_erase_of_mem hbefore, decide_eq_true hmem]
  · have hge : ¬ (before ++ after).idxOf object < before.length := by
      rw [List.idxOf_append_of_notMem hbefore]
      omega
    by_cases hafter : object ∈ after
    · have hmem : object ∈ before ++ after := List.mem_append_right _ hafter
      rw [if_neg fun h => hlength.mp h hmem, if_neg hbefore, if_neg fun h => hge h.2,
        List.erase_append_right _ hbefore, decide_eq_true hmem]
    · have hmem : object ∉ before ++ after := by simp [hbefore, hafter]
      rw [if_pos (hlength.mpr hmem), if_neg hbefore, List.erase_of_not_mem hafter,
        decide_eq_false hmem]

theorem toList_remove [DecidableEq α] (z : Zipper α) (object : α) :
    (if object ∈ z.before then ⟨z.before.erase object, z.after⟩
      else ⟨z.before, z.after.erase object⟩ : Zipper α).toList = z.toList.erase object := by
  obtain ⟨before, after⟩ := z
  dsimp only [Zipper.toList]
  split
  · exact (List.erase_append_left after ‹_›).symm
  · exact (List.erase_append_right after ‹_›).symm

theorem idxOf_eq_length_takeWhile [DecidableEq α] (object : α) (l : List α) :
    l.idxOf object = (l.takeWhile (· ≠ object)).length := by
  induction l with
  | nil => rfl
  | cons object' l ih => by_cases h : object' = object <;> simp [h, ih]

/-- The cursor goes in front of the first occurrence. -/
theorem contains_ofZipper [DecidableEq α] (z : Zipper α) (object : α) :
    (ObjectList.ofZipper z).contains object =
      (decide (object ∈ z.toList),
        .ofZipper (if object ∈ z.toList then
          ⟨z.toList.takeWhile (· ≠ object), z.toList.dropWhile (· ≠ object)⟩ else z)) := by
  have hlength : z.toList.idxOf object = z.toList.length ↔ object ∉ z.toList :=
    List.idxOf_eq_length_iff
  unfold ObjectList.contains ObjectList.ofZipper
  dsimp only
  by_cases hmem : object ∈ z.toList
  · rw [if_neg fun h => hlength.mp h hmem, if_pos hmem, decide_eq_true hmem,
      idxOf_eq_length_takeWhile]
    simp [Zipper.toList]
  · rw [if_pos (hlength.mpr hmem), if_neg hmem, decide_eq_false hmem]

/-! ## The calls of the engine -/

/-- A call through `ObjectContainer`. -/
inductive ContainerCall (α : Type u) where
  | init
  | add (object : α)
  | remove (object : α)
  | clear (freeElementsMemory : Bool)
  | first
  | next
  | size
  | contains (object : α)
  | empty

/-- What a call through it returns. -/
inductive ContainerReply (α : Type u) where
  | done
  | bool (b : Bool)
  | object (o : Option α)
  | size (n : Nat)
deriving DecidableEq

section calls

variable [DecidableEq α]

def ObjectList.containerCall (l : ObjectList α) :
    ContainerCall α → ContainerReply α × ObjectList α
  | .init => (.done, l.init)
  | .add object => (l.add object).map .bool id
  | .remove object => (l.remove object).map .bool id
  | .clear freeElementsMemory => (.done, (l.clear freeElementsMemory).2)
  | .first => l.first.map .object id
  | .next => l.next.map .object id
  | .size => (.size l.size, l)
  | .contains object => (l.contains object).map .bool id
  | .empty => (.bool l.empty, l)

/-- The call on a zipper, with what it is meant to return. -/
def meantContainerCall (z : Zipper α) : ContainerCall α → ContainerReply α × Zipper α
  | .init | .clear _ => (.done, ⟨[], []⟩)
  | .add object => (.bool true, ⟨z.before, z.after ++ [object]⟩)
  | .remove object =>
    (.bool (decide (object ∈ z.toList)),
      if object ∈ z.before then ⟨z.before.erase object, z.after⟩
      else ⟨z.before, z.after.erase object⟩)
  | .first => (.object z.toList.head?, z.home.right)
  | .next => (.object z.after.head?, z.right)
  | .size => (.size z.toList.length, z)
  | .contains object =>
    (.bool (decide (object ∈ z.toList)),
      if object ∈ z.toList then ⟨z.toList.takeWhile (· ≠ object), z.toList.dropWhile (· ≠ object)⟩
      else z)
  | .empty => (.bool z.toList.isEmpty, z)

namespace ContainerCall

/-- The objects that the call stores. -/
def stores : ContainerCall α → List α
  | .add object => [object]
  | .init | .remove _ | .clear _ | .first | .next | .size | .contains _ | .empty => []

/-- The objects that it frees. -/
def frees (l : ObjectList α) : ContainerCall α → List α
  | .clear freeElementsMemory => (l.clear freeElementsMemory).1
  | .init | .add _ | .remove _ | .first | .next | .size | .contains _ | .empty => []

/-- The objects that leave the list without being freed. -/
def releases (l : ObjectList α) : ContainerCall α → List α
  | .init | .clear false => l.container
  | .remove object => if object ∈ l.container then [object] else []
  | .clear true | .add _ | .first | .next | .size | .contains _ | .empty => []

end ContainerCall

/-- A list side by side with the zipper, what the two have returned, and what has become of the
    objects. -/
structure ContainerRun (α : Type u) where
  list : ObjectList α
  replies : List (ContainerReply α)
  meant : Zipper α
  meantReplies : List (ContainerReply α)
  stored : List α
  freed : List α
  released : List α

/-- The list as constructed. -/
def ContainerRun.start : ContainerRun α := ⟨.new, [], ⟨[], []⟩, [], [], [], []⟩

def containerStep (s : ContainerRun α) (call : ContainerCall α) : ContainerRun α where
  list := (s.list.containerCall call).2
  replies := s.replies ++ [(s.list.containerCall call).1]
  meant := (meantContainerCall s.meant call).2
  meantReplies := s.meantReplies ++ [(meantContainerCall s.meant call).1]
  stored := s.stored ++ call.stores
  freed := s.freed ++ call.frees s.list
  released := s.released ++ call.releases s.list

/-- The list is that of the zipper and has returned the same; and of the objects that were stored
    each is in the list, freed or released. -/
structure Keeps (s : ContainerRun α) : Prop where
  list_eq : s.list = .ofZipper s.meant
  replies_eq : s.replies = s.meantReplies
  stored_perm : s.stored.Perm (s.list.container ++ (s.freed ++ s.released))

/-- No object is twice in the list, none that was freed is in it, and none was freed twice. -/
def Owns (s : ContainerRun α) : Prop := (s.list.container ++ s.freed).Nodup

/-- The engine adds no object that the list holds or has freed. -/
def AddsNew (s : ContainerRun α) : ContainerCall α → Prop
  | .add object => object ∉ s.list.container ∧ object ∉ s.freed
  | .init | .remove _ | .clear _ | .first | .next | .size | .contains _ | .empty => True

/-- The call returns no object that was freed. -/
def ReturnsLive (s : ContainerRun α) (call : ContainerCall α) : Prop :=
  ∀ object, (s.list.containerCall call).1 = .object (some object) → object ∉ s.freed

/-! ## One call -/

/-- Every call returns what it is meant to, and does to the list what it does to the zipper. -/
theorem containerCall_ofZipper (z : Zipper α) (call : ContainerCall α) :
    (ObjectList.ofZipper z).containerCall call =
      ((meantContainerCall z call).1, .ofZipper (meantContainerCall z call).2) := by
  cases call with
  | init => rfl
  | add object => exact congrArg (Prod.map ContainerReply.bool id) (add_ofZipper z object)
  | remove object => exact congrArg (Prod.map ContainerReply.bool id) (remove_ofZipper z object)
  | clear freeElementsMemory => rfl
  | first => exact congrArg (Prod.map ContainerReply.object id) (first_ofZipper z)
  | next => exact congrArg (Prod.map ContainerReply.object id) (next_ofZipper z)
  | size => rfl
  | contains object => exact congrArg (Prod.map ContainerReply.bool id) (contains_ofZipper z object)
  | empty => rfl

/-- What a call stores or finds in the list is afterwards in it, freed or released. -/
theorem perm_containerCall (z : Zipper α) (call : ContainerCall α) :
    (z.toList ++ call.stores).Perm ((meantContainerCall z call).2.toList ++
      (call.frees (.ofZipper z) ++ call.releases (.ofZipper z))) := by
  cases call with
  | init => simp [meantContainerCall, ContainerCall.stores, ContainerCall.frees,
      ContainerCall.releases, ObjectList.ofZipper, Zipper.toList]
  | add object => simp [meantContainerCall, ContainerCall.stores, ContainerCall.frees,
      ContainerCall.releases, Zipper.toList]
  | remove object =>
    simp only [meantContainerCall, ContainerCall.stores, ContainerCall.frees,
      ContainerCall.releases, List.append_nil, List.nil_append]
    rw [toList_remove]
    by_cases hmem : object ∈ (ObjectList.ofZipper z).container
    · rw [if_pos hmem]
      exact (List.perm_cons_erase hmem).trans (List.perm_append_singleton object _).symm
    · have hnot : object ∉ z.toList := hmem
      rw [if_neg hmem, List.append_nil, List.erase_of_not_mem hnot]
  | clear freeElementsMemory =>
    cases freeElementsMemory <;>
      simp [meantContainerCall, ContainerCall.stores, ContainerCall.frees,
        ContainerCall.releases, ObjectList.clear, ObjectList.ofZipper, Zipper.toList]
  | first =>
    simp only [meantContainerCall, ContainerCall.stores, ContainerCall.frees,
      ContainerCall.releases, List.append_nil, Zipper.toList_right, Zipper.toList_home]
    exact .rfl
  | next =>
    simp only [meantContainerCall, ContainerCall.stores, ContainerCall.frees,
      ContainerCall.releases, List.append_nil, Zipper.toList_right]
    exact .rfl
  | contains object =>
    simp only [meantContainerCall, ContainerCall.stores, ContainerCall.frees,
      ContainerCall.releases, List.append_nil]
    split
    · simp [Zipper.toList]
    · exact .rfl
  | size | empty => exact .rfl

variable {s : ContainerRun α}

theorem count_step (h : Keeps s) (call : ContainerCall α) (object : α) :
    s.list.container.count object + call.stores.count object =
      (containerStep s call).list.container.count object +
        ((call.frees s.list).count object + (call.releases s.list).count object) := by
  have hcount := (perm_containerCall s.meant call).count_eq object
  have hlist : (containerStep s call).list = .ofZipper (meantContainerCall s.meant call).2 := by
    rw [containerStep, h.list_eq, containerCall_ofZipper]
  rw [hlist, h.list_eq]
  simpa only [container_ofZipper, List.count_append] using hcount

theorem keeps_step (h : Keeps s) (call : ContainerCall α) : Keeps (containerStep s call) := by
  have hcount := count_step h call
  obtain ⟨hlist, hreplies, hstored⟩ := h
  have hcall := containerCall_ofZipper s.meant call
  rw [← hlist] at hcall
  constructor
  · exact congrArg Prod.snd hcall
  · show s.replies ++ _ = s.meantReplies ++ _
    rw [hreplies, hcall]
  · rw [List.perm_iff_count] at hstored ⊢
    intro object
    have hobject := hstored object
    have hcalled := hcount object
    simp only [containerStep, List.count_append] at hobject hcalled ⊢
    omega

omit [DecidableEq α] in
/-- An object that the engine adds is not there yet. -/
theorem nodup_stores (h : Owns s) {call : ContainerCall α} (hnew : AddsNew s call) :
    (s.list.container ++ s.freed ++ call.stores).Nodup := by
  cases call with
  | add object =>
    refine List.nodup_append.mpr ⟨h, List.nodup_singleton object, ?_⟩
    intro object' hmem object'' hnew'
    obtain rfl := List.mem_singleton.mp hnew'
    rintro rfl
    exact (List.mem_append.mp hmem).elim hnew.1 hnew.2
  | init | remove object | clear freeElementsMemory | first | next | size | contains object
  | empty =>
    rw [ContainerCall.stores, List.append_nil]
    exact h

theorem owns_step (hkeeps : Keeps s) (h : Owns s) {call : ContainerCall α}
    (hnew : AddsNew s call) : Owns (containerStep s call) := by
  have hstores := nodup_stores h hnew
  rw [Owns, List.nodup_iff_count_le_one]
  rw [List.nodup_iff_count_le_one] at hstores
  intro object
  have hobject := hstores object
  have hcalled := count_step hkeeps call object
  simp only [containerStep, List.count_append] at hobject hcalled ⊢
  omega

theorem not_owns_step {call : ContainerCall α} (hnew : ¬ AddsNew s call) :
    ¬ Owns (containerStep s call) := by
  cases call with
  | add object =>
    intro howns
    have hcount := List.nodup_iff_count_le_one.mp howns object
    have hpos : 0 < (s.list.container ++ s.freed).count object := by
      rw [List.count_pos_iff, List.mem_append]
      by_contra hmem
      exact hnew (not_or.mp hmem)
    simp only [containerStep, ObjectList.containerCall, ObjectList.add, ObjectList.addTail,
      ContainerCall.frees, Prod.map, id_eq, List.append_nil, List.count_append,
      List.count_singleton_self] at hcount hpos
    omega
  | init | remove object | clear freeElementsMemory | first | next | size | contains object
  | empty => exact absurd trivial hnew

/-- What a call returns is in the list. -/
theorem mem_of_returned {z : Zipper α} {call : ContainerCall α} {object : α}
    (h : (meantContainerCall z call).1 = .object (some object)) : object ∈ z.toList := by
  cases call with
  | first => exact List.mem_of_head? (ContainerReply.object.inj h)
  | next => exact List.mem_append_right _ (List.mem_of_head? (ContainerReply.object.inj h))
  | init | add object | remove object | clear freeElementsMemory | size | contains object
  | empty => cases h

theorem returnsLive_of_owns (hkeeps : Keeps s) (howns : Owns s) (call : ContainerCall α) :
    ReturnsLive s call := by
  intro object hreturned hfreed
  rw [hkeeps.list_eq, containerCall_ofZipper] at hreturned
  have hmem : object ∈ s.list.container := hkeeps.list_eq ▸ mem_of_returned hreturned
  exact (List.nodup_append.mp howns).2.2 object hmem object hfreed rfl

omit [DecidableEq α] in
theorem keeps_start : Keeps (ContainerRun.start : ContainerRun α) := ⟨rfl, rfl, .nil⟩

end calls

/-- Whatever the engine calls: the list returns what the zipper does, and an object that was
    stored is in the list, or was freed, or has left it and is the engine's. No object that was
    freed is in the list, is freed again or is returned, exactly as long as the engine adds none
    that the list holds or has freed. -/
theorem container_owns [DecidableEq α] (calls : List (ContainerCall α)) :
    let start : ContainerRun α := .start
    let tr := trace containerStep start calls
    Always Keeps start tr ∧
      (Always Owns start tr ↔ Meets AddsNew start tr) ∧
      (Always Owns start tr → Meets ReturnsLive start tr) := by
  intro start tr
  have hrun := isRun_trace containerStep start calls
  have hkeeps : Always Keeps start tr := by
    refine always_of_step (fun s call s' h hstep => ?_) keeps_start hrun
    rw [hstep]
    exact keeps_step h call
  refine ⟨hkeeps, ?_, fun howns => ?_⟩
  · have hand : Always (fun s => Keeps s ∧ Owns s) start tr ↔ Meets AddsNew start tr := by
      refine always_iff_meets (fun s h => h) ?_ ?_ ⟨keeps_start, List.nodup_nil⟩ hrun
      · rintro s call s' ⟨hkeeps, howns⟩ hnew hstep
        rw [hstep]
        exact ⟨keeps_step hkeeps call, owns_step hkeeps howns hnew⟩
      · rintro s call s' - hnew hstep ⟨-, howns⟩
        rw [hstep] at howns
        exact not_owns_step hnew howns
    exact ⟨fun howns => hand.mp (hkeeps.and howns),
      fun hmeets => (hand.mpr hmeets).mono fun s h => h.2⟩
  · exact (hkeeps.and howns).meets fun s h => returnsLive_of_owns h.1 h.2

end RehldsM.Common
