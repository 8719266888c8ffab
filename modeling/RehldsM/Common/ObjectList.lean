import Mathlib.Data.List.Basic
import RehldsM.Lib.Run
import RehldsM.Lib.Traversal

/-
  `ObjectList` (libs/common/src/common/object_list.cpp): a list whose `first()`/`next()`
  traversal is meant to go on while the list is changed.

  The cursor is the number of elements the traversal has left behind, and the list is compared
  with `Lib.Traversal`, which keeps the two sides apart. `remove_tail` adjusts the cursor one
  position too early: it moves it when the last element is still to come, and leaves it when
  the last element was visited. All other calls are right, so the traversal survives exactly
  the runs in which `remove_tail` is not called there (`traversal_survives_iff`).

  Objects are pointers of any type; `none` stands for the `nullptr` a call returns when there is
  no object.
-/

namespace RehldsM.Common

open Lib

universe u

variable {α : Type u}

structure ObjectList (α : Type u) where
  container : List α
  current : Nat
deriving DecidableEq

namespace ObjectList

def new : ObjectList α where
  container := []
  current := 0

/-- The list, and the objects whose memory is freed. -/
def clear (l : ObjectList α) (freeElementsMemory : Bool) : List α × ObjectList α :=
  (if freeElementsMemory then l.container else [], { container := [], current := 0 })

def init (l : ObjectList α) : ObjectList α := ({ l with current := 0 }.clear false).2

def addTail (l : ObjectList α) (object : α) : Bool × ObjectList α :=
  (true, { l with container := l.container ++ [object] })

def addHead (l : ObjectList α) (object : α) : Bool × ObjectList α :=
  (true,
    { container := object :: l.container
      current := if l.current ≠ 0 then l.current + 1 else l.current })

def add (l : ObjectList α) (object : α) : Bool × ObjectList α := l.addTail object

def remove [DecidableEq α] (l : ObjectList α) (object : α) : Bool × ObjectList α :=
  let it := l.container.idxOf object
  if it = l.container.length then (false, l)
  else
    (true,
      { container := l.container.eraseIdx it
        current := if l.current > 0 ∧ it < l.current then l.current - 1 else l.current })

def first (l : ObjectList α) : Option α × ObjectList α :=
  match l.container with
  | [] => (none, { l with current := 0 })
  | object :: _ => (some object, { l with current := 1 })

def next (l : ObjectList α) : Option α × ObjectList α :=
  match l.container[l.current]? with
  | none => (none, l)
  | some object => (some object, { l with current := l.current + 1 })

def size (l : ObjectList α) : Nat := l.container.length

def empty (l : ObjectList α) : Bool := l.container.isEmpty

/-- `contains` also moves the cursor, to the object it finds. -/
def contains [DecidableEq α] (l : ObjectList α) (object : α) : Bool × ObjectList α :=
  let it := l.container.idxOf object
  if it = l.container.length then (false, l) else (true, { l with current := it })

def removeHead (l : ObjectList α) : Option α × ObjectList α :=
  match l.container with
  | [] => (none, l)
  | object :: container =>
    (some object, { container, current := if l.current > 0 then l.current - 1 else l.current })

def removeTail (l : ObjectList α) : Option α × ObjectList α :=
  match l.container.getLast? with
  | none => (none, l)
  | some object =>
    (some object,
      { container := l.container.dropLast
        current :=
          if l.current > 0 ∧ l.container.length - 1 = l.current then l.current - 1
          else l.current })

end ObjectList

/-- A call on the list. -/
inductive ListCall (α : Type u) where
  | init
  | add (object : α)
  | addHead (object : α)
  | addTail (object : α)
  | remove (object : α)
  | removeHead
  | removeTail
  | clear (freeElementsMemory : Bool)
  | first
  | next

/-- What a call returns. -/
inductive ListReply (α : Type u) where
  | done
  | bool (b : Bool)
  | object (o : Option α)
deriving DecidableEq

section calls

variable [DecidableEq α]

def ObjectList.call (l : ObjectList α) : ListCall α → ListReply α × ObjectList α
  | .init => (.done, l.init)
  | .add object => (l.add object).map .bool id
  | .addHead object => (l.addHead object).map .bool id
  | .addTail object => (l.addTail object).map .bool id
  | .remove object => (l.remove object).map .bool id
  | .removeHead => l.removeHead.map .object id
  | .removeTail => l.removeTail.map .object id
  | .clear freeElementsMemory => (.done, (l.clear freeElementsMemory).2)
  | .first => l.first.map .object id
  | .next => l.next.map .object id

/-- The call on a traversal, with what it is meant to return. -/
def meantCall (t : Traversal α) : ListCall α → ListReply α × Traversal α
  | .init | .clear _ => (.done, t.clear)
  | .add object | .addTail object => (.bool true, t.addTail object)
  | .addHead object => (.bool true, t.addHead object)
  | .remove object => (.bool (decide (object ∈ t.objects)), t.remove object)
  | .removeHead => (.object t.objects.head?, t.removeHead)
  | .removeTail => (.object t.objects.getLast?, t.removeTail)
  | .first => t.first.map .object id
  | .next => t.next.map .object id

/-- A list side by side with the traversal, and what the two have returned. -/
structure ListRun (α : Type u) where
  list : ObjectList α
  replies : List (ListReply α)
  meant : Traversal α
  meantReplies : List (ListReply α)

/-- The list as constructed. -/
def ListRun.start : ListRun α := ⟨.new, [], .new, []⟩

def listStep (s : ListRun α) (call : ListCall α) : ListRun α where
  list := (s.list.call call).2
  replies := s.replies ++ [(s.list.call call).1]
  meant := (meantCall s.meant call).2
  meantReplies := s.meantReplies ++ [(meantCall s.meant call).1]

/-- The list holds the visited and the pending objects, with the cursor between them. -/
structure Represents (l : ObjectList α) (t : Traversal α) : Prop where
  container_eq : l.container = t.objects
  current_eq : l.current = t.visited.length

/-- The cursor is in the list, the list and its replies are those of the traversal, and the
    traversal returns no occurrence twice and passes none over. -/
structure Survives (s : ListRun α) : Prop where
  current_le : s.list.current ≤ s.list.size
  represents : Represents s.list s.meant
  replies_eq : s.replies = s.meantReplies
  once : s.meant.Once

/-- `remove_tail` is not called while the cursor is on, or behind, the last element. -/
def KeepsCursor (s : ListRun α) : ListCall α → Prop
  | .removeTail => s.list.current = 0 ∨ s.list.current + 1 < s.list.size
  | _ => True

instance (s : ListRun α) (call : ListCall α) : Decidable (KeepsCursor s call) := by
  cases call <;> unfold KeepsCursor <;> infer_instance

end calls

/-! ## One call -/

section steps

variable {l : ObjectList α} {t : Traversal α}

theorem objects_eq (t : Traversal α) :
    t.objects = t.visited.map Occurrence.object ++ t.pending.map Occurrence.object :=
  List.map_append

theorem map_eraseP_object [DecidableEq α] (os : List (Occurrence α)) (object : α) :
    (os.eraseP fun o => o.object == object).map Occurrence.object =
      (os.map Occurrence.object).erase object := by
  rw [List.erase_eq_eraseP', List.eraseP_map]
  rfl

theorem Represents.current_le (h : Represents l t) : l.current ≤ l.size := by
  rw [ObjectList.size, h.container_eq, h.current_eq, objects_eq, List.length_append,
    List.length_map]
  exact Nat.le_add_right _ _

theorem represents_addTail (h : Represents l t) (object : α) :
    Represents (l.addTail object).2 (t.addTail object) where
  container_eq := by
    rw [objects_eq, ObjectList.addTail, h.container_eq, objects_eq, Traversal.addTail]
    simp
  current_eq := h.current_eq

theorem represents_addHead (h : Represents l t) (object : α) :
    Represents (l.addHead object).2 (t.addHead object) := by
  have hcontainer := h.container_eq
  have hcurrent := h.current_eq
  rw [objects_eq] at hcontainer
  unfold Traversal.addHead
  split
  · rename_i hnil
    rw [List.isEmpty_iff] at hnil
    exact {
      container_eq := by simp [ObjectList.addHead, objects_eq, hcontainer, hnil]
      current_eq := by simp [ObjectList.addHead, hcurrent, hnil] }
  · rename_i hne
    have hlen : t.visited.length ≠ 0 := fun hlen => hne (by simp [List.length_eq_zero_iff.mp hlen])
    exact {
      container_eq := by simp [ObjectList.addHead, objects_eq, hcontainer]
      current_eq := by simp [ObjectList.addHead, hcurrent, hlen] }

/-- The first occurrence of an object is on the visited side, if any is. -/
theorem idxOf_lt_current_iff [DecidableEq α] (h : Represents l t) (object : α) :
    l.container.idxOf object < l.current ↔ object ∈ t.visited.map Occurrence.object := by
  rw [h.container_eq, objects_eq, h.current_eq, ← List.length_map (f := Occurrence.object)]
  constructor
  · intro hlt
    by_contra hout
    rw [List.idxOf_append_of_notMem hout] at hlt
    omega
  · intro hvisited
    rw [List.idxOf_append_of_mem hvisited]
    exact List.idxOf_lt_length_iff.mpr hvisited

theorem represents_remove [DecidableEq α] (h : Represents l t) (object : α) :
    (l.remove object).1 = decide (object ∈ t.objects) ∧
      Represents (l.remove object).2 (t.remove object) := by
  have hcontainer := h.container_eq
  have hcurrent := h.current_eq
  have hmem : l.container.idxOf object = l.container.length ↔ object ∉ t.objects := by
    rw [List.idxOf_eq_length_iff, hcontainer]
  unfold ObjectList.remove
  dsimp only
  by_cases hin : object ∈ t.objects
  · rw [if_neg (by rw [hmem]; exact not_not_intro hin)]
    refine ⟨(decide_eq_true hin).symm, ?_⟩
    rw [objects_eq] at hcontainer
    have hside := idxOf_lt_current_iff h object
    unfold Traversal.remove
    by_cases hvisited : object ∈ t.visited.map Occurrence.object
    · have hlt := hside.mpr hvisited
      rw [if_pos hvisited, if_pos ⟨Nat.zero_lt_of_lt hlt, hlt⟩]
      exact {
        container_eq := by
          rw [objects_eq, map_eraseP_object, ← List.erase_append_left _ hvisited, ← hcontainer]
          exact List.eraseIdx_idxOf_eq_erase object l.container
        current_eq := by
          have hlen := congrArg List.length (map_eraseP_object t.visited object)
          rw [List.length_map, List.length_erase_of_mem hvisited, List.length_map] at hlen
          rw [hlen, hcurrent] }
    · have hlt : ¬ l.container.idxOf object < l.current := fun hlt => hvisited (hside.mp hlt)
      rw [if_neg hvisited, if_neg fun hcon => hlt hcon.2]
      exact {
        container_eq := by
          rw [objects_eq, map_eraseP_object, ← List.erase_append_right _ hvisited, ← hcontainer]
          exact List.eraseIdx_idxOf_eq_erase object l.container
        current_eq := hcurrent }
  · rw [if_pos (hmem.mpr hin)]
    refine ⟨(decide_eq_false hin).symm, ?_⟩
    rw [objects_eq, List.mem_append, not_or] at hin
    unfold Traversal.remove
    rw [if_neg hin.1]
    have hpending : (t.pending.eraseP fun o => o.object == object) = t.pending := by
      refine List.eraseP_of_forall_not fun o ho heq => hin.2 ?_
      exact List.mem_map.mpr ⟨o, ho, by simpa using heq⟩
    rw [hpending]
    exact h

theorem represents_removeHead (h : Represents l t) :
    l.removeHead.1 = t.objects.head? ∧ Represents l.removeHead.2 t.removeHead := by
  have hcontainer := h.container_eq
  have hcurrent := h.current_eq
  rw [objects_eq] at hcontainer ⊢
  unfold ObjectList.removeHead Traversal.removeHead
  cases hvisited : t.visited with
  | nil =>
    cases hpending : t.pending with
    | nil =>
      rw [hvisited, hpending] at hcontainer
      simp only [hcontainer, List.map_nil, List.append_nil]
      exact ⟨rfl, ⟨by simp [objects_eq, hcontainer], by simp [hcurrent, hvisited]⟩⟩
    | cons o os =>
      rw [hvisited, hpending] at hcontainer
      rw [hvisited] at hcurrent
      simp only [hcontainer, List.map_nil, List.map_cons, List.nil_append]
      exact ⟨rfl, ⟨by simp [objects_eq], by simp [hcurrent]⟩⟩
  | cons o os =>
    rw [hvisited] at hcontainer hcurrent
    simp only [hcontainer, List.map_cons, List.cons_append]
    exact ⟨rfl, ⟨by simp [objects_eq], by simp [hcurrent]⟩⟩

theorem removeTail_fst (h : Represents l t) : l.removeTail.1 = t.objects.getLast? := by
  unfold ObjectList.removeTail
  rw [h.container_eq]
  split
  · rename_i hnone
    exact hnone.symm
  · rename_i object hsome
    exact hsome.symm

/-- What `remove_tail` leaves of a list that is not empty. -/
theorem removeTail_of_pos (hsize : 0 < l.size) :
    l.removeTail.2.container = l.container.dropLast ∧
      l.removeTail.2.current =
        if l.current > 0 ∧ l.size - 1 = l.current then l.current - 1 else l.current := by
  have hne : l.container ≠ [] := List.ne_nil_of_length_pos hsize
  unfold ObjectList.removeTail
  rw [List.getLast?_eq_some_getLast hne]
  exact ⟨rfl, rfl⟩

theorem represents_removeTail (h : Represents l t)
    (hkeeps : l.current = 0 ∨ l.current + 1 < l.size) :
    Represents l.removeTail.2 t.removeTail := by
  have hcontainer := h.container_eq
  have hcurrent := h.current_eq
  have hsize : l.size = t.visited.length + t.pending.length := by
    rw [ObjectList.size, hcontainer, objects_eq]
    simp
  rw [objects_eq] at hcontainer
  unfold Traversal.removeTail
  by_cases hpending : t.pending = []
  · -- With nothing pending the cursor is at the end, so the list is empty.
    have hlen : t.pending.length = 0 := by rw [hpending, List.length_nil]
    have hvisited : t.visited = [] := List.length_eq_zero_iff.mp (by omega)
    have hnil : l.container = [] := by rw [hcontainer, hvisited, hpending]; rfl
    have hremove : l.removeTail.2 = l := by
      unfold ObjectList.removeTail
      rw [hnil]
      rfl
    rw [hremove, if_pos (List.isEmpty_iff.mpr hpending)]
    exact ⟨by simp [objects_eq, hnil, hvisited, hpending], by simp [hcurrent, hvisited]⟩
  · have hlen := List.length_pos_of_ne_nil hpending
    obtain ⟨hleft, hcursor⟩ := removeTail_of_pos (l := l) (by omega)
    rw [if_neg (by rw [List.isEmpty_iff]; exact hpending)]
    exact {
      container_eq := by
        have hne : t.pending.map Occurrence.object ≠ [] := by simpa using hpending
        rw [hleft, hcontainer, objects_eq, List.dropLast_append_of_ne_nil hne, List.map_dropLast]
      current_eq := by
        rw [hcursor, if_neg (by omega)]
        exact hcurrent }

/-- The cursor on, or behind, the last element is not where the traversal stands afterwards. -/
theorem not_represents_removeTail (h : Represents l t)
    (hkeeps : ¬ (l.current = 0 ∨ l.current + 1 < l.size)) :
    ¬ Represents l.removeTail.2 t.removeTail := by
  intro hnext
  have hcurrent := h.current_eq
  have hle := h.current_le
  have hsize : l.size = t.visited.length + t.pending.length := by
    rw [ObjectList.size, h.container_eq, objects_eq]
    simp
  have hnow := hnext.current_eq
  rw [(removeTail_of_pos (l := l) (by omega)).2] at hnow
  unfold Traversal.removeTail at hnow
  by_cases hpending : t.pending = []
  · have hlen : t.pending.length = 0 := by rw [hpending, List.length_nil]
    rw [if_pos (List.isEmpty_iff.mpr hpending), if_neg (by omega)] at hnow
    simp only [List.length_dropLast] at hnow
    omega
  · have hlen := List.length_pos_of_ne_nil hpending
    have hpos : l.current > 0 ∧ l.size - 1 = l.current := by omega
    have hempty : ¬ t.pending.isEmpty = true := fun hcon => hpending (List.isEmpty_iff.mp hcon)
    rw [if_pos hpos, if_neg hempty] at hnow
    dsimp only at hnow
    omega

theorem represents_first (h : Represents l t) :
    l.first.1 = t.first.1 ∧ Represents l.first.2 t.first.2 := by
  have hcontainer := h.container_eq
  unfold Traversal.objects at hcontainer
  unfold ObjectList.first Traversal.first
  cases hos : t.occurrences with
  | nil =>
    rw [hos, List.map_nil] at hcontainer
    simp only [hcontainer]
    exact ⟨trivial, ⟨rfl, rfl⟩⟩
  | cons o os =>
    rw [hos, List.map_cons] at hcontainer
    simp only [hcontainer]
    exact ⟨trivial, ⟨rfl, rfl⟩⟩

theorem represents_next (h : Represents l t) :
    l.next.1 = t.next.1 ∧ Represents l.next.2 t.next.2 := by
  have hcontainer := h.container_eq
  have hcurrent := h.current_eq
  rw [objects_eq] at hcontainer
  have hlen : l.current = (t.visited.map Occurrence.object).length := by
    rw [hcurrent, List.length_map]
  have hget : l.container[l.current]? = (t.pending.map Occurrence.object).head? := by
    rw [hcontainer, hlen, List.getElem?_append_right (Nat.le_refl _), Nat.sub_self,
      List.head?_eq_getElem?]
  unfold ObjectList.next Traversal.next
  rw [hget]
  cases hpending : t.pending with
  | nil => exact ⟨rfl, h⟩
  | cons o os =>
    refine ⟨rfl, ⟨?_, ?_⟩⟩
    · simp [objects_eq, hcontainer, hpending]
    · simp [hcurrent]

end steps

section runs

variable [DecidableEq α] {s : ListRun α}

/-- Every call but `remove_tail` returns what it is meant to, and keeps the representation. -/
theorem represents_call {l : ObjectList α} {t : Traversal α} (h : Represents l t)
    (call : ListCall α) (hcall : call ≠ .removeTail) :
    (l.call call).1 = (meantCall t call).1 ∧ Represents (l.call call).2 (meantCall t call).2 := by
  cases call with
  | init => exact ⟨rfl, ⟨rfl, rfl⟩⟩
  | add object => exact ⟨rfl, represents_addTail h object⟩
  | addHead object => exact ⟨rfl, represents_addHead h object⟩
  | addTail object => exact ⟨rfl, represents_addTail h object⟩
  | remove object =>
    obtain ⟨hreply, hrep⟩ := represents_remove h object
    exact ⟨congrArg ListReply.bool hreply, hrep⟩
  | removeHead =>
    obtain ⟨hreply, hrep⟩ := represents_removeHead h
    exact ⟨congrArg ListReply.object hreply, hrep⟩
  | removeTail => exact absurd rfl hcall
  | clear freeElementsMemory => exact ⟨rfl, ⟨rfl, rfl⟩⟩
  | first =>
    obtain ⟨hreply, hrep⟩ := represents_first h
    exact ⟨congrArg ListReply.object hreply, hrep⟩
  | next =>
    obtain ⟨hreply, hrep⟩ := represents_next h
    exact ⟨congrArg ListReply.object hreply, hrep⟩

theorem once_meantCall {t : Traversal α} (h : t.Once) (call : ListCall α) :
    (meantCall t call).2.Once := by
  cases call with
  | init => exact h.clear
  | add object => exact h.addTail object
  | addHead object => exact h.addHead object
  | addTail object => exact h.addTail object
  | remove object => exact h.remove object
  | removeHead => exact h.removeHead
  | removeTail => exact h.removeTail
  | clear freeElementsMemory => exact h.clear
  | first => exact h.first
  | next => exact h.next

theorem survives_step (h : Survives s) (call : ListCall α) (hkeeps : KeepsCursor s call) :
    Survives (listStep s call) := by
  have hcall : (s.list.call call).1 = (meantCall s.meant call).1 ∧
      Represents (s.list.call call).2 (meantCall s.meant call).2 := by
    by_cases htail : call = .removeTail
    · subst htail
      exact ⟨congrArg ListReply.object (removeTail_fst h.represents),
        represents_removeTail h.represents hkeeps⟩
    · exact represents_call h.represents call htail
  exact {
    current_le := hcall.2.current_le
    represents := hcall.2
    replies_eq := by
      show s.replies ++ _ = s.meantReplies ++ _
      rw [h.replies_eq, hcall.1]
    once := once_meantCall h.once call }

theorem not_survives_step (h : Survives s) (call : ListCall α) (hkeeps : ¬ KeepsCursor s call) :
    ¬ Survives (listStep s call) := by
  cases call with
  | removeTail => exact fun hnext => not_represents_removeTail h.represents hkeeps hnext.represents
  | _ => exact absurd trivial hkeeps

omit [DecidableEq α] in
theorem survives_start : Survives (ListRun.start : ListRun α) :=
  ⟨Nat.le_refl _, ⟨rfl, rfl⟩, rfl, Traversal.once_new⟩

/-- In every run of calls the traversal survives exactly when no `remove_tail` is called with
    the cursor on, or behind, the last element. -/
theorem traversal_survives_iff (calls : List (ListCall α)) :
    Always Survives .start (trace listStep .start calls) ↔
      Meets KeepsCursor .start (trace listStep .start calls) := by
  refine always_iff_meets (fun _ h => h) ?_ ?_ survives_start (isRun_trace _ _ _)
  · intro s call s' h hkeeps hstep
    rw [hstep]
    exact survives_step h call hkeeps
  · intro s call s' h hkeeps hstep
    rw [hstep]
    exact not_survives_step h call hkeeps

end runs

/-- Three objects; the traversal has returned two; the third is taken away from the tail. -/
def tailCalls : List (ListCall Nat) := [.add 5, .add 6, .add 7, .first, .next, .removeTail, .next]

/-- The traversal is set back, and returns the second object again. -/
theorem removeTail_returns_twice :
    (final .start (trace listStep .start tailCalls)).replies.getLast? =
        some (.object (some 6)) ∧
      (final .start (trace listStep .start tailCalls)).meantReplies.getLast? =
        some (.object none) ∧
      ¬ Always Survives .start (trace listStep .start tailCalls) := by
  refine ⟨rfl, rfl, fun h => ?_⟩
  have hreplies := h.final.replies_eq
  exact absurd hreplies (by decide)

end RehldsM.Common
