import Mathlib.Data.List.Nodup

/-
  A list that is traversed while it is being changed: the elements the traversal has left
  behind (`visited`) and those still in front of it (`pending`).

  Objects may be stored several times, so the sides hold occurrences with a serial number of
  their own. `returned` are the serials the traversal has handed out, and `inFront` those that
  were stored in front of it while it was under way. `Once` is the invariant: no occurrence is
  returned twice, and an occurrence that is stored and was not returned is pending, unless it
  is one of `inFront`.
-/

namespace RehldsM.Lib

universe u

/-- An object in the list, told apart from every other storing of the same object. -/
structure Occurrence (α : Type u) where
  serial : Nat
  object : α

structure Traversal (α : Type u) where
  visited : List (Occurrence α)
  pending : List (Occurrence α)
  /-- How many objects were stored so far. -/
  stored : Nat
  returned : List Nat
  inFront : List Nat

namespace Traversal

variable {α : Type u}

def new : Traversal α where
  visited := []
  pending := []
  stored := 0
  returned := []
  inFront := []

def occurrences (t : Traversal α) : List (Occurrence α) := t.visited ++ t.pending

def objects (t : Traversal α) : List α := t.occurrences.map Occurrence.object

def addTail (t : Traversal α) (object : α) : Traversal α :=
  { t with pending := t.pending ++ [⟨t.stored, object⟩], stored := t.stored + 1 }

/-- In front of a traversal that has begun, the object counts as visited. -/
def addHead (t : Traversal α) (object : α) : Traversal α :=
  if t.visited.isEmpty then
    { t with pending := ⟨t.stored, object⟩ :: t.pending, stored := t.stored + 1 }
  else
    { t with
      visited := ⟨t.stored, object⟩ :: t.visited
      stored := t.stored + 1
      inFront := t.stored :: t.inFront }

/-- The first occurrence of the object goes, on the side that holds it. -/
def remove [DecidableEq α] (t : Traversal α) (object : α) : Traversal α :=
  if object ∈ t.visited.map Occurrence.object then
    { t with visited := t.visited.eraseP fun o => o.object == object }
  else { t with pending := t.pending.eraseP fun o => o.object == object }

def removeHead (t : Traversal α) : Traversal α :=
  if t.visited.isEmpty then { t with pending := t.pending.tail }
  else { t with visited := t.visited.tail }

def removeTail (t : Traversal α) : Traversal α :=
  if t.pending.isEmpty then { t with visited := t.visited.dropLast }
  else { t with pending := t.pending.dropLast }

def clear (t : Traversal α) : Traversal α := { t with visited := [], pending := [] }

/-- A new traversal, at the first element. -/
def first (t : Traversal α) : Option α × Traversal α :=
  match t.occurrences with
  | [] => (none, { t with visited := [], pending := [], returned := [], inFront := [] })
  | o :: os =>
    (some o.object, { t with visited := [o], pending := os, returned := [o.serial], inFront := [] })

def next (t : Traversal α) : Option α × Traversal α :=
  match t.pending with
  | [] => (none, t)
  | o :: os =>
    (some o.object,
      { t with visited := t.visited ++ [o], pending := os, returned := t.returned ++ [o.serial] })

/-- No occurrence is returned twice, and none that is stored is passed over. -/
structure Once (t : Traversal α) : Prop where
  lt_stored : ∀ o ∈ t.occurrences, o.serial < t.stored
  distinct : (t.occurrences.map Occurrence.serial).Nodup
  returned_lt : ∀ n ∈ t.returned, n < t.stored
  once : t.returned.Nodup
  not_returned : ∀ o ∈ t.pending, o.serial ∉ t.returned
  none_skipped : ∀ o ∈ t.visited, o.serial ∈ t.returned ∨ o.serial ∈ t.inFront

theorem once_new : (new : Traversal α).Once where
  lt_stored := by simp [new, occurrences]
  distinct := by simp [new, occurrences]
  returned_lt := by simp [new]
  once := by simp [new]
  not_returned := by simp [new]
  none_skipped := by simp [new]

/-- Taking occurrences out of either side keeps the invariant. -/
theorem Once.sublist {t : Traversal α} (h : t.Once) {visited pending : List (Occurrence α)}
    (hvisited : visited.Sublist t.visited) (hpending : pending.Sublist t.pending) :
    Once { t with visited, pending } := by
  have hsub : (visited ++ pending).Sublist t.occurrences := hvisited.append hpending
  exact {
    lt_stored := fun o ho => h.lt_stored o (hsub.subset ho)
    distinct := h.distinct.sublist (hsub.map _)
    returned_lt := h.returned_lt
    once := h.once
    not_returned := fun o ho => h.not_returned o (hpending.subset ho)
    none_skipped := fun o ho => h.none_skipped o (hvisited.subset ho) }

/-- The serial of a new occurrence is that of no other. -/
theorem Once.new_serial {t : Traversal α} (h : t.Once) :
    t.stored ∉ t.occurrences.map Occurrence.serial ∧ t.stored ∉ t.returned := by
  refine ⟨fun hmem => ?_, fun hmem => absurd (h.returned_lt _ hmem) (Nat.lt_irrefl _)⟩
  obtain ⟨o, ho, heq⟩ := List.mem_map.mp hmem
  have hlt := h.lt_stored o ho
  omega

theorem Once.addTail {t : Traversal α} (h : t.Once) (object : α) : (t.addTail object).Once := by
  obtain ⟨hserial, hreturned⟩ := h.new_serial
  have hoccurrences : (t.addTail object).occurrences = t.occurrences ++ [⟨t.stored, object⟩] :=
    (List.append_assoc _ _ _).symm
  exact {
    lt_stored := by
      rw [hoccurrences]
      intro o ho
      rcases List.mem_append.mp ho with ho | ho
      · exact Nat.lt_succ_of_lt (h.lt_stored o ho)
      · obtain rfl := List.mem_singleton.mp ho
        exact Nat.lt_succ_self _
    distinct := by
      rw [hoccurrences, List.map_append, List.nodup_append]
      refine ⟨h.distinct, List.nodup_singleton _, fun n hn m hm => ?_⟩
      obtain rfl := List.mem_singleton.mp hm
      exact ne_of_mem_of_not_mem hn hserial
    returned_lt := fun n hn => Nat.lt_succ_of_lt (h.returned_lt n hn)
    once := h.once
    not_returned := by
      intro o ho
      rcases List.mem_append.mp ho with ho | ho
      · exact h.not_returned o ho
      · obtain rfl := List.mem_singleton.mp ho
        exact hreturned
    none_skipped := h.none_skipped }

theorem Once.addHead {t : Traversal α} (h : t.Once) (object : α) : (t.addHead object).Once := by
  obtain ⟨hserial, hreturned⟩ := h.new_serial
  have hnew : ∀ os : List (Occurrence α), (∀ o ∈ os, o.serial < t.stored) →
      ∀ o ∈ (⟨t.stored, object⟩ : Occurrence α) :: os, o.serial < t.stored + 1 := by
    intro os hos o ho
    rcases List.mem_cons.mp ho with rfl | ho
    · exact Nat.lt_succ_self _
    · exact Nat.lt_succ_of_lt (hos o ho)
  unfold Traversal.addHead
  split
  · rename_i hvisited
    have hnil : t.visited = [] := List.isEmpty_iff.mp hvisited
    have hpending : t.occurrences = t.pending := by rw [occurrences, hnil, List.nil_append]
    rw [hpending] at hserial
    exact {
      lt_stored := by
        rw [occurrences, hnil]
        exact hnew t.pending fun o ho => h.lt_stored o (hpending ▸ ho)
      distinct := by
        rw [occurrences, hnil]
        exact List.nodup_cons.mpr ⟨hserial, hpending ▸ h.distinct⟩
      returned_lt := fun n hn => Nat.lt_succ_of_lt (h.returned_lt n hn)
      once := h.once
      not_returned := by
        intro o ho
        rcases List.mem_cons.mp ho with rfl | ho
        · exact hreturned
        · exact h.not_returned o ho
      none_skipped := h.none_skipped }
  · exact {
      lt_stored := hnew t.occurrences h.lt_stored
      distinct := List.nodup_cons.mpr ⟨hserial, h.distinct⟩
      returned_lt := fun n hn => Nat.lt_succ_of_lt (h.returned_lt n hn)
      once := h.once
      not_returned := h.not_returned
      none_skipped := by
        intro o ho
        rcases List.mem_cons.mp ho with rfl | ho
        · exact Or.inr List.mem_cons_self
        · exact (h.none_skipped o ho).imp_right (List.mem_cons_of_mem _) }

theorem Once.remove [DecidableEq α] {t : Traversal α} (h : t.Once) (object : α) :
    (t.remove object).Once := by
  unfold Traversal.remove
  split
  · exact h.sublist List.eraseP_sublist (List.Sublist.refl _)
  · exact h.sublist (List.Sublist.refl _) List.eraseP_sublist

theorem Once.removeHead {t : Traversal α} (h : t.Once) : t.removeHead.Once := by
  unfold Traversal.removeHead
  split
  · exact h.sublist (List.Sublist.refl _) (List.tail_sublist _)
  · exact h.sublist (List.tail_sublist _) (List.Sublist.refl _)

theorem Once.removeTail {t : Traversal α} (h : t.Once) : t.removeTail.Once := by
  unfold Traversal.removeTail
  split
  · exact h.sublist (List.dropLast_sublist _) (List.Sublist.refl _)
  · exact h.sublist (List.Sublist.refl _) (List.dropLast_sublist _)

theorem Once.clear {t : Traversal α} (h : t.Once) : t.clear.Once :=
  h.sublist (List.nil_sublist _) (List.nil_sublist _)

theorem Once.first {t : Traversal α} (h : t.Once) : t.first.2.Once := by
  have hlt := h.lt_stored
  have hdistinct := h.distinct
  unfold Traversal.first
  cases hos : t.occurrences with
  | nil =>
    exact {
      lt_stored := by simp [occurrences]
      distinct := by simp [occurrences]
      returned_lt := by simp
      once := by simp
      not_returned := by simp
      none_skipped := by simp }
  | cons o os =>
    rw [hos] at hlt hdistinct
    have hserial : o.serial ∉ os.map Occurrence.serial := (List.nodup_cons.mp hdistinct).1
    exact {
      lt_stored := hlt
      distinct := hdistinct
      returned_lt := by
        intro n hn
        obtain rfl := List.mem_singleton.mp hn
        exact hlt o List.mem_cons_self
      once := List.nodup_singleton _
      not_returned := by
        intro o' ho' hmem
        rw [List.mem_singleton] at hmem
        exact hserial (List.mem_map.mpr ⟨o', ho', hmem⟩)
      none_skipped := by
        intro o' ho'
        obtain rfl := List.mem_singleton.mp ho'
        exact Or.inl List.mem_cons_self }

theorem Once.next {t : Traversal α} (h : t.Once) : t.next.2.Once := by
  unfold Traversal.next
  cases hpending : t.pending with
  | nil => exact h
  | cons o os =>
    have hoccurrences : t.occurrences = t.visited ++ [o] ++ os := by simp [occurrences, hpending]
    have hlt := h.lt_stored
    have hdistinct := h.distinct
    have hnot := h.not_returned
    rw [hoccurrences] at hlt hdistinct
    rw [hpending] at hnot
    have hserial : ∀ o' ∈ os, o'.serial ≠ o.serial := by
      rw [List.append_assoc, List.map_append] at hdistinct
      have hcons := (List.nodup_cons.mp (List.nodup_append.mp hdistinct).2.1).1
      exact fun o' ho' heq => hcons (List.mem_map.mpr ⟨o', ho', heq⟩)
    exact {
      lt_stored := hlt
      distinct := hdistinct
      returned_lt := by
        intro n hn
        rcases List.mem_append.mp hn with hn | hn
        · exact h.returned_lt n hn
        · obtain rfl := List.mem_singleton.mp hn
          exact hlt o (by simp)
      once := by
        refine List.nodup_append.mpr ⟨h.once, List.nodup_singleton _, fun n hn m hm => ?_⟩
        obtain rfl := List.mem_singleton.mp hm
        exact ne_of_mem_of_not_mem hn (hnot o List.mem_cons_self)
      not_returned := by
        intro o' ho' hmem
        rcases List.mem_append.mp hmem with hmem | hmem
        · exact hnot o' (List.mem_cons_of_mem _ ho') hmem
        · exact hserial o' ho' (List.mem_singleton.mp hmem)
      none_skipped := by
        intro o' ho'
        rcases List.mem_append.mp ho' with ho' | ho'
        · exact (h.none_skipped o' ho').imp_left (List.mem_append_left _)
        · obtain rfl := List.mem_singleton.mp ho'
          exact Or.inl (List.mem_append_right _ (List.mem_singleton.mpr rfl)) }

end Traversal

end RehldsM.Lib
