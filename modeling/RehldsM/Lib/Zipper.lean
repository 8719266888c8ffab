import Mathlib.Data.List.Basic

/-
  The line editor with two lists: what stands before the cursor and what stands after it, both
  in reading order.

  A line with a cursor position is the zipper `cut line position`. An editor that keeps the
  line and the position instead is followed through `cut_append`: at a cursor within the line,
  the line is `a ++ b` with the cursor behind `a`.
-/

namespace RehldsM.Lib

universe u

variable {α : Type u}

structure Zipper (α : Type u) where
  before : List α
  after : List α
deriving DecidableEq

namespace Zipper

def toList (z : Zipper α) : List α := z.before ++ z.after

/-- The line `l` with the cursor at its end. -/
def atEnd (l : List α) : Zipper α := ⟨l, []⟩

/-- The line `l` with the cursor at `position`. -/
def cut (l : List α) (position : Nat) : Zipper α := ⟨l.take position, l.drop position⟩

def insert (z : Zipper α) (x : α) : Zipper α := ⟨z.before ++ [x], z.after⟩

def backspace (z : Zipper α) : Zipper α := ⟨z.before.dropLast, z.after⟩

def delete (z : Zipper α) : Zipper α := ⟨z.before, z.after.tail⟩

def left (z : Zipper α) : Zipper α :=
  ⟨z.before.dropLast, z.before.getLast?.toList ++ z.after⟩

def right (z : Zipper α) : Zipper α :=
  ⟨z.before ++ z.after.head?.toList, z.after.tail⟩

def home (z : Zipper α) : Zipper α := ⟨[], z.toList⟩

def toEnd (z : Zipper α) : Zipper α := atEnd z.toList

theorem cut_append (a b : List α) : cut (a ++ b) a.length = ⟨a, b⟩ := by
  simp [cut]

/-! ## The line under an edit -/

theorem toList_atEnd (l : List α) : (atEnd l).toList = l := List.append_nil l

theorem toList_left (z : Zipper α) : z.left.toList = z.toList := by
  obtain ⟨a, b⟩ := z
  rcases List.eq_nil_or_concat a with rfl | ⟨a, x, rfl⟩
  · rfl
  · simp [left, toList]

theorem toList_right (z : Zipper α) : z.right.toList = z.toList := by
  obtain ⟨a, b⟩ := z
  cases b with
  | nil => exact congrArg (· ++ []) (List.append_nil a)
  | cons x b => exact List.append_assoc a [x] b

theorem toList_home (z : Zipper α) : z.home.toList = z.toList := rfl

theorem toList_toEnd (z : Zipper α) : z.toEnd.toList = z.toList := toList_atEnd _

theorem toList_backspace_subset (z : Zipper α) : z.backspace.toList ⊆ z.toList :=
  List.append_subset.mpr ⟨fun _ hx => List.mem_append_left _ (List.dropLast_subset _ hx),
    List.subset_append_right _ _⟩

theorem toList_delete_subset (z : Zipper α) : z.delete.toList ⊆ z.toList :=
  List.append_subset.mpr ⟨List.subset_append_left _ _,
    fun _ hx => List.mem_append_right _ (List.mem_of_mem_tail hx)⟩

end Zipper

end RehldsM.Lib
