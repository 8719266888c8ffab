import Mathlib.Data.List.Infix
import Mathlib.Data.List.Lex
import Mathlib.Order.Lattice

/-
  The longest common prefix of a list of lists. In a sorted list every element lies between the
  two ends, and a prefix of two lists is one of every list between them in the lexicographic
  order (`prefix_of_between`); so the ends have the longest common prefix of them all.
-/

namespace RehldsM.Lib

universe u

variable {α : Type u}

/-- `p` is the longest of the lists that all of `xs` begin with. -/
def LongestCommonPrefix (p : List α) (xs : List (List α)) : Prop :=
  ∀ q, (∀ x ∈ xs, q <+: x) ↔ q <+: p

theorem LongestCommonPrefix.all {p : List α} {xs : List (List α)} (h : LongestCommonPrefix p xs) :
    ∀ x ∈ xs, p <+: x :=
  (h p).mpr (List.prefix_refl p)

theorem le_of_cons_le_cons [LinearOrder α] {x y : α} {a b : List α} (h : x :: a ≤ y :: b) :
    x < y ∨ x = y ∧ a ≤ b := by
  rcases lt_or_eq_of_le h with hlt | heq
  · rcases List.cons_lt_cons_iff.mp hlt with hxy | ⟨hxy, hab⟩
    · exact Or.inl hxy
    · exact Or.inr ⟨hxy, le_of_lt (show a < b from hab)⟩
  · obtain ⟨hxy, hab⟩ := List.cons.inj heq
    exact Or.inr ⟨hxy, le_of_eq hab⟩

/-- A list between two that begin with `p` begins with `p`. -/
theorem prefix_of_between [LinearOrder α] {a b c p : List α} (hab : a ≤ b) (hbc : b ≤ c)
    (ha : p <+: a) (hc : p <+: c) : p <+: b := by
  induction p generalizing a b c with
  | nil => exact List.nil_prefix
  | cons x p ih =>
    obtain ⟨a', rfl, ha'⟩ := List.cons_prefix_iff.mp ha
    obtain ⟨c', rfl, hc'⟩ := List.cons_prefix_iff.mp hc
    cases b with
    | nil => exact absurd (List.nil_lt_cons x a') (not_lt_of_ge hab)
    | cons y b =>
      rcases le_of_cons_le_cons hab with hxy | ⟨rfl, hab'⟩
      · rcases le_of_cons_le_cons hbc with hyx | ⟨rfl, -⟩
        · exact absurd (hxy.trans hyx) (lt_irrefl x)
        · exact absurd hxy (lt_irrefl y)
      · rcases le_of_cons_le_cons hbc with hxx | ⟨-, hbc'⟩
        · exact absurd hxx (lt_irrefl x)
        · exact List.cons_prefix_cons.mpr ⟨rfl, ih hab' hbc' ha' hc'⟩

/-- The elements of a sorted list lie between its ends. -/
theorem between_ends [LinearOrder α] {xs : List (List α)} (hsorted : xs.Pairwise (· ≤ ·))
    {a c : List α} (ha : xs.head? = some a) (hc : xs.getLast? = some c) :
    ∀ x ∈ xs, a ≤ x ∧ x ≤ c := by
  intro x hx
  constructor
  · cases xs with
    | nil => exact absurd hx List.not_mem_nil
    | cons y ys =>
      obtain rfl : y = a := by simpa using ha
      rcases List.mem_cons.mp hx with rfl | hx
      · exact le_refl x
      · exact (List.pairwise_cons.mp hsorted).1 x hx
  · obtain ⟨ys, rfl⟩ := List.getLast?_eq_some_iff.mp hc
    rcases List.mem_append.mp hx with hx | hx
    · exact (List.pairwise_append.mp hsorted).2.2 x hx c (List.mem_singleton_self c)
    · rw [List.mem_singleton.mp hx]

/-- The ends of a sorted list have the longest common prefix of the whole list. -/
theorem longest_of_ends [LinearOrder α] {xs : List (List α)} (hsorted : xs.Pairwise (· ≤ ·))
    {a c p : List α} (ha : xs.head? = some a) (hc : xs.getLast? = some c)
    (hp : ∀ q, q <+: a ∧ q <+: c ↔ q <+: p) : LongestCommonPrefix p xs := by
  intro q
  rw [← hp]
  constructor
  · intro h
    exact ⟨h a (List.mem_of_head? ha), h c (List.mem_of_getLast? hc)⟩
  · rintro ⟨hqa, hqc⟩ x hx
    obtain ⟨hax, hxc⟩ := between_ends hsorted ha hc x hx
    exact prefix_of_between hax hxc hqa hqc

end RehldsM.Lib
