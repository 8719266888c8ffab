import Mathlib.Data.List.Infix

/-
  The last occurrence of a pattern in a list (`std::basic_string::rfind`).
-/

namespace RehldsM.Lib

universe u

variable {α : Type u} [DecidableEq α]

/-- The start of the last occurrence of `pat`. -/
def rfind (pat : List α) : List α → Option Nat
  | [] => if pat = [] then some 0 else none
  | c :: s =>
    match rfind pat s with
    | some i => some (i + 1)
    | none => if pat <+: c :: s then some 0 else none

theorem rfind_eq_none_iff {pat s : List α} : rfind pat s = none ↔ ¬ pat <:+: s := by
  induction s with
  | nil => simp [rfind]
  | cons c s ih =>
    rw [List.infix_cons_iff, rfind]
    cases h : rfind pat s with
    | none => simp [ih.mp h]
    | some i =>
      have hs : pat <:+: s := by
        by_contra hn
        simp [ih.mpr hn] at h
      simp [hs]

/-- What `rfind` returns is an occurrence. -/
theorem rfind_some {pat s : List α} {i : Nat} (h : rfind pat s = some i) :
    pat <+: s.drop i ∧ i + pat.length ≤ s.length := by
  induction s generalizing i with
  | nil =>
    have hpat : pat = [] ∧ 0 = i := by simpa [rfind] using h
    obtain ⟨rfl, rfl⟩ := hpat
    simp
  | cons c s ih =>
    rw [rfind] at h
    cases hr : rfind pat s with
    | some j =>
      have hj : j + 1 = i := by simpa [hr] using h
      subst hj
      have := ih hr
      simp only [List.drop_succ_cons, List.length_cons]
      exact ⟨this.1, by omega⟩
    | none =>
      have hz : pat <+: c :: s ∧ 0 = i := by simpa [hr] using h
      obtain ⟨hpre, rfl⟩ := hz
      exact ⟨hpre, by simpa using hpre.length_le⟩

/-- There is no occurrence behind the one `rfind` returns. -/
theorem rfind_lt {pat s : List α} {i k : Nat} (h : rfind pat s = some i)
    (hk : ¬ pat <:+: s.drop k) : i < k := by
  by_contra hlt
  have hsuf : s.drop i <:+ s.drop k := by
    rw [show i = k + (i - k) by omega, ← List.drop_drop]
    exact List.drop_suffix _ _
  exact hk ((rfind_some h).1.isInfix.trans hsuf.isInfix)

theorem rfind_append (pat u s : List α) {i : Nat} (h : rfind pat s = some i) :
    rfind pat (u ++ s) = some (u.length + i) := by
  induction u with
  | nil => simpa using h
  | cons c u ih =>
    rw [List.cons_append, rfind, ih]
    simp only [List.length_cons, Option.some.injEq]
    omega

/-- An occurrence with none behind it is the one `rfind` returns. -/
theorem rfind_eq_some_length (u : List α) {pat v : List α} (hpat : pat ≠ [])
    (hlast : ¬ pat <:+: (pat ++ v).tail) : rfind pat (u ++ (pat ++ v)) = some u.length := by
  obtain ⟨c, p, rfl⟩ := List.exists_cons_of_ne_nil hpat
  have hnone : rfind (c :: p) (p ++ v) = none := rfind_eq_none_iff.mpr (by simpa using hlast)
  have hhere : rfind (c :: p) (c :: p ++ v) = some 0 := by
    rw [List.cons_append, rfind, hnone]
    simp
  simpa using rfind_append (c :: p) u _ hhere

end RehldsM.Lib
