import Mathlib.Data.Fintype.Order
import Mathlib.Logic.Relation
import Mathlib.Order.RelClasses

/-
  Relations in which only finitely many elements have something below them: descending from an
  element ends exactly when no cycle is reached from it (`acc_iff_no_cycle`).
-/

namespace RehldsM.Lib

open Relation

variable {α : Type*} {r : α → α → Prop}

/-- A relation without cycles is well founded when only finitely many elements have
    something below them. -/
theorem wellFounded_of_no_cycle (S : List α) (hS : ∀ x y, r x y → y ∈ S)
    (h : ∀ x, ¬ TransGen r x x) : WellFounded r := by
  let below : {y // y ∈ S} → {y // y ∈ S} → Prop := fun x y => TransGen r x.1 y.1
  have : IsTrans _ below := ⟨fun _ _ _ hxy hyz => hxy.trans hyz⟩
  have : Std.Irrefl below := ⟨fun x => h x.1⟩
  have : Finite {y // y ∈ S} := List.finite_toSet S
  have hwf : WellFounded below := Finite.wellFounded_of_trans_of_irrefl below
  have hleaf : ∀ y, y ∉ S → Acc r y := fun y hy => ⟨y, fun x hx => absurd (hS x y hx) hy⟩
  have hinner : ∀ y : {y // y ∈ S}, Acc r y.1 := by
    intro y
    induction y using hwf.induction with
    | _ y ih =>
      refine ⟨y.1, fun x hx => ?_⟩
      by_cases hxS : x ∈ S
      · exact ih ⟨x, hxS⟩ (TransGen.single hx)
      · exact hleaf x hxS
  refine ⟨fun y => ?_⟩
  by_cases hy : y ∈ S
  · exact hinner ⟨y, hy⟩
  · exact hleaf y hy

/-- What descends for ever is not accessible. -/
theorem not_transGen_of_acc {a : α} (h : Acc r a) : ¬ TransGen r a a := by
  have hacc := h.transGen
  clear h
  induction hacc with
  | intro x _ ih => exact fun hx => ih x hx hx

theorem acc_of_reflTransGen {a b : α} (h : Acc r a) (hba : ReflTransGen r b a) : Acc r b := by
  rcases reflTransGen_iff_eq_or_transGen.mp hba with rfl | hba
  · exact h
  · exact h.inv_of_transGen hba

/-- An element is accessible exactly when no element on a cycle is reached from it. -/
theorem acc_iff_no_cycle (S : List α) (hS : ∀ x y, r x y → y ∈ S) (a : α) :
    Acc r a ↔ ∀ b, ReflTransGen r b a → ¬ TransGen r b b := by
  refine ⟨fun h b hb => not_transGen_of_acc (acc_of_reflTransGen h hb), fun h => ?_⟩
  -- The part of the relation that is reached from `a` has no cycles.
  let reached : α → α → Prop := fun x y => r x y ∧ ReflTransGen r y a
  have hcycle : ∀ x, ¬ TransGen reached x x := by
    intro x hx
    obtain ⟨y, -, hyx⟩ := TransGen.tail'_iff.mp hx
    exact h x hyx.2 (TransGen.mono (fun _ _ hxy => hxy.1) x x hx)
  have hwf : WellFounded reached :=
    wellFounded_of_no_cycle S (fun x y hxy => hS x y hxy.1) hcycle
  have hacc : ∀ y, ReflTransGen r y a → Acc r y := by
    intro y
    induction y using hwf.induction with
    | _ y ih => exact fun hy => ⟨y, fun x hxy => ih x ⟨hxy, hy⟩ (ReflTransGen.head hxy hy)⟩
  exact hacc a ReflTransGen.refl

end RehldsM.Lib
