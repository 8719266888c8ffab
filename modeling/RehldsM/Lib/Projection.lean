import RehldsM.Lib.Run

/-
  A machine seen through another one: a map of its states, and of the events that the other takes
  part in, which may depend on the state.

  A step is a step of the other machine, or leaves that one as it is (`SeenAs`). Then a run is seen
  as a run, from the state seen first to the one seen last (`isRun_seen`), and what is known of the
  runs of the other machine is known of those of this one.
-/

namespace RehldsM.Lib

universe u v w x

variable {σ : Type u} {ε : Type v} {τ : Type w} {φ : Type x}

/-- What a step is to the other machine. -/
def SeenAs (Step : τ → φ → τ → Prop) (t : τ) (e : Option φ) (t' : τ) : Prop :=
  match e with
  | some e => Step t e t'
  | none => t' = t

/-- The run of the other machine. -/
def seen (f : σ → τ) (g : σ → ε → Option φ) : σ → List (ε × σ) → List (φ × τ)
  | _, [] => []
  | s, (e, s') :: tr =>
    match g s e with
    | some e' => (e', f s') :: seen f g s' tr
    | none => seen f g s' tr

variable {f : σ → τ} {g : σ → ε → Option φ} {Step : σ → ε → σ → Prop} {Step' : τ → φ → τ → Prop}
  {s : σ} {tr : List (ε × σ)}

theorem seen_cons_some {e : ε} {e' : φ} (h : g s e = some e') (s' : σ) :
    seen f g s ((e, s') :: tr) = (e', f s') :: seen f g s' tr := by
  rw [seen, h]

theorem seen_cons_none {e : ε} (h : g s e = none) (s' : σ) :
    seen f g s ((e, s') :: tr) = seen f g s' tr := by
  rw [seen, h]

/-- Events that are seen as they are, when the others are left out. -/
theorem filter_seen {g : σ → ε → Option ε} {p : ε → Bool}
    (hp : ∀ s e, (g s e).toList.filter p = [e].filter p) :
    ((seen f g s tr).map Prod.fst).filter p = (tr.map Prod.fst).filter p := by
  induction tr generalizing s with
  | nil => rfl
  | cons x tr ih =>
    obtain ⟨e, s'⟩ := x
    have hseen : (seen f g s ((e, s') :: tr)).map Prod.fst =
        (g s e).toList ++ (seen f g s' tr).map Prod.fst := by
      cases hg : g s e with
      | some e' => rw [seen_cons_some hg, List.map_cons, Option.toList_some, List.singleton_append]
      | none => rw [seen_cons_none hg, Option.toList_none, List.nil_append]
    have hmap : ((e, s') :: tr).map Prod.fst = [e] ++ tr.map Prod.fst := rfl
    rw [hseen, hmap, List.filter_append, List.filter_append, hp, ih]

section run

variable (hsees : ∀ s e s', Step s e s' → SeenAs Step' (f s) (g s e) (f s'))

include hsees

theorem isRun_seen (hrun : IsRun Step s tr) :
    IsRun Step' (f s) (seen f g s tr) ∧ final (f s) (seen f g s tr) = f (final s tr) := by
  induction tr generalizing s with
  | nil => exact ⟨trivial, rfl⟩
  | cons x tr ih =>
    obtain ⟨e, s'⟩ := x
    have hstep := hsees s e s' hrun.1
    obtain ⟨hrest, hfinal⟩ := ih hrun.2
    cases hg : g s e with
    | some e' =>
      rw [hg] at hstep
      rw [seen_cons_some hg]
      exact ⟨⟨hstep, hrest⟩, hfinal⟩
    | none =>
      rw [hg] at hstep
      have hsame : f s' = f s := hstep
      rw [seen_cons_none hg, ← hsame]
      exact ⟨hrest, hfinal⟩

/-- A condition on the events that are seen. -/
theorem meets_seen {C : τ → φ → Prop} (hrun : IsRun Step s tr) :
    Meets C (f s) (seen f g s tr) ↔ Meets (fun s e => ∀ e' ∈ g s e, C (f s) e') s tr := by
  induction tr generalizing s with
  | nil => exact Iff.rfl
  | cons x tr ih =>
    obtain ⟨e, s'⟩ := x
    have hstep := hsees s e s' hrun.1
    rw [Meets, ← ih hrun.2]
    cases hg : g s e with
    | some e' =>
      rw [seen_cons_some hg, Meets]
      simp
    | none =>
      rw [hg] at hstep
      have hsame : f s' = f s := hstep
      rw [seen_cons_none hg, hsame]
      simp

/-- What always holds of the state that is seen. -/
theorem always_of_seen {P : τ → Prop} (hrun : IsRun Step s tr)
    (h : Always P (f s) (seen f g s tr)) : Always (fun s => P (f s)) s tr := by
  induction tr generalizing s with
  | nil => exact h
  | cons x tr ih =>
    obtain ⟨e, s'⟩ := x
    have hstep := hsees s e s' hrun.1
    refine ⟨h.head, ih hrun.2 ?_⟩
    cases hg : g s e with
    | some e' =>
      rw [seen_cons_some hg] at h
      exact h.2
    | none =>
      rw [hg] at hstep
      have hsame : f s' = f s := hstep
      rw [seen_cons_none hg] at h
      rw [hsame]
      exact h

end run

end RehldsM.Lib
