import Mathlib.Tactic.ByContra

/-
  Runs of a labelled transition system, and the two ways this development speaks about
  them: `Always P` (every state the run goes through satisfies `P`) and `Meets C` (every
  event of the run satisfies `C` in the state it is taken from).

  `always_of_meets` is the invariant rule with a side condition on the events.
  `always_iff_meets` is the exact form: when a step outside `C` always leaves `P`, a run
  stays inside `P` exactly when all of its steps meet `C`.
-/

namespace RehldsM.Lib

universe u v

variable {σ : Type u} {ε : Type v}

/-- A run from `s`: the events taken, each with the state it leads to. -/
def IsRun (Step : σ → ε → σ → Prop) : σ → List (ε × σ) → Prop
  | _, [] => True
  | s, (e, s') :: tr => Step s e s' ∧ IsRun Step s' tr

/-- The run of a machine that always has exactly one next state. -/
def trace (step : σ → ε → σ) : σ → List ε → List (ε × σ)
  | _, [] => []
  | s, e :: es => (e, step s e) :: trace step (step s e) es

/-- The event cannot happen in the state. -/
inductive NotEnabled where
  | notEnabled

theorem ok_bind {φ : Type u} {α β : Type v} {x : Except φ α} {f : α → Except φ β} {b : β}
    (h : x >>= f = .ok b) : ∃ a, x = .ok a ∧ f a = .ok b := by
  cases x with
  | error e => cases h
  | ok a => exact ⟨a, rfl, h⟩

theorem ok_map {φ : Type u} {α β : Type v} {x : Except φ α} {f : α → β} {b : β}
    (h : x.map f = .ok b) : ∃ a, x = .ok a ∧ f a = b := by
  cases x with
  | error e => cases h
  | ok a => exact ⟨a, rfl, Except.ok.inj h⟩

/-- The run of a machine whose step can fail: it ends in front of the first failure. -/
def traceOk {φ : Type*} (step : σ → ε → Except φ σ) : σ → List ε → List (ε × σ)
  | _, [] => []
  | s, e :: es =>
    match step s e with
    | .ok s' => (e, s') :: traceOk step s' es
    | .error _ => []

/-- The state a run ends in. -/
def final : σ → List (ε × σ) → σ
  | s, [] => s
  | _, (_, s') :: tr => final s' tr

/-- `P` holds in every state of the run, the first one included. -/
def Always (P : σ → Prop) : σ → List (ε × σ) → Prop
  | s, [] => P s
  | s, (_, s') :: tr => P s ∧ Always P s' tr

/-- Every event of the run meets `C` in the state it is taken from. -/
def Meets (C : σ → ε → Prop) : σ → List (ε × σ) → Prop
  | _, [] => True
  | s, (e, s') :: tr => C s e ∧ Meets C s' tr

instance decidableMeets {C : σ → ε → Prop} [∀ s e, Decidable (C s e)] :
    (s : σ) → (tr : List (ε × σ)) → Decidable (Meets C s tr)
  | _, [] => .isTrue trivial
  | s, (e, s') :: tr =>
    have := decidableMeets (C := C) s' tr
    inferInstanceAs (Decidable (C s e ∧ Meets C s' tr))

theorem Always.head {P : σ → Prop} {s : σ} {tr : List (ε × σ)} (h : Always P s tr) : P s := by
  cases tr with
  | nil => exact h
  | cons x tr => exact h.1

theorem Always.final {P : σ → Prop} {s : σ} {tr : List (ε × σ)} (h : Always P s tr) :
    P (final s tr) := by
  induction tr generalizing s with
  | nil => exact h
  | cons x tr ih => exact ih h.2

theorem Always.mono {P Q : σ → Prop} (hPQ : ∀ s, P s → Q s) {s : σ} {tr : List (ε × σ)}
    (h : Always P s tr) : Always Q s tr := by
  induction tr generalizing s with
  | nil => exact hPQ s h
  | cons x tr ih => exact ⟨hPQ s h.1, ih h.2⟩

theorem Always.and {P Q : σ → Prop} {s : σ} {tr : List (ε × σ)} (hP : Always P s tr)
    (hQ : Always Q s tr) : Always (fun s => P s ∧ Q s) s tr := by
  induction tr generalizing s with
  | nil => exact ⟨hP, hQ⟩
  | cons x tr ih => exact ⟨⟨hP.1, hQ.1⟩, ih hP.2 hQ.2⟩

theorem Always.meets {P : σ → Prop} {C : σ → ε → Prop} (hPC : ∀ s, P s → ∀ e, C s e) {s : σ}
    {tr : List (ε × σ)} (h : Always P s tr) : Meets C s tr := by
  induction tr generalizing s with
  | nil => trivial
  | cons x tr ih => exact ⟨hPC s h.1 x.1, ih h.2⟩

theorem IsRun.mono {Step Step' : σ → ε → σ → Prop} (hStep : ∀ s e s', Step s e s' → Step' s e s')
    {s : σ} {tr : List (ε × σ)} (h : IsRun Step s tr) : IsRun Step' s tr := by
  induction tr generalizing s with
  | nil => trivial
  | cons x tr ih => exact ⟨hStep s x.1 x.2 h.1, ih h.2⟩

theorem final_append (s : σ) (tr tr' : List (ε × σ)) :
    final s (tr ++ tr') = final (final s tr) tr' := by
  induction tr generalizing s with
  | nil => rfl
  | cons x tr ih => exact ih x.2

theorem IsRun.append {Step : σ → ε → σ → Prop} {s : σ} {tr tr' : List (ε × σ)}
    (h : IsRun Step s tr) (h' : IsRun Step (final s tr) tr') : IsRun Step s (tr ++ tr') := by
  induction tr generalizing s with
  | nil => exact h'
  | cons x tr ih => exact ⟨h.1, ih h.2 h'⟩

theorem isRun_trace (step : σ → ε → σ) (s : σ) (es : List ε) :
    IsRun (fun s e s' => s' = step s e) s (trace step s es) := by
  induction es generalizing s with
  | nil => trivial
  | cons e es ih => exact ⟨rfl, ih (step s e)⟩

theorem isRun_traceOk {φ : Type*} (step : σ → ε → Except φ σ) (s : σ) (es : List ε) :
    IsRun (fun s e s' => e ∈ es ∧ step s e = .ok s') s (traceOk step s es) := by
  suffices h : ∀ es', es' ⊆ es →
      IsRun (fun s e s' => e ∈ es ∧ step s e = .ok s') s (traceOk step s es') from
    h es (List.Subset.refl es)
  intro es' hsub
  induction es' generalizing s with
  | nil => trivial
  | cons e es' ih =>
    obtain ⟨he, hrest⟩ := List.cons_subset.mp hsub
    rw [traceOk]
    split
    · rename_i s' hok
      exact ⟨⟨he, hok⟩, ih s' hrest⟩
    · trivial

/-- The events of a run lead to the state it ends in. -/
theorem foldlM_of_isRun {φ : Type*} {step : σ → ε → Except φ σ} {s : σ} {tr : List (ε × σ)}
    (h : IsRun (fun s e s' => step s e = .ok s') s tr) :
    (tr.map Prod.fst).foldlM step s = .ok (final s tr) := by
  induction tr generalizing s with
  | nil => rfl
  | cons x tr ih =>
    rw [List.map_cons, List.foldlM_cons, h.1]
    exact ih h.2

theorem trace_append (step : σ → ε → σ) (s : σ) (es es' : List ε) :
    trace step s (es ++ es') = trace step s es ++ trace step (es.foldl step s) es' := by
  induction es generalizing s with
  | nil => rfl
  | cons e es ih => exact congrArg ((e, step s e) :: ·) (ih (step s e))

theorem final_trace (step : σ → ε → σ) (s : σ) (es : List ε) :
    final s (trace step s es) = es.foldl step s := by
  induction es generalizing s with
  | nil => rfl
  | cons e es ih => exact ih (step s e)

theorem meets_append {C : σ → ε → Prop} {s : σ} {tr tr' : List (ε × σ)} :
    Meets C s (tr ++ tr') ↔ Meets C s tr ∧ Meets C (final s tr) tr' := by
  induction tr generalizing s with
  | nil => simp [Meets, final]
  | cons x tr ih => simp only [List.cons_append, Meets, final, ih, and_assoc]

/-- The invariant rule: what the steps meeting `C` preserve holds along every run whose
    events all meet `C`. -/
theorem always_of_meets {Step : σ → ε → σ → Prop} {P : σ → Prop} {C : σ → ε → Prop}
    (hstep : ∀ s e s', P s → C s e → Step s e s' → P s') {s : σ} {tr : List (ε × σ)}
    (hs : P s) (hrun : IsRun Step s tr) (hC : Meets C s tr) : Always P s tr := by
  induction tr generalizing s with
  | nil => exact hs
  | cons x tr ih =>
    obtain ⟨e, s'⟩ := x
    exact ⟨hs, ih (hstep s e s' hs hC.1 hrun.1) hrun.2 hC.2⟩

/-- The invariant rule without a side condition. -/
theorem always_of_step {Step : σ → ε → σ → Prop} {P : σ → Prop}
    (hstep : ∀ s e s', P s → Step s e s' → P s') {s : σ} {tr : List (ε × σ)}
    (hs : P s) (hrun : IsRun Step s tr) : Always P s tr := by
  induction tr generalizing s with
  | nil => exact hs
  | cons x tr ih =>
    obtain ⟨e, s'⟩ := x
    exact ⟨hs, ih (hstep s e s' hs hrun.1) hrun.2⟩

/-- The exact rule. `I` is the invariant the proof carries and `P` the property: steps
    that meet `C` keep `I`, and a step that does not meet `C` leads out of `P`. -/
theorem always_iff_meets {Step : σ → ε → σ → Prop} {I P : σ → Prop} {C : σ → ε → Prop}
    (hI : ∀ s, I s → P s) (hgood : ∀ s e s', I s → C s e → Step s e s' → I s')
    (hbad : ∀ s e s', I s → ¬ C s e → Step s e s' → ¬ P s') {s : σ} {tr : List (ε × σ)}
    (hs : I s) (hrun : IsRun Step s tr) : Always P s tr ↔ Meets C s tr := by
  constructor
  · intro hP
    induction tr generalizing s with
    | nil => trivial
    | cons x tr ih =>
      obtain ⟨e, s'⟩ := x
      have hC : C s e := by
        by_contra hn
        exact hbad s e s' hs hn hrun.1 hP.2.head
      exact ⟨hC, ih (hgood s e s' hs hC hrun.1) hrun.2 hP.2⟩
  · intro hC
    exact (always_of_meets hgood hs hrun hC).mono hI

end RehldsM.Lib
