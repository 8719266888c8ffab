import RehldsM.Lib.Run

/-
  Scopes with an object each: the constructor changes a state, the destructor is meant to change
  it back. The scope that began last ends first, so the live objects form a stack.

  A destructor finds the state its constructor has left, when the scopes in between have been
  undone (`Chained`). So all of them restore the state as soon as each would do so with nothing in
  between (`meets_restores`); and only then, in a run in which every scope ends
  (`undone_of_restores`).
-/

namespace RehldsM.Lib

universe u v w

/-- A class by its constructor, which makes an object, and its destructor. -/
structure ScopeClass (α : Type u) (κ : Type v) (σ : Type w) where
  construct : α → σ → κ × σ
  destruct : κ → σ → σ

/-- A live object, with the state in which it was constructed. -/
structure LiveScope (α : Type u) (κ : Type v) (σ : Type w) where
  arg : α
  object : κ
  before : σ

/-- The state, and the live objects, of the innermost scope first. -/
structure Scopes (α : Type u) (κ : Type v) (σ : Type w) where
  state : σ
  live : List (LiveScope α κ σ)

/-- The state outside of all live scopes. -/
def Scopes.outside {α : Type u} {κ : Type v} {σ : Type w} (s : Scopes α κ σ) : σ :=
  (s.live.getLast?.map LiveScope.before).getD s.state

inductive ScopeEvent (α : Type u) where
  | enter (arg : α)
  | leave

namespace ScopeClass

variable {α : Type u} {κ : Type v} {σ : Type w} (c : ScopeClass α κ σ)

/-- The object constructed, on top of the live ones. -/
def entered (s : Scopes α κ σ) (arg : α) : Scopes α κ σ :=
  let (object, state) := c.construct arg s.state
  { state, live := { arg, object, before := s.state } :: s.live }

def step (s : Scopes α κ σ) : ScopeEvent α → Except NotEnabled (Scopes α κ σ)
  | .enter arg => .ok (c.entered s arg)
  | .leave =>
    match s.live with
    | [] => .error .notEnabled
    | scope :: live => .ok { state := c.destruct scope.object s.state, live }

/-- The destructor, called right behind the constructor, changes the state back. -/
def Undone (arg : α) (state : σ) : Prop :=
  c.destruct (c.construct arg state).1 (c.construct arg state).2 = state

/-- The scope that ends leaves the state as it was in front of it. -/
def Restores (s : Scopes α κ σ) : ScopeEvent α → Prop
  | .enter _ => True
  | .leave => ∀ scope ∈ s.live.head?, c.destruct scope.object s.state = scope.before

/-- What `C` says of the argument and the state of a scope that begins. -/
def Entering (C : α → σ → Prop) (s : Scopes α κ σ) : ScopeEvent α → Prop
  | .enter arg => C arg s.state
  | .leave => True

/-- Every live scope begins in the state that the constructor of the one around it has left. -/
def Chained : σ → List (LiveScope α κ σ) → Prop
  | _, [] => True
  | state, scope :: live =>
    c.construct scope.arg scope.before = (scope.object, state) ∧ Chained scope.before live

/-- The live scopes are chained, and `C` held of each when it began. -/
def Live (C : α → σ → Prop) (s : Scopes α κ σ) : Prop :=
  c.Chained s.state s.live ∧ ∀ scope ∈ s.live, C scope.arg scope.before

variable {c} {s s' : Scopes α κ σ} {e : ScopeEvent α} {C : α → σ → Prop}

theorem step_cases (h : c.step s e = .ok s') :
    (∃ arg, e = .enter arg ∧ s' = c.entered s arg) ∨
      ∃ scope live, e = .leave ∧ s.live = scope :: live ∧
        s' = { state := c.destruct scope.object s.state, live } := by
  cases e with
  | enter arg => exact Or.inl ⟨arg, rfl, (Except.ok.inj h).symm⟩
  | leave =>
    unfold step at h
    cases hlive : s.live with
    | nil =>
      rw [hlive] at h
      cases h
    | cons scope live =>
      rw [hlive] at h
      exact Or.inr ⟨scope, live, rfl, rfl, (Except.ok.inj h).symm⟩

/-! ## One step -/

theorem chained_entered (h : c.Chained s.state s.live) (arg : α) :
    c.Chained (c.entered s arg).state (c.entered s arg).live :=
  ⟨rfl, h⟩

/-- The innermost destructor restores the state exactly when it undoes its constructor. -/
theorem destruct_eq_iff {state : σ} {scope : LiveScope α κ σ} {live : List (LiveScope α κ σ)}
    (h : c.Chained state (scope :: live)) :
    c.destruct scope.object state = scope.before ↔ c.Undone scope.arg scope.before := by
  rw [Undone, h.1]

theorem restores_of_live (hC : ∀ arg state, C arg state → c.Undone arg state) (h : c.Live C s)
    (e : ScopeEvent α) : c.Restores s e := by
  cases e with
  | enter arg => trivial
  | leave =>
    intro scope hscope
    obtain ⟨live, hlive⟩ := List.head?_eq_some_iff.mp hscope
    have hchain := h.1
    rw [hlive] at hchain
    exact (destruct_eq_iff hchain).mpr (hC _ _ (h.2 scope (by rw [hlive]; exact .head _)))

theorem live_step (hC : ∀ arg state, C arg state → c.Undone arg state) (h : c.Live C s)
    (henter : Entering C s e) (hstep : c.step s e = .ok s') : c.Live C s' := by
  have hrestores := restores_of_live hC h e
  obtain ⟨hchain, hall⟩ := h
  obtain ⟨arg, rfl, rfl⟩ | ⟨scope, live, rfl, hlive, rfl⟩ := step_cases hstep
  · exact ⟨chained_entered hchain arg, List.forall_mem_cons.mpr ⟨henter, hall⟩⟩
  · rw [hlive] at hchain hall
    have hbefore : c.destruct scope.object s.state = scope.before :=
      hrestores scope (by rw [hlive]; rfl)
    refine ⟨?_, (List.forall_mem_cons.mp hall).2⟩
    dsimp only
    rw [hbefore]
    exact hchain.2

/-- Scopes that restore the state leave the one outside of them as it is. -/
theorem outside_step (hC : ∀ arg state, C arg state → c.Undone arg state) (h : c.Live C s)
    (hstep : c.step s e = .ok s') : s'.outside = s.outside := by
  have hrestores := restores_of_live hC h e
  obtain ⟨arg, rfl, rfl⟩ | ⟨scope, live, rfl, hlive, rfl⟩ := step_cases hstep
  · unfold Scopes.outside entered
    dsimp only
    rw [List.getLast?_cons]
    cases s.live.getLast? <;> rfl
  · have hbefore : c.destruct scope.object s.state = scope.before :=
      hrestores scope (by rw [hlive]; rfl)
    unfold Scopes.outside
    dsimp only
    rw [hlive, List.getLast?_cons, hbefore]
    cases live.getLast? <;> rfl

/-! ## Runs -/

variable {tr : List (ScopeEvent α × Scopes α κ σ)}

theorem always_live (hC : ∀ arg state, C arg state → c.Undone arg state) (hs : c.Live C s)
    (hrun : IsRun (fun s e s' => c.step s e = .ok s') s tr) (henter : Meets (Entering C) s tr) :
    Always (c.Live C) s tr :=
  always_of_meets (fun _ _ _ hs henter hstep => live_step hC hs henter hstep) hs hrun henter

/-- So the state is that of the beginning whenever no scope is alive. -/
theorem always_outside (hC : ∀ arg state, C arg state → c.Undone arg state) (hs : c.Live C s)
    (hrun : IsRun (fun s e s' => c.step s e = .ok s') s tr) (henter : Meets (Entering C) s tr) :
    Always (fun s' => c.Live C s' ∧ s'.outside = s.outside) s tr := by
  refine always_of_meets ?_ ⟨hs, rfl⟩ hrun henter
  exact fun s' e s'' h he hstep =>
    ⟨live_step hC h.1 he hstep, (outside_step hC h.1 hstep).trans h.2⟩

/-- Scopes that would each be undone at once restore the state, however they are nested. -/
theorem meets_restores (hC : ∀ arg state, C arg state → c.Undone arg state) (hs : c.Live C s)
    (hrun : IsRun (fun s e s' => c.step s e = .ok s') s tr) (henter : Meets (Entering C) s tr) :
    Meets c.Restores s tr :=
  (always_live hC hs hrun henter).meets fun _ h => restores_of_live hC h

/-- Where all scopes end and restore the state, each would be undone at once. -/
theorem undone_of_restores (hchain : c.Chained s.state s.live)
    (hrun : IsRun (fun s e s' => c.step s e = .ok s') s tr) (hend : (final s tr).live = [])
    (h : Meets c.Restores s tr) :
    (∀ scope ∈ s.live, c.Undone scope.arg scope.before) ∧ Meets (Entering c.Undone) s tr := by
  induction tr generalizing s with
  | nil =>
    have hlive : s.live = [] := hend
    rw [hlive]
    exact ⟨List.forall_mem_nil _, trivial⟩
  | cons x tr ih =>
    obtain ⟨e, s'⟩ := x
    obtain ⟨hstep, hrun⟩ := hrun
    obtain ⟨arg, rfl, rfl⟩ | ⟨scope, live, rfl, hlive, rfl⟩ := step_cases hstep
    · obtain ⟨hall, hmeets⟩ := ih (chained_entered hchain arg) hrun hend h.2
      obtain ⟨hundone, hlive⟩ := List.forall_mem_cons.mp hall
      exact ⟨hlive, hundone, hmeets⟩
    · have hbefore : c.destruct scope.object s.state = scope.before :=
        h.1 scope (by rw [hlive]; rfl)
      rw [hlive] at hchain ⊢
      obtain ⟨hall, hmeets⟩ := ih (by rw [hbefore]; exact hchain.2) hrun hend h.2
      exact ⟨List.forall_mem_cons.mpr ⟨(destruct_eq_iff hchain).mp hbefore, hall⟩, trivial, hmeets⟩

end ScopeClass

end RehldsM.Lib
