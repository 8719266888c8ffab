import Mathlib.Data.List.Induction

/-
  `at_exit` and `run_callbacks` (libs/util/src/util/lifecycle.cpp).

  A callback may register others while it runs, and what it does may depend on the rest of the
  program: `call callback program` is the list of what it registers, in order, with the program
  it leaves behind. Registrations are numbered.

  `run_callbacks` calls the top of the stack and pops it afterwards. When the callback has
  registered others, what is popped is the last of these, which was never called, and the callback
  itself is still there to be called again. So the loop does what it is meant to do exactly when
  no callback registers another while it runs (`runs_properly_iff`).

  `at_exit` runs under a mutex that `run_callbacks` does not take, so a callback that calls it
  does not wait for itself.
-/

namespace RehldsM.Util

universe u v

variable {β : Type u} {σ : Type v}

structure Registration (β : Type u) where
  number : Nat
  callback : β

structure Lifecycle (β : Type u) (σ : Type v) where
  /-- The stack, its top first; `none` before the first registration and behind the loop. -/
  callbacks : Option (List (Registration β))
  /-- How many callbacks were registered. -/
  registered : Nat
  /-- The numbers of the calls made by the loop. -/
  invoked : List Nat
  program : σ

namespace Lifecycle

def new (program : σ) : Lifecycle β σ where
  callbacks := none
  registered := 0
  invoked := []
  program := program

/-- `callbacks->emplace(callback)` -/
def emplace (l : Lifecycle β σ) (stack : List (Registration β)) (callback : β) : Lifecycle β σ :=
  { l with callbacks := some (⟨l.registered, callback⟩ :: stack), registered := l.registered + 1 }

/-- `hooked`: whether `std::atexit` and `std::at_quick_exit` succeed. -/
def atExit (l : Lifecycle β σ) (callback : β) (hooked : Bool) : Bool × Lifecycle β σ :=
  match l.callbacks with
  | none => if hooked then (true, l.emplace [] callback) else (false, l)
  | some stack => (true, l.emplace stack callback)

/-- A sequence of successful registrations. -/
def register (l : Lifecycle β σ) (fs : List β) : Lifecycle β σ :=
  fs.foldl (fun l f => (l.atExit f true).2) l

def stack (l : Lifecycle β σ) : List (Registration β) := l.callbacks.getD []

section loop

variable (call : β → σ → List β × σ)

/-- One turn of the loop of `run_callbacks`; `none` when the loop has ended. -/
def turn (l : Lifecycle β σ) : Option (Lifecycle β σ) :=
  match l.stack with
  | [] => none
  | top :: _ =>
    let (registrations, program) := call top.callback l.program
    let l := { l with invoked := l.invoked ++ [top.number], program }.register registrations
    some { l with callbacks := l.callbacks.map List.tail }

/-- The first `n` turns, or as many as there are. -/
def turns : Nat → Lifecycle β σ → Lifecycle β σ
  | 0, l => l
  | n + 1, l =>
    match l.turn call with
    | none => l
    | some l => turns n l

/-- `run_callbacks`, when its loop ends within `fuel` turns. -/
def runCallbacks (fuel : Nat) (l : Lifecycle β σ) : Option (Lifecycle β σ) :=
  match l.callbacks with
  | none => some l
  | some _ =>
    let l := turns call fuel l
    if l.stack.isEmpty then some { l with callbacks := none } else none

end loop

/-- The callback registered last, of those that were not called. -/
def Due (l : Lifecycle β σ) (k : Nat) : Prop :=
  k < l.registered ∧ k ∉ l.invoked ∧ ∀ j < l.registered, j ∉ l.invoked → j ≤ k

/-- The callback `f` registers `g` in some state of the program. -/
def Registers (call : β → σ → List β × σ) (g f : β) : Prop := ∃ program, g ∈ (call f program).1

/-- After `n` turns of the loop over the callbacks `fs`, registered in this order. -/
def afterTurns (call : β → σ → List β × σ) (fs : List β) (program : σ) (n : Nat) :
    Lifecycle β σ :=
  turns call n ((new program).register fs)

/-- What `run_callbacks` is meant to do with the callbacks `fs`. A callback that runs is always
    the one registered last of those that have not run; so none runs twice. The loop does not
    end before all have run, and ends if no callback starts an endless chain of registrations. -/
structure RunsProperly (call : β → σ → List β × σ) (fs : List β) (program : σ) : Prop where
  last_first : ∀ n l', (afterTurns call fs program n).turn call = some l' →
    ∃ k, Due (afterTurns call fs program n) k ∧
      l'.invoked = (afterTurns call fs program n).invoked ++ [k]
  all_run : ∀ n, (afterTurns call fs program n).turn call = none →
    ∀ k < (afterTurns call fs program n).registered, k ∈ (afterTurns call fs program n).invoked
  ends : (∀ f ∈ fs, Acc (Registers call) f) →
    ∃ fuel l', runCallbacks call fuel ((new program).register fs) = some l' ∧ l'.callbacks = none

/-- None of the callbacks registers another when they run one after the other. -/
def Quiet (call : β → σ → List β × σ) : List β → σ → Prop
  | [], _ => True
  | f :: fs, program => (call f program).1 = [] ∧ Quiet call fs (call f program).2

/-! ## Registering -/

theorem stack_atExit (l : Lifecycle β σ) (f : β) :
    (l.atExit f true).2.stack = ⟨l.registered, f⟩ :: l.stack := by
  unfold atExit stack
  cases l.callbacks <;> rfl

theorem stack_pop (l : Lifecycle β σ) :
    ({ l with callbacks := l.callbacks.map List.tail } : Lifecycle β σ).stack = l.stack.tail := by
  unfold stack
  cases l.callbacks <;> rfl

theorem atExit_eq (l : Lifecycle β σ) (f : β) :
    (l.atExit f true).2.registered = l.registered + 1 ∧
      (l.atExit f true).2.invoked = l.invoked ∧ (l.atExit f true).2.program = l.program := by
  unfold atExit
  cases l.callbacks with
  | none => exact ⟨rfl, rfl, rfl⟩
  | some s => exact ⟨rfl, rfl, rfl⟩

/-- The numbers on the stack are those of the callbacks that were not called, in the reverse
    order of registration. -/
structure Stacked (l : Lifecycle β σ) : Prop where
  mem_iff : ∀ k, k ∈ l.stack.map Registration.number ↔ k < l.registered ∧ k ∉ l.invoked
  invoked_lt : ∀ k ∈ l.invoked, k < l.registered
  decreasing : (l.stack.map Registration.number).Pairwise (· > ·)

theorem stacked_new (program : σ) : (new program : Lifecycle β σ).Stacked where
  mem_iff := by simp [new, stack]
  invoked_lt := by simp [new]
  decreasing := by simp [new, stack]

theorem Stacked.atExit {l : Lifecycle β σ} (h : l.Stacked) (f : β) :
    (l.atExit f true).2.Stacked := by
  obtain ⟨hregistered, hinvoked, -⟩ := l.atExit_eq f
  have hstack := l.stack_atExit f
  have hlt : ∀ k ∈ l.stack.map Registration.number, k < l.registered := fun k hk =>
    ((h.mem_iff k).mp hk).1
  exact {
    mem_iff := by
      intro k
      rw [hstack, hregistered, hinvoked, List.map_cons, List.mem_cons, h.mem_iff]
      constructor
      · rintro (rfl | ⟨hk, hnot⟩)
        · exact ⟨Nat.lt_succ_self _, fun hmem => Nat.lt_irrefl _ (h.invoked_lt _ hmem)⟩
        · exact ⟨Nat.lt_succ_of_lt hk, hnot⟩
      · rintro ⟨hk, hnot⟩
        rcases Nat.lt_succ_iff_lt_or_eq.mp hk with hk | rfl
        · exact Or.inr ⟨hk, hnot⟩
        · exact Or.inl rfl
    invoked_lt := by
      rw [hinvoked, hregistered]
      exact fun k hk => Nat.lt_succ_of_lt (h.invoked_lt k hk)
    decreasing := by
      rw [hstack, List.map_cons, List.pairwise_cons]
      exact ⟨hlt, h.decreasing⟩ }

theorem register_concat (l : Lifecycle β σ) (fs : List β) (f : β) :
    l.register (fs ++ [f]) = ((l.register fs).atExit f true).2 := by
  simp [register]

theorem Stacked.register {l : Lifecycle β σ} (h : l.Stacked) (fs : List β) :
    (l.register fs).Stacked := by
  induction fs generalizing l with
  | nil => exact h
  | cons f fs ih => exact ih (h.atExit f)

theorem register_eq (l : Lifecycle β σ) (fs : List β) :
    (l.register fs).registered = l.registered + fs.length ∧
      (l.register fs).invoked = l.invoked ∧ (l.register fs).program = l.program := by
  induction fs using List.reverseRecOn with
  | nil => exact ⟨rfl, rfl, rfl⟩
  | append_singleton fs f ih =>
    obtain ⟨hregistered, hinvoked, hprogram⟩ := (l.register fs).atExit_eq f
    rw [register_concat, hregistered, hinvoked, hprogram, ih.1, ih.2.1, ih.2.2, List.length_append]
    exact ⟨rfl, rfl, rfl⟩

theorem stack_register (l : Lifecycle β σ) (fs : List β) :
    ∃ pushed : List (Registration β), (l.register fs).stack = pushed ++ l.stack ∧
      pushed.map Registration.callback = fs.reverse := by
  induction fs using List.reverseRecOn with
  | nil => exact ⟨[], rfl, rfl⟩
  | append_singleton fs f ih =>
    obtain ⟨pushed, hstack, hcallbacks⟩ := ih
    refine ⟨⟨(l.register fs).registered, f⟩ :: pushed, ?_, ?_⟩
    · rw [register_concat, stack_atExit, hstack, List.cons_append]
    · rw [List.map_cons, hcallbacks, List.reverse_append, List.reverse_singleton,
        List.singleton_append]

/-- No number has been used that is not given out yet. -/
structure Numbered (l : Lifecycle β σ) : Prop where
  stack_lt : ∀ r ∈ l.stack, r.number < l.registered
  invoked_lt : ∀ k ∈ l.invoked, k < l.registered

theorem Stacked.numbered {l : Lifecycle β σ} (h : l.Stacked) : l.Numbered where
  stack_lt r hr := ((h.mem_iff r.number).mp (List.mem_map_of_mem hr)).1
  invoked_lt := h.invoked_lt

theorem Numbered.atExit {l : Lifecycle β σ} (h : l.Numbered) (f : β) :
    (l.atExit f true).2.Numbered := by
  obtain ⟨hregistered, hinvoked, -⟩ := l.atExit_eq f
  refine ⟨?_, ?_⟩
  · rw [stack_atExit, hregistered]
    intro r hr
    rcases List.mem_cons.mp hr with rfl | hr
    · exact Nat.lt_succ_self _
    · exact Nat.lt_succ_of_lt (h.stack_lt r hr)
  · rw [hinvoked, hregistered]
    exact fun k hk => Nat.lt_succ_of_lt (h.invoked_lt k hk)

theorem Numbered.register {l : Lifecycle β σ} (h : l.Numbered) (fs : List β) :
    (l.register fs).Numbered := by
  induction fs generalizing l with
  | nil => exact h
  | cons f fs ih => exact ih (h.atExit f)

/-- The turn of the callback on top begins with numbers that were given out. -/
theorem Numbered.invoke {l : Lifecycle β σ} (h : l.Numbered) {top : Registration β}
    (htop : top ∈ l.stack) (program : σ) :
    ({ l with invoked := l.invoked ++ [top.number], program } : Lifecycle β σ).Numbered where
  stack_lt := h.stack_lt
  invoked_lt k hk := by
    rcases List.mem_append.mp hk with hk | hk
    · exact h.invoked_lt k hk
    · obtain rfl := List.mem_singleton.mp hk
      exact h.stack_lt top htop

/-- The pop behind a registration takes the callback away that has just been put there. -/
theorem stack_pop_atExit (l : Lifecycle β σ) (f : β) :
    ({ (l.atExit f true).2 with
      callbacks := (l.atExit f true).2.callbacks.map List.tail } : Lifecycle β σ).stack =
      l.stack := by
  rw [stack_pop, stack_atExit, List.tail_cons]

/-! ## One turn -/

section turns

variable {call : β → σ → List β × σ}

theorem turn_eq_none_iff (l : Lifecycle β σ) : l.turn call = none ↔ l.stack = [] := by
  unfold turn
  cases l.stack with
  | nil => exact ⟨fun _ => rfl, fun _ => rfl⟩
  | cons top rest => exact ⟨fun h => absurd h (by simp), fun h => absurd h (by simp)⟩

/-- The call whose turn it is, and what is left when the callback registers nothing. -/
theorem turn_quiet {l : Lifecycle β σ} {top : Registration β} {rest : List (Registration β)}
    (hstack : l.stack = top :: rest) (hquiet : (call top.callback l.program).1 = []) :
    ∃ l', l.turn call = some l' ∧ l'.stack = rest ∧ l'.registered = l.registered ∧
      l'.invoked = l.invoked ++ [top.number] ∧ l'.program = (call top.callback l.program).2 := by
  unfold turn
  rw [hstack]
  dsimp only
  rw [hquiet]
  refine ⟨_, rfl, ?_, rfl, rfl, rfl⟩
  rw [stack_pop]
  show l.stack.tail = rest
  rw [hstack, List.tail_cons]

/-- When the callback registers others, the last of them, number `last`, is lost: it is neither
    called nor on the stack. -/
theorem turn_registering {l : Lifecycle β σ} (h : l.Stacked) {top : Registration β}
    {rest : List (Registration β)} (hstack : l.stack = top :: rest)
    (hcall : (call top.callback l.program).1 ≠ []) :
    ∃ l' last, l.turn call = some l' ∧ l'.stack ≠ [] ∧ (∀ r ∈ l'.stack, r.number < last) ∧
      last < l'.registered ∧ last ∉ l'.invoked := by
  unfold turn
  rw [hstack]
  dsimp only
  obtain ⟨fs, f, hlast⟩ := (List.eq_nil_or_concat (call top.callback l.program).1).resolve_left
    hcall
  rw [hlast, List.concat_eq_append, register_concat]
  have htop : top ∈ l.stack := by
    rw [hstack]
    exact List.mem_cons_self
  have hbase := h.numbered.invoke htop (call top.callback l.program).2
  generalize hl : ({ l with
    invoked := l.invoked ++ [top.number]
    program := (call top.callback l.program).2 } : Lifecycle β σ) = base at hbase ⊢
  have hnumbered := hbase.register fs
  have hne : (base.register fs).stack ≠ [] := by
    obtain ⟨pushed, hpushed, -⟩ := base.stack_register fs
    have hold : base.stack = top :: rest := by
      rw [← hl]
      exact hstack
    rw [hpushed, hold]
    simp
  generalize base.register fs = m at hnumbered hne ⊢
  obtain ⟨hregistered, hlog, -⟩ := m.atExit_eq f
  refine ⟨_, m.registered, rfl, by rwa [stack_pop_atExit], ?_, ?_, ?_⟩
  · rw [stack_pop_atExit]
    exact hnumbered.stack_lt
  · show m.registered < (m.atExit f true).2.registered
    rw [hregistered]
    exact Nat.lt_succ_self _
  · show m.registered ∉ (m.atExit f true).2.invoked
    rw [hlog]
    exact fun hmem => Nat.lt_irrefl _ (hnumbered.invoked_lt _ hmem)

/-- The top of the stack is the one the turn calls. -/
theorem turn_invoked (call : β → σ → List β × σ) {l : Lifecycle β σ} {top : Registration β}
    {rest : List (Registration β)} (hstack : l.stack = top :: rest) :
    ∃ l', l.turn call = some l' ∧ l'.invoked = l.invoked ++ [top.number] := by
  unfold turn
  rw [hstack]
  exact ⟨_, rfl, (register_eq _ _).2.1⟩

/-- The top of the stack is the one that is due. -/
theorem Stacked.due {l : Lifecycle β σ} (h : l.Stacked) {top : Registration β}
    {rest : List (Registration β)} (hstack : l.stack = top :: rest) : Due l top.number := by
  have hmem := h.mem_iff
  have hdecreasing := h.decreasing
  rw [hstack, List.map_cons] at hmem hdecreasing
  have htop := (hmem top.number).mp List.mem_cons_self
  refine ⟨htop.1, htop.2, fun j hj hnot => ?_⟩
  rcases List.mem_cons.mp ((hmem j).mpr ⟨hj, hnot⟩) with rfl | hj
  · exact Nat.le_refl _
  · exact Nat.le_of_lt ((List.pairwise_cons.mp hdecreasing).1 j hj)

/-- So a turn calls the callback that is due. -/
theorem Stacked.turn_due {l l' : Lifecycle β σ} (h : l.Stacked) (hturn : l.turn call = some l') :
    ∃ k, Due l k ∧ l'.invoked = l.invoked ++ [k] := by
  cases hstack : l.stack with
  | nil =>
    rw [(turn_eq_none_iff l).mpr hstack] at hturn
    cases hturn
  | cons top rest =>
    obtain ⟨l'', hturn', hinvoked⟩ := turn_invoked call hstack
    obtain rfl := Option.some.inj (hturn.symm.trans hturn')
    exact ⟨top.number, h.due hstack, hinvoked⟩

/-- Where the loop ends, all have been called. -/
theorem Stacked.all_invoked {l : Lifecycle β σ} (h : l.Stacked) (hturn : l.turn call = none) :
    ∀ k < l.registered, k ∈ l.invoked := by
  intro k hk
  by_contra hnot
  have hmem := (h.mem_iff k).mpr ⟨hk, hnot⟩
  rw [(turn_eq_none_iff l).mp hturn] at hmem
  exact List.not_mem_nil hmem

theorem Stacked.turn {l l' : Lifecycle β σ} (h : l.Stacked) {top : Registration β}
    {rest : List (Registration β)} (hstack : l.stack = top :: rest) (hrest : l'.stack = rest)
    (hregistered : l'.registered = l.registered)
    (hinvoked : l'.invoked = l.invoked ++ [top.number]) : l'.Stacked := by
  have hmem := h.mem_iff
  have hdecreasing := h.decreasing
  rw [hstack, List.map_cons] at hmem hdecreasing
  have hbelow := (List.pairwise_cons.mp hdecreasing).1
  exact {
    mem_iff := by
      intro k
      rw [hrest, hregistered, hinvoked, List.mem_append, List.mem_singleton, not_or, ← and_assoc,
        ← hmem, List.mem_cons]
      constructor
      · intro hk
        exact ⟨Or.inr hk, Nat.ne_of_lt (hbelow k hk)⟩
      · rintro ⟨rfl | hk, hne⟩
        · exact absurd rfl hne
        · exact hk
    invoked_lt := by
      rw [hinvoked, hregistered]
      intro k hk
      rcases List.mem_append.mp hk with hk | hk
      · exact h.invoked_lt k hk
      · obtain rfl := List.mem_singleton.mp hk
        exact (h.due hstack).1
    decreasing := by
      rw [hrest]
      exact (List.pairwise_cons.mp hdecreasing).2 }

/-! ## The loop -/

/-- On quiet callbacks: every turn is that of the callback that is due, and the loop ends with
    an empty stack when all have been called. -/
theorem quiet_turns {l : Lifecycle β σ} (h : l.Stacked)
    (hquiet : Quiet call (l.stack.map Registration.callback) l.program) (n : Nat) :
    (turns call n l).Stacked ∧
      Quiet call ((turns call n l).stack.map Registration.callback) (turns call n l).program ∧
      (turns call n l).stack = l.stack.drop n := by
  induction n generalizing l with
  | zero => exact ⟨h, hquiet, rfl⟩
  | succ n ih =>
    cases hstack : l.stack with
    | nil =>
      have hend : turns call (n + 1) l = l := by
        rw [turns, (turn_eq_none_iff l).mpr hstack]
      rw [hend]
      exact ⟨h, hquiet, hstack⟩
    | cons top rest =>
      rw [hstack, List.map_cons] at hquiet
      obtain ⟨l', hturn, hrest, hregistered, hinvoked, hprogram⟩ := turn_quiet hstack hquiet.1
      have hnext : turns call (n + 1) l = turns call n l' := by rw [turns, hturn]
      rw [hnext, List.drop_succ_cons, ← hrest]
      refine ih (h.turn hstack hrest hregistered hinvoked) ?_
      rw [hrest, hprogram]
      exact hquiet.2

theorem runCallbacks_quiet {l : Lifecycle β σ} (h : l.Stacked)
    (hquiet : Quiet call (l.stack.map Registration.callback) l.program) :
    ∃ fuel l', runCallbacks call fuel l = some l' ∧ l'.callbacks = none := by
  cases hnull : l.callbacks with
  | none => exact ⟨0, l, by rw [runCallbacks, hnull], hnull⟩
  | some s =>
    obtain ⟨-, -, hend⟩ := quiet_turns h hquiet l.stack.length
    rw [List.drop_length] at hend
    refine ⟨l.stack.length, { turns call l.stack.length l with callbacks := none }, ?_, rfl⟩
    rw [runCallbacks, hnull]
    dsimp only
    rw [if_pos (by rw [hend]; rfl)]

/-- Where every turn is that of the callback that is due, all callbacks are quiet. -/
theorem quiet_of_last_first {l : Lifecycle β σ} (h : l.Stacked)
    (hturns : ∀ n l', (turns call n l).turn call = some l' →
      ∃ k, Due (turns call n l) k ∧ l'.invoked = (turns call n l).invoked ++ [k]) :
    Quiet call (l.stack.map Registration.callback) l.program := by
  generalize hs : l.stack = s
  induction s generalizing l with
  | nil => trivial
  | cons top rest ih =>
    by_cases hnil : (call top.callback l.program).1 = []
    · obtain ⟨l', hturn, hrest, hregistered, hinvoked, hprogram⟩ := turn_quiet hs hnil
      refine ⟨hnil, ?_⟩
      rw [← hprogram]
      refine ih (h.turn hs hrest hregistered hinvoked) (fun n l'' hnext => ?_) hrest
      have hshift : turns call (n + 1) l = turns call n l' := by rw [turns, hturn]
      have hstep := hturns (n + 1) l''
      rw [hshift] at hstep
      exact hstep hnext
    · -- The next call is not that of the callback registered last.
      exfalso
      obtain ⟨l', last, hturn, hne, hlt, hregistered, hnot⟩ := turn_registering h hs hnil
      obtain ⟨r, rs, hstack'⟩ := List.exists_cons_of_ne_nil hne
      obtain ⟨l'', hnext, hinvoked⟩ := turn_invoked call hstack'
      have hone : turns call 1 l = l' := by simp only [turns, hturn]
      have hstep := hturns 1 l''
      rw [hone] at hstep
      obtain ⟨k, hdue, hk⟩ := hstep hnext
      have heq : [r.number] = [k] := List.append_cancel_left (hinvoked.symm.trans hk)
      obtain rfl := (List.cons.inj heq).1
      have hle := hdue.2.2 last hregistered hnot
      have hr := hlt r (by rw [hstack']; exact List.mem_cons_self)
      omega

end turns

/-- `run_callbacks` calls every callback exactly once, in the reverse order of registration,
    exactly when none of them registers another while it runs. -/
theorem runs_properly_iff (call : β → σ → List β × σ) (fs : List β) (program : σ) :
    RunsProperly call fs program ↔ Quiet call fs.reverse program := by
  have hstacked := (stacked_new (β := β) program).register fs
  obtain ⟨pushed, hstack, hcallbacks⟩ := (new (β := β) program).stack_register fs
  have hcalls : ((new (β := β) program).register fs).stack.map Registration.callback =
      fs.reverse := by
    rw [hstack, List.map_append, hcallbacks]
    exact List.append_nil _
  have hprogram : ((new (β := β) program).register fs).program = program :=
    (register_eq _ fs).2.2
  constructor
  · intro h
    have hquiet := quiet_of_last_first hstacked h.last_first
    rwa [hcalls, hprogram] at hquiet
  · intro hquiet
    rw [← hcalls] at hquiet
    nth_rewrite 2 [← hprogram] at hquiet
    have hturns : ∀ n, (afterTurns call fs program n).Stacked := fun n =>
      (quiet_turns hstacked hquiet n).1
    exact {
      last_first := fun n _ hturn => (hturns n).turn_due hturn
      all_run := fun n hturn => (hturns n).all_invoked hturn
      ends := fun _ => runCallbacks_quiet hstacked hquiet }

/-- `false` registers `true` the first time it runs, and nothing later; `true` registers
    nothing. The program remembers whether `false` has run. -/
def registersOnce (f : Bool) (ran : Bool) : List Bool × Bool :=
  (if !f && !ran then [true] else [], ran || !f)

/-- The callback that was registered meanwhile, number 1, is never called; the one that has
    registered it, number 0, is called twice. -/
theorem registered_meanwhile_is_lost :
    (afterTurns registersOnce [false] false 2).invoked = [0, 0] ∧
      (afterTurns registersOnce [false] false 2).registered = 2 ∧
      (afterTurns registersOnce [false] false 2).turn registersOnce = none ∧
      ¬ RunsProperly registersOnce [false] false := by
  have hinvoked : (afterTurns registersOnce [false] false 2).invoked = [0, 0] := rfl
  have hregistered : (afterTurns registersOnce [false] false 2).registered = 2 := rfl
  refine ⟨hinvoked, hregistered, rfl, fun h => ?_⟩
  have hrun := h.all_run 2 rfl 1 (by rw [hregistered]; decide)
  rw [hinvoked] at hrun
  exact absurd hrun (by decide)

end Lifecycle

end RehldsM.Util
