import Mathlib.Logic.Function.Basic
import RehldsM.Lib.Run

/-
  `call_once`: threads that share a state and a once-flag.

  The thread that finds the flag fresh executes the callable, step by step, and the others wait
  for it. The flag is set when the callable has returned, and is fresh again when it has thrown.
  Behind the call a thread takes a last step of its own, and others touch the state at any time,
  both without any protection.

  `Outline` says what holds of the state while the flag is fresh, in front of each step of the
  callable, and once the flag is set. An outline whose steps are `Checked` holds in every run
  (`always_outlined`), and no thread waits but for one that executes the callable and can go on
  (`Outlined.goes_on`).
-/

namespace RehldsM.Lib

universe u v w

/-- A step of the callable; where it throws, it has left the state as it was. -/
structure OnceStep (σ : Type v) where
  act : σ → σ
  mayThrow : Bool

inductive OnceFlag (α : Type u) where
  | fresh
  /-- `t` executes the callable. -/
  | active (t : α)
  | done

theorem OnceFlag.fresh_ne_active {α : Type u} (t : α) : OnceFlag.fresh ≠ .active t := by simp

theorem OnceFlag.done_ne_active {α : Type u} (t : α) : OnceFlag.done ≠ .active t := by simp

inductive OnceThread (σ : Type v) where
  | idle
  | calling
  | executing (code : List (OnceStep σ))
  /-- Behind `call_once`. -/
  | passed

structure CallOnce (α : Type u) (σ : Type v) where
  shared : σ
  flag : OnceFlag α
  thread : α → OnceThread σ

/-- What is executed under the flag, what a thread does behind it, and what others do. -/
structure OnceProgram (σ : Type v) (ε : Type w) where
  callable : List (OnceStep σ)
  behind : σ → σ
  others : ε → σ → σ

/-- A call, the next step of a thread, an exception in its step, or a step of others. -/
inductive OnceEvent (α : Type u) (ε : Type w) where
  | call (t : α)
  | run (t : α)
  | throw (t : α)
  | others (e : ε)

namespace CallOnce

variable {α : Type u} {σ : Type v} {ε : Type w}

/-- Nobody has called yet. -/
def init (shared : σ) : CallOnce α σ := ⟨shared, .fresh, fun _ => .idle⟩

section step

variable [DecidableEq α]

def put (s : CallOnce α σ) (t : α) (th : OnceThread σ) : CallOnce α σ :=
  { s with thread := Function.update s.thread t th }

def run (p : OnceProgram σ ε) (s : CallOnce α σ) (t : α) : Except NotEnabled (CallOnce α σ) :=
  match s.thread t with
  | .idle => .error .notEnabled
  | .calling =>
    match s.flag with
    | .fresh => .ok ({ s with flag := .active t }.put t (.executing p.callable))
    | .active _ => .error .notEnabled
    | .done => .ok (s.put t .passed)
  | .executing [] => .ok ({ s with flag := .done }.put t .passed)
  | .executing (x :: code) => .ok ({ s with shared := x.act s.shared }.put t (.executing code))
  | .passed => .ok ({ s with shared := p.behind s.shared }.put t .idle)

def step (p : OnceProgram σ ε) (s : CallOnce α σ) :
    OnceEvent α ε → Except NotEnabled (CallOnce α σ)
  | .call t =>
    match s.thread t with
    | .idle => .ok (s.put t .calling)
    | _ => .error .notEnabled
  | .run t => s.run p t
  | .throw t =>
    match s.thread t with
    | .executing (x :: _) =>
      if x.mayThrow then .ok ({ s with flag := .fresh }.put t .idle) else .error .notEnabled
    | _ => .error .notEnabled
  | .others e => .ok { s with shared := p.others e s.shared }

/-- What an event can do. -/
inductive Moves (p : OnceProgram σ ε) (s : CallOnce α σ) : OnceEvent α ε → CallOnce α σ → Prop where
  | call {t} (ht : s.thread t = .idle) : Moves p s (.call t) (s.put t .calling)
  | enter {t} (ht : s.thread t = .calling) (hflag : s.flag = .fresh) :
      Moves p s (.run t) ({ s with flag := .active t }.put t (.executing p.callable))
  | pass {t} (ht : s.thread t = .calling) (hflag : s.flag = .done) :
      Moves p s (.run t) (s.put t .passed)
  | act {t x code} (ht : s.thread t = .executing (x :: code)) :
      Moves p s (.run t) ({ s with shared := x.act s.shared }.put t (.executing code))
  | leave {t} (ht : s.thread t = .executing []) :
      Moves p s (.run t) ({ s with flag := .done }.put t .passed)
  | behind {t} (ht : s.thread t = .passed) :
      Moves p s (.run t) ({ s with shared := p.behind s.shared }.put t .idle)
  | throw {t x code} (ht : s.thread t = .executing (x :: code)) (hthrow : x.mayThrow = true) :
      Moves p s (.throw t) ({ s with flag := .fresh }.put t .idle)
  | others (e : ε) : Moves p s (.others e) { s with shared := p.others e s.shared }

theorem moves_of_step {p : OnceProgram σ ε} {s s' : CallOnce α σ} {ev : OnceEvent α ε}
    (h : s.step p ev = .ok s') : Moves p s ev s' := by
  cases ev with
  | call t =>
    unfold step at h
    dsimp only at h
    split at h
    · rename_i ht
      obtain rfl := Except.ok.inj h
      exact .call ht
    · cases h
  | run t =>
    unfold step run at h
    dsimp only at h
    split at h
    · cases h
    · rename_i ht
      split at h
      · rename_i hflag
        obtain rfl := Except.ok.inj h
        exact .enter ht hflag
      · cases h
      · rename_i hflag
        obtain rfl := Except.ok.inj h
        exact .pass ht hflag
    · rename_i ht
      obtain rfl := Except.ok.inj h
      exact .leave ht
    · rename_i ht
      obtain rfl := Except.ok.inj h
      exact .act ht
    · rename_i ht
      obtain rfl := Except.ok.inj h
      exact .behind ht
  | throw t =>
    unfold step at h
    dsimp only at h
    split at h
    · rename_i ht
      split at h
      · rename_i hthrow
        obtain rfl := Except.ok.inj h
        exact .throw ht hthrow
      · cases h
    · cases h
  | others e =>
    obtain rfl := Except.ok.inj h
    exact .others e

theorem isRun_moves (p : OnceProgram σ ε) (s : CallOnce α σ) (events : List (OnceEvent α ε)) :
    IsRun (Moves p) s (traceOk (step p) s events) :=
  (isRun_traceOk (step p) s events).mono fun _ _ _ h => moves_of_step h.2

@[simp] theorem thread_put_self (s : CallOnce α σ) (t : α) (th : OnceThread σ) :
    (s.put t th).thread t = th := Function.update_self ..

theorem thread_put_of_ne {t t' : α} (h : t' ≠ t) (s : CallOnce α σ) (th : OnceThread σ) :
    (s.put t th).thread t' = s.thread t' := Function.update_of_ne h ..

end step

end CallOnce

open CallOnce

/-! ## Proof outlines -/

/-- What holds of the shared state. -/
structure Outline (σ : Type v) where
  fresh : σ → Prop
  /-- In front of the rest of the callable. -/
  before : List (OnceStep σ) → σ → Prop
  done : σ → Prop

section outlines

variable {α : Type u} {σ : Type v} {ε : Type w} {p : OnceProgram σ ε} {o : Outline σ}
  {s s' : CallOnce α σ} {ev : OnceEvent α ε}

structure Outline.Checked (o : Outline σ) (p : OnceProgram σ ε) : Prop where
  enter : ∀ {x}, o.fresh x → o.before p.callable x
  act : ∀ {y code x}, y :: code <:+ p.callable → o.before (y :: code) x → o.before code (y.act x)
  throws : ∀ {y code x}, y :: code <:+ p.callable → y.mayThrow = true →
    o.before (y :: code) x → o.fresh x
  leave : ∀ {x}, o.before [] x → o.done x
  behind : ∀ {x}, o.done x → o.done (p.behind x)
  others_fresh : ∀ e {x}, o.fresh x → o.fresh (p.others e x)
  others_before : ∀ e {code x}, code <:+ p.callable → o.before code x →
    o.before code (p.others e x)
  others_done : ∀ e {x}, o.done x → o.done (p.others e x)

/-- What holds of the state, according to the flag. -/
def Outline.Holds (o : Outline σ) (p : OnceProgram σ ε) (s : CallOnce α σ) : OnceFlag α → Prop
  | .fresh => o.fresh s.shared
  | .active t => ∃ code, s.thread t = .executing code ∧ code <:+ p.callable ∧ o.before code s.shared
  | .done => o.done s.shared

/-- What the flag says of a thread. -/
def FlagFits (flag : OnceFlag α) (t : α) : OnceThread σ → Prop
  | .idle | .calling => flag ≠ .active t
  | .executing _ => flag = .active t
  | .passed => flag = .done

structure Outlined (p : OnceProgram σ ε) (o : Outline σ) (s : CallOnce α σ) : Prop where
  fits : ∀ t, FlagFits s.flag t (s.thread t)
  holds : o.Holds p s s.flag

theorem outlined_init {shared : σ} (h : o.fresh shared) :
    Outlined p o (init shared : CallOnce α σ) :=
  ⟨OnceFlag.fresh_ne_active, h⟩

theorem Outlined.fits_of (h : Outlined p o s) {t : α} {th : OnceThread σ} (ht : s.thread t = th) :
    FlagFits s.flag t th := ht ▸ h.fits t

/-- The thread is not in the callable, so nothing changes for it when another enters or leaves. -/
theorem FlagFits.change {flag flag' : OnceFlag α} {t : α} {th : OnceThread σ}
    (h : FlagFits flag t th) (hactive : flag ≠ .active t) (hdone : flag ≠ .done)
    (hactive' : flag' ≠ .active t) : FlagFits flag' t th := by
  cases th with
  | idle | calling => exact hactive'
  | executing code => exact absurd h hactive
  | passed => exact absurd h hdone

/-- The thread in the callable, and what holds in front of its code. -/
theorem Outlined.executing (h : Outlined p o s) {t : α} {code : List (OnceStep σ)}
    (ht : s.thread t = .executing code) :
    s.flag = .active t ∧ code <:+ p.callable ∧ o.before code s.shared := by
  have hflag : s.flag = .active t := h.fits_of ht
  have hholds := h.holds
  rw [hflag] at hholds
  obtain ⟨code', ht', hcode⟩ := hholds
  obtain rfl := OnceThread.executing.inj (ht'.symm.trans ht)
  exact ⟨hflag, hcode⟩

variable [DecidableEq α]

/-- What holds of the new thread and of the other threads holds of all. -/
theorem flagFits_put {flag : OnceFlag α} {t : α} {th : OnceThread σ} (hself : FlagFits flag t th)
    (hother : ∀ t', t' ≠ t → FlagFits flag t' (s.thread t')) :
    ∀ t', FlagFits flag t' ((s.put t th).thread t') := by
  intro t'
  by_cases h : t' = t
  · subst h
    rwa [thread_put_self]
  · rw [thread_put_of_ne h]
    exact hother t' h

/-- A thread outside of the callable moves on. -/
theorem Outlined.put (h : Outlined p o s) {t : α} {th : OnceThread σ} (hflag : s.flag ≠ .active t)
    (hself : FlagFits s.flag t th) : Outlined p o (s.put t th) := by
  refine ⟨flagFits_put hself fun t' _ => h.fits t', ?_⟩
  have hholds := h.holds
  show o.Holds p (s.put t th) s.flag
  cases hactive : s.flag with
  | fresh | done =>
    rw [hactive] at hholds
    exact hholds
  | active t' =>
    rw [hactive] at hholds
    have hne : t' ≠ t := fun heq => hflag (heq ▸ hactive)
    obtain ⟨code, ht', hcode⟩ := hholds
    exact ⟨code, (thread_put_of_ne hne s th).trans ht', hcode⟩

/-- The flag passes from one value to another, and thread `t` with it. -/
theorem flagFits_change (h : Outlined p o s) {flag : OnceFlag α} {t : α} {th : OnceThread σ}
    (hold : s.flag = .fresh ∨ s.flag = .active t) (hself : FlagFits flag t th)
    (hnew : ∀ t', t' ≠ t → flag ≠ .active t') :
    ∀ t', FlagFits flag t' ((s.put t th).thread t') := by
  refine flagFits_put hself fun t' hne => (h.fits t').change ?_ ?_ (hnew t' hne)
  · rcases hold with hold | hold <;> rw [hold]
    · exact OnceFlag.fresh_ne_active t'
    · exact fun heq => hne (OnceFlag.active.inj heq).symm
  · rcases hold with hold | hold <;> simp [hold]

theorem outlined_step (hchecked : o.Checked p) (h : Outlined p o s) (hmove : Moves p s ev s') :
    Outlined p o s' := by
  have hholds := h.holds
  cases hmove with
  | call ht =>
    have hflag : s.flag ≠ .active _ := h.fits_of ht
    exact h.put hflag hflag
  | @enter t ht hflag =>
    rw [hflag] at hholds
    refine ⟨flagFits_change h (.inl hflag) rfl fun t' hne heq => ?_, ?_⟩
    · exact hne (OnceFlag.active.inj heq).symm
    · exact ⟨p.callable, thread_put_self _ _ _, List.suffix_rfl, hchecked.enter hholds⟩
  | pass ht hflag => exact h.put (h.fits_of ht) hflag
  | @act t x code ht =>
    obtain ⟨hflag, hsuffix, hbefore⟩ := h.executing ht
    refine ⟨flagFits_put hflag fun t' _ => h.fits t', ?_⟩
    show o.Holds p _ s.flag
    rw [hflag]
    exact ⟨code, thread_put_self _ _ _, (List.suffix_cons x code).trans hsuffix,
      hchecked.act hsuffix hbefore⟩
  | @leave t ht =>
    obtain ⟨hflag, -, hbefore⟩ := h.executing ht
    exact ⟨flagFits_change h (.inr hflag) rfl fun t' _ => OnceFlag.done_ne_active t',
      hchecked.leave hbefore⟩
  | @behind t ht =>
    have hflag : s.flag = .done := h.fits_of ht
    have hactive : s.flag ≠ .active t := by
      rw [hflag]
      exact OnceFlag.done_ne_active t
    refine ⟨flagFits_put hactive fun t' _ => h.fits t', ?_⟩
    show o.Holds p _ s.flag
    rw [hflag] at hholds ⊢
    exact hchecked.behind hholds
  | @throw t x code ht hthrow =>
    obtain ⟨hflag, hsuffix, hbefore⟩ := h.executing ht
    exact ⟨flagFits_change h (.inr hflag) (OnceFlag.fresh_ne_active t)
        fun t' _ => OnceFlag.fresh_ne_active t',
      hchecked.throws hsuffix hthrow hbefore⟩
  | others e =>
    refine ⟨h.fits, ?_⟩
    show o.Holds p _ s.flag
    cases hflag : s.flag with
    | fresh =>
      rw [hflag] at hholds
      exact hchecked.others_fresh e hholds
    | active t =>
      rw [hflag] at hholds
      obtain ⟨code, ht, hsuffix, hbefore⟩ := hholds
      exact ⟨code, ht, hsuffix, hchecked.others_before e hsuffix hbefore⟩
    | done =>
      rw [hflag] at hholds
      exact hchecked.others_done e hholds

theorem always_outlined (hchecked : o.Checked p) {shared : σ} (hfresh : o.fresh shared)
    (events : List (OnceEvent α ε)) :
    Always (Outlined p o) (init shared) (traceOk (step p) (init shared) events) :=
  always_of_step (fun _ _ _ h hmove => outlined_step hchecked h hmove) (outlined_init hfresh)
    (isRun_moves p _ events)

/-- The thread in the callable can go on. -/
theorem run_executing {t : α} {code : List (OnceStep σ)} (ht : s.thread t = .executing code) :
    ∃ s', s.run p t = .ok s' := by
  unfold run
  rw [ht]
  cases code with
  | nil => exact ⟨_, rfl⟩
  | cons x code => exact ⟨_, rfl⟩

/-- A thread that is in the operation goes on, or waits for another one that executes the callable
    and goes on. -/
theorem Outlined.goes_on (h : Outlined p o s) {t : α} (ht : s.thread t ≠ .idle) :
    (∃ s', s.run p t = .ok s') ∨
      ∃ t' s', t' ≠ t ∧ s.flag = .active t' ∧ s.run p t' = .ok s' := by
  cases hthread : s.thread t with
  | idle => exact absurd hthread ht
  | calling =>
    have hself : s.flag ≠ .active t := h.fits_of hthread
    cases hflag : s.flag with
    | fresh => exact .inl ⟨_, by rw [run, hthread]; dsimp only; rw [hflag]⟩
    | done => exact .inl ⟨_, by rw [run, hthread]; dsimp only; rw [hflag]⟩
    | active t' =>
      have hholds := h.holds
      rw [hflag] at hholds
      obtain ⟨code, ht', -⟩ := hholds
      obtain ⟨s', hrun⟩ := run_executing (p := p) ht'
      exact .inr ⟨t', s', fun heq => hself (heq ▸ hflag), rfl, hrun⟩
  | executing code => exact .inl (run_executing hthread)
  | passed => exact .inl ⟨_, by rw [run, hthread]⟩

end outlines

end RehldsM.Lib
