import Mathlib.Data.Fintype.Basic
import Mathlib.Logic.Function.Basic
import RehldsM.Lib.Run

/-
  A monitor: threads that share a state under one mutex and one condition variable.

  An operation is a list of instructions, and the threads' instructions interleave freely. To
  wait is to check the predicate under the mutex and, where it fails, to park and release the
  mutex in one step; a parked thread leaves the wait set only when it is notified, and then
  checks again under the mutex.

  `Moves` says once what an event can do. `MutexInv` is the mutual exclusion of operations
  that are `Bracketed`, `CodeInv` says that a thread runs the rest of its operation, and
  `Unnotified` that nobody leaves the wait set where no operation notifies.
-/

namespace RehldsM.Lib

universe u v w

inductive Instr (σ : Type v) where
  | lock
  | unlock
  /-- An access to the shared state. -/
  | act (f : σ → σ)
  /-- `cond_var.wait(lock, ready)`. -/
  | wait (ready : σ → Bool)
  | notifyOne
  | notifyAll

inductive Thread (σ : Type v) (ω : Type w) where
  | idle
  | running (op : ω) (code : List (Instr σ))
  | parked (op : ω) (code : List (Instr σ))
  /-- Notified, and waiting for the mutex. -/
  | woken (op : ω) (code : List (Instr σ))

structure Monitor (α : Type u) (σ : Type v) (ω : Type w) where
  shared : σ
  holder : Option α
  thread : α → Thread σ ω

/-- A call, the next step of a thread, or a `notify_one` of `t` that wakes `t'`. -/
inductive MonitorEvent (α : Type u) (ω : Type w) where
  | call (t : α) (op : ω)
  | run (t : α)
  | notify (t t' : α)

namespace Thread

variable {σ : Type v} {ω : Type w}

def isParked : Thread σ ω → Bool
  | .parked _ _ => true
  | _ => false

def wake : Thread σ ω → Thread σ ω
  | .parked op code => .woken op code
  | th => th

end Thread

namespace Monitor

variable {α : Type u} {σ : Type v} {ω : Type w}

/-- No thread is in an operation. -/
def init (shared : σ) : Monitor α σ ω := ⟨shared, none, fun _ => .idle⟩

theorem ite_ok {p : Prop} [Decidable p] {s s' : Monitor α σ ω}
    (h : (if p then .ok s else .error NotEnabled.notEnabled) = Except.ok s') : p ∧ s = s' := by
  split at h
  · exact ⟨‹p›, Except.ok.inj h⟩
  · cases h

section step

variable [DecidableEq α]

def put (s : Monitor α σ ω) (t : α) (th : Thread σ ω) : Monitor α σ ω :=
  { s with thread := Function.update s.thread t th }

/-- Thread `t` at an instruction, with the rest of its code. -/
def exec [Fintype α] (s : Monitor α σ ω) (t : α) (op : ω) (code : List (Instr σ)) :
    Instr σ → Except NotEnabled (Monitor α σ ω)
  | .lock =>
    if s.holder.isNone then .ok ({ s with holder := some t }.put t (.running op code))
    else .error .notEnabled
  | .unlock =>
    if s.holder = some t then .ok ({ s with holder := none }.put t (.running op code))
    else .error .notEnabled
  | .act f => .ok ({ s with shared := f s.shared }.put t (.running op code))
  | .wait ready =>
    if s.holder = some t then
      if ready s.shared then .ok (s.put t (.running op code))
      else .ok ({ s with holder := none }.put t (.parked op (.wait ready :: code)))
    else .error .notEnabled
  | .notifyOne =>
    if ∀ t', (s.thread t').isParked = false then .ok (s.put t (.running op code))
    else .error .notEnabled
  | .notifyAll =>
    .ok ({ s with thread := fun t' => (s.thread t').wake }.put t (.running op code))

def step [Fintype α] (body : ω → List (Instr σ)) (s : Monitor α σ ω) :
    MonitorEvent α ω → Except NotEnabled (Monitor α σ ω)
  | .call t op =>
    match s.thread t with
    | .idle => .ok (s.put t (.running op (body op)))
    | _ => .error .notEnabled
  | .run t =>
    match s.thread t with
    | .running _ [] => .ok (s.put t .idle)
    | .running op (instr :: code) => s.exec t op code instr
    | .woken op code =>
      if s.holder.isNone then .ok ({ s with holder := some t }.put t (.running op code))
      else .error .notEnabled
    | _ => .error .notEnabled
  | .notify t t' =>
    match s.thread t, s.thread t' with
    | .running op (.notifyOne :: code), .parked op' code' =>
      .ok ((s.put t (.running op code)).put t' (.woken op' code'))
    | _, _ => .error .notEnabled

/-- What an event can do. -/
inductive Moves (body : ω → List (Instr σ)) (s : Monitor α σ ω) :
    MonitorEvent α ω → Monitor α σ ω → Prop where
  | call {t op} (ht : s.thread t = .idle) :
      Moves body s (.call t op) (s.put t (.running op (body op)))
  | ret {t op} (ht : s.thread t = .running op []) : Moves body s (.run t) (s.put t .idle)
  | lock {t op code} (ht : s.thread t = .running op (.lock :: code)) (hfree : s.holder = none) :
      Moves body s (.run t) ({ s with holder := some t }.put t (.running op code))
  | unlock {t op code} (ht : s.thread t = .running op (.unlock :: code))
      (hheld : s.holder = some t) :
      Moves body s (.run t) ({ s with holder := none }.put t (.running op code))
  | act {t op f code} (ht : s.thread t = .running op (.act f :: code)) :
      Moves body s (.run t) ({ s with shared := f s.shared }.put t (.running op code))
  | pass {t op ready code} (ht : s.thread t = .running op (.wait ready :: code))
      (hheld : s.holder = some t) (hready : ready s.shared = true) :
      Moves body s (.run t) (s.put t (.running op code))
  | park {t op ready code} (ht : s.thread t = .running op (.wait ready :: code))
      (hheld : s.holder = some t) (hready : ready s.shared = false) :
      Moves body s (.run t)
        ({ s with holder := none }.put t (.parked op (.wait ready :: code)))
  | resume {t op code} (ht : s.thread t = .woken op code) (hfree : s.holder = none) :
      Moves body s (.run t) ({ s with holder := some t }.put t (.running op code))
  | notifyNone {t op code} (ht : s.thread t = .running op (.notifyOne :: code))
      (hnone : ∀ t', (s.thread t').isParked = false) :
      Moves body s (.run t) (s.put t (.running op code))
  | notifyOne {t t' op op' code code'} (ht : s.thread t = .running op (.notifyOne :: code))
      (ht' : s.thread t' = .parked op' code') :
      Moves body s (.notify t t') ((s.put t (.running op code)).put t' (.woken op' code'))
  | notifyAll {t op code} (ht : s.thread t = .running op (.notifyAll :: code)) :
      Moves body s (.run t)
        ({ s with thread := fun t' => (s.thread t').wake }.put t (.running op code))

theorem moves_of_exec [Fintype α] {body : ω → List (Instr σ)} {s s' : Monitor α σ ω} {t : α}
    {op : ω} {instr : Instr σ} {code : List (Instr σ)}
    (ht : s.thread t = .running op (instr :: code)) (h : s.exec t op code instr = .ok s') :
    Moves body s (.run t) s' := by
  cases instr with
  | lock =>
    obtain ⟨hfree, rfl⟩ := ite_ok h
    exact .lock ht (Option.isNone_iff_eq_none.mp hfree)
  | unlock =>
    obtain ⟨hheld, rfl⟩ := ite_ok h
    exact .unlock ht hheld
  | act f =>
    obtain rfl := Except.ok.inj h
    exact .act ht
  | wait ready =>
    rw [exec] at h
    split at h
    · rename_i hheld
      split at h
      · rename_i hready
        obtain rfl := Except.ok.inj h
        exact .pass ht hheld hready
      · rename_i hready
        obtain rfl := Except.ok.inj h
        exact .park ht hheld (Bool.eq_false_iff.mpr hready)
    · cases h
  | notifyOne =>
    obtain ⟨hnone, rfl⟩ := ite_ok h
    exact .notifyNone ht hnone
  | notifyAll =>
    obtain rfl := Except.ok.inj h
    exact .notifyAll ht

theorem moves_of_step [Fintype α] {body : ω → List (Instr σ)} {s s' : Monitor α σ ω}
    {ev : MonitorEvent α ω} (h : s.step body ev = .ok s') : Moves body s ev s' := by
  cases ev with
  | call t op =>
    unfold step at h
    dsimp only at h
    split at h
    · rename_i ht
      obtain rfl := Except.ok.inj h
      exact .call ht
    · cases h
  | run t =>
    unfold step at h
    dsimp only at h
    split at h
    · rename_i ht
      obtain rfl := Except.ok.inj h
      exact .ret ht
    · rename_i ht
      exact moves_of_exec ht h
    · rename_i ht
      obtain ⟨hfree, rfl⟩ := ite_ok h
      exact .resume ht (Option.isNone_iff_eq_none.mp hfree)
    · cases h
  | notify t t' =>
    unfold step at h
    dsimp only at h
    split at h
    · rename_i ht ht'
      obtain rfl := Except.ok.inj h
      exact .notifyOne ht ht'
    · cases h

/-- The run of a sequence of events, up to the first that is not enabled. -/
theorem isRun_moves [Fintype α] (body : ω → List (Instr σ)) (s : Monitor α σ ω)
    (events : List (MonitorEvent α ω)) :
    IsRun (Moves body) s (traceOk (step body) s events) :=
  (isRun_traceOk (step body) s events).mono fun _ _ _ h => moves_of_step h.2

end step

section invariants

variable {body : ω → List (Instr σ)} {s : Monitor α σ ω}

/-! ## Mutual exclusion -/

/-- The accesses, waits and unlocks of the code are under the mutex, when it starts with the
    mutex held or not. -/
def Bracketed : List (Instr σ) → Prop → Prop
  | [], held => ¬ held
  | .lock :: code, held => ¬ held ∧ Bracketed code True
  | .unlock :: code, held => held ∧ Bracketed code False
  | .act _ :: code, held => held ∧ Bracketed code held
  | .wait _ :: code, held => held ∧ Bracketed code held
  | .notifyOne :: code, held => Bracketed code held
  | .notifyAll :: code, held => Bracketed code held

/-- A thread that holds the mutex or does not. -/
def Fits (held : Prop) : Thread σ ω → Prop
  | .idle => ¬ held
  | .running _ code => Bracketed code held
  | .parked _ code => ¬ held ∧ Bracketed code True
  | .woken _ code => ¬ held ∧ Bracketed code True

def MutexInv (s : Monitor α σ ω) : Prop := ∀ t, Fits (s.holder = some t) (s.thread t)

theorem mutexInv_init (shared : σ) : MutexInv (init shared : Monitor α σ ω) :=
  fun _ h => Option.some_ne_none _ h.symm

theorem Fits.wake {held : Prop} {th : Thread σ ω} (h : Fits held th) : Fits held th.wake := by
  cases th <;> exact h

theorem MutexInv.fits (h : MutexInv s) {t : α} {th : Thread σ ω} (ht : s.thread t = th) :
    Fits (s.holder = some t) th := by
  rw [← ht]
  exact h t

/-- Who accesses the shared state holds the mutex. -/
theorem MutexInv.holder_of_act (h : MutexInv s) {t : α} {op : ω} {f : σ → σ}
    {code : List (Instr σ)} (ht : s.thread t = .running op (.act f :: code)) :
    s.holder = some t := by
  have hfit := h.fits ht
  exact hfit.1

/-! ## The code of a thread -/

/-- The operation a thread is in, and what is left of it. -/
def task : Thread σ ω → Option (ω × List (Instr σ))
  | .idle => none
  | .running op code | .parked op code | .woken op code => some (op, code)

def CodeInv (body : ω → List (Instr σ)) (s : Monitor α σ ω) : Prop :=
  ∀ t op code, task (s.thread t) = some (op, code) → code <:+ body op

theorem codeInv_init (shared : σ) : CodeInv body (init shared : Monitor α σ ω) :=
  fun _ _ _ h => absurd h (by simp [init, task])

theorem task_wake (th : Thread σ ω) : task th.wake = task th := by
  cases th <;> rfl

theorem CodeInv.running (h : CodeInv body s) {t : α} {op : ω} {code : List (Instr σ)}
    (ht : s.thread t = .running op code) : code <:+ body op :=
  h t op code (by rw [ht]; rfl)

theorem CodeInv.rest (h : CodeInv body s) {t : α} {op : ω} {instr : Instr σ}
    {code : List (Instr σ)} (ht : s.thread t = .running op (instr :: code)) :
    ∀ op' code', some (op, code) = some (op', code') → code' <:+ body op' := by
  intro op' code' heq
  obtain ⟨rfl, rfl⟩ := Prod.mk.inj (Option.some.inj heq)
  exact (List.suffix_cons instr code).trans (h.running ht)

theorem CodeInv.same (h : CodeInv body s) {t : α} {th : Thread σ ω}
    (ht : task th = task (s.thread t)) :
    ∀ op code, task th = some (op, code) → code <:+ body op := by
  rw [ht]
  exact h t

/-! ## Notifications -/

/-- The code notifies before it takes the mutex again. -/
def Due : List (Instr σ) → Prop
  | [] => False
  | .lock :: _ => False
  | .notifyOne :: _ => True
  | .notifyAll :: _ => True
  | .unlock :: code => Due code
  | .act _ :: code => Due code
  | .wait _ :: code => Due code

/-- A thread is parked although the predicate it waits for holds and the mutex is free; no thread
    that was notified is on its way, and none is about to notify. -/
def LostWakeup (ready : σ → Bool) (s : Monitor α σ ω) : Prop :=
  ready s.shared = true ∧ s.holder = none ∧ (∃ t, (s.thread t).isParked = true) ∧
    (∀ t op code, s.thread t ≠ .woken op code) ∧
    ∀ t op code, s.thread t = .running op code → ¬ Due code

/-- No operation notifies. -/
def NeverNotifies (body : ω → List (Instr σ)) : Prop :=
  ∀ op, .notifyOne ∉ body op ∧ .notifyAll ∉ body op

theorem mem_of_due {code : List (Instr σ)} (h : Due code) :
    .notifyOne ∈ code ∨ .notifyAll ∈ code := by
  induction code with
  | nil => exact h.elim
  | cons instr code ih =>
    cases instr with
    | lock => exact h.elim
    | notifyOne => exact Or.inl List.mem_cons_self
    | notifyAll => exact Or.inr List.mem_cons_self
    | unlock => exact (ih h).imp (List.mem_cons_of_mem _) (List.mem_cons_of_mem _)
    | act f => exact (ih h).imp (List.mem_cons_of_mem _) (List.mem_cons_of_mem _)
    | wait ready => exact (ih h).imp (List.mem_cons_of_mem _) (List.mem_cons_of_mem _)

theorem not_due (hbody : NeverNotifies body) (h : CodeInv body s) {t : α} {op : ω}
    {code : List (Instr σ)} (ht : s.thread t = .running op code) : ¬ Due code := by
  intro hdue
  have hsuffix := h.running ht
  rcases mem_of_due hdue with hone | hall
  · exact (hbody op).1 (hsuffix.subset hone)
  · exact (hbody op).2 (hsuffix.subset hall)

def Unnotified (s : Monitor α σ ω) : Prop := ∀ t op code, s.thread t ≠ .woken op code

end invariants

section steps

variable [DecidableEq α] {body : ω → List (Instr σ)} {s s' : Monitor α σ ω} {ev : MonitorEvent α ω}

/-! ## Updates -/

@[simp] theorem thread_put_self (s : Monitor α σ ω) (t : α) (th : Thread σ ω) :
    (s.put t th).thread t = th := Function.update_self ..

theorem thread_put_of_ne {t t' : α} (h : t' ≠ t) (s : Monitor α σ ω) (th : Thread σ ω) :
    (s.put t th).thread t' = s.thread t' := Function.update_of_ne h ..

/-- What holds of the new thread and of the other threads holds of all. -/
theorem forall_put {P : α → Thread σ ω → Prop} {s : Monitor α σ ω} {t : α} {th : Thread σ ω}
    (hself : P t th) (hother : ∀ t', t' ≠ t → P t' (s.thread t')) :
    ∀ t', P t' ((s.put t th).thread t') := by
  intro t'
  by_cases h : t' = t
  · subst h
    rwa [thread_put_self]
  · rw [thread_put_of_ne h]
    exact hother t' h

/-! ## One step -/

/-- Thread `t` moves on, and may take or release the mutex. -/
theorem MutexInv.put (h : MutexInv s) {t : α} {th : Thread σ ω} (shared : σ) {holder : Option α}
    (hholder : ∀ t', t' ≠ t → (holder = some t' ↔ s.holder = some t'))
    (hself : Fits (holder = some t) th) :
    MutexInv (Monitor.put { s with shared, holder } t th) := by
  refine forall_put (P := fun t th => Fits (holder = some t) th) hself fun t' ht' => ?_
  rw [hholder t' ht']
  exact h t'

/-- Thread `t` takes the free mutex. -/
theorem MutexInv.acquire (h : MutexInv s) {t : α} {th : Thread σ ω} (hfree : s.holder = none)
    (hself : Fits True th) : MutexInv (Monitor.put { s with holder := some t } t th) := by
  refine h.put s.shared (fun t' ht' => ?_) ?_
  · simp [hfree, ht'.symm]
  · rwa [eq_true rfl]

/-- Thread `t` gives the mutex back. -/
theorem MutexInv.release (h : MutexInv s) {t : α} {th : Thread σ ω} (hheld : s.holder = some t)
    (hself : Fits False th) : MutexInv (Monitor.put { s with holder := none } t th) := by
  refine h.put s.shared (fun t' ht' => ?_) ?_
  · simp [hheld, ht'.symm]
  · rwa [eq_false (Option.some_ne_none t).symm]

theorem moves_act {t : α} {op : ω} {f : σ → σ} {code : List (Instr σ)}
    (ht : s.thread t = .running op (.act f :: code)) (hmove : Moves body s (.run t) s') :
    s' = Monitor.put { s with shared := f s.shared } t (.running op code) := by
  cases hmove with
  | act ht' =>
    obtain ⟨rfl, hcode⟩ := Thread.running.inj (ht.symm.trans ht')
    obtain ⟨hf, rfl⟩ := List.cons.inj hcode
    obtain rfl := Instr.act.inj hf
    rfl
  | ret ht' | lock ht' | unlock ht' | pass ht' | park ht' | resume ht' | notifyNone ht'
  | notifyAll ht' => exact absurd (ht.symm.trans ht') (by simp)

theorem mutexInv_step (hbody : ∀ op, Bracketed (body op) False) (h : MutexInv s)
    (hmove : Moves body s ev s') : MutexInv s' := by
  cases hmove with
  | @call t op ht =>
    have hidle := h.fits ht
    refine h.put s.shared (fun _ _ => Iff.rfl) ?_
    rw [Fits, eq_false hidle]
    exact hbody op
  | @ret t op ht =>
    have hfit := h.fits ht
    exact h.put s.shared (fun _ _ => Iff.rfl) hfit
  | @lock t op code ht hfree =>
    have hrest := h.fits ht
    exact h.acquire hfree hrest.2
  | @unlock t op code ht hheld =>
    have hrest := h.fits ht
    exact h.release hheld hrest.2
  | @act t op f code ht =>
    have hrest := h.fits ht
    exact h.put (f s.shared) (fun _ _ => Iff.rfl) hrest.2
  | @pass t op ready code ht hheld hready =>
    have hrest := h.fits ht
    exact h.put s.shared (fun _ _ => Iff.rfl) hrest.2
  | @park t op ready code ht hheld hready =>
    have hrest := h.fits ht
    rw [Fits, eq_true hheld] at hrest
    exact h.release hheld ⟨not_false, hrest⟩
  | @resume t op code ht hfree =>
    have hrest := h.fits ht
    exact h.acquire hfree hrest.2
  | @notifyNone t op code ht hnone =>
    have hrest := h.fits ht
    exact h.put s.shared (fun _ _ => Iff.rfl) hrest
  | @notifyOne t t' op op' code code' ht ht' =>
    have hrest := h.fits ht
    have hwoken := h.fits ht'
    have hfirst : MutexInv (s.put t (.running op code)) :=
      h.put s.shared (fun _ _ => Iff.rfl) hrest
    exact hfirst.put s.shared (fun _ _ => Iff.rfl) hwoken
  | @notifyAll t op code ht =>
    have hrest := h.fits ht
    refine MutexInv.put (s := { s with thread := fun t' => (s.thread t').wake }) (fun t' => ?_)
      s.shared (fun _ _ => Iff.rfl) hrest
    exact (h t').wake

/-- Thread `t` goes on with a rest of what it had. -/
theorem CodeInv.put (h : CodeInv body s) {t : α} {th : Thread σ ω} (shared : σ)
    (holder : Option α)
    (hself : ∀ op code, task th = some (op, code) → code <:+ body op) :
    CodeInv body (Monitor.put { s with shared, holder } t th) :=
  forall_put (P := fun _ th => ∀ op code, task th = some (op, code) → code <:+ body op) hself
    fun t' _ => h t'

theorem codeInv_step (h : CodeInv body s) (hmove : Moves body s ev s') : CodeInv body s' := by
  cases hmove with
  | @call t op ht =>
    refine h.put s.shared s.holder fun op' code heq => ?_
    obtain ⟨rfl, rfl⟩ := Prod.mk.inj (Option.some.inj heq)
    exact List.suffix_refl _
  | ret ht => exact h.put s.shared s.holder fun _ _ heq => absurd heq (by simp [task])
  | @lock t op code ht hfree => exact h.put s.shared (some t) (h.rest ht)
  | unlock ht hheld => exact h.put s.shared none (h.rest ht)
  | @act t op f code ht => exact h.put (f s.shared) s.holder (h.rest ht)
  | pass ht hheld hready => exact h.put s.shared s.holder (h.rest ht)
  | park ht hheld hready => exact h.put s.shared none (h.same (by rw [ht]; rfl))
  | @resume t op code ht hfree => exact h.put s.shared (some t) (h.same (by rw [ht]; rfl))
  | notifyNone ht hnone => exact h.put s.shared s.holder (h.rest ht)
  | @notifyOne t t' op op' code code' ht ht' =>
    have hfirst : CodeInv body (s.put t (.running op code)) := h.put s.shared s.holder (h.rest ht)
    refine hfirst.put s.shared s.holder fun op'' code'' heq => ?_
    exact h t' op'' code'' (by rw [ht']; exact heq)
  | @notifyAll t op code ht =>
    refine CodeInv.put (s := { s with thread := fun t' => (s.thread t').wake }) (fun t' => ?_)
      s.shared s.holder (h.rest ht)
    rw [task_wake]
    exact h t'

theorem unnotified_step (hbody : NeverNotifies body) (hcode : CodeInv body s) (h : Unnotified s)
    (hmove : Moves body s ev s') : Unnotified s' := by
  have hput : ∀ (shared : σ) (holder : Option α) (t : α) (th : Thread σ ω),
      (∀ op code, th ≠ .woken op code) →
        Unnotified (Monitor.put { s with shared, holder } t th) :=
    fun shared holder t th hself =>
      forall_put (P := fun _ th => ∀ op code, th ≠ .woken op code) hself fun t' _ => h t'
  cases hmove with
  | call ht => exact hput _ _ _ _ (by simp)
  | ret ht => exact hput _ _ _ _ (by simp)
  | lock ht hfree => exact hput _ _ _ _ (by simp)
  | unlock ht hheld => exact hput _ _ _ _ (by simp)
  | act ht => exact hput _ _ _ _ (by simp)
  | pass ht hheld hready => exact hput _ _ _ _ (by simp)
  | park ht hheld hready => exact hput _ _ _ _ (by simp)
  | resume ht hfree => exact absurd ht (h _ _ _)
  | notifyNone ht hnone => exact absurd trivial (not_due hbody hcode ht)
  | notifyOne ht ht' => exact absurd trivial (not_due hbody hcode ht)
  | notifyAll ht => exact absurd trivial (not_due hbody hcode ht)

end steps

end Monitor

end RehldsM.Lib
