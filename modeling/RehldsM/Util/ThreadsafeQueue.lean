import RehldsM.Lib.Monitor

/-
  `ThreadSafeQueue` (libs/util/include/util/threadsafe_queue.hpp) as a monitor: each member
  function is the list of what it does with `mutex_`, `cond_var_` and `queue_`.

  `pop`, `front` and `back` wait on the condition variable, and no member function ever
  notifies it. A caller that has parked on an empty queue stays parked when an element is
  inserted: a wake-up is lost exactly when an element is inserted while a thread is parked
  (`lost_wakeup_iff`).
-/

namespace RehldsM.Util

open Lib Lib.Monitor

universe u v

/-- What a call returns, where it returns something. -/
inductive Reply (T : Type u) where
  | element (item : T)
  | size (n : Nat)
  | empty (b : Bool)
deriving DecidableEq

/-- `queue_`, front first, and what the calls have returned so far. -/
structure SharedQueue (T : Type u) where
  queue : List T
  replies : List (Reply T)
deriving DecidableEq

/-- The member functions. The two overloads of `push` store the same element. -/
inductive QueueOp (T : Type u) where
  | push (item : T)
  | emplace (item : T)
  | pop
  | clear
  | front
  | back
  | size
  | empty
deriving DecidableEq

section model

variable {T : Type u}

namespace SharedQueue

def reply (q : SharedQueue T) (r : Reply T) : SharedQueue T :=
  { q with replies := q.replies ++ [r] }

def pushBack (item : T) (q : SharedQueue T) : SharedQueue T :=
  { q with queue := q.queue ++ [item] }

/-- `queue_.emplace(...)`, which gives the new element back. -/
def emplaceBack (item : T) (q : SharedQueue T) : SharedQueue T :=
  (q.pushBack item).reply (.element item)

/-- `queue_.front()`, copied, and `queue_.pop()`. -/
def takeFront (q : SharedQueue T) : SharedQueue T :=
  match q.queue with
  | item :: queue => reply { q with queue } (.element item)
  | [] => q

def swapEmpty (q : SharedQueue T) : SharedQueue T := { q with queue := [] }

def readFront (q : SharedQueue T) : SharedQueue T :=
  match q.queue.head? with
  | some item => q.reply (.element item)
  | none => q

def readBack (q : SharedQueue T) : SharedQueue T :=
  match q.queue.getLast? with
  | some item => q.reply (.element item)
  | none => q

def readSize (q : SharedQueue T) : SharedQueue T := q.reply (.size q.queue.length)

def readEmpty (q : SharedQueue T) : SharedQueue T := q.reply (.empty q.queue.isEmpty)

/-- The predicate of the waits. -/
def nonEmpty (q : SharedQueue T) : Bool := !q.queue.isEmpty

end SharedQueue

open SharedQueue

namespace QueueOp

/-- A `std::scoped_lock` around one access. -/
def underLock (f : SharedQueue T → SharedQueue T) : List (Instr (SharedQueue T)) :=
  [.lock, .act f, .unlock]

/-- A `std::unique_lock`, the wait, and one access. -/
def onceNonEmpty (f : SharedQueue T → SharedQueue T) : List (Instr (SharedQueue T)) :=
  [.lock, .wait nonEmpty, .act f, .unlock]

def body : QueueOp T → List (Instr (SharedQueue T))
  | .push item => underLock (pushBack item)
  | .emplace item => underLock (emplaceBack item)
  | .pop => onceNonEmpty takeFront
  | .clear => underLock swapEmpty
  | .front => onceNonEmpty readFront
  | .back => onceNonEmpty readBack
  | .size => underLock readSize
  | .empty => underLock readEmpty

/-- The functions that add an element. -/
def Inserts : QueueOp T → Prop
  | .push _ | .emplace _ => True
  | .pop | .clear | .front | .back | .size | .empty => False

end QueueOp

end model

open SharedQueue QueueOp

theorem nonEmpty_iff {T : Type u} (q : SharedQueue T) : nonEmpty q = true ↔ q.queue ≠ [] := by
  rw [nonEmpty, Bool.not_eq_true', List.isEmpty_eq_false_iff]

theorem nonEmpty_eq_false_iff {T : Type u} (q : SharedQueue T) :
    nonEmpty q = false ↔ q.queue = [] := by
  rw [nonEmpty, Bool.not_eq_eq_eq_not, Bool.not_false, List.isEmpty_iff]

/-- A `ThreadSafeQueue` and the threads that use it. -/
abbrev QueueState (α : Type v) (T : Type u) := Monitor α (SharedQueue T) (QueueOp T)

section bodies

variable {T : Type u} {op : QueueOp T} {f : SharedQueue T → SharedQueue T}
  {code : List (Instr (SharedQueue T))}

theorem bracketed_body (op : QueueOp T) : Bracketed op.body False := by
  cases op <;> simp [body, underLock, onceNonEmpty, Bracketed]

theorem neverNotifies_body : NeverNotifies (body : QueueOp T → _) := by
  intro op
  cases op <;> simp [body, underLock, onceNonEmpty]

/-- All waits are for the queue to be non-empty. -/
theorem ready_of_suffix {ready : SharedQueue T → Bool} (h : .wait ready :: code <:+ op.body) :
    ready = nonEmpty := by
  cases op <;> simp [body, underLock, onceNonEmpty, List.suffix_cons_iff] at h <;> exact h.1

/-- An insertion is the last access of its call. -/
theorem insert_of_suffix (hop : op.Inserts) (h : .act f :: code <:+ op.body) :
    (∀ q, (f q).queue ≠ []) ∧ code = [.unlock] := by
  cases op with
  | push item =>
    simp [body, underLock, List.suffix_cons_iff] at h
    refine ⟨fun q => ?_, h.2⟩
    rw [h.1]
    exact List.concat_ne_nil item q.queue
  | emplace item =>
    simp [body, underLock, List.suffix_cons_iff] at h
    refine ⟨fun q => ?_, h.2⟩
    rw [h.1]
    exact List.concat_ne_nil item q.queue
  | pop | clear | front | back | size | empty => exact hop.elim

/-- The other accesses leave an empty queue empty. -/
theorem empty_of_suffix (hop : ¬ op.Inserts) (h : .act f :: code <:+ op.body)
    {q : SharedQueue T} (hq : q.queue = []) : (f q).queue = [] := by
  cases op with
  | push item | emplace item => exact absurd trivial hop
  | pop =>
    simp [body, onceNonEmpty, List.suffix_cons_iff] at h
    rw [h.1, takeFront, hq]
    exact hq
  | clear =>
    simp [body, underLock, List.suffix_cons_iff] at h
    rw [h.1, swapEmpty]
  | front =>
    simp [body, onceNonEmpty, List.suffix_cons_iff] at h
    rw [h.1, readFront, hq]
    exact hq
  | back =>
    simp [body, onceNonEmpty, List.suffix_cons_iff] at h
    rw [h.1, readBack, hq]
    exact hq
  | size =>
    simp [body, underLock, List.suffix_cons_iff] at h
    rw [h.1]
    exact hq
  | empty =>
    simp [body, underLock, List.suffix_cons_iff] at h
    rw [h.1]
    exact hq

end bodies

/-! ## Steps -/

section steps

variable {α : Type v} {T : Type u} [DecidableEq α] {s s' : QueueState α T}
  {ev : MonitorEvent α (QueueOp T)}

/-- What holds in every run. -/
structure QueueInv (s : QueueState α T) : Prop where
  mutex : MutexInv s
  code : CodeInv body s
  unnotified : Unnotified s

omit [DecidableEq α] in
theorem queueInv_init (q : SharedQueue T) : QueueInv (init q : QueueState α T) :=
  ⟨mutexInv_init q, codeInv_init q, fun _ _ _ h => nomatch h⟩

theorem queueInv_step (h : QueueInv s) (hmove : Moves body s ev s') : QueueInv s' :=
  ⟨mutexInv_step bracketed_body h.mutex hmove, codeInv_step h.code hmove,
    unnotified_step neverNotifies_body h.code h.unnotified hmove⟩

def SomeParked (s : QueueState α T) : Prop := ∃ t, (s.thread t).isParked = true

/-- An element is inserted while a thread is parked. -/
def InsertsWhileParked (s : QueueState α T) : MonitorEvent α (QueueOp T) → Prop
  | .run t =>
    (∃ op f code, s.thread t = .running op (.act f :: code) ∧ op.Inserts) ∧ SomeParked s
  | _ => False

/-- While a thread is parked, the queue is empty. -/
def ParkedEmpty (s : QueueState α T) : Prop := SomeParked s → s.shared.queue = []

theorem someParked_of_put {t : α} {th : Thread (SharedQueue T) (QueueOp T)}
    (hth : th.isParked = false) (h : SomeParked (s.put t th)) : SomeParked s := by
  obtain ⟨t', ht'⟩ := h
  by_cases hne : t' = t
  · subst hne
    rw [thread_put_self, hth] at ht'
    exact absurd ht' (by decide)
  · rw [thread_put_of_ne hne] at ht'
    exact ⟨t', ht'⟩

/-- A thread that was not parked moves on, and the others stay parked. -/
theorem someParked_put {t : α} (ht : (s.thread t).isParked = false) (h : SomeParked s)
    (th : Thread (SharedQueue T) (QueueOp T)) : SomeParked (s.put t th) := by
  obtain ⟨t', ht'⟩ := h
  have hne : t' ≠ t := by
    rintro rfl
    rw [ht] at ht'
    exact absurd ht' (by decide)
  exact ⟨t', by rwa [thread_put_of_ne hne]⟩

theorem parkedEmpty_step (hinv : QueueInv s) (h : ParkedEmpty s) (hmove : Moves body s ev s')
    (hev : ¬ InsertsWhileParked s ev) : ParkedEmpty s' := by
  intro hparked
  cases hmove with
  | call ht => exact h (someParked_of_put rfl hparked)
  | ret ht => exact h (someParked_of_put rfl hparked)
  | @lock t op code ht hfree =>
    exact h (someParked_of_put (s := { s with holder := some t }) rfl hparked)
  | unlock ht hheld => exact h (someParked_of_put (s := { s with holder := none }) rfl hparked)
  | @act t op f code ht =>
    have hold : SomeParked s := someParked_of_put (s := { s with shared := f s.shared }) rfl hparked
    have hop : ¬ op.Inserts := fun hop => hev ⟨⟨op, f, code, ht, hop⟩, hold⟩
    exact empty_of_suffix hop (hinv.code.running ht) (h hold)
  | pass ht hheld hready => exact h (someParked_of_put rfl hparked)
  | @park t op ready code ht hheld hready =>
    obtain rfl := ready_of_suffix (hinv.code.running ht)
    exact (nonEmpty_eq_false_iff _).mp hready
  | resume ht hfree => exact absurd ht (hinv.unnotified _ _ _)
  | notifyNone ht hnone => exact absurd trivial (not_due neverNotifies_body hinv.code ht)
  | notifyOne ht ht' => exact absurd trivial (not_due neverNotifies_body hinv.code ht)
  | notifyAll ht => exact absurd trivial (not_due neverNotifies_body hinv.code ht)

omit [DecidableEq α] in
theorem not_lost_of_parkedEmpty (h : ParkedEmpty s) : ¬ LostWakeup nonEmpty s := by
  rintro ⟨hready, -, hparked, -⟩
  exact (nonEmpty_iff _).mp hready (h hparked)

/-- An element has just been inserted under the mutex, with a thread parked. -/
def InsertedWhileParked (s : QueueState α T) : Prop :=
  s.shared.queue ≠ [] ∧ SomeParked s ∧
    ∃ t op, s.thread t = .running op [.unlock] ∧ s.holder = some t

theorem inserted_of_inserts (hinv : QueueInv s) (hmove : Moves body s ev s')
    (hev : InsertsWhileParked s ev) : InsertedWhileParked s' := by
  match ev, hev with
  | .run t, ⟨⟨op, f, code, ht, hop⟩, hparked⟩ =>
    obtain ⟨hne, rfl⟩ := insert_of_suffix hop (hinv.code.running ht)
    rw [moves_act ht hmove]
    refine ⟨hne s.shared, ?_, t, op, thread_put_self .., hinv.mutex.holder_of_act ht⟩
    exact someParked_put (s := { s with shared := f s.shared }) (by simp [ht, Thread.isParked])
      hparked _

/-- From there the wake-up is lost as soon as the mutex is released. -/
theorem insertedWhileParked_step (hinv : QueueInv s) (h : InsertedWhileParked s)
    (hmove : Moves body s ev s') : InsertedWhileParked s' ∨ LostWakeup nonEmpty s' := by
  obtain ⟨hne, hparked, t, op, ht, hheld⟩ := h
  -- Another thread that moves leaves the queue and `t` alone.
  have hother : ∀ t' th, t' ≠ t → (s.thread t').isParked = false →
      InsertedWhileParked (s.put t' th) := fun t' th hne' hnot =>
    ⟨hne, someParked_put hnot hparked th, t, op, by rwa [thread_put_of_ne hne'.symm], hheld⟩
  have hself : ∀ {t' op' instr code}, s.thread t' = .running op' (instr :: code) →
      s.holder = some t' → instr = .unlock := by
    intro t' op' instr code ht' hheld'
    obtain rfl := Option.some.inj (hheld.symm.trans hheld')
    exact (List.cons.inj (Thread.running.inj (ht'.symm.trans ht)).2).1
  cases hmove with
  | @call t' op' ht' =>
    refine Or.inl (hother t' _ ?_ (by rw [ht']; rfl))
    rintro rfl
    exact absurd (ht.symm.trans ht') (by simp)
  | @ret t' op' ht' =>
    refine Or.inl (hother t' _ ?_ (by rw [ht']; rfl))
    rintro rfl
    exact absurd (ht.symm.trans ht') (by simp)
  | lock ht' hfree => exact absurd (hheld.symm.trans hfree) (by simp)
  | @unlock t' op' code ht' hheld' =>
    have hinv' := queueInv_step hinv (.unlock ht' hheld')
    refine Or.inr ⟨?_, rfl, ?_, hinv'.unnotified, fun t'' op'' code'' ht'' => ?_⟩
    · exact (nonEmpty_iff _).mpr hne
    · exact someParked_put (s := { s with holder := none }) (by simp [ht', Thread.isParked])
        hparked _
    · exact not_due neverNotifies_body hinv'.code ht''
  | act ht' => exact absurd (hself ht' (hinv.mutex.holder_of_act ht')) (by simp)
  | pass ht' hheld' hready => exact absurd (hself ht' hheld') (by simp)
  | park ht' hheld' hready => exact absurd (hself ht' hheld') (by simp)
  | resume ht' hfree => exact absurd ht' (hinv.unnotified _ _ _)
  | notifyNone ht' hnone => exact absurd trivial (not_due neverNotifies_body hinv.code ht')
  | notifyOne ht' ht'' => exact absurd trivial (not_due neverNotifies_body hinv.code ht')
  | notifyAll ht' => exact absurd trivial (not_due neverNotifies_body hinv.code ht')

/-- A run that goes on from there until the mutex is free has lost the wake-up. -/
theorem lost_of_inserted {tr : List (MonitorEvent α (QueueOp T) × QueueState α T)}
    (hinv : QueueInv s) (h : InsertedWhileParked s) (hrun : IsRun (Moves body) s tr)
    (hfree : (final s tr).holder = none) : ¬ Always (fun s => ¬ LostWakeup nonEmpty s) s tr := by
  induction tr generalizing s with
  | nil =>
    obtain ⟨-, -, t, op, -, hheld⟩ := h
    exact absurd (hheld.symm.trans hfree) (by simp)
  | cons x tr ih =>
    obtain ⟨ev, s'⟩ := x
    intro halways
    rcases insertedWhileParked_step hinv h hrun.1 with hnext | hlost
    · exact ih (queueInv_step hinv hrun.1) hnext hrun.2 hfree halways.2
    · exact halways.2.head hlost

theorem meets_of_not_lost {tr : List (MonitorEvent α (QueueOp T) × QueueState α T)}
    (hinv : QueueInv s) (hrun : IsRun (Moves body) s tr) (hfree : (final s tr).holder = none)
    (h : Always (fun s => ¬ LostWakeup nonEmpty s) s tr) :
    Meets (fun s ev => ¬ InsertsWhileParked s ev) s tr := by
  induction tr generalizing s with
  | nil => trivial
  | cons x tr ih =>
    obtain ⟨ev, s'⟩ := x
    have hinv' := queueInv_step hinv hrun.1
    refine ⟨fun hev => ?_, ih hinv' hrun.2 hfree h.2⟩
    exact lost_of_inserted hinv' (inserted_of_inserts hinv hrun.1 hev) hrun.2 hfree h.2

end steps

/-- Mutual exclusion, and the rest of `QueueInv`, in every state of every run. -/
theorem queueInv_run {α : Type v} [Fintype α] [DecidableEq α] {T : Type u} (q : SharedQueue T)
    (events : List (MonitorEvent α (QueueOp T))) :
    Always QueueInv (init q) (traceOk (Monitor.step body) (init q) events) :=
  always_of_step (fun _ _ _ h hmove => queueInv_step h hmove) (queueInv_init q)
    (isRun_moves body _ events)

/-- Over every run of any number of threads on a queue: no wake-up is lost in any state if no
    element is inserted while a thread is parked; and only then, in a run that does not end
    inside a critical section. -/
theorem lost_wakeup_iff {α : Type v} [Fintype α] [DecidableEq α] {T : Type u} (queue : List T)
    (events : List (MonitorEvent α (QueueOp T))) :
    let s : QueueState α T := .init ⟨queue, []⟩
    let tr := traceOk (Monitor.step body) s events
    (Meets (fun s ev => ¬ InsertsWhileParked s ev) s tr →
        Always (fun s => ¬ LostWakeup nonEmpty s) s tr) ∧
      ((final s tr).holder = none → Always (fun s => ¬ LostWakeup nonEmpty s) s tr →
        Meets (fun s ev => ¬ InsertsWhileParked s ev) s tr) := by
  intro s tr
  have hinv : QueueInv s := queueInv_init _
  have hrun : IsRun (Moves body) s tr := isRun_moves body s events
  refine ⟨fun hmeets => ?_, fun hfree => meets_of_not_lost hinv hrun hfree⟩
  have halways : Always (fun s => QueueInv s ∧ ParkedEmpty s) s tr := by
    refine always_of_meets ?_ ⟨hinv, fun ⟨_, hparked⟩ => nomatch hparked⟩ hrun hmeets
    intro s ev s' h hev hmove
    exact ⟨queueInv_step h.1 hmove, parkedEmpty_step h.1 h.2 hmove hev⟩
  exact halways.mono fun s h => not_lost_of_parkedEmpty h.2

/-- A consumer (`false`) parks in `pop`; then a producer (`true`) pushes an element. -/
def popThenPush : List (MonitorEvent Bool (QueueOp Nat)) :=
  [.call false .pop, .run false, .run false,
    .call true (.push 1), .run true, .run true, .run true]

/-- The element is in the queue, the mutex is free, nobody will notify: the `pop` sleeps on. -/
theorem pop_sleeps_on :
    (final (.init ⟨[], []⟩ : QueueState Bool Nat)
        (traceOk (Monitor.step body) (.init ⟨[], []⟩) popThenPush)).shared.queue = [1] ∧
      LostWakeup nonEmpty (final (.init ⟨[], []⟩ : QueueState Bool Nat)
        (traceOk (Monitor.step body) (.init ⟨[], []⟩) popThenPush)) := by
  have hinv := (queueInv_run ⟨[], []⟩ popThenPush).final
  refine ⟨rfl, rfl, rfl, ⟨false, rfl⟩, hinv.unnotified, fun t op code ht => ?_⟩
  exact not_due neverNotifies_body hinv.code ht

end RehldsM.Util
