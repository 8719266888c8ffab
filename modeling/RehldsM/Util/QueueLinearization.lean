import RehldsM.Lib.Linearization
import RehldsM.Util.ThreadsafeQueue

/-
  `ThreadSafeQueue` is linearizable: whatever the threads do, the calls have the effects and the
  replies of a plain queue that is used by one thread, which makes the calls in the order in which
  they got hold of the queue (`linearizable`). So what `pop` hands out comes out in the order it
  was put in, and once (`popped_in_order`).

  In the plain queue `pop`, `front` and `back` have no result when it is empty. That they are
  never called then is part of the statement.
-/

namespace RehldsM.Util

open Lib Lib.Monitor

universe u v

/-! ## A queue of one thread -/

section sequential

variable {T : Type u}

/-- What a call leaves in the queue, and what it returns. -/
def QueueOp.plain : QueueOp T → List T → Option (List T × Option (Reply T))
  | .push item, queue => some (queue ++ [item], none)
  | .emplace item, queue => some (queue ++ [item], some (.element item))
  | .pop, item :: queue => some (queue, some (.element item))
  | .pop, [] => none
  | .clear, _ => some ([], none)
  | .front, queue => queue.head?.map fun item => (queue, some (.element item))
  | .back, queue => queue.getLast?.map fun item => (queue, some (.element item))
  | .size, queue => some (queue, some (.size queue.length))
  | .empty, queue => some (queue, some (.empty queue.isEmpty))

/-- The calls one after the other: the queue they leave, and the replies. -/
def plainRun (queue : List T) : List (QueueOp T) → Option (List T × List (Option (Reply T)))
  | [] => some (queue, [])
  | op :: ops => do
    let (queue, reply) ← op.plain queue
    let (queue, replies) ← plainRun queue ops
    return (queue, reply :: replies)

/-- The elements the calls put in. -/
def inserted (ops : List (QueueOp T)) : List T :=
  ops.filterMap fun
    | .push item | .emplace item => some item
    | _ => none

/-- The elements that the calls of `pop` returned. -/
def popped (ops : List (QueueOp T)) (replies : List (Option (Reply T))) : List T :=
  (ops.zip replies).filterMap fun
    | (.pop, some (.element item)) => some item
    | _ => none

/-- What a call does to the shared queue, by the plain queue. -/
def QueueOp.onShared (op : QueueOp T) (q : SharedQueue T) : Option (SharedQueue T) :=
  (op.plain q.queue).map fun (queue, reply) => ⟨queue, q.replies ++ reply.toList⟩

theorem plainRun_cons {queue queue' : List T} {op : QueueOp T} {ops : List (QueueOp T)}
    {replies : List (Option (Reply T))} :
    plainRun queue (op :: ops) = some (queue', replies) ↔
      ∃ next reply rest, op.plain queue = some (next, reply) ∧
        plainRun next ops = some (queue', rest) ∧ replies = reply :: rest := by
  simp only [plainRun, Option.bind_eq_bind, Option.bind_eq_some_iff, Prod.exists, Option.pure_def,
    Option.some.injEq, Prod.mk.injEq]
  constructor
  · rintro ⟨next, reply, hop, queue'', rest, hrest, rfl, rfl⟩
    exact ⟨next, reply, rest, hop, hrest, rfl⟩
  · rintro ⟨next, reply, rest, hop, hrest, rfl⟩
    exact ⟨next, reply, hop, queue', rest, hrest, rfl, rfl⟩

/-- The shared queue goes through the states of the plain one, and collects its replies. -/
theorem plainRun_of_replay {ops : List (QueueOp T)} {q q' : SharedQueue T}
    (h : replay QueueOp.onShared ops q = some q') :
    ∃ replies, plainRun q.queue ops = some (q'.queue, replies) ∧
      q'.replies = q.replies ++ replies.reduceOption := by
  induction ops generalizing q with
  | nil =>
    obtain rfl := Option.some.inj h
    exact ⟨[], rfl, (List.append_nil _).symm⟩
  | cons op ops ih =>
    rw [replay, List.foldlM_cons, Option.bind_eq_bind, Option.bind_eq_some_iff] at h
    obtain ⟨next, hop, hrest⟩ := h
    rw [QueueOp.onShared, Option.map_eq_some_iff] at hop
    obtain ⟨⟨queue, reply⟩, hplain, rfl⟩ := hop
    obtain ⟨replies, hrun, hreplies⟩ := ih hrest
    refine ⟨reply :: replies, plainRun_cons.mpr ⟨queue, reply, replies, hplain, hrun, rfl⟩, ?_⟩
    rw [hreplies, List.append_assoc]
    cases reply <;> rfl

/-! ## First in, first out -/

/-- A call other than `clear` puts in at the back what it inserts, and takes out at the front
    what it returns. -/
theorem plain_fifo {op : QueueOp T} {queue next : List T} {reply : Option (Reply T)}
    (h : op.plain queue = some (next, reply)) (hclear : op ≠ .clear) :
    popped [op] [reply] ++ next = queue ++ inserted [op] := by
  cases op with
  | push item | emplace item =>
    obtain ⟨rfl, rfl⟩ := Prod.mk.inj (Option.some.inj h)
    rfl
  | pop =>
    cases queue with
    | nil => cases h
    | cons item queue =>
      obtain ⟨rfl, rfl⟩ := Prod.mk.inj (Option.some.inj h)
      exact (List.append_nil _).symm
  | clear => exact absurd rfl hclear
  | front | back =>
    rw [QueueOp.plain, Option.map_eq_some_iff] at h
    obtain ⟨item, -, heq⟩ := h
    obtain ⟨rfl, rfl⟩ := Prod.mk.inj heq
    exact (List.append_nil _).symm
  | size | empty =>
    obtain ⟨rfl, rfl⟩ := Prod.mk.inj (Option.some.inj h)
    exact (List.append_nil _).symm

theorem popped_cons (op : QueueOp T) (ops : List (QueueOp T)) (reply : Option (Reply T))
    (replies : List (Option (Reply T))) :
    popped (op :: ops) (reply :: replies) = popped [op] [reply] ++ popped ops replies := by
  rw [popped, List.zip_cons_cons, ← List.singleton_append, List.filterMap_append]
  rfl

theorem inserted_cons (op : QueueOp T) (ops : List (QueueOp T)) :
    inserted (op :: ops) = inserted [op] ++ inserted ops := by
  rw [inserted, ← List.singleton_append, List.filterMap_append]
  rfl

/-- What is popped, and what is left, is what was there and what came in: the elements that a
    `clear` has thrown away are missing from it. -/
theorem plainRun_fifo {ops : List (QueueOp T)} {queue queue' : List T}
    {replies : List (Option (Reply T))} (h : plainRun queue ops = some (queue', replies)) :
    (popped ops replies ++ queue').Sublist (queue ++ inserted ops) ∧
      (.clear ∉ ops → popped ops replies ++ queue' = queue ++ inserted ops) := by
  induction ops generalizing queue replies with
  | nil =>
    obtain ⟨rfl, rfl⟩ := Prod.mk.inj (Option.some.inj h)
    have hsame : popped [] [] ++ queue = queue ++ inserted ([] : List (QueueOp T)) :=
      (List.append_nil queue).symm
    exact ⟨hsame ▸ List.Sublist.refl _, fun _ => hsame⟩
  | cons op ops ih =>
    obtain ⟨next, reply, rest, hop, hrun, rfl⟩ := plainRun_cons.mp h
    obtain ⟨hsub, hall⟩ := ih hrun
    rw [popped_cons, inserted_cons, List.append_assoc]
    by_cases hclear : op = .clear
    · subst hclear
      obtain ⟨rfl, rfl⟩ := Prod.mk.inj (Option.some.inj hop)
      refine ⟨hsub.trans ?_, fun hnot => absurd List.mem_cons_self hnot⟩
      exact List.sublist_append_right _ _
    · have hfirst := plain_fifo hop hclear
      rw [← List.append_assoc queue, ← hfirst, List.append_assoc]
      refine ⟨List.Sublist.append (List.Sublist.refl _) hsub, fun hnot => ?_⟩
      rw [hall fun hmem => hnot (List.mem_cons_of_mem _ hmem)]

end sequential

/-! ## The calls on the shared queue -/

section shared

variable {T : Type u}

theorem onShared_takeFront {q : SharedQueue T} (h : q.nonEmpty = true) :
    QueueOp.pop.onShared q = some q.takeFront := by
  obtain ⟨queue, replies⟩ := q
  cases queue with
  | nil => cases h
  | cons item queue => rfl

theorem onShared_readFront {q : SharedQueue T} (h : q.nonEmpty = true) :
    QueueOp.front.onShared q = some q.readFront := by
  obtain ⟨queue, replies⟩ := q
  cases queue with
  | nil => cases h
  | cons item queue => rfl

theorem onShared_readBack {q : SharedQueue T} (h : q.nonEmpty = true) :
    QueueOp.back.onShared q = some q.readBack := by
  obtain ⟨item, hitem⟩ : ∃ item, q.queue.getLast? = some item :=
    Option.isSome_iff_exists.mp (List.getLast?_isSome.mpr ((nonEmpty_iff q).mp h))
  simp [QueueOp.onShared, QueueOp.plain, SharedQueue.readBack, hitem, SharedQueue.reply]

open QueueOp SharedQueue

/-- Every member function accesses the queue once, under the mutex, and does what it does to a
    plain queue; the waits are for what that needs. -/
theorem accessesOnce_body : AccessesOnce (body : QueueOp T → _) onShared where
  bracketed := bracketed_body
  once op := by cases op <;> rfl
  enabled op f code h := by
    cases op with
    | push item | emplace item | clear | size | empty =>
      simp [body, underLock, List.suffix_cons_iff] at h
      obtain ⟨rfl, rfl⟩ := h
      refine Or.inl fun q => ?_
      simp [onShared, plain, pushBack, emplaceBack, swapEmpty, readSize, readEmpty, reply]
    | pop =>
      simp [body, onceNonEmpty, List.suffix_cons_iff] at h
      obtain ⟨rfl, rfl⟩ := h
      exact Or.inr ⟨nonEmpty, List.suffix_cons _ _, fun q hq => onShared_takeFront hq⟩
    | front =>
      simp [body, onceNonEmpty, List.suffix_cons_iff] at h
      obtain ⟨rfl, rfl⟩ := h
      exact Or.inr ⟨nonEmpty, List.suffix_cons _ _, fun q hq => onShared_readFront hq⟩
    | back =>
      simp [body, onceNonEmpty, List.suffix_cons_iff] at h
      obtain ⟨rfl, rfl⟩ := h
      exact Or.inr ⟨nonEmpty, List.suffix_cons _ _, fun q hq => onShared_readBack hq⟩

end shared

section runs

variable {α : Type v} [Fintype α] [DecidableEq α] {T : Type u} (queue : List T)
  (events : List (MonitorEvent α (QueueOp T)))

/-- The run of some threads on a queue that holds these elements. -/
def queueRun : List (MonitorEvent α (QueueOp T) × QueueState α T) :=
  traceOk (Monitor.step QueueOp.body) (init ⟨queue, []⟩) events

/-- The calls, in the order of their accesses. -/
def callOrder : List (QueueOp T) := accesses (points (init ⟨queue, []⟩) (queueRun queue events))

/-- The queue at the end. -/
def queueAfter : SharedQueue T := (final (init ⟨queue, []⟩) (queueRun queue events)).shared

theorem plainRun_callOrder :
    ∃ replies, plainRun queue (callOrder queue events) =
        some ((queueAfter queue events).queue, replies) ∧
      replies.reduceOption = (queueAfter queue events).replies := by
  have hreplay := accesses_replay (α := α) accessesOnce_body
    (linearInv_init QueueOp.body QueueOp.onShared ⟨queue, []⟩)
    (isRun_moves QueueOp.body _ events)
  obtain ⟨replies, hrun, hreplies⟩ := plainRun_of_replay hreplay
  exact ⟨replies, hrun, hreplies.symm⟩

end runs

/-- What the calls of `pop` have returned, in the order in which they took it, and then what is
    still queued, is a part of what the queue held and what was inserted, in order; all of it
    where nobody clears the queue. -/
theorem popped_in_order {α : Type v} [Fintype α] [DecidableEq α] {T : Type u} (queue : List T)
    (events : List (MonitorEvent α (QueueOp T))) :
    ∃ replies, plainRun queue (callOrder queue events) =
        some ((queueAfter queue events).queue, replies) ∧
      replies.reduceOption = (queueAfter queue events).replies ∧
      let out := popped (callOrder queue events) replies ++ (queueAfter queue events).queue
      let ins := queue ++ inserted (callOrder queue events)
      out.Sublist ins ∧ (.clear ∉ callOrder queue events → out = ins) := by
  obtain ⟨replies, hrun, hreplies⟩ := plainRun_callOrder queue events
  exact ⟨replies, hrun, hreplies, plainRun_fifo hrun⟩

end RehldsM.Util
