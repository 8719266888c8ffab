import RehldsM.Lib.Monitor

/-
  Linearizability of the operations of a monitor.

  A call shows three points in a run: it is invoked, it accesses the shared state, and it
  responds. Where every operation accesses the state once (`AccessesOnce`), the points of a thread
  are those of one call after the other (`points_whole`), and the accesses, taken in the order
  they happen in, are a sequential run of the operations from the first state to the last
  (`accesses_replay`). As a call takes effect between its invocation and its response, that
  order contradicts no order in time.
-/

namespace RehldsM.Lib.Monitor

universe u v w

inductive PointKind where
  | invoke
  | access
  | respond
deriving DecidableEq

structure Point (α : Type u) (ω : Type w) where
  thread : α
  op : ω
  kind : PointKind
deriving DecidableEq

section points

variable {α : Type u} {σ : Type v} {ω : Type w}

/-- The point an event is, if any. -/
def point (s : Monitor α σ ω) : MonitorEvent α ω → Option (Point α ω)
  | .call t op => some ⟨t, op, .invoke⟩
  | .run t =>
    match s.thread t with
    | .running op [] => some ⟨t, op, .respond⟩
    | .running op (.act _ :: _) => some ⟨t, op, .access⟩
    | _ => none
  | .notify _ _ => none

def points : Monitor α σ ω → List (MonitorEvent α ω × Monitor α σ ω) → List (Point α ω)
  | _, [] => []
  | s, (ev, s') :: tr => (s.point ev).toList ++ points s' tr

/-- The calls in the order of their accesses. -/
def accesses (ps : List (Point α ω)) : List ω :=
  ps.filterMap fun p => if p.kind = .access then some p.op else none

/-- The accesses of the code. -/
def acts (code : List (Instr σ)) : List (σ → σ) :=
  code.filterMap fun
    | .act f => some f
    | _ => none

/-- The points of a whole call. -/
def whole (t : α) (op : ω) : List (Point α ω) :=
  [⟨t, op, .invoke⟩, ⟨t, op, .access⟩, ⟨t, op, .respond⟩]

/-- The points that the call a thread is in has still to show. -/
def remaining (t : α) : Thread σ ω → List (Point α ω)
  | .idle => []
  | .running op code | .parked op code | .woken op code =>
    (acts code).map (fun _ => ⟨t, op, .access⟩) ++ [⟨t, op, .respond⟩]

/-- Every operation accesses the state once, under the mutex, and does there what `spec` says of
    it: always, or because it has just waited for that. -/
structure AccessesOnce (body : ω → List (Instr σ)) (spec : ω → σ → Option σ) : Prop where
  bracketed : ∀ op, Bracketed (body op) False
  once : ∀ op, (acts (body op)).length = 1
  enabled : ∀ op f code, .act f :: code <:+ body op → (∀ s, spec op s = some (f s)) ∨
    ∃ ready, .wait ready :: .act f :: code <:+ body op ∧
      ∀ s, ready s = true → spec op s = some (f s)

/-- A thread in front of its access finds the state that `spec` asks for. One that has parked goes
    on with its wait. -/
def Enabled (spec : ω → σ → Option σ) (shared : σ) : Thread σ ω → Prop
  | .idle => True
  | .running op code =>
    ∀ f rest, code = .act f :: rest → spec op shared = some (f shared)
  | .parked _ code | .woken _ code => ∃ ready rest, code = .wait ready :: rest

def EnabledInv (spec : ω → σ → Option σ) (s : Monitor α σ ω) : Prop :=
  ∀ t, Enabled spec s.shared (s.thread t)

end points

section threads

variable {α : Type u} {σ : Type v} {ω : Type w} {body : ω → List (Instr σ)}
  {spec : ω → σ → Option σ} {s : Monitor α σ ω}

theorem remaining_wake (t : α) (th : Thread σ ω) : remaining t th.wake = remaining t th := by
  cases th <;> rfl

theorem remaining_call (h : AccessesOnce body spec) (t : α) (op : ω) :
    ⟨t, op, .invoke⟩ :: remaining t (.running op (body op)) = whole t op := by
  obtain ⟨f, hf⟩ := List.length_eq_one_iff.mp (h.once op)
  rw [remaining, hf]
  rfl

/-- Behind anything but a wait the access does what `spec` says in every state. -/
theorem AccessesOnce.enabled_behind (h : AccessesOnce body spec) {op : ω} {instr : Instr σ}
    {f : σ → σ} {code : List (Instr σ)} (hsuffix : instr :: .act f :: code <:+ body op)
    (hwait : ∀ ready, instr ≠ .wait ready) (shared : σ) : spec op shared = some (f shared) := by
  rcases h.enabled op f code ((List.suffix_cons _ _).trans hsuffix) with hall | ⟨ready, hready, -⟩
  · exact hall shared
  · have heq := List.IsSuffix.eq_of_length
      (List.suffix_of_suffix_length_le hready hsuffix (Nat.le_refl _)) rfl
    exact absurd (List.cons.inj heq).1.symm (hwait ready)

/-- Behind a wait it does so in every state the wait lets through. -/
theorem AccessesOnce.enabled_wait (h : AccessesOnce body spec) {op : ω} {ready : σ → Bool}
    {f : σ → σ} {code : List (Instr σ)} (hsuffix : .wait ready :: .act f :: code <:+ body op)
    {shared : σ} (hready : ready shared = true) : spec op shared = some (f shared) := by
  rcases h.enabled op f code ((List.suffix_cons _ _).trans hsuffix) with
    hall | ⟨ready', hready', hpass⟩
  · exact hall shared
  · have heq := List.IsSuffix.eq_of_length
      (List.suffix_of_suffix_length_le hready' hsuffix (Nat.le_refl _)) rfl
    obtain rfl : ready' = ready := Instr.wait.inj (List.cons.inj heq).1
    exact hpass shared hready

/-- An operation does not begin with its access. -/
theorem AccessesOnce.enabled_start (h : AccessesOnce body spec) {op : ω} {f : σ → σ}
    {code : List (Instr σ)} (hbody : body op = .act f :: code) : False := by
  have hbracketed := h.bracketed op
  rw [hbody] at hbracketed
  exact hbracketed.1

/-- The rest of a thread's code, behind an instruction that is no wait. -/
theorem AccessesOnce.enabled_rest (h : AccessesOnce body spec) (hcode : CodeInv body s) {t : α}
    {op : ω} {instr : Instr σ} {code : List (Instr σ)}
    (ht : s.thread t = .running op (instr :: code)) (hwait : ∀ ready, instr ≠ .wait ready)
    (shared : σ) : Enabled spec shared (.running op code) := by
  rintro f rest rfl
  exact h.enabled_behind (hcode.running ht) hwait shared

end threads

section steps

variable {α : Type u} {σ : Type v} {ω : Type w} [DecidableEq α] {body : ω → List (Instr σ)}
  {spec : ω → σ → Option σ} {s s' : Monitor α σ ω} {ev : MonitorEvent α ω}

/-! ## The points of one thread -/

/-- The points of thread `t`. -/
def pointsOf (t : α) (ps : List (Point α ω)) : List (Point α ω) := ps.filter (·.thread = t)

theorem pointsOf_self {t : α} {ps : List (Point α ω)} (h : ∀ p ∈ ps, p.thread = t) :
    pointsOf t ps = ps :=
  List.filter_eq_self.mpr fun p hp => decide_eq_true (h p hp)

theorem pointsOf_other {t t' : α} (hne : t ≠ t') {ps : List (Point α ω)}
    (h : ∀ p ∈ ps, p.thread = t') : pointsOf t ps = [] :=
  List.filter_eq_nil_iff.mpr fun p hp => by simp [h p hp, hne.symm]

/-- Thread `t'` shows the points `ps` and moves on. -/
theorem remaining_put (ps : List (Point α ω)) {t' : α} {th : Thread σ ω}
    (hps : ∀ p ∈ ps, p.thread = t')
    (hself : ps ++ remaining t' th = remaining t' (s.thread t')) (shared : σ) (holder : Option α)
    (t : α) :
    pointsOf t ps ++ remaining t ((Monitor.put { s with shared, holder } t' th).thread t) =
      remaining t (s.thread t) := by
  by_cases hne : t = t'
  · subst hne
    rw [pointsOf_self hps, thread_put_self, hself]
  · rw [pointsOf_other hne hps, thread_put_of_ne hne]
    rfl

/-- A step shows the next point of the call it is in, or none; an invocation begins a call. -/
theorem remaining_step (h : AccessesOnce body spec) (hmove : Moves body s ev s') (t : α) :
    ∃ ops : List ω, pointsOf t (s.point ev).toList ++ remaining t (s'.thread t) =
      remaining t (s.thread t) ++ ops.flatMap (whole t) := by
  -- All but an invocation go on with the calls that have begun.
  have hgoes : ∀ ps : List (Point α ω), (s.point ev).toList = ps →
      pointsOf t ps ++ remaining t (s'.thread t) = remaining t (s.thread t) →
      ∃ ops : List ω, pointsOf t (s.point ev).toList ++ remaining t (s'.thread t) =
        remaining t (s.thread t) ++ ops.flatMap (whole t) := by
    rintro ps rfl heq
    exact ⟨[], heq.trans (List.append_nil _).symm⟩
  cases hmove with
  | @call t' op ht =>
    have hpoint : (s.point (.call t' op)).toList = [⟨t', op, .invoke⟩] := rfl
    by_cases hne : t = t'
    · subst hne
      refine ⟨[op], ?_⟩
      rw [hpoint, pointsOf_self (by simp), thread_put_self, ht, List.flatMap_singleton,
        ← remaining_call h]
      rfl
    · refine ⟨[], ?_⟩
      rw [hpoint, pointsOf_other hne (by simp), thread_put_of_ne hne, List.flatMap_nil,
        List.append_nil]
      rfl
  | @ret t' op ht =>
    refine hgoes [⟨t', op, .respond⟩] (by simp [point, ht]) ?_
    exact remaining_put [⟨t', op, .respond⟩] (by simp) (by rw [ht]; rfl) s.shared s.holder t
  | @lock t' op code ht hfree =>
    refine hgoes [] (by simp [point, ht]) ?_
    exact remaining_put [] (by simp) (by rw [ht]; rfl) s.shared (some t') t
  | @unlock t' op code ht hheld =>
    refine hgoes [] (by simp [point, ht]) ?_
    exact remaining_put [] (by simp) (by rw [ht]; rfl) s.shared none t
  | @act t' op f code ht =>
    refine hgoes [⟨t', op, .access⟩] (by simp [point, ht]) ?_
    exact remaining_put [⟨t', op, .access⟩] (by simp) (by rw [ht]; rfl) (f s.shared) s.holder t
  | @pass t' op ready code ht hheld hready =>
    refine hgoes [] (by simp [point, ht]) ?_
    exact remaining_put [] (by simp) (by rw [ht]; rfl) s.shared s.holder t
  | @park t' op ready code ht hheld hready =>
    refine hgoes [] (by simp [point, ht]) ?_
    exact remaining_put [] (by simp) (by rw [ht]; rfl) s.shared none t
  | @resume t' op code ht hfree =>
    refine hgoes [] (by simp [point, ht]) ?_
    exact remaining_put [] (by simp) (by rw [ht]; rfl) s.shared (some t') t
  | @notifyNone t' op code ht hnone =>
    refine hgoes [] (by simp [point, ht]) ?_
    exact remaining_put [] (by simp) (by rw [ht]; rfl) s.shared s.holder t
  | @notifyOne t' t'' op op' code code' ht ht' =>
    have hfirst : ∀ t, remaining t ((s.put t' (.running op code)).thread t) =
        remaining t (s.thread t) :=
      remaining_put [] (by simp) (by rw [ht]; rfl) s.shared s.holder
    have hwoken : [] ++ remaining t'' (.woken op' code') =
        remaining t'' ((s.put t' (.running op code)).thread t'') := by
      rw [hfirst t'', ht']
      rfl
    refine hgoes [] rfl (Eq.trans ?_ (hfirst t))
    exact remaining_put (s := s.put t' (.running op code)) [] (by simp) hwoken s.shared s.holder t
  | @notifyAll t' op code ht =>
    have hwake : ∀ t, remaining t (s.thread t).wake = remaining t (s.thread t) := fun t =>
      remaining_wake t _
    refine hgoes [] (by simp [point, ht]) (Eq.trans ?_ (hwake t))
    refine remaining_put (s := { s with thread := fun t' => (s.thread t').wake }) [] (by simp) ?_
      s.shared s.holder t
    rw [hwake t', ht]
    rfl

theorem pointsOf_append (t : α) (ps ps' : List (Point α ω)) :
    pointsOf t (ps ++ ps') = pointsOf t ps ++ pointsOf t ps' := List.filter_append ..

/-- Over a run, a thread shows the points of one call after the other. -/
theorem remaining_run (h : AccessesOnce body spec)
    {tr : List (MonitorEvent α ω × Monitor α σ ω)} (hrun : IsRun (Moves body) s tr) (t : α) :
    ∃ ops : List ω, pointsOf t (points s tr) ++ remaining t ((final s tr).thread t) =
      remaining t (s.thread t) ++ ops.flatMap (whole t) := by
  induction tr generalizing s with
  | nil => exact ⟨[], (List.append_nil _).symm⟩
  | cons x tr ih =>
    obtain ⟨ev, s'⟩ := x
    obtain ⟨first, hfirst⟩ := remaining_step h hrun.1 t
    obtain ⟨rest, hrest⟩ := ih hrun.2
    refine ⟨first ++ rest, ?_⟩
    rw [points, pointsOf_append, List.append_assoc]
    show _ ++ (_ ++ remaining t ((final s' tr).thread t)) = _
    rw [hrest, ← List.append_assoc, hfirst, List.append_assoc, List.flatMap_append]

/-! ## The accesses -/

omit [DecidableEq α] in
theorem enabledInv_init (spec : ω → σ → Option σ) (shared : σ) :
    EnabledInv spec (init shared : Monitor α σ ω) := fun _ => trivial

/-- Thread `t` moves on, and leaves the shared state as it is. -/
theorem EnabledInv.put (h : EnabledInv spec s) {t : α} {th : Thread σ ω} (holder : Option α)
    (hself : Enabled spec s.shared th) :
    EnabledInv spec (Monitor.put { s with holder } t th) :=
  forall_put (P := fun _ th => Enabled spec s.shared th) hself fun t' _ => h t'

theorem enabledInv_step (h : AccessesOnce body spec) (hmutex : MutexInv s)
    (hcode : CodeInv body s) (hen : EnabledInv spec s) (hmove : Moves body s ev s') :
    EnabledInv spec s' := by
  cases hmove with
  | @call t op ht =>
    refine hen.put s.holder ?_
    rintro f rest hbody
    exact (h.enabled_start hbody).elim
  | ret ht => exact hen.put s.holder trivial
  | @lock t op code ht hfree => exact hen.put (some t) (h.enabled_rest hcode ht (by simp) _)
  | unlock ht hheld => exact hen.put none (h.enabled_rest hcode ht (by simp) _)
  | @act t op f code ht =>
    have hheld := hmutex.holder_of_act ht
    refine forall_put (P := fun _ th => Enabled spec (f s.shared) th)
      (h.enabled_rest hcode ht (by simp) _) fun t' hne => ?_
    -- Another thread in front of its access would hold the mutex as well.
    show Enabled spec (f s.shared) (s.thread t')
    have hold := hen t'
    cases ht' : s.thread t' with
    | idle => trivial
    | running op' code' =>
      rintro g rest rfl
      exact absurd (Option.some.inj (hheld.symm.trans (hmutex.holder_of_act ht'))).symm hne
    | parked op' code' =>
      rw [ht'] at hold
      exact hold
    | woken op' code' =>
      rw [ht'] at hold
      exact hold
  | @pass t op ready code ht hheld hready =>
    refine hen.put s.holder ?_
    rintro f rest rfl
    exact h.enabled_wait (hcode.running ht) hready
  | park ht hheld hready => exact hen.put none ⟨_, _, rfl⟩
  | @resume t op code ht hfree =>
    have hold := hen t
    rw [ht] at hold
    obtain ⟨ready, rest, rfl⟩ := hold
    refine hen.put (some t) ?_
    rintro f rest' heq
    exact absurd (List.cons.inj heq).1 (by simp)
  | notifyNone ht hnone => exact hen.put s.holder (h.enabled_rest hcode ht (by simp) _)
  | @notifyOne t t' op op' code code' ht ht' =>
    have hold := hen t'
    rw [ht'] at hold
    have hfirst : EnabledInv spec (s.put t (.running op code)) :=
      hen.put s.holder (h.enabled_rest hcode ht (by simp) _)
    exact hfirst.put s.holder hold
  | @notifyAll t op code ht =>
    refine EnabledInv.put (s := { s with thread := fun t' => (s.thread t').wake }) (fun t' => ?_)
      s.holder (h.enabled_rest hcode ht (by simp) _)
    have hold := hen t'
    show Enabled spec s.shared (s.thread t').wake
    cases ht' : s.thread t' <;> rw [ht'] at hold <;> exact hold

/-- What holds in every run of operations that access the state once. -/
structure LinearInv (body : ω → List (Instr σ)) (spec : ω → σ → Option σ) (s : Monitor α σ ω) :
    Prop where
  mutex : MutexInv s
  code : CodeInv body s
  enabled : EnabledInv spec s

omit [DecidableEq α] in
theorem linearInv_init (body : ω → List (Instr σ)) (spec : ω → σ → Option σ) (shared : σ) :
    LinearInv body spec (init shared : Monitor α σ ω) :=
  ⟨mutexInv_init shared, codeInv_init shared, enabledInv_init spec shared⟩

theorem linearInv_step (h : AccessesOnce body spec) (hinv : LinearInv body spec s)
    (hmove : Moves body s ev s') : LinearInv body spec s' :=
  ⟨mutexInv_step h.bracketed hinv.mutex hmove, codeInv_step hinv.code hmove,
    enabledInv_step h hinv.mutex hinv.code hinv.enabled hmove⟩

/-- The operations, one after the other; none where one of them is not possible. -/
def replay (spec : ω → σ → Option σ) (ops : List ω) (shared : σ) : Option σ :=
  ops.foldlM (fun shared op => spec op shared) shared

omit [DecidableEq α] in
theorem accesses_append (ps ps' : List (Point α ω)) :
    accesses (ps ++ ps') = accesses ps ++ accesses ps' := List.filterMap_append ..

/-- One step is an access as `spec` says, or leaves the shared state. -/
theorem replay_step (hinv : LinearInv body spec s) (hmove : Moves body s ev s') :
    replay spec (accesses (s.point ev).toList) s.shared = some s'.shared := by
  cases hmove with
  | @act t op f code ht =>
    have hen := hinv.enabled t
    rw [ht] at hen
    have hpoint : accesses (s.point (.run t)).toList = [op] := by simp [point, ht, accesses]
    have hspec : spec op s.shared = some (f s.shared) := hen f code rfl
    rw [hpoint]
    simp [replay, hspec, Monitor.put]
  | call ht => rfl
  | notifyOne ht ht' => rfl
  | ret ht => simp [point, ht, accesses, replay, Monitor.put]
  | lock ht hfree => simp [point, ht, accesses, replay, Monitor.put]
  | unlock ht hheld => simp [point, ht, accesses, replay, Monitor.put]
  | pass ht hheld hready => simp [point, ht, accesses, replay, Monitor.put]
  | park ht hheld hready => simp [point, ht, accesses, replay, Monitor.put]
  | resume ht hfree => simp [point, ht, accesses, replay, Monitor.put]
  | notifyNone ht hnone => simp [point, ht, accesses, replay, Monitor.put]
  | notifyAll ht => simp [point, ht, accesses, replay, Monitor.put]

/-- The accesses in their order are a sequential run. -/
theorem accesses_replay (h : AccessesOnce body spec) (hinv : LinearInv body spec s)
    {tr : List (MonitorEvent α ω × Monitor α σ ω)} (hrun : IsRun (Moves body) s tr) :
    replay spec (accesses (points s tr)) s.shared = some (final s tr).shared := by
  induction tr generalizing s with
  | nil => rfl
  | cons x tr ih =>
    obtain ⟨ev, s'⟩ := x
    have hrest := ih (linearInv_step h hinv hrun.1) hrun.2
    rw [points, accesses_append, replay, List.foldlM_append]
    show (replay spec (accesses (s.point ev).toList) s.shared >>= _) = _
    rw [replay_step hinv hrun.1]
    exact hrest

end steps

end RehldsM.Lib.Monitor
