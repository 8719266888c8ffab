import Mathlib.Data.List.Perm.Subperm
import RehldsM.Lib.Run

/-
  `Observable` (libs/util/include/util/observable.hpp).

  The listeners are the nodes of a `std::list`, numbered as they are appended; a handle is the
  number of its node. A callback may append and remove listeners while `notify` runs:
  `call callback program` is what it does to the listeners, in order, with the rest of the program
  that it leaves behind. The loop then goes on from the node it is at, so a callback that removes
  its own node leaves it with an iterator to nothing.

  Wherever nothing of the kind happens, the callbacks run in the order in which they were appended
  and none runs twice; a listener is passed over only if it was removed before its turn, and one
  appended by a callback has its turn as well (`notify_in_order`). The loop ends unless the
  callbacks go on appending.
-/

namespace RehldsM.Util

open Lib

universe u v

variable {β : Type u} {σ : Type v}

/-- What a callback does to the listeners. -/
inductive ListenerCall (β : Type u) where
  | append (callback : β)
  | remove (handle : Nat)

structure Observable (β : Type u) (σ : Type v) where
  /-- The nodes of the list. -/
  listeners : List (Nat × β)
  /-- How many listeners were appended. -/
  appended : Nat
  /-- The rest of the program. -/
  program : σ

/-- An iterator that is used behind the removal of its node. -/
inductive DanglingIterator where
  | danglingIterator

namespace Observable

def new (program : σ) : Observable β σ where
  listeners := []
  appended := 0
  program := program

def handles (o : Observable β σ) : List Nat := o.listeners.map Prod.fst

/-- `append_listener`: the handle, and the list with one more node at its end. -/
def appendListener (o : Observable β σ) (callback : β) : Nat × Observable β σ :=
  (o.appended,
    { o with
      listeners := o.listeners ++ [(o.appended, callback)]
      appended := o.appended + 1 })

/-- `remove_listener`: the node of the handle is erased, if it is still there. -/
def removeListener (o : Observable β σ) (handle : Nat) :
    Except DanglingIterator (Observable β σ) :=
  if handle ∈ o.handles then
    .ok { o with listeners := o.listeners.filter fun listener => listener.1 ≠ handle }
  else .error .danglingIterator

def perform (o : Observable β σ) : ListenerCall β → Except DanglingIterator (Observable β σ)
  | .append callback => .ok (o.appendListener callback).2
  | .remove handle => o.removeListener handle

/-- The listeners after some calls on a new object. -/
def after (program : σ) (calls : List (ListenerCall β)) :
    Except DanglingIterator (Observable β σ) :=
  calls.foldlM perform (new program)

/-- The node behind the one of this handle. -/
def behind (o : Observable β σ) (handle : Nat) : Option Nat :=
  ((o.handles.dropWhile (· ≠ handle)).drop 1).head?

end Observable

/-- The loop of `notify`. -/
structure Notification (β : Type u) (σ : Type v) where
  observable : Observable β σ
  /-- The node the loop is at; `none` is the end of the list. -/
  current : Option Nat
  /-- The listeners that were called. -/
  invoked : List Nat

namespace Notification

def start (o : Observable β σ) : Notification β σ where
  observable := o
  current := o.handles.head?
  invoked := []

variable (call : β → σ → List (ListenerCall β) × σ)

/-- One turn of the loop; at the end of the list there is none. -/
def turn (n : Notification β σ) : Except DanglingIterator (Notification β σ) :=
  match n.current with
  | none => .ok n
  | some handle =>
    match n.observable.listeners.lookup handle with
    | none => .error .danglingIterator
    | some callback => do
      let (calls, program) := call callback n.observable.program
      let observable ← calls.foldlM Observable.perform { n.observable with program }
      if handle ∈ observable.handles then
        .ok { observable, current := observable.behind handle, invoked := n.invoked ++ [handle] }
      else .error .danglingIterator

/-- The first turns of the loop, or all of them. -/
def turns : Nat → Notification β σ → Except DanglingIterator (Notification β σ)
  | 0, n => .ok n
  | fuel + 1, n => do
    let n ← n.turn call
    turns fuel n

end Notification

/-- `notify`, for callbacks that append nothing: there are as many turns as listeners
    (`notify_quiet`). -/
def Observable.notify (call : β → σ → List (ListenerCall β) × σ) (o : Observable β σ) :
    Except DanglingIterator (Observable β σ) := do
  let n ← (Notification.start o).turns call o.listeners.length
  .ok n.observable

open Observable Notification

/-- The listeners stand in the order in which they were appended. -/
structure Ordered (o : Observable β σ) : Prop where
  increasing : o.handles.Pairwise (· < ·)
  bounded : ∀ handle ∈ o.handles, handle < o.appended

/-- The loop has called the listeners up to the one it is at, and no other. -/
structure NotifyInv (n : Notification β σ) : Prop where
  ordered : Ordered n.observable
  increasing : n.invoked.Pairwise (· < ·)
  current : ∀ handle, n.current = some handle →
    handle ∈ n.observable.handles ∧ (∀ called ∈ n.invoked, called < handle) ∧
      ∀ handle' ∈ n.observable.handles, handle' < handle → handle' ∈ n.invoked
  ended : n.current = none → ∀ handle ∈ n.observable.handles, handle ∈ n.invoked

section notify

variable {o o' : Observable β σ}

/-! ## The list -/

theorem ordered_new (program : σ) : Ordered (new program : Observable β σ) :=
  ⟨List.Pairwise.nil, fun _ h => absurd h List.not_mem_nil⟩

theorem ordered_append (h : Ordered o) (callback : β) :
    Ordered (o.appendListener callback).2 := by
  have hhandles : (o.appendListener callback).2.handles = o.handles ++ [o.appended] := by
    simp [handles, appendListener]
  constructor
  · rw [hhandles, List.pairwise_append]
    refine ⟨h.increasing, List.pairwise_singleton _ _, ?_⟩
    intro handle hmem handle' hmem'
    rw [List.mem_singleton.mp hmem']
    exact h.bounded handle hmem
  · rw [hhandles]
    intro handle hmem
    show handle < o.appended + 1
    rcases List.mem_append.mp hmem with hmem | hmem
    · have := h.bounded handle hmem
      omega
    · have := List.mem_singleton.mp hmem
      omega

theorem handles_remove {handle : Nat} (hok : o.removeListener handle = .ok o') :
    o'.handles = o.handles.filter (· ≠ handle) ∧ o'.appended = o.appended := by
  unfold removeListener at hok
  split at hok
  · obtain rfl := Except.ok.inj hok
    refine ⟨?_, rfl⟩
    rw [handles, handles, List.filter_map]
    rfl
  · cases hok

theorem ordered_remove (h : Ordered o) {handle : Nat}
    (hok : o.removeListener handle = .ok o') : Ordered o' := by
  obtain ⟨hhandles, happended⟩ := handles_remove hok
  constructor
  · rw [hhandles]
    exact h.increasing.filter _
  · rw [hhandles, happended]
    exact fun handle' hmem => h.bounded handle' ((List.mem_filter.mp hmem).1)

/-- The listeners that a callback leaves are old ones, or new ones behind all of these. -/
def Grown (o o' : Observable β σ) : Prop :=
  o.appended ≤ o'.appended ∧
    ∀ handle ∈ o'.handles, handle ∈ o.handles ∨ o.appended ≤ handle

theorem ordered_perform (h : Ordered o) {listenerCall : ListenerCall β}
    (hok : o.perform listenerCall = .ok o') : Ordered o' ∧ Grown o o' := by
  cases listenerCall with
  | append callback =>
    obtain rfl := Except.ok.inj hok
    refine ⟨ordered_append h callback, Nat.le_succ _, ?_⟩
    intro handle hmem
    have hhandles : (o.appendListener callback).2.handles = o.handles ++ [o.appended] := by
      simp [handles, appendListener]
    rw [hhandles] at hmem
    rcases List.mem_append.mp hmem with hmem | hmem
    · exact .inl hmem
    · exact .inr (Nat.le_of_eq (List.mem_singleton.mp hmem).symm)
  | remove handle =>
    obtain ⟨hhandles, happended⟩ := handles_remove hok
    refine ⟨ordered_remove h hok, Nat.le_of_eq happended.symm, ?_⟩
    intro handle' hmem
    rw [hhandles] at hmem
    exact .inl ((List.mem_filter.mp hmem).1)

theorem ordered_foldlM (h : Ordered o) {calls : List (ListenerCall β)}
    (hok : calls.foldlM perform o = .ok o') : Ordered o' ∧ Grown o o' := by
  induction calls generalizing o with
  | nil =>
    obtain rfl := Except.ok.inj hok
    exact ⟨h, Nat.le_refl _, fun _ hmem => .inl hmem⟩
  | cons listenerCall calls ih =>
    rw [List.foldlM_cons] at hok
    obtain ⟨first, hfirst, hok⟩ := ok_bind hok
    obtain ⟨hordered, hle, hgrown⟩ := ordered_perform h hfirst
    obtain ⟨hordered', hle', hgrown'⟩ := ih hordered hok
    refine ⟨hordered', Nat.le_trans hle hle', ?_⟩
    intro handle hmem
    rcases hgrown' handle hmem with hold | hnew
    · exact hgrown handle hold
    · exact .inr (Nat.le_trans hle hnew)

/-! ## The iterator -/

theorem handles_split (h : Ordered o) {handle : Nat} (hmem : handle ∈ o.handles) :
    ∃ rest : List Nat, o.behind handle = rest.head? ∧ rest.Pairwise (· < ·) ∧
      (∀ handle' ∈ rest, handle' ∈ o.handles ∧ handle < handle') ∧
      ∀ handle' ∈ o.handles, handle' ∈ rest ∨ handle' ≤ handle := by
  obtain ⟨before, rest, hsplit, hbefore⟩ := List.eq_append_cons_of_mem hmem
  have hsorted := h.increasing
  rw [hsplit, List.pairwise_append, List.pairwise_cons] at hsorted
  obtain ⟨-, ⟨hrest, hincreasing⟩, hfirst⟩ := hsorted
  refine ⟨rest, ?_, hincreasing, ?_, ?_⟩
  · have hdrop : o.handles.dropWhile (· ≠ handle) = handle :: rest := by
      rw [hsplit, List.dropWhile_append_of_pos]
      · simp
      · intro handle' hmem'
        have hne : handle' ≠ handle := fun heq => hbefore (heq ▸ hmem')
        simpa using hne
    rw [behind, hdrop]
    rfl
  · intro handle' hmem'
    refine ⟨?_, hrest handle' hmem'⟩
    rw [hsplit]
    simp [hmem']
  · intro handle' hmem'
    rw [hsplit] at hmem'
    rcases List.mem_append.mp hmem' with hin | hin
    · exact .inr (Nat.le_of_lt (hfirst handle' hin handle List.mem_cons_self))
    · rcases List.mem_cons.mp hin with rfl | hin
      · exact .inr (Nat.le_refl _)
      · exact .inl hin

/-- The node the iterator goes on to is the next one. -/
theorem behind_some (h : Ordered o) {handle next : Nat} (hmem : handle ∈ o.handles)
    (hnext : o.behind handle = some next) :
    next ∈ o.handles ∧ handle < next ∧
      ∀ handle' ∈ o.handles, handle' < next → handle' ≤ handle := by
  obtain ⟨rest, hbehind, hincreasing, hrest, hall⟩ := handles_split h hmem
  rw [hbehind] at hnext
  obtain ⟨rest', rfl⟩ : ∃ rest', rest = next :: rest' := by
    cases rest with
    | nil => cases hnext
    | cons first rest' =>
      obtain rfl := Option.some.inj hnext
      exact ⟨rest', rfl⟩
  obtain ⟨hin, hlt⟩ := hrest next List.mem_cons_self
  refine ⟨hin, hlt, ?_⟩
  intro handle' hmem' hlt'
  rcases hall handle' hmem' with hlater | hle
  · rcases List.mem_cons.mp hlater with rfl | hlater
    · exact absurd hlt' (Nat.lt_irrefl _)
    · have := (List.pairwise_cons.mp hincreasing).1 handle' hlater
      omega
  · exact hle

theorem behind_none (h : Ordered o) {handle : Nat} (hmem : handle ∈ o.handles)
    (hnext : o.behind handle = none) : ∀ handle' ∈ o.handles, handle' ≤ handle := by
  obtain ⟨rest, hbehind, -, -, hall⟩ := handles_split h hmem
  rw [hbehind] at hnext
  obtain rfl := List.head?_eq_none_iff.mp hnext
  intro handle' hmem'
  exact (hall handle' hmem').resolve_left List.not_mem_nil

/-! ## The loop -/

variable {call : β → σ → List (ListenerCall β) × σ} {n n' : Notification β σ}

theorem notifyInv_start (h : Ordered o) : NotifyInv (start o) := by
  refine ⟨h, List.Pairwise.nil, ?_, ?_⟩
  · intro handle hcurrent
    have hhead : o.handles.head? = some handle := hcurrent
    refine ⟨List.mem_of_mem_head? hhead, fun _ hcalled => absurd hcalled List.not_mem_nil, ?_⟩
    intro handle' hmem hlt
    obtain ⟨rest, hsplit⟩ := List.head?_eq_some_iff.mp hhead
    have hsorted := h.increasing
    have hmem' : handle' ∈ o.handles := hmem
    rw [hsplit] at hsorted hmem'
    rcases List.mem_cons.mp hmem' with rfl | hlater
    · exact absurd hlt (Nat.lt_irrefl _)
    · have := (List.pairwise_cons.mp hsorted).1 handle' hlater
      omega
  · intro hcurrent
    have hnil : o.handles = [] := List.head?_eq_none_iff.mp hcurrent
    show ∀ handle ∈ o.handles, handle ∈ []
    rw [hnil]
    exact fun _ hmem => hmem

/-- One turn calls the listener it is at, and goes on to the next that is left. -/
theorem turn_cases (hok : n.turn call = .ok n') :
    (n.current = none ∧ n' = n) ∨
      ∃ handle callback observable, n.current = some handle ∧
        (handle, callback) ∈ n.observable.listeners ∧
        (call callback n.observable.program).1.foldlM perform
          { n.observable with program := (call callback n.observable.program).2 } =
            .ok observable ∧
        handle ∈ observable.handles ∧
        n' = ⟨observable, observable.behind handle, n.invoked ++ [handle]⟩ := by
  unfold turn at hok
  split at hok
  · rename_i hcurrent
    exact .inl ⟨hcurrent, (Except.ok.inj hok).symm⟩
  · rename_i handle hcurrent
    split at hok
    · cases hok
    · rename_i callback hlookup
      obtain ⟨observable, hcalls, hok⟩ := ok_bind hok
      split at hok
      · rename_i hmem
        obtain ⟨before, rest, hlisteners, -⟩ := List.lookup_eq_some_iff.mp hlookup
        refine .inr ⟨handle, callback, observable, hcurrent, ?_, hcalls, hmem,
          (Except.ok.inj hok).symm⟩
        rw [hlisteners]
        simp
      · cases hok

theorem notifyInv_turn (h : NotifyInv n) (hok : n.turn call = .ok n') : NotifyInv n' := by
  rcases turn_cases hok with ⟨-, rfl⟩ | ⟨handle, callback, o, hcurrent, -, hcalls, hmem, rfl⟩
  · exact h
  obtain ⟨hhandle, hcalled, hbelow⟩ := h.current handle hcurrent
  have hbefore : Ordered { n.observable with
      program := (call callback n.observable.program).2 } := ⟨h.ordered.1, h.ordered.2⟩
  obtain ⟨hordered, -, hgrown⟩ := ordered_foldlM hbefore hcalls
  -- A listener below the one called was there already, and has been called.
  have hdone : ∀ handle' ∈ o.handles, handle' ≤ handle → handle' ∈ n.invoked ++ [handle] := by
    intro handle' hmem' hle
    rcases Nat.lt_or_eq_of_le hle with hlt | rfl
    · refine List.mem_append_left _ (hbelow handle' ?_ hlt)
      refine (hgrown handle' hmem').resolve_right ?_
      have hbound := h.ordered.bounded handle hhandle
      show ¬ n.observable.appended ≤ handle'
      omega
    · exact List.mem_append_right _ (List.mem_singleton.mpr rfl)
  refine ⟨hordered, ?_, ?_, ?_⟩
  · rw [List.pairwise_append]
    refine ⟨h.increasing, List.pairwise_singleton _ _, ?_⟩
    intro called hin handle' hin'
    rw [List.mem_singleton.mp hin']
    exact hcalled called hin
  · intro next hnext
    obtain ⟨hin, hlt, hleast⟩ := behind_some hordered hmem hnext
    refine ⟨hin, ?_, fun handle' hmem' hlt' => hdone handle' hmem' (hleast handle' hmem' hlt')⟩
    intro called hin'
    rcases List.mem_append.mp hin' with hin' | hin'
    · exact Nat.lt_trans (hcalled called hin') hlt
    · rwa [List.mem_singleton.mp hin']
  · intro hnext handle' hmem'
    exact hdone handle' hmem' (behind_none hordered hmem hnext handle' hmem')

theorem notifyInv_turns (h : NotifyInv n) {fuel : Nat} (hok : n.turns call fuel = .ok n') :
    NotifyInv n' := by
  induction fuel generalizing n with
  | zero =>
    obtain rfl := Except.ok.inj hok
    exact h
  | succ fuel ih =>
    obtain ⟨first, hfirst, hok⟩ := ok_bind hok
    exact ih (notifyInv_turn h hfirst) hok

/-! ## Its end -/

theorem turns_of_ended (hended : n.current = none) (fuel : Nat) : n.turns call fuel = .ok n := by
  induction fuel with
  | zero => rfl
  | succ fuel ih =>
    have hturn : n.turn call = .ok n := by
      rw [turn, hended]
    rw [turns, hturn]
    exact ih

/-- No callback appends a listener. -/
def AppendsNothing (call : β → σ → List (ListenerCall β) × σ) : Prop :=
  ∀ callback program callback', .append callback' ∉ (call callback program).1

theorem handles_foldlM {calls : List (ListenerCall β)}
    (hquiet : ∀ callback, .append callback ∉ calls) (hok : calls.foldlM perform o = .ok o') :
    o'.handles ⊆ o.handles := by
  induction calls generalizing o with
  | nil =>
    obtain rfl := Except.ok.inj hok
    exact List.Subset.refl _
  | cons listenerCall calls ih =>
    rw [List.foldlM_cons] at hok
    obtain ⟨first, hfirst, hrest⟩ := ok_bind hok
    have hle := ih (fun callback hmem => hquiet callback (List.mem_cons_of_mem _ hmem)) hrest
    cases listenerCall with
    | append callback => exact absurd List.mem_cons_self (hquiet callback)
    | remove handle =>
      intro handle' hmem
      have hin := hle hmem
      rw [(handles_remove hfirst).1] at hin
      exact (List.mem_filter.mp hin).1

/-- As many turns as there are listeners bring the loop to its end. -/
theorem turns_end (hquiet : AppendsNothing call) (h : NotifyInv n) {bound : List Nat}
    (hinvoked : n.invoked ⊆ bound) (hhandles : n.observable.handles ⊆ bound) {fuel : Nat}
    (hfuel : bound.length ≤ n.invoked.length + fuel) (hok : n.turns call fuel = .ok n') :
    n'.current = none := by
  induction fuel generalizing n with
  | zero =>
    obtain rfl := Except.ok.inj hok
    cases hcurrent : n.current with
    | none => rfl
    | some handle =>
      -- One more call would be one more than there are handles.
      obtain ⟨hmem, hcalled, -⟩ := h.current handle hcurrent
      have hnodup : (n.invoked ++ [handle]).Nodup := by
        have hincreasing : (n.invoked ++ [handle]).Pairwise (· < ·) := by
          rw [List.pairwise_append]
          refine ⟨h.increasing, List.pairwise_singleton _ _, ?_⟩
          intro called hin handle' hin'
          rw [List.mem_singleton.mp hin']
          exact hcalled called hin
        exact hincreasing.imp Nat.ne_of_lt
      have hsubset : n.invoked ++ [handle] ⊆ bound :=
        List.append_subset.mpr ⟨hinvoked, List.cons_subset.mpr ⟨hhandles hmem, List.nil_subset _⟩⟩
      have hlen := (List.subperm_of_subset hnodup hsubset).length_le
      rw [List.length_append, List.length_singleton] at hlen
      omega
  | succ fuel ih =>
    obtain ⟨first, hfirst, hrest⟩ := ok_bind hok
    have hinv := notifyInv_turn h hfirst
    rcases turn_cases hfirst with ⟨hended, heq⟩ |
        ⟨handle, callback, observable, hcurrent, -, hcalls, hmem, rfl⟩
    · rw [heq, turns_of_ended hended] at hrest
      rwa [← Except.ok.inj hrest]
    · have hhandle := (h.current handle hcurrent).1
      refine ih hinv ?_ ?_ ?_ hrest
      · exact List.append_subset.mpr
          ⟨hinvoked, List.cons_subset.mpr ⟨hhandles hhandle, List.nil_subset _⟩⟩
      · exact List.Subset.trans (handles_foldlM (hquiet callback _) hcalls) hhandles
      · rw [List.length_append, List.length_singleton]
        omega

/-! ## Callbacks that leave the listeners alone -/

theorem turns_quiet (hquiet : ∀ callback program, (call callback program).1 = [])
    (called rest : List (Nat × β)) (hlisteners : o.listeners = called ++ rest)
    (hnodup : (o.listeners.map Prod.fst).Nodup) (program : σ) (invoked : List Nat) :
    (⟨{ o with program }, (rest.map Prod.fst).head?, invoked⟩ : Notification β σ).turns call
        rest.length =
      .ok ⟨{ o with program := rest.foldl (fun program l => (call l.2 program).2) program }, none,
        invoked ++ rest.map Prod.fst⟩ := by
  induction rest generalizing called program invoked with
  | nil => simp [turns]
  | cons listener rest ih =>
    obtain ⟨handle, callback⟩ := listener
    have hnot : handle ∉ called.map Prod.fst := by
      intro hmem
      rw [hlisteners, List.map_append, List.nodup_append] at hnodup
      exact hnodup.2.2 handle hmem handle (by simp) rfl
    have hbehind : Observable.behind { o with program := (call callback program).2 } handle =
        (rest.map Prod.fst).head? := by
      have hdrop : (o.listeners.map Prod.fst).dropWhile (· ≠ handle) =
          handle :: rest.map Prod.fst := by
        rw [hlisteners, List.map_append, List.dropWhile_append_of_pos]
        · simp
        · intro handle' hmem
          have hne : handle' ≠ handle := fun heq => hnot (heq ▸ hmem)
          simpa using hne
      show (((o.listeners.map Prod.fst).dropWhile (· ≠ handle)).drop 1).head? = _
      rw [hdrop]
      rfl
    have hlookup : o.listeners.lookup handle = some callback := by
      rw [hlisteners, List.lookup_eq_some_iff]
      refine ⟨called, rest, rfl, ?_⟩
      intro listener hmem
      have hne : handle ≠ listener.1 := fun heq => hnot (heq ▸ List.mem_map_of_mem hmem)
      simpa using hne
    have hmem : handle ∈ o.listeners.map Prod.fst := by
      rw [hlisteners]
      simp
    have hturn : (⟨{ o with program }, some handle, invoked⟩ : Notification β σ).turn call =
        .ok ⟨{ o with program := (call callback program).2 }, (rest.map Prod.fst).head?,
          invoked ++ [handle]⟩ := by
      unfold turn
      dsimp only
      rw [hlookup]
      dsimp only
      rw [hquiet callback program, List.foldlM_nil]
      show (if handle ∈ o.listeners.map Prod.fst then _ else _) = _
      rw [if_pos hmem, hbehind]
    rw [List.length_cons, turns, List.map_cons, List.head?_cons, hturn]
    have hrest := ih (called ++ [(handle, callback)]) (by rw [hlisteners]; simp)
      (call callback program).2 (invoked ++ [handle])
    refine Eq.trans hrest ?_
    rw [List.append_assoc]
    rfl

/-- Callbacks that leave the listeners alone are called one after the other. -/
theorem notify_quiet (hquiet : ∀ callback program, (call callback program).1 = [])
    (hnodup : o.handles.Nodup) :
    o.notify call = .ok { o with
      program := o.listeners.foldl (fun program l => (call l.2 program).2) o.program } := by
  have hturns := turns_quiet hquiet [] o.listeners rfl hnodup o.program []
  have hstart : Notification.start o =
      ⟨{ o with program := o.program }, (o.listeners.map Prod.fst).head?, []⟩ := rfl
  rw [Observable.notify, hstart, hturns]
  rfl

end notify

/-- After any calls on a new object, and any number of turns of `notify` in which no callback
    erases the node the loop is at or one that is gone: the listeners called were appended in this
    order, and none was called twice; the one whose turn it is, is the first of those that are
    left and were not called; at the end all that are left were called. Where no callback
    appends, there is an end after as many turns as there were listeners. -/
theorem notify_in_order (call : β → σ → List (ListenerCall β) × σ) (program : σ)
    (calls : List (ListenerCall β)) (o : Observable β σ)
    (hafter : Observable.after program calls = .ok o) (fuel : Nat) (n : Notification β σ)
    (hturns : (start o).turns call fuel = .ok n) :
    n.invoked.Pairwise (· < ·) ∧
      (∀ handle, n.current = some handle → handle ∈ n.observable.handles ∧ handle ∉ n.invoked ∧
        ∀ handle' ∈ n.observable.handles, handle' ∉ n.invoked → handle ≤ handle') ∧
      (n.current = none → ∀ handle ∈ n.observable.handles, handle ∈ n.invoked) ∧
      (AppendsNothing call → o.listeners.length ≤ fuel → n.current = none) := by
  have hordered := (ordered_foldlM (ordered_new program) hafter).1
  have hinv := notifyInv_turns (notifyInv_start hordered) hturns
  refine ⟨hinv.increasing, ?_, hinv.ended, ?_⟩
  · intro handle hcurrent
    obtain ⟨hmem, hcalled, hbelow⟩ := hinv.current handle hcurrent
    refine ⟨hmem, fun hin => absurd (hcalled handle hin) (Nat.lt_irrefl _), ?_⟩
    intro handle' hmem' hnot
    by_contra hlt
    exact hnot (hbelow handle' hmem' (by omega))
  · intro hquiet hfuel
    refine turns_end hquiet (notifyInv_start hordered) (List.nil_subset _)
      (List.Subset.refl _) ?_ hturns
    show o.handles.length ≤ 0 + fuel
    rw [handles, List.length_map]
    omega

/-- Three listeners, of which the first removes the second and appends another. -/
def modifyingCall : Nat → Unit → List (ListenerCall Nat) × Unit
  | 0, _ => ([.remove 1, .append 7], ())
  | _, _ => ([], ())

/-- All but the removed one are called, the new one last. -/
def modifiedNotification : Notification Nat Unit where
  observable := ⟨[(0, 0), (2, 2), (3, 7)], 4, ()⟩
  current := none
  invoked := [0, 2, 3]

theorem notify_in_order_modified :
    modifiedNotification.invoked.Pairwise (· < ·) ∧
      (∀ handle, modifiedNotification.current = some handle →
        handle ∈ modifiedNotification.observable.handles ∧
        handle ∉ modifiedNotification.invoked ∧
        ∀ handle' ∈ modifiedNotification.observable.handles,
          handle' ∉ modifiedNotification.invoked → handle ≤ handle') ∧
      (modifiedNotification.current = none →
        ∀ handle ∈ modifiedNotification.observable.handles,
          handle ∈ modifiedNotification.invoked) ∧
      (AppendsNothing modifyingCall → 3 ≤ 3 → modifiedNotification.current = none) :=
  notify_in_order modifyingCall () [.append 0, .append 1, .append 2]
    ⟨[(0, 0), (1, 1), (2, 2)], 3, ()⟩ rfl 3 modifiedNotification rfl

end RehldsM.Util
