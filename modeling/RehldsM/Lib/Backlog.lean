import Mathlib.Data.List.Infix
import RehldsM.Lib.Run

/-
  What goes in at one end, and is handed on in turns.

  With one consumer, all that ever went in is in order what was handed on, the element that the
  consumer holds, and what is queued (`InOrder`).

  Of a system that hands elements on, `done` are those it has handed on, and `waiting` those it
  holds, the oldest first. Where nothing is lost, and every turn hands on an element unless none
  is waiting (`Serves`), the first `n` elements that are waiting are handed on within `n` turns,
  whatever comes in behind them (`served_of_turns`).

  A rank that no step raises bounds how many turns a run has, where each of these lowers it
  (`turnsTaken_add_rank_le`). The rank may depend on an invariant.
-/

namespace RehldsM.Lib

universe u v w

section InOrder

variable {α : Type u} {sent done queue : List α} {held : Option α} {x : α}

def InOrder (sent done : List α) (held : Option α) (queue : List α) : Prop :=
  sent = done ++ held.toList ++ queue

theorem inOrder_nil : InOrder ([] : List α) [] none [] := rfl

theorem InOrder.enqueue (h : InOrder sent done held queue) :
    InOrder (sent ++ [x]) done held (queue ++ [x]) := by
  unfold InOrder at h ⊢
  rw [h, List.append_assoc _ queue]

theorem InOrder.take (h : InOrder sent done none (x :: queue)) :
    InOrder sent done (some x) queue := by
  unfold InOrder at h ⊢
  rw [h]
  simp

theorem InOrder.handOn (h : InOrder sent done (some x) queue) :
    InOrder sent (done ++ [x]) none queue := by
  unfold InOrder at h ⊢
  rw [h]
  simp

theorem InOrder.done_sent (h : InOrder sent done held queue) : done <+: sent :=
  ⟨held.toList ++ queue, by rw [h, List.append_assoc]⟩

end InOrder

variable {σ : Type u} {ε : Type v} {β : Type w}

/-- How many events of the run are turns. -/
def turnsTaken (turn : σ → ε → Bool) : σ → List (ε × σ) → Nat
  | _, [] => 0
  | s, (e, s') :: tr => (if turn s e then 1 else 0) + turnsTaken turn s' tr

structure Serves (Step : σ → ε → σ → Prop) (turn : σ → ε → Bool) (done waiting : σ → List β) :
    Prop where
  keeps : ∀ {s e s'}, Step s e s' → done s ++ waiting s <+: done s' ++ waiting s'
  grows : ∀ {s e s'}, Step s e s' → (done s).length ≤ (done s').length
  serves : ∀ {s e s'}, Step s e s' → turn s e = true →
    waiting s = [] ∨ (done s).length < (done s').length

variable {Step : σ → ε → σ → Prop} {turn : σ → ε → Bool} {done waiting : σ → List β} {s : σ}
  {tr : List (ε × σ)}

/-- The first elements of what is waiting, behind what is done. -/
theorem prefix_take (s : σ) (n : Nat) :
    done s ++ (waiting s).take n <+: done s ++ waiting s :=
  (List.prefix_append_right_inj _).mpr (List.take_prefix _ _)

theorem served_of_turns (h : Serves Step turn done waiting) (hrun : IsRun Step s tr) :
    done s ++ (waiting s).take (turnsTaken turn s tr) <+: done (final s tr) := by
  induction tr generalizing s with
  | nil =>
    rw [turnsTaken, List.take_zero, List.append_nil]
    exact List.prefix_rfl
  | cons x tr ih =>
    obtain ⟨e, s'⟩ := x
    obtain ⟨hstep, hrun⟩ := hrun
    have hkeeps := h.keeps hstep
    have hgrows := h.grows hstep
    have hlength := hkeeps.length_le
    rw [List.length_append, List.length_append] at hlength
    -- Both are first elements of the same list, so it is enough to count them.
    refine List.IsPrefix.trans ?_ (ih hrun)
    refine List.prefix_of_prefix_length_le ((prefix_take s _).trans hkeeps) (prefix_take s' _) ?_
    rw [List.length_append, List.length_append, List.length_take, List.length_take, turnsTaken]
    cases hturn : turn s e with
    | false =>
      simp only [Bool.false_eq_true, if_false]
      omega
    | true =>
      have hserves := h.serves hstep hturn
      simp only [if_true]
      rcases hserves with hnone | hless
      · rw [hnone] at hlength ⊢
        simp only [List.length_nil] at hlength ⊢
        omega
      · omega

theorem turnsTaken_true (s : σ) (tr : List (ε × σ)) :
    turnsTaken (fun _ _ => true) s tr = tr.length := by
  induction tr generalizing s with
  | nil => rfl
  | cons x tr ih => rw [turnsTaken, ih, if_pos rfl, List.length_cons, Nat.add_comm]

theorem turnsTaken_add_rank_le {Step : σ → ε → σ → Prop} {I : σ → Prop} (turn : σ → ε → Bool)
    (rank : σ → Nat) (hI : ∀ s e s', I s → Step s e s' → I s')
    (hrank : ∀ s e s', I s → Step s e s' → (if turn s e then 1 else 0) + rank s' ≤ rank s)
    {s : σ} {tr : List (ε × σ)} (hs : I s) (hrun : IsRun Step s tr) :
    turnsTaken turn s tr + rank (final s tr) ≤ rank s := by
  induction tr generalizing s with
  | nil => exact Nat.le_of_eq (Nat.zero_add _)
  | cons x tr ih =>
    obtain ⟨e, s'⟩ := x
    have hone := hrank s e s' hs hrun.1
    have hrest := ih (hI s e s' hs hrun.1) hrun.2
    rw [turnsTaken, final]
    omega

end RehldsM.Lib
