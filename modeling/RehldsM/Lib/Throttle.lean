import Mathlib.Algebra.Order.Group.Defs
import Mathlib.Data.List.Chain

/-
  A throttle: of events that come at different times, it lets one through when the last that was
  let through is at least `interval` ago.

  `throttled_spaced`: what is let through is spaced. `age_throttled`: the last that was let through
  is never as old as `interval` when an event has been decided on. And no other choice does better:
  of events that come in order, any that are spaced are no more than the ones let through
  (`length_le_throttled`).
-/

namespace RehldsM.Lib

universe u v

variable {ε : Type u} {τ : Type v} [AddCommGroup τ] [LinearOrder τ]

/-- The events let through, when `last` is the time of the one before. -/
def throttled (interval : τ) (time : ε → τ) : τ → List ε → List ε
  | _, [] => []
  | last, e :: es =>
    if interval ≤ time e - last then e :: throttled interval time (time e) es
    else throttled interval time last es

/-- The time of the last event let through. -/
def lastTime (time : ε → τ) (last : τ) (es : List ε) : τ := (es.getLast?.map time).getD last

/-- The events come at least `interval` after each other, and after `last`. -/
def Spaced (interval : τ) (time : ε → τ) (last : τ) (es : List ε) : Prop :=
  (last :: es.map time).IsChain fun t t' => interval ≤ t' - t

section throttle

variable {interval : τ} {time : ε → τ} {last last' : τ} {es us : List ε}

omit [AddCommGroup τ] [LinearOrder τ] in
theorem lastTime_cons (time : ε → τ) (last : τ) (e : ε) (es : List ε) :
    lastTime time last (e :: es) = lastTime time (time e) es := by
  cases es with
  | nil => rfl
  | cons e' es =>
    rw [lastTime, lastTime, List.getLast?_cons_cons, List.getLast?_eq_some_getLast (by simp)]
    rfl

theorem throttled_append (interval : τ) (time : ε → τ) (last : τ) (es es' : List ε) :
    throttled interval time last (es ++ es') = throttled interval time last es ++
      throttled interval time (lastTime time last (throttled interval time last es)) es' := by
  induction es generalizing last with
  | nil => rfl
  | cons e es ih =>
    rw [List.cons_append, throttled, throttled]
    split
    · rw [ih, lastTime_cons, List.cons_append]
    · exact ih last

theorem spaced_cons {e : ε} :
    Spaced interval time last (e :: es) ↔
      interval ≤ time e - last ∧ Spaced interval time (time e) es := List.isChain_cons_cons

theorem throttled_spaced (interval : τ) (time : ε → τ) (last : τ) (es : List ε) :
    Spaced interval time last (throttled interval time last es) := by
  induction es generalizing last with
  | nil => exact List.isChain_singleton _
  | cons e es ih =>
    rw [throttled]
    split
    · rename_i hpass
      exact spaced_cons.mpr ⟨hpass, ih (time e)⟩
    · exact ih last

/-- When an event has been decided on, the last one let through is younger than `interval`. -/
theorem age_throttled (hpos : 0 < interval) (last : τ) (es : List ε) (e : ε) :
    time e - lastTime time last (throttled interval time last (es ++ [e])) < interval := by
  rw [throttled_append, throttled]
  split
  · rw [throttled, lastTime, List.getLast?_concat]
    simpa using hpos
  · rename_i hpass
    rw [throttled, List.append_nil]
    exact not_le.mp hpass

variable [IsOrderedAddMonoid τ]

/-- The throttle is ahead of every other choice: it has let as many through, and is ready as
    early; or it has let one more through. -/
theorem throttled_ahead (hsub : us.Sublist es)
    (hsorted : es.Pairwise fun e e' => time e ≤ time e') (hspaced : Spaced interval time last' us)
    (hfrom : ∀ e ∈ es, last ≤ time e) :
    (last ≤ last' → us.length ≤ (throttled interval time last es).length) ∧
      us.length ≤ (throttled interval time last es).length + 1 := by
  induction hsub generalizing last last' with
  | slnil => exact ⟨fun _ => Nat.le_refl _, Nat.le_succ _⟩
  | @cons us es e hsub ih =>
    obtain ⟨hfirst, hrest⟩ := List.pairwise_cons.mp hsorted
    rw [throttled]
    split
    · have hahead := (ih hrest hspaced hfirst).2
      exact ⟨fun _ => hahead, Nat.le_succ_of_le hahead⟩
    · exact ih hrest hspaced fun e' he' => hfrom e' (List.mem_cons_of_mem _ he')
  | @cons_cons us es e hsub ih =>
    obtain ⟨hfirst, hrest⟩ := List.pairwise_cons.mp hsorted
    obtain ⟨hready, hspaced⟩ := spaced_cons.mp hspaced
    rw [throttled]
    split
    · have hahead := (ih hrest hspaced hfirst).1 (le_refl _)
      exact ⟨fun _ => Nat.succ_le_succ hahead, Nat.succ_le_succ (Nat.le_succ_of_le hahead)⟩
    · rename_i hpass
      have hfrom' : ∀ e' ∈ es, last ≤ time e' := fun e' he' =>
        hfrom e' (List.mem_cons_of_mem _ he')
      refine ⟨fun hle => absurd (le_trans hready (sub_le_sub_left hle _)) hpass, ?_⟩
      exact Nat.succ_le_succ ((ih hrest hspaced hfrom').1 (hfrom e List.mem_cons_self))

/-- No choice of spaced events lets more of them through. -/
theorem length_le_throttled (hsub : us.Sublist es)
    (hsorted : es.Pairwise fun e e' => time e ≤ time e') (hspaced : Spaced interval time last us)
    (hfrom : ∀ e ∈ es, last ≤ time e) :
    us.length ≤ (throttled interval time last es).length :=
  (throttled_ahead hsub hsorted hspaced hfrom).1 (le_refl _)

end throttle

end RehldsM.Lib
