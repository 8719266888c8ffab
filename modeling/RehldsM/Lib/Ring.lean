import Mathlib.Data.List.Range
import Mathlib.Data.Nat.ModEq

/-
  Windows of a ring: `window f t n` lists `n` values of `f` from `t` on. Where `f` reads the
  slots of a ring of `N` slots (`Around N f`), the window may begin at any index with the same
  remainder, and writing a slot changes at most the one place of a window of at most `N` values
  that reads it (`add_mod_ne`).
-/

namespace RehldsM.Lib

universe u

variable {α : Type u}

def window (f : Nat → α) (t n : Nat) : List α := (List.range n).map fun i => f (t + i)

/-- The last `n` elements. -/
def keepLast (n : Nat) (xs : List α) : List α := xs.drop (xs.length - n)

/-- `f` goes around a ring of `N` slots. -/
def Around (N : Nat) (f : Nat → α) : Prop := ∀ i, f (i % N) = f i

@[simp] theorem window_zero (f : Nat → α) (t : Nat) : window f t 0 = [] := rfl

@[simp] theorem length_window (f : Nat → α) (t n : Nat) : (window f t n).length = n := by
  simp [window]

theorem window_succ (f : Nat → α) (t n : Nat) :
    window f t (n + 1) = window f t n ++ [f (t + n)] := by
  simp [window, List.range_succ]

theorem window_cons (f : Nat → α) (t n : Nat) :
    window f t (n + 1) = f t :: window f (t + 1) n := by
  unfold window
  rw [List.range_succ_eq_map, List.map_cons, List.map_map]
  refine congrArg (f t :: ·) (List.map_congr_left fun i _ => ?_)
  exact congrArg f (by omega : t + (i + 1) = t + 1 + i)

theorem window_congr {f g : Nat → α} {t t' n : Nat} (h : ∀ i < n, f (t + i) = g (t' + i)) :
    window f t n = window g t' n :=
  List.map_congr_left fun i hi => h i (List.mem_range.mp hi)

theorem getLast?_window (f : Nat → α) (t : Nat) {n : Nat} (hn : 0 < n) :
    (window f t n).getLast? = some (f (t + n - 1)) := by
  obtain ⟨m, rfl⟩ : ∃ m, n = m + 1 := ⟨n - 1, by omega⟩
  rw [window_succ, List.getLast?_concat]
  rfl

theorem take_window (f : Nat → α) (t n k : Nat) :
    (window f t n).take k = window f t (min k n) := by
  rw [window, ← List.map_take, List.take_range, window]

theorem tail_window (f : Nat → α) (t n : Nat) :
    (window f t n).tail = window f (t + 1) (n - 1) := by
  cases n with
  | zero => rfl
  | succ n => rw [window_cons, List.tail_cons, Nat.add_sub_cancel]

theorem dropLast_window (f : Nat → α) (t n : Nat) :
    (window f t n).dropLast = window f t (n - 1) := by
  cases n with
  | zero => rfl
  | succ n => rw [window_succ, List.dropLast_concat, Nat.add_sub_cancel]

theorem head?_window (f : Nat → α) (t : Nat) {n : Nat} (hn : 0 < n) :
    (window f t n).head? = some (f t) := by
  obtain ⟨m, rfl⟩ : ∃ m, n = m + 1 := ⟨n - 1, by omega⟩
  rw [window_cons, List.head?_cons]

/-! ## The last elements -/

theorem keepLast_of_le {n : Nat} {xs : List α} (h : xs.length ≤ n) : keepLast n xs = xs := by
  rw [keepLast, Nat.sub_eq_zero_of_le h, List.drop_zero]

theorem length_keepLast (n : Nat) (xs : List α) : (keepLast n xs).length = min xs.length n := by
  rw [keepLast, List.length_drop]
  omega

/-- Only the last elements count for what is kept after more are added. -/
theorem keepLast_append {n : Nat} (xs ys : List α) :
    keepLast n (keepLast n xs ++ ys) = keepLast n (xs ++ ys) := by
  unfold keepLast
  by_cases h : xs.length ≤ n
  · rw [Nat.sub_eq_zero_of_le h, List.drop_zero]
  · have hsplit : xs.drop (xs.length - n) ++ ys = (xs ++ ys).drop (xs.length - n) := by
      rw [List.drop_append_of_le_length (by omega)]
    rw [hsplit, List.drop_drop, List.length_drop, List.length_append]
    exact congrArg (fun i => (xs ++ ys).drop i) (by omega)

theorem getLast?_keepLast {n : Nat} (hn : 0 < n) (xs : List α) :
    (keepLast n xs).getLast? = xs.getLast? := by
  rw [keepLast, List.getLast?_drop]
  by_cases h : xs = []
  · simp [h]
  · have := List.length_pos_of_ne_nil h
    rw [if_neg (by omega)]

/-- One more element in front is kept exactly when there is room for it. -/
theorem keepLast_cons_eq_iff (n : Nat) (x : α) (xs : List α) :
    keepLast n (x :: xs) = keepLast n xs ↔ n ≤ xs.length := by
  constructor
  · intro h
    have hlen := congrArg List.length h
    rw [length_keepLast, length_keepLast, List.length_cons] at hlen
    omega
  · intro h
    rw [keepLast, List.length_cons, show xs.length + 1 - n = xs.length - n + 1 by omega,
      List.drop_succ_cons]
    rfl

/-! ## Around the ring -/

theorem Around.eq {N : Nat} {f : Nat → α} (hf : Around N f) {i j : Nat} (h : i % N = j % N) :
    f i = f j := by
  rw [← hf i, h, hf j]

theorem Around.window_eq {N : Nat} {f : Nat → α} (hf : Around N f) {t t' : Nat}
    (h : t % N = t' % N) (n : Nat) : window f t n = window f t' n :=
  window_congr fun i _ => hf.eq (Nat.ModEq.add_right i h)

/-- Two places of a window of at most `N` values are different slots. -/
theorem add_mod_ne {N t i j : Nat} (hij : i < j) (hj : j < i + N) : (t + i) % N ≠ (t + j) % N := by
  intro h
  have hdvd : N ∣ (t + j) - (t + i) := (Nat.modEq_iff_dvd' (by omega)).mp h
  have hle := Nat.le_of_dvd (by omega) hdvd
  omega

end RehldsM.Lib
