import RehldsM.Lib.Run
import RehldsM.Util.CircularBuffer

/-
  `CircularBuffer<T, N>` as a bounded double-ended queue.

  `dequeStep` is what each call does to the list of the stored elements: a push at one end of a
  full list drops the element at the other end. `contents_call` says that the buffer does
  the same to `contents`, and `refines_deque` that over every sequence of calls from the
  default-constructed buffer all that can be observed is that of the list.

  The indices stay below `N`, so none of the sums the code forms reaches `2 * N`
  (`index_sum_lt`), and unbounded numbers stand for `size_t`.
-/

namespace RehldsM.Util

open Lib

universe u

variable {α : Type u} {N : Nat}

/-- A call that changes the buffer. -/
inductive DequeCall (α : Type u) where
  | pushBack (item : α)
  | emplaceBack (item : α)
  | pushFront (item : α)
  | emplaceFront (item : α)
  | popFront
  | popBack
  | clear

def CircularBuffer.call (b : CircularBuffer α N) : DequeCall α → CircularBuffer α N
  | .pushBack item => b.pushBack item
  | .emplaceBack item => (b.emplaceBack item).1
  | .pushFront item => b.pushFront item
  | .emplaceFront item => (b.emplaceFront item).1
  | .popFront => b.popFront
  | .popBack => b.popBack
  | .clear => b.clear

/-- What the call does to a list of at most `N` elements. -/
def dequeStep (N : Nat) (xs : List α) : DequeCall α → List α
  | .pushBack item | .emplaceBack item =>
    if xs.length = N then xs.tail ++ [item] else xs ++ [item]
  | .pushFront item | .emplaceFront item =>
    if xs.length = N then item :: xs.dropLast else item :: xs
  | .popFront => xs.tail
  | .popBack => xs.dropLast
  | .clear => []

namespace CircularBuffer

/-! ## `push_front` -/

theorem slot_pushFront (b : CircularBuffer α N) (item : α) (i : Nat) :
    (b.pushFront item).slot i = if i % N = (b.tail + N - 1) % N then item else b.slot i := by
  simp only [slot, pushFront, Vector.getElem_set, eq_comm]

theorem size_pushFront (b : CircularBuffer α N) (item : α) :
    (b.pushFront item).size = min (b.size + 1) N := by
  have hpos := b.pos
  have hle := b.size_le
  have hhead := b.head_eq
  by_cases hfull : b.full = true
  · have hsize := b.size_eq_iff_full.mpr hfull
    have heq := b.full_eq hfull
    rw [Nat.min_eq_right (by omega)]
    refine size_eq_of (Nat.le_refl N) ?_ ?_
    · simp [pushFront, hfull, heq]
    · simp [pushFront, hfull, heq]
  · have hlt := size_lt_of_not_full hfull
    rw [Nat.min_eq_left hlt]
    refine size_eq_of hlt ?_ ?_
    · have hshift : b.tail + N - 1 + (b.size + 1) = b.tail + b.size + N := by omega
      simp [pushFront, hfull, hhead, Nat.mod_add_mod, hshift]
    · simp only [pushFront, hfull, Bool.false_eq_true, if_false, beq_iff_eq]
      rw [hhead, Nat.add_sub_assoc hpos]
      constructor
      · intro heq
        by_contra hne
        exact add_mod_ne (by omega) (by omega) heq
      · intro heq
        rw [show b.size = N - 1 by omega]

theorem contents_pushFront (b : CircularBuffer α N) (item : α) :
    (b.pushFront item).contents = item :: b.contents.take (N - 1) := by
  have hpos := b.pos
  have hle := b.size_le
  have hsize : (b.pushFront item).size = min (N - 1) b.size + 1 := by
    rw [size_pushFront]
    omega
  have htail : (b.pushFront item).tail = (b.tail + N - 1) % N := rfl
  -- The slot in front of `tail` is written, and is none of the old ones that are kept.
  have hwrite : (b.pushFront item).slot ((b.tail + N - 1) % N) = item := by
    rw [slot_pushFront, if_pos (Nat.mod_mod _ _)]
  have hkeep : ∀ i < min (N - 1) b.size,
      (b.pushFront item).slot (b.tail + i) = b.slot (b.tail + i) := by
    intro i hi
    have hne : (b.tail + i) % N ≠ (b.tail + (N - 1)) % N := add_mod_ne (by omega) (by omega)
    rw [slot_pushFront, if_neg (by rwa [Nat.add_sub_assoc hpos])]
  have hnext : ((b.tail + N - 1) % N + 1) % N = b.tail % N := by
    rw [Nat.mod_add_mod, show b.tail + N - 1 + 1 = b.tail + N by omega, Nat.add_mod_right]
  rw [contents, hsize, htail, window_cons, hwrite, (slot_around _).window_eq hnext,
    window_congr hkeep, contents, take_window]

/-! ## `pop_front` and `pop_back` -/

theorem eq_of_empty {b : CircularBuffer α N} (h : b.empty = true) :
    b.popFront = b ∧ b.popBack = b := by
  simp [popFront, popBack, h]

theorem size_popFront (b : CircularBuffer α N) : b.popFront.size = b.size - 1 := by
  by_cases hempty : b.empty = true
  · rw [(eq_of_empty hempty).1, b.empty_iff.mp hempty]
  · have hsize : b.size ≠ 0 := fun h => hempty (b.empty_iff.mpr h)
    have hle := b.size_le
    have hhead := b.head_eq
    have hshift : b.tail + 1 + (b.size - 1) = b.tail + b.size := by omega
    refine size_eq_of (by omega) ?_ ?_
    · simp [popFront, hempty, hhead, Nat.mod_add_mod, hshift]
    · have hne : b.size - 1 ≠ N := by omega
      simp [popFront, hempty, hne]

theorem contents_popFront (b : CircularBuffer α N) : b.popFront.contents = b.contents.tail := by
  by_cases hempty : b.empty = true
  · rw [(eq_of_empty hempty).1, b.contents_eq_nil_iff.mpr (b.empty_iff.mp hempty), List.tail_nil]
  · have htail : b.popFront.tail = (b.tail + 1) % N := by simp [popFront, hempty]
    have hslot : b.popFront.slot = b.slot := by
      funext i
      simp [popFront, hempty, slot]
    rw [contents, size_popFront, htail, hslot, b.slot_around.window_eq (Nat.mod_mod _ _),
      contents, tail_window]

theorem size_popBack (b : CircularBuffer α N) : b.popBack.size = b.size - 1 := by
  by_cases hempty : b.empty = true
  · rw [(eq_of_empty hempty).2, b.empty_iff.mp hempty]
  · have hsize : b.size ≠ 0 := fun h => hempty (b.empty_iff.mpr h)
    have hpos := b.pos
    have hle := b.size_le
    have hshift : b.tail + b.size + N - 1 = b.tail + (b.size - 1) + N := by omega
    refine size_eq_of (by omega) ?_ ?_
    · have hhead : (b.head + N - 1) % N = (b.tail + (b.size - 1)) % N := by
        rw [head_eq, Nat.add_sub_assoc hpos, Nat.mod_add_mod, ← Nat.add_sub_assoc hpos, hshift,
          Nat.add_mod_right]
      simpa [popBack, hempty] using hhead
    · have hne : b.size - 1 ≠ N := by omega
      simp [popBack, hempty, hne]

theorem contents_popBack (b : CircularBuffer α N) :
    b.popBack.contents = b.contents.dropLast := by
  by_cases hempty : b.empty = true
  · rw [(eq_of_empty hempty).2, b.contents_eq_nil_iff.mpr (b.empty_iff.mp hempty),
      List.dropLast_nil]
  · have htail : b.popBack.tail = b.tail := by simp [popBack, hempty]
    have hslot : b.popBack.slot = b.slot := by
      funext i
      simp [popBack, hempty, slot]
    rw [contents, size_popBack, htail, hslot, contents, dropLast_window]

/-! ## Every call -/

theorem contents_pushBack_dequeStep (b : CircularBuffer α N) (item : α) :
    (b.pushBack item).contents = dequeStep N b.contents (.pushBack item) := by
  have hpos := b.pos
  have hle := b.size_le
  unfold dequeStep
  dsimp only
  rw [contents_pushBack, length_contents]
  split
  · rename_i hfull
    have hdrop : b.size + 1 - N = 1 := by omega
    have hne : 1 ≤ b.contents.length := by rw [length_contents]; omega
    rw [keepLast, List.length_append, length_contents, List.length_singleton, hdrop,
      List.drop_append_of_le_length hne, List.drop_one]
  · refine keepLast_of_le ?_
    rw [List.length_append, length_contents, List.length_singleton]
    omega

theorem contents_pushFront_dequeStep (b : CircularBuffer α N) (item : α) :
    (b.pushFront item).contents = dequeStep N b.contents (.pushFront item) := by
  have hle := b.size_le
  unfold dequeStep
  dsimp only
  rw [contents_pushFront, length_contents]
  split
  · rename_i hfull
    rw [List.dropLast_eq_take, length_contents, hfull]
  · rw [List.take_of_length_le]
    rw [length_contents]
    omega

/-- The buffer does to its contents what the call does to a list. -/
theorem contents_call (b : CircularBuffer α N) (call : DequeCall α) :
    (b.call call).contents = dequeStep N b.contents call := by
  cases call with
  | pushBack item => exact b.contents_pushBack_dequeStep item
  | emplaceBack item => exact b.contents_pushBack_dequeStep item
  | pushFront item => exact b.contents_pushFront_dequeStep item
  | emplaceFront item => exact b.contents_pushFront_dequeStep item
  | popFront => exact b.contents_popFront
  | popBack => exact b.contents_popBack
  | clear => exact (contents_eq_nil_iff _).mpr b.size_clear

/-- `emplace_front` and `emplace_back` return the element they have put in. -/
theorem emplace_snd (b : CircularBuffer α N) (item : α) :
    (b.emplaceFront item).2 = item ∧ (b.emplaceBack item).2 = item := by
  refine ⟨?_, b.back_pushBack item⟩
  show (b.pushFront item).slot _ = item
  rw [slot_pushFront, if_pos]
  exact Nat.mod_mod _ _

/-! ## What can be observed -/

/-- Every member function that reads the buffer answers as the list `xs` does. -/
structure Observes (b : CircularBuffer α N) (xs : List α) : Prop where
  size_eq : b.size = xs.length
  empty_iff : b.empty = true ↔ xs.length = 0
  full_iff : b.full = true ↔ xs.length = N
  get_eq : ∀ i, i < b.size → xs[i]? = some (b.get i)
  front_eq : b.empty = false → xs.head? = some b.front
  back_eq : b.empty = false → xs.getLast? = some b.back

theorem observes_contents (b : CircularBuffer α N) : b.Observes b.contents where
  size_eq := b.length_contents.symm
  empty_iff := by rw [length_contents, b.empty_iff]
  full_iff := by rw [length_contents, b.size_eq_iff_full]
  get_eq i hi := getElem?_contents hi
  front_eq h := by
    have hsize : b.size ≠ 0 := fun h0 => by simp [b.empty_iff.mpr h0] at h
    exact head?_window _ _ (Nat.pos_of_ne_zero hsize)
  back_eq h := getLast?_contents fun h0 => by simp [b.empty_iff.mpr h0] at h

/-- No sum of indices that the member functions form reaches `2 * N`. -/
theorem index_sum_lt (b : CircularBuffer α N) :
    b.tail + N < 2 * N ∧ b.head + N < 2 * N ∧ ∀ i < b.size, b.tail + i < 2 * N := by
  have hhead := b.head_lt
  have htail := b.tail_lt
  have hle := b.size_le
  refine ⟨by omega, by omega, fun i hi => by omega⟩

end CircularBuffer

/-- A buffer side by side with its list. -/
def dequePair (s : CircularBuffer α N × List α) (call : DequeCall α) :
    CircularBuffer α N × List α :=
  (s.1.call call, dequeStep N s.2 call)

/-- Over every sequence of calls from the default-constructed buffer of any capacity, the buffer
    is observed to be the list, and the sums of its indices stay below `2 * N`. -/
theorem refines_deque [Inhabited α] (hN : 0 < N) (calls : List (DequeCall α)) :
    Always (fun s => s.1.Observes s.2 ∧ s.1.tail + N < 2 * N ∧ s.1.head + N < 2 * N ∧
        ∀ i < s.1.size, s.1.tail + i < 2 * N) (CircularBuffer.new hN, ([] : List α))
      (trace dequePair (CircularBuffer.new hN, []) calls) := by
  have hnew : (CircularBuffer.new hN : CircularBuffer α N).contents = [] :=
    (CircularBuffer.contents_eq_nil_iff _).mpr (CircularBuffer.size_new hN)
  have hrun : Always (fun s => s.2 = s.1.contents) (CircularBuffer.new hN, ([] : List α))
      (trace dequePair (CircularBuffer.new hN, []) calls) := by
    refine always_of_step ?_ hnew.symm (isRun_trace _ _ _)
    intro s call s' h hstep
    rw [hstep, dequePair]
    dsimp only
    rw [h, CircularBuffer.contents_call]
  refine hrun.mono fun s h => ?_
  rw [h]
  exact ⟨s.1.observes_contents, s.1.index_sum_lt⟩

/-- A buffer of two, pushed at both ends. -/
theorem refines_deque_two :
    Always (fun s => s.1.Observes s.2 ∧ s.1.tail + 2 < 2 * 2 ∧ s.1.head + 2 < 2 * 2 ∧
        ∀ i < s.1.size, s.1.tail + i < 2 * 2) (CircularBuffer.new (by decide), ([] : List Nat))
      (trace dequePair (CircularBuffer.new (by decide : 0 < 2), [])
        [.pushBack 1, .pushFront 2, .pushFront 3, .popBack, .clear]) :=
  refines_deque (by decide) _

example : ([.pushBack 1, .pushFront 2, .pushFront 3].foldl CircularBuffer.call
    (CircularBuffer.new (by decide) : CircularBuffer Nat 2)).contents = [3, 2] := by decide

end RehldsM.Util
