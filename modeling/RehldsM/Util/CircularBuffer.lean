import RehldsM.Lib.Ring

/-
  `CircularBuffer<T, N>` (libs/util/include/util/circular_buffer.hpp).

  `contents` is the list a buffer stands for, first element first. `head` is the slot behind
  its last element and `tail` that of its first; when they are equal, `full` tells a full
  buffer from an empty one. The fields keep what every member function relies on, so a buffer
  in which an index is out of range, or that is full with `head` and `tail` apart, cannot be
  built.

  `clear` moves an index and leaves the slots as they are: `back()` of an empty buffer reads
  the slot in front of `head`, whatever was left there.
-/

namespace RehldsM.Util

open Lib

universe u

variable {α : Type u} {N : Nat}

structure CircularBuffer (α : Type u) (N : Nat) where
  buffer : Vector α N
  head : Nat
  tail : Nat
  full : Bool
  head_lt : head < N
  tail_lt : tail < N
  full_eq : full = true → head = tail

namespace CircularBuffer

theorem pos (b : CircularBuffer α N) : 0 < N := Nat.zero_lt_of_lt b.head_lt

/-- The default-constructed buffer. -/
def new [Inhabited α] (h : 0 < N) : CircularBuffer α N where
  buffer := Vector.replicate N default
  head := 0
  tail := 0
  full := false
  head_lt := h
  tail_lt := h
  full_eq := by simp

/-- `buffer_[i % N]` -/
def slot (b : CircularBuffer α N) (i : Nat) : α :=
  have := Nat.mod_lt i b.pos
  b.buffer[i % N]

def pushFront (b : CircularBuffer α N) (item : α) : CircularBuffer α N :=
  let tail := ((b.tail + N) - 1) % N
  let head := if b.full then ((b.head + N) - 1) % N else b.head
  { buffer := b.buffer.set tail item (Nat.mod_lt _ b.pos)
    head := head
    tail := tail
    full := head == tail
    head_lt := by
      dsimp only [head]
      split
      · exact Nat.mod_lt _ b.pos
      · exact b.head_lt
    tail_lt := Nat.mod_lt _ b.pos
    full_eq := by simp }

def pushBack (b : CircularBuffer α N) (item : α) : CircularBuffer α N :=
  let head := (b.head + 1) % N
  let tail := if b.full then (b.tail + 1) % N else b.tail
  { buffer := b.buffer.set b.head item b.head_lt
    head := head
    tail := tail
    full := head == tail
    head_lt := Nat.mod_lt _ b.pos
    tail_lt := by
      dsimp only [tail]
      split
      · exact Nat.mod_lt _ b.pos
      · exact b.tail_lt
    full_eq := by simp }

def front (b : CircularBuffer α N) : α := b.slot b.tail

def back (b : CircularBuffer α N) : α := b.slot ((b.head + N) - 1)

/-- `emplace_front` builds the element in place, puts it in front and returns `front()`. -/
def emplaceFront (b : CircularBuffer α N) (item : α) : CircularBuffer α N × α :=
  let b := b.pushFront item
  (b, b.front)

/-- `emplace_back` does so at the other end. -/
def emplaceBack (b : CircularBuffer α N) (item : α) : CircularBuffer α N × α :=
  let b := b.pushBack item
  (b, b.back)

def empty (b : CircularBuffer α N) : Bool := !b.full && b.head == b.tail

def popFront (b : CircularBuffer α N) : CircularBuffer α N :=
  if !b.empty then
    { b with
      full := false
      tail := (b.tail + 1) % N
      tail_lt := Nat.mod_lt _ b.pos
      full_eq := by simp }
  else b

def popBack (b : CircularBuffer α N) : CircularBuffer α N :=
  if !b.empty then
    { b with
      full := false
      head := ((b.head + N) - 1) % N
      head_lt := Nat.mod_lt _ b.pos
      full_eq := by simp }
  else b

def maxSize (_ : CircularBuffer α N) : Nat := N

def size (b : CircularBuffer α N) : Nat :=
  if b.full then N
  else if b.head ≥ b.tail then b.head - b.tail
  else (N + b.head) - b.tail

def clear (b : CircularBuffer α N) : CircularBuffer α N :=
  { b with
    head := b.tail
    full := false
    head_lt := b.tail_lt
    full_eq := by simp }

/-- `operator[]` -/
def get (b : CircularBuffer α N) (index : Nat) : α := b.slot (b.tail + index)

/-- The elements the buffer holds, in order. -/
def contents (b : CircularBuffer α N) : List α := window b.slot b.tail b.size

/-! ## Sizes and slots -/

theorem slot_around (b : CircularBuffer α N) : Around N b.slot := by
  intro i
  simp [slot]

theorem size_le (b : CircularBuffer α N) : b.size ≤ N := by
  have hhead := b.head_lt
  have htail := b.tail_lt
  unfold size
  split
  · exact Nat.le_refl N
  · split <;> omega

theorem size_eq_iff_full (b : CircularBuffer α N) : b.size = N ↔ b.full = true := by
  have hhead := b.head_lt
  have htail := b.tail_lt
  unfold size
  cases b.full with
  | true => simp
  | false =>
    simp only [Bool.false_eq_true, if_false, iff_false]
    split <;> omega

theorem size_lt_of_not_full {b : CircularBuffer α N} (h : ¬ b.full = true) : b.size < N :=
  Nat.lt_of_le_of_ne b.size_le fun hsize => h (b.size_eq_iff_full.mp hsize)

/-- `head` is the slot behind the last element. -/
theorem head_eq (b : CircularBuffer α N) : b.head = (b.tail + b.size) % N := by
  have hhead := b.head_lt
  have htail := b.tail_lt
  unfold size
  cases hfull : b.full with
  | true =>
    have := b.full_eq hfull
    rw [if_pos rfl, Nat.add_mod_right, Nat.mod_eq_of_lt htail, this]
  | false =>
    rw [if_neg (by simp)]
    split
    · rw [show b.tail + (b.head - b.tail) = b.head by omega, Nat.mod_eq_of_lt hhead]
    · rw [show b.tail + (N + b.head - b.tail) = b.head + N by omega, Nat.add_mod_right,
        Nat.mod_eq_of_lt hhead]

/-- `head`, `tail` and `full` determine the size, and are determined by it. -/
theorem size_eq_of {b : CircularBuffer α N} {n : Nat} (hn : n ≤ N)
    (hhead : b.head = (b.tail + n) % N) (hfull : b.full = true ↔ n = N) : b.size = n := by
  by_contra hne
  have hsize := b.size_le
  have heq : (b.tail + b.size) % N = (b.tail + n) % N := by rw [← head_eq, hhead]
  have hfulls := b.size_eq_iff_full
  rcases Nat.lt_or_gt_of_ne hne with hlt | hlt
  · by_cases hnN : n = N
    · exact hne (by rw [hnN]; exact hfulls.mpr (hfull.mpr hnN))
    · exact add_mod_ne hlt (by omega) heq
  · by_cases hsN : b.size = N
    · exact hne (by rw [hfull.mp (hfulls.mp hsN)]; exact hsN)
    · exact add_mod_ne hlt (by omega) heq.symm

@[simp] theorem length_contents (b : CircularBuffer α N) : b.contents.length = b.size := by
  simp [contents]

theorem empty_iff (b : CircularBuffer α N) : b.empty = true ↔ b.size = 0 := by
  have hpos := b.pos
  have hhead := b.head_lt
  have htail := b.tail_lt
  unfold empty size
  cases b.full with
  | true =>
    simp only [Bool.not_true, Bool.false_and, Bool.false_eq_true, if_true, false_iff]
    omega
  | false =>
    simp only [Bool.not_false, Bool.true_and, beq_iff_eq, Bool.false_eq_true, if_false]
    split <;> omega

/-- The last element is what `back()` reads, as long as there is one. -/
theorem getLast?_contents {b : CircularBuffer α N} (h : b.size ≠ 0) :
    b.contents.getLast? = some b.back := by
  have hpos := b.pos
  rw [contents, getLast?_window _ _ (Nat.pos_of_ne_zero h), back]
  refine congrArg some (b.slot_around.eq ?_)
  rw [head_eq, Nat.add_sub_assoc hpos, Nat.mod_add_mod, ← Nat.add_sub_assoc hpos,
    show b.tail + b.size + N - 1 = b.tail + b.size - 1 + N by omega, Nat.add_mod_right]

@[simp] theorem size_new [Inhabited α] (h : 0 < N) : (new h : CircularBuffer α N).size = 0 := by
  simp [new, size]

@[simp] theorem size_clear (b : CircularBuffer α N) : b.clear.size = 0 := by
  simp [clear, size]

theorem contents_eq_nil_iff (b : CircularBuffer α N) : b.contents = [] ↔ b.size = 0 := by
  rw [← List.length_eq_zero_iff, length_contents]

/-- `operator[]` reads the stored elements in order. -/
theorem getElem?_contents {b : CircularBuffer α N} {i : Nat} (h : i < b.size) :
    b.contents[i]? = some (b.get i) := by
  simp [contents, window, get, h]

/-! ## `push_back` -/

theorem slot_pushBack (b : CircularBuffer α N) (item : α) (i : Nat) :
    (b.pushBack item).slot i = if i % N = b.head then item else b.slot i := by
  simp only [slot, pushBack, Vector.getElem_set, eq_comm]

theorem size_pushBack (b : CircularBuffer α N) (item : α) :
    (b.pushBack item).size = min (b.size + 1) N := by
  have hpos := b.pos
  have hle := b.size_le
  have hhead := b.head_eq
  by_cases hfull : b.full = true
  · have hsize := b.size_eq_iff_full.mpr hfull
    have heq := b.full_eq hfull
    refine size_eq_of (Nat.min_le_right _ _) ?_ ?_
    · simp [pushBack, hfull, hsize, heq]
    · simp [pushBack, hfull, hsize, heq]
  · have hlt := size_lt_of_not_full hfull
    have hhead' : (b.head + 1) % N = (b.tail + (b.size + 1)) % N := by
      rw [hhead, Nat.mod_add_mod, Nat.add_assoc]
    rw [Nat.min_eq_left hlt]
    refine size_eq_of hlt ?_ ?_
    · simpa [pushBack, hfull] using hhead'
    · simp only [pushBack, hfull, Bool.false_eq_true, if_false, beq_iff_eq]
      rw [hhead', Nat.succ_eq_add_one]
      constructor
      · intro heq
        by_contra hne
        have hwrap : (b.tail + 0) % N ≠ (b.tail + (b.size + 1)) % N :=
          add_mod_ne (by omega) (by omega)
        rw [heq, Nat.add_zero, Nat.mod_eq_of_lt b.tail_lt] at hwrap
        exact hwrap rfl
      · intro heq
        rw [heq, Nat.add_mod_right, Nat.mod_eq_of_lt b.tail_lt]

/-- `push_back` adds at the end and drops the first element of a full buffer. -/
theorem contents_pushBack (b : CircularBuffer α N) (item : α) :
    (b.pushBack item).contents = keepLast N (b.contents ++ [item]) := by
  have hpos := b.pos
  have hle := b.size_le
  have hlast : ∀ i, i % N = b.head → (b.pushBack item).slot i = item := by
    intro i hi
    rw [slot_pushBack, if_pos hi]
  by_cases hfull : b.full = true
  · -- The slot of the first element is written, and the window moves on by one.
    have hsize := b.size_eq_iff_full.mpr hfull
    obtain ⟨m, rfl⟩ : ∃ m, N = m + 1 := ⟨N - 1, by omega⟩
    have htail : (b.pushBack item).tail = (b.tail + 1) % (m + 1) := by simp [pushBack, hfull]
    have hkeep : ∀ i < m, (b.pushBack item).slot (b.tail + 1 + i) = b.slot (b.tail + 1 + i) := by
      intro i hi
      have hne : (b.tail + (i + 1)) % (m + 1) ≠ (b.tail + b.size) % (m + 1) :=
        add_mod_ne (by omega) (by omega)
      rw [slot_pushBack, if_neg]
      rw [head_eq, show b.tail + 1 + i = b.tail + (i + 1) by omega]
      exact hne
    have hwrite : (b.tail + 1 + m) % (m + 1) = b.head := by
      rw [head_eq, hsize, show b.tail + 1 + m = b.tail + (m + 1) by omega]
    have hnew : (b.pushBack item).contents = window b.slot (b.tail + 1) m ++ [item] := by
      rw [contents, size_pushBack, hsize, Nat.min_eq_right (by omega), htail,
        (slot_around _).window_eq (Nat.mod_mod _ _), window_succ, hlast _ hwrite,
        window_congr hkeep]
    have hold : b.contents = b.slot b.tail :: window b.slot (b.tail + 1) m := by
      rw [contents, hsize, window_cons]
    rw [hnew, hold]
    simp [keepLast]
  · have hlt := size_lt_of_not_full hfull
    have hkeep : ∀ i < b.size, (b.pushBack item).slot (b.tail + i) = b.slot (b.tail + i) := by
      intro i hi
      rw [slot_pushBack, if_neg]
      rw [head_eq]
      exact add_mod_ne hi (by omega)
    have htail : (b.pushBack item).tail = b.tail := by simp [pushBack, hfull]
    rw [keepLast_of_le (by simp; omega), contents, size_pushBack, Nat.min_eq_left hlt, htail,
      window_succ, hlast _ b.head_eq.symm, contents, window_congr hkeep]

theorem back_pushBack (b : CircularBuffer α N) (item : α) : (b.pushBack item).back = item := by
  have hpos := b.pos
  have hsize : (b.pushBack item).size ≠ 0 := by
    rw [size_pushBack]
    omega
  have hlast := getLast?_contents hsize
  rw [contents_pushBack, getLast?_keepLast hpos, List.getLast?_concat] at hlast
  simpa using hlast.symm

/-! ## The slot in front of the first -/

/-- What `back()` reads once the buffer is cleared: the slot in front of the first element. -/
theorem back_clear (b : CircularBuffer α N) : b.clear.back = b.slot (b.tail + N - 1) := rfl

/-- In a full buffer, and in an empty one, that slot is the one `back()` reads already. -/
theorem back_clear_of_head {b : CircularBuffer α N} (h : b.head = b.tail) :
    b.clear.back = b.back := by
  rw [back_clear, back, h]

theorem head_of_size_zero {b : CircularBuffer α N} (h : b.size = 0) : b.head = b.tail := by
  rw [head_eq, h, Nat.add_zero, Nat.mod_eq_of_lt b.tail_lt]

/-- A push does not write it before the buffer is full. -/
theorem back_clear_pushBack {b : CircularBuffer α N} (item : α) (h : b.size + 1 < N) :
    (b.pushBack item).clear.back = b.clear.back := by
  have hnot : ¬ b.full = true := fun hfull => by
    have := b.size_eq_iff_full.mpr hfull
    omega
  have htail : (b.pushBack item).tail = b.tail := by simp [pushBack, hnot]
  have hne : (b.tail + b.size) % N ≠ (b.tail + (N - 1)) % N := add_mod_ne (by omega) (by omega)
  rw [back_clear, back_clear, htail, slot_pushBack, if_neg]
  rw [head_eq, Nat.add_sub_assoc b.pos]
  exact hne.symm

end CircularBuffer

end RehldsM.Util
