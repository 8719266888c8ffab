import Mathlib.Data.List.GetD
import Mathlib.Data.List.Induction

/-
  A terminal's current row: cells of unbounded width and the column of the cursor.

  `showing l c` is the terminal whose row reads `l` followed by blanks, with the cursor at `c`;
  blanks at the end of `l` make no difference (`showing_append_blank`). The lemmas say what the
  editing idioms of a line editor do to such a row: text written over a tail
  (`feed_plain`), the cursor taken back (`feed_backspaces`), and a line wiped out from its end
  (`feed_wipe`).
-/

namespace RehldsM.Lib

structure Terminal where
  cells : Nat → Char
  column : Nat

namespace Terminal

/-- The row that reads `l` and then blanks. -/
def row (l : List Char) : Nat → Char := fun i => l.getD i ' '

def showing (l : List Char) (column : Nat) : Terminal := ⟨row l, column⟩

/-- One byte: the control characters move the cursor or begin a row, every other character
    overwrites the cell under the cursor and advances it. -/
def put (t : Terminal) (c : Char) : Terminal :=
  if c = '\x08' then { t with column := t.column - 1 }
  else if c = '\r' then { t with column := 0 }
  else if c = '\n' then showing [] 0
  else ⟨fun i => if i = t.column then c else t.cells i, t.column + 1⟩

def feed (t : Terminal) (s : List Char) : Terminal := s.foldl put t

/-- Characters that are written and control nothing. -/
def Plain (s : List Char) : Prop := ∀ c ∈ s, c ≠ '\x08' ∧ c ≠ '\r' ∧ c ≠ '\n'

theorem feed_append (t : Terminal) (s s' : List Char) : t.feed (s ++ s') = (t.feed s).feed s' := by
  simp [feed]

@[simp] theorem feed_nil (t : Terminal) : t.feed [] = t := rfl

theorem feed_cons (t : Terminal) (c : Char) (s : List Char) : t.feed (c :: s) = (t.put c).feed s :=
  rfl

@[simp] theorem put_backspace (l : List Char) (c : Nat) :
    (showing l c).put '\x08' = showing l (c - 1) := rfl

@[simp] theorem put_newline (t : Terminal) : t.put '\n' = showing [] 0 := rfl

theorem row_append (a b : List Char) (i : Nat) :
    row (a ++ b) i = if i < a.length then row a i else row b (i - a.length) := by
  unfold row
  by_cases hi : i < a.length
  · rw [if_pos hi, List.getD_append _ _ _ _ hi]
  · rw [if_neg hi, List.getD_append_right _ _ _ _ (Nat.le_of_not_lt hi)]

theorem row_tail (l : List Char) (i : Nat) : row l.tail i = row l (i + 1) := by
  cases l with
  | nil => rfl
  | cons c l => rfl

theorem showing_append_blank (l : List Char) (c : Nat) : showing (l ++ [' ']) c = showing l c := by
  have hrow : row (l ++ [' ']) = row (l ++ []) := by
    funext i
    rw [row_append, row_append]
    congr 1
    cases i - l.length with
    | zero => rfl
    | succ i => rfl
  rw [showing, hrow, List.append_nil, showing]

/-- A character written behind `a`. -/
theorem put_plain (a b : List Char) {c : Char} (hc : c ≠ '\x08' ∧ c ≠ '\r' ∧ c ≠ '\n') :
    (showing (a ++ b) a.length).put c = showing (a ++ c :: b.tail) (a.length + 1) := by
  have hcells : (fun i => if i = a.length then c else row (a ++ b) i) =
      row (a ++ c :: b.tail) := by
    funext i
    rw [row_append, row_append]
    rcases Nat.lt_trichotomy i a.length with hlt | rfl | hgt
    · rw [if_neg (Nat.ne_of_lt hlt), if_pos hlt, if_pos hlt]
    · rw [if_pos rfl, if_neg (Nat.lt_irrefl _), Nat.sub_self]
      rfl
    · obtain ⟨k, rfl⟩ := Nat.exists_eq_add_of_lt hgt
      rw [if_neg (by omega), if_neg (by omega), if_neg (by omega), Nat.add_assoc,
        Nat.add_sub_cancel_left, ← row_tail]
      rfl
  unfold put
  rw [if_neg hc.1, if_neg hc.2.1, if_neg hc.2.2]
  exact congrArg (Terminal.mk · (a.length + 1)) hcells

theorem Plain.append {a b : List Char} (ha : Plain a) (hb : Plain b) : Plain (a ++ b) :=
  fun c hc => (List.mem_append.mp hc).elim (ha c) (hb c)

/-- A text written behind `a`, over what stood there. -/
theorem feed_plain (a b : List Char) {s : List Char} (hs : Plain s) :
    (showing (a ++ b) a.length).feed s =
      showing (a ++ s ++ b.drop s.length) (a ++ s).length := by
  induction s generalizing a b with
  | nil => rw [feed_nil, List.append_nil, List.length_nil, List.drop_zero]
  | cons c s ih =>
    have hs' : Plain s := fun x hx => hs x (List.mem_cons_of_mem c hx)
    have hlen : a.length + 1 = (a ++ [c]).length := by
      rw [List.length_append, List.length_singleton]
    calc (showing (a ++ b) a.length).feed (c :: s)
        = (showing ((a ++ [c]) ++ b.tail) (a ++ [c]).length).feed s := by
          rw [feed_cons, put_plain a b (hs c List.mem_cons_self), hlen, List.append_assoc,
            List.singleton_append]
      _ = showing ((a ++ [c]) ++ s ++ b.tail.drop s.length) ((a ++ [c]) ++ s).length := ih _ _ hs'
      _ = showing (a ++ c :: s ++ b.drop (c :: s).length) (a ++ c :: s).length := by
          rw [List.append_assoc a, List.singleton_append, List.drop_tail, List.length_cons]

/-- A text written on a row that ends at the cursor. -/
theorem feed_plain_end (a : List Char) {s : List Char} (hs : Plain s) :
    (showing a a.length).feed s = showing (a ++ s) (a ++ s).length := by
  have h := feed_plain a [] hs
  rwa [List.append_nil, List.drop_nil, List.append_nil] at h

theorem feed_backspaces (l : List Char) (c n : Nat) :
    (showing l c).feed (List.replicate n '\x08') = showing l (c - n) := by
  induction n generalizing c with
  | zero => rfl
  | succ n ih =>
    rw [List.replicate_succ, feed_cons, put_backspace, ih, Nat.sub_sub, Nat.add_comm 1 n]

/-- The idiom that wipes one character out. -/
def wipe : List Char := ['\x08', ' ', '\x08']

/-- A row wiped out from its end. -/
theorem feed_wipe (l : List Char) :
    (showing l l.length).feed (List.replicate l.length wipe).flatten = showing [] 0 := by
  induction l using List.reverseRecOn with
  | nil => rfl
  | append_singleton l c ih =>
    have hone : (showing (l ++ [c]) (l ++ [c]).length).feed wipe = showing l l.length := by
      have hput := put_plain l [c] (c := ' ') (by decide)
      rw [List.tail_cons] at hput
      rw [wipe, feed_cons, put_backspace, List.length_append, List.length_singleton,
        Nat.add_sub_cancel, feed_cons, hput, showing_append_blank, feed_cons, put_backspace,
        Nat.add_sub_cancel, feed_nil]
    rw [List.length_append, List.length_singleton, List.replicate_succ, List.flatten_cons,
      feed_append, ← ih, ← hone, List.length_append, List.length_singleton]

end Terminal

end RehldsM.Lib
