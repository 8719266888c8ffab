import Mathlib.Data.List.DropRight
import Mathlib.Data.Nat.Digits.Defs

/-
  Positional numerals over any alphabet: `digit` gives the value of a symbol, `symbol` the symbol
  of a value.

  `positional_numeral` is the round trip from a number, `foldl_eq_positional` the way a reader
  computes the value from the front. Such a reader takes the longest run of digits;
  `split_eq_iff` says which run this is.
-/

namespace RehldsM.Lib

universe u

variable {α : Type u} {base : Nat}

/-! ## Reading -/

/-- The value of a numeral, whose last symbol stands for the ones. -/
def positional (digit : α → Option Nat) (base : Nat) (w : List α) : Nat :=
  Nat.ofDigits base (w.reverse.filterMap digit)

theorem positional_concat {digit : α → Option Nat} {c : α} {d : Nat} (hd : digit c = some d)
    (w : List α) :
    positional digit base (w ++ [c]) = positional digit base w * base + d := by
  unfold positional
  rw [List.reverse_concat, List.filterMap_cons_some hd, Nat.ofDigits_cons]
  ring

theorem foldl_eq_positional {digit : α → Option Nat} {w : List α}
    (h : ∀ c ∈ w, ∃ d, digit c = some d) :
    w.foldl (fun v c => v * base + (digit c).getD 0) 0 = positional digit base w := by
  induction w using List.reverseRecOn with
  | nil => rfl
  | append_singleton w c ih =>
    obtain ⟨hw, hc⟩ := List.forall_mem_append.mp h
    obtain ⟨d, hd⟩ := List.forall_mem_singleton.mp hc
    rw [List.foldl_append, ih hw, positional_concat hd, List.foldl_cons, List.foldl_nil, hd]
    rfl

/-- The longest run at the front is the one behind which another symbol stands, or nothing. -/
theorem split_eq_iff {p : α → Bool} {s w rest : List α} :
    s.takeWhile p = w ∧ s.dropWhile p = rest ↔
      s = w ++ rest ∧ (∀ c ∈ w, p c = true) ∧ ∀ c ∈ rest.head?, p c = false := by
  constructor
  · rintro ⟨rfl, rfl⟩
    refine ⟨List.takeWhile_append_dropWhile.symm, fun c hc => List.mem_takeWhile_imp hc, ?_⟩
    intro c hc
    have hhead := List.head?_dropWhile_not p s
    rw [hc] at hhead
    simpa using hhead
  · rintro ⟨rfl, hw, hrest⟩
    rw [List.takeWhile_append_of_pos hw, List.dropWhile_append_of_pos hw]
    cases rest with
    | nil => exact ⟨List.append_nil w, rfl⟩
    | cons c rest =>
      have hc : p c = false := hrest c rfl
      simp [hc]

/-! ## Writing -/

/-- The numeral of a number, without leading zeros. -/
def numeral (symbol : Nat → α) (base n : Nat) : List α :=
  if n = 0 then [symbol 0] else (base.digits n).reverse.map symbol

theorem numeral_ne_nil (symbol : Nat → α) (base n : Nat) : numeral symbol base n ≠ [] := by
  unfold numeral
  split
  · exact List.cons_ne_nil _ _
  · simpa [Nat.digits_eq_nil_iff_eq_zero]

theorem mem_numeral {symbol : Nat → α} (hbase : 1 < base) {n : Nat} {c : α}
    (hc : c ∈ numeral symbol base n) : ∃ d < base, symbol d = c := by
  unfold numeral at hc
  split at hc
  · exact ⟨0, by omega, (List.mem_singleton.mp hc).symm⟩
  · obtain ⟨d, hd, rfl⟩ := List.mem_map.mp hc
    exact ⟨d, Nat.digits_lt_base hbase (List.mem_reverse.mp hd), rfl⟩

theorem positional_numeral {digit : α → Option Nat} {symbol : Nat → α} (hbase : 1 < base)
    (hsymbol : ∀ d < base, digit (symbol d) = some d) (n : Nat) :
    positional digit base (numeral symbol base n) = n := by
  unfold positional numeral
  split
  · rename_i hn
    simp [hsymbol 0 (by omega), hn]
  · have hall : ∀ d ∈ base.digits n, digit (symbol d) = some d :=
      fun d hd => hsymbol d (Nat.digits_lt_base hbase hd)
    have hfilter : ((base.digits n).map symbol).filterMap digit = base.digits n := by
      rw [List.filterMap_map]
      exact (List.filterMap_congr hall).trans List.filterMap_some
    rw [← List.map_reverse, List.reverse_reverse, hfilter, Nat.ofDigits_digits]

end RehldsM.Lib
