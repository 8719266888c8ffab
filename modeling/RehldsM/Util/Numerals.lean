import RehldsM.Lib.Positional
import RehldsM.Util.Strings

/-
  What `convert_to_type` accepts (libs/util/include/util/string.hpp).

  `std::from_chars` stops behind the longest numeral at the front of the string. Where that is,
  `convert_to_type` does not look at: it also converts a numeral that something else follows
  (`NumeralWithTail`). `converts_exactly_iff` says that nothing else goes wrong.
-/

namespace RehldsM.Util

open Lib

/-- A numeral as a whole, with the number it denotes. -/
inductive Denotes (ty : IntType) (base : Nat) : Str → Int → Prop
  | digits {w : Str} (hne : w ≠ []) (hdigits : ∀ c ∈ w, isDigit base c = true) :
    Denotes ty base w (positional digitValue base w)
  | minus {w : Str} (hsigned : ty.signed) (hne : w ≠ [])
    (hdigits : ∀ c ∈ w, isDigit base c = true) :
    Denotes ty base ('-' :: w) (-(positional digitValue base w : Int))

/-- The string begins with a numeral in range, and something else follows. -/
def NumeralWithTail (ty : IntType) (base : Nat) (s : Str) : Prop :=
  ∃ w c rest v, s = w ++ c :: rest ∧ isDigit base c = false ∧ Denotes ty base w v ∧ ty.Fits v

def digitChar (d : Nat) : Char :=
  if d < 10 then Char.ofNat ('0'.toNat + d) else Char.ofNat ('a'.toNat + (d - 10))

/-- `std::to_chars(first, last, value, base)` -/
def toChars (base : Nat) (v : Int) : Str :=
  if v < 0 then '-' :: numeral digitChar base v.natAbs else numeral digitChar base v.natAbs

theorem int32_fits_iff {v : Int} : int32.Fits v ↔ -2147483648 ≤ v ∧ v ≤ 2147483647 := Iff.rfl

/-! ## The numeral at the front -/

theorem isDigit_iff (base : Nat) (c : Char) :
    isDigit base c = true ↔ ∃ d < base, digitValue c = some d := by
  unfold isDigit
  cases digitValue c <;> simp

theorem not_isDigit_minus (base : Nat) : isDigit base '-' = false := rfl

theorem digitsValue_eq {base : Nat} {w : Str} (h : ∀ c ∈ w, isDigit base c = true) :
    digitsValue base w = positional digitValue base w := by
  apply foldl_eq_positional
  intro c hc
  obtain ⟨d, -, hd⟩ := (isDigit_iff base c).mp (h c hc)
  exact ⟨d, hd⟩

theorem takeSign_minus {ty : IntType} (h : ty.signed) (s : Str) :
    takeSign ty ('-' :: s) = (true, s) := if_pos h

theorem takeSign_cons_of_digit (ty : IntType) {base : Nat} {c : Char} (h : isDigit base c = true)
    (s : Str) : takeSign ty (c :: s) = (false, c :: s) := by
  unfold takeSign
  split
  · rename_i heq
    obtain ⟨rfl, -⟩ := List.cons.inj heq
    rw [not_isDigit_minus] at h
    contradiction
  · rfl

theorem takeSign_cases (ty : IntType) (s : Str) :
    takeSign ty s = (false, s) ∨
      ∃ body, s = '-' :: body ∧ ty.signed ∧ takeSign ty s = (true, body) := by
  unfold takeSign
  split
  · rename_i body
    split
    · rename_i hsigned
      exact .inr ⟨body, rfl, hsigned, rfl⟩
    · exact .inl rfl
  · exact .inl rfl

/-- What `std::from_chars` reads behind the sign. -/
theorem fromChars_of_takeSign {ty : IntType} {s body rest : Str} {base : Nat} {neg : Bool} {v : Int}
    (hsign : takeSign ty s = (neg, body)) :
    fromChars ty s base = .ok (v, rest) ↔
      ∃ w, body = w ++ rest ∧ w ≠ [] ∧ (∀ c ∈ w, isDigit base c = true) ∧
        (∀ c ∈ rest.head?, isDigit base c = false) ∧
        withSign neg (positional digitValue base w) = v ∧ ty.Fits v := by
  unfold fromChars
  rw [hsign]
  dsimp only
  constructor
  · intro h
    obtain ⟨hsplit, hdigits, hrest⟩ := split_eq_iff.mp
      (⟨rfl, rfl⟩ : body.takeWhile (isDigit base) = _ ∧ body.dropWhile (isDigit base) = _)
    rw [digitsValue_eq hdigits] at h
    split at h
    · contradiction
    · rename_i hne
      split at h
      · rename_i hfits
        simp only [Except.ok.injEq, Prod.mk.injEq] at h
        obtain ⟨rfl, rfl⟩ := h
        exact ⟨_, hsplit, hne, hdigits, hrest, rfl, hfits⟩
      · contradiction
  · rintro ⟨w, hbody, hne, hdigits, hrest, rfl, hfits⟩
    obtain ⟨htake, hdrop⟩ := split_eq_iff.mpr ⟨hbody, hdigits, hrest⟩
    rw [htake, hdrop, if_neg hne, digitsValue_eq hdigits, if_pos hfits]

/-- The numeral at the front, as long as it can be. -/
theorem fromChars_eq_ok_iff {ty : IntType} {s rest : Str} {base : Nat} {v : Int} :
    fromChars ty s base = .ok (v, rest) ↔
      ∃ w, s = w ++ rest ∧ Denotes ty base w v ∧ ty.Fits v ∧
        ∀ c ∈ rest.head?, isDigit base c = false := by
  constructor
  · intro h
    rcases takeSign_cases ty s with hsign | ⟨body, rfl, hsigned, hsign⟩
    · obtain ⟨w, hs, hne, hdigits, hrest, rfl, hfits⟩ := (fromChars_of_takeSign hsign).mp h
      exact ⟨w, hs, .digits hne hdigits, hfits, hrest⟩
    · obtain ⟨w, rfl, hne, hdigits, hrest, rfl, hfits⟩ := (fromChars_of_takeSign hsign).mp h
      exact ⟨'-' :: w, rfl, .minus hsigned hne hdigits, hfits, hrest⟩
  · rintro ⟨w, rfl, hw, hfits, hrest⟩
    cases hw with
    | digits hne hdigits =>
      have hsign : takeSign ty (w ++ rest) = (false, w ++ rest) := by
        obtain ⟨c, w, rfl⟩ := List.exists_cons_of_ne_nil hne
        exact takeSign_cons_of_digit ty (hdigits c (.head w)) _
      exact (fromChars_of_takeSign hsign).mpr ⟨w, rfl, hne, hdigits, hrest, rfl, hfits⟩
    | @minus w hsigned hne hdigits =>
      have hsign : takeSign ty ('-' :: w ++ rest) = (true, w ++ rest) := takeSign_minus hsigned _
      exact (fromChars_of_takeSign hsign).mpr ⟨w, rfl, hne, hdigits, hrest, rfl, hfits⟩

theorem convertToType_eq_some_iff {ty : IntType} {s : Str} {base : Nat} {v : Int} :
    convertToType ty s base = some v ↔
      ∃ w rest, s = w ++ rest ∧ Denotes ty base w v ∧ ty.Fits v ∧
        ∀ c ∈ rest.head?, isDigit base c = false := by
  have hok : convertToType ty s base = some v ↔ ∃ rest, fromChars ty s base = .ok (v, rest) := by
    unfold convertToType
    cases fromChars ty s base with
    | error code => simp
    | ok result => simp [Prod.ext_iff]
  rw [hok, exists_comm]
  exact exists_congr fun rest => fromChars_eq_ok_iff

/-! ## The string as a whole -/

section whole

variable {ty : IntType} {base : Nat} {s : Str} {v : Int}

theorem Denotes.ne_nil (h : Denotes ty base s v) : s ≠ [] := by
  cases h with
  | digits hne hdigits => exact hne
  | minus hsigned hne hdigits => exact List.cons_ne_nil _ _

/-- Behind its first character a numeral has digits only. -/
theorem Denotes.isDigit_tail {c : Char} (h : Denotes ty base (c :: s) v) :
    ∀ c ∈ s, isDigit base c = true := by
  cases h with
  | digits hne hdigits => exact fun c hc => hdigits c (.tail _ hc)
  | minus hsigned hne hdigits => exact hdigits

theorem Denotes.not_numeralWithTail (h : Denotes ty base s v) : ¬ NumeralWithTail ty base s := by
  rintro ⟨w, c, rest, v', rfl, hc, hw, -⟩
  obtain ⟨x, w, rfl⟩ := List.exists_cons_of_ne_nil hw.ne_nil
  have hdigit := h.isDigit_tail c (List.mem_append_right w (.head rest))
  rw [hc] at hdigit
  contradiction

theorem convertToType_of_denotes (h : Denotes ty base s v) (hfits : ty.Fits v) :
    convertToType ty s base = some v :=
  convertToType_eq_some_iff.mpr ⟨s, [], (List.append_nil s).symm, h, hfits, by simp⟩

/-- A string that is converted is a numeral, or has a tail. -/
theorem convertToType_cases (h : convertToType ty s base = some v) :
    (Denotes ty base s v ∧ ty.Fits v) ∨ NumeralWithTail ty base s := by
  obtain ⟨w, rest, rfl, hw, hfits, hrest⟩ := convertToType_eq_some_iff.mp h
  cases rest with
  | nil => exact .inl ⟨by rwa [List.append_nil], hfits⟩
  | cons c rest => exact .inr ⟨w, c, rest, v, rfl, hrest c rfl, hw, hfits⟩

theorem NumeralWithTail.converted (h : NumeralWithTail ty base s) :
    ∃ v, convertToType ty s base = some v := by
  obtain ⟨w, c, rest, v, rfl, hc, hw, hfits⟩ := h
  exact ⟨v, convertToType_eq_some_iff.mpr ⟨w, c :: rest, rfl, hw, hfits, by simpa⟩⟩

end whole

theorem converts_exactly_iff (ty : IntType) (base : Nat) (s : Str) :
    (∀ v, convertToType ty s base = some v ↔ Denotes ty base s v ∧ ty.Fits v) ↔
      ¬ NumeralWithTail ty base s := by
  constructor
  · intro h htail
    obtain ⟨v, hv⟩ := htail.converted
    exact ((h v).mp hv).1.not_numeralWithTail htail
  · intro h v
    refine ⟨fun hv => (convertToType_cases hv).resolve_right h, ?_⟩
    rintro ⟨hdenotes, hfits⟩
    exact convertToType_of_denotes hdenotes hfits

theorem exactNumeral_eq_some_iff {ty : IntType} {base : Nat} {s : Str} {v : Int} :
    exactNumeral ty s base = some v ↔ Denotes ty base s v ∧ ty.Fits v := by
  have hwhole : exactNumeral ty s base = some v ↔ fromChars ty s base = .ok (v, []) := by
    obtain ⟨⟨neg, body⟩, hsign⟩ : ∃ sign, takeSign ty s = sign := ⟨_, rfl⟩
    rw [fromChars_of_takeSign hsign]
    unfold exactNumeral
    rw [hsign]
    simp only [Option.ite_none_right_eq_some, Option.some.injEq, List.all_eq_true]
    constructor
    · rintro ⟨⟨hne, hdigits, hfits⟩, rfl⟩
      rw [digitsValue_eq hdigits] at hfits ⊢
      exact ⟨body, (List.append_nil body).symm, hne, hdigits, by simp, rfl, hfits⟩
    · rintro ⟨w, rfl, hne, hdigits, -, rfl, hfits⟩
      rw [List.append_nil, digitsValue_eq hdigits]
      exact ⟨⟨hne, hdigits, hfits⟩, rfl⟩
  rw [hwhole, fromChars_eq_ok_iff]
  constructor
  · rintro ⟨w, rfl, hw, hfits, -⟩
    exact ⟨by rwa [List.append_nil], hfits⟩
  · rintro ⟨hs, hfits⟩
    exact ⟨s, (List.append_nil s).symm, hs, hfits, by simp⟩

/-- `convert_to_type` finds the value of the whole string exactly where there is no tail. -/
theorem convertToType_eq_exactNumeral_iff (ty : IntType) (base : Nat) (s : Str) :
    convertToType ty s base = exactNumeral ty s base ↔ ¬ NumeralWithTail ty base s := by
  rw [← converts_exactly_iff, Option.ext_iff]
  exact forall_congr' fun v => by rw [exactNumeral_eq_some_iff]

instance (ty : IntType) (base : Nat) (s : Str) : Decidable (NumeralWithTail ty base s) :=
  decidable_of_iff (¬ convertToType ty s base = exactNumeral ty s base)
    (not_iff_comm.mp (convertToType_eq_exactNumeral_iff ty base s).symm)

/-! ## Numbers written and read again -/

theorem digitValue_digitChar : ∀ d < 36, digitValue (digitChar d) = some d := by decide

theorem toChars_natCast (base n : Nat) : toChars base n = numeral digitChar base n := by
  unfold toChars
  rw [if_neg (by omega), Int.natAbs_natCast]

theorem toChars_ne_nil (base : Nat) (v : Int) : toChars base v ≠ [] := by
  unfold toChars
  split
  · exact List.cons_ne_nil _ _
  · exact numeral_ne_nil _ _ _

theorem isDigit_numeral {base : Nat} (hlo : 2 ≤ base) (hhi : base ≤ 36) (n : Nat) :
    ∀ c ∈ numeral digitChar base n, isDigit base c = true := by
  intro c hc
  obtain ⟨d, hd, rfl⟩ := mem_numeral hlo hc
  exact (isDigit_iff base _).mpr ⟨d, hd, digitValue_digitChar d (by omega)⟩

theorem denotes_toChars {ty : IntType} {base : Nat} (hlo : 2 ≤ base) (hhi : base ≤ 36) {v : Int}
    (hfits : ty.Fits v) : Denotes ty base (toChars base v) v := by
  have hvalue : positional digitValue base (numeral digitChar base v.natAbs) = v.natAbs :=
    positional_numeral hlo (fun d hd => digitValue_digitChar d (by omega)) v.natAbs
  have hdigits := isDigit_numeral hlo hhi v.natAbs
  unfold toChars
  split
  · rename_i hneg
    have hsigned : ty.signed := hfits.1.trans_lt hneg
    have hdenotes := Denotes.minus hsigned (numeral_ne_nil _ _ _) hdigits
    have habs : -(v.natAbs : Int) = v := by omega
    rwa [hvalue, habs] at hdenotes
  · have hdenotes : Denotes ty base _ _ := .digits (numeral_ne_nil _ _ _) hdigits
    have habs : (v.natAbs : Int) = v := by omega
    rwa [hvalue, habs] at hdenotes

theorem convertToType_toChars {ty : IntType} {base : Nat} (hlo : 2 ≤ base) (hhi : base ≤ 36)
    {v : Int} (hfits : ty.Fits v) : convertToType ty (toChars base v) base = some v :=
  convertToType_of_denotes (denotes_toChars hlo hhi hfits) hfits

end RehldsM.Util
