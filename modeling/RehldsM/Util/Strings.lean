import RehldsM.Lib.Words

/-
  `Util::str` (libs/util/include/util/string.hpp).

  Most of `Util::str` forwards to the `strpy` package, which is not part of the repository.
  `Strpy` is that package as a parameter: its functions, with the documented behaviour the
  callers rely on as fields. `asciiStrpy` is one such package, with the C locale's spaces and
  printable characters.

  `convert_to_type` is the repository's own; under it stands `std::from_chars`.
-/

namespace RehldsM.Util

open Lib

/-- `std::string`: a string of bytes, NUL included. -/
abbrev Str := List Char

/-- `c_str()`, read as a C string: up to the first NUL. -/
def cStr (s : Str) : Str := s.takeWhile (· != '\x00')

theorem cStr_of_noNul {s : Str} (h : '\x00' ∉ s) : cStr s = s := by
  apply List.takeWhile_eq_self_iff.mpr
  intro c hc
  rw [bne_iff_ne]
  rintro rfl
  exact h hc

/-- The `strpy` functions behind `Util::str`. -/
structure Strpy where
  /-- Membership in `strpy::SPACE_CHARS`. -/
  isSpace : Char → Bool
  isPrintableChar : Char → Bool
  /-- The characters `split_lines` breaks a line at. -/
  isLineBreak : Char → Bool
  toLowerChar : Char → Char
  equal : Str → Str → Bool
  isEmptyOrSpace : Str → Bool
  isPrintable : Str → Bool
  split : Str → List Str
  splitLines : Str → List Str
  /-- `strip(str, SPACE_CHARS)`, the call `Util::str::trim` makes. -/
  strip : Str → Str
  toLower : Str → Str
  isSpace_space : isSpace ' ' = true
  isSpace_nul : isSpace '\x00' = false
  /-- No visible ASCII character is a space. -/
  isSpace_graph : ∀ c, '!' ≤ c → c ≤ '~' → isSpace c = false
  printable_space : isPrintableChar ' ' = true
  not_printable :
    ∀ c ∈ ['\x00', '\x08', '\t', '\n', '\r', '\x1B', '\x7F'], isPrintableChar c = false
  lineBreak_not_printable : ∀ c, isLineBreak c = true → isPrintableChar c = false
  equal_iff : ∀ a b, equal a b = true ↔ a = b
  isEmptyOrSpace_eq : ∀ s, isEmptyOrSpace s = s.all isSpace
  isPrintable_eq : ∀ s, isPrintable s = s.all isPrintableChar
  split_eq : ∀ s, split s = words isSpace s
  splitLines_nil : splitLines [] = []
  splitLines_cons : ∀ l s, (∀ c ∈ l, isLineBreak c = false) →
    splitLines (l ++ '\n' :: s) = l :: splitLines s
  strip_eq : ∀ s, strip s = trim isSpace s
  toLower_eq : ∀ s, toLower s = s.map toLowerChar

namespace Strpy

/-- A token of a command line: a non-empty string without spaces. -/
abbrev Token (strpy : Strpy) := Word strpy.isSpace

theorem isSpace_plus (strpy : Strpy) : strpy.isSpace '+' = false :=
  strpy.isSpace_graph '+' (by decide) (by decide)

theorem isSpace_minus (strpy : Strpy) : strpy.isSpace '-' = false :=
  strpy.isSpace_graph '-' (by decide) (by decide)

/-- A string of visible ASCII characters. -/
def isGraph (s : Str) : Bool := s.all fun c => '!' ≤ c && c ≤ '~'

theorem isSpace_of_isGraph (strpy : Strpy) {s : Str} (h : isGraph s = true) :
    ∀ c ∈ s, strpy.isSpace c = false := by
  intro c hc
  have hgraph := List.all_eq_true.mp h c hc
  simp only [Bool.and_eq_true, decide_eq_true_eq] at hgraph
  exact strpy.isSpace_graph c hgraph.1 hgraph.2

/-- A token spelled out in the source. -/
def token (strpy : Strpy) (s : Str) (hne : s ≠ []) (h : isGraph s = true) : strpy.Token :=
  ⟨s, hne, strpy.isSpace_of_isGraph h⟩

/-- The tokens of a line spelled out. -/
def tokens (strpy : Strpy) (ws : List Str)
    (h : (ws.all fun w => !w.isEmpty && isGraph w) = true) : List strpy.Token :=
  ws.pmap (fun w hw => strpy.token w (by rintro rfl; simp at hw) (Bool.and_eq_true_iff.mp hw).2)
    (List.all_eq_true.mp h)

end Strpy

/-! ## The C locale -/

def isAsciiSpace (c : Char) : Bool := c ∈ [' ', '\t', '\n', '\x0B', '\x0C', '\r']

def isAsciiPrintable (c : Char) : Bool := ' ' ≤ c && c ≤ '~'

def isAsciiLineBreak (c : Char) : Bool := c ∈ ['\n', '\r', '\x0B', '\x0C']

/-- The lines of `s`; a line break at the very end opens no further line. -/
def asciiSplitLines (s : Str) : List Str :=
  let lines := s.splitOnP isAsciiLineBreak
  if lines.getLast? = some [] then lines.dropLast else lines

theorem asciiSplitLines_cons (l s : Str) (hl : ∀ c ∈ l, isAsciiLineBreak c = false) :
    asciiSplitLines (l ++ '\n' :: s) = l :: asciiSplitLines s := by
  have hsplit : (l ++ '\n' :: s).splitOnP isAsciiLineBreak = l :: s.splitOnP isAsciiLineBreak :=
    List.splitOnP_append_cons_of_forall_mem hl '\n' (by decide) s
  obtain ⟨v, vs, hvs⟩ := List.exists_cons_of_ne_nil (List.splitOnP_ne_nil isAsciiLineBreak s)
  unfold asciiSplitLines
  rw [hsplit, hvs]
  simp only [List.getLast?_cons_cons, List.dropLast_cons_cons]
  split <;> rfl

/-- `strpy` in the C locale. -/
def asciiStrpy : Strpy where
  isSpace := isAsciiSpace
  isPrintableChar := isAsciiPrintable
  isLineBreak := isAsciiLineBreak
  toLowerChar := Char.toLower
  equal a b := a == b
  isEmptyOrSpace s := s.all isAsciiSpace
  isPrintable s := s.all isAsciiPrintable
  split := words isAsciiSpace
  splitLines := asciiSplitLines
  strip := trim isAsciiSpace
  toLower s := s.map Char.toLower
  isSpace_space := by decide
  isSpace_nul := by decide
  isSpace_graph := by
    intro c hlo hhi
    by_contra hc
    have hspace : isAsciiSpace c = true := by simpa using hc
    simp only [isAsciiSpace, decide_eq_true_eq, List.mem_cons, List.not_mem_nil, or_false] at hspace
    rcases hspace with rfl | rfl | rfl | rfl | rfl | rfl <;> revert hlo <;> decide
  printable_space := by decide
  not_printable := by
    intro c hc
    have hall : ['\x00', '\x08', '\t', '\n', '\r', '\x1B', '\x7F'].all
        (fun c => !isAsciiPrintable c) = true := by decide
    simpa using List.all_eq_true.mp hall c hc
  lineBreak_not_printable := by
    intro c hc
    simp only [isAsciiLineBreak, decide_eq_true_eq, List.mem_cons, List.not_mem_nil, or_false] at hc
    rcases hc with rfl | rfl | rfl | rfl <;> decide
  equal_iff := by simp
  isEmptyOrSpace_eq _ := rfl
  isPrintable_eq _ := rfl
  split_eq _ := rfl
  splitLines_nil := by decide
  splitLines_cons := asciiSplitLines_cons
  strip_eq _ := rfl
  toLower_eq _ := rfl

/-! ## Numbers -/

/-- An integer type by its range. -/
structure IntType where
  min : Int
  max : Int

/-- `int` of the supported platforms. -/
def int32 : IntType := ⟨-2147483648, 2147483647⟩

def IntType.signed (ty : IntType) : Prop := ty.min < 0

instance (ty : IntType) : Decidable ty.signed := inferInstanceAs (Decidable (ty.min < 0))

def IntType.Fits (ty : IntType) (v : Int) : Prop := ty.min ≤ v ∧ v ≤ ty.max

instance (ty : IntType) (v : Int) : Decidable (ty.Fits v) :=
  inferInstanceAs (Decidable (_ ∧ _))

/-- The value of a digit, letters counting from ten in either case. -/
def digitValue (c : Char) : Option Nat :=
  if '0' ≤ c ∧ c ≤ '9' then some (c.toNat - '0'.toNat)
  else if 'a' ≤ c ∧ c ≤ 'z' then some (c.toNat - 'a'.toNat + 10)
  else if 'A' ≤ c ∧ c ≤ 'Z' then some (c.toNat - 'A'.toNat + 10)
  else none

def isDigit (base : Nat) (c : Char) : Bool :=
  match digitValue c with
  | some v => v < base
  | none => false

/-- The number a digit string denotes. -/
def digitsValue (base : Nat) (ds : Str) : Nat :=
  ds.foldl (fun v c => v * base + (digitValue c).getD 0) 0

/-- The sign `std::from_chars` reads: only `'-'`, and only into a signed type. -/
def takeSign (ty : IntType) : Str → Bool × Str
  | '-' :: s => if ty.signed then (true, s) else (false, '-' :: s)
  | s => (false, s)

def withSign (neg : Bool) (v : Nat) : Int := if neg then -(v : Int) else v

/-- The error codes of `std::from_chars`. -/
inductive Errc where
  | invalidArgument
  | resultOutOfRange
deriving DecidableEq

/-- `std::from_chars(first, last, value, base)`: the value of the longest numeral at the front
    of `s`, with what is left of `s`. -/
def fromChars (ty : IntType) (s : Str) (base : Nat) : Except Errc (Int × Str) :=
  let (neg, body) := takeSign ty s
  let digits := body.takeWhile (isDigit base)
  if digits = [] then .error .invalidArgument
  else
    let v := withSign neg (digitsValue base digits)
    if ty.Fits v then .ok (v, body.dropWhile (isDigit base)) else .error .resultOutOfRange

/-- `convert_to_type<T>(str, base)`: only the error code is looked at, not how far the numeral
    reached. -/
def convertToType (ty : IntType) (s : Str) (base : Nat := 10) : Option Int :=
  match fromChars ty s base with
  | .ok (v, _) => some v
  | .error _ => none

/-- The value of `s` when the whole of it is a numeral in range. -/
def exactNumeral (ty : IntType) (s : Str) (base : Nat := 10) : Option Int :=
  let (neg, body) := takeSign ty s
  let v := withSign neg (digitsValue base body)
  if body ≠ [] ∧ body.all (isDigit base) ∧ ty.Fits v then some v else none

example : convertToType int32 "32".toList = some 32 := by decide
example : convertToType int32 "cstrike".toList = none := by decide

end RehldsM.Util
