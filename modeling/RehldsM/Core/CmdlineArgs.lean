import RehldsM.Lib.Search
import RehldsM.Util.File

/-
  `CmdLineArgs` (libs/core/src/core/cmdline_args.cpp, libs/core/include/core/cmdline_args.hpp).

  The class keeps one flat string and edits it by substring search. `argv` is the list of the
  `argc` arguments, the program name first. A position is an `Option Nat`, `none` for `npos`.

  `build_arguments_string` calls itself for every `@`-file it expands; `depth` bounds the
  nesting of these calls (`NoReturn.deeper`). Where `file_exists` ends the process, so does it.
-/

namespace RehldsM.Core

open Lib Util

/-- Index of the first argument, skipping the executable name. -/
def firstArgIndex : Nat := 1

def isPrefixChar (ch : Char) : Bool := '-' == ch || '+' == ch || '@' == ch

def isValidArgument (arg : Str) : Bool :=
  arg.length > 1 && arg.head?.any isPrefixChar

/-- `front()` of an empty argument is undefined; no caller passes one. -/
def removeArgumentPrefix : Str → Str
  | [] => []
  | firstChar :: rest => if isPrefixChar firstChar then rest else firstChar :: rest

def extractCmdlineArgs (argv : List Str) : List Str := argv.drop firstArgIndex

/-- The test of the arguments the loop of `build_arguments_string` passes over. -/
def isSkipped (arg : Str) : Bool :=
  arg.isEmpty || (arg.length == 1 && arg.head?.any isPrefixChar)

/-- One turn of the loop of `build_arguments_string`. `nested` is the recursive call. -/
def appendArgument (strpy : Strpy) (disk : Disk) (nested : List Str → Except NoReturn Str)
    (string arg : Str) : Except NoReturn Str :=
  if isSkipped arg then .ok string
  else if arg.head? = some '@' then
    match disk.fileRead (arg.drop 1) with
    | .error noReturn => .error noReturn
    | .ok (.ok fileContent) =>
      (nested (strpy.split fileContent)).map fun sub => string ++ sub ++ [' ']
    | .ok (.error _) => .ok string
  else .ok (string ++ arg ++ [' '])

def buildArgumentsString (strpy : Strpy) (disk : Disk) : Nat → List Str → Except NoReturn Str
  | 0, _ => .error .deeper
  | depth + 1, args =>
    (args.foldlM (appendArgument strpy disk (buildArgumentsString strpy disk depth)) []).map
      strpy.strip

structure CmdLineArgs where
  arguments : Str
deriving DecidableEq

namespace CmdLineArgs

def fromCommandLine (strpy : Strpy) (disk : Disk) (depth : Nat) (argv : List Str) :
    Except NoReturn CmdLineArgs :=
  (buildArgumentsString strpy disk depth (extractCmdlineArgs argv)).map CmdLineArgs.mk

/-- `find_argument_index(argc, argv, arg)`: whole arguments are compared. -/
def findArgumentIndex (strpy : Strpy) (argv : List Str) (arg : Str) : Int :=
  let arg := removeArgumentPrefix arg
  let plusArg := '+' :: arg
  let minusArg := '-' :: arg
  match (argv.drop firstArgIndex).findIdx?
      fun x => strpy.equal x minusArg || strpy.equal x plusArg with
  | some i => i + firstArgIndex
  | none => -1

/-- The static `contains(argc, argv, arg)`. -/
def argvContains (strpy : Strpy) (argv : List Str) (arg : Str) : Bool :=
  findArgumentIndex strpy argv arg != -1

def findArgumentPos (args : CmdLineArgs) (arg : Str) : Option Nat :=
  let arg := removeArgumentPrefix arg
  match rfind ('+' :: arg) args.arguments, rfind ('-' :: arg) args.arguments with
  | none, pos2 => pos2
  | pos1, none => pos1
  | some pos1, some pos2 => some (max pos1 pos2)

def contains (args : CmdLineArgs) (arg : Str) : Bool := (args.findArgumentPos arg).isSome

/-- `get_argument_option(arg, pos)`. The offset of the option comes from the length of `arg` as
    the caller spells it. -/
def getArgumentOptionAt (args : CmdLineArgs) (arg : Str) (pos : Option Nat) : Option Str :=
  match pos with
  | none => none
  | some pos =>
    let newPos := pos + arg.length + 1
    let rest := (args.arguments.drop newPos).dropWhile (· == ' ')
    match rest with
    | [] => none
    | c :: _ => if c ≠ '+' ∧ c ≠ '-' then some (rest.takeWhile (· != ' ')) else none

def getArgumentOption (args : CmdLineArgs) (arg : Str) : Option Str :=
  args.getArgumentOptionAt arg (args.findArgumentPos arg)

def getArgumentOptionAs (ty : IntType) (args : CmdLineArgs) (arg : Str) : Option Int :=
  match args.getArgumentOption arg with
  | some option => convertToType ty option
  | none => none

/-- `num_chars_to_remove` of `remove`: one separator is counted behind the argument and one
    behind its option. -/
def numCharsToRemove (args : CmdLineArgs) (arg : Str) (pos : Nat) : Nat :=
  let numCharsToRemove := 1 + arg.length + 1
  match args.getArgumentOptionAt arg (some pos) with
  | some option => numCharsToRemove + (option.length + 1)
  | none => numCharsToRemove

/-- One turn of the loop of `remove`: the erasure begins at the separator in front, if any. -/
def removeAt (args : CmdLineArgs) (arg : Str) (pos : Nat) : CmdLineArgs :=
  let num := args.numCharsToRemove arg pos
  let pos := if pos > 0 then pos - 1 else pos
  ⟨args.arguments.take pos ++ args.arguments.drop (pos + num)⟩

/-- The loop of `remove`, at most `fuel` turns of it. -/
def removeLoop (arg : Str) : Nat → CmdLineArgs → CmdLineArgs
  | 0, args => args
  | fuel + 1, args =>
    match args.findArgumentPos arg with
    | none => args
    | some pos => removeLoop arg fuel (args.removeAt arg pos)

/-- Every turn of the loop shortens the string (`removeAt_length_lt`), so its length bounds the
    number of turns. -/
def remove (args : CmdLineArgs) (arg : Str) : CmdLineArgs :=
  removeLoop (removeArgumentPrefix arg) args.arguments.length args

def pushFront (strpy : Strpy) (args : CmdLineArgs) (arg : Str) (option : Str := []) : CmdLineArgs :=
  let arg := strpy.strip arg
  if !isValidArgument arg then args
  else
    let args := args.remove arg
    let option := strpy.strip option
    let arguments :=
      if option.isEmpty then arg ++ [' '] ++ args.arguments
      else arg ++ [' '] ++ option ++ [' '] ++ args.arguments
    ⟨strpy.strip arguments⟩

def pushBack (strpy : Strpy) (args : CmdLineArgs) (arg : Str) (option : Str := []) : CmdLineArgs :=
  let arg := strpy.strip arg
  if !isValidArgument arg then args
  else
    let args := args.remove arg
    let option := strpy.strip option
    let arguments :=
      if option.isEmpty then args.arguments ++ ([' '] ++ arg)
      else args.arguments ++ ([' '] ++ arg ++ [' '] ++ option)
    ⟨strpy.strip arguments⟩

/-- `get_current()` hands out a C string: it ends at the first NUL. -/
def getCurrent (args : CmdLineArgs) : Str := args.arguments.takeWhile (· != '\x00')

/-! ## The loop of `remove` ends -/

theorem findArgumentPos_cases {args : CmdLineArgs} {arg : Str} {pos : Nat}
    (h : args.findArgumentPos arg = some pos) :
    rfind ('+' :: removeArgumentPrefix arg) args.arguments = some pos ∨
      rfind ('-' :: removeArgumentPrefix arg) args.arguments = some pos := by
  unfold findArgumentPos at h
  dsimp only at h
  split at h
  · exact Or.inr h
  · exact Or.inl h
  · next pos1 pos2 h1 h2 =>
    have hmax : max pos1 pos2 = pos := by simpa using h
    rcases Nat.le_total pos1 pos2 with hle | hle
    · right; rw [h2, ← hmax, Nat.max_eq_right hle]
    · left; rw [h1, ← hmax, Nat.max_eq_left hle]

theorem findArgumentPos_lt {args : CmdLineArgs} {arg : Str} {pos : Nat}
    (h : args.findArgumentPos arg = some pos) : pos < args.arguments.length := by
  rcases findArgumentPos_cases h with hr | hr
  · have := (rfind_some hr).2
    simp only [List.length_cons] at this
    omega
  · have := (rfind_some hr).2
    simp only [List.length_cons] at this
    omega

theorem findArgumentPos_eq_none_iff {args : CmdLineArgs} {arg : Str} :
    args.findArgumentPos arg = none ↔
      ¬ '+' :: removeArgumentPrefix arg <:+: args.arguments ∧
        ¬ '-' :: removeArgumentPrefix arg <:+: args.arguments := by
  rw [← rfind_eq_none_iff, ← rfind_eq_none_iff]
  unfold findArgumentPos
  cases h1 : rfind ('+' :: removeArgumentPrefix arg) args.arguments with
  | none => simp [h1]
  | some pos1 =>
    cases h2 : rfind ('-' :: removeArgumentPrefix arg) args.arguments with
    | none => simp [h1, h2]
    | some pos2 => simp [h1, h2]

theorem two_le_numCharsToRemove (args : CmdLineArgs) (arg : Str) (pos : Nat) :
    2 ≤ args.numCharsToRemove arg pos := by
  unfold numCharsToRemove
  cases args.getArgumentOptionAt arg (some pos) with
  | none => dsimp only; omega
  | some option => dsimp only; omega

theorem removeAt_length_lt {args : CmdLineArgs} (arg : Str) {pos : Nat}
    (h : pos < args.arguments.length) :
    (args.removeAt arg pos).arguments.length < args.arguments.length := by
  have hnum := two_le_numCharsToRemove args arg pos
  simp only [removeAt, List.length_append, List.length_take, List.length_drop]
  generalize args.numCharsToRemove arg pos = num at hnum ⊢
  generalize args.arguments.length = n at h ⊢
  split <;> omega

/-- More turns than the length of the string change nothing. -/
theorem removeLoop_fuel (arg : Str) (fuel : Nat) (args : CmdLineArgs)
    (h : args.arguments.length ≤ fuel) :
    removeLoop arg fuel args = removeLoop arg args.arguments.length args := by
  induction fuel using Nat.strong_induction_on generalizing args with
  | _ fuel ih =>
    cases hpos : args.findArgumentPos arg with
    | none =>
      have hstop : ∀ n, removeLoop arg n args = args := by
        intro n
        cases n with
        | zero => rfl
        | succ n => simp [removeLoop, hpos]
      rw [hstop, hstop]
    | some pos =>
      have hlt := removeAt_length_lt arg (findArgumentPos_lt hpos)
      obtain ⟨m, hm⟩ : ∃ m, args.arguments.length = m + 1 := ⟨args.arguments.length - 1, by omega⟩
      obtain ⟨k, rfl⟩ : ∃ k, fuel = k + 1 := ⟨fuel - 1, by omega⟩
      have hstep : ∀ n, removeLoop arg (n + 1) args = removeLoop arg n (args.removeAt arg pos) := by
        intro n
        simp [removeLoop, hpos]
      rw [hm, hstep, hstep, ih k (by omega) _ (by omega)]
      by_cases hmk : m = k
      · subst hmk; rw [ih m (by omega) _ (by omega)]
      · rw [ih m (by omega) _ (by omega)]

/-- The two equations of the loop, without the turn counter. -/
theorem remove_of_none {args : CmdLineArgs} {arg : Str}
    (h : args.findArgumentPos (removeArgumentPrefix arg) = none) : args.remove arg = args := by
  unfold remove
  cases args.arguments.length with
  | zero => rfl
  | succ n => simp [removeLoop, h]

theorem remove_of_some {args : CmdLineArgs} {arg : Str} {pos : Nat}
    (h : args.findArgumentPos (removeArgumentPrefix arg) = some pos) :
    args.remove arg = (args.removeAt (removeArgumentPrefix arg) pos).remove arg := by
  have hlt := removeAt_length_lt (removeArgumentPrefix arg) (findArgumentPos_lt h)
  obtain ⟨m, hm⟩ : ∃ m, args.arguments.length = m + 1 := ⟨args.arguments.length - 1, by omega⟩
  unfold remove
  rw [hm]
  simp only [removeLoop, h]
  exact removeLoop_fuel _ m _ (by omega)

end CmdLineArgs

example : (CmdLineArgs.mk "-tos -pingboost 2 +map de_dust2".toList).pushFront asciiStrpy
    "+pingboost".toList "5".toList = ⟨"+pingboost 5 -tos +map de_dust2".toList⟩ := by decide

end RehldsM.Core
