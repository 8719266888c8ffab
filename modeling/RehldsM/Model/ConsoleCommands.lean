import Mathlib.Data.List.Lex
import Mathlib.Data.List.Sort
import Mathlib.Data.Char
import RehldsM.Util.Strings

/-
  `ConsoleCommands::find_command_matches` (libs/model/src/model/console_commands.cpp).

  The engine's `get_command_matches` is a parameter: what it puts into the object list for a C
  string, `none` standing for a null pointer. `std::string` compares bytes as unsigned
  characters, which is the lexicographic order of `Str`.
-/

namespace RehldsM.Model

open Lib Util

/-- `SystemInterface::get_command_matches`. -/
abbrev GetCommandMatches := Str → List (Option Str)

variable (strpy : Strpy)

/-- What a turn of the loop adds to the matches, if anything. -/
def takenMatch (commandMatch : Option Str) : Option Str :=
  match commandMatch with
  | none | some [] => none
  | some commandMatch =>
    let commandString := strpy.strip commandMatch
    if commandString.isEmpty then none else some (strpy.toLower commandString)

def findCommandMatches (systemInterface : Option GetCommandMatches) (command : Str) : List Str :=
  match systemInterface with
  | none => []
  | some getCommandMatches =>
    if command.isEmpty then []
    else ((getCommandMatches (cStr command)).filterMap (takenMatch strpy)).insertionSort (· ≤ ·)

variable {strpy}

theorem sorted_findCommandMatches (systemInterface : Option GetCommandMatches) (command : Str) :
    (findCommandMatches strpy systemInterface command).Pairwise (· ≤ ·) := by
  unfold findCommandMatches
  split
  · exact List.Pairwise.nil
  · split
    · exact List.Pairwise.nil
    · exact List.pairwise_insertionSort _ _

/-- The strings of the reply that are more than spaces. -/
def namedMatches (strpy : Strpy) (reply : List (Option Str)) : List Str :=
  (reply.filterMap id).filter fun s => !strpy.isEmptyOrSpace s

theorem trim_eq_nil_iff {s : Str} : strpy.strip s = [] ↔ strpy.isEmptyOrSpace s = true := by
  rw [strpy.strip_eq, strpy.isEmptyOrSpace_eq, trim]
  constructor
  · intro h
    have hall := List.rdropWhile_eq_nil_iff.mp h
    rw [List.all_eq_true]
    intro c hc
    rw [← List.takeWhile_append_dropWhile (p := strpy.isSpace) (l := s)] at hc
    rcases List.mem_append.mp hc with hc | hc
    · exact List.mem_takeWhile_imp hc
    · exact hall c hc
  · intro h
    have hdrop : s.dropWhile strpy.isSpace = [] :=
      List.dropWhile_eq_nil_iff.mpr (List.all_eq_true.mp h)
    rw [hdrop]
    rfl

theorem filterMap_takenMatch (reply : List (Option Str)) :
    reply.filterMap (takenMatch strpy) =
      (namedMatches strpy reply).map fun s => strpy.toLower (strpy.strip s) := by
  induction reply with
  | nil => rfl
  | cons commandMatch reply ih =>
    cases commandMatch with
    | none => exact ih
    | some s =>
      have htaken : takenMatch strpy (some s) =
          if strpy.isEmptyOrSpace s then none else some (strpy.toLower (strpy.strip s)) := by
        cases s with
        | nil => simp [takenMatch, strpy.isEmptyOrSpace_eq]
        | cons c s =>
          have hiff : (strpy.strip (c :: s)).isEmpty = strpy.isEmptyOrSpace (c :: s) := by
            rw [Bool.eq_iff_iff, List.isEmpty_iff, trim_eq_nil_iff]
          rw [← hiff]
          rfl
      unfold namedMatches at ih ⊢
      cases hblank : strpy.isEmptyOrSpace s with
      | true => simp [htaken, hblank, ih]
      | false => simp [htaken, hblank, ih]

/-- The matches are the named strings of the reply, trimmed and in lower case. -/
theorem perm_findCommandMatches (getCommandMatches : GetCommandMatches) {command : Str}
    (hcommand : command ≠ []) :
    (findCommandMatches strpy (some getCommandMatches) command).Perm
      ((namedMatches strpy (getCommandMatches (cStr command))).map
        fun s => strpy.toLower (strpy.strip s)) := by
  have hempty : ¬ command.isEmpty = true := by simpa using hcommand
  rw [findCommandMatches, if_neg hempty, ← filterMap_takenMatch]
  exact List.perm_insertionSort _ _

end RehldsM.Model
