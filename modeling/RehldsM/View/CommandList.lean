import RehldsM.View.ConsoleInput

/-
  The rows of `print_command_matches`.

  A cell is as wide as the longest command and two blanks more, but the number of columns is
  computed for one blank (`commands_fit_iff`).
-/

namespace RehldsM.View

open Lib Util

/-- The width the columns are computed for. -/
def usedWidth (consoleWidth : Nat) : Nat := if consoleWidth < 10 then 80 else consoleWidth

def totalColumns (consoleWidth : Nat) (commands : List Str) : Nat :=
  (usedWidth consoleWidth - 1) / (getLongestCommandLength commands + 1)

/-- `"{:<{}}  "` -/
def cell (longest : Nat) (command : Str) : Str :=
  command ++ List.replicate (longest - command.length) ' ' ++ [' ', ' ']

def rowText (longest : Nat) (row : List Str) : Str := row.flatMap (cell longest)

/-- What is left of the current row, from this column on, and the rows below it. -/
def rowsFrom (totalColumns : Nat) : Nat → List Str → List Str × List (List Str)
  | _, [] => ([], [])
  | currentColumn, command :: commands =>
    if currentColumn + 1 > totalColumns then
      let (row, rows) := rowsFrom totalColumns 1 commands
      ([], (command :: row) :: rows)
    else
      let (row, rows) := rowsFrom totalColumns (currentColumn + 1) commands
      (command :: row, rows)

/-- The rows on the console. The first is empty when there is no column at all. -/
def commandRows (consoleWidth : Nat) (commands : List Str) : List (List Str) :=
  let (row, rows) := rowsFrom (totalColumns consoleWidth commands) 0 commands
  row :: rows

/-- The rows hold the commands in order, each once, and a row of several fits the console. -/
structure PrintsFitting (consoleWidth : Nat) (commands : List Str) : Prop where
  text : printCommandMatches consoleWidth commands = List.intercalate ['\n']
    ((commandRows consoleWidth commands).map (rowText (getLongestCommandLength commands)))
  flatten : (commandRows consoleWidth commands).flatten = commands
  fits : ∀ row ∈ commandRows consoleWidth commands, 1 < row.length →
    (rowText (getLongestCommandLength commands) row).length ≤ usedWidth consoleWidth

/-! ## Cells -/

theorem foldl_max_le (commands : List Str) (longest : Nat) :
    longest ≤ commands.foldl (fun longest command => max longest command.length) longest ∧
      ∀ command ∈ commands, command.length ≤
        commands.foldl (fun longest command => max longest command.length) longest := by
  induction commands generalizing longest with
  | nil => exact ⟨Nat.le_refl _, by simp⟩
  | cons command commands ih =>
    obtain ⟨hlongest, hall⟩ := ih (max longest command.length)
    refine ⟨Nat.le_trans (Nat.le_max_left _ _) hlongest, ?_⟩
    rw [List.forall_mem_cons]
    exact ⟨Nat.le_trans (Nat.le_max_right _ _) hlongest, hall⟩

theorem length_le_longest {commands : List Str} {command : Str} (h : command ∈ commands) :
    command.length ≤ getLongestCommandLength commands :=
  (foldl_max_le commands 0).2 command h

theorem length_rowText {longest : Nat} {row : List Str} (h : ∀ c ∈ row, c.length ≤ longest) :
    (rowText longest row).length = row.length * (longest + 2) := by
  induction row with
  | nil => simp [rowText]
  | cons command row ih =>
    obtain ⟨hcommand, hrow⟩ := List.forall_mem_cons.mp h
    have hcell : (cell longest command).length = longest + 2 := by
      simp only [cell, List.length_append, List.length_replicate, List.length_cons,
        List.length_nil]
      omega
    have hrest := ih hrow
    unfold rowText at hrest ⊢
    rw [List.flatMap_cons, List.length_append, hcell, hrest, List.length_cons, Nat.succ_mul,
      Nat.add_comm]

/-! ## Rows -/

theorem printMatchesFrom_eq (longest total column : Nat) (commands : List Str) :
    printMatchesFrom longest total column commands =
      rowText longest (rowsFrom total column commands).1 ++
        (rowsFrom total column commands).2.flatMap fun row => '\n' :: rowText longest row := by
  induction commands generalizing column with
  | nil => rfl
  | cons command commands ih =>
    rw [printMatchesFrom, rowsFrom]
    dsimp only
    split
    · rw [ih 1]
      simp [rowText, cell]
    · rw [ih (column + 1)]
      simp [rowText, cell]

theorem flatten_rowsFrom (total column : Nat) (commands : List Str) :
    (rowsFrom total column commands).1 ++ (rowsFrom total column commands).2.flatten =
      commands := by
  induction commands generalizing column with
  | nil => rfl
  | cons command commands ih =>
    rw [rowsFrom]
    split
    · exact congrArg (command :: ·) (ih 1)
    · exact congrArg (command :: ·) (ih (column + 1))

/-- A row ends at the last column, or with the last command. -/
theorem length_rowsFrom {total column : Nat} (hcolumn : column ≤ total ∨ column ≤ 1)
    (commands : List Str) :
    (rowsFrom total column commands).1.length = min (total - column) commands.length ∧
      ∀ row ∈ (rowsFrom total column commands).2, row.length ≤ max 1 total := by
  induction commands generalizing column with
  | nil => simp [rowsFrom]
  | cons command commands ih =>
    rw [rowsFrom]
    split
    · rename_i hbreak
      obtain ⟨hrow, hrows⟩ := ih (Or.inr (Nat.le_refl 1))
      refine ⟨?_, List.forall_mem_cons.mpr ⟨?_, hrows⟩⟩
      · rw [List.length_nil]
        omega
      · rw [List.length_cons, hrow]
        omega
    · rename_i hnext
      obtain ⟨hrow, hrows⟩ := ih (Or.inl (Nat.le_of_not_gt hnext))
      refine ⟨?_, hrows⟩
      rw [List.length_cons, hrow, List.length_cons]
      omega

theorem intercalate_cons {α : Type*} (sep x : List α) (xs : List (List α)) :
    List.intercalate sep (x :: xs) = x ++ xs.flatMap (sep ++ ·) := by
  induction xs generalizing x with
  | nil => simp
  | cons y xs ih =>
    rw [List.intercalate_cons_cons, ih y, List.flatMap_cons, List.append_assoc, List.append_assoc]

theorem text_commandRows (consoleWidth : Nat) (commands : List Str) :
    printCommandMatches consoleWidth commands = List.intercalate ['\n']
      ((commandRows consoleWidth commands).map (rowText (getLongestCommandLength commands))) := by
  have htext := printMatchesFrom_eq (getLongestCommandLength commands)
    (totalColumns consoleWidth commands) 0 commands
  rw [commandRows, List.map_cons, intercalate_cons, List.flatMap_map]
  exact htext

theorem flatten_commandRows (consoleWidth : Nat) (commands : List Str) :
    (commandRows consoleWidth commands).flatten = commands :=
  flatten_rowsFrom (totalColumns consoleWidth commands) 0 commands

/-- The first row is full, or holds all the commands; no row is longer than one column or the
    total. -/
theorem length_commandRows (consoleWidth : Nat) (commands : List Str) :
    (∃ row ∈ commandRows consoleWidth commands,
        row.length = min (totalColumns consoleWidth commands) commands.length) ∧
      ∀ row ∈ commandRows consoleWidth commands,
        row.length ≤ max 1 (totalColumns consoleWidth commands) ∧ row.length ≤ commands.length := by
  obtain ⟨hrow, hrows⟩ := length_rowsFrom
    (Or.inl (Nat.zero_le (totalColumns consoleWidth commands))) commands
  refine ⟨⟨_, List.mem_cons_self, hrow⟩, fun row hmem => ⟨?_, ?_⟩⟩
  · rcases List.mem_cons.mp hmem with rfl | hmem
    · rw [hrow]
      omega
    · exact hrows row hmem
  · have hsub := (List.sublist_flatten_of_mem hmem).length_le
    rwa [flatten_commandRows] at hsub

/-- A row of several commands is too wide exactly when the row with the most commands is. -/
theorem commands_fit_iff (consoleWidth : Nat) (commands : List Str) :
    PrintsFitting consoleWidth commands ↔
      (min (totalColumns consoleWidth commands) commands.length ≤ 1 ∨
        min (totalColumns consoleWidth commands) commands.length *
          (getLongestCommandLength commands + 2) ≤ usedWidth consoleWidth) := by
  obtain ⟨⟨first, hfirst, hlen⟩, hall⟩ := length_commandRows consoleWidth commands
  have hwidth : ∀ row ∈ commandRows consoleWidth commands,
      (rowText (getLongestCommandLength commands) row).length =
        row.length * (getLongestCommandLength commands + 2) := by
    intro row hrow
    refine length_rowText fun command hcommand => length_le_longest ?_
    have hmem := List.mem_flatten.mpr ⟨row, hrow, hcommand⟩
    rwa [flatten_commandRows] at hmem
  constructor
  · intro h
    by_cases hone : min (totalColumns consoleWidth commands) commands.length ≤ 1
    · exact Or.inl hone
    · right
      rw [← hlen, ← hwidth first hfirst]
      exact h.fits first hfirst (by omega)
  · intro h
    refine ⟨text_commandRows _ _, flatten_commandRows _ _, fun row hrow hmany => ?_⟩
    obtain ⟨hcolumns, hcommands⟩ := hall row hrow
    have hle : row.length ≤ min (totalColumns consoleWidth commands) commands.length := by omega
    rcases h with hone | hfits
    · omega
    · rw [hwidth row hrow]
      exact Nat.le_trans (Nat.mul_le_mul_right _ hle) hfits

/-- Nine commands of seven letters. -/
def nineCommands : List Str := (List.range 9).map fun i => "sv_lan".toList ++ [Char.ofNat (49 + i)]

/-- On a console of 80 columns they are printed in one row of 81. -/
theorem nine_commands_overflow :
    (commandRows 80 nineCommands).map List.length = [9] ∧
      (printCommandMatches 80 nineCommands).length = 81 ∧ ¬ PrintsFitting 80 nineCommands := by
  have hrows : commandRows 80 nineCommands = [nineCommands] := by decide
  refine ⟨by decide, by decide, fun h => ?_⟩
  have hfits := h.fits nineCommands (by rw [hrows]; exact List.mem_singleton_self _) (by decide)
  revert hfits
  decide

end RehldsM.View
