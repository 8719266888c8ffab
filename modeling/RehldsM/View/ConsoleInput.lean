import RehldsM.Lib.Terminal
import RehldsM.Lib.Zipper
import RehldsM.Model.ServerLoop
import RehldsM.Model.UserinputHistory

/-
  The key handlers of `ConsoleInput` (libs/view/src/view/console_input.cpp), and what each of them
  does at a cursor within the line.

  A handler returns the state with everything printed so far appended to `output`, or the fault
  of the first string operation whose position is not within the string. The lemmas read the
  line as `a ++ b` with the cursor behind `a` (`At`): a handler then either leaves the state or
  is `moved`, that is, it leaves a new `a` and `b` and prints a text.

  Of the model they ask `InputPresenter`
  (libs/presenter/include/presenter/input_presenter.hpp), which comes first. Its
  `find_command_matches` runs on the other thread, and the result is a parameter of the key that
  asks for it.
-/

namespace RehldsM.Presenter

open Lib Util Model

/-- Of the server loop only the queue of inputs is here, and nothing is taken out of it. -/
structure InputPresenter where
  inputQueue : List Str
  inputHistory : UserInputHistory
  fs : FileSystem

namespace InputPresenter

variable (strpy : Strpy)

/-- The constructor, with the history of this file. -/
def new (filename : Str) (fs : FileSystem) : InputPresenter where
  inputQueue := []
  inputHistory := (UserInputHistory.new filename).load strpy fs
  fs := fs

def enqueueInput (p : InputPresenter) (input : Str) : InputPresenter :=
  let inputHistory := p.inputHistory.append strpy input
  { inputQueue := Model.enqueueInput p.inputQueue input
    inputHistory
    fs := inputHistory.save p.fs }

def historyPrevious (p : InputPresenter) : Option Str × InputPresenter :=
  let (input, inputHistory) := p.inputHistory.previous
  (input, { p with inputHistory })

def historyNext (p : InputPresenter) : Option Str × InputPresenter :=
  let (input, inputHistory) := p.inputHistory.next
  (input, { p with inputHistory })

end InputPresenter

end RehldsM.Presenter

namespace RehldsM.View

open Lib Util Model Presenter

/-! ## Strings, with the positions checked -/

/-- A position outside the string, by the operation it was given to. -/
inductive Fault where
  | index
  | erase
  | insert
  | cStr
  | substr
deriving DecidableEq

/-- `s[pos]`; the NUL behind the last character counts as outside. -/
def strIndex (s : Str) (pos : Nat) : Except Fault Char :=
  match s[pos]? with
  | some c => .ok c
  | none => .error .index

/-- `s.erase(pos, 1)`. -/
def strErase (s : Str) (pos : Nat) : Except Fault Str :=
  if pos ≤ s.length then .ok (s.take pos ++ s.drop (pos + 1)) else .error .erase

/-- `s.insert(pos, 1, c)`. -/
def strInsert (s : Str) (pos : Nat) (c : Char) : Except Fault Str :=
  if pos ≤ s.length then .ok (s.take pos ++ c :: s.drop pos) else .error .insert

/-- What stands in front of the first NUL. -/
def untilNul (s : Str) : Str := s.takeWhile (· != '\x00')

/-- The text at `s.c_str() + pos`. -/
def strFrom (s : Str) (pos : Nat) : Except Fault Str :=
  if pos ≤ s.length then .ok (untilNul (s.drop pos)) else .error .cStr

/-- `s.substr(pos)`. -/
def strSubstr (s : Str) (pos : Nat) : Except Fault Str :=
  if pos ≤ s.length then .ok (s.drop pos) else .error .substr

/-! ## Command matches -/

/-- The length of the longest command. -/
def getLongestCommandLength (commands : List Str) : Nat :=
  commands.foldl (fun longest command => max longest command.length) 0

/-- `std::mismatch` of two strings: what stands in front of the first difference. -/
def commonPrefix : Str → Str → Str
  | c :: s, c' :: s' => if c = c' then c :: commonPrefix s s' else []
  | _, _ => []

/-- Only the first and the last command are compared. -/
def findCommonCommandPrefix (commands : List Str) : Str :=
  match commands.head?, commands.getLast? with
  | some front, some back => commonPrefix front back
  | _, _ => []

/-- The loop of `print_command_matches`, from this column on. -/
def printMatchesFrom (longest totalColumns : Nat) : Nat → List Str → Str
  | _, [] => []
  | currentColumn, command :: commands =>
    let cell := command ++ List.replicate (longest - command.length) ' ' ++ [' ', ' ']
    if currentColumn + 1 > totalColumns then
      '\n' :: cell ++ printMatchesFrom longest totalColumns 1 commands
    else cell ++ printMatchesFrom longest totalColumns (currentColumn + 1) commands

/-- `print_command_matches` on a console of this width: the text it prints. -/
def printCommandMatches (consoleWidth : Nat) (commands : List Str) : Str :=
  let consoleWidth := if consoleWidth < 10 then 80 else consoleWidth
  let longest := getLongestCommandLength commands
  printMatchesFrom longest ((consoleWidth - 1) / (longest + 1)) 0 commands

/-! ## The handlers -/

structure ConsoleInput where
  inputPresenter : InputPresenter
  inputLine : Str
  savedInput : Option Str
  cursorPosition : Nat
  output : Str

namespace ConsoleInput

def new (inputPresenter : InputPresenter) : ConsoleInput where
  inputPresenter := inputPresenter
  inputLine := []
  savedInput := none
  cursorPosition := 0
  output := []

/-- The console input of a server that starts with this history file. -/
def initial (strpy : Strpy) (filename : Str) (fs : FileSystem) : ConsoleInput :=
  .new (.new strpy filename fs)

/-- In the C locale, with nothing in the history. -/
def blank : ConsoleInput := initial asciiStrpy [] { files := [] }

/-- `std::cout << text`. -/
def print (s : ConsoleInput) (text : Str) : ConsoleInput := { s with output := s.output ++ text }

/-- A loop that prints `'\b'` this many times. -/
def backspaces (n : Nat) : Str := List.replicate n '\x08'

/-- The line replaced, printed, and the cursor put at its end. -/
def showLine (s : ConsoleInput) (line : Str) : ConsoleInput :=
  { s.print line with inputLine := line, cursorPosition := line.length }

def handleLeftArrow (s : ConsoleInput) : Except Fault ConsoleInput :=
  if s.cursorPosition = 0 then .ok s
  else .ok { s.print ['\x08'] with cursorPosition := s.cursorPosition - 1 }

def handleRightArrow (s : ConsoleInput) : Except Fault ConsoleInput :=
  if s.inputLine.length = s.cursorPosition then .ok s
  else do
    let c ← strIndex s.inputLine s.cursorPosition
    .ok { s.print [c] with cursorPosition := s.cursorPosition + 1 }

def handleBackspace (s : ConsoleInput) : Except Fault ConsoleInput :=
  if s.cursorPosition = 0 || s.inputLine.isEmpty then .ok s
  else do
    let cursorPosition := s.cursorPosition - 1
    let inputLine ← strErase s.inputLine cursorPosition
    let tail ← strFrom inputLine cursorPosition
    let s := s.print ('\x08' :: tail ++ ' ' :: backspaces (inputLine.length + 1 - cursorPosition))
    .ok { s with inputLine, cursorPosition }

def handleDelete (s : ConsoleInput) : Except Fault ConsoleInput :=
  if s.cursorPosition ≥ s.inputLine.length then .ok s
  else do
    let inputLine ← strErase s.inputLine s.cursorPosition
    let tail ← strFrom inputLine s.cursorPosition
    let s := s.print (tail ++ ' ' :: backspaces (inputLine.length + 1 - s.cursorPosition))
    .ok { s with inputLine }

def handleHome (s : ConsoleInput) : Except Fault ConsoleInput :=
  if s.cursorPosition ≠ 0 then .ok { s.print ['\r'] with cursorPosition := 0 } else .ok s

/-- At most `fuel` turns of the loop of `handle_end`. -/
def endLoop : Nat → ConsoleInput → Except Fault ConsoleInput
  | 0, s => .ok s
  | fuel + 1, s =>
    if s.cursorPosition < s.inputLine.length then do
      let s ← s.handleRightArrow
      endLoop fuel s
    else .ok s

/-- A turn of the loop advances the cursor, so this fuel reaches the end (`handleEnd_at`). -/
def handleEnd (s : ConsoleInput) : Except Fault ConsoleInput :=
  endLoop (s.inputLine.length - s.cursorPosition) s

/-- The line is wiped out on the console; `input_line_` stays. -/
def clearInput (s : ConsoleInput) : Except Fault ConsoleInput :=
  if s.inputLine.isEmpty then .ok s
  else do
    let s ← s.handleEnd
    .ok (s.print (List.replicate s.inputLine.length Terminal.wipe).flatten)

def handleUpArrow (s : ConsoleInput) : Except Fault ConsoleInput :=
  match s.inputPresenter.historyPrevious with
  | (some previousInput, inputPresenter) => do
    let savedInput := if s.savedInput.isNone then some s.inputLine else s.savedInput
    let s ← clearInput { s with inputPresenter, savedInput }
    .ok (s.showLine previousInput)
  | (none, inputPresenter) => .ok { s with inputPresenter }

def handleDownArrow (s : ConsoleInput) : Except Fault ConsoleInput :=
  match s.inputPresenter.historyNext, s.savedInput with
  | (some nextInput, inputPresenter), _ => do
    let s ← clearInput { s with inputPresenter }
    .ok (s.showLine nextInput)
  | (none, inputPresenter), some savedInput => do
    let s ← clearInput { s with inputPresenter }
    .ok { s.showLine savedInput with savedInput := none }
  | (none, inputPresenter), none => .ok { s with inputPresenter }

/-- With these matches found, on a console of this width. -/
def handleTab (s : ConsoleInput) (commands : List Str) (consoleWidth : Nat) :
    Except Fault ConsoleInput :=
  match commands with
  | [] => .ok s
  | [command] => do
    let completion := (← strSubstr command s.inputLine.length) ++ [' ']
    let inputLine := s.inputLine ++ completion
    .ok { s.print completion with inputLine, cursorPosition := inputLine.length }
  | _ => do
    let s ← s.clearInput
    let s := s.print ('\n' :: printCommandMatches consoleWidth commands ++ ['\n'])
    .ok (s.showLine (findCommonCommandPrefix commands))

variable (strpy : Strpy)

/-- `saved_input_` is left as it is. -/
def handleNewline (s : ConsoleInput) : Except Fault ConsoleInput :=
  let s := s.print ['\n']
  .ok { s with
    inputPresenter := s.inputPresenter.enqueueInput strpy s.inputLine
    inputLine := []
    cursorPosition := 0 }

def handleChar (s : ConsoleInput) (ch : Char) : Except Fault ConsoleInput :=
  if !strpy.isPrintableChar ch then .ok s
  else do
    let inputLine ← strInsert s.inputLine s.cursorPosition ch
    let tail ← strFrom inputLine s.cursorPosition
    let cursorPosition := s.cursorPosition + 1
    let s := s.print (tail ++ backspaces (inputLine.length - cursorPosition))
    .ok { s with inputLine, cursorPosition }

end ConsoleInput

/-- A handler call. A Tab comes with the matches the main thread finds for it and the width of
    the console. -/
inductive Key where
  | char (ch : Char)
  | left
  | right
  | home
  | toEnd
  | backspace
  | delete
  | up
  | down
  | tab (commands : List Str) (consoleWidth : Nat)
  | newline
deriving DecidableEq

open ConsoleInput in
def handle (strpy : Strpy) (s : ConsoleInput) : Key → Except Fault ConsoleInput
  | .char ch => handleChar strpy s ch
  | .left => handleLeftArrow s
  | .right => handleRightArrow s
  | .home => handleHome s
  | .toEnd => handleEnd s
  | .backspace => handleBackspace s
  | .delete => handleDelete s
  | .up => handleUpArrow s
  | .down => handleDownArrow s
  | .tab commands consoleWidth => handleTab s commands consoleWidth
  | .newline => handleNewline strpy s

/-! ## Positions in a line that is divided at the cursor -/

theorem strIndex_append (a b : Str) (c : Char) : strIndex (a ++ c :: b) a.length = .ok c := by
  rw [strIndex, List.getElem?_append_right (Nat.le_refl _), Nat.sub_self, List.getElem?_cons_zero]

theorem strErase_append (a b : Str) (c : Char) :
    strErase (a ++ c :: b) a.length = .ok (a ++ b) := by
  have hpos : a.length ≤ (a ++ c :: b).length := by rw [List.length_append]; omega
  rw [strErase, if_pos hpos, List.take_left, List.drop_append, List.drop_of_length_le (by omega),
    List.nil_append, Nat.add_sub_cancel_left, List.drop_succ_cons, List.drop_zero]

theorem strInsert_append (a b : Str) (c : Char) :
    strInsert (a ++ b) a.length c = .ok (a ++ c :: b) := by
  have hpos : a.length ≤ (a ++ b).length := by rw [List.length_append]; omega
  rw [strInsert, if_pos hpos, List.take_left, List.drop_left]

theorem strFrom_append (a b : Str) : strFrom (a ++ b) a.length = .ok (untilNul b) := by
  have hpos : a.length ≤ (a ++ b).length := by rw [List.length_append]; omega
  rw [strFrom, if_pos hpos, List.drop_left]

namespace ConsoleInput

/-- The line is `a ++ b`, with the cursor behind `a`. -/
def At (s : ConsoleInput) (a b : Str) : Prop :=
  s.inputLine = a ++ b ∧ s.cursorPosition = a.length

/-- The line becomes `a ++ b` with the cursor behind `a`, and `text` is printed. -/
def moved (s : ConsoleInput) (a b text : Str) : ConsoleInput :=
  { s.print text with inputLine := a ++ b, cursorPosition := a.length }

variable {s : ConsoleInput} {a b : Str} {c : Char}

theorem at_moved (s : ConsoleInput) (a b text : Str) : At (s.moved a b text) a b := ⟨rfl, rfl⟩

theorem At.cursor_le (h : At s a b) : s.cursorPosition ≤ s.inputLine.length := by
  rw [h.1, h.2, List.length_append]
  omega

theorem At.cut_eq (h : At s a b) : Zipper.cut s.inputLine s.cursorPosition = ⟨a, b⟩ := by
  rw [h.1, h.2, Zipper.cut_append]

theorem moved_moved (s : ConsoleInput) (a b text a' b' text' : Str) :
    (s.moved a b text).moved a' b' text' = s.moved a' b' (text ++ text') := by
  simp only [moved, print, List.append_assoc]

theorem moved_nil (h : At s a b) : s.moved a b [] = s := by
  obtain ⟨presenter, line, saved, position, output⟩ := s
  obtain ⟨rfl, rfl⟩ := h
  simp only [moved, print, List.append_nil]

/-! ## The handlers at a cursor within the line -/

theorem handleLeftArrow_nil (h : At s [] b) : s.handleLeftArrow = .ok s := if_pos h.2

theorem handleLeftArrow_concat (h : At s (a ++ [c]) b) :
    s.handleLeftArrow = .ok (s.moved a (c :: b) ['\x08']) := by
  obtain ⟨presenter, line, saved, position, output⟩ := s
  obtain ⟨rfl, rfl⟩ := h
  simp [handleLeftArrow, moved, print]

theorem handleRightArrow_nil (h : At s a []) : s.handleRightArrow = .ok s :=
  if_pos (by rw [h.1, h.2, List.append_nil])

theorem handleRightArrow_cons (h : At s a (c :: b)) :
    s.handleRightArrow = .ok (s.moved (a ++ [c]) b [c]) := by
  obtain ⟨presenter, line, saved, position, output⟩ := s
  obtain ⟨rfl, rfl⟩ := h
  have hin : ¬ (a ++ c :: b).length = a.length := by
    rw [List.length_append, List.length_cons]
    omega
  unfold handleRightArrow
  rw [if_neg hin, strIndex_append]
  simp [bind, Except.bind, moved, print]

theorem handleBackspace_nil (h : At s [] b) : s.handleBackspace = .ok s := by
  unfold handleBackspace
  rw [h.2]
  rfl

theorem handleBackspace_concat (h : At s (a ++ [c]) b) :
    s.handleBackspace =
      .ok (s.moved a b ('\x08' :: untilNul b ++ ' ' :: backspaces (b.length + 1))) := by
  obtain ⟨presenter, line, saved, position, output⟩ := s
  obtain ⟨rfl, rfl⟩ := h
  have hline : (a ++ [c]) ++ b = a ++ c :: b := List.append_cons a c b |>.symm
  have hlen : (a ++ b).length + 1 - a.length = b.length + 1 := by rw [List.length_append]; omega
  unfold handleBackspace
  rw [if_neg (by simp)]
  simp only [List.length_append, List.length_singleton, Nat.add_sub_cancel, hline,
    strErase_append, strFrom_append, bind, Except.bind, moved, print]
  rw [← List.length_append, hlen]

theorem handleDelete_nil (h : At s a []) : s.handleDelete = .ok s :=
  if_pos (by rw [h.1, h.2, List.append_nil])

theorem handleDelete_cons (h : At s a (c :: b)) :
    s.handleDelete = .ok (s.moved a b (untilNul b ++ ' ' :: backspaces (b.length + 1))) := by
  obtain ⟨presenter, line, saved, position, output⟩ := s
  obtain ⟨rfl, rfl⟩ := h
  have hin : ¬ a.length ≥ (a ++ c :: b).length := by
    rw [List.length_append, List.length_cons]
    omega
  have hlen : (a ++ b).length + 1 - a.length = b.length + 1 := by rw [List.length_append]; omega
  unfold handleDelete
  rw [if_neg hin]
  simp only [strErase_append, strFrom_append, bind, Except.bind, moved, print]
  rw [hlen]

theorem handleHome_at (h : At s a b) :
    s.handleHome = .ok (s.moved [] (a ++ b) (if a = [] then [] else ['\r'])) := by
  by_cases hnil : a = []
  · subst hnil
    rw [if_pos rfl, List.nil_append, moved_nil h]
    exact if_neg (not_not_intro h.2)
  · have hpos : s.cursorPosition ≠ 0 := by
      rw [h.2]
      exact fun hzero => hnil (List.length_eq_zero_iff.mp hzero)
    rw [handleHome, if_pos hpos, if_neg hnil, moved, List.nil_append, ← h.1]
    rfl

/-- The loop of `handle_end` prints what is left of the line. -/
theorem endLoop_at (h : At s a b) : endLoop b.length s = .ok (s.moved (a ++ b) [] b) := by
  induction b generalizing s a with
  | nil => rw [List.append_nil, moved_nil h]; rfl
  | cons c b ih =>
    have hin : s.cursorPosition < s.inputLine.length := by
      rw [h.1, h.2, List.length_append, List.length_cons]
      omega
    rw [List.length_cons, endLoop, if_pos hin, handleRightArrow_cons h]
    change endLoop b.length (s.moved (a ++ [c]) b [c]) = _
    rw [ih (at_moved _ _ _ _), moved_moved, List.append_assoc]
    rfl

theorem handleEnd_at (h : At s a b) : s.handleEnd = .ok (s.moved (a ++ b) [] b) := by
  have hfuel : s.inputLine.length - s.cursorPosition = b.length := by
    rw [h.1, h.2, List.length_append, Nat.add_sub_cancel_left]
  rw [handleEnd, hfuel, endLoop_at h]

/-- What `clear_input` prints with this much of the line behind the cursor. -/
def clearText (a b : Str) : Str := b ++ (List.replicate (a ++ b).length Terminal.wipe).flatten

theorem clearInput_at (h : At s a b) :
    s.clearInput = .ok (s.moved (a ++ b) [] (clearText a b)) := by
  by_cases hnil : a ++ b = []
  · obtain ⟨rfl, rfl⟩ := List.append_eq_nil_iff.mp hnil
    have hempty : s.inputLine.isEmpty = true := by rw [h.1]; rfl
    rw [clearInput, if_pos hempty]
    exact congrArg Except.ok (moved_nil h).symm
  · have hempty : ¬ s.inputLine.isEmpty = true := by
      rw [h.1, List.isEmpty_iff]
      exact hnil
    rw [clearInput, if_neg hempty, handleEnd_at h]
    simp only [bind, Except.bind, moved, print, clearText, List.append_nil, List.append_assoc]

/-- `clear_input`, and then another line. -/
theorem showLine_moved (s : ConsoleInput) (a b text line : Str) :
    (s.moved a b text).showLine line = s.moved line [] (text ++ line) := by
  simp only [showLine, moved, print, List.append_nil, List.append_assoc]

theorem clearInput_with (h : At s a b) (inputPresenter : InputPresenter)
    (savedInput : Option Str) :
    clearInput { s with inputPresenter, savedInput } =
      .ok (moved { s with inputPresenter, savedInput } (a ++ b) [] (clearText a b)) :=
  clearInput_at h

theorem handleUpArrow_some (h : At s a b) {line : Str} {presenter : InputPresenter}
    (hprevious : s.inputPresenter.historyPrevious = (some line, presenter)) :
    s.handleUpArrow =
      .ok { s.moved line [] (clearText a b ++ line) with
        inputPresenter := presenter
        savedInput := some (s.savedInput.getD (a ++ b)) } := by
  have hsaved : (if s.savedInput.isNone then some s.inputLine else s.savedInput) =
      some (s.savedInput.getD (a ++ b)) := by
    rw [h.1]
    cases s.savedInput <;> rfl
  unfold handleUpArrow
  rw [hprevious]
  dsimp only
  rw [hsaved, clearInput_with h]
  simp only [bind, Except.bind, showLine_moved]
  rfl

theorem handleUpArrow_none {presenter : InputPresenter}
    (hprevious : s.inputPresenter.historyPrevious = (none, presenter)) :
    s.handleUpArrow = .ok { s with inputPresenter := presenter } := by
  rw [handleUpArrow, hprevious]

theorem handleDownArrow_some (h : At s a b) {line : Str} {presenter : InputPresenter}
    (hnext : s.inputPresenter.historyNext = (some line, presenter)) :
    s.handleDownArrow =
      .ok { s.moved line [] (clearText a b ++ line) with inputPresenter := presenter } := by
  unfold handleDownArrow
  rw [hnext]
  dsimp only
  rw [clearInput_with h]
  simp only [bind, Except.bind, showLine_moved]
  rfl

theorem handleDownArrow_saved (h : At s a b) {line : Str} {presenter : InputPresenter}
    (hnext : s.inputPresenter.historyNext = (none, presenter)) (hsaved : s.savedInput = some line) :
    s.handleDownArrow =
      .ok { s.moved line [] (clearText a b ++ line) with
        inputPresenter := presenter
        savedInput := none } := by
  unfold handleDownArrow
  rw [hnext, hsaved]
  dsimp only
  rw [clearInput_with h]
  simp only [bind, Except.bind, showLine_moved]
  rfl

theorem handleDownArrow_none {presenter : InputPresenter}
    (hnext : s.inputPresenter.historyNext = (none, presenter)) (hsaved : s.savedInput = none) :
    s.handleDownArrow = .ok { s with inputPresenter := presenter } := by
  rw [handleDownArrow, hnext, hsaved]

theorem handleTab_nil (s : ConsoleInput) (width : Nat) : s.handleTab [] width = .ok s := rfl

/-- The completion is printed at the cursor, wherever that is. -/
theorem handleTab_single (h : At s a b) {command : Str} (hlen : (a ++ b).length ≤ command.length)
    (width : Nat) :
    s.handleTab [command] width =
      .ok (s.moved (a ++ b ++ (command.drop (a ++ b).length ++ [' '])) []
        (command.drop (a ++ b).length ++ [' '])) := by
  have hsubstr : strSubstr command (a ++ b).length = .ok (command.drop (a ++ b).length) :=
    if_pos hlen
  unfold handleTab
  simp only [h.1, hsubstr, bind, Except.bind, moved, print, List.append_nil]

/-- With the line longer than the only match, `substr` throws. -/
theorem handleTab_throws (h : At s a b) {command : Str} (hlen : command.length < (a ++ b).length)
    (width : Nat) : s.handleTab [command] width = .error .substr := by
  have hsubstr : strSubstr command (a ++ b).length = .error .substr :=
    if_neg (Nat.not_le_of_lt hlen)
  unfold handleTab
  simp only [h.1, hsubstr, bind, Except.bind]

theorem handleTab_many (h : At s a b) {command command' : Str} {commands : List Str}
    (width : Nat) :
    s.handleTab (command :: command' :: commands) width =
      .ok (s.moved (findCommonCommandPrefix (command :: command' :: commands)) []
        (clearText a b ++ ('\n' :: printCommandMatches width (command :: command' :: commands) ++
          ['\n']) ++ findCommonCommandPrefix (command :: command' :: commands))) := by
  unfold handleTab
  rw [clearInput_at h]
  simp only [bind, Except.bind, moved, print, showLine, List.append_nil, List.append_assoc]

theorem handleChar_at (strpy : Strpy) (h : At s a b) (hc : strpy.isPrintableChar c = true) :
    s.handleChar strpy c =
      .ok (s.moved (a ++ [c]) b (untilNul (c :: b) ++ backspaces b.length)) := by
  obtain ⟨presenter, line, saved, position, output⟩ := s
  obtain ⟨rfl, rfl⟩ := h
  have hlen : (a ++ c :: b).length - (a.length + 1) = b.length := by
    rw [List.length_append, List.length_cons]
    omega
  unfold handleChar
  rw [hc]
  simp only [Bool.not_true, Bool.false_eq_true, if_false, strInsert_append, strFrom_append, bind,
    Except.bind, moved, print, hlen]
  rw [List.length_append, List.length_singleton, ← List.append_cons]

theorem handleChar_ignored (strpy : Strpy) (s : ConsoleInput)
    (hc : strpy.isPrintableChar c = false) : s.handleChar strpy c = .ok s := by
  unfold handleChar
  rw [hc]
  rfl

end ConsoleInput

end RehldsM.View
