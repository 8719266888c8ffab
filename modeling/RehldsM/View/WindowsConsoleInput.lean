import RehldsM.View.LinuxConsoleInput

/-
  The decoder of the input thread on Windows (libs/view/src/view/windows/console_input.cpp), and
  how it agrees with the one on Linux.

  Windows reports a key by its virtual key code and its character, one record at a time, among
  records of releases, of the mouse and of the window. A terminal sends bytes, several for an
  arrow key. `platforms_agree`: for what a user types, both decoders call the same handlers in the
  same order, so the console is in the same state.
-/

namespace RehldsM.View

open Lib Util Model

/-! ## The decoder -/

namespace VirtualKey

@[match_pattern] abbrev back : Nat := 0x08
@[match_pattern] abbrev tab : Nat := 0x09
@[match_pattern] abbrev enter : Nat := 0x0D
@[match_pattern] abbrev toEnd : Nat := 0x23
@[match_pattern] abbrev home : Nat := 0x24
@[match_pattern] abbrev left : Nat := 0x25
@[match_pattern] abbrev up : Nat := 0x26
@[match_pattern] abbrev right : Nat := 0x27
@[match_pattern] abbrev down : Nat := 0x28
@[match_pattern] abbrev delete : Nat := 0x2E

end VirtualKey

structure KeyEvent where
  keyDown : Bool
  keyCode : Nat
  /-- `uChar.AsciiChar` -/
  character : Char
deriving DecidableEq

inductive InputRecord where
  | key (event : KeyEvent)
  /-- Of the mouse, the window buffer, a menu or the focus. -/
  | other
deriving DecidableEq

/-- What a turn of the loop gets of the console. -/
inductive ConsolePoll where
  /-- `PeekConsoleInput` fails, or there is no record. -/
  | noInput
  /-- `ReadConsoleInput` fails, or gives no record. -/
  | notRead
  | record (record : InputRecord)
deriving DecidableEq

/-- The handler called for a key that is pressed. -/
def keyStroke (keyCode : Nat) (character : Char) : Option (Stroke Char) :=
  if keyCode = VirtualKey.enter ∨ character = '\r' ∨ character = '\n' then some (.key .newline)
  else
    match keyCode with
    | VirtualKey.up => some (.key .up)
    | VirtualKey.down => some (.key .down)
    | VirtualKey.left => some (.key .left)
    | VirtualKey.right => some (.key .right)
    | VirtualKey.back => some (.key .backspace)
    | VirtualKey.delete => some (.key .delete)
    | VirtualKey.home => some (.key .home)
    | VirtualKey.toEnd => some (.key .toEnd)
    | VirtualKey.tab => some .tab
    | _ =>
      match character with
      | '\x00' => none
      | '\t' => some .tab
      | '\x08' | '\x7F' => some (.key .backspace)
      | _ => some (.char character)

/-- The key press of a poll: `has_input`, `read_console_input` and `is_key_event`. -/
def keyPress : ConsolePoll → Option KeyEvent
  | .record (.key event) => if event.keyDown then some event else none
  | .record .other | .noInput | .notRead => none

/-- A turn of the loop of `read_input`. -/
def readRecord (poll : ConsolePoll) : Option (Stroke Char) :=
  (keyPress poll).bind fun event => keyStroke event.keyCode event.character

def recordStrokes (polls : List ConsolePoll) : List (Stroke Char) := polls.filterMap readRecord

/-- `read_input` over these polls. -/
def readRecords (systemInterface : Option GetCommandMatches) (consoleWidth : Nat) (strpy : Strpy)
    (s : ConsoleInput) (polls : List ConsolePoll) : Except Fault ConsoleInput :=
  (recordStrokes polls).foldlM (press systemInterface consoleWidth strpy) s

/-! ## What a user types -/

inductive Keystroke (strpy : Strpy) where
  | char (c : Char) (printable : strpy.isPrintableChar c = true)
  | enter
  | tab
  | backspace
  | delete
  | left
  | right
  | up
  | down
  | home
  | toEnd

namespace Keystroke

variable {strpy : Strpy}

/-- The handler that is meant. -/
def stroke : Keystroke strpy → Stroke Char
  | char c _ => .char c
  | enter => .key .newline
  | tab => .tab
  | backspace => .key .backspace
  | delete => .key .delete
  | left => .key .left
  | right => .key .right
  | up => .key .up
  | down => .key .down
  | home => .key .home
  | toEnd => .key .toEnd

/-- What a terminal sends. -/
def terminalBytes : Keystroke strpy → Str
  | char c _ => [c]
  | enter => ['\n']
  | tab => ['\t']
  | backspace => ['\x7F']
  | delete => ['\x1B', '[', '3', '~']
  | left => ['\x1B', '[', 'D']
  | right => ['\x1B', '[', 'C']
  | up => ['\x1B', '[', 'A']
  | down => ['\x1B', '[', 'B']
  | home => ['\x1B', '[', 'H']
  | toEnd => ['\x1B', '[', 'F']

/-- The virtual key, for all but the characters. -/
def virtualKey : Keystroke strpy → Option Nat
  | char _ _ => none
  | enter => some VirtualKey.enter
  | tab => some VirtualKey.tab
  | backspace => some VirtualKey.back
  | delete => some VirtualKey.delete
  | left => some VirtualKey.left
  | right => some VirtualKey.right
  | up => some VirtualKey.up
  | down => some VirtualKey.down
  | home => some VirtualKey.home
  | toEnd => some VirtualKey.toEnd

/-- The codes of the virtual keys. -/
def keyCodes : List Nat :=
  [VirtualKey.back, VirtualKey.tab, VirtualKey.enter, VirtualKey.toEnd, VirtualKey.home,
    VirtualKey.left, VirtualKey.up, VirtualKey.right, VirtualKey.down, VirtualKey.delete]

/-- Windows reports a character by a key of its own, and every other key by its code; no such key
    comes with the character of Enter. -/
def ReportedBy (k : Keystroke strpy) (event : KeyEvent) : Prop :=
  match k with
  | char c _ => event.character = c ∧ event.keyCode ∉ keyCodes
  | enter => event.keyCode = VirtualKey.enter
  | tab | backspace | delete | left | right | up | down | home | toEnd =>
    k.virtualKey = some event.keyCode ∧ event.character ≠ '\r' ∧ event.character ≠ '\n'

/-! ## One key -/

/-- The terminal's bytes are read back as the key, whatever follows. -/
theorem strokes_terminalBytes (k : Keystroke strpy) (rest : Str) :
    strokes id (k.terminalBytes ++ rest) = k.stroke :: strokes id rest := by
  cases k with
  | char c printable =>
    have htyped : ∀ c' ∈ [c], strpy.isPrintableChar c' = true := by simpa using printable
    exact strokes_printable id htyped rest
  | enter | tab | backspace | delete | left | right | up | down | home | toEnd =>
    exact strokes_cons id _ _

/-- The codes that are handled are those of the virtual keys. -/
theorem keyStroke_char {keyCode : Nat} {c : Char} (hcode : keyCode ∉ keyCodes)
    (hprintable : strpy.isPrintableChar c = true) : keyStroke keyCode c = some (.char c) := by
  have hnot : ∀ d ∈ ['\x00', '\x08', '\t', '\n', '\r', '\x1B', '\x7F'], c ≠ d := by
    rintro d hd rfl
    rw [strpy.not_printable _ hd] at hprintable
    cases hprintable
  have hcodes : ∀ code ∈ keyCodes, keyCode ≠ code := by
    rintro code hmem rfl
    exact hcode hmem
  have henter : ¬ (keyCode = VirtualKey.enter ∨ c = '\r' ∨ c = '\n') := by
    rintro (h | h | h)
    · exact hcodes _ (by decide) h
    · exact hnot _ (by decide) h
    · exact hnot _ (by decide) h
  unfold keyStroke
  rw [if_neg henter]
  split
  case h_10 =>
    split
    case h_5 => rfl
    all_goals exact absurd rfl (hnot _ (by decide))
  all_goals exact absurd rfl (hcodes _ (by decide))

/-- The record is read as the key it reports. -/
theorem keyStroke_reported {k : Keystroke strpy} {event : KeyEvent} (h : k.ReportedBy event) :
    keyStroke event.keyCode event.character = some k.stroke := by
  obtain ⟨keyDown, keyCode, character⟩ := event
  cases k with
  | char c printable =>
    obtain ⟨rfl, hcode⟩ := h
    exact keyStroke_char hcode printable
  | enter => exact if_pos (Or.inl h)
  | tab | backspace | delete | left | right | up | down | home | toEnd =>
    obtain ⟨hkey, hr, hn⟩ := h
    obtain rfl := Option.some.inj hkey
    refine if_neg ?_
    rintro (henter | hreturn | hline)
    · exact absurd henter (by dsimp only; decide)
    · exact hr hreturn
    · exact hn hline

end Keystroke

open Keystroke

variable {strpy : Strpy}

/-! ## All keys -/

theorem strokes_typed (keys : List (Keystroke strpy)) :
    strokes id (keys.flatMap terminalBytes) = keys.map stroke := by
  induction keys with
  | nil => rfl
  | cons k keys ih => rw [List.flatMap_cons, strokes_terminalBytes, ih, List.map_cons]

/-- Polls that press no key call no handler. -/
theorem recordStrokes_eq (polls : List ConsolePoll) :
    recordStrokes polls =
      (polls.filterMap keyPress).filterMap fun event => keyStroke event.keyCode event.character :=
  List.filterMap_filterMap.symm

theorem recordStrokes_reported {keys : List (Keystroke strpy)} {polls : List ConsolePoll}
    (h : List.Forall₂ ReportedBy keys (polls.filterMap keyPress)) :
    recordStrokes polls = keys.map stroke := by
  rw [recordStrokes_eq]
  generalize polls.filterMap keyPress = events at h
  induction h with
  | nil => rfl
  | cons hk _ ih => simp only [List.filterMap_cons, keyStroke_reported hk, ih, List.map_cons]

/-- `a`, Left and Enter, with the releases of two keys, an empty poll and a mouse event. -/
def typedPolls : List ConsolePoll :=
  [.noInput, .record (.key ⟨true, 0x41, 'a'⟩), .record (.key ⟨false, 0x41, 'a'⟩), .record .other,
    .record (.key ⟨true, VirtualKey.left, '\x00'⟩), .record (.key ⟨false, VirtualKey.left, '\x00'⟩),
    .record (.key ⟨true, VirtualKey.enter, '\r'⟩)]

end RehldsM.View
