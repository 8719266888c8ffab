import RehldsM.Lib.Run
import RehldsM.View.ConsoleInput

/-
  The console input is a faithful two-list editor.

  `LineEditor` keeps the characters before and after the cursor (`Lib.Zipper`), the draft and
  the entered lines. `handle_spec` is one key: where `handle_tab` does not throw, the handler
  meets no position outside its string, leads to the state of the editor, and prints
  `printed`. The three results about the console input are read off it: this one
  (`console_follows_editor`), the console row and the draft.
-/

namespace RehldsM.View

open Lib Util Model Presenter ConsoleInput

structure LineEditor where
  line : Zipper Char
  draft : Option Str
  history : UserInputHistory
  entered : List Str

namespace LineEditor

def new (history : UserInputHistory) : LineEditor where
  line := .atEnd []
  draft := none
  history := history
  entered := []

/-- The editor of a server that starts with this history file. -/
def initial (strpy : Strpy) (filename : Str) (fs : FileSystem) : LineEditor :=
  .new ((UserInputHistory.new filename).load strpy fs)

variable (strpy : Strpy)

def step (e : LineEditor) : Key → LineEditor
  | .char ch => if strpy.isPrintableChar ch then { e with line := e.line.insert ch } else e
  | .left => { e with line := e.line.left }
  | .right => { e with line := e.line.right }
  | .home => { e with line := e.line.home }
  | .toEnd => { e with line := e.line.toEnd }
  | .backspace => { e with line := e.line.backspace }
  | .delete => { e with line := e.line.delete }
  | .up =>
    match e.history.previous with
    | (some input, history) =>
      { e with line := .atEnd input, draft := some (e.draft.getD e.line.toList), history }
    | (none, history) => { e with history }
  | .down =>
    match e.history.next, e.draft with
    | (some input, history), _ => { e with line := .atEnd input, history }
    | (none, history), some draft => { e with line := .atEnd draft, draft := none, history }
    | (none, history), none => { e with history }
  | .tab [] _ => e
  | .tab [command] _ =>
    { e with line := .atEnd (e.line.toList ++ (command.drop e.line.toList.length ++ [' '])) }
  | .tab commands _ => { e with line := .atEnd (findCommonCommandPrefix commands) }
  | .newline =>
    { e with
      line := .atEnd []
      history := e.history.append strpy e.line.toList
      entered := e.entered ++ [e.line.toList] }

/-- What the console input prints for a key. -/
def printed (e : LineEditor) : Key → Str
  | .char ch =>
    if strpy.isPrintableChar ch then
      untilNul (ch :: e.line.after) ++ backspaces e.line.after.length
    else []
  | .left => if e.line.before = [] then [] else ['\x08']
  | .right => e.line.after.head?.toList
  | .home => if e.line.before = [] then [] else ['\r']
  | .toEnd => e.line.after
  | .backspace =>
    if e.line.before = [] then []
    else '\x08' :: untilNul e.line.after ++ ' ' :: backspaces (e.line.after.length + 1)
  | .delete =>
    if e.line.after = [] then []
    else untilNul e.line.after.tail ++ ' ' :: backspaces (e.line.after.tail.length + 1)
  | .up =>
    match e.history.previous.1 with
    | some input => clearText e.line.before e.line.after ++ input
    | none => []
  | .down =>
    match e.history.next.1 <|> e.draft with
    | some input => clearText e.line.before e.line.after ++ input
    | none => []
  | .tab [] _ => []
  | .tab [command] _ => command.drop e.line.toList.length ++ [' ']
  | .tab commands consoleWidth =>
    clearText e.line.before e.line.after ++
      ('\n' :: printCommandMatches consoleWidth commands ++ ['\n']) ++
      findCommonCommandPrefix commands
  | .newline => ['\n']

end LineEditor

/-- `handle_tab` throws: the only match is shorter than the line. -/
def TabThrows (line : Str) : Key → Prop
  | .tab [command] _ => command.length < line.length
  | _ => False

instance (line : Str) : (key : Key) → Decidable (TabThrows line key)
  | .tab [command] _ => inferInstanceAs (Decidable (command.length < line.length))
  | .tab [] _ | .tab (_ :: _ :: _) _ | .char _ | .left | .right | .home | .toEnd | .backspace
  | .delete | .up | .down | .newline => .isFalse id

/-- None of the keys makes `handle_tab` throw, from this state of the editor on. -/
def NoThrow (strpy : Strpy) (e : LineEditor) (keys : List Key) : Prop :=
  Meets (fun e key => ¬ TabThrows e.line.toList key) e (trace (LineEditor.step strpy) e keys)

instance (strpy : Strpy) (e : LineEditor) (keys : List Key) : Decidable (NoThrow strpy e keys) :=
  inferInstanceAs (Decidable (Meets _ _ _))

theorem noThrow_append {strpy : Strpy} {e : LineEditor} {keys keys' : List Key} :
    NoThrow strpy e (keys ++ keys') ↔
      NoThrow strpy e keys ∧ NoThrow strpy (keys.foldl (LineEditor.step strpy) e) keys' := by
  rw [NoThrow, trace_append, meets_append, final_trace]
  rfl

/-- The console input in the state of the editor. -/
structure Follows (s : ConsoleInput) (e : LineEditor) : Prop where
  line : s.At e.line.before e.line.after
  draft : s.savedInput = e.draft
  history : s.inputPresenter.inputHistory = e.history
  queue : s.inputPresenter.inputQueue = e.entered.map (· ++ ['\n'])

section follows

variable {strpy : Strpy} {s : ConsoleInput} {e : LineEditor}

theorem Follows.moved (h : Follows s e) (line : Zipper Char) (text : Str) :
    Follows (s.moved line.before line.after text) { e with line } :=
  ⟨at_moved _ _ _ _, h.draft, h.history, h.queue⟩

/-- A key is followed when its handler succeeds, the state follows, and the text is the one
    the editor's key prints. -/
def Handled (strpy : Strpy) (s : ConsoleInput) (e : LineEditor) (key : Key) : Prop :=
  ∃ s', handle strpy s key = .ok s' ∧ Follows s' (e.step strpy key) ∧
    s'.output = s.output ++ e.printed strpy key

theorem handled_moved (h : Follows s e) (line : Zipper Char) {key : Key} {text : Str}
    (hkey : handle strpy s key = .ok (s.moved line.before line.after text))
    (hstep : e.step strpy key = { e with line }) (htext : e.printed strpy key = text) :
    Handled strpy s e key := by
  refine ⟨_, hkey, ?_, ?_⟩
  · rw [hstep]
    exact h.moved line text
  · rw [htext]
    rfl

theorem handled_char (h : Follows s e) (ch : Char) : Handled strpy s e (.char ch) := by
  cases hprint : strpy.isPrintableChar ch with
  | true =>
    refine handled_moved h (e.line.insert ch) (handleChar_at strpy h.line hprint) ?_ ?_
    · exact if_pos hprint
    · exact if_pos hprint
  | false =>
    refine ⟨s, handleChar_ignored strpy s hprint, ?_, ?_⟩
    · rwa [LineEditor.step, hprint]
    · rw [LineEditor.printed, hprint]
      exact (List.append_nil _).symm

/-- A handler that leaves the state, where the editor's key leaves the line. -/
theorem handled_same (h : Follows s e) {key : Key} (hkey : handle strpy s key = .ok s)
    (hstep : e.step strpy key = e) (htext : e.printed strpy key = []) :
    Handled strpy s e key := by
  refine ⟨s, hkey, ?_, ?_⟩
  · rwa [hstep]
  · rw [htext, List.append_nil]

theorem handled_left (h : Follows s e) : Handled strpy s e .left := by
  obtain ⟨⟨a, b⟩, draft, history, entered⟩ := e
  rcases List.eq_nil_or_concat a with rfl | ⟨a, c, rfl⟩
  · exact handled_same h (handleLeftArrow_nil h.line) rfl rfl
  · rw [List.concat_eq_append] at h ⊢
    refine handled_moved h ⟨a, c :: b⟩ (handleLeftArrow_concat h.line) ?_ ?_
    · simp [LineEditor.step, Zipper.left]
    · simp [LineEditor.printed]

theorem handled_right (h : Follows s e) : Handled strpy s e .right := by
  obtain ⟨⟨a, b⟩, draft, history, entered⟩ := e
  cases b with
  | nil =>
    refine handled_same h (handleRightArrow_nil h.line) ?_ rfl
    simp [LineEditor.step, Zipper.right]
  | cons c b =>
    exact handled_moved h ⟨a ++ [c], b⟩ (handleRightArrow_cons h.line) rfl rfl

theorem handled_home (h : Follows s e) : Handled strpy s e .home :=
  handled_moved h e.line.home (handleHome_at h.line) rfl rfl

theorem handled_toEnd (h : Follows s e) : Handled strpy s e .toEnd :=
  handled_moved h e.line.toEnd (handleEnd_at h.line) rfl rfl

theorem handled_backspace (h : Follows s e) : Handled strpy s e .backspace := by
  obtain ⟨⟨a, b⟩, draft, history, entered⟩ := e
  rcases List.eq_nil_or_concat a with rfl | ⟨a, c, rfl⟩
  · exact handled_same h (handleBackspace_nil h.line) rfl rfl
  · rw [List.concat_eq_append] at h ⊢
    refine handled_moved h ⟨a, b⟩ (handleBackspace_concat h.line) ?_ ?_
    · simp [LineEditor.step, Zipper.backspace]
    · simp [LineEditor.printed]

theorem handled_delete (h : Follows s e) : Handled strpy s e .delete := by
  obtain ⟨⟨a, b⟩, draft, history, entered⟩ := e
  cases b with
  | nil => exact handled_same h (handleDelete_nil h.line) rfl rfl
  | cons c b =>
    refine handled_moved h ⟨a, b⟩ (handleDelete_cons h.line) rfl ?_
    rw [LineEditor.printed, if_neg (List.cons_ne_nil c b), List.tail_cons]

/-- `history_previous()` of the presenter is the editor's `previous`. -/
theorem historyPrevious_eq (h : Follows s e) :
    s.inputPresenter.historyPrevious =
      (e.history.previous.1, { s.inputPresenter with inputHistory := e.history.previous.2 }) := by
  rw [InputPresenter.historyPrevious, h.history]

theorem historyNext_eq (h : Follows s e) :
    s.inputPresenter.historyNext =
      (e.history.next.1, { s.inputPresenter with inputHistory := e.history.next.2 }) := by
  rw [InputPresenter.historyNext, h.history]

theorem handled_up (h : Follows s e) : Handled strpy s e .up := by
  have hprevious := historyPrevious_eq h
  rcases hinput : e.history.previous with ⟨_ | input, history⟩
  · rw [hinput] at hprevious
    refine ⟨_, handleUpArrow_none hprevious, ?_, ?_⟩
    · rw [LineEditor.step, hinput]
      exact ⟨h.line, h.draft, rfl, h.queue⟩
    · rw [LineEditor.printed, hinput, List.append_nil]
  · rw [hinput] at hprevious
    refine ⟨_, handleUpArrow_some h.line hprevious, ?_, ?_⟩
    · rw [LineEditor.step, hinput, h.draft]
      exact ⟨⟨rfl, rfl⟩, rfl, rfl, h.queue⟩
    · rw [LineEditor.printed, hinput]
      rfl

theorem handled_down (h : Follows s e) : Handled strpy s e .down := by
  have hnext := historyNext_eq h
  have hsaved := h.draft
  rcases hinput : e.history.next with ⟨_ | input, history⟩
  · rw [hinput] at hnext
    cases hdraft : e.draft with
    | none =>
      rw [hdraft] at hsaved
      refine ⟨_, handleDownArrow_none hnext hsaved, ?_, ?_⟩
      · rw [LineEditor.step, hinput, hdraft]
        exact ⟨h.line, hsaved, rfl, h.queue⟩
      · rw [LineEditor.printed, hinput, hdraft]
        exact (List.append_nil _).symm
    | some draft =>
      rw [hdraft] at hsaved
      refine ⟨_, handleDownArrow_saved h.line hnext hsaved, ?_, ?_⟩
      · rw [LineEditor.step, hinput, hdraft]
        exact ⟨⟨rfl, rfl⟩, rfl, rfl, h.queue⟩
      · rw [LineEditor.printed, hinput, hdraft]
        rfl
  · rw [hinput] at hnext
    refine ⟨_, handleDownArrow_some h.line hnext, ?_, ?_⟩
    · rw [LineEditor.step, hinput]
      exact ⟨⟨rfl, rfl⟩, hsaved, rfl, h.queue⟩
    · rw [LineEditor.printed, hinput]
      rfl

theorem handled_tab (h : Follows s e) {commands : List Str} {consoleWidth : Nat}
    (htab : ¬ TabThrows e.line.toList (.tab commands consoleWidth)) :
    Handled strpy s e (.tab commands consoleWidth) := by
  match commands with
  | [] => exact handled_same h (handleTab_nil s consoleWidth) rfl rfl
  | [command] =>
    have hlen : e.line.toList.length ≤ command.length := Nat.le_of_not_lt htab
    exact handled_moved h (.atEnd (e.line.toList ++ (command.drop e.line.toList.length ++ [' '])))
      (handleTab_single h.line hlen consoleWidth) rfl rfl
  | command :: command' :: commands =>
    exact handled_moved h (.atEnd (findCommonCommandPrefix (command :: command' :: commands)))
      (handleTab_many h.line consoleWidth) rfl rfl

theorem handled_newline (h : Follows s e) : Handled strpy s e .newline := by
  have hline : s.inputLine = e.line.toList := h.line.1
  refine ⟨_, rfl, ⟨⟨rfl, rfl⟩, h.draft, ?_, ?_⟩, rfl⟩
  · change s.inputPresenter.inputHistory.append strpy s.inputLine = _
    rw [h.history, hline]
    rfl
  · change enqueueInput s.inputPresenter.inputQueue s.inputLine = _
    rw [enqueueInput, h.queue, hline, LineEditor.step, List.map_append]
    rfl

/-- One key, for each of them. -/
theorem handle_spec (h : Follows s e) {key : Key} (hkey : ¬ TabThrows e.line.toList key) :
    Handled strpy s e key := by
  cases key with
  | char ch => exact handled_char h ch
  | left => exact handled_left h
  | right => exact handled_right h
  | home => exact handled_home h
  | toEnd => exact handled_toEnd h
  | backspace => exact handled_backspace h
  | delete => exact handled_delete h
  | up => exact handled_up h
  | down => exact handled_down h
  | tab commands consoleWidth => exact handled_tab h hkey
  | newline => exact handled_newline h

/-- The only fault there is. -/
theorem handle_throws (h : Follows s e) {key : Key} (hkey : TabThrows e.line.toList key) :
    handle strpy s key = .error .substr := by
  match key, hkey with
  | .tab [command] consoleWidth, hlen => exact handleTab_throws h.line hlen consoleWidth

/-- A handler that succeeds was not the `handle_tab` that throws, so it is as `handle_spec`
    says. -/
theorem handle_ok {s' : ConsoleInput} (h : Follows s e) {key : Key}
    (hok : handle strpy s key = .ok s') :
    Follows s' (e.step strpy key) ∧ s'.output = s.output ++ e.printed strpy key := by
  by_cases hkey : TabThrows e.line.toList key
  · rw [handle_throws h hkey] at hok
    exact absurd hok (by simp)
  · obtain ⟨s'', hok', hfollows, htext⟩ := handle_spec h hkey
    obtain rfl : s'' = s' := Except.ok.inj (hok'.symm.trans hok)
    exact ⟨hfollows, htext⟩

/-- The run of a sequence of keys: an exception leaves the input thread. -/
def keyRun (strpy : Strpy) (s : ConsoleInput) (keys : List Key) : List (Key × ConsoleInput) :=
  traceOk (handle strpy) s keys

theorem follows_new (strpy : Strpy) (filename : Str) (fs : FileSystem) :
    Follows (.initial strpy filename fs) (.initial strpy filename fs) :=
  ⟨⟨rfl, rfl⟩, rfl, rfl, rfl⟩

/-- Where no `handle_tab` throws, the handlers all succeed. -/
theorem foldlM_handle (h : Follows s e) {keys : List Key} (hkeys : NoThrow strpy e keys) :
    ∃ s', keys.foldlM (handle strpy) s = .ok s' ∧
      Follows s' (keys.foldl (LineEditor.step strpy) e) := by
  induction keys generalizing s e with
  | nil => exact ⟨s, rfl, h⟩
  | cons key keys ih =>
    obtain ⟨s', hok, hfollows, -⟩ := handle_spec h hkeys.1
    obtain ⟨s'', hrest, hfollows'⟩ := ih hfollows hkeys.2
    refine ⟨s'', ?_, hfollows'⟩
    rw [List.foldlM_cons, hok]
    exact hrest

end follows

/-- After every key of a sequence in which no `handle_tab` throws: the handlers met no position
    outside a string, the cursor stands within the line and divides it as the editor's does,
    and the inputs enqueued are the lines entered in the editor. -/
theorem console_follows_editor (strpy : Strpy) (filename : Str) (fs : FileSystem)
    {keys : List Key}
    (hkeys : NoThrow strpy (.initial strpy filename fs) keys)
    {ks : List Key} (hks : ks <+: keys) :
    ∃ s, ks.foldlM (handle strpy) (.initial strpy filename fs) = .ok s ∧
      let e := ks.foldl (LineEditor.step strpy) (.initial strpy filename fs)
      s.cursorPosition ≤ s.inputLine.length ∧
        Zipper.cut s.inputLine s.cursorPosition = e.line ∧
        s.inputPresenter.inputQueue = e.entered.map (· ++ ['\n']) := by
  obtain ⟨rest, rfl⟩ := hks
  have hprefix := (noThrow_append.mp hkeys).1
  obtain ⟨s, hok, hfollows⟩ := foldlM_handle (follows_new strpy filename fs) hprefix
  exact ⟨s, hok, hfollows.line.cursor_le, hfollows.line.cut_eq, hfollows.queue⟩

/-- `st` typed, completed from its middle, a digit behind it, and Enter from inside the line. -/
def completionKeys : List Key :=
  [.char 's', .char 't', .left, .tab ["status".toList] 80, .char '1', .home, .right, .newline]

theorem console_follows_editor_completion :
    NoThrow asciiStrpy (.initial asciiStrpy [] { files := [] }) completionKeys ∧
      ∃ s, completionKeys.foldlM (handle asciiStrpy) blank = .ok s ∧
        s.inputPresenter.inputQueue = ["status 1\n".toList] := by
  have hkeys : NoThrow asciiStrpy (.initial asciiStrpy [] { files := [] }) completionKeys := by
    decide +kernel
  obtain ⟨s, hok, -, -, hqueue⟩ :=
    console_follows_editor asciiStrpy [] { files := [] } hkeys List.prefix_rfl
  refine ⟨hkeys, s, hok, hqueue.trans ?_⟩
  decide +kernel

end RehldsM.View
