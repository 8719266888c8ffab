import RehldsM.Model.UserinputHistoryFile
import RehldsM.View.LineEditor

/-
  The history over restarts of the server.

  Every Enter saves the history, and a server that starts loads it. So a restart, wherever it comes
  between two keys, is not to be noticed: the entries are those of one history that goes on
  (`restarts_unnoticed_iff`). The exception is a file that `file_read` turns down, for its size
  or because it may be written but not read: the next server starts with nothing.

  A `handle_tab` that throws ends the process; the server is then started again.
-/

namespace RehldsM.View

open Lib Util Model Presenter ConsoleInput

/-- The console input, side by side with the entries of a history that never restarts. -/
structure Restarting where
  console : ConsoleInput
  reference : List Str

inductive RestartEvent where
  | key (key : Key)
  | restart

namespace Restarting

variable (strpy : Strpy) (filename : Str)

def start (fs : FileSystem) : Restarting where
  console := .initial strpy filename fs
  reference := ((UserInputHistory.new filename).load strpy fs).history.contents

/-- A server starts with the files that the last one has left. -/
def restart (s : Restarting) : Restarting :=
  { s with console := .initial strpy filename s.console.inputPresenter.fs }

/-- The reference behind a key. -/
def referenceAfter (s : Restarting) : Key → List Str
  | .newline => referenceAppend strpy s.reference s.console.inputLine
  | .char _ | .left | .right | .home | .toEnd | .backspace | .delete | .up | .down | .tab _ _ =>
    s.reference

def step (s : Restarting) : RestartEvent → Restarting
  | .key key =>
    match handle strpy s.console key with
    | .ok console => { console, reference := s.referenceAfter strpy key }
    | .error _ => s.restart strpy filename
  | .restart => s.restart strpy filename

/-- The server is started again by this event. -/
def Restarts (s : Restarting) : RestartEvent → Prop
  | .key key => ∃ fault, handle strpy s.console key = .error fault
  | .restart => True

def entries (s : Restarting) : List Str := s.console.inputPresenter.inputHistory.history.contents

/-- The file can be read, and is not above the limit of `file_read`; or there is nothing to
    lose. -/
def FileReadable (s : Restarting) : Prop :=
  s.entries ≠ [] → ∀ file, s.console.inputPresenter.fs.find filename = some file → file.Readable

/-- What `back()` reads in a ring without entries is no valid input. -/
def Blank (history : CircularBuffer Str historyCapacity) : Prop :=
  history.contents = [] → isValidInput strpy history.back = false

/-- A history of this file, and the files around it. -/
structure Saved (h : UserInputHistory) (fs : FileSystem) : Prop where
  name : h.filename = filename
  reloadable : Reloadable strpy h.history
  /-- An empty ring turns no input down. -/
  blank : Blank strpy h.history
  writes : fs.writeFault filename = none
  /-- What can be read gives the entries back. -/
  readBack : ∀ content, tryFileRead fs filename = some content →
    ((UserInputHistory.new filename).load strpy fs).history.contents = h.history.contents
  /-- Where there are entries, there is a file. -/
  file : h.history.contents ≠ [] → ∃ file, fs.find filename = some file

structure RestartInv (s : Restarting) : Prop where
  saved : Saved strpy filename s.console.inputPresenter.inputHistory s.console.inputPresenter.fs
  agree : s.entries = s.reference

end Restarting

open Restarting

section restarts

variable {strpy : Strpy} {filename : Str} {s s' : ConsoleInput} {h : UserInputHistory}
  {fs : FileSystem}

/-! ## What a handler does to the history -/

/-- The file system, the entries and the file name are left as they are. -/
def SameEntries (s s' : ConsoleInput) : Prop :=
  s'.inputPresenter.fs = s.inputPresenter.fs ∧
    s'.inputPresenter.inputHistory.history = s.inputPresenter.inputHistory.history ∧
    s'.inputPresenter.inputHistory.filename = s.inputPresenter.inputHistory.filename

theorem sameEntries_refl (s : ConsoleInput) : SameEntries s s := ⟨rfl, rfl, rfl⟩

theorem SameEntries.trans {s'' : ConsoleInput} (h : SameEntries s s') (h' : SameEntries s' s'') :
    SameEntries s s'' := ⟨h'.1.trans h.1, h'.2.1.trans h.2.1, h'.2.2.trans h.2.2⟩

theorem sameEntries_right (hok : s.handleRightArrow = .ok s') : SameEntries s s' := by
  unfold handleRightArrow at hok
  split at hok
  · obtain rfl := Except.ok.inj hok
    exact sameEntries_refl s
  · obtain ⟨c, -, hok⟩ := ok_bind hok
    obtain rfl := Except.ok.inj hok
    exact sameEntries_refl s

theorem sameEntries_endLoop {fuel : Nat} (hok : endLoop fuel s = .ok s') : SameEntries s s' := by
  induction fuel generalizing s with
  | zero =>
    obtain rfl := Except.ok.inj hok
    exact sameEntries_refl s
  | succ fuel ih =>
    unfold endLoop at hok
    split at hok
    · obtain ⟨s'', hright, hok⟩ := ok_bind hok
      exact (sameEntries_right hright).trans (ih hok)
    · obtain rfl := Except.ok.inj hok
      exact sameEntries_refl s

theorem sameEntries_clearInput (hok : s.clearInput = .ok s') : SameEntries s s' := by
  unfold clearInput at hok
  split at hok
  · obtain rfl := Except.ok.inj hok
    exact sameEntries_refl s
  · obtain ⟨s'', hend, hok⟩ := ok_bind hok
    have hsame : SameEntries s s'' := sameEntries_endLoop hend
    obtain rfl := Except.ok.inj hok
    exact hsame

theorem sameEntries_up (hok : s.handleUpArrow = .ok s') : SameEntries s s' := by
  have hring := history_previous s.inputPresenter.inputHistory
  have hname : s.inputPresenter.inputHistory.previous.2.filename =
      s.inputPresenter.inputHistory.filename := by
    unfold UserInputHistory.previous
    split <;> rfl
  unfold handleUpArrow InputPresenter.historyPrevious at hok
  dsimp only at hok
  split at hok
  · rename_i presenter heq
    obtain ⟨-, rfl⟩ := Prod.mk.inj heq
    obtain ⟨s'', hclear, hok⟩ := ok_bind hok
    obtain rfl := Except.ok.inj hok
    have hsame := sameEntries_clearInput hclear
    exact ⟨hsame.1, hsame.2.1.trans hring, hsame.2.2.trans hname⟩
  · rename_i presenter heq
    obtain ⟨-, rfl⟩ := Prod.mk.inj heq
    obtain rfl := Except.ok.inj hok
    exact ⟨rfl, hring, hname⟩

theorem sameEntries_down (hok : s.handleDownArrow = .ok s') : SameEntries s s' := by
  have hring := history_next s.inputPresenter.inputHistory
  have hname : s.inputPresenter.inputHistory.next.2.filename =
      s.inputPresenter.inputHistory.filename := by
    unfold UserInputHistory.next
    dsimp only
    split
    · split <;> rfl
    · rfl
  unfold handleDownArrow InputPresenter.historyNext at hok
  dsimp only at hok
  split at hok
  · rename_i presenter _ heq
    obtain ⟨-, rfl⟩ := Prod.mk.inj heq
    obtain ⟨s'', hclear, hok⟩ := ok_bind hok
    obtain rfl := Except.ok.inj hok
    have hsame := sameEntries_clearInput hclear
    exact ⟨hsame.1, hsame.2.1.trans hring, hsame.2.2.trans hname⟩
  · rename_i presenter savedInput heq _
    obtain ⟨-, rfl⟩ := Prod.mk.inj heq
    obtain ⟨s'', hclear, hok⟩ := ok_bind hok
    obtain rfl := Except.ok.inj hok
    have hsame := sameEntries_clearInput hclear
    exact ⟨hsame.1, hsame.2.1.trans hring, hsame.2.2.trans hname⟩
  · rename_i presenter heq _
    obtain ⟨-, rfl⟩ := Prod.mk.inj heq
    obtain rfl := Except.ok.inj hok
    exact ⟨rfl, hring, hname⟩

theorem sameEntries_tab {commands : List Str} {consoleWidth : Nat}
    (hok : s.handleTab commands consoleWidth = .ok s') : SameEntries s s' := by
  unfold handleTab at hok
  split at hok
  · obtain rfl := Except.ok.inj hok
    exact sameEntries_refl s
  · obtain ⟨text, -, hok⟩ := ok_bind hok
    obtain rfl := Except.ok.inj hok
    exact sameEntries_refl s
  · obtain ⟨s'', hclear, hok⟩ := ok_bind hok
    have hsame := sameEntries_clearInput hclear
    obtain rfl := Except.ok.inj hok
    exact hsame

/-- Only Enter changes the entries or the files. -/
theorem sameEntries_handle {key : Key} (hkey : key ≠ .newline)
    (hok : handle strpy s key = .ok s') : SameEntries s s' := by
  cases key with
  | newline => exact absurd rfl hkey
  | right => exact sameEntries_right hok
  | toEnd => exact sameEntries_endLoop hok
  | up => exact sameEntries_up hok
  | down => exact sameEntries_down hok
  | tab commands consoleWidth => exact sameEntries_tab hok
  | char ch =>
    replace hok : handleChar strpy s ch = .ok s' := hok
    unfold handleChar at hok
    split at hok
    · obtain rfl := Except.ok.inj hok
      exact sameEntries_refl s
    · obtain ⟨line, -, hok⟩ := ok_bind hok
      obtain ⟨tail, -, hok⟩ := ok_bind hok
      obtain rfl := Except.ok.inj hok
      exact sameEntries_refl s
  | left =>
    replace hok : handleLeftArrow s = .ok s' := hok
    unfold handleLeftArrow at hok
    split at hok <;> obtain rfl := Except.ok.inj hok <;> exact sameEntries_refl s
  | home =>
    replace hok : handleHome s = .ok s' := hok
    unfold handleHome at hok
    split at hok <;> obtain rfl := Except.ok.inj hok <;> exact sameEntries_refl s
  | backspace =>
    replace hok : handleBackspace s = .ok s' := hok
    unfold handleBackspace at hok
    split at hok
    · obtain rfl := Except.ok.inj hok
      exact sameEntries_refl s
    · obtain ⟨line, -, hok⟩ := ok_bind hok
      obtain ⟨tail, -, hok⟩ := ok_bind hok
      obtain rfl := Except.ok.inj hok
      exact sameEntries_refl s
  | delete =>
    replace hok : handleDelete s = .ok s' := hok
    unfold handleDelete at hok
    split at hok
    · obtain rfl := Except.ok.inj hok
      exact sameEntries_refl s
    · obtain ⟨line, -, hok⟩ := ok_bind hok
      obtain ⟨tail, -, hok⟩ := ok_bind hok
      obtain rfl := Except.ok.inj hok
      exact sameEntries_refl s

/-! ## The history and its file -/

theorem length_entries_le (h : UserInputHistory) : h.history.contents.length ≤ historyCapacity := by
  rw [CircularBuffer.length_contents]
  exact h.history.size_le

theorem blank_loadLine {history : CircularBuffer Str historyCapacity}
    (hblank : Blank strpy history) (input : Str) :
    Blank strpy (UserInputHistory.loadLine strpy history input) := by
  intro hnil
  unfold UserInputHistory.loadLine at hnil ⊢
  split at hnil
  · rw [contents_emplaceBack] at hnil
    have hlen := congrArg List.length hnil
    rw [length_keepLast, List.length_append] at hlen
    simp [historyCapacity] at hlen
  · rename_i hnot
    rw [if_neg hnot]
    exact hblank hnil

theorem blank_load_new (filename : Str) (fs : FileSystem) :
    Blank strpy ((UserInputHistory.new filename).load strpy fs).history := by
  have hfold : ∀ (lines : List Str) {history : CircularBuffer Str historyCapacity},
      Blank strpy history →
        Blank strpy (lines.foldl (UserInputHistory.loadLine strpy) history) := by
    intro lines
    induction lines with
    | nil => exact id
    | cons line lines ih => exact fun hblank => ih (blank_loadLine hblank line)
  have hnew : ∀ history : CircularBuffer Str historyCapacity, history.back = [] →
      Blank strpy history := by
    intro history hback _
    rw [hback, isValidInput_nil]
  have hback : (UserInputHistory.new filename).history.back = [] := by
    show (CircularBuffer.new _ : CircularBuffer Str historyCapacity).back = []
    decide
  unfold UserInputHistory.load
  split
  · exact hnew _ hback
  · split
    · exact hfold _ (hnew _ (back_clear_new filename))
    · exact hnew _ hback

theorem saved_load (hwrites : fs.writeFault filename = none) :
    Saved strpy filename ((UserInputHistory.new filename).load strpy fs) fs where
  name := filename_step (.new filename) (.load fs)
  reloadable := reloadable_load (reloadable_empty
    ((CircularBuffer.contents_eq_nil_iff _).mpr (CircularBuffer.size_new _))) fs
  blank := blank_load_new filename fs
  writes := hwrites
  readBack _ _ := rfl
  file hentries := by
    cases hread : tryFileRead fs filename with
    | none => exact absurd (contents_load_unread hread) hentries
    | some content =>
      obtain ⟨file, hfind, -⟩ := find_of_tryFileRead hread
      exact ⟨file, hfind⟩

theorem contents_append (hblank : Blank strpy h.history) (input : Str) :
    (h.append strpy input).history.contents = referenceAppend strpy h.history.contents input := by
  have hfresh : Fresh strpy (h, h.history.contents) (.append input) := by
    rintro ⟨hsize, hvalid, rfl⟩
    have hinvalid := hblank (h.history.contents_eq_nil_iff.mpr hsize)
    exact absurd (hvalid.symm.trans hinvalid) (by decide)
  have hagree : EntriesAgree (h, h.history.contents) := rfl
  exact (agree_append hagree input).mpr hfresh

/-- An input that leaves no entries leaves the ring. -/
theorem append_of_nil {input : Str} (hnil : (h.append strpy input).history.contents = []) :
    (h.append strpy input).history = h.history := by
  unfold UserInputHistory.append at hnil ⊢
  dsimp only at hnil ⊢
  split at hnil
  · rw [contents_emplaceBack] at hnil
    have hlen := congrArg List.length hnil
    rw [length_keepLast, List.length_append] at hlen
    simp [historyCapacity] at hlen
  · rename_i hnot
    rw [if_neg hnot]

theorem saved_append (hfile : filename ≠ []) (hsaved : Saved strpy filename h fs) (input : Str) :
    Saved strpy filename (h.append strpy input) ((h.append strpy input).save fs) := by
  by_cases hnil : (h.append strpy input).history.contents = []
  · have hring := append_of_nil hnil
    rw [save_of_nil hnil]
    refine ⟨hsaved.name, ?_, ?_, hsaved.writes, ?_, fun hentries => absurd hnil hentries⟩
    · rw [hring]
      exact hsaved.reloadable
    · rw [hring]
      exact hsaved.blank
    · rw [hring]
      exact hsaved.readBack
  · have hreloadable : Reloadable strpy (h.append strpy input).history :=
      reloadable_loadLine hsaved.reloadable input
    have hname : (h.append strpy input).filename = filename := hsaved.name
    have hsave := save_of_ne_nil (h := h.append strpy input) (by rwa [hname])
      (by rw [hname]; exact hsaved.writes) hnil
    rw [hname] at hsave
    rw [hsave]
    refine ⟨hname, hreloadable, fun hcon => absurd hcon hnil, hsaved.writes, ?_, fun _ => ?_⟩
    · intro content hread
      obtain ⟨file, hfind, rfl⟩ := find_of_tryFileRead hread
      rw [find_put] at hfind
      refine load_new hreloadable.valid hreloadable.neighbours (length_entries_le _) ?_
      rw [hread, ← Option.some.inj hfind]
      rfl
    · exact ⟨_, find_put _ _ _⟩

/-! ## Keys and restarts -/

variable {r : Restarting}

theorem restartInv_start (hwrites : fs.writeFault filename = none) :
    RestartInv strpy filename (.start strpy filename fs) :=
  ⟨saved_load hwrites, rfl⟩

theorem entries_restart (s : Restarting) : (s.restart strpy filename).entries =
    ((UserInputHistory.new filename).load strpy s.console.inputPresenter.fs).history.contents := rfl

/-- A file that can be read gives the entries back. -/
theorem entries_restart_of_readable (hfile : filename ≠ []) (hinv : RestartInv strpy filename r)
    (hreadable : r.FileReadable filename) :
    (r.restart strpy filename).entries = r.entries := by
  rw [entries_restart]
  cases hread : tryFileRead r.console.inputPresenter.fs filename with
  | some content => exact hinv.saved.readBack content hread
  | none =>
    have hnil : r.entries = [] := by
      by_contra hentries
      obtain ⟨file, hfind⟩ := hinv.saved.file hentries
      have hok := read_eq_ok_iff.mpr (hreadable hentries file hfind)
      have hsome := tryFileRead_eq_some_iff.mpr (fileRead_ok_iff.mpr ⟨hfile, file, hfind, hok⟩)
      exact absurd (hsome.symm.trans hread) (by simp)
    rw [contents_load_unread hread, hnil]

/-- One that cannot loses them. -/
theorem entries_restart_of_not_readable (hreadable : ¬ r.FileReadable filename) :
    r.entries ≠ [] ∧ (r.restart strpy filename).entries = [] := by
  unfold FileReadable at hreadable
  push Not at hreadable
  obtain ⟨hentries, file, hfind, hnot⟩ := hreadable
  refine ⟨hentries, ?_⟩
  have hread : tryFileRead r.console.inputPresenter.fs filename = none := by
    by_contra hcon
    obtain ⟨content, hsome⟩ := Option.ne_none_iff_exists'.mp hcon
    obtain ⟨-, file', hfind', hok⟩ := fileRead_ok_iff.mp (tryFileRead_eq_some_iff.mp hsome)
    obtain rfl := Option.some.inj (hfind.symm.trans hfind')
    obtain rfl := read_ok hok
    exact hnot (read_eq_ok_iff.mp hok)
  rw [entries_restart, contents_load_unread hread]

theorem restartInv_restart (hfile : filename ≠ []) (hinv : RestartInv strpy filename r)
    (hreadable : r.FileReadable filename) :
    RestartInv strpy filename (r.restart strpy filename) :=
  ⟨saved_load hinv.saved.writes,
    (entries_restart_of_readable hfile hinv hreadable).trans hinv.agree⟩

/-- A key whose handler returns keeps the file up to date. -/
theorem restartInv_key (hfile : filename ≠ []) (hinv : RestartInv strpy filename r) {key : Key}
    (hok : handle strpy r.console key = .ok s') :
    RestartInv strpy filename ⟨s', r.referenceAfter strpy key⟩ := by
  by_cases hkey : key = .newline
  · subst hkey
    obtain rfl := Except.ok.inj hok
    refine ⟨saved_append hfile hinv.saved r.console.inputLine, ?_⟩
    show (r.console.inputPresenter.inputHistory.append strpy _).history.contents = _
    rw [contents_append hinv.saved.blank, ← entries, hinv.agree]
    rfl
  · obtain ⟨hfs, hring, hname⟩ := sameEntries_handle hkey hok
    have hreference : r.referenceAfter strpy key = r.reference := by
      cases key <;> first | rfl | exact absurd rfl hkey
    have hsame : s'.inputPresenter.inputHistory.history.contents = r.entries :=
      congrArg CircularBuffer.contents hring
    refine ⟨?_, by rw [hreference, ← hinv.agree]; exact hsame⟩
    have hsaved := hinv.saved
    rw [hfs]
    refine ⟨hname.trans hsaved.name, ?_, ?_, hsaved.writes, ?_, ?_⟩
    · rw [hring]
      exact hsaved.reloadable
    · rw [hring]
      exact hsaved.blank
    · rw [hring]
      exact hsaved.readBack
    · rw [hring]
      exact hsaved.file

end restarts

/-- Over every run of keys and restarts, with a history file that has a name and can be written:
    the entries are those of a history that never restarts, in every state of the run, exactly
    when no restart finds entries and a file that `file_read` turns down. -/
theorem restarts_unnoticed_iff (strpy : Strpy) (filename : Str) (fs : FileSystem)
    (events : List RestartEvent) (hfile : filename ≠ [])
    (hwrites : fs.writeFault filename = none) :
    let start := Restarting.start strpy filename fs
    Always (fun s => s.entries = s.reference) start
        (trace (Restarting.step strpy filename) start events) ↔
      Meets (fun s event => s.Restarts strpy event → s.FileReadable filename) start
        (trace (Restarting.step strpy filename) start events) := by
  intro start
  refine always_iff_meets (fun _ hinv => hinv.agree) ?_ ?_ (restartInv_start hwrites)
    (isRun_trace _ _ _)
  · rintro s event s' hinv hreadable rfl
    cases event with
    | restart => exact restartInv_restart hfile hinv (hreadable trivial)
    | key key =>
      cases hok : handle strpy s.console key with
      | ok console =>
        rw [Restarting.step, hok]
        exact restartInv_key hfile hinv hok
      | error fault =>
        rw [Restarting.step, hok]
        exact restartInv_restart hfile hinv (hreadable ⟨fault, hok⟩)
  · rintro s event s' hinv hbad rfl
    obtain ⟨hrestarts, hreadable⟩ := Classical.not_imp.mp hbad
    have hstep : s.step strpy filename event = s.restart strpy filename := by
      cases event with
      | restart => rfl
      | key key =>
        obtain ⟨fault, herror⟩ := hrestarts
        rw [Restarting.step, herror]
    obtain ⟨hentries, hlost⟩ := entries_restart_of_not_readable hreadable
    rw [hstep, hlost]
    intro hagree
    exact hentries (hinv.agree.trans hagree.symm)

/-- `status` and `stats` are entered, the server restarts, and `status` is recalled. -/
def statusEvents : List RestartEvent :=
  ("status".toList.map fun c => RestartEvent.key (.char c)) ++ [.key .newline] ++
    ("stats".toList.map fun c => RestartEvent.key (.char c)) ++
    [.key .newline, .restart, .key .up, .key .up]

/-- With a history file that was there. -/
theorem restarts_unnoticed_iff_status :
    let fs : FileSystem := { files := [(['h'], { content := "quit\n".toList })] }
    let start := Restarting.start asciiStrpy ['h'] fs
    Always (fun s => s.entries = s.reference) start
        (trace (Restarting.step asciiStrpy ['h']) start statusEvents) ↔
      Meets (fun s event => s.Restarts asciiStrpy event → s.FileReadable ['h']) start
        (trace (Restarting.step asciiStrpy ['h']) start statusEvents) :=
  restarts_unnoticed_iff asciiStrpy ['h'] { files := [(['h'], { content := "quit\n".toList })] } _
    (by decide) rfl

/-- The entries are there again behind the restart. A file that may only be written keeps them
    from the next server. -/
example :
    let entered := fun file => statusEvents.foldl (Restarting.step asciiStrpy ['h'])
      (.start asciiStrpy ['h'] { files := [(['h'], file)] })
    (entered { content := [] }).console.inputLine = "status".toList ∧
      (entered { content := [], opens := false }).entries = [] := by
  decide +kernel

end RehldsM.View
