import RehldsM.Util.Logger

/-
  The text of the engine on its way to standard output: `Exports::print`
  (libs/core/src/core/exports.cpp), the logger, and `ConsoleView`
  (libs/view/include/view/linux/console_view.hpp; `print` and `write_log` of the Windows view are
  the same).

  `ConsoleView::print` hands its text to `fmt::print` as the format string. A text with braces is
  not printed as it is: a doubled brace loses one of the two, and a single one makes `fmt::print`
  throw, with nothing printed. The log file gets every text as it is.
-/

namespace RehldsM.View

open Util

namespace ConsoleView

/-- `ConsoleView::print`, with standard output as its state. -/
def print (fmt : Fmt) (text : Str) (stdout : Str) : Except FormatError Str := do
  return stdout ++ (← fmt.format text [])

def writeLog (fmt : Fmt) : LogOutput Str := print fmt

end ConsoleView

/-- `Exports::print`; a null pointer is `none`. -/
def Exports.print (fmt : Fmt) (spdlog : Spdlog Str) (logger : Logger Str) (text : Option Str)
    (s : LogState Str) : LogState Str :=
  match text with
  | none => s
  | some text => if cStr text ≠ [] then logger.logInfo fmt spdlog (cStr text) s else s

/-- `ConsoleView` prints exactly the texts without braces as they are. -/
theorem writeLog_eq_iff (fmt : Fmt) (text stdout : Str) :
    ConsoleView.writeLog fmt text stdout = .ok (stdout ++ text) ↔ noBraces text = true := by
  unfold ConsoleView.writeLog ConsoleView.print
  rw [fmt.format_text, ← unescape_eq_self_iff]
  cases unescape text with
  | error e => exact iff_of_false nofun nofun
  | ok printed =>
    show Except.ok (stdout ++ printed) = .ok (stdout ++ text) ↔ _
    simp

section print

variable (fmt : Fmt) (spdlog : Spdlog Str) {settings : LogSettings Str} {text : Str}

/-- What the view gets of a text, and whether there was an error. -/
theorem served_console_iff (text : Str) (s : LogState Str) :
    let viewed := (Sink.logOutputSink (ConsoleView.writeLog fmt)).served fmt spdlog .info text s
    (viewed.view = s.view ++ text ∧ viewed.errors = s.errors) ↔ noBraces text = true := by
  intro viewed
  have hviewed : viewed = _ := served_logOutputSink fmt spdlog .info text s _
  rw [hviewed, formatted_info, ← writeLog_eq_iff fmt text s.view]
  cases ConsoleView.writeLog fmt text s.view with
  | error e => exact iff_of_false (fun h => Nat.succ_ne_self _ h.2) nofun
  | ok view =>
    show view = s.view ++ text ∧ s.errors = s.errors ↔ _
    simp

theorem errors_le_served (logOutput : LogOutput Str) (s : LogState Str) :
    s.errors ≤ ((Sink.logOutputSink logOutput).served fmt spdlog .info text s).errors := by
  rw [served_logOutputSink]
  split
  · exact Nat.le_refl _
  · exact Nat.le_succ _

/-! ## The whole way -/

theorem print_of_level (s : LogState Str) (hlevel : ¬ settings.level.value ≤ LogLevel.info.value) :
    Exports.print fmt spdlog settings.logger (some text) s = s := by
  have hlogger : ¬ settings.logger.level.value ≤ LogLevel.info.value := hlevel
  unfold Exports.print Logger.logInfo
  dsimp only
  rw [log_eq_foldl, if_neg hlogger]
  exact ite_self s

/-- The view is served first, then the file. -/
theorem print_eq (s : LogState Str) (hview : settings.output.includes .view)
    (hlevel : settings.level.value ≤ LogLevel.info.value) (hne : text ≠ [])
    (hnul : '\x00' ∉ text) :
    let viewed := (Sink.logOutputSink settings.logOutput).served fmt spdlog .info text s
    Exports.print fmt spdlog settings.logger (some text) s =
      if settings.output.includes .file then
        (Sink.basicFileSink settings.logfile).served fmt spdlog .info text viewed
      else viewed := by
  intro viewed
  have hlogger : settings.logger.level.value ≤ LogLevel.info.value := hlevel
  have hsinks : settings.logger.sinks = .logOutputSink settings.logOutput ::
      if settings.output.includes .file then [.basicFileSink settings.logfile] else [] := by
    dsimp only [LogSettings.logger]
    rw [if_pos hview]
    rfl
  unfold Exports.print Logger.logInfo
  dsimp only
  rw [cStr_of_noNul hnul, if_pos hne, log_eq_foldl, if_pos hlogger, hsinks]
  split <;> rfl

end print

/-- A non-empty text of the engine is printed as it is, without an error, and the log file gets
    the same, exactly when it has no braces (and the logger lets `info` pass, as it does by
    default, and the log file can be written). -/
theorem print_verbatim_iff (fmt : Fmt) (spdlog : Spdlog Str) (settings : LogSettings Str)
    (hview : settings.output.includes .view)
    (houtput : settings.logOutput = ConsoleView.writeLog fmt) (text : Str) (hne : text ≠ [])
    (hnul : '\x00' ∉ text) (s : LogState Str) :
    let s' := Exports.print fmt spdlog settings.logger (some text) s
    (s'.view = s.view ++ text ∧ s'.errors = s.errors ∧
        (settings.output.includes .file →
          s'.fs.content settings.logfile = s.fs.content settings.logfile ++ text)) ↔
      settings.level.value ≤ LogLevel.info.value ∧ noBraces text = true ∧
        (settings.output.includes .file → s.fs.writeFault settings.logfile = none) := by
  intro s'
  by_cases hlevel : settings.level.value ≤ LogLevel.info.value
  · have hprint := print_eq fmt spdlog s hview hlevel hne hnul
    have hconsole := served_console_iff fmt spdlog text s
    have hfs := fs_served_logOutputSink fmt spdlog .info text s settings.logOutput
    have herrors : s.errors ≤
        ((Sink.logOutputSink settings.logOutput).served fmt spdlog .info text s).errors :=
      errors_le_served fmt spdlog settings.logOutput s
    dsimp only at hprint hconsole
    rw [← houtput] at hconsole
    generalize (Sink.logOutputSink settings.logOutput).served fmt spdlog .info text s = viewed
      at hprint hconsole hfs herrors
    have hs' : s' = _ := hprint
    by_cases hfile : settings.output.includes .file
    · rw [if_pos hfile] at hs'
      by_cases hfault : s.fs.writeFault settings.logfile = none
      · rw [served_basicFileSink fmt spdlog .info text viewed (by rw [hfs]; exact hfault),
          formatted_info] at hs'
        rw [hs']
        refine ⟨fun h => ⟨hlevel, hconsole.mp ⟨h.1, h.2.1⟩, fun _ => hfault⟩, fun h => ?_⟩
        obtain ⟨hview', herrors'⟩ := hconsole.mpr h.2.1
        exact ⟨hview', herrors', fun _ => by rw [content_put, hfs]⟩
      · rw [served_basicFileSink_fault fmt spdlog .info text viewed (by rw [hfs]; exact hfault)]
          at hs'
        refine iff_of_false (fun h => ?_) fun h => hfault (h.2.2 hfile)
        have hcount : viewed.errors + 1 = s.errors := by rw [← h.2.1, hs']
        omega
    · rw [if_neg hfile] at hs'
      rw [hs']
      exact ⟨fun h => ⟨hlevel, hconsole.mp ⟨h.1, h.2.1⟩, fun h' => absurd h' hfile⟩,
        fun h => ⟨(hconsole.mpr h.2.1).1, (hconsole.mpr h.2.1).2, fun h' => absurd h' hfile⟩⟩
  · have hsame : s' = s := print_of_level fmt spdlog s hlevel
    rw [hsame]
    refine iff_of_false (fun h => ?_) fun h => hlevel h.1
    exact hne (List.self_eq_append_right.mp h.1)

/-- A chat line with braces: nothing is printed, and an error is raised. -/
theorem print_braces_fails :
    let console := ConsoleView.writeLog plainFmt
    let settings := conDebugSettings true "qconsole.log".toList console
    let s' := Exports.print plainFmt (plainSpdlog Str) settings.logger (some ['{', '}'])
      ⟨[], { files := [] }, 0⟩
    ¬ (s'.view = ['{', '}'] ∧ s'.errors = 0) ∧
      s'.fs.content "qconsole.log".toList = ['{', '}'] := by
  decide

theorem print_verbatim_iff_status :
    let settings := conDebugSettings true "qconsole.log".toList (ConsoleView.writeLog plainFmt)
    let s : LogState Str := ⟨[], { files := [] }, 0⟩
    let s' := Exports.print plainFmt (plainSpdlog Str) settings.logger
      (some "map: crossfire\n".toList) s
    (s'.view = s.view ++ "map: crossfire\n".toList ∧ s'.errors = s.errors ∧
        (settings.output.includes .file → s'.fs.content settings.logfile =
          s.fs.content settings.logfile ++ "map: crossfire\n".toList)) ↔
      settings.level.value ≤ LogLevel.info.value ∧ noBraces "map: crossfire\n".toList = true ∧
        (settings.output.includes .file → s.fs.writeFault settings.logfile = none) :=
  print_verbatim_iff plainFmt (plainSpdlog Str)
    (conDebugSettings true "qconsole.log".toList (ConsoleView.writeLog plainFmt)) (by decide) rfl
    "map: crossfire\n".toList (by decide) (by decide) ⟨[], { files := [] }, 0⟩

end RehldsM.View
