import RehldsM.Core.CmdlineProcessor
import RehldsM.Util.File
import RehldsM.Util.Logger

/-
  The log file over a run of the server: `init_logger` (libs/core/src/core/init.cpp), the handlers
  of `CmdLineProcessor` that write files (libs/core/src/core/cmdline_processor.cpp), and what is
  logged after them.

  `init_logger` reads `-condebug` and `-game` from the line before `process` takes `-condebug`
  out, and `-conclearlog` and `-pidfile` are read behind that. The file that is emptied is the one
  that the logger appends to: after the run it holds what was in it unless it was emptied, and
  then every message of the run, whatever became of the messages on the console
  (`log_file_holds_run`).

  A path is a file here. The logger opens the log file when it is made, and the process ends if
  that fails; what cannot be written later on is lost.
-/

namespace RehldsM.Core

open Lib Util

variable {strpy : Strpy} {σ : Type}

/-- `init_logger` of the Linux build: the settings it gives to `log_init`. -/
def initLogger (args : CmdLineArgs) (logOutput : LogOutput σ) : LogSettings σ :=
  let logfile := "qconsole.log".toList
  let enableCondebug := args.contains "-condebug".toList
  let gameName := (args.getArgumentOption "-game".toList).getD []
  conDebugSettings enableCondebug
    (if gameName.isEmpty then logfile else gameName ++ '/' :: logfile) logOutput

/-- The texts of `handle_write_error`, in front of the field for the path and behind it. -/
def writeErrorText : FileWriteErrorCode → Str × Str
  | .openError => ("Failed to open file '".toList, "' for writing.".toList)
  | .writeError => ("Failed to file_write to file '".toList, "'.".toList)
  | .closeError => ("Failed to close file '".toList, "'.".toList)

/-- `log_error(str, path)`: a text that cannot be formatted is an error of the logger. -/
def logErrorPath (fmt : Fmt) (spdlog : Spdlog σ) (logger : Logger σ) (str path : Str)
    (s : LogState σ) : LogState σ :=
  match fmt.format str [path] with
  | .ok payload => logger.log fmt spdlog .error payload s
  | .error _ => { s with errors := s.errors + 1 }

/-- `handle_write_error`, as far as the log is concerned. -/
def handleWriteError (fmt : Fmt) (spdlog : Spdlog σ) (logger : Logger σ)
    (errorCode : Option FileWriteErrorCode) (path : Str) (s : LogState σ) : LogState σ :=
  match errorCode with
  | none => s
  | some error =>
    let text := writeErrorText error
    logErrorPath fmt spdlog logger (text.1 ++ '{' :: '}' :: text.2) path s

/-- `try_file_write` -/
def tryFileWrite (fmt : Fmt) (spdlog : Spdlog σ) (logger : Logger σ) (path content : Str)
    (append : Bool) (s : LogState σ) : LogState σ :=
  let (errorCode, fs) := fileWrite s.fs path content append
  handleWriteError fmt spdlog logger errorCode path { s with fs }

/-- What a handler does besides editing the arguments. `signal` takes SIGINT, so that
    `-ignoresigint` logs nothing. -/
def performEffect (fmt : Fmt) (spdlog : Spdlog σ) (logger : Logger σ) (s : LogState σ) :
    Effect → LogState σ
  | .write path content append => tryFileWrite fmt spdlog logger path content append s
  | .ignoreSigInt => s

/-- A call of one of the logging functions, its text formatted. -/
abbrev LogCall := LogLevel × Str

/-- `main` as far as the log is concerned: `init_logger`, `process`, and what is logged from then
    on. -/
def runLogged (strpy : Strpy) (fmt : Fmt) (spdlog : Spdlog σ) (processId : Nat)
    (logOutput : LogOutput σ) (args : CmdLineArgs) (calls : List LogCall) (s : LogState σ) :
    Except LogError (LogState σ) :=
  let settings := initLogger args logOutput
  (logInitSettings spdlog settings s).map fun (logger, s) =>
    let (_, effects) :=
      (CmdLineProcessor.new strpy).process { logfile := settings.logfile, processId } args
    let s := effects.foldl (performEffect fmt spdlog logger) s
    calls.foldl (fun s call => logger.log fmt spdlog call.1 call.2 s) s

/-! ## What is meant -/

def game : ArgName strpy := argName strpy ['g', 'a', 'm', 'e'] (by decide) (by decide) (by decide)

def conclearlog : ArgName strpy :=
  argName strpy "conclearlog".toList (by decide) (by decide) (by decide)

def pidfile : ArgName strpy := argName strpy "pidfile".toList (by decide) (by decide) (by decide)

/-- The log file: in the directory of the game, if one is named. -/
def logFile (ts : List strpy.Token) : Str :=
  match readOption game ts with
  | some o => o.chars ++ '/' :: "qconsole.log".toList
  | none => "qconsole.log".toList

/-- The file that gets the process id. -/
def pidFile (ts : List strpy.Token) : Option Str :=
  (readOption pidfile (codeTokens ts)).map Word.chars

/-- What the file gets of these messages. -/
def logLines (calls : List LogCall) : Str :=
  (calls.filter fun call => LogLevel.info.value ≤ call.1.value).flatMap fun call =>
    formatted call.1 call.2

/-- The message of a write that fails. -/
def writeErrorCall (path : Str) (error : FileWriteErrorCode) : LogCall :=
  (.error, (writeErrorText error).1 ++ path ++ (writeErrorText error).2)

/-- The messages of `process`, where the log can be written. -/
def processErrors (fs : FileSystem) (ts : List strpy.Token) : List LogCall :=
  (pidFile ts).toList.flatMap fun path =>
    (fs.writeFault path).toList.map fun fault => writeErrorCall path fault.error

/-- What the log file holds after the run. -/
def logContent (fs : FileSystem) (ts : List strpy.Token) (calls : List LogCall) (old : Str) : Str :=
  (if hasArg conclearlog ts then [] else old) ++ logLines (processErrors fs ts ++ calls)

/-- Words in which one of the names occurs are its argument. -/
structure ClearLog (ts : List strpy.Token) : Prop where
  names : ClearNames ts
  condebug : Unambiguous condebug ts
  game : Unambiguous game ts
  conclearlog : Unambiguous conclearlog ts
  pidfile : Unambiguous pidfile ts

instance (ts : List strpy.Token) : Decidable (ClearLog ts) :=
  decidable_of_iff
    (ClearNames ts ∧ Unambiguous condebug ts ∧ Unambiguous game ts ∧ Unambiguous conclearlog ts ∧
      Unambiguous pidfile ts)
    ⟨fun h => ⟨h.1, h.2.1, h.2.2.1, h.2.2.2.1, h.2.2.2.2⟩,
      fun h => ⟨h.names, h.condebug, h.game, h.conclearlog, h.pidfile⟩⟩

section log

variable (fmt : Fmt) (spdlog : Spdlog σ) {ts : List strpy.Token} {logger : Logger σ}
  {s : LogState σ} {conDebug : Bool} {logfile : Str}

/-! ## The logger -/

/-- The log file got a text, if there is one, and nothing else was written. -/
structure Logged (conDebug : Bool) (logfile text : Str) (fs fs' : FileSystem) : Prop where
  fault : fs'.writeFault = fs.writeFault
  content : ∀ path, fs'.content path =
    if conDebug = true ∧ path = logfile then fs.content path ++ text else fs.content path

theorem logged_nil (fs : FileSystem) : Logged conDebug logfile [] fs fs :=
  ⟨rfl, fun path => by rw [List.append_nil, ite_self]⟩

theorem Logged.trans {text text' : Str} {fs fs' fs'' : FileSystem}
    (h : Logged conDebug logfile text fs fs') (h' : Logged conDebug logfile text' fs' fs'') :
    Logged conDebug logfile (text ++ text') fs fs'' := by
  refine ⟨h'.fault.trans h.fault, fun path => ?_⟩
  rw [h'.content, h.content]
  split
  · exact List.append_assoc _ _ _
  · rfl

theorem logged_put (fs : FileSystem) (text : Str) :
    Logged true logfile text fs (fs.put logfile (fs.content logfile ++ text)) := by
  refine ⟨rfl, fun path => ?_⟩
  by_cases hpath : path = logfile
  · rw [hpath, content_put, if_pos ⟨rfl, rfl⟩]
  · rw [content_put_of_ne fs _ hpath, if_neg fun h => hpath h.2]

theorem logLines_singleton (call : LogCall) :
    logLines [call] =
      if LogLevel.info.value ≤ call.1.value then formatted call.1 call.2 else [] := by
  unfold logLines
  by_cases hlevel : LogLevel.info.value ≤ call.1.value <;> simp [hlevel]

theorem logLines_append (calls calls' : List LogCall) :
    logLines (calls ++ calls') = logLines calls ++ logLines calls' := by
  unfold logLines
  rw [List.filter_append, List.flatMap_append]

/-- The sinks of the two kinds of logger. -/
theorem sinks_logger (conDebug : Bool) (logfile : Str) (logOutput : LogOutput σ) :
    (conDebugSettings conDebug logfile logOutput).logger.sinks =
      .logOutputSink logOutput :: if conDebug then [.basicFileSink logfile] else [] := by
  have hview : LogDestination.view.includes .view := by decide
  have hfile : ¬ LogDestination.view.includes .file := by decide
  have hboth : LogDestination.viewAndFile.includes .view ∧
      LogDestination.viewAndFile.includes .file := by decide
  cases conDebug with
  | false => simp [conDebugSettings, LogSettings.logger, hview, hfile]
  | true => simp [conDebugSettings, LogSettings.logger, hboth.1, hboth.2]

/-- What a message does to the files, where the log can be written. -/
theorem logged_log (logOutput : LogOutput σ) (call : LogCall)
    (hwrites : conDebug = true → s.fs.writeFault logfile = none) :
    Logged conDebug logfile (logLines [call]) s.fs
      ((conDebugSettings conDebug logfile logOutput).logger.log fmt spdlog call.1 call.2 s).fs := by
  have hlevel : (conDebugSettings conDebug logfile logOutput).logger.level = .info := by
    cases conDebug <;> rfl
  rw [logLines_singleton, log_eq_foldl, hlevel, sinks_logger]
  have hview := fs_served_logOutputSink fmt spdlog call.1 call.2 s logOutput
  split
  · cases conDebug with
    | false =>
      rw [if_neg (by simp), List.foldl_cons, List.foldl_nil, hview]
      exact ⟨rfl, fun path => by rw [if_neg (by simp)]⟩
    | true =>
      rw [if_pos rfl, List.foldl_cons, List.foldl_cons, List.foldl_nil,
        served_basicFileSink _ _ _ _ _ (by rw [hview]; exact hwrites rfl), hview]
      exact logged_put s.fs _
  · exact logged_nil s.fs

/-- What messages do, one after the other. -/
theorem logged_logs (logOutput : LogOutput σ) (calls : List LogCall)
    (hwrites : conDebug = true → s.fs.writeFault logfile = none) :
    Logged conDebug logfile (logLines calls) s.fs
      (calls.foldl (fun s call => (conDebugSettings conDebug logfile logOutput).logger.log fmt
        spdlog call.1 call.2 s) s).fs := by
  induction calls generalizing s with
  | nil => exact logged_nil s.fs
  | cons call calls ih =>
    have hcall := logged_log fmt spdlog logOutput call hwrites
    rw [List.foldl_cons, ← List.singleton_append, logLines_append]
    exact hcall.trans (ih fun hdebug => by rw [hcall.fault]; exact hwrites hdebug)

theorem format_field {t w : Str} (ht : noBraces t = true) (hw : noBraces w = true) (arg : Str) :
    fmt.format (t ++ '{' :: '}' :: w) [arg] = .ok (t ++ arg ++ w) := by
  have h := fmt.format_fields t [(arg, w)] ht (by simpa using hw)
  simpa [spell, fill] using h

/-- What comes of a write that fails is in the log. -/
theorem logged_handleWriteError (logOutput : LogOutput σ) (errorCode : Option FileWriteErrorCode)
    (path : Str) (hwrites : conDebug = true → s.fs.writeFault logfile = none) :
    Logged conDebug logfile (logLines (errorCode.toList.map (writeErrorCall path))) s.fs
      (handleWriteError fmt spdlog (conDebugSettings conDebug logfile logOutput).logger errorCode
        path s).fs := by
  cases errorCode with
  | none => exact logged_nil s.fs
  | some error =>
    have hmessage : fmt.format ((writeErrorText error).1 ++ '{' :: '}' :: (writeErrorText error).2)
        [path] = .ok (writeErrorCall path error).2 :=
      format_field fmt (by cases error <;> decide) (by cases error <;> decide) path
    unfold handleWriteError logErrorPath
    dsimp only
    rw [hmessage]
    exact logged_log fmt spdlog logOutput (writeErrorCall path error) hwrites

/-- The error of a write is that of the fault its path runs into. -/
theorem write_error (fs : FileSystem) (path content : Str) (append : Bool) :
    (fs.write path content append).1 = (fs.writeFault path).map WriteFault.error := by
  unfold FileSystem.write
  dsimp only
  split <;> simp_all

/-! ## The effects of the handlers -/

theorem process_effects (env : Environment) (args : CmdLineArgs) :
    ((CmdLineProcessor.new strpy).process env args).2 =
      (conClearLogHandler env (processArgs strpy env args)).2 ++
        (pidFileHandler env (processArgs strpy env args)).2 ++
        (ignoreSigIntHandler env (processArgs strpy env args)).2 := by
  have hclear : ∀ args, (conClearLogHandler env args).1 = args := by
    intro args
    unfold conClearLogHandler
    split
    · rfl
    · split <;> rfl
  have hpid : ∀ args, (pidFileHandler env args).1 = args := by
    intro args
    unfold pidFileHandler
    split
    · rfl
    · split <;> rfl
  have hfps : ∀ args, (targetFpsHandler strpy env args).2 = [] := by
    intro args
    unfold targetFpsHandler
    split <;> rfl
  rw [processArgs_eq]
  simp [CmdLineProcessor.process, CmdLineProcessor.new, CmdLineProcessor.addHandler, hclear, hpid,
    hfps, consoleHandler, noMiniDumpsHandler, steamHandler, conDebugHandler]

/-- The names that are read behind `process`. -/
def readNames : List Str := ["conclearlog".toList, "pidfile".toList]

theorem readNames_clear : ∀ name ∈ readNames, ∀ x ∈ handlerTokens,
    ¬ ('+' :: name <:+: x ∨ '-' :: name <:+: x) := by
  decide

/-- `process` puts in nothing that mentions them. -/
theorem unambiguous_read {n : ArgName strpy} (hn : n.chars ∈ readNames) (h : Unambiguous n ts) :
    Unambiguous n (codeTokens ts) := by
  have hput : ∀ t : strpy.Token, t.chars ∈ handlerTokens → ¬ Mentions n t.chars := fun t ht =>
    readNames_clear _ hn _ ht
  refine Unambiguous.cons (fun hm => ?_) (Unambiguous.append ?_ ?_)
  · exact absurd hm (hput steamArg (by decide : "-steam".toList ∈ handlerTokens))
  · exact h.of_subset (dropArgs_sublist _ ts).subset
  · intro t ht hm
    unfold ticrate at ht
    split at ht
    · rcases List.mem_cons.mp ht with rfl | ht
      · exact absurd hm (hput sysTicrateArg (by decide : "+sys_ticrate".toList ∈ handlerTokens))
      · rw [List.mem_singleton.mp ht] at hm
        exact absurd hm (hput zero (by decide : "0".toList ∈ handlerTokens))
    · exact absurd ht List.not_mem_nil

theorem hasArg_conclearlog (ts : List strpy.Token) :
    hasArg conclearlog (codeTokens ts) = hasArg conclearlog ts := by
  have hne : ∀ n ∈ handledNames ts, (conclearlog : ArgName strpy).chars ≠ n.chars := by
    intro n hn
    exact (by decide : ∀ x ∈ ["steam".toList, "pingboost".toList, "sys_ticrate".toList,
      "condebug".toList], "conclearlog".toList ≠ x) _ (chars_mem_of_mem_handledNames hn)
  have hticrate : (ticrate ts).any (isArg conclearlog) = false := by
    unfold ticrate
    split
    · rfl
    · rfl
  have hsteam : isArg conclearlog (steamArg : strpy.Token) = false := rfl
  unfold hasArg codeTokens
  rw [List.any_cons, List.any_append, hticrate, hsteam, Bool.false_or, Bool.or_false]
  exact any_dropArgs (distinct_handledNames ts) hne ts

/-- What the settings are made of. -/
theorem initLogger_flat (hclear : ClearLog ts) (logOutput : LogOutput σ) :
    initLogger ⟨flat ' ' ts⟩ logOutput =
      conDebugSettings (hasArg condebug ts) (logFile ts) logOutput := by
  have hcondebug := contains_flat (a := "-condebug".toList) (Or.inr (Or.inr rfl)) hclear.condebug
  have hgame := getArgumentOption_flat (a := "-game".toList) (Or.inr (Or.inr rfl)) hclear.game
  unfold initLogger logFile
  rw [hcondebug, hgame]
  cases readOption game ts with
  | none => rfl
  | some o => simp [o.ne_nil]

/-- The effect of the handler of `-conclearlog`. -/
def clearEffects (logfile : Str) (ts : List strpy.Token) : List Effect :=
  if !logfile.isEmpty && hasArg conclearlog ts then [.write logfile [] false] else []

theorem conClearLogHandler_flat (env : Environment) (hclear : ClearLog ts) :
    (conClearLogHandler env ⟨flat ' ' (codeTokens ts)⟩).2 = clearEffects env.logfile ts := by
  have hcontains := contains_flat (a := "conclearlog".toList) (Or.inl rfl)
    (unambiguous_read (by decide : "conclearlog".toList ∈ readNames) hclear.conclearlog)
  rw [hasArg_conclearlog] at hcontains
  unfold conClearLogHandler clearEffects
  rw [hcontains]
  cases env.logfile.isEmpty with
  | true => rfl
  | false => cases hasArg conclearlog ts <;> rfl

/-- The text of the file with the process id. -/
def pidText (processId : Nat) : Str := (toString processId).toList ++ ['\n']

theorem pidFileHandler_flat (env : Environment) (hclear : ClearLog ts) :
    (pidFileHandler env ⟨flat ' ' (codeTokens ts)⟩).2 =
      (pidFile ts).toList.map fun path => .write path (pidText env.processId) false := by
  have hoption := getArgumentOption_flat (a := "pidfile".toList) (Or.inl rfl)
    (unambiguous_read (by decide : "pidfile".toList ∈ readNames) hclear.pidfile)
  unfold pidFileHandler pidFile
  rw [hoption]
  cases readOption pidfile (codeTokens ts) with
  | none => rfl
  | some o => simp [o.ne_nil, pidText]

theorem perform_ignoreSigInt (env : Environment) (args : CmdLineArgs) :
    (ignoreSigIntHandler env args).2.foldl (performEffect fmt spdlog logger) s = s := by
  unfold ignoreSigIntHandler
  split <;> rfl

/-! ## The run -/

theorem logFile_isEmpty (ts : List strpy.Token) : (logFile ts).isEmpty = false := by
  unfold logFile
  split
  · exact List.isEmpty_eq_false_iff.mpr (by simp)
  · decide

/-- The log file is opened, which changes no content, or the exception leaves `log_init`. -/
theorem logInit_logged (logOutput : LogOutput σ)
    (hopens : conDebug = true → s.fs.opens logfile = true) :
    ∃ s', logInitSettings spdlog (conDebugSettings conDebug logfile logOutput) s =
        .ok ((conDebugSettings conDebug logfile logOutput).logger, s') ∧
      Logged conDebug logfile [] s.fs s'.fs := by
  have hview : ¬ LogDestination.view.includes .file := by decide
  have hboth : LogDestination.viewAndFile.includes .file := by decide
  cases conDebug with
  | false => exact ⟨s, if_neg hview, logged_nil s.fs⟩
  | true =>
    have hopen := spdlog.openFile_ok logfile s.fs (hopens rfl)
    refine ⟨{ s with fs := s.fs.put logfile (s.fs.content logfile) }, ?_, ?_⟩
    · refine (if_pos hboth).trans ?_
      show (spdlog.openFile logfile s.fs).map _ = _
      rw [hopen]
      rfl
    · have hput : Logged true logfile [] s.fs (s.fs.put logfile (s.fs.content logfile ++ [])) :=
        logged_put s.fs []
      rwa [List.append_nil] at hput

theorem logInit_throws (logOutput : LogOutput σ) (hopens : s.fs.opens logfile = false) :
    logInitSettings spdlog (conDebugSettings true logfile logOutput) s = .error .spdlogEx := by
  have hboth : LogDestination.viewAndFile.includes .file := by decide
  refine (if_pos hboth).trans ?_
  show (spdlog.openFile logfile s.fs).map _ = _
  rw [spdlog.openFile_error _ _ hopens]
  rfl

/-- The handler of `-conclearlog`, where the log can be written. -/
theorem clear_effects (logOutput : LogOutput σ)
    (hwrites : hasArg condebug ts = true → s.fs.writeFault (logFile ts) = none) :
    let settings := conDebugSettings (hasArg condebug ts) (logFile ts) logOutput
    let s' := (clearEffects settings.logfile ts).foldl (performEffect fmt spdlog settings.logger) s
    s'.fs.writeFault = s.fs.writeFault ∧ ∀ path, s'.fs.content path =
      if hasArg condebug ts = true ∧ path = logFile ts ∧ hasArg conclearlog ts = true then []
      else s.fs.content path := by
  intro settings s'
  cases hdebug : hasArg condebug ts with
  | false =>
    have hlogfile : settings.logfile = [] := by
      show (conDebugSettings (hasArg condebug ts) (logFile ts) logOutput).logfile = []
      rw [hdebug]
      rfl
    have hs' : s' = s := by
      show (clearEffects settings.logfile ts).foldl _ s = s
      rw [hlogfile]
      rfl
    exact ⟨by rw [hs'], fun path => by rw [hs', if_neg (by simp)]⟩
  | true =>
    have hlogfile : settings.logfile = logFile ts := by
      show (conDebugSettings (hasArg condebug ts) (logFile ts) logOutput).logfile = _
      rw [hdebug]
      rfl
    cases hconclear : hasArg conclearlog ts with
    | false =>
      have hs' : s' = s := by
        show (clearEffects settings.logfile ts).foldl _ s = s
        rw [clearEffects, hconclear, Bool.and_false]
        rfl
      exact ⟨by rw [hs'], fun path => by rw [hs', if_neg (by simp)]⟩
    | true =>
      have hs' : s'.fs = s.fs.put (logFile ts) [] := by
        show ((clearEffects settings.logfile ts).foldl _ s).fs = _
        rw [clearEffects, hconclear, hlogfile, logFile_isEmpty]
        show (tryFileWrite fmt spdlog settings.logger (logFile ts) [] false s).fs = _
        unfold tryFileWrite fileWrite
        rw [write_of_no_fault (hwrites hdebug)]
        rfl
      refine ⟨by rw [hs', writeFault_put], fun path => ?_⟩
      rw [hs']
      by_cases hpath : path = logFile ts
      · rw [hpath, content_put, if_pos ⟨rfl, rfl, rfl⟩]
      · rw [content_put_of_ne _ _ hpath, if_neg fun h => hpath h.2.1]

/-- And that of `-pidfile`: what becomes of the file, and the message if it fails. -/
theorem pid_effects (processId : Nat) (logOutput : LogOutput σ)
    (hpid : ∀ path ∈ pidFile ts, path ≠ logFile ts)
    (hwrites : hasArg condebug ts = true → s.fs.writeFault (logFile ts) = none) :
    let logger := (conDebugSettings (hasArg condebug ts) (logFile ts) logOutput).logger
    let s' := ((pidFile ts).toList.map fun path =>
      Effect.write path (pidText processId) false).foldl (performEffect fmt spdlog logger) s
    s'.fs.writeFault = s.fs.writeFault ∧ ∀ path, s'.fs.content path =
      if hasArg condebug ts = true ∧ path = logFile ts then
        s.fs.content path ++ logLines (processErrors s.fs ts)
      else if path ∈ pidFile ts then (s.fs.write path (pidText processId) false).2.content path
      else s.fs.content path := by
  intro logger s'
  cases hfile : pidFile ts with
  | none =>
    have hs' : s' = s := by
      show List.foldl _ s ((pidFile ts).toList.map _) = s
      rw [hfile]
      rfl
    have herrors : processErrors s.fs ts = [] := by rw [processErrors, hfile]; rfl
    refine ⟨by rw [hs'], fun path => ?_⟩
    rw [hs', herrors, if_neg (Option.not_mem_none path)]
    split
    · exact (List.append_nil _).symm
    · rfl
  | some p =>
    have hne : logFile ts ≠ p := (hpid p hfile).symm
    have hs' : s' = handleWriteError fmt spdlog logger
        (s.fs.write p (pidText processId) false).1 p
        { s with fs := (s.fs.write p (pidText processId) false).2 } := by
      show List.foldl _ s ((pidFile ts).toList.map _) = _
      rw [hfile]
      rfl
    have herrors : processErrors s.fs ts =
        (s.fs.write p (pidText processId) false).1.toList.map (writeErrorCall p) := by
      rw [processErrors, hfile, write_error, Option.toList_some, List.flatMap_singleton]
      cases s.fs.writeFault p <;> rfl
    have hwrites' : hasArg condebug ts = true →
        (s.fs.write p (pidText processId) false).2.writeFault (logFile ts) = none := by
      intro hdebug
      rw [writeFault_write]
      exact hwrites hdebug
    have hlogged := logged_handleWriteError fmt spdlog
      (s := { s with fs := (s.fs.write p (pidText processId) false).2 }) logOutput
      (s.fs.write p (pidText processId) false).1 p hwrites'
    rw [← hs', ← herrors] at hlogged
    refine ⟨hlogged.fault.trans (writeFault_write _ _ _ _), fun path => ?_⟩
    rw [hlogged.content]
    by_cases hlog : hasArg condebug ts = true ∧ path = logFile ts
    · rw [if_pos hlog, if_pos hlog, hlog.2, content_write_of_ne _ _ _ hne]
    · rw [if_neg hlog, if_neg hlog]
      by_cases hpath : path = p
      · rw [if_pos (Option.mem_some.mpr hpath.symm), hpath]
      · have hnot : path ∉ some p := fun h => hpath (Option.some.inj h).symm
        rw [if_neg hnot]
        exact content_write_of_ne _ _ _ hpath

/-- The effects of the handlers and the messages behind them, once the log file is open. -/
theorem effects_then_calls (processId : Nat) (logOutput : LogOutput σ)
    (hpid : ∀ path ∈ pidFile ts, path ≠ logFile ts) (calls : List LogCall)
    (hwrites : hasArg condebug ts = true → s.fs.writeFault (logFile ts) = none) (path : Str) :
    let settings := conDebugSettings (hasArg condebug ts) (logFile ts) logOutput
    let cleared := (clearEffects settings.logfile ts).foldl
      (performEffect fmt spdlog settings.logger) s
    let written := ((pidFile ts).toList.map fun path =>
      Effect.write path (pidText processId) false).foldl
        (performEffect fmt spdlog settings.logger) cleared
    (calls.foldl (fun s call => settings.logger.log fmt spdlog call.1 call.2 s) written).fs.content
        path =
      if hasArg condebug ts = true ∧ path = logFile ts then
        logContent s.fs ts calls (s.fs.content path)
      else if path ∈ pidFile ts then
        (fileWrite s.fs path (pidText processId) false).2.content path
      else s.fs.content path := by
  intro settings cleared written
  obtain ⟨hfault, hcleared⟩ := clear_effects fmt spdlog logOutput hwrites
  have hwrites' : hasArg condebug ts = true → cleared.fs.writeFault (logFile ts) = none :=
    fun hdebug => (congrFun hfault _).trans (hwrites hdebug)
  obtain ⟨hfault', hwritten⟩ := pid_effects fmt spdlog (s := cleared) processId logOutput hpid
    hwrites'
  have hlogged := logged_logs fmt spdlog (s := written) logOutput calls
    fun hdebug : hasArg condebug ts = true => (congrFun hfault' _).trans (hwrites' hdebug)
  have herrors : processErrors cleared.fs ts = processErrors s.fs ts := by
    rw [processErrors, hfault, processErrors]
  refine (hlogged.content path).trans ?_
  rw [hwritten, herrors]
  by_cases hlog : hasArg condebug ts = true ∧ path = logFile ts
  · rw [if_pos hlog, if_pos hlog, if_pos hlog, hcleared, logContent, logLines_append,
      List.append_assoc]
    by_cases hconclear : hasArg conclearlog ts = true
    · rw [if_pos hconclear, if_pos ⟨hlog.1, hlog.2, hconclear⟩]
    · rw [if_neg hconclear, if_neg fun h => hconclear h.2.2]
  · have hsame : cleared.fs.content path = s.fs.content path := by
      rw [hcleared, if_neg fun h => hlog ⟨h.1, h.2.1⟩]
    rw [if_neg hlog, if_neg hlog, if_neg hlog, content_write_congr hfault hsame, hsame]
    rfl

end log

/-- `-game cstrike -condebug -conclearlog -pidfile hlds.pid` -/
def logLineTokens : List asciiStrpy.Token :=
  asciiStrpy.tokens ["-game".toList, "cstrike".toList, "-condebug".toList, "-conclearlog".toList,
    "-pidfile".toList, "hlds.pid".toList] (by decide)

/-- An old log, and a disk that takes three bytes of the process id. -/
def fullDisk : FileSystem where
  files := [("cstrike/qconsole.log".toList, { content := "old".toList })]
  writeFault path := if path = "hlds.pid".toList then some ⟨.writeError, 3⟩ else none

end RehldsM.Core
