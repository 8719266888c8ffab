import RehldsM.Util.File
import RehldsM.Util.Fmt

/-
  The logger (libs/util/include/util/logger.hpp, libs/util/src/util/logger.cpp) over `spdlog`,
  which is not part of the repository.

  `Spdlog` is the package as a parameter: its file sink, and a logger that hands a message to its
  sinks in turn, catches what they throw and reports it (`errors` counts that). `spdlog::info`
  with a single string hands it to the sinks as it is. A sink formats it and passes it on.
  `plainSpdlog` is one such package.
-/

namespace RehldsM.Util

inductive LogLevel where
  | trace
  | debug
  | info
  | warn
  | error
  | critical
  | off
deriving DecidableEq

/-- The value of the enumerator. -/
def LogLevel.value : LogLevel → Nat
  | .trace => 0
  | .debug => 1
  | .info => 2
  | .warn => 3
  | .error => 4
  | .critical => 5
  | .off => 6

/-- `LogDestination`: a set of flags. -/
abbrev LogDestination := Nat

namespace LogDestination

def view : LogDestination := 1 <<< 0

def file : LogDestination := 1 <<< 1

def viewAndFile : LogDestination := view ||| file

def includes (output flag : LogDestination) : Prop := output &&& flag = flag

instance (output flag : LogDestination) : Decidable (output.includes flag) :=
  inferInstanceAs (Decidable (_ = _))

end LogDestination

/-- `write_log` of a `LogOutput` with state `σ`. -/
abbrev LogOutput (σ : Type) := Str → σ → Except FormatError σ

structure LogSettings (σ : Type) where
  level : LogLevel := .info
  flushOn : LogLevel := .trace
  output : LogDestination := .view
  logfile : Str := []
  logOutput : LogOutput σ

inductive Sink (σ : Type) where
  | logOutputSink (logOutput : LogOutput σ)
  | basicFileSink (logfile : Str)

structure Logger (σ : Type) where
  sinks : List (Sink σ)
  flushOn : LogLevel
  level : LogLevel

/-- What leaves a sink: an exception of `fmt` or of `spdlog`. -/
inductive LogError where
  | formatError
  | spdlogEx
deriving DecidableEq

/-- What the logger writes to, and how many exceptions it has reported. -/
structure LogState (σ : Type) where
  view : σ
  fs : FileSystem
  errors : Nat

/-- `spdlog`, for sinks that write to a view with state `σ` and to files. -/
structure Spdlog (σ : Type) where
  /-- The constructor of `basic_file_sink`. -/
  openFile : Str → FileSystem → Except LogError FileSystem
  /-- What `basic_file_sink` does with a formatted text, which is flushed at once. -/
  appendFile : Str → Str → FileSystem → Except LogError FileSystem
  /-- `logger::log` of a logger with this level and these sinks. -/
  log : LogLevel → List (LogLevel → Str → LogState σ → Except LogError (LogState σ)) →
    LogLevel → Str → LogState σ → LogState σ
  /-- The file is opened to be appended to; it is made if there is none. -/
  openFile_ok : ∀ path fs, fs.opens path = true →
    openFile path fs = .ok (fs.put path (fs.content path))
  openFile_error : ∀ path fs, fs.opens path = false → openFile path fs = .error .spdlogEx
  appendFile_ok : ∀ path text fs, fs.writeFault path = none →
    appendFile path text fs = .ok (fs.put path (fs.content path ++ text))
  appendFile_error : ∀ path text fs, fs.writeFault path ≠ none →
    appendFile path text fs = .error .spdlogEx
  /-- A message below the level of the logger is dropped. -/
  log_below : ∀ threshold sinks level payload s, ¬ threshold.value ≤ level.value →
    log threshold sinks level payload s = s
  log_nil : ∀ threshold level payload s, log threshold [] level payload s = s
  log_ok : ∀ threshold sink sinks level payload s s', threshold.value ≤ level.value →
    sink level payload s = .ok s' →
      log threshold (sink :: sinks) level payload s = log threshold sinks level payload s'
  /-- What a sink throws is reported, and the next one is served. -/
  log_error : ∀ threshold sink sinks level payload s error, threshold.value ≤ level.value →
    sink level payload s = .error error →
      log threshold (sink :: sinks) level payload s =
        log threshold sinks level payload { s with errors := s.errors + 1 }

/-- The logger that `log_init(settings)` makes. -/
def LogSettings.logger {σ : Type} (settings : LogSettings σ) : Logger σ where
  sinks :=
    (if settings.output.includes .view then [.logOutputSink settings.logOutput] else []) ++
      if settings.output.includes .file then [.basicFileSink settings.logfile] else []
  flushOn := settings.flushOn
  level := settings.level

/-- `log_init(settings)`: an exception of the file sink leaves it. -/
def logInitSettings {σ : Type} (spdlog : Spdlog σ) (settings : LogSettings σ) (s : LogState σ) :
    Except LogError (Logger σ × LogState σ) :=
  if settings.output.includes .file then
    (spdlog.openFile settings.logfile s.fs).map fun fs => (settings.logger, { s with fs })
  else .ok (settings.logger, s)

/-- The settings that `log_init(con_debug, logfile, log_output)` calls `log_init` with. -/
def conDebugSettings {σ : Type} (conDebug : Bool) (logfile : Str) (logOutput : LogOutput σ) :
    LogSettings σ :=
  let settings : LogSettings σ := { logOutput }
  if conDebug then { settings with logfile, output := .viewAndFile } else settings

namespace Formatter

def prefixes : LogLevel → Option Str
  | .debug => some "DEBUG".toList
  | .warn => some "WARNING".toList
  | .error => some "ERROR".toList
  | .critical => some "FATAL ERROR".toList
  | .trace | .info | .off => none

/-- `Formatter::format`. -/
def format (fmt : Fmt) (level : LogLevel) (payload : Str) : Except FormatError Str := do
  let levelText ←
    match prefixes level with
    | none => pure []
    | some text => fmt.format ['[', '{', '}', ']', ' '] [text]
  let formattedMsg ← fmt.format ['{', '}', '{', '}'] [levelText, payload]
  return if level = .info then formattedMsg else formattedMsg ++ ['\n']

end Formatter

section sinks

variable {σ : Type}

/-- An exception of `fmt` on its way out of a sink. -/
def thrown {α : Type} (x : Except FormatError α) : Except LogError α :=
  x.mapError fun _ => .formatError

/-- `sink_it_`. -/
def Sink.sinkIt (fmt : Fmt) (spdlog : Spdlog σ) (sink : Sink σ) (level : LogLevel) (payload : Str)
    (s : LogState σ) : Except LogError (LogState σ) := do
  let formatted ← thrown (Formatter.format fmt level payload)
  match sink with
  | .logOutputSink logOutput => return { s with view := ← thrown (logOutput formatted s.view) }
  | .basicFileSink logfile => return { s with fs := ← spdlog.appendFile logfile formatted s.fs }

def Logger.log (fmt : Fmt) (spdlog : Spdlog σ) (logger : Logger σ) (level : LogLevel)
    (payload : Str) (s : LogState σ) : LogState σ :=
  spdlog.log logger.level (logger.sinks.map (Sink.sinkIt fmt spdlog)) level payload s

/-- `log_info` without arguments. -/
def Logger.logInfo (fmt : Fmt) (spdlog : Spdlog σ) (logger : Logger σ) (str : Str)
    (s : LogState σ) : LogState σ :=
  logger.log fmt spdlog .info str s

end sinks

/-! ## The formatter -/

theorem format_level (fmt : Fmt) (text : Str) :
    fmt.format ['[', '{', '}', ']', ' '] [text] = .ok (['['] ++ text ++ [']', ' ']) := by
  have h := fmt.format_fields ['['] [(text, [']', ' '])] rfl (by simp [noBraces, isBrace])
  simpa [spell, fill] using h

theorem format_payload (fmt : Fmt) (levelText payload : Str) :
    fmt.format ['{', '}', '{', '}'] [levelText, payload] = .ok (levelText ++ payload) := by
  have h := fmt.format_fields [] [(levelText, []), (payload, [])] rfl (by simp [noBraces, isBrace])
  simpa [spell, fill] using h

/-- The formatter never fails: the payload is an argument to it, whatever its text. -/
theorem format_eq (fmt : Fmt) (level : LogLevel) (payload : Str) :
    Formatter.format fmt level payload =
      .ok (((Formatter.prefixes level).elim [] fun text => ['['] ++ text ++ [']', ' ']) ++
        payload ++ if level = .info then [] else ['\n']) := by
  unfold Formatter.format
  cases level <;>
    simp only [Formatter.prefixes, Option.elim, format_level, format_payload, List.nil_append,
      List.append_nil, pure_bind, if_true, if_false, reduceCtorEq] <;> rfl

/-! ## The sinks -/

section sinks

variable {σ : Type} (fmt : Fmt) (spdlog : Spdlog σ) (level : LogLevel) (payload : Str)
  (s : LogState σ)

/-- What is left of the state when the logger is through with one sink. -/
def Sink.served (sink : Sink σ) : LogState σ :=
  match sink.sinkIt fmt spdlog level payload s with
  | .ok s' => s'
  | .error _ => { s with errors := s.errors + 1 }

/-- The sinks are served in turn. -/
theorem log_eq_foldl (logger : Logger σ) :
    logger.log fmt spdlog level payload s =
      if logger.level.value ≤ level.value then
        logger.sinks.foldl (fun s sink => sink.served fmt spdlog level payload s) s
      else s := by
  unfold Logger.log
  split
  · rename_i hlevel
    induction logger.sinks generalizing s with
    | nil => exact spdlog.log_nil _ _ _ _
    | cons sink sinks ih =>
      rw [List.map_cons, List.foldl_cons]
      cases hsink : sink.sinkIt fmt spdlog level payload s with
      | ok s' =>
        have hserved : sink.served fmt spdlog level payload s = s' := by rw [Sink.served, hsink]
        rw [spdlog.log_ok _ _ _ _ _ _ _ hlevel hsink, ih, hserved]
      | error error =>
        have hserved : sink.served fmt spdlog level payload s =
            { s with errors := s.errors + 1 } := by rw [Sink.served, hsink]
        rw [spdlog.log_error _ _ _ _ _ _ _ hlevel hsink, ih, hserved]
  · rename_i hlevel
    exact spdlog.log_below _ _ _ _ _ hlevel

/-- The text a sink gets from the formatter. -/
def formatted : Str :=
  ((Formatter.prefixes level).elim [] fun text => ['['] ++ text ++ [']', ' ']) ++ payload ++
    if level = .info then [] else ['\n']

theorem served_logOutputSink (logOutput : LogOutput σ) :
    (Sink.logOutputSink logOutput).served fmt spdlog level payload s =
      match logOutput (formatted level payload) s.view with
      | .ok view => { s with view }
      | .error _ => { s with errors := s.errors + 1 } := by
  unfold Sink.served Sink.sinkIt
  rw [format_eq]
  show (match (thrown (logOutput (formatted level payload) s.view) >>= fun view =>
    (.ok { s with view } : Except LogError (LogState σ))) with | .ok s' => s' | .error _ => _) = _
  cases logOutput (formatted level payload) s.view <;> rfl

theorem served_basicFileSink {logfile : Str} (hwrites : s.fs.writeFault logfile = none) :
    (Sink.basicFileSink logfile).served fmt spdlog level payload s =
      { s with fs := s.fs.put logfile (s.fs.content logfile ++ formatted level payload) } := by
  unfold Sink.served Sink.sinkIt
  rw [format_eq]
  show (match (spdlog.appendFile logfile (formatted level payload) s.fs >>= fun fs =>
    (.ok { s with fs } : Except LogError (LogState σ))) with | .ok s' => s' | .error _ => _) = _
  rw [spdlog.appendFile_ok _ _ _ hwrites]
  rfl

theorem served_basicFileSink_fault {logfile : Str} (hfault : s.fs.writeFault logfile ≠ none) :
    (Sink.basicFileSink logfile).served fmt spdlog level payload s =
      { s with errors := s.errors + 1 } := by
  unfold Sink.served Sink.sinkIt
  rw [format_eq]
  show (match (spdlog.appendFile logfile (formatted level payload) s.fs >>= fun fs =>
    (.ok { s with fs } : Except LogError (LogState σ))) with | .ok s' => s' | .error _ => _) = _
  rw [spdlog.appendFile_error _ _ _ hfault]
  rfl

/-- The files are not the view's business. -/
theorem fs_served_logOutputSink (logOutput : LogOutput σ) :
    ((Sink.logOutputSink logOutput).served fmt spdlog level payload s).fs = s.fs := by
  rw [served_logOutputSink]
  split <;> rfl

theorem formatted_info : formatted .info payload = payload := by
  simp [formatted, Formatter.prefixes]

end sinks

/-! ## A package -/

def plainSpdlog (σ : Type) : Spdlog σ where
  openFile path fs :=
    if fs.opens path then .ok (fs.put path (fs.content path)) else .error .spdlogEx
  appendFile path text fs :=
    match fs.writeFault path with
    | none => .ok (fs.put path (fs.content path ++ text))
    | some _ => .error .spdlogEx
  log threshold sinks level payload s :=
    if threshold.value ≤ level.value then
      sinks.foldl (fun s sink =>
        match sink level payload s with
        | .ok s' => s'
        | .error _ => { s with errors := s.errors + 1 }) s
    else s
  openFile_ok _ _ h := if_pos h
  openFile_error _ _ h := if_neg (by simp [h])
  appendFile_ok _ _ _ h := by rw [h]
  appendFile_error path text fs h := by
    obtain ⟨fault, hfault⟩ := Option.ne_none_iff_exists'.mp h
    rw [hfault]
  log_below _ _ _ _ _ h := if_neg h
  log_nil _ _ _ s := ite_self s
  log_ok _ _ _ _ _ _ _ hlevel hsink := by rw [if_pos hlevel, if_pos hlevel, List.foldl_cons, hsink]
  log_error _ _ _ _ _ _ _ hlevel hsink := by
    rw [if_pos hlevel, if_pos hlevel, List.foldl_cons, hsink]

end RehldsM.Util
