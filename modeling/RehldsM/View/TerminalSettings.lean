import RehldsM.Util.Signal
import RehldsM.Util.Strings

/-
  `ScopedTerminalSettings` and `ScopedTtyRedirect`
  (libs/view/include/view/linux/terminal_settings.hpp, tty_redirect.hpp), the two objects that
  `read_input` lives between on Linux.

  Both are scopes over what the console of a process is: the terminal behind the standard input,
  the signal mask of the thread, and the buffer of `std::cout`. What the system answers to their
  calls is part of the scope.

  A constructor that cannot read the attributes goes on with attributes that are all zero, and
  these the destructor puts in place. The blocker inside of both functions unblocks `SIGTTIN` and
  `SIGTTOU` also where they were blocked before. `console_restored_iff` says that this, a
  destructor whose own call fails, and a `std::cout` without a buffer are all that can go wrong.
-/

namespace RehldsM.View

open Lib Util

/-- `termios`, without the line discipline and the speeds. -/
structure Termios where
  iflag : BitVec 32
  oflag : BitVec 32
  cflag : BitVec 32
  lflag : BitVec 32
  cc : Vector UInt8 32
deriving DecidableEq

namespace Termios

def ICANON : BitVec 32 := 0x2

def ECHO : BitVec 32 := 0x8

/-- `termios{}` -/
def zero : Termios := ⟨0, 0, 0, 0, Vector.replicate 32 0⟩

/-- No canonical mode and no echo; `VMIN` is 6 and `VTIME` is 5. -/
def modify (attributes : Termios) : Termios :=
  { attributes with
    lflag := attributes.lflag &&& ~~~(ICANON ||| ECHO)
    cc := (attributes.cc.set 6 1).set 5 0 }

/-- A key is there as soon as it is pressed, and is not echoed. -/
def IsRaw (attributes : Termios) : Prop := attributes.lflag &&& (ICANON ||| ECHO) = 0

instance (attributes : Termios) : Decidable attributes.IsRaw :=
  inferInstanceAs (Decidable (_ = _))

theorem isRaw_modify (attributes : Termios) : attributes.modify.IsRaw := by
  show attributes.lflag &&& ~~~(ICANON ||| ECHO) &&& (ICANON ||| ECHO) = 0
  rw [BitVec.and_assoc, BitVec.and_comm (~~~_), BitVec.and_not_self]
  exact BitVec.and_zero

end Termios

/-- Where `std::cout` writes to. -/
inductive StreamBuffer where
  | original
  | tty (name : Str)
deriving DecidableEq

/-- The console of a process; `terminal` is `none` where the standard input is no terminal. -/
structure Console where
  terminal : Option Termios
  mask : SignalMask linuxSignals
  coutBuffer : Option StreamBuffer
deriving DecidableEq

/-- What `tcgetattr` and `tcsetattr` answer in the constructor, and `tcsetattr` in the
    destructor. -/
structure TerminalAnswers where
  gets : Bool
  sets : Bool
  restores : Bool
deriving DecidableEq

/-- What `ctermid` returns, and whether the stream can be opened. -/
structure TtyAnswers where
  termName : Option Str
  opens : Bool
deriving DecidableEq

structure ScopedTerminalSettings where
  isStdinTerminal : Bool
  originalAttributes : Termios
  modifiedAttributes : Termios
  /-- What `tcsetattr` will answer in the destructor. -/
  restores : Bool
deriving DecidableEq

namespace ScopedTerminalSettings

def signals : List Int := [SIGTTIN, SIGTTOU]

def construct (answers : TerminalAnswers) (console : Console) :
    ScopedTerminalSettings × Console :=
  let (signalBlocker, mask) := ScopedSignalBlocker.construct signals console.mask
  let unblocked := signalBlocker.destruct mask
  match console.terminal with
  | none =>
    ({ isStdinTerminal := false
       originalAttributes := .zero
       modifiedAttributes := .zero
       restores := answers.restores },
      { console with mask := unblocked })
  | some attributes =>
    let originalAttributes := if answers.gets then attributes else .zero
    let modifiedAttributes := (if answers.gets then originalAttributes else .zero).modify
    ({ isStdinTerminal := true
       originalAttributes
       modifiedAttributes
       restores := answers.restores },
      { console with
        terminal := some (if answers.sets then modifiedAttributes else attributes)
        mask := unblocked })

def destruct (settings : ScopedTerminalSettings) (console : Console) : Console :=
  if !settings.isStdinTerminal then console
  else
    let (signalBlocker, mask) := ScopedSignalBlocker.construct signals console.mask
    { console with
      terminal :=
        if settings.restores then some settings.originalAttributes else console.terminal
      mask := signalBlocker.destruct mask }

end ScopedTerminalSettings

structure ScopedTtyRedirect where
  tty : Str
  originalBuffer : Option StreamBuffer
deriving DecidableEq

namespace ScopedTtyRedirect

/-- The name of the terminal, or `/dev/null` where there is none. -/
def ttyName (answers : TtyAnswers) (console : Console) : Str :=
  match answers.termName with
  | none => "/dev/null".toList
  | some termName =>
    if termName.isEmpty || console.terminal.isNone then "/dev/null".toList else termName

def construct (answers : TtyAnswers) (console : Console) : ScopedTtyRedirect × Console :=
  let tty := ttyName answers console
  if answers.opens then
    ({ tty, originalBuffer := console.coutBuffer }, { console with coutBuffer := some (.tty tty) })
  else ({ tty, originalBuffer := none }, console)

def destruct (redirect : ScopedTtyRedirect) (console : Console) : Console :=
  match redirect.originalBuffer with
  | some buffer => { console with coutBuffer := some buffer }
  | none => console

end ScopedTtyRedirect

/-- The scopes of the input thread, with the answers they get. -/
inductive ConsoleScope where
  | settings (answers : TerminalAnswers)
  | redirect (answers : TtyAnswers)
deriving DecidableEq

inductive ConsoleObject where
  | settings (settings : ScopedTerminalSettings)
  | redirect (redirect : ScopedTtyRedirect)
deriving DecidableEq

def consoleScope : ScopeClass ConsoleScope ConsoleObject Console where
  construct
    | .settings answers, console =>
      let (settings, console) := ScopedTerminalSettings.construct answers console
      (.settings settings, console)
    | .redirect answers, console =>
      let (redirect, console) := ScopedTtyRedirect.construct answers console
      (.redirect redirect, console)
  destruct
    | .settings settings, console => settings.destruct console
    | .redirect redirect, console => redirect.destruct console

abbrev ConsoleScopes := Scopes ConsoleScope ConsoleObject Console

/-- The destructor puts the attributes back, if `tcgetattr` has given them; without it they are as
    before only where nothing has changed them. -/
def PutsBack (answers : TerminalAnswers) (attributes : Termios) : Prop :=
  if answers.restores then answers.gets = true ∨ attributes = .zero
  else answers.sets = false ∨ (if answers.gets then attributes else .zero).modify = attributes

/-- What a scope has to find, to leave the console as it was. -/
def Restorable : ConsoleScope → Console → Prop
  | .settings answers, console =>
    SIGTTIN ∉ console.mask.signals ∧ SIGTTOU ∉ console.mask.signals ∧
      ∀ attributes ∈ console.terminal, PutsBack answers attributes
  | .redirect answers, console => answers.opens = true → console.coutBuffer ≠ none

/-- While a scope that has changed the settings is alive, the terminal is raw. -/
def StaysRaw (s : ConsoleScopes) : Prop :=
  ∀ scope ∈ s.live, ∀ answers, scope.arg = .settings answers → answers.sets = true →
    ∀ attributes ∈ s.state.terminal, attributes.IsRaw

/-! ## One scope -/

/-- The blocker of either function leaves its signals unblocked. -/
theorem blocker_eq (mask : SignalMask linuxSignals) :
    let (signalBlocker, blocked) :=
      ScopedSignalBlocker.construct ScopedTerminalSettings.signals mask
    signalBlocker.destruct blocked = mask.unblock ScopedTerminalSettings.signals.toFinset := by
  have hsignals : ∀ signal ∈ ScopedTerminalSettings.signals, linuxSignals.isSignal signal = true :=
    by decide
  have hconstruct := construct_eq hsignals mask
  rw [show ScopedSignalBlocker.construct ScopedTerminalSettings.signals mask = _ from hconstruct]
  refine SignalMask.ext_signals ?_
  ext signal
  simp only [ScopedSignalBlocker.destruct, changeSignalMask, if_true, SignalMask.unblock,
    SignalMask.block, Finset.mem_sdiff, Finset.mem_union, Finset.mem_filter]
  tauto

theorem unblock_eq_self_iff (mask : SignalMask linuxSignals) :
    mask.unblock ScopedTerminalSettings.signals.toFinset = mask ↔
      SIGTTIN ∉ mask.signals ∧ SIGTTOU ∉ mask.signals := by
  have hdisjoint : mask.unblock ScopedTerminalSettings.signals.toFinset = mask ↔
      Disjoint mask.signals ScopedTerminalSettings.signals.toFinset := by
    rw [← Finset.sdiff_eq_self_iff_disjoint]
    exact ⟨fun h => congrArg SignalMask.signals h, fun h => SignalMask.ext_signals (by exact h)⟩
  rw [hdisjoint, Finset.disjoint_right]
  simp [ScopedTerminalSettings.signals]

/-- The attributes inside of the scope. -/
def entered (answers : TerminalAnswers) (attributes : Termios) : Termios :=
  if answers.sets then (if answers.gets then attributes else .zero).modify else attributes

/-- The attributes behind it. -/
def leftBehind (answers : TerminalAnswers) (attributes : Termios) : Termios :=
  if answers.restores then (if answers.gets then attributes else .zero)
  else entered answers attributes

theorem construct_settings (answers : TerminalAnswers) (console : Console) :
    (ScopedTerminalSettings.construct answers console).2 =
      { console with
        terminal := console.terminal.map (entered answers)
        mask := console.mask.unblock ScopedTerminalSettings.signals.toFinset } := by
  have hmask := blocker_eq console.mask
  unfold ScopedTerminalSettings.construct
  dsimp only at hmask ⊢
  rw [hmask]
  obtain ⟨_ | attributes, mask, buffer⟩ := console
  · rfl
  · unfold entered
    dsimp only [Option.map_some]
    cases answers.gets <;> rfl

theorem unblock_unblock (mask : SignalMask linuxSignals) (set : SignalSet) :
    (mask.unblock set).unblock set = mask.unblock set :=
  SignalMask.ext_signals (Finset.sdiff_idem ..)

theorem destruct_settings (answers : TerminalAnswers) (console : Console) :
    (ScopedTerminalSettings.construct answers console).1.destruct
        (ScopedTerminalSettings.construct answers console).2 =
      { console with
        terminal := console.terminal.map (leftBehind answers)
        mask := console.mask.unblock ScopedTerminalSettings.signals.toFinset } := by
  have hmask := blocker_eq (console.mask.unblock ScopedTerminalSettings.signals.toFinset)
  rw [unblock_unblock] at hmask
  rw [construct_settings]
  obtain ⟨_ | attributes, mask, buffer⟩ := console
  · rfl
  · unfold ScopedTerminalSettings.destruct
    dsimp only at hmask ⊢
    rw [hmask]
    obtain ⟨gets, sets, restores⟩ := answers
    cases restores <;> rfl

theorem leftBehind_eq_iff (answers : TerminalAnswers) (attributes : Termios) :
    leftBehind answers attributes = attributes ↔ PutsBack answers attributes := by
  unfold leftBehind PutsBack entered
  cases answers.restores with
  | true =>
    cases answers.gets with
    | true => simp
    | false => simpa using eq_comm
  | false =>
    cases answers.sets with
    | true => simp
    | false => simp

theorem undone_settings_iff (answers : TerminalAnswers) (console : Console) :
    consoleScope.Undone (.settings answers) console ↔ Restorable (.settings answers) console := by
  have hundone : consoleScope.Undone (.settings answers) console ↔
      (ScopedTerminalSettings.construct answers console).1.destruct
        (ScopedTerminalSettings.construct answers console).2 = console := Iff.rfl
  rw [hundone, destruct_settings]
  obtain ⟨terminal, mask, buffer⟩ := console
  have hterminal : terminal.map (leftBehind answers) = terminal ↔
      ∀ attributes ∈ terminal, PutsBack answers attributes := by
    cases terminal with
    | none => simp
    | some attributes => simp [leftBehind_eq_iff]
  rw [Restorable, ← and_assoc, ← unblock_eq_self_iff, ← hterminal]
  simp [and_comm]

theorem undone_redirect_iff (answers : TtyAnswers) (console : Console) :
    consoleScope.Undone (.redirect answers) console ↔ Restorable (.redirect answers) console := by
  have hundone : consoleScope.Undone (.redirect answers) console ↔
      (ScopedTtyRedirect.construct answers console).1.destruct
        (ScopedTtyRedirect.construct answers console).2 = console := Iff.rfl
  rw [hundone]
  obtain ⟨terminal, mask, buffer⟩ := console
  unfold ScopedTtyRedirect.construct ScopedTtyRedirect.destruct Restorable
  cases hopens : answers.opens with
  | false => simp [hopens]
  | true => cases buffer <;> simp [hopens]

theorem undone_iff (scope : ConsoleScope) (console : Console) :
    consoleScope.Undone scope console ↔ Restorable scope console := by
  cases scope with
  | settings answers => exact undone_settings_iff answers console
  | redirect answers => exact undone_redirect_iff answers console

/-! ## All scopes -/

/-- What a scope does to the terminal it finds. -/
theorem terminal_construct (scope : ConsoleScope) (console : Console) :
    (consoleScope.construct scope console).2.terminal =
      match scope with
      | .settings answers => console.terminal.map (entered answers)
      | .redirect _ => console.terminal := by
  cases scope with
  | settings answers => exact congrArg Console.terminal (construct_settings answers console)
  | redirect answers =>
    show (ScopedTtyRedirect.construct answers console).2.terminal = _
    unfold ScopedTtyRedirect.construct
    cases answers.opens <;> rfl

/-- A raw terminal stays raw in the scopes within. -/
theorem isRaw_entered {answers : TerminalAnswers} {attributes : Termios}
    (h : answers.sets = true ∨ attributes.IsRaw) : (entered answers attributes).IsRaw := by
  unfold entered
  split
  · exact Termios.isRaw_modify _
  · rename_i hsets
    exact h.resolve_left hsets

theorem staysRaw_of_chained {s : ConsoleScopes} (h : consoleScope.Chained s.state s.live) :
    StaysRaw s := by
  obtain ⟨console, live⟩ := s
  dsimp only at h
  induction live generalizing console with
  | nil => exact List.forall_mem_nil _
  | cons scope live ih =>
    obtain ⟨hconstruct, hchain⟩ := h
    have hterminal := terminal_construct scope.arg scope.before
    rw [hconstruct] at hterminal
    dsimp only at hterminal
    have hlive := ih scope.before hchain
    have hraw : ∀ answers, scope.arg = .settings answers → ∀ attributes ∈ console.terminal,
        answers.sets = true ∨ (∀ before ∈ scope.before.terminal, before.IsRaw) →
          attributes.IsRaw := by
      intro answers harg attributes hattributes hor
      rw [hterminal, harg] at hattributes
      obtain ⟨before, hbefore, rfl⟩ := Option.mem_map.mp hattributes
      exact isRaw_entered (hor.imp_right fun hall => hall before hbefore)
    intro scope' hscope' answers harg hsets attributes hattributes
    rcases List.mem_cons.mp hscope' with rfl | hscope'
    · exact hraw answers harg attributes hattributes (Or.inl hsets)
    · have hbefore := hlive scope' hscope' answers harg hsets
      cases hscope : scope.arg with
      | settings answers' => exact hraw answers' hscope attributes hattributes (Or.inr hbefore)
      | redirect answers' =>
        rw [hterminal, hscope] at hattributes
        exact hbefore attributes hattributes

/-- In a run of nested scopes, whatever the system answers to them: where each scope finds what it
    needs, each leaves the console as it found it, and the terminal stays raw in the meantime;
    and where all scopes end, they leave the console as they found it only then. -/
theorem console_restored_iff (console : Console) (events : List (ScopeEvent ConsoleScope)) :
    let start : ConsoleScopes := ⟨console, []⟩
    let tr := traceOk consoleScope.step start events
    (Meets (ScopeClass.Entering Restorable) start tr →
        Meets consoleScope.Restores start tr ∧ Always StaysRaw start tr) ∧
      ((final start tr).live = [] → Meets consoleScope.Restores start tr →
        Meets (ScopeClass.Entering Restorable) start tr) := by
  intro start tr
  have hrun : IsRun (fun s e s' => consoleScope.step s e = .ok s') start tr :=
    (isRun_traceOk _ _ _).mono fun _ _ _ hstep => hstep.2
  have hundone : ∀ scope console, Restorable scope console → consoleScope.Undone scope console :=
    fun scope console => (undone_iff scope console).mpr
  have hstart : consoleScope.Live Restorable start := ⟨trivial, List.forall_mem_nil _⟩
  refine ⟨fun h => ⟨ScopeClass.meets_restores hundone hstart hrun h, ?_⟩, fun hend h => ?_⟩
  · exact (ScopeClass.always_live hundone hstart hrun h).mono fun s hlive =>
      staysRaw_of_chained hlive.1
  · have hentered := (ScopeClass.undone_of_restores hstart.1 hrun hend h).2
    have hsame : consoleScope.Undone = Restorable :=
      funext fun scope => funext fun console => propext (undone_iff scope console)
    rwa [hsame] at hentered

/-- A terminal in canonical mode, whose attributes could not be read, is left with zeros. -/
example :
    let console : Console :=
      ⟨some { Termios.zero with lflag := Termios.ICANON }, ⟨∅, by simp⟩, none⟩
    let (settings, inside) := ScopedTerminalSettings.construct ⟨false, true, true⟩ console
    (settings.destruct inside).terminal = some .zero := by
  decide

end RehldsM.View
