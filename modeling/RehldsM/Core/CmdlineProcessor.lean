import RehldsM.Core.CmdlineCapture

/-
  `CmdLineProcessor` (libs/core/src/core/cmdline_processor.cpp), the Linux build, and what
  `process` does to the tokens of a command line.

  `processed ts` is what the handlers are meant to leave of the tokens `ts`: `-steam` first,
  the handled arguments taken out, and `+sys_ticrate 0` at the end in target-FPS mode.
  The handlers edit the string by substring search, so a token that merely contains the name
  of a handled argument is edited as well; `ClearNames ts` says that there is none. Then the
  processor computes `codeTokens ts` (`process_flat`), and the result is as meant, and stays
  so when it is processed again, exactly when no handled argument, the `-steam` put in front
  included, has a plain word move up behind it (`process_faithful_iff`).
-/

namespace RehldsM.Core

open Lib Util

/-- What a handler reads besides the arguments. -/
structure Environment where
  /-- `Util::log_settings().logfile` -/
  logfile : Str
  processId : Nat

/-- What a handler does besides editing the arguments. -/
inductive Effect where
  | write (path content : Str) (append : Bool)
  | ignoreSigInt
deriving DecidableEq

/-- `CmdLineArgHandler::handle`. -/
abbrev CmdLineArgHandler := Environment → CmdLineArgs → CmdLineArgs × List Effect

section handlers

variable (strpy : Strpy)

def steamHandler : CmdLineArgHandler := fun _ args =>
  (args.pushFront strpy "-steam".toList, [])

/-- Edits the arguments on Windows only. -/
def consoleHandler : CmdLineArgHandler := fun _ args => (args, [])

def targetFpsHandler : CmdLineArgHandler := fun _ args =>
  if args.contains "targetfps".toList then
    ((args.remove "pingboost".toList).pushBack strpy "+sys_ticrate".toList "0".toList, [])
  else (args, [])

def conDebugHandler : CmdLineArgHandler := fun _ args => (args.remove "condebug".toList, [])

def conClearLogHandler : CmdLineArgHandler := fun env args =>
  if env.logfile.isEmpty then (args, [])
  else if args.contains "conclearlog".toList then (args, [.write env.logfile [] false])
  else (args, [])

def pidFileHandler : CmdLineArgHandler := fun env args =>
  match args.getArgumentOption "pidfile".toList with
  | none => (args, [])
  | some pidfile =>
    if pidfile.isEmpty then (args, [])
    else (args, [.write pidfile ((toString env.processId).toList ++ ['\n']) false])

def ignoreSigIntHandler : CmdLineArgHandler := fun _ args =>
  if args.contains "ignoresigint".toList then (args, [.ignoreSigInt]) else (args, [])

/-- Installs the crash dumper on Windows only. -/
def noMiniDumpsHandler : CmdLineArgHandler := fun _ args => (args, [])

structure CmdLineProcessor where
  handlers : List CmdLineArgHandler

namespace CmdLineProcessor

def addHandler (processor : CmdLineProcessor) (handler : CmdLineArgHandler) : CmdLineProcessor :=
  ⟨processor.handlers ++ [handler]⟩

/-- The constructor. -/
def new : CmdLineProcessor :=
  ((((((((CmdLineProcessor.mk []).addHandler (steamHandler strpy)).addHandler
    consoleHandler).addHandler (targetFpsHandler strpy)).addHandler conDebugHandler).addHandler
    conClearLogHandler).addHandler pidFileHandler).addHandler ignoreSigIntHandler).addHandler
    noMiniDumpsHandler

/-- The handlers are called in turn; their effects are collected in order. -/
def process (processor : CmdLineProcessor) (env : Environment) (args : CmdLineArgs) :
    CmdLineArgs × List Effect :=
  processor.handlers.foldl
    (fun (args, effects) handle =>
      let (args, more) := handle env args
      (args, effects ++ more))
    (args, [])

end CmdLineProcessor

/-- The arguments after `process`. -/
def processArgs (env : Environment) (args : CmdLineArgs) : CmdLineArgs :=
  ((CmdLineProcessor.new strpy).process env args).1

end handlers

/-! ## What is meant, on tokens -/

section meaning

variable {strpy : Strpy}

def steam : ArgName strpy := argName strpy "steam".toList (by decide) (by decide) (by decide)

def targetfps : ArgName strpy :=
  argName strpy "targetfps".toList (by decide) (by decide) (by decide)

def pingboost : ArgName strpy :=
  argName strpy "pingboost".toList (by decide) (by decide) (by decide)

def sysTicrate : ArgName strpy :=
  argName strpy "sys_ticrate".toList (by decide) (by decide) (by decide)

def condebug : ArgName strpy :=
  argName strpy "condebug".toList (by decide) (by decide) (by decide)

def steamArg : strpy.Token := strpy.token "-steam".toList (by decide) (by decide)

def sysTicrateArg : strpy.Token := strpy.token "+sys_ticrate".toList (by decide) (by decide)

def zero : strpy.Token := strpy.token "0".toList (by decide) (by decide)

/-- An argument `+targetfps` or `-targetfps` is present. -/
def fpsMode (ts : List strpy.Token) : Bool := ts.any (isArg targetfps)

/-- The names that are taken out, in the order of the handlers. -/
def handledNames (ts : List strpy.Token) : List (ArgName strpy) :=
  if fpsMode ts then [steam, pingboost, sysTicrate, condebug] else [steam, condebug]

/-- The tokens that survive. -/
def kept (ts : List strpy.Token) : List strpy.Token := takeOut (handled (handledNames ts)) ts

/-- What is put behind them. -/
def ticrate (ts : List strpy.Token) : List strpy.Token :=
  if fpsMode ts then [sysTicrateArg, zero] else []

/-- The tokens `process` is meant to leave. -/
def processed (ts : List strpy.Token) : List strpy.Token := steamArg :: (kept ts ++ ticrate ts)

/-- `process` leaves the tokens it is meant to leave, and a second pass changes nothing. -/
def ProcessFaithful (env : Environment) (ts : List strpy.Token) : Prop :=
  let args := processArgs strpy env ⟨flat ' ' ts⟩
  strpy.split args.arguments = (processed ts).map Word.chars ∧ processArgs strpy env args = args

/-- No search of the handlers stops at a token that merely contains the name: one that is
    still there when the name's turn comes. -/
structure ClearNames (ts : List strpy.Token) : Prop where
  taken : Staged (fun ns n => Unambiguous n (takeOut (handled ns) ts)) (handledNames ts)
  mode : (∃ t ∈ takeOut (handled [steam]) ts,
    Mentions (targetfps : ArgName strpy) t.chars) → fpsMode ts = true

instance (ts : List strpy.Token) : Decidable (ClearNames ts) :=
  decidable_of_iff
    (Staged (fun ns n => Unambiguous n (takeOut (handled ns) ts)) (handledNames ts) ∧
      ((∃ t ∈ takeOut (handled [steam]) ts, Mentions (targetfps : ArgName strpy) t.chars) →
        fpsMode ts = true))
    ⟨fun h => ⟨h.1, h.2⟩, fun h => ⟨h.taken, h.mode⟩⟩

/-- No plain word moves up behind a handled argument: neither behind one that is taken out,
    nor behind the `-steam` put in front, where a second pass finds it. -/
structure NoStrayWord (ts : List strpy.Token) : Prop where
  taken : Staged (fun ns n => NoCapture ns n ts) (handledNames ts)
  first : startsOption (kept ts) = false

instance (ts : List strpy.Token) : Decidable (NoStrayWord ts) :=
  decidable_of_iff
    (Staged (fun ns n => NoCapture ns n ts) (handledNames ts) ∧ startsOption (kept ts) = false)
    ⟨fun h => ⟨h.1, h.2⟩, fun h => ⟨h.taken, h.first⟩⟩

/-- The tokens `process` computes. -/
def codeTokens (ts : List strpy.Token) : List strpy.Token :=
  steamArg :: (dropArgs (handledNames ts) ts ++ ticrate ts)

/-! ## What `process` computes -/

theorem processArgs_eq (env : Environment) (args : CmdLineArgs) :
    processArgs strpy env args =
      (conDebugHandler env (targetFpsHandler strpy env (steamHandler strpy env args).1).1).1 := by
  have hclear : ∀ args, (conClearLogHandler env args).1 = args := by
    intro args
    unfold conClearLogHandler
    split
    · rfl
    · split <;> rfl
  have hpid : ∀ args, (pidFileHandler env args).1 = args := by
    intro args
    unfold pidFileHandler
    split
    · rfl
    · split <;> rfl
  have hint : ∀ args, (ignoreSigIntHandler env args).1 = args := by
    intro args
    unfold ignoreSigIntHandler
    split <;> rfl
  simp [processArgs, CmdLineProcessor.process, CmdLineProcessor.new, CmdLineProcessor.addHandler,
    hclear, hpid, hint, consoleHandler, noMiniDumpsHandler]

theorem Unambiguous.cons {n : ArgName strpy} {t : strpy.Token} {ts : List strpy.Token}
    (ht : Mentions n t.chars → isArg n t = true) (h : Unambiguous n ts) :
    Unambiguous n (t :: ts) := by
  intro x hx
  rcases List.mem_cons.mp hx with rfl | hx
  · exact ht
  · exact h x hx

theorem Unambiguous.append {n : ArgName strpy} {ts us : List strpy.Token}
    (h : Unambiguous n ts) (h' : Unambiguous n us) : Unambiguous n (ts ++ us) := by
  intro x hx
  rcases List.mem_append.mp hx with hx | hx
  · exact h x hx
  · exact h' x hx

/-! The names and tokens of the handlers do not get into each other's way. -/

def handlerNames : List Str :=
  ["steam".toList, "targetfps".toList, "pingboost".toList, "sys_ticrate".toList,
    "condebug".toList]

def handlerTokens : List Str := ["-steam".toList, "+sys_ticrate".toList, "0".toList]

theorem handlerTokens_clear : ∀ name ∈ handlerNames, ∀ x ∈ handlerTokens,
    '+' :: name <:+: x ∨ '-' :: name <:+: x → x = '+' :: name ∨ x = '-' :: name := by
  decide

theorem isArg_of_handlerToken {n : ArgName strpy} (hn : n.chars ∈ handlerNames) {t : strpy.Token}
    (ht : t.chars ∈ handlerTokens) (h : Mentions n t.chars) : isArg n t = true :=
  isArg_iff.mpr (handlerTokens_clear _ hn _ ht h)

theorem Unambiguous.steamArg_cons {n : ArgName strpy} (hn : n.chars ∈ handlerNames)
    {ts : List strpy.Token} (h : Unambiguous n ts) : Unambiguous n (steamArg :: ts) :=
  h.cons (isArg_of_handlerToken hn (by decide : "-steam".toList ∈ handlerTokens))

theorem Unambiguous.append_ticrate {n : ArgName strpy} (hn : n.chars ∈ handlerNames)
    {ts : List strpy.Token} (h : Unambiguous n ts) :
    Unambiguous n (ts ++ [sysTicrateArg, zero]) := by
  refine h.append (Unambiguous.cons ?_ (Unambiguous.cons ?_ (by simp [Unambiguous])))
  · exact isArg_of_handlerToken hn (by decide : "+sys_ticrate".toList ∈ handlerTokens)
  · exact isArg_of_handlerToken hn (by decide : "0".toList ∈ handlerTokens)

/-- When a name's turn comes, its searches stop at the argument itself. -/
theorem ClearNames.unambiguous {ts : List strpy.Token} (h : ClearNames ts)
    {u v : List (ArgName strpy)} {n : ArgName strpy} (hn : handledNames ts = u ++ n :: v) :
    Unambiguous n (dropArgs u ts) :=
  (h.taken u n v hn).of_subset (shed_dropArgs u ts).sublist.subset

theorem handledNames_eq_steam_cons (ts : List strpy.Token) :
    ∃ v, handledNames ts = [] ++ steam :: v := by
  unfold handledNames
  split
  · exact ⟨_, rfl⟩
  · exact ⟨_, rfl⟩

theorem steamHandler_flat (env : Environment) {ts : List strpy.Token} (h : ClearNames ts) :
    (steamHandler strpy env ⟨flat ' ' ts⟩).1 = ⟨flat ' ' (steamArg :: dropArg steam ts)⟩ := by
  obtain ⟨v, hv⟩ := handledNames_eq_steam_cons ts
  exact pushFront_flat (n := steam) (a := steamArg) rfl none (h.unambiguous hv)

theorem dropArg_cons_of_not_isArg {n : ArgName strpy} {t : strpy.Token} (ht : isArg n t = false)
    (ts : List strpy.Token) : dropArg n (t :: ts) = t :: dropArg n ts := by
  simp [dropArg, ht]

theorem distinct_handledNames (ts : List strpy.Token) : Distinct (handledNames ts) := by
  unfold handledNames Distinct
  rw [← List.pairwise_map (f := fun n : ArgName strpy => n.chars) (R := fun a b => a ≠ b)]
  split
  · exact (by decide : ["steam".toList, "pingboost".toList, "sys_ticrate".toList,
      "condebug".toList].Pairwise fun a b => a ≠ b)
  · exact (by decide : ["steam".toList, "condebug".toList].Pairwise fun a b => a ≠ b)

theorem chars_mem_of_mem_handledNames {ts : List strpy.Token} {n : ArgName strpy}
    (h : n ∈ handledNames ts) :
    n.chars ∈ ["steam".toList, "pingboost".toList, "sys_ticrate".toList, "condebug".toList] := by
  have hall : n ∈ [steam, pingboost, sysTicrate, condebug] := by
    unfold handledNames at h
    split at h
    · exact h
    · rcases List.mem_cons.mp h with rfl | h
      · simp
      · rw [List.mem_singleton.mp h]
        simp
  exact List.mem_map_of_mem (f := fun n : ArgName strpy => n.chars) hall

theorem targetfps_ne {ts : List strpy.Token} {n : ArgName strpy} (h : n ∈ handledNames ts) :
    (targetfps : ArgName strpy).chars ≠ n.chars :=
  (by decide : ∀ x ∈ ["steam".toList, "pingboost".toList, "sys_ticrate".toList,
    "condebug".toList], "targetfps".toList ≠ x) _ (chars_mem_of_mem_handledNames h)

/-- The handlers do not touch the arguments `targetfps`. -/
theorem any_dropArgs {ns : List (ArgName strpy)} (hns : Distinct ns) {m : ArgName strpy}
    (hm : ∀ n ∈ ns, m.chars ≠ n.chars) (ts : List strpy.Token) :
    (dropArgs ns ts).any (isArg m) = ts.any (isArg m) := by
  have hcount := ((length_dropArgs hns ts).2 m hm).1
  rw [Bool.eq_iff_iff, List.any_eq_true, List.any_eq_true, ← List.countP_pos_iff,
    ← List.countP_pos_iff, hcount]

theorem fpsMode_dropArg_steam (ts : List strpy.Token) :
    fpsMode (dropArg steam ts) = fpsMode ts := by
  have hne : ∀ n ∈ [(steam : ArgName strpy)], (targetfps : ArgName strpy).chars ≠ n.chars := by
    intro n hn
    rw [List.mem_singleton.mp hn]
    exact (by decide : "targetfps".toList ≠ "steam".toList)
  exact any_dropArgs (by simp [Distinct]) hne ts

theorem contains_targetfps {ts : List strpy.Token} (h : ClearNames ts) :
    (CmdLineArgs.mk (flat ' ' (steamArg :: dropArg steam ts))).contains "targetfps".toList =
      fpsMode ts := by
  have hcontains := contains_iff_mentions (n := (targetfps : ArgName strpy)) (Or.inl rfl)
    (CmdLineArgs.mk (flat ' ' (steamArg :: dropArg steam ts)))
  rw [mentions_flat_iff] at hcontains
  refine Bool.eq_iff_iff.mpr (hcontains.trans ⟨?_, ?_⟩)
  · rintro ⟨t, ht, hm⟩
    rcases List.mem_cons.mp ht with rfl | ht
    · have hsteam : isArg targetfps (steamArg : strpy.Token) = false := rfl
      rw [isArg_of_handlerToken (by decide : "targetfps".toList ∈ handlerNames)
        (by decide : "-steam".toList ∈ handlerTokens) hm] at hsteam
      exact absurd hsteam (by simp)
    · exact h.mode ⟨t, (shed_dropArgs [steam] ts).sublist.subset ht, hm⟩
  · intro hfps
    rw [← fpsMode_dropArg_steam] at hfps
    obtain ⟨t, ht, harg⟩ := List.any_eq_true.mp hfps
    exact ⟨t, List.mem_cons_of_mem _ ht, mentions_of_isArg harg⟩

/-- `process` on tokens. -/
theorem process_flat (env : Environment) {ts : List strpy.Token} (h : ClearNames ts) :
    processArgs strpy env ⟨flat ' ' ts⟩ = ⟨flat ' ' (codeTokens ts)⟩ := by
  rw [processArgs_eq, steamHandler_flat env h]
  unfold targetFpsHandler conDebugHandler codeTokens
  rw [contains_targetfps h]
  cases hfps : fpsMode ts with
  | false =>
    have hnames : handledNames ts = [steam, condebug] := by simp [handledNames, hfps]
    have hremove := remove_flat <| (h.unambiguous (u := [steam]) (v := []) hnames).steamArg_cons
      (by decide : "condebug".toList ∈ handlerNames)
    rw [dropArg_cons_of_not_isArg rfl] at hremove
    rw [hnames, ticrate, hfps, if_neg (by simp), if_neg (by simp), List.append_nil]
    exact hremove
  | true =>
    have hnames : handledNames ts = [steam, pingboost, sysTicrate, condebug] := by
      simp [handledNames, hfps]
    have hpingboost := remove_flat <| (h.unambiguous (u := [steam]) hnames).steamArg_cons
      (by decide : "pingboost".toList ∈ handlerNames)
    rw [dropArg_cons_of_not_isArg rfl] at hpingboost
    have hticrate := pushBack_flat (a := sysTicrateArg) rfl (some zero) <|
      (h.unambiguous (u := [steam, pingboost]) hnames).steamArg_cons
        (by decide : "sys_ticrate".toList ∈ handlerNames)
    rw [dropArg_cons_of_not_isArg rfl] at hticrate
    have hcondebug := remove_flat <|
      ((h.unambiguous (u := [steam, pingboost, sysTicrate]) hnames).append_ticrate
        (by decide : "condebug".toList ∈ handlerNames)).steamArg_cons
        (by decide : "condebug".toList ∈ handlerNames)
    rw [dropArg_cons_of_not_isArg rfl, dropArg_append_arg _ rfl rfl] at hcondebug
    rw [hnames, ticrate, hfps, if_pos rfl, if_pos rfl]
    calc (((CmdLineArgs.mk (flat ' ' (steamArg :: dropArgs [steam] ts))).remove
            (pingboost : ArgName strpy).chars).pushBack strpy (sysTicrateArg : strpy.Token).chars
            (optionChars (some (zero : strpy.Token)))).remove (condebug : ArgName strpy).chars
        = (CmdLineArgs.mk (flat ' ' (steamArg ::
            (dropArgs [steam, pingboost, sysTicrate] ts ++ [sysTicrateArg, zero])))).remove
            (condebug : ArgName strpy).chars := 
          congrArg (fun args => args.remove (condebug : ArgName strpy).chars)
            ((congrArg (fun args => args.pushBack strpy (sysTicrateArg : strpy.Token).chars
              (optionChars (some (zero : strpy.Token)))) hpingboost).trans hticrate)
      _ = ⟨flat ' ' (steamArg ::
            (dropArgs [steam, pingboost, sysTicrate, condebug] ts ++ [sysTicrateArg, zero]))⟩ :=
          hcondebug

/-! ## Exactly when this is what is meant -/

theorem flat_injective {ts us : List strpy.Token} (h : flat ' ' ts = flat ' ' us) : ts = us := by
  have hwords := congrArg (words strpy.isSpace) h
  rw [words_flat strpy.isSpace_space, words_flat strpy.isSpace_space] at hwords
  exact List.map_injective_iff.mpr (fun _ _ => Word.ext) hwords

/-- The first pass leaves what it is meant to leave exactly when no word is captured. -/
theorem codeTokens_eq_processed_iff (ts : List strpy.Token) :
    codeTokens ts = processed ts ↔ Staged (fun ns n => NoCapture ns n ts) (handledNames ts) := by
  rw [← dropArgs_eq_takeOut_iff (distinct_handledNames ts)]
  simp [codeTokens, processed, kept]

/-! The second pass sees `codeTokens ts`, which are clear again. -/

theorem dropArgs_sublist (ns : List (ArgName strpy)) (ts : List strpy.Token) :
    (dropArgs ns ts).Sublist ts := by
  induction ns using List.reverseRecOn with
  | nil => exact List.Sublist.refl _
  | append_singleton ns n ih =>
    rw [dropArgs_concat]
    exact (dropArg_sublist n _).trans ih

theorem dropArgs_append (ns ms : List (ArgName strpy)) (ts : List strpy.Token) :
    dropArgs (ns ++ ms) ts = dropArgs ms (dropArgs ns ts) := by
  simp [dropArgs]

theorem ClearNames.not_mentions {ts : List strpy.Token} (h : ClearNames ts) {n : ArgName strpy}
    (hn : n ∈ handledNames ts) : ∀ t ∈ dropArgs (handledNames ts) ts, ¬ Mentions n t.chars := by
  obtain ⟨u, v, hnames⟩ := List.append_of_mem hn
  intro t ht
  refine not_mentions_dropArg (h.unambiguous hnames) t ?_
  rw [hnames, ← List.singleton_append, ← List.append_assoc, dropArgs_append, dropArgs_concat] at ht
  exact (dropArgs_sublist v _).subset ht

theorem ClearNames.not_isArg {ts : List strpy.Token} (h : ClearNames ts) {n : ArgName strpy}
    (hn : n ∈ handledNames ts) : ∀ t ∈ dropArgs (handledNames ts) ts, isArg n t = false := by
  intro t ht
  by_contra hcon
  exact h.not_mentions hn t ht (mentions_of_isArg (by simpa using hcon))

theorem mem_handlerNames {ts : List strpy.Token} {n : ArgName strpy} (h : n ∈ handledNames ts) :
    n.chars ∈ handlerNames :=
  (by decide : ∀ x ∈ ["steam".toList, "pingboost".toList, "sys_ticrate".toList,
    "condebug".toList], x ∈ handlerNames) _ (chars_mem_of_mem_handledNames h)

theorem unambiguous_codeTokens {n : ArgName strpy} (hn : n.chars ∈ handlerNames)
    {ts : List strpy.Token} (h : Unambiguous n (dropArgs (handledNames ts) ts)) :
    Unambiguous n (codeTokens ts) := by
  refine Unambiguous.steamArg_cons hn ?_
  unfold ticrate
  split
  · exact h.append_ticrate hn
  · simpa using h

theorem fpsMode_codeTokens (ts : List strpy.Token) : fpsMode (codeTokens ts) = fpsMode ts := by
  have hkept : (dropArgs (handledNames ts) ts).any (isArg targetfps) = fpsMode ts :=
    any_dropArgs (distinct_handledNames ts) (fun n hn => targetfps_ne hn) ts
  have hsteam : isArg targetfps (steamArg : strpy.Token) = false := rfl
  have hticrate : (ticrate ts).any (isArg targetfps) = false := by
    unfold ticrate
    split <;> rfl
  rw [fpsMode, codeTokens, List.any_cons, List.any_append, hkept, hsteam, hticrate]
  simp

theorem handledNames_codeTokens (ts : List strpy.Token) :
    handledNames (codeTokens ts) = handledNames ts := by
  simp [handledNames, fpsMode_codeTokens]

/-- The names that are taken out are not mentioned afterwards, except where they are put in. -/
theorem ClearNames.unambiguous_codeTokens {ts : List strpy.Token} (h : ClearNames ts)
    {n : ArgName strpy} (hn : n ∈ handledNames ts) : Unambiguous n (codeTokens ts) :=
  Core.unambiguous_codeTokens (mem_handlerNames hn) fun t ht hm =>
    absurd hm (h.not_mentions hn t ht)

/-- Without target-FPS mode nothing mentions `targetfps`, the tokens put in included. -/
theorem ClearNames.unambiguous_targetfps {ts : List strpy.Token} (h : ClearNames ts)
    (hfps : fpsMode ts = false) : Unambiguous targetfps (codeTokens ts) := by
  refine Core.unambiguous_codeTokens (by decide : "targetfps".toList ∈ handlerNames) ?_
  intro t ht hm
  obtain ⟨v, hv⟩ := handledNames_eq_steam_cons ts
  have hmode : fpsMode ts = true := by
    refine h.mode ⟨t, ?_, hm⟩
    rw [hv, ← List.singleton_append, ← List.append_assoc, dropArgs_append] at ht
    exact (shed_dropArgs [steam] ts).sublist.subset ((dropArgs_sublist v _).subset ht)
  rw [hfps] at hmode
  exact absurd hmode (by simp)

theorem ClearNames.codeTokens {ts : List strpy.Token} (h : ClearNames ts) :
    ClearNames (codeTokens ts) where
  taken := by
    intro u n v hnames
    rw [handledNames_codeTokens] at hnames
    exact (h.unambiguous_codeTokens (by simp [hnames])).of_subset (takeOut_sublist _ _).subset
  mode := by
    rintro ⟨t, ht, hm⟩
    cases hfps : fpsMode ts with
    | true => rw [fpsMode_codeTokens, hfps]
    | false =>
      have hmem := (takeOut_sublist _ _).subset ht
      exact List.any_eq_true.mpr ⟨t, hmem, h.unambiguous_targetfps hfps t hmem hm⟩

theorem dropOption_append (ts : List strpy.Token) {us : List strpy.Token}
    (h : startsOption us = false) : dropOption (ts ++ us) = dropOption ts ++ us := by
  cases ts with
  | nil => simpa [dropOption] using dropOption_of_not_startsOption h
  | cons o ts =>
    by_cases ho : isOption o = true
    · simp [dropOption, ho]
    · simp [dropOption, ho]

theorem dropOption_eq_self_iff (ts : List strpy.Token) :
    dropOption ts = ts ↔ startsOption ts = false := by
  refine ⟨fun h => ?_, dropOption_of_not_startsOption⟩
  by_contra hcon
  have hlen := length_dropOption ts
  rw [h, if_pos (by simpa using hcon)] at hlen
  omega

/-- The `-steam` in front takes what stands behind it; nothing else is left to take out. -/
theorem dropArgs_codeTokens {ts : List strpy.Token} (h : ClearNames ts) :
    dropArgs (handledNames ts) (codeTokens ts) = dropOption (dropArgs (handledNames ts) ts) := by
  have hno : ∀ n ∈ handledNames ts, ∀ t ∈ dropArgs (handledNames ts) ts, isArg n t = false :=
    fun _ hn => h.not_isArg hn
  unfold codeTokens ticrate
  generalize dropArgs (handledNames ts) ts = X at hno ⊢
  have hsub := (dropOption_sublist X).subset
  have hsteam : isArg steam (steamArg : strpy.Token) = true := rfl
  cases hfps : fpsMode ts with
  | false =>
    have hnames : handledNames ts = [steam, condebug] := by simp [handledNames, hfps]
    rw [hnames] at hno ⊢
    rw [if_neg (by simp), List.append_nil]
    calc dropArg condebug (dropArg steam (steamArg :: X))
        = dropArg condebug (dropOption X) := by
          rw [dropArg, if_pos hsteam, dropArg_eq_self (hno steam (by simp))]
      _ = dropOption X := dropArg_eq_self fun t ht => hno condebug (by simp) t (hsub ht)
  | true =>
    have hnames : handledNames ts = [steam, pingboost, sysTicrate, condebug] := by
      simp [handledNames, hfps]
    rw [hnames] at hno ⊢
    rw [if_pos rfl]
    have hfirst : dropArg steam (steamArg :: (X ++ [sysTicrateArg, zero])) =
        dropOption X ++ [sysTicrateArg, zero] := by
      rw [dropArg, if_pos hsteam, dropArg_append (hno steam (by simp))]
      exact dropOption_append X rfl
    have hskip : ∀ n ∈ [steam, pingboost, sysTicrate, condebug], ∀ us : List strpy.Token,
        dropArg n (dropOption X ++ us) = dropOption X ++ dropArg n us :=
      fun n hn us => dropArg_append (fun t ht => hno n hn t (hsub ht)) us
    calc dropArg condebug (dropArg sysTicrate (dropArg pingboost (dropArg steam
            (steamArg :: (X ++ [sysTicrateArg, zero])))))
        = dropArg condebug (dropArg sysTicrate (dropOption X ++ [sysTicrateArg, zero])) := by
          rw [hfirst, hskip pingboost (by simp)]
          rfl
      _ = dropArg condebug (dropOption X ++ []) := by
          rw [hskip sysTicrate (by simp)]
          rfl
      _ = dropOption X := by
          rw [hskip condebug (by simp)]
          simp [dropArg]

/-- On clear names, `process` does what it is meant to do exactly when no plain word moves up
    behind an argument. -/
theorem process_faithful_iff (env : Environment) {ts : List strpy.Token} (h : ClearNames ts) :
    ProcessFaithful env ts ↔ NoStrayWord ts := by
  have hsplit : strpy.split (flat ' ' (codeTokens ts)) = (processed ts).map Word.chars ↔
      codeTokens ts = processed ts := by
    rw [strpy.split_eq, words_flat strpy.isSpace_space]
    exact ⟨fun hmap => List.map_injective_iff.mpr (fun _ _ => Word.ext) hmap,
      fun heq => by rw [heq]⟩
  have hagain : processArgs strpy env ⟨flat ' ' (codeTokens ts)⟩ = ⟨flat ' ' (codeTokens ts)⟩ ↔
      startsOption (dropArgs (handledNames ts) ts) = false := by
    have hticrate : ticrate (codeTokens ts) = ticrate ts := by simp [ticrate, fpsMode_codeTokens]
    have hcode : codeTokens (codeTokens ts) =
        steamArg :: (dropOption (dropArgs (handledNames ts) ts) ++ ticrate ts) := by
      rw [← dropArgs_codeTokens h, ← handledNames_codeTokens ts, ← hticrate]
      rfl
    rw [process_flat env h.codeTokens, CmdLineArgs.mk.injEq, ← dropOption_eq_self_iff, hcode]
    refine ⟨fun heq => ?_, fun heq => by rw [heq]; rfl⟩
    simpa [codeTokens] using flat_injective heq
  unfold ProcessFaithful
  rw [process_flat env h]
  dsimp only
  rw [hsplit, hagain, codeTokens_eq_processed_iff]
  have hkept := dropArgs_eq_takeOut_iff (distinct_handledNames ts) ts
  constructor
  · rintro ⟨htaken, hfirst⟩
    exact ⟨htaken, by rw [kept, ← hkept.mpr htaken, hfirst]⟩
  · rintro ⟨htaken, hfirst⟩
    exact ⟨htaken, by rw [hkept.mpr htaken]; exact hfirst⟩

end meaning

/-- A server's tokens: those of `-game cstrike -targetfps 100 -pingboost 2 +map de_dust2`. -/
def gameLine : List asciiStrpy.Token :=
  asciiStrpy.tokens ["-game".toList, "cstrike".toList, "-targetfps".toList, "100".toList,
    "-pingboost".toList, "2".toList, "+map".toList, "de_dust2".toList] (by decide)

theorem process_faithful_gameLine : ProcessFaithful ⟨[], 1⟩ gameLine :=
  (process_faithful_iff ⟨[], 1⟩ (by decide +kernel)).mpr (by decide +kernel)

/-- The tokens of `-game cstrike -steamid 5`. -/
def steamidLine : List asciiStrpy.Token :=
  asciiStrpy.tokens ["-game".toList, "cstrike".toList, "-steamid".toList, "5".toList] (by decide)

/-- `-steam` is found inside `-steamid` and cut out, with the rest of the token for its option
    and the separator behind it: `5` is glued to the name of the game. -/
theorem process_mangles_steamid :
    processArgs asciiStrpy ⟨[], 1⟩ ⟨flat ' ' steamidLine⟩ = ⟨"-steam -game cstrike5".toList⟩ ∧
      ¬ ProcessFaithful ⟨[], 1⟩ steamidLine := by
  have hprocess : processArgs asciiStrpy ⟨[], 1⟩ ⟨flat ' ' steamidLine⟩ =
      ⟨"-steam -game cstrike5".toList⟩ := by decide +kernel
  refine ⟨hprocess, fun h => ?_⟩
  unfold ProcessFaithful at h
  rw [hprocess] at h
  exact absurd h.1 (by decide +kernel)

end RehldsM.Core
