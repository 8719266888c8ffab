import RehldsM.Core.CmdlineProcessorGaps
import RehldsM.Model.ServerLoopSettings
import RehldsM.Util.Numerals

/-
  `init_server_loop` (libs/core/src/core/init.cpp), after `CmdLineProcessor::process` has run.

  Both look at `-targetfps`: the processor takes `-pingboost` out when the argument is there,
  `init_server_loop` switches to target-FPS mode when its value is positive. So an argument
  without a positive value costs the user the `-pingboost` setting. On a line where the searches
  stop at the arguments themselves and the gaps around these are read as they are (`ClearLine`),
  one thing more can go wrong: a word that is read for the value, because it has moved up behind
  the argument or because it merely begins like a number (`ValueKept`). This is
  `settings_agree_iff`.
-/

namespace RehldsM.Core

open Lib Util Model

def initServerLoop (args : CmdLineArgs) (serverLoop : ServerLoopSettings) : ServerLoopSettings :=
  let targetFps := (args.getArgumentOptionAs int32 "-targetfps".toList).getD 0
  if targetFps > 0 then
    (serverLoop.setTargetFps targetFps).setPingboostLevel .targetFps
  else
    let pingboostValue := (args.getArgumentOptionAs int32 "-pingboost".toList).getD 0
    let pingboostValue :=
      clamp pingboostValue PingBoostLevel.notSet.toInt PingBoostLevel.level5.toInt
    serverLoop.setPingboostLevel (PingBoostLevel.ofInt pingboostValue)

variable {strpy : Strpy}

/-! ## What is meant -/

/-- The integer value of the last argument of this name: zero if there is none, or it has no
    option, or one that is no integer. -/
def optionValue (n : ArgName strpy) (ts : List strpy.Token) : Int :=
  ((readOption n ts).bind fun o => exactNumeral int32 o.chars).getD 0

/-- The server loop runs at the target FPS when its value is positive, and otherwise at the
    ping-boost level of the command line. -/
def SettingsAgree (strpy : Strpy) (env : Environment) (serverLoop : ServerLoopSettings)
    (s : Str) : Prop :=
  let ts := wordsOf strpy.isSpace s
  let serverLoop := initServerLoop (processArgs strpy env ⟨s⟩) serverLoop
  if 0 < optionValue targetfps ts then
    serverLoop.targetFps = optionValue targetfps ts ∧ serverLoop.pingboostLevel = .targetFps
  else
    serverLoop.pingboostLevel = PingBoostLevel.ofInt (clamp (optionValue pingboost ts)
      PingBoostLevel.notSet.toInt PingBoostLevel.level5.toInt)

instance (env : Environment) (serverLoop : ServerLoopSettings) (s : Str) :
    Decidable (SettingsAgree strpy env serverLoop s) :=
  inferInstanceAs (Decidable (ite _ _ _))

/-- The argument whose value is read: with a `-targetfps` on the line `-pingboost` is gone, and
    without one there is only `-pingboost`. -/
def decider (ts : List strpy.Token) : ArgName strpy :=
  if fpsMode ts then targetfps else pingboost

/-- The searches of the handlers stop at the arguments that they look for, and so does the search
    for the argument that is read; the gaps there are as the code counts and reads them. -/
structure ClearLine (strpy : Strpy) (s : Str) : Prop where
  names : ClearNames (wordsOf strpy.isSpace s)
  gaps : CleanProcess strpy s
  reads : LastReadable (decider (wordsOf strpy.isSpace s)) (keptLine s)

instance (s : Str) : Decidable (ClearLine strpy s) :=
  decidable_of_iff
    (ClearNames (wordsOf strpy.isSpace s) ∧ CleanProcess strpy s ∧
      LastReadable (decider (wordsOf strpy.isSpace s)) (keptLine s))
    ⟨fun h => ⟨h.1, h.2.1, h.2.2⟩, fun h => ⟨h.names, h.gaps, h.reads⟩⟩

/-- The number that the word behind the last argument of this name begins with, once the handled
    names have been taken out; zero if it begins with none, or there is no such word. -/
def leftValue (n : ArgName strpy) (ts : List strpy.Token) : Int :=
  ((readOption n (dropArgs (handledNames ts) ts)).bind fun o =>
    convertToType int32 o.chars).getD 0

/-- No other word begins with a positive number there than the value of the argument. -/
def ValueKept (n : ArgName strpy) (ts : List strpy.Token) : Prop :=
  0 < leftValue n ts → leftValue n ts = optionValue n ts

instance (n : ArgName strpy) (ts : List strpy.Token) : Decidable (ValueKept n ts) :=
  inferInstanceAs (Decidable (_ → _))

/-- On a single-spaced line this is about the tokens alone. -/
theorem clearLine_flat_iff (ts : List strpy.Token) :
    ClearLine strpy (flat ' ' ts) ↔ ClearNames ts ∧
      ∀ u t v, dropArgs (handledNames ts) ts = u ++ t :: v → Mentions (decider ts) t.chars →
        (∀ w ∈ v, ¬ Mentions (decider ts) w.chars) → isArg (decider ts) t = true := by
  have htokens : wordsOf strpy.isSpace (flat ' ' ts) = ts :=
    wordsOf_eq (words_flat strpy.isSpace_space ts)
  constructor
  · intro h
    have hnames := h.names
    have hreads := h.reads
    rw [htokens, keptLine_flat] at hreads
    rw [htokens] at hnames
    refine ⟨hnames, fun u t v hsplit hm hv => ?_⟩
    have hitems : singleGaps (dropArgs (handledNames ts) ts) =
        singleGaps u ++ ([' '], t) :: singleGaps v := by
      rw [hsplit]
      exact List.map_append
    refine (hreads (singleGaps u) ([' '], t) (singleGaps v) hitems hm fun j hj => ?_).1
    obtain ⟨w, hw, rfl⟩ := List.mem_map.mp hj
    exact hv w hw
  · rintro ⟨hnames, hlast⟩
    refine ⟨htokens.symm ▸ hnames, cleanProcess_flat ts, ?_⟩
    rw [htokens, keptLine_flat]
    intro u i v hsplit hm hv
    obtain ⟨u', v₁, hdrop, rfl, hcons⟩ := List.map_eq_append_iff.mp hsplit
    obtain ⟨t, v', rfl, rfl, rfl⟩ := List.map_eq_cons_iff.mp hcons
    refine ⟨hlast u' t v' hdrop hm fun w hw => hv _ (List.mem_map_of_mem hw), ?_⟩
    exact readable_skip 1 (cleanBehind_single (fun _ => True) trivial v').1

/-! ## Reading after `process` -/

theorem optionOf_append (v : List strpy.Token) {us : List strpy.Token}
    (h : startsOption us = false) : optionOf (v ++ us) = optionOf v := by
  cases v with
  | nil =>
    cases us with
    | nil => rfl
    | cons o us =>
      have ho : isOption o = false := by simpa [startsOption] using h
      simp [optionOf, ho]
  | cons o v => rfl

theorem readOption_append {n : ArgName strpy} (ts : List strpy.Token) {us : List strpy.Token}
    (hus : ∀ t ∈ us, isArg n t = false) (h : startsOption us = false) :
    readOption n (ts ++ us) = readOption n ts := by
  have hlast : behindLast n (ts ++ us) = (behindLast n ts).map (· ++ us) := by
    induction ts with
    | nil => simpa [behindLast] using (behindLast_eq_none_iff n us).mpr hus
    | cons t ts ih =>
      cases hts : behindLast n ts with
      | some v => simp [behindLast, ih, hts]
      | none => by_cases ht : isArg n t = true <;> simp [behindLast, ih, hts, ht]
  unfold readOption
  rw [hlast]
  cases behindLast n ts with
  | none => rfl
  | some v => exact optionOf_append v h

theorem readOption_none {n : ArgName strpy} {ts : List strpy.Token}
    (h : ∀ t ∈ ts, isArg n t = false) : readOption n ts = none := by
  rw [readOption, (behindLast_eq_none_iff n ts).mpr h]
  rfl

/-- An option stays behind its argument when other names are taken out. -/
theorem readOption_dropArg {m n : ArgName strpy} (hne : n.chars ≠ m.chars) {ts : List strpy.Token}
    {o : strpy.Token} (h : readOption n ts = some o) : readOption n (dropArg m ts) = some o := by
  obtain ⟨v, hlast, hoption⟩ := Option.bind_eq_some_iff.mp h
  obtain ⟨u, t, rfl, ht, hv⟩ := behindLast_some hlast
  cases v with
  | nil => cases hoption
  | cons x v =>
    have hx : isOption x = true := by
      by_contra hcon
      rw [optionOf, if_neg hcon] at hoption
      cases hoption
    rw [optionOf, if_pos hx] at hoption
    obtain rfl := Option.some.inj hoption
    have htm : isArg m t = false := isArg_of_ne (fun heq => hne heq.symm) ht
    have hleft : ∀ y ∈ x :: dropArg m v, isArg n y = false := by
      intro y hy
      rcases List.mem_cons.mp hy with rfl | hy
      · exact isArg_of_isOption hx
      · exact hv y (List.mem_cons_of_mem x ((dropArg_sublist m v).subset hy))
    rw [dropArg_append_arg u (isOption_of_isArg ht) htm,
      dropArg_cons_of_not_isArg (isArg_of_isOption hx), readOption, behindLast_append _ ht hleft,
      Option.bind_some, optionOf, if_pos hx]

theorem readOption_dropArgs {n : ArgName strpy} {ns : List (ArgName strpy)}
    (hns : ∀ m ∈ ns, n.chars ≠ m.chars) {ts : List strpy.Token} {o : strpy.Token}
    (h : readOption n ts = some o) : readOption n (dropArgs ns ts) = some o := by
  induction ns generalizing ts with
  | nil => exact h
  | cons m ns ih =>
    exact ih (fun m' hm' => hns m' (List.mem_cons_of_mem m hm'))
      (readOption_dropArg (hns m List.mem_cons_self) h)

/-- A value that is there is read. -/
theorem leftValue_of_optionValue {n : ArgName strpy} {ts : List strpy.Token}
    (hns : ∀ m ∈ handledNames ts, n.chars ≠ m.chars) (hne : optionValue n ts ≠ 0) :
    leftValue n ts = optionValue n ts := by
  unfold optionValue at hne ⊢
  cases hread : readOption n ts with
  | none => exact absurd (by rw [hread]; rfl) hne
  | some o =>
    cases hvalue : exactNumeral int32 o.chars with
    | none => exact absurd (by rw [hread, Option.bind_some, hvalue]; rfl) hne
    | some v =>
      obtain ⟨hdenotes, hfits⟩ := exactNumeral_eq_some_iff.mp hvalue
      rw [leftValue, readOption_dropArgs hns hread, Option.bind_some, Option.bind_some,
        convertToType_of_denotes hdenotes hfits, hvalue]

theorem optionValue_of_not_isArg {n : ArgName strpy} {ts : List strpy.Token}
    (h : ∀ t ∈ ts, isArg n t = false) : optionValue n ts = 0 := by
  rw [optionValue, readOption_none h]
  rfl

/-! ## The two arguments -/

section settings

variable {s : Str}

theorem decider_chars (ts : List strpy.Token) : (decider ts).chars ∈ handlerNames := by
  unfold decider
  split
  · exact (by decide : "targetfps".toList ∈ handlerNames)
  · exact (by decide : "pingboost".toList ∈ handlerNames)

/-- It is not taken out. -/
theorem decider_ne (ts : List strpy.Token) :
    ∀ m ∈ handledNames ts, (decider ts).chars ≠ m.chars := by
  intro m hm
  unfold decider
  cases hfps : fpsMode ts with
  | true => exact targetfps_ne hm
  | false =>
    simp only [handledNames, hfps, Bool.false_eq_true, if_false] at hm ⊢
    rcases List.mem_pair.mp hm with rfl | rfl
    · exact (by decide : "pingboost".toList ≠ "steam".toList)
    · exact (by decide : "pingboost".toList ≠ "condebug".toList)

/-- The tokens put in are others. -/
theorem not_mentions_put (ts : List strpy.Token) :
    ∀ t ∈ steamArg :: ticrate ts, ¬ Mentions (decider ts) t.chars := by
  intro t ht hm
  have htoken : t.chars ∈ handlerTokens := by
    rcases List.mem_cons.mp ht with rfl | ht
    · exact (by decide : "-steam".toList ∈ handlerTokens)
    · unfold ticrate at ht
      split at ht
      · rcases List.mem_pair.mp ht with rfl | rfl
        · exact (by decide : "+sys_ticrate".toList ∈ handlerTokens)
        · exact (by decide : "0".toList ∈ handlerTokens)
      · cases ht
  have harg := isArg_of_handlerToken (decider_chars ts) htoken hm
  have hnot : isArg (decider ts) t = false := by
    unfold decider
    unfold ticrate at ht
    split at ht
    · simp only [List.mem_cons, List.not_mem_nil, or_false] at ht
      rcases ht with rfl | rfl | rfl <;> split <;> rfl
    · rcases List.mem_singleton.mp ht with rfl
      split <;> rfl
  rw [hnot] at harg
  cases harg

theorem startsOption_ticrate (ts : List strpy.Token) : startsOption (ticrate ts) = false := by
  unfold ticrate
  split <;> rfl

/-- The string that `process` leaves mentions what its tokens mention. -/
theorem mentions_process (env : Environment) (h : ClearLine strpy s) (n : ArgName strpy) :
    Mentions n (processArgs strpy env ⟨s⟩).arguments ↔
      ∃ t ∈ codeTokens (wordsOf strpy.isSpace s), Mentions n t.chars := by
  obtain ⟨l, hgaps, hsame, hprocess⟩ := process_line env h.names h.gaps
  have htokens := tokens_append l (ticrate (wordsOf strpy.isSpace s))
  rw [← hsame.tokens, tokens_keptLine] at htokens
  rw [hprocess, mentions_text_iff (gaps_append hgaps _), htokens, codeTokens,
    List.exists_mem_cons_iff]

/-- An argument that is not there any more reads as zero. -/
theorem value_of_gone (env : Environment) (h : ClearLine strpy s) {n : ArgName strpy} {a : Str}
    (ha : IsSpelling n a)
    (hgone : ∀ t ∈ codeTokens (wordsOf strpy.isSpace s), ¬ Mentions n t.chars) :
    ((processArgs strpy env ⟨s⟩).getArgumentOptionAs int32 a).getD 0 = 0 := by
  have hnot : ¬ Mentions n (processArgs strpy env ⟨s⟩).arguments := by
    rw [mentions_process env h]
    rintro ⟨t, ht, hm⟩
    exact hgone t ht hm
  unfold CmdLineArgs.getArgumentOptionAs CmdLineArgs.getArgumentOption
  rw [findArgumentPos_spelling ha, findArgumentPos_name_eq_none_iff.mpr hnot]
  rfl

/-- The value that is read of the argument that decides. -/
theorem value_of_decider (env : Environment) (h : ClearLine strpy s) {a : Str}
    (ha : a = '-' :: (decider (wordsOf strpy.isSpace s)).chars) :
    ((processArgs strpy env ⟨s⟩).getArgumentOptionAs int32 a).getD 0 =
      leftValue (decider (wordsOf strpy.isSpace s)) (wordsOf strpy.isSpace s) := by
  obtain ⟨l, hgaps, hsame, hprocess⟩ := process_line env h.names h.gaps
  have hput := not_mentions_put (wordsOf strpy.isSpace s)
  have hstart := startsOption_ticrate (wordsOf strpy.isSpace s)
  have hend : ∀ t ∈ ticrate (wordsOf strpy.isSpace s),
      isArg (decider (wordsOf strpy.isSpace s)) t = false := by
    intro t ht
    by_contra harg
    exact hput t (List.mem_cons_of_mem _ ht) (mentions_of_isArg (by simpa using harg))
  have hread := getArgumentOption_line (hput steamArg List.mem_cons_self) (gaps_append hgaps _)
    (lastReadable_append (hsame.lastReadable h.reads) hstart fun t ht =>
      hput t (List.mem_cons_of_mem _ ht)) (Or.inr ha)
  rw [tokens_append, readOption_append _ hend hstart, ← hsame.tokens, tokens_keptLine] at hread
  unfold CmdLineArgs.getArgumentOptionAs leftValue
  rw [hprocess, hread]
  cases readOption (decider (wordsOf strpy.isSpace s))
    (dropArgs (handledNames (wordsOf strpy.isSpace s)) (wordsOf strpy.isSpace s)) <;> rfl

theorem not_isArg_of_fpsMode {ts : List strpy.Token} (h : fpsMode ts = false) :
    ∀ t ∈ ts, isArg targetfps t = false := by
  intro t ht
  have := List.any_eq_false.mp h t ht
  simpa using this

/-- Without the argument `targetfps` both decisions are for the ping-boost level. -/
theorem initServerLoop_of_no_targetfps (env : Environment) (serverLoop : ServerLoopSettings)
    (h : ClearLine strpy s) (hfps : fpsMode (wordsOf strpy.isSpace s) = false) :
    initServerLoop (processArgs strpy env ⟨s⟩) serverLoop =
      serverLoop.setPingboostLevel (PingBoostLevel.ofInt
        (clamp (leftValue pingboost (wordsOf strpy.isSpace s))
          PingBoostLevel.notSet.toInt PingBoostLevel.level5.toInt)) := by
  have hdecider : decider (wordsOf strpy.isSpace s) = pingboost := by simp [decider, hfps]
  have hgone : ∀ t ∈ codeTokens (wordsOf strpy.isSpace s),
      ¬ Mentions (targetfps : ArgName strpy) t.chars := by
    intro t ht hm
    have harg := h.names.unambiguous_targetfps hfps t ht hm
    rw [not_isArg_of_fpsMode (by rw [fpsMode_codeTokens, hfps]) t ht] at harg
    cases harg
  have htarget := value_of_gone env h (a := "-targetfps".toList) (Or.inr (Or.inr rfl)) hgone
  have hpingboost := value_of_decider env h (a := "-pingboost".toList) (by rw [hdecider]; rfl)
  rw [hdecider] at hpingboost
  unfold initServerLoop
  rw [htarget, hpingboost, if_neg (by omega)]

/-- With it, the processor has taken `-pingboost` out, whatever the value of `targetfps`. -/
theorem initServerLoop_of_targetfps (env : Environment) (serverLoop : ServerLoopSettings)
    (h : ClearLine strpy s) (hfps : fpsMode (wordsOf strpy.isSpace s) = true) :
    initServerLoop (processArgs strpy env ⟨s⟩) serverLoop =
      if 0 < leftValue targetfps (wordsOf strpy.isSpace s) then
        (serverLoop.setTargetFps (leftValue targetfps (wordsOf strpy.isSpace s))).setPingboostLevel
          .targetFps
      else serverLoop.setPingboostLevel .notSet := by
  have hdecider : decider (wordsOf strpy.isSpace s) = targetfps := by simp [decider, hfps]
  have hmem : pingboost ∈ handledNames (wordsOf strpy.isSpace s) := by simp [handledNames, hfps]
  have hgone : ∀ t ∈ codeTokens (wordsOf strpy.isSpace s),
      ¬ Mentions (pingboost : ArgName strpy) t.chars := by
    intro t ht hm
    have harg := h.names.unambiguous_codeTokens hmem t ht hm
    unfold codeTokens ticrate at ht
    rw [hfps, if_pos rfl] at ht
    rcases List.mem_cons.mp ht with rfl | ht
    · cases harg
    · rcases List.mem_append.mp ht with ht | ht
      · exact h.names.not_mentions hmem t ht hm
      · rcases List.mem_pair.mp ht with rfl | rfl <;> cases harg
  have htarget := value_of_decider env h (a := "-targetfps".toList) (by rw [hdecider]; rfl)
  have hpingboost := value_of_gone env h (a := "-pingboost".toList) (Or.inr (Or.inr rfl)) hgone
  rw [hdecider] at htarget
  unfold initServerLoop
  rw [htarget, hpingboost]
  rfl

/-- The level that is read is the one that is meant exactly when no other positive value is read. -/
theorem level_eq_iff {value kept : Int} (h : kept ≠ 0 → value = kept) :
    PingBoostLevel.ofInt (clamp value PingBoostLevel.notSet.toInt PingBoostLevel.level5.toInt) =
        PingBoostLevel.ofInt
          (clamp kept PingBoostLevel.notSet.toInt PingBoostLevel.level5.toInt) ↔
      (0 < value → value = kept) := by
  by_cases hzero : kept = 0
  · have hlevel := (ofInt_clamp_eq_notSet_iff kept).mpr (by omega)
    rw [hlevel, ofInt_clamp_eq_notSet_iff]
    omega
  · rw [h hzero]
    exact iff_of_true rfl fun _ => rfl

end settings

/-- On a clear line the two decisions agree exactly when the value that is read is that of the
    argument, and the processor does not throw away a ping-boost level that `init_server_loop`
    falls back to. -/
theorem settings_agree_iff (env : Environment) (serverLoop : ServerLoopSettings) {s : Str}
    (h : ClearLine strpy s) :
    let ts := wordsOf strpy.isSpace s
    SettingsAgree strpy env serverLoop s ↔
      ValueKept (decider ts) ts ∧
        (fpsMode ts = false ∨ 0 < optionValue targetfps ts ∨ optionValue pingboost ts ≤ 0) := by
  intro ts
  have hne := decider_ne ts
  unfold SettingsAgree ValueKept
  dsimp only
  cases hfps : fpsMode ts with
  | false =>
    have hdecider : decider ts = pingboost := by simp [decider, hfps]
    have hzero : optionValue targetfps ts = 0 :=
      optionValue_of_not_isArg (not_isArg_of_fpsMode hfps)
    have hkept := leftValue_of_optionValue (n := pingboost) (hdecider ▸ hne)
    rw [initServerLoop_of_no_targetfps env serverLoop h hfps, hdecider, hzero, if_neg (by omega)]
    exact (level_eq_iff hkept).trans (and_iff_left (Or.inl rfl)).symm
  | true =>
    have hdecider : decider ts = targetfps := by simp [decider, hfps]
    have hkept := leftValue_of_optionValue (n := targetfps) (hdecider ▸ hne)
    rw [initServerLoop_of_targetfps env serverLoop h hfps, hdecider]
    by_cases hpos : 0 < optionValue targetfps ts
    · have hvalue := hkept (by omega)
      rw [if_pos hpos, if_pos (by rw [hvalue]; exact hpos)]
      exact iff_of_true ⟨hvalue, rfl⟩ ⟨fun _ => hvalue, Or.inr (Or.inl hpos)⟩
    · rw [if_neg hpos]
      by_cases hleft : 0 < leftValue targetfps ts
      · -- The word that is read is not the value, and it turns target-FPS mode on.
        rw [if_pos hleft]
        refine iff_of_false (fun heq => ofInt_clamp_ne_targetFps _ heq.symm) ?_
        rintro ⟨hsame, -⟩
        have := hsame hleft
        omega
      · have hlevel := ofInt_clamp_eq_notSet_iff (optionValue pingboost ts)
        rw [if_neg hleft]
        simpa [hpos, hleft, ServerLoopSettings.setPingboostLevel, eq_comm] using hlevel

/-- What `-game`, an empty file, `my-targetfps`, `-targetfps`, `100`, `<tab>-pingboost` and `2` are
    joined to: the value is positive. -/
def mixedLine : Str := "-game  my-targetfps -targetfps 100 \t-pingboost 2".toList

theorem settings_agree_mixedLine : SettingsAgree asciiStrpy ⟨[], 1⟩ {} mixedLine :=
  (settings_agree_iff ⟨[], 1⟩ {} (by decide +kernel)).mpr
    ⟨by decide +kernel, Or.inr (Or.inl (by decide +kernel))⟩

/-- The level 3 is gone when `init_server_loop` falls back to it. -/
theorem settings_disagree_zeroFps :
    initServerLoop (processArgs asciiStrpy ⟨[], 1⟩ ⟨"-targetfps 0 -pingboost 3".toList⟩) {} =
        { pingboostLevel := .notSet, targetFps := 0 } ∧
      ¬ SettingsAgree asciiStrpy ⟨[], 1⟩ {} "-targetfps 0 -pingboost 3".toList := by
  decide +kernel

end RehldsM.Core
