import RehldsM.Core.CmdlinePush
import RehldsM.Core.Init
import RehldsM.Model.AdaptiveSleep
import RehldsM.Util.Numerals

/-
  Numbers on the command line: `get_argument_option_as`
  (libs/core/include/core/cmdline_args.hpp), and `-targetfps` on its way from `init_server_loop`
  (libs/core/src/core/init.cpp) to `ServerLoop::run` (libs/model/src/model/server_loop.cpp).

  An option that begins with a numeral counts as this number, whatever follows
  (`numeric_options_exact_iff`).

  `init_server_loop` clamps the value of `-pingboost`, but not that of `-targetfps`. The largest
  values do not fit into an `int` any more after `ServerLoop::run` has multiplied them
  (`targetFps_safe_iff`).
-/

namespace RehldsM.Core

open Lib Util Model

/-! ## Options as numbers -/

theorem getArgumentOptionAs_eq_some_iff {ty : IntType} {args : CmdLineArgs} {arg : Str} {v : Int} :
    args.getArgumentOptionAs ty arg = some v ↔
      ∃ option ∈ args.getArgumentOption arg, convertToType ty option = some v := by
  unfold CmdLineArgs.getArgumentOptionAs
  cases args.getArgumentOption arg <;> simp

/-- An option is read as the number it denotes as a whole exactly where it has no tail. -/
theorem option_exact_iff (ty : IntType) (args : CmdLineArgs) (arg : Str) :
    (∀ v, args.getArgumentOptionAs ty arg = some v ↔
      ∃ option ∈ args.getArgumentOption arg, Denotes ty 10 option v ∧ ty.Fits v) ↔
    ∀ option ∈ args.getArgumentOption arg, ¬ NumeralWithTail ty 10 option := by
  simp only [getArgumentOptionAs_eq_some_iff]
  cases args.getArgumentOption arg with
  | none => simp
  | some option => simpa using converts_exactly_iff ty 10 option

/-- Conversion is exact for a string, or an option, if and only if it is not a numeral that
    something else follows. What has been written as a number is read as this number. -/
theorem numeric_options_exact_iff (ty : IntType) {base : Nat} (hlo : 2 ≤ base) (hhi : base ≤ 36) :
    (∀ s, (∀ v, convertToType ty s base = some v ↔ Denotes ty base s v ∧ ty.Fits v) ↔
      ¬ NumeralWithTail ty base s) ∧
    (∀ v, ty.Fits v → convertToType ty (toChars base v) base = some v) ∧
    ∀ (args : CmdLineArgs) (arg : Str),
      (∀ v, args.getArgumentOptionAs ty arg = some v ↔
        ∃ option ∈ args.getArgumentOption arg, Denotes ty 10 option v ∧ ty.Fits v) ↔
      ∀ option ∈ args.getArgumentOption arg, ¬ NumeralWithTail ty 10 option :=
  ⟨converts_exactly_iff ty base, fun _ hfits => convertToType_toChars hlo hhi hfits,
    option_exact_iff ty⟩

/-- Hexadecimal numbers. -/
theorem numeric_options_exact_hex :
    (∀ s, (∀ v, convertToType int32 s 16 = some v ↔ Denotes int32 16 s v ∧ int32.Fits v) ↔
      ¬ NumeralWithTail int32 16 s) ∧
    (∀ v, int32.Fits v → convertToType int32 (toChars 16 v) 16 = some v) ∧
    ∀ (args : CmdLineArgs) (arg : Str),
      (∀ v, args.getArgumentOptionAs int32 arg = some v ↔
        ∃ option ∈ args.getArgumentOption arg, Denotes int32 10 option v ∧ int32.Fits v) ↔
      ∀ option ∈ args.getArgumentOption arg, ¬ NumeralWithTail int32 10 option :=
  numeric_options_exact_iff int32 (by decide) (by decide)

/-- In `+maxplayers 32abc` the option is no numeral, and is read as 32. -/
theorem numeral_with_tail_converted :
    (⟨"+maxplayers 32abc".toList⟩ : CmdLineArgs).getArgumentOption "maxplayers".toList =
        some "32abc".toList ∧
      (¬ ∃ v, Denotes int32 10 "32abc".toList v) ∧
      convertToType int32 "32abc".toList = some 32 ∧
      (⟨"+maxplayers 32abc".toList⟩ : CmdLineArgs).getArgumentOptionAs int32 "maxplayers".toList =
        some 32 := by
  refine ⟨by decide, ?_, by decide, by decide⟩
  rintro ⟨v, hv⟩
  exact hv.not_numeralWithTail (by decide)

/-! ## Numbers as options -/

theorem isDigit_toChars (n : Nat) : ∀ c ∈ toChars 10 n, isDigit 10 c = true := by
  rw [toChars_natCast]
  exact isDigit_numeral (by decide) (by decide) n

theorem isGraph_toChars (n : Nat) : Strpy.isGraph (toChars 10 n) = true := by
  have hgraph : ∀ d < 10, ('!' ≤ digitChar d && digitChar d ≤ '~') = true := by decide
  rw [toChars_natCast, Strpy.isGraph, List.all_eq_true]
  intro c hc
  obtain ⟨d, hd, rfl⟩ := mem_numeral (by decide) hc
  exact hgraph d hd

/-- A number as a token of the command line. -/
def numberToken (strpy : Strpy) (n : Nat) : strpy.Token :=
  strpy.token (toChars 10 n) (toChars_ne_nil 10 n) (isGraph_toChars n)

section number

variable {strpy : Strpy} {name : ArgName strpy} {a : strpy.Token}

theorem isOption_numberToken (n : Nat) : isOption (numberToken strpy n) = true := by
  obtain ⟨c, w, hcw⟩ := List.exists_cons_of_ne_nil (toChars_ne_nil 10 n)
  have hc := isDigit_toChars n c (hcw ▸ .head w)
  have hchars : (numberToken strpy n).chars = c :: w := hcw
  rw [not_isSign_iff_isOption hchars]
  cases hsign : isSign c with
  | false => rfl
  | true =>
    rcases isSign_iff.mp hsign with rfl | rfl
    · exact absurd hc (by decide)
    · exact absurd hc (by decide)

theorem not_mentions_numberToken (n : Nat) : ¬ Mentions name (numberToken strpy n).chars := by
  rintro (h | h)
  · exact absurd (isDigit_toChars n '+' (h.subset (.head _))) (by decide)
  · exact absurd (isDigit_toChars n '-' (h.subset (.head _))) (by decide)

/-- A number is read back where it is the option of the last argument. -/
theorem getArgumentOptionAs_number {ty : IntType} {n : Nat} (ha : isArg name a = true)
    (hfits : ty.Fits n) (u : Str) :
    (CmdLineArgs.mk (u ++ (a.chars ++ trail ' ' [numberToken strpy n]))).getArgumentOptionAs ty
      a.chars = some (n : Int) := by
  have hread := back_reads (u := u) (o := some (numberToken strpy n)) ha
    (fun p hp => Option.some.inj hp ▸ not_mentions_numberToken n)
    (fun p hp => Option.some.inj hp ▸ isOption_numberToken n)
  exact getArgumentOptionAs_eq_some_iff.mpr
    ⟨toChars 10 n, hread, convertToType_toChars (by decide) (by decide) hfits⟩

end number

/-! ## The target FPS -/

/-- The server loop is started with this target. -/
def Accepted (targetFps : Int) : Prop :=
  ∃ args serverLoop, (initServerLoop args serverLoop).runTargetFps = some targetFps

/-- In `ServerLoop::run` the scaled value fits into an `int`, and the sleep can be computed. -/
structure SafeToRun (targetFps : Int) : Prop where
  fits : int32.Fits (truncate (targetFps * fpsIncreaseFactor))
  one_le : 1 ≤ truncate (targetFps * fpsIncreaseFactor)
  sleep_nonneg : ∃ target, targetSleepDuration targetFps = .ok target ∧ 0 ≤ target

theorem safeToRun_iff {targetFps : Int} (h : 0 < targetFps) :
    SafeToRun targetFps ↔ targetFps ≤ 2115747436 := by
  have hscaled := truncate_fpsIncreaseFactor h
  constructor
  · intro hsafe
    have hmax := (int32_fits_iff.mp hsafe.fits).2
    omega
  · intro hle
    exact {
      fits := int32_fits_iff.mpr (by omega)
      one_le := by omega
      sleep_nonneg := targetSleepDuration_spec h }

/-- `init_server_loop` accepts what it reads of `-targetfps`, if that is positive. -/
theorem runTargetFps_initServerLoop {args : CmdLineArgs} {serverLoop : ServerLoopSettings}
    {targetFps : Int} :
    (initServerLoop args serverLoop).runTargetFps = some targetFps ↔
      args.getArgumentOptionAs int32 "-targetfps".toList = some targetFps ∧ 0 < targetFps := by
  have hread : ∀ value : Option Int,
      value.getD 0 = targetFps ∧ 0 < value.getD 0 ↔ value = some targetFps ∧ 0 < targetFps := by
    rintro (_ | value)
    · simp
    · simp +contextual
  rw [← hread]
  unfold initServerLoop ServerLoopSettings.runTargetFps
  dsimp only
  split
  · rename_i hpos
    rw [if_pos ⟨rfl, hpos⟩]
    exact ⟨fun h => ⟨Option.some.inj h, hpos⟩, fun h => congrArg some h.1⟩
  · rename_i hpos
    rw [if_neg fun h => ofInt_clamp_ne_targetFps _ h.1]
    exact iff_of_false (Option.some_ne_none _).symm fun h => hpos h.2

/-- The argument, as `init_server_loop` spells it. -/
def targetfpsArg : asciiStrpy.Token :=
  asciiStrpy.token "-targetfps".toList (by decide) (by decide)

theorem accepted_iff (targetFps : Int) :
    Accepted targetFps ↔ 0 < targetFps ∧ int32.Fits targetFps := by
  constructor
  · rintro ⟨args, serverLoop, h⟩
    obtain ⟨hread, hpos⟩ := runTargetFps_initServerLoop.mp h
    obtain ⟨option, -, hoption⟩ := getArgumentOptionAs_eq_some_iff.mp hread
    obtain ⟨w, rest, -, -, hfits, -⟩ := convertToType_eq_some_iff.mp hoption
    exact ⟨hpos, hfits⟩
  · rintro ⟨hpos, hfits⟩
    obtain ⟨n, rfl⟩ := Int.eq_ofNat_of_zero_le hpos.le
    have harg : isArg targetfps targetfpsArg = true := rfl
    have hread := getArgumentOptionAs_number harg hfits []
    exact ⟨_, {}, runTargetFps_initServerLoop.mpr ⟨hread, hpos⟩⟩

/-- Every positive value of an `int` is accepted, and the largest ones cannot be run. -/
theorem targetFps_safe_iff (targetFps : Int) :
    (Accepted targetFps ↔ 0 < targetFps ∧ int32.Fits targetFps) ∧
      (Accepted targetFps → (SafeToRun targetFps ↔ targetFps ≤ 2115747436)) := by
  have haccepted := accepted_iff targetFps
  exact ⟨haccepted, fun h => safeToRun_iff (haccepted.mp h).1⟩

/-- The largest `int` is multiplied to 2179695901. -/
theorem max_targetFps_unsafe :
    Accepted 2147483647 ∧ truncate ((2147483647 : Int) * fpsIncreaseFactor) = 2179695901 ∧
      ¬ SafeToRun 2147483647 := by
  refine ⟨(accepted_iff _).mpr (by decide), ?_, fun h => ?_⟩
  · exact truncate_fpsIncreaseFactor (by decide : (0 : Int) < 2147483647)
  · have hle := (safeToRun_iff (by decide)).mp h
    omega

end RehldsM.Core
