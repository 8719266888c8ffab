import RehldsM.Core.CmdlineFiles

/-
  When the recursion of `build_arguments_string` ends, with files that may include each other in
  any way.

  The depth a list of arguments needs is the length of the longest chain of `@`-files that are
  expanded inside one another (`build_isOk_iff`). Such chains are bounded exactly when no file
  that is reached from the arguments includes itself (`expansion_ends_iff`).
-/

namespace RehldsM.Core

open Lib Util Relation

variable {strpy : Strpy} {fs : FileSystem}

/-- The argument is `@file`, and the file has this content. -/
def Expands (fs : FileSystem) (arg content : Str) : Prop :=
  isSkipped arg = false ∧ arg.head? = some '@' ∧ fileRead fs (arg.drop 1) = .ok content

/-- Files expanded inside one another: the first is among the arguments, every other one among
    the words of the one before it. -/
def Nested (strpy : Strpy) (fs : FileSystem) : List Str → List Str → Prop
  | _, [] => True
  | args, arg :: chain =>
    arg ∈ args ∧ ∃ content, Expands fs arg content ∧ Nested strpy fs (strpy.split content) chain

/-- The recursion from the arguments of `argv` comes back, and there is a depth that no chain of
    nested expansions exceeds. -/
structure ExpansionEnds (strpy : Strpy) (fs : FileSystem) (argv : List Str) : Prop where
  returns : ∃ depth, (CmdLineArgs.fromCommandLine strpy fs depth argv).isOk = true
  bounded : ∃ depth, ∀ chain, Nested strpy fs (extractCmdlineArgs argv) chain →
    chain.length ≤ depth

/-- No file that is reached from `argv` includes itself, directly or through others. -/
def NoIncludeCycle (strpy : Strpy) (fs : FileSystem) (argv : List Str) : Prop :=
  ∀ arg ∈ extractCmdlineArgs argv, ∀ x, ReflTransGen (Includes strpy fs) x arg →
    ¬ TransGen (Includes strpy fs) x x

/-! ## One call -/

@[simp] theorem isOk_ok {ε α : Type} (a : α) : (.ok a : Except ε α).isOk = true := rfl

@[simp] theorem isOk_error {ε α : Type} (e : ε) : (.error e : Except ε α).isOk = false := rfl

@[simp] theorem isOk_map {ε α β : Type} (f : α → β) (x : Except ε α) :
    (x.map f).isOk = x.isOk := by
  cases x <;> rfl

theorem appendArgument_isOk_iff (nested : List Str → Except NoReturn Str) (string arg : Str) :
    (appendArgument strpy fs nested string arg).isOk = true ↔
      ∀ content, Expands fs arg content → (nested (strpy.split content)).isOk = true := by
  unfold appendArgument Expands
  cases hskip : isSkipped arg with
  | true => simp
  | false =>
    by_cases hat : arg.head? = some '@'
    · rw [FileSystem.fileRead_toDisk]
      cases fileRead fs (arg.drop 1) with
      | error e => simp [hat]
      | ok content => simp [hat]
    · simp [hat]

theorem foldlM_isOk_iff (nested : List Str → Except NoReturn Str) (args : List Str) (string : Str) :
    (args.foldlM (appendArgument strpy fs nested) string).isOk = true ↔
      ∀ arg ∈ args, ∀ content, Expands fs arg content →
        (nested (strpy.split content)).isOk = true := by
  induction args generalizing string with
  | nil => exact iff_of_true rfl (by simp)
  | cons arg args ih =>
    have harg : (appendArgument strpy fs nested string arg).isOk = true ↔ _ :=
      appendArgument_isOk_iff nested string arg
    rw [List.foldlM_cons, List.forall_mem_cons, ← harg]
    cases hturn : appendArgument strpy fs nested string arg with
    | error noReturn => exact iff_of_false (fun h => nomatch h) fun h => nomatch h.1
    | ok string' =>
      refine (ih string').trans ?_
      simp

/-- A call returns exactly when the calls for the files it expands return. -/
theorem build_isOk_succ_iff (depth : Nat) (args : List Str) :
    (buildArgumentsString strpy fs (depth + 1) args).isOk = true ↔
      ∀ arg ∈ args, ∀ content, Expands fs arg content →
        (buildArgumentsString strpy fs depth (strpy.split content)).isOk = true := by
  rw [buildArgumentsString, isOk_map, foldlM_isOk_iff]

/-- The depth is enough exactly when no chain is as long. -/
theorem build_isOk_iff (depth : Nat) (args : List Str) :
    (buildArgumentsString strpy fs depth args).isOk = true ↔
      ∀ chain, Nested strpy fs args chain → chain.length < depth := by
  induction depth generalizing args with
  | zero =>
    refine iff_of_false (by simp [buildArgumentsString]) fun h => ?_
    exact absurd (h [] trivial) (by simp)
  | succ depth ih =>
    simp only [build_isOk_succ_iff, ih]
    constructor
    · intro h chain hchain
      cases chain with
      | nil => simp
      | cons arg chain =>
        obtain ⟨harg, content, hcontent, hchain⟩ := hchain
        have hlt := h arg harg content hcontent chain hchain
        rw [List.length_cons]
        omega
    · intro h arg harg content hcontent chain hchain
      have hlt := h (arg :: chain) ⟨harg, content, hcontent, hchain⟩
      rw [List.length_cons] at hlt
      omega

/-! ## Some depth -/

theorem includes_iff {x y : Str} :
    Includes strpy fs x y ↔ ∃ content, Expands fs y content ∧ x ∈ strpy.split content := by
  unfold Includes Expands
  constructor
  · rintro ⟨content, hskip, hat, hread, hx⟩
    exact ⟨content, ⟨hskip, hat, hread⟩, hx⟩
  · rintro ⟨content, ⟨hskip, hat, hread⟩, hx⟩
    exact ⟨content, hskip, hat, hread, hx⟩

theorem build_isOk_mono {depth depth' : Nat} (hle : depth ≤ depth') {args : List Str}
    (h : (buildArgumentsString strpy fs depth args).isOk = true) :
    (buildArgumentsString strpy fs depth' args).isOk = true := by
  rw [build_isOk_iff] at h ⊢
  exact fun chain hchain => Nat.lt_of_lt_of_le (h chain hchain) hle

/-- What is enough for each argument is, at its largest, enough for all of them. -/
theorem exists_depth_of_forall {args : List Str}
    (h : ∀ arg ∈ args, ∃ depth, (buildArgumentsString strpy fs depth [arg]).isOk = true) :
    ∃ depth, (buildArgumentsString strpy fs depth args).isOk = true := by
  induction args with
  | nil => exact ⟨1, rfl⟩
  | cons arg args ih =>
    obtain ⟨harg, hargs⟩ := List.forall_mem_cons.mp h
    obtain ⟨d, hd⟩ := harg
    obtain ⟨d', hd'⟩ := ih hargs
    refine ⟨max d d' + 1, ?_⟩
    have hone := build_isOk_mono (by omega : d ≤ max d d' + 1) hd
    have hrest := build_isOk_mono (by omega : d' ≤ max d d' + 1) hd'
    rw [build_isOk_succ_iff] at hone hrest ⊢
    rw [List.forall_mem_cons]
    exact ⟨hone arg (List.mem_singleton_self arg), hrest⟩

theorem Expands.unique {arg content content' : Str} (h : Expands fs arg content)
    (h' : Expands fs arg content') : content = content' :=
  Except.ok.inj (h.2.2.symm.trans h'.2.2)

theorem exists_depth_of_acc {arg : Str} (h : Acc (Includes strpy fs) arg) :
    ∃ depth, (buildArgumentsString strpy fs depth [arg]).isOk = true := by
  induction h with
  | intro arg _ ih =>
    by_cases hexpands : ∃ content, Expands fs arg content
    · obtain ⟨content, hcontent⟩ := hexpands
      obtain ⟨d, hd⟩ := exists_depth_of_forall fun x hx =>
        ih x (includes_iff.mpr ⟨content, hcontent, hx⟩)
      refine ⟨d + 1, ?_⟩
      rw [build_isOk_succ_iff, List.forall_mem_singleton]
      intro content' hcontent'
      rwa [← hcontent.unique hcontent']
    · refine ⟨1, ?_⟩
      rw [build_isOk_succ_iff, List.forall_mem_singleton]
      exact fun content hcontent => absurd ⟨content, hcontent⟩ hexpands

/-- Some depth is enough exactly when every argument is accessible along the includes. -/
theorem exists_depth_iff_acc (args : List Str) :
    (∃ depth, (buildArgumentsString strpy fs depth args).isOk = true) ↔
      ∀ arg ∈ args, Acc (Includes strpy fs) arg := by
  refine ⟨?_, fun h => exists_depth_of_forall fun arg harg => exists_depth_of_acc (h arg harg)⟩
  rintro ⟨depth, h⟩
  induction depth generalizing args with
  | zero => simp [buildArgumentsString] at h
  | succ depth ih =>
    intro arg harg
    refine ⟨arg, fun x hx => ?_⟩
    obtain ⟨content, hcontent, hmem⟩ := includes_iff.mp hx
    exact ih _ ((build_isOk_succ_iff depth args).mp h arg harg content hcontent) x hmem

theorem exists_depth_iff_no_cycle (argv : List Str) :
    (∃ depth, (buildArgumentsString strpy fs depth (extractCmdlineArgs argv)).isOk = true) ↔
      NoIncludeCycle strpy fs argv := by
  rw [exists_depth_iff_acc]
  exact forall₂_congr fun arg _ => acc_iff_no_cycle _ (fun _ _ => mem_files_of_includes) arg

/-- The expansion ends exactly when no file that is reached from `argv` includes itself, directly
    or through others. -/
theorem expansion_ends_iff (strpy : Strpy) (fs : FileSystem) (argv : List Str) :
    ExpansionEnds strpy fs argv ↔ NoIncludeCycle strpy fs argv := by
  rw [← exists_depth_iff_no_cycle]
  constructor
  · intro h
    obtain ⟨depth, hbound⟩ := h.bounded
    refine ⟨depth + 1, ?_⟩
    rw [build_isOk_iff]
    exact fun chain hchain => Nat.lt_succ_of_le (hbound chain hchain)
  · rintro ⟨depth, h⟩
    refine ⟨⟨depth, by rwa [CmdLineArgs.fromCommandLine, isOk_map]⟩, depth, ?_⟩
    exact fun chain hchain => Nat.le_of_lt ((build_isOk_iff depth _).mp h chain hchain)

/-- One file, `f`, with the one word `@f`. -/
def selfIncluding : FileSystem where
  files := [("f".toList, { content := "@f".toList })]

/-- The file is expanded inside itself for ever: no depth is enough. -/
theorem self_including_never_ends :
    (∀ depth, CmdLineArgs.fromCommandLine asciiStrpy selfIncluding depth
      ["hlds".toList, "@f".toList] = .error .deeper) ∧
      ¬ ExpansionEnds asciiStrpy selfIncluding ["hlds".toList, "@f".toList] := by
  have hread : fileRead selfIncluding "f".toList = .ok "@f".toList := by decide +kernel
  have hwords : asciiStrpy.split "@f".toList = ["@f".toList] := by decide +kernel
  have hdeeper : ∀ depth, buildArgumentsString asciiStrpy selfIncluding depth ["@f".toList] =
      .error .deeper := by
    intro depth
    induction depth with
    | zero => rfl
    | succ depth ih =>
      have hturn : ∀ string, appendArgument asciiStrpy selfIncluding
          (buildArgumentsString asciiStrpy selfIncluding depth) string "@f".toList =
            .error .deeper := by
        intro string
        rw [appendArgument, if_neg (by decide), if_pos (by decide),
          FileSystem.fileRead_toDisk, show "@f".toList.drop 1 = "f".toList from rfl, hread]
        dsimp only
        rw [hwords, ih]
        rfl
      rw [buildArgumentsString, List.foldlM_cons, hturn]
      rfl
  have hnone : ∀ depth, CmdLineArgs.fromCommandLine asciiStrpy selfIncluding depth
      ["hlds".toList, "@f".toList] = .error .deeper := by
    intro depth
    have hargs : extractCmdlineArgs ["hlds".toList, "@f".toList] = ["@f".toList] := rfl
    rw [CmdLineArgs.fromCommandLine, hargs, hdeeper]
    rfl
  refine ⟨hnone, fun h => ?_⟩
  obtain ⟨depth, hreturns⟩ := h.returns
  rw [hnone depth] at hreturns
  cases hreturns

end RehldsM.Core
