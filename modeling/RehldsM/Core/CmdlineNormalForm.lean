import RehldsM.Core.CmdlineIncludes
import RehldsM.Core.CmdlineRemove
import RehldsM.Lib.Run
import RehldsM.Lib.Spacing

/-
  The single-spaced form of the argument string, which the counts of `remove` rely on.

  `from_command_line` puts a space behind everything it appends, also behind what an `@`-file
  brings when that is nothing. So the string is single-spaced exactly when no such file stands
  between arguments that bring something (`build_singleSpaced_iff`). `remove`, `push_front` and
  `push_back` keep the form as long as what they search for is a whole token (`ClearCall`);
  `normal_form_iff` puts the two together for whole runs.
-/

namespace RehldsM.Core

open Lib Util

variable {strpy : Strpy}

/-- The string is its own tokens, joined by single spaces. -/
def NormalForm (strpy : Strpy) (args : CmdLineArgs) : Prop :=
  SingleSpaced strpy.isSpace ' ' args.arguments

/-- No `@`-file that is read and brings nothing stands between arguments that bring something;
    and the same within every file that is read. -/
inductive NoBlankFile (fs : CommandFiles strpy) : List Str → Prop
  | intro {args : List Str}
    (here : ∀ u arg v, args = u ++ arg :: v → (∃ content, Expands fs.toFileSystem arg content) →
      expand fs arg = [] → u.flatMap (expand fs) = [] ∨ v.flatMap (expand fs) = [])
    (inside : ∀ arg ∈ args, ∀ content, Expands fs.toFileSystem arg content →
      NoBlankFile fs (strpy.split content)) : NoBlankFile fs args

theorem noBlankFile_iff {fs : CommandFiles strpy} {args : List Str} :
    NoBlankFile fs args ↔
      (∀ u arg v, args = u ++ arg :: v → (∃ content, Expands fs.toFileSystem arg content) →
        expand fs arg = [] → u.flatMap (expand fs) = [] ∨ v.flatMap (expand fs) = []) ∧
      ∀ arg ∈ args, ∀ content, Expands fs.toFileSystem arg content →
        NoBlankFile fs (strpy.split content) :=
  ⟨fun ⟨here, inside⟩ => ⟨here, inside⟩, fun h => .intro h.1 h.2⟩

/-! ## The pieces `from_command_line` appends -/

/-- What an argument brings: a piece that gets a space behind it, or nothing at all. -/
structure Brings (fs : CommandFiles strpy) (arg : Str) (piece : Option Str) : Prop where
  appended : ∃ d, ∀ depth ≥ d, ∀ string, appendArgument strpy fs.toFileSystem
    (buildArgumentsString strpy fs.toFileSystem depth) string arg =
      .ok (string ++ joined ' ' piece.toList)
  trimmed : ∀ s ∈ piece, trim strpy.isSpace s = s
  words : strpy.split (piece.getD []) = expand fs arg
  spaced : (∀ s ∈ piece, SingleSpaced strpy.isSpace ' ' s) ↔
    ∀ content, Expands fs.toFileSystem arg content → NoBlankFile fs (strpy.split content)
  blank : piece = some [] ↔
    (∃ content, Expands fs.toFileSystem arg content) ∧ expand fs arg = []

/-- The string built for these arguments. -/
structure Builds (fs : CommandFiles strpy) (args : List Str) (s : Str) : Prop where
  built : ∃ d, ∀ depth ≥ d, buildArgumentsString strpy fs.toFileSystem depth args = .ok s
  trimmed : trim strpy.isSpace s = s
  words : strpy.split s = args.flatMap (expand fs)
  spaced : SingleSpaced strpy.isSpace ' ' s ↔ NoBlankFile fs args

variable {fs : CommandFiles strpy}

theorem split_nil : strpy.split [] = [] := by
  rw [strpy.split_eq, words_nil]

theorem Brings.empty_iff {arg : Str} {piece : Option Str} (h : Brings fs arg piece) :
    (∀ s ∈ piece, s = []) ↔ expand fs arg = [] := by
  rw [← h.words]
  cases piece with
  | none => simp [split_nil]
  | some s =>
    constructor
    · intro hs
      rw [hs s rfl, Option.getD_some, split_nil]
    · intro hs x hx
      obtain rfl : s = x := Option.some.inj hx
      exact eq_nil_of_words_eq_nil (h.trimmed s rfl) (strpy.split_eq s ▸ hs)

theorem brings_nothing {arg : Str}
    (happend : ∀ nested string, appendArgument strpy fs.toFileSystem nested string arg =
      .ok string)
    (hexpand : expand fs arg = []) (hnot : ∀ content, ¬ Expands fs.toFileSystem arg content) :
    Brings fs arg none where
  appended := ⟨0, fun _ _ string => by rw [happend]; simp [joined]⟩
  trimmed := by simp
  words := by rw [hexpand]; exact split_nil
  spaced := by simp [hnot]
  blank := by simp [hnot]

theorem foldlM_brings {piece : Str → Option Str} {args : List Str}
    (h : ∀ arg ∈ args, Brings fs arg (piece arg)) :
    ∃ d, ∀ depth ≥ d, ∀ string, args.foldlM (appendArgument strpy fs.toFileSystem
      (buildArgumentsString strpy fs.toFileSystem depth)) string =
        .ok (string ++ joined ' ' (args.filterMap piece)) := by
  induction args with
  | nil => exact ⟨0, fun _ _ string => congrArg Except.ok (by simp [joined])⟩
  | cons arg args ih =>
    obtain ⟨harg, hargs⟩ := List.forall_mem_cons.mp h
    obtain ⟨d, hd⟩ := harg.appended
    obtain ⟨d', hd'⟩ := ih hargs
    refine ⟨max d d', fun depth hdepth string => ?_⟩
    have htail := hd' depth (by omega) (string ++ joined ' ' (piece arg).toList)
    rw [foldlM_cons_ok (hd depth (by omega) string), htail]
    cases hpiece : piece arg with
    | none => simp [hpiece, joined]
    | some s => simp [hpiece, joined]

/-- The pieces of the arguments make up the string. -/
theorem exists_builds {args : List Str} (h : ∀ arg ∈ args, ∃ piece, Brings fs arg piece) :
    ∃ s, Builds fs args s := by
  choose! piece hpiece using h
  obtain ⟨d, hd⟩ := foldlM_brings hpiece
  have hbuilt : ∀ depth ≥ d + 1, buildArgumentsString strpy fs.toFileSystem depth args =
      .ok (strpy.strip (joined ' ' (args.filterMap piece))) := by
    intro depth hdepth
    obtain ⟨k, rfl⟩ : ∃ k, depth = k + 1 := ⟨depth - 1, by omega⟩
    rw [buildArgumentsString, hd k (by omega) []]
    rfl
  refine ⟨_, ⟨d + 1, hbuilt⟩, ?_, ?_, ?_⟩
  · rw [strpy.strip_eq, trim_trim]
  · obtain ⟨d', s, hsplit, hs⟩ := exists_build fs args
    have hsame := (hbuilt (max (d + 1) d') (by omega)).symm.trans (hs (max (d + 1) d') (by omega))
    rw [Except.ok.inj hsame, hsplit]
  · have htrimmed : ∀ s ∈ args.filterMap piece, trim strpy.isSpace s = s := by
      intro s hs
      obtain ⟨arg, harg, hs⟩ := List.mem_filterMap.mp hs
      exact (hpiece arg harg).trimmed s hs
    rw [strpy.strip_eq, trim_joined_singleSpaced_iff strpy.isSpace_space htrimmed,
      noEmptyBetween_filterMap_iff, noBlankFile_iff, and_comm]
    refine and_congr ?_ ?_
    · refine forall_congr' fun u => forall_congr' fun arg => forall_congr' fun v => ?_
      refine forall_congr' fun heq => ?_
      have hin : ∀ x ∈ u ++ arg :: v, Brings fs x (piece x) := fun x hx => hpiece x (heq ▸ hx)
      rw [(hin arg (by simp)).blank, and_imp, List.flatMap_eq_nil_iff, List.flatMap_eq_nil_iff,
        forall₂_congr fun y hy => (hin y (by simp [hy])).empty_iff,
        forall₂_congr fun y hy => (hin y (by simp [hy])).empty_iff]
    · have hall : (∀ s ∈ args.filterMap piece, SingleSpaced strpy.isSpace ' ' s) ↔
          ∀ arg ∈ args, ∀ s ∈ piece arg, SingleSpaced strpy.isSpace ' ' s := by
        simp only [List.mem_filterMap]
        constructor
        · intro h arg harg s hs
          exact h s ⟨arg, harg, hs⟩
        · rintro h s ⟨arg, harg, hs⟩
          exact h arg harg s hs
      rw [hall]
      exact forall₂_congr fun arg harg => (hpiece arg harg).spaced

/-- A file brings the string built for its words. -/
theorem brings_file {arg content s : Str} (harg : Expands fs.toFileSystem arg content)
    (h : Builds fs (strpy.split content) s) : Brings fs arg (some s) := by
  have hwords : strpy.split s = expand fs arg := by
    rw [h.words, expand_of_file fs harg.1 harg.2.1 harg.2.2]
  have hempty : s = [] ↔ expand fs arg = [] := by
    rw [← hwords]
    refine ⟨fun hs => by rw [hs, split_nil], fun hs => ?_⟩
    exact eq_nil_of_words_eq_nil h.trimmed (strpy.split_eq s ▸ hs)
  refine ⟨?_, by simpa using h.trimmed, hwords, ?_, ?_⟩
  · obtain ⟨d, hd⟩ := h.built
    refine ⟨d, fun depth hdepth string => ?_⟩
    rw [appendArgument, if_neg (by simp [harg.1]), if_pos harg.2.1, FileSystem.fileRead_toDisk,
      harg.2.2]
    simp [hd depth hdepth, joined, Except.map]
  · simp only [Option.mem_def, Option.some.injEq, forall_eq', h.spaced]
    exact ⟨fun hblank content' hcontent' => harg.unique hcontent' ▸ hblank,
      fun hall => hall content harg⟩
  · rw [Option.some.injEq, hempty]
    exact ⟨fun hnil => ⟨⟨content, harg⟩, hnil⟩, And.right⟩

theorem brings_word {arg : Str} (hskip : isSkipped arg = false) (hat : arg.head? ≠ some '@')
    (harg : ∀ c ∈ arg, strpy.isSpace c = false) : Brings fs arg (some arg) := by
  have hne : arg ≠ [] := by
    rintro rfl
    cases hskip
  have htrim := strip_token (⟨arg, hne, harg⟩ : strpy.Token)
  have hspaced := singleSpaced_word strpy.isSpace_space ⟨arg, hne, harg⟩
  have hnot : ∀ content, ¬ Expands fs.toFileSystem arg content := fun _ h => hat h.2.1
  refine ⟨⟨0, fun depth _ string => ?_⟩, ?_, ?_, ?_, ?_⟩
  · rw [appendArgument, if_neg (by simp [hskip]), if_neg hat]
    simp [joined]
  · rw [strpy.strip_eq] at htrim
    simpa using htrim
  · rw [Option.getD_some, expand_of_word fs hskip hat]
  · simpa [hnot] using hspaced
  · simp [hnot, hne]

/-- One argument, by induction along the includes. -/
theorem exists_brings (fs : CommandFiles strpy) (arg : Str)
    (harg : ∀ c ∈ arg, strpy.isSpace c = false) : ∃ piece, Brings fs arg piece := by
  induction arg using fs.wellFounded.induction with
  | _ arg ih =>
    cases hskip : isSkipped arg with
    | true =>
      refine ⟨none, brings_nothing (fun nested string => ?_) (expand_of_skipped fs hskip) ?_⟩
      · rw [appendArgument, if_pos hskip]
      · exact fun content hcontent => absurd hskip (by simp [hcontent.1])
    | false =>
      by_cases hat : arg.head? = some '@'
      · cases hread : fileRead fs.toFileSystem (arg.drop 1) with
        | error e =>
          refine ⟨none, brings_nothing (fun nested string => ?_)
            (expand_of_unreadable fs hskip hat hread) ?_⟩
          · rw [appendArgument, if_neg (by simp [hskip]), if_pos hat, FileSystem.fileRead_toDisk,
              hread]
          · exact fun content hcontent => absurd (hread.symm.trans hcontent.2.2) (by simp)
        | ok content =>
          have hexpands : Expands fs.toFileSystem arg content := ⟨hskip, hat, hread⟩
          obtain ⟨s, hs⟩ := exists_builds fun x (hx : x ∈ strpy.split content) =>
            ih x (includes_iff.mpr ⟨content, hexpands, hx⟩)
              (mem_words (strpy.split_eq content ▸ hx)).2
          exact ⟨some s, brings_file hexpands hs⟩
      · exact ⟨some arg, brings_word hskip hat harg⟩

/-- The string built from white-space-free arguments is single-spaced exactly when no `@`-file
    that brings nothing stands between others. -/
theorem build_singleSpaced_iff (fs : CommandFiles strpy) {argv : List Str}
    (hargv : ∀ arg ∈ extractCmdlineArgs argv, ∀ c ∈ arg, strpy.isSpace c = false) :
    ∃ d args, (∀ depth ≥ d,
        CmdLineArgs.fromCommandLine strpy fs.toFileSystem depth argv = .ok args) ∧
      (NormalForm strpy args ↔ NoBlankFile fs (extractCmdlineArgs argv)) := by
  obtain ⟨s, hs⟩ := exists_builds fun arg (harg : arg ∈ extractCmdlineArgs argv) =>
    exists_brings fs arg (hargv arg harg)
  obtain ⟨d, hd⟩ := hs.built
  refine ⟨d, ⟨s⟩, fun depth hdepth => ?_, hs.spaced⟩
  rw [CmdLineArgs.fromCommandLine, hd depth hdepth]
  rfl

/-! ## The calls that follow -/

/-- A text without white space. -/
abbrev Unspaced (strpy : Strpy) := {s : Str // ∀ c ∈ s, strpy.isSpace c = false}

/-- A call whose name and option are without white space. -/
inductive Call (strpy : Strpy) where
  | pushFront (arg option : Unspaced strpy)
  | pushBack (arg option : Unspaced strpy)
  | remove (arg : Unspaced strpy)

def Call.apply (args : CmdLineArgs) : Call strpy → CmdLineArgs
  | pushFront arg option => args.pushFront strpy arg.1 option.1
  | pushBack arg option => args.pushBack strpy arg.1 option.1
  | remove arg => args.remove arg.1

/-- What the loop of `remove` looks for: `find_argument_pos` takes a second prefix off. -/
def searchedName (arg : Str) : Str := removeArgumentPrefix (removeArgumentPrefix arg)

/-- The token that is searched for is found nowhere, or it is found as a whole token, with the
    name as it stands behind its one prefix. -/
def ClearSearch (strpy : Strpy) (args : CmdLineArgs) (arg : Str) : Prop :=
  removeArgumentPrefix arg ≠ [] ∧ ∀ t ∈ wordsOf strpy.isSpace args.arguments,
    '+' :: searchedName arg <:+: t.chars ∨ '-' :: searchedName arg <:+: t.chars →
      removeArgumentPrefix arg = searchedName arg ∧
        (t.chars = '+' :: searchedName arg ∨ t.chars = '-' :: searchedName arg)

instance (strpy : Strpy) (args : CmdLineArgs) (arg : Str) :
    Decidable (ClearSearch strpy args arg) :=
  inferInstanceAs (Decidable (_ ∧ ∀ t ∈ _, _ → _))

def ClearCall (args : CmdLineArgs) : Call strpy → Prop
  | .pushFront arg _ | .pushBack arg _ =>
    isValidArgument arg.1 = true → ClearSearch strpy args arg.1
  | .remove arg => ClearSearch strpy args arg.1

instance (args : CmdLineArgs) : (call : Call strpy) → Decidable (ClearCall args call)
  | .pushFront _ _ | .pushBack _ _ => inferInstanceAs (Decidable (_ → _))
  | .remove arg => inferInstanceAs (Decidable (ClearSearch strpy args arg.1))

theorem removeArgumentPrefix_subset (s : Str) : removeArgumentPrefix s ⊆ s := by
  cases s with
  | nil => exact List.Subset.refl _
  | cons c s =>
    rw [removeArgumentPrefix]
    split
    · exact List.subset_cons_self c s
    · exact List.Subset.refl _

/-- A name that has no prefix left to take off. -/
theorem not_isPrefixChar_of_fixed {s : Str} (h : removeArgumentPrefix s = s) :
    ∀ c ∈ s.head?, isPrefixChar c = false := by
  intro c hc
  obtain ⟨rest, rfl⟩ := List.head?_eq_some_iff.mp hc
  by_contra hpre
  rw [removeArgumentPrefix, if_pos (by simpa using hpre)] at h
  have hlen := congrArg List.length h
  rw [List.length_cons] at hlen
  omega

theorem normalForm_flat (ts : List strpy.Token) : NormalForm strpy ⟨flat ' ' ts⟩ :=
  singleSpaced_flat strpy.isSpace_space ts

theorem searchedName_unspaced (arg : Unspaced strpy) :
    ∀ c ∈ searchedName arg.1, strpy.isSpace c = false := fun c hc =>
  arg.2 c (removeArgumentPrefix_subset _ (removeArgumentPrefix_subset _ hc))

/-- What no token contains is not found. -/
theorem remove_of_not_found (arg : Unspaced strpy) {ts : List strpy.Token}
    (h : ∀ t ∈ ts, ¬ '+' :: searchedName arg.1 <:+: t.chars ∧
      ¬ '-' :: searchedName arg.1 <:+: t.chars) :
    (CmdLineArgs.mk (flat ' ' ts)).remove arg.1 = ⟨flat ' ' ts⟩ := by
  have hspace : ∀ c, strpy.isSpace c = false → ' ' ∉ c :: searchedName arg.1 := by
    intro c hc hmem
    have hall : ∀ x ∈ c :: searchedName arg.1, strpy.isSpace x = false :=
      List.forall_mem_cons.mpr ⟨hc, searchedName_unspaced arg⟩
    have hblank := hall ' ' hmem
    rw [strpy.isSpace_space] at hblank
    cases hblank
  refine CmdLineArgs.remove_of_none ?_
  rw [CmdLineArgs.findArgumentPos_eq_none_iff]
  change ¬ '+' :: searchedName arg.1 <:+: flat ' ' ts ∧
    ¬ '-' :: searchedName arg.1 <:+: flat ' ' ts
  rw [infix_flat_iff (by simp) (hspace '+' strpy.isSpace_plus),
    infix_flat_iff (by simp) (hspace '-' strpy.isSpace_minus)]
  exact ⟨fun ⟨t, ht, hm⟩ => (h t ht).1 hm, fun ⟨t, ht, hm⟩ => (h t ht).2 hm⟩

/-- After a clear search `remove` leaves tokens joined by single spaces. -/
theorem remove_clearSearch {args : CmdLineArgs} (h : NormalForm strpy args)
    (arg : Unspaced strpy) (hclear : ClearSearch strpy args arg.1) :
    ∃ ts : List strpy.Token, args.remove arg.1 = ⟨flat ' ' ts⟩ := by
  obtain ⟨ts, hts⟩ := h.exists_flat
  obtain ⟨arguments⟩ := args
  obtain rfl : arguments = flat ' ' ts := hts
  obtain ⟨hne, hfound⟩ := hclear
  dsimp only at hfound
  rw [wordsOf_eq (words_flat strpy.isSpace_space ts)] at hfound
  by_cases hm : ∃ t ∈ ts, '+' :: searchedName arg.1 <:+: t.chars ∨
      '-' :: searchedName arg.1 <:+: t.chars
  · obtain ⟨t, ht, hmention⟩ := hm
    have hname := (hfound t ht hmention).1
    let n : ArgName strpy :=
      ⟨⟨removeArgumentPrefix arg.1, hne, by rw [hname]; exact searchedName_unspaced arg⟩,
        not_isPrefixChar_of_fixed hname.symm⟩
    have hunambiguous : Unambiguous n ts := by
      intro t ht hmention
      unfold Mentions at hmention
      rw [show n.chars = searchedName arg.1 from hname] at hmention
      have hexact := (hfound t ht hmention).2
      rw [← hname] at hexact
      exact isArg_iff.mpr hexact
    refine ⟨dropArg n ts, ?_⟩
    rw [← remove_flat hunambiguous]
    unfold CmdLineArgs.remove
    rw [removeArgumentPrefix_name]
  · refine ⟨ts, remove_of_not_found arg fun t ht => ?_⟩
    exact not_or.mp fun hmention => hm ⟨t, ht, hmention⟩

theorem exists_optionChars (s : Unspaced strpy) :
    ∃ o : Option strpy.Token, s.1 = optionChars o := by
  by_cases hs : s.1 = []
  · exact ⟨none, hs⟩
  · exact ⟨some ⟨s.1, hs, s.2⟩, rfl⟩

/-- What a valid push puts together: an argument that is a token, its option, and the tokens that
    are left. -/
theorem exists_parts {args : CmdLineArgs} (h : NormalForm strpy args) (arg option : Unspaced strpy)
    (hvalid : isValidArgument arg.1 = true) (hclear : ClearSearch strpy args arg.1) :
    ∃ (a : strpy.Token) (o : Option strpy.Token) (ts : List strpy.Token), arg.1 = a.chars ∧
      option.1 = optionChars o ∧ args.remove a.chars = ⟨flat ' ' ts⟩ := by
  have hne : arg.1 ≠ [] := by
    intro hnil
    rw [hnil] at hvalid
    cases hvalid
  obtain ⟨o, ho⟩ := exists_optionChars option
  obtain ⟨ts, hts⟩ := remove_clearSearch h arg hclear
  exact ⟨⟨arg.1, hne, arg.2⟩, o, ts, rfl, ho, hts⟩

theorem strip_unspaced (s : Unspaced strpy) : strpy.strip s.1 = s.1 := by
  obtain ⟨o, ho⟩ := exists_optionChars s
  rw [ho, strip_optionChars]

/-- A clear call keeps the form. -/
theorem normalForm_apply {args : CmdLineArgs} (h : NormalForm strpy args) {call : Call strpy}
    (hclear : ClearCall args call) : NormalForm strpy (call.apply args) := by
  cases call with
  | remove arg =>
    obtain ⟨ts, hts⟩ := remove_clearSearch h arg hclear
    show NormalForm strpy (args.remove arg.1)
    rw [hts]
    exact normalForm_flat ts
  | pushFront arg option =>
    show NormalForm strpy (args.pushFront strpy arg.1 option.1)
    by_cases hvalid : isValidArgument arg.1 = true
    · obtain ⟨a, o, ts, ha, ho, hts⟩ := exists_parts h arg option hvalid (hclear hvalid)
      rw [ha] at hvalid ⊢
      rw [ho, pushFront_of_remove (strip_token a) hvalid (strip_optionChars o) hts]
      exact normalForm_flat _
    · rw [CmdLineArgs.pushFront, strip_unspaced, if_pos (by simpa using hvalid)]
      exact h
  | pushBack arg option =>
    show NormalForm strpy (args.pushBack strpy arg.1 option.1)
    by_cases hvalid : isValidArgument arg.1 = true
    · obtain ⟨a, o, ts, ha, ho, hts⟩ := exists_parts h arg option hvalid (hclear hvalid)
      rw [ha] at hvalid ⊢
      rw [ho, pushBack_of_remove (strip_token a) hvalid (strip_optionChars o) hts]
      exact normalForm_flat _
    · rw [CmdLineArgs.pushBack, strip_unspaced, if_pos (by simpa using hvalid)]
      exact h

/-- The run of calls stays in the form exactly when it begins in it, which is when no `@`-file
    that brings nothing stands between arguments that do; as long as what the calls search for is
    a whole token. -/
theorem normal_form_iff (fs : CommandFiles strpy) (argv : List Str)
    (hargv : ∀ arg ∈ extractCmdlineArgs argv, ∀ c ∈ arg, strpy.isSpace c = false) :
    ∃ d args, (∀ depth ≥ d,
        CmdLineArgs.fromCommandLine strpy fs.toFileSystem depth argv = .ok args) ∧
      ∀ calls : List (Call strpy), Meets ClearCall args (trace Call.apply args calls) →
        (Always (NormalForm strpy) args (trace Call.apply args calls) ↔
          NoBlankFile fs (extractCmdlineArgs argv)) := by
  obtain ⟨d, args, hbuilt, hform⟩ := build_singleSpaced_iff fs hargv
  refine ⟨d, args, hbuilt, fun calls hclear => ?_⟩
  rw [← hform]
  constructor
  · exact Always.head
  · intro h
    refine always_of_meets (fun s call s' hs hcall hstep => ?_) h (isRun_trace _ args calls) hclear
    rw [hstep]
    exact normalForm_apply hs hcall

/-- A readable file without content. -/
def blankFile : CommandFiles asciiStrpy where
  files := [("empty.cfg".toList, { content := [] })]
  no_cycle := by
    refine no_cycle_of_no_nested fun path content hread w hw => ?_
    obtain ⟨file, hf, rfl⟩ := exists_file_of_fileRead hread
    obtain ⟨-, rfl⟩ := Prod.mk.inj (List.mem_singleton.mp hf)
    exact absurd hw (by rw [split_nil]; simp)

/-- The empty file leaves its space between `-game` and `cstrike`. And where the name is found
    inside of a token, `remove` leaves a space at the front. -/
theorem normal_form_broken :
    CmdLineArgs.fromCommandLine asciiStrpy blankFile.toFileSystem 2
        ["hlds".toList, "-game".toList, "@empty.cfg".toList, "cstrike".toList] =
      .ok ⟨"-game  cstrike".toList⟩ ∧
    ¬ NormalForm asciiStrpy ⟨"-game  cstrike".toList⟩ ∧
    NormalForm asciiStrpy ⟨"x-steam -y".toList⟩ ∧
    ¬ NormalForm asciiStrpy ((CmdLineArgs.mk "x-steam -y".toList).remove "-steam".toList) := by
  unfold NormalForm
  exact ⟨by decide +kernel, by decide +kernel, by decide +kernel, by decide +kernel⟩

/-- `push_back("+map", "de_dust2")` and `remove("-game")`. -/
def gameCalls : List (Call asciiStrpy) :=
  [.pushBack ⟨"+map".toList, asciiStrpy.isSpace_of_isGraph (by decide)⟩
      ⟨"de_dust2".toList, asciiStrpy.isSpace_of_isGraph (by decide)⟩,
    .remove ⟨"-game".toList, asciiStrpy.isSpace_of_isGraph (by decide)⟩]

/-- An empty file at the end does no harm. -/
theorem normal_form_iff_game :
    Always (NormalForm asciiStrpy) ⟨"-game cstrike".toList⟩
      (trace Call.apply ⟨"-game cstrike".toList⟩ gameCalls) := by
  obtain ⟨d, args, hbuilt, hrun⟩ := normal_form_iff blankFile
    ["hlds".toList, "-game".toList, "cstrike".toList, "@empty.cfg".toList] (by
      intro arg harg
      exact asciiStrpy.isSpace_of_isGraph
        (List.all_eq_true.mp (by decide : ["-game".toList, "cstrike".toList,
          "@empty.cfg".toList].all Strpy.isGraph = true) arg harg))
  have hargs : CmdLineArgs.fromCommandLine asciiStrpy blankFile.toFileSystem (d + 2)
      ["hlds".toList, "-game".toList, "cstrike".toList, "@empty.cfg".toList] =
        .ok ⟨"-game cstrike".toList⟩ := rfl
  obtain rfl : args = ⟨"-game cstrike".toList⟩ :=
    Except.ok.inj ((hbuilt (d + 2) (by omega)).symm.trans hargs)
  refine (hrun gameCalls (by decide +kernel)).mpr (.intro ?_ ?_)
  · rintro u arg v heq ⟨content, -, hat, -⟩ -
    have heq : ["-game".toList, "cstrike".toList, "@empty.cfg".toList] = u ++ arg :: v := heq
    have hlast : v = [] := by
      match u, heq with
      | [], heq => exact absurd ((List.cons.inj heq).1 ▸ hat) (by decide)
      | [_], heq => exact absurd ((List.cons.inj (List.cons.inj heq).2).1 ▸ hat) (by decide)
      | [_, _], heq => exact (List.cons.inj (List.cons.inj (List.cons.inj heq).2).2).2.symm
      | _ :: _ :: _ :: _, heq => simp at heq
    exact Or.inr (by rw [hlast]; rfl)
  · intro arg harg content hcontent
    obtain ⟨file, hf, rfl⟩ := exists_file_of_fileRead hcontent.2.2
    obtain ⟨-, rfl⟩ := Prod.mk.inj (List.mem_singleton.mp hf)
    rw [split_nil]
    exact .intro (by simp) (by simp)

end RehldsM.Core
