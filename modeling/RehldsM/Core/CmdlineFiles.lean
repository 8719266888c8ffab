import RehldsM.Core.CmdlineTokens
import RehldsM.Lib.Cycle

/-
  `from_command_line` with `@`-files.

  `expand` says what an argument stands for: its own words, or for `@file` what the words of
  the file stand for. It recurses along `Includes`, which is well founded when no file includes
  itself, directly or through others; `CommandFiles` is a file system that carries this.

  `build_arguments_string` appends a piece of text for every argument. Every piece is empty or
  ends in a space (`Closed`), so words of neighbouring pieces never merge, at any depth of
  nesting (`appendArgument_expand`). Two things go wrong. `file_exists` ends the process where
  the status of a path cannot be asked. And `get_current()` hands the string out as a C string,
  which ends at the first NUL a file has brought in. Without them it has the expanded words, in
  order (`fromCommandLine_expand_iff`).
-/

namespace RehldsM.Core

open Lib Util Relation

variable {strpy : Strpy}

/-- `y` is `@file`, and `x` is a word of that file. -/
def Includes (strpy : Strpy) (fs : FileSystem) (x y : Str) : Prop :=
  ∃ content, isSkipped y = false ∧ y.head? = some '@' ∧ fileRead fs (y.drop 1) = .ok content ∧
    x ∈ strpy.split content

/-- A file system without include cycles. -/
structure CommandFiles (strpy : Strpy) extends FileSystem where
  no_cycle : ∀ x, ¬ TransGen (Includes strpy toFileSystem) x x

/-- A disk without include cycles. -/
structure CommandDisk (strpy : Strpy) extends Disk where
  no_cycle : ∀ x, ¬ TransGen (Includes strpy toFileSystem) x x

def CommandDisk.commandFiles (disk : CommandDisk strpy) : CommandFiles strpy :=
  { disk.toFileSystem with no_cycle := disk.no_cycle }

def CommandFiles.commandDisk (fs : CommandFiles strpy) : CommandDisk strpy :=
  { fs.toFileSystem.toDisk with no_cycle := fs.no_cycle }

/-- Only the files of the file system include something. -/
theorem mem_files_of_includes {fs : FileSystem} {x y : Str} (h : Includes strpy fs x y) :
    y ∈ fs.files.map fun f => '@' :: f.1 := by
  obtain ⟨content, -, hhead, hread, -⟩ := h
  obtain ⟨file, hf, -⟩ := exists_file_of_fileRead hread
  refine List.mem_map.mpr ⟨_, hf, ?_⟩
  cases y with
  | nil => simp at hhead
  | cons c s =>
    obtain rfl : c = '@' := by simpa using hhead
    rfl

theorem CommandFiles.wellFounded (fs : CommandFiles strpy) :
    WellFounded (Includes strpy fs.toFileSystem) :=
  wellFounded_of_no_cycle _ (fun _ _ => mem_files_of_includes) fs.no_cycle

/-- What an argument stands for. -/
noncomputable def expand (fs : CommandFiles strpy) : Str → List Str :=
  fs.wellFounded.fix fun arg expandWord =>
    if hskip : isSkipped arg = true then []
    else if hat : arg.head? = some '@' then
      match hread : fileRead fs.toFileSystem (arg.drop 1) with
      | .ok content =>
        (strpy.split content).attach.flatMap fun x =>
          expandWord x.1 ⟨content, by simpa using hskip, hat, hread, x.2⟩
      | .error _ => []
    else strpy.split arg

theorem expand_of_skipped (fs : CommandFiles strpy) {arg : Str} (h : isSkipped arg = true) :
    expand fs arg = [] := by
  rw [expand, WellFounded.fix_eq, dif_pos h]

theorem expand_of_word (fs : CommandFiles strpy) {arg : Str} (h : isSkipped arg = false)
    (hat : arg.head? ≠ some '@') : expand fs arg = strpy.split arg := by
  rw [expand, WellFounded.fix_eq, dif_neg (by simp [h]), dif_neg hat]

theorem expand_of_file (fs : CommandFiles strpy) {arg content : Str} (h : isSkipped arg = false)
    (hat : arg.head? = some '@') (hread : fileRead fs.toFileSystem (arg.drop 1) = .ok content) :
    expand fs arg = (strpy.split content).flatMap (expand fs) := by
  rw [expand, WellFounded.fix_eq, dif_neg (by simp [h]), dif_pos hat]
  split
  · next c hc =>
    obtain rfl : c = content := by simpa using hc.symm.trans hread
    rw [← expand]
    conv => rhs; rw [← List.attach_map_subtype_val (strpy.split c), List.flatMap_map]
  · next e he => exact absurd (he.symm.trans hread) (by simp)

theorem expand_of_unreadable (fs : CommandFiles strpy) {arg : Str} {e : FileReadErrorCode}
    (h : isSkipped arg = false) (hat : arg.head? = some '@')
    (hread : fileRead fs.toFileSystem (arg.drop 1) = .error e) : expand fs arg = [] := by
  rw [expand, WellFounded.fix_eq, dif_neg (by simp [h]), dif_pos hat]
  split
  · next c hc => exact absurd (hc.symm.trans hread) (by simp)
  · rfl

/-! ## What is reached -/

/-- The paths of the `@`-files that are reached from an argument can be asked for their status. -/
def Asked (disk : CommandDisk strpy) (arg : Str) : Prop :=
  ∀ x, ReflTransGen (Includes strpy disk.toFileSystem) x arg → isSkipped x = false →
    x.head? = some '@' → disk.statusError (x.drop 1) = false

/-- No word that is reached from an argument holds a NUL. -/
def NulFree (fs : FileSystem) (strpy : Strpy) (arg : Str) : Prop :=
  ∀ x, ReflTransGen (Includes strpy fs) x arg → isSkipped x = false →
    x.head? ≠ some '@' → '\x00' ∉ x

/-- Nothing that is reached from `argv` ends the process or the C string. -/
structure Expandable (disk : CommandDisk strpy) (argv : List Str) : Prop where
  asked : ∀ arg ∈ extractCmdlineArgs argv, Asked disk arg
  no_nul : ∀ arg ∈ extractCmdlineArgs argv, NulFree disk.toFileSystem strpy arg

theorem forall_reached_iff {fs : FileSystem} {P : Str → Prop} {arg : Str} :
    (∀ x, ReflTransGen (Includes strpy fs) x arg → P x) ↔
      P arg ∧ ∀ y, Includes strpy fs y arg →
        ∀ x, ReflTransGen (Includes strpy fs) x y → P x := by
  constructor
  · intro h
    exact ⟨h arg .refl, fun y hy x hx => h x (hx.tail hy)⟩
  · rintro ⟨harg, h⟩ x hx
    rcases hx.cases_tail with rfl | ⟨y, hx, hy⟩
    · exact harg
    · exact h y hy x hx

theorem asked_iff {disk : CommandDisk strpy} {arg : Str} :
    Asked disk arg ↔
      (isSkipped arg = false → arg.head? = some '@' → disk.statusError (arg.drop 1) = false) ∧
        ∀ x, Includes strpy disk.toFileSystem x arg → Asked disk x :=
  forall_reached_iff

theorem asked_commandDisk (fs : CommandFiles strpy) (arg : Str) : Asked fs.commandDisk arg :=
  fun _ _ _ _ => rfl

/-- The NULs of the words an argument stands for are those of the words it reaches. -/
theorem nulFree_iff (fs : CommandFiles strpy) (arg : Str) :
    NulFree fs.toFileSystem strpy arg ↔ ∀ w ∈ expand fs arg, '\x00' ∉ w := by
  induction arg using fs.wellFounded.induction with
  | _ arg ih =>
    have hreached : NulFree fs.toFileSystem strpy arg ↔
        (isSkipped arg = false → arg.head? ≠ some '@' → '\x00' ∉ arg) ∧
          ∀ x, Includes strpy fs.toFileSystem x arg → NulFree fs.toFileSystem strpy x :=
      forall_reached_iff
    refine hreached.trans ?_
    cases hskip : isSkipped arg with
    | true =>
      rw [expand_of_skipped fs hskip]
      refine iff_of_true ⟨by simp, ?_⟩ (by simp)
      rintro y ⟨content, hnot, -⟩
      exact absurd (hskip.symm.trans hnot) (by simp)
    | false =>
      by_cases hat : arg.head? = some '@'
      · cases hread : fileRead fs.toFileSystem (arg.drop 1) with
        | error e =>
          rw [expand_of_unreadable fs hskip hat hread]
          refine iff_of_true ⟨fun _ hnot => absurd hat hnot, ?_⟩ (by simp)
          rintro y ⟨content, -, -, hok, -⟩
          exact absurd (hread.symm.trans hok) (by simp)
        | ok content =>
          rw [expand_of_file fs hskip hat hread]
          have hincludes : ∀ y, Includes strpy fs.toFileSystem y arg ↔ y ∈ strpy.split content := by
            intro y
            refine ⟨?_, fun hy => ⟨content, hskip, hat, hread, hy⟩⟩
            rintro ⟨content', -, -, hread', hy⟩
            rwa [Except.ok.inj (hread.symm.trans hread')]
          constructor
          · rintro ⟨-, h⟩ w hw
            obtain ⟨y, hy, hw⟩ := List.mem_flatMap.mp hw
            exact (ih y ((hincludes y).mpr hy)).mp (h y ((hincludes y).mpr hy)) w hw
          · intro h
            refine ⟨fun _ hnot => absurd hat hnot, fun y hy => (ih y hy).mpr fun w hw => ?_⟩
            exact h w (List.mem_flatMap.mpr ⟨y, (hincludes y).mp hy, hw⟩)
      · rw [expand_of_word fs hskip hat, strpy.split_eq]
        have hword := not_congr (mem_iff_mem_words strpy.isSpace_nul arg)
        push Not at hword
        rw [← hword]
        constructor
        · exact fun h => h.1 rfl hat
        · intro h
          refine ⟨fun _ _ => h, ?_⟩
          rintro y ⟨content, -, hnot, -⟩
          exact absurd hnot hat

/-! ## The pieces of text -/

/-- No word of `p` reaches into what is appended to it. -/
def Closed (strpy : Strpy) (p : Str) : Prop :=
  ∀ t, strpy.split (p ++ t) = strpy.split p ++ strpy.split t

theorem closed_nil : Closed strpy [] := by
  intro t
  simp [strpy.split_eq]

theorem closed_concat_space (p : Str) : Closed strpy (p ++ [' ']) := by
  intro t
  rw [strpy.split_eq, strpy.split_eq, strpy.split_eq, List.append_assoc, List.singleton_append,
    words_append_sep p t strpy.isSpace_space, words_concat_sep p strpy.isSpace_space]

theorem Closed.append {p q : Str} (hp : Closed strpy p) (hq : Closed strpy q) :
    Closed strpy (p ++ q) := by
  intro t
  rw [List.append_assoc, hp, hq, hp, List.append_assoc]

/-- The loop of `build_arguments_string` from a string on. -/
def appendArguments (disk : CommandDisk strpy) (depth : Nat) (string : Str) (args : List Str) :
    Except NoReturn Str :=
  args.foldlM (appendArgument strpy disk.toDisk (buildArgumentsString strpy disk.toDisk depth))
    string

/-- For a deep enough nesting the loop over `args` appends a closed text with the words they
    stand for, or ends the process. -/
structure Renders (disk : CommandDisk strpy) (args : List Str) : Prop where
  appends : (∀ arg ∈ args, Asked disk arg) → ∃ depth₀ p, Closed strpy p ∧
    strpy.split p = args.flatMap (expand disk.commandFiles) ∧
    ∀ depth ≥ depth₀, ∀ string, appendArguments disk depth string args = .ok (string ++ p)
  terminates : ¬ (∀ arg ∈ args, Asked disk arg) → ∃ depth₀, ∀ depth ≥ depth₀, ∀ string,
    appendArguments disk depth string args = .error .terminate

/-- The same of the string that is built. -/
structure BuildsWords (disk : CommandDisk strpy) (args : List Str) : Prop where
  returns : (∀ arg ∈ args, Asked disk arg) → ∃ depth₀ s,
    strpy.split s = args.flatMap (expand disk.commandFiles) ∧
    ∀ depth ≥ depth₀, buildArgumentsString strpy disk.toDisk depth args = .ok s
  terminates : ¬ (∀ arg ∈ args, Asked disk arg) → ∃ depth₀, ∀ depth ≥ depth₀,
    buildArgumentsString strpy disk.toDisk depth args = .error .terminate

variable {disk : CommandDisk strpy}

theorem renders_nil : Renders disk [] where
  appends _ := ⟨0, [], closed_nil, by simp [strpy.split_eq],
    fun _ _ string => congrArg Except.ok (List.append_nil string).symm⟩
  terminates hnot := absurd (fun _ h => absurd h List.not_mem_nil) hnot

theorem appendArguments_cons (depth : Nat) (string x : Str) (args : List Str) :
    appendArguments disk depth string (x :: args) =
      (appendArguments disk depth string [x]).bind fun string' =>
        appendArguments disk depth string' args := by
  unfold appendArguments
  rw [← List.singleton_append, List.foldlM_append]
  rfl

theorem Renders.cons {x : Str} {args : List Str} (hx : Renders disk [x])
    (h : Renders disk args) : Renders disk (x :: args) where
  appends hasked := by
    obtain ⟨hx', hargs⟩ := List.forall_mem_cons.mp hasked
    obtain ⟨d, p, hp, hsplit, hfold⟩ := hx.appends (List.forall_mem_singleton.mpr hx')
    obtain ⟨d', p', hp', hsplit', hfold'⟩ := h.appends hargs
    refine ⟨max d d', p ++ p', hp.append hp', ?_, fun depth hdepth string => ?_⟩
    · rw [hp p', hsplit, hsplit']
      simp
    · rw [appendArguments_cons, hfold depth (by omega) string, ← List.append_assoc]
      exact hfold' depth (by omega) (string ++ p)
  terminates hnot := by
    by_cases hx' : ∀ arg ∈ [x], Asked disk arg
    · have hargs : ¬ ∀ arg ∈ args, Asked disk arg := fun hargs =>
        hnot (List.forall_mem_cons.mpr ⟨List.forall_mem_singleton.mp hx', hargs⟩)
      obtain ⟨d, p, -, -, hfold⟩ := hx.appends hx'
      obtain ⟨d', hfold'⟩ := h.terminates hargs
      refine ⟨max d d', fun depth hdepth string => ?_⟩
      rw [appendArguments_cons, hfold depth (by omega) string]
      exact hfold' depth (by omega) (string ++ p)
    · obtain ⟨d, hfold⟩ := hx.terminates hx'
      refine ⟨d, fun depth hdepth string => ?_⟩
      rw [appendArguments_cons, hfold depth hdepth string]
      rfl

theorem Renders.of_forall {args : List Str} (h : ∀ x ∈ args, Renders disk [x]) :
    Renders disk args := by
  induction args with
  | nil => exact renders_nil
  | cons x args ih =>
    exact (h x (by simp)).cons (ih fun y hy => h y (by simp [hy]))

/-- The string built for a list of arguments has the words they stand for. -/
theorem Renders.build {args : List Str} (h : Renders disk args) : BuildsWords disk args where
  returns hasked := by
    obtain ⟨d, p, -, hsplit, hfold⟩ := h.appends hasked
    refine ⟨d + 1, strpy.strip p, ?_, fun depth hdepth => ?_⟩
    · rw [← hsplit, strpy.strip_eq, strpy.split_eq, strpy.split_eq, words_trim]
    · obtain ⟨k, rfl⟩ : ∃ k, depth = k + 1 := ⟨depth - 1, by omega⟩
      have hloop := hfold k (by omega) []
      unfold appendArguments at hloop
      rw [buildArgumentsString, hloop]
      rfl
  terminates hnot := by
    obtain ⟨d, hfold⟩ := h.terminates hnot
    refine ⟨d + 1, fun depth hdepth => ?_⟩
    obtain ⟨k, rfl⟩ : ∃ k, depth = k + 1 := ⟨depth - 1, by omega⟩
    have hloop := hfold k (by omega) []
    unfold appendArguments at hloop
    rw [buildArgumentsString, hloop]
    rfl

/-- An argument that comes back with a piece of text, at every path that may be asked. -/
theorem renders_singleton {arg p : Str} (hp : Closed strpy p)
    (hsplit : strpy.split p = expand disk.commandFiles arg) (hasked : Asked disk arg) (d : Nat)
    (h : ∀ depth ≥ d, ∀ string, appendArgument strpy disk.toDisk
      (buildArgumentsString strpy disk.toDisk depth) string arg = .ok (string ++ p)) :
    Renders disk [arg] where
  appends _ := by
    refine ⟨d, p, hp, by simpa using hsplit, fun depth hdepth string => ?_⟩
    unfold appendArguments
    rw [foldlM_cons_ok (h depth hdepth string)]
    rfl
  terminates hnot := absurd (List.forall_mem_singleton.mpr hasked) hnot

theorem renders_terminate {arg : Str} (hasked : ¬ Asked disk arg) (d : Nat)
    (h : ∀ depth ≥ d, ∀ string, appendArgument strpy disk.toDisk
      (buildArgumentsString strpy disk.toDisk depth) string arg = .error .terminate) :
    Renders disk [arg] where
  appends hall := absurd (List.forall_mem_singleton.mp hall) hasked
  terminates _ := by
    refine ⟨d, fun depth hdepth string => ?_⟩
    unfold appendArguments
    rw [List.foldlM_cons, h depth hdepth string]
    rfl

/-- What `file_read` says of the path of an `@`-file. -/
theorem CommandDisk.fileRead_at (disk : CommandDisk strpy) {arg : Str}
    (hskip : isSkipped arg = false) (hat : arg.head? = some '@') :
    disk.toDisk.fileRead (arg.drop 1) =
      if disk.statusError (arg.drop 1) = true then .error .terminate
      else .ok (fileRead disk.toFileSystem (arg.drop 1)) := by
  refine disk.toDisk.fileRead_eq ?_
  match arg, hskip, hat with
  | [c], hskip, hat =>
    obtain rfl : c = '@' := by simpa using hat
    exact absurd hskip (by decide)
  | _ :: _ :: _, _, _ => simp

section singleton

variable {arg : Str}

theorem renders_skipped (hskip : isSkipped arg = true) : Renders disk [arg] := by
  have hasked : Asked disk arg := asked_iff.mpr ⟨fun hnot => absurd (hskip.symm.trans hnot)
    (by simp), fun x ⟨_, hnot, _⟩ => absurd (hskip.symm.trans hnot) (by simp)⟩
  refine renders_singleton closed_nil ?_ hasked 0 fun depth _ string => ?_
  · rw [expand_of_skipped disk.commandFiles hskip]
    simp [strpy.split_eq]
  · simp [appendArgument, hskip]

theorem renders_word (hskip : isSkipped arg = false) (hat : arg.head? ≠ some '@') :
    Renders disk [arg] := by
  have hasked : Asked disk arg := asked_iff.mpr ⟨fun _ hfile => absurd hfile hat,
    fun x ⟨_, _, hfile, _⟩ => absurd hfile hat⟩
  refine renders_singleton (closed_concat_space arg) ?_ hasked 0 fun depth _ string => ?_
  · rw [strpy.split_eq, words_concat_sep arg strpy.isSpace_space, ← strpy.split_eq,
      expand_of_word disk.commandFiles hskip hat]
  · simp [appendArgument, hskip, hat]

/-- A path whose status cannot be asked. -/
theorem renders_unasked (hskip : isSkipped arg = false) (hat : arg.head? = some '@')
    (hstatus : disk.statusError (arg.drop 1) = true) : Renders disk [arg] := by
  have hasked : ¬ Asked disk arg := fun hasked =>
    absurd (hstatus.symm.trans ((asked_iff.mp hasked).1 hskip hat)) (by simp)
  refine renders_terminate hasked 0 fun depth _ string => ?_
  rw [appendArgument, if_neg (by simp [hskip]), if_pos hat, disk.fileRead_at hskip hat,
    if_pos hstatus]

theorem renders_unreadable {e : FileReadErrorCode} (hskip : isSkipped arg = false)
    (hat : arg.head? = some '@') (hstatus : disk.statusError (arg.drop 1) = false)
    (hread : fileRead disk.toFileSystem (arg.drop 1) = .error e) : Renders disk [arg] := by
  have hasked : Asked disk arg := asked_iff.mpr ⟨fun _ _ => hstatus,
    fun x ⟨_, _, _, hok, _⟩ => absurd (hread.symm.trans hok) (by simp)⟩
  refine renders_singleton closed_nil ?_ hasked 0 fun depth _ string => ?_
  · rw [expand_of_unreadable disk.commandFiles hskip hat hread]
    simp [strpy.split_eq]
  · rw [appendArgument, if_neg (by simp [hskip]), if_pos hat, disk.fileRead_at hskip hat,
      if_neg (by rw [hstatus]; simp), hread, List.append_nil]

/-- A file that can be read: its words have been rendered. -/
theorem renders_file {content : Str} (hskip : isSkipped arg = false) (hat : arg.head? = some '@')
    (hstatus : disk.statusError (arg.drop 1) = false)
    (hread : fileRead disk.toFileSystem (arg.drop 1) = .ok content)
    (hwords : Renders disk (strpy.split content)) : Renders disk [arg] := by
  have hasked : Asked disk arg ↔ ∀ x ∈ strpy.split content, Asked disk x := by
    refine asked_iff.trans ⟨fun h x hx => h.2 x ⟨content, hskip, hat, hread, hx⟩,
      fun h => ⟨fun _ _ => hstatus, ?_⟩⟩
    rintro x ⟨content', -, -, hread', hx⟩
    exact h x (by rwa [Except.ok.inj (hread.symm.trans hread')])
  have hturn : ∀ nested string, appendArgument strpy disk.toDisk nested string arg =
      (nested (strpy.split content)).map fun sub => string ++ sub ++ [' '] := by
    intro nested string
    rw [appendArgument, if_neg (by simp [hskip]), if_pos hat, disk.fileRead_at hskip hat,
      if_neg (by rw [hstatus]; simp), hread]
  by_cases hall : ∀ x ∈ strpy.split content, Asked disk x
  · obtain ⟨d, s, hsplit, hbuild⟩ := hwords.build.returns hall
    refine renders_singleton (closed_concat_space s) ?_ (hasked.mpr hall) d
      fun depth hdepth string => ?_
    · rw [strpy.split_eq, words_concat_sep s strpy.isSpace_space, ← strpy.split_eq, hsplit,
        expand_of_file disk.commandFiles hskip hat hread]
    · rw [hturn, hbuild depth hdepth, ← List.append_assoc]
      rfl
  · obtain ⟨d, hbuild⟩ := hwords.build.terminates hall
    refine renders_terminate (fun h => hall (hasked.mp h)) d fun depth hdepth string => ?_
    rw [hturn, hbuild depth hdepth]
    rfl

end singleton

/-- One argument, by induction along the includes. -/
theorem appendArgument_expand (disk : CommandDisk strpy) (arg : Str) : Renders disk [arg] := by
  induction arg using disk.commandFiles.wellFounded.induction with
  | _ arg ih =>
    cases hskip : isSkipped arg with
    | true => exact renders_skipped hskip
    | false =>
      by_cases hat : arg.head? = some '@'
      · cases hstatus : disk.statusError (arg.drop 1) with
        | true => exact renders_unasked hskip hat hstatus
        | false =>
          cases hread : fileRead disk.toFileSystem (arg.drop 1) with
          | error e => exact renders_unreadable hskip hat hstatus hread
          | ok content =>
            exact renders_file hskip hat hstatus hread <|
              Renders.of_forall fun x hx => ih x ⟨content, hskip, hat, hread, hx⟩
      · exact renders_word hskip hat

theorem buildsWords (disk : CommandDisk strpy) (args : List Str) : BuildsWords disk args :=
  (Renders.of_forall fun x _ => appendArgument_expand disk x).build

/-- A file system without paths that end the process. -/
theorem exists_build (fs : CommandFiles strpy) (args : List Str) :
    ∃ depth₀ s, strpy.split s = args.flatMap (expand fs) ∧
      ∀ depth ≥ depth₀, buildArgumentsString strpy fs.toFileSystem depth args = .ok s :=
  (buildsWords fs.commandDisk args).returns fun arg _ => asked_commandDisk fs arg

/-- The words up to the first NUL. -/
theorem split_getCurrent (args : CmdLineArgs) :
    strpy.split args.getCurrent = cutWords '\x00' (strpy.split args.arguments) := by
  have hne : (fun c : Char => c != '\x00') = fun c => decide (c ≠ '\x00') := by
    funext c
    by_cases hc : c = '\x00' <;> simp [hc]
  rw [CmdLineArgs.getCurrent, hne, strpy.split_eq, words_takeWhile strpy.isSpace_nul,
    ← strpy.split_eq]

/-- For a deep enough nesting the process ends when a path that is reached from `argv` cannot be
    asked for its status. Otherwise the command line has the words the arguments stand for, in
    order; read as a C string, those up to the first NUL. So what is read are the words the
    arguments stand for exactly when nothing that is reached ends the process or the string. -/
theorem fromCommandLine_expand_iff (disk : CommandDisk strpy) (argv : List Str) :
    let words := (argv.drop firstArgIndex).flatMap (expand disk.commandFiles)
    ∃ depth₀, ∀ depth ≥ depth₀,
      let result := CmdLineArgs.fromCommandLine strpy disk.toDisk depth argv
      ((∀ arg ∈ extractCmdlineArgs argv, Asked disk arg) → ∃ args, result = .ok args ∧
        strpy.split args.arguments = words ∧
        strpy.split args.getCurrent = cutWords '\x00' words) ∧
      (¬ (∀ arg ∈ extractCmdlineArgs argv, Asked disk arg) → result = .error .terminate) ∧
      ((∃ args, result = .ok args ∧ strpy.split args.getCurrent = words) ↔
        Expandable disk argv) := by
  intro words
  have hnul : (∀ w ∈ words, '\x00' ∉ w) ↔
      ∀ arg ∈ extractCmdlineArgs argv, NulFree disk.toFileSystem strpy arg := by
    have hforall : (∀ w ∈ words, '\x00' ∉ w) ↔ ∀ arg ∈ extractCmdlineArgs argv,
        ∀ w ∈ expand disk.commandFiles arg, '\x00' ∉ w := List.forall_mem_flatMap
    exact hforall.trans (forall₂_congr fun arg _ => (nulFree_iff disk.commandFiles arg).symm)
  by_cases hasked : ∀ arg ∈ extractCmdlineArgs argv, Asked disk arg
  · obtain ⟨d, s, hsplit, hbuild⟩ := (buildsWords disk (extractCmdlineArgs argv)).returns hasked
    refine ⟨d, fun depth hdepth => ?_⟩
    have hresult : CmdLineArgs.fromCommandLine strpy disk.toDisk depth argv = .ok ⟨s⟩ := by
      rw [CmdLineArgs.fromCommandLine, hbuild depth hdepth]
      rfl
    have hcut : strpy.split (CmdLineArgs.mk s).getCurrent = cutWords '\x00' words :=
      (split_getCurrent ⟨s⟩).trans (congrArg _ hsplit)
    refine ⟨fun _ => ⟨⟨s⟩, hresult, hsplit, hcut⟩, fun hnot => absurd hasked hnot, ?_⟩
    rw [hresult]
    constructor
    · rintro ⟨args, heq, hwords⟩
      obtain rfl := Except.ok.inj heq
      exact ⟨hasked, hnul.mp (cutWords_eq_self_iff.mp (hcut.symm.trans hwords))⟩
    · intro h
      exact ⟨⟨s⟩, rfl, hcut.trans (cutWords_eq_self_iff.mpr (hnul.mpr h.no_nul))⟩
  · obtain ⟨d, hbuild⟩ := (buildsWords disk (extractCmdlineArgs argv)).terminates hasked
    refine ⟨d, fun depth hdepth => ?_⟩
    have hresult : CmdLineArgs.fromCommandLine strpy disk.toDisk depth argv =
        .error .terminate := by
      rw [CmdLineArgs.fromCommandLine, hbuild depth hdepth]
      rfl
    refine ⟨fun hall => absurd hall hasked, fun _ => hresult, ?_⟩
    rw [hresult]
    refine iff_of_false ?_ fun h => hasked h.asked
    rintro ⟨args, heq, -⟩
    cases heq

theorem no_cycle_of_no_nested {fs : FileSystem}
    (h : ∀ path content, fileRead fs path = .ok content →
      ∀ w ∈ strpy.split content, w.head? ≠ some '@') :
    ∀ x, ¬ TransGen (Includes strpy fs) x x := by
  intro x hx
  obtain ⟨y, ⟨content, -, -, hread, hmem⟩, -⟩ := TransGen.head'_iff.mp hx
  obtain ⟨z, -, ⟨-, -, hat, -, -⟩⟩ := TransGen.tail'_iff.mp hx
  exact h _ content hread x hmem hat

/-- One file, `f`, that holds a NUL between `a` and `b`. -/
def nulFiles : FileSystem := { files := [("f".toList, { content := "a\x00b c".toList })] }

theorem find_nulFiles {path : Str} (hlong : decide (255 < path.length) = true) :
    nulFiles.find path = none := by
  have hne : path ≠ ['f'] := by
    rintro rfl
    exact absurd hlong (by decide)
  simp [nulFiles, FileSystem.find, hne]

theorem no_cycle_nulFiles : ∀ x, ¬ TransGen (Includes asciiStrpy nulFiles) x x := by
  refine no_cycle_of_no_nested fun path content hread w hw => ?_
  obtain ⟨file, hf, rfl⟩ := exists_file_of_fileRead hread
  obtain ⟨-, rfl⟩ := Prod.mk.inj (List.mem_singleton.mp hf)
  have hwords : asciiStrpy.split "a\x00b c".toList = ["a\x00b".toList, "c".toList] := by
    decide +kernel
  rw [hwords] at hw
  rcases List.mem_pair.mp hw with rfl | rfl <;> decide

/-- These files on a disk whose names are limited to 255 characters. -/
def nulDisk : CommandDisk asciiStrpy where
  toFileSystem := nulFiles
  statusError path := 255 < path.length
  no_file _ := find_nulFiles
  no_cycle := no_cycle_nulFiles

/-- `@` and a name of 256 characters. -/
def longName : Str := '@' :: List.replicate 256 'a'

theorem expand_nulDisk {w : Str} (hskip : isSkipped w = false) (hat : w.head? ≠ some '@')
    (hsplit : asciiStrpy.split w = [w]) : expand nulDisk.commandFiles w = [w] :=
  (expand_of_word nulDisk.commandFiles hskip hat).trans hsplit

/-- The engine is handed `a` alone; `b` and `c` are lost. -/
theorem getCurrent_ends_at_nul :
    ∃ args, CmdLineArgs.fromCommandLine asciiStrpy nulDisk.toDisk 2
        ["hlds".toList, "@f".toList] = .ok args ∧
      args.getCurrent = "a".toList ∧
      asciiStrpy.split args.getCurrent ≠
        (["hlds".toList, "@f".toList].drop firstArgIndex).flatMap
          (expand nulDisk.commandFiles) := by
  refine ⟨⟨"a\x00b c".toList⟩, by decide +kernel, by decide, ?_⟩
  have hread : fileRead nulDisk.commandFiles.toFileSystem "f".toList =
      .ok "a\x00b c".toList := by decide +kernel
  have hwords : asciiStrpy.split "a\x00b c".toList = ["a\x00b".toList, "c".toList] := by
    decide +kernel
  have hfile : expand nulDisk.commandFiles "@f".toList =
      (asciiStrpy.split "a\x00b c".toList).flatMap (expand nulDisk.commandFiles) :=
    expand_of_file nulDisk.commandFiles (by decide) (by decide) hread
  have ha := expand_nulDisk (w := "a\x00b".toList) (by decide) (by decide) (by decide +kernel)
  have hc := expand_nulDisk (w := "c".toList) (by decide) (by decide) (by decide +kernel)
  show _ ≠ expand nulDisk.commandFiles "@f".toList ++ []
  rw [hfile, hwords, List.flatMap_cons, List.flatMap_cons, ha, hc]
  decide +kernel

/-- No file has the long name, so the arguments stand for `-game cstrike`; but the process ends.
    And the command line from `f` loses two words. -/
theorem fromCommandLine_misses :
    ((["hlds".toList, longName, "-game".toList, "cstrike".toList].drop firstArgIndex).flatMap
        (expand nulDisk.commandFiles) = ["-game".toList, "cstrike".toList] ∧
      ∀ depth, CmdLineArgs.fromCommandLine asciiStrpy nulDisk.toDisk (depth + 1)
        ["hlds".toList, longName, "-game".toList, "cstrike".toList] = .error .terminate) ∧
    ∃ args, CmdLineArgs.fromCommandLine asciiStrpy nulDisk.toDisk 2
        ["hlds".toList, "@f".toList] = .ok args ∧
      args.getCurrent = "a".toList ∧
      asciiStrpy.split args.getCurrent ≠
        (["hlds".toList, "@f".toList].drop firstArgIndex).flatMap
          (expand nulDisk.commandFiles) := by
  refine ⟨⟨?_, fun depth => ?_⟩, getCurrent_ends_at_nul⟩
  · have hlong : expand nulDisk.commandFiles longName = [] :=
      expand_of_unreadable nulDisk.commandFiles (e := .notExist) (by decide +kernel)
        (by decide +kernel) (by decide +kernel)
    have hgame := expand_nulDisk (w := "-game".toList) (by decide) (by decide) (by decide +kernel)
    have hcstrike := expand_nulDisk (w := "cstrike".toList) (by decide) (by decide)
      (by decide +kernel)
    show expand nulDisk.commandFiles longName ++ (expand nulDisk.commandFiles "-game".toList ++
      (expand nulDisk.commandFiles "cstrike".toList ++ [])) = _
    rw [hlong, hgame, hcstrike]
    rfl
  · have hturn : ∀ nested string, appendArgument asciiStrpy nulDisk.toDisk nested string
        longName = .error .terminate := by
      intro nested string
      rw [appendArgument, if_neg (by decide +kernel), if_pos (by decide +kernel),
        nulDisk.fileRead_at (by decide +kernel) (by decide +kernel), if_pos (by decide +kernel)]
    have hargs : extractCmdlineArgs ["hlds".toList, longName, "-game".toList, "cstrike".toList] =
        longName :: ["-game".toList, "cstrike".toList] := rfl
    rw [CmdLineArgs.fromCommandLine, buildArgumentsString, hargs, List.foldlM_cons, hturn]
    rfl

end RehldsM.Core
