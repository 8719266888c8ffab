import RehldsM.Model.UserinputHistorySave

/-
  What the history file gives back to a new `UserInputHistory`.

  The entries of a history go through the checks of `load` again, and a new object has nothing
  stale in its ring, so it takes all of them over (`load_new`). `save` truncates the file before
  it writes the lines. Where the process ends in between, the file holds the first bytes of what
  was to be written: some whole lines and a piece of the next. The new object then has these
  entries, and the piece as one more where it passes the checks (`load_torn`).
-/

namespace RehldsM.Model

open Lib Util

/-- The bytes that `save` writes for these entries. -/
def fileLines (entries : List Str) : Str := entries.flatMap fun line => line ++ ['\n']

/-- `split_lines`, for a text that ends without a line break. -/
def SplitsLastLine (strpy : Strpy) : Prop :=
  ∀ line, line ≠ [] → (∀ c ∈ line, strpy.isLineBreak c = false) → strpy.splitLines line = [line]

section load

variable {strpy : Strpy} {fs : FileSystem} {filename : Str}

theorem isValidInput_nil (strpy : Strpy) : isValidInput strpy [] = false := by
  simp [isValidInput, strpy.isEmptyOrSpace_eq]

theorem back_clear_new (filename : Str) :
    (UserInputHistory.new filename).history.clear.back = [] := by
  show (CircularBuffer.new _ : CircularBuffer Str historyCapacity).clear.back = []
  decide

/-- The empty string that a new ring reads at its end is no valid input. -/
theorem acceptedLines_new (filename : Str) (lines : List Str) :
    acceptedLines strpy (some (UserInputHistory.new filename).history.clear.back) lines =
      acceptedLines strpy none lines := by
  rw [back_clear_new, acceptedLines_some, if_neg]
  intro hhead
  have hvalid := valid_acceptedLines none lines [] (List.mem_of_mem_head? (by rw [hhead]; rfl))
  exact absurd (hvalid.symm.trans (isValidInput_nil strpy)) (by decide)

theorem contents_load_new {content : Str} (hread : tryFileRead fs filename = some content) :
    ((UserInputHistory.new filename).load strpy fs).history.contents =
      keepLast historyCapacity (acceptedLines strpy none (strpy.splitLines content)) := by
  rw [contents_load hread, acceptedLines_new]

theorem contents_load_unread (hread : tryFileRead fs filename = none) :
    ((UserInputHistory.new filename).load strpy fs).history.contents = [] := by
  rw [load_unread hread]
  exact (CircularBuffer.contents_eq_nil_iff _).mpr (CircularBuffer.size_new _)

/-- A new object takes over all entries of the one that saved. -/
theorem load_new {entries : List Str} (hvalid : ∀ x ∈ entries, isValidInput strpy x = true)
    (hchain : entries.IsChain (· ≠ ·)) (hlen : entries.length ≤ historyCapacity)
    (hread : tryFileRead fs filename = some (fileLines entries)) :
    ((UserInputHistory.new filename).load strpy fs).history.contents = entries := by
  rw [contents_load_new hread, fileLines, splitLines_lines hvalid,
    acceptedLines_none hvalid hchain, keepLast_of_le hlen]

/-! ## The file behind a save -/

theorem save_of_nil {h : UserInputHistory} (hentries : h.history.contents = []) :
    h.save fs = fs := by
  have hempty : h.history.empty = true :=
    h.history.empty_iff.mpr (h.history.contents_eq_nil_iff.mp hentries)
  unfold UserInputHistory.save
  rw [hempty, Bool.or_true]
  rfl

/-! ## A save that did not come to its end -/

/-- The first bytes of some lines are whole lines and a piece of the next. -/
theorem take_fileLines (entries : List Str) (n : Nat) :
    ∃ k torn, (fileLines entries).take n = fileLines (entries.take k) ++ torn ∧
      torn <+: entries[k]?.getD [] := by
  induction entries generalizing n with
  | nil => exact ⟨0, [], by simp [fileLines], List.nil_prefix⟩
  | cons line entries ih =>
    have hlines : fileLines (line :: entries) = line ++ '\n' :: fileLines entries := by
      simp [fileLines]
    by_cases hn : n ≤ line.length
    · refine ⟨0, line.take n, ?_, List.take_prefix n line⟩
      rw [hlines, List.take_append_of_le_length hn]
      rfl
    · obtain ⟨m, rfl⟩ : ∃ m, n = line.length + (m + 1) := ⟨n - line.length - 1, by omega⟩
      obtain ⟨k, torn, htake, hbegins⟩ := ih m
      refine ⟨k + 1, torn, ?_, hbegins⟩
      rw [hlines, List.take_length_add_append, List.take_succ_cons, htake]
      simp [fileLines]

theorem splitLines_torn (hlast : SplitsLastLine strpy) {entries : List Str} {torn : Str}
    (hvalid : ∀ x ∈ entries, isValidInput strpy x = true)
    (htorn : ∀ c ∈ torn, strpy.isPrintableChar c = true) :
    strpy.splitLines (fileLines entries ++ torn) =
      entries ++ if torn = [] then [] else [torn] := by
  have hbreak : ∀ line : Str, (∀ c ∈ line, strpy.isPrintableChar c = true) →
      ∀ c ∈ line, strpy.isLineBreak c = false := by
    intro line hline c hc
    by_contra hcon
    have hnot := strpy.lineBreak_not_printable c (by simpa using hcon)
    exact absurd ((hline c hc).symm.trans hnot) (by decide)
  induction entries with
  | nil =>
    by_cases hnil : torn = []
    · simpa [fileLines, hnil] using strpy.splitLines_nil
    · simpa [fileLines, hnil] using hlast torn hnil (hbreak torn htorn)
  | cons line entries ih =>
    have hline := (Bool.and_eq_true_iff.mp (hvalid line List.mem_cons_self)).2
    rw [strpy.isPrintable_eq, List.all_eq_true] at hline
    have hrest := ih fun x hx => hvalid x (List.mem_cons_of_mem _ hx)
    have hlines : fileLines (line :: entries) ++ torn =
        line ++ '\n' :: (fileLines entries ++ torn) := by simp [fileLines]
    rw [hlines, strpy.splitLines_cons line _ (hbreak line hline), hrest]
    rfl

/-- A piece of an entry is printable, as the entry is. -/
theorem printable_of_prefix {input torn : Str} (hvalid : isValidInput strpy input = true)
    (hbegins : torn <+: input) : ∀ c ∈ torn, strpy.isPrintableChar c = true := by
  have hprintable := (Bool.and_eq_true_iff.mp hvalid).2
  rw [strpy.isPrintable_eq, List.all_eq_true] at hprintable
  exact fun c hc => hprintable c (hbegins.subset hc)

/-- One more line behind entries that are taken over. -/
theorem acceptedLines_concat {entries : List Str}
    (hvalid : ∀ x ∈ entries, isValidInput strpy x = true) (hchain : entries.IsChain (· ≠ ·))
    (hlen : entries.length < historyCapacity) (input : Str) :
    keepLast historyCapacity (acceptedLines strpy none (entries ++ [input])) =
      referenceAppend strpy entries input := by
  have hfold : ∀ lines : List Str, lines.foldl (referenceAppend strpy) [] =
      keepLast historyCapacity (acceptedLines strpy none lines) := by
    intro lines
    rw [foldl_referenceAppend (Nat.zero_le _), List.nil_append, List.getLast?_nil]
  have hentries : entries.foldl (referenceAppend strpy) [] = entries := by
    rw [hfold, acceptedLines_none hvalid hchain, keepLast_of_le (Nat.le_of_lt hlen)]
  rw [← hfold, List.foldl_append, hentries]
  rfl

end load

/-- The process ends while `save` writes, after any calls on a new history: of the file any
    number of bytes is there. The next server has the first entries, and behind them the piece
    of an entry that the file ends with, where that is a valid input and no repetition. -/
theorem load_torn (strpy : Strpy) (hlast : SplitsLastLine strpy) (filename : Str)
    (calls : List HistoryCall) (n : Nat) (fs : FileSystem)
    (hread : tryFileRead fs filename =
      some ((fileLines (historyAfter strpy filename calls).history.contents).take n)) :
    let entries := (historyAfter strpy filename calls).history.contents
    ∃ k torn, (fileLines entries).take n = fileLines (entries.take k) ++ torn ∧
      torn <+: entries[k]?.getD [] ∧
      ((UserInputHistory.new filename).load strpy fs).history.contents =
        referenceAppend strpy (entries.take k) torn := by
  intro entries
  have hr := (historyAfter_spec strpy filename calls).1
  have hlen : entries.length ≤ historyCapacity := by
    show (historyAfter strpy filename calls).history.contents.length ≤ _
    rw [CircularBuffer.length_contents]
    exact CircularBuffer.size_le _
  obtain ⟨k, torn, htake, hbegins⟩ := take_fileLines entries n
  refine ⟨k, torn, htake, hbegins, ?_⟩
  have hvalid : ∀ x ∈ entries.take k, isValidInput strpy x = true :=
    fun x hx => hr.valid x (List.mem_of_mem_take hx)
  have hchain : (entries.take k).IsChain (· ≠ ·) := by
    have hsplit : (entries.take k ++ entries.drop k).IsChain (· ≠ ·) := by
      rw [List.take_append_drop]
      exact hr.neighbours
    exact (List.isChain_append.mp hsplit).1
  rw [contents_load_new hread, htake]
  by_cases hk : k < entries.length
  · have hentry : entries[k]?.getD [] = entries[k] := by simp [hk]
    rw [hentry] at hbegins
    have hprintable := printable_of_prefix (hr.valid _ (List.getElem_mem hk)) hbegins
    rw [splitLines_torn hlast hvalid hprintable]
    have hshort : (entries.take k).length < historyCapacity := by
      rw [List.length_take]
      omega
    by_cases hnil : torn = []
    · have hnone : referenceAppend strpy (entries.take k) torn = entries.take k := by
        rw [referenceAppend, hnil, isValidInput_nil]
        rfl
      rw [if_pos hnil, List.append_nil, acceptedLines_none hvalid hchain,
        keepLast_of_le (Nat.le_of_lt hshort), hnone]
    · rw [if_neg hnil]
      exact acceptedLines_concat hvalid hchain hshort torn
  · -- The bytes are all there.
    have hentry : entries[k]?.getD [] = [] := by
      rw [List.getElem?_eq_none (Nat.not_lt.mp hk)]
      rfl
    rw [hentry] at hbegins
    obtain rfl := List.prefix_nil.mp hbegins
    have hall : entries.take k = entries := List.take_of_length_le (Nat.not_lt.mp hk)
    have hnone : referenceAppend strpy entries [] = entries := by
      rw [referenceAppend, isValidInput_nil]
      rfl
    rw [hall] at hvalid hchain ⊢
    rw [List.append_nil, fileLines, splitLines_lines hvalid, acceptedLines_none hvalid hchain,
      keepLast_of_le hlen, hnone]

theorem splitsLastLine_ascii : SplitsLastLine asciiStrpy := by
  intro line hne hbreak
  have hsplit : line.splitOnP isAsciiLineBreak = [line] :=
    List.splitOnP_eq_singleton hbreak
  show asciiSplitLines line = [line]
  rw [asciiSplitLines, hsplit]
  simpa using hne

/-- `status` and `stats` were entered; of the file nine bytes are there, the last two `st`. -/
theorem load_torn_status :
    ∃ k torn, "status\nst".toList = fileLines (["status".toList, "stats".toList].take k) ++ torn ∧
      torn <+: ["status".toList, "stats".toList][k]?.getD [] ∧
      ((UserInputHistory.new ['h']).load asciiStrpy
          { files := [(['h'], { content := "status\nst".toList })] }).history.contents =
        referenceAppend asciiStrpy (["status".toList, "stats".toList].take k) torn :=
  load_torn asciiStrpy splitsLastLine_ascii ['h'] [.append "status".toList, .append "stats".toList]
    9 { files := [(['h'], { content := "status\nst".toList })] } (by decide +kernel)

end RehldsM.Model
