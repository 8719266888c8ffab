import Mathlib.Data.List.Chain
import RehldsM.Model.UserinputHistory

/-
  `UserInputHistory::save` followed by `load`.

  `load` puts every line through the checks of `append` again, so a history survives the round
  trip because its entries have passed them once: they are valid inputs and no two neighbours
  are equal (`Reloadable`, kept by every call). What is left is the first line, which `load`
  compares with the stale `back()` of the ring it has just cleared. A new object has nothing
  there; in the object that saved, the slot holds the last entry when the ring is full. So the
  first entry is lost exactly when the ring is full and begins and ends with the same entry
  (`save_load_iff`).
-/

namespace RehldsM.Model

open Lib Util

/-- The entries pass the checks of `load`; `stale` is about the slot that `back()` reads once
    the ring is cleared. -/
structure Reloadable (strpy : Strpy) (history : CircularBuffer Str historyCapacity) : Prop where
  valid : ∀ input ∈ history.contents, isValidInput strpy input = true
  neighbours : history.contents.IsChain (· ≠ ·)
  stale : history.full = false → history.contents.head? ≠ some history.clear.back

/-- The history after any calls on a new one. -/
def historyAfter (strpy : Strpy) (filename : Str) (calls : List HistoryCall) : UserInputHistory :=
  calls.foldl (historyStep strpy) (UserInputHistory.new filename)

/-- `save()` and then `load()`, on the same object and on a new one of the same file name, give
    the entries back, with the position at the end. -/
def RoundTrips (strpy : Strpy) (h : UserInputHistory) (fs : FileSystem) : Prop :=
  ∀ object ∈ [h, UserInputHistory.new h.filename],
    (object.load strpy (h.save fs)).history.contents = h.history.contents ∧
      (object.load strpy (h.save fs)).position =
        (object.load strpy (h.save fs)).history.contents.length

/-- The full ring does not begin and end with the same entry. -/
def EndsDiffer (h : UserInputHistory) : Prop :=
  h.history.contents.length = historyCapacity →
    h.history.contents.head? ≠ h.history.contents.getLast?

section reloadable

variable {strpy : Strpy}

/-! ## The entries of every history pass the checks -/

theorem isChain_keepLast {xs : List Str} (h : xs.IsChain (· ≠ ·)) (n : Nat) :
    (keepLast n xs).IsChain (· ≠ ·) := by
  have hsplit : (xs.take (xs.length - n) ++ keepLast n xs).IsChain (· ≠ ·) := by
    rw [keepLast, List.take_append_drop]
    exact h
  exact (List.isChain_append.mp hsplit).2.1

theorem reloadable_empty {history : CircularBuffer Str historyCapacity}
    (h : history.contents = []) : Reloadable strpy history where
  valid := by simp [h]
  neighbours := by simp [h]
  stale := by simp [h]

/-- While the ring is not full, nothing is dropped, and the stale slot is what it was. -/
theorem stale_emplaceBack {history : CircularBuffer Str historyCapacity}
    (h : Reloadable strpy history) {input : Str} (hne : input ≠ history.back)
    (hnot : (history.emplaceBack input).1.full = false) :
    (history.emplaceBack input).1.contents.head? ≠
      some (history.emplaceBack input).1.clear.back := by
  have hle := history.size_le
  have hsize : history.size + 1 < historyCapacity := by
    by_contra hcon
    have hmin := history.size_pushBack input
    rw [Nat.min_eq_right (by omega)] at hmin
    have hfull := (CircularBuffer.size_eq_iff_full _).mp hmin
    exact absurd (hfull.symm.trans hnot) (by decide)
  have hstale : (history.emplaceBack input).1.clear.back = history.clear.back :=
    CircularBuffer.back_clear_pushBack input hsize
  rw [hstale, contents_emplaceBack, keepLast_of_le (by simp; omega)]
  cases hcontents : history.contents with
  | nil =>
    have h0 := history.contents_eq_nil_iff.mp hcontents
    rw [CircularBuffer.back_clear_of_head (CircularBuffer.head_of_size_zero h0)]
    simpa using hne
  | cons x xs =>
    have hfull : history.full = false := by
      by_contra hcon
      have := history.size_eq_iff_full.mpr (by simpa using hcon)
      omega
    have hold := h.stale hfull
    rw [hcontents] at hold
    simpa using hold

/-- One line that is taken over or turned down. -/
theorem reloadable_loadLine {history : CircularBuffer Str historyCapacity}
    (h : Reloadable strpy history) (input : Str) :
    Reloadable strpy (UserInputHistory.loadLine strpy history input) := by
  unfold UserInputHistory.loadLine
  split
  · rename_i hnew
    obtain ⟨hvalid, hback⟩ := Bool.and_eq_true_iff.mp hnew
    have hne : input ≠ history.back := by simpa using hback
    have hadded : ∀ x ∈ history.contents ++ [input], isValidInput strpy x = true := by
      intro x hx
      rcases List.mem_append.mp hx with hx | hx
      · exact h.valid x hx
      · obtain rfl := List.mem_singleton.mp hx
        exact hvalid
    have hchain : (history.contents ++ [input]).IsChain (· ≠ ·) := by
      refine List.isChain_append.mpr ⟨h.neighbours, List.isChain_singleton _, ?_⟩
      intro x hx y hy
      obtain rfl : input = y := by simpa using hy
      have hsize : history.size ≠ 0 := by
        intro h0
        rw [history.contents_eq_nil_iff.mpr h0] at hx
        exact absurd hx (by simp)
      rw [CircularBuffer.getLast?_contents hsize] at hx
      obtain rfl := Option.some.inj hx
      exact hne.symm
    refine ⟨?_, ?_, fun hnot => ?_⟩
    · rw [contents_emplaceBack]
      exact valid_keepLast hadded _
    · rw [contents_emplaceBack]
      exact isChain_keepLast hchain _
    · exact stale_emplaceBack h hne hnot
  · exact h

theorem reloadable_foldl {history : CircularBuffer Str historyCapacity}
    (h : Reloadable strpy history) (inputs : List Str) :
    Reloadable strpy (inputs.foldl (UserInputHistory.loadLine strpy) history) := by
  induction inputs generalizing history with
  | nil => exact h
  | cons input inputs ih => exact ih (reloadable_loadLine h input)

theorem reloadable_load {h : UserInputHistory} (hr : Reloadable strpy h.history)
    (fs : FileSystem) : Reloadable strpy (h.load strpy fs).history := by
  unfold UserInputHistory.load
  split
  · exact hr
  · split
    · refine reloadable_foldl (reloadable_empty ?_) _
      exact (CircularBuffer.contents_eq_nil_iff _).mpr h.history.size_clear
    · exact hr

theorem reloadable_step {h : UserInputHistory} (hr : Reloadable strpy h.history)
    (call : HistoryCall) : Reloadable strpy (historyStep strpy h call).history := by
  cases call with
  | append input => exact reloadable_loadLine hr input
  | next =>
    rw [historyStep, history_next]
    exact hr
  | previous =>
    rw [historyStep, history_previous]
    exact hr
  | save fs => exact hr
  | clear fs =>
    exact reloadable_empty ((CircularBuffer.contents_eq_nil_iff _).mpr h.history.size_clear)
  | load fs => exact reloadable_load hr fs

theorem filename_step (h : UserInputHistory) (call : HistoryCall) :
    (historyStep strpy h call).filename = h.filename := by
  cases call with
  | append input => rfl
  | next =>
    unfold historyStep UserInputHistory.next
    dsimp only
    split
    · split <;> rfl
    · rfl
  | previous =>
    unfold historyStep UserInputHistory.previous
    dsimp only
    split <;> rfl
  | save fs => rfl
  | clear fs => rfl
  | load fs =>
    unfold historyStep UserInputHistory.load
    dsimp only
    split
    · rfl
    · split <;> rfl

/-- Every history that can be reached is reloadable, and keeps its file name. -/
theorem historyAfter_spec (strpy : Strpy) (filename : Str) (calls : List HistoryCall) :
    Reloadable strpy (historyAfter strpy filename calls).history ∧
      (historyAfter strpy filename calls).filename = filename := by
  have hrun : Always (fun h => Reloadable strpy h.history ∧ h.filename = filename)
      (UserInputHistory.new filename)
      (trace (historyStep strpy) (UserInputHistory.new filename) calls) := by
    refine always_of_step ?_ ⟨reloadable_empty ?_, rfl⟩ (isRun_trace _ _ _)
    · intro h call h' hinv hstep
      rw [hstep]
      exact ⟨reloadable_step hinv.1 call, (filename_step h call).trans hinv.2⟩
    · exact (CircularBuffer.contents_eq_nil_iff _).mpr (CircularBuffer.size_new _)
  have hfinal := hrun.final
  rwa [final_trace] at hfinal

/-! ## The file -/

theorem splitLines_lines {lines : List Str}
    (h : ∀ line ∈ lines, isValidInput strpy line = true) :
    strpy.splitLines (lines.flatMap fun line => line ++ ['\n']) = lines := by
  induction lines with
  | nil => exact strpy.splitLines_nil
  | cons line lines ih =>
    have hbreak : ∀ c ∈ line, strpy.isLineBreak c = false := by
      intro c hc
      have hvalid := (Bool.and_eq_true_iff.mp (h line List.mem_cons_self)).2
      rw [strpy.isPrintable_eq, List.all_eq_true] at hvalid
      by_contra hcon
      have hnot := strpy.lineBreak_not_printable c (by simpa using hcon)
      exact absurd ((hvalid c hc).symm.trans hnot) (by decide)
    have ih := ih fun x hx => h x (List.mem_cons_of_mem _ hx)
    rw [List.flatMap_cons, List.append_assoc, List.singleton_append,
      strpy.splitLines_cons line _ hbreak, ih]

/-- A save that is written puts a line for each entry into the file. -/
theorem save_of_ne_nil {h : UserInputHistory} {fs : FileSystem} (hfile : h.filename ≠ [])
    (hwrites : fs.writeFault h.filename = none) (hentries : h.history.contents ≠ []) :
    h.save fs = fs.put h.filename (h.history.contents.flatMap fun line => line ++ ['\n']) := by
  have hempty : h.history.empty = false := by
    by_contra hcon
    have hsize := h.history.empty_iff.mp (by simpa using hcon)
    exact hentries (h.history.contents_eq_nil_iff.mpr hsize)
  unfold UserInputHistory.save tryFileWriteLines fileWriteLines
  dsimp only
  rw [hempty, List.isEmpty_eq_false_iff.mpr hfile, write_of_no_fault hwrites]
  rfl

/-- What is read behind it is one line for each entry. -/
theorem read_save {h : UserInputHistory} {fs : FileSystem} {content : Str}
    (hfile : h.filename ≠ []) (hentries : h.history.contents ≠ [])
    (hwrite : (tryFileWriteLines fs h.filename h.history.contents false).1 = true)
    (hread : tryFileRead (h.save fs) h.filename = some content) :
    content = h.history.contents.flatMap fun line => line ++ ['\n'] := by
  have hfault : fs.writeFault h.filename = none :=
    write_eq_none_iff.mp (Option.isNone_iff_eq_none.mp hwrite)
  obtain ⟨file, hfind, rfl⟩ := find_of_tryFileRead hread
  rw [save_of_ne_nil hfile hfault hentries, find_put] at hfind
  rw [← Option.some.inj hfind]

/-! ## The round trip -/

/-- Without a line in front, all entries are taken over. -/
theorem acceptedLines_none {entries : List Str}
    (hvalid : ∀ x ∈ entries, isValidInput strpy x = true) (hchain : entries.IsChain (· ≠ ·)) :
    acceptedLines strpy none entries = entries := by
  have hfrom : ∀ last : Option Str, (∀ x ∈ entries.head?, last ≠ some x) →
      acceptedLines strpy last entries = entries := by
    induction entries with
    | nil => exact fun _ _ => rfl
    | cons x xs ih =>
      intro last hlast
      have hnew : (isValidInput strpy x && last != some x) = true := by
        simp [hvalid x List.mem_cons_self, hlast x (by simp)]
      have htail := (List.isChain_cons.mp hchain)
      rw [acceptedLines, if_pos hnew,
        ih (fun y hy => hvalid y (List.mem_cons_of_mem _ hy)) htail.2]
      intro y hy heq
      exact htail.1 y hy (Option.some.inj heq)
  exact hfrom none fun x _ => by simp

/-- Loading the lines of some entries gives them back exactly when the first is not the stale
    `back()` of the ring. -/
theorem load_lines_iff (object : UserInputHistory) {fs : FileSystem} {entries : List Str}
    (hvalid : ∀ x ∈ entries, isValidInput strpy x = true) (hchain : entries.IsChain (· ≠ ·))
    (hlen : entries.length ≤ historyCapacity)
    (hread : tryFileRead fs object.filename =
      some (entries.flatMap fun line => line ++ ['\n'])) :
    (object.load strpy fs).history.contents = entries ↔
      entries.head? ≠ some object.history.clear.back := by
  rw [contents_load hread, splitLines_lines hvalid, acceptedLines_some,
    acceptedLines_none hvalid hchain]
  split
  · rename_i hhead
    obtain ⟨x, xs, rfl⟩ : ∃ x xs, entries = x :: xs := by
      cases entries with
      | nil => exact absurd hhead (by simp)
      | cons x xs => exact ⟨x, xs, rfl⟩
    have hshort : (keepLast historyCapacity xs).length < (x :: xs).length := by
      rw [length_keepLast, List.length_cons]
      omega
    refine ⟨fun heq => ?_, fun hne => absurd hhead hne⟩
    rw [List.tail_cons] at heq
    rw [heq] at hshort
    exact absurd hshort (Nat.lt_irrefl _)
  · rename_i hhead
    exact ⟨fun _ => hhead, fun _ => keepLast_of_le hlen⟩

theorem position_load {h : UserInputHistory} {fs : FileSystem} {content : Str}
    (hread : tryFileRead fs h.filename = some content) :
    (h.load strpy fs).position = (h.load strpy fs).history.contents.length := by
  have hexists := fileExists_of_tryFileRead hread
  rw [CircularBuffer.length_contents]
  unfold UserInputHistory.load
  rw [hexists, hread]
  rfl

/-- The stale slot is the first entry exactly when the ring is full and the last one is. -/
theorem stale_iff_ends {h : UserInputHistory} (hr : Reloadable strpy h.history) :
    h.history.contents.head? ≠ some h.history.clear.back ↔ EndsDiffer h := by
  unfold EndsDiffer
  rw [CircularBuffer.length_contents, CircularBuffer.size_eq_iff_full]
  cases hfull : h.history.full with
  | true =>
    have hsize : h.history.size ≠ 0 := by
      rw [h.history.size_eq_iff_full.mpr hfull]
      decide
    rw [CircularBuffer.back_clear_of_head (h.history.full_eq hfull),
      CircularBuffer.getLast?_contents hsize]
    exact ⟨fun hne _ => hne, fun himp => himp rfl⟩
  | false => exact ⟨fun _ hcon => absurd hcon (by decide), fun _ => hr.stale hfull⟩

end reloadable

/-- After any calls on a new history, if the write and the read succeed, saving and loading gives
    the entries back exactly when the full ring does not begin and end with the same entry. -/
theorem save_load_iff (strpy : Strpy) (filename : Str) (calls : List HistoryCall)
    (fs : FileSystem) (hfile : filename ≠ [])
    (hentries : (historyAfter strpy filename calls).history.contents ≠ [])
    (hwrite : (tryFileWriteLines fs filename
      (historyAfter strpy filename calls).history.contents false).1 = true)
    (hread : (tryFileRead ((historyAfter strpy filename calls).save fs) filename).isSome = true) :
    RoundTrips strpy (historyAfter strpy filename calls) fs ↔
      EndsDiffer (historyAfter strpy filename calls) := by
  obtain ⟨hr, hname⟩ := historyAfter_spec strpy filename calls
  generalize historyAfter strpy filename calls = h at hr hname hentries hwrite hread ⊢
  obtain rfl := hname
  obtain ⟨content, hcontent⟩ := Option.isSome_iff_exists.mp hread
  obtain rfl := read_save hfile hentries hwrite hcontent
  have hlen : h.history.contents.length ≤ historyCapacity := by
    rw [CircularBuffer.length_contents]
    exact h.history.size_le
  have hsame := load_lines_iff h hr.valid hr.neighbours hlen hcontent
  have hother := load_lines_iff (.new h.filename) hr.valid hr.neighbours hlen hcontent
  -- The ring of a new object holds the empty string, which is no valid input.
  have hnew : h.history.contents.head? ≠
      some (UserInputHistory.new h.filename).history.clear.back := by
    intro hcon
    have hblank : (UserInputHistory.new h.filename).history.clear.back = [] := by
      show (CircularBuffer.new _ : CircularBuffer Str historyCapacity).clear.back = []
      decide
    have hinvalid : isValidInput strpy [] = false := by
      simp [isValidInput, strpy.isEmptyOrSpace_eq]
    have hmem : [] ∈ h.history.contents := List.mem_of_mem_head? (by rw [hcon, hblank]; rfl)
    exact absurd ((hr.valid [] hmem).symm.trans hinvalid) (by decide)
  rw [← stale_iff_ends hr, ← hsame]
  constructor
  · intro hround
    exact (hround h (by simp)).1
  · intro hkept object hobject
    rcases List.mem_cons.mp hobject with rfl | hobject
    · exact ⟨hkept, position_load hcontent⟩
    · obtain rfl := List.mem_singleton.mp hobject
      exact ⟨hother.mpr hnew, position_load hcontent⟩

/-- `status` and `stats` are entered, and `status` is recalled and entered again. -/
def statusCalls : List HistoryCall :=
  [.append "status".toList, .append "stats".toList, .previous, .previous, .append "status".toList]

/-- Three entries, saved over a file that was there. -/
theorem save_load_iff_status :
    RoundTrips asciiStrpy (historyAfter asciiStrpy ['h'] statusCalls)
        { files := [(['h'], { content := "quit\n".toList })] } ↔
      EndsDiffer (historyAfter asciiStrpy ['h'] statusCalls) :=
  save_load_iff asciiStrpy ['h'] statusCalls { files := [(['h'], { content := "quit\n".toList })] }
    (by decide) (by decide +kernel) (by decide +kernel) (by decide +kernel)

/-- A hundred inputs that begin and end with `a`. -/
def ringCalls : List HistoryCall :=
  (List.replicate 49 [HistoryCall.append ['a'], .append ['b']]).flatten ++
    [.append ['c'], .append ['a']]

/-- On the object that saved, the first entry is taken for a repetition of the last. -/
theorem save_load_drops_first :
    (historyAfter asciiStrpy ['h'] ringCalls).history.contents.length = 100 ∧
      (((historyAfter asciiStrpy ['h'] ringCalls).load asciiStrpy
        ((historyAfter asciiStrpy ['h'] ringCalls).save { files := [] })).history.contents.length =
          99) ∧
      ¬ RoundTrips asciiStrpy (historyAfter asciiStrpy ['h'] ringCalls) { files := [] } := by
  have hlen : (historyAfter asciiStrpy ['h'] ringCalls).history.contents.length = 100 := by
    decide +kernel
  have hload : ((historyAfter asciiStrpy ['h'] ringCalls).load asciiStrpy
      ((historyAfter asciiStrpy ['h'] ringCalls).save { files := [] })).history.contents.length =
        99 := by decide +kernel
  refine ⟨hlen, hload, fun hround => ?_⟩
  have hsame := (hround _ List.mem_cons_self).1
  rw [hsame, hlen] at hload
  exact absurd hload (by decide)

end RehldsM.Model
