import RehldsM.Lib.Run
import RehldsM.Util.CircularBuffer
import RehldsM.Util.File

/-
  `UserInputHistory` (libs/model/src/model/userinput_history.cpp), and the entries it holds over
  whole runs.

  The calls are compared with a reference list (`referenceStep`). `append` and `load` skip an
  input that equals `history_.back()`, also when the ring is empty; the slot `back()` reads
  then is stale, since `clear()` of the ring only moves indices. So the entries are those of the
  reference exactly along the runs in which no input is turned down for what a stale slot
  holds (`Fresh`, `entries_agree_iff`).
-/

namespace RehldsM.Model

open Lib Util

def historyCapacity : Nat := 100

structure UserInputHistory where
  history : CircularBuffer Str historyCapacity
  position : Nat
  filename : Str

section model

variable (strpy : Strpy)

def isValidInput (input : Str) : Bool := !strpy.isEmptyOrSpace input && strpy.isPrintable input

namespace UserInputHistory

/-- The constructor. -/
def new (filename : Str) : UserInputHistory where
  history := CircularBuffer.new (by decide)
  position := 0
  filename := filename

def append (h : UserInputHistory) (input : Str) : UserInputHistory :=
  let history :=
    if isValidInput strpy input && input != h.history.back then (h.history.emplaceBack input).1
    else h.history
  { h with history, position := history.size }

def next (h : UserInputHistory) : Option Str × UserInputHistory :=
  let position := if h.position < h.history.size then h.position + 1 else h.position
  let h := { h with position }
  if position < h.history.size then (some (h.history.get position), h) else (none, h)

def previous (h : UserInputHistory) : Option Str × UserInputHistory :=
  if h.position > 0 then
    let position := h.position - 1
    (some (h.history.get position), { h with position })
  else (none, h)

/-- `clear()`, with the file system it leaves behind. -/
def clear (h : UserInputHistory) (fs : FileSystem) : UserInputHistory × FileSystem :=
  let history := h.history.clear
  let fs := if fileExists fs h.filename then tryFileRemove fs h.filename else fs
  ({ h with history, position := history.size }, fs)

/-- One turn of the loop of `load`. -/
def loadLine (history : CircularBuffer Str historyCapacity) (input : Str) :
    CircularBuffer Str historyCapacity :=
  if isValidInput strpy input && input != history.back then (history.emplaceBack input).1
  else history

def load (h : UserInputHistory) (fs : FileSystem) : UserInputHistory :=
  if !fileExists fs h.filename then h
  else
    match tryFileRead fs h.filename with
    | some content =>
      let history := (strpy.splitLines content).foldl (loadLine strpy) h.history.clear
      { h with history, position := history.size }
    | none => h

/-- `save()`: the file system it leaves behind. -/
def save (h : UserInputHistory) (fs : FileSystem) : FileSystem :=
  if h.filename.isEmpty || h.history.empty then fs
  else
    let historyLines := (List.range h.history.size).map h.history.get
    (tryFileWriteLines fs h.filename historyLines false).2

end UserInputHistory

/-- A call on the history. Other programs may change the file system between two calls. -/
inductive HistoryCall where
  | append (input : Str)
  | next
  | previous
  | save (fs : FileSystem)
  | clear (fs : FileSystem)
  | load (fs : FileSystem)

/-- The history after a call. -/
def historyStep (h : UserInputHistory) : HistoryCall → UserInputHistory
  | .append input => h.append strpy input
  | .next => h.next.2
  | .previous => h.previous.2
  | .save _ => h
  | .clear fs => (h.clear fs).1
  | .load fs => h.load strpy fs

/-! ## The reference -/

def referenceAppend (xs : List Str) (input : Str) : List Str :=
  if isValidInput strpy input && xs.getLast? != some input then
    keepLast historyCapacity (xs ++ [input])
  else xs

/-- What a call on a history with this file name does to the entries. -/
def referenceStep (filename : Str) (xs : List Str) : HistoryCall → List Str
  | .append input => referenceAppend strpy xs input
  | .clear _ => []
  | .load fs =>
    match tryFileRead fs filename with
    | some content => (strpy.splitLines content).foldl (referenceAppend strpy) []
    | none => xs
  | .next | .previous | .save _ => xs

/-- A history side by side with its reference. -/
def pairStep (s : UserInputHistory × List Str) (call : HistoryCall) :
    UserInputHistory × List Str :=
  (historyStep strpy s.1 call, referenceStep strpy s.1.filename s.2 call)

def EntriesAgree (s : UserInputHistory × List Str) : Prop := s.1.history.contents = s.2

/-- The lines a load takes over, before the capacity is looked at, when `last` is the entry
    in front of them. -/
def acceptedLines (last : Option Str) : List Str → List Str
  | [] => []
  | input :: inputs =>
    if isValidInput strpy input && last != some input then
      input :: acceptedLines (some input) inputs
    else acceptedLines last inputs

/-- The call turns down no input for what `back()` of an empty ring reads. A load of more
    lines than the capacity loses its first one anyway. -/
def Fresh (s : UserInputHistory × List Str) : HistoryCall → Prop
  | .append input =>
    ¬ (s.1.history.size = 0 ∧ isValidInput strpy input = true ∧ input = s.1.history.back)
  | .load fs =>
    ∀ content, tryFileRead fs s.1.filename = some content →
      let accepted := acceptedLines strpy none (strpy.splitLines content)
      accepted.head? ≠ some s.1.history.clear.back ∨ historyCapacity < accepted.length
  | .next | .previous | .save _ | .clear _ => True

end model

section entries

variable {strpy : Strpy}

/-! ## A load -/

theorem contents_emplaceBack {history : CircularBuffer Str historyCapacity} (input : Str) :
    (history.emplaceBack input).1.contents =
      keepLast historyCapacity (history.contents ++ [input]) :=
  history.contents_pushBack input

theorem some_bne_some (last input : Str) : (some last != some input) = (input != last) := by
  by_cases h : last = input
  · simp [h]
  · have h' : ¬ input = last := fun hcon => h hcon.symm
    simp [bne, h, h']

/-- The loop of `load`, from any ring. -/
theorem contents_foldl_loadLine (history : CircularBuffer Str historyCapacity) (inputs : List Str) :
    (inputs.foldl (UserInputHistory.loadLine strpy) history).contents =
      keepLast historyCapacity
        (history.contents ++ acceptedLines strpy (some history.back) inputs) := by
  induction inputs generalizing history with
  | nil =>
    rw [acceptedLines, List.append_nil, keepLast_of_le]
    · rfl
    · rw [CircularBuffer.length_contents]
      exact history.size_le
  | cons input inputs ih =>
    rw [List.foldl_cons, ih, UserInputHistory.loadLine, acceptedLines, some_bne_some]
    by_cases hnew : (isValidInput strpy input && input != history.back) = true
    · rw [if_pos hnew, if_pos hnew, contents_emplaceBack, keepLast_append, List.append_assoc,
        List.singleton_append, CircularBuffer.emplaceBack]
      dsimp only
      rw [CircularBuffer.back_pushBack]
    · rw [if_neg hnew, if_neg hnew]

/-- The same loop on the reference. -/
theorem foldl_referenceAppend {xs : List Str} (hxs : xs.length ≤ historyCapacity)
    (inputs : List Str) :
    inputs.foldl (referenceAppend strpy) xs =
      keepLast historyCapacity (xs ++ acceptedLines strpy xs.getLast? inputs) := by
  induction inputs generalizing xs with
  | nil => rw [acceptedLines, List.append_nil, keepLast_of_le hxs, List.foldl_nil]
  | cons input inputs ih =>
    rw [List.foldl_cons, referenceAppend, acceptedLines]
    by_cases hnew : (isValidInput strpy input && xs.getLast? != some input) = true
    · have hlen : (keepLast historyCapacity (xs ++ [input])).length ≤ historyCapacity := by
        rw [length_keepLast]
        exact Nat.min_le_right _ _
      rw [if_pos hnew, if_pos hnew, ih hlen, keepLast_append, getLast?_keepLast (by decide),
        List.getLast?_concat, List.append_assoc, List.singleton_append]
    · rw [if_neg hnew, if_neg hnew, ih hxs]

/-- An entry in front can only cost the first line, and only when it is the same. -/
theorem acceptedLines_some (last : Str) (inputs : List Str) :
    acceptedLines strpy (some last) inputs =
      if (acceptedLines strpy none inputs).head? = some last then
        (acceptedLines strpy none inputs).tail
      else acceptedLines strpy none inputs := by
  induction inputs with
  | nil => rfl
  | cons input inputs ih =>
    by_cases hvalid : isValidInput strpy input = true
    · by_cases hsame : last = input
      · simp [acceptedLines, hvalid, hsame]
      · have hsame' : ¬ input = last := fun h => hsame h.symm
        simp [acceptedLines, hvalid, hsame, hsame']
    · simpa [acceptedLines, hvalid] using ih

/-- What a stale entry in front does to the lines that are kept. -/
theorem keepLast_acceptedLines_iff (last : Str) (inputs : List Str) :
    keepLast historyCapacity (acceptedLines strpy (some last) inputs) =
        keepLast historyCapacity (acceptedLines strpy none inputs) ↔
      (acceptedLines strpy none inputs).head? ≠ some last ∨
        historyCapacity < (acceptedLines strpy none inputs).length := by
  rw [acceptedLines_some]
  cases hlines : acceptedLines strpy none inputs with
  | nil => simp
  | cons input accepted =>
    by_cases hsame : input = last
    · rw [if_pos (by simp [hsame]), List.tail_cons, eq_comm, keepLast_cons_eq_iff, List.head?_cons,
        List.length_cons]
      refine ⟨fun h => Or.inr (Nat.lt_succ_of_le h), fun h => ?_⟩
      exact h.elim (fun hne => absurd (congrArg some hsame) hne) Nat.le_of_lt_succ
    · rw [if_neg (by simp [hsame])]
      simp [hsame]

/-! ## Steps and runs -/

/-- An entry held is turned down by both for the same reason; an empty ring must not turn
    one down. -/
theorem agree_append {s : UserInputHistory × List Str} (h : EntriesAgree s) (input : Str) :
    EntriesAgree (pairStep strpy s (.append input)) ↔ Fresh strpy s (.append input) := by
  obtain ⟨history, xs⟩ := s
  obtain rfl : history.history.contents = xs := h
  unfold EntriesAgree pairStep historyStep referenceStep UserInputHistory.append referenceAppend
    Fresh
  dsimp only
  by_cases hvalid : isValidInput strpy input = true
  · by_cases hempty : history.history.size = 0
    · have hnil := history.history.contents_eq_nil_iff.mpr hempty
      have hone : keepLast historyCapacity [input] = [input] := rfl
      by_cases hstale : input = history.history.back
      · simp [hvalid, hempty, ← hstale, hnil, hone]
      · simp [hvalid, hempty, hstale, hnil, contents_emplaceBack]
    · rw [CircularBuffer.getLast?_contents hempty, some_bne_some]
      by_cases hsame : input = history.history.back
      · simp [hempty, hsame]
      · simp [hvalid, hempty, hsame, contents_emplaceBack]
  · simp [hvalid]

theorem contents_load {h : UserInputHistory} {fs : FileSystem} {content : Str}
    (hread : tryFileRead fs h.filename = some content) :
    (h.load strpy fs).history.contents = keepLast historyCapacity
      (acceptedLines strpy (some h.history.clear.back) (strpy.splitLines content)) := by
  have hexists := fileExists_of_tryFileRead hread
  have hnil : h.history.clear.contents = [] :=
    h.history.clear.contents_eq_nil_iff.mpr h.history.size_clear
  unfold UserInputHistory.load
  rw [hexists, hread]
  simp [contents_foldl_loadLine, hnil]

theorem load_unread {h : UserInputHistory} {fs : FileSystem}
    (hread : tryFileRead fs h.filename = none) : h.load strpy fs = h := by
  unfold UserInputHistory.load
  rw [hread]
  split <;> rfl

theorem agree_load {s : UserInputHistory × List Str} (h : EntriesAgree s) (fs : FileSystem) :
    EntriesAgree (pairStep strpy s (.load fs)) ↔ Fresh strpy s (.load fs) := by
  obtain ⟨history, xs⟩ := s
  obtain rfl : history.history.contents = xs := h
  unfold EntriesAgree pairStep historyStep referenceStep Fresh
  dsimp only
  cases hread : tryFileRead fs history.filename with
  | none =>
    have hload : history.load strpy fs = history := load_unread hread
    simp [hload]
  | some content =>
    have href : (strpy.splitLines content).foldl (referenceAppend strpy) [] =
        keepLast historyCapacity (acceptedLines strpy none (strpy.splitLines content)) :=
      foldl_referenceAppend (Nat.zero_le _) _
    dsimp only
    rw [contents_load hread, href, keepLast_acceptedLines_iff]
    simp

theorem history_next (h : UserInputHistory) : h.next.2.history = h.history := by
  unfold UserInputHistory.next
  dsimp only
  split
  · split <;> rfl
  · rfl

theorem history_previous (h : UserInputHistory) : h.previous.2.history = h.history := by
  unfold UserInputHistory.previous
  split <;> rfl

/-- One call: the entries still agree exactly when the call was fresh. -/
theorem agree_step_iff {s : UserInputHistory × List Str} (h : EntriesAgree s)
    (call : HistoryCall) : EntriesAgree (pairStep strpy s call) ↔ Fresh strpy s call := by
  cases call with
  | append input => exact agree_append h input
  | load fs => exact agree_load h fs
  | next =>
    refine iff_of_true ?_ trivial
    exact (congrArg CircularBuffer.contents (history_next s.1)).trans h
  | previous =>
    refine iff_of_true ?_ trivial
    exact (congrArg CircularBuffer.contents (history_previous s.1)).trans h
  | save fs => exact iff_of_true h trivial
  | clear fs =>
    exact iff_of_true ((CircularBuffer.contents_eq_nil_iff _).mpr (s.1.history.size_clear)) trivial

/-- Over every run from a new history, the entries are those of the reference after every call
    exactly when every call is fresh. -/
theorem entries_agree_iff (strpy : Strpy) (filename : Str) (calls : List HistoryCall) :
    Always EntriesAgree (UserInputHistory.new filename, [])
        (trace (pairStep strpy) (UserInputHistory.new filename, []) calls) ↔
      Meets (Fresh strpy) (UserInputHistory.new filename, [])
        (trace (pairStep strpy) (UserInputHistory.new filename, []) calls) := by
  have hnew : EntriesAgree (UserInputHistory.new filename, []) :=
    (CircularBuffer.contents_eq_nil_iff _).mpr (CircularBuffer.size_new _)
  refine always_iff_meets (fun _ h => h) ?_ ?_ hnew (isRun_trace _ _ _)
  · rintro s call s' hagree hfresh rfl
    exact (agree_step_iff hagree call).mpr hfresh
  · rintro s call s' hagree hstale rfl hagree'
    exact hstale ((agree_step_iff hagree call).mp hagree')

/-- A hundred inputs fill the ring, `b` in its last slot; `clear`; then `b` again. -/
def staleCalls : List HistoryCall :=
  (List.replicate 50 [HistoryCall.append "a".toList, .append "b".toList]).flatten ++
    [.clear { files := [] }, .append "b".toList]

/-- Right after `clear` the input `b` is turned down, for the copy of it in the last slot. -/
theorem clear_leaves_stale_back :
    (final (UserInputHistory.new [], [])
        (trace (pairStep asciiStrpy) (UserInputHistory.new [], []) staleCalls)).1.history.contents =
          [] ∧
      (final (UserInputHistory.new [], [])
        (trace (pairStep asciiStrpy) (UserInputHistory.new [], []) staleCalls)).2 =
          ["b".toList] ∧
      ¬ Always EntriesAgree (UserInputHistory.new [], [])
        (trace (pairStep asciiStrpy) (UserInputHistory.new [], []) staleCalls) := by
  have hentries : (final (UserInputHistory.new [], [])
      (trace (pairStep asciiStrpy) (UserInputHistory.new [], []) staleCalls)).1.history.contents =
        [] := by decide +kernel
  have hreference : (final (UserInputHistory.new [], [])
      (trace (pairStep asciiStrpy) (UserInputHistory.new [], []) staleCalls)).2 =
        ["b".toList] := by decide +kernel
  refine ⟨hentries, hreference, fun h => ?_⟩
  have hagree : EntriesAgree _ := h.final
  rw [EntriesAgree, hentries, hreference] at hagree
  exact absurd hagree (by decide)

/-! ## The browse position and the entries -/

/-- The position is that of an entry, or the one behind the last entry. -/
def Positioned (h : UserInputHistory) : Prop := h.position ≤ h.history.size

/-- Every entry has passed the check of `append` and `load`. -/
def EntriesValid (strpy : Strpy) (h : UserInputHistory) : Prop :=
  ∀ input ∈ h.history.contents, isValidInput strpy input = true

/-- The position of an entry gives the entry before it, and moves there. -/
theorem previous_of_pos {h : UserInputHistory} (hpos : 0 < h.position) :
    h.previous = (some (h.history.get (h.position - 1)), { h with position := h.position - 1 }) :=
  if_pos hpos

theorem previous_of_zero {h : UserInputHistory} (hpos : h.position = 0) :
    h.previous = (none, h) := by
  unfold UserInputHistory.previous
  rw [hpos]
  rfl

theorem next_of_lt {h : UserInputHistory} (hpos : h.position + 1 < h.history.size) :
    h.next = (some (h.history.get (h.position + 1)), { h with position := h.position + 1 }) := by
  simp [UserInputHistory.next, hpos, Nat.lt_of_succ_lt hpos]

/-- At the last entry `next` leaves the entries. -/
theorem next_of_last {h : UserInputHistory} (hpos : h.position + 1 = h.history.size) :
    h.next = (none, { h with position := h.history.size }) := by
  have hlt : h.position < h.history.size := by omega
  simp [UserInputHistory.next, hpos, hlt]

theorem next_of_size {h : UserInputHistory} (hpos : h.position = h.history.size) :
    h.next = (none, h) := by
  have hlt : ¬ h.position < h.history.size := by omega
  simp [UserInputHistory.next, hlt]

theorem previous_spec {h : UserInputHistory} (hp : Positioned h) :
    h.previous =
      ((h.history.contents.take h.position).getLast?, { h with position := h.position - 1 }) := by
  unfold Positioned at hp
  rcases Nat.eq_zero_or_pos h.position with hzero | hpos
  · obtain ⟨history, position, filename⟩ := h
    obtain rfl : position = 0 := hzero
    rfl
  · have hlen : (h.history.contents.take h.position).length = h.position := by
      rw [List.length_take, CircularBuffer.length_contents, Nat.min_eq_left hp]
    rw [previous_of_pos hpos, List.getLast?_eq_getElem?, hlen,
      List.getElem?_take_of_lt (by omega), CircularBuffer.getElem?_contents (by omega)]

theorem next_spec {h : UserInputHistory} (hp : Positioned h) :
    h.next = (h.history.contents[h.position + 1]?,
      { h with position := min (h.position + 1) h.history.size }) := by
  unfold Positioned at hp
  have hlen := CircularBuffer.length_contents h.history
  rcases Nat.lt_trichotomy (h.position + 1) h.history.size with hlt | heq | hgt
  · rw [next_of_lt hlt, CircularBuffer.getElem?_contents hlt, Nat.min_eq_left (Nat.le_of_lt hlt)]
  · rw [next_of_last heq, List.getElem?_eq_none (by omega), Nat.min_eq_right (by omega)]
  · have hpos : h.position = h.history.size := by omega
    rw [next_of_size hpos, List.getElem?_eq_none (by omega), Nat.min_eq_right (by omega), ← hpos]

/-- Whatever `previous` returns is an entry. -/
theorem mem_of_previous {h : UserInputHistory} (hp : Positioned h) {input : Str}
    (hinput : h.previous.1 = some input) : input ∈ h.history.contents := by
  rw [previous_spec hp] at hinput
  exact List.mem_of_mem_take (List.mem_of_getLast? hinput)

theorem mem_of_next {h : UserInputHistory} (hp : Positioned h) {input : Str}
    (hinput : h.next.1 = some input) : input ∈ h.history.contents := by
  rw [next_spec hp] at hinput
  exact List.mem_of_getElem? hinput

theorem positioned_new (filename : Str) : Positioned (UserInputHistory.new filename) :=
  Nat.zero_le _

theorem positioned_previous {h : UserInputHistory} (hp : Positioned h) :
    Positioned h.previous.2 := by
  rw [previous_spec hp]
  exact Nat.le_trans (Nat.sub_le _ _) hp

theorem positioned_next {h : UserInputHistory} (hp : Positioned h) : Positioned h.next.2 := by
  rw [next_spec hp]
  exact Nat.min_le_right _ _

theorem position_append (h : UserInputHistory) (input : Str) :
    (h.append strpy input).position = (h.append strpy input).history.size := rfl

/-- A history that was just loaded, or has nothing to load, stands behind its last entry. -/
theorem position_load_new (filename : Str) (fs : FileSystem) :
    ((UserInputHistory.new filename).load strpy fs).position =
      ((UserInputHistory.new filename).load strpy fs).history.size := by
  unfold UserInputHistory.load
  split
  · exact (CircularBuffer.size_new _).symm
  · split
    · rfl
    · exact (CircularBuffer.size_new _).symm

theorem positioned_load {h : UserInputHistory} (hp : Positioned h) (fs : FileSystem) :
    Positioned (h.load strpy fs) := by
  unfold UserInputHistory.load
  split
  · exact hp
  · split
    · exact Nat.le_refl _
    · exact hp

/-- In every call the browse position stays with the entries. -/
theorem positioned_step {h : UserInputHistory} (hp : Positioned h) (call : HistoryCall) :
    Positioned (historyStep strpy h call) := by
  cases call with
  | append input => exact Nat.le_of_eq (position_append h input)
  | next => exact positioned_next hp
  | previous => exact positioned_previous hp
  | save fs => exact hp
  | clear fs => exact Nat.le_refl _
  | load fs => exact positioned_load hp fs

theorem valid_keepLast {xs : List Str} (hxs : ∀ x ∈ xs, isValidInput strpy x = true) (n : Nat) :
    ∀ x ∈ keepLast n xs, isValidInput strpy x = true :=
  fun x hx => hxs x (List.mem_of_mem_drop hx)

theorem valid_acceptedLines (last : Option Str) (inputs : List Str) :
    ∀ x ∈ acceptedLines strpy last inputs, isValidInput strpy x = true := by
  induction inputs generalizing last with
  | nil => exact fun x hx => absurd hx List.not_mem_nil
  | cons input inputs ih =>
    rw [acceptedLines]
    split
    · rename_i hnew
      intro x hx
      rcases List.mem_cons.mp hx with rfl | hx
      · exact (Bool.and_eq_true_iff.mp hnew).1
      · exact ih _ x hx
    · exact ih last

theorem entriesValid_append {h : UserInputHistory} (hv : EntriesValid strpy h) (input : Str) :
    EntriesValid strpy (h.append strpy input) := by
  unfold EntriesValid UserInputHistory.append
  dsimp only
  split
  · rename_i hnew
    rw [contents_emplaceBack]
    refine valid_keepLast (fun x hx => ?_) _
    rcases List.mem_append.mp hx with hx | hx
    · exact hv x hx
    · obtain rfl := List.mem_singleton.mp hx
      exact (Bool.and_eq_true_iff.mp hnew).1
  · exact hv

theorem entriesValid_load {h : UserInputHistory} (hv : EntriesValid strpy h) (fs : FileSystem) :
    EntriesValid strpy (h.load strpy fs) := by
  cases hread : tryFileRead fs h.filename with
  | none =>
    have hload : h.load strpy fs = h := load_unread hread
    rwa [hload]
  | some content =>
    unfold EntriesValid
    rw [contents_load hread]
    exact valid_keepLast (valid_acceptedLines _ _) _

theorem entriesValid_new (filename : Str) :
    EntriesValid strpy (UserInputHistory.new filename) := by
  intro input hinput
  rw [UserInputHistory.new,
    (CircularBuffer.contents_eq_nil_iff _).mpr (CircularBuffer.size_new _)] at hinput
  exact absurd hinput List.not_mem_nil

/-- In every call the entries stay valid inputs. -/
theorem entriesValid_step {h : UserInputHistory} (hv : EntriesValid strpy h)
    (call : HistoryCall) : EntriesValid strpy (historyStep strpy h call) := by
  cases call with
  | append input => exact entriesValid_append hv input
  | next =>
    unfold EntriesValid historyStep
    rwa [history_next]
  | previous =>
    unfold EntriesValid historyStep
    rwa [history_previous]
  | save fs => exact hv
  | clear fs =>
    intro input hinput
    rw [historyStep, UserInputHistory.clear,
      (CircularBuffer.contents_eq_nil_iff _).mpr (CircularBuffer.size_clear _)] at hinput
    exact absurd hinput List.not_mem_nil
  | load fs => exact entriesValid_load hv fs

/-- From a new history, whatever the calls: the browse position stays with the entries, and
    every entry is a valid input. -/
theorem history_run (strpy : Strpy) (filename : Str) (calls : List HistoryCall) :
    Always (fun h => Positioned h ∧ EntriesValid strpy h) (UserInputHistory.new filename)
      (trace (historyStep strpy) (UserInputHistory.new filename) calls) := by
  refine always_of_step ?_ ⟨positioned_new filename, entriesValid_new filename⟩ (isRun_trace _ _ _)
  rintro h call h' ⟨hp, hv⟩ rfl
  exact ⟨positioned_step hp call, entriesValid_step hv call⟩

end entries

end RehldsM.Model
