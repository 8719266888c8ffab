import RehldsM.View.LineEditor

/-
  The draft: the line typed before the history was browsed.

  The draft is kept in the view and the browse position in the model. `Browsed e draft n` ties the
  two together: the position is `n` entries back from the end, and a draft is held exactly
  when `n` is not zero. Up and Down move `n` (`browsed_up`, `browsed_down`), so as many Downs
  as Ups restore the line (`draft_restored`). Enter sets the position back to the end and leaves
  the draft: pressed on a recalled line it breaks the tie, and this is the only way to break
  it (`draft_kept_iff`).
-/

namespace RehldsM.View

open Lib Util Model Presenter ConsoleInput

/-- The history stands at one of its entries. -/
def Browsing (h : UserInputHistory) : Prop := h.position < h.history.size

instance (h : UserInputHistory) : Decidable (Browsing h) :=
  inferInstanceAs (Decidable (h.position < h.history.size))

/-! ## In the editor -/

/-- The history is browsed `n` entries back, and the draft is `draft`. -/
structure Browsed (e : LineEditor) (draft : Str) (n : Nat) : Prop where
  position : e.history.position + n = e.history.history.size
  draft : e.draft = if n = 0 then none else some draft

section editor

variable (strpy : Strpy) {e : LineEditor} {draft : Str} {n : Nat}

theorem Browsed.browsing_iff (h : Browsed e draft n) : Browsing e.history ↔ n ≠ 0 := by
  have hposition := h.position
  unfold Browsing
  omega

theorem size_step_up (e : LineEditor) :
    (e.step strpy .up).history.history.size = e.history.history.size := by
  have hring := history_previous e.history
  rw [LineEditor.step]
  generalize e.history.previous = result at hring ⊢
  rcases result with ⟨_ | input, history⟩ <;> exact congrArg CircularBuffer.size hring

/-- Up goes one entry back, and from the end it takes the line as the draft. -/
theorem browsed_up (h : Browsed e draft n) (hmore : n < e.history.history.size) :
    Browsed (e.step strpy .up) (if n = 0 then e.line.toList else draft) (n + 1) := by
  have hposition := h.position
  have hpos : 0 < e.history.position := by omega
  rw [LineEditor.step, previous_of_pos hpos]
  refine ⟨?_, ?_⟩
  · change e.history.position - 1 + (n + 1) = e.history.history.size
    omega
  · change some (e.draft.getD e.line.toList) = _
    rw [if_neg (Nat.succ_ne_zero n), h.draft]
    split <;> rfl

/-- At the first entry Up does nothing. -/
theorem step_up_first (h : Browsed e draft e.history.history.size) : e.step strpy .up = e := by
  have hposition := h.position
  rw [LineEditor.step, previous_of_zero (by omega)]

/-- Down goes one entry forward. -/
theorem browsed_down (h : Browsed e draft (n + 1)) : Browsed (e.step strpy .down) draft n := by
  have hposition := h.position
  have hdraft := h.draft
  rw [if_neg (Nat.succ_ne_zero n)] at hdraft
  cases n with
  | zero =>
    rw [LineEditor.step, next_of_last hposition, hdraft]
    exact ⟨Nat.add_zero _, (if_pos rfl).symm⟩
  | succ n =>
    rw [LineEditor.step, next_of_lt (by omega)]
    refine ⟨?_, ?_⟩
    · change e.history.position + 1 + (n + 1) = e.history.history.size
      omega
    · rw [if_neg (Nat.succ_ne_zero n)]
      exact hdraft

/-- The last Down brings the draft back. -/
theorem step_down_last (h : Browsed e draft 1) : (e.step strpy .down).line = .atEnd draft := by
  rw [LineEditor.step, next_of_last h.position, h.draft]
  rfl

/-- With nothing browsed Down does nothing. -/
theorem step_down_end (h : Browsed e draft 0) : e.step strpy .down = e := by
  obtain ⟨line, held, history, entered⟩ := e
  obtain rfl : held = none := h.draft
  rw [LineEditor.step, next_of_size h.position]

/-- Browsed `n` entries back from this line. -/
structure BrowsedFrom (e : LineEditor) (line : Str) (n : Nat) : Prop where
  browsed : Browsed e line n
  line : n = 0 → e.line.toList = line

theorem browsedFrom_up {line : Str} (h : BrowsedFrom e line n) :
    BrowsedFrom (e.step strpy .up) line (min (n + 1) e.history.history.size) := by
  have hposition := h.browsed.position
  by_cases hmore : n < e.history.history.size
  · have hup := browsed_up strpy h.browsed hmore
    have hdraft : (if n = 0 then e.line.toList else line) = line := by
      split
      · exact h.line ‹n = 0›
      · rfl
    rw [hdraft] at hup
    rw [Nat.min_eq_left hmore]
    exact ⟨hup, fun h0 => absurd h0 (Nat.succ_ne_zero n)⟩
  · obtain rfl : n = e.history.history.size := by omega
    rw [Nat.min_eq_right (Nat.le_succ _), step_up_first strpy h.browsed]
    exact h

theorem browsedFrom_down {line : Str} (h : BrowsedFrom e line n) :
    BrowsedFrom (e.step strpy .down) line (n - 1) := by
  match n, h with
  | 0, h =>
    rw [step_down_end strpy h.browsed]
    exact h
  | 1, h =>
    refine ⟨browsed_down strpy h.browsed, fun _ => ?_⟩
    rw [step_down_last strpy h.browsed, Zipper.toList_atEnd]
  | n + 2, h => exact ⟨browsed_down strpy h.browsed, fun h0 => absurd h0 (Nat.succ_ne_zero n)⟩

theorem browsedFrom_ups {line : Str} (h : BrowsedFrom e line n) (j : Nat) :
    BrowsedFrom ((List.replicate j Key.up).foldl (LineEditor.step strpy) e) line
      (min (n + j) e.history.history.size) := by
  induction j generalizing e n with
  | zero =>
    have hposition := h.browsed.position
    rwa [Nat.add_zero, Nat.min_eq_left (by omega)]
  | succ j ih =>
    have hstep := ih (browsedFrom_up strpy h)
    rw [size_step_up] at hstep
    rw [List.replicate_succ, List.foldl_cons]
    have hcount : min (min (n + 1) e.history.history.size + j) e.history.history.size =
        min (n + (j + 1)) e.history.history.size := by omega
    rwa [hcount] at hstep

theorem browsedFrom_downs {line : Str} (h : BrowsedFrom e line n) (j : Nat) :
    BrowsedFrom ((List.replicate j Key.down).foldl (LineEditor.step strpy) e) line (n - j) := by
  induction j generalizing e n with
  | zero => exact h
  | succ j ih =>
    have hstep := ih (browsedFrom_down strpy h)
    rw [List.replicate_succ, List.foldl_cons]
    rwa [Nat.sub_sub, Nat.add_comm 1 j] at hstep

/-- As many Downs as Ups restore the line. -/
theorem draft_restored (h : Browsed e draft 0) (j : Nat) :
    ((List.replicate j Key.up ++ List.replicate j Key.down).foldl (LineEditor.step strpy)
      e).line.toList = e.line.toList := by
  have hstart : BrowsedFrom e e.line.toList 0 := ⟨⟨h.position, h.draft⟩, fun _ => rfl⟩
  have hround := browsedFrom_downs strpy (browsedFrom_ups strpy hstart j) j
  rw [List.foldl_append]
  exact hround.line (by omega)

/-- A key that only edits the line. -/
theorem Browsed.withLine (h : Browsed e draft n) (line : Zipper Char) :
    Browsed { e with line } (if n = 0 then e.line.toList else draft) n := by
  refine ⟨h.position, h.draft.trans ?_⟩
  split <;> rfl

/-- One key, other than Enter on a recalled line. -/
theorem browsed_step (h : Browsed e draft n) (key : Key) (hkey : key = .newline → n = 0) :
    ∃ n', Browsed (e.step strpy key) (if n = 0 then e.line.toList else draft) n' := by
  have hposition := h.position
  cases key with
  | char ch =>
    rw [LineEditor.step]
    split
    · exact ⟨n, h.withLine _⟩
    · exact ⟨n, h.withLine e.line⟩
  | left => exact ⟨n, h.withLine _⟩
  | right => exact ⟨n, h.withLine _⟩
  | home => exact ⟨n, h.withLine _⟩
  | toEnd => exact ⟨n, h.withLine _⟩
  | backspace => exact ⟨n, h.withLine _⟩
  | delete => exact ⟨n, h.withLine _⟩
  | up =>
    by_cases hmore : n < e.history.history.size
    · exact ⟨n + 1, browsed_up strpy h hmore⟩
    · obtain rfl : n = e.history.history.size := by omega
      rw [step_up_first strpy h]
      exact ⟨_, h.withLine e.line⟩
  | down =>
    cases n with
    | zero =>
      rw [step_down_end strpy h]
      exact ⟨0, h.withLine e.line⟩
    | succ n => exact ⟨n, browsed_down strpy h⟩
  | tab commands consoleWidth =>
    rcases commands with _ | ⟨command, _ | ⟨command', commands⟩⟩
    · exact ⟨n, h.withLine e.line⟩
    · exact ⟨n, h.withLine _⟩
    · exact ⟨n, h.withLine _⟩
  | newline =>
    obtain rfl := hkey rfl
    exact ⟨0, position_append _ _, h.draft⟩

end editor

/-! ## On the console -/

/-- A key, with the line from before the browsing began carried along. -/
def draftStep (strpy : Strpy) (s : ConsoleInput × Str) (key : Key) :
    Except Fault (ConsoleInput × Str) := do
  let next ← handle strpy s.1 key
  .ok (next, if Browsing s.1.inputPresenter.inputHistory then s.2 else s.1.inputLine)

/-- A draft is held exactly while the history is browsed, and is the line from before; while it
    is not browsed, as many Downs as Ups leave the line, and so does Down alone. -/
structure DraftKept (strpy : Strpy) (s : ConsoleInput × Str) : Prop where
  held : s.1.savedInput.isSome = true ↔ Browsing s.1.inputPresenter.inputHistory
  before : Browsing s.1.inputPresenter.inputHistory → s.1.savedInput = some s.2
  restored : ¬ Browsing s.1.inputPresenter.inputHistory → ∀ j, ∃ s',
    (List.replicate j Key.up ++ List.replicate j Key.down).foldlM (handle strpy) s.1 = .ok s' ∧
      s'.inputLine = s.1.inputLine
  down : ¬ Browsing s.1.inputPresenter.inputHistory →
    ∃ s', handle strpy s.1 .down = .ok s' ∧ s'.inputLine = s.1.inputLine

/-- Enter is pressed on a recalled line. -/
def EntersRecalled (s : ConsoleInput × Str) (key : Key) : Prop :=
  key = .newline ∧ Browsing s.1.inputPresenter.inputHistory

instance (s : ConsoleInput × Str) (key : Key) : Decidable (EntersRecalled s key) :=
  inferInstanceAs (Decidable (_ ∧ _))

def DraftInv (s : ConsoleInput × Str) : Prop := ∃ e n, Follows s.1 e ∧ Browsed e s.2 n

section console

variable {strpy : Strpy} {s s' : ConsoleInput × Str} {e : LineEditor} {n : Nat}

theorem browsing_iff (h : Follows s.1 e) (hbrowsed : Browsed e s.2 n) :
    Browsing s.1.inputPresenter.inputHistory ↔ n ≠ 0 := by
  rw [h.history]
  exact hbrowsed.browsing_iff

theorem noThrow_ups_downs (strpy : Strpy) (e : LineEditor) (j k : Nat) :
    NoThrow strpy e (List.replicate j Key.up ++ List.replicate k Key.down) := by
  have harrow : ∀ keys : List Key, (∀ key ∈ keys, key = .up ∨ key = .down) →
      ∀ e, NoThrow strpy e keys := by
    intro keys
    induction keys with
    | nil => exact fun _ _ => trivial
    | cons key keys ih =>
      intro hkeys e
      obtain ⟨hkey, hrest⟩ := List.forall_mem_cons.mp hkeys
      refine ⟨?_, ih hrest _⟩
      rcases hkey with rfl | rfl <;> exact not_false
  refine harrow _ (fun key hkey => ?_) e
  rcases List.mem_append.mp hkey with hup | hdown
  · exact Or.inl (List.eq_of_mem_replicate hup)
  · exact Or.inr (List.eq_of_mem_replicate hdown)

theorem DraftInv.kept (h : DraftInv s) : DraftKept strpy s := by
  obtain ⟨e, n, hfollows, hbrowsed⟩ := h
  have hiff := browsing_iff hfollows hbrowsed
  have hline : s.1.inputLine = e.line.toList := hfollows.line.1
  have hdraft : s.1.savedInput = if n = 0 then none else some s.2 :=
    hfollows.draft.trans hbrowsed.draft
  refine ⟨?_, fun hbrowsing => ?_, fun hend j => ?_, fun hend => ?_⟩
  · rw [hiff, hdraft]
    split <;> simp [*]
  · rw [hdraft, if_neg (hiff.mp hbrowsing)]
  · obtain rfl : n = 0 := not_not.mp (mt hiff.mpr hend)
    obtain ⟨s', hok, hfollows'⟩ := foldlM_handle hfollows (noThrow_ups_downs strpy e j j)
    refine ⟨s', hok, ?_⟩
    rw [hline, ← draft_restored strpy hbrowsed j]
    exact hfollows'.line.1
  · obtain rfl : n = 0 := not_not.mp (mt hiff.mpr hend)
    have hdown : Handled strpy s.1 e .down := handle_spec hfollows not_false
    obtain ⟨s', hok, hfollows', -⟩ := hdown
    refine ⟨s', hok, ?_⟩
    rw [step_down_end strpy hbrowsed] at hfollows'
    rw [hline]
    exact hfollows'.line.1

/-- What a step of the pair is. -/
theorem draftStep_ok {key : Key} (hstep : draftStep strpy s key = .ok s') :
    handle strpy s.1 key = .ok s'.1 ∧
      s'.2 = if Browsing s.1.inputPresenter.inputHistory then s.2 else s.1.inputLine := by
  unfold draftStep at hstep
  cases hnext : handle strpy s.1 key with
  | error fault =>
    rw [hnext] at hstep
    exact absurd hstep (by simp [bind, Except.bind])
  | ok next =>
    rw [hnext] at hstep
    obtain rfl := Except.ok.inj hstep
    exact ⟨rfl, rfl⟩

theorem draftInv_step {key : Key} (h : DraftInv s) (hkey : ¬ EntersRecalled s key)
    (hstep : draftStep strpy s key = .ok s') : DraftInv s' := by
  obtain ⟨e, n, hfollows, hbrowsed⟩ := h
  obtain ⟨hok, hbefore⟩ := draftStep_ok hstep
  have hiff := browsing_iff hfollows hbrowsed
  have hline : s.1.inputLine = e.line.toList := hfollows.line.1
  have henter : key = .newline → n = 0 := fun hnewline =>
    not_not.mp fun hn => hkey ⟨hnewline, hiff.mpr hn⟩
  obtain ⟨n', hbrowsed'⟩ := browsed_step strpy hbrowsed key henter
  have hghost : s'.2 = if n = 0 then e.line.toList else s.2 := by
    rw [hbefore, hline]
    by_cases hn : n = 0
    · rw [if_pos hn, if_neg (mt hiff.mp (not_not_intro hn))]
    · rw [if_neg hn, if_pos (hiff.mpr hn)]
  refine ⟨_, n', (handle_ok hfollows hok).1, ?_⟩
  rw [hghost]
  exact hbrowsed'

/-- Enter on a recalled line leaves a draft that nothing is browsed for. -/
theorem not_kept_of_entersRecalled {key : Key} (h : DraftInv s) (hkey : EntersRecalled s key)
    (hstep : draftStep strpy s key = .ok s') : ¬ DraftKept strpy s' := by
  obtain ⟨e, n, hfollows, hbrowsed⟩ := h
  obtain ⟨rfl, hbrowsing⟩ := hkey
  obtain ⟨hok, -⟩ := draftStep_ok hstep
  have hfollows' := (handle_ok hfollows hok).1
  have hn := (browsing_iff hfollows hbrowsed).mp hbrowsing
  intro hkept
  have hsome : s'.1.savedInput = some s.2 := by
    rw [hfollows'.draft]
    exact hbrowsed.draft.trans (if_neg hn)
  have hbrowsing' := hkept.held.mp (by rw [hsome]; rfl)
  rw [hfollows'.history] at hbrowsing'
  exact absurd hbrowsing' (Nat.lt_irrefl _)

end console

/-- Along every run of the console input: the draft is kept, and Up and Down restore it, in
    every state exactly when Enter is never pressed on a recalled line. -/
theorem draft_kept_iff (strpy : Strpy) (filename : Str) (fs : FileSystem) (keys : List Key) :
    Always (DraftKept strpy) (initial strpy filename fs, [])
        (traceOk (draftStep strpy) (initial strpy filename fs, []) keys) ↔
      Meets (fun s key => ¬ EntersRecalled s key) (initial strpy filename fs, [])
        (traceOk (draftStep strpy) (initial strpy filename fs, []) keys) := by
  have hstart : DraftInv (initial strpy filename fs, []) :=
    ⟨_, 0, follows_new strpy filename fs, position_load_new filename fs, rfl⟩
  refine always_iff_meets (fun s h => h.kept) ?_ ?_ hstart (isRun_traceOk _ _ keys)
  · intro s key s' hinv hkey hstep
    exact draftInv_step hinv hkey hstep.2
  · intro s key s' hinv hkey hstep
    exact not_kept_of_entersRecalled hinv (not_not.mp hkey) hstep.2

/-- `a` entered; `b` typed and left for the recalled `a`, which is entered too. -/
def enterRecalledKeys : List Key := [.char 'a', .newline, .char 'b', .up, .newline]

/-- The line is empty and nothing is browsed; Down fills it with the `b` typed long before. -/
theorem enter_keeps_old_draft :
    (final blank (keyRun asciiStrpy blank enterRecalledKeys)).inputLine = [] ∧
      (final blank (keyRun asciiStrpy blank (enterRecalledKeys ++ [.down]))).inputLine = ['b'] ∧
      ¬ Always (DraftKept asciiStrpy) (blank, [])
        (traceOk (draftStep asciiStrpy) (blank, []) enterRecalledKeys) := by
  refine ⟨by decide +kernel, by decide +kernel, fun h => ?_⟩
  have hbrowsing := h.final.held.mp (by decide +kernel)
  exact absurd hbrowsing (by decide +kernel)

end RehldsM.View
