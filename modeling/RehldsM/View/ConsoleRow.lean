import RehldsM.View.LineEditor

/-
  The console's current row shows what the console input holds.

  `view e` is the row that reads the editor's line, with the cursor where the editor has it.
  What a key prints turns the view before it into the view after it (`feed_printed`), with one
  exception: the completion of a single match is printed at the cursor, while the other keys
  that replace the line take the cursor to its end first (`handle_end`). With part of the line
  behind the cursor the completion is printed over that part (`feed_completion`). So the row
  is right along a run exactly when no such Tab is pressed (`row_shows_line_iff`).
-/

namespace RehldsM.View

open Lib Util Model Presenter ConsoleInput Terminal

section printable

variable {strpy : Strpy} {l l' : Str}

theorem plain_of_isPrintable (h : strpy.isPrintable l = true) : Plain l := by
  rw [strpy.isPrintable_eq, List.all_eq_true] at h
  have hcontrol : ∀ c ∈ ['\x00', '\x08', '\t', '\n', '\r', '\x1B', '\x7F'], c ∉ l := by
    intro c hc hmem
    have hprint := h c hmem
    rw [strpy.not_printable c hc] at hprint
    exact absurd hprint (by decide)
  intro c hc
  refine ⟨?_, ?_, ?_⟩ <;> rintro rfl
  · exact hcontrol '\x08' (by decide) hc
  · exact hcontrol '\r' (by decide) hc
  · exact hcontrol '\n' (by decide) hc

theorem untilNul_of_isPrintable (h : strpy.isPrintable l = true) : untilNul l = l := by
  rw [strpy.isPrintable_eq, List.all_eq_true] at h
  refine List.takeWhile_eq_self_iff.mpr fun c hc => ?_
  have hprint := h c hc
  have hnul : c ≠ '\x00' := by
    rintro rfl
    rw [strpy.not_printable '\x00' (by decide)] at hprint
    exact absurd hprint (by decide)
  exact bne_iff_ne.mpr hnul

theorem isPrintable_append :
    strpy.isPrintable (l ++ l') = true ↔
      strpy.isPrintable l = true ∧ strpy.isPrintable l' = true := by
  rw [strpy.isPrintable_eq, strpy.isPrintable_eq, strpy.isPrintable_eq, List.all_append,
    Bool.and_eq_true]

theorem isPrintable_nil : strpy.isPrintable [] = true := by
  rw [strpy.isPrintable_eq, List.all_nil]

theorem isPrintable_cons {c : Char} :
    strpy.isPrintable (c :: l) = true ↔
      strpy.isPrintableChar c = true ∧ strpy.isPrintable l = true := by
  rw [strpy.isPrintable_eq, strpy.isPrintable_eq, List.all_cons, Bool.and_eq_true]

theorem isPrintable_space : strpy.isPrintable [' '] = true :=
  isPrintable_cons.mpr ⟨strpy.printable_space, isPrintable_nil⟩

theorem isPrintable_of_subset (h : strpy.isPrintable l = true) (hsub : l' ⊆ l) :
    strpy.isPrintable l' = true := by
  rw [strpy.isPrintable_eq, List.all_eq_true] at h ⊢
  exact fun c hc => h c (hsub hc)

theorem isPrintable_of_isValidInput (h : isValidInput strpy l = true) :
    strpy.isPrintable l = true :=
  (Bool.and_eq_true_iff.mp h).2

end printable

/-! ## What stays printable -/

/-- The line, the draft and every line the history can give are printable. -/
structure EditorPrintable (strpy : Strpy) (e : LineEditor) : Prop where
  line : strpy.isPrintable e.line.toList = true
  draft : ∀ draft, e.draft = some draft → strpy.isPrintable draft = true
  entries : EntriesValid strpy e.history
  position : Positioned e.history

/-- The matches found for a Tab are printable. Other keys print nothing of their own, as
    `handle_char` ignores what is not printable. -/
def PrintableKey (strpy : Strpy) : Key → Prop
  | .tab commands _ => ∀ command ∈ commands, strpy.isPrintable command = true
  | _ => True

instance (strpy : Strpy) : (key : Key) → Decidable (PrintableKey strpy key)
  | .tab commands _ =>
    inferInstanceAs (Decidable (∀ command ∈ commands, strpy.isPrintable command = true))
  | .char _ | .left | .right | .home | .toEnd | .backspace | .delete | .up | .down | .newline =>
    .isTrue trivial

theorem isPrintable_of_entry {strpy : Strpy} {h : UserInputHistory} (hv : EntriesValid strpy h)
    {input : Str} (hinput : input ∈ h.history.contents) : strpy.isPrintable input = true :=
  isPrintable_of_isValidInput (hv input hinput)

theorem commonPrefix_subset (s s' : Str) : commonPrefix s s' ⊆ s := by
  induction s generalizing s' with
  | nil => exact List.nil_subset _
  | cons c s ih =>
    cases s' with
    | nil => exact List.nil_subset _
    | cons c' s' =>
      rw [commonPrefix]
      split
      · exact List.cons_subset_cons c (ih s')
      · exact List.nil_subset _

theorem isPrintable_commonCommandPrefix {strpy : Strpy} {commands : List Str}
    (h : ∀ command ∈ commands, strpy.isPrintable command = true) :
    strpy.isPrintable (findCommonCommandPrefix commands) = true := by
  unfold findCommonCommandPrefix
  split
  · rename_i front back hfront hback
    exact isPrintable_of_subset (h front (List.mem_of_head? hfront)) (commonPrefix_subset _ _)
  · exact isPrintable_nil

section view

variable {strpy : Strpy} {e : LineEditor}

theorem EditorPrintable.up (hp : EditorPrintable strpy e) :
    EditorPrintable strpy (e.step strpy .up) := by
  have hmem : ∀ input, e.history.previous.1 = some input → input ∈ e.history.history.contents :=
    fun _ => mem_of_previous hp.position
  have hposition := positioned_previous hp.position
  have hentries := entriesValid_step hp.entries .previous
  rw [historyStep] at hentries
  rw [LineEditor.step]
  generalize e.history.previous = result at hmem hposition hentries ⊢
  rcases result with ⟨_ | input, history⟩
  · exact ⟨hp.line, hp.draft, hentries, hposition⟩
  · have hinput := isPrintable_of_entry hp.entries (hmem input rfl)
    refine ⟨by rwa [Zipper.toList_atEnd], fun draft hdraft => ?_, hentries, hposition⟩
    cases hold : e.draft with
    | none =>
      rw [hold] at hdraft
      exact Option.some.inj hdraft ▸ hp.line
    | some old =>
      rw [hold] at hdraft
      exact Option.some.inj hdraft ▸ hp.draft old hold

theorem EditorPrintable.down (hp : EditorPrintable strpy e) :
    EditorPrintable strpy (e.step strpy .down) := by
  have hmem : ∀ input, e.history.next.1 = some input → input ∈ e.history.history.contents :=
    fun _ => mem_of_next hp.position
  have hposition := positioned_next hp.position
  have hentries := entriesValid_step hp.entries .next
  rw [historyStep] at hentries
  rw [LineEditor.step]
  generalize e.history.next = result at hmem hposition hentries ⊢
  rcases result with ⟨_ | input, history⟩
  · cases hdraft : e.draft with
    | none => exact ⟨hp.line, fun draft h => absurd h (by simp), hentries, hposition⟩
    | some draft =>
      refine ⟨?_, fun draft h => absurd h (by simp), hentries, hposition⟩
      rw [Zipper.toList_atEnd]
      exact hp.draft draft hdraft
  · have hinput := isPrintable_of_entry hp.entries (hmem input rfl)
    exact ⟨by rwa [Zipper.toList_atEnd], hp.draft, hentries, hposition⟩

/-- An edit of the line alone. -/
theorem EditorPrintable.withLine (hp : EditorPrintable strpy e) {line : Zipper Char}
    (hline : strpy.isPrintable line.toList = true) :
    EditorPrintable strpy { e with line } :=
  ⟨hline, hp.draft, hp.entries, hp.position⟩

theorem EditorPrintable.tab (hp : EditorPrintable strpy e) {commands : List Str}
    {consoleWidth : Nat} (hkey : PrintableKey strpy (.tab commands consoleWidth)) :
    EditorPrintable strpy (e.step strpy (.tab commands consoleWidth)) := by
  match commands, hkey with
  | [], _ => exact hp
  | [command], hkey =>
    have hcommand := hkey command List.mem_cons_self
    refine hp.withLine ?_
    rw [Zipper.toList_atEnd, isPrintable_append, isPrintable_append]
    exact ⟨hp.line, isPrintable_of_subset hcommand (List.drop_subset _ _), isPrintable_space⟩
  | _ :: _ :: _, hkey =>
    refine hp.withLine ?_
    rw [Zipper.toList_atEnd]
    exact isPrintable_commonCommandPrefix hkey

theorem EditorPrintable.step (hp : EditorPrintable strpy e) {key : Key}
    (hkey : PrintableKey strpy key) : EditorPrintable strpy (e.step strpy key) := by
  cases key with
  | char ch =>
    rw [LineEditor.step]
    split
    · rename_i hch
      have hline := hp.line
      rw [Zipper.toList, isPrintable_append] at hline
      refine hp.withLine ?_
      rw [Zipper.toList, Zipper.insert, isPrintable_append, isPrintable_append, isPrintable_cons]
      exact ⟨⟨hline.1, hch, isPrintable_nil⟩, hline.2⟩
    · exact hp
  | left => exact hp.withLine (by rw [Zipper.toList_left]; exact hp.line)
  | right => exact hp.withLine (by rw [Zipper.toList_right]; exact hp.line)
  | home => exact hp.withLine (by rw [Zipper.toList_home]; exact hp.line)
  | toEnd => exact hp.withLine (by rw [Zipper.toList_toEnd]; exact hp.line)
  | backspace =>
    exact hp.withLine (isPrintable_of_subset hp.line (Zipper.toList_backspace_subset _))
  | delete => exact hp.withLine (isPrintable_of_subset hp.line (Zipper.toList_delete_subset _))
  | up => exact hp.up
  | down => exact hp.down
  | tab commands consoleWidth => exact hp.tab hkey
  | newline =>
    exact ⟨isPrintable_nil, hp.draft, entriesValid_append hp.entries _, Nat.le_refl _⟩

/-! ## What a key prints -/

/-- The row that shows a line and its cursor. -/
def view (line : Zipper Char) : Terminal := showing line.toList line.before.length

theorem view_atEnd (l : Str) : view (.atEnd l) = showing l l.length := by
  rw [view, Zipper.toList_atEnd]
  rfl

/-- A single match is completed while part of the line is behind the cursor. -/
def CompletesInside (e : LineEditor) : Key → Prop
  | .tab [_] _ => e.line.after ≠ []
  | _ => False

theorem plain_completion {command : Str} {consoleWidth : Nat}
    (hkey : PrintableKey strpy (.tab [command] consoleWidth)) (n : Nat) :
    Plain (command.drop n ++ [' ']) :=
  plain_of_isPrintable (isPrintable_append.mpr
    ⟨isPrintable_of_subset (hkey command List.mem_cons_self) (List.drop_subset _ _),
      isPrintable_space⟩)

theorem feed_tail (a : Str) {b : Str} (hb : Plain b) :
    (showing (a ++ b) a.length).feed b = showing (a ++ b) (a ++ b).length := by
  rw [feed_plain a b hb, List.drop_length, List.append_nil]

theorem feed_clearText (a : Str) {b : Str} (hb : Plain b) :
    (showing (a ++ b) a.length).feed (clearText a b) = showing [] 0 := by
  rw [clearText, feed_append, feed_tail a hb, feed_wipe]

/-- The line cleared away, and another one printed. -/
theorem feed_replaced (a : Str) {b input : Str} (hb : Plain b) (hinput : Plain input) :
    (showing (a ++ b) a.length).feed (clearText a b ++ input) = showing input input.length := by
  have hprint := feed_plain_end [] hinput
  rw [List.nil_append, List.length_nil] at hprint
  rw [feed_append, feed_clearText a hb, hprint]

/-- The tail of the line printed one column to the left of where it stands, a blank over its
    last character, and the cursor taken back. -/
theorem feed_pulled (a : Str) (c : Char) {b : Str} (hb : Plain b) :
    (showing (a ++ c :: b) a.length).feed (b ++ ' ' :: backspaces (b.length + 1)) =
      showing (a ++ b) a.length := by
  have hlast : ((c :: b).drop b.length).tail = [] := by
    rw [List.tail_drop, List.drop_eq_nil_iff, List.length_cons]
  have hcolumn : (a ++ b).length + 1 - (b.length + 1) = a.length := by
    rw [List.length_append]
    omega
  rw [feed_append, feed_plain a (c :: b) hb, feed_cons, put_plain _ _ (by decide), hlast,
    showing_append_blank, backspaces, feed_backspaces, hcolumn]

theorem feed_inserted (a : Str) (c : Char) {b : Str} (hcb : Plain (c :: b)) :
    (showing (a ++ b) a.length).feed (c :: b ++ backspaces b.length) =
      showing (a ++ c :: b) (a ++ [c]).length := by
  have hnone : b.drop (c :: b).length = [] := by
    rw [List.drop_eq_nil_iff, List.length_cons]
    omega
  have hcolumn : (a ++ c :: b).length - b.length = (a ++ [c]).length := by
    rw [List.length_append, List.length_append, List.length_cons, List.length_singleton]
    omega
  rw [feed_append, feed_plain a b hcb, hnone, List.append_nil, backspaces, feed_backspaces, hcolumn]

/-- The completion printed over what is behind the cursor. -/
theorem feed_completion (a b : Str) {completion : Str} (hplain : Plain completion) :
    ((showing (a ++ b) a.length).feed completion).column = (a ++ completion).length := by
  rw [feed_plain a b hplain]
  rfl

/-! ## One key -/

/-- What the key prints turns the view into the next one. -/
def Redrawn (strpy : Strpy) (e : LineEditor) (key : Key) : Prop :=
  (view e.line).feed (e.printed strpy key) = view (e.step strpy key).line

/-- What stands behind the cursor. -/
theorem EditorPrintable.after (hp : EditorPrintable strpy e) :
    strpy.isPrintable e.line.after = true :=
  (isPrintable_append.mp hp.line).2

theorem EditorPrintable.plain_after (hp : EditorPrintable strpy e) : Plain e.line.after :=
  plain_of_isPrintable hp.after

theorem redrawn_char (hp : EditorPrintable strpy e) (ch : Char) : Redrawn strpy e (.char ch) := by
  obtain ⟨⟨a, b⟩, draft, history, entered⟩ := e
  have hb := hp.after
  unfold Redrawn
  rw [LineEditor.step, LineEditor.printed]
  cases hch : strpy.isPrintableChar ch with
  | false => rfl
  | true =>
    have hcb : strpy.isPrintable (ch :: b) = true := isPrintable_cons.mpr ⟨hch, hb⟩
    have hfeed := feed_inserted a ch (plain_of_isPrintable hcb)
    rw [if_pos rfl, if_pos rfl, untilNul_of_isPrintable hcb, view, view, Zipper.toList,
      Zipper.toList, Zipper.insert]
    rw [hfeed, List.append_cons]

theorem redrawn_left (strpy : Strpy) (e : LineEditor) : Redrawn strpy e .left := by
  obtain ⟨⟨a, b⟩, draft, history, entered⟩ := e
  rcases List.eq_nil_or_concat a with rfl | ⟨a, c, rfl⟩
  · rfl
  · unfold Redrawn LineEditor.step
    rw [LineEditor.printed, if_neg (by simp), view, view, Zipper.toList_left, feed_cons,
      put_backspace, feed_nil]
    simp [Zipper.left]

theorem redrawn_right (hp : EditorPrintable strpy e) : Redrawn strpy e .right := by
  obtain ⟨⟨a, b⟩, draft, history, entered⟩ := e
  have hb := hp.after
  unfold Redrawn
  rw [LineEditor.step, LineEditor.printed]
  cases b with
  | nil => simp [view, Zipper.right, Zipper.toList]
  | cons c b =>
    have hc : Plain [c] := plain_of_isPrintable
      (isPrintable_cons.mpr ⟨(isPrintable_cons.mp hb).1, isPrintable_nil⟩)
    have hfeed := feed_plain a (c :: b) hc
    rw [List.length_singleton, List.drop_succ_cons, List.drop_zero] at hfeed
    exact hfeed

theorem redrawn_home (strpy : Strpy) (e : LineEditor) : Redrawn strpy e .home := by
  obtain ⟨⟨a, b⟩, draft, history, entered⟩ := e
  unfold Redrawn
  rw [LineEditor.step, LineEditor.printed]
  dsimp only
  split
  · rename_i hnil
    subst hnil
    rfl
  · rfl

theorem redrawn_toEnd (hp : EditorPrintable strpy e) : Redrawn strpy e .toEnd := by
  obtain ⟨⟨a, b⟩, draft, history, entered⟩ := e
  have hb := hp.plain_after
  unfold Redrawn
  rw [LineEditor.step, LineEditor.printed]
  rw [Zipper.toEnd, view_atEnd]
  exact feed_tail a hb

theorem redrawn_backspace (hp : EditorPrintable strpy e) : Redrawn strpy e .backspace := by
  obtain ⟨⟨a, b⟩, draft, history, entered⟩ := e
  have hb := hp.after
  unfold Redrawn
  rw [LineEditor.step, LineEditor.printed]
  rcases List.eq_nil_or_concat a with rfl | ⟨a, c, rfl⟩
  · rfl
  · have hfeed := feed_pulled a c (plain_of_isPrintable hb)
    dsimp only at hb ⊢
    rw [if_neg (by simp), untilNul_of_isPrintable hb, List.cons_append, feed_cons, view,
      put_backspace, Zipper.backspace, List.concat_eq_append, List.dropLast_concat,
      List.length_append, List.length_singleton, Nat.add_sub_cancel, Zipper.toList,
      List.append_assoc, List.singleton_append]
    exact hfeed

theorem redrawn_delete (hp : EditorPrintable strpy e) : Redrawn strpy e .delete := by
  obtain ⟨⟨a, b⟩, draft, history, entered⟩ := e
  have hb := hp.after
  unfold Redrawn
  rw [LineEditor.step, LineEditor.printed]
  cases b with
  | nil => rfl
  | cons c b =>
    have hb' := (isPrintable_cons.mp hb).2
    rw [if_neg (List.cons_ne_nil c b), List.tail_cons, untilNul_of_isPrintable hb']
    exact feed_pulled a c (plain_of_isPrintable hb')

theorem redrawn_up (hp : EditorPrintable strpy e) : Redrawn strpy e .up := by
  have hb := hp.plain_after
  have hmem : ∀ input, e.history.previous.1 = some input → input ∈ e.history.history.contents :=
    fun _ => mem_of_previous hp.position
  unfold Redrawn
  rw [LineEditor.step, LineEditor.printed]
  generalize e.history.previous = result at hmem ⊢
  rcases result with ⟨_ | input, history⟩
  · rfl
  · have hinput := plain_of_isPrintable (isPrintable_of_entry hp.entries (hmem input rfl))
    rw [view_atEnd]
    exact feed_replaced e.line.before hb hinput

theorem redrawn_down (hp : EditorPrintable strpy e) : Redrawn strpy e .down := by
  have hb := hp.plain_after
  have hmem : ∀ input, e.history.next.1 = some input → input ∈ e.history.history.contents :=
    fun _ => mem_of_next hp.position
  unfold Redrawn
  rw [LineEditor.step, LineEditor.printed]
  generalize e.history.next = result at hmem ⊢
  rcases result with ⟨_ | input, history⟩
  · cases hdraft : e.draft with
    | none => rfl
    | some draft =>
      have hplain := plain_of_isPrintable (hp.draft draft hdraft)
      rw [view_atEnd]
      exact feed_replaced e.line.before hb hplain
  · have hinput := plain_of_isPrintable (isPrintable_of_entry hp.entries (hmem input rfl))
    rw [view_atEnd]
    exact feed_replaced e.line.before hb hinput

theorem redrawn_tab (hp : EditorPrintable strpy e) {commands : List Str} {consoleWidth : Nat}
    (hkey : PrintableKey strpy (.tab commands consoleWidth))
    (hend : ¬ CompletesInside e (.tab commands consoleWidth)) :
    Redrawn strpy e (.tab commands consoleWidth) := by
  have hb := hp.plain_after
  match commands, hkey, hend with
  | [], _, _ => rfl
  | [command], hkey, hend =>
    obtain ⟨⟨a, b⟩, draft, history, entered⟩ := e
    obtain rfl : b = [] := not_not.mp hend
    have hcompletion := plain_completion hkey a.length
    have hfeed := feed_plain_end a hcompletion
    unfold Redrawn
    rw [LineEditor.step, LineEditor.printed, view_atEnd, view, Zipper.toList, List.append_nil]
    exact hfeed
  | command :: command' :: commands, hkey, _ =>
    have hprefix := plain_of_isPrintable (isPrintable_commonCommandPrefix hkey)
    have hprint := feed_plain_end [] hprefix
    rw [List.nil_append, List.length_nil] at hprint
    change (view e.line).feed (clearText e.line.before e.line.after ++
        ('\n' :: printCommandMatches consoleWidth (command :: command' :: commands) ++ ['\n']) ++
        findCommonCommandPrefix (command :: command' :: commands)) =
      view (.atEnd (findCommonCommandPrefix (command :: command' :: commands)))
    rw [view_atEnd, feed_append, feed_append, feed_append, feed_cons _ '\n' [], put_newline,
      feed_nil, hprint]

/-- One key, for each of them. -/
theorem feed_printed (hp : EditorPrintable strpy e) {key : Key} (hkey : PrintableKey strpy key)
    (hend : ¬ CompletesInside e key) : Redrawn strpy e key := by
  cases key with
  | char ch => exact redrawn_char hp ch
  | left => exact redrawn_left strpy e
  | right => exact redrawn_right hp
  | home => exact redrawn_home strpy e
  | toEnd => exact redrawn_toEnd hp
  | backspace => exact redrawn_backspace hp
  | delete => exact redrawn_delete hp
  | up => exact redrawn_up hp
  | down => exact redrawn_down hp
  | tab commands consoleWidth => exact redrawn_tab hp hkey hend
  | newline => rfl

end view

/-! ## Runs -/

/-- The row reads `input_line_` and then blanks, with the cursor at `cursor_position_`. -/
def RowShowsLine (s : ConsoleInput) : Prop :=
  (showing [] 0).feed s.output = showing s.inputLine s.cursorPosition

/-- A Tab finds one match while the cursor stands before the end of the line. -/
def TabInside (s : ConsoleInput) : Key → Prop
  | .tab [_] _ => s.cursorPosition < s.inputLine.length
  | _ => False

instance (s : ConsoleInput) : (key : Key) → Decidable (TabInside s key)
  | .tab [_] _ => inferInstanceAs (Decidable (s.cursorPosition < s.inputLine.length))
  | .tab [] _ | .tab (_ :: _ :: _) _ | .char _ | .left | .right | .home | .toEnd | .backspace
  | .delete | .up | .down | .newline => .isFalse id

section runs

variable {strpy : Strpy} {s s' : ConsoleInput} {e : LineEditor}

theorem Follows.showing_eq (h : Follows s e) :
    showing s.inputLine s.cursorPosition = view e.line := by
  rw [h.line.1, h.line.2, view, Zipper.toList]

theorem Follows.tabInside_iff (h : Follows s e) (key : Key) :
    TabInside s key ↔ CompletesInside e key := by
  have hlen : s.inputLine.length = s.cursorPosition + e.line.after.length := by
    rw [h.line.1, h.line.2, List.length_append]
  unfold TabInside CompletesInside
  split
  · rw [hlen, ← List.length_pos_iff]
    omega
  · rfl

/-- The state a run goes through while no completion was printed inside the line. -/
def ShowsInv (strpy : Strpy) (s : ConsoleInput) : Prop :=
  ∃ e, Follows s e ∧ EditorPrintable strpy e ∧ RowShowsLine s

theorem showsInv_step {key : Key} (h : ShowsInv strpy s) (hkey : PrintableKey strpy key)
    (hend : ¬ TabInside s key) (hok : handle strpy s key = .ok s') : ShowsInv strpy s' := by
  obtain ⟨e, hfollows, hprintable, hshows⟩ := h
  obtain ⟨hfollows', houtput⟩ := handle_ok hfollows hok
  have hredrawn := feed_printed hprintable hkey (mt (hfollows.tabInside_iff key).mpr hend)
  refine ⟨_, hfollows', hprintable.step hkey, ?_⟩
  unfold RowShowsLine
  rw [houtput, feed_append, hshows, hfollows.showing_eq, hredrawn, ← hfollows'.showing_eq]

/-- A completion inside the line leaves the console's cursor behind. -/
theorem not_shows_of_tabInside {key : Key} (h : ShowsInv strpy s) (hkey : PrintableKey strpy key)
    (hin : TabInside s key) (hok : handle strpy s key = .ok s') : ¬ RowShowsLine s' := by
  obtain ⟨e, hfollows, hprintable, hshows⟩ := h
  obtain ⟨hfollows', houtput⟩ := handle_ok hfollows hok
  match key, hkey, hin, hfollows', houtput with
  | .tab [command] consoleWidth, hkey, hin, hfollows', houtput =>
    intro hshows'
    have hafter : 0 < e.line.after.length :=
      List.length_pos_iff.mpr ((hfollows.tabInside_iff (.tab [command] consoleWidth)).mp hin)
    have hcolumn := feed_completion e.line.before e.line.after
      (plain_completion hkey e.line.toList.length)
    have hcolumn' : ((showing [] 0).feed s'.output).column = s'.cursorPosition :=
      congrArg Terminal.column hshows'
    rw [houtput, feed_append, hshows, hfollows.showing_eq] at hcolumn'
    have heq := hcolumn.symm.trans (hcolumn'.trans hfollows'.line.2)
    rw [LineEditor.step, Zipper.atEnd, Zipper.toList] at heq
    simp only [List.length_append] at heq
    omega

end runs

/-- Along every run of the console input from an empty line on a blank row, with printable
    characters: the row shows the line after every key exactly when no Tab completes a single
    match while the cursor is inside the line. -/
theorem row_shows_line_iff (strpy : Strpy) (filename : Str) (fs : FileSystem) (keys : List Key)
    (hkeys : ∀ key ∈ keys, PrintableKey strpy key) :
    Always RowShowsLine (initial strpy filename fs)
        (keyRun strpy (initial strpy filename fs) keys) ↔
      Meets (fun s key => ¬ TabInside s key) (initial strpy filename fs)
        (keyRun strpy (initial strpy filename fs) keys) := by
  have hstart : ShowsInv strpy (initial strpy filename fs) := by
    refine ⟨_, follows_new strpy filename fs, ⟨isPrintable_nil, ?_, ?_, ?_⟩, rfl⟩
    · exact fun draft hdraft => absurd hdraft (by simp [LineEditor.initial, LineEditor.new])
    · exact entriesValid_load (entriesValid_new filename) fs
    · exact positioned_load (positioned_new filename) fs
  refine always_iff_meets (fun s ⟨_, _, _, hshows⟩ => hshows) ?_ ?_ hstart (isRun_traceOk _ _ keys)
  · intro s key s' hinv hend hstep
    exact showsInv_step hinv (hkeys key hstep.1) hend hstep.2
  · intro s key s' hinv hin hstep
    exact not_shows_of_tabInside hinv (hkeys key hstep.1) (not_not.mp hin) hstep.2

/-- `st` completed from its end; the first character deleted; entered and recalled. -/
def endCompletionKeys : List Key :=
  [.char 's', .char 't', .tab ["status".toList] 80, .char '1', .home, .delete, .newline, .up]

theorem row_shows_line_completion :
    Always RowShowsLine blank (keyRun asciiStrpy blank endCompletionKeys) :=
  (row_shows_line_iff asciiStrpy [] { files := [] } endCompletionKeys (by decide +kernel)).mpr
    (by decide +kernel)

/-- `st`, the cursor moved left, and Tab with the one match `status`. -/
def tabInsideKeys : List Key := [.char 's', .char 't', .left, .tab ["status".toList] 80]

/-- The line is `status `, with the cursor behind it; the row reads `satus `. -/
theorem tab_inside_overprints :
    (final blank (keyRun asciiStrpy blank tabInsideKeys)).inputLine = "status ".toList ∧
      (final blank (keyRun asciiStrpy blank tabInsideKeys)).output = "st\x08atus ".toList ∧
      ¬ Always RowShowsLine blank (keyRun asciiStrpy blank tabInsideKeys) := by
  refine ⟨by decide +kernel, by decide +kernel, fun h => ?_⟩
  have hcolumn := congrArg Terminal.column h.final
  exact absurd hcolumn (by decide +kernel)

end RehldsM.View
