import RehldsM.Lib.Layout
import RehldsM.Core.CmdlineTakeOut

/-
  `remove` on lines with any white space between the tokens.

  `get_argument_option` passes over blanks only, and only a blank ends an option: it reads the
  option of an argument exactly when the text behind is `Readable`. A turn of the loop counts one
  separator in front of the option, too (`CleanBehind`). `cut` is what is then left of a line: the
  argument goes with its option and with the last character of the gap in front of it
  (`remove_cut`).
-/

namespace RehldsM.Core

open Lib Util

variable {strpy : Strpy}

/-- The tokens of a line, each with its gap, and the white space at the end. -/
abbrev Line (strpy : Strpy) := List (Str × strpy.Token) × Str

namespace Line

def text (l : Line strpy) : Str := layout l.1 l.2

def tokens (l : Line strpy) : List strpy.Token := l.1.map Prod.snd

/-- The line without the option at its front. -/
def dropOption : Line strpy → Line strpy
  | ([], rest) => ([], rest)
  | ((gap, o) :: items, rest) => if isOption o then (items, rest) else ((gap, o) :: items, rest)

/-- The line without the argument and its options, taken out from the last one on. -/
def cut (n : ArgName strpy) (rest : Str) : List (Str × strpy.Token) → Line strpy
  | [] => ([], rest)
  | (gap, t) :: items =>
    let behind := cut n rest items
    if isArg n t then putBefore gap.dropLast behind.dropOption
    else ((gap, t) :: behind.1, behind.2)

end Line

/-- How much of the text behind an argument is erased when there is a separator in front of it. -/
def countBehind (v : Str) : Nat := (optionBehind v).elim 0 fun option => option.length + 1

/-! ## One turn of the loop -/

section turn

variable {n : ArgName strpy} {t : strpy.Token}

theorem getArgumentOptionAt_behind (u : Str) (ht : isArg n t = true) (v : Str) :
    (CmdLineArgs.mk (u ++ (t.chars ++ v))).getArgumentOptionAt n.chars (some u.length) =
      optionBehind v :=
  getArgumentOptionAt_spelled u ht v (Nat.add_zero _).symm

theorem numCharsToRemove_behind (u : Str) (ht : isArg n t = true) (v : Str) :
    (CmdLineArgs.mk (u ++ (t.chars ++ v))).numCharsToRemove n.chars u.length =
      1 + t.chars.length + countBehind v := by
  have hlen := length_of_isArg ht
  unfold CmdLineArgs.numCharsToRemove countBehind
  rw [getArgumentOptionAt_behind u ht v]
  cases optionBehind v with
  | none =>
    simp only [Option.elim]
    omega
  | some option =>
    simp only [Option.elim]
    omega

/-- With text in front the erasure begins one character earlier. -/
theorem removeAt_behind {u : Str} (hu : u ≠ []) (ht : isArg n t = true) (v : Str) :
    (CmdLineArgs.mk (u ++ (t.chars ++ v))).removeAt n.chars u.length =
      ⟨u.dropLast ++ v.drop (countBehind v)⟩ := by
  have hpos : u.length > 0 := List.length_pos_of_ne_nil hu
  have htake : (u ++ (t.chars ++ v)).take (u.length - 1) = u.dropLast := by
    rw [List.take_append_of_le_length (by omega), List.dropLast_eq_take]
  have hdrop : (u ++ (t.chars ++ v)).drop (u.length - 1 + (1 + t.chars.length + countBehind v)) =
      v.drop (countBehind v) := by
    rw [show u.length - 1 + (1 + t.chars.length + countBehind v) =
      u.length + (t.chars.length + countBehind v) by omega, ← List.drop_drop, List.drop_left,
      ← List.drop_drop, List.drop_left]
  unfold CmdLineArgs.removeAt
  dsimp only
  rw [numCharsToRemove_behind u ht v, if_pos hpos, htake, hdrop]

/-- At the start of the line one more character goes behind the argument. -/
theorem removeAt_start (ht : isArg n t = true) (v : Str) :
    (CmdLineArgs.mk (t.chars ++ v)).removeAt n.chars 0 = ⟨v.drop (countBehind v + 1)⟩ := by
  have hnum := numCharsToRemove_behind [] ht v
  rw [List.nil_append, List.length_nil] at hnum
  have hdrop : (t.chars ++ v).drop (1 + t.chars.length + countBehind v) =
      v.drop (countBehind v + 1) := by
    rw [show 1 + t.chars.length + countBehind v = t.chars.length + (countBehind v + 1) by omega,
      ← List.drop_drop, List.drop_left]
  unfold CmdLineArgs.removeAt
  dsimp only
  rw [hnum]
  simp only [Nat.lt_irrefl, gt_iff_lt, if_false, List.take_zero, List.nil_append, Nat.zero_add]
  rw [hdrop]

end turn

/-! ## What stands behind an argument -/

namespace Line

/-- The text behind an argument, where `get_argument_option` reads what is there: blanks up to
    the next token, and behind this one, if it is an option, a blank or the end of the line. -/
def Readable : Line strpy → Prop
  | ([], rest) => ∀ c ∈ rest, c = ' '
  | ((gap, o) :: items, rest) =>
    (∀ c ∈ gap, c = ' ') ∧ (isOption o = true → ∀ c ∈ (firstGap items rest).head?, c = ' ')

/-- An option stands at this distance. -/
def Counted (width : Nat → Prop) : Line strpy → Prop
  | ([], _) => True
  | ((gap, o) :: _, _) => isOption o = true → width gap.length

-- A quantifier over the characters of a list, not over all characters.
instance : DecidablePred (Readable : Line strpy → Prop)
  | ([], rest) => List.decidableBAll (fun c => c = ' ') rest
  | ((gap, _) :: items, rest) =>
    have := List.decidableBAll (fun c => c = ' ') gap
    have := Option.decidableForallMem (p := fun c => c = ' ') (firstGap items rest).head?
    inferInstanceAs (Decidable (_ ∧ (_ → _)))

instance (width : Nat → Prop) [DecidablePred width] :
    DecidablePred (Counted width : Line strpy → Prop)
  | ([], _) => inferInstanceAs (Decidable True)
  | ((_, _) :: _, _) => inferInstanceAs (Decidable (_ → width _))

end Line

/-- The text behind an argument that is taken out with its option. -/
def CleanBehind (width : Nat → Prop) (l : Line strpy) : Prop := l.Readable ∧ l.Counted width

instance (width : Nat → Prop) [DecidablePred width] (l : Line strpy) :
    Decidable (CleanBehind width l) := inferInstanceAs (Decidable (_ ∧ _))

theorem optionBehind_blanks {gap : Str} (h : ∀ c ∈ gap, c = ' ') (s : Str) :
    optionBehind (gap ++ s) = optionBehind s := by
  have hdrop : (gap ++ s).dropWhile (· == ' ') = s.dropWhile (· == ' ') :=
    List.dropWhile_append_of_pos fun c hc => by rw [h c hc]; rfl
  unfold optionBehind
  rw [hdrop]

/-- White space that is no blank is taken for the beginning of an option. -/
theorem optionBehind_white {gap : Str} (hgap : ∀ c ∈ gap, strpy.isSpace c = true)
    (hnot : ¬ ∀ c ∈ gap, c = ' ') (s : Str) :
    ∃ c o, strpy.isSpace c = true ∧ optionBehind (gap ++ s) = some (c :: o) := by
  induction gap with
  | nil => exact absurd (by simp) hnot
  | cons c gap ih =>
    obtain ⟨hc, hrest⟩ := List.forall_mem_cons.mp hgap
    by_cases hblank : c = ' '
    · have hread : optionBehind ([c] ++ (gap ++ s)) = optionBehind (gap ++ s) :=
        optionBehind_blanks (by simpa using hblank) (gap ++ s)
      rw [List.cons_append, ← List.singleton_append, hread]
      exact ih hrest fun hall => hnot (List.forall_mem_cons.mpr ⟨hblank, hall⟩)
    · have hdrop : (c :: gap ++ s).dropWhile (· == ' ') = c :: (gap ++ s) :=
        List.dropWhile_cons_of_neg (by simpa using hblank)
      have htake : (c :: (gap ++ s)).takeWhile (· != ' ') = c :: (gap ++ s).takeWhile (· != ' ') :=
        List.takeWhile_cons_of_pos (by simpa using hblank)
      have hsign : c ≠ '+' ∧ c ≠ '-' := by
        constructor
        · rintro rfl
          simp [strpy.isSpace_plus] at hc
        · rintro rfl
          simp [strpy.isSpace_minus] at hc
      refine ⟨c, (gap ++ s).takeWhile (· != ' '), hc, ?_⟩
      unfold optionBehind
      rw [hdrop]
      dsimp only
      rw [if_pos hsign, htake]

/-- An option is read to its end exactly when a blank or the end of the line is there. -/
theorem optionBehind_option_iff {o : strpy.Token} (ho : isOption o = true) (s : Str) :
    optionBehind (o.chars ++ s) = some o.chars ↔ ∀ c ∈ s.head?, c = ' ' := by
  constructor
  · intro h c hc
    obtain ⟨s, rfl⟩ := List.head?_eq_some_iff.mp hc
    by_contra hblank
    have hrun : ∀ x ∈ o.chars ++ [c], (x != ' ') = true := by
      intro x hx
      rw [bne_iff_ne]
      rcases List.mem_append.mp hx with hx | hx
      · rintro rfl
        exact o.not_mem strpy.isSpace_space hx
      · rw [List.mem_singleton.mp hx]
        exact hblank
    obtain ⟨d, w, hd⟩ := List.exists_cons_of_ne_nil o.ne_nil
    have hlonger : o.chars ++ [c] <+: o.chars := by
      have hsplit : o.chars ++ c :: s = o.chars ++ [c] ++ s := by simp
      have hdrop : (o.chars ++ c :: s).dropWhile (· == ' ') = o.chars ++ c :: s := by
        have hne := hrun d (by simp [hd])
        rw [hd, List.cons_append]
        exact List.dropWhile_cons_of_neg (by simpa using hne)
      unfold optionBehind at h
      rw [hdrop, hd] at h
      dsimp only [List.cons_append] at h
      split_ifs at h
      rw [← List.cons_append, ← hd, hsplit, List.takeWhile_append_of_pos hrun] at h
      exact ⟨_, Option.some.inj h⟩
    have hlen := hlonger.length_le
    rw [List.length_append, List.length_singleton] at hlen
    omega
  · intro h
    rw [optionBehind_token o fun _ => h, if_pos ho]

theorem text_cons (gap : Str) (t : strpy.Token) (items : List (Str × strpy.Token)) (rest : Str) :
    Line.text ((gap, t) :: items, rest) = gap ++ (t.chars ++ Line.text (items, rest)) := rfl

/-- What stands in front of a token ends with the gap of this token. -/
theorem text_split (u : List (Str × strpy.Token)) (i : Str × strpy.Token)
    (v : List (Str × strpy.Token)) (rest : Str) :
    Line.text (u ++ i :: v, rest) = layout u i.1 ++ (i.2.chars ++ Line.text (v, rest)) := by
  rw [Line.text, layout_append, ← layout_append_rest]
  rfl

theorem head_text {l : Line strpy} (hgaps : Gaps l.1 l.2) :
    l.text.head? = (firstGap l.1 l.2).head? := by
  obtain ⟨items, rest⟩ := l
  cases items with
  | nil => rfl
  | cons i items =>
    obtain ⟨gap, t⟩ := i
    exact List.head?_append_of_ne_nil gap (hgaps.gap_ne_nil (gap, t) List.mem_cons_self)

/-- The code reads the option the line has exactly when the text is readable. -/
theorem optionBehind_iff {l : Line strpy} (hfirst : ∀ c ∈ firstGap l.1 l.2, strpy.isSpace c = true)
    (htail : Gaps l.1.tail l.2) :
    optionBehind l.text = (optionOf l.tokens).map Word.chars ↔ l.Readable := by
  obtain ⟨items, rest⟩ := l
  by_cases hblank : ∀ c ∈ firstGap items rest, c = ' '
  · cases items with
    | nil =>
      have hread : optionBehind (rest ++ []) = optionBehind [] := optionBehind_blanks hblank []
      rw [List.append_nil] at hread
      exact iff_of_true hread hblank
    | cons i items =>
      obtain ⟨gap, o⟩ := i
      have hhead := head_text (l := (items, rest)) htail
      have hgap : ∀ c ∈ gap, c = ' ' := hblank
      rw [text_cons, optionBehind_blanks hgap, Line.tokens, List.map_cons, optionOf]
      by_cases ho : isOption o = true
      · rw [if_pos ho, Option.map_some, optionBehind_option_iff ho, hhead]
        exact ⟨fun h => ⟨hgap, fun _ => h⟩, fun h => h.2 ho⟩
      · rw [if_neg ho, optionBehind_token o fun h => absurd h ho, if_neg ho]
        exact iff_of_true rfl ⟨hgap, fun h => absurd h ho⟩
  · have hread : optionBehind (Line.text (items, rest)) ≠
        (optionOf (Line.tokens (items, rest))).map Word.chars := by
      intro heq
      have hspace : ∃ c o, strpy.isSpace c = true ∧
          optionBehind (Line.text (items, rest)) = some (c :: o) := by
        cases items with
        | nil =>
          have hwhite := optionBehind_white hfirst hblank []
          rwa [List.append_nil] at hwhite
        | cons i items => exact optionBehind_white hfirst hblank _
      obtain ⟨c, o, hc, hsome⟩ := hspace
      obtain ⟨w, -, hw⟩ := Option.map_eq_some_iff.mp (heq.symm.trans hsome)
      have hnot := w.no_sep c (by rw [hw]; exact List.mem_cons_self)
      rw [hc] at hnot
      cases hnot
    refine iff_of_false hread fun h => hblank ?_
    cases items with
    | nil => exact h
    | cons i items => exact h.1

theorem optionBehind_text {l : Line strpy} (hgaps : Gaps l.1 l.2) (h : l.Readable) :
    optionBehind l.text = (optionOf l.tokens).map Word.chars := by
  refine (optionBehind_iff hgaps.firstGap_sep ?_).mpr h
  obtain ⟨items, rest⟩ := l
  cases items with
  | nil => exact hgaps
  | cons i items => exact hgaps.tail

theorem eq_blank_of_length_one {gap : Str} (hone : gap.length = 1) (h : ∀ c ∈ gap, c = ' ') :
    gap = [' '] := by
  obtain ⟨c, rfl⟩ := List.length_eq_one_iff.mp hone
  rw [h c (by simp)]

/-- What a turn erases behind the argument is the option with its gap. -/
theorem drop_countBehind {l : Line strpy} (hgaps : Gaps l.1 l.2) (h : CleanBehind (· = 1) l) :
    l.text.drop (countBehind l.text) = l.dropOption.text := by
  obtain ⟨hread, hcount⟩ := h
  unfold countBehind
  rw [optionBehind_text hgaps hread]
  obtain ⟨items, rest⟩ := l
  cases items with
  | nil => rfl
  | cons i items =>
    obtain ⟨gap, o⟩ := i
    rw [Line.tokens, List.map_cons, optionOf, Line.dropOption]
    by_cases ho : isOption o = true
    · have hgap := eq_blank_of_length_one (hcount ho) hread.1
      rw [if_pos ho, if_pos ho, text_cons, hgap]
      exact List.drop_left
    · rw [if_neg ho, if_neg ho]
      rfl

/-! ## The loop -/

section loop

variable {n : ArgName strpy} {items : List (Str × strpy.Token)} {rest : Str}

theorem tokens_dropOption (l : Line strpy) : l.dropOption.tokens = dropOption l.tokens := by
  obtain ⟨items, rest⟩ := l
  cases items with
  | nil => rfl
  | cons i items =>
    obtain ⟨gap, o⟩ := i
    simp only [Line.dropOption, Line.tokens, List.map_cons, Core.dropOption]
    split <;> rfl

theorem gaps_dropOption {l : Line strpy} (h : Gaps l.1 l.2) :
    Gaps l.dropOption.1 l.dropOption.2 := by
  obtain ⟨items, rest⟩ := l
  cases items with
  | nil => exact h
  | cons i items =>
    obtain ⟨gap, o⟩ := i
    simp only [Line.dropOption]
    split
    · exact h.tail
    · exact h

theorem tokens_cut (n : ArgName strpy) (rest : Str) (items : List (Str × strpy.Token)) :
    (Line.cut n rest items).tokens = dropArg n (items.map Prod.snd) := by
  induction items with
  | nil => rfl
  | cons i items ih =>
    obtain ⟨gap, t⟩ := i
    by_cases ht : isArg n t = true
    · simp only [Line.cut, ht, if_true, List.map_cons, dropArg]
      rw [← ih, ← tokens_dropOption]
      exact words_putBefore _ _
    · simp only [Line.cut, ht, List.map_cons, dropArg]
      rw [← ih]
      rfl

theorem cut_of_not_isArg (h : ∀ x ∈ items.map Prod.snd, isArg n x = false) :
    Line.cut n rest items = (items, rest) := by
  induction items with
  | nil => rfl
  | cons i items ih =>
    obtain ⟨gap, t⟩ := i
    obtain ⟨ht, hitems⟩ := List.forall_mem_cons.mp h
    rw [Line.cut, ih hitems]
    exact if_neg (by simp [ht])

theorem gaps_cut (h : Gaps items rest) (n : ArgName strpy) :
    Gaps (Line.cut n rest items).1 (Line.cut n rest items).2 := by
  induction items with
  | nil => exact h
  | cons i items ih =>
    obtain ⟨gap, t⟩ := i
    have hsep := h.gap_sep (gap, t) List.mem_cons_self
    simp only [Line.cut]
    split
    · refine (gaps_dropOption (ih h.tail)).putBefore fun c hc => ?_
      exact hsep c (List.mem_of_mem_dropLast hc)
    · exact (ih h.tail).cons (h.gap_ne_nil (gap, t) List.mem_cons_self) hsep

theorem mentions_text_iff {l : Line strpy} (hgaps : Gaps l.1 l.2) (n : ArgName strpy) (s : Str) :
    Mentions n (s ++ l.text) ↔ Mentions n s ∨ ∃ t ∈ l.tokens, Mentions n t.chars := by
  have hword : ∀ c, strpy.isSpace c = false → ∀ x ∈ c :: n.chars, strpy.isSpace x = false :=
    fun c hc => List.forall_mem_cons.mpr ⟨hc, n.no_sep⟩
  unfold Mentions Line.text Line.tokens
  rw [infix_layout_iff (by simp) (hword '+' strpy.isSpace_plus) hgaps,
    infix_layout_iff (by simp) (hword '-' strpy.isSpace_minus) hgaps]
  constructor
  · rintro ((h | ⟨i, hi, h⟩) | (h | ⟨i, hi, h⟩))
    · exact Or.inl (Or.inl h)
    · exact Or.inr ⟨i.2, List.mem_map_of_mem hi, Or.inl h⟩
    · exact Or.inl (Or.inr h)
    · exact Or.inr ⟨i.2, List.mem_map_of_mem hi, Or.inr h⟩
  · rintro ((h | h) | ⟨t, ht, h⟩)
    · exact Or.inl (Or.inl h)
    · exact Or.inr (Or.inl h)
    · obtain ⟨i, hi, rfl⟩ := List.mem_map.mp ht
      exact h.imp (fun h => Or.inr ⟨i, hi, h⟩) fun h => Or.inr ⟨i, hi, h⟩

theorem not_mentions_text {l : Line strpy} (hgaps : Gaps l.1 l.2)
    (hl : ∀ t ∈ l.tokens, ¬ Mentions n t.chars) {s : Str} (hs : ¬ Mentions n s) :
    ¬ Mentions n (s ++ l.text) := by
  rw [mentions_text_iff hgaps]
  rintro (h | ⟨t, ht, h⟩)
  · exact hs h
  · exact hl t ht h

/-- Nothing behind an argument that has been worked on mentions the name. -/
theorem not_mentions_cut (hgaps : Gaps items rest) (h : Unambiguous n (items.map Prod.snd))
    {s : Str} (hs : ¬ Mentions n s) : ¬ Mentions n (s ++ (Line.cut n rest items).text) := by
  refine not_mentions_text (gaps_cut hgaps n) ?_ hs
  rw [tokens_cut]
  exact not_mentions_dropArg h

/-- Behind every argument on the line, what is left there is clean when its turn comes. -/
def CleanLine (n : ArgName strpy) (rest : Str) : List (Str × strpy.Token) → Prop
  | [] => True
  | (_, t) :: items =>
    (isArg n t = true → CleanBehind (· = 1) (Line.cut n rest items)) ∧ CleanLine n rest items

theorem cleanLine_iff : CleanLine n rest items ↔ ∀ u i v, items = u ++ i :: v →
    isArg n i.2 = true → CleanBehind (· = 1) (Line.cut n rest v) := by
  induction items with
  | nil => exact iff_of_true trivial fun u i v h => by simp at h
  | cons j items ih =>
    rw [CleanLine, ih]
    constructor
    · rintro ⟨hj, hitems⟩ u i v h hi
      cases u with
      | nil =>
        obtain ⟨rfl, rfl⟩ := List.cons.inj h
        exact hj hi
      | cons x u => exact hitems u i v (List.cons.inj h).2 hi
    · intro h
      exact ⟨h [] j items rfl, fun u i v hv => h (j :: u) i v (congrArg (j :: ·) hv)⟩

instance CleanLine.decidable (n : ArgName strpy) (rest : Str) :
    ∀ items : List (Str × strpy.Token), Decidable (CleanLine n rest items)
  | [] => inferInstanceAs (Decidable True)
  | (_, _) :: items =>
    have := CleanLine.decidable n rest items
    inferInstanceAs (Decidable ((_ → CleanBehind _ _) ∧ CleanLine n rest items))

/-- The loop treats the tokens behind `u` first; nothing is asked of `u` itself. -/
theorem remove_cut (u : Str) (hgaps : Gaps items rest) (h : Unambiguous n (items.map Prod.snd))
    (hclean : CleanLine n rest items) :
    (CmdLineArgs.mk (u ++ Line.text (items, rest))).remove n.chars =
      (CmdLineArgs.mk (u ++ (Line.cut n rest items).text)).remove n.chars := by
  induction items generalizing u with
  | nil => rfl
  | cons i items ih =>
    obtain ⟨gap, t⟩ := i
    have hstep := ih (u ++ gap ++ t.chars) hgaps.tail h.tail hclean.2
    rw [text_cons]
    simp only [List.append_assoc] at hstep
    rw [hstep]
    by_cases ht : isArg n t = true
    · have hnot := not_mentions_cut hgaps.tail h.tail (not_mentions_name n)
      have hpos := findArgumentPos_at (u ++ gap) ht hnot
      have hgap : gap ≠ [] := hgaps.gap_ne_nil (gap, t) List.mem_cons_self
      have hne : u ++ gap ≠ [] := List.append_ne_nil_of_right_ne_nil u hgap
      have hturn := removeAt_behind hne ht (Line.cut n rest items).text
      rw [drop_countBehind (gaps_cut hgaps.tail n) (hclean.1 ht),
        List.dropLast_append_of_ne_nil hgap, List.append_assoc] at hturn
      have hcut : (Line.cut n rest ((gap, t) :: items)).text =
          gap.dropLast ++ (Line.cut n rest items).dropOption.text := by
        simp only [Line.cut, ht, if_true]
        exact layout_putBefore _ _
      rw [List.append_assoc] at hpos hturn
      rw [remove_turn hpos, hturn, hcut]
    · simp only [Line.cut, ht]
      rfl

end loop

end RehldsM.Core
