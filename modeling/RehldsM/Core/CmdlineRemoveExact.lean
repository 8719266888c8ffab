import RehldsM.Core.CmdlineLeftOver

/-
  Which lines `remove` edits as it is meant to.

  The tokens of a line are its words between white space. `remove` is meant to take out the
  tokens `+name` and `-name`, each with the token directly behind it when this is an option.
  `Clear` says when every turn of its loop is right: no other token mentions the name, so the
  search stops at the argument; what is then left behind it is as the code reads and counts it
  (`Tidy`); and no plain word has moved up there (`NoCapture`). On other lines wrong turns can
  still cancel, or a misread option do no harm; not so with one argument of the name between blanks
  (`Sole`).
-/

namespace RehldsM.Core

open Lib Util

variable {strpy : Strpy}

/-- The tokens after `remove(a)` are those before it without the argument and its options. -/
def RemovesExactly (n : ArgName strpy) (a : Str) (args : CmdLineArgs) : Prop :=
  wordsOf strpy.isSpace (args.remove a).arguments =
    takeOut (isArg n) (wordsOf strpy.isSpace args.arguments)

/-- What stands behind an argument, once the later ones are gone: blanks, and one of them if an
    option follows, which ends at a blank or at the end of the line. Two blanks may stand in front
    of the option where the argument begins the line. -/
def Tidy (n : ArgName strpy) (s : Str) : Prop :=
  let (first, items, rest) := layoutOf strpy.isSpace s
  (∀ t ∈ first, isArg n t = true →
    CleanBehind (fun width => width = 1 ∨ width = 2) (Line.cut n rest items)) ∧
      CleanLine n rest items

instance (n : ArgName strpy) (s : Str) : Decidable (Tidy n s) :=
  inferInstanceAs (Decidable ((∀ t ∈ _, _ → CleanBehind _ _) ∧ CleanLine _ _ _))

structure Clear (n : ArgName strpy) (s : Str) : Prop where
  unambiguous : Unambiguous n (wordsOf strpy.isSpace s)
  tidy : Tidy n s
  noCapture : NoCapture [] n (wordsOf strpy.isSpace s)

instance (n : ArgName strpy) (s : Str) : Decidable (Clear n s) :=
  decidable_of_iff
    (Unambiguous n (wordsOf strpy.isSpace s) ∧ Tidy n s ∧
      NoCapture [] n (wordsOf strpy.isSpace s))
    ⟨fun h => ⟨h.1, h.2.1, h.2.2⟩, fun h => ⟨h.unambiguous, h.tidy, h.noCapture⟩⟩

/-- One token at most is the argument, the gaps are blanks, and what is left of its option does
    not make up the name again. -/
structure Sole (n : ArgName strpy) (s : Str) : Prop where
  once : (wordsOf strpy.isSpace s).countP (isArg n) ≤ 1
  blanks : ∀ c ∈ s, strpy.isSpace c = true → c = ' '
  unglued : Unglued n (wordsOf strpy.isSpace s)

/-! ## The loop ends without the name -/

theorem not_mentions_remove (n : ArgName strpy) (args : CmdLineArgs) :
    ¬ Mentions n (args.remove n.chars).arguments := by
  induction hlen : args.arguments.length using Nat.strong_induction_on generalizing args with
  | _ len ih =>
    cases hpos : args.findArgumentPos n.chars with
    | none =>
      have hnot := findArgumentPos_name_eq_none_iff.mp hpos
      rwa [remove_of_not_mentions args hnot]
    | some pos =>
      have hlt := CmdLineArgs.removeAt_length_lt n.chars (CmdLineArgs.findArgumentPos_lt hpos)
      rw [remove_turn hpos]
      exact ih _ (hlen ▸ hlt) _ rfl

/-! ## The loop on a line -/

section line

variable {n : ArgName strpy} {items : List (Str × strpy.Token)} {rest : Str}

theorem wordsOf_text (first : Option strpy.Token) {l : Line strpy} (hgaps : Gaps l.1 l.2) :
    wordsOf strpy.isSpace (first.elim [] Word.chars ++ l.text) = first.toList ++ l.tokens := by
  apply wordsOf_eq
  unfold Line.text
  rw [words_layout hgaps]
  cases first with
  | none => simp [Line.tokens]
  | some w => simp [Line.tokens, words_chars]

/-- At the start of the line a turn erases one character more, which is white space if there is
    any. -/
theorem drop_countBehind_start {l : Line strpy} (hgaps : Gaps l.1 l.2)
    (h : CleanBehind (fun width => width = 1 ∨ width = 2) l) :
    ∃ k ≤ 1, l.text.drop (countBehind l.text + 1) = l.dropOption.text.drop k := by
  obtain ⟨hread, hcount⟩ := h
  unfold countBehind
  rw [optionBehind_text hgaps hread]
  obtain ⟨items, rest⟩ := l
  cases items with
  | nil => exact ⟨1, Nat.le_refl 1, rfl⟩
  | cons i items =>
    obtain ⟨gap, o⟩ := i
    rw [Line.tokens, List.map_cons, optionOf, Line.dropOption]
    by_cases ho : isOption o = true
    · rw [if_pos ho, if_pos ho, text_cons]
      rcases hcount ho with hone | htwo
      · refine ⟨1, Nat.le_refl 1, ?_⟩
        rw [eq_blank_of_length_one hone hread.1]
        show (o.chars ++ Line.text (items, rest)).drop (o.chars.length + 1) = _
        rw [← List.drop_drop, List.drop_left]
      · refine ⟨0, Nat.zero_le 1, ?_⟩
        obtain ⟨c, c', rfl⟩ := List.length_eq_two.mp htwo
        exact List.drop_left
    · rw [if_neg ho, if_neg ho]
      exact ⟨1, Nat.le_refl 1, rfl⟩

theorem wordsOf_drop {l : Line strpy} (hgaps : Gaps l.1 l.2) {k : Nat} (hk : k ≤ 1) :
    wordsOf strpy.isSpace (l.text.drop k) = l.tokens := by
  have hall := wordsOf_text none hgaps
  rw [Option.elim_none, List.nil_append, Option.toList_none, List.nil_append] at hall
  have hhead : ∀ c ∈ l.text.head?, strpy.isSpace c = true := fun c hc =>
    hgaps.firstGap_sep c (layout_head hgaps c hc)
  rw [← hall]
  apply wordsOf_eq
  rw [map_wordsOf]
  rcases Nat.le_one_iff_eq_zero_or_eq_one.mp hk with rfl | rfl
  · rfl
  · cases htext : l.text with
    | nil => rfl
    | cons c s => exact (words_cons_sep s (hhead c (by rw [htext]; rfl))).symm

/-- The loop at the start of the line, where no argument stands. -/
theorem remove_text (first : Option strpy.Token) (hfirst : ∀ t ∈ first, isArg n t = false)
    (hgaps : Gaps items rest) (h : Unambiguous n (first.toList ++ items.map Prod.snd))
    (hclean : CleanLine n rest items) :
    ((CmdLineArgs.mk (first.elim [] Word.chars ++ Line.text (items, rest))).remove
        n.chars).arguments = first.elim [] Word.chars ++ (Line.cut n rest items).text := by
  have htail : Unambiguous n (items.map Prod.snd) := h.of_subset (List.subset_append_right _ _)
  have hnot : ¬ Mentions n (first.elim [] Word.chars) := by
    cases first with
    | none => exact not_mentions_nil n
    | some t =>
      intro hm
      have ht := h t (by simp) hm
      rw [hfirst t rfl] at ht
      cases ht
  rw [remove_cut _ hgaps htail hclean,
    remove_of_not_mentions ⟨_⟩ (not_mentions_cut hgaps htail hnot)]

/-- And where one stands. -/
theorem remove_text_start {t : strpy.Token} (ht : isArg n t = true) (hgaps : Gaps items rest)
    (h : Unambiguous n (items.map Prod.snd)) (hclean : CleanLine n rest items)
    (hstart : CleanBehind (fun width => width = 1 ∨ width = 2) (Line.cut n rest items)) :
    ∃ k ≤ 1, ((CmdLineArgs.mk (t.chars ++ Line.text (items, rest))).remove n.chars).arguments =
      (Line.cut n rest items).dropOption.text.drop k := by
  have hgaps' := gaps_cut hgaps n
  have hpos := findArgumentPos_at [] ht (not_mentions_cut hgaps h (not_mentions_name n))
  rw [List.nil_append, List.length_nil] at hpos
  have hnot : ¬ Mentions n (Line.cut n rest items).dropOption.text := by
    have htokens : ∀ x ∈ (Line.cut n rest items).dropOption.tokens, ¬ Mentions n x.chars := by
      rw [tokens_dropOption, tokens_cut]
      exact fun x hx => not_mentions_dropArg h x ((dropOption_sublist _).subset hx)
    exact not_mentions_text (gaps_dropOption hgaps') htokens (not_mentions_nil n)
  obtain ⟨k, hk, hdrop⟩ := drop_countBehind_start hgaps' hstart
  have hnot' : ¬ Mentions n ((Line.cut n rest items).dropOption.text.drop k) := fun hm =>
    hnot (hm.mono (List.drop_suffix k _).isInfix)
  refine ⟨k, hk, ?_⟩
  rw [remove_cut _ hgaps h hclean, remove_turn hpos, removeAt_start ht, hdrop,
    remove_of_not_mentions ⟨_⟩ hnot']

end line

theorem tidy_iff {n : ArgName strpy} (first : Option strpy.Token) {l : Line strpy}
    (hgaps : Gaps l.1 l.2) :
    Tidy n (first.elim [] Word.chars ++ l.text) ↔
      (∀ t ∈ first, isArg n t = true →
        CleanBehind (fun width => width = 1 ∨ width = 2) (Line.cut n l.2 l.1)) ∧
          CleanLine n l.2 l.1 := by
  unfold Tidy Line.text
  rw [layoutOf_eq first hgaps]

/-- On a tidy line the loop computes `dropArg`. -/
theorem wordsOf_remove {n : ArgName strpy} {s : Str}
    (h : Unambiguous n (wordsOf strpy.isSpace s)) (htidy : Tidy n s) :
    wordsOf strpy.isSpace ((CmdLineArgs.mk s).remove n.chars).arguments =
      dropArg n (wordsOf strpy.isSpace s) := by
  obtain ⟨first, items, rest, hs, hgaps⟩ := exists_layout strpy.isSpace s
  obtain rfl : s = first.elim [] Word.chars ++ Line.text (items, rest) := hs
  obtain ⟨hstart, hclean⟩ := (tidy_iff first (l := (items, rest)) hgaps).mp htidy
  have hgaps' := gaps_cut hgaps n
  rw [wordsOf_text first (l := (items, rest)) hgaps] at h ⊢
  have hfirst : (∀ t ∈ first, isArg n t = false) ∨ ∃ t, first = some t ∧ isArg n t = true := by
    cases first with
    | none => exact Or.inl nofun
    | some t => cases ht : isArg n t <;> simp [ht]
  rcases hfirst with hfirst | ⟨t, rfl, ht⟩
  · have hnone : ∀ t ∈ first.toList, isArg n t = false := fun t ht =>
      hfirst t (Option.mem_toList.mp ht)
    rw [remove_text first hfirst hgaps h hclean, wordsOf_text first hgaps', tokens_cut,
      dropArg_append hnone]
    rfl
  · obtain ⟨k, hk, hremove⟩ := remove_text_start ht hgaps h.tail hclean (hstart t rfl ht)
    rw [Option.elim_some, hremove, wordsOf_drop (gaps_dropOption hgaps') hk, tokens_dropOption,
      tokens_cut]
    simp [dropArg, ht, Line.tokens]

theorem handled_singleton (n : ArgName strpy) : handled ([] ++ [n]) = isArg n := by
  funext t
  simp [handled]

/-- `dropArg` is what is meant exactly when no word is captured. -/
theorem dropArg_eq_takeOut_iff {n : ArgName strpy} {ts : List strpy.Token} :
    dropArg n ts = takeOut (isArg n) ts ↔ NoCapture [] n ts := by
  have hall : takeOutFrom (handled []) false ts = ts := takeOut_handled_nil ts
  constructor
  · intro heq
    apply noCapture_of_dropArg_takeOutFrom (by simp) false
    rw [handled_singleton, hall]
    exact heq
  · intro hcap
    have htake := dropArg_takeOut hcap
    rwa [takeOut_handled_nil, handled_singleton] at htake

/-! ## Single-spaced lines -/

section flat

variable {n : ArgName strpy}

/-- Every token behind one blank. -/
def singleGaps (ts : List strpy.Token) : List (Str × strpy.Token) := ts.map fun t => ([' '], t)

theorem trail_eq_layout (ts : List strpy.Token) : trail ' ' ts = Line.text (singleGaps ts, []) := by
  induction ts with
  | nil => rfl
  | cons t ts ih =>
    rw [trail_cons, ih]
    rfl

theorem gaps_single (ts : List strpy.Token) : Gaps (singleGaps ts) [] where
  gap_ne_nil := by simp [singleGaps]
  gap_sep := by simp [singleGaps, strpy.isSpace_space]
  rest_sep := by simp

theorem cut_single (n : ArgName strpy) (ts : List strpy.Token) :
    Line.cut n [] (singleGaps ts) = (singleGaps (dropArg n ts), []) := by
  induction ts with
  | nil => rfl
  | cons t ts ih =>
    have hcons : singleGaps (t :: ts) = ([' '], t) :: singleGaps ts := rfl
    rw [hcons, Line.cut, ih, dropArg]
    by_cases ht : isArg n t = true
    · rw [if_pos ht, if_pos ht]
      cases hdrop : dropArg n ts with
      | nil => rfl
      | cons o us =>
        cases ho : isOption o with
        | true =>
          simp only [singleGaps, List.map_cons, Line.dropOption, dropOption, ho, if_true]
          cases us <;> rfl
        | false =>
          simp only [singleGaps, List.map_cons, Line.dropOption, dropOption, ho,
            Bool.false_eq_true, if_false]
          rfl
    · rw [if_neg ht, if_neg ht]
      rfl

theorem cleanBehind_single (width : Nat → Prop) (hone : width 1) (ts : List strpy.Token) :
    CleanBehind width (singleGaps ts, []) := by
  cases ts with
  | nil => exact ⟨nofun, trivial⟩
  | cons o ts =>
    refine ⟨⟨by simp, fun _ => ?_⟩, fun _ => hone⟩
    cases ts <;> simp [firstGap]

theorem cleanLine_single (n : ArgName strpy) (ts : List strpy.Token) :
    CleanLine n [] (singleGaps ts) := by
  induction ts with
  | nil => trivial
  | cons t ts ih =>
    have hclean := cleanBehind_single (· = 1) rfl (dropArg n ts)
    rw [← cut_single] at hclean
    exact ⟨fun _ => hclean, ih⟩

theorem layoutOf_flat (ts : List strpy.Token) :
    layoutOf strpy.isSpace (flat ' ' ts) = (ts.head?, singleGaps ts.tail, []) := by
  cases ts with
  | nil => rfl
  | cons t ts =>
    rw [flat_cons, trail_eq_layout]
    exact layoutOf_eq (some t) (gaps_single ts)

theorem tidy_flat (n : ArgName strpy) (ts : List strpy.Token) : Tidy n (flat ' ' ts) := by
  unfold Tidy
  rw [layoutOf_flat]
  refine ⟨fun t _ _ => ?_, cleanLine_single n _⟩
  rw [cut_single]
  exact cleanBehind_single _ (Or.inl rfl) _

end flat

/-! ## Lines with one argument of the name -/

section sole

variable {n : ArgName strpy} {items : List (Str × strpy.Token)} {rest : Str}

theorem not_isArg_of_once {u v : List strpy.Token} {t : strpy.Token} (ht : isArg n t = true)
    (honce : (u ++ t :: v).countP (isArg n) ≤ 1) :
    (∀ x ∈ u, isArg n x = false) ∧ ∀ x ∈ v, isArg n x = false := by
  rw [List.countP_append, List.countP_cons_of_pos ht] at honce
  have hu : u.countP (isArg n) = 0 := by omega
  have hv : v.countP (isArg n) = 0 := by omega
  rw [List.countP_eq_zero] at hu hv
  exact ⟨fun x hx => by simpa using hu x hx, fun x hx => by simpa using hv x hx⟩

theorem readable_of_blanks {l : Line strpy} (hgaps : Gaps l.1 l.2)
    (h : ∀ c ∈ l.text, strpy.isSpace c = true → c = ' ') : l.Readable := by
  obtain ⟨items, rest⟩ := l
  cases items with
  | nil => exact fun c hc => h c hc (hgaps.rest_sep c hc)
  | cons i items =>
    obtain ⟨gap, o⟩ := i
    have hgap : ∀ c ∈ gap, c = ' ' := fun c hc =>
      h c (List.mem_append_left _ hc) (hgaps.gap_sep (gap, o) List.mem_cons_self c hc)
    refine ⟨hgap, fun _ c hc => ?_⟩
    have hsep : strpy.isSpace c = true := hgaps.tail.firstGap_sep c (List.mem_of_mem_head? hc)
    rw [← head_text (l := (items, rest)) hgaps.tail] at hc
    have hmem : c ∈ Line.text (items, rest) := List.mem_of_mem_head? hc
    exact h c (List.mem_append_right _ (List.mem_append_right _ hmem)) hsep

theorem Unambiguous.not_mentions {ts us : List strpy.Token} (h : Unambiguous n ts)
    (hus : us ⊆ ts) (hnot : ∀ x ∈ us, isArg n x = false) : ∀ x ∈ us, ¬ Mentions n x.chars := by
  intro x hx hm
  have harg := h x (hus hx) hm
  rw [hnot x hx] at harg
  cases harg

/-- At the start of the line, a miscounted option would leave something behind. -/
theorem cleanBehind_of_start {t : strpy.Token} (ht : isArg n t = true) (hgaps : Gaps items rest)
    (hun : Unambiguous n (t :: items.map Prod.snd)) (hread : Line.Readable (items, rest))
    (hitems : ∀ x ∈ items.map Prod.snd, isArg n x = false)
    (hexact : RemovesExactly n n.chars ⟨t.chars ++ Line.text (items, rest)⟩) :
    CleanBehind (fun width => width = 1 ∨ width = 2) (items, rest) := by
  refine ⟨hread, ?_⟩
  cases items with
  | nil => trivial
  | cons i items =>
    obtain ⟨gap, o⟩ := i
    intro ho
    have hpos : 0 < gap.length :=
      List.length_pos_of_ne_nil (hgaps.gap_ne_nil (gap, o) List.mem_cons_self)
    by_contra hcount
    have hwide : ¬ (gap.length = 1 ∨ gap.length = 2) := hcount
    have hnot := hun.not_mentions (List.subset_cons_self t _) hitems
    refine remove_wide_start_ne ht ho hgaps hread (by omega) hnot ?_
    have hline := wordsOf_text (some t) (l := ((gap, o) :: items, rest)) hgaps
    have htake := takeOut_once (List.forall_mem_nil _) ht ho hitems
    unfold RemovesExactly at hexact
    rw [← map_wordsOf, hexact]
    exact congrArg _ ((congrArg _ hline).trans htake)

/-- Inside of the line, too. -/
theorem cleanBehind_of_inside (first : Option strpy.Token) {front : List (Str × strpy.Token)}
    {g : Str} {t : strpy.Token} (ht : isArg n t = true)
    (hgaps : Gaps (front ++ (g, t) :: items) rest)
    (hun : Unambiguous n (first.toList ++ front.map Prod.snd ++ t :: items.map Prod.snd))
    (hunglued : Unglued n (first.toList ++ front.map Prod.snd ++ t :: items.map Prod.snd))
    (hread : Line.Readable (items, rest))
    (hfront : ∀ x ∈ first.toList ++ front.map Prod.snd, isArg n x = false)
    (hitems : ∀ x ∈ items.map Prod.snd, isArg n x = false)
    (hexact : RemovesExactly n n.chars
      ⟨first.elim [] Word.chars ++ Line.text (front ++ (g, t) :: items, rest)⟩) :
    CleanBehind (· = 1) (items, rest) := by
  refine ⟨hread, ?_⟩
  cases items with
  | nil => trivial
  | cons i items =>
    obtain ⟨gap, o⟩ := i
    intro ho
    have hpos : 0 < gap.length :=
      List.length_pos_of_ne_nil (hgaps.gap_ne_nil (gap, o) (by simp))
    by_contra hcount
    have hwide : ¬ gap.length = 1 := hcount
    have hnot := hun.not_mentions (List.subset_append_left _ _) hfront
    have hnot' := hun.not_mentions (fun x hx => List.mem_append_right _ (List.mem_cons_of_mem t hx))
      hitems
    refine remove_wide_ne ht ho hgaps hread (by omega) hnot hnot' ?_ ?_
    · intro x hx r hr
      obtain ⟨ys, hys⟩ := List.getLast?_eq_some_iff.mp hx
      refine hunglued ys x t o (items.map Prod.snd) ?_ ht r hr
      rw [hys, List.append_assoc]
      rfl
    · have hline : wordsOf strpy.isSpace (first.elim [] Word.chars ++
          Line.text (front ++ (g, t) :: (gap, o) :: items, rest)) =
            first.toList ++ front.map Prod.snd ++ t :: o :: items.map Prod.snd := by
        rw [wordsOf_text first (l := (front ++ (g, t) :: (gap, o) :: items, rest)) hgaps]
        simp [Line.tokens]
      have htake := takeOut_once hfront ht ho hitems
      unfold RemovesExactly at hexact
      rw [← map_wordsOf, hexact]
      exact congrArg _ ((congrArg _ hline).trans htake)

/-- So a sole argument has clean gaps where it is removed exactly. -/
theorem Sole.tidy {s : Str} (h : Sole n s) (hun : Unambiguous n (wordsOf strpy.isSpace s))
    (hexact : RemovesExactly n n.chars ⟨s⟩) : Tidy n s := by
  obtain ⟨first, items, rest, hs, hgaps⟩ := exists_layout strpy.isSpace s
  obtain rfl : s = first.elim [] Word.chars ++ Line.text (items, rest) := hs
  obtain ⟨honce, hblanks, hunglued⟩ := h
  rw [wordsOf_text first (l := (items, rest)) hgaps] at honce hunglued hun
  refine (tidy_iff first (l := (items, rest)) hgaps).mpr ⟨?_, cleanLine_iff.mpr ?_⟩
  · rintro t rfl ht
    obtain ⟨-, hitems⟩ := not_isArg_of_once (u := []) ht honce
    have hread : Line.Readable (items, rest) := readable_of_blanks hgaps fun c hc =>
      hblanks c (List.mem_append_right _ hc)
    rw [cut_of_not_isArg hitems]
    exact cleanBehind_of_start ht hgaps hun hread hitems hexact
  · rintro front ⟨g, t⟩ items rfl ht
    have htokens : first.toList ++ Line.tokens (front ++ (g, t) :: items, rest) =
        first.toList ++ front.map Prod.snd ++ t :: items.map Prod.snd := by simp [Line.tokens]
    rw [htokens] at honce hunglued hun
    obtain ⟨hfront, hitems⟩ := not_isArg_of_once ht honce
    have hread : Line.Readable (items, rest) :=
      readable_of_blanks (gaps_append_iff.mp hgaps).2.tail fun c hc => by
        refine hblanks c (List.mem_append_right _ ?_)
        rw [text_split]
        exact List.mem_append_right _ (List.mem_append_right _ hc)
    rw [cut_of_not_isArg hitems]
    exact cleanBehind_of_inside first ht hgaps hun hunglued hread hfront hitems hexact

end sole

/-- Over every value and every spelling of the name: on a clear line `remove` takes out the
    argument and its options and nothing else. Where it does, no token that is kept mentions the
    name. And of the lines on which no other token does, it treats only the clear ones this way,
    among the tidy ones and among those with one argument of the name between blanks. Every
    single-spaced line is tidy. -/
theorem removes_exactly (n : ArgName strpy) (a : Str) (ha : IsSpelling n a) (args : CmdLineArgs) :
    (Clear n args.arguments → RemovesExactly n a args) ∧
      (RemovesExactly n a args →
        ∀ t ∈ takeOut (isArg n) (wordsOf strpy.isSpace args.arguments), ¬ Mentions n t.chars) ∧
      (Unambiguous n (wordsOf strpy.isSpace args.arguments) →
        Tidy n args.arguments ∨ Sole n args.arguments →
          (RemovesExactly n a args ↔ Clear n args.arguments)) ∧
      ∀ ts : List strpy.Token, args.arguments = flat ' ' ts → Tidy n args.arguments := by
  have hspelling : RemovesExactly n a args ↔ RemovesExactly n n.chars args := by
    unfold RemovesExactly
    rw [remove_spelling ha]
  have hexact : Unambiguous n (wordsOf strpy.isSpace args.arguments) → Tidy n args.arguments →
      (RemovesExactly n a args ↔ Clear n args.arguments) := by
    intro hun htidy
    rw [hspelling]
    unfold RemovesExactly
    rw [wordsOf_remove hun htidy, dropArg_eq_takeOut_iff]
    exact ⟨fun hcap => ⟨hun, htidy, hcap⟩, Clear.noCapture⟩
  refine ⟨fun h => (hexact h.unambiguous h.tidy).mpr h, fun heq t ht hm => ?_, ?_,
    fun ts hflat => by rw [hflat]; exact tidy_flat n ts⟩
  · have hleft := hspelling.mp heq
    unfold RemovesExactly at hleft
    rw [← hleft] at ht
    have hword : t.chars ∈ words strpy.isSpace (args.remove n.chars).arguments := by
      rw [← map_wordsOf]
      exact List.mem_map_of_mem ht
    exact not_mentions_remove n args (hm.mono (infix_of_mem_words hword))
  · rintro hun (htidy | hsole)
    · exact hexact hun htidy
    · exact ⟨fun heq => (hexact hun (hsole.tidy hun (hspelling.mp heq))).mp heq,
        fun h => (hexact h.unambiguous h.tidy).mpr h⟩

-- With a miscounted option two wrong turns can cancel: what the first one leaves of it is glued to
-- `--g`, makes up the argument again, and goes with the next turn.
example : ((CmdLineArgs.mk "--g -ga     a--g".toList).remove "-ga".toList).arguments =
    "--g".toList := by decide

/-- A readable file without content. -/
def emptyFile : FileSystem := { files := [("empty.cfg".toList, { content := [] })] }

/-- An empty `@`-file leaves two blanks; then the last character of the option stays. -/
theorem remove_leaves_rest :
    ∃ args, CmdLineArgs.fromCommandLine asciiStrpy emptyFile 2
        ["hlds".toList, "-tos".toList, "-game".toList, "@empty.cfg".toList, "cstrike".toList] =
          .ok args ∧
      (args.remove "-game".toList).arguments = "-tose".toList ∧
      ¬ RemovesExactly gameName "-game".toList args := by
  refine ⟨⟨"-tos -game  cstrike".toList⟩, by decide, by decide, ?_⟩
  unfold RemovesExactly
  decide

/-- What `-game`, `cstrike`, `<tab>+map`, `x` and `-game` are joined to. -/
def tabLine : Str := "-game cstrike \t+map x -game".toList

theorem removes_exactly_tabLine : RemovesExactly gameName "-game".toList ⟨tabLine⟩ :=
  (removes_exactly gameName "-game".toList (Or.inr (Or.inr rfl)) ⟨tabLine⟩).1 (by decide +kernel)

end RehldsM.Core
