import RehldsM.Core.CmdlineOption
import RehldsM.Core.CmdlineProcessor
import RehldsM.Core.CmdlineRemoveExact

/-
  `CmdLineProcessor::process` on lines with any white space between the tokens.

  The first handler puts `-steam` in front, and the others work on the line behind it. How wide
  the first gap of this line is depends on what stood there, but no argument is in front of the
  gap, so nothing depends on it in turn: lines that differ there only are `SameBehind`. Where
  every turn finds clean gaps (`CleanProcess`), `keptLine` is what is left of the line
  (`process_line`).
-/

namespace RehldsM.Core

open Lib Util

variable {strpy : Strpy}

namespace Line

/-- The line behind a blank, so that every token has a gap. -/
def of (s : Str) : Line strpy := (layoutOf strpy.isSpace (' ' :: s)).2

/-- The argument is taken out. -/
def without (l : Line strpy) (n : ArgName strpy) : Line strpy := cut n l.2 l.1

/-- The first gap without its first characters. -/
def skip (k : Nat) : Line strpy → Line strpy
  | ([], rest) => ([], rest.drop k)
  | ((gap, t) :: items, rest) => ((gap.drop k, t) :: items, rest)

/-- More tokens at the end, each behind a blank. -/
def append (l : Line strpy) : List strpy.Token → Line strpy
  | [] => l
  | t :: ts => (l.1 ++ (l.2 ++ [' '], t) :: singleGaps ts, [])

end Line

/-- Every name finds clean gaps when its turn comes. -/
def CleanCuts : List (ArgName strpy) → Line strpy → Prop
  | [], _ => True
  | n :: ns, l => CleanLine n l.2 l.1 ∧ CleanCuts ns (l.without n)

instance CleanCuts.decidable :
    ∀ (ns : List (ArgName strpy)) (l : Line strpy), Decidable (CleanCuts ns l)
  | [], _ => inferInstanceAs (Decidable True)
  | n :: ns, l =>
    have := CleanCuts.decidable ns (l.without n)
    inferInstanceAs (Decidable (CleanLine n l.2 l.1 ∧ CleanCuts ns (l.without n)))

/-- The line behind `-steam`; there is no white space at its end. -/
def steamLine (s : Str) : Line strpy := (((Line.of s).without steam).1, [])

/-- What the handlers leave of the line. -/
def keptLine (s : Str) : Line strpy :=
  (handledNames (wordsOf strpy.isSpace s)).tail.foldl Line.without (steamLine s)

structure CleanProcess (strpy : Strpy) (s : Str) : Prop where
  first : Tidy (steam : ArgName strpy) s
  others : CleanCuts (handledNames (wordsOf strpy.isSpace s)).tail (steamLine s)

instance (s : Str) : Decidable (CleanProcess strpy s) :=
  decidable_of_iff
    (Tidy (steam : ArgName strpy) s ∧
      CleanCuts (handledNames (wordsOf strpy.isSpace s)).tail (steamLine s))
    ⟨fun h => ⟨h.1, h.2⟩, fun h => ⟨h.first, h.others⟩⟩

/-! ## The first gap -/

section gaps

variable {n : ArgName strpy} {l l' : Line strpy}

/-- The lines differ in their first gaps at most. -/
structure SameBehind (l l' : Line strpy) : Prop where
  tokens : l.tokens = l'.tokens
  tail : l.1.tail = l'.1.tail
  rest : l.1 ≠ [] → l.2 = l'.2

theorem sameBehind_refl (l : Line strpy) : SameBehind l l := ⟨rfl, rfl, fun _ => rfl⟩

/-- Both lines are empty, or begin with the same token. -/
theorem SameBehind.cases (h : SameBehind l l') :
    (∃ rest rest', l = ([], rest) ∧ l' = ([], rest')) ∨
      ∃ gap gap' t items rest, l = ((gap, t) :: items, rest) ∧ l' = ((gap', t) :: items, rest) := by
  obtain ⟨items, rest⟩ := l
  obtain ⟨items', rest'⟩ := l'
  obtain ⟨htokens, htail, hrest⟩ := h
  cases items with
  | nil =>
    cases items' with
    | nil => exact Or.inl ⟨rest, rest', rfl, rfl⟩
    | cons i' items' => cases htokens
  | cons i items =>
    cases items' with
    | nil => cases htokens
    | cons i' items' =>
      obtain ⟨gap, t⟩ := i
      obtain ⟨gap', t'⟩ := i'
      obtain rfl : items = items' := htail
      obtain rfl : rest = rest' := hrest (List.cons_ne_nil _ _)
      obtain rfl : t = t' := (List.cons.inj htokens).1
      exact Or.inr ⟨gap, gap', t, items, rest, rfl, rfl⟩

theorem sameBehind_putBefore (g g' : Str) (l : Line strpy) :
    SameBehind (putBefore g l) (putBefore g' l) := by
  obtain ⟨items, rest⟩ := l
  cases items with
  | nil => exact ⟨rfl, rfl, fun hne => absurd rfl hne⟩
  | cons i items => exact ⟨rfl, rfl, fun _ => rfl⟩

theorem SameBehind.without (h : SameBehind l l') (n : ArgName strpy) :
    SameBehind (l.without n) (l'.without n) := by
  unfold Line.without
  obtain ⟨rest, rest', rfl, rfl⟩ | ⟨gap, gap', t, items, rest, rfl, rfl⟩ := h.cases
  · exact h
  · by_cases ht : isArg n t = true
    · simp only [Line.cut, ht, if_true]
      exact sameBehind_putBefore _ _ _
    · simp only [Line.cut, ht]
      exact ⟨rfl, rfl, fun _ => rfl⟩

theorem SameBehind.cleanLine (h : SameBehind l l') (hclean : CleanLine n l.2 l.1) :
    CleanLine n l'.2 l'.1 := by
  obtain ⟨rest, rest', rfl, rfl⟩ | ⟨gap, gap', t, items, rest, rfl, rfl⟩ := h.cases
  · exact hclean
  · exact hclean

theorem text_skip {k : Nat} (hgaps : Gaps l.1 l.2) (hk : k ≤ 1) :
    (l.skip k).text = l.text.drop k := by
  obtain ⟨items, rest⟩ := l
  cases items with
  | nil => rfl
  | cons i items =>
    obtain ⟨gap, t⟩ := i
    have hne : gap ≠ [] := hgaps.gap_ne_nil (gap, t) List.mem_cons_self
    have hpos := List.length_pos_of_ne_nil hne
    exact (List.drop_append_of_le_length (by omega)).symm

theorem tokens_skip (k : Nat) (l : Line strpy) : (l.skip k).tokens = l.tokens := by
  obtain ⟨items, rest⟩ := l
  cases items <;> rfl

theorem readable_skip (k : Nat) (h : l.Readable) : (l.skip k).Readable := by
  obtain ⟨items, rest⟩ := l
  cases items with
  | nil => exact fun c hc => h c (List.mem_of_mem_drop hc)
  | cons i items => exact ⟨fun c hc => h.1 c (List.mem_of_mem_drop hc), h.2⟩

theorem gaps_skip (hgaps : Gaps l.1 l.2) (k : Nat) :
    (∀ c ∈ firstGap (l.skip k).1 (l.skip k).2, strpy.isSpace c = true) ∧
      Gaps (l.skip k).1.tail (l.skip k).2 := by
  obtain ⟨items, rest⟩ := l
  cases items with
  | nil =>
    have hrest : ∀ c ∈ rest.drop k, strpy.isSpace c = true := fun c hc =>
      hgaps.rest_sep c (List.mem_of_mem_drop hc)
    exact ⟨hrest, nofun, nofun, hrest⟩
  | cons i items =>
    have hgap := hgaps.gap_sep i List.mem_cons_self
    exact ⟨fun c hc => hgap c (List.mem_of_mem_drop hc), hgaps.tail⟩

/-- Another blank in front, or in the place of the first character. -/
theorem gaps_blank_skip (hgaps : Gaps l.1 l.2) (k : Nat) :
    Gaps (putBefore [' '] (l.skip k)).1 (putBefore [' '] (l.skip k)).2 := by
  have hblank : ∀ s : Str, (∀ c ∈ s, strpy.isSpace c = true) →
      ∀ c ∈ ' ' :: s.drop k, strpy.isSpace c = true := fun s hs =>
    List.forall_mem_cons.mpr ⟨strpy.isSpace_space, fun c hc => hs c (List.mem_of_mem_drop hc)⟩
  obtain ⟨items, rest⟩ := l
  cases items with
  | nil => exact ⟨hgaps.gap_ne_nil, hgaps.gap_sep, hblank rest hgaps.rest_sep⟩
  | cons i items =>
    obtain ⟨gap, t⟩ := i
    exact hgaps.tail.cons (List.cons_ne_nil _ _)
      (hblank gap (hgaps.gap_sep (gap, t) List.mem_cons_self))

theorem sameBehind_blank_skip (l : Line strpy) (k : Nat) :
    SameBehind l (putBefore [' '] (l.skip k)) := by
  obtain ⟨items, rest⟩ := l
  cases items with
  | nil => exact ⟨rfl, rfl, fun hne => absurd rfl hne⟩
  | cons i items => exact ⟨rfl, rfl, fun _ => rfl⟩

theorem text_putBefore (g : Str) (l : Line strpy) :
    Line.text (putBefore g l) = g ++ l.text := layout_putBefore g l

theorem putBefore_nil (l : Line strpy) : putBefore [] l = l := by
  obtain ⟨items, rest⟩ := l
  cases items <;> rfl

theorem putBefore_putBefore (g g' : Str) (l : Line strpy) :
    putBefore g (putBefore g' l) = putBefore (g ++ g') l := by
  obtain ⟨items, rest⟩ := l
  cases items <;> simp [putBefore]

theorem without_putBefore (hgaps : Gaps l.1 l.2) (n : ArgName strpy) (g : Str) :
    Line.without (putBefore g l) n = putBefore g (l.without n) := by
  unfold Line.without
  obtain ⟨items, rest⟩ := l
  cases items with
  | nil => rfl
  | cons i items =>
    obtain ⟨gap, t⟩ := i
    have hne : gap ≠ [] := hgaps.gap_ne_nil (gap, t) List.mem_cons_self
    by_cases ht : isArg n t = true
    · simp only [putBefore, Line.cut, ht, if_true]
      rw [List.dropLast_append_of_ne_nil hne]
      exact (putBefore_putBefore _ _ _).symm
    · simp only [putBefore, Line.cut, ht]
      rfl

end gaps

/-! ## The first handler -/

section first

variable {n : ArgName strpy} {s : Str} {l : Line strpy}

theorem of_text (hgaps : Gaps l.1 l.2) : Line.of l.text = putBefore [' '] l := by
  have hblank : ∀ c ∈ [' '], strpy.isSpace c = true := by simpa using strpy.isSpace_space
  have hlayout := layoutOf_layout (hgaps.putBefore hblank)
  rw [layout_putBefore] at hlayout
  exact congrArg Prod.snd hlayout

theorem of_token_text (t : strpy.Token) (hgaps : Gaps l.1 l.2) :
    Line.of (t.chars ++ l.text) = (([' '], t) :: l.1, l.2) := by
  have hblank : ∀ c ∈ [' '], strpy.isSpace c = true := by simpa using strpy.isSpace_space
  exact congrArg Prod.snd (layoutOf_layout (hgaps.cons (List.cons_ne_nil ' ' []) hblank))

theorem tokens_of (s : Str) : (Line.of s : Line strpy).tokens = wordsOf strpy.isSpace s := by
  obtain ⟨first, items, rest, hs, hgaps⟩ := exists_layout strpy.isSpace s
  obtain rfl : s = first.elim [] Word.chars ++ Line.text (items, rest) := hs
  rw [wordsOf_text first (l := (items, rest)) hgaps]
  cases first with
  | none =>
    rw [Option.elim_none, List.nil_append, of_text (l := (items, rest)) hgaps]
    exact words_putBefore _ _
  | some t =>
    rw [Option.elim_some, of_token_text t (l := (items, rest)) hgaps]
    rfl

/-- What `remove` leaves on a tidy line, behind a blank. -/
theorem remove_tidy (h : Unambiguous n (wordsOf strpy.isSpace s)) (htidy : Tidy n s) :
    ∃ l : Line strpy, Gaps l.1 l.2 ∧
      ' ' :: ((CmdLineArgs.mk s).remove n.chars).arguments = l.text ∧
      SameBehind ((Line.of s).without n) l := by
  obtain ⟨first, items, rest, hs, hgaps⟩ := exists_layout strpy.isSpace s
  obtain rfl : s = first.elim [] Word.chars ++ Line.text (items, rest) := hs
  obtain ⟨hstart, hclean⟩ := (tidy_iff first (l := (items, rest)) hgaps).mp htidy
  rw [wordsOf_text first (l := (items, rest)) hgaps] at h
  have hgaps' := gaps_cut hgaps n
  have hblank : ∀ c ∈ [' '], strpy.isSpace c = true := by simpa using strpy.isSpace_space
  cases first with
  | none =>
    have hremove := remove_text none nofun hgaps h hclean
    refine ⟨putBefore [' '] (Line.cut n rest items), hgaps'.putBefore hblank, ?_, ?_⟩
    · rw [hremove, text_putBefore]
      rfl
    · rw [Option.elim_none, List.nil_append, of_text (l := (items, rest)) hgaps,
        without_putBefore hgaps]
      exact sameBehind_refl _
  | some t =>
    rw [Option.elim_some, of_token_text t (l := (items, rest)) hgaps]
    by_cases ht : isArg n t = true
    · obtain ⟨k, hk, hremove⟩ := remove_text_start ht hgaps h.tail hclean (hstart t rfl ht)
      have hleft := gaps_dropOption hgaps'
      refine ⟨_, gaps_blank_skip hleft k, ?_, ?_⟩
      · rw [hremove, ← text_skip hleft hk, text_putBefore]
        rfl
      · have hsame := sameBehind_blank_skip (Line.cut n rest items).dropOption k
        have hcut : Line.without (([' '], t) :: items, rest) n =
            (Line.cut n rest items).dropOption := by
          simp only [Line.without, Line.cut, ht, if_true]
          exact putBefore_nil _
        rwa [hcut]
    · have hnot : ∀ x ∈ some t, isArg n x = false := by
        intro x hx
        rw [← Option.some.inj hx]
        simpa using ht
      have hremove : ((CmdLineArgs.mk (t.chars ++ Line.text (items, rest))).remove
          n.chars).arguments = t.chars ++ (Line.cut n rest items).text :=
        remove_text (some t) hnot hgaps h hclean
      have hcut : Line.without (([' '], t) :: items, rest) n =
          (([' '], t) :: (Line.cut n rest items).1, (Line.cut n rest items).2) := by
        simp only [Line.without, Line.cut, ht, Bool.false_eq_true, if_false]
      rw [hcut]
      refine ⟨_, hgaps'.cons (List.cons_ne_nil ' ' []) hblank, ?_, sameBehind_refl _⟩
      rw [hremove]
      rfl

/-- The line behind `-steam`. -/
theorem steamHandler_line (env : Environment) (h : Unambiguous steam (wordsOf strpy.isSpace s))
    (htidy : Tidy (steam : ArgName strpy) s) :
    ∃ l : Line strpy, Gaps l.1 l.2 ∧ SameBehind (steamLine s) l ∧
      (steamHandler strpy env ⟨s⟩).1 = ⟨(steamArg : strpy.Token).chars ++ l.text⟩ := by
  obtain ⟨l, hgaps, hleft, hsame⟩ := remove_tidy h htidy
  have htokens : (steamLine s).tokens = Line.tokens (l.1, []) := hsame.tokens
  refine ⟨(l.1, []), ⟨hgaps.gap_ne_nil, hgaps.gap_sep, nofun⟩, ⟨htokens, hsame.tail, fun _ => rfl⟩,
    ?_⟩
  have hleft' : (CmdLineArgs.mk s).remove (steamArg : strpy.Token).chars =
      ⟨((CmdLineArgs.mk s).remove (steam : ArgName strpy).chars).arguments⟩ :=
    remove_spelling (isSpelling_of_isArg (n := steam) rfl) ⟨s⟩
  have hpush := pushFront_eq (strip_token steamArg)
    (isValidArgument_of_isArg (n := steam) (a := steamArg) rfl) (strip_optionChars none) hleft'
  have hflat : flat ' ' ((steamArg : strpy.Token) :: (none : Option strpy.Token).toList) =
      (steamArg : strpy.Token).chars := by simp [flat_cons]
  have htrim : trim strpy.isSpace (steamArg : strpy.Token).chars =
      (steamArg : strpy.Token).chars := by
    rw [← strpy.strip_eq]
    exact strip_token steamArg
  rw [hflat, hleft, strpy.strip_eq, trim_append steamArg.ne_nil htrim] at hpush
  refine hpush.trans ?_
  rw [Line.text, rdropWhile_layout hgaps]
  rfl

end first

/-! ## Tokens at the end -/

section append

variable {n : ArgName strpy} {l : Line strpy} {us : List strpy.Token}

theorem text_append (l : Line strpy) (us : List strpy.Token) :
    (l.append us).text = l.text ++ trail ' ' us := by
  obtain ⟨items, rest⟩ := l
  cases us with
  | nil => exact (List.append_nil _).symm
  | cons u us =>
    have hrest := layout_append_rest items rest (trail ' ' (u :: us))
    show layout (items ++ (rest ++ [' '], u) :: singleGaps us) [] = _
    rw [layout_append, layout, List.append_assoc,
      show layout (singleGaps us) [] = trail ' ' us from (trail_eq_layout us).symm]
    exact hrest

theorem tokens_append (l : Line strpy) (us : List strpy.Token) :
    (l.append us).tokens = l.tokens ++ us := by
  cases us with
  | nil => exact (List.append_nil _).symm
  | cons u us => simp [Line.append, Line.tokens, singleGaps, Function.comp_def]

theorem gaps_append (hgaps : Gaps l.1 l.2) (us : List strpy.Token) :
    Gaps (l.append us).1 (l.append us).2 := by
  cases us with
  | nil => exact hgaps
  | cons u us =>
    have hblank : ∀ c ∈ l.2 ++ [' '], strpy.isSpace c = true := by
      intro c hc
      rcases List.mem_append.mp hc with hc | hc
      · exact hgaps.rest_sep c hc
      · rw [List.mem_singleton.mp hc]
        exact strpy.isSpace_space
    have hend := (gaps_single us).cons (w := u) (by simp : l.2 ++ [' '] ≠ []) hblank
    refine ⟨fun i hi => ?_, fun i hi => ?_, nofun⟩
    · exact (List.mem_append.mp hi).elim (hgaps.gap_ne_nil i) (hend.gap_ne_nil i)
    · exact (List.mem_append.mp hi).elim (hgaps.gap_sep i) (hend.gap_sep i)

theorem dropOption_append_line (l : Line strpy) (hus : startsOption us = false) :
    (l.append us).dropOption = l.dropOption.append us := by
  obtain ⟨items, rest⟩ := l
  cases us with
  | nil => rfl
  | cons u us =>
    have hu : isOption u = false := by simpa [startsOption] using hus
    cases items with
    | nil => simp [Line.append, Line.dropOption, hu]
    | cons i items =>
      obtain ⟨gap, o⟩ := i
      by_cases ho : isOption o = true <;> simp [Line.append, Line.dropOption, ho]

theorem putBefore_append (g : Str) (l : Line strpy) (us : List strpy.Token) :
    putBefore g (l.append us) = Line.append (putBefore g l) us := by
  obtain ⟨items, rest⟩ := l
  cases us with
  | nil => rfl
  | cons u us =>
    cases items with
    | nil => simp [Line.append, putBefore]
    | cons i items => rfl

theorem cut_singleGaps {ts : List strpy.Token} (hts : ∀ t ∈ ts, isArg n t = false) :
    Line.cut n [] (singleGaps ts) = (singleGaps ts, []) := by
  rw [cut_single, dropArg_eq_self hts]

/-- A removal does not reach the tokens at the end. -/
theorem cut_append (rest : Str) (items : List (Str × strpy.Token)) {u : strpy.Token}
    (hu : isOption u = false) (hnot : ∀ t ∈ u :: us, isArg n t = false) :
    Line.cut n [] (items ++ (rest ++ [' '], u) :: singleGaps us) =
      (Line.cut n rest items).append (u :: us) := by
  induction items with
  | nil =>
    have hcut := cut_singleGaps fun t ht => hnot t (List.mem_cons_of_mem u ht)
    simp [Line.append, Line.cut, hnot u List.mem_cons_self, hcut]
  | cons i items ih =>
    obtain ⟨gap, t⟩ := i
    by_cases ht : isArg n t = true
    · simp only [List.cons_append, Line.cut, ht, if_true]
      rw [ih, dropOption_append_line _ (by simpa [startsOption] using hu)]
      exact putBefore_append _ _ _
    · simp only [List.cons_append, Line.cut, ht, Bool.false_eq_true, if_false]
      rw [ih]
      rfl

theorem skip_zero (l : Line strpy) : l.skip 0 = l := by
  obtain ⟨items, rest⟩ := l
  cases items <;> rfl

/-- Nor does it change what is read. -/
theorem readable_append {k : Nat} (hread : (l.skip k).Readable) (hus : startsOption us = false) :
    ((l.append us).skip k).Readable := by
  obtain ⟨items, rest⟩ := l
  cases us with
  | nil => exact hread
  | cons u us =>
    rw [startsOption_cons] at hus
    cases items with
    | nil =>
      refine ⟨fun c hc => ?_, fun hu => absurd hu (by simp [hus])⟩
      rw [List.drop_append] at hc
      rcases List.mem_append.mp hc with hc | hc
      · exact hread c hc
      · exact List.mem_singleton.mp (List.mem_of_mem_drop hc)
    | cons i items =>
      refine ⟨hread.1, fun ho c hc => ?_⟩
      cases items with
      | cons j items => exact hread.2 ho c hc
      | nil =>
        cases rest with
        | nil => exact (Option.some.inj hc).symm
        | cons d rest => exact hread.2 ho c hc

theorem cleanBehind_append {width : Nat → Prop} (h : CleanBehind width l)
    (hus : startsOption us = false) : CleanBehind width (l.append us) := by
  have hread : (l.skip 0).Readable := by
    rw [skip_zero]
    exact h.1
  refine ⟨by simpa [skip_zero] using readable_append hread hus, ?_⟩
  obtain ⟨items, rest⟩ := l
  cases us with
  | nil => exact h.2
  | cons u us =>
    cases items with
    | nil =>
      intro hu
      rw [startsOption_cons, hu] at hus
      cases hus
    | cons i items => exact h.2

theorem cleanLine_append (rest : Str) {items : List (Str × strpy.Token)} {u : strpy.Token}
    (hclean : CleanLine n rest items) (hu : isOption u = false)
    (hnot : ∀ t ∈ u :: us, isArg n t = false) :
    CleanLine n [] (items ++ (rest ++ [' '], u) :: singleGaps us) := by
  induction items with
  | nil =>
    refine ⟨fun ht => ?_, cleanLine_single n us⟩
    rw [hnot u List.mem_cons_self] at ht
    cases ht
  | cons i items ih =>
    obtain ⟨gap, t⟩ := i
    refine ⟨fun ht => ?_, ih hclean.2⟩
    have hus : startsOption (u :: us) = false := (startsOption_cons u us).trans hu
    have hbehind := cleanBehind_append (hclean.1 ht) hus
    rwa [← cut_append rest items hu hnot] at hbehind

end append

/-! ## The other handlers -/

section process

variable {n : ArgName strpy} {s : Str} {l : Line strpy}

/-- A removal on the line behind `-steam`. -/
theorem remove_behind_steam (hn : n.chars ∈ handlerNames)
    (hsteam : isArg n (steamArg : strpy.Token) = false) (hgaps : Gaps l.1 l.2)
    (h : Unambiguous n l.tokens) (hclean : CleanLine n l.2 l.1) :
    (CmdLineArgs.mk ((steamArg : strpy.Token).chars ++ l.text)).remove n.chars =
      ⟨(steamArg : strpy.Token).chars ++ (l.without n).text⟩ := by
  have hnot : ¬ Mentions n (steamArg : strpy.Token).chars := by
    intro hm
    have harg := isArg_of_handlerToken hn (by decide : "-steam".toList ∈ handlerTokens) hm
    rw [hsteam] at harg
    cases harg
  have hcut := remove_cut (steamArg : strpy.Token).chars hgaps h hclean
  exact hcut.trans (remove_of_not_mentions ⟨_⟩ (not_mentions_cut hgaps h hnot))

theorem tokens_without (l : Line strpy) (n : ArgName strpy) :
    (l.without n).tokens = dropArg n l.tokens := tokens_cut n l.2 l.1

theorem gaps_without (hgaps : Gaps l.1 l.2) (n : ArgName strpy) :
    Gaps (l.without n).1 (l.without n).2 := gaps_cut hgaps n

theorem tokens_steamLine (s : Str) :
    (steamLine s : Line strpy).tokens = dropArgs [steam] (wordsOf strpy.isSpace s) := by
  have htokens := tokens_without (Line.of s : Line strpy) steam
  rwa [tokens_of] at htokens

theorem contains_targetfps_line (h : ClearNames (wordsOf strpy.isSpace s)) (hgaps : Gaps l.1 l.2)
    (htokens : l.tokens = dropArgs [steam] (wordsOf strpy.isSpace s)) :
    (CmdLineArgs.mk ((steamArg : strpy.Token).chars ++ l.text)).contains "targetfps".toList =
      fpsMode (wordsOf strpy.isSpace s) := by
  have hcontains := contains_iff_mentions (n := (targetfps : ArgName strpy)) (Or.inl rfl)
    (CmdLineArgs.mk ((steamArg : strpy.Token).chars ++ l.text))
  rw [mentions_text_iff hgaps, htokens] at hcontains
  refine Bool.eq_iff_iff.mpr (hcontains.trans ⟨?_, ?_⟩)
  · rintro (hm | ⟨t, ht, hm⟩)
    · have hsteam : isArg targetfps (steamArg : strpy.Token) = false := rfl
      rw [isArg_of_handlerToken (by decide : "targetfps".toList ∈ handlerNames)
        (by decide : "-steam".toList ∈ handlerTokens) hm] at hsteam
      cases hsteam
    · exact h.mode ⟨t, (shed_dropArgs [steam] _).sublist.subset ht, hm⟩
  · intro hfps
    rw [← fpsMode_dropArg_steam] at hfps
    obtain ⟨t, ht, harg⟩ := List.any_eq_true.mp hfps
    exact Or.inr ⟨t, ht, mentions_of_isArg harg⟩

/-- `push_back` behind the line. -/
theorem pushBack_line {a o : strpy.Token} {left : CmdLineArgs} (hgaps : Gaps l.1 l.2)
    (hvalid : isValidArgument a.chars = true)
    (hleft : left.remove a.chars = ⟨(steamArg : strpy.Token).chars ++ l.text⟩) :
    left.pushBack strpy a.chars (optionChars (some o)) =
      ⟨(steamArg : strpy.Token).chars ++ (l.append [a, o]).text⟩ := by
  have hpush := pushBack_eq (strip_token a) hvalid (strip_optionChars (some o)) hleft
  have htext := text_append l [a, o]
  rw [trail_eq_cons_flat ' ' (List.cons_ne_nil a [o])] at htext
  have htrim : trim strpy.isSpace (steamArg : strpy.Token).chars =
      (steamArg : strpy.Token).chars := by
    rw [← strpy.strip_eq]
    exact strip_token steamArg
  rw [hpush, List.append_assoc, show a :: (some o).toList = [a, o] from rfl, ← htext,
    strpy.strip_eq, trim_append steamArg.ne_nil htrim, Line.text,
    rdropWhile_layout (gaps_append hgaps [a, o])]
  rfl

/-- The handler of `-targetfps`, where the argument is there. -/
theorem targetFpsHandler_line (env : Environment) (h : ClearNames (wordsOf strpy.isSpace s))
    (hfps : fpsMode (wordsOf strpy.isSpace s) = true) (hgaps : Gaps l.1 l.2)
    (htokens : l.tokens = dropArgs [steam] (wordsOf strpy.isSpace s))
    (hpingboost : CleanLine pingboost l.2 l.1)
    (hsys : CleanLine sysTicrate (l.without pingboost).2 (l.without pingboost).1) :
    (targetFpsHandler strpy env ⟨(steamArg : strpy.Token).chars ++ l.text⟩).1 =
      ⟨(steamArg : strpy.Token).chars ++
        (((l.without pingboost).without sysTicrate).append [sysTicrateArg, zero]).text⟩ := by
  have hnames : handledNames (wordsOf strpy.isSpace s) =
      [steam, pingboost, sysTicrate, condebug] := by simp [handledNames, hfps]
  have hgaps' := gaps_without hgaps pingboost
  have htokens' : (l.without pingboost).tokens =
      dropArgs [steam, pingboost] (wordsOf strpy.isSpace s) := by
    rw [tokens_without, htokens]
    rfl
  have hremoved := remove_behind_steam (by decide : "pingboost".toList ∈ handlerNames) rfl
    hgaps (htokens ▸ h.unambiguous (u := [steam]) hnames) hpingboost
  have hticrate := remove_behind_steam (by decide : "sys_ticrate".toList ∈ handlerNames) rfl hgaps'
    (htokens' ▸ h.unambiguous (u := [steam, pingboost]) hnames) hsys
  have hpush := pushBack_line (o := zero) (gaps_without hgaps' sysTicrate)
    (isValidArgument_of_isArg (n := sysTicrate) (a := sysTicrateArg) rfl)
    ((remove_spelling (isSpelling_of_isArg (n := sysTicrate) (a := sysTicrateArg) rfl) _).trans
      hticrate)
  unfold targetFpsHandler
  rw [contains_targetfps_line h hgaps htokens, hfps]
  calc ((CmdLineArgs.mk ((steamArg : strpy.Token).chars ++ l.text)).remove
          (pingboost : ArgName strpy).chars).pushBack strpy (sysTicrateArg : strpy.Token).chars
          (optionChars (some (zero : strpy.Token)))
      = (CmdLineArgs.mk ((steamArg : strpy.Token).chars ++ (l.without pingboost).text)).pushBack
          strpy (sysTicrateArg : strpy.Token).chars (optionChars (some (zero : strpy.Token))) := by
        rw [hremoved]
    _ = ⟨(steamArg : strpy.Token).chars ++
          (((l.without pingboost).without sysTicrate).append [sysTicrateArg, zero]).text⟩ := hpush

/-- The handler of `-condebug`, with or without the two tokens behind the line. -/
theorem conDebugHandler_line (env : Environment) {us : List strpy.Token} (hgaps : Gaps l.1 l.2)
    (h : Unambiguous condebug (l.tokens ++ us)) (hclean : CleanLine condebug l.2 l.1)
    (hus : us = [] ∨ us = [sysTicrateArg, zero]) :
    (conDebugHandler env ⟨(steamArg : strpy.Token).chars ++ (l.append us).text⟩).1 =
      ⟨(steamArg : strpy.Token).chars ++ ((l.without condebug).append us).text⟩ := by
  have hname : "condebug".toList ∈ handlerNames := by decide
  rcases hus with rfl | rfl
  · rw [List.append_nil] at h
    exact remove_behind_steam (n := condebug) hname rfl hgaps h hclean
  · have hnot : ∀ t ∈ [(sysTicrateArg : strpy.Token), zero], isArg condebug t = false := by
      intro t ht
      rcases List.mem_pair.mp ht with rfl | rfl <;> rfl
    have hcut : (l.append [sysTicrateArg, zero]).without condebug =
        (l.without condebug).append [sysTicrateArg, zero] := cut_append _ _ rfl hnot
    have hcondebug := remove_behind_steam (n := condebug) hname rfl
      (gaps_append hgaps [sysTicrateArg, zero]) (by rwa [tokens_append])
      (cleanLine_append _ hclean rfl hnot)
    rw [hcut] at hcondebug
    exact hcondebug

/-- `process` on a line, as far as the first gap leaves it open. -/
theorem process_line (env : Environment) (h : ClearNames (wordsOf strpy.isSpace s))
    (hclean : CleanProcess strpy s) :
    ∃ l : Line strpy, Gaps l.1 l.2 ∧ SameBehind (keptLine s) l ∧
      processArgs strpy env ⟨s⟩ =
        ⟨(steamArg : strpy.Token).chars ++
          (l.append (ticrate (wordsOf strpy.isSpace s))).text⟩ := by
  obtain ⟨v, hv⟩ := handledNames_eq_steam_cons (wordsOf strpy.isSpace s)
  obtain ⟨l, hgaps, hsame, hsteam⟩ := steamHandler_line env (h.unambiguous hv) hclean.first
  have htokens : l.tokens = dropArgs [steam] (wordsOf strpy.isSpace s) :=
    hsame.tokens.symm.trans (tokens_steamLine s)
  have hothers := hclean.others
  unfold keptLine
  rw [processArgs_eq, hsteam]
  cases hfps : fpsMode (wordsOf strpy.isSpace s) with
  | false =>
    have hnames : handledNames (wordsOf strpy.isSpace s) = [steam, condebug] := by
      simp [handledNames, hfps]
    have hticrate : ticrate (wordsOf strpy.isSpace s) = [] := by simp [ticrate, hfps]
    have hun := h.unambiguous (u := [steam]) (v := []) hnames
    rw [← htokens, ← List.append_nil l.tokens] at hun
    have htargetFps : (targetFpsHandler strpy env
        ⟨(steamArg : strpy.Token).chars ++ l.text⟩).1 =
          ⟨(steamArg : strpy.Token).chars ++ l.text⟩ := by
      unfold targetFpsHandler
      rw [contains_targetfps_line h hgaps htokens, hfps]
      rfl
    rw [hnames] at hothers ⊢
    rw [hticrate, htargetFps]
    exact ⟨l.without condebug, gaps_without hgaps condebug, hsame.without condebug,
      conDebugHandler_line env hgaps hun (hsame.cleanLine hothers.1) (Or.inl rfl)⟩
  | true =>
    have hnames : handledNames (wordsOf strpy.isSpace s) =
        [steam, pingboost, sysTicrate, condebug] := by simp [handledNames, hfps]
    have hticrate : ticrate (wordsOf strpy.isSpace s) = [sysTicrateArg, zero] := by
      simp [ticrate, hfps]
    have hun := (h.unambiguous (u := [steam, pingboost, sysTicrate]) hnames).append_ticrate
      (by decide : "condebug".toList ∈ handlerNames)
    have htokens' : ((l.without pingboost).without sysTicrate).tokens =
        dropArgs [steam, pingboost, sysTicrate] (wordsOf strpy.isSpace s) := by
      rw [tokens_without, tokens_without, htokens]
      rfl
    rw [hnames] at hothers ⊢
    obtain ⟨hpingboost, hsys, hcondebug, -⟩ := hothers
    have hsame' := (hsame.without pingboost).without sysTicrate
    have hgaps' := gaps_without (gaps_without hgaps pingboost) sysTicrate
    rw [hticrate, targetFpsHandler_line env h hfps hgaps htokens (hsame.cleanLine hpingboost)
      ((hsame.without pingboost).cleanLine hsys)]
    exact ⟨((l.without pingboost).without sysTicrate).without condebug,
      gaps_without hgaps' condebug, hsame'.without condebug,
      conDebugHandler_line env hgaps' (htokens' ▸ hun) (hsame'.cleanLine hcondebug) (Or.inr rfl)⟩

/-- The tokens that are there in the end. -/
theorem tokens_keptLine (s : Str) : (keptLine s : Line strpy).tokens =
    dropArgs (handledNames (wordsOf strpy.isSpace s)) (wordsOf strpy.isSpace s) := by
  have hfold : ∀ (ns : List (ArgName strpy)) (l : Line strpy),
      (ns.foldl Line.without l).tokens = dropArgs ns l.tokens := by
    intro ns
    induction ns with
    | nil => exact fun l => rfl
    | cons n ns ih =>
      intro l
      rw [List.foldl_cons, ih, tokens_without]
      rfl
  obtain ⟨v, hv⟩ := handledNames_eq_steam_cons (wordsOf strpy.isSpace s)
  unfold keptLine
  rw [hv, hfold, tokens_steamLine]
  rfl

theorem without_single (n : ArgName strpy) (ts : List strpy.Token) :
    Line.without (singleGaps ts, []) n = (singleGaps (dropArg n ts), []) := cut_single n ts

theorem steamLine_flat (ts : List strpy.Token) :
    steamLine (flat ' ' ts) = (singleGaps (dropArg steam ts), []) := by
  cases ts with
  | nil =>
    have hof : Line.of [] = putBefore [' '] (([], []) : Line strpy) :=
      of_text (l := ([], [])) (gaps_single [])
    rw [flat_nil, steamLine, hof]
    rfl
  | cons t ts =>
    have hof : Line.of (flat ' ' (t :: ts)) = (singleGaps (t :: ts), []) := by
      rw [flat_cons, trail_eq_layout]
      exact of_token_text t (gaps_single ts)
    rw [steamLine, hof, without_single]

theorem keptLine_flat (ts : List strpy.Token) :
    keptLine (flat ' ' ts) = (singleGaps (dropArgs (handledNames ts) ts), []) := by
  have hfold : ∀ (ns : List (ArgName strpy)) (us : List strpy.Token),
      ns.foldl Line.without (singleGaps us, []) = (singleGaps (dropArgs ns us), []) := by
    intro ns
    induction ns with
    | nil => exact fun us => rfl
    | cons n ns ih =>
      intro us
      rw [List.foldl_cons, without_single, ih]
      rfl
  obtain ⟨v, hv⟩ := handledNames_eq_steam_cons ts
  rw [keptLine, steamLine_flat, wordsOf_eq (words_flat strpy.isSpace_space ts), hfold, hv]
  rfl

/-- The gaps of a single-spaced line are clean. -/
theorem cleanProcess_flat (ts : List strpy.Token) : CleanProcess strpy (flat ' ' ts) := by
  have hcuts : ∀ (ns : List (ArgName strpy)) (us : List strpy.Token),
      CleanCuts ns (singleGaps us, []) := by
    intro ns
    induction ns with
    | nil => exact fun us => trivial
    | cons n ns ih =>
      intro us
      refine ⟨cleanLine_single n us, ?_⟩
      rw [without_single]
      exact ih _
  refine ⟨tidy_flat steam ts, ?_⟩
  rw [steamLine_flat]
  exact hcuts _ _

end process

/-! ## Reading an option -/

/-- The last token that mentions the name is the argument itself, and the code reads the option
    behind it. The first character behind the argument is passed over, whatever it is, when the
    caller writes the prefix of the argument. -/
def LastReadable (n : ArgName strpy) (l : Line strpy) : Prop :=
  ∀ u i v, l.1 = u ++ i :: v → Mentions n i.2.chars → (∀ j ∈ v, ¬ Mentions n j.2.chars) →
    isArg n i.2 = true ∧ (Line.skip 1 (v, l.2)).Readable

instance (n : ArgName strpy) (l : Line strpy) : Decidable (LastReadable n l) :=
  decidable_of_iff _ (forall_cut_iff l.1).symm

section read

variable {n : ArgName strpy} {l l' : Line strpy} {us : List strpy.Token}

theorem SameBehind.lastReadable (h : SameBehind l l') (hl : LastReadable n l) :
    LastReadable n l' := by
  obtain ⟨rest, rest', rfl, rfl⟩ | ⟨gap, gap', t, items, rest, rfl, rfl⟩ := h.cases
  · intro u i v hsplit
    cases u <;> cases hsplit
  · intro u i v hsplit hm hv
    cases u with
    | nil =>
      obtain ⟨rfl, rfl⟩ := List.cons_eq_cons.mp hsplit
      exact hl [] (gap, t) items rfl hm hv
    | cons j u =>
      obtain ⟨rfl, rfl⟩ := List.cons_eq_cons.mp hsplit
      exact hl ((gap, t) :: u) i v rfl hm hv

theorem lastReadable_append (hl : LastReadable n l) (hus : startsOption us = false)
    (hnot : ∀ t ∈ us, ¬ Mentions n t.chars) : LastReadable n (l.append us) := by
  cases us with
  | nil => exact hl
  | cons t us =>
    intro u i v hsplit hm hv
    have hend : ∀ j ∈ (l.2 ++ [' '], t) :: singleGaps us, ¬ Mentions n j.2.chars := by
      intro j hj
      rcases List.mem_cons.mp hj with rfl | hj
      · exact hnot t List.mem_cons_self
      · obtain ⟨x, hx, rfl⟩ := List.mem_map.mp hj
        exact hnot x (List.mem_cons_of_mem t hx)
    rcases List.append_eq_append_iff.mp hsplit with ⟨w, -, hw⟩ | ⟨w, hw, hrest⟩
    · exact absurd hm (hend i (by rw [hw]; simp))
    · cases w with
      | nil => exact absurd hm (hend i (by rw [← List.nil_append (_ :: _), ← hrest]; simp))
      | cons j w =>
        obtain ⟨rfl, rfl⟩ := List.cons_eq_cons.mp hrest
        obtain ⟨harg, hread⟩ := hl u i w hw hm fun j hj => hv j (List.mem_append_left _ hj)
        exact ⟨harg, readable_append (l := (w, l.2)) hread hus⟩

/-- `get_argument_option` finds the option of the last argument behind any gap. -/
theorem getArgumentOption_line {u : Str} (hu : ¬ Mentions n u) (hgaps : Gaps l.1 l.2)
    (hl : LastReadable n l) {a : Str} (ha : a = '+' :: n.chars ∨ a = '-' :: n.chars) :
    (CmdLineArgs.mk (u ++ l.text)).getArgumentOption a =
      (readOption n l.tokens).map Word.chars := by
  have hspelling : IsSpelling n a := Or.inr ha
  have hextra : a.length = n.chars.length + 1 := by
    rcases ha with rfl | rfl <;> rfl
  unfold CmdLineArgs.getArgumentOption
  rw [findArgumentPos_spelling hspelling]
  by_cases hm : ∃ i ∈ l.1, Mentions n i.2.chars
  · obtain ⟨items, rest⟩ := l
    obtain ⟨w, ⟨gap, t⟩, v, hsplit, hm, hv⟩ := exists_last hm
    obtain ⟨ht, hread⟩ := hl w (gap, t) v hsplit hm hv
    dsimp only at hsplit
    subst hsplit
    have hbehind : Gaps v rest := (gaps_append_iff.mp hgaps).2.tail
    have hnot : ∀ x ∈ Line.tokens (v, rest), ¬ Mentions n x.chars := by
      intro x hx
      obtain ⟨j, hj, rfl⟩ := List.mem_map.mp hx
      exact hv j hj
    have htext : u ++ Line.text (w ++ (gap, t) :: v, rest) =
        (u ++ layout w gap) ++ (t.chars ++ Line.text (v, rest)) := by
      rw [text_split, List.append_assoc]
    have hskip : optionBehind ((Line.text (v, rest)).drop 1) =
        (optionOf (Line.tokens (v, rest))).map Word.chars := by
      obtain ⟨hfirst, htail⟩ := gaps_skip (l := (v, rest)) hbehind 1
      rw [← text_skip hbehind (Nat.le_refl 1), ← tokens_skip 1]
      exact (optionBehind_iff hfirst htail).mpr hread
    have htokens : Line.tokens (w ++ (gap, t) :: v, rest) =
        w.map Prod.snd ++ t :: Line.tokens (v, rest) := List.map_append
    have hlast : ∀ x ∈ Line.tokens (v, rest), isArg n x = false := by
      intro x hx
      by_contra harg
      exact hnot x hx (mentions_of_isArg (by simpa using harg))
    rw [htext, findArgumentPos_at _ ht (not_mentions_text hbehind hnot (not_mentions_name n)),
      getArgumentOptionAt_spelled _ ht _ hextra, hskip, htokens, readOption,
      behindLast_append _ ht hlast]
    rfl
  · have hnone : ∀ x ∈ l.tokens, ¬ Mentions n x.chars := by
      intro x hx hx'
      obtain ⟨j, hj, rfl⟩ := List.mem_map.mp hx
      exact hm ⟨j, hj, hx'⟩
    have hno : ∀ x ∈ l.tokens, isArg n x = false := by
      intro x hx
      by_contra harg
      exact hnone x hx (mentions_of_isArg (by simpa using harg))
    rw [findArgumentPos_name_eq_none_iff.mpr (not_mentions_text hgaps hnone hu), readOption,
      (behindLast_eq_none_iff n l.tokens).mpr hno]
    rfl

end read

end RehldsM.Core
