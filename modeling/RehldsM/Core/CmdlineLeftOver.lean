import RehldsM.Core.CmdlineCapture
import RehldsM.Core.CmdlineGaps

/-
  What `remove` leaves of an option.

  A turn erases one separator and as many characters as the option has. Behind a wider gap the end
  of the option stays on the line, and `words_leftOver_ne` counts it: without further turns the
  words are not those that are meant. There are no further turns unless what is left makes up the
  name together with the token in front, which is not so where the name occurs once and is
  `Unglued`.
-/

namespace RehldsM.Core

open Lib Util

variable {strpy : Strpy} {n : ArgName strpy} {gap : Str} {o : strpy.Token} {k : Nat}

/-- The gap and the option when `k` characters more than the option has are erased. -/
def leftOver (gap : Str) (o : strpy.Token) (k : Nat) : Str :=
  (gap ++ o.chars).drop (o.chars.length + k)

/-- No end of an option makes up the name with the token in front of its argument. -/
def Unglued (n : ArgName strpy) (ts : List strpy.Token) : Prop :=
  ∀ u w t o v, ts = u ++ w :: t :: o :: v → isArg n t = true →
    ∀ r, r <:+ o.chars → ¬ Mentions n (w.chars ++ r)

/-- What is left is an end of the option behind an end of the gap. -/
theorem exists_leftOver (hk : k < gap.length) :
    ∃ (g : Str) (w : strpy.Token), g <:+ gap ∧ w.chars <:+ o.chars ∧
      leftOver gap o k = g ++ w.chars := by
  have hne : o.chars.drop (o.chars.length + k - gap.length) ≠ [] := by
    have := List.length_pos_of_ne_nil o.ne_nil
    rw [Ne, List.drop_eq_nil_iff]
    omega
  refine ⟨gap.drop (o.chars.length + k), ⟨_, hne, fun c hc => o.no_sep c (List.mem_of_mem_drop hc)⟩,
    List.drop_suffix _ _, List.drop_suffix _ _, ?_⟩
  rw [leftOver, List.drop_append]

theorem words_leftOver_ne (a b : Str) (hk : k < gap.length) :
    words strpy.isSpace (a ++ (leftOver gap o k ++ b)) ≠
      words strpy.isSpace a ++ words strpy.isSpace b := by
  obtain ⟨g, w, -, -, hleft⟩ := exists_leftOver (o := o) hk
  obtain ⟨c, hc⟩ := List.exists_mem_of_ne_nil _ w.ne_nil
  refine words_append_ne a b ⟨c, ?_, w.no_sep c hc⟩
  rw [hleft]
  exact List.mem_append_right g hc

/-- A turn behind a gap that is too wide. -/
theorem drop_leftOver {items : List (Str × strpy.Token)} {rest : Str}
    (hgaps : Gaps ((gap, o) :: items) rest) (hread : Line.Readable ((gap, o) :: items, rest))
    (ho : isOption o = true) (hk : k + 1 ≤ gap.length) :
    (Line.text ((gap, o) :: items, rest)).drop
        (countBehind (Line.text ((gap, o) :: items, rest)) + k) =
      leftOver gap o (k + 1) ++ Line.text (items, rest) := by
  have hoption : optionOf (Line.tokens ((gap, o) :: items, rest)) = some o := if_pos ho
  unfold countBehind
  rw [optionBehind_text hgaps hread, hoption, text_cons, ← List.append_assoc,
    List.drop_append_of_le_length]
  · rw [leftOver, Nat.add_comm k 1, ← Nat.add_assoc]
    rfl
  · simp only [Option.map_some, Option.elim_some, List.length_append]
    omega

/-- The last token gets longer, or what is appended is a token of its own. -/
theorem not_mentions_append_token (first : Option strpy.Token) {items : List (Str × strpy.Token)}
    (hgaps : Gaps items []) (hnot : ∀ x ∈ first.toList ++ items.map Prod.snd, ¬ Mentions n x.chars)
    {g : Str} (hg : ∀ c ∈ g, strpy.isSpace c = true) {w : strpy.Token} (hw : ¬ Mentions n w.chars)
    (hlast : ∀ x ∈ (first.toList ++ items.map Prod.snd).getLast?,
      ¬ Mentions n (x.chars ++ w.chars)) :
    ¬ Mentions n (first.elim [] Word.chars ++ (layout items g ++ w.chars)) := by
  have hfirst : ¬ Mentions n (first.elim [] Word.chars) := by
    cases first with
    | none => exact not_mentions_nil n
    | some x => exact hnot x (by simp)
  have htokens : ∀ {us : List (Str × strpy.Token)} {i : Str × strpy.Token},
      us.map Prod.snd ⊆ items.map Prod.snd → ¬ Mentions n i.2.chars →
        ∀ x ∈ Line.tokens (us ++ [i], ([] : Str)), ¬ Mentions n x.chars := by
    intro us i hus hi x hx
    rw [Line.tokens, List.map_append] at hx
    rcases List.mem_append.mp hx with hx | hx
    · exact hnot x (List.mem_append_right _ (hus hx))
    · rw [List.mem_singleton.mp hx]
      exact hi
  by_cases hnil : g = []
  · subst hnil
    rcases List.eq_nil_or_concat items with rfl | ⟨items, ⟨gap, x⟩, rfl⟩
    · cases first with
      | none => exact hw
      | some x => exact hlast x rfl
    · rw [List.concat_eq_append] at *
      let glued : strpy.Token := ⟨x.chars ++ w.chars, List.append_ne_nil_of_left_ne_nil x.ne_nil _,
        fun c hc => (List.mem_append.mp hc).elim (x.no_sep c) (w.no_sep c)⟩
      have htext : layout (items ++ [(gap, x)]) [] ++ w.chars =
          Line.text (items ++ [(gap, glued)], []) := by
        simp [Line.text, layout_append, layout, ← layout_append_rest, glued]
      have hgaps' : Gaps (items ++ [(gap, glued)]) [] := by
        rw [gaps_append_iff, gaps_singleton_iff] at hgaps ⊢
        exact hgaps
      rw [htext]
      exact not_mentions_text (l := (items ++ [(gap, glued)], [])) hgaps'
        (htokens (by simp) (hlast x (by simp))) hfirst
  · have htext : layout items g ++ w.chars = Line.text (items ++ [(g, w)], []) := by
      rw [text_split]
      simp [Line.text, layout]
    have hgaps' : Gaps (items ++ [(g, w)]) [] :=
      gaps_append_iff.mpr ⟨hgaps, gaps_singleton_iff.mpr ⟨hnil, hg, by simp⟩⟩
    rw [htext]
    exact not_mentions_text (l := (items ++ [(g, w)], [])) hgaps'
      (htokens (List.Subset.refl _) hw) hfirst

section turn

variable {first : Option strpy.Token} {front items : List (Str × strpy.Token)} {rest g : Str}
  {t : strpy.Token}

/-- At the end of the loop, what is left of the option is still there. -/
theorem words_remove_leftOver_ne {u : Str} (hgaps : Gaps items rest)
    (hnot : ∀ x ∈ items.map Prod.snd, ¬ Mentions n x.chars) (hk : k < gap.length)
    (hleft : ¬ Mentions n (u ++ leftOver gap o k)) :
    words strpy.isSpace ((CmdLineArgs.mk
        (u ++ (leftOver gap o k ++ Line.text (items, rest)))).remove n.chars).arguments ≠
      words strpy.isSpace u ++ (items.map Prod.snd).map Word.chars := by
  have hmentions : ¬ Mentions n (u ++ (leftOver gap o k ++ Line.text (items, rest))) := by
    rw [← List.append_assoc]
    exact not_mentions_text (l := (items, rest)) hgaps hnot hleft
  have hwords := words_layout hgaps []
  rw [List.nil_append, words_nil, List.nil_append] at hwords
  rw [remove_of_not_mentions ⟨_⟩ hmentions, List.map_map]
  refine ne_of_ne_of_eq (words_leftOver_ne u _ hk) ?_
  exact congrArg _ hwords

/-- The argument inside of the line. -/
theorem remove_wide_ne (ht : isArg n t = true) (ho : isOption o = true)
    (hgaps : Gaps (front ++ (g, t) :: (gap, o) :: items) rest)
    (hread : Line.Readable ((gap, o) :: items, rest)) (hwide : 1 < gap.length)
    (hfront : ∀ x ∈ first.toList ++ front.map Prod.snd, ¬ Mentions n x.chars)
    (hbehind : ∀ x ∈ o :: items.map Prod.snd, ¬ Mentions n x.chars)
    (hlast : ∀ x ∈ (first.toList ++ front.map Prod.snd).getLast?, ∀ r, r <:+ o.chars →
      ¬ Mentions n (x.chars ++ r)) :
    words strpy.isSpace ((CmdLineArgs.mk (first.elim [] Word.chars ++
        Line.text (front ++ (g, t) :: (gap, o) :: items, rest))).remove n.chars).arguments ≠
      (first.toList ++ front.map Prod.snd ++ items.map Prod.snd).map Word.chars := by
  obtain ⟨hgapsFront, hgapsBehind⟩ := gaps_append_iff.mp hgaps
  have hg : g ≠ [] := hgapsBehind.gap_ne_nil (g, t) List.mem_cons_self
  have hsep : ∀ c ∈ g.dropLast, strpy.isSpace c = true := fun c hc =>
    hgapsBehind.gap_sep (g, t) List.mem_cons_self c (List.mem_of_mem_dropLast hc)
  have hsepGap := hgapsBehind.tail.gap_sep (gap, o) List.mem_cons_self
  obtain ⟨ho', hitems⟩ := List.forall_mem_cons.mp hbehind
  -- The turn takes the argument, the last character of its gap and too little behind it.
  have hne : first.elim [] Word.chars ++ layout front g ≠ [] := by
    rw [← List.nil_append g, layout_append_rest, ← List.append_assoc]
    exact List.append_ne_nil_of_right_ne_nil _ hg
  have hdrop : (first.elim [] Word.chars ++ layout front g).dropLast =
      first.elim [] Word.chars ++ layout front g.dropLast := by
    rw [← List.nil_append g, layout_append_rest, ← List.append_assoc,
      List.dropLast_append_of_ne_nil hg, List.append_assoc, ← layout_append_rest, List.nil_append,
      List.nil_append]
  have hpos := findArgumentPos_at (first.elim [] Word.chars ++ layout front g) ht
    (not_mentions_text (l := ((gap, o) :: items, rest)) hgapsBehind.tail hbehind
      (not_mentions_name n))
  have hturn := removeAt_behind hne ht (Line.text ((gap, o) :: items, rest))
  rw [← Nat.add_zero (countBehind _), drop_leftOver hgapsBehind.tail hread ho (by omega),
    hdrop] at hturn
  have hnot : ¬ Mentions n (first.elim [] Word.chars ++ layout front g.dropLast ++
      leftOver gap o 1) := by
    obtain ⟨g', w, hg', hw, hleft⟩ := exists_leftOver (o := o) hwide
    have happend := not_mentions_append_token first hgapsFront hfront
      (fun c hc => (List.mem_append.mp hc).elim (hsep c) fun hc => hsepGap c (hg'.subset hc))
      (fun hm => ho' (hm.mono hw.isInfix)) fun x hx => hlast x hx w.chars hw
    rwa [layout_append_rest, List.append_assoc, ← hleft, ← List.append_assoc] at happend
  have hleft := words_remove_leftOver_ne hgapsBehind.tail.tail hitems hwide hnot
  have hwords : words strpy.isSpace (first.elim [] Word.chars ++ layout front g.dropLast) =
      (first.toList ++ front.map Prod.snd).map Word.chars := by
    rw [← List.nil_append g.dropLast, layout_append_rest, ← List.append_assoc,
      words_append_of_all_sep _ _ hsep, words_layout hgapsFront]
    cases first with
    | none => simp
    | some x => simp [words_chars]
  rw [hwords, ← List.map_append] at hleft
  rw [text_split, ← List.append_assoc, remove_turn hpos, hturn]
  exact hleft

/-- The argument at the start of the line. -/
theorem remove_wide_start_ne (ht : isArg n t = true) (ho : isOption o = true)
    (hgaps : Gaps ((gap, o) :: items) rest) (hread : Line.Readable ((gap, o) :: items, rest))
    (hwide : 2 < gap.length) (hbehind : ∀ x ∈ o :: items.map Prod.snd, ¬ Mentions n x.chars) :
    words strpy.isSpace ((CmdLineArgs.mk (t.chars ++
        Line.text ((gap, o) :: items, rest))).remove n.chars).arguments ≠
      (items.map Prod.snd).map Word.chars := by
  obtain ⟨ho', hitems⟩ := List.forall_mem_cons.mp hbehind
  have hpos := findArgumentPos_at [] ht
    (not_mentions_text (l := ((gap, o) :: items, rest)) hgaps hbehind (not_mentions_name n))
  rw [List.nil_append, List.length_nil] at hpos
  have hturn := removeAt_start ht (Line.text ((gap, o) :: items, rest))
  rw [drop_leftOver hgaps hread ho (by omega)] at hturn
  have hnot : ¬ Mentions n ([] ++ leftOver gap o 2) := by
    have hgap : Gaps [(gap, o)] [] := gaps_singleton_iff.mpr
      ⟨hgaps.gap_ne_nil _ List.mem_cons_self, hgaps.gap_sep _ List.mem_cons_self, by simp⟩
    have hline := not_mentions_text (l := ([(gap, o)], [])) hgap
      (by simpa [Line.tokens] using ho') (not_mentions_nil n)
    have hsuffix : leftOver gap o 2 <:+ gap ++ o.chars := List.drop_suffix _ _
    refine fun hm => hline (hm.mono ?_)
    simpa [Line.text, layout] using hsuffix.isInfix
  rw [remove_turn hpos, hturn]
  exact words_remove_leftOver_ne hgaps.tail hitems hwide hnot

end turn

end RehldsM.Core
