import RehldsM.Core.CmdlineGaps

/-
  `get_argument_option` on every single-spaced line, under all three spellings of the name.

  The search stops at the last place where `+name` or `-name` stands, inside of a token or not
  (`LastMention`). What is read from there on depends on the spelling: the prefix counts as one
  more character to pass over. `lookup_right_iff` says when this still comes to the option of the
  last argument that has the name: at a whole argument always, inside of a token only by chance.
-/

namespace RehldsM.Core

open Lib Util

variable {strpy : Strpy} {n : ArgName strpy}

/-- The name stands, behind a sign, for the last time in the token `t`, between `x` and `y`. -/
structure LastMention (n : ArgName strpy) (ts u : List strpy.Token) (t : strpy.Token)
    (v : List strpy.Token) (x y : Str) : Prop where
  line : ts = u ++ t :: v
  text : ∃ c, isSign c = true ∧ t.chars = x ++ c :: (n.chars ++ y)
  last : ¬ Mentions n (n.chars ++ y)
  behind : ∀ w ∈ v, ¬ Mentions n w.chars

/-- The three spellings of the name all find the option of the last argument that has it. -/
def LooksUp (n : ArgName strpy) (ts : List strpy.Token) : Prop :=
  ∀ a, IsSpelling n a →
    (CmdLineArgs.mk (flat ' ' ts)).getArgumentOption a = (readOption n ts).map Word.chars

/-- The name has been found inside of a token, with `y` behind it there and the tokens `v` behind
    that; still what is read is the `option` that should be. -/
inductive SameByChance (option : Option strpy.Token) (v : List strpy.Token) : Str → Prop
  | atEnd : optionOf v = option → SameByChance option v []
  | character {c : Char} {o : strpy.Token} : isSign c = false → o.chars = [c] →
    optionOf v = some o → option = some o → SameByChance option v [c]
  | sign {c : Char} : isSign c = true → optionOf v = none → option = none →
    SameByChance option v [c]
  | signs {c c' : Char} {y : Str} : isSign c = true → isSign c' = true → option = none →
    SameByChance option v (c :: c' :: y)

/-! ## The last mention -/

theorem mentions_iff {s : Str} :
    Mentions n s ↔ ∃ x c y, isSign c = true ∧ s = x ++ c :: (n.chars ++ y) := by
  unfold Mentions
  constructor
  · rintro (⟨x, y, rfl⟩ | ⟨x, y, rfl⟩)
    · exact ⟨x, '+', y, rfl, by simp⟩
    · exact ⟨x, '-', y, rfl, by simp⟩
  · rintro ⟨x, c, y, hc, rfl⟩
    rcases isSign_iff.mp hc with rfl | rfl
    · exact Or.inl ⟨x, y, by simp⟩
    · exact Or.inr ⟨x, y, by simp⟩

/-- A text that mentions the name does so for a last time. -/
theorem exists_last_place {s : Str} (h : Mentions n s) :
    ∃ x c y, isSign c = true ∧ s = x ++ c :: (n.chars ++ y) ∧ ¬ Mentions n (n.chars ++ y) := by
  induction hlen : s.length using Nat.strong_induction_on generalizing s with
  | _ len ih =>
    obtain ⟨x, c, y, hc, rfl⟩ := mentions_iff.mp h
    by_cases hmore : Mentions n (n.chars ++ y)
    · have hshort : (n.chars ++ y).length < len := by
        simp only [← hlen, List.length_append, List.length_cons]
        omega
      obtain ⟨x', c', y', hc', hsplit, hlast⟩ := ih _ hshort hmore rfl
      exact ⟨x ++ c :: x', c', y', hc', by rw [hsplit, List.append_assoc]; rfl, hlast⟩
    · exact ⟨x, c, y, hc, rfl, hmore⟩

theorem exists_lastMention {ts : List strpy.Token} (h : ∃ t ∈ ts, Mentions n t.chars) :
    ∃ u t v x y, LastMention n ts u t v x y := by
  obtain ⟨u, t, v, hts, hm, hbehind⟩ := exists_last h
  obtain ⟨x, c, y, hc, htext, hlast⟩ := exists_last_place hm
  exact ⟨u, t, v, x, y, hts, ⟨c, hc, htext⟩, hlast, hbehind⟩

/-! ## What is read -/

theorem exists_arg (n : ArgName strpy) {c : Char} (hc : isSign c = true) :
    ∃ t : strpy.Token, t.chars = c :: n.chars ∧ isArg n t = true := by
  have hspace : strpy.isSpace c = false := by
    rcases isSign_iff.mp hc with rfl | rfl
    · exact strpy.isSpace_plus
    · exact strpy.isSpace_minus
  refine ⟨⟨c :: n.chars, List.cons_ne_nil c _, List.forall_mem_cons.mpr ⟨hspace, n.no_sep⟩⟩, rfl,
    isArg_iff.mpr ?_⟩
  rcases isSign_iff.mp hc with rfl | rfl
  · exact Or.inl rfl
  · exact Or.inr rfl

/-- The search stops at the last mention, and reads on behind it. -/
theorem LastMention.getArgumentOption {ts u v : List strpy.Token} {t : strpy.Token} {x y : Str}
    (h : LastMention n ts u t v x y) {a : Str} (ha : IsSpelling n a) {extra : Nat}
    (hextra : a.length = n.chars.length + extra) :
    (CmdLineArgs.mk (flat ' ' ts)).getArgumentOption a =
      optionBehind ((y ++ trail ' ' v).drop extra) := by
  obtain ⟨c, hc, htext⟩ := h.text
  obtain ⟨arg, hchars, harg⟩ := exists_arg n hc
  have hbehind : ¬ Mentions n (n.chars ++ (y ++ trail ' ' v)) := by
    rw [← List.append_assoc]
    exact not_mentions_append_trail h.last h.behind
  have hflat : flat ' ' ts = (lead ' ' u ++ x) ++ (arg.chars ++ (y ++ trail ' ' v)) := by
    rw [h.line, flat_append_cons, flat_cons, htext, hchars]
    simp
  unfold CmdLineArgs.getArgumentOption
  rw [findArgumentPos_spelling ha, hflat, findArgumentPos_at _ harg hbehind]
  exact getArgumentOptionAt_spelled _ harg _ hextra

theorem map_chars_inj {o o' : Option strpy.Token} :
    o.map Word.chars = o'.map Word.chars ↔ o = o' :=
  (Option.map_injective fun _ _ => Word.ext).eq_iff

theorem readings_nil_iff (v : List strpy.Token) (option : Option strpy.Token) :
    (optionBehind (trail ' ' v) = option.map Word.chars ∧
      optionBehind ((trail ' ' v).drop 1) = option.map Word.chars) ↔ SameByChance option v [] := by
  rw [drop_one_trail, optionBehind_trail, optionBehind_flat, and_self, map_chars_inj]
  constructor
  · exact SameByChance.atEnd
  · rintro ⟨⟩
    assumption

theorem readings_singleton_iff {c : Char} (hc : strpy.isSpace c = false) (v : List strpy.Token)
    (option : Option strpy.Token) :
    (optionBehind ([c] ++ trail ' ' v) = option.map Word.chars ∧
      optionBehind (([c] ++ trail ' ' v).drop 1) = option.map Word.chars) ↔
        SameByChance option v [c] := by
  rw [optionBehind_run (by simpa using hc) fun _ => head_trail v, List.singleton_append,
    List.drop_succ_cons, List.drop_zero, optionBehind_trail, map_chars_inj]
  cases hsign : isSign c with
  | true =>
    rw [if_pos rfl]
    constructor
    · rintro ⟨hnone, hoption⟩
      obtain rfl : option = none := Option.map_eq_none_iff.mp hnone.symm
      exact .sign hsign hoption rfl
    · rintro (_ | ⟨hnot, -, -, -⟩ | ⟨-, hoption, rfl⟩)
      · rw [hsign] at hnot
        cases hnot
      · exact ⟨rfl, hoption⟩
  | false =>
    rw [if_neg (by decide)]
    constructor
    · rintro ⟨hsome, hoption⟩
      obtain ⟨o, rfl, ho⟩ := Option.map_eq_some_iff.mp hsome.symm
      exact .character hsign ho hoption rfl
    · rintro (_ | ⟨-, ho, hoption, rfl⟩ | ⟨htrue, -, -⟩)
      · exact ⟨congrArg some ho.symm, hoption⟩
      · rw [hsign] at htrue
        cases htrue

/-- Two texts of different lengths are read, so neither may be. -/
theorem readings_run_iff {c c' : Char} {y : Str}
    (hrun : ∀ x ∈ c :: c' :: y, strpy.isSpace x = false) (v : List strpy.Token)
    (option : Option strpy.Token) :
    (optionBehind (c :: c' :: y ++ trail ' ' v) = option.map Word.chars ∧
      optionBehind ((c :: c' :: y ++ trail ' ' v).drop 1) = option.map Word.chars) ↔
        SameByChance option v (c :: c' :: y) := by
  have hrun' : ∀ x ∈ c' :: y, strpy.isSpace x = false := fun x hx => hrun x (by simp [hx])
  have hdrop : (c :: c' :: y ++ trail ' ' v).drop 1 = c' :: y ++ trail ' ' v := rfl
  rw [hdrop, optionBehind_run hrun fun _ => head_trail v,
    optionBehind_run hrun' fun _ => head_trail v]
  constructor
  · rintro ⟨hlong, hshort⟩
    have hsame := hlong.trans hshort.symm
    cases hsign : isSign c with
    | true =>
      rw [hsign, if_pos rfl] at hsame hlong
      cases hsign' : isSign c' with
      | true => exact .signs hsign hsign' (Option.map_eq_none_iff.mp hlong.symm)
      | false =>
        rw [hsign', if_neg (by decide)] at hsame
        cases hsame
    | false =>
      rw [hsign, if_neg (by decide)] at hsame
      split at hsame
      · cases hsame
      · have hlen := congrArg List.length (Option.some.inj hsame)
        rw [List.length_cons] at hlen
        omega
  · rintro (_ | _ | _ | ⟨hsign, hsign', rfl⟩)
    rw [hsign, hsign', if_pos rfl]
    exact ⟨rfl, rfl⟩

/-- With and without the additional character: when both come to the option. -/
theorem readings_iff {y : Str} (hrun : ∀ x ∈ y, strpy.isSpace x = false) (v : List strpy.Token)
    (option : Option strpy.Token) :
    (optionBehind (y ++ trail ' ' v) = option.map Word.chars ∧
      optionBehind ((y ++ trail ' ' v).drop 1) = option.map Word.chars) ↔
        SameByChance option v y := by
  match y with
  | [] => exact readings_nil_iff v option
  | [c] => exact readings_singleton_iff (hrun c List.mem_cons_self) v option
  | c :: c' :: y => exact readings_run_iff hrun v option

theorem behindLast_append (u : List strpy.Token) {t : strpy.Token} (ht : isArg n t = true)
    {v : List strpy.Token} (hv : ∀ w ∈ v, isArg n w = false) :
    behindLast n (u ++ t :: v) = some v := by
  induction u with
  | nil =>
    rw [List.nil_append, behindLast, (behindLast_eq_none_iff n v).mpr hv, ht]
    rfl
  | cons w u ih => rw [List.cons_append, behindLast, ih]

theorem readOption_last {ts u v : List strpy.Token} {t : strpy.Token}
    (h : LastMention n ts u t v [] []) : readOption n ts = optionOf v := by
  obtain ⟨c, hc, htext⟩ := h.text
  have ht : isArg n t = true := isArg_iff.mpr <| by
    rw [htext, List.append_nil]
    rcases isSign_iff.mp hc with rfl | rfl
    · exact Or.inl rfl
    · exact Or.inr rfl
  have hv : ∀ w ∈ v, isArg n w = false := by
    intro w hw
    by_contra harg
    exact h.behind w hw (mentions_of_isArg (by simpa using harg))
  rw [readOption, h.line, behindLast_append u ht hv]
  rfl

theorem looksUp_iff_of_lastMention {ts u v : List strpy.Token} {t : strpy.Token} {x y : Str}
    (h : LastMention n ts u t v x y) : LooksUp n ts ↔ SameByChance (readOption n ts) v y := by
  have hrun : ∀ s ∈ y, strpy.isSpace s = false := by
    obtain ⟨c, -, htext⟩ := h.text
    intro s hs
    refine t.no_sep s ?_
    rw [htext]
    simp [hs]
  rw [← readings_iff hrun]
  constructor
  · intro hall
    have hname := hall _ (Or.inl rfl)
    have hplus := hall _ (Or.inr (Or.inl rfl))
    rw [h.getArgumentOption (Or.inl rfl) (Nat.add_zero _).symm] at hname
    rw [h.getArgumentOption (Or.inr (Or.inl rfl)) (List.length_cons ..)] at hplus
    exact ⟨hname, hplus⟩
  · rintro ⟨hname, hprefixed⟩ a (rfl | rfl | rfl)
    · rw [h.getArgumentOption (Or.inl rfl) (Nat.add_zero _).symm]
      exact hname
    · rw [h.getArgumentOption (Or.inr (Or.inl rfl)) (List.length_cons ..)]
      exact hprefixed
    · rw [h.getArgumentOption (Or.inr (Or.inr rfl)) (List.length_cons ..)]
      exact hprefixed

/-- The three spellings find the option of the last argument exactly when the last token that
    mentions the name is the argument itself, or else by chance. -/
theorem lookup_right_iff (n : ArgName strpy) (ts : List strpy.Token) :
    LooksUp n ts ↔ ∀ u t v x y, LastMention n ts u t v x y →
      x = [] ∧ y = [] ∨ SameByChance (readOption n ts) v y := by
  constructor
  · exact fun h u t v x y hlast => Or.inr ((looksUp_iff_of_lastMention hlast).mp h)
  · intro h
    by_cases hm : ∃ t ∈ ts, Mentions n t.chars
    · obtain ⟨u, t, v, x, y, hlast⟩ := exists_lastMention hm
      rw [looksUp_iff_of_lastMention hlast]
      rcases h u t v x y hlast with ⟨rfl, rfl⟩ | hsame
      · exact SameByChance.atEnd (readOption_last hlast).symm
      · exact hsame
    · intro a ha
      refine getArgumentOption_flat ha fun t ht hmention => absurd ⟨t, ht, hmention⟩ hm

/-- On `-gamedir x` the three spellings of `game` find `dir` and, with a prefix, `ir`; there is no
    such argument. -/
theorem lookup_inside_gamedir :
    let line : List asciiStrpy.Token :=
      asciiStrpy.tokens ["-gamedir".toList, "x".toList] (by decide)
    (CmdLineArgs.mk (flat ' ' line)).getArgumentOption "game".toList = some "dir".toList ∧
      (CmdLineArgs.mk (flat ' ' line)).getArgumentOption "-game".toList = some "ir".toList ∧
      readOption gameName line = none ∧ ¬ LooksUp gameName line := by
  intro line
  have hname : (CmdLineArgs.mk (flat ' ' line)).getArgumentOption "game".toList =
      some "dir".toList := by decide +kernel
  have hnone : readOption gameName line = none := by decide +kernel
  refine ⟨hname, by decide +kernel, hnone, fun h => ?_⟩
  have hsame := h _ (Or.inl rfl)
  rw [hnone] at hsame
  exact absurd (hname.symm.trans hsame) (by decide)

end RehldsM.Core
