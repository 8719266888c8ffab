import RehldsM.Core.CmdlineOption
import RehldsM.Core.CmdlineRemoveExact

/-
  `push_front` and `push_back` as updates of a map from arguments to options (`MapUpdate`).

  Both take the argument out first and then put it at one end of what is left. `RoomFor` says, of
  any text that is left, when the argument can be found there, read and taken out again;
  `push_updates` turns this into a condition on the tokens where the argument is always found as
  a whole token.
-/

namespace RehldsM.Core

open Lib Util

variable {strpy : Strpy}

inductive End where
  | front
  | back

def CmdLineArgs.push (strpy : Strpy) (e : End) (args : CmdLineArgs) (arg option : Str) :
    CmdLineArgs :=
  match e with
  | .front => args.pushFront strpy arg option
  | .back => args.pushBack strpy arg option

/-- The push sets the option of the argument and nothing else: `a` is the argument and `o` the
    option, without white space around them. -/
structure MapUpdate (e : End) (args : CmdLineArgs) (arg option : Str) (a : strpy.Token)
    (o : Option strpy.Token) : Prop where
  contains : (args.push strpy e arg option).contains a.chars = true
  reads : (args.push strpy e arg option).getArgumentOption a.chars = o.map Word.chars
  again : (args.push strpy e arg option).push strpy e arg option = args.push strpy e arg option
  removes : (args.push strpy e arg option).remove a.chars = args.remove a.chars

/-- The argument is `+name` or `-name`, its option does not mention the name, and `left` has no
    white space at the end where they are put; nor does it begin with what would be taken for an
    option. -/
def RoomFor (e : End) (n : ArgName strpy) (a : strpy.Token) (o : Option strpy.Token) (left : Str) :
    Prop :=
  isArg n a = true ∧ (∀ w ∈ o, ¬ Mentions n w.chars) ∧
    match e with
    | .front => (∀ c ∈ left.getLast?, strpy.isSpace c = false) ∧
        (o = none → optionBehind left = none)
    | .back => ∀ c ∈ left.head?, strpy.isSpace c = false

/-- The same where the name is found in the argument only: `push_front` without an option must
    not come to stand in front of a plain word. -/
def PushClear (e : End) (n : ArgName strpy) (a : strpy.Token) (o : Option strpy.Token)
    (ts : List strpy.Token) : Prop :=
  isArg n a = true ∧ Unambiguous n ts ∧ (∀ w ∈ o, ¬ Mentions n w.chars) ∧
    match e with
    | .front => o = none → startsOption (dropArg n ts) = false
    | .back => True

/-! ## Texts behind an argument -/

variable {n : ArgName strpy}

theorem mentions_sep_iff (s t : Str) :
    Mentions n (s ++ ' ' :: t) ↔ Mentions n s ∨ Mentions n t := by
  unfold Mentions
  rw [infix_append_sep_iff (by simp) (space_not_mem_plus n),
    infix_append_sep_iff (by simp) (space_not_mem_minus n)]
  exact or_or_or_comm

theorem not_mentions_append {s w : Str} (hs : ¬ Mentions n s) (hw : ¬ Mentions n w)
    (hblank : ∀ x ∈ w.head?, x = ' ') : ¬ Mentions n (s ++ w) := by
  cases w with
  | nil => rwa [List.append_nil]
  | cons c w =>
    obtain rfl := hblank c rfl
    rw [mentions_sep_iff, not_or]
    exact ⟨hs, fun h => hw (h.mono (List.suffix_cons ' ' w).isInfix)⟩

theorem optionBehind_drop_one {w : Str} (hblank : ∀ x ∈ w.head?, x = ' ') :
    optionBehind (w.drop 1) = optionBehind w := by
  cases w with
  | nil => rfl
  | cons c w =>
    obtain rfl := hblank c rfl
    rfl

/-- What is read is a part of the text. -/
theorem infix_of_optionBehind {w s : Str} (h : optionBehind w = some s) : s <:+: w := by
  unfold optionBehind at h
  split at h
  · cases h
  · rename_i c rest hdrop
    split at h
    · rw [← Option.some.inj h, ← hdrop]
      exact (List.takeWhile_prefix _).isInfix.trans (List.dropWhile_suffix _).isInfix
    · cases h

/-- The option of an argument, and what stands behind that. -/
theorem optionBehind_option {o : Option strpy.Token} (hword : ∀ p ∈ o, isOption p = true) {w : Str}
    (hblank : ∀ x ∈ w.head?, x = ' ') (hnone : o = none → optionBehind w = none) :
    optionBehind (trail ' ' o.toList ++ w) = o.map Word.chars := by
  cases o with
  | none => exact hnone rfl
  | some p =>
    have htext : trail ' ' (some p).toList ++ w = ' ' :: (p.chars ++ w) := by simp
    rw [htext, ← optionBehind_drop_one (by simp), List.drop_one, List.tail_cons,
      optionBehind_token p fun _ => hblank, if_pos (hword p rfl)]
    rfl

theorem head_option {o : Option strpy.Token} {w : Str} (hblank : ∀ x ∈ w.head?, x = ' ') :
    ∀ x ∈ (trail ' ' o.toList ++ w).head?, x = ' ' := by
  cases o with
  | none => simpa using hblank
  | some p => simp

/-- The text that is counted behind the argument is the option with the blank in front of it. -/
theorem drop_countBehind_option {o : Option strpy.Token} {w : Str}
    (h : optionBehind (trail ' ' o.toList ++ w) = o.map Word.chars) :
    (trail ' ' o.toList ++ w).drop (countBehind (trail ' ' o.toList ++ w)) = w := by
  unfold countBehind
  rw [h]
  cases o with
  | none => rfl
  | some p => simp

/-! ## Arguments with one prefix -/

section prefixed

variable {a : strpy.Token} {c : Char}

theorem stripped_eq (hpre : isPrefixChar c = true) (ha : a.chars = c :: n.chars) :
    removeArgumentPrefix a.chars = n.chars := by
  rw [ha, removeArgumentPrefix, if_pos hpre]

theorem remove_stripped {x : Str} (hx : removeArgumentPrefix x = n.chars) (args : CmdLineArgs) :
    args.remove x = args.remove n.chars := by
  unfold CmdLineArgs.remove
  rw [hx, removeArgumentPrefix_name]

theorem findArgumentPos_stripped {x : Str} (hx : removeArgumentPrefix x = n.chars)
    (args : CmdLineArgs) : args.findArgumentPos x = args.findArgumentPos n.chars := by
  unfold CmdLineArgs.findArgumentPos
  rw [hx, removeArgumentPrefix_name]

theorem isValidArgument_prefixed (hpre : isPrefixChar c = true) (ha : a.chars = c :: n.chars) :
    isValidArgument a.chars = true := by
  have hpos := List.length_pos_of_ne_nil n.ne_nil
  rw [ha]
  simp [isValidArgument, hpre, hpos]

/-- An option that mentions the name is not what is read: the search stops inside of it. -/
theorem not_reads_inside (pre : Str) {x w : Str} (hx : removeArgumentPrefix x = n.chars)
    (hlen : x.length = n.chars.length + 1) {p : strpy.Token} (hm : Mentions n p.chars)
    (hw : ¬ Mentions n w) (hblank : ∀ x ∈ w.head?, x = ' ') :
    (CmdLineArgs.mk (pre ++ (p.chars ++ w))).getArgumentOption x ≠ some p.chars := by
  intro hread
  obtain ⟨front, s, y, hs, htext, hlast⟩ := exists_last_place hm
  obtain ⟨t, ht, harg⟩ := exists_arg n hs
  have hy : ¬ Mentions n y := fun h => hlast (h.mono (List.suffix_append _ y).isInfix)
  have hbehind : ¬ Mentions n (n.chars ++ (y ++ w)) := by
    rw [← List.append_assoc]
    exact not_mentions_append hlast hw hblank
  have hsplit : pre ++ (p.chars ++ w) = (pre ++ front) ++ (t.chars ++ (y ++ w)) := by
    rw [htext, ht]
    simp
  unfold CmdLineArgs.getArgumentOption at hread
  rw [findArgumentPos_stripped hx, hsplit, findArgumentPos_at _ harg hbehind,
    getArgumentOptionAt_spelled _ harg _ hlen] at hread
  have hinside := (infix_of_optionBehind hread).trans (List.drop_suffix 1 (y ++ w)).isInfix
  exact not_mentions_append hy hw hblank (hm.mono hinside)

/-- `@name` is not found by its name. -/
theorem not_mentions_at (ha : a.chars = '@' :: n.chars) : ¬ Mentions n a.chars := by
  unfold Mentions
  rw [ha, List.infix_cons_iff, List.infix_cons_iff]
  rintro ((h | h) | (h | h))
  · exact absurd (List.cons_prefix_cons.mp h).1 (by decide)
  · exact not_infix_name n '+' h
  · exact absurd (List.cons_prefix_cons.mp h).1 (by decide)
  · exact not_infix_name n '-' h

end prefixed

/-! ## In front -/

section front

variable {a : strpy.Token} {o : Option strpy.Token} {w : Str}

theorem front_found (ha : isArg n a = true) (ho : ∀ p ∈ o, ¬ Mentions n p.chars)
    (hw : ¬ Mentions n w) (hblank : ∀ x ∈ w.head?, x = ' ') :
    (CmdLineArgs.mk (a.chars ++ (trail ' ' o.toList ++ w))).findArgumentPos n.chars = some 0 := by
  have hbehind : ¬ Mentions n (n.chars ++ (trail ' ' o.toList ++ w)) := by
    rw [← List.append_assoc]
    refine not_mentions_append (not_mentions_append_trail (not_mentions_name n) ?_) hw hblank
    exact fun p hp => ho p (by simpa using hp)
  exact findArgumentPos_at [] ha hbehind

theorem front_reads (ha : isArg n a = true) (ho : ∀ p ∈ o, ¬ Mentions n p.chars)
    (hw : ¬ Mentions n w) (hblank : ∀ x ∈ w.head?, x = ' ') :
    (CmdLineArgs.mk (a.chars ++ (trail ' ' o.toList ++ w))).getArgumentOption a.chars =
      optionBehind (trail ' ' o.toList ++ w) := by
  unfold CmdLineArgs.getArgumentOption
  rw [findArgumentPos_spelling (isSpelling_of_isArg ha), front_found ha ho hw hblank,
    ← optionBehind_drop_one (head_option hblank)]
  exact getArgumentOptionAt_spelled [] ha _ (length_of_isArg ha)

theorem front_remove (ha : isArg n a = true) (ho : ∀ p ∈ o, ¬ Mentions n p.chars)
    (hw : ¬ Mentions n w) (hblank : ∀ x ∈ w.head?, x = ' ')
    (hoption : optionBehind (trail ' ' o.toList ++ w) = o.map Word.chars) :
    (CmdLineArgs.mk (a.chars ++ (trail ' ' o.toList ++ w))).remove n.chars = ⟨w.drop 1⟩ := by
  rw [remove_turn (front_found ha ho hw hblank), removeAt_start ha, ← List.drop_drop,
    drop_countBehind_option hoption]
  exact remove_of_not_mentions _ fun h => hw (h.mono (List.drop_suffix 1 w).isInfix)

end front

/-! ## Behind -/

section back

variable {a : strpy.Token} {o : Option strpy.Token} {u : Str}

theorem back_found (ha : isArg n a = true) (ho : ∀ p ∈ o, ¬ Mentions n p.chars) :
    (CmdLineArgs.mk (u ++ (a.chars ++ trail ' ' o.toList))).findArgumentPos n.chars =
      some u.length :=
  findArgumentPos_last u ha _ fun p hp => ho p (by simpa using hp)

theorem back_reads (ha : isArg n a = true) (ho : ∀ p ∈ o, ¬ Mentions n p.chars)
    (hword : ∀ p ∈ o, isOption p = true) :
    (CmdLineArgs.mk (u ++ (a.chars ++ trail ' ' o.toList))).getArgumentOption a.chars =
      o.map Word.chars := by
  unfold CmdLineArgs.getArgumentOption
  rw [findArgumentPos_spelling (isSpelling_of_isArg ha), back_found ha ho,
    getArgumentOptionAt_last (isSpelling_of_isArg ha) u ha]
  cases o with
  | none => rfl
  | some p => rw [Option.toList_some, optionOf, if_pos (hword p rfl)]

theorem back_remove (ha : isArg n a = true) (ho : ∀ p ∈ o, ¬ Mentions n p.chars)
    (hword : ∀ p ∈ o, isOption p = true) (hu : ¬ Mentions n u) :
    (CmdLineArgs.mk (u ++ (a.chars ++ trail ' ' o.toList))).remove n.chars = ⟨u.dropLast⟩ := by
  have hoption := optionBehind_option hword (w := []) (by simp) fun _ => rfl
  have hdrop := drop_countBehind_option hoption
  rw [List.append_nil] at hdrop
  have hnot : ¬ Mentions n u.dropLast := fun h =>
    hu (h.mono (List.dropLast_prefix u).isInfix)
  rw [remove_turn (back_found ha ho)]
  by_cases hnil : u = []
  · subst hnil
    rw [List.nil_append, List.length_nil, removeAt_start ha, ← List.drop_drop, hdrop]
    exact remove_of_not_mentions _ hnot
  · rw [removeAt_behind hnil ha, hdrop, List.append_nil]
    exact remove_of_not_mentions _ hnot

end back

/-! ## The four properties -/

section update

variable {a : strpy.Token} {c : Char} {o : Option strpy.Token} {args : CmdLineArgs}
  {arg option left : Str}

theorem flat_argument_ne_nil (a : strpy.Token) (ts : List strpy.Token) : flat ' ' (a :: ts) ≠ [] :=
  List.append_ne_nil_of_left_ne_nil a.ne_nil _

theorem push_front_text (harg : strpy.strip arg = a.chars) (hvalid : isValidArgument a.chars = true)
    (hoption : strpy.strip option = optionChars o) (h : args.remove a.chars = ⟨left⟩) :
    args.push strpy .front arg option =
      ⟨a.chars ++ (trail ' ' o.toList ++ (' ' :: left).rdropWhile strpy.isSpace)⟩ := by
  refine (pushFront_eq harg hvalid hoption h).trans ?_
  rw [strpy.strip_eq, trim_append (flat_argument_ne_nil a _) (trim_flat ' ' _), flat_cons,
    List.append_assoc]

theorem push_back_text (harg : strpy.strip arg = a.chars) (hvalid : isValidArgument a.chars = true)
    (hoption : strpy.strip option = optionChars o) (h : args.remove a.chars = ⟨left⟩) :
    args.push strpy .back arg option =
      ⟨(left ++ [' ']).dropWhile strpy.isSpace ++ (a.chars ++ trail ' ' o.toList)⟩ := by
  refine (pushBack_eq harg hvalid hoption h).trans ?_
  rw [strpy.strip_eq, List.append_cons,
    trim_append_left (flat_argument_ne_nil a _) (trim_flat ' ' _), flat_cons]

/-- The text behind what is put in front. -/
theorem trimmed_behind (hleft : ¬ Mentions n left) :
    ¬ Mentions n ((' ' :: left).rdropWhile strpy.isSpace) ∧
      (∀ x ∈ ((' ' :: left).rdropWhile strpy.isSpace).head?, x = ' ') ∧
      ((' ' :: left).rdropWhile strpy.isSpace).drop 1 = left.rdropWhile strpy.isSpace := by
  rw [rdropWhile_sep_cons strpy.isSpace_space]
  have hnot : ¬ Mentions n (left.rdropWhile strpy.isSpace) := fun h =>
    hleft (h.mono (List.rdropWhile_prefix _ _).isInfix)
  split
  · rename_i hnil
    exact ⟨not_mentions_nil n, by simp, by rw [hnil]; rfl⟩
  · have hsep := mentions_sep_iff (n := n) [] (left.rdropWhile strpy.isSpace)
    rw [List.nil_append] at hsep
    exact ⟨by rw [hsep, not_or]; exact ⟨not_mentions_nil n, hnot⟩, by simp, rfl⟩

/-- The text in front of what is put behind. -/
theorem trimmed_front (hleft : ¬ Mentions n left) :
    (∀ z, ¬ Mentions n z → ¬ Mentions n ((left ++ [' ']).dropWhile strpy.isSpace ++ z)) ∧
      ((left ++ [' ']).dropWhile strpy.isSpace).dropLast = left.dropWhile strpy.isSpace := by
  rw [dropWhile_concat_sep strpy.isSpace_space]
  have hnot : ¬ Mentions n (left.dropWhile strpy.isSpace) := fun h =>
    hleft (h.mono (List.dropWhile_suffix _).isInfix)
  split
  · rename_i hnil
    exact ⟨fun z hz => by rwa [List.nil_append], by rw [hnil]; rfl⟩
  · refine ⟨fun z hz => ?_, List.dropLast_concat⟩
    rw [← List.append_cons, mentions_sep_iff, not_or]
    exact ⟨hnot, hz⟩

theorem not_mentions_left (h : args.remove n.chars = ⟨left⟩) : ¬ Mentions n left := by
  have hremove := not_mentions_remove n args
  rwa [h] at hremove

theorem mapUpdate_front_iff (ha : isArg n a = true) (harg : strpy.strip arg = a.chars)
    (hoption : strpy.strip option = optionChars o) (hword : ∀ p ∈ o, isOption p = true)
    (ho : ∀ p ∈ o, ¬ Mentions n p.chars) (h : args.remove n.chars = ⟨left⟩) :
    MapUpdate .front args arg option a o ↔
      left.rdropWhile strpy.isSpace = left ∧ (o = none → optionBehind left = none) := by
  have hnot := not_mentions_left h
  have hvalid := isValidArgument_of_isArg ha
  have hspell := remove_spelling (isSpelling_of_isArg ha)
  obtain ⟨hw, hblank, hdrop⟩ := trimmed_behind hnot
  have hpush := push_front_text harg hvalid hoption ((hspell args).trans h)
  generalize hrest : (' ' :: left).rdropWhile strpy.isSpace = w at hw hblank hdrop hpush
  have hreads := front_reads ha ho hw hblank
  constructor
  · intro hmap
    have hoption' := hmap.reads
    have hremoves := hmap.removes
    rw [hpush, hreads] at hoption'
    rw [hpush, hspell, hspell, front_remove ha ho hw hblank hoption', h, hdrop] at hremoves
    have hsame : left.rdropWhile strpy.isSpace = left := congrArg CmdLineArgs.arguments hremoves
    refine ⟨hsame, fun hnone => ?_⟩
    subst hnone
    rw [← hsame, ← hdrop, optionBehind_drop_one hblank]
    exact hoption'
  · rintro ⟨hsame, hnone⟩
    have hoption' : optionBehind (trail ' ' o.toList ++ w) = o.map Word.chars := by
      refine optionBehind_option hword hblank fun ho => ?_
      rw [← optionBehind_drop_one hblank, hdrop, hsame]
      exact hnone ho
    have hremove := front_remove ha ho hw hblank hoption'
    rw [hdrop, hsame] at hremove
    refine ⟨?_, ?_, ?_, ?_⟩
    · rw [hpush, contains_iff_mentions (isSpelling_of_isArg ha)]
      exact (mentions_of_isArg ha).mono (List.prefix_append _ _).isInfix
    · rw [hpush, hreads, hoption']
    · rw [hpush, push_front_text harg hvalid hoption ((hspell _).trans hremove), hrest]
    · rw [hpush, hspell, hspell, hremove, h]

theorem mapUpdate_back_iff (ha : isArg n a = true) (harg : strpy.strip arg = a.chars)
    (hoption : strpy.strip option = optionChars o) (hword : ∀ p ∈ o, isOption p = true)
    (ho : ∀ p ∈ o, ¬ Mentions n p.chars) (h : args.remove n.chars = ⟨left⟩) :
    MapUpdate .back args arg option a o ↔ left.dropWhile strpy.isSpace = left := by
  have hnot := not_mentions_left h
  have hvalid := isValidArgument_of_isArg ha
  have hspell := remove_spelling (isSpelling_of_isArg ha)
  obtain ⟨hu, hlast⟩ := trimmed_front hnot
  have hpush := push_back_text harg hvalid hoption ((hspell args).trans h)
  generalize hrest : (left ++ [' ']).dropWhile strpy.isSpace = u at hu hlast hpush
  have hu : ¬ Mentions n u := by simpa using hu [] (not_mentions_nil n)
  have hremove := back_remove ha ho hword hu
  rw [hlast] at hremove
  constructor
  · intro hmap
    have hremoves := hmap.removes
    rw [hpush, hspell, hspell, hremove, h] at hremoves
    exact congrArg CmdLineArgs.arguments hremoves
  · intro hsame
    rw [hsame] at hremove
    refine ⟨?_, ?_, ?_, ?_⟩
    · rw [hpush, contains_iff_mentions (isSpelling_of_isArg ha)]
      refine (mentions_of_isArg ha).mono ?_
      exact (List.prefix_append _ _).isInfix.trans (List.suffix_append _ _).isInfix
    · rw [hpush, back_reads ha ho hword]
    · rw [hpush, push_back_text harg hvalid hoption ((hspell _).trans hremove), hrest]
    · rw [hpush, hspell, hspell, hremove, h]

/-- At either end: the argument and its option, between texts that do not mention the name. -/
theorem exists_push_text (e : End) (harg : strpy.strip arg = a.chars)
    (hvalid : isValidArgument a.chars = true) (hoption : strpy.strip option = optionChars o)
    (h : args.remove a.chars = ⟨left⟩) (hleft : ¬ Mentions n left) :
    ∃ front behind, args.push strpy e arg option =
        ⟨front ++ (a.chars ++ (trail ' ' o.toList ++ behind))⟩ ∧
      (∀ z, ¬ Mentions n z → ¬ Mentions n (front ++ z)) ∧
      ¬ Mentions n behind ∧ ∀ x ∈ behind.head?, x = ' ' := by
  cases e with
  | front =>
    obtain ⟨hw, hblank, -⟩ := trimmed_behind hleft
    exact ⟨[], _, push_front_text harg hvalid hoption h, fun _ hz => hz, hw, hblank⟩
  | back =>
    obtain ⟨hu, -⟩ := trimmed_front hleft
    refine ⟨_, [], ?_, hu, not_mentions_nil n, by simp⟩
    rw [push_back_text harg hvalid hoption h, List.append_nil]

/-- An update leaves no choice of the option. -/
theorem not_mentions_option (e : End) (hpre : isPrefixChar c = true)
    (ha : a.chars = c :: n.chars) (harg : strpy.strip arg = a.chars)
    (hoption : strpy.strip option = optionChars o) (h : MapUpdate e args arg option a o) :
    ∀ p ∈ o, ¬ Mentions n p.chars := by
  have hstripped := stripped_eq hpre ha
  have hlen : a.chars.length = n.chars.length + 1 := by rw [ha, List.length_cons]
  have hleft := (remove_stripped hstripped args).symm
  obtain ⟨front, behind, htext, -, hbehind, hblank⟩ := exists_push_text e harg
    (isValidArgument_prefixed hpre ha) hoption rfl (not_mentions_left hleft)
  have hreads := h.reads
  rw [htext] at hreads
  rintro p rfl hm
  refine not_reads_inside (front ++ (a.chars ++ [' '])) hstripped hlen hm hbehind hblank ?_
  simpa using hreads

/-- Nor of the prefix. -/
theorem isArg_of_mapUpdate (e : End) (hpre : isPrefixChar c = true)
    (ha : a.chars = c :: n.chars) (harg : strpy.strip arg = a.chars)
    (hoption : strpy.strip option = optionChars o) (h : MapUpdate e args arg option a o)
    (ho : ∀ p ∈ o, ¬ Mentions n p.chars) : isArg n a = true := by
  have hstripped := stripped_eq hpre ha
  have hleft := (remove_stripped hstripped args).symm
  obtain ⟨front, behind, htext, hfront, hbehind, hblank⟩ := exists_push_text e harg
    (isValidArgument_prefixed hpre ha) hoption rfl (not_mentions_left hleft)
  by_contra hno
  have hat : a.chars = '@' :: n.chars := by
    have hcases : ('-' = c ∨ '+' = c) ∨ '@' = c := by simpa [isPrefixChar] using hpre
    rcases hcases with (rfl | rfl) | rfl
    · exact absurd (isArg_iff.mpr (Or.inr ha)) hno
    · exact absurd (isArg_iff.mpr (Or.inl ha)) hno
    · exact ha
  have hargument : ¬ Mentions n (a.chars ++ trail ' ' o.toList) :=
    not_mentions_append_trail (not_mentions_at hat) fun p hp => ho p (by simpa using hp)
  have hcontains := h.contains
  unfold CmdLineArgs.contains at hcontains
  rw [findArgumentPos_stripped hstripped, Option.isSome_iff_ne_none, ne_eq,
    findArgumentPos_name_eq_none_iff, not_not, htext, ← List.append_assoc a.chars] at hcontains
  exact hfront _ (not_mentions_append hargument hbehind hblank) hcontains

theorem mapUpdate_iff_of_isArg (e : End) (ha : isArg n a = true) (harg : strpy.strip arg = a.chars)
    (hoption : strpy.strip option = optionChars o) (hword : ∀ p ∈ o, isOption p = true)
    (ho : ∀ p ∈ o, ¬ Mentions n p.chars) (h : args.remove n.chars = ⟨left⟩) :
    MapUpdate e args arg option a o ↔ RoomFor e n a o left := by
  unfold RoomFor
  rw [and_iff_right ha, and_iff_right ho]
  cases e with
  | front =>
    rw [mapUpdate_front_iff ha harg hoption hword ho h, rdropWhile_eq_self_iff_getLast]
  | back =>
    rw [mapUpdate_back_iff ha harg hoption hword ho h, dropWhile_eq_self_iff_head]

/-- On any line: the push is an update exactly when what `remove` leaves has room for it. -/
theorem mapUpdate_iff_roomFor (e : End) (hpre : isPrefixChar c = true)
    (ha : a.chars = c :: n.chars) (harg : strpy.strip arg = a.chars)
    (hoption : strpy.strip option = optionChars o) (hword : ∀ p ∈ o, isOption p = true)
    (h : args.remove n.chars = ⟨left⟩) :
    MapUpdate e args arg option a o ↔ RoomFor e n a o left := by
  constructor
  · intro hmap
    have ho := not_mentions_option e hpre ha harg hoption hmap
    have hsign := isArg_of_mapUpdate e hpre ha harg hoption hmap ho
    exact (mapUpdate_iff_of_isArg e hsign harg hoption hword ho h).mp hmap
  · intro hroom
    exact (mapUpdate_iff_of_isArg e hroom.1 harg hoption hword hroom.2.1 h).mpr hroom

end update

/-- What is left of unambiguous tokens has no white space at its ends. -/
theorem roomFor_flat_iff (e : End) {a : strpy.Token} {o : Option strpy.Token}
    {ts : List strpy.Token} (h : Unambiguous n ts) :
    RoomFor e n a o (flat ' ' (dropArg n ts)) ↔ PushClear e n a o ts := by
  have hhead : ∀ x ∈ (flat ' ' (dropArg n ts)).head?, strpy.isSpace x = false := by
    intro x hx
    rw [← trim_flat] at hx
    exact head_trim hx
  have hlast : ∀ x ∈ (flat ' ' (dropArg n ts)).getLast?, strpy.isSpace x = false := by
    intro x hx
    rw [← trim_flat] at hx
    exact getLast_trim hx
  have hnone : optionBehind (flat ' ' (dropArg n ts)) = none ↔
      startsOption (dropArg n ts) = false := by
    rw [optionBehind_flat, Option.map_eq_none_iff]
    cases dropArg n ts with
    | nil => simp [optionOf, startsOption]
    | cons t us => simp [optionOf, startsOption]
  unfold RoomFor PushClear
  cases e with
  | front =>
    dsimp only
    rw [hnone]
    constructor
    · rintro ⟨ha, ho, -, hroom⟩
      exact ⟨ha, h, ho, hroom⟩
    · rintro ⟨ha, -, ho, hroom⟩
      exact ⟨ha, ho, hlast, hroom⟩
  | back =>
    constructor
    · rintro ⟨ha, ho, -⟩
      exact ⟨ha, h, ho, trivial⟩
    · rintro ⟨ha, -, ho, -⟩
      exact ⟨ha, ho, hhead⟩

/-- A push is an update of the map when it is clear. On the lines where only the argument itself
    mentions its name it is an update exactly then; on any line, exactly when what `remove` leaves
    has room for it. -/
theorem push_updates (e : End) (a : strpy.Token) (o : Option strpy.Token) (arg option : Str)
    (harg : strpy.strip arg = a.chars) (hoption : strpy.strip option = optionChars o)
    (hword : ∀ p ∈ o, isOption p = true) (ts : List strpy.Token) :
    ((∃ n, PushClear e n a o ts) → MapUpdate e ⟨flat ' ' ts⟩ arg option a o) ∧
      ∀ (n : ArgName strpy) (c : Char), isPrefixChar c = true → a.chars = c :: n.chars →
        (Unambiguous n ts →
          (MapUpdate e ⟨flat ' ' ts⟩ arg option a o ↔ PushClear e n a o ts)) ∧
        (MapUpdate e ⟨flat ' ' ts⟩ arg option a o ↔
          RoomFor e n a o ((CmdLineArgs.mk (flat ' ' ts)).remove n.chars).arguments) := by
  have hexact : ∀ (n : ArgName strpy) (c : Char), isPrefixChar c = true → a.chars = c :: n.chars →
      Unambiguous n ts → (MapUpdate e ⟨flat ' ' ts⟩ arg option a o ↔ PushClear e n a o ts) := by
    intro n c hpre ha hts
    rw [← roomFor_flat_iff e hts]
    exact mapUpdate_iff_roomFor e hpre ha harg hoption hword (remove_flat hts)
  refine ⟨?_, fun n c hpre ha => ⟨hexact n c hpre ha, ?_⟩⟩
  · rintro ⟨n, hclear⟩
    rcases isArg_iff.mp hclear.1 with ha | ha
    · exact (hexact n '+' rfl ha hclear.2.1).mpr hclear
    · exact (hexact n '-' rfl ha hclear.2.1).mpr hclear
  · exact mapUpdate_iff_roomFor e hpre ha harg hoption hword rfl

/-- `push_front("-foo")` makes `bar` its option; and `push_front("@foo")` puts a second `@foo` in
    front of the first. -/
theorem push_captures_word :
    let foo : asciiStrpy.Token := asciiStrpy.token "-foo".toList (by decide) (by decide)
    let bar : asciiStrpy.Token := asciiStrpy.token "bar".toList (by decide) (by decide)
    (CmdLineArgs.mk "bar".toList).pushFront asciiStrpy "-foo".toList = ⟨"-foo bar".toList⟩ ∧
      (CmdLineArgs.mk "-foo bar".toList).getArgumentOption "-foo".toList = some "bar".toList ∧
      ((CmdLineArgs.mk "@foo".toList).pushFront asciiStrpy "@foo".toList =
        ⟨"@foo @foo".toList⟩) ∧
      ¬ MapUpdate .front ⟨flat ' ' [bar]⟩ "-foo".toList [] foo none := by
  intro foo bar
  refine ⟨by decide +kernel, by decide +kernel, by decide +kernel, fun h => ?_⟩
  have hreads := h.reads
  have hbar :
      (CmdLineArgs.push asciiStrpy .front ⟨flat ' ' [bar]⟩ "-foo".toList []).getArgumentOption
        foo.chars = some "bar".toList := by decide +kernel
  rw [hbar] at hreads
  cases hreads

/-- The tokens of `-game cstrike -condebug +map de_dust2`. -/
def mapLine : List asciiStrpy.Token :=
  asciiStrpy.tokens ["-game".toList, "cstrike".toList, "-condebug".toList, "+map".toList,
    "de_dust2".toList] (by decide)

/-- `push_back("+map", "de_dust2")` on a line that has a map already. -/
theorem push_updates_map :
    MapUpdate .back ⟨flat ' ' mapLine⟩ " +map ".toList "de_dust2".toList
      (asciiStrpy.token "+map".toList (by decide) (by decide))
      (some (asciiStrpy.token "de_dust2".toList (by decide) (by decide))) :=
  (push_updates .back (asciiStrpy.token "+map".toList (by decide) (by decide))
    (some (asciiStrpy.token "de_dust2".toList (by decide) (by decide))) " +map ".toList
    "de_dust2".toList (by decide +kernel) (by decide +kernel) (by decide +kernel) mapLine).1
    ⟨argName asciiStrpy "map".toList (by decide) (by decide) (by decide), by decide +kernel,
      by decide +kernel, by decide +kernel, trivial⟩

end RehldsM.Core
