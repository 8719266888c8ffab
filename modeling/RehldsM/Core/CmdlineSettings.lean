import RehldsM.Core.CmdlineProcessor
import RehldsM.Core.CmdlinePush

/-
  `CmdLineArgs` as a map from names to options, on lines that consist of arguments with one
  option at most.

  A `Setting` is an argument with its option, and the line of the settings `ss` is
  `flat ' ' (settingTokens ss)`. `remove` filters the settings, `push_front` and `push_back` put
  one at an end of what is left, and no option comes to stand behind another argument. So after
  any edits a name reads what the last edit of it has written, and no other edit matters
  (`edits_write_map`), as long as no word mentions a name without being its argument.
-/

namespace RehldsM.Core

open Lib Util

variable {strpy : Strpy}

/-- An argument, and the word behind it if there is one. -/
structure Setting (strpy : Strpy) where
  name : ArgName strpy
  arg : strpy.Token
  option : Option strpy.Token
  isArg_arg : isArg name arg = true
  isOption_option : ∀ o ∈ option, isOption o = true

def Setting.tokens (s : Setting strpy) : List strpy.Token := s.arg :: s.option.toList

def settingTokens (ss : List (Setting strpy)) : List strpy.Token := ss.flatMap Setting.tokens

/-- The option of the last setting of this name, if there is a setting. -/
def settingOf (n : ArgName strpy) (ss : List (Setting strpy)) : Option (Option strpy.Token) :=
  (ss.filter (·.name.chars = n.chars)).getLast?.map Setting.option

/-- A call that changes the line: `remove` with any of the spellings, `push_front` or `push_back`
    with a setting, which may have white space around it. -/
inductive Edit (strpy : Strpy) where
  | remove (n : ArgName strpy) (arg : Str) (spelling : IsSpelling n arg)
  | push (e : End) (s : Setting strpy) (arg option : Str)
      (strip_arg : strpy.strip arg = s.arg.chars)
      (strip_option : strpy.strip option = optionChars s.option)

namespace Edit

def name : Edit strpy → ArgName strpy
  | .remove n _ _ => n
  | .push _ s _ _ _ _ => s.name

/-- The tokens that the edit puts in. -/
def tokens : Edit strpy → List strpy.Token
  | .remove _ _ _ => []
  | .push _ s _ _ _ _ => s.tokens

/-- The edit of the code. -/
def apply (args : CmdLineArgs) : Edit strpy → CmdLineArgs
  | .remove _ arg _ => args.remove arg
  | .push e _ arg option _ _ => args.push strpy e arg option

/-- The edit of the settings. -/
def update (ss : List (Setting strpy)) : Edit strpy → List (Setting strpy)
  | .remove n _ _ => ss.filter (·.name.chars ≠ n.chars)
  | .push .front s _ _ _ _ => s :: ss.filter (·.name.chars ≠ s.name.chars)
  | .push .back s _ _ _ _ => ss.filter (·.name.chars ≠ s.name.chars) ++ [s]

/-- What the name `n` stands for after the edit. -/
def write (n : ArgName strpy) (value : Option (Option strpy.Token)) :
    Edit strpy → Option (Option strpy.Token)
  | .remove m _ _ => if m.chars = n.chars then none else value
  | .push _ s _ _ _ _ => if s.name.chars = n.chars then some s.option else value

end Edit

/-- Words in which a name of the edits, or `n`, occurs are its argument. -/
def ClearEdits (n : ArgName strpy) (ss : List (Setting strpy)) (edits : List (Edit strpy)) :
    Prop :=
  ∀ m ∈ n :: edits.map Edit.name, Unambiguous m (settingTokens ss ++ edits.flatMap Edit.tokens)

instance (n : ArgName strpy) (ss : List (Setting strpy)) (edits : List (Edit strpy)) :
    Decidable (ClearEdits n ss edits) :=
  inferInstanceAs (Decidable (∀ m ∈ _, Unambiguous m _))

section settings

variable {n : ArgName strpy} {ss : List (Setting strpy)} {edit : Edit strpy}
  {edits : List (Edit strpy)}

/-! ## Taking a name out -/

theorem isArg_setting (s : Setting strpy) (n : ArgName strpy) :
    isArg n s.arg = decide (s.name.chars = n.chars) := by
  by_cases hname : s.name.chars = n.chars
  · rw [decide_eq_true hname, isArg, ← hname]
    exact s.isArg_arg
  · rw [decide_eq_false hname]
    exact isArg_of_ne (fun heq => hname heq.symm) s.isArg_arg

theorem isArg_settingOption (s : Setting strpy) (n : ArgName strpy) :
    ∀ o ∈ s.option.toList, isArg n o = false := by
  intro o ho
  exact isArg_of_isOption (s.isOption_option o (Option.mem_toList.mp ho))

/-- The line begins with an argument. -/
theorem startsOption_settingTokens (ss : List (Setting strpy)) :
    startsOption (settingTokens ss) = false := by
  cases ss with
  | nil => rfl
  | cons s ss =>
    show isOption s.arg = false
    by_contra hcon
    have hnot := isArg_of_isOption (n := s.name) (by simpa using hcon)
    exact absurd (hnot.symm.trans s.isArg_arg) (by simp)

/-- `dropArg` takes out whole settings. -/
theorem dropArg_settingTokens (n : ArgName strpy) (ss : List (Setting strpy)) :
    dropArg n (settingTokens ss) = settingTokens (ss.filter (·.name.chars ≠ n.chars)) := by
  induction ss with
  | nil => rfl
  | cons s ss ih =>
    have hsplit : settingTokens (s :: ss) = s.arg :: (s.option.toList ++ settingTokens ss) := rfl
    have hrest := dropArg_append (isArg_settingOption s n) (settingTokens ss)
    rw [hsplit, dropArg, hrest, isArg_setting, ih]
    by_cases hname : s.name.chars = n.chars
    · have hfilter : (s :: ss).filter (·.name.chars ≠ n.chars) =
          ss.filter (·.name.chars ≠ n.chars) := List.filter_cons_of_neg (by simpa using hname)
      rw [if_pos (by simpa using hname), hfilter]
      cases hoption : s.option with
      | none => exact dropOption_of_not_startsOption (startsOption_settingTokens _)
      | some o =>
        have ho : isOption o = true := s.isOption_option o hoption
        simp [dropOption, ho]
    · have hfilter : (s :: ss).filter (·.name.chars ≠ n.chars) =
          s :: ss.filter (·.name.chars ≠ n.chars) := List.filter_cons_of_pos (by simpa using hname)
      rw [if_neg (by simpa using hname), hfilter]
      rfl

/-! ## One edit -/

theorem settingTokens_append (ss ss' : List (Setting strpy)) :
    settingTokens (ss ++ ss') = settingTokens ss ++ settingTokens ss' := List.flatMap_append

theorem settingTokens_filter_subset (p : Setting strpy → Bool) (ss : List (Setting strpy)) :
    settingTokens (ss.filter p) ⊆ settingTokens ss := by
  intro t ht
  obtain ⟨s, hs, hmem⟩ := List.mem_flatMap.mp ht
  exact List.mem_flatMap.mpr ⟨s, (List.mem_filter.mp hs).1, hmem⟩

/-- The code changes the line as the settings are changed. -/
theorem apply_update (h : Unambiguous edit.name (settingTokens ss)) :
    edit.apply ⟨flat ' ' (settingTokens ss)⟩ = ⟨flat ' ' (settingTokens (edit.update ss))⟩ := by
  cases edit with
  | remove m arg spelling =>
    have hremove : (CmdLineArgs.mk (flat ' ' (settingTokens ss))).remove m.chars =
        ⟨flat ' ' (dropArg m (settingTokens ss))⟩ := remove_flat h
    show (CmdLineArgs.mk _).remove arg = _
    rw [remove_spelling spelling, hremove, dropArg_settingTokens]
    rfl
  | push e s arg option harg hoption =>
    have hremove : (CmdLineArgs.mk (flat ' ' (settingTokens ss))).remove s.arg.chars =
        ⟨flat ' ' (dropArg s.name (settingTokens ss))⟩ := remove_flat_of_isArg s.isArg_arg h
    rw [dropArg_settingTokens] at hremove
    have hvalid := isValidArgument_of_isArg s.isArg_arg
    cases e with
    | front => exact pushFront_of_remove harg hvalid hoption hremove
    | back =>
      have hpush := pushBack_of_remove harg hvalid hoption hremove
      have hlast : settingTokens [s] = s.arg :: s.option.toList := List.flatMap_singleton _ _
      rw [← hlast, ← settingTokens_append] at hpush
      exact hpush

/-- No words come in but those of the edit. -/
theorem update_subset (edit : Edit strpy) (ss : List (Setting strpy)) :
    settingTokens (edit.update ss) ⊆ settingTokens ss ++ edit.tokens := by
  have hfilter : ∀ n : ArgName strpy, ∀ t ∈ settingTokens (ss.filter (·.name.chars ≠ n.chars)),
      t ∈ settingTokens ss := fun n => settingTokens_filter_subset _ ss
  intro t ht
  rw [List.mem_append]
  cases edit with
  | remove m arg spelling => exact Or.inl (hfilter m t ht)
  | push e s arg option harg hoption =>
    cases e with
    | front =>
      rcases List.mem_append.mp (ht : t ∈ s.tokens ++ _) with ht | ht
      · exact Or.inr ht
      · exact Or.inl (hfilter s.name t ht)
    | back =>
      rw [Edit.update, settingTokens_append] at ht
      rcases List.mem_append.mp ht with ht | ht
      · exact Or.inl (hfilter s.name t ht)
      · exact Or.inr (by rwa [settingTokens, List.flatMap_singleton] at ht)

theorem settingOf_append (n : ArgName strpy) (ss ss' : List (Setting strpy)) :
    settingOf n (ss ++ ss') = (settingOf n ss').or (settingOf n ss) := by
  unfold settingOf
  rw [List.filter_append, List.getLast?_append]
  cases (ss'.filter (·.name.chars = n.chars)).getLast? <;> rfl

theorem settingOf_singleton (n : ArgName strpy) (s : Setting strpy) :
    settingOf n [s] = if s.name.chars = n.chars then some s.option else none := by
  unfold settingOf
  by_cases hname : s.name.chars = n.chars <;> simp [hname]

theorem settingOf_filter (n m : ArgName strpy) (ss : List (Setting strpy)) :
    settingOf n (ss.filter (·.name.chars ≠ m.chars)) =
      if m.chars = n.chars then none else settingOf n ss := by
  unfold settingOf
  rw [List.filter_filter]
  by_cases hname : m.chars = n.chars
  · rw [if_pos hname, hname]
    simp
  · have hsame : ss.filter (fun s => decide (s.name.chars = n.chars) &&
        decide (s.name.chars ≠ m.chars)) = ss.filter (·.name.chars = n.chars) := by
      apply List.filter_congr
      intro s _
      by_cases hs : s.name.chars = n.chars
      · have hne : n.chars ≠ m.chars := fun heq => hname heq.symm
        simp [hs, hne]
      · simp [hs]
    rw [if_neg hname, hsame]

/-- The edit writes its own name only. -/
theorem settingOf_update (n : ArgName strpy) (ss : List (Setting strpy)) (edit : Edit strpy) :
    settingOf n (edit.update ss) = edit.write n (settingOf n ss) := by
  cases edit with
  | remove m arg spelling => exact settingOf_filter n m ss
  | push e s arg option harg hoption =>
    cases e with
    | front =>
      show settingOf n ([s] ++ _) = _
      rw [settingOf_append, settingOf_filter, settingOf_singleton, Edit.write]
      by_cases hname : s.name.chars = n.chars <;> simp [hname]
    | back =>
      show settingOf n (_ ++ [s]) = _
      rw [settingOf_append, settingOf_filter, settingOf_singleton, Edit.write]
      by_cases hname : s.name.chars = n.chars <;> simp [hname]

/-! ## Reading -/

theorem behindLast_append_of_not_isArg {us : List strpy.Token}
    (hus : ∀ t ∈ us, isArg n t = false) (ts : List strpy.Token) :
    behindLast n (us ++ ts) = behindLast n ts := by
  induction us with
  | nil => rfl
  | cons u us ih =>
    rw [List.cons_append, behindLast, ih fun t ht => hus t (List.mem_cons_of_mem u ht),
      hus u List.mem_cons_self]
    cases behindLast n ts <;> rfl

theorem optionOf_setting (s : Setting strpy) (ss : List (Setting strpy)) :
    optionOf (s.option.toList ++ settingTokens ss) = s.option := by
  cases hoption : s.option with
  | none =>
    have hstart := startsOption_settingTokens ss
    show optionOf (settingTokens ss) = none
    cases hss : settingTokens ss with
    | nil => rfl
    | cons t ts =>
      rw [hss] at hstart
      have ht : isOption t = false := hstart
      rw [optionOf, ht]
      rfl
  | some o =>
    have ho : isOption o = true := s.isOption_option o hoption
    rw [Option.toList_some, List.singleton_append, optionOf, ho]
    rfl

theorem behindLast_settingTokens (n : ArgName strpy) (ss : List (Setting strpy)) :
    (behindLast n (settingTokens ss)).map optionOf = settingOf n ss := by
  induction ss with
  | nil => rfl
  | cons s ss ih =>
    have hsplit : settingTokens (s :: ss) = s.arg :: (s.option.toList ++ settingTokens ss) := rfl
    have hcons : settingOf n (s :: ss) = (settingOf n ss).or (settingOf n [s]) :=
      settingOf_append n [s] ss
    rw [hsplit, behindLast, behindLast_append_of_not_isArg (isArg_settingOption s n), isArg_setting,
      hcons, ← ih, settingOf_singleton]
    cases behindLast n (settingTokens ss) with
    | some v => rfl
    | none =>
      by_cases hname : s.name.chars = n.chars
      · simp [hname, optionOf_setting]
      · simp [hname]

theorem hasArg_settingTokens (n : ArgName strpy) (ss : List (Setting strpy)) :
    hasArg n (settingTokens ss) = (settingOf n ss).isSome := by
  rw [← behindLast_settingTokens, Option.isSome_map, Bool.eq_iff_iff, Option.isSome_iff_ne_none,
    ne_eq, behindLast_eq_none_iff, hasArg, List.any_eq_true]
  simp

/-- What the two queries say of a line of settings. -/
theorem read_settingTokens {a : Str} (ha : IsSpelling n a)
    (h : Unambiguous n (settingTokens ss)) :
    (CmdLineArgs.mk (flat ' ' (settingTokens ss))).contains a = (settingOf n ss).isSome ∧
      (CmdLineArgs.mk (flat ' ' (settingTokens ss))).getArgumentOption a =
        ((settingOf n ss).bind id).map Word.chars := by
  constructor
  · rw [contains_flat ha h, hasArg_settingTokens]
  · rw [getArgumentOption_flat ha h, readOption, ← behindLast_settingTokens]
    cases behindLast n (settingTokens ss) <;> rfl

/-! ## The run -/

theorem clearEdits_cons (h : ClearEdits n ss (edit :: edits)) :
    ClearEdits n (edit.update ss) edits := by
  intro m hm
  have hclear : Unambiguous m (settingTokens ss ++ (edit :: edits).flatMap Edit.tokens) := by
    apply h
    rcases List.mem_cons.mp hm with rfl | hm
    · exact List.mem_cons_self
    · exact List.mem_cons_of_mem _ (List.mem_cons_of_mem _ hm)
  apply hclear.of_subset
  intro t ht
  rw [List.flatMap_cons, ← List.append_assoc]
  rcases List.mem_append.mp ht with ht | ht
  · exact List.mem_append_left _ (update_subset edit ss ht)
  · exact List.mem_append_right _ ht

theorem apply_run (h : ClearEdits n ss edits) :
    edits.foldl Edit.apply ⟨flat ' ' (settingTokens ss)⟩ =
      ⟨flat ' ' (settingTokens (edits.foldl Edit.update ss))⟩ ∧
      Unambiguous n (settingTokens (edits.foldl Edit.update ss)) := by
  induction edits generalizing ss with
  | nil =>
    have hclear := h n List.mem_cons_self
    rw [List.flatMap_nil, List.append_nil] at hclear
    exact ⟨rfl, hclear⟩
  | cons edit edits ih =>
    have hedit : Unambiguous edit.name (settingTokens ss) := by
      have hmem : edit.name ∈ n :: (edit :: edits).map Edit.name :=
        List.mem_cons_of_mem n List.mem_cons_self
      exact (h edit.name hmem).of_subset (List.subset_append_left _ _)
    rw [List.foldl_cons, List.foldl_cons, apply_update hedit]
    exact ih (clearEdits_cons h)

theorem settingOf_run (n : ArgName strpy) (ss : List (Setting strpy)) (edits : List (Edit strpy)) :
    settingOf n (edits.foldl Edit.update ss) = edits.foldl (Edit.write n) (settingOf n ss) := by
  induction edits generalizing ss with
  | nil => rfl
  | cons edit edits ih =>
    rw [List.foldl_cons, List.foldl_cons, ih, settingOf_update]

end settings

/-- After any edits of a line of settings, the line is that of the edited settings, and a name is
    found and read in it as the last edit of the name has written it, or as in the beginning if
    there was none. -/
theorem edits_write_map (n : ArgName strpy) (ss : List (Setting strpy))
    (edits : List (Edit strpy)) (hclear : ClearEdits n ss edits) {a : Str}
    (ha : IsSpelling n a) :
    let args := edits.foldl Edit.apply ⟨flat ' ' (settingTokens ss)⟩
    let value := edits.foldl (Edit.write n) (settingOf n ss)
    args.arguments = flat ' ' (settingTokens (edits.foldl Edit.update ss)) ∧
      args.contains a = value.isSome ∧
      args.getArgumentOption a = (value.bind id).map Word.chars := by
  obtain ⟨hrun, hclear'⟩ := apply_run hclear
  have hread := read_settingTokens ha hclear'
  rw [settingOf_run] at hread
  dsimp only
  rw [hrun]
  exact ⟨rfl, hread⟩

def mapName : ArgName asciiStrpy :=
  argName asciiStrpy "map".toList (by decide) (by decide) (by decide)

/-- `-game cstrike` -/
def gameSetting : Setting asciiStrpy where
  name := gameName
  arg := asciiStrpy.token "-game".toList (by decide) (by decide)
  option := some (asciiStrpy.token "cstrike".toList (by decide) (by decide))
  isArg_arg := by decide
  isOption_option := by decide

/-- `+map de_dust2` -/
def mapSetting : Setting asciiStrpy where
  name := mapName
  arg := asciiStrpy.token "+map".toList (by decide) (by decide)
  option := some (asciiStrpy.token "de_dust2".toList (by decide) (by decide))
  isArg_arg := by decide
  isOption_option := by decide

/-- `push_back(" +map", "de_dust2")` and `remove("game")` on the line `-game cstrike`. -/
theorem edits_write_map_game :
    let edits := [Edit.push .back mapSetting " +map".toList "de_dust2".toList (by decide +kernel)
        (by decide +kernel), .remove gameName "game".toList (Or.inl rfl)]
    let args := edits.foldl Edit.apply ⟨flat ' ' (settingTokens [gameSetting])⟩
    args.arguments = "+map de_dust2".toList ∧ args.contains "map".toList = true ∧
      args.getArgumentOption "map".toList = some "de_dust2".toList :=
  edits_write_map mapName [gameSetting] _ (by decide +kernel) (Or.inl rfl)

end RehldsM.Core
