import RehldsM.Core.CmdlineLookup

/-
  Removing and pushing arguments, on tokens.

  `remove` erases a number of characters counted from a search hit. On unambiguous tokens the
  hit is a whole token and the count covers it, its option and one separator each
  (`removeAt_last`), so the loop computes `dropArg` (`remove_flat`). `push_front` and
  `push_back` then put the argument in front of, or behind, what is left.
-/

namespace RehldsM.Core

open Lib Util

variable {strpy : Strpy}

/-! ## `dropArg` -/

theorem dropOption_sublist (ts : List strpy.Token) : (dropOption ts).Sublist ts := by
  cases ts with
  | nil => exact List.Sublist.refl _
  | cons o ts =>
    by_cases ho : isOption o = true
    · simp [dropOption, ho]
    · simp [dropOption, ho]

theorem dropArg_sublist (n : ArgName strpy) (ts : List strpy.Token) :
    (dropArg n ts).Sublist ts := by
  induction ts with
  | nil => exact List.Sublist.refl _
  | cons t ts ih =>
    by_cases ht : isArg n t = true
    · simp only [dropArg, ht, if_true]
      exact ((dropOption_sublist _).trans ih).cons t
    · simpa [dropArg, ht] using ih

theorem not_isArg_of_mem_dropArg {n : ArgName strpy} {ts : List strpy.Token} :
    ∀ x ∈ dropArg n ts, isArg n x = false := by
  induction ts with
  | nil => simp [dropArg]
  | cons t ts ih =>
    intro x hx
    by_cases ht : isArg n t = true
    · simp only [dropArg, ht, if_true] at hx
      exact ih x ((dropOption_sublist _).subset hx)
    · simp only [dropArg, ht, if_false, List.mem_cons, Bool.false_eq_true] at hx
      rcases hx with rfl | hx
      · simpa using ht
      · exact ih x hx

theorem dropArg_eq_self {n : ArgName strpy} {ts : List strpy.Token}
    (h : ∀ t ∈ ts, isArg n t = false) : dropArg n ts = ts := by
  induction ts with
  | nil => rfl
  | cons t ts ih =>
    rw [dropArg, h t (by simp), ih fun x hx => h x (by simp [hx])]
    simp

theorem dropArg_append {n : ArgName strpy} {ts : List strpy.Token}
    (h : ∀ t ∈ ts, isArg n t = false) (us : List strpy.Token) :
    dropArg n (ts ++ us) = ts ++ dropArg n us := by
  induction ts with
  | nil => rfl
  | cons t ts ih =>
    have ht := h t (by simp)
    simp [dropArg, ht, ih fun x hx => h x (by simp [hx])]

/-- A removal in front of an argument does not reach past it. -/
theorem dropArg_append_arg {n : ArgName strpy} (ts : List strpy.Token) {t : strpy.Token}
    (hopt : isOption t = false) (ht : isArg n t = false) (us : List strpy.Token) :
    dropArg n (ts ++ t :: us) = dropArg n ts ++ t :: dropArg n us := by
  induction ts with
  | nil => simp [dropArg, ht]
  | cons x ts ih =>
    by_cases hx : isArg n x = true
    · cases hd : dropArg n ts with
      | nil => simp [dropArg, hx, ih, hd, dropOption, hopt]
      | cons o ds =>
        by_cases ho : isOption o = true
        · simp [dropArg, hx, ih, hd, dropOption, ho]
        · simp [dropArg, hx, ih, hd, dropOption, ho]
    · simp [dropArg, hx, ih]

theorem Unambiguous.of_subset {n : ArgName strpy} {ts us : List strpy.Token}
    (h : Unambiguous n ts) (hsub : us ⊆ ts) : Unambiguous n us :=
  fun t ht => h t (hsub ht)

theorem Unambiguous.tail {n : ArgName strpy} {t : strpy.Token} {ts : List strpy.Token}
    (h : Unambiguous n (t :: ts)) : Unambiguous n ts :=
  h.of_subset (List.subset_cons_self t ts)

theorem not_mentions_dropArg {n : ArgName strpy} {ts : List strpy.Token} (h : Unambiguous n ts) :
    ∀ x ∈ dropArg n ts, ¬ Mentions n x.chars := by
  intro x hx hm
  have harg := h x ((dropArg_sublist n ts).subset hx) hm
  rw [not_isArg_of_mem_dropArg x hx] at harg
  exact absurd harg (by simp)

/-! ## One turn of the loop -/

/-- The text `remove` counts, from a whole token to the end of its option. -/
theorem numCharsToRemove_last {n : ArgName strpy} (u : Str) {t : strpy.Token}
    (ht : isArg n t = true) (v : List strpy.Token) :
    ∃ x : Str, trail ' ' v = x ++ trail ' ' (dropOption v) ∧
      (CmdLineArgs.mk (u ++ (t.chars ++ trail ' ' v))).numCharsToRemove n.chars u.length =
        (t.chars ++ x).length + 1 := by
  have hlen := length_of_isArg ht
  unfold CmdLineArgs.numCharsToRemove
  rw [getArgumentOptionAt_last (Or.inl rfl : IsSpelling n n.chars) u ht v]
  cases v with
  | nil => exact ⟨[], rfl, by simp [optionOf, hlen]; omega⟩
  | cons o v =>
    by_cases ho : isOption o = true
    · exact ⟨' ' :: o.chars, by simp [dropOption, ho], by simp [optionOf, ho, hlen]; omega⟩
    · exact ⟨[], by simp [dropOption, ho], by simp [optionOf, ho, hlen]; omega⟩

/-- A turn of the loop at a whole token takes out the token and its option, with one separator
    each, and leaves the other tokens as they are. -/
theorem removeAt_last {n : ArgName strpy} (u : List strpy.Token) {t : strpy.Token}
    (ht : isArg n t = true) (v : List strpy.Token) :
    (CmdLineArgs.mk (flat ' ' (u ++ t :: v))).removeAt n.chars (lead ' ' u).length =
      ⟨flat ' ' (u ++ dropOption v)⟩ := by
  obtain ⟨x, hx, hnum⟩ := numCharsToRemove_last (lead ' ' u) ht v
  have hflat : flat ' ' (u ++ t :: v) = lead ' ' u ++ (t.chars ++ trail ' ' v) := by
    rw [flat_append_cons, flat_cons]
  unfold CmdLineArgs.removeAt
  dsimp only
  rw [hflat, hnum, hx]
  by_cases hu : u = []
  · subst hu
    have hdrop : (t.chars ++ (x ++ trail ' ' (dropOption v))).drop ((t.chars ++ x).length + 1) =
        flat ' ' (dropOption v) := by
      rw [← List.append_assoc, ← List.drop_drop, List.drop_left, drop_one_trail]
    simpa using hdrop
  · -- The separator in front of the token goes, the one behind stays.
    have hlead := lead_eq_flat_concat ' ' hu
    have hpos : (lead ' ' u).length > 0 := by simp [hlead]
    have hminus : (lead ' ' u).length - 1 = (flat ' ' u).length := by simp [hlead]
    have hsplit : lead ' ' u ++ (t.chars ++ (x ++ trail ' ' (dropOption v))) =
        flat ' ' u ++ ((' ' :: (t.chars ++ x)) ++ trail ' ' (dropOption v)) := by
      simp [hlead]
    have hcount : (t.chars ++ x).length + 1 = (' ' :: (t.chars ++ x)).length := rfl
    rw [if_pos hpos, hminus, hsplit, List.take_left, ← List.drop_drop, List.drop_left, hcount,
      List.drop_left, flat_append ' ' hu]

/-! ## The whole loop -/

/-- The loop may treat the tokens behind `u` first; nothing is asked of `u` itself. -/
theorem remove_behind {n : ArgName strpy} (u : List strpy.Token) {ts : List strpy.Token}
    (h : Unambiguous n ts) :
    (CmdLineArgs.mk (flat ' ' (u ++ ts))).remove n.chars =
      (CmdLineArgs.mk (flat ' ' (u ++ dropArg n ts))).remove n.chars := by
  induction ts generalizing u with
  | nil => rfl
  | cons t ts ih =>
    have hstep := ih (u ++ [t]) h.tail
    simp only [List.append_assoc, List.singleton_append] at hstep
    rw [hstep]
    by_cases ht : isArg n t = true
    · have hpos := findArgumentPos_last (lead ' ' u) ht (dropArg n ts)
        (not_mentions_dropArg h.tail)
      have hflat : flat ' ' (u ++ t :: dropArg n ts) =
          lead ' ' u ++ (t.chars ++ trail ' ' (dropArg n ts)) := by
        rw [flat_append_cons, flat_cons]
      rw [← hflat] at hpos
      rw [remove_turn hpos, removeAt_last u ht]
      simp [dropArg, ht]
    · simp [dropArg, ht]

/-- On unambiguous tokens `remove` is `dropArg`. -/
theorem remove_flat {n : ArgName strpy} {ts : List strpy.Token} (h : Unambiguous n ts) :
    (CmdLineArgs.mk (flat ' ' ts)).remove n.chars = ⟨flat ' ' (dropArg n ts)⟩ := by
  have hstep := remove_behind [] h
  rw [List.nil_append, List.nil_append] at hstep
  rw [hstep]
  apply remove_of_not_mentions
  rw [mentions_flat_iff]
  rintro ⟨t, ht, hm⟩
  exact not_mentions_dropArg h t ht hm

/-! ## Pushing -/

theorem strip_token (t : strpy.Token) : strpy.strip t.chars = t.chars := by
  have h := trim_flat ' ' [t]
  simpa [strpy.strip_eq, flat_cons] using h

theorem isValidArgument_of_isArg {n : ArgName strpy} {a : strpy.Token} (ha : isArg n a = true) :
    isValidArgument a.chars = true := by
  have hlen := length_of_isArg ha
  have hn := List.length_pos_of_ne_nil n.ne_nil
  rcases isArg_iff.mp ha with h | h
  · rw [h] at hlen ⊢
    simp [isValidArgument, isPrefixChar, hn]
  · rw [h] at hlen ⊢
    simp [isValidArgument, isPrefixChar, hn]

theorem isSpelling_of_isArg {n : ArgName strpy} {a : strpy.Token} (ha : isArg n a = true) :
    IsSpelling n a.chars := by
  rcases isArg_iff.mp ha with h | h
  · exact Or.inr (Or.inl h)
  · exact Or.inr (Or.inr h)

/-- The text of an optional option. -/
def optionChars (o : Option strpy.Token) : Str := (o.map Word.chars).getD []

theorem strip_optionChars (o : Option strpy.Token) :
    strpy.strip (optionChars o) = optionChars o := by
  cases o with
  | none => exact strpy.strip_eq []
  | some o => exact strip_token o

theorem flat_argument (a : strpy.Token) (o : Option strpy.Token) :
    flat ' ' (a :: o.toList) =
      if (optionChars o).isEmpty then a.chars else a.chars ++ ' ' :: optionChars o := by
  cases o with
  | none => simp [optionChars, flat_cons]
  | some o => simp [optionChars, flat_cons, o.ne_nil]

section push

variable {arg option left : Str} {a : strpy.Token} {o : Option strpy.Token} {args : CmdLineArgs}

/-- `push_front` puts the argument in front of what `remove` leaves. -/
theorem pushFront_eq (harg : strpy.strip arg = a.chars) (hvalid : isValidArgument a.chars = true)
    (hoption : strpy.strip option = optionChars o) (h : args.remove a.chars = ⟨left⟩) :
    args.pushFront strpy arg option =
      ⟨strpy.strip (flat ' ' (a :: o.toList) ++ ' ' :: left)⟩ := by
  unfold CmdLineArgs.pushFront
  dsimp only
  rw [harg, hvalid, h, hoption, flat_argument a o]
  simp only [Bool.not_true, Bool.false_eq_true, if_false]
  by_cases hopt : (optionChars o).isEmpty = true
  · simp [hopt]
  · simp [hopt]

/-- `push_back` puts it behind. -/
theorem pushBack_eq (harg : strpy.strip arg = a.chars) (hvalid : isValidArgument a.chars = true)
    (hoption : strpy.strip option = optionChars o) (h : args.remove a.chars = ⟨left⟩) :
    args.pushBack strpy arg option =
      ⟨strpy.strip (left ++ ' ' :: flat ' ' (a :: o.toList))⟩ := by
  unfold CmdLineArgs.pushBack
  dsimp only
  rw [harg, hvalid, h, hoption, flat_argument a o]
  simp only [Bool.not_true, Bool.false_eq_true, if_false]
  by_cases hopt : (optionChars o).isEmpty = true
  · simp [hopt]
  · simp [hopt]

theorem pushFront_of_remove (harg : strpy.strip arg = a.chars)
    (hvalid : isValidArgument a.chars = true) (hoption : strpy.strip option = optionChars o)
    {ts : List strpy.Token} (h : args.remove a.chars = ⟨flat ' ' ts⟩) :
    args.pushFront strpy arg option = ⟨flat ' ' (a :: o.toList ++ ts)⟩ := by
  rw [pushFront_eq harg hvalid hoption h, strpy.strip_eq,
    trim_flat_sep_flat strpy.isSpace_space (a :: o.toList) ts]

theorem pushBack_of_remove (harg : strpy.strip arg = a.chars)
    (hvalid : isValidArgument a.chars = true) (hoption : strpy.strip option = optionChars o)
    {ts : List strpy.Token} (h : args.remove a.chars = ⟨flat ' ' ts⟩) :
    args.pushBack strpy arg option = ⟨flat ' ' (ts ++ a :: o.toList)⟩ := by
  rw [pushBack_eq harg hvalid hoption h, strpy.strip_eq,
    trim_flat_sep_flat strpy.isSpace_space ts (a :: o.toList)]

end push

theorem remove_flat_of_isArg {n : ArgName strpy} {a : strpy.Token} (ha : isArg n a = true)
    {ts : List strpy.Token} (h : Unambiguous n ts) :
    (CmdLineArgs.mk (flat ' ' ts)).remove a.chars = ⟨flat ' ' (dropArg n ts)⟩ := by
  rw [remove_spelling (isSpelling_of_isArg ha), remove_flat h]

/-- `push_front` on tokens. -/
theorem pushFront_flat {n : ArgName strpy} {a : strpy.Token} (ha : isArg n a = true)
    (o : Option strpy.Token) {ts : List strpy.Token} (h : Unambiguous n ts) :
    (CmdLineArgs.mk (flat ' ' ts)).pushFront strpy a.chars (optionChars o) =
      ⟨flat ' ' (a :: o.toList ++ dropArg n ts)⟩ :=
  pushFront_of_remove (strip_token a) (isValidArgument_of_isArg ha) (strip_optionChars o)
    (remove_flat_of_isArg ha h)

/-- `push_back` on tokens. -/
theorem pushBack_flat {n : ArgName strpy} {a : strpy.Token} (ha : isArg n a = true)
    (o : Option strpy.Token) {ts : List strpy.Token} (h : Unambiguous n ts) :
    (CmdLineArgs.mk (flat ' ' ts)).pushBack strpy a.chars (optionChars o) =
      ⟨flat ' ' (dropArg n ts ++ a :: o.toList)⟩ :=
  pushBack_of_remove (strip_token a) (isValidArgument_of_isArg ha) (strip_optionChars o)
    (remove_flat_of_isArg ha h)

end RehldsM.Core
