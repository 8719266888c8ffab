import RehldsM.Lib.Layout

/-
  Single spacing: a list that is its own words with one separator between neighbours.

  `trim_joined_singleSpaced_iff` is about pieces put together with a separator behind each of them
  and then trimmed. An empty piece leaves its separator, so the result is single-spaced exactly
  when the pieces are and no empty one stands between two others.
-/

namespace RehldsM.Lib

universe u

variable {α : Type u} {sep : α → Bool} {c : α}

/-- The list is its own words with one `c` between neighbours, and nothing around them. -/
def SingleSpaced (sep : α → Bool) (c : α) (s : List α) : Prop := s = flat c (wordsOf sep s)

instance [DecidableEq α] (sep : α → Bool) (c : α) (s : List α) :
    Decidable (SingleSpaced sep c s) :=
  inferInstanceAs (Decidable (s = _))

theorem singleSpaced_flat (hc : sep c = true) (ws : List (Word sep)) :
    SingleSpaced sep c (flat c ws) := by
  rw [SingleSpaced, wordsOf_eq (words_flat hc ws)]

theorem SingleSpaced.exists_flat {s : List α} (h : SingleSpaced sep c s) :
    ∃ ws : List (Word sep), s = flat c ws := ⟨_, h⟩

theorem singleSpaced_nil : SingleSpaced sep c [] := by
  rw [SingleSpaced, wordsOf_eq (words_nil.trans List.map_nil.symm), flat_nil]

theorem singleSpaced_word (hc : sep c = true) (w : Word sep) : SingleSpaced sep c w.chars := by
  have h := singleSpaced_flat hc [w]
  rwa [flat_cons, trail_nil, List.append_nil] at h

/-- A separator in a layout stands between two words. -/
theorem flat_eq_append_sep (hc : sep c = true) {ws : List (Word sep)} {s t : List α}
    (h : flat c ws = s ++ c :: t) :
    ∃ us vs : List (Word sep), us ≠ [] ∧ s = flat c us ∧ t = flat c vs := by
  have htrail : ∀ vs : List (Word sep), trail c vs = c :: t → t = flat c vs := by
    intro vs hvs
    have hdrop := drop_one_trail c vs
    rw [hvs] at hdrop
    exact hdrop
  induction ws generalizing s with
  | nil => exact absurd h.symm (by simp)
  | cons w ws ih =>
    rcases List.append_eq_append_iff.mp (flat_cons c w ws ▸ h) with ⟨a, rfl, ha⟩ | ⟨a, hw, ha⟩
    · cases a with
      | nil => exact ⟨[w], ws, by simp, by simp [flat_cons], htrail ws ha⟩
      | cons d a =>
        have hws : ws ≠ [] := by
          rintro rfl
          exact absurd ha (by simp)
        rw [trail_eq_cons_flat c hws, List.cons_append, List.cons.injEq] at ha
        obtain ⟨rfl, ha⟩ := ha
        obtain ⟨us, vs, hus, rfl, hvs⟩ := ih ha
        exact ⟨w :: us, vs, by simp, by rw [flat_cons, trail_eq_cons_flat _ hus], hvs⟩
    · cases a with
      | nil => exact ⟨[w], ws, by simp, by simpa [flat_cons] using hw.symm, htrail ws ha.symm⟩
      | cons d a =>
        obtain rfl : c = d := (List.cons.inj ha).1
        exact absurd (by rw [hw]; simp) (w.not_mem hc)

theorem singleSpaced_append_sep_iff (hc : sep c = true) {s t : List α} (hs : s ≠ [])
    (ht : t ≠ []) :
    SingleSpaced sep c (s ++ c :: t) ↔ SingleSpaced sep c s ∧ SingleSpaced sep c t := by
  constructor
  · intro h
    obtain ⟨ws, hws⟩ := h.exists_flat
    obtain ⟨us, vs, -, rfl, rfl⟩ := flat_eq_append_sep hc hws.symm
    exact ⟨singleSpaced_flat hc us, singleSpaced_flat hc vs⟩
  · rintro ⟨hs', ht'⟩
    obtain ⟨us, rfl⟩ := hs'.exists_flat
    obtain ⟨vs, rfl⟩ := ht'.exists_flat
    have hus : us ≠ [] := by
      rintro rfl
      exact hs rfl
    have hvs : vs ≠ [] := by
      rintro rfl
      exact ht rfl
    rw [← trail_eq_cons_flat c hvs, ← flat_append c hus]
    exact singleSpaced_flat hc _

theorem not_singleSpaced_sep_cons (hc : sep c = true) (s : List α) :
    ¬ SingleSpaced sep c (c :: s) := by
  intro h
  obtain ⟨ws, hws⟩ := h.exists_flat
  have hhead := flat_head ws (hws ▸ List.cons_ne_nil c s)
  simp only [← hws, List.head_cons, hc] at hhead
  cases hhead

/-! ## Pieces -/

/-- The pieces, each with a separator behind it. -/
def joined (c : α) (ss : List (List α)) : List α := ss.flatMap fun s => s ++ [c]

/-- The same without the separators at the end. -/
def squeezed (c : α) : List (List α) → List α
  | [] => []
  | s :: ss => if ss.all List.isEmpty then s else s ++ c :: squeezed c ss

theorem joined_cons (c : α) (s : List α) (ss : List (List α)) :
    joined c (s :: ss) = s ++ c :: joined c ss := by
  simp [joined]

theorem all_isEmpty_iff {ss : List (List α)} : ss.all List.isEmpty = true ↔ ∀ s ∈ ss, s = [] := by
  simp [List.isEmpty_iff]

theorem joined_of_all_empty (hc : sep c = true) {ss : List (List α)} (h : ∀ s ∈ ss, s = []) :
    ∀ x ∈ joined c ss, sep x = true := by
  intro x hx
  obtain ⟨s, hs, hx⟩ := List.mem_flatMap.mp hx
  rw [h s hs] at hx
  rwa [List.mem_singleton.mp hx]

theorem joined_eq_squeezed_append (hc : sep c = true) (ss : List (List α)) :
    ∃ b, (∀ x ∈ b, sep x = true) ∧ joined c ss = squeezed c ss ++ b := by
  induction ss with
  | nil => exact ⟨[], by simp, rfl⟩
  | cons s ss ih =>
    rw [squeezed, joined_cons]
    split
    · rename_i hall
      refine ⟨c :: joined c ss, List.forall_mem_cons.mpr ⟨hc, ?_⟩, rfl⟩
      exact joined_of_all_empty hc (all_isEmpty_iff.mp hall)
    · obtain ⟨b, hb, hjoined⟩ := ih
      exact ⟨b, hb, by rw [hjoined]; simp⟩

theorem squeezed_eq_nil_iff {ss : List (List α)} : squeezed c ss = [] ↔ ∀ s ∈ ss, s = [] := by
  cases ss with
  | nil => simp [squeezed]
  | cons s ss =>
    rw [squeezed, List.forall_mem_cons]
    split
    · rename_i hall
      exact ⟨fun hs => ⟨hs, all_isEmpty_iff.mp hall⟩, And.left⟩
    · rename_i hall
      rw [all_isEmpty_iff] at hall
      simp [hall]

theorem getLast_squeezed {ss : List (List α)} (h : ∀ s ∈ ss, trim sep s = s) :
    ∀ x ∈ (squeezed c ss).getLast?, sep x = false := by
  induction ss with
  | nil => simp [squeezed]
  | cons s ss ih =>
    obtain ⟨hs, hss⟩ := List.forall_mem_cons.mp h
    intro x hx
    rw [squeezed] at hx
    split at hx
    · rw [← hs] at hx
      exact getLast_trim hx
    · rename_i hall
      have hne : squeezed c ss ≠ [] := fun hnil => hall (all_isEmpty_iff.mpr
        (squeezed_eq_nil_iff.mp hnil))
      rw [List.getLast?_append, List.getLast?_cons_of_ne_nil hne,
        List.getLast?_eq_some_getLast hne, Option.some_or] at hx
      exact ih hss x (by rw [List.getLast?_eq_some_getLast hne]; exact hx)

/-- Trimming takes the separators at the end, when the first piece is not empty. -/
theorem trim_joined_cons (hc : sep c = true) {s : List α} (hs : s ≠ []) {ss : List (List α)}
    (h : ∀ x ∈ s :: ss, trim sep x = x) :
    trim sep (joined c (s :: ss)) = squeezed c (s :: ss) := by
  obtain ⟨b, hb, hjoined⟩ := joined_eq_squeezed_append hc (s :: ss)
  have hhead : ∀ hne : squeezed c (s :: ss) ≠ [],
      sep ((squeezed c (s :: ss)).head hne) = false := by
    intro hne
    have hfirst : s.head hs ∈ (trim sep s).head? := by
      rw [h s List.mem_cons_self]
      exact List.head_mem_head? hs
    have heq : (squeezed c (s :: ss)).head hne = s.head hs := by
      simp only [squeezed]
      split
      · rfl
      · rw [List.head_append_of_ne_nil]
    rw [heq]
    exact head_trim hfirst
  have hlast : ∀ hne : squeezed c (s :: ss) ≠ [],
      sep ((squeezed c (s :: ss)).getLast hne) = false :=
    fun hne => getLast_squeezed h _ (List.getLast_mem_getLast? hne)
  have htrim := trim_surround (a := []) (by simp) hb hhead hlast
  rwa [List.nil_append, ← hjoined] at htrim

/-- Behind an empty piece there are only empty ones. -/
def Tight (ss : List (List α)) : Prop := ∀ u v, ss = u ++ [] :: v → ∀ s ∈ v, s = []

/-- No empty piece stands between two others. -/
def NoEmptyBetween (ss : List (List α)) : Prop :=
  ∀ u v, ss = u ++ [] :: v → (∀ s ∈ u, s = []) ∨ ∀ s ∈ v, s = []

theorem noEmptyBetween_cons_iff {s : List α} (hs : s ≠ []) {ss : List (List α)} :
    NoEmptyBetween (s :: ss) ↔ Tight ss := by
  constructor
  · rintro h u v rfl
    refine (h (s :: u) v rfl).resolve_left fun hall => ?_
    exact hs (hall s List.mem_cons_self)
  · rintro h (_ | ⟨x, u⟩) v heq
    · exact absurd (List.cons.inj heq).1 hs
    · exact Or.inr (h u v (List.cons.inj heq).2)

theorem noEmptyBetween_nil_cons_iff {ss : List (List α)} :
    NoEmptyBetween ([] :: ss) ↔ NoEmptyBetween ss := by
  constructor
  · rintro h u v rfl
    simpa using h ([] :: u) v rfl
  · rintro h (_ | ⟨x, u⟩) v heq
    · exact Or.inl (by simp)
    · obtain rfl : [] = x := (List.cons.inj heq).1
      simpa using h u v (List.cons.inj heq).2

theorem tight_cons_iff {s : List α} (hs : s ≠ []) {ss : List (List α)} :
    Tight (s :: ss) ↔ Tight ss := by
  constructor
  · rintro h u v rfl
    exact h (s :: u) v rfl
  · rintro h (_ | ⟨x, u⟩) v heq
    · exact absurd (List.cons.inj heq).1 hs
    · exact h u v (List.cons.inj heq).2

theorem tight_of_all_empty {ss : List (List α)} (h : ∀ s ∈ ss, s = []) : Tight ss := by
  rintro u v rfl s hs
  exact h s (by simp [hs])

theorem singleSpaced_squeezed_iff (hc : sep c = true) {s : List α} (hs : s ≠ [])
    {ss : List (List α)} :
    SingleSpaced sep c (squeezed c (s :: ss)) ↔
      (∀ x ∈ s :: ss, SingleSpaced sep c x) ∧ Tight ss := by
  induction ss generalizing s with
  | nil => simp [squeezed, Tight]
  | cons x ss ih =>
    rw [squeezed, List.forall_mem_cons]
    by_cases hall : ∀ y ∈ x :: ss, y = []
    · rw [if_pos (all_isEmpty_iff.mpr hall)]
      have hspaced : ∀ y ∈ x :: ss, SingleSpaced sep c y := by
        intro y hy
        rw [hall y hy]
        exact singleSpaced_nil
      exact ⟨fun h => ⟨⟨h, hspaced⟩, tight_of_all_empty hall⟩, fun h => h.1.1⟩
    · rw [if_neg (all_isEmpty_iff.not.mpr hall),
        singleSpaced_append_sep_iff hc hs (squeezed_eq_nil_iff.not.mpr hall)]
      by_cases hx : x = []
      · -- The separator of `s` and that of `x` stand side by side.
        subst hx
        have hrest : ¬ ∀ y ∈ ss, y = [] := fun h => hall (List.forall_mem_cons.mpr ⟨rfl, h⟩)
        rw [squeezed, if_neg (all_isEmpty_iff.not.mpr hrest), List.nil_append]
        refine iff_of_false (fun h => not_singleSpaced_sep_cons hc _ h.2) fun h => ?_
        exact hrest (h.2 [] ss rfl)
      · rw [ih hx, tight_cons_iff hx, and_assoc]

/-- The pieces, trimmed: single-spaced exactly when each of them is and no empty one stands
    between two others. -/
theorem trim_joined_singleSpaced_iff (hc : sep c = true) {ss : List (List α)}
    (h : ∀ s ∈ ss, trim sep s = s) :
    SingleSpaced sep c (trim sep (joined c ss)) ↔
      (∀ s ∈ ss, SingleSpaced sep c s) ∧ NoEmptyBetween ss := by
  induction ss with
  | nil =>
    have hnil : SingleSpaced sep c (trim sep (joined c [])) := singleSpaced_nil
    exact iff_of_true hnil ⟨by simp, by rintro u v heq; simp at heq⟩
  | cons s ss ih =>
    by_cases hs : s = []
    · subst hs
      have htrim : trim sep (joined c ([] :: ss)) = trim sep (joined c ss) := by
        rw [joined_cons, List.nil_append, trim, List.dropWhile_cons_of_pos hc]
        rfl
      rw [htrim, ih (List.forall_mem_cons.mp h).2, noEmptyBetween_nil_cons_iff,
        List.forall_mem_cons]
      exact and_congr_left' ⟨fun hss => ⟨singleSpaced_nil, hss⟩, And.right⟩
    · rw [trim_joined_cons hc hs h, singleSpaced_squeezed_iff hc hs, noEmptyBetween_cons_iff hs]

theorem noEmptyBetween_filterMap_iff {β : Type*} (f : β → Option (List α)) (l : List β) :
    NoEmptyBetween (l.filterMap f) ↔ ∀ u x v, l = u ++ x :: v → f x = some [] →
      (∀ y ∈ u, ∀ s ∈ f y, s = []) ∨ ∀ y ∈ v, ∀ s ∈ f y, s = [] := by
  have hempty : ∀ l' : List β, (∀ s ∈ l'.filterMap f, s = []) ↔ ∀ y ∈ l', ∀ s ∈ f y, s = [] := by
    intro l'
    constructor
    · exact fun h y hy s hs => h s (List.mem_filterMap.mpr ⟨y, hy, hs⟩)
    · intro h s hs
      obtain ⟨y, hy, hys⟩ := List.mem_filterMap.mp hs
      exact h y hy s hys
  constructor
  · rintro h u x v rfl hx
    rw [← hempty u, ← hempty v]
    exact h _ _ (by rw [List.filterMap_append, List.filterMap_cons_some hx])
  · intro h u v heq
    obtain ⟨a, b, rfl, rfl, hb⟩ := List.filterMap_eq_append_iff.mp heq
    obtain ⟨b, x, v', rfl, hnone, hx, rfl⟩ := List.filterMap_eq_cons_iff.mp hb
    have hcut := h (a ++ b) x v' (by rw [List.append_assoc]) hx
    rw [hempty a, hempty v']
    exact hcut.imp_left fun hall y hy => hall y (by simp [hy])

end RehldsM.Lib
