import Mathlib.Data.List.DropRight
import Mathlib.Tactic.ByContra

/-
  Lists cut at separators: the maximal runs of non-separators (`words`), trimming, and the
  converse direction, a list of words laid out with one separator between neighbours
  (`flat`).

  A `Word` carries the two facts that make the layout reversible: it is not empty and holds
  no separator. So `words_flat` needs no side condition on the words, and a pattern
  without separators occurs in a layout exactly when it occurs in one of its words
  (`infix_flat_iff`).
-/

namespace RehldsM.Lib

universe u

variable {α : Type u} {sep : α → Bool}

/-- The maximal runs of elements that are not separators. -/
def words (sep : α → Bool) (s : List α) : List (List α) :=
  (s.splitOnP sep).filter fun w => !w.isEmpty

/-- `s` without the separators at its two ends. -/
def trim (sep : α → Bool) (s : List α) : List α :=
  (s.dropWhile sep).rdropWhile sep

/-- A non-empty list without separators. -/
structure Word (sep : α → Bool) where
  chars : List α
  ne_nil : chars ≠ []
  no_sep : ∀ x ∈ chars, sep x = false
deriving DecidableEq

theorem Word.ext {v w : Word sep} (h : v.chars = w.chars) : v = w := by
  cases v
  cases w
  simpa using h

theorem Word.not_mem (w : Word sep) {c : α} (hc : sep c = true) : c ∉ w.chars := by
  intro h
  have := w.no_sep c h
  simp [hc] at this

/-- Each word with a separator before it. -/
def trail (c : α) (ws : List (Word sep)) : List α :=
  ws.flatMap fun w => c :: w.chars

/-- Each word with a separator behind it. -/
def lead (c : α) (ws : List (Word sep)) : List α :=
  ws.flatMap fun w => w.chars ++ [c]

/-- The words with one separator between neighbours. -/
def flat (c : α) : List (Word sep) → List α
  | [] => []
  | w :: ws => w.chars ++ trail c ws

/-- A property of every way to cut a list at one of its elements can be checked by index. -/
theorem forall_cut_iff {P : List α → α → List α → Prop} (s : List α) :
    (∀ u x v, s = u ++ x :: v → P u x v) ↔
      ∀ i : Fin s.length, P (s.take i) (s.get i) (s.drop (i + 1)) := by
  constructor
  · intro h i
    refine h _ _ _ ?_
    rw [List.get_eq_getElem, ← List.drop_eq_getElem_cons i.isLt, List.take_append_drop]
  · rintro h u x v rfl
    simpa using h ⟨u.length, by simp⟩

theorem exists_last {p : α → Prop} {s : List α} (h : ∃ x ∈ s, p x) :
    ∃ u x v, s = u ++ x :: v ∧ p x ∧ ∀ y ∈ v, ¬ p y := by
  induction s with
  | nil => simp at h
  | cons c s ih =>
    by_cases hs : ∃ x ∈ s, p x
    · obtain ⟨u, x, v, rfl, hx, hv⟩ := ih hs
      exact ⟨c :: u, x, v, rfl, hx, hv⟩
    · have hbehind : ∀ x ∈ s, ¬ p x := fun x hx hp => hs ⟨x, hx, hp⟩
      obtain ⟨x, hmem, hx⟩ := h
      rcases List.mem_cons.mp hmem with rfl | hmem
      · exact ⟨[], x, s, rfl, hx, hbehind⟩
      · exact absurd hx (hbehind x hmem)

@[simp] theorem trail_nil (c : α) : trail c ([] : List (Word sep)) = [] := rfl

@[simp] theorem trail_cons (c : α) (w : Word sep) (ws : List (Word sep)) :
    trail c (w :: ws) = c :: (w.chars ++ trail c ws) := rfl

@[simp] theorem lead_nil (c : α) : lead c ([] : List (Word sep)) = [] := rfl

theorem lead_cons (c : α) (w : Word sep) (ws : List (Word sep)) :
    lead c (w :: ws) = w.chars ++ c :: lead c ws := by
  simp [lead]

@[simp] theorem flat_nil (c : α) : flat c ([] : List (Word sep)) = [] := rfl

theorem flat_cons (c : α) (w : Word sep) (ws : List (Word sep)) :
    flat c (w :: ws) = w.chars ++ trail c ws := rfl

theorem trail_append (c : α) (ws vs : List (Word sep)) :
    trail c (ws ++ vs) = trail c ws ++ trail c vs := by
  simp [trail]

/-- Moving the separators from the front of each word to its back. -/
theorem trail_cons_eq_lead (c : α) (ws : List (Word sep)) :
    trail c ws ++ [c] = c :: lead c ws := by
  induction ws with
  | nil => rfl
  | cons w ws ih =>
    rw [trail_cons, List.cons_append, List.append_assoc, ih, lead_cons]

theorem flat_append_cons (c : α) (ws : List (Word sep)) (w : Word sep) (vs : List (Word sep)) :
    flat c (ws ++ w :: vs) = lead c ws ++ flat c (w :: vs) := by
  cases ws with
  | nil => simp
  | cons v ws =>
    have h := trail_cons_eq_lead c ws
    rw [List.cons_append, flat_cons, trail_append, trail_cons, lead_cons, flat_cons]
    calc v.chars ++ (trail c ws ++ c :: (w.chars ++ trail c vs))
        = v.chars ++ ((trail c ws ++ [c]) ++ (w.chars ++ trail c vs)) := by simp
      _ = v.chars ++ (c :: lead c ws) ++ (w.chars ++ trail c vs) := by rw [h, List.append_assoc]
      _ = v.chars ++ c :: lead c ws ++ (w.chars ++ trail c vs) := rfl

theorem flat_append (c : α) {ws vs : List (Word sep)} (hws : ws ≠ []) :
    flat c (ws ++ vs) = flat c ws ++ trail c vs := by
  obtain ⟨w, ws', rfl⟩ := List.exists_cons_of_ne_nil hws
  rw [List.cons_append, flat_cons, flat_cons, trail_append, List.append_assoc]

theorem drop_one_trail (c : α) (ws : List (Word sep)) : (trail c ws).drop 1 = flat c ws := by
  cases ws with
  | nil => rfl
  | cons w ws => rfl

theorem trail_eq_cons_flat (c : α) {ws : List (Word sep)} (hws : ws ≠ []) :
    trail c ws = c :: flat c ws := by
  obtain ⟨w, ws', rfl⟩ := List.exists_cons_of_ne_nil hws
  rfl

theorem lead_eq_flat_concat (c : α) {ws : List (Word sep)} (hws : ws ≠ []) :
    lead c ws = flat c ws ++ [c] := by
  obtain ⟨w, ws', rfl⟩ := List.exists_cons_of_ne_nil hws
  rw [lead_cons, flat_cons, List.append_assoc, trail_cons_eq_lead]

/-! ## Splitting -/

@[simp] theorem words_nil : words sep [] = [] := by simp [words]

theorem words_append_sep (s t : List α) {c : α} (hc : sep c = true) :
    words sep (s ++ c :: t) = words sep s ++ words sep t := by
  simp [words, List.splitOnP_append_cons s t hc]

theorem words_cons_sep (s : List α) {c : α} (hc : sep c = true) :
    words sep (c :: s) = words sep s := by
  simpa using words_append_sep [] s hc

theorem words_concat_sep (s : List α) {c : α} (hc : sep c = true) :
    words sep (s ++ [c]) = words sep s := by
  simpa using words_append_sep s [] hc

theorem words_of_no_sep {s : List α} (hs : s ≠ []) (h : ∀ x ∈ s, sep x = false) :
    words sep s = [s] := by
  simp [words, List.splitOnP_eq_singleton h, hs]

theorem words_chars (w : Word sep) : words sep w.chars = [w.chars] :=
  words_of_no_sep w.ne_nil w.no_sep

theorem words_trail {c : α} (hc : sep c = true) (s : List α) (ws : List (Word sep)) :
    words sep (s ++ trail c ws) = words sep s ++ ws.map Word.chars := by
  induction ws generalizing s with
  | nil => simp
  | cons w ws ih =>
    have hsplit : s ++ trail c (w :: ws) = s ++ c :: (w.chars ++ trail c ws) := rfl
    rw [hsplit, words_append_sep s _ hc, ih w.chars, words_chars]
    simp

/-- Splitting a layout gives back the words it was made of. -/
theorem words_flat {c : α} (hc : sep c = true) (ws : List (Word sep)) :
    words sep (flat c ws) = ws.map Word.chars := by
  cases ws with
  | nil => simp
  | cons w ws => rw [flat_cons, words_trail hc, words_chars]; rfl

theorem words_append_of_all_sep (s t : List α) (ht : ∀ x ∈ t, sep x = true) :
    words sep (s ++ t) = words sep s := by
  induction t using List.reverseRecOn with
  | nil => simp
  | append_singleton t c ih =>
    rw [← List.append_assoc, words_concat_sep _ (ht c (by simp)),
      ih fun x hx => ht x (by simp [hx])]

theorem words_all_sep_append (s t : List α) (hs : ∀ x ∈ s, sep x = true) :
    words sep (s ++ t) = words sep t := by
  induction s with
  | nil => rfl
  | cons c s ih =>
    rw [List.cons_append, words_cons_sep _ (hs c (by simp)), ih fun x hx => hs x (by simp [hx])]

/-- Only separators are lost. -/
theorem flatten_words (s : List α) : (words sep s).flatten = s.filter fun c => !sep c := by
  have hsplit : (s.splitOnP sep).flatten = s.filter fun c => !sep c := by
    induction s with
    | nil => rfl
    | cons c s ih =>
      obtain ⟨w, ws, hw⟩ := List.exists_cons_of_ne_nil (List.splitOnP_ne_nil sep s)
      rw [hw] at ih
      rw [List.splitOnP_cons_eq_if_modifyHead, hw]
      cases hc : sep c
      · rw [if_neg (by simp), List.filter_cons_of_pos (by simp [hc]), ← ih]
        rfl
      · rw [if_pos rfl, List.filter_cons_of_neg (by simp [hc]), ← ih]
        rfl
  have hfilter : ∀ ws : List (List α), (ws.filter fun w => !w.isEmpty).flatten = ws.flatten := by
    intro ws
    induction ws with
    | nil => rfl
    | cons w ws ih => cases w <;> simp [ih]
  rw [words, hfilter, hsplit]

/-- Something that is left between two texts shows in their words. -/
theorem words_append_ne (a b : List α) {r : List α} (hr : ∃ c ∈ r, sep c = false) :
    words sep (a ++ (r ++ b)) ≠ words sep a ++ words sep b := by
  intro heq
  obtain ⟨c, hc, hsep⟩ := hr
  have hpos : 0 < (r.filter fun c => !sep c).length :=
    List.length_pos_of_mem (List.mem_filter.mpr ⟨hc, by simp [hsep]⟩)
  have hlen : (words sep (a ++ (r ++ b))).flatten.length =
      (words sep a ++ words sep b).flatten.length := by rw [heq]
  simp only [List.flatten_append, flatten_words, List.filter_append, List.length_append] at hlen
  omega

/-- The words up to the first `c`: of the word that holds it only the part in front. -/
def cutWords [DecidableEq α] (c : α) : List (List α) → List (List α)
  | [] => []
  | w :: ws =>
    if c ∈ w then (if w.takeWhile (· ≠ c) = [] then [] else [w.takeWhile (· ≠ c)])
    else w :: cutWords c ws

theorem not_mem_of_mem_cutWords [DecidableEq α] {c : α} {ws : List (List α)} :
    ∀ w ∈ cutWords c ws, c ∉ w := by
  induction ws with
  | nil => exact fun w hw => absurd hw List.not_mem_nil
  | cons v ws ih =>
    intro w hw
    rw [cutWords] at hw
    by_cases hv : c ∈ v
    · rw [if_pos hv] at hw
      split_ifs at hw
      · exact absurd hw List.not_mem_nil
      · obtain rfl := List.mem_singleton.mp hw
        intro hc
        simpa using List.mem_takeWhile_imp hc
    · rw [if_neg hv] at hw
      rcases List.mem_cons.mp hw with rfl | hw
      · exact hv
      · exact ih w hw

/-- Nothing is cut off exactly when `c` is in none of the words. -/
theorem cutWords_eq_self_iff [DecidableEq α] {c : α} {ws : List (List α)} :
    cutWords c ws = ws ↔ ∀ w ∈ ws, c ∉ w := by
  constructor
  · intro h
    rw [← h]
    exact not_mem_of_mem_cutWords
  · intro h
    induction ws with
    | nil => rfl
    | cons w ws ih =>
      rw [cutWords, if_neg (h w (by simp)), ih fun x hx => h x (by simp [hx])]

theorem words_run_append {w t : List α} (hw : w ≠ []) (hrun : ∀ x ∈ w, sep x = false)
    (ht : ∀ y ∈ t.head?, sep y = true) : words sep (w ++ t) = w :: words sep t := by
  cases t with
  | nil => rw [List.append_nil, words_of_no_sep hw hrun, words_nil]
  | cons y t =>
    have hy : sep y = true := ht y rfl
    rw [words_append_sep _ _ hy, words_cons_sep _ hy, words_of_no_sep hw hrun]
    rfl

/-- A list that begins with another element than a separator, split behind its first run. -/
theorem exists_run {x : α} (hx : sep x = false) (s : List α) :
    ∃ w t, x :: s = (x :: w) ++ t ∧ (∀ y ∈ x :: w, sep y = false) ∧
      (∀ y ∈ t.head?, sep y = true) ∧ t.length ≤ s.length := by
  refine ⟨s.takeWhile (!sep ·), s.dropWhile (!sep ·), ?_, ?_, ?_, List.length_dropWhile_le _ _⟩
  · rw [List.cons_append, List.takeWhile_append_dropWhile]
  · intro y hy
    rcases List.mem_cons.mp hy with rfl | hy
    · exact hx
    · simpa using List.mem_takeWhile_imp hy
  · intro y hy
    have hne : s.dropWhile (!sep ·) ≠ [] := by
      intro hnil
      rw [hnil] at hy
      exact absurd hy (by simp)
    have hhead := List.head_dropWhile_not (!sep ·) hne
    rw [List.head?_eq_some_head hne] at hy
    obtain rfl : (s.dropWhile (!sep ·)).head hne = y := by simpa using hy
    simpa using hhead

theorem takeWhile_append_of_mem [DecidableEq α] {c : α} {w : List α} (hc : c ∈ w) (t : List α) :
    (w ++ t).takeWhile (· ≠ c) = w.takeWhile (· ≠ c) := by
  rw [List.takeWhile_append, if_neg]
  intro hlen
  have hall := List.takeWhile_eq_self_iff.mp ((List.takeWhile_prefix (· ≠ c)).eq_of_length hlen)
  simpa using hall c hc

/-- Cutting a list at its first `c`, which is no separator, cuts its words there. -/
theorem words_takeWhile [DecidableEq α] {c : α} (hc : sep c = false) (s : List α) :
    words sep (s.takeWhile (· ≠ c)) = cutWords c (words sep s) := by
  induction hn : s.length using Nat.strong_induction_on generalizing s with
  | _ n ih =>
    cases s with
    | nil => simp [cutWords]
    | cons x s =>
      cases hx : sep x with
      | true =>
        have hxc : x ≠ c := by
          rintro rfl
          simp [hc] at hx
        rw [List.takeWhile_cons_of_pos (by simpa using hxc), words_cons_sep _ hx,
          words_cons_sep _ hx]
        exact ih s.length (by simp [← hn]) s rfl
      | false =>
        obtain ⟨w, t, hsplit, hrun, ht, hlen⟩ := exists_run hx s
        rw [hsplit, words_run_append (by simp) hrun ht, cutWords]
        by_cases hmem : c ∈ x :: w
        · rw [takeWhile_append_of_mem hmem, if_pos hmem]
          by_cases hnil : (x :: w).takeWhile (· ≠ c) = []
          · rw [if_pos hnil, hnil, words_nil]
          · rw [if_neg hnil]
            exact words_of_no_sep hnil fun y hy => hrun y ((List.takeWhile_prefix _).subset hy)
        · have hall : ∀ y ∈ x :: w, decide (y ≠ c) = true := by
            intro y hy
            rw [decide_eq_true_eq]
            rintro rfl
            exact hmem hy
          have hcut : ∀ y ∈ (t.takeWhile (· ≠ c)).head?, sep y = true := by
            intro y hy
            rw [List.head?_takeWhile] at hy
            exact ht y (Option.mem_filter_iff.mp hy).1
          rw [List.takeWhile_append_of_pos hall, if_neg hmem, words_run_append (by simp) hrun hcut,
            ih t.length (by simp only [List.length_cons] at hn; omega) t rfl]

/-! ## Trimming -/

/-- What is no separator is in one of the words. -/
theorem mem_iff_mem_words {c : α} (hc : sep c = false) (s : List α) :
    c ∈ s ↔ ∃ w ∈ words sep s, c ∈ w := by
  induction hn : s.length using Nat.strong_induction_on generalizing s with
  | _ n ih =>
    cases s with
    | nil => simp
    | cons x s =>
      cases hx : sep x with
      | true =>
        have hcx : c ≠ x := by
          rintro rfl
          simp [hc] at hx
        rw [words_cons_sep _ hx, List.mem_cons, or_iff_right hcx]
        exact ih s.length (by simp [← hn]) s rfl
      | false =>
        obtain ⟨w, t, hsplit, hrun, ht, hlen⟩ := exists_run hx s
        rw [hsplit, words_run_append (by simp) hrun ht, List.mem_append, List.exists_mem_cons_iff,
          ih t.length (by simp only [List.length_cons] at hn; omega) t rfl]

theorem words_trim (s : List α) : words sep (trim sep s) = words sep s := by
  have h1 : words sep (s.takeWhile sep ++ s.dropWhile sep) = words sep (s.dropWhile sep) :=
    words_all_sep_append _ _ fun x hx => List.mem_takeWhile_imp hx
  have h2 : words sep (trim sep s ++ (s.dropWhile sep).rtakeWhile sep) = words sep (trim sep s) :=
    words_append_of_all_sep _ _ fun x hx => List.mem_rtakeWhile_imp hx
  rw [List.takeWhile_append_dropWhile] at h1
  rw [trim, List.rdropWhile_append_rtakeWhile] at h2
  rw [h1, trim, ← h2]

theorem dropWhile_eq_self_iff_head (s : List α) :
    s.dropWhile sep = s ↔ ∀ x ∈ s.head?, sep x = false := by
  cases s with
  | nil => simp
  | cons x s =>
    rw [List.dropWhile_eq_self_iff]
    simp

theorem rdropWhile_eq_self_iff_getLast (s : List α) :
    s.rdropWhile sep = s ↔ ∀ x ∈ s.getLast?, sep x = false := by
  rw [List.rdropWhile_eq_self_iff]
  constructor
  · intro h x hx
    obtain ⟨hne, rfl⟩ := List.mem_getLast?_eq_getLast hx
    simpa using h hne
  · intro h hne
    rw [h _ (List.getLast_mem_getLast? hne)]
    simp

theorem head_trim {s : List α} {x : α} (hx : x ∈ (trim sep s).head?) : sep x = false := by
  have hhead : x ∈ (s.dropWhile sep).head? := by
    obtain ⟨rest, hrest⟩ := List.rdropWhile_prefix sep (s.dropWhile sep)
    have hx : ((s.dropWhile sep).rdropWhile sep).head? = some x := hx
    rw [← hrest, List.head?_append, hx]
    rfl
  obtain ⟨t, ht⟩ := List.head?_eq_some_iff.mp hhead
  have hne : s.dropWhile sep ≠ [] := by rw [ht]; exact List.cons_ne_nil x t
  simpa [ht] using List.head_dropWhile_not sep hne

theorem getLast_trim {s : List α} {x : α} (hx : x ∈ (trim sep s).getLast?) : sep x = false := by
  obtain ⟨hne, rfl⟩ := List.mem_getLast?_eq_getLast hx
  simpa [trim] using List.rdropWhile_last_not sep (s.dropWhile sep) hne

theorem dropWhile_of_trim {s : List α} (htrim : trim sep s = s) : s.dropWhile sep = s := by
  rw [dropWhile_eq_self_iff_head]
  intro x hx
  rw [← htrim] at hx
  exact head_trim hx

theorem rdropWhile_of_trim {s : List α} (htrim : trim sep s = s) : s.rdropWhile sep = s := by
  rw [rdropWhile_eq_self_iff_getLast]
  intro x hx
  rw [← htrim] at hx
  exact getLast_trim hx

theorem eq_nil_of_words_eq_nil {s : List α} (htrim : trim sep s = s) (h : words sep s = []) :
    s = [] := by
  cases s with
  | nil => rfl
  | cons x s =>
    have hx : sep x = false := head_trim (s := x :: s) (by rw [htrim]; rfl)
    obtain ⟨w, t, hsplit, hrun, ht, -⟩ := exists_run hx s
    rw [hsplit, words_run_append (by simp) hrun ht] at h
    cases h

/-- Separators around a list that begins and ends with other elements are what `trim`
    removes. -/
theorem trim_surround {a s b : List α} (ha : ∀ x ∈ a, sep x = true) (hb : ∀ x ∈ b, sep x = true)
    (hhead : ∀ h : s ≠ [], sep (s.head h) = false)
    (hlast : ∀ h : s ≠ [], sep (s.getLast h) = false) :
    trim sep (a ++ s ++ b) = s := by
  have hdrop : ∀ t, (a ++ t).dropWhile sep = t.dropWhile sep := fun t =>
    List.dropWhile_append_of_pos ha
  unfold trim
  rw [List.append_assoc, hdrop]
  by_cases hs : s = []
  · subst hs
    have hbe : b.dropWhile sep = [] := List.dropWhile_eq_nil_iff.mpr hb
    simp [hbe]
  · obtain ⟨c, s', rfl⟩ := List.exists_cons_of_ne_nil hs
    have hc : sep c = false := hhead hs
    rw [List.cons_append, List.dropWhile_cons_of_neg (by simp [hc]), ← List.cons_append]
    have hrev :
        (b.reverse ++ (c :: s').reverse).dropWhile sep = ((c :: s').reverse).dropWhile sep :=
      List.dropWhile_append_of_pos (by simpa using hb)
    rw [List.rdropWhile, List.reverse_append, hrev]
    exact List.rdropWhile_eq_self_iff.mpr fun h => by simp [hlast h]

theorem trim_trim (s : List α) : trim sep (trim sep s) = trim sep s := by
  have hdrop : (trim sep s).dropWhile sep = trim sep s :=
    (dropWhile_eq_self_iff_head _).mpr fun _ hx => head_trim hx
  have hright : (trim sep s).rdropWhile sep = trim sep s :=
    (rdropWhile_eq_self_iff_getLast _).mpr fun _ hx => getLast_trim hx
  calc trim sep (trim sep s)
    _ = ((trim sep s).dropWhile sep).rdropWhile sep := rfl
    _ = trim sep s := by rw [hdrop, hright]

theorem rdropWhile_append (s t : List α) :
    (s ++ t).rdropWhile sep =
      if t.rdropWhile sep = [] then s.rdropWhile sep else s ++ t.rdropWhile sep := by
  simp only [List.rdropWhile, List.reverse_append, List.dropWhile_append, List.isEmpty_iff,
    List.reverse_eq_nil_iff]
  split <;> simp

/-- Only what stands behind a trimmed list is trimmed. -/
theorem trim_append {s : List α} (hs : s ≠ []) (htrim : trim sep s = s) (t : List α) :
    trim sep (s ++ t) = s ++ t.rdropWhile sep := by
  have hdrop : (s ++ t).dropWhile sep = s ++ t := by
    rw [List.dropWhile_append, dropWhile_of_trim htrim, if_neg (by simpa using hs)]
  rw [trim, hdrop, rdropWhile_append]
  split
  · rename_i hnil
    rw [hnil, rdropWhile_of_trim htrim, List.append_nil]
  · rfl

/-- Only what stands in front of a trimmed list is trimmed. -/
theorem trim_append_left {s : List α} (hs : s ≠ []) (htrim : trim sep s = s) (t : List α) :
    trim sep (t ++ s) = t.dropWhile sep ++ s := by
  have hright := rdropWhile_of_trim htrim
  rw [trim, List.dropWhile_append]
  split
  · rename_i hnil
    rw [dropWhile_of_trim htrim, hright, List.isEmpty_iff.mp hnil, List.nil_append]
  · rw [rdropWhile_append, if_neg (by rwa [hright]), hright]

theorem rdropWhile_sep_cons {c : α} (hc : sep c = true) (s : List α) :
    (c :: s).rdropWhile sep = if s.rdropWhile sep = [] then [] else c :: s.rdropWhile sep := by
  have happend : ([c] ++ s).rdropWhile sep = _ := rdropWhile_append [c] s
  rw [List.singleton_append] at happend
  rw [happend, List.singleton_append, List.rdropWhile_singleton, if_pos hc]

theorem dropWhile_concat_sep {c : α} (hc : sep c = true) (s : List α) :
    (s ++ [c]).dropWhile sep = if s.dropWhile sep = [] then [] else s.dropWhile sep ++ [c] := by
  rw [List.dropWhile_append]
  simp [hc]

theorem flat_head {c : α} (ws : List (Word sep)) (h : flat c ws ≠ []) :
    sep ((flat c ws).head h) = false := by
  cases ws with
  | nil => simp at h
  | cons w ws =>
    have hhead : (flat c (w :: ws)).head h = w.chars.head w.ne_nil := by
      simp [flat_cons, w.ne_nil]
    rw [hhead]
    exact w.no_sep _ (List.head_mem _)

theorem flat_getLast {c : α} (ws : List (Word sep)) (h : flat c ws ≠ []) :
    sep ((flat c ws).getLast h) = false := by
  induction ws using List.reverseRecOn with
  | nil => simp at h
  | append_singleton ws w _ =>
    have hlast : (flat c (ws ++ [w])).getLast h = w.chars.getLast w.ne_nil := by
      simp [flat_append_cons, flat_cons, w.ne_nil]
    rw [hlast]
    exact w.no_sep _ (List.getLast_mem _)

theorem trim_flat_surround {c : α} {a b : List α} (ha : ∀ x ∈ a, sep x = true)
    (hb : ∀ x ∈ b, sep x = true) (ws : List (Word sep)) :
    trim sep (a ++ flat c ws ++ b) = flat c ws :=
  trim_surround ha hb (flat_head ws) (flat_getLast ws)

theorem trim_flat (c : α) (ws : List (Word sep)) : trim sep (flat c ws) = flat c ws := by
  have h := trim_flat_surround (c := c) (a := []) (b := []) (by simp) (by simp) ws
  simpa using h

theorem trim_lead {c : α} (hc : sep c = true) (ws : List (Word sep)) :
    trim sep (lead c ws) = flat c ws := by
  by_cases hws : ws = []
  · subst hws
    exact trim_flat c []
  · have h := trim_flat_surround (c := c) (a := []) (b := [c]) (by simp)
      (by simp [hc]) ws
    rw [lead_eq_flat_concat c hws]
    simpa using h

/-- A separator between two layouts, of which either may be empty, trims to the layout of all
    the words. -/
theorem trim_flat_sep_flat {c : α} (hc : sep c = true) (ws vs : List (Word sep)) :
    trim sep (flat c ws ++ c :: flat c vs) = flat c (ws ++ vs) := by
  by_cases hws : ws = []
  · subst hws
    have h := trim_flat_surround (c := c) (a := [c]) (b := []) (by simp [hc])
      (by simp) vs
    simpa using h
  · by_cases hvs : vs = []
    · subst hvs
      rw [flat_nil, ← lead_eq_flat_concat c hws, trim_lead hc, List.append_nil]
    · rw [← trail_eq_cons_flat c hvs, ← flat_append c hws, trim_flat]

/-! ## Patterns without separators -/

theorem infix_append_sep_iff {p s t : List α} {c : α} (hp : p ≠ []) (hc : c ∉ p) :
    p <:+: s ++ c :: t ↔ p <:+: s ∨ p <:+: t := by
  have hstart : ∀ q, q ≠ [] → c ∉ q → ¬ q <+: c :: t := by
    intro q hq hcq hpre
    obtain ⟨x, q', rfl⟩ := List.exists_cons_of_ne_nil hq
    exact hcq (by simp [(List.cons_prefix_cons.mp hpre).1])
  rw [List.infix_append_iff_ne_nil, List.infix_cons_iff]
  constructor
  · rintro (h | (h | h) | ⟨l₁, l₂, -, hl₂, rfl, -, hpre⟩)
    · exact Or.inl h
    · exact absurd h (hstart p hp hc)
    · exact Or.inr h
    · exact absurd hpre (hstart l₂ hl₂ fun h => hc (by simp [h]))
  · rintro (h | h)
    · exact Or.inl h
    · exact Or.inr (Or.inl (Or.inr h))

theorem infix_append_trail_iff {p : List α} {c : α} (hp : p ≠ []) (hc : c ∉ p) (s : List α)
    (ws : List (Word sep)) :
    p <:+: s ++ trail c ws ↔ p <:+: s ∨ ∃ w ∈ ws, p <:+: w.chars := by
  induction ws generalizing s with
  | nil => simp
  | cons w ws ih =>
    have hsplit : s ++ trail c (w :: ws) = s ++ c :: (w.chars ++ trail c ws) := rfl
    rw [hsplit, infix_append_sep_iff hp hc, ih]
    simp

/-- A pattern without separators occurs in a layout exactly when it occurs in a word. -/
theorem infix_flat_iff {p : List α} {c : α} (hp : p ≠ []) (hc : c ∉ p) (ws : List (Word sep)) :
    p <:+: flat c ws ↔ ∃ w ∈ ws, p <:+: w.chars := by
  cases ws with
  | nil => simp [hp]
  | cons w ws => rw [flat_cons, infix_append_trail_iff hp hc]; simp

end RehldsM.Lib
