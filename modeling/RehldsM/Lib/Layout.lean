import RehldsM.Lib.Words

/-
  Lists as their words and the gaps around them.

  `layout items rest` writes every word behind its gap, and `rest` behind the last one. A list
  that does not begin with a word is a layout, and any other one is a word and a layout, with
  gaps made of separators, of which only `rest` may be empty (`Gaps`). There is one way to read a
  list like this, and `layoutOf` computes it (`layoutOf_spec`, `layoutOf_eq`).
-/

namespace RehldsM.Lib

universe u

variable {α : Type u} {sep : α → Bool}

/-- Each word behind its gap, then what stands behind the last word. -/
def layout : List (List α × Word sep) → List α → List α
  | [], rest => rest
  | (gap, w) :: items, rest => gap ++ (w.chars ++ layout items rest)

structure Gaps (items : List (List α × Word sep)) (rest : List α) : Prop where
  gap_ne_nil : ∀ i ∈ items, i.1 ≠ []
  gap_sep : ∀ i ∈ items, ∀ x ∈ i.1, sep x = true
  rest_sep : ∀ x ∈ rest, sep x = true

/-- What stands in front of the first word. -/
def firstGap : List (List α × Word sep) → List α → List α
  | [], rest => rest
  | (gap, _) :: _, _ => gap

/-- A gap is put in front of a layout. -/
def putBefore (gap : List α) :
    List (List α × Word sep) × List α → List (List α × Word sep) × List α
  | ([], rest) => ([], gap ++ rest)
  | ((gap', w) :: items, rest) => ((gap ++ gap', w) :: items, rest)

theorem Gaps.tail {i : List α × Word sep} {items : List (List α × Word sep)} {rest : List α}
    (h : Gaps (i :: items) rest) : Gaps items rest :=
  ⟨fun j hj => h.gap_ne_nil j (List.mem_cons_of_mem _ hj),
    fun j hj => h.gap_sep j (List.mem_cons_of_mem _ hj), h.rest_sep⟩

theorem Gaps.cons {gap : List α} {w : Word sep} {items : List (List α × Word sep)}
    {rest : List α} (h : Gaps items rest) (hne : gap ≠ []) (hsep : ∀ x ∈ gap, sep x = true) :
    Gaps ((gap, w) :: items) rest :=
  ⟨List.forall_mem_cons.mpr ⟨hne, h.gap_ne_nil⟩, List.forall_mem_cons.mpr ⟨hsep, h.gap_sep⟩,
    h.rest_sep⟩

theorem gaps_append_iff {items items' : List (List α × Word sep)} {rest : List α} :
    Gaps (items ++ items') rest ↔ Gaps items [] ∧ Gaps items' rest := by
  constructor
  · intro h
    obtain ⟨hne, hne'⟩ := List.forall_mem_append.mp h.gap_ne_nil
    obtain ⟨hsep, hsep'⟩ := List.forall_mem_append.mp h.gap_sep
    exact ⟨⟨hne, hsep, by simp⟩, hne', hsep', h.rest_sep⟩
  · rintro ⟨h, h'⟩
    exact ⟨List.forall_mem_append.mpr ⟨h.gap_ne_nil, h'.gap_ne_nil⟩,
      List.forall_mem_append.mpr ⟨h.gap_sep, h'.gap_sep⟩, h'.rest_sep⟩

theorem gaps_singleton_iff {gap : List α} {w : Word sep} {rest : List α} :
    Gaps [(gap, w)] rest ↔ gap ≠ [] ∧ (∀ x ∈ gap, sep x = true) ∧ ∀ x ∈ rest, sep x = true := by
  constructor
  · intro h
    exact ⟨h.gap_ne_nil _ List.mem_cons_self, h.gap_sep _ List.mem_cons_self, h.rest_sep⟩
  · rintro ⟨hne, hsep, hrest⟩
    exact ⟨by simpa using hne, by simpa using hsep, hrest⟩

theorem Gaps.firstGap_sep {items : List (List α × Word sep)} {rest : List α}
    (h : Gaps items rest) : ∀ x ∈ firstGap items rest, sep x = true := by
  cases items with
  | nil => exact h.rest_sep
  | cons i items => exact h.gap_sep i List.mem_cons_self

theorem layout_putBefore (gap : List α) (x : List (List α × Word sep) × List α) :
    layout (putBefore gap x).1 (putBefore gap x).2 = gap ++ layout x.1 x.2 := by
  obtain ⟨items, rest⟩ := x
  cases items with
  | nil => rfl
  | cons i items => exact List.append_assoc _ _ _

theorem words_putBefore (gap : List α) (x : List (List α × Word sep) × List α) :
    (putBefore gap x).1.map Prod.snd = x.1.map Prod.snd := by
  obtain ⟨items, rest⟩ := x
  cases items <;> rfl

theorem Gaps.putBefore {x : List (List α × Word sep) × List α} (h : Gaps x.1 x.2)
    {gap : List α} (hsep : ∀ c ∈ gap, sep c = true) :
    Gaps (putBefore gap x).1 (putBefore gap x).2 := by
  obtain ⟨items, rest⟩ := x
  have happend : ∀ g : List α, (∀ c ∈ g, sep c = true) → ∀ c ∈ gap ++ g, sep c = true :=
    fun g hg c hc => (List.mem_append.mp hc).elim (hsep c) (hg c)
  cases items with
  | nil => exact ⟨h.gap_ne_nil, h.gap_sep, happend rest h.rest_sep⟩
  | cons i items =>
    obtain ⟨gap', w⟩ := i
    have hne : gap' ≠ [] := h.gap_ne_nil (gap', w) List.mem_cons_self
    exact h.tail.cons (List.append_ne_nil_of_right_ne_nil gap hne)
      (happend gap' (h.gap_sep (gap', w) List.mem_cons_self))

theorem layout_append (items items' : List (List α × Word sep)) (rest : List α) :
    layout (items ++ items') rest = layout items (layout items' rest) := by
  induction items with
  | nil => rfl
  | cons i items ih => rw [List.cons_append, layout, layout, ih]

theorem layout_append_rest (items : List (List α × Word sep)) (rest s : List α) :
    layout items (rest ++ s) = layout items rest ++ s := by
  induction items with
  | nil => rfl
  | cons i items ih => rw [layout, layout, ih, List.append_assoc, List.append_assoc]

/-- A layout begins with its first gap. -/
theorem layout_head {items : List (List α × Word sep)} {rest : List α} (h : Gaps items rest) :
    ∀ c ∈ (layout items rest).head?, c ∈ firstGap items rest := by
  intro c hc
  cases items with
  | nil => exact List.mem_of_mem_head? hc
  | cons i items =>
    obtain ⟨gap, w⟩ := i
    have hne : gap ≠ [] := h.gap_ne_nil (gap, w) List.mem_cons_self
    rw [layout, List.head?_append_of_ne_nil _ hne] at hc
    exact List.mem_of_mem_head? hc

/-- Only what stands behind the last word is trimmed. -/
theorem rdropWhile_layout {items : List (List α × Word sep)} {rest : List α}
    (h : Gaps items rest) : (layout items rest).rdropWhile sep = layout items [] := by
  induction items with
  | nil =>
    rw [layout, layout, List.rdropWhile, List.reverse_eq_nil_iff, List.dropWhile_eq_nil_iff]
    exact fun x hx => h.rest_sep x (List.mem_reverse.mp hx)
  | cons i items ih =>
    obtain ⟨gap, w⟩ := i
    have htrim : w.chars.rdropWhile sep = w.chars :=
      (rdropWhile_eq_self_iff_getLast _).mpr fun x hx => w.no_sep x (List.mem_of_mem_getLast? hx)
    have hinner : (w.chars ++ layout items rest).rdropWhile sep = w.chars ++ layout items [] := by
      rw [rdropWhile_append, ih h.tail, htrim]
      split
      · next hnil => rw [hnil, List.append_nil]
      · rfl
    rw [layout, layout, rdropWhile_append, hinner,
      if_neg (List.append_ne_nil_of_left_ne_nil w.ne_nil _)]

/-! ## Every list has a layout -/

/-- A character in front of a word, or as a word of its own. -/
def Word.extend (c : α) (hc : sep c = false) (first : Option (Word sep)) : Word sep where
  chars := c :: first.elim [] Word.chars
  ne_nil := List.cons_ne_nil c _
  no_sep := by
    refine List.forall_mem_cons.mpr ⟨hc, ?_⟩
    cases first with
    | none => simp
    | some w => exact w.no_sep

/-- The word the list begins with, if it does, and the layout of what is behind it. -/
def layoutOf (sep : α → Bool) :
    List α → Option (Word sep) × List (List α × Word sep) × List α
  | [] => (none, [], [])
  | c :: s =>
    let behind := layoutOf sep s
    if hc : sep c = false then (some (.extend c hc behind.1), behind.2)
    else match behind.1 with
      | none => (none, putBefore [c] behind.2)
      | some w => (none, ([c], w) :: behind.2.1, behind.2.2)

theorem layoutOf_spec (sep : α → Bool) (s : List α) :
    s = (layoutOf sep s).1.elim [] Word.chars ++ layout (layoutOf sep s).2.1 (layoutOf sep s).2.2 ∧
      Gaps (layoutOf sep s).2.1 (layoutOf sep s).2.2 := by
  induction s with
  | nil => exact ⟨rfl, by simp [layoutOf], by simp [layoutOf], by simp [layoutOf]⟩
  | cons c s ih =>
    obtain ⟨hs, hgaps⟩ := ih
    rw [layoutOf]
    by_cases hc : sep c = false
    · rw [dif_pos hc]
      exact ⟨congrArg (c :: ·) hs, hgaps⟩
    · have hsep : ∀ x ∈ [c], sep x = true := by simpa using hc
      rw [dif_neg hc]
      cases hfirst : (layoutOf sep s).1 with
      | none =>
        rw [hfirst] at hs
        refine ⟨?_, hgaps.putBefore hsep⟩
        rw [layout_putBefore]
        exact congrArg (c :: ·) hs
      | some w =>
        rw [hfirst] at hs
        exact ⟨congrArg (c :: ·) hs, hgaps.cons (by simp) hsep⟩

/-- A word in front of a layout. -/
theorem layoutOf_word {w s : List α} (hne : w ≠ []) (hsep : ∀ x ∈ w, sep x = false)
    (hs : (layoutOf sep s).1 = none) :
    layoutOf sep (w ++ s) = (some ⟨w, hne, hsep⟩, (layoutOf sep s).2) := by
  induction w with
  | nil => exact absurd rfl hne
  | cons c w ih =>
    obtain ⟨hc, hw⟩ := List.forall_mem_cons.mp hsep
    rw [List.cons_append, layoutOf, dif_pos hc]
    by_cases hnil : w = []
    · subst hnil
      simp [Word.extend, hs]
    · rw [ih hnil hw]
      rfl

/-- A gap in front of it. -/
theorem layoutOf_gap {gap s : List α} (hne : gap ≠ []) (hsep : ∀ x ∈ gap, sep x = true) :
    layoutOf sep (gap ++ s) = match (layoutOf sep s).1 with
      | none => (none, putBefore gap (layoutOf sep s).2)
      | some w => (none, (gap, w) :: (layoutOf sep s).2.1, (layoutOf sep s).2.2) := by
  induction gap with
  | nil => exact absurd rfl hne
  | cons c gap ih =>
    obtain ⟨hc, hgap⟩ := List.forall_mem_cons.mp hsep
    rw [List.cons_append, layoutOf, dif_neg (by simp [hc])]
    by_cases hnil : gap = []
    · subst hnil
      rfl
    · rw [ih hnil hgap]
      cases (layoutOf sep s).1 with
      | none =>
        generalize (layoutOf sep s).2 = l
        obtain ⟨items, rest⟩ := l
        cases items <;> rfl
      | some w => rfl

/-- A list has one layout. -/
theorem layoutOf_layout {items : List (List α × Word sep)} {rest : List α}
    (h : Gaps items rest) : layoutOf sep (layout items rest) = (none, items, rest) := by
  induction items with
  | nil =>
    by_cases hnil : rest = []
    · subst hnil
      rfl
    · have hgap := layoutOf_gap (s := []) hnil h.rest_sep
      rw [List.append_nil] at hgap
      rw [layout, hgap]
      simp [layoutOf, putBefore]
  | cons i items ih =>
    obtain ⟨gap, w⟩ := i
    have hbehind := ih h.tail
    have hword := layoutOf_word w.ne_nil w.no_sep (s := layout items rest) (by rw [hbehind])
    rw [layout, layoutOf_gap (h.gap_ne_nil (gap, w) List.mem_cons_self)
      (h.gap_sep (gap, w) List.mem_cons_self), hword, hbehind]

theorem layoutOf_eq (first : Option (Word sep)) {items : List (List α × Word sep)}
    {rest : List α} (h : Gaps items rest) :
    layoutOf sep (first.elim [] Word.chars ++ layout items rest) = (first, items, rest) := by
  have hbehind := layoutOf_layout h
  cases first with
  | none => exact hbehind
  | some w =>
    have hword := layoutOf_word w.ne_nil w.no_sep (s := layout items rest) (by rw [hbehind])
    rw [Option.elim_some, hword, hbehind]

theorem exists_layout (sep : α → Bool) (s : List α) :
    ∃ (first : Option (Word sep)) (items : List (List α × Word sep)) (rest : List α),
      s = first.elim [] Word.chars ++ layout items rest ∧ Gaps items rest :=
  ⟨_, _, _, layoutOf_spec sep s⟩

/-! ## The words of a layout -/

theorem words_append_gap (s : List α) {gap : List α} (hne : gap ≠ [])
    (hsep : ∀ x ∈ gap, sep x = true) (t : List α) :
    words sep (s ++ (gap ++ t)) = words sep s ++ words sep t := by
  obtain ⟨c, gap', rfl⟩ := List.exists_cons_of_ne_nil hne
  obtain ⟨hc, hgap'⟩ := List.forall_mem_cons.mp hsep
  rw [List.cons_append, words_append_sep _ _ hc, words_all_sep_append _ _ hgap']

theorem words_layout {items : List (List α × Word sep)} {rest : List α} (h : Gaps items rest)
    (s : List α) :
    words sep (s ++ layout items rest) = words sep s ++ items.map fun i => i.2.chars := by
  induction items generalizing s with
  | nil =>
    rw [layout, words_append_of_all_sep _ _ h.rest_sep, List.map_nil, List.append_nil]
  | cons i items ih =>
    obtain ⟨gap, w⟩ := i
    have hgap := h.gap_ne_nil (gap, w) List.mem_cons_self
    rw [layout, words_append_gap s hgap (h.gap_sep (gap, w) List.mem_cons_self), ih h.tail,
      words_chars]
    rfl

/-- The words as such. -/
theorem exists_words (sep : α → Bool) (s : List α) :
    ∃ ws : List (Word sep), ws.map Word.chars = words sep s := by
  obtain ⟨first, items, rest, rfl, hgaps⟩ := exists_layout sep s
  refine ⟨first.toList ++ items.map Prod.snd, ?_⟩
  rw [words_layout hgaps, List.map_append, List.map_map]
  cases first with
  | none => simp
  | some w => simp [words_chars]

theorem mem_words {s w : List α} (h : w ∈ words sep s) : w ≠ [] ∧ ∀ x ∈ w, sep x = false := by
  obtain ⟨ws, hws⟩ := exists_words sep s
  rw [← hws] at h
  obtain ⟨v, -, rfl⟩ := List.mem_map.mp h
  exact ⟨v.ne_nil, v.no_sep⟩

/-- `words`, each with the proof that it is one. -/
def wordsOf (sep : α → Bool) (s : List α) : List (Word sep) :=
  (words sep s).pmap (fun w h => ⟨w, h.1, h.2⟩) fun _ h => mem_words h

theorem map_wordsOf (sep : α → Bool) (s : List α) :
    (wordsOf sep s).map Word.chars = words sep s := by
  simp [wordsOf, List.map_pmap]

theorem wordsOf_eq {s : List α} {ws : List (Word sep)} (h : words sep s = ws.map Word.chars) :
    wordsOf sep s = ws :=
  List.map_injective_iff.mpr (fun _ _ => Word.ext) ((map_wordsOf sep s).trans h)

/-- A pattern without separators does not reach across a gap. -/
theorem infix_append_gap_iff {p : List α} (hp : p ≠ []) (hsep : ∀ x ∈ p, sep x = false)
    {gap : List α} (hne : gap ≠ []) (hgap : ∀ x ∈ gap, sep x = true) (s t : List α) :
    p <:+: s ++ (gap ++ t) ↔ p <:+: s ∨ p <:+: t := by
  have hnot : ∀ c, sep c = true → c ∉ p := by
    intro c hc hmem
    rw [hsep c hmem] at hc
    exact absurd hc (by simp)
  induction gap generalizing s with
  | nil => exact absurd rfl hne
  | cons c gap ih =>
    obtain ⟨hc, hrest⟩ := List.forall_mem_cons.mp hgap
    rw [List.cons_append, infix_append_sep_iff hp (hnot c hc)]
    by_cases hnil : gap = []
    · rw [hnil, List.nil_append]
    · have h : p <:+: gap ++ t ↔ p <:+: [] ∨ p <:+: t := ih hnil hrest []
      rw [h]
      simp [hp]

theorem infix_layout_iff {p : List α} (hp : p ≠ []) (hsep : ∀ x ∈ p, sep x = false)
    {items : List (List α × Word sep)} {rest : List α} (h : Gaps items rest) (s : List α) :
    p <:+: s ++ layout items rest ↔ p <:+: s ∨ ∃ i ∈ items, p <:+: i.2.chars := by
  induction items generalizing s with
  | nil =>
    by_cases hnil : rest = []
    · simp [layout, hnil]
    · have hrest := infix_append_gap_iff hp hsep hnil h.rest_sep s []
      rw [List.append_nil] at hrest
      simpa [layout, hp] using hrest
  | cons i items ih =>
    obtain ⟨gap, w⟩ := i
    have hgap := h.gap_ne_nil (gap, w) List.mem_cons_self
    rw [layout, infix_append_gap_iff hp hsep hgap (h.gap_sep (gap, w) List.mem_cons_self),
      ih h.tail]
    simp

theorem infix_of_mem_words {s w : List α} (h : w ∈ words sep s) : w <:+: s := by
  obtain ⟨hne, hsep⟩ := mem_words h
  obtain ⟨first, items, rest, rfl, hgaps⟩ := exists_layout sep s
  rw [words_layout hgaps, List.mem_append] at h
  rw [infix_layout_iff hne hsep hgaps]
  rcases h with h | h
  · left
    cases first with
    | none => exact absurd h (by simp)
    | some v =>
      rw [Option.elim_some, words_chars] at h
      rw [List.mem_singleton.mp h]
      exact List.infix_refl _
  · right
    obtain ⟨i, hi, rfl⟩ := List.mem_map.mp h
    exact ⟨i, hi, List.infix_refl _⟩

end RehldsM.Lib
