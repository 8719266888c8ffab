import RehldsM.Core.CmdlineTokens

/-
  Looking arguments up: `find_argument_pos`, `contains` and `get_argument_option` on the
  tokens of the string, and `contains` against the static `contains(argc, argv, arg)`, which
  compares whole arguments.

  `contains` searches a substring, so it also answers for an argument that merely contains
  the name. `lookups_agree_iff` says exactly when the two lookups agree.
-/

namespace RehldsM.Core

open Lib Util

variable {strpy : Strpy}

/-! ## The position of an argument -/

/-- The search for one sign finds the last text that has this sign. -/
theorem rfind_at (u : Str) {s : Char} {n v : Str} (hv : ¬ s :: n <:+: n ++ v) :
    rfind (s :: n) (u ++ (s :: n ++ v)) = some u.length :=
  rfind_eq_some_length u (by simp) hv

/-- The search for the other sign stops before it. -/
theorem rfind_other_lt (u : Str) {s s' : Char} {n v : Str} (hs : s ≠ s')
    (hv : ¬ s' :: n <:+: n ++ v) {i : Nat}
    (h : rfind (s' :: n) (u ++ (s :: n ++ v)) = some i) : i < u.length := by
  refine rfind_lt h ?_
  rw [List.drop_left, List.cons_append, List.infix_cons_iff]
  rintro (hpre | hin)
  · exact hs (List.cons_prefix_cons.mp hpre).1.symm
  · exact hv hin

/-- When nothing behind the sign of `t` mentions the name, `find_argument_pos` stops at `t`. -/
theorem findArgumentPos_at {n : ArgName strpy} (u : Str) {t : strpy.Token}
    (ht : isArg n t = true) {v : Str} (hv : ¬ Mentions n (n.chars ++ v)) :
    (CmdLineArgs.mk (u ++ (t.chars ++ v))).findArgumentPos n.chars = some u.length := by
  have hplus : ¬ '+' :: n.chars <:+: n.chars ++ v := fun h => hv (Or.inl h)
  have hminus : ¬ '-' :: n.chars <:+: n.chars ++ v := fun h => hv (Or.inr h)
  unfold CmdLineArgs.findArgumentPos
  dsimp only
  rw [removeArgumentPrefix_name]
  rcases isArg_iff.mp ht with ht | ht
  · rw [ht, rfind_at u hplus]
    cases h2 : rfind ('-' :: n.chars) (u ++ ('+' :: n.chars ++ v)) with
    | none => rfl
    | some j =>
      have := rfind_other_lt u (by decide) hminus h2
      simp only [Option.some.injEq]
      omega
  · rw [ht, rfind_at u hminus]
    cases h1 : rfind ('+' :: n.chars) (u ++ ('-' :: n.chars ++ v)) with
    | none => rfl
    | some j =>
      have := rfind_other_lt u (by decide) hplus h1
      simp only [Option.some.injEq]
      omega

theorem not_mentions_append_trail {n : ArgName strpy} {s : Str} (hs : ¬ Mentions n s)
    {v : List strpy.Token} (hv : ∀ x ∈ v, ¬ Mentions n x.chars) :
    ¬ Mentions n (s ++ trail ' ' v) := by
  unfold Mentions
  rw [infix_append_trail_iff (by simp) (space_not_mem_plus n),
    infix_append_trail_iff (by simp) (space_not_mem_minus n)]
  rintro ((h | ⟨x, hx, h⟩) | (h | ⟨x, hx, h⟩))
  · exact hs (Or.inl h)
  · exact hv x hx (Or.inl h)
  · exact hs (Or.inr h)
  · exact hv x hx (Or.inr h)

/-- When no token behind `t` mentions the name, `find_argument_pos` stops at `t`. -/
theorem findArgumentPos_last {n : ArgName strpy} (u : Str) {t : strpy.Token}
    (ht : isArg n t = true) (v : List strpy.Token) (hv : ∀ x ∈ v, ¬ Mentions n x.chars) :
    (CmdLineArgs.mk (u ++ (t.chars ++ trail ' ' v))).findArgumentPos n.chars = some u.length :=
  findArgumentPos_at u ht (not_mentions_append_trail (not_mentions_name n) hv)

theorem findArgumentPos_none {n : ArgName strpy} {ts : List strpy.Token}
    (h : ∀ t ∈ ts, ¬ Mentions n t.chars) :
    (CmdLineArgs.mk (flat ' ' ts)).findArgumentPos n.chars = none := by
  rw [findArgumentPos_name_eq_none_iff, mentions_flat_iff]
  rintro ⟨t, ht, hm⟩
  exact h t ht hm

/-! ## The option of an argument -/

theorem length_of_isArg {n : ArgName strpy} {t : strpy.Token} (h : isArg n t = true) :
    t.chars.length = n.chars.length + 1 := by
  rcases isArg_iff.mp h with h | h <;> simp [h]

def isSign (c : Char) : Bool := c == '+' || c == '-'

theorem isSign_iff {c : Char} : isSign c = true ↔ c = '+' ∨ c = '-' := by
  simp [isSign]

theorem not_isSign_iff_isOption {t : strpy.Token} {c : Char} {s : Str} (ht : t.chars = c :: s) :
    isOption t = !isSign c := by
  rw [isOption, ht, List.head?_cons, Bool.eq_iff_iff]
  simp [isSign]

/-- What `get_argument_option` reads in the text behind an argument. -/
def optionBehind (v : Str) : Option Str :=
  match v.dropWhile (· == ' ') with
  | [] => none
  | c :: s => if c ≠ '+' ∧ c ≠ '-' then some ((c :: s).takeWhile (· != ' ')) else none

/-- A word is taken for the option, up to the next blank, unless it begins with a sign. -/
theorem optionBehind_run {c : Char} {y : Str} (hrun : ∀ x ∈ c :: y, strpy.isSpace x = false)
    {w : Str} (hw : isSign c = false → ∀ x ∈ w.head?, x = ' ') :
    optionBehind (c :: y ++ w) = if isSign c then none else some (c :: y) := by
  have hblank : ∀ x ∈ c :: y, (x != ' ') = true := by
    intro x hx
    rw [bne_iff_ne]
    rintro rfl
    exact absurd (hrun ' ' hx) (by simp [strpy.isSpace_space])
  have hdrop : (c :: y ++ w).dropWhile (· == ' ') = c :: (y ++ w) :=
    List.dropWhile_cons_of_neg (by simpa using hblank c List.mem_cons_self)
  unfold optionBehind
  rw [hdrop]
  dsimp only
  cases hsign : isSign c with
  | true =>
    have hboth : ¬ (c ≠ '+' ∧ c ≠ '-') := by
      rcases isSign_iff.mp hsign with rfl | rfl <;> simp
    rw [if_neg hboth]
    rfl
  | false =>
    have hboth : c ≠ '+' ∧ c ≠ '-' :=
      not_or.mp (isSign_iff.not.mp (by simp [hsign]))
    have hread : (c :: (y ++ w)).takeWhile (· != ' ') = c :: y := by
      rw [← List.cons_append, List.takeWhile_append_of_pos hblank]
      cases w with
      | nil => simp
      | cons d w => rw [hw hsign d rfl, List.takeWhile_cons_of_neg (by simp), List.append_nil]
    rw [if_pos hboth, hread]
    rfl

theorem optionBehind_token (t : strpy.Token) {w : Str}
    (hw : isOption t = true → ∀ x ∈ w.head?, x = ' ') :
    optionBehind (t.chars ++ w) = if isOption t then some t.chars else none := by
  obtain ⟨c, s, hc⟩ := List.exists_cons_of_ne_nil t.ne_nil
  have hoption := not_isSign_iff_isOption hc
  rw [hc, optionBehind_run (hc ▸ t.no_sep) fun hsign => hw (by rw [hoption, hsign]; rfl), hoption]
  cases isSign c <;> rfl

theorem head_trail (ts : List strpy.Token) : ∀ x ∈ (trail ' ' ts).head?, x = ' ' := by
  cases ts with
  | nil => simp
  | cons t ts => simp

theorem optionBehind_flat (ts : List strpy.Token) :
    optionBehind (flat ' ' ts) = (optionOf ts).map Word.chars := by
  cases ts with
  | nil => rfl
  | cons t ts =>
    rw [flat_cons, optionBehind_token t fun _ => head_trail ts, optionOf]
    cases isOption t <;> rfl

theorem optionBehind_trail (ts : List strpy.Token) :
    optionBehind (trail ' ' ts) = (optionOf ts).map Word.chars := by
  rw [← optionBehind_flat]
  cases ts with
  | nil => rfl
  | cons t ts => rfl

/-- With a spelling that is `extra` characters longer than the name, as many characters more are
    passed over. -/
theorem getArgumentOptionAt_spelled {n : ArgName strpy} {t : strpy.Token} (u : Str)
    (ht : isArg n t = true) (v : Str) {a : Str} {extra : Nat}
    (ha : a.length = n.chars.length + extra) :
    (CmdLineArgs.mk (u ++ (t.chars ++ v))).getArgumentOptionAt a (some u.length) =
      optionBehind (v.drop extra) := by
  have hlen := length_of_isArg ht
  have hdrop : (u ++ (t.chars ++ v)).drop (u.length + a.length + 1) = v.drop extra := by
    rw [show u.length + a.length + 1 = u.length + (t.chars.length + extra) by omega,
      ← List.drop_drop, List.drop_left, ← List.drop_drop, List.drop_left]
  unfold CmdLineArgs.getArgumentOptionAt optionBehind
  dsimp only
  rw [hdrop]
  cases (v.drop extra).dropWhile (· == ' ') <;> rfl

/-- `get_argument_option(arg, pos)` at a whole token: the token behind it, when it is an
    option. The raw length of the spelling only decides whether the separator is skipped by
    the offset or by the loop. -/
theorem getArgumentOptionAt_last {n : ArgName strpy} {a : Str} (ha : IsSpelling n a) (u : Str)
    {t : strpy.Token} (ht : isArg n t = true) (v : List strpy.Token) :
    (CmdLineArgs.mk (u ++ (t.chars ++ trail ' ' v))).getArgumentOptionAt a (some u.length) =
      (optionOf v).map Word.chars := by
  have hextra : a.length = n.chars.length + 0 ∨ a.length = n.chars.length + 1 := by
    rcases ha with rfl | rfl | rfl
    · exact .inl rfl
    · exact .inr rfl
    · exact .inr rfl
  rcases hextra with hname | hsign
  · rw [getArgumentOptionAt_spelled u ht _ hname, List.drop_zero, optionBehind_trail]
  · rw [getArgumentOptionAt_spelled u ht _ hsign, drop_one_trail, optionBehind_flat]

/-! ## The last argument -/

theorem behindLast_eq_none_iff (n : ArgName strpy) (ts : List strpy.Token) :
    behindLast n ts = none ↔ ∀ t ∈ ts, isArg n t = false := by
  induction ts with
  | nil => simp [behindLast]
  | cons t ts ih =>
    cases hts : behindLast n ts with
    | some v =>
      have hnot : ¬ ∀ x ∈ ts, isArg n x = false := by
        intro hall
        rw [ih.mpr hall] at hts
        exact absurd hts (by simp)
      simp only [behindLast, hts, List.forall_mem_cons, reduceCtorEq, false_iff]
      exact fun h => hnot h.2
    | none =>
      have hall := ih.mp hts
      by_cases ht : isArg n t = true
      · simp [behindLast, hts, ht]
      · have ht : isArg n t = false := by simpa using ht
        simp only [behindLast, hts, ht, List.forall_mem_cons, Bool.false_eq_true, if_false]
        exact ⟨fun _ => ⟨trivial, hall⟩, fun _ => trivial⟩

theorem behindLast_some {n : ArgName strpy} {ts v : List strpy.Token}
    (h : behindLast n ts = some v) :
    ∃ u t, ts = u ++ t :: v ∧ isArg n t = true ∧ ∀ x ∈ v, isArg n x = false := by
  induction ts with
  | nil => simp [behindLast] at h
  | cons t ts ih =>
    cases hts : behindLast n ts with
    | some w =>
      obtain rfl : w = v := by simpa [behindLast, hts] using h
      obtain ⟨u, x, rfl, hx⟩ := ih hts
      exact ⟨t :: u, x, rfl, hx⟩
    | none =>
      by_cases ht : isArg n t = true
      · obtain rfl : ts = v := by simpa [behindLast, hts, ht] using h
        exact ⟨[], t, rfl, ht, (behindLast_eq_none_iff n ts).mp hts⟩
      · simp [behindLast, hts, ht] at h

/-- On unambiguous tokens `get_argument_option` reads the option of the last such argument. -/
theorem getArgumentOption_flat {n : ArgName strpy} {a : Str} (ha : IsSpelling n a)
    {ts : List strpy.Token} (h : Unambiguous n ts) :
    (CmdLineArgs.mk (flat ' ' ts)).getArgumentOption a = (readOption n ts).map Word.chars := by
  have hno : ∀ us : List strpy.Token, us ⊆ ts → (∀ t ∈ us, isArg n t = false) →
      ∀ t ∈ us, ¬ Mentions n t.chars := by
    intro us hsub harg t ht hm
    have := h t (hsub ht) hm
    rw [harg t ht] at this
    exact absurd this (by simp)
  unfold CmdLineArgs.getArgumentOption readOption
  rw [findArgumentPos_spelling ha]
  cases hlast : behindLast n ts with
  | none =>
    rw [findArgumentPos_none (hno ts (fun _ ht => ht) ((behindLast_eq_none_iff n ts).mp hlast))]
    rfl
  | some v =>
    obtain ⟨u, t, rfl, ht, hv⟩ := behindLast_some hlast
    have hpos := findArgumentPos_last (lead ' ' u) ht v (hno v (fun x hx => by simp [hx]) hv)
    have hoption := getArgumentOptionAt_last ha (lead ' ' u) ht v
    rw [← flat_cons, ← flat_append_cons] at hpos hoption
    rw [hpos]
    exact hoption

/-- An argument of this name is there. -/
def hasArg (n : ArgName strpy) (ts : List strpy.Token) : Bool := ts.any (isArg n)

/-- On unambiguous tokens `contains` says whether there is such an argument. -/
theorem contains_flat {n : ArgName strpy} {a : Str} (ha : IsSpelling n a)
    {ts : List strpy.Token} (h : Unambiguous n ts) :
    (CmdLineArgs.mk (flat ' ' ts)).contains a = hasArg n ts := by
  rw [Bool.eq_iff_iff, contains_iff_mentions ha, mentions_flat_iff, hasArg, List.any_eq_true]
  constructor
  · rintro ⟨t, ht, hmentions⟩
    exact ⟨t, ht, h t ht hmentions⟩
  · rintro ⟨t, ht, harg⟩
    exact ⟨t, ht, mentions_of_isArg harg⟩

/-! ## The two lookups -/

theorem argvContains_iff {n : ArgName strpy} {a : Str} (ha : IsSpelling n a) (argv : List Str) :
    CmdLineArgs.argvContains strpy argv a = true ↔
      ∃ x ∈ argv.drop firstArgIndex, x = '+' :: n.chars ∨ x = '-' :: n.chars := by
  unfold CmdLineArgs.argvContains CmdLineArgs.findArgumentIndex
  dsimp only
  rw [removeArgumentPrefix_spelling ha]
  set p : Str → Bool := fun x =>
    strpy.equal x ('-' :: n.chars) || strpy.equal x ('+' :: n.chars) with hp
  have hpx : ∀ x, p x = true ↔ x = '+' :: n.chars ∨ x = '-' :: n.chars := by
    intro x
    simp [hp, strpy.equal_iff, or_comm]
  cases hfind : (argv.drop firstArgIndex).findIdx? p with
  | none =>
    rw [List.findIdx?_eq_none_iff] at hfind
    have hno : ¬ ∃ x ∈ argv.drop firstArgIndex, x = '+' :: n.chars ∨ x = '-' :: n.chars := by
      rintro ⟨x, hx, h⟩
      have := hfind x hx
      rw [(hpx x).mpr h] at this
      simp at this
    simp [hno]
  | some i =>
    obtain ⟨hlt, hi, -⟩ := List.findIdx?_eq_some_iff_getElem.mp hfind
    have hex : ∃ x ∈ argv.drop firstArgIndex, x = '+' :: n.chars ∨ x = '-' :: n.chars :=
      ⟨_, List.getElem_mem hlt, (hpx _).mp hi⟩
    have hne : ((i : Int) + (firstArgIndex : Int) != -1) = true := by
      simp only [bne_iff_ne, ne_eq]
      omega
    simp only [hne, true_iff]
    exact hex

/-- Both lookups report exactly the arguments that are `+name` or `-name`. -/
def LookupsAgree (strpy : Strpy) (argv : List Str) (args : CmdLineArgs) (n : ArgName strpy)
    (a : Str) : Prop :=
  (args.contains a = true ↔ CmdLineArgs.argvContains strpy argv a = true) ∧
    (args.contains a = true ↔
      ∃ x ∈ argv.drop firstArgIndex, x = '+' :: n.chars ∨ x = '-' :: n.chars)

theorem mentions_of_exact {n : ArgName strpy} {x : Str}
    (h : x = '+' :: n.chars ∨ x = '-' :: n.chars) : Mentions n x := by
  rcases h with rfl | rfl
  · exact Or.inl (List.infix_refl _)
  · exact Or.inr (List.infix_refl _)

/-- The arguments passed over are too short to mention a name. -/
theorem not_skipped_of_mentions {n : ArgName strpy} {x : Str} (h : Mentions n x) :
    isSkipped x = false := by
  have hne := List.length_pos_of_ne_nil n.ne_nil
  have hlen : n.chars.length + 1 ≤ x.length := by
    rcases h with h | h <;> simpa using h.length_le
  have hpos : x.isEmpty = false := by
    cases x with
    | nil => simp at hlen
    | cons c s => rfl
  have hone : (x.length == 1) = false := by
    simp only [beq_eq_false_iff_ne, ne_eq]
    omega
  simp [isSkipped, hpos, hone]

/-- The string mentions a name exactly when an argument it was built from does. -/
theorem mentions_plain_iff (n : ArgName strpy) {args : List Str} {ts : List strpy.Token}
    (hmap : ts.map Word.chars = args.filter fun x => !isSkipped x) :
    Mentions n (flat ' ' ts) ↔ ∃ x ∈ args, Mentions n x := by
  rw [mentions_flat_iff]
  constructor
  · rintro ⟨t, ht, hm⟩
    have hmem : t.chars ∈ ts.map Word.chars := List.mem_map_of_mem ht
    rw [hmap, List.mem_filter] at hmem
    exact ⟨t.chars, hmem.1, hm⟩
  · rintro ⟨x, hx, hm⟩
    have hmem : x ∈ ts.map Word.chars := by
      rw [hmap, List.mem_filter]
      exact ⟨hx, by simp [not_skipped_of_mentions hm]⟩
    obtain ⟨t, ht, rfl⟩ := List.mem_map.mp hmem
    exact ⟨t, ht, hm⟩

/-- The lookups agree exactly when every argument that contains `+name` or `-name` is
    accompanied by one that is `+name` or `-name`. -/
theorem lookups_agree_iff (strpy : Strpy) (disk : Disk) (depth : Nat) (argv : List Str)
    (n : ArgName strpy) (a : Str) (ha : IsSpelling n a)
    (hargv : ∀ x ∈ argv.drop firstArgIndex, PlainArg strpy x) :
    ∃ args, CmdLineArgs.fromCommandLine strpy disk (depth + 1) argv = .ok args ∧
      (LookupsAgree strpy argv args n a ↔
        ((∃ x ∈ argv.drop firstArgIndex, Mentions n x) →
          ∃ x ∈ argv.drop firstArgIndex, x = '+' :: n.chars ∨ x = '-' :: n.chars)) := by
  obtain ⟨ts, hmap, hbuild⟩ := buildArgumentsString_plain disk depth _ hargv
  refine ⟨⟨flat ' ' ts⟩, by rw [CmdLineArgs.fromCommandLine, extractCmdlineArgs, hbuild]; rfl, ?_⟩
  have hexact : (∃ x ∈ argv.drop firstArgIndex, x = '+' :: n.chars ∨ x = '-' :: n.chars) →
      ∃ x ∈ argv.drop firstArgIndex, Mentions n x := by
    rintro ⟨x, hx, h⟩
    exact ⟨x, hx, mentions_of_exact h⟩
  unfold LookupsAgree
  rw [contains_iff_mentions ha, argvContains_iff ha, mentions_plain_iff n hmap]
  exact ⟨fun h => h.2.mp, fun h => ⟨⟨h, hexact⟩, ⟨h, hexact⟩⟩⟩

/-- The name `game`. -/
def gameName : ArgName asciiStrpy :=
  argName asciiStrpy "game".toList (by decide) (by decide) (by decide)

/-- `-gamedir` makes `contains("-game")` true; the static lookup does not find it. -/
theorem lookups_disagree_gamedir :
    ∃ args, CmdLineArgs.fromCommandLine asciiStrpy (FileSystem.mk [] fun _ => none) 1
        ["hlds".toList, "-gamedir".toList] = .ok args ∧
      args.contains "-game".toList = true ∧
      CmdLineArgs.argvContains asciiStrpy ["hlds".toList, "-gamedir".toList] "-game".toList =
        false ∧
      ¬ LookupsAgree asciiStrpy ["hlds".toList, "-gamedir".toList] args gameName
        "-game".toList := by
  refine ⟨⟨"-gamedir".toList⟩, by decide, by decide, by decide, ?_⟩
  intro h
  have := h.1.mp (by decide)
  revert this
  decide

theorem lookups_agree_iff_game :
    ∃ args, CmdLineArgs.fromCommandLine asciiStrpy (FileSystem.mk [] fun _ => none) 1
        ["hlds".toList, "-game".toList, "cstrike".toList] = .ok args ∧
      (LookupsAgree asciiStrpy ["hlds".toList, "-game".toList, "cstrike".toList] args gameName
          "-game".toList ↔
        ((∃ x ∈ ["-game".toList, "cstrike".toList], Mentions gameName x) →
          ∃ x ∈ ["-game".toList, "cstrike".toList],
            x = '+' :: gameName.chars ∨ x = '-' :: gameName.chars)) :=
  lookups_agree_iff asciiStrpy (FileSystem.mk [] fun _ => none) 0
    ["hlds".toList, "-game".toList, "cstrike".toList] gameName "-game".toList (Or.inr (Or.inr rfl))
    (by
      intro x hx
      have hmem : x = "-game".toList ∨ x = "cstrike".toList := by
        simpa [firstArgIndex] using hx
      rcases hmem with rfl | rfl <;> exact ⟨asciiStrpy.isSpace_of_isGraph (by decide), by decide⟩)

end RehldsM.Core
