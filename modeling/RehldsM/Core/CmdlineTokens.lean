import RehldsM.Core.CmdlineArgs

/-
  The token view of `CmdLineArgs`: what the searches and edits of the flat string do to its
  space-separated tokens.

  `flat ' ' ts` is the string of the tokens `ts`. The searches find substrings, so they can
  stop inside a token that merely contains `+name` or `-name`; `Unambiguous name ts` says
  that no token does so without being the argument itself. Under it
  `find_argument_pos` finds the last token that is the argument, and `get_argument_option`
  reads the token behind it; this is proved in `CmdlineLookup`, and what `remove` then does to
  the tokens (`dropArg`) in `CmdlineRemove`.
  `from_command_line` is treated here for arguments without `@`-files
  (`buildArgumentsString_plain`), and with them in `CmdlineFiles`.
-/

namespace RehldsM.Core

open Lib Util

variable {strpy : Strpy}

/-- An argument of `argv` that is one word at most and names no file. -/
def PlainArg (strpy : Strpy) (x : Str) : Prop :=
  (∀ c ∈ x, strpy.isSpace c = false) ∧ x.head? ≠ some '@'

/-- The name of an argument: a token that does not begin with a prefix character. -/
structure ArgName (strpy : Strpy) extends Word strpy.isSpace where
  no_prefix : ∀ c ∈ chars.head?, isPrefixChar c = false

/-- A name spelled out in the source. -/
def argName (strpy : Strpy) (s : Str) (hne : s ≠ []) (h : Strpy.isGraph s = true)
    (hpre : s.head?.any isPrefixChar = false) : ArgName strpy :=
  ⟨strpy.token s hne h, fun c hc => by
    rw [show s.head? = some c from hc] at hpre
    simpa using hpre⟩

/-- The three ways callers write an argument. -/
def IsSpelling (n : ArgName strpy) (a : Str) : Prop :=
  a = n.chars ∨ a = '+' :: n.chars ∨ a = '-' :: n.chars

/-- The token is `+name` or `-name`. -/
def isArg (n : ArgName strpy) (t : strpy.Token) : Bool :=
  t.chars == '+' :: n.chars || t.chars == '-' :: n.chars

/-- `+name` or `-name` occurs in the string. -/
def Mentions (n : ArgName strpy) (x : Str) : Prop :=
  '+' :: n.chars <:+: x ∨ '-' :: n.chars <:+: x

instance (n : ArgName strpy) (x : Str) : Decidable (Mentions n x) :=
  inferInstanceAs (Decidable (_ ∨ _))

/-- The tokens in which the name occurs are the argument itself. -/
def Unambiguous (n : ArgName strpy) (ts : List strpy.Token) : Prop :=
  ∀ t ∈ ts, Mentions n t.chars → isArg n t = true

instance (n : ArgName strpy) (ts : List strpy.Token) : Decidable (Unambiguous n ts) :=
  inferInstanceAs (Decidable (∀ t ∈ ts, _ → _))

/-- A token that is read as the option of the argument before it. -/
def isOption (t : strpy.Token) : Bool :=
  t.chars.head? != some '+' && t.chars.head? != some '-'

/-- The option an argument has when `ts` follows it. -/
def optionOf : List strpy.Token → Option strpy.Token
  | [] => none
  | o :: _ => if isOption o then some o else none

/-- The tokens behind the last argument of this name. -/
def behindLast (n : ArgName strpy) : List strpy.Token → Option (List strpy.Token)
  | [] => none
  | t :: ts =>
    match behindLast n ts with
    | some v => some v
    | none => if isArg n t then some ts else none

/-- The option of the last argument of this name. -/
def readOption (n : ArgName strpy) (ts : List strpy.Token) : Option strpy.Token :=
  (behindLast n ts).bind optionOf

/-- `ts` without the option at its front. -/
def dropOption : List strpy.Token → List strpy.Token
  | [] => []
  | o :: ts => if isOption o then ts else o :: ts

/-- The tokens without the argument and its options, taken out from the last one on: an
    argument also loses the token that stands behind it once the later ones are gone. -/
def dropArg (n : ArgName strpy) : List strpy.Token → List strpy.Token
  | [] => []
  | t :: ts => if isArg n t then dropOption (dropArg n ts) else t :: dropArg n ts

/-! ## Names and their spellings -/

theorem isArg_iff {n : ArgName strpy} {t : strpy.Token} :
    isArg n t = true ↔ t.chars = '+' :: n.chars ∨ t.chars = '-' :: n.chars := by
  simp [isArg]

theorem removeArgumentPrefix_name (n : ArgName strpy) : removeArgumentPrefix n.chars = n.chars := by
  have hne := n.ne_nil
  have hpre := n.no_prefix
  cases hn : n.chars with
  | nil => exact absurd hn hne
  | cons c s =>
    have hc : isPrefixChar c = false := hpre c (by simp [hn])
    simp [removeArgumentPrefix, hc]

theorem removeArgumentPrefix_spelling {n : ArgName strpy} {a : Str} (ha : IsSpelling n a) :
    removeArgumentPrefix a = n.chars := by
  rcases ha with rfl | rfl | rfl
  · exact removeArgumentPrefix_name n
  · rfl
  · rfl

theorem findArgumentPos_spelling {n : ArgName strpy} {a : Str} (ha : IsSpelling n a)
    (args : CmdLineArgs) : args.findArgumentPos a = args.findArgumentPos n.chars := by
  unfold CmdLineArgs.findArgumentPos
  rw [removeArgumentPrefix_spelling ha, removeArgumentPrefix_name]

theorem remove_spelling {n : ArgName strpy} {a : Str} (ha : IsSpelling n a) (args : CmdLineArgs) :
    args.remove a = args.remove n.chars := by
  unfold CmdLineArgs.remove
  rw [removeArgumentPrefix_spelling ha, removeArgumentPrefix_name]

theorem findArgumentPos_name_eq_none_iff {n : ArgName strpy} {args : CmdLineArgs} :
    args.findArgumentPos n.chars = none ↔ ¬ Mentions n args.arguments := by
  rw [CmdLineArgs.findArgumentPos_eq_none_iff, removeArgumentPrefix_name]
  exact not_or.symm

/-- `contains` is a substring search. -/
theorem contains_iff_mentions {n : ArgName strpy} {a : Str} (ha : IsSpelling n a)
    (args : CmdLineArgs) : args.contains a = true ↔ Mentions n args.arguments := by
  unfold CmdLineArgs.contains
  rw [findArgumentPos_spelling ha, Option.isSome_iff_ne_none, ne_eq,
    findArgumentPos_name_eq_none_iff, not_not]

/-- The loop of `remove` ends when the name is not mentioned. -/
theorem remove_of_not_mentions {n : ArgName strpy} (args : CmdLineArgs)
    (h : ¬ Mentions n args.arguments) : args.remove n.chars = args := by
  apply CmdLineArgs.remove_of_none
  rw [removeArgumentPrefix_name]
  exact findArgumentPos_name_eq_none_iff.mpr h

theorem remove_turn {n : ArgName strpy} {args : CmdLineArgs} {pos : Nat}
    (h : args.findArgumentPos n.chars = some pos) :
    args.remove n.chars = (args.removeAt n.chars pos).remove n.chars := by
  rw [CmdLineArgs.remove_of_some (by rw [removeArgumentPrefix_name]; exact h),
    removeArgumentPrefix_name]

theorem Mentions.mono {n : ArgName strpy} {x s : Str} (h : Mentions n x) (hx : x <:+: s) :
    Mentions n s :=
  h.imp (·.trans hx) (·.trans hx)

/-- The name is too short to mention itself. -/
theorem not_infix_name (n : ArgName strpy) (s : Char) : ¬ s :: n.chars <:+: n.chars := by
  intro h
  have hlen := h.length_le
  rw [List.length_cons] at hlen
  omega

theorem not_mentions_name (n : ArgName strpy) : ¬ Mentions n n.chars :=
  not_or.mpr ⟨not_infix_name n '+', not_infix_name n '-'⟩

theorem not_mentions_nil (n : ArgName strpy) : ¬ Mentions n [] := by
  simp [Mentions]

theorem not_mem_of_isSpace {c : Char} (hc : strpy.isSpace c = true) (n : ArgName strpy) {s : Char}
    (hs : strpy.isSpace s = false) : c ∉ s :: n.chars := by
  intro h
  rcases List.mem_cons.mp h with rfl | h
  · simp [hc] at hs
  · exact n.toWord.not_mem hc h

theorem space_not_mem_plus (n : ArgName strpy) : ' ' ∉ '+' :: n.chars :=
  not_mem_of_isSpace strpy.isSpace_space n strpy.isSpace_plus

theorem space_not_mem_minus (n : ArgName strpy) : ' ' ∉ '-' :: n.chars :=
  not_mem_of_isSpace strpy.isSpace_space n strpy.isSpace_minus

theorem mentions_flat_iff (n : ArgName strpy) (ts : List strpy.Token) :
    Mentions n (flat ' ' ts) ↔ ∃ t ∈ ts, Mentions n t.chars := by
  unfold Mentions
  rw [infix_flat_iff (by simp) (space_not_mem_plus n),
    infix_flat_iff (by simp) (space_not_mem_minus n)]
  constructor
  · rintro (⟨t, ht, h⟩ | ⟨t, ht, h⟩)
    · exact ⟨t, ht, Or.inl h⟩
    · exact ⟨t, ht, Or.inr h⟩
  · rintro ⟨t, ht, h | h⟩
    · exact Or.inl ⟨t, ht, h⟩
    · exact Or.inr ⟨t, ht, h⟩

theorem mentions_of_isArg {n : ArgName strpy} {t : strpy.Token} (h : isArg n t = true) :
    Mentions n t.chars := by
  rcases isArg_iff.mp h with h | h
  · exact Or.inl (by rw [h])
  · exact Or.inr (by rw [h])

/-! ## `from_command_line` without `@`-files -/

theorem appendArgument_plain {x : Str} (hx : PlainArg strpy x) (disk : Disk)
    (nested : List Str → Except NoReturn Str) (string : Str) :
    appendArgument strpy disk nested string x =
      .ok (if isSkipped x then string else string ++ x ++ [' ']) := by
  unfold appendArgument
  by_cases hskip : isSkipped x = true
  · simp [hskip]
  · simp [hskip, hx.2]

/-- A turn of the loop that comes back. -/
theorem foldlM_cons_ok {σ α ε : Type} {f : σ → α → Except ε σ} {s s' : σ} {x : α}
    (h : f s x = .ok s') (xs : List α) : (x :: xs).foldlM f s = xs.foldlM f s' := by
  rw [List.foldlM_cons, h]
  rfl

theorem foldlM_appendArgument_plain (disk : Disk) (nested : List Str → Except NoReturn Str)
    (args : List Str) (hargs : ∀ x ∈ args, PlainArg strpy x) (string : Str) :
    ∃ ts : List strpy.Token, ts.map Word.chars = args.filter (fun x => !isSkipped x) ∧
      args.foldlM (appendArgument strpy disk nested) string = .ok (string ++ lead ' ' ts) := by
  induction args generalizing string with
  | nil => exact ⟨[], rfl, congrArg Except.ok (by simp)⟩
  | cons x args ih =>
    have hx := hargs x (by simp)
    have htail : ∀ y ∈ args, PlainArg strpy y := fun y hy => hargs y (by simp [hy])
    rw [foldlM_cons_ok (appendArgument_plain hx disk nested string)]
    by_cases hskip : isSkipped x = true
    · obtain ⟨ts, hmap, hfold⟩ := ih htail string
      exact ⟨ts, by simp [hskip, hmap], by simp [hskip, hfold]⟩
    · obtain ⟨ts, hmap, hfold⟩ := ih htail (string ++ x ++ [' '])
      have hne : x ≠ [] := by
        rintro rfl
        simp [isSkipped] at hskip
      refine ⟨⟨x, hne, hx.1⟩ :: ts, by simp [hskip, hmap], ?_⟩
      simpa [hskip, lead_cons] using hfold

/-- Without `@`-files the string is the list of the arguments that are not passed over. -/
theorem buildArgumentsString_plain (disk : Disk) (depth : Nat) (args : List Str)
    (hargs : ∀ x ∈ args, PlainArg strpy x) :
    ∃ ts : List strpy.Token, ts.map Word.chars = args.filter (fun x => !isSkipped x) ∧
      buildArgumentsString strpy disk (depth + 1) args = .ok (flat ' ' ts) := by
  obtain ⟨ts, hmap, hfold⟩ :=
    foldlM_appendArgument_plain disk (buildArgumentsString strpy disk depth) args hargs []
  refine ⟨ts, hmap, ?_⟩
  rw [buildArgumentsString, hfold, List.nil_append, Except.map, strpy.strip_eq,
    trim_lead strpy.isSpace_space]

end RehldsM.Core
