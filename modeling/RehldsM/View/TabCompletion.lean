import RehldsM.Lib.CommonPrefix
import RehldsM.Model.ConsoleCommands
import RehldsM.View.ConsoleInput

/-
  Tab: the matches of the line as `find_command_matches` returns them, and what `handle_tab`
  makes of them.

  The matches are sorted, so the common prefix of the first and the last is that of all of them
  (`common_prefix_longest`). They are also trimmed, so a match can be shorter than the line it was
  found for; `tab_keeps_line_iff` says when `handle_tab` still gets through and keeps the line.
-/

namespace RehldsM.View

open Lib Util Model ConsoleInput

variable {strpy : Strpy}

/-! ## The common prefix -/

theorem commonPrefix_iff (a b q : Str) : q <+: commonPrefix a b ↔ q <+: a ∧ q <+: b := by
  fun_induction commonPrefix a b generalizing q with
  | case1 c a b ih =>
    cases q with
    | nil => simp
    | cons d q =>
      simp only [List.cons_prefix_cons, ih]
      exact ⟨fun h => ⟨⟨h.1, h.2.1⟩, h.1, h.2.2⟩, fun h => ⟨h.1.1, h.1.2, h.2.2⟩⟩
  | case2 c a d b hne =>
    cases q with
    | nil => simp
    | cons e q =>
      simp only [List.prefix_nil, reduceCtorEq, List.cons_prefix_cons, false_iff]
      rintro ⟨⟨rfl, -⟩, rfl, -⟩
      exact hne rfl
  | case3 a b hnot =>
    cases a with
    | nil => simp +contextual
    | cons c a =>
      cases b with
      | nil => simp +contextual
      | cons d b => exact absurd rfl (hnot c a d b rfl)

theorem longest_of_sorted {commands : List Str} (hne : commands ≠ [])
    (hsorted : commands.Pairwise (· ≤ ·)) :
    LongestCommonPrefix (findCommonCommandPrefix commands) commands := by
  have hfront := List.head?_eq_some_head hne
  have hback := List.getLast?_eq_some_getLast hne
  refine longest_of_ends hsorted hfront hback fun q => ?_
  rw [findCommonCommandPrefix, hfront, hback]
  exact (commonPrefix_iff _ _ _).symm

/-- Whatever the engine returns: of the matches, the common prefix of the first and the last is the
    longest one they all have. When there are none it is empty. -/
theorem common_prefix_longest (strpy : Strpy) (systemInterface : Option GetCommandMatches)
    (command : Str) :
    let commands := findCommandMatches strpy systemInterface command
    commands = [] ∧ findCommonCommandPrefix commands = [] ∨
      LongestCommonPrefix (findCommonCommandPrefix commands) commands := by
  intro commands
  by_cases hnil : commands = []
  · exact Or.inl ⟨hnil, by rw [hnil]; rfl⟩
  · exact Or.inr (longest_of_sorted hnil (sorted_findCommandMatches _ _))

/-! ## Trimmed matches -/

/-- The text begins with the line, up to upper and lower case. -/
def BeginsWith (strpy : Strpy) (line text : Str) : Prop :=
  strpy.toLower line <+: strpy.toLower text

instance (strpy : Strpy) (line text : Str) : Decidable (BeginsWith strpy line text) :=
  inferInstanceAs (Decidable (_ <+: _))

/-- Every match is still as long as the line once it is trimmed; and when there are several,
    the line does not begin with a space. -/
def LongEnough (strpy : Strpy) (line : Str) (reply : List (Option Str)) : Prop :=
  (∀ s ∈ namedMatches strpy reply, line.length ≤ (strpy.strip s).length) ∧
    (1 < (namedMatches strpy reply).length → ∀ c ∈ line.head?, strpy.isSpace c = false)

instance (strpy : Strpy) (line : Str) (reply : List (Option Str)) :
    Decidable (LongEnough strpy line reply) :=
  have : Decidable (∀ c ∈ line.head?, strpy.isSpace c = false) := Option.decidableForallMem _
  inferInstanceAs (Decidable (_ ∧ (_ → _)))

/-- Tab, when the engine returns this reply: `substr` stays within its string, and the line is
    kept. -/
def KeepsLine (strpy : Strpy) (s : ConsoleInput) (reply : List (Option Str)) (consoleWidth : Nat) :
    Prop :=
  ∃ s', s.handleTab (findCommandMatches strpy (some fun _ => reply) s.inputLine) consoleWidth =
      .ok s' ∧ BeginsWith strpy s.inputLine s'.inputLine

theorem head_strip {s : Str} {c : Char} (hc : c ∈ (strpy.strip s).head?) :
    strpy.isSpace c = false := by
  rw [strpy.strip_eq] at hc
  exact head_trim hc

theorem strip_isPrefix {s : Str} (hs : ∀ c ∈ s.head?, strpy.isSpace c = false) :
    strpy.strip s <+: s := by
  rw [strpy.strip_eq, trim, (dropWhile_eq_self_iff_head s).mpr hs]
  exact List.rdropWhile_prefix _ _

/-- What `to_lower` does to a character: nothing more the second time, and a space stays one,
    as does every other character. -/
structure LowerCase (strpy : Strpy) : Prop where
  idem : ∀ c, strpy.toLowerChar (strpy.toLowerChar c) = strpy.toLowerChar c
  space : ∀ c, strpy.isSpace (strpy.toLowerChar c) = strpy.isSpace c

theorem LowerCase.toLower_idem (hlower : LowerCase strpy) (s : Str) :
    strpy.toLower (strpy.toLower s) = strpy.toLower s := by
  rw [strpy.toLower_eq, strpy.toLower_eq, List.map_map]
  exact List.map_congr_left fun c _ => hlower.idem c

theorem toLower_mono (strpy : Strpy) {s t : Str} (h : s <+: t) :
    strpy.toLower s <+: strpy.toLower t := by
  rw [strpy.toLower_eq, strpy.toLower_eq]
  exact h.map _

theorem length_toLower (strpy : Strpy) (s : Str) : (strpy.toLower s).length = s.length := by
  rw [strpy.toLower_eq, List.length_map]

theorem head_space_of_beginsWith (hlower : LowerCase strpy) {line text : Str}
    (h : BeginsWith strpy line text) {c d : Char} (hc : c ∈ line.head?) (hd : d ∈ text.head?) :
    strpy.isSpace c = strpy.isSpace d := by
  obtain ⟨line, rfl⟩ := List.head?_eq_some_iff.mp hc
  obtain ⟨text, rfl⟩ := List.head?_eq_some_iff.mp hd
  unfold BeginsWith at h
  rw [strpy.toLower_eq, strpy.toLower_eq, List.map_cons, List.map_cons,
    List.cons_prefix_cons] at h
  rw [← hlower.space c, h.1, hlower.space d]

/-- What trimming leaves of a match of the line. -/
theorem beginsWith_strip_iff (hlower : LowerCase strpy) {line s : Str} (hline : line ≠ [])
    (h : BeginsWith strpy line s) :
    BeginsWith strpy line (strpy.strip s) ↔
      line.length ≤ (strpy.strip s).length ∧ ∀ c ∈ line.head?, strpy.isSpace c = false := by
  constructor
  · intro hstrip
    have hle : line.length ≤ (strpy.strip s).length := by
      rw [← length_toLower strpy line, ← length_toLower strpy (strpy.strip s)]
      exact hstrip.length_le
    refine ⟨hle, fun c hc => ?_⟩
    have hne : strpy.strip s ≠ [] := by
      intro hnil
      rw [hnil] at hle
      exact hline (List.length_eq_zero_iff.mp (Nat.le_zero.mp hle))
    have hd := List.head?_eq_some_head hne
    rw [head_space_of_beginsWith hlower hstrip hc hd, head_strip hd]
  · rintro ⟨hle, hhead⟩
    have hs : ∀ d ∈ s.head?, strpy.isSpace d = false := by
      intro d hd
      have hc := List.head?_eq_some_head hline
      rw [← head_space_of_beginsWith hlower h hc hd]
      exact hhead _ hc
    refine List.prefix_of_prefix_length_le h (toLower_mono strpy (strip_isPrefix hs)) ?_
    rwa [length_toLower, length_toLower]

/-- The common prefix begins with the line exactly when all the matches do. -/
theorem beginsWith_common_iff (hlower : LowerCase strpy) {line p : Str} {names commands : List Str}
    (hcommands : commands.Perm (names.map strpy.toLower)) (hp : LongestCommonPrefix p commands) :
    BeginsWith strpy line p ↔ ∀ s ∈ names, BeginsWith strpy line s := by
  constructor
  · intro h s hs
    have hmem : strpy.toLower s ∈ commands := hcommands.mem_iff.mpr (List.mem_map_of_mem hs)
    have hlow := toLower_mono strpy (hp.all _ hmem)
    rw [hlower.toLower_idem] at hlow
    exact h.trans hlow
  · intro h
    have hline : strpy.toLower line <+: p := by
      refine (hp _).mp fun command hcommand => ?_
      obtain ⟨s, hs, rfl⟩ := List.mem_map.mp (hcommands.mem_iff.mp hcommand)
      exact h s hs
    have hlow := toLower_mono strpy hline
    rwa [hlower.toLower_idem] at hlow

/-! ## `handle_tab` -/

/-- `clear_input` meets no position outside the line, wherever the cursor is. -/
theorem clearInput_ok (s : ConsoleInput) : ∃ s', s.clearInput = .ok s' := by
  by_cases hcursor : s.cursorPosition ≤ s.inputLine.length
  · have hat : s.At (s.inputLine.take s.cursorPosition) (s.inputLine.drop s.cursorPosition) :=
      ⟨(List.take_append_drop _ _).symm, by rw [List.length_take, Nat.min_eq_left hcursor]⟩
    exact ⟨_, clearInput_at hat⟩
  · have hend : s.handleEnd = .ok s := by
      rw [handleEnd, Nat.sub_eq_zero_of_le (Nat.le_of_not_le hcursor)]
      rfl
    unfold clearInput
    rw [hend]
    split
    · exact ⟨_, rfl⟩
    · exact ⟨_, rfl⟩

/-- Of several matches the line becomes the common prefix. -/
theorem handleTab_several (strpy : Strpy) (s : ConsoleInput) (command command' : Str)
    (commands : List Str) (consoleWidth : Nat) :
    (∃ s', s.handleTab (command :: command' :: commands) consoleWidth = .ok s' ∧
      BeginsWith strpy s.inputLine s'.inputLine) ↔
        BeginsWith strpy s.inputLine
          (findCommonCommandPrefix (command :: command' :: commands)) := by
  obtain ⟨s', hs'⟩ := clearInput_ok s
  unfold handleTab
  dsimp only
  rw [hs']
  constructor
  · rintro ⟨t, ht, hbegins⟩
    cases ht
    exact hbegins
  · intro hbegins
    exact ⟨_, rfl, hbegins⟩

/-- A single match is kept exactly when it is as long as the line. -/
theorem handleTab_one (strpy : Strpy) (s : ConsoleInput) (command : Str) (consoleWidth : Nat) :
    (∃ s', s.handleTab [command] consoleWidth = .ok s' ∧
      BeginsWith strpy s.inputLine s'.inputLine) ↔ s.inputLine.length ≤ command.length := by
  unfold handleTab strSubstr
  dsimp only
  by_cases hlen : s.inputLine.length ≤ command.length
  · rw [if_pos hlen]
    exact iff_of_true ⟨_, rfl, toLower_mono strpy (List.prefix_append _ _)⟩ hlen
  · rw [if_neg hlen]
    refine iff_of_false ?_ hlen
    rintro ⟨s', hs', -⟩
    cases hs'

/-- Tab keeps the typed line, and throws nothing, exactly when the matches are long enough. -/
theorem tab_keeps_line_iff (strpy : Strpy) (hlower : LowerCase strpy) (s : ConsoleInput)
    (hline : s.inputLine ≠ []) (reply : List (Option Str))
    (hreply : ∀ text, some text ∈ reply → BeginsWith strpy s.inputLine text) (consoleWidth : Nat) :
    KeepsLine strpy s reply consoleWidth ↔ LongEnough strpy s.inputLine reply := by
  have hperm : (findCommandMatches strpy (some fun _ => reply) s.inputLine).Perm
      (((namedMatches strpy reply).map strpy.strip).map strpy.toLower) := by
    rw [List.map_map]
    exact perm_findCommandMatches (fun _ => reply) hline
  have hsorted : (findCommandMatches strpy (some fun _ => reply) s.inputLine).Pairwise (· ≤ ·) :=
    sorted_findCommandMatches (some fun _ => reply) s.inputLine
  have hnamed : ∀ text ∈ namedMatches strpy reply, BeginsWith strpy s.inputLine text := by
    intro text htext
    obtain ⟨x, hx, hid⟩ := List.mem_filterMap.mp (List.mem_of_mem_filter htext)
    obtain rfl : x = some text := hid
    exact hreply text hx
  have hlen := hperm.length_eq
  rw [List.length_map, List.length_map] at hlen
  unfold KeepsLine LongEnough
  generalize findCommandMatches strpy (some fun _ => reply) s.inputLine = commands
    at hperm hsorted hlen
  match commands with
  | [] =>
    have hnil : namedMatches strpy reply = [] := List.length_eq_zero_iff.mp hlen.symm
    rw [hnil]
    exact iff_of_true ⟨s, rfl, List.prefix_refl _⟩ ⟨by simp, by simp⟩
  | [command] =>
    obtain ⟨text, htext⟩ := List.length_eq_one_iff.mp hlen.symm
    rw [htext] at hperm ⊢
    have hcommand : command = strpy.toLower (strpy.strip text) := by
      simpa using hperm.singleton_eq
    rw [handleTab_one, hcommand, length_toLower]
    simp
  | command :: command' :: commands =>
    have hmany : 1 < (namedMatches strpy reply).length := by
      rw [← hlen]
      simp
    have hlongest := longest_of_sorted (List.cons_ne_nil _ _) hsorted
    rw [handleTab_several, beginsWith_common_iff hlower hperm hlongest, List.forall_mem_map]
    constructor
    · intro h
      have hall := fun text htext =>
        (beginsWith_strip_iff hlower hline (hnamed text htext)).mp (h text htext)
      obtain ⟨text, htext⟩ := List.exists_mem_of_length_pos (Nat.lt_of_succ_lt hmany)
      exact ⟨fun text htext => (hall text htext).1, fun _ => (hall text htext).2⟩
    · rintro ⟨hle, hhead⟩ text htext
      exact (beginsWith_strip_iff hlower hline (hnamed text htext)).mpr
        ⟨hle text htext, hhead hmany⟩

/-- Only the letters from `A` to `Z` change, each into one that is neither among them nor a
    space. -/
theorem toLower_ascii (c : Char) :
    c.toLower = c ∨ c.toLower.toLower = c.toLower ∧ isAsciiSpace c.toLower = isAsciiSpace c := by
  by_cases hupper : c.val ≥ 'A'.val ∧ c.val ≤ 'Z'.val
  · right
    have hlo : 65 ≤ c.toNat := hupper.1
    have hhi : c.toNat ≤ 90 := hupper.2
    have hall : ∀ n ≤ 90, 65 ≤ n → (Char.ofNat n).toLower.toLower = (Char.ofNat n).toLower ∧
        isAsciiSpace (Char.ofNat n).toLower = isAsciiSpace (Char.ofNat n) := by decide
    have h := hall c.toNat hhi hlo
    rwa [Char.ofNat_toNat] at h
  · left
    exact dif_neg hupper

theorem lowerCase_ascii : LowerCase asciiStrpy where
  idem c := by
    show c.toLower.toLower = c.toLower
    rcases toLower_ascii c with h | h
    · rw [h, h]
    · exact h.1
  space c := by
    show isAsciiSpace c.toLower = isAsciiSpace c
    rcases toLower_ascii c with h | h
    · rw [h]
    · exact h.2

/-- `map` and a space are typed; the engine has a command of this name, and trimmed it is shorter
    than the line. -/
theorem tab_throws_behind_space :
    ∃ s, ("map ".toList.map Key.char).foldlM (handle asciiStrpy) blank = .ok s ∧
      s.handleTab (findCommandMatches asciiStrpy (some fun _ => [some "map ".toList]) s.inputLine)
          80 = .error .substr ∧
      ¬ KeepsLine asciiStrpy s [some "map ".toList] 80 := by
  have hmatches : findCommandMatches asciiStrpy (some fun _ => [some "map ".toList])
      "map ".toList = ["map".toList] := by decide +kernel
  have hthrows : ∀ s : ConsoleInput, s.inputLine = "map ".toList →
      s.handleTab (findCommandMatches asciiStrpy (some fun _ => [some "map ".toList]) s.inputLine)
        80 = .error .substr := by
    intro s hs
    rw [hs, hmatches]
    unfold handleTab
    rw [hs]
    rfl
  refine ⟨_, rfl, hthrows _ (by decide +kernel), ?_⟩
  rintro ⟨s', hs', -⟩
  rw [hthrows _ (by decide +kernel)] at hs'
  cases hs'

/-- Two matches of `st`, of which one ends in a space. -/
theorem tab_keeps_line_iff_status :
    KeepsLine asciiStrpy (blank.showLine "st".toList)
      [some "status".toList, none, some "Stop ".toList] 80 :=
  (tab_keeps_line_iff asciiStrpy lowerCase_ascii (blank.showLine "st".toList) (by decide)
    [some "status".toList, none, some "Stop ".toList] (by
      intro text htext
      have hmem : text = "status".toList ∨ text = "Stop ".toList := by simpa using htext
      rcases hmem with rfl | rfl <;> decide) 80).mpr (by decide +kernel)

end RehldsM.View
