import RehldsM.Util.Strings

/-
  `fmt::format` and `fmt::print` of the `fmt` package, which is not part of the repository.

  `Fmt` is the package as a parameter. All arguments are strings here. What the callers rely on
  are the fields: without arguments a text is read by `unescape`, and `{}` fields are filled in
  turn. `plainFmt` is one such package; it knows no fields but `{}`.
-/

namespace RehldsM.Util

/-- `fmt::format_error`. -/
inductive FormatError where
  | formatError
deriving DecidableEq

def isBrace (c : Char) : Bool := c == '{' || c == '}'

/-- A text without braces. -/
def noBraces (s : Str) : Bool := s.all fun c => !isBrace c

/-- A format string that has no arguments: a doubled brace stands for the brace, and a single one
    is an error. -/
def unescape : Str → Except FormatError Str
  | [] => .ok []
  | '{' :: '{' :: s => (unescape s).map ('{' :: ·)
  | '}' :: '}' :: s => (unescape s).map ('}' :: ·)
  | c :: s => if isBrace c then .error .formatError else (unescape s).map (c :: ·)

/-- A format string with `{}` fields: the text in front of the first one, and for each one its
    argument and the text behind it. -/
def spell (t : Str) (fields : List (Str × Str)) : Str :=
  t ++ (fields.map fun f => '{' :: '}' :: f.2).flatten

/-- The fields filled in. -/
def fill (t : Str) (fields : List (Str × Str)) : Str :=
  t ++ (fields.map fun f => f.1 ++ f.2).flatten

structure Fmt where
  format : Str → List Str → Except FormatError Str
  format_text : ∀ s, format s [] = unescape s
  format_fields : ∀ t fields, noBraces t = true → (∀ f ∈ fields, noBraces f.2 = true) →
    format (spell t fields) (fields.map Prod.fst) = .ok (fill t fields)

/-! ## Texts without arguments -/

theorem unescape_cons {c : Char} (h : isBrace c = false) (s : Str) :
    unescape (c :: s) = (unescape s).map (c :: ·) := by
  rw [unescape]
  · rw [if_neg (by simp [h])]
  · rintro s' rfl -
    exact absurd h (by decide)
  · rintro s' rfl -
    exact absurd h (by decide)

theorem eq_of_map_ok {x : Except FormatError Str} {f : Str → Str} {r : Str}
    (h : x.map f = .ok r) : ∃ r', x = .ok r' ∧ r = f r' := by
  cases x with
  | error e => cases h
  | ok r' =>
    cases h
    exact ⟨r', rfl, rfl⟩

/-- What comes out is no longer than the text, and as long only if the text has no braces. -/
theorem length_unescape {s r : Str} (h : unescape s = .ok r) :
    r.length ≤ s.length ∧ (r.length = s.length → noBraces s = true) := by
  fun_induction unescape s generalizing r with
  | case1 =>
    cases h
    exact ⟨Nat.le_refl _, fun _ => rfl⟩
  | case2 s ih | case3 s ih =>
    obtain ⟨r', hs, rfl⟩ := eq_of_map_ok h
    have hle := (ih hs).1
    simp only [List.length_cons]
    exact ⟨by omega, fun heq => by omega⟩
  | case4 c s => cases h
  | case5 c s _ _ hbrace ih =>
    obtain ⟨r', hs, rfl⟩ := eq_of_map_ok h
    obtain ⟨hle, hplain⟩ := ih hs
    refine ⟨Nat.succ_le_succ hle, fun heq => ?_⟩
    have htail : noBraces s = true := hplain (Nat.succ.inj heq)
    simpa [noBraces, hbrace] using htail

theorem unescape_of_noBraces {s : Str} (h : noBraces s = true) : unescape s = .ok s := by
  induction s with
  | nil => rfl
  | cons c s ih =>
    simp only [noBraces, List.all_cons, Bool.and_eq_true, Bool.not_eq_true'] at h
    rw [unescape_cons h.1, ih h.2]
    rfl

/-- Exactly the texts without braces are printed as they are. -/
theorem unescape_eq_self_iff {s : Str} : unescape s = .ok s ↔ noBraces s = true :=
  ⟨fun h => (length_unescape h).2 rfl, unescape_of_noBraces⟩

/-! ## A package with `{}` fields only -/

def plainFormat : Str → List Str → Except FormatError Str
  | [], _ => .ok []
  | '{' :: '{' :: s, args => (plainFormat s args).map ('{' :: ·)
  | '}' :: '}' :: s, args => (plainFormat s args).map ('}' :: ·)
  | '{' :: '}' :: s, arg :: args => (plainFormat s args).map (arg ++ ·)
  | c :: s, args => if isBrace c then .error .formatError else (plainFormat s args).map (c :: ·)

theorem plainFormat_cons {c : Char} (h : isBrace c = false) (s : Str) (args : List Str) :
    plainFormat (c :: s) args = (plainFormat s args).map (c :: ·) := by
  rw [plainFormat]
  · rw [if_neg (by simp [h])]
  all_goals
    intros
    subst c
    exact absurd h (by decide)

theorem plainFormat_text (s : Str) : plainFormat s [] = unescape s := by
  fun_induction unescape s with
  | case1 => rfl
  | case2 s ih | case3 s ih => rw [plainFormat, ih]
  | case4 c s hopen hclose hbrace =>
    rw [plainFormat]
    · rw [if_pos hbrace]
    · exact hopen
    · exact hclose
    · intro s' arg args hargs
      cases hargs
  | case5 c s hopen hclose hbrace ih =>
    rw [plainFormat_cons (Bool.eq_false_iff.mpr hbrace), ih]

theorem plainFormat_append {t : Str} (ht : noBraces t = true) (s : Str) (args : List Str) :
    plainFormat (t ++ s) args = (plainFormat s args).map (t ++ ·) := by
  induction t with
  | nil =>
    rw [List.nil_append]
    cases plainFormat s args <;> rfl
  | cons c t ih =>
    simp only [noBraces, List.all_cons, Bool.and_eq_true, Bool.not_eq_true'] at ht
    rw [List.cons_append, plainFormat_cons ht.1, ih ht.2]
    cases plainFormat s args <;> rfl

theorem plainFormat_fields (t : Str) (fields : List (Str × Str)) (ht : noBraces t = true)
    (hfields : ∀ f ∈ fields, noBraces f.2 = true) :
    plainFormat (spell t fields) (fields.map Prod.fst) = .ok (fill t fields) := by
  induction fields generalizing t with
  | nil =>
    unfold spell fill
    rw [plainFormat_append ht]
    rfl
  | cons f fields ih =>
    have hrest := ih f.2 (hfields f List.mem_cons_self) fun f' hf' =>
      hfields f' (List.mem_cons_of_mem f hf')
    have hfield : plainFormat ('{' :: '}' :: spell f.2 fields) (f.1 :: fields.map Prod.fst) =
        .ok (f.1 ++ fill f.2 fields) := by
      rw [plainFormat, hrest]
      rfl
    calc plainFormat (spell t (f :: fields)) (f.1 :: fields.map Prod.fst)
        = plainFormat (t ++ '{' :: '}' :: spell f.2 fields) (f.1 :: fields.map Prod.fst) := by
          simp [spell]
      _ = .ok (t ++ (f.1 ++ fill f.2 fields)) := by
          rw [plainFormat_append ht, hfield]
          rfl
      _ = .ok (fill t (f :: fields)) := by simp [fill]

def plainFmt : Fmt where
  format := plainFormat
  format_text := plainFormat_text
  format_fields := plainFormat_fields

end RehldsM.Util
