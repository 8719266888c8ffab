import RehldsM.Core.CmdlineRemove

/-
  What removing arguments is meant to do, on tokens: `takeOut H` deletes the tokens in `H`,
  each with the token directly behind it when that one is an option, and nothing else.

  `dropArg`, which is what the loop of `remove` computes, works from the last token to the
  first. It looks at what stands behind an argument after the later ones are gone, so a plain
  word that has moved up is taken for an option. `NoCapture` says that no word moves up this
  way. Then removing the names one after the other deletes exactly what `takeOut` deletes for
  all of them at once (`dropArg_takeOut`).
-/

namespace RehldsM.Core

open Lib Util

variable {strpy : Strpy}

/-- `takeOut` for a list whose front stands behind a token in `H` or not (`behind`). -/
def takeOutFrom (H : strpy.Token → Bool) : Bool → List strpy.Token → List strpy.Token
  | _, [] => []
  | behind, t :: ts =>
    if H t then takeOutFrom H true ts
    else if behind && isOption t then takeOutFrom H false ts
    else t :: takeOutFrom H false ts

/-- The tokens without those in `H` and without the options directly behind them. -/
def takeOut (H : strpy.Token → Bool) (ts : List strpy.Token) : List strpy.Token :=
  takeOutFrom H false ts

/-- The tokens that are one of the named arguments. -/
def handled (ns : List (ArgName strpy)) (t : strpy.Token) : Bool := ns.any fun n => isArg n t

/-- The list begins with a token that an argument in front of it would take for its option. -/
def startsOption (ts : List strpy.Token) : Bool := ts.head?.any isOption

/-- Once the arguments `ns` have been taken out, no argument `n` has a plain word behind it
    that was not there from the beginning. -/
def NoCapture (ns : List (ArgName strpy)) (n : ArgName strpy) (ts : List strpy.Token) : Prop :=
  ∀ u t v, ts = u ++ t :: v → isArg n t = true →
    startsOption (takeOut (handled (ns ++ [n])) v) = true → startsOption v = true

instance (ns : List (ArgName strpy)) (n : ArgName strpy) (ts : List strpy.Token) :
    Decidable (NoCapture ns n ts) :=
  decidable_of_iff _ (forall_cut_iff ts).symm

theorem isOption_of_isArg {n : ArgName strpy} {t : strpy.Token} (h : isArg n t = true) :
    isOption t = false := by
  rcases isArg_iff.mp h with h | h <;> simp [isOption, h]

theorem isOption_of_handled {ns : List (ArgName strpy)} {t : strpy.Token}
    (h : handled ns t = true) : isOption t = false := by
  obtain ⟨n, -, hn⟩ := List.any_eq_true.mp h
  exact isOption_of_isArg hn

theorem handled_append (ns : List (ArgName strpy)) (n : ArgName strpy) (t : strpy.Token) :
    handled (ns ++ [n]) t = (handled ns t || isArg n t) := by
  simp [handled]

theorem NoCapture.tail {ns : List (ArgName strpy)} {n : ArgName strpy} {t : strpy.Token}
    {ts : List strpy.Token} (h : NoCapture ns n (t :: ts)) : NoCapture ns n ts := by
  intro u x v hts
  exact h (t :: u) x v (by rw [hts]; rfl)

theorem noCapture_of_not_isArg {ns : List (ArgName strpy)} {n : ArgName strpy}
    {ts : List strpy.Token} (h : ∀ t ∈ ts, isArg n t = false) : NoCapture ns n ts := by
  rintro u t v rfl ht
  rw [h t (by simp)] at ht
  exact absurd ht (by simp)

theorem takeOutFrom_sublist (H : strpy.Token → Bool) (behind : Bool) (ts : List strpy.Token) :
    (takeOutFrom H behind ts).Sublist ts := by
  induction ts generalizing behind with
  | nil => exact List.Sublist.refl _
  | cons t ts ih =>
    unfold takeOutFrom
    split
    · exact (ih true).cons t
    · split
      · exact (ih false).cons t
      · exact (ih false).cons_cons t

theorem takeOut_sublist (H : strpy.Token → Bool) (ts : List strpy.Token) :
    (takeOut H ts).Sublist ts := takeOutFrom_sublist H false ts

theorem takeOutFrom_eq_self {H : strpy.Token → Bool} {ts : List strpy.Token}
    (h : ∀ t ∈ ts, H t = false) : takeOutFrom H false ts = ts := by
  induction ts with
  | nil => rfl
  | cons t ts ih =>
    rw [takeOutFrom, h t (by simp), ih fun x hx => h x (by simp [hx])]
    simp

/-- Behind a token in `H`, a list is treated as if its option were not there. -/
theorem takeOutFrom_true {H : strpy.Token → Bool} (hH : ∀ t, H t = true → isOption t = false)
    (ts : List strpy.Token) :
    takeOutFrom H true ts =
      if startsOption ts then dropOption (takeOutFrom H false ts) else takeOutFrom H false ts := by
  cases ts with
  | nil => rfl
  | cons o ts =>
    by_cases ho : isOption o = true
    · have hHo : H o = false := by
        by_contra hcon
        have := hH o (by simpa using hcon)
        simp [ho] at this
      simp [takeOutFrom, startsOption, hHo, ho, dropOption]
    · simp [takeOutFrom, startsOption, ho]

theorem dropOption_of_not_startsOption {ts : List strpy.Token} (h : startsOption ts = false) :
    dropOption ts = ts := by
  cases ts with
  | nil => rfl
  | cons o ts =>
    have ho : isOption o = false := by simpa [startsOption] using h
    simp [dropOption, ho]

/-- Removing `n` after `ns`, when no word is captured, is taking out all of them at once. -/
theorem dropArg_takeOutFrom {ns : List (ArgName strpy)} {n : ArgName strpy}
    {ts : List strpy.Token} (h : NoCapture ns n ts) (behind : Bool) :
    dropArg n (takeOutFrom (handled ns) behind ts) =
      takeOutFrom (handled (ns ++ [n])) behind ts := by
  induction ts generalizing behind with
  | nil => rfl
  | cons t ts ih =>
    have ih := ih h.tail
    by_cases hns : handled ns t = true
    · simp [takeOutFrom, handled_append, hns, ih]
    · have hns : handled ns t = false := by simpa using hns
      by_cases hn : isArg n t = true
      · -- `t` is removed; its option is the one it had in the original list.
        have hopt := isOption_of_isArg hn
        have hfrom := takeOutFrom_true (H := handled (ns ++ [n]))
          (fun t => isOption_of_handled) ts
        have hcap : startsOption ts = false →
            startsOption (takeOutFrom (handled (ns ++ [n])) false ts) = false := by
          intro hts
          by_contra hcon
          have := h [] t ts rfl hn (by simpa [takeOut] using hcon)
          simp [hts] at this
        simp only [takeOutFrom, handled_append, hns, hn, hopt, Bool.and_false, Bool.or_true,
          Bool.false_eq_true, if_true, if_false, dropArg, ih, hfrom]
        cases hts : startsOption ts with
        | true => rfl
        | false => exact dropOption_of_not_startsOption (hcap hts)
      · have hn : isArg n t = false := by simpa using hn
        by_cases hopt : (behind && isOption t) = true
        · simp [takeOutFrom, handled_append, hns, hn, hopt, ih]
        · simp [takeOutFrom, handled_append, hns, hn, hopt, ih, dropArg]

theorem dropArg_takeOut {ns : List (ArgName strpy)} {n : ArgName strpy} {ts : List strpy.Token}
    (h : NoCapture ns n ts) :
    dropArg n (takeOut (handled ns) ts) = takeOut (handled (ns ++ [n])) ts :=
  dropArg_takeOutFrom h false

theorem takeOut_handled_nil (ts : List strpy.Token) : takeOut (handled []) ts = ts :=
  takeOutFrom_eq_self fun _ _ => rfl

/-- Around the only argument everything stays but its option. -/
theorem takeOut_once {n : ArgName strpy} {us : List strpy.Token}
    (hus : ∀ x ∈ us, isArg n x = false) {t o : strpy.Token} (ht : isArg n t = true)
    (ho : isOption o = true) {vs : List strpy.Token} (hvs : ∀ x ∈ o :: vs, isArg n x = false) :
    takeOut (isArg n) (us ++ t :: o :: vs) = us ++ vs := by
  obtain ⟨ho', hvs⟩ := List.forall_mem_cons.mp hvs
  have hbehind : takeOutFrom (isArg n) true (o :: vs) = vs := by
    rw [takeOutFrom, ho', takeOutFrom_eq_self hvs]
    simp [ho]
  unfold takeOut
  induction us with
  | nil => rw [List.nil_append, takeOutFrom, if_pos ht, hbehind, List.nil_append]
  | cons u us ih =>
    have hu := hus u List.mem_cons_self
    rw [List.cons_append, takeOutFrom, hu, ih fun x hx => hus x (List.mem_cons_of_mem u hx)]
    simp

end RehldsM.Core
