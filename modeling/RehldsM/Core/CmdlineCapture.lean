import RehldsM.Core.CmdlineTakeOut

/-
  Removing several arguments in turn, and exactly when this is `takeOut`.

  `dropArgs ns` removes the names `ns` one after the other, as the processor does. Every
  removal can only lose more than it should, and only options: `Shed X Y` says that `X` is `Y`
  without some of its options, and it goes through a later removal (`Shed.dropArg`).

  For the other direction the tokens are counted. `takeOut H` deletes the arguments, and one
  option for every argument that stands directly in front of one (`length_takeOutFrom`);
  `dropArgs` deletes at least as many (`length_dropArgs`), because a removal never separates a
  later argument from its option (`optioned_dropArg`). So a word that was captured once is
  missing at the end (`dropArgs_eq_takeOut_iff`).
-/

namespace RehldsM.Core

open Lib Util

variable {strpy : Strpy}

/-- The names are removed one after the other. -/
def dropArgs (ns : List (ArgName strpy)) (ts : List strpy.Token) : List strpy.Token :=
  ns.foldl (fun ts n => dropArg n ts) ts

/-- `P` holds of every name in the list, together with the names in front of it. -/
def Staged (P : List (ArgName strpy) → ArgName strpy → Prop) (ns : List (ArgName strpy)) : Prop :=
  ∀ u n v, ns = u ++ n :: v → P u n

instance (P : List (ArgName strpy) → ArgName strpy → Prop) [∀ ns n, Decidable (P ns n)]
    (ns : List (ArgName strpy)) : Decidable (Staged P ns) :=
  decidable_of_iff _ (forall_cut_iff ns).symm

/-- No two of the names are the same. -/
def Distinct (ns : List (ArgName strpy)) : Prop := ns.Pairwise fun m n => m.chars ≠ n.chars

/-- `X` is `Y` without some of its options. -/
inductive Shed : List strpy.Token → List strpy.Token → Prop
  | nil : Shed [] []
  | keep {X Y : List strpy.Token} (t : strpy.Token) : Shed X Y → Shed (t :: X) (t :: Y)
  | drop {X Y : List strpy.Token} (o : strpy.Token) : isOption o = true → Shed X Y → Shed X (o :: Y)

/-- The number of tokens in `H` that have an option directly behind them. -/
def optioned (H : strpy.Token → Bool) : List strpy.Token → Nat
  | [] => 0
  | t :: ts => (if H t && startsOption ts then 1 else 0) + optioned H ts

theorem dropArgs_concat (ns : List (ArgName strpy)) (n : ArgName strpy) (ts : List strpy.Token) :
    dropArgs (ns ++ [n]) ts = dropArg n (dropArgs ns ts) := by
  simp [dropArgs]

theorem staged_nil (P : List (ArgName strpy) → ArgName strpy → Prop) : Staged P [] := by
  intro u n v h
  exact absurd h (by simp)

theorem staged_concat {P : List (ArgName strpy) → ArgName strpy → Prop}
    {ns : List (ArgName strpy)} {n : ArgName strpy} :
    Staged P (ns ++ [n]) ↔ Staged P ns ∧ P ns n := by
  constructor
  · intro h
    exact ⟨fun u m v hns => h u m (v ++ [n]) (by simp [hns]), h ns n [] rfl⟩
  · rintro ⟨hns, hn⟩ u m v h
    rcases List.eq_nil_or_concat v with rfl | ⟨v', x, rfl⟩
    · obtain ⟨rfl, hm⟩ := List.append_inj' h rfl
      obtain rfl : n = m := by simpa using hm
      exact hn
    · rw [List.concat_eq_append, ← List.cons_append, ← List.append_assoc] at h
      exact hns u m v' (List.append_inj' h rfl).1

theorem distinct_concat {ns : List (ArgName strpy)} {n : ArgName strpy} :
    Distinct (ns ++ [n]) ↔ Distinct ns ∧ ∀ m ∈ ns, m.chars ≠ n.chars := by
  simp [Distinct, List.pairwise_append]

/-! ## Nothing but options is lost -/

theorem Shed.refl (X : List strpy.Token) : Shed X X := by
  induction X with
  | nil => exact Shed.nil
  | cons t X ih => exact Shed.keep t ih

theorem Shed.trans {X Y Z : List strpy.Token} (h : Shed X Y) (h' : Shed Y Z) : Shed X Z := by
  induction h' generalizing X with
  | nil => exact h
  | keep t _ ih =>
    cases h with
    | keep _ h => exact Shed.keep t (ih h)
    | drop _ ht h => exact Shed.drop t ht (ih h)
  | drop o ho _ ih => exact Shed.drop o ho (ih h)

theorem Shed.sublist {X Y : List strpy.Token} (h : Shed X Y) : X.Sublist Y := by
  induction h with
  | nil => exact List.Sublist.refl _
  | keep t _ ih => exact ih.cons_cons t
  | drop o _ _ ih => exact ih.cons o

theorem shed_dropOption (X : List strpy.Token) : Shed (dropOption X) X := by
  cases X with
  | nil => exact Shed.nil
  | cons o X =>
    by_cases ho : isOption o = true
    · simpa [Core.dropOption, ho] using Shed.drop o ho (Shed.refl X)
    · simpa [Core.dropOption, ho] using Shed.refl (o :: X)

theorem Shed.dropOption {X Y : List strpy.Token} (h : Shed X Y) :
    Shed (dropOption X) (dropOption Y) := by
  cases h with
  | nil => exact Shed.nil
  | keep t h =>
    by_cases ht : isOption t = true
    · simpa [Core.dropOption, ht] using h
    · simpa [Core.dropOption, ht] using Shed.keep t h
  | drop o ho h => simpa [Core.dropOption, ho] using (shed_dropOption _).trans h

theorem Shed.dropArg (n : ArgName strpy) {X Y : List strpy.Token} (h : Shed X Y) :
    Shed (dropArg n X) (dropArg n Y) := by
  induction h with
  | nil => exact Shed.nil
  | keep t _ ih =>
    by_cases ht : isArg n t = true
    · simpa [Core.dropArg, ht] using ih.dropOption
    · simpa [Core.dropArg, ht] using Shed.keep t ih
  | drop o ho _ ih =>
    have hn : isArg n o = false := by
      by_contra hcon
      have := isOption_of_isArg (n := n) (t := o) (by simpa using hcon)
      simp [ho] at this
    simpa [Core.dropArg, hn] using Shed.drop o ho ih

theorem shed_dropArg_takeOutFrom (ns : List (ArgName strpy)) (n : ArgName strpy)
    (ts : List strpy.Token) (behind : Bool) :
    Shed (dropArg n (takeOutFrom (handled ns) behind ts))
      (takeOutFrom (handled (ns ++ [n])) behind ts) := by
  induction ts generalizing behind with
  | nil => exact Shed.nil
  | cons t ts ih =>
    by_cases hns : handled ns t = true
    · simpa [takeOutFrom, handled_append, hns] using ih true
    · have hns : handled ns t = false := by simpa using hns
      by_cases hn : isArg n t = true
      · have hopt := isOption_of_isArg hn
        have hfrom := takeOutFrom_true (H := handled (ns ++ [n])) (fun t => isOption_of_handled) ts
        simp only [takeOutFrom, handled_append, hns, hn, hopt, Bool.and_false, Bool.or_true,
          Bool.false_eq_true, if_true, if_false, Core.dropArg, hfrom]
        cases startsOption ts with
        | true => exact (ih false).dropOption
        | false => exact (shed_dropOption _).trans (ih false)
      · have hn : isArg n t = false := by simpa using hn
        by_cases hopt : (behind && isOption t) = true
        · simpa [takeOutFrom, handled_append, hns, hn, hopt] using ih false
        · simpa [takeOutFrom, handled_append, hns, hn, hopt, Core.dropArg] using
            Shed.keep t (ih false)

theorem shed_dropArgs (ns : List (ArgName strpy)) (ts : List strpy.Token) :
    Shed (dropArgs ns ts) (takeOut (handled ns) ts) := by
  induction ns using List.reverseRecOn with
  | nil => rw [takeOut_handled_nil]; exact Shed.refl ts
  | append_singleton ns n ih =>
    rw [dropArgs_concat]
    exact (ih.dropArg n).trans (shed_dropArg_takeOutFrom ns n ts false)

/-! ## Counting -/

theorem isArg_of_ne {m n : ArgName strpy} (h : m.chars ≠ n.chars) {t : strpy.Token}
    (ht : isArg n t = true) : isArg m t = false := by
  by_contra hcon
  have hm : isArg m t = true := by simpa using hcon
  rcases isArg_iff.mp ht with h1 | h1 <;> rcases isArg_iff.mp hm with h2 | h2
  · exact h (by simpa using h2.symm.trans h1)
  · exact absurd (h1.symm.trans h2) (by simp)
  · exact absurd (h1.symm.trans h2) (by simp)
  · exact h (by simpa using h2.symm.trans h1)

theorem isArg_of_isOption {n : ArgName strpy} {t : strpy.Token} (ht : isOption t = true) :
    isArg n t = false := by
  by_contra hcon
  have := isOption_of_isArg (n := n) (t := t) (by simpa using hcon)
  simp [ht] at this

theorem startsOption_cons (t : strpy.Token) (ts : List strpy.Token) :
    startsOption (t :: ts) = isOption t := by
  simp [startsOption]

theorem dropOption_cases (X : List strpy.Token) :
    (∃ o Y, X = o :: Y ∧ isOption o = true ∧ dropOption X = Y) ∨
      startsOption X = false ∧ dropOption X = X := by
  cases hstarts : startsOption X with
  | false => exact Or.inr ⟨rfl, dropOption_of_not_startsOption hstarts⟩
  | true =>
    cases X with
    | nil => cases hstarts
    | cons o X =>
      rw [startsOption_cons] at hstarts
      exact Or.inl ⟨o, X, rfl, hstarts, by rw [dropOption, if_pos hstarts]⟩

theorem length_dropOption (X : List strpy.Token) :
    (dropOption X).length + (if startsOption X then 1 else 0) = X.length := by
  obtain ⟨o, Y, rfl, ho, hdrop⟩ | ⟨hstarts, hdrop⟩ := dropOption_cases X
  · rw [hdrop, startsOption_cons, if_pos ho, List.length_cons]
  · rw [hdrop, hstarts]
    simp

theorem countP_dropOption (m : ArgName strpy) (X : List strpy.Token) :
    (dropOption X).countP (isArg m) = X.countP (isArg m) := by
  obtain ⟨o, Y, rfl, ho, hdrop⟩ | ⟨-, hdrop⟩ := dropOption_cases X
  · rw [hdrop, List.countP_cons_of_neg (by simp [isArg_of_isOption ho])]
  · rw [hdrop]

theorem optioned_dropOption (m : ArgName strpy) (X : List strpy.Token) :
    optioned (isArg m) (dropOption X) = optioned (isArg m) X := by
  obtain ⟨o, Y, rfl, ho, hdrop⟩ | ⟨-, hdrop⟩ := dropOption_cases X
  · rw [hdrop]
    simp [optioned, isArg_of_isOption ho]
  · rw [hdrop]

theorem startsOption_dropArg (n : ArgName strpy) {ts : List strpy.Token}
    (h : startsOption ts = true) : startsOption (dropArg n ts) = true := by
  cases ts with
  | nil => exact absurd h (by simp [startsOption])
  | cons o ts =>
    have ho : isOption o = true := by simpa [startsOption] using h
    simp [dropArg, isArg_of_isOption ho, startsOption, ho]

theorem startsOption_le_dropArg (n : ArgName strpy) (ts : List strpy.Token) :
    (if startsOption ts then 1 else 0) ≤ (if startsOption (dropArg n ts) then 1 else 0) := by
  cases hs : startsOption ts with
  | true => rw [startsOption_dropArg n hs]
  | false => simp

theorem countP_dropArg {m n : ArgName strpy} (h : m.chars ≠ n.chars) (ts : List strpy.Token) :
    (dropArg n ts).countP (isArg m) = ts.countP (isArg m) := by
  induction ts with
  | nil => rfl
  | cons t ts ih =>
    by_cases ht : isArg n t = true
    · simp [dropArg, ht, countP_dropOption, ih, isArg_of_ne h ht]
    · simp [dropArg, ht, List.countP_cons, ih]

/-- A removal does not come between another argument and its option. -/
theorem optioned_dropArg {m n : ArgName strpy} (h : m.chars ≠ n.chars) (ts : List strpy.Token) :
    optioned (isArg m) ts ≤ optioned (isArg m) (dropArg n ts) := by
  induction ts with
  | nil => exact Nat.le_refl _
  | cons t ts ih =>
    by_cases ht : isArg n t = true
    · simpa [dropArg, ht, optioned, optioned_dropOption, isArg_of_ne h ht] using ih
    · have hfirst : (if isArg m t && startsOption ts then 1 else 0) ≤
          (if isArg m t && startsOption (dropArg n ts) then 1 else 0) := by
        cases isArg m t with
        | true => simpa using startsOption_le_dropArg n ts
        | false => simp
      simpa [dropArg, ht, optioned] using Nat.add_le_add hfirst ih

theorem length_dropArg (n : ArgName strpy) (ts : List strpy.Token) :
    (dropArg n ts).length + ts.countP (isArg n) + optioned (isArg n) ts ≤ ts.length := by
  induction ts with
  | nil => exact Nat.le_refl _
  | cons t ts ih =>
    by_cases ht : isArg n t = true
    · have hlen := length_dropOption (dropArg n ts)
      have hfirst := startsOption_le_dropArg n ts
      simp only [dropArg, ht, if_true, List.countP_cons, optioned, Bool.true_and,
        List.length_cons]
      omega
    · simp only [dropArg, ht, List.countP_cons, optioned, Bool.false_and, List.length_cons,
        Bool.false_eq_true, if_false]
      omega

/-- `takeOut` deletes the tokens in `H`, and one option for each that has one behind it. -/
theorem length_takeOutFrom {H : strpy.Token → Bool} (hH : ∀ t, H t = true → isOption t = false)
    (behind : Bool) (ts : List strpy.Token) :
    (takeOutFrom H behind ts).length + ts.countP H + optioned H ts +
      (if behind && startsOption ts then 1 else 0) = ts.length := by
  induction ts generalizing behind with
  | nil => simp [takeOutFrom, optioned, startsOption]
  | cons t ts ih =>
    by_cases ht : H t = true
    · have := ih true
      simp only [Bool.true_and] at this
      simp only [takeOutFrom, ht, if_true, List.countP_cons, optioned, Bool.true_and,
        startsOption_cons, hH t ht, Bool.and_false, List.length_cons, Bool.false_eq_true, if_false]
      omega
    · have := ih false
      simp only [Bool.false_and, Bool.false_eq_true, if_false] at this
      by_cases hopt : (behind && isOption t) = true
      · simp only [takeOutFrom, ht, hopt, List.countP_cons, optioned, Bool.false_and,
          startsOption_cons, List.length_cons, Bool.false_eq_true, if_false, if_true]
        omega
      · simp only [takeOutFrom, ht, hopt, List.countP_cons, optioned, Bool.false_and,
          startsOption_cons, List.length_cons, Bool.false_eq_true, if_false]
        omega

theorem handled_of_isArg {ns : List (ArgName strpy)} {n : ArgName strpy}
    (h : ∀ m ∈ ns, m.chars ≠ n.chars) {t : strpy.Token} (ht : isArg n t = true) :
    handled ns t = false := by
  rw [handled, List.any_eq_false]
  intro m hm
  simp [isArg_of_ne (h m hm) ht]

theorem countP_handled_concat {ns : List (ArgName strpy)} {n : ArgName strpy}
    (h : ∀ m ∈ ns, m.chars ≠ n.chars) (ts : List strpy.Token) :
    ts.countP (handled (ns ++ [n])) = ts.countP (handled ns) + ts.countP (isArg n) := by
  induction ts with
  | nil => rfl
  | cons t ts ih =>
    simp only [List.countP_cons, ih, handled_append]
    by_cases ht : isArg n t = true
    · simp only [ht, handled_of_isArg h ht, Bool.false_or, if_true, Bool.false_eq_true, if_false]
      omega
    · simp only [ht, Bool.or_false, Bool.false_eq_true, if_false]
      omega

theorem optioned_handled_concat {ns : List (ArgName strpy)} {n : ArgName strpy}
    (h : ∀ m ∈ ns, m.chars ≠ n.chars) (ts : List strpy.Token) :
    optioned (handled (ns ++ [n])) ts = optioned (handled ns) ts + optioned (isArg n) ts := by
  induction ts with
  | nil => rfl
  | cons t ts ih =>
    simp only [optioned, ih, handled_append]
    by_cases ht : isArg n t = true
    · simp only [ht, handled_of_isArg h ht, Bool.false_or, Bool.true_and, Bool.false_and,
        Bool.false_eq_true, if_false]
      omega
    · simp only [ht, Bool.or_false, Bool.false_and, Bool.false_eq_true, if_false]
      omega

/-- The names still to come are untouched, and those already removed took at least what
    `takeOut` takes. -/
theorem length_dropArgs {ns : List (ArgName strpy)} (hns : Distinct ns) (ts : List strpy.Token) :
    (dropArgs ns ts).length + ts.countP (handled ns) + optioned (handled ns) ts ≤ ts.length ∧
      ∀ m : ArgName strpy, (∀ n ∈ ns, m.chars ≠ n.chars) →
        (dropArgs ns ts).countP (isArg m) = ts.countP (isArg m) ∧
          optioned (isArg m) ts ≤ optioned (isArg m) (dropArgs ns ts) := by
  induction ns using List.reverseRecOn with
  | nil =>
    have hlen := length_takeOutFrom (H := handled []) (fun t => isOption_of_handled) false ts
    have hnil : takeOutFrom (handled []) false ts = ts := takeOut_handled_nil ts
    rw [hnil] at hlen
    exact ⟨by simp only [dropArgs, List.foldl_nil]; omega, fun m _ => ⟨rfl, Nat.le_refl _⟩⟩
  | append_singleton ns n ih =>
    obtain ⟨hns, hn⟩ := distinct_concat.mp hns
    obtain ⟨hlen, hcount⟩ := ih hns
    have hstep := length_dropArg n (dropArgs ns ts)
    obtain ⟨hcn, hon⟩ := hcount n fun m hm => (hn m hm).symm
    rw [dropArgs_concat, countP_handled_concat hn, optioned_handled_concat hn]
    refine ⟨by omega, fun m hm => ?_⟩
    obtain ⟨hcm, hom⟩ := hcount m fun x hx => hm x (by simp [hx])
    have hmn := hm n (by simp)
    exact ⟨(countP_dropArg hmn _).trans hcm, hom.trans (optioned_dropArg hmn _)⟩

/-! ## Exactly when no word is captured -/

theorem NoCapture.cons {ns : List (ArgName strpy)} {n : ArgName strpy} {t : strpy.Token}
    {ts : List strpy.Token} (h : NoCapture ns n ts)
    (ht : isArg n t = true → startsOption (takeOut (handled (ns ++ [n])) ts) = true →
      startsOption ts = true) : NoCapture ns n (t :: ts) := by
  intro u x v hts hx
  cases u with
  | nil =>
    obtain ⟨rfl, rfl⟩ := List.cons_eq_cons.mp hts
    exact ht hx
  | cons y u => exact h u x v (List.cons_eq_cons.mp hts).2 hx

theorem startsOption_takeOut {H : strpy.Token → Bool} (hH : ∀ t, H t = true → isOption t = false)
    {ts : List strpy.Token} (h : startsOption ts = true) : startsOption (takeOut H ts) = true := by
  cases ts with
  | nil => exact h
  | cons o ts =>
    rw [startsOption_cons] at h
    have ho : H o = false := by
      by_contra hcon
      have := hH o (by simpa using hcon)
      simp [h] at this
    simp [takeOut, takeOutFrom, ho, startsOption_cons, h]

/-- At a removed argument: if nothing more was lost than its own option, then no word was
    captured by it, and none behind it was lost either. -/
theorem eq_of_dropOption_eq {ns : List (ArgName strpy)} {n : ArgName strpy} {ts : List strpy.Token}
    (h : dropOption (dropArg n (takeOut (handled ns) ts)) =
      if startsOption ts then dropOption (takeOut (handled (ns ++ [n])) ts)
      else takeOut (handled (ns ++ [n])) ts) :
    dropArg n (takeOut (handled ns) ts) = takeOut (handled (ns ++ [n])) ts ∧
      (startsOption (takeOut (handled (ns ++ [n])) ts) = true → startsOption ts = true) := by
  have hshed := (shed_dropArg_takeOutFrom ns n ts false).sublist
  have hleft := length_dropOption (dropArg n (takeOut (handled ns) ts))
  have hlen := congrArg List.length h
  cases hs : startsOption ts with
  | true =>
    have hright := length_dropOption (takeOut (handled (ns ++ [n])) ts)
    rw [startsOption_takeOut (fun t => isOption_of_handled) hs] at hright
    rw [startsOption_dropArg n (startsOption_takeOut (fun t => isOption_of_handled) hs)] at hleft
    simp only [hs, if_true] at hlen hleft hright
    exact ⟨hshed.eq_of_length (by unfold takeOut at *; omega), fun _ => rfl⟩
  | false =>
    have hle := hshed.length_le
    simp only [hs, Bool.false_eq_true, if_false] at hlen
    have hstart : startsOption (dropArg n (takeOut (handled ns) ts)) = false := by
      by_contra hcon
      rw [if_pos (by simpa using hcon)] at hleft
      unfold takeOut at *
      omega
    rw [if_neg (by simp [hstart])] at hleft
    have heq : dropArg n (takeOut (handled ns) ts) = takeOut (handled (ns ++ [n])) ts :=
      hshed.eq_of_length (by unfold takeOut at *; omega)
    rw [← heq, hstart]
    exact ⟨rfl, fun hcon => hcon⟩

/-- If nothing is lost beyond what `takeOut` takes, no word was captured. -/
theorem noCapture_of_dropArg_takeOutFrom {ns : List (ArgName strpy)} {n : ArgName strpy}
    (hn : ∀ m ∈ ns, m.chars ≠ n.chars) {ts : List strpy.Token} (behind : Bool)
    (h : dropArg n (takeOutFrom (handled ns) behind ts) =
      takeOutFrom (handled (ns ++ [n])) behind ts) : NoCapture ns n ts := by
  induction ts generalizing behind with
  | nil => exact noCapture_of_not_isArg (by simp)
  | cons t ts ih =>
    by_cases ht : isArg n t = true
    · have hns := handled_of_isArg hn ht
      have hopt := isOption_of_isArg ht
      have hfrom := takeOutFrom_true (H := handled (ns ++ [n])) (fun t => isOption_of_handled) ts
      simp only [takeOutFrom, handled_append, hns, ht, hopt, Bool.and_false, Bool.or_true,
        Bool.false_eq_true, if_true, if_false, dropArg, hfrom] at h
      obtain ⟨heq, hstart⟩ := eq_of_dropOption_eq h
      exact (ih false heq).cons fun _ => hstart
    · have ht : isArg n t = false := by simpa using ht
      have htail : NoCapture ns n ts := by
        by_cases hns : handled ns t = true
        · exact ih true (by simpa [takeOutFrom, handled_append, hns] using h)
        · have hns : handled ns t = false := by simpa using hns
          by_cases hopt : (behind && isOption t) = true
          · exact ih false (by simpa [takeOutFrom, handled_append, hns, ht, hopt] using h)
          · exact ih false (by simpa [takeOutFrom, handled_append, hns, ht, hopt, dropArg] using h)
      exact htail.cons fun hcon => absurd hcon (by simp [ht])

/-- Removing the names in turn is taking them out all at once exactly when no word is
    captured. -/
theorem dropArgs_eq_takeOut_iff {ns : List (ArgName strpy)} (hns : Distinct ns)
    (ts : List strpy.Token) :
    dropArgs ns ts = takeOut (handled ns) ts ↔ Staged (fun ms n => NoCapture ms n ts) ns := by
  induction ns using List.reverseRecOn with
  | nil => simp [dropArgs, takeOut_handled_nil, staged_nil]
  | append_singleton ns n ih =>
    obtain ⟨hdist, hn⟩ := distinct_concat.mp hns
    rw [dropArgs_concat, staged_concat, ← ih hdist]
    constructor
    · intro h
      have hlen := congrArg List.length h
      have htotal := length_takeOutFrom (H := handled (ns ++ [n]))
        (fun t => isOption_of_handled) false ts
      have hfirst := length_takeOutFrom (H := handled ns) (fun t => isOption_of_handled) false ts
      have hstep := length_dropArg n (dropArgs ns ts)
      obtain ⟨hle, hcount⟩ := length_dropArgs hdist ts
      obtain ⟨hcn, hon⟩ := hcount n fun m hm => (hn m hm).symm
      rw [countP_handled_concat hn, optioned_handled_concat hn] at htotal
      simp only [Bool.false_and, Bool.false_eq_true, if_false, Nat.add_zero] at htotal hfirst
      have heq : dropArgs ns ts = takeOut (handled ns) ts := by
        refine (shed_dropArgs ns ts).sublist.eq_of_length ?_
        unfold takeOut at hlen ⊢
        omega
      rw [heq] at h
      exact ⟨heq, noCapture_of_dropArg_takeOutFrom hn false h⟩
    · rintro ⟨heq, hcap⟩
      rw [heq, dropArg_takeOut hcap]

end RehldsM.Core
