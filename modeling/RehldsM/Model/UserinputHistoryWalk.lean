import RehldsM.Model.UserinputHistory

/-
  Walking through the history with `next` and `previous`.

  The two calls move a position in the list of the entries (`previous_spec`, `next_spec`), so any
  number of them in a row lists the entries in front of the position, last one first, or those
  behind it (`previous_calls`, `next_calls`). After an `append` the position is behind the last
  entry, wherever the ring begins; `history_walks` puts this together for every reachable history.
-/

namespace RehldsM.Model

open Lib Util

/-- The results of this many calls in a row, and the history after them. -/
def callsOf (call : UserInputHistory → Option Str × UserInputHistory) :
    Nat → UserInputHistory → List (Option Str) × UserInputHistory
  | 0, h => ([], h)
  | n + 1, h =>
    let (result, h) := call h
    let (results, h) := callsOf call n h
    (result :: results, h)

/-- From behind the last entry: `previous` goes through all entries, and then nowhere; from the
    `k`-th entry back `next` goes through those behind it, and leaves them; `previous` then
    begins at the last entry again. -/
structure Walks (h : UserInputHistory) : Prop where
  back : ∀ m, callsOf UserInputHistory.previous m h =
    ((List.range m).map (h.history.contents.reverse[·]?),
      { h with position := h.history.size - m })
  forth : ∀ k ≤ h.history.size, ∀ m,
    callsOf UserInputHistory.next m (callsOf UserInputHistory.previous k h).2 =
      ((List.range m).map (h.history.contents[h.history.size - k + 1 + ·]?),
        { h with position := min (h.history.size - k + m) h.history.size })
  again : ∀ k ≤ h.history.size, ∀ m ≥ k,
    (callsOf UserInputHistory.next m (callsOf UserInputHistory.previous k h).2).2.previous.1 =
      h.history.contents.getLast?

/-! ## Calls in a row -/

/-- The entries in front of the position, without the last of them. -/
theorem take_dropLast {h : UserInputHistory} (hp : Positioned h) :
    (h.history.contents.take h.position).dropLast = h.history.contents.take (h.position - 1) := by
  have hlen := CircularBuffer.length_contents h.history
  unfold Positioned at hp
  rw [List.dropLast_eq_take, List.length_take, List.take_take]
  congr 1
  omega

theorem previous_calls {h : UserInputHistory} (hp : Positioned h) (m : Nat) :
    callsOf UserInputHistory.previous m h =
      ((List.range m).map ((h.history.contents.take h.position).reverse[·]?),
        { h with position := h.position - m }) := by
  induction m generalizing h with
  | zero => rfl
  | succ m ih =>
    have hnext := ih (positioned_previous hp)
    rw [previous_spec hp] at hnext
    rw [callsOf, previous_spec hp]
    dsimp only at hnext ⊢
    rw [hnext, List.range_succ_eq_map, List.map_cons, List.map_map, Nat.sub_sub, Nat.add_comm 1 m]
    refine congrArg (· , _) (congrArg₂ List.cons ?_ (List.map_congr_left fun i _ => ?_))
    · rw [← List.head?_eq_getElem?, List.head?_reverse]
    · rw [← take_dropLast hp, ← List.tail_reverse, List.getElem?_tail]
      rfl

theorem next_calls {h : UserInputHistory} (hp : Positioned h) (m : Nat) :
    callsOf UserInputHistory.next m h =
      ((List.range m).map (h.history.contents[h.position + 1 + ·]?),
        { h with position := min (h.position + m) h.history.size }) := by
  induction m generalizing h with
  | zero =>
    obtain ⟨history, position, filename⟩ := h
    exact congrArg (([], UserInputHistory.mk history · filename)) (Nat.min_eq_left hp).symm
  | succ m ih =>
    have hnext := ih (positioned_next hp)
    rw [next_spec hp] at hnext
    rw [callsOf, next_spec hp]
    dsimp only at hnext ⊢
    have hlen := CircularBuffer.length_contents h.history
    have hbehind : ∀ i, h.history.contents[min (h.position + 1) h.history.size + 1 + i]? =
        h.history.contents[h.position + 1 + (i + 1)]? := by
      intro i
      by_cases hlt : h.position < h.history.size
      · congr 1
        omega
      · rw [List.getElem?_eq_none (by omega), List.getElem?_eq_none (by omega)]
    have hposition : min (min (h.position + 1) h.history.size + m) h.history.size =
        min (h.position + (m + 1)) h.history.size := by omega
    rw [hnext, List.range_succ_eq_map, List.map_cons, List.map_map, hposition]
    exact congrArg (h.history.contents[h.position + 1]? :: ·, _)
      (List.map_congr_left fun i _ => hbehind i)

/-! ## After an append -/

theorem walks_of_position {h : UserInputHistory} (hp : h.position = h.history.size) : Walks h := by
  have hlen := CircularBuffer.length_contents h.history
  have hback : ∀ m, callsOf UserInputHistory.previous m h =
      ((List.range m).map (h.history.contents.reverse[·]?),
        { h with position := h.history.size - m }) := by
    intro m
    rw [previous_calls (Nat.le_of_eq hp), hp, ← hlen, List.take_length]
  have hforth : ∀ k ≤ h.history.size, ∀ m,
      callsOf UserInputHistory.next m (callsOf UserInputHistory.previous k h).2 =
        ((List.range m).map (h.history.contents[h.history.size - k + 1 + ·]?),
          { h with position := min (h.history.size - k + m) h.history.size }) := by
    intro k hk m
    rw [hback]
    exact next_calls (h := { h with position := h.history.size - k }) (Nat.sub_le _ _) m
  refine ⟨hback, hforth, fun k hk m hm => ?_⟩
  have hend : min (h.history.size - k + m) h.history.size = h.history.size := by omega
  rw [hforth k hk m, hend, previous_spec (Nat.le_refl _)]
  dsimp only
  rw [← hlen, List.take_length]

/-- From a new history, whatever the calls: the position is within the entries, `previous` and
    `next` read entries and nothing else, and after an append the entries can be walked through. -/
theorem history_walks (strpy : Strpy) (filename : Str) (calls : List HistoryCall) :
    Always (fun h => h.position ≤ h.history.size ∧ h.history.size ≤ historyCapacity ∧
        h.previous.1 = (h.history.contents.take h.position).getLast? ∧
        h.next.1 = h.history.contents[h.position + 1]? ∧
        ∀ input, Walks (h.append strpy input))
      (UserInputHistory.new filename)
      (trace (historyStep strpy) (UserInputHistory.new filename) calls) := by
  refine (history_run strpy filename calls).mono ?_
  rintro h ⟨hp, -⟩
  refine ⟨hp, h.history.size_le, ?_, ?_, fun input => walks_of_position (position_append h input)⟩
  · rw [previous_spec hp]
  · rw [next_spec hp]

end RehldsM.Model
