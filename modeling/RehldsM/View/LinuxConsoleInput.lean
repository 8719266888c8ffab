import RehldsM.Model.ConsoleCommands
import RehldsM.View.ConsoleInput

/-
  The decoder of the input thread (libs/view/src/view/linux/console_input.cpp): which handler a
  turn of `read_input` calls, and which bytes it takes for that.

  The decoder reads `code` of a byte only, so a byte can carry a mark along (`strokes_map`). The
  marks of this file tell the bytes of an escape sequence from the others; `escape_sequences_iff`
  says when none of them is typed into the line.
-/

namespace RehldsM.View

open Lib Util Model ConsoleInput

universe u

/-! ## The decoder -/

/-- The handler that a turn of the loop calls: `handle_char`, `handle_tab`, or another one. -/
inductive Stroke (β : Type u) where
  | char (byte : β)
  | tab
  | key (key : Key)

def Stroke.map {β γ : Type*} (f : β → γ) : Stroke β → Stroke γ
  | char byte => char (f byte)
  | tab => tab
  | key k => key k

section decoder

variable {β : Type u} (code : β → Char)

/-- `handle_escape`: the handler it calls, if any, and the bytes it leaves in the stream. -/
def handleEscape : List β → Option Key × List β
  | [] => (none, [])
  | byte :: rest =>
    if code byte ≠ '[' then (none, rest)
    else
      match rest with
      | [] => (none, [])
      | byte :: rest =>
        match code byte with
        | 'A' => (some .up, rest)
        | 'B' => (some .down, rest)
        | 'C' => (some .right, rest)
        | 'D' => (some .left, rest)
        | 'F' => (some .toEnd, rest)
        | 'H' => (some .home, rest)
        | '3' =>
          match rest with
          | [] => (none, [])
          | byte :: rest => if code byte = '~' then (some .delete, rest) else (none, rest)
        | _ => (none, rest)

/-- A turn of the loop of `read_input` that reads `byte`. -/
def readStroke (byte : β) (rest : List β) : Option (Stroke β) × List β :=
  match code byte with
  | '\x00' => (none, rest)
  | '\n' => (some (.key .newline), rest)
  | '\x1B' => ((handleEscape code rest).1.map .key, (handleEscape code rest).2)
  | '\x7F' | '\x08' => (some (.key .backspace), rest)
  | '\t' => (some .tab, rest)
  | _ => (some (.char byte), rest)

/-- At most `fuel` turns of the loop, while there are bytes. -/
def strokesLoop : Nat → List β → List (Stroke β)
  | 0, _ | _, [] => []
  | fuel + 1, byte :: rest =>
    (readStroke code byte rest).1.toList ++ strokesLoop fuel (readStroke code byte rest).2

/-- A turn takes a byte at least, so this fuel is enough (`strokes_cons`). -/
def strokes (bytes : List β) : List (Stroke β) := strokesLoop code bytes.length bytes

theorem length_handleEscape (rest : List β) : (handleEscape code rest).2.length ≤ rest.length := by
  unfold handleEscape
  repeat' split
  all_goals simp <;> omega

theorem length_readStroke (byte : β) (rest : List β) :
    (readStroke code byte rest).2.length ≤ rest.length := by
  unfold readStroke
  split
  all_goals first | exact length_handleEscape code rest | exact Nat.le_refl _

theorem strokesLoop_fuel (fuel : Nat) (bytes : List β) (h : bytes.length ≤ fuel) :
    strokesLoop code fuel bytes = strokes code bytes := by
  induction hlen : bytes.length using Nat.strong_induction_on generalizing fuel bytes with
  | _ len ih =>
    cases bytes with
    | nil => cases fuel <;> rfl
    | cons byte rest =>
      obtain ⟨fuel, rfl⟩ : ∃ k, fuel = k + 1 := ⟨fuel - 1, by simp at h; omega⟩
      have hrest := length_readStroke code byte rest
      rw [List.length_cons] at h hlen
      rw [strokesLoop, strokes, List.length_cons, strokesLoop,
        ih _ (by omega) fuel _ (by omega) rfl, ih _ (by omega) rest.length _ hrest rfl]

theorem strokes_cons (byte : β) (rest : List β) :
    strokes code (byte :: rest) =
      (readStroke code byte rest).1.toList ++ strokes code (readStroke code byte rest).2 := by
  rw [strokes, List.length_cons, strokesLoop,
    strokesLoop_fuel code _ _ (length_readStroke code byte rest)]

theorem handleEscape_map (rest : List β) :
    handleEscape id (rest.map code) =
      ((handleEscape code rest).1, (handleEscape code rest).2.map code) := by
  match rest with
  | [] => rfl
  | [bracket] =>
    simp only [handleEscape, List.map_cons, List.map_nil, id]
    split <;> rfl
  | [bracket, byte] =>
    simp only [handleEscape, List.map_cons, List.map_nil, id]
    repeat' split
    all_goals rfl
  | bracket :: byte :: tilde :: rest =>
    simp only [handleEscape, List.map_cons, id]
    repeat' split
    all_goals rfl

theorem readStroke_map (byte : β) (rest : List β) :
    readStroke id (code byte) (rest.map code) =
      ((readStroke code byte rest).1.map (Stroke.map code),
        (readStroke code byte rest).2.map code) := by
  unfold readStroke
  rw [handleEscape_map]
  simp only [id]
  split
  case h_3 => cases (handleEscape code rest).1 <;> rfl
  all_goals rfl

/-- The decoder does not look at the marks. -/
theorem strokes_map (bytes : List β) :
    strokes id (bytes.map code) = (strokes code bytes).map (Stroke.map code) := by
  induction hlen : bytes.length using Nat.strong_induction_on generalizing bytes with
  | _ len ih =>
    cases bytes with
    | nil => rfl
    | cons byte rest =>
      have hrest := length_readStroke code byte rest
      rw [List.length_cons] at hlen
      rw [List.map_cons, strokes_cons, readStroke_map, strokes_cons, List.map_append,
        ih _ (by omega) _ rfl]
      cases (readStroke code byte rest).1 <;> rfl

end decoder

/-! ## The stream -/

/-- A control sequence behind its `ESC [`: parameter bytes, intermediate bytes and a final
    byte. -/
structure Csi where
  parameters : Str
  intermediates : Str
  finalByte : Char
  parameters_mem : ∀ c ∈ parameters, '0' ≤ c ∧ c ≤ '?'
  intermediates_mem : ∀ c ∈ intermediates, ' ' ≤ c ∧ c ≤ '/'
  finalByte_mem : '@' ≤ finalByte ∧ finalByte ≤ '~'

namespace Csi

/-- What stands in front of the final byte. -/
def middle (csi : Csi) : Str := csi.parameters ++ csi.intermediates

def body (csi : Csi) : Str := csi.middle ++ [csi.finalByte]

/-- The keys the console knows, by what the terminal sends behind `ESC [`. -/
def keyOf : Str → Option Key
  | ['A'] => some .up
  | ['B'] => some .down
  | ['C'] => some .right
  | ['D'] => some .left
  | ['F'] => some .toEnd
  | ['H'] => some .home
  | ['3', '~'] => some .delete
  | _ => none

def key (csi : Csi) : Option Key := keyOf csi.body

/-- What `handle_escape` leaves of the sequence: it reads one byte of the body, or two when the
    first is a `3`. -/
def leftover (csi : Csi) : Str :=
  match csi.body with
  | [] => []
  | '3' :: rest => rest.drop 1
  | _ :: rest => rest

theorem middle_mem (csi : Csi) : ∀ c ∈ csi.middle, ' ' ≤ c ∧ c ≤ '?' := by
  intro c hc
  rcases List.mem_append.mp hc with hc | hc
  · have h := csi.parameters_mem c hc
    exact ⟨Char.le_trans (by decide : ' ' ≤ '0') h.1, h.2⟩
  · have h := csi.intermediates_mem c hc
    exact ⟨h.1, Char.le_trans h.2 (by decide : '/' ≤ '?')⟩

theorem body_mem (csi : Csi) : ∀ c ∈ csi.body, ' ' ≤ c ∧ c ≤ '~' := by
  intro c hc
  rcases List.mem_append.mp hc with hc | hc
  · have h := csi.middle_mem c hc
    exact ⟨h.1, Char.le_trans h.2 (by decide : '?' ≤ '~')⟩
  · obtain rfl := List.mem_singleton.mp hc
    exact ⟨Char.le_trans (by decide : ' ' ≤ '@') csi.finalByte_mem.1, csi.finalByte_mem.2⟩

theorem leftover_subset (csi : Csi) : csi.leftover ⊆ csi.body := by
  unfold leftover
  split
  · exact List.nil_subset _
  · next rest hbody =>
    exact fun c hc => hbody ▸ List.mem_cons_of_mem _ (List.mem_of_mem_drop hc)
  · next c rest _ hbody => exact hbody ▸ List.subset_cons_self c rest

theorem finalByte_ne_three (csi : Csi) : csi.finalByte ≠ '3' := by
  intro h
  have hlo := csi.finalByte_mem.1
  rw [h] at hlo
  exact absurd hlo (by decide)

theorem leftover_of_three {csi : Csi} {rest : Str} (h : csi.body = '3' :: rest) :
    csi.leftover = rest.drop 1 := by
  unfold leftover
  rw [h]
  rfl

theorem leftover_of_ne_three {csi : Csi} {c : Char} {rest : Str} (h : csi.body = c :: rest)
    (hc : c ≠ '3') : csi.leftover = rest := by
  unfold leftover
  rw [h]
  split
  · next heq => cases heq
  · next heq => exact absurd (List.cons.inj heq).1 hc
  · next heq => exact (List.cons.inj heq).2.symm

/-- The whole sequence is read exactly when nothing, or a single `3`, stands in front of the
    final byte. -/
theorem leftover_eq_nil_iff (csi : Csi) :
    csi.leftover = [] ↔ csi.middle = [] ∨ csi.middle = ['3'] := by
  have hbody : csi.body = csi.middle ++ [csi.finalByte] := rfl
  cases hmiddle : csi.middle with
  | nil =>
    rw [hmiddle] at hbody
    exact iff_of_true (leftover_of_ne_three hbody csi.finalByte_ne_three) (Or.inl rfl)
  | cons c middle =>
    rw [hmiddle, List.cons_append] at hbody
    by_cases hc : c = '3'
    · subst hc
      rw [leftover_of_three hbody, List.drop_eq_nil_iff]
      simp
    · rw [leftover_of_ne_three hbody hc]
      simp [hc]

theorem keyOf_eq_none {body : Str}
    (h : body ∉ [['A'], ['B'], ['C'], ['D'], ['F'], ['H'], ['3', '~']]) : keyOf body = none := by
  unfold keyOf
  split
  case h_8 => rfl
  all_goals exact absurd (by decide) h

section handleEscape

variable {β : Type u} {code : β → Char} {mark : Char → β}

/-- A sequence that is only its final byte. -/
theorem handleEscape_final (hmark : ∀ c, code (mark c) = c) (rest : List β) {f : Char}
    (hf : f ≠ '3') :
    handleEscape code (mark '[' :: mark f :: rest) = (keyOf [f], rest) := by
  simp only [handleEscape, hmark, ne_eq, not_true, if_false]
  split
  case h_7 => exact absurd rfl hf
  case h_8 hA hB hC hD hF hH _ =>
    have hnone : keyOf [f] = none := keyOf_eq_none (by simpa using ⟨hA, hB, hC, hD, hF, hH⟩)
    rw [hnone]
  all_goals rfl

/-- Behind a `3` the next byte is read too, whatever it is. -/
theorem handleEscape_three (hmark : ∀ c, code (mark c) = c) (rest : List β) (d : Char) :
    handleEscape code (mark '[' :: mark '3' :: mark d :: rest) =
      (if d = '~' then some .delete else none, rest) := by
  simp only [handleEscape, hmark, ne_eq, not_true, if_false]
  split
  · rfl
  · rfl

/-- Any other parameter or intermediate byte ends the reading. -/
theorem handleEscape_other (hmark : ∀ c, code (mark c) = c) (rest : List β) {c : Char}
    (hc : c ≠ '3') (hle : c ≤ '?') :
    handleEscape code (mark '[' :: mark c :: rest) = (none, rest) := by
  simp only [handleEscape, hmark, ne_eq, not_true, if_false]
  split
  case h_7 => exact absurd rfl hc
  case h_8 => rfl
  all_goals exact absurd hle (by decide)

/-- `handle_escape` calls the handler of the key, and leaves `leftover`. -/
theorem handleEscape_body (csi : Csi) (code : β → Char) (mark : Char → β)
    (hmark : ∀ c, code (mark c) = c) (rest : List β) :
    handleEscape code (mark '[' :: (csi.body.map mark ++ rest)) =
      (csi.key, csi.leftover.map mark ++ rest) := by
  have hbody : csi.body = csi.middle ++ [csi.finalByte] := rfl
  have hfinal := csi.finalByte_ne_three
  have hbytes := csi.middle_mem
  unfold key
  cases hmiddle : csi.middle with
  | nil =>
    rw [hmiddle, List.nil_append] at hbody
    rw [csi.leftover_of_ne_three hbody hfinal, hbody]
    exact handleEscape_final hmark rest hfinal
  | cons c middle =>
    rw [hmiddle, List.cons_append] at hbody
    rw [hmiddle] at hbytes
    by_cases hthree : c = '3'
    · subst hthree
      rw [csi.leftover_of_three hbody, hbody]
      cases middle with
      | nil =>
        refine (handleEscape_three hmark rest csi.finalByte).trans ?_
        by_cases htilde : csi.finalByte = '~'
        · rw [if_pos htilde, htilde]
          rfl
        · rw [if_neg htilde, List.nil_append, keyOf_eq_none (by simp [htilde])]
          rfl
      | cons d middle =>
        have htilde : d ≠ '~' := by
          rintro rfl
          exact absurd (hbytes '~' (by simp)).2 (by decide)
        refine (handleEscape_three hmark _ d).trans ?_
        rw [if_neg htilde, keyOf_eq_none (by simp)]
        rfl
    · rw [csi.leftover_of_ne_three hbody hthree, hbody, keyOf_eq_none (by simp [hthree])]
      exact handleEscape_other hmark _ hthree (hbytes c List.mem_cons_self).2

end handleEscape

end Csi

variable (strpy : Strpy)

/-- A stream is made of printable characters and control sequences. -/
inductive Piece where
  | char (c : Char) (printable : strpy.isPrintableChar c = true)
  | control (csi : Csi)

variable {strpy}

namespace Piece

def bytes : Piece strpy → Str
  | char c _ => [c]
  | control csi => '\x1B' :: '[' :: csi.body

/-- The bytes, those of an escape sequence marked. -/
def marked : Piece strpy → List (Char × Bool)
  | char c _ => [(c, false)]
  | control csi => ('\x1B' :: '[' :: csi.body).map (·, true)

/-- It is a character, or one of the keys the console knows. -/
def kept : Piece strpy → Bool
  | char _ _ => true
  | control csi => csi.key.isSome

/-- The handlers called for it. -/
def strokes : Piece strpy → List (Stroke (Char × Bool))
  | char c _ => [.char (c, false)]
  | control csi => csi.key.toList.map .key ++ csi.leftover.map (.char ⟨·, true⟩)

end Piece

def streamBytes (pieces : List (Piece strpy)) : Str := pieces.flatMap Piece.bytes

def markedBytes (pieces : List (Piece strpy)) : List (Char × Bool) := pieces.flatMap Piece.marked

theorem markedBytes_fst (pieces : List (Piece strpy)) :
    (markedBytes pieces).map Prod.fst = streamBytes pieces := by
  unfold markedBytes streamBytes
  rw [List.map_flatMap]
  refine List.flatMap_congr fun p _ => ?_
  cases p with
  | char c _ => rfl
  | control csi => simp [Piece.marked, Piece.bytes, Function.comp_def]

/-! ## What is typed -/

theorem readStroke_printable {β : Type u} (code : β → Char) {byte : β}
    (h : strpy.isPrintableChar (code byte) = true) (rest : List β) :
    readStroke code byte rest = (some (.char byte), rest) := by
  have hnot : ∀ c ∈ ['\x00', '\x08', '\t', '\n', '\r', '\x1B', '\x7F'], code byte ≠ c := by
    rintro c hc rfl
    rw [strpy.not_printable _ hc] at h
    cases h
  unfold readStroke
  split
  case h_7 => rfl
  all_goals exact absurd ‹code byte = _› (hnot _ (by decide))

theorem strokes_printable {β : Type u} (code : β → Char) {typed : List β}
    (h : ∀ byte ∈ typed, strpy.isPrintableChar (code byte) = true) (rest : List β) :
    strokes code (typed ++ rest) = typed.map .char ++ strokes code rest := by
  induction typed with
  | nil => rfl
  | cons byte typed ih =>
    obtain ⟨hbyte, htyped⟩ := List.forall_mem_cons.mp h
    rw [List.cons_append, strokes_cons, readStroke_printable code hbyte, ih htyped]
    rfl

/-- The pieces are decoded one after the other. -/
theorem strokes_marked (hprint : ∀ c, ' ' ≤ c → c ≤ '~' → strpy.isPrintableChar c = true)
    (pieces : List (Piece strpy)) :
    strokes Prod.fst (markedBytes pieces) = pieces.flatMap Piece.strokes := by
  unfold markedBytes
  induction pieces with
  | nil => rfl
  | cons p pieces ih =>
    rw [List.flatMap_cons, List.flatMap_cons, ← ih]
    generalize pieces.flatMap Piece.marked = rest
    cases p with
    | char c printable =>
      have hmarked : ∀ byte ∈ [(c, false)], strpy.isPrintableChar byte.1 = true := by
        simpa using printable
      exact strokes_printable Prod.fst hmarked rest
    | control csi =>
      have hbody := csi.handleEscape_body Prod.fst (·, true) (fun _ => rfl) rest
      have hleft : ∀ byte ∈ csi.leftover.map (·, true), strpy.isPrintableChar byte.1 = true := by
        intro byte hbyte
        obtain ⟨c, hc, rfl⟩ := List.mem_map.mp hbyte
        have hmem := csi.body_mem c (csi.leftover_subset hc)
        exact hprint c hmem.1 hmem.2
      have hread : readStroke Prod.fst ('\x1B', true)
          (('[', true) :: (csi.body.map (·, true) ++ rest)) =
            (csi.key.map .key, csi.leftover.map (·, true) ++ rest) := by
        show ((handleEscape _ _).1.map Stroke.key, (handleEscape _ _).2) = _
        rw [hbody]
      have hmarked : (Piece.control csi : Piece strpy).marked ++ rest =
          ('\x1B', true) :: ('[', true) :: (csi.body.map (·, true) ++ rest) := rfl
      rw [hmarked, strokes_cons, hread, strokes_printable Prod.fst hleft, Piece.strokes,
        List.map_map, List.append_assoc]
      cases csi.key <;> rfl

theorem strokes_stream (hprint : ∀ c, ' ' ≤ c → c ≤ '~' → strpy.isPrintableChar c = true)
    (pieces : List (Piece strpy)) :
    strokes id (streamBytes pieces) =
      pieces.flatMap fun p => p.strokes.map (Stroke.map Prod.fst) := by
  rw [← markedBytes_fst, strokes_map, strokes_marked hprint, List.map_flatMap]

/-! ## The line -/

section readInput

variable (systemInterface : Option GetCommandMatches) (consoleWidth : Nat)

/-- The handler call of a stroke; a Tab finds the matches of the line. -/
def press (strpy : Strpy) (s : ConsoleInput) : Stroke Char → Except Fault ConsoleInput
  | .char c => handle strpy s (.char c)
  | .tab =>
    handle strpy s (.tab (findCommandMatches strpy systemInterface s.inputLine) consoleWidth)
  | .key k => handle strpy s k

/-- `read_input`, until the stream ends. -/
def readInput (strpy : Strpy) (s : ConsoleInput) (bytes : Str) : Except Fault ConsoleInput :=
  (strokes id bytes).foldlM (press systemInterface consoleWidth strpy) s

def lineAndCursor (s : ConsoleInput) : Str × Nat := (s.inputLine, s.cursorPosition)

/-- The sequences other than the keys might as well not be there, and no byte of a sequence is
    typed. -/
structure Undisturbed (s : ConsoleInput) (pieces : List (Piece strpy)) : Prop where
  line_eq :
    (readInput systemInterface consoleWidth strpy s (streamBytes pieces)).map lineAndCursor =
      (readInput systemInterface consoleWidth strpy s
        (streamBytes (pieces.filter Piece.kept))).map lineAndCursor
  untyped : ∀ c, .char (c, true) ∈ strokes Prod.fst (markedBytes pieces) →
    strpy.isPrintableChar c = false

end readInput

theorem strokes_of_not_kept {p : Piece strpy} (hkept : p.kept = false)
    (h : ∀ csi, p = .control csi → csi.leftover = []) : p.strokes = [] := by
  cases p with
  | char c _ => cases hkept
  | control csi =>
    have hkey : csi.key = none := Option.isNone_iff_eq_none.mp (by simpa [Piece.kept] using hkept)
    rw [Piece.strokes, h csi rfl, hkey]
    rfl

theorem flatMap_kept {γ : Type*} (f : Piece strpy → List γ) {pieces : List (Piece strpy)}
    (h : ∀ p ∈ pieces, p.kept = false → f p = []) :
    (pieces.filter Piece.kept).flatMap f = pieces.flatMap f := by
  induction pieces with
  | nil => rfl
  | cons p pieces ih =>
    obtain ⟨hp, hpieces⟩ := List.forall_mem_cons.mp h
    rw [List.flatMap_cons, ← ih hpieces]
    cases hkept : p.kept with
    | true => rw [List.filter_cons_of_pos hkept, List.flatMap_cons]
    | false => rw [List.filter_cons_of_neg (by simp [hkept]), hp hkept, List.nil_append]

theorem mem_strokes_marked {p : Piece strpy} {c : Char} :
    .char (c, true) ∈ p.strokes ↔ ∃ csi, p = .control csi ∧ c ∈ csi.leftover := by
  cases p with
  | char d _ => simp [Piece.strokes]
  | control csi => simp [Piece.strokes]

/-- The line and the cursor are left alone exactly when every sequence has nothing, or a single
    `3`, between `ESC [` and its final byte. -/
theorem escape_sequences_iff (hprint : ∀ c, ' ' ≤ c → c ≤ '~' → strpy.isPrintableChar c = true)
    (systemInterface : Option GetCommandMatches) (consoleWidth : Nat) (s : ConsoleInput)
    (pieces : List (Piece strpy)) :
    Undisturbed systemInterface consoleWidth s pieces ↔
      ∀ csi, .control csi ∈ pieces → csi.middle = [] ∨ csi.middle = ['3'] := by
  simp only [← Csi.leftover_eq_nil_iff]
  constructor
  · intro h csi hcsi
    by_contra hleft
    obtain ⟨c, hc⟩ := List.exists_mem_of_ne_nil _ hleft
    have hmem := csi.body_mem c (csi.leftover_subset hc)
    have htyped := h.untyped c (by
      rw [strokes_marked hprint]
      exact List.mem_flatMap.mpr ⟨_, hcsi, mem_strokes_marked.mpr ⟨csi, rfl, hc⟩⟩)
    rw [hprint c hmem.1 hmem.2] at htyped
    cases htyped
  · intro h
    have hskip : ∀ p ∈ pieces, p.kept = false → p.strokes.map (Stroke.map Prod.fst) = [] := by
      intro p hp hkept
      rw [strokes_of_not_kept hkept fun csi hcsi => h csi (hcsi ▸ hp)]
      rfl
    constructor
    · unfold readInput
      rw [strokes_stream hprint, strokes_stream hprint, flatMap_kept _ hskip]
    · intro c hc
      rw [strokes_marked hprint] at hc
      obtain ⟨p, hp, hmem⟩ := List.mem_flatMap.mp hc
      obtain ⟨csi, rfl, hleft⟩ := mem_strokes_marked.mp hmem
      rw [h csi hp] at hleft
      cases hleft

/-- Page Up. -/
def pageUp : Csi where
  parameters := ['5']
  intermediates := []
  finalByte := '~'
  parameters_mem := List.forall_mem_singleton.mpr (by decide)
  intermediates_mem := List.forall_mem_nil _
  finalByte_mem := by decide

/-- Page Up types its last byte into the line. -/
theorem page_up_types_tilde :
    (readInput none 80 asciiStrpy blank "\x1B[5~".toList).map lineAndCursor = .ok (['~'], 1) ∧
      ¬ Undisturbed none 80 blank [(.control pageUp : Piece asciiStrpy)] := by
  have hread : (readInput none 80 asciiStrpy blank "\x1B[5~".toList).map lineAndCursor =
      .ok (['~'], 1) := by decide +kernel
  refine ⟨hread, fun h => ?_⟩
  have hsame := h.line_eq
  revert hsame
  decide +kernel

/-- Shift-Tab. -/
def shiftTab : Csi := { pageUp with
  parameters := []
  finalByte := 'Z'
  parameters_mem := List.forall_mem_nil _
  finalByte_mem := by decide }

/-- Delete, whose one parameter is a `3`. -/
def deleteKey : Csi := { pageUp with
  parameters := ['3']
  parameters_mem := List.forall_mem_singleton.mpr (by decide) }

/-- `x`, Shift-Tab and Delete. -/
theorem escape_sequences_iff_delete :
    Undisturbed none 80 blank
      [(.char 'x' rfl : Piece asciiStrpy), .control shiftTab, .control deleteKey] :=
  (escape_sequences_iff
    (fun c hlo hhi => Bool.and_eq_true_iff.mpr ⟨decide_eq_true hlo, decide_eq_true hhi⟩)
    none 80 blank [.char 'x' rfl, .control shiftTab, .control deleteKey]).mpr (by
      intro csi hcsi
      have hmem : csi = shiftTab ∨ csi = deleteKey := by simpa using hcsi
      rcases hmem with rfl | rfl <;> decide)

end RehldsM.View
