import Blinkit.Lib.Transition
import Blinkit.Text.TextCodec

/-!
# Segmented strings

Translation of `segmented_string.h` and `segmented_string.cc`: the input of the tokenizers, whose
segments are appended as they arrive and prepended by scripts, and are read without being copied.

* `SegmentedSubstring` — a string, and how much of it is left.
* `SegmentedString` — the current segment and those behind it, with the count of what was consumed.
* `SegmentedString.Ok` — the invariant: no segment behind the current one is empty.
* `SegmentedString.Fresh` — a string of which nothing has been read.
* `Plain` — the same operations on one list of characters.

Positions in lines are not part of the translation. Lengths are numbers here, where the source has
`int` and `unsigned`: the strings are taken to be shorter than `2 ^ 31`, all together.

Principal result: `segmentedString_run`: in every run, a segmented string looks like the list.
-/

set_option autoImplicit false

namespace Blinkit.Platform

open Transition
open Text (Units)

/-! ## Segments -/

/-- `SegmentedSubstring`. The pointer into the string is where the rest begins. -/
structure SegmentedSubstring where
  string : Units
  length : Nat
  currentChar : UInt16

namespace SegmentedSubstring

/-- The constructor. -/
def ofString (str : Units) : SegmentedSubstring := ⟨str, str.length, str.headD 0⟩

/-- `Clear`, which keeps the string. -/
def clear (g : SegmentedSubstring) : SegmentedSubstring := ⟨g.string, 0, 0⟩

def numberOfCharactersConsumed (g : SegmentedSubstring) : Nat := g.string.length - g.length

/-- `PushIfPossible`: the pointer goes back when the character stands there. -/
def pushIfPossible (g : SegmentedSubstring) (c : UInt16) : Option SegmentedSubstring :=
  if g.length = 0 then none
  else if g.numberOfCharactersConsumed = 0 then none
  else if g.string.getD (g.numberOfCharactersConsumed - 1) 0 ≠ c then none
  else some ⟨g.string, g.length + 1, c⟩

/-- `IncrementAndDecrementLength`. -/
def incrementAndDecrementLength (g : SegmentedSubstring) : SegmentedSubstring :=
  ⟨g.string, g.length - 1, g.string.getD (g.numberOfCharactersConsumed + 1) 0⟩

/-- `CurrentSubString`. -/
def currentSubString (g : SegmentedSubstring) (length : Nat) : Units :=
  (g.string.drop g.numberOfCharactersConsumed).take length

/-- What `AppendTo` appends. -/
def rest (g : SegmentedSubstring) : Units := g.string.drop g.numberOfCharactersConsumed

/-- The current character is the first one that is left. -/
structure Ok (g : SegmentedSubstring) : Prop where
  length_le : g.length ≤ g.string.length
  currentChar : g.currentChar = g.rest.headD 0

theorem rest_length {g : SegmentedSubstring} (h : g.Ok) : g.rest.length = g.length := by
  unfold rest numberOfCharactersConsumed
  rw [List.length_drop]
  have := h.length_le
  omega

theorem rest_ofString (str : Units) : (ofString str).rest = str := by
  unfold rest numberOfCharactersConsumed ofString
  rw [Nat.sub_self, List.drop_zero]

theorem ok_ofString (str : Units) : (ofString str).Ok :=
  ⟨Nat.le_refl _, by rw [rest_ofString]; rfl⟩

theorem consumed_ofString (str : Units) : (ofString str).numberOfCharactersConsumed = 0 :=
  Nat.sub_self _

theorem headD_drop (l : Units) (n : Nat) : (l.drop n).headD 0 = l.getD n 0 := by
  rw [List.getD_eq_getElem?_getD, ← List.head?_drop, List.headD_eq_head?_getD]

/-- The pointer goes back by the character. -/
theorem Ok.pushIfPossible {g g' : SegmentedSubstring} (h : g.Ok) {c : UInt16}
    (hpush : g.pushIfPossible c = some g') :
    g'.Ok ∧ 0 < g'.length ∧ g'.rest = c :: g.rest ∧
      g.numberOfCharactersConsumed = g'.numberOfCharactersConsumed + 1 := by
  unfold SegmentedSubstring.pushIfPossible at hpush
  split at hpush
  · cases hpush
  · split at hpush
    · cases hpush
    · rename_i hpos
      split at hpush
      · cases hpush
      · rename_i hchar
        cases hpush
        have hle := h.length_le
        unfold numberOfCharactersConsumed at hpos hchar
        have hconsumed : g.string.length - (g.length + 1) = g.string.length - g.length - 1 := by
          omega
        have hlt : g.string.length - g.length - 1 < g.string.length := by omega
        rw [not_not, List.getD_eq_getElem?_getD, List.getElem?_eq_getElem hlt,
          Option.getD_some] at hchar
        have hrest : rest ⟨g.string, g.length + 1, c⟩ = c :: g.rest := by
          unfold rest numberOfCharactersConsumed
          dsimp only
          rw [hconsumed, List.drop_eq_getElem_cons hlt, hchar]
          congr 2
          omega
        refine ⟨⟨by dsimp only; omega, by rw [hrest]; rfl⟩, Nat.succ_pos _, hrest, ?_⟩
        unfold numberOfCharactersConsumed
        dsimp only
        omega

/-- The pointer goes on. -/
theorem Ok.increment {g : SegmentedSubstring} (h : g.Ok) (hlength : 1 < g.length) :
    g.incrementAndDecrementLength.Ok ∧ 0 < g.incrementAndDecrementLength.length ∧
      g.incrementAndDecrementLength.rest = g.rest.tail ∧
      g.incrementAndDecrementLength.numberOfCharactersConsumed =
        g.numberOfCharactersConsumed + 1 := by
  have hle := h.length_le
  have hconsumed : g.string.length - (g.length - 1) = g.string.length - g.length + 1 := by omega
  have hrest : g.incrementAndDecrementLength.rest = g.rest.tail := by
    unfold rest incrementAndDecrementLength numberOfCharactersConsumed
    dsimp only
    rw [hconsumed, List.tail_drop]
  refine ⟨⟨?_, ?_⟩, ?_, hrest, hconsumed⟩
  · unfold incrementAndDecrementLength
    dsimp only
    omega
  · rw [hrest]
    unfold incrementAndDecrementLength rest
    dsimp only
    rw [List.tail_drop, headD_drop]
  · unfold incrementAndDecrementLength
    dsimp only
    omega

end SegmentedSubstring

/-! ## The string -/

inductive PrependType where
  | newInput
  | unconsume
  deriving DecidableEq, Repr

inductive LookAheadResult where
  | didNotMatch
  | didMatch
  | notEnoughCharacters
  deriving DecidableEq, Repr

/-- `ToASCIILower`. -/
def foldASCII (c : UInt16) : UInt16 := if 0x41 ≤ c ∧ c ≤ 0x5A then c + 0x20 else c

/-- `StartsWith`, of characters that are as many as those of the string. -/
def startsWith (ignoringCase : Bool) (string characters : Units) : Bool :=
  if ignoringCase then characters.map foldASCII == string.map foldASCII else characters == string

structure SegmentedString where
  currentString : SegmentedSubstring
  /-- `number_of_characters_consumed_prior_to_current_string_`. -/
  priorToCurrentString : Int
  substrings : List SegmentedSubstring
  closed : Bool
  empty : Bool

namespace SegmentedString

/-- The constructor for a string. -/
def ofString (str : Units) : SegmentedString :=
  ⟨.ofString str, 0, [], false, str.length == 0⟩

def length (s : SegmentedString) : Nat :=
  s.substrings.foldl (fun length g => length + g.length) s.currentString.length

def currentChar (s : SegmentedString) : UInt16 := s.currentString.currentChar

def numberOfCharactersConsumed (s : SegmentedString) : Int :=
  s.priorToCurrentString + s.currentString.numberOfCharactersConsumed

/-- `ToString`. -/
def toText (s : SegmentedString) : Units :=
  s.currentString.rest ++ s.substrings.flatMap SegmentedSubstring.rest

/-- `Append`, of a segment. -/
def appendSubstring (s : SegmentedString) (g : SegmentedSubstring) : SegmentedString :=
  if g.length = 0 then s
  else if s.currentString.length = 0 then
    { s with
      priorToCurrentString := s.priorToCurrentString + s.currentString.numberOfCharactersConsumed
      currentString := g
      empty := false }
  else { s with substrings := s.substrings ++ [g], empty := false }

/-- `Append`. -/
def append (s t : SegmentedString) : SegmentedString :=
  t.substrings.foldl appendSubstring (s.appendSubstring t.currentString)

/-- `Prepend`, of a segment of which nothing has been consumed. -/
def prependSubstring (s : SegmentedString) (g : SegmentedSubstring) (type : PrependType) :
    SegmentedString :=
  if g.length = 0 then s
  else
    let prior := s.priorToCurrentString + s.currentString.numberOfCharactersConsumed
    { s with
      priorToCurrentString := if type = .unconsume then prior - g.length else prior
      substrings :=
        if s.currentString.length = 0 then s.substrings else s.currentString :: s.substrings
      currentString := g
      empty := false }

/-- `Prepend`, which takes the segments from the last one on. -/
def prepend (s t : SegmentedString) (type : PrependType) : SegmentedString :=
  (t.substrings.foldr (fun g s => s.prependSubstring g type) s).prependSubstring
    t.currentString type

/-- `Push`. -/
def push (s : SegmentedString) (c : UInt16) : SegmentedString :=
  match s.currentString.pushIfPossible c with
  | some g => { s with currentString := g }
  | none => s.prepend (.ofString [c]) .unconsume

/-- `AdvanceSubstring`. -/
def advanceSubstring (s : SegmentedString) : SegmentedString :=
  match s.substrings with
  | g :: substrings =>
    let prior := s.priorToCurrentString + (s.currentString.numberOfCharactersConsumed + 1)
    { s with
      priorToCurrentString := prior - g.numberOfCharactersConsumed
      currentString := g
      substrings := substrings }
  | [] => { s with currentString := s.currentString.clear, empty := true }

/-- `Advance`. -/
def advance (s : SegmentedString) : SegmentedString :=
  if s.currentString.length > 1 then
    { s with currentString := s.currentString.incrementAndDecrementLength }
  else s.advanceSubstring

/-- `Advance`, of a number of characters, which are written out. -/
def advanceBy (s : SegmentedString) : Nat → SegmentedString × Units
  | 0 => (s, [])
  | count + 1 =>
    let r := s.advance.advanceBy count
    (r.1, s.currentChar :: r.2)

/-- `LookAheadSlowCase`. -/
def lookAheadSlowCase (s : SegmentedString) (string : Units) (ignoringCase : Bool) :
    SegmentedString × LookAheadResult :=
  if string.length > s.length then (s, .notEnoughCharacters)
  else
    let (s, consumedString) := s.advanceBy string.length
    (s.prepend (.ofString consumedString) .unconsume,
      if startsWith ignoringCase string consumedString then .didMatch else .didNotMatch)

/-- `LookAheadInline`. -/
def lookAhead (s : SegmentedString) (string : Units) (ignoringCase : Bool) :
    SegmentedString × LookAheadResult :=
  if string.length ≤ s.currentString.length then
    (s, if startsWith ignoringCase string (s.currentString.currentSubString string.length) then
      .didMatch else .didNotMatch)
  else s.lookAheadSlowCase string ignoringCase

/-- `Close`. -/
def close (s : SegmentedString) : SegmentedString := { s with closed := true }

/-- What its users see. -/
structure View where
  text : Units
  isEmpty : Bool
  length : Nat
  currentChar : UInt16
  numberOfCharactersConsumed : Int
  isClosed : Bool

def view (s : SegmentedString) : View :=
  ⟨s.toText, s.empty, s.length, s.currentChar, s.numberOfCharactersConsumed, s.closed⟩

/-- No segment behind the current one is empty, and there is none behind one that is. -/
structure Ok (s : SegmentedString) : Prop where
  current : s.currentString.Ok
  substrings : ∀ g ∈ s.substrings, g.Ok ∧ 0 < g.length
  last : s.currentString.length = 0 → s.substrings = []
  empty : s.empty = (s.currentString.length == 0)

/-- Nothing has been read of any segment. -/
structure Fresh (s : SegmentedString) : Prop where
  ok : s.Ok
  unread : ∀ g ∈ s.currentString :: s.substrings, g.numberOfCharactersConsumed = 0

/-- What has been read of the segment that the rest begins in. -/
def readOfCurrent (s : SegmentedString) : Nat :=
  if s.empty then 0 else s.currentString.numberOfCharactersConsumed

/-- The operations. What is appended may be composite and partly read. -/
inductive Op where
  | append (t : {t : SegmentedString // t.Ok})
  | prepend (t : {t : SegmentedString // t.Fresh}) (type : PrependType)
  | push (c : UInt16)
  | advance
  | lookAhead (string : Units) (ignoringCase : Bool)
  | close

/-- An operation, with what a look ahead says. -/
def apply (s : SegmentedString) : Op → SegmentedString × Option LookAheadResult
  | .append t => (s.append t, none)
  | .prepend t type => (s.prepend t type, none)
  | .push c => (s.push c, none)
  | .advance => (s.advance, none)
  | .lookAhead string ignoringCase =>
    let r := s.lookAhead string ignoringCase
    (r.1, some r.2)
  | .close => (s.close, none)

/-- The machine of the operations, which shows its state after each one. -/
def step (s : SegmentedString) (op : Op) :
    Except Empty (SegmentedString × (View × Option LookAheadResult)) :=
  let r := s.apply op
  .ok (r.1, r.1.view, r.2)

end SegmentedString

/-! ## One list of characters -/

/-- The characters that are left, and the number of those that were consumed. -/
structure Plain where
  text : Units
  consumed : Int
  closed : Bool

namespace Plain

open SegmentedString (View Op)

def view (q : Plain) : View :=
  ⟨q.text, q.text.isEmpty, q.text.length, q.text.headD 0, q.consumed, q.closed⟩

/-- What the first characters say. -/
def lookAhead (q : Plain) (string : Units) (ignoringCase : Bool) : LookAheadResult :=
  if string.length > q.text.length then .notEnoughCharacters
  else if startsWith ignoringCase string (q.text.take string.length) then .didMatch
  else .didNotMatch

def apply (q : Plain) : Op → Plain × Option LookAheadResult
  | .append t =>
    ({ q with
        text := q.text ++ t.1.toText
        -- What was read of a string counts when its rest is all that is left.
        consumed := if q.text.isEmpty then q.consumed + t.1.readOfCurrent else q.consumed }, none)
  | .prepend t .newInput => ({ q with text := t.1.toText ++ q.text }, none)
  | .prepend t .unconsume =>
    ({ q with
        text := t.1.toText ++ q.text
        consumed := q.consumed - t.1.toText.length }, none)
  | .push c => ({ q with text := c :: q.text, consumed := q.consumed - 1 }, none)
  | .advance =>
    ({ q with
        text := q.text.tail
        consumed := if q.text.isEmpty then q.consumed else q.consumed + 1 }, none)
  | .lookAhead string ignoringCase => (q, some (q.lookAhead string ignoringCase))
  | .close => ({ q with closed := true }, none)

def step (q : Plain) (op : Op) : Except Empty (Plain × (View × Option LookAheadResult)) :=
  let r := q.apply op
  .ok (r.1, r.1.view, r.2)

end Plain

/-! ## The invariant -/

namespace SegmentedString

/-- The string is a list of characters. -/
structure Shows (s : SegmentedString) (q : Plain) : Prop where
  ok : s.Ok
  text : s.toText = q.text
  consumed : s.numberOfCharactersConsumed = q.consumed
  closed : s.closed = q.closed

theorem foldl_length {substrings : List SegmentedSubstring}
    (h : ∀ g ∈ substrings, g.Ok ∧ 0 < g.length) (n : Nat) :
    substrings.foldl (fun length g => length + g.length) n =
      n + (substrings.flatMap SegmentedSubstring.rest).length := by
  induction substrings generalizing n with
  | nil => rfl
  | cons g substrings ih =>
    obtain ⟨hg, hrest⟩ := List.forall_mem_cons.mp h
    rw [List.foldl_cons, ih hrest, List.flatMap_cons, List.length_append,
      SegmentedSubstring.rest_length hg.1]
    omega

theorem Ok.length {s : SegmentedString} (h : s.Ok) : s.length = s.toText.length := by
  unfold SegmentedString.length toText
  rw [foldl_length h.substrings, List.length_append, SegmentedSubstring.rest_length h.current]

theorem Ok.isEmpty {s : SegmentedString} (h : s.Ok) : s.empty = s.toText.isEmpty := by
  have hlength := SegmentedSubstring.rest_length h.current
  rw [h.empty]
  unfold toText
  by_cases hzero : s.currentString.length = 0
  · rw [hzero] at hlength ⊢
    rw [h.last hzero, List.length_eq_zero_iff.mp hlength]
    rfl
  · generalize s.currentString.rest = rest at hlength ⊢
    cases rest with
    | nil => exact absurd hlength.symm hzero
    | cons c rest => exact beq_eq_false_iff_ne.mpr hzero

theorem Ok.currentChar {s : SegmentedString} (h : s.Ok) : s.currentChar = s.toText.headD 0 := by
  have hlength := SegmentedSubstring.rest_length h.current
  unfold SegmentedString.currentChar toText
  rw [h.current.currentChar]
  by_cases hzero : s.currentString.length = 0
  · rw [hzero] at hlength
    rw [h.last hzero, List.length_eq_zero_iff.mp hlength]
    rfl
  · generalize s.currentString.rest = rest at hlength ⊢
    cases rest with
    | nil => exact absurd hlength.symm hzero
    | cons c rest => rfl

/-- The string stays as it is when a character is left before and after. -/
theorem Ok.empty_of_pos {s : SegmentedString} (h : s.Ok) {n : Nat}
    (hcurrent : s.currentString.length ≠ 0) (hn : 0 < n) : s.empty = (n == 0) :=
  (h.empty.trans (beq_eq_false_iff_ne.mpr hcurrent)).trans
    (beq_eq_false_iff_ne.mpr (Nat.ne_of_gt hn)).symm

/-- **What is shown is seen.** -/
theorem Shows.view {s : SegmentedString} {q : Plain} (h : s.Shows q) : s.view = q.view := by
  unfold SegmentedString.view Plain.view
  rw [h.ok.isEmpty, h.ok.length, h.ok.currentChar, h.text, h.consumed, h.closed]

theorem Shows.length {s : SegmentedString} {q : Plain} (h : s.Shows q) :
    s.length = q.text.length := by
  rw [h.ok.length, h.text]

theorem Shows.isEmpty {s : SegmentedString} {q : Plain} (h : s.Shows q) :
    s.empty = q.text.isEmpty := by
  rw [h.ok.isEmpty, h.text]

/-! ## Operations -/

section Operations

variable {s : SegmentedString} {q : Plain}

open SegmentedSubstring

/-- Nothing is left when the current segment is used up. -/
theorem Shows.text_of_length (h : s.Shows q) (hzero : s.currentString.length = 0) :
    q.text = [] := by
  have hlength := rest_length h.ok.current
  rw [hzero] at hlength
  rw [← h.text]
  unfold toText
  rw [h.ok.last hzero, List.length_eq_zero_iff.mp hlength]
  rfl

theorem Shows.isEmpty_text (h : s.Shows q) :
    q.text.isEmpty = (s.currentString.length == 0) := by
  rw [← h.isEmpty, h.ok.empty]

theorem Shows.appendSubstring (h : s.Shows q) {g : SegmentedSubstring} (hg : g.Ok)
    (hpos : 0 < g.length) :
    (s.appendSubstring g).Shows
      { q with
        text := q.text ++ g.rest
        consumed :=
          if q.text.isEmpty then q.consumed + g.numberOfCharactersConsumed else q.consumed } := by
  have hne : g.length ≠ 0 := Nat.ne_of_gt hpos
  have hconsumed := h.consumed
  unfold numberOfCharactersConsumed at hconsumed
  unfold SegmentedString.appendSubstring
  rw [if_neg hne, h.isEmpty_text]
  split
  · rename_i hzero
    refine ⟨⟨hg, h.ok.substrings, fun hlength => absurd hlength hne, ?_⟩, ?_, ?_, h.closed⟩
    · exact (beq_eq_false_iff_ne.mpr hne).symm
    · rw [h.text_of_length hzero]
      unfold toText
      dsimp only
      rw [h.ok.last hzero]
      exact List.append_nil _
    · unfold numberOfCharactersConsumed
      dsimp only
      rw [if_pos (beq_iff_eq.mpr hzero), hconsumed]
  · rename_i hcurrent
    refine ⟨⟨h.ok.current, ?_, fun hlength => absurd hlength hcurrent, ?_⟩, ?_, ?_, h.closed⟩
    · intro g' hg'
      rcases List.mem_append.mp hg' with hg' | hg'
      · exact h.ok.substrings g' hg'
      · rw [List.mem_singleton.mp hg']
        exact ⟨hg, hpos⟩
    · exact (beq_eq_false_iff_ne.mpr hcurrent).symm
    · rw [← h.text]
      unfold toText
      rw [List.flatMap_append, List.flatMap_singleton, List.append_assoc]
    · dsimp only
      rw [if_neg (by rw [beq_iff_eq]; exact hcurrent)]
      exact h.consumed

/-- The segments behind the first one only add their text. -/
theorem Shows.appendSubstrings {substrings : List SegmentedSubstring}
    (hall : ∀ g ∈ substrings, g.Ok ∧ 0 < g.length) {s : SegmentedString} {q : Plain}
    (h : s.Shows q) (hne : q.text ≠ []) :
    (substrings.foldl SegmentedString.appendSubstring s).Shows
      { q with text := q.text ++ substrings.flatMap SegmentedSubstring.rest } := by
  induction substrings generalizing s q with
  | nil => exact ⟨h.ok, h.text.trans (List.append_nil _).symm, h.consumed, h.closed⟩
  | cons g substrings ih =>
    obtain ⟨⟨hg, hpos⟩, hall⟩ := List.forall_mem_cons.mp hall
    have hfirst := h.appendSubstring hg hpos
    rw [if_neg (mt List.isEmpty_iff.mp hne)] at hfirst
    have hrest := ih hall hfirst (List.append_ne_nil_of_left_ne_nil hne _)
    refine ⟨hrest.ok, hrest.text.trans ?_, hrest.consumed, hrest.closed⟩
    exact List.append_assoc _ _ _

theorem Shows.append (h : s.Shows q) {t : SegmentedString} (ht : t.Ok) :
    (s.append t).Shows
      { q with
        text := q.text ++ t.toText
        consumed := if q.text.isEmpty then q.consumed + t.readOfCurrent else q.consumed } := by
  unfold SegmentedString.append
  by_cases hzero : t.currentString.length = 0
  · have hnil : t.toText = [] := by
      rw [← List.isEmpty_iff, ← ht.isEmpty, ht.empty]
      exact beq_iff_eq.mpr hzero
    have hread : t.readOfCurrent = 0 := by
      unfold readOfCurrent
      exact if_pos (ht.empty.trans (beq_iff_eq.mpr hzero))
    unfold SegmentedString.appendSubstring
    rw [ht.last hzero, if_pos hzero, hread, hnil, List.append_nil]
    refine ⟨h.ok, h.text, ?_, h.closed⟩
    dsimp only
    rw [Int.natCast_zero, Int.add_zero, ite_self]
    exact h.consumed
  · have hread : t.readOfCurrent = t.currentString.numberOfCharactersConsumed := by
      unfold readOfCurrent
      rw [ht.empty, beq_eq_false_iff_ne.mpr hzero]
      exact if_neg Bool.false_ne_true
    have hfirst := h.appendSubstring ht.current (Nat.pos_of_ne_zero hzero)
    have hne : t.currentString.rest ≠ [] := by
      intro hnil
      rw [← rest_length ht.current, hnil] at hzero
      exact hzero rfl
    have hrest := Shows.appendSubstrings ht.substrings hfirst
      (List.append_ne_nil_of_right_ne_nil _ hne)
    rw [hread]
    refine ⟨hrest.ok, hrest.text.trans ?_, hrest.consumed, hrest.closed⟩
    exact List.append_assoc _ _ _

theorem Shows.prependSubstring (h : s.Shows q) {g : SegmentedSubstring} (hg : g.Ok)
    (hunread : g.numberOfCharactersConsumed = 0) (type : PrependType) :
    (s.prependSubstring g type).Shows
      { q with
        text := g.rest ++ q.text
        consumed :=
          if type = .unconsume then q.consumed - g.rest.length else q.consumed } := by
  rw [rest_length hg]
  unfold SegmentedString.prependSubstring
  split
  · rename_i hzero
    have hnil : g.rest = [] := List.length_eq_zero_iff.mp ((rest_length hg).trans hzero)
    rw [hnil]
    refine ⟨h.ok, h.text, ?_, h.closed⟩
    dsimp only
    rw [hzero, Int.natCast_zero, Int.sub_zero, ite_self]
    exact h.consumed
  · rename_i hne
    have hsubstrings : ∀ g ∈ (if s.currentString.length = 0 then s.substrings
        else s.currentString :: s.substrings), g.Ok ∧ 0 < g.length := by
      split
      · exact h.ok.substrings
      · rename_i hcurrent
        exact List.forall_mem_cons.mpr
          ⟨⟨h.ok.current, Nat.pos_of_ne_zero hcurrent⟩, h.ok.substrings⟩
    refine ⟨⟨hg, hsubstrings, fun hlength => absurd hlength hne, ?_⟩, ?_, ?_, h.closed⟩
    · exact (beq_eq_false_iff_ne.mpr hne).symm
    · unfold toText
      dsimp only
      split
      · rename_i hzero
        rw [h.text_of_length hzero, h.ok.last hzero]
        rfl
      · rw [← h.text, List.flatMap_cons]
        rfl
    · have hconsumed := h.consumed
      unfold numberOfCharactersConsumed at hconsumed ⊢
      dsimp only
      rw [hunread, hconsumed]
      exact Int.add_zero _

/-- The segments are prepended from the last one on. -/
theorem Shows.prependSubstrings (h : s.Shows q) {substrings : List SegmentedSubstring}
    (hall : ∀ g ∈ substrings, g.Ok ∧ g.numberOfCharactersConsumed = 0) (type : PrependType) :
    (substrings.foldr (fun g s => s.prependSubstring g type) s).Shows
      { q with
        text := substrings.flatMap SegmentedSubstring.rest ++ q.text
        consumed :=
          if type = .unconsume then
            q.consumed - (substrings.flatMap SegmentedSubstring.rest).length
          else q.consumed } := by
  induction substrings with
  | nil =>
    refine ⟨h.ok, h.text, h.consumed.trans ?_, h.closed⟩
    dsimp only
    rw [List.flatMap_nil, List.length_nil, Int.natCast_zero, Int.sub_zero, ite_self]
  | cons g substrings ih =>
    obtain ⟨⟨hg, hunread⟩, hall⟩ := List.forall_mem_cons.mp hall
    have hstep := (ih hall).prependSubstring hg hunread type
    refine ⟨hstep.ok, hstep.text.trans ?_, hstep.consumed.trans ?_, hstep.closed⟩
    · rw [List.flatMap_cons]
      exact (List.append_assoc _ _ _).symm
    · dsimp only
      rw [List.flatMap_cons, List.length_append]
      split
      · omega
      · rfl

theorem Shows.prepend (h : s.Shows q) {t : SegmentedString} (ht : t.Fresh) (type : PrependType) :
    (s.prepend t type).Shows
      { q with
        text := t.toText ++ q.text
        consumed := if type = .unconsume then q.consumed - t.toText.length else q.consumed } := by
  obtain ⟨hunread, hall⟩ := List.forall_mem_cons.mp ht.unread
  have hrest := h.prependSubstrings
    (fun g hg => ⟨(ht.ok.substrings g hg).1, hall g hg⟩) type
  have hstep := hrest.prependSubstring ht.ok.current hunread type
  refine ⟨hstep.ok, hstep.text.trans ?_, hstep.consumed.trans ?_, hstep.closed⟩
  · exact (List.append_assoc _ _ _).symm
  · unfold toText
    dsimp only
    rw [List.length_append]
    split
    · omega
    · rfl

theorem shows_ofString (str : Units) : (ofString str).Shows ⟨str, 0, false⟩ := by
  refine ⟨⟨ok_ofString str, List.forall_mem_nil _, fun _ => rfl, rfl⟩, ?_, ?_, rfl⟩
  · exact (List.append_nil _).trans (rest_ofString str)
  · exact (Int.zero_add _).trans (congrArg _ (consumed_ofString str))

/-- Nothing has been read of a new string. -/
theorem fresh_ofString (str : Units) : (ofString str).Fresh :=
  ⟨(shows_ofString str).ok, fun g hg => by
    rw [List.mem_singleton.mp hg]
    exact consumed_ofString str⟩

/-- A new string only adds its text. -/
theorem Shows.append_ofString (h : s.Shows q) (str : Units) :
    (s.append (ofString str)).Shows { q with text := q.text ++ str } := by
  have happend := h.append (shows_ofString str).ok
  have hread : (ofString str).readOfCurrent = 0 := by
    unfold readOfCurrent
    rw [show (ofString str).currentString.numberOfCharactersConsumed = 0 from
      consumed_ofString str, ite_self]
  rw [(shows_ofString str).text, hread, Int.natCast_zero, Int.add_zero, ite_self] at happend
  exact happend

/-- So does one that is prepended. -/
theorem Shows.prepend_ofString (h : s.Shows q) (str : Units) (type : PrependType) :
    (s.prepend (ofString str) type).Shows
      { q with
        text := str ++ q.text
        consumed := if type = .unconsume then q.consumed - str.length else q.consumed } := by
  have hprepend := h.prepend (fresh_ofString str) type
  rw [(shows_ofString str).text] at hprepend
  exact hprepend

theorem Shows.push (h : s.Shows q) (c : UInt16) :
    (s.push c).Shows { q with text := c :: q.text, consumed := q.consumed - 1 } := by
  unfold SegmentedString.push
  split
  · rename_i g hpush
    obtain ⟨hg, hpos, hrest, hconsumed⟩ := h.ok.current.pushIfPossible hpush
    have hcurrent : s.currentString.length ≠ 0 := by
      intro hzero
      unfold pushIfPossible at hpush
      rw [if_pos hzero] at hpush
      cases hpush
    refine ⟨⟨hg, h.ok.substrings, fun hlength => absurd hlength (Nat.ne_of_gt hpos),
      h.ok.empty_of_pos hcurrent hpos⟩, ?_, ?_, h.closed⟩
    · rw [← h.text]
      unfold toText
      dsimp only
      rw [hrest]
      rfl
    · have hall := h.consumed
      unfold numberOfCharactersConsumed at hall ⊢
      dsimp only
      omega
  · exact h.prepend_ofString [c] .unconsume

/-- The last segment is cleared. Its string stays, and counts as consumed. -/
theorem Shows.clear (h : s.Shows q) (hsubstrings : s.substrings = []) :
    Shows { s with currentString := s.currentString.clear, empty := true }
      { q with text := [], consumed := q.consumed + s.currentString.length } := by
  have hle := h.ok.current.length_le
  have hconsumed := h.consumed
  have hrest : s.currentString.clear.rest = [] := by
    unfold rest SegmentedSubstring.numberOfCharactersConsumed SegmentedSubstring.clear
    exact List.drop_length
  refine ⟨⟨⟨Nat.zero_le _, ?_⟩, h.ok.substrings, fun _ => hsubstrings, rfl⟩, ?_, ?_, h.closed⟩
  · rw [hrest]
    rfl
  · unfold toText
    dsimp only
    rw [hrest, hsubstrings]
    rfl
  · unfold numberOfCharactersConsumed SegmentedSubstring.numberOfCharactersConsumed at hconsumed ⊢
    unfold SegmentedSubstring.clear
    dsimp only
    omega

/-- The next segment becomes the current one. -/
theorem Shows.next (h : s.Shows q) {g : SegmentedSubstring} {substrings : List SegmentedSubstring}
    (hsubstrings : s.substrings = g :: substrings) (hlength : s.currentString.length = 1) :
    s.advanceSubstring.Shows { q with text := q.text.tail, consumed := q.consumed + 1 } := by
  have hrest := rest_length h.ok.current
  rw [hlength] at hrest
  obtain ⟨c, hc⟩ := List.length_eq_one_iff.mp hrest
  have hall := h.ok.substrings
  rw [hsubstrings] at hall
  obtain ⟨⟨hg, hpos⟩, hall⟩ := List.forall_mem_cons.mp hall
  unfold SegmentedString.advanceSubstring
  rw [hsubstrings]
  refine ⟨⟨hg, hall, fun hzero => absurd hzero (Nat.ne_of_gt hpos),
    h.ok.empty_of_pos (by omega) hpos⟩, ?_, ?_, h.closed⟩
  · rw [← h.text]
    unfold toText
    rw [hc, hsubstrings]
    rfl
  · have hconsumed := h.consumed
    unfold numberOfCharactersConsumed at hconsumed ⊢
    dsimp only
    omega

theorem Shows.advance (h : s.Shows q) :
    s.advance.Shows
      { q with
        text := q.text.tail
        consumed := if q.text.isEmpty then q.consumed else q.consumed + 1 } := by
  have hempty := h.isEmpty_text
  have hlen := rest_length h.ok.current
  unfold SegmentedString.advance
  split
  · rename_i hlength
    obtain ⟨hg, hpos, hrest, hconsumed⟩ := h.ok.current.increment hlength
    have hcurrent : s.currentString.length ≠ 0 := by omega
    have hall := h.consumed
    rw [hempty, beq_eq_false_iff_ne.mpr hcurrent]
    refine ⟨⟨hg, h.ok.substrings, fun hzero => absurd hzero (Nat.ne_of_gt hpos),
      h.ok.empty_of_pos hcurrent hpos⟩, ?_, ?_, h.closed⟩
    · rw [← h.text]
      unfold toText
      dsimp only
      rw [hrest, List.tail_append_of_ne_nil fun hnil => hcurrent (by rw [← hlen, hnil]; rfl)]
    · unfold numberOfCharactersConsumed at hall ⊢
      dsimp only
      rw [if_neg Bool.false_ne_true]
      omega
  · rename_i hlength
    cases hsubstrings : s.substrings with
    | nil =>
      have hclear := h.clear hsubstrings
      have hstep : s.advanceSubstring =
          { s with currentString := s.currentString.clear, empty := true } := by
        unfold SegmentedString.advanceSubstring
        split
        · rename_i hcons
          rw [hsubstrings] at hcons
          cases hcons
        · rfl
      rw [hstep]
      refine ⟨hclear.ok, hclear.text.trans ?_, hclear.consumed.trans ?_, h.closed⟩
      · have htail : s.currentString.rest.tail.length = 0 := by
          rw [List.length_tail]
          omega
        rw [← h.text]
        unfold toText
        rw [hsubstrings, List.flatMap_nil, List.append_nil]
        exact (List.length_eq_zero_iff.mp htail).symm
      · dsimp only
        rw [hempty]
        split
        · rename_i hzero
          rw [beq_iff_eq.mp hzero]
          exact Int.add_zero _
        · rename_i hzero
          rw [beq_iff_eq] at hzero
          omega
    | cons g substrings =>
      have hcurrent : s.currentString.length ≠ 0 := by
        intro hzero
        rw [h.ok.last hzero] at hsubstrings
        cases hsubstrings
      rw [hempty, beq_eq_false_iff_ne.mpr hcurrent]
      exact h.next hsubstrings (by omega)

/-- A character that is left, and what it leaves. -/
theorem Shows.read {c : UInt16} {text : Units} {n : Int} {closed : Bool}
    (h : s.Shows ⟨c :: text, n, closed⟩) :
    s.empty = false ∧ s.currentChar = c ∧ s.advance.Shows ⟨text, n + 1, closed⟩ :=
  ⟨h.isEmpty, by rw [h.ok.currentChar, h.text]; rfl, h.advance⟩

/-- The characters that are written out are the first ones. -/
theorem Shows.advanceBy {s : SegmentedString} {q : Plain} (h : s.Shows q) {count : Nat}
    (hcount : count ≤ q.text.length) :
    (s.advanceBy count).2 = q.text.take count ∧
      (s.advanceBy count).1.Shows
        { q with text := q.text.drop count, consumed := q.consumed + count } := by
  induction count generalizing s q with
  | zero => exact ⟨rfl, h.ok, h.text, h.consumed.trans (Int.add_zero _).symm, h.closed⟩
  | succ count ih =>
    obtain ⟨text, consumed, closed⟩ := q
    cases text with
    | nil => exact absurd hcount (Nat.not_succ_le_zero count)
    | cons c text =>
      obtain ⟨-, hchar, hadvance⟩ := h.read
      obtain ⟨hwritten, hrest⟩ := ih hadvance (Nat.le_of_succ_le_succ hcount)
      refine ⟨?_, hrest.ok, hrest.text, hrest.consumed.trans ?_, hrest.closed⟩
      · unfold SegmentedString.advanceBy
        rw [List.take_succ_cons]
        exact congrArg₂ List.cons hchar hwritten
      · show consumed + 1 + (count : Int) = consumed + ((count + 1 : Nat) : Int)
        omega

/-- Looking ahead says what the first characters are, and leaves the string as it looks. -/
theorem Shows.lookAhead (h : s.Shows q) (string : Units) (ignoringCase : Bool) :
    (s.lookAhead string ignoringCase).1.Shows q ∧
      (s.lookAhead string ignoringCase).2 = q.lookAhead string ignoringCase := by
  have hlen := rest_length h.ok.current
  unfold SegmentedString.lookAhead Plain.lookAhead
  split
  · rename_i hfast
    have henough : ¬ string.length > s.toText.length := by
      unfold toText
      rw [List.length_append]
      omega
    refine ⟨h, ?_⟩
    rw [← h.text, if_neg henough]
    unfold toText
    rw [List.take_append_of_le_length (by omega)]
    rfl
  · unfold lookAheadSlowCase
    rw [h.ok.length, h.text]
    split
    · exact ⟨h, rfl⟩
    · rename_i hslow
      obtain ⟨hwritten, hrest⟩ := h.advanceBy (Nat.le_of_not_lt hslow)
      have hback := hrest.prepend_ofString (s.advanceBy string.length).2 .unconsume
      dsimp only
      rw [hwritten] at hback ⊢
      refine ⟨⟨hback.ok, ?_, ?_, hback.closed⟩, rfl⟩
      · exact hback.text.trans (List.take_append_drop _ _)
      · refine hback.consumed.trans ?_
        dsimp only
        rw [if_pos rfl, List.length_take, Nat.min_eq_left (Nat.le_of_not_lt hslow)]
        omega

/-- Every operation shows what it does to the list. -/
theorem Shows.apply (h : s.Shows q) (op : Op) :
    (s.apply op).1.Shows (q.apply op).1 ∧ (s.apply op).2 = (q.apply op).2 := by
  cases op with
  | append t => exact ⟨h.append t.2, rfl⟩
  | prepend t type => cases type <;> exact ⟨h.prepend t.2 _, rfl⟩
  | push c => exact ⟨h.push c, rfl⟩
  | advance => exact ⟨h.advance, rfl⟩
  | lookAhead string ignoringCase =>
    obtain ⟨hshows, hresult⟩ := h.lookAhead string ignoringCase
    exact ⟨hshows, congrArg some hresult⟩
  | close =>
    have hok : s.close.Ok := ⟨h.ok.current, h.ok.substrings, h.ok.last, h.ok.empty⟩
    exact ⟨⟨hok, h.text, h.consumed, rfl⟩, rfl⟩

end Operations

/-- **A segmented string is its text.** In every run of the operations, on a string made of any
characters, every answer and everything that is seen of the string is what one list of
characters would give, with the count of what was taken from it. The strings that are appended
may be composite and partly read. -/
theorem segmentedString_run (str : Units) (ops : List Op) :
    Agree Shows (List.map id) (run step (ofString str) ops)
      (run Plain.step ⟨str, 0, false⟩ ops) := by
  refine run_agree (fun s q op h => ?_) (shows_ofString str) ops
  obtain ⟨hshows, hresult⟩ := h.apply op
  refine ⟨hshows, ?_⟩
  unfold id
  rw [hshows.view, hresult]

end SegmentedString

end Blinkit.Platform
