import Blinkit.Url.Reference

/-!
# Canonical paths

`DoPartialPath` appends a path to an output that may end in other path components already: it
escapes and unescapes characters, and follows the dot segments back over the output.

* `pathCharLookup` — what is done with each character.
* `classifyAfterDot`, `backUpToPreviousSlash`, `checkForNestedEscapes` — the functions it calls.
* `pathStep`, `partialPath` — one round of its loop, and the loop.
* `canonicalizePath`, `canonicalizePartialPath`.

Principal results: `partialPath_segment`, `partialPath_path` and `partialPath_kept`.
-/

set_option autoImplicit false

namespace Blinkit.Url

/-- `CharacterFlags`. -/
inductive CharacterFlags where
  | pass
  | special
  | escape
  | unescape
  | invalid
  deriving DecidableEq

/-- The flags of `kPathCharLookup`. -/
def pathCharLookup (c : Char) : CharacterFlags :=
  if c = '\x00' then .invalid
  else if c = '.' then .special
  else if c.isAlphanum || c == '-' || c == '_' || c == '~' then .unescape
  else if isSubDelim c || c == ':' || c == '@' || c == '/' || c == '[' || c == ']' then .pass
  else .escape

/-- The characters that are not copied as they are. -/
def CharacterFlags.isSpecial (f : CharacterFlags) : Bool :=
  f == .special || f == .escape || f == .invalid

def hexDigit (n : Nat) : Char := Char.ofNat (if n < 10 then n + 48 else n + 55)

/-- `AppendEscapedChar`. -/
def appendEscapedChar (c : Char) (output : Str) : Str :=
  output ++ ['%', hexDigit (c.toNat / 16), hexDigit (c.toNat % 16)]

/-- `IsDot`: how many characters of the text express a dot at its beginning. -/
def isDot : Str → Nat
  | '.' :: _ => 1
  | '%' :: '2' :: c :: _ => if c = 'e' ∨ c = 'E' then 3 else 0
  | _ => 0

/-- `DecodeEscaped`, on the text behind the percent sign. -/
def decodeEscaped : Str → Option Char
  | hi :: lo :: _ =>
    if isHexChar hi = true ∧ isHexChar lo = true then some (escapedChar hi lo) else none
  | _ => none

/-- `DotDisposition`. -/
inductive DotDisposition where
  | notADirectory
  | directoryCur
  | directoryUp
  deriving DecidableEq

/-- `ClassifyAfterDot`, with the number of characters that are consumed. -/
def classifyAfterDot (after : Str) : DotDisposition × Nat :=
  match after with
  | [] => (.directoryCur, 0)
  | c :: _ =>
    if isURLSlash c = true then (.directoryCur, 1)
    else
      let secondDotLen := isDot after
      if secondDotLen = 0 then (.notADirectory, 0)
      else
        match after.drop secondDotLen with
        | [] => (.directoryUp, secondDotLen)
        | d :: _ =>
          if isURLSlash d = true then (.directoryUp, secondDotLen + 1) else (.notADirectory, 0)

/-- The loop of `BackUpToPreviousSlash`. -/
def backUpFrom (pathBegin : Nat) (output : Str) : Nat → Nat
  | 0 => 0
  | i + 1 =>
    if output[i + 1]? ≠ some '/' ∧ pathBegin < i + 1 then backUpFrom pathBegin output i else i + 1

def backUpToPreviousSlash (pathBegin : Nat) (output : Str) : Str :=
  let i := output.length - 1
  if i = pathBegin then output
  else output.take (backUpFrom pathBegin output (i - 1) + 1)

/-- `CheckForNestedEscapes`, with the text that is not processed yet. -/
def checkForNestedEscapes (next : Str) (lastInvalidPercentIndex : Nat) (output : Str) : Str :=
  let lastUnescapedChar := output.getLast?.toList
  let fix (output : Str) : Str :=
    ((output.set (lastInvalidPercentIndex + 1) '2').set (lastInvalidPercentIndex + 2) '5') ++
      lastUnescapedChar
  if lastInvalidPercentIndex + 2 = output.length then
    match next with
    | [] => output
    | c :: _ =>
      if 128 ≤ c.toNat then output
      else if (decodeEscaped ((output ++ [c]).drop (lastInvalidPercentIndex + 1))).isSome = true then
        fix (output ++ [c])
      else output
  else if (decodeEscaped (output.drop (lastInvalidPercentIndex + 1))).isSome = true then
    fix (output ++ (output[lastInvalidPercentIndex + 1]?).toList)
  else output

structure PathState where
  output : Str
  lastInvalidPercentIndex : Option Nat
  success : Bool
  deriving DecidableEq

def PathState.push (st : PathState) (t : Str) : PathState := { st with output := st.output ++ t }

/-- One round of the loop of `DoPartialPath`, with the number of further characters it takes. -/
def pathStep (pathBegin : Nat) (c : Char) (rest : Str) (st : PathState) : PathState × Nat :=
  let flags := pathCharLookup c
  if flags.isSpecial = true then
    let dotlen := isDot (c :: rest)
    if 0 < dotlen then
      if pathBegin < st.output.length ∧ st.output.getLast? = some '/' then
        match classifyAfterDot ((c :: rest).drop dotlen) with
        | (.notADirectory, _) => (st.push ['.'], dotlen - 1)
        | (.directoryCur, consumed) => (st, dotlen + consumed - 1)
        | (.directoryUp, consumed) =>
          ({ st with output := backUpToPreviousSlash pathBegin st.output }, dotlen + consumed - 1)
      else (st.push ['.'], dotlen - 1)
    else if c = '\\' then (st.push ['/'], 0)
    else if c = '%' then
      match decodeEscaped rest with
      | some value =>
        if pathCharLookup value = .unescape then
          let st := st.push [value]
          match st.lastInvalidPercentIndex with
          | some k =>
            if st.output.length ≤ k + 3 then
              ({ st with output := checkForNestedEscapes (rest.drop 2) k st.output }, 2)
            else (st, 2)
          | none => (st, 2)
        else
          ({ st.push ('%' :: rest.take 2) with
              success := st.success && pathCharLookup value != .invalid }, 2)
      | none =>
        ({ st.push ['%'] with lastInvalidPercentIndex := some st.output.length }, 0)
    else if flags = .invalid then
      ({ st with output := appendEscapedChar c st.output, success := false }, 0)
    else ({ st with output := appendEscapedChar c st.output }, 0)
  else (st.push [c], 0)

/-- The loop of `DoPartialPath`; a number of characters has been taken already. -/
def partialPath (pathBegin : Nat) : Str → Nat → PathState → PathState
  | [], _, st => st
  | _ :: rest, taken + 1, st => partialPath pathBegin rest taken st
  | c :: rest, 0, st =>
    let (st, taken) := pathStep pathBegin c rest st
    partialPath pathBegin rest taken st

/-- `CanonicalizePartialPath`: the output and whether the path is valid. -/
def canonicalizePartialPath (path : Str) (pathBegin : Nat) (output : Str) : PathState :=
  partialPath pathBegin path 0 ⟨output, none, true⟩

/-- `CanonicalizePath`. -/
def canonicalizePath (path output : Str) : PathState :=
  match path with
  | [] => ⟨output ++ ['/'], none, true⟩
  | c :: _ =>
    canonicalizePartialPath path output.length
      (if isURLSlash c = true then output else output ++ ['/'])

/-! ## One character of a reference -/

def hexDigits : List Char :=
  ['0', '1', '2', '3', '4', '5', '6', '7', '8', '9', 'a', 'b', 'c', 'd', 'e', 'f', 'A', 'B', 'C',
    'D', 'E', 'F']

theorem isHexChar_low : ∀ n < 128, isHexChar (Char.ofNat n) = true → Char.ofNat n ∈ hexDigits := by
  decide

theorem mem_hexDigits {c : Char} (h : isHexChar c = true) : c ∈ hexDigits := by
  have hlow : c.toNat < 128 := by
    show c.val.toNat < 128
    simp only [isHexChar, Char.isDigit, Bool.or_eq_true, Bool.and_eq_true, decide_eq_true_eq,
      ge_iff_le, Char.le_def, UInt32.le_iff_toNat_le] at h
    rcases h with (⟨-, h⟩ | ⟨-, h⟩) | ⟨-, h⟩ <;> exact Nat.lt_of_le_of_lt h (by decide)
  have hmem := isHexChar_low c.toNat hlow
  rw [Char.ofNat_toNat] at hmem
  exact hmem h

/-- The escapes that express a dot. -/
theorem escapedChar_dot : ∀ hi ∈ hexDigits, ∀ lo ∈ hexDigits,
    (escapedChar hi lo = '.' ↔ hi = '2' ∧ (lo = 'e' ∨ lo = 'E')) := by
  decide +kernel

theorem hexDigits_plain : ∀ c ∈ hexDigits, c ≠ '/' := by
  decide

theorem lookup_pchar {c : Char} (h : isPchar c = true) (hdot : c ≠ '.') :
    (pathCharLookup c).isSpecial = false := by
  have hnul : c ≠ '\x00' := by
    rintro rfl
    exact absurd h (by decide)
  unfold pathCharLookup
  rw [if_neg hnul, if_neg hdot]
  split
  · rfl
  · rename_i hplain
    have hpass : (isSubDelim c || c == ':' || c == '@' || c == '/' || c == '[' || c == ']') = true := by
      unfold isPchar isUnreserved at h
      simp only [Bool.or_eq_true, beq_iff_eq, not_or] at h hplain ⊢
      tauto
    rw [if_pos hpass]
    rfl

theorem lookup_unescape {c : Char} :
    pathCharLookup c = .unescape ↔ isUnreserved c = true ∧ c ≠ '.' := by
  unfold pathCharLookup isUnreserved
  by_cases hnul : c = '\x00'
  · rw [if_pos hnul, hnul]
    decide
  · rw [if_neg hnul]
    by_cases hdot : c = '.'
    · rw [if_pos hdot]
      exact iff_of_false (by decide) (fun h => h.2 hdot)
    · rw [if_neg hdot]
      split
      · rename_i hplain
        refine iff_of_true rfl ⟨?_, hdot⟩
        simp only [Bool.or_eq_true, beq_iff_eq] at hplain ⊢
        tauto
      · rename_i hplain
        refine iff_of_false (by split <;> decide) ?_
        rintro ⟨h, -⟩
        simp only [Bool.or_eq_true, beq_iff_eq] at h hplain
        tauto

theorem lookup_invalid {c : Char} : pathCharLookup c = .invalid ↔ c = '\x00' := by
  unfold pathCharLookup
  by_cases hnul : c = '\x00'
  · rw [if_pos hnul]
    exact iff_of_true rfl hnul
  · rw [if_neg hnul]
    refine iff_of_false ?_ hnul
    split
    · exact fun h => nomatch h
    · split
      · exact fun h => nomatch h
      · split <;> exact fun h => nomatch h

/-- An escape of the character that is refused. -/
def PChar.isNul : PChar isPchar → Bool
  | plain _ _ => false
  | escaped hi lo _ _ => escapedChar hi lo == '\x00'

/-- A text without such an escape. -/
def noNul (us : Segment) : Bool := us.all fun p => !p.isNul

/-- A character as it is copied. -/
abbrev PChar.canonical (p : PChar isPchar) : Str := p.unescaped isUnreserved

/-- A segment as it is copied. -/
abbrev canonicalSegment (us : Segment) : Str := unescapedOf isUnreserved us

theorem pchar_ne_percent {c : Char} (h : isPchar c = true) : c ≠ '%' := by
  rintro rfl
  exact absurd h (by decide)

/-- A dot, escaped or not. -/
theorem isDot_text (p : PChar isPchar) (t : Str) :
    isDot (p.text ++ t) = if p.canonical = ['.'] then p.text.length else 0 := by
  cases p with
  | plain c h =>
    show isDot (c :: t) = if [c] = ['.'] then 1 else 0
    by_cases hc : c = '.'
    · rw [hc]
      rfl
    · rw [if_neg (by simpa using hc)]
      unfold isDot
      split
      · rename_i heq
        exact absurd (List.cons.inj heq).1 hc
      · rename_i heq
        exact absurd (List.cons.inj heq).1 (pchar_ne_percent h)
      · rfl
  | escaped hi lo hhi hlo =>
    have hdot := escapedChar_dot hi (mem_hexDigits hhi) lo (mem_hexDigits hlo)
    have hcanonical : (PChar.escaped hi lo hhi hlo : PChar isPchar).canonical = ['.'] ↔
        hi = '2' ∧ (lo = 'e' ∨ lo = 'E') := by
      rw [← hdot]
      show (if isUnreserved (escapedChar hi lo) = true then [escapedChar hi lo]
        else ['%', hi, lo]) = ['.'] ↔ _
      constructor
      · intro h
        split at h
        · exact (List.cons.inj h).1
        · exact absurd h (by simp)
      · intro h
        rw [h]
        rfl
    show isDot ('%' :: hi :: lo :: t) = if _ then 3 else 0
    by_cases h : hi = '2' ∧ (lo = 'e' ∨ lo = 'E')
    · rw [if_pos (hcanonical.mpr h), h.1]
      exact if_pos h.2
    · rw [if_neg (fun hc => h (hcanonical.mp hc))]
      unfold isDot
      split
      · rename_i heq
        exact absurd (List.cons.inj heq).1 (by decide)
      · rename_i c rest heq
        injection heq with _ heq
        injection heq with h2 heq
        injection heq with h3 _
        rw [if_neg (fun he => h ⟨h2, h3 ▸ he⟩)]
      · rfl

/-- Characters that are taken already are skipped. -/
theorem partialPath_taken (pathBegin : Nat) (a t : Str) (st : PathState) :
    partialPath pathBegin (a ++ t) a.length st = partialPath pathBegin t 0 st := by
  induction a with
  | nil => rfl
  | cons c a ih => exact ih

/-- What a text leaves behind when all of it is copied. -/
def PathState.copied (st : PathState) (t : Str) (ok : Bool) : PathState :=
  { st with output := st.output ++ t, success := st.success && ok }

theorem copied_true (st : PathState) (t : Str) : st.copied t true = st.push t := by
  unfold PathState.copied PathState.push
  rw [Bool.and_true]

/-- A dot that does not follow a slash is part of a file name. -/
theorem pathStep_dot (pathBegin : Nat) {c : Char} {rest : Str} {st : PathState}
    (hspecial : (pathCharLookup c).isSpecial = true) (hdot : 0 < isDot (c :: rest))
    (hslash : st.output.getLast? ≠ some '/') :
    pathStep pathBegin c rest st = (st.push ['.'], isDot (c :: rest) - 1) := by
  unfold pathStep
  rw [if_pos hspecial]
  simp only []
  rw [if_pos hdot, if_neg (fun h => hslash h.2)]

/-- An escape that is no dot. -/
theorem pathStep_escape (pathBegin : Nat) {hi lo : Char} (hhi : isHexChar hi = true)
    (hlo : isHexChar lo = true) (t : Str) {st : PathState}
    (hnone : st.lastInvalidPercentIndex = none) (hdot : isDot ('%' :: hi :: lo :: t) = 0) :
    pathStep pathBegin '%' (hi :: lo :: t) st =
      (if pathCharLookup (escapedChar hi lo) = .unescape then st.push [escapedChar hi lo]
        else st.copied ['%', hi, lo] (pathCharLookup (escapedChar hi lo) != .invalid), 2) := by
  have hdecode : decodeEscaped (hi :: lo :: t) = some (escapedChar hi lo) := if_pos ⟨hhi, hlo⟩
  have hpercent : (pathCharLookup '%').isSpecial = true := rfl
  unfold pathStep
  rw [if_pos hpercent]
  simp only [hdot, hdecode]
  rw [if_neg (Nat.lt_irrefl 0), if_neg (by decide), if_pos trivial]
  split
  · have hpush : (st.push [escapedChar hi lo]).lastInvalidPercentIndex = none := hnone
    rw [hpush]
  · rfl

/-- **A character of a segment** is copied, unless it is a dot behind a slash. -/
theorem partialPath_pchar (pathBegin : Nat) (p : PChar isPchar) (t : Str) {st : PathState}
    (hnone : st.lastInvalidPercentIndex = none)
    (hslash : p.canonical = ['.'] → st.output.getLast? ≠ some '/') :
    partialPath pathBegin (p.text ++ t) 0 st =
      partialPath pathBegin t 0 (st.copied p.canonical !p.isNul) := by
  have hdot := isDot_text p t
  cases p with
  | plain c h =>
    show partialPath pathBegin (c :: t) 0 st = partialPath pathBegin t 0 (st.copied [c] true)
    rw [partialPath, copied_true]
    by_cases hc : c = '.'
    · subst hc
      rw [pathStep_dot pathBegin rfl (by exact Nat.succ_pos 0) (hslash rfl)]
      rfl
    · have hstep : pathStep pathBegin c t st = (st.push [c], 0) := by
        unfold pathStep
        rw [if_neg (by rw [lookup_pchar h hc]; exact Bool.false_ne_true)]
      rw [hstep]
  | escaped hi lo hhi hlo =>
    have hcanonical : (PChar.escaped hi lo hhi hlo : PChar isPchar).canonical =
        if isUnreserved (escapedChar hi lo) = true then [escapedChar hi lo] else ['%', hi, lo] := rfl
    show partialPath pathBegin ('%' :: hi :: lo :: t) 0 st =
      partialPath pathBegin t 0 (st.copied _ !(escapedChar hi lo == '\x00'))
    have htext : isDot ('%' :: hi :: lo :: t) = _ := hdot
    rw [partialPath]
    by_cases hp : (PChar.escaped hi lo hhi hlo : PChar isPchar).canonical = ['.']
    · -- an escaped dot in the middle of a file name
      have hlen : isDot ('%' :: hi :: lo :: t) = 3 := htext.trans (if_pos hp)
      have hval : escapedChar hi lo = '.' := by
        rw [hcanonical] at hp
        split at hp
        · exact (List.cons.inj hp).1
        · exact absurd hp (by simp)
      rw [pathStep_dot pathBegin rfl (by rw [hlen]; decide) (hslash hp), hlen, hp, hval]
      show partialPath pathBegin ([hi, lo] ++ t) [hi, lo].length _ = _
      rw [partialPath_taken]
      exact congrArg _ (copied_true st ['.']).symm
    · have hlen : isDot ('%' :: hi :: lo :: t) = 0 := htext.trans (if_neg hp)
      rw [pathStep_escape pathBegin hhi hlo t hnone hlen]
      show partialPath pathBegin ([hi, lo] ++ t) [hi, lo].length _ = _
      rw [partialPath_taken, hcanonical]
      congr 1
      by_cases hplain : isUnreserved (escapedChar hi lo) = true
      · have hne : escapedChar hi lo ≠ '.' := by
          intro heq
          rw [hcanonical, if_pos hplain, heq] at hp
          exact hp rfl
        have hnul : (escapedChar hi lo == '\x00') = false := by
          rw [beq_eq_false_iff_ne]
          intro heq
          rw [heq] at hplain
          exact absurd hplain (by decide)
        rw [if_pos (lookup_unescape.mpr ⟨hplain, hne⟩), if_pos hplain, hnul]
        exact (copied_true st _).symm
      · have hinvalid : (pathCharLookup (escapedChar hi lo) != .invalid) =
            !(escapedChar hi lo == '\x00') := by
          rw [Bool.eq_iff_iff, bne_iff_ne, Bool.not_eq_true', beq_eq_false_iff_ne, ne_eq, ne_eq,
            lookup_invalid]
        rw [if_neg (fun h => hplain (lookup_unescape.mp h).1), if_neg hplain, hinvalid]

/-! ## Segments -/

theorem pchar_ne_slash {c : Char} (h : isPchar c = true) : isURLSlash c = false := by
  unfold isURLSlash
  rw [Bool.or_eq_false_iff, beq_eq_false_iff_ne, beq_eq_false_iff_ne]
  constructor <;> rintro rfl <;> exact absurd h (by decide)

theorem unreserved_pchar {c : Char} (h : isUnreserved c = true) : isPchar c = true := by
  unfold isPchar
  rw [h]
  rfl

/-- What is copied for a character has no slash. -/
theorem canonical_no_slash (p : PChar isPchar) : '/' ∉ p.canonical := by
  have hno : ∀ c, isPchar c = true → '/' ≠ c := by
    rintro c h rfl
    exact absurd h (by decide)
  cases p with
  | plain c h =>
    intro hmem
    exact hno c h (List.mem_singleton.mp hmem)
  | escaped hi lo hhi hlo =>
    show '/' ∉ if isUnreserved (escapedChar hi lo) = true then [escapedChar hi lo]
      else ['%', hi, lo]
    split
    · rename_i h
      intro hmem
      exact hno _ (unreserved_pchar h) (List.mem_singleton.mp hmem)
    · simp only [List.mem_cons, List.not_mem_nil, or_false, not_or]
      exact ⟨by decide, (hexDigits_plain hi (mem_hexDigits hhi)).symm,
        (hexDigits_plain lo (mem_hexDigits hlo)).symm⟩

theorem canonical_ne_nil (p : PChar isPchar) : p.canonical ≠ [] := by
  cases p with
  | plain c h => exact List.cons_ne_nil _ _
  | escaped hi lo hhi hlo =>
    show (if isUnreserved (escapedChar hi lo) = true then [escapedChar hi lo]
      else ['%', hi, lo]) ≠ []
    split <;> exact List.cons_ne_nil _ _

theorem canonicalSegment_no_slash (us : Segment) : '/' ∉ canonicalSegment us := by
  unfold canonicalSegment unescapedOf
  rw [List.mem_flatMap]
  rintro ⟨p, -, hp⟩
  exact canonical_no_slash p hp

theorem canonical_last (st : PathState) (p : PChar isPchar) (ok : Bool) :
    (st.copied p.canonical ok).output.getLast? ≠ some '/' := by
  show (st.output ++ p.canonical).getLast? ≠ some '/'
  rw [List.getLast?_append_of_ne_nil _ (canonical_ne_nil p)]
  intro hlast
  exact canonical_no_slash p (List.mem_of_getLast? hlast)

theorem copied_copied (st : PathState) (a b : Str) (x y : Bool) :
    (st.copied a x).copied b y = st.copied (a ++ b) (x && y) := by
  unfold PathState.copied
  simp only [List.append_assoc, Bool.and_assoc]

/-- **A text that does not begin behind a slash** is copied. -/
theorem partialPath_copy (pathBegin : Nat) (us : Segment) (t : Str) (st : PathState)
    (hnone : st.lastInvalidPercentIndex = none) (hslash : st.output.getLast? ≠ some '/') :
    partialPath pathBegin (textOf us ++ t) 0 st =
      partialPath pathBegin t 0 (st.copied (canonicalSegment us) (noNul us)) := by
  induction us generalizing st with
  | nil =>
    show partialPath pathBegin t 0 st = partialPath pathBegin t 0 (st.copied [] true)
    rw [copied_true]
    unfold PathState.push
    rw [List.append_nil]
  | cons p us ih =>
    have htext : textOf (p :: us) ++ t = p.text ++ (textOf us ++ t) := by
      unfold textOf
      rw [List.flatMap_cons, List.append_assoc]
    rw [htext, partialPath_pchar pathBegin p _ hnone (fun _ => hslash)]
    rw [ih (st.copied p.canonical !p.isNul) hnone (canonical_last st p _), copied_copied]
    rfl

/-- A segment does not begin with a slash. -/
theorem textOf_head (us : Segment) (t : Str) :
    us = [] ∨ ∃ c s, textOf us ++ t = c :: s ∧ isURLSlash c = false := by
  cases us with
  | nil => exact .inl rfl
  | cons p us =>
    right
    cases p with
    | plain c h => exact ⟨c, textOf us ++ t, rfl, pchar_ne_slash h⟩
    | escaped hi lo _ _ => exact ⟨'%', hi :: lo :: (textOf us ++ t), rfl, rfl⟩

theorem canonicalSegment_cons (p : PChar isPchar) (us : Segment) :
    canonicalSegment (p :: us) = p.canonical ++ canonicalSegment us := List.flatMap_cons

theorem canonicalSegment_eq_nil {us : Segment} : canonicalSegment us = [] ↔ us = [] := by
  constructor
  · intro h
    cases us with
    | nil => rfl
    | cons p us =>
      rw [canonicalSegment_cons] at h
      exact absurd (List.append_eq_nil_iff.mp h).1 (canonical_ne_nil p)
  · rintro rfl
    rfl

/-- A segment that begins with a dot has a first character that is one. -/
theorem canonicalSegment_dot {p : PChar isPchar} {us : Segment} {x : Str} :
    canonicalSegment (p :: us) = '.' :: x ↔ p.canonical = ['.'] ∧ canonicalSegment us = x := by
  rw [canonicalSegment_cons]
  constructor
  · intro h
    have hsingle : ∃ c, p.canonical = [c] ∨ ∃ t, p.canonical = '%' :: t := by
      cases p with
      | plain c _ => exact ⟨c, .inl rfl⟩
      | escaped hi lo hhi hlo =>
        have hcanonical : (PChar.escaped hi lo hhi hlo : PChar isPchar).canonical =
            if isUnreserved (escapedChar hi lo) = true then [escapedChar hi lo]
            else ['%', hi, lo] := rfl
        refine ⟨escapedChar hi lo, ?_⟩
        rw [hcanonical]
        split
        · exact .inl rfl
        · exact .inr ⟨[hi, lo], rfl⟩
    obtain ⟨c, hc | ⟨s, hc⟩⟩ := hsingle
    · rw [hc] at h ⊢
      injection h with hdot hrest
      exact ⟨by rw [hdot], hrest⟩
    · rw [hc] at h
      injection h with hdot _
      exact absurd hdot (by decide)
  · rintro ⟨hp, hx⟩
    rw [hp, hx]
    rfl

/-- What a text behind a dot means. -/
theorem classifyAfterDot_text (us : Segment) (more : Option Str) :
    classifyAfterDot (textOf us ++ marked '/' more) =
      if us = [] then (.directoryCur, ((marked '/' more).take 1).length)
      else if canonicalSegment us = ['.'] then
        (.directoryUp, (textOf us).length + ((marked '/' more).take 1).length)
      else (.notADirectory, 0) := by
  cases us with
  | nil => cases more <;> rfl
  | cons p us =>
    have htext : textOf (p :: us) ++ marked '/' more = p.text ++ (textOf us ++ marked '/' more) := by
      unfold textOf
      rw [List.flatMap_cons, List.append_assoc]
    obtain hnil | ⟨c, t, hhead, hc⟩ := textOf_head (p :: us) (marked '/' more)
    · cases hnil
    have hfirst : classifyAfterDot (c :: t) =
        let secondDotLen := isDot (c :: t)
        if secondDotLen = 0 then (.notADirectory, 0)
        else
          match (c :: t).drop secondDotLen with
          | [] => (.directoryUp, secondDotLen)
          | d :: _ =>
            if isURLSlash d = true then (.directoryUp, secondDotLen + 1)
            else (.notADirectory, 0) := by
      unfold classifyAfterDot
      simp only [hc, Bool.false_eq_true, if_false]
    rw [hhead, hfirst, ← hhead, htext, isDot_text, if_neg (List.cons_ne_nil p us)]
    have hlen : p.text.length ≠ 0 := by cases p <;> exact Nat.succ_ne_zero _
    by_cases hp : p.canonical = ['.']
    · simp only [if_pos hp, if_neg hlen, List.drop_left]
      cases us with
      | nil =>
        have hdot : canonicalSegment [p] = ['.'] := canonicalSegment_dot.mpr ⟨hp, rfl⟩
        have hone : textOf [p] = p.text := List.append_nil _
        rw [if_pos hdot, hone]
        cases more <;> rfl
      | cons q us =>
        have hdot : ¬canonicalSegment (p :: q :: us) = ['.'] := by
          intro h
          have hrest := (canonicalSegment_dot.mp h).2
          exact List.cons_ne_nil q us (canonicalSegment_eq_nil.mp hrest)
        obtain hnil | ⟨d, s, hhead', hd⟩ := textOf_head (q :: us) (marked '/' more)
        · cases hnil
        rw [if_neg hdot, hhead']
        simp only [hd, Bool.false_eq_true, if_false]
    · have hdot : ¬canonicalSegment (p :: us) = ['.'] := fun h => hp (canonicalSegment_dot.mp h).1
      simp only [if_neg hp, if_neg hdot, if_true]

/-- The first character of a dot, escaped or not. -/
theorem dot_text {p : PChar isPchar} (hp : p.canonical = ['.']) :
    ∃ c rest, p.text = c :: rest ∧ (pathCharLookup c).isSpecial = true ∧ p.isNul = false := by
  cases p with
  | plain c _ =>
    obtain rfl := (List.cons.inj hp).1
    exact ⟨'.', [], rfl, rfl, rfl⟩
  | escaped hi lo hhi hlo =>
    have hcanonical : (if isUnreserved (escapedChar hi lo) = true then [escapedChar hi lo]
        else ['%', hi, lo]) = ['.'] := hp
    refine ⟨'%', [hi, lo], rfl, rfl, ?_⟩
    show (escapedChar hi lo == '\x00') = false
    split at hcanonical
    · rw [(List.cons.inj hcanonical).1]
      rfl
    · exact absurd hcanonical (by simp)

/-- A dot behind a slash. -/
theorem pathStep_slash_dot (pathBegin : Nat) {c : Char} {rest t : Str} {st : PathState}
    (hspecial : (pathCharLookup c).isSpecial = true)
    (hdot : isDot ((c :: rest) ++ t) = (c :: rest).length) (hlen : pathBegin < st.output.length)
    (hslash : st.output.getLast? = some '/') :
    pathStep pathBegin c (rest ++ t) st =
      match classifyAfterDot t with
      | (.notADirectory, _) => (st.push ['.'], rest.length)
      | (.directoryCur, consumed) => (st, rest.length + consumed)
      | (.directoryUp, consumed) =>
        ({ st with output := backUpToPreviousSlash pathBegin st.output }, rest.length + consumed) := by
  rw [List.cons_append] at hdot
  have hdrop : (c :: (rest ++ t)).drop (c :: rest).length = t := by
    rw [← List.cons_append, List.drop_left]
  have hpos : 0 < (c :: rest).length := Nat.succ_pos _
  unfold pathStep
  rw [if_pos hspecial]
  simp only [hdot]
  rw [if_pos hpos, if_pos ⟨hlen, hslash⟩, hdrop, List.length_cons]
  split <;> simp only [Nat.add_sub_cancel, Nat.add_right_comm _ 1]

/-- The characters of a dot segment, and of the slash behind it, are taken. -/
theorem partialPath_taken_slash (pathBegin : Nat) (a : Str) (more : Option Str) (st : PathState) :
    partialPath pathBegin (a ++ marked '/' more) (a.length + ((marked '/' more).take 1).length) st =
      partialPath pathBegin (more.getD []) 0 st := by
  cases more with
  | none =>
    show partialPath pathBegin (a ++ []) (a.length + 0) st = _
    exact partialPath_taken pathBegin a [] st
  | some t =>
    have hassoc : a ++ marked '/' (some t) = (a ++ ['/']) ++ t := by
      rw [List.append_assoc]
      rfl
    have hlen : a.length + ((marked '/' (some t)).take 1).length = (a ++ ['/']).length := by
      rw [List.length_append]
      rfl
    rw [hassoc, hlen]
    exact partialPath_taken pathBegin (a ++ ['/']) t st

/-- **A segment behind a slash**: a dot segment is taken with the slash behind it. -/
theorem partialPath_segment (pathBegin : Nat) (us : Segment) (more : Option Str) {st : PathState}
    (hnone : st.lastInvalidPercentIndex = none) (hlen : pathBegin < st.output.length)
    (hslash : st.output.getLast? = some '/') :
    partialPath pathBegin (textOf us ++ marked '/' more) 0 st =
      if canonicalSegment us = ['.'] then partialPath pathBegin (more.getD []) 0 st
      else if canonicalSegment us = ['.', '.'] then
        partialPath pathBegin (more.getD []) 0
          { st with output := backUpToPreviousSlash pathBegin st.output }
      else partialPath pathBegin (marked '/' more) 0 (st.copied (canonicalSegment us) (noNul us)) := by
  cases us with
  | nil =>
    have hnil : st.copied (canonicalSegment []) (noNul []) = st := by
      show st.copied [] true = st
      rw [copied_true]
      unfold PathState.push
      rw [List.append_nil]
    have hnone' : ∀ x : Str, canonicalSegment [] ≠ '.' :: x := fun x => (List.cons_ne_nil '.' x).symm
    rw [if_neg (hnone' []), if_neg (hnone' ['.']), hnil]
    rfl
  | cons p us =>
    have htext : textOf (p :: us) ++ marked '/' more = p.text ++ (textOf us ++ marked '/' more) := by
      unfold textOf
      rw [List.flatMap_cons, List.append_assoc]
    have hcopied : (st.copied p.canonical !p.isNul).copied (canonicalSegment us) (noNul us) =
        st.copied (canonicalSegment (p :: us)) (noNul (p :: us)) := by
      rw [copied_copied]
      rfl
    rw [htext]
    by_cases hp : p.canonical = ['.']
    · obtain ⟨c, rest, hchars, hspecial, hnul⟩ := dot_text hp
      have hdot : isDot ((c :: rest) ++ (textOf us ++ marked '/' more)) = (c :: rest).length := by
        rw [← hchars, isDot_text, if_pos hp]
      have hround : partialPath pathBegin (p.text ++ (textOf us ++ marked '/' more)) 0 st =
          match pathStep pathBegin c (rest ++ (textOf us ++ marked '/' more)) st with
          | (st, taken) =>
            partialPath pathBegin (rest ++ (textOf us ++ marked '/' more)) taken st := by
        rw [hchars]
        rfl
      rw [hround, pathStep_slash_dot pathBegin hspecial hdot hlen hslash, classifyAfterDot_text]
      by_cases hcur : us = []
      · -- a single dot
        have hx : canonicalSegment (p :: us) = ['.'] :=
          canonicalSegment_dot.mpr ⟨hp, canonicalSegment_eq_nil.mpr hcur⟩
        rw [if_pos hx, if_pos hcur, hcur]
        exact partialPath_taken_slash pathBegin rest more st
      · have hne : canonicalSegment us ≠ [] := fun h => hcur (canonicalSegment_eq_nil.mp h)
        have hx : canonicalSegment (p :: us) ≠ ['.'] := fun h => hne (canonicalSegment_dot.mp h).2
        rw [if_neg hx, if_neg hcur]
        by_cases hup : canonicalSegment us = ['.']
        · have hx2 : canonicalSegment (p :: us) = ['.', '.'] :=
            canonicalSegment_dot.mpr ⟨hp, hup⟩
          rw [if_pos hup, if_pos hx2]
          simp only []
          rw [← List.append_assoc, ← Nat.add_assoc, ← List.length_append]
          exact partialPath_taken_slash pathBegin (rest ++ textOf us) more _
        · have hx2 : canonicalSegment (p :: us) ≠ ['.', '.'] :=
            fun h => hup (canonicalSegment_dot.mp h).2
          rw [if_neg hup, if_neg hx2]
          simp only []
          rw [partialPath_taken]
          have hpush : st.push ['.'] = st.copied p.canonical !p.isNul := by
            rw [hp, hnul]
            exact (copied_true st ['.']).symm
          rw [hpush, partialPath_copy pathBegin us _ (st.copied p.canonical !p.isNul) hnone
            (canonical_last st p _), hcopied]
    · have hx : canonicalSegment (p :: us) ≠ ['.'] := fun h => hp (canonicalSegment_dot.mp h).1
      have hx2 : canonicalSegment (p :: us) ≠ ['.', '.'] := fun h => hp (canonicalSegment_dot.mp h).1
      rw [if_neg hx, if_neg hx2, partialPath_pchar pathBegin p _ hnone (fun h => absurd h hp),
        partialPath_copy pathBegin us _ (st.copied p.canonical !p.isNul) hnone
          (canonical_last st p _), hcopied]

/-! ## Paths -/

theorem backUpFrom_segment (pathBegin : Nat) (a d : Str) (t : Str) (hd : '/' ∉ d)
    (ha : pathBegin ≤ a.length) (k : Nat) (hk : k ≤ d.length) :
    backUpFrom pathBegin (a ++ '/' :: (d ++ t)) (a.length + k) = a.length := by
  induction k with
  | zero =>
    cases hlen : a.length with
    | zero => rfl
    | succ n =>
      have hget : (a ++ '/' :: (d ++ t))[n + 1]? = some '/' := by
        rw [List.getElem?_append_right (by omega), hlen, Nat.sub_self]
        rfl
      show backUpFrom pathBegin _ (n + 1) = n + 1
      rw [backUpFrom, if_neg (fun h => h.1 hget)]
  | succ k ih =>
    have hget : (a ++ '/' :: (d ++ t))[a.length + k + 1]? ≠ some '/' := by
      rw [List.getElem?_append_right (by omega)]
      have hsub : a.length + k + 1 - a.length = k + 1 := by omega
      rw [hsub, List.getElem?_cons_succ, List.getElem?_append_left (by omega)]
      intro h
      exact hd (List.mem_of_getElem? h)
    show backUpFrom pathBegin _ (a.length + k + 1) = a.length
    rw [backUpFrom, if_pos ⟨hget, by omega⟩]
    exact ih (by omega)

/-- **Going up** removes the last directory of the output, if there is one. -/
theorem backUpToPreviousSlash_dirs (pre : Str) {dirs : List Str} (hdirs : ∀ d ∈ dirs, '/' ∉ d) :
    backUpToPreviousSlash pre.length (pre ++ slashed (dirs ++ [[]])) =
      pre ++ slashed (dirs.dropLast ++ [[]]) := by
  rcases List.eq_nil_or_concat dirs with rfl | ⟨ds, d, rfl⟩
  · have hroot : (pre ++ slashed ([] ++ [[]])).length - 1 = pre.length := by
      rw [List.length_append]
      exact Nat.add_sub_cancel _ 1
    unfold backUpToPreviousSlash
    simp only [hroot, if_true]
    rfl
  · rw [List.concat_eq_append] at hdirs ⊢
    have hd : '/' ∉ d := hdirs d (by simp)
    have hout : pre ++ slashed (ds ++ [d] ++ [[]]) =
        (pre ++ slashed ds) ++ '/' :: (d ++ ['/']) := by
      rw [List.append_assoc, slashed_append, slashed_append, List.append_assoc, slashed_singleton,
        slashed_singleton]
      simp
    have hlast : (pre ++ slashed (ds ++ [d] ++ [[]])).length - 1 =
        (pre ++ slashed ds).length + (d.length + 1) := by
      rw [hout]
      simp only [List.length_append, List.length_cons, List.length_nil]
      omega
    have hne : (pre ++ slashed ds).length + (d.length + 1) ≠ pre.length := by
      rw [List.length_append]
      omega
    have hle : pre.length ≤ (pre ++ slashed ds).length := by
      rw [List.length_append]
      omega
    have htake : ((pre ++ slashed ds) ++ '/' :: (d ++ ['/'])).take ((pre ++ slashed ds).length + 1) =
        (pre ++ slashed ds) ++ ['/'] := by
      rw [List.take_length_add_append]
      rfl
    unfold backUpToPreviousSlash
    simp only [hlast]
    rw [if_neg hne, ← Nat.add_assoc, Nat.add_sub_cancel, hout,
      backUpFrom_segment pre.length _ d ['/'] hd hle d.length (Nat.le_refl _), htake,
      List.dropLast_concat, List.append_assoc, slashed_append, slashed_singleton]

/-- An escape that is refused stays an escape. -/
theorem noNul_of_plain {us : Segment} (h : '%' ∉ canonicalSegment us) : noNul us = true := by
  unfold noNul
  rw [List.all_eq_true]
  intro p hp
  cases p with
  | plain c _ => rfl
  | escaped hi lo hhi hlo =>
    show (!(escapedChar hi lo == '\x00')) = true
    rw [Bool.not_eq_true', beq_eq_false_iff_ne]
    intro hnul
    refine h (List.mem_flatMap.mpr ⟨_, hp, ?_⟩)
    show '%' ∈ if isUnreserved (escapedChar hi lo) = true then [escapedChar hi lo]
      else ['%', hi, lo]
    rw [hnul, if_neg (by decide)]
    exact List.mem_cons_self

theorem partialPath_slash (pathBegin : Nat) (t : Str) (st : PathState) :
    partialPath pathBegin ('/' :: t) 0 st = partialPath pathBegin t 0 (st.push ['/']) := rfl

/-- What is left to process behind a segment. -/
def moreOf : List Segment → Option Str
  | [] => none
  | s :: rest => some (textOf s ++ slashed (rest.map textOf))

theorem slashed_more (rest : List Segment) :
    slashed (rest.map textOf) = marked '/' (moreOf rest) := by
  cases rest <;> rfl

theorem slashed_dirs (pre : Str) (dirs : List Str) :
    pre ++ slashed (dirs ++ [[]]) = (pre ++ slashed dirs) ++ ['/'] := by
  rw [slashed_append, slashed_singleton, List.append_assoc]

/-- A name behind the last slash is one more segment. -/
theorem slashed_name (pre : Str) (dirs : List Str) (x : Str) :
    (pre ++ slashed (dirs ++ [[]])) ++ x = pre ++ slashed (dirs ++ [x]) := by
  rw [slashed_append, slashed_singleton, slashed_append, slashed_singleton]
  simp

theorem isDots_segment (x : Str) :
    DotSegments.isDots isCurSegment isUpSegment x = (x == ['.'] || x == ['.', '.']) := rfl

/-- What a segment does to the directories. -/
theorem descend_segment (dirs : List Str) (x : Str) :
    DotSegments.descend isCurSegment isUpSegment dirs x =
      if x = ['.'] then dirs else if x = ['.', '.'] then dirs.dropLast else dirs ++ [x] := by
  unfold DotSegments.descend isCurSegment isUpSegment
  simp only [beq_iff_eq]

/-- A last segment. -/
theorem removeDotSegments_single (dirs : List Str) (x : Str) :
    removeDotSegments dirs [x] =
      if x = ['.'] then dirs ++ [[]] else if x = ['.', '.'] then dirs.dropLast ++ [[]]
      else dirs ++ [x] := by
  unfold removeDotSegments
  rw [DotSegments.remove, descend_segment, isDots_segment]
  by_cases h1 : x = ['.']
  · rw [h1]
    rfl
  · by_cases h2 : x = ['.', '.']
    · rw [h2]
      rfl
    · rw [if_neg h1, if_neg h2, if_neg h1, if_neg h2, if_neg]
      simp only [Bool.or_eq_true, beq_iff_eq, not_or]
      exact ⟨h1, h2⟩

/-- **A whole path** behind the directories of the output: its dot segments are removed. -/
theorem partialPath_path (pre : Str) (first : Segment) (rest : List Segment) {dirs : List Str}
    (hdirs : ∀ d ∈ dirs, '/' ∉ d) (ok : Bool) :
    partialPath pre.length (textOf first ++ slashed (rest.map textOf)) 0
        ⟨pre ++ slashed (dirs ++ [[]]), none, ok⟩ =
      ⟨pre ++ slashed (removeDotSegments dirs ((first :: rest).map canonicalSegment)), none,
        ok && (first :: rest).all noNul⟩ := by
  induction rest generalizing first dirs ok with
  | nil =>
    have hend : (pre ++ slashed (dirs ++ [[]])).getLast? = some '/' := by
      rw [slashed_dirs, List.getLast?_concat]
    have hlen : pre.length < (pre ++ slashed (dirs ++ [[]])).length := by
      rw [slashed_dirs, List.length_append, List.length_append, List.length_singleton]
      omega
    have hok : ([first].all noNul) = noNul first := by
      rw [List.all_cons, List.all_nil, Bool.and_true]
    rw [slashed_more, partialPath_segment pre.length first (moreOf []) rfl hlen hend, hok,
      List.map_singleton, removeDotSegments_single]
    split
    · rename_i hx
      rw [noNul_of_plain (by rw [hx]; decide), Bool.and_true]
      rfl
    · split
      · rename_i hx
        rw [noNul_of_plain (by rw [hx]; decide), Bool.and_true, backUpToPreviousSlash_dirs pre hdirs]
        rfl
      · unfold PathState.copied
        rw [slashed_name]
        rfl
  | cons s rest ih =>
    have hend : (pre ++ slashed (dirs ++ [[]])).getLast? = some '/' := by
      rw [slashed_dirs, List.getLast?_concat]
    have hlen : pre.length < (pre ++ slashed (dirs ++ [[]])).length := by
      rw [slashed_dirs, List.length_append, List.length_append, List.length_singleton]
      omega
    have hremove : removeDotSegments dirs ((first :: s :: rest).map canonicalSegment) =
        removeDotSegments (if canonicalSegment first = ['.'] then dirs
          else if canonicalSegment first = ['.', '.'] then dirs.dropLast
          else dirs ++ [canonicalSegment first]) ((s :: rest).map canonicalSegment) := by
      rw [← descend_segment]
      rfl
    have hok : ((first :: s :: rest).all noNul) = (noNul first && (s :: rest).all noNul) := rfl
    have hmore : (moreOf (s :: rest)).getD [] = textOf s ++ slashed (rest.map textOf) := rfl
    rw [slashed_more, partialPath_segment pre.length first (moreOf (s :: rest)) rfl hlen hend,
      hremove, hok, hmore]
    split
    · rename_i hx
      rw [ih s hdirs, noNul_of_plain (by rw [hx]; decide), Bool.true_and]
    · split
      · rename_i hx
        have hdrop : ∀ d ∈ dirs.dropLast, '/' ∉ d := fun d hd =>
          hdirs d ((List.dropLast_sublist dirs).subset hd)
        rw [noNul_of_plain (by rw [hx]; decide), Bool.true_and,
          backUpToPreviousSlash_dirs pre hdirs, ih s hdrop]
      · have hnew : ∀ d ∈ dirs ++ [canonicalSegment first], '/' ∉ d := by
          intro d hd
          rcases List.mem_append.mp hd with hd | hd
          · exact hdirs d hd
          · rw [List.mem_singleton.mp hd]
            exact canonicalSegment_no_slash first
        have hpush : (PathState.copied ⟨pre ++ slashed (dirs ++ [[]]), none, ok⟩
            (canonicalSegment first) (noNul first)).push ['/'] =
            ⟨pre ++ slashed ((dirs ++ [canonicalSegment first]) ++ [[]]), none,
              ok && noNul first⟩ := by
          show PathState.mk (((pre ++ slashed (dirs ++ [[]])) ++ canonicalSegment first) ++ ['/']) none
            (ok && noNul first) = _
          rw [slashed_name, slashed_dirs]
        show partialPath pre.length ('/' :: (textOf s ++ slashed (rest.map textOf))) 0 _ = _
        rw [partialPath_slash, hpush, ih s hnew, Bool.and_assoc]

/-- **A path behind a name** that the output does not end: its first segment is part of that
name. -/
theorem partialPath_name (pre name : Str) (first : Segment) (rest : List Segment) {dirs : List Str}
    (hdirs : ∀ d ∈ dirs, '/' ∉ d) (hname : '/' ∉ name) (hend : name.getLast? = some '\\') :
    partialPath pre.length (textOf first ++ slashed (rest.map textOf)) 0
        ⟨pre ++ slashed (dirs ++ [name]), none, true⟩ =
      ⟨pre ++ slashed (removeDotSegments (dirs ++ [name ++ canonicalSegment first])
        (rest.map canonicalSegment)), none, (first :: rest).all noNul⟩ := by
  have hlast : (pre ++ slashed (dirs ++ [name])).getLast? ≠ some '/' := by
    have hne : name ≠ [] := by
      rintro rfl
      cases hend
    rw [← slashed_name, List.getLast?_append_of_ne_nil _ hne, hend]
    decide
  have hcopied : PathState.copied ⟨pre ++ slashed (dirs ++ [name]), none, true⟩
      (canonicalSegment first) (noNul first) =
      ⟨pre ++ slashed (dirs ++ [name ++ canonicalSegment first]), none, noNul first⟩ := by
    unfold PathState.copied
    rw [← slashed_name, List.append_assoc, slashed_name, Bool.true_and]
  rw [partialPath_copy pre.length first _ _ rfl hlast, hcopied]
  cases rest with
  | nil =>
    show PathState.mk _ _ _ = PathState.mk _ _ (noNul first && true)
    rw [Bool.and_true]
    rfl
  | cons s rest =>
    have hnew : ∀ d ∈ dirs ++ [name ++ canonicalSegment first], '/' ∉ d := by
      intro d hd
      rcases List.mem_append.mp hd with hd | hd
      · exact hdirs d hd
      · rw [List.mem_singleton.mp hd, List.mem_append, not_or]
        exact ⟨hname, canonicalSegment_no_slash first⟩
    have hpush : PathState.push ⟨pre ++ slashed (dirs ++ [name ++ canonicalSegment first]), none,
        noNul first⟩ ['/'] = ⟨pre ++ slashed ((dirs ++ [name ++ canonicalSegment first]) ++ [[]]),
        none, noNul first⟩ := by
      unfold PathState.push
      rw [slashed_dirs]
    show partialPath pre.length ('/' :: (textOf s ++ slashed (rest.map textOf))) 0 _ = _
    rw [partialPath_slash, hpush, partialPath_path pre s rest hnew]
    rfl

/-! ## The beginning of the output -/

/-- The output up to the first character of the path is `o`. -/
structure Kept (pathBegin : Nat) (o : Str) (st : PathState) : Prop where
  front : st.output.take (pathBegin + 1) = o
  length : pathBegin < st.output.length
  behind : ∀ k, st.lastInvalidPercentIndex = some k → pathBegin < k

variable {pathBegin : Nat} {o : Str} {st : PathState}

theorem Kept.append (h : Kept pathBegin o st) (t : Str) :
    (st.output ++ t).take (pathBegin + 1) = o ∧ pathBegin < (st.output ++ t).length := by
  have hlen := h.length
  refine ⟨?_, ?_⟩
  · rw [List.take_append_of_le_length (by omega)]
    exact h.front
  · rw [List.length_append]
    omega

theorem backUpFrom_ge (pathBegin : Nat) (output : Str) {i : Nat} (hi : pathBegin ≤ i) :
    pathBegin ≤ backUpFrom pathBegin output i := by
  induction i with
  | zero => exact hi
  | succ i ih =>
    rw [backUpFrom]
    split
    · rename_i h
      exact ih (by omega)
    · exact hi

theorem Kept.backUp (h : Kept pathBegin o st) :
    (backUpToPreviousSlash pathBegin st.output).take (pathBegin + 1) = o ∧
      pathBegin < (backUpToPreviousSlash pathBegin st.output).length := by
  have hlen := h.length
  unfold backUpToPreviousSlash
  simp only []
  split
  · exact ⟨h.front, hlen⟩
  · have hge := backUpFrom_ge pathBegin st.output (i := st.output.length - 1 - 1) (by omega)
    refine ⟨?_, ?_⟩
    · rw [List.take_take, Nat.min_eq_left (by omega)]
      exact h.front
    · rw [List.length_take]
      omega

theorem Kept.nested (h : Kept pathBegin o st) (next : Str) {k : Nat} (hk : pathBegin < k) :
    (checkForNestedEscapes next k st.output).take (pathBegin + 1) = o ∧
      pathBegin < (checkForNestedEscapes next k st.output).length := by
  have hfix : ∀ t last : Str,
      ((((st.output ++ t).set (k + 1) '2').set (k + 2) '5') ++ last).take (pathBegin + 1) = o ∧
      pathBegin < ((((st.output ++ t).set (k + 1) '2').set (k + 2) '5') ++ last).length := by
    intro t last
    obtain ⟨hfront, hlen⟩ := h.append t
    have hset : (((st.output ++ t).set (k + 1) '2').set (k + 2) '5').length =
        (st.output ++ t).length := by
      rw [List.length_set, List.length_set]
    refine ⟨?_, ?_⟩
    · rw [List.take_append_of_le_length (by omega), List.take_set_of_le (by omega),
        List.take_set_of_le (by omega)]
      exact hfront
    · rw [List.length_append, hset]
      omega
  unfold checkForNestedEscapes
  simp only []
  split
  · split
    · exact ⟨h.front, h.length⟩
    · split
      · exact ⟨h.front, h.length⟩
      · split
        · exact hfix _ _
        · exact ⟨h.front, h.length⟩
  · split
    · exact hfix _ _
    · exact ⟨h.front, h.length⟩

/-- **No round changes** the beginning of the output. -/
theorem pathStep_kept (h : Kept pathBegin o st) (c : Char) (rest : Str) :
    Kept pathBegin o (pathStep pathBegin c rest st).1 := by
  have hpush : ∀ t, Kept pathBegin o (st.push t) := fun t =>
    ⟨(h.append t).1, (h.append t).2, h.behind⟩
  have hescaped : ∀ ok, Kept pathBegin o
      { st with output := appendEscapedChar c st.output, success := ok } := fun _ =>
    ⟨(h.append _).1, (h.append _).2, h.behind⟩
  unfold pathStep
  simp only []
  split
  · split
    · split
      · split
        · exact hpush _
        · exact h
        · exact ⟨h.backUp.1, h.backUp.2, h.behind⟩
      · exact hpush _
    · split
      · exact hpush _
      · split
        · split
          · rename_i value _
            split
            · split
              · rename_i k hk
                have hk' : pathBegin < k := h.behind k hk
                split
                · have hnested := (hpush [value]).nested (rest.drop 2) hk'
                  exact ⟨hnested.1, hnested.2, h.behind⟩
                · exact hpush _
              · exact hpush _
            · exact ⟨(hpush _).front, (hpush _).length, h.behind⟩
          · refine ⟨(hpush _).front, (hpush _).length, ?_⟩
            rintro k hk
            obtain rfl := Option.some.inj hk
            exact h.length
        · split
          · exact hescaped false
          · exact hescaped st.success
  · exact hpush _

/-- **What precedes the path**, and its first character, stay as they are. -/
theorem partialPath_kept (text : Str) (taken : Nat) (h : Kept pathBegin o st) :
    Kept pathBegin o (partialPath pathBegin text taken st) := by
  induction text generalizing taken st with
  | nil =>
    unfold partialPath
    exact h
  | cons c rest ih =>
    cases taken with
    | zero => exact ih _ (pathStep_kept h c rest)
    | succ taken => exact ih taken h

end Blinkit.Url
