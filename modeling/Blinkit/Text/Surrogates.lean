import Blinkit.Text.TextCodec
import Mathlib.Algebra.Group.Int.Defs
import Mathlib.Algebra.Group.Nat.Defs

/-!
# Surrogates

The code units of `utf16.h` that stand for one character in pairs.

* `isLead`, `isTrail` — the two halves of a pair; `nextCharacters` — the characters of a text.
* `replaceLoneSurrogates` — a text whose surrogates that have no partner are replaced.
* `hasLoneSurrogate` — there is one.
* `endsInLead`, `complete`, `kept` — a text in front of a half whose partner may follow, and this
  half.

Principal result: `replaceLoneSurrogates_endsInLead`: such a half is alone at the end of a text.
-/

set_option autoImplicit false

namespace Blinkit.Text

/-- Bits that do not meet are added. -/
theorem or_eq_add {n k : Nat} (hn : n < 2 ^ k) (m : Nat) : n ||| 2 ^ k * m = n + 2 ^ k * m := by
  rw [Nat.or_comm, ← Nat.two_pow_add_eq_or_of_lt hn, Nat.add_comm]

def kReplacementCharacter : UInt16 := 0xFFFD

/-- `U16_IS_LEAD`. -/
def isLead (c : UInt16) : Bool := 0xD800 ≤ c && c ≤ 0xDBFF

/-- `U16_IS_TRAIL`. -/
def isTrail (c : UInt16) : Bool := 0xDC00 ≤ c && c ≤ 0xDFFF

/-- `U16_GET_SUPPLEMENTARY`. -/
def getSupplementary (lead trail : UInt16) : Nat :=
  lead.toNat <<< 10 + trail.toNat - (0xD800 <<< 10 + 0xDC00 - 0x10000)

/-- The characters that `U16_NEXT` reads. -/
def nextCharacters : Units → List Nat
  | [] => []
  | [c] => [c.toNat]
  | c :: c2 :: rest =>
    if isLead c ∧ isTrail c2 then getSupplementary c c2 :: nextCharacters rest
    else c.toNat :: nextCharacters (c2 :: rest)

/-- A surrogate without its partner becomes the replacement character. -/
def replaceLoneSurrogates : Units → Units
  | [] => []
  | [c] => [if isLead c || isTrail c then kReplacementCharacter else c]
  | c :: c2 :: rest =>
    if isLead c ∧ isTrail c2 then c :: c2 :: replaceLoneSurrogates rest
    else (if isLead c || isTrail c then kReplacementCharacter else c) ::
      replaceLoneSurrogates (c2 :: rest)

def hasLoneSurrogate (units : Units) : Bool := decide (replaceLoneSurrogates units ≠ units)

/-- The last code unit is a leading surrogate. -/
def endsInLead : Units → Bool
  | [] => false
  | [c] => isLead c
  | _ :: c2 :: rest => endsInLead (c2 :: rest)

/-- The text without the surrogate that ends it. -/
def complete (units : Units) : Units :=
  if endsInLead units then units.dropLast else units

/-- The surrogate that ends the text. -/
def kept (units : Units) : Option UInt16 := if endsInLead units then units.getLast? else none

theorem isLead_iff {c : UInt16} : isLead c = true ↔ 0xD800 ≤ c.toNat ∧ c.toNat ≤ 0xDBFF := by
  unfold isLead
  rw [Bool.and_eq_true, decide_eq_true_iff, decide_eq_true_iff, UInt16.le_iff_toNat_le,
    UInt16.le_iff_toNat_le]
  rfl

theorem isTrail_iff {c : UInt16} : isTrail c = true ↔ 0xDC00 ≤ c.toNat ∧ c.toNat ≤ 0xDFFF := by
  unfold isTrail
  rw [Bool.and_eq_true, decide_eq_true_iff, decide_eq_true_iff, UInt16.le_iff_toNat_le,
    UInt16.le_iff_toNat_le]
  rfl

theorem not_lead_of_trail {c : UInt16} (h : isTrail c = true) : isLead c = false := by
  rw [Bool.eq_false_iff]
  intro hlead
  have := isLead_iff.mp hlead
  have := isTrail_iff.mp h
  omega

/-- The first code unit by itself. -/
theorem replaceLoneSurrogates_cons {c : UInt16} {rest : Units}
    (h : ∀ c2 more, rest = c2 :: more → ¬ (isLead c = true ∧ isTrail c2 = true)) :
    replaceLoneSurrogates (c :: rest) =
      (if isLead c || isTrail c then kReplacementCharacter else c) ::
        replaceLoneSurrogates rest := by
  cases rest with
  | nil => rfl
  | cons c2 more => rw [replaceLoneSurrogates, if_neg (h c2 more rfl)]

theorem hasLoneSurrogate_cons {c : UInt16} {rest : Units}
    (h : ∀ c2 more, rest = c2 :: more → ¬ (isLead c = true ∧ isTrail c2 = true)) :
    hasLoneSurrogate (c :: rest) = ((isLead c || isTrail c) || hasLoneSurrogate rest) := by
  unfold hasLoneSurrogate
  rw [replaceLoneSurrogates_cons h]
  split
  · rename_i hlone
    have hne : kReplacementCharacter ≠ c := by
      rintro rfl
      exact absurd hlone (by decide)
    rw [hlone, Bool.true_or, decide_eq_true_iff]
    exact fun heq => hne (List.cons.inj heq).1
  · rename_i hlone
    rw [Bool.not_eq_true] at hlone
    rw [hlone, Bool.false_or]
    exact decide_eq_decide.mpr (not_congr ⟨fun heq => (List.cons.inj heq).2, congrArg _⟩)

theorem hasLoneSurrogate_pair {c c2 : UInt16} (hpair : isLead c = true ∧ isTrail c2 = true)
    (rest : Units) : hasLoneSurrogate (c :: c2 :: rest) = hasLoneSurrogate rest := by
  unfold hasLoneSurrogate
  rw [replaceLoneSurrogates, if_pos hpair]
  refine decide_eq_decide.mpr (not_congr ⟨fun heq => ?_, congrArg (c :: c2 :: ·)⟩)
  exact (List.cons.inj (List.cons.inj heq).2).2

/-! ## A half that ends a text -/

theorem endsInLead_cons {c : UInt16} {rest : Units} (h : rest ≠ [] ∨ isLead c = false) :
    endsInLead (c :: rest) = endsInLead rest := by
  cases rest with
  | nil => exact h.resolve_left fun hne => hne rfl
  | cons c2 more => rfl

theorem endsInLead_append_singleton (units : Units) (c : UInt16) :
    endsInLead (units ++ [c]) = isLead c := by
  fun_induction endsInLead units with
  | case1 => rfl
  | case2 c' => rfl
  | case3 c' c2 rest ih => exact ih

theorem complete_cons {c : UInt16} {rest : Units} (h : rest ≠ [] ∨ isLead c = false) :
    complete (c :: rest) = c :: complete rest := by
  unfold complete
  rw [endsInLead_cons h]
  split
  · rename_i hend
    cases rest with
    | nil => cases hend
    | cons c2 more => exact List.dropLast_cons_cons
  · rfl

theorem complete_head {c c2 : UInt16} {rest more : Units} (h : complete (c :: rest) = c2 :: more) :
    c2 = c := by
  unfold complete at h
  split at h
  · cases rest with
    | nil => cases h
    | cons c3 rest =>
      rw [List.dropLast_cons_cons] at h
      exact (List.cons.inj h).1.symm
  · exact (List.cons.inj h).1.symm

theorem kept_cons {c : UInt16} {rest : Units} (h : rest ≠ [] ∨ isLead c = false) :
    kept (c :: rest) = kept rest := by
  unfold kept
  rw [endsInLead_cons h]
  split
  · rename_i hend
    cases rest with
    | nil => cases hend
    | cons c2 more => exact List.getLast?_cons_cons
  · rfl

theorem kept_isSome (units : Units) : (kept units).isSome = endsInLead units := by
  unfold kept
  split
  · rename_i hend
    rw [hend]
    cases units with
    | nil => cases hend
    | cons c rest => rw [List.getLast?_isSome]; exact List.cons_ne_nil c rest
  · rename_i hend
    rw [Bool.not_eq_true] at hend
    rw [hend]
    rfl

/-- **A half at the end.** -/
theorem replaceLoneSurrogates_endsInLead {units : Units} (h : endsInLead units = true) :
    replaceLoneSurrogates units =
      replaceLoneSurrogates units.dropLast ++ [kReplacementCharacter] := by
  fun_induction replaceLoneSurrogates units with
  | case1 => cases h
  | case2 c =>
    have hlead : isLead c = true := h
    rw [hlead]
    rfl
  | case3 c c2 rest hpair ih =>
    cases rest with
    | nil =>
      have hlead : isLead c2 = true := h
      rw [not_lead_of_trail hpair.2] at hlead
      cases hlead
    | cons c3 more =>
      rw [ih h, List.dropLast_cons_cons, List.dropLast_cons_cons]
      rw [replaceLoneSurrogates, if_pos hpair]
      rfl
  | case4 c c2 rest hpair ih =>
    rw [ih h, List.dropLast_cons_cons]
    refine congrArg (· ++ [kReplacementCharacter]) (replaceLoneSurrogates_cons ?_).symm
    intro c3 more hrest
    cases rest with
    | nil => cases hrest
    | cons c3' more' =>
      rw [List.dropLast_cons_cons] at hrest
      rw [← (List.cons.inj hrest).1]
      exact hpair

theorem hasLoneSurrogate_endsInLead {units : Units} (h : endsInLead units = true) :
    hasLoneSurrogate units = true := by
  unfold hasLoneSurrogate
  rw [decide_eq_true_iff, replaceLoneSurrogates_endsInLead h]
  intro heq
  have hlast : endsInLead (replaceLoneSurrogates units.dropLast ++ [kReplacementCharacter]) =
      true := by rwa [heq]
  rw [endsInLead_append_singleton] at hlast
  exact absurd hlast (by decide)

end Blinkit.Text
