import Blinkit.Text.TextCodecUTF8

/-!
# What UTF-8 bytes mean

The text of a sequence of bytes, without calls and without bytes that are kept between them.

* `sequenceAt` — what stands in front: a character, a broken sequence, or one that is incomplete.
* `plainText`, `plainError` — the text, and whether there is a broken sequence. At the end of the
  bytes each byte of an incomplete sequence is broken.
* `Continues` — the bytes behind the first one.

Principal results: `decode_cases`: what `DecodeNonASCIISequence` returns; `sequenceAt_append`: more
bytes do not change what is complete.
-/

set_option autoImplicit false

namespace Blinkit.Text

/-! ## One sequence -/

/-- The bytes from the second to the `k`-th continue a sequence. -/
def Continues (s : Bytes) (k : Nat) : Prop :=
  ∀ i, 1 ≤ i → i < k → 0x80 ≤ (s.getD i 0).toNat ∧ (s.getD i 0).toNat ≤ 0xBF

theorem outside_iff {b low high : UInt8} :
    outside b low high = true ↔ b.toNat < low.toNat ∨ high.toNat < b.toNat := by
  unfold outside
  rw [decide_eq_true_iff, UInt8.lt_iff_toNat_lt, UInt8.lt_iff_toNat_lt]

theorem secondOutside_false {first second : UInt8} (h : secondOutside first second = false) :
    (0x80 ≤ second.toNat ∧ second.toNat ≤ 0xBF) ∧ (first.toNat = 0xE0 → 0xA0 ≤ second.toNat) ∧
      (first.toNat = 0xED → second.toNat ≤ 0x9F) ∧ (first.toNat = 0xF0 → 0x90 ≤ second.toNat) ∧
      (first.toNat = 0xF4 → second.toNat ≤ 0x8F) := by
  have hinside : ∀ low high : UInt8, outside second low high = false →
      low.toNat ≤ second.toNat ∧ second.toNat ≤ high.toNat := by
    intro low high hout
    by_contra hnot
    rw [outside_iff.mpr (by omega)] at hout
    cases hout
  have hne : ∀ b : UInt8, ¬ first = b → first.toNat ≠ b.toNat :=
    fun b hb heq => hb (UInt8.toNat_inj.mp heq)
  unfold secondOutside at h
  split at h
  · rename_i hfirst
    have hin := hinside _ _ h
    rw [hfirst]
    simp at hin ⊢
    omega
  · rename_i h1
    have h1' := hne _ h1
    split at h
    · rename_i hfirst
      have hin := hinside _ _ h
      rw [hfirst]
      simp at hin ⊢
      omega
    · rename_i h2
      have h2' := hne _ h2
      split at h
      · rename_i hfirst
        have hin := hinside _ _ h
        rw [hfirst]
        simp at hin ⊢
        omega
      · rename_i h3
        have h3' := hne _ h3
        split at h
        · rename_i hfirst
          have hin := hinside _ _ h
          rw [hfirst]
          simp at hin ⊢
          omega
        · rename_i h4
          have h4' := hne _ h4
          have hin := hinside _ _ h
          simp at hin h1' h2' h3' h4'
          omega

/-- The lengths of the table. -/
theorem nonASCIISequenceLength_cases (first : UInt8) :
    (nonASCIISequenceLength first = 0 ∧ (first.toNat < 0x80 ∨ 0xF5 ≤ first.toNat)) ∨
    (nonASCIISequenceLength first = 2 ∧ 0x80 ≤ first.toNat ∧ first.toNat < 0xE0) ∨
    (nonASCIISequenceLength first = 3 ∧ 0xE0 ≤ first.toNat ∧ first.toNat < 0xF0) ∨
    (nonASCIISequenceLength first = 4 ∧ 0xF0 ≤ first.toNat ∧ first.toNat < 0xF5) := by
  unfold nonASCIISequenceLength
  simp only [UInt8.lt_iff_toNat_lt]
  have h1 : (0x80 : UInt8).toNat = 0x80 := rfl
  have h2 : (0xE0 : UInt8).toNat = 0xE0 := rfl
  have h3 : (0xF0 : UInt8).toNat = 0xF0 := rfl
  have h4 : (0xF5 : UInt8).toNat = 0xF5 := rfl
  rw [h1, h2, h3, h4]
  split
  · omega
  · split
    · omega
    · split
      · omega
      · split <;> omega

theorem outside_false {b : UInt8} (h : outside b 0x80 0xBF = false) :
    0x80 ≤ b.toNat ∧ b.toNat ≤ 0xBF := by
  by_contra hnot
  have hout : b.toNat < (0x80 : UInt8).toNat ∨ (0xBF : UInt8).toNat < b.toNat := by
    simp only [UInt8.reduceToNat]
    omega
  rw [outside_iff.mpr hout] at h
  cases h

theorem Continues.one (s : Bytes) : Continues s 1 := fun i hi hlt => by omega

theorem Continues.succ {s : Bytes} {k : Nat} (h : Continues s k) (hk : 1 ≤ k)
    (hb : 0x80 ≤ (s.getD k 0).toNat ∧ (s.getD k 0).toNat ≤ 0xBF) : Continues s (k + 1) := by
  intro i hi hlt
  rcases Nat.lt_succ_iff_lt_or_eq.mp hlt with hlt | rfl
  · exact h i hi hlt
  · exact hb

/-- What `DecodeNonASCIISequence` returns: the negative length of what is broken, or a character. -/
inductive DecodedTo (s : Bytes) (count : Nat) : Int → Prop
  | broken (k : Nat) (hk : 1 ≤ k) (hlt : k < count) (hcontinues : Continues s k) :
    DecodedTo s count (-(k : Int))
  | character (c : Nat) (hlow : 0x80 ≤ c) (hhigh : c < 0x110000)
    (hcontinues : Continues s count) : DecodedTo s count c

theorem decode_two {s : Bytes} (hfirst : (s.getD 0 0).toNat < 0xE0) :
    DecodedTo s 2 (decodeNonASCIISequence s 2) := by
  unfold decodeNonASCIISequence
  dsimp only
  rw [if_pos rfl]
  split
  · exact .broken 1 (Nat.le_refl 1) (by decide) (.one s)
  · rename_i hlead
    rw [UInt8.lt_iff_toNat_lt, show (0xC2 : UInt8).toNat = 0xC2 from rfl] at hlead
    split
    · exact .broken 1 (Nat.le_refl 1) (by decide) (.one s)
    · rename_i hsecond
      have hs := outside_false (Bool.eq_false_iff.mpr hsecond)
      rw [Nat.shiftLeft_eq]
      have hvalue : (((s.getD 0 0).toNat * 2 ^ 6 + (s.getD 1 0).toNat : Nat) : Int) - 0x3080 =
          (((s.getD 0 0).toNat * 2 ^ 6 + (s.getD 1 0).toNat - 0x3080 : Nat) : Int) := by
        omega
      rw [hvalue]
      exact .character _ (by omega) (by omega) ((Continues.one s).succ (Nat.le_refl 1) hs)

theorem decode_three {s : Bytes} (hlow : 0xE0 ≤ (s.getD 0 0).toNat)
    (hhigh : (s.getD 0 0).toNat < 0xF0) : DecodedTo s 3 (decodeNonASCIISequence s 3) := by
  unfold decodeNonASCIISequence
  dsimp only
  rw [if_neg (by decide), if_pos rfl]
  split
  · exact .broken 1 (Nat.le_refl 1) (by decide) (.one s)
  · rename_i hsecond
    obtain ⟨hs, he0, -, -, -⟩ := secondOutside_false (Bool.eq_false_iff.mpr hsecond)
    have hcontinues := (Continues.one s).succ (Nat.le_refl 1) hs
    split
    · exact .broken 2 (by decide) (by decide) hcontinues
    · rename_i hthird
      have ht := outside_false (Bool.eq_false_iff.mpr hthird)
      rw [Nat.shiftLeft_eq, Nat.shiftLeft_eq]
      have hvalue : (((s.getD 0 0).toNat * 2 ^ 12 + (s.getD 1 0).toNat * 2 ^ 6 +
          (s.getD 2 0).toNat : Nat) : Int) - 0xE2080 =
          (((s.getD 0 0).toNat * 2 ^ 12 + (s.getD 1 0).toNat * 2 ^ 6 +
            (s.getD 2 0).toNat - 0xE2080 : Nat) : Int) := by
        omega
      rw [hvalue]
      exact .character _ (by omega) (by omega) (hcontinues.succ (by decide) ht)

theorem decode_four {s : Bytes} (hlow : 0xF0 ≤ (s.getD 0 0).toNat)
    (hhigh : (s.getD 0 0).toNat < 0xF5) : DecodedTo s 4 (decodeNonASCIISequence s 4) := by
  unfold decodeNonASCIISequence
  dsimp only
  rw [if_neg (by decide), if_neg (by decide)]
  split
  · exact .broken 1 (Nat.le_refl 1) (by decide) (.one s)
  · rename_i hsecond
    obtain ⟨hs, -, -, hf0, hf4⟩ := secondOutside_false (Bool.eq_false_iff.mpr hsecond)
    have hcontinues := (Continues.one s).succ (Nat.le_refl 1) hs
    split
    · exact .broken 2 (by decide) (by decide) hcontinues
    · rename_i hthird
      have ht := outside_false (Bool.eq_false_iff.mpr hthird)
      have hcontinues := hcontinues.succ (by decide) ht
      split
      · exact .broken 3 (by decide) (by decide) hcontinues
      · rename_i hfourth
        have hf := outside_false (Bool.eq_false_iff.mpr hfourth)
        rw [Nat.shiftLeft_eq, Nat.shiftLeft_eq, Nat.shiftLeft_eq]
        have hvalue : (((s.getD 0 0).toNat * 2 ^ 18 + (s.getD 1 0).toNat * 2 ^ 12 +
            (s.getD 2 0).toNat * 2 ^ 6 + (s.getD 3 0).toNat : Nat) : Int) - 0x3C82080 =
            (((s.getD 0 0).toNat * 2 ^ 18 + (s.getD 1 0).toNat * 2 ^ 12 +
              (s.getD 2 0).toNat * 2 ^ 6 + (s.getD 3 0).toNat - 0x3C82080 : Nat) : Int) := by
          omega
        rw [hvalue]
        exact .character _ (by omega) (by omega) (hcontinues.succ (by decide) hf)

/-- **`DecodeNonASCIISequence`.** -/
theorem decode_cases {first : UInt8} (rest : Bytes) (hcount : nonASCIISequenceLength first ≠ 0) :
    DecodedTo (first :: rest) (nonASCIISequenceLength first)
      (decodeNonASCIISequence (first :: rest) (nonASCIISequenceLength first)) := by
  have hhead : (first :: rest).getD 0 0 = first := rfl
  rcases nonASCIISequenceLength_cases first with ⟨h, -⟩ | ⟨h, -, hhigh⟩ | ⟨h, hlow, hhigh⟩ |
    ⟨h, hlow, hhigh⟩
  · exact absurd h hcount
  · rw [h]
    exact decode_two (by rwa [hhead])
  · rw [h]
    exact decode_three (by rwa [hhead]) (by rwa [hhead])
  · rw [h]
    exact decode_four (by rwa [hhead]) (by rwa [hhead])

/-! ## The text of a sequence of bytes -/

/-- What stands in front, with its length. -/
inductive Sequence where
  | incomplete
  | character (text : Units) (length : Nat)
  | broken (length : Nat)

/-- The first sequence. -/
def sequenceAt : Bytes → Sequence
  | [] => .incomplete
  | first :: rest =>
    if isASCII first then .character [first.toUInt16] 1
    else
      let count := nonASCIISequenceLength first
      if count > rest.length + 1 then .incomplete
      else
        let character :=
          if count = 0 then kNonCharacter1 else decodeNonASCIISequence (first :: rest) count
        if isNonCharacter character then .broken (-character).toNat
        else .character (appendCharacter character.toNat) count

/-- The text of the bytes. -/
def plainText : Bytes → Units
  | [] => []
  | first :: rest =>
    match sequenceAt (first :: rest) with
    | .incomplete => kReplacementCharacter :: plainText rest
    | .character text n => text ++ plainText (rest.drop (n - 1))
    | .broken n => kReplacementCharacter :: plainText (rest.drop (n - 1))
termination_by bytes => bytes.length

/-- There is a broken sequence, or one that is incomplete at the end. -/
def plainError : Bytes → Bool
  | [] => false
  | first :: rest =>
    match sequenceAt (first :: rest) with
    | .incomplete => true
    | .character _ n => plainError (rest.drop (n - 1))
    | .broken _ => true
termination_by bytes => bytes.length

theorem not_ascii_of_length {first : UInt8} (h : nonASCIISequenceLength first ≠ 0) :
    isASCII first = false := by
  rw [Bool.eq_false_iff]
  intro hascii
  refine h ?_
  unfold nonASCIISequenceLength
  exact if_pos (by simpa [isASCII] using hascii)

theorem isNonCharacter_neg {k : Nat} (hk : 1 ≤ k) (hthree : k ≤ 3) :
    isNonCharacter (-(k : Int)) = true := by
  unfold isNonCharacter kNonCharacter3 kNonCharacter1
  rw [decide_eq_true_iff]
  omega

theorem isNonCharacter_ofNat (c : Nat) : isNonCharacter (c : Int) = false := by
  unfold isNonCharacter kNonCharacter3 kNonCharacter1
  rw [decide_eq_false_iff_not]
  omega

theorem sequenceAt_ascii {first : UInt8} (h : isASCII first = true) (rest : Bytes) :
    sequenceAt (first :: rest) = .character [first.toUInt16] 1 := if_pos h

theorem sequenceAt_short {first : UInt8} {rest : Bytes}
    (h : rest.length + 1 < nonASCIISequenceLength first) :
    sequenceAt (first :: rest) = .incomplete := by
  have hascii := not_ascii_of_length (Nat.ne_zero_of_lt h)
  exact (if_neg (Bool.eq_false_iff.mp hascii)).trans (if_pos h)

theorem sequenceAt_zero {first : UInt8} (hascii : isASCII first = false)
    (h : nonASCIISequenceLength first = 0) (rest : Bytes) :
    sequenceAt (first :: rest) = .broken 1 := by
  refine (if_neg (Bool.eq_false_iff.mp hascii)).trans ?_
  dsimp only
  rw [h]
  rfl

/-- A sequence whose bytes are there. -/
theorem sequenceAt_long {first : UInt8} {rest : Bytes} (h0 : nonASCIISequenceLength first ≠ 0)
    (h : nonASCIISequenceLength first ≤ rest.length + 1) :
    sequenceAt (first :: rest) =
      let character := decodeNonASCIISequence (first :: rest) (nonASCIISequenceLength first)
      if isNonCharacter character then .broken (-character).toNat
      else .character (appendCharacter character.toNat) (nonASCIISequenceLength first) := by
  have hascii := not_ascii_of_length h0
  refine (if_neg (Bool.eq_false_iff.mp hascii)).trans ?_
  dsimp only
  rw [if_neg (by omega), if_neg h0]

/-- The four ways in which a sequence begins. -/
inductive Beginning (first : UInt8) (rest : Bytes) : Sequence → Prop
  | ascii (h : isASCII first = true) : Beginning first rest (.character [first.toUInt16] 1)
  | zero (hascii : isASCII first = false) (h : nonASCIISequenceLength first = 0) :
    Beginning first rest (.broken 1)
  | short (h : rest.length + 1 < nonASCIISequenceLength first) : Beginning first rest .incomplete
  | broken (k : Nat) (h0 : nonASCIISequenceLength first ≠ 0)
    (h : nonASCIISequenceLength first ≤ rest.length + 1) (hk : 1 ≤ k)
    (hlt : k < nonASCIISequenceLength first) (hcontinues : Continues (first :: rest) k)
    (hdecode : decodeNonASCIISequence (first :: rest) (nonASCIISequenceLength first) = -(k : Int)) :
    Beginning first rest (.broken k)
  | character (c : Nat) (h0 : nonASCIISequenceLength first ≠ 0)
    (h : nonASCIISequenceLength first ≤ rest.length + 1) (hlow : 0x80 ≤ c) (hhigh : c < 0x110000)
    (hcontinues : Continues (first :: rest) (nonASCIISequenceLength first))
    (hdecode : decodeNonASCIISequence (first :: rest) (nonASCIISequenceLength first) = (c : Int)) :
    Beginning first rest (.character (appendCharacter c) (nonASCIISequenceLength first))

theorem nonASCIISequenceLength_le (first : UInt8) : nonASCIISequenceLength first ≤ 4 := by
  have := nonASCIISequenceLength_cases first
  omega

/-- **What stands in front.** -/
theorem sequenceAt_begins (first : UInt8) (rest : Bytes) :
    Beginning first rest (sequenceAt (first :: rest)) := by
  by_cases hascii : isASCII first = true
  · rw [sequenceAt_ascii hascii]
    exact .ascii hascii
  · rw [Bool.not_eq_true] at hascii
    by_cases h0 : nonASCIISequenceLength first = 0
    · rw [sequenceAt_zero hascii h0]
      exact .zero hascii h0
    · by_cases h : nonASCIISequenceLength first ≤ rest.length + 1
      · have hfour := nonASCIISequenceLength_le first
        have hdecoded := decode_cases rest h0
        rw [sequenceAt_long h0 h]
        dsimp only
        generalize hd : decodeNonASCIISequence (first :: rest) (nonASCIISequenceLength first) = d
          at hdecoded
        cases hdecoded with
        | broken k hk hlt hcontinues =>
          rw [if_pos (isNonCharacter_neg hk (by omega)), Int.neg_neg, Int.toNat_natCast]
          exact .broken k h0 h hk hlt hcontinues hd
        | character c hlow hhigh hcontinues =>
          rw [isNonCharacter_ofNat, if_neg Bool.false_ne_true, Int.toNat_natCast]
          exact .character c h0 h hlow hhigh hcontinues hd
      · rw [sequenceAt_short (by omega)]
        exact .short (by omega)

/-! ## More bytes -/

theorem getD_append_of_lt {s : Bytes} (more : Bytes) {i : Nat} (h : i < s.length) :
    (s ++ more).getD i 0 = s.getD i 0 := by
  rw [List.getD_eq_getElem?_getD, List.getD_eq_getElem?_getD, List.getElem?_append_left h]

theorem decodeNonASCIISequence_append {s : Bytes} (more : Bytes) {count : Nat}
    (hcount : count = 2 ∨ count = 3 ∨ count = 4) (hlen : count ≤ s.length) :
    decodeNonASCIISequence (s ++ more) count = decodeNonASCIISequence s count := by
  have hbyte : ∀ i, i < count → (s ++ more).getD i 0 = s.getD i 0 :=
    fun i hi => getD_append_of_lt more (by omega)
  unfold decodeNonASCIISequence
  dsimp only
  rcases hcount with rfl | rfl | rfl
  · simp only [hbyte 0 (by decide), hbyte 1 (by decide), if_true]
  · simp only [hbyte 0 (by decide), hbyte 1 (by decide), hbyte 2 (by decide), Nat.reduceEqDiff,
      if_false, if_true]
  · simp only [hbyte 0 (by decide), hbyte 1 (by decide), hbyte 2 (by decide),
      hbyte 3 (by decide), Nat.reduceEqDiff, if_false]

/-- **More bytes do not change what is complete.** -/
theorem sequenceAt_append {s : Bytes} (more : Bytes) (h : sequenceAt s ≠ .incomplete) :
    sequenceAt (s ++ more) = sequenceAt s := by
  cases s with
  | nil => exact absurd rfl h
  | cons first rest =>
    rw [List.cons_append]
    by_cases hascii : isASCII first = true
    · rw [sequenceAt_ascii hascii, sequenceAt_ascii hascii]
    · rw [Bool.not_eq_true] at hascii
      by_cases h0 : nonASCIISequenceLength first = 0
      · rw [sequenceAt_zero hascii h0, sequenceAt_zero hascii h0]
      · have hlen : nonASCIISequenceLength first ≤ rest.length + 1 := by
          by_contra hshort
          exact h (sequenceAt_short (by omega))
        have hmore : nonASCIISequenceLength first ≤ (rest ++ more).length + 1 := by
          rw [List.length_append]
          omega
        have hcases := nonASCIISequenceLength_cases first
        rw [sequenceAt_long h0 hlen, sequenceAt_long h0 hmore, ← List.cons_append,
          decodeNonASCIISequence_append more (by omega) hlen]

/-! ## The text -/

section Text

variable {s : Bytes} {t : Units} {n : Nat}

theorem plain_of_character (h : sequenceAt s = .character t n) (hn : 1 ≤ n) :
    plainText s = t ++ plainText (s.drop n) ∧ plainError s = plainError (s.drop n) := by
  cases s with
  | nil => cases h
  | cons first rest =>
    obtain ⟨m, rfl⟩ := Nat.exists_eq_add_of_le' hn
    rw [plainText, plainError, h]
    exact ⟨rfl, rfl⟩

theorem plain_of_broken (h : sequenceAt s = .broken n) (hn : 1 ≤ n) :
    plainText s = kReplacementCharacter :: plainText (s.drop n) ∧ plainError s = true := by
  cases s with
  | nil => cases h
  | cons first rest =>
    obtain ⟨m, rfl⟩ := Nat.exists_eq_add_of_le' hn
    rw [plainText, plainError, h]
    exact ⟨rfl, rfl⟩

theorem plain_of_incomplete {first : UInt8} {rest : Bytes}
    (h : sequenceAt (first :: rest) = .incomplete) :
    plainText (first :: rest) = kReplacementCharacter :: plainText rest ∧
      plainError (first :: rest) = true := by
  rw [plainText, plainError, h]
  exact ⟨rfl, rfl⟩

theorem plain_nil : plainText [] = [] ∧ plainError [] = false := by
  rw [plainText, plainError]
  exact ⟨rfl, rfl⟩

theorem plain_of_ascii {run : Bytes} (hrun : run.all isASCII = true) (rest : Bytes) :
    plainText (run ++ rest) = widened run ++ plainText rest ∧
      plainError (run ++ rest) = plainError rest := by
  induction run with
  | nil => exact ⟨rfl, rfl⟩
  | cons b run ih =>
    rw [List.all_cons, Bool.and_eq_true] at hrun
    obtain ⟨htext, herror⟩ := ih hrun.2
    obtain ⟨htext', herror'⟩ := plain_of_character
      (sequenceAt_ascii hrun.1 (run ++ rest)) (Nat.le_refl 1)
    rw [List.cons_append, htext', herror']
    refine ⟨?_, herror⟩
    rw [List.drop_one, List.tail_cons, htext]
    rfl

end Text

end Blinkit.Text
