import Blinkit.Text.UTF8Chunks

/-!
# Encoding and decoding UTF-8

* `IsScalar` — the characters that are encoded.
* `sequenceAt_appendUTF8` — the bytes of a character are its sequence.

What is encoded has no byte that could be lost, so it is decoded in any chunks.

Principal result: `utf8_roundTrip`.
-/

set_option autoImplicit false

namespace Blinkit.Text

/-! ## Texts -/

/-- A character that is no surrogate. -/
def IsScalar (c : Nat) : Prop := c < 0xD800 ∨ 0xDFFF < c ∧ c < 0x110000

theorem isScalar_withoutSurrogate {c : Nat} (h : c < 0x110000) : IsScalar (withoutSurrogate c) := by
  unfold withoutSurrogate IsScalar
  split
  · exact .inr (by decide)
  · omega

/-- A code unit by itself. -/
theorem appendCharacter_unit (c : UInt16) :
    appendCharacter (withoutSurrogate c.toNat) =
      [if isLead c || isTrail c then kReplacementCharacter else c] := by
  have hlead := isLead_iff (c := c)
  have htrail := isTrail_iff (c := c)
  unfold withoutSurrogate
  by_cases hsurrogate : 0xD800 ≤ c.toNat ∧ c.toNat ≤ 0xDFFF
  · rw [if_pos hsurrogate, if_pos]
    · rfl
    · rw [Bool.or_eq_true, hlead, htrail]
      omega
  · rw [if_neg hsurrogate, if_neg]
    · have hc := c.toNat_lt
      unfold appendCharacter
      rw [if_pos (by omega), UInt16.ofNat_toNat]
    · rw [Bool.or_eq_true, hlead, htrail]
      omega

/-- The value of a pair. -/
theorem getSupplementary_eq {c c2 : UInt16} (h : isLead c = true) (h2 : isTrail c2 = true) :
    getSupplementary c c2 = (c.toNat - 0xD800) * 0x400 + (c2.toNat - 0xDC00) + 0x10000 := by
  rw [isLead_iff] at h
  rw [isTrail_iff] at h2
  unfold getSupplementary
  simp only [Nat.shiftLeft_eq]
  omega

theorem appendCharacter_pair {c c2 : UInt16} (h : isLead c = true) (h2 : isTrail c2 = true) :
    appendCharacter (withoutSurrogate (getSupplementary c c2)) = [c, c2] := by
  have hvalue := getSupplementary_eq h h2
  rw [isLead_iff] at h
  rw [isTrail_iff] at h2
  generalize getSupplementary c c2 = v at hvalue
  have hplain : withoutSurrogate v = v := if_neg (by omega)
  rw [hplain]
  unfold appendCharacter
  rw [if_neg (by omega)]
  have hfirst : v >>> 10 + 0xD7C0 = c.toNat := by
    rw [Nat.shiftRight_eq_div_pow]
    omega
  have hor : ∀ n, n < 0x400 → n ||| 0xDC00 = n + 0xDC00 := by
    intro n hn
    have := Nat.two_pow_add_eq_or_of_lt (i := 10) hn 0x37
    rw [Nat.or_comm, ← this]
    omega
  have hsecond : (v &&& 0x3FF ||| 0xDC00) = c2.toNat := by
    rw [show (0x3FF : Nat) = 2 ^ 10 - 1 from rfl, Nat.and_two_pow_sub_one_eq_mod, hor _ (by omega)]
    omega
  rw [hfirst, hsecond, UInt16.ofNat_toNat, UInt16.ofNat_toNat]

/-- **The characters of a text.** -/
theorem characters_spec (units : Units) :
    ((nextCharacters units).map withoutSurrogate).flatMap appendCharacter =
        replaceLoneSurrogates units ∧
      ∀ c ∈ (nextCharacters units).map withoutSurrogate, IsScalar c := by
  have hunit : ∀ c : UInt16, IsScalar (withoutSurrogate c.toNat) :=
    fun c => isScalar_withoutSurrogate (by have := c.toNat_lt; omega)
  fun_induction nextCharacters units with
  | case1 => exact ⟨rfl, List.forall_mem_nil _⟩
  | case2 c =>
    refine ⟨?_, List.forall_mem_singleton.mpr (hunit c)⟩
    rw [List.map_singleton, List.flatMap_singleton, appendCharacter_unit]
    rfl
  | case3 c c2 rest hpair ih =>
    obtain ⟨htext, hscalar⟩ := ih
    have hvalue := getSupplementary_eq hpair.1 hpair.2
    have h := isLead_iff.mp hpair.1
    have h2 := isTrail_iff.mp hpair.2
    rw [List.map_cons, List.flatMap_cons, htext, appendCharacter_pair hpair.1 hpair.2]
    refine ⟨?_, List.forall_mem_cons.mpr ⟨isScalar_withoutSurrogate (by omega), hscalar⟩⟩
    rw [replaceLoneSurrogates, if_pos hpair]
    rfl
  | case4 c c2 rest hpair ih =>
    obtain ⟨htext, hscalar⟩ := ih
    rw [List.map_cons, List.flatMap_cons, htext, appendCharacter_unit]
    refine ⟨?_, List.forall_mem_cons.mpr ⟨hunit c, hscalar⟩⟩
    rw [replaceLoneSurrogates, if_neg hpair]
    rfl

/-! ## The bytes of a character -/

section Bytes

variable {c : Nat} {rest : Bytes}

/-- A byte that continues a sequence. -/
theorem toNat_continuation {n : Nat} (hn : n < 0x40) :
    (UInt8.ofNat (n ||| 0x80)).toNat = n + 0x80 := by
  rw [show n ||| 0x80 = n + 0x80 from or_eq_add (k := 6) hn 2, UInt8.toNat_ofNat']
  exact Nat.mod_eq_of_lt (by omega)

/-- The bytes of a character and their values. -/
inductive Encoded (c : Nat) : Bytes → Prop
  | one (hc : c < 0x80) {a : UInt8} (ha : a.toNat = c) : Encoded c [a]
  | two (hc : 0x80 ≤ c ∧ c < 0x800) {a b : UInt8} (ha : a.toNat = c / 0x40 + 0xC0)
    (hb : b.toNat = c % 0x40 + 0x80) : Encoded c [a, b]
  | three (hc : 0x800 ≤ c ∧ c < 0x10000) {a b d : UInt8} (ha : a.toNat = c / 0x1000 + 0xE0)
    (hb : b.toNat = c / 0x40 % 0x40 + 0x80) (hd : d.toNat = c % 0x40 + 0x80) : Encoded c [a, b, d]
  | four (hc : 0x10000 ≤ c) {a b d e : UInt8} (ha : a.toNat = c / 0x40000 + 0xF0)
    (hb : b.toNat = c / 0x1000 % 0x40 + 0x80) (hd : d.toNat = c / 0x40 % 0x40 + 0x80)
    (he : e.toNat = c % 0x40 + 0x80) : Encoded c [a, b, d, e]

theorem appendUTF8_encoded (hc : c < 0x110000) : Encoded c (appendUTF8 c) := by
  have hmask : ∀ n : Nat, (UInt8.ofNat (n &&& 0x3F ||| 0x80)).toNat = n % 0x40 + 0x80 := by
    intro n
    have hmod : n &&& 0x3F = n % 0x40 := Nat.and_two_pow_sub_one_eq_mod n 6
    rw [hmod, toNat_continuation (Nat.mod_lt n (by decide))]
  have hlead : ∀ n k m : Nat, n < 2 ^ k → 2 ^ k * m + n < 0x100 →
      (UInt8.ofNat (n ||| 2 ^ k * m)).toNat = n + 2 ^ k * m := by
    intro n k m hn hlt
    rw [or_eq_add hn, UInt8.toNat_ofNat']
    exact Nat.mod_eq_of_lt (by omega)
  unfold appendUTF8
  split
  · exact .one (by omega) (by rw [UInt8.toNat_ofNat']; omega)
  · split
    · refine .two (by omega) ?_ (hmask c)
      rw [Nat.shiftRight_eq_div_pow]
      exact hlead (c / 0x40) 5 6 (by omega) (by omega)
    · split
      · refine .three (by omega) ?_ ?_ (hmask c)
        · rw [Nat.shiftRight_eq_div_pow]
          exact hlead (c / 0x1000) 4 14 (by omega) (by omega)
        · rw [Nat.shiftRight_eq_div_pow]
          exact hmask (c / 0x40)
      · refine .four (by omega) ?_ ?_ ?_ (hmask c)
        · rw [Nat.shiftRight_eq_div_pow]
          exact hlead (c / 0x40000) 3 30 (by omega) (by omega)
        · rw [Nat.shiftRight_eq_div_pow]
          exact hmask (c / 0x1000)
        · rw [Nat.shiftRight_eq_div_pow]
          exact hmask (c / 0x40)

theorem inside {b low high : UInt8} (hlow : low.toNat ≤ b.toNat) (hhigh : b.toNat ≤ high.toNat) :
    outside b low high = false := by
  rw [Bool.eq_false_iff]
  intro hout
  have := outside_iff.mp hout
  omega

theorem inside_continuation {b : UInt8} {n : Nat} (hb : b.toNat = n + 0x80) (hn : n < 0x40) :
    outside b 0x80 0xBF = false := by
  refine inside ?_ ?_
  · rw [hb]
    exact Nat.le_add_left _ n
  · rw [hb]
    exact Nat.add_le_add_right (Nat.le_of_lt_succ hn) 0x80

theorem secondInside {first second : UInt8} (h : 0x80 ≤ second.toNat ∧ second.toNat ≤ 0xBF)
    (he0 : first.toNat = 0xE0 → 0xA0 ≤ second.toNat)
    (hed : first.toNat = 0xED → second.toNat ≤ 0x9F)
    (hf0 : first.toNat = 0xF0 → 0x90 ≤ second.toNat)
    (hf4 : first.toNat = 0xF4 → second.toNat ≤ 0x8F) : secondOutside first second = false := by
  unfold secondOutside
  split
  · rename_i hfirst
    exact inside (he0 (congrArg UInt8.toNat hfirst)) h.2
  · split
    · rename_i hfirst
      exact inside h.1 (hed (congrArg UInt8.toNat hfirst))
    · split
      · rename_i hfirst
        exact inside (hf0 (congrArg UInt8.toNat hfirst)) h.2
      · split
        · rename_i hfirst
          exact inside h.1 (hf4 (congrArg UInt8.toNat hfirst))
        · exact inside h.1 h.2

theorem Encoded.length_pos {bytes : Bytes} (henc : Encoded c bytes) : 1 ≤ bytes.length := by
  cases henc <;> exact Nat.le_add_left 1 _

/-- A decoded value is the character. -/
theorem sequenceAt_of_decode {first : UInt8} {n : Nat} (hn : nonASCIISequenceLength first = n)
    (h0 : n ≠ 0) (hlen : n ≤ rest.length + 1)
    (hdecode : decodeNonASCIISequence (first :: rest) n = (c : Int)) :
    sequenceAt (first :: rest) = .character (appendCharacter c) n := by
  subst hn
  rw [sequenceAt_long h0 hlen]
  dsimp only
  rw [hdecode, isNonCharacter_ofNat, if_neg Bool.false_ne_true, Int.toNat_natCast]

/-- **The bytes of a character are its sequence.** -/
theorem sequenceAt_encoded {bytes : Bytes} (henc : Encoded c bytes) (hc : IsScalar c)
    (rest : Bytes) :
    sequenceAt (bytes ++ rest) = .character (appendCharacter c) bytes.length := by
  unfold IsScalar at hc
  cases henc with
  | @one hlow a ha =>
    have hascii : isASCII a = true := by
      unfold isASCII
      rw [decide_eq_true_iff, UInt8.lt_iff_toNat_lt, ha]
      exact hlow
    rw [List.singleton_append, sequenceAt_ascii hascii]
    unfold appendCharacter
    rw [if_pos (by omega), ← ha, UInt16.ofNat_uInt8ToNat]
    rfl
  | @two hrange a b ha hb =>
    have hlength := nonASCIISequenceLength_cases a
    show sequenceAt (a :: b :: rest) = .character (appendCharacter c) 2
    refine sequenceAt_of_decode (by omega) (by decide) (Nat.le_add_left _ _) ?_
    show (if a < 0xC2 then kNonCharacter1 else if outside b 0x80 0xBF then kNonCharacter1
      else ((a.toNat <<< 6 + b.toNat : Nat) : Int) - 0x3080) = c
    rw [if_neg, inside_continuation hb (Nat.mod_lt _ (by decide)), if_neg Bool.false_ne_true,
      Nat.shiftLeft_eq]
    · omega
    · rw [UInt8.lt_iff_toNat_lt, show (0xC2 : UInt8).toNat = 0xC2 from rfl]
      omega
  | @three hrange a b d ha hb hd =>
    have hlength := nonASCIISequenceLength_cases a
    show sequenceAt (a :: b :: d :: rest) = .character (appendCharacter c) 3
    refine sequenceAt_of_decode (by omega) (by decide) (Nat.le_add_left _ _) ?_
    show (if secondOutside a b then kNonCharacter1 else if outside d 0x80 0xBF then kNonCharacter2
      else ((a.toNat <<< 12 + b.toNat <<< 6 + d.toNat : Nat) : Int) - 0xE2080) = c
    rw [secondInside (by omega) (by omega) (by omega) (by omega) (by omega),
      if_neg Bool.false_ne_true, inside_continuation hd (Nat.mod_lt _ (by decide)),
      if_neg Bool.false_ne_true, Nat.shiftLeft_eq, Nat.shiftLeft_eq]
    omega
  | @four hrange a b d e ha hb hd he =>
    have hlength := nonASCIISequenceLength_cases a
    show sequenceAt (a :: b :: d :: e :: rest) = .character (appendCharacter c) 4
    refine sequenceAt_of_decode (by omega) (by decide) (Nat.le_add_left _ _) ?_
    show (if secondOutside a b then kNonCharacter1 else if outside d 0x80 0xBF then kNonCharacter2
      else if outside e 0x80 0xBF then kNonCharacter3
      else ((a.toNat <<< 18 + b.toNat <<< 12 + d.toNat <<< 6 + e.toNat : Nat) : Int) -
        0x3C82080) = c
    rw [secondInside (by omega) (by omega) (by omega) (by omega) (by omega),
      if_neg Bool.false_ne_true, inside_continuation hd (Nat.mod_lt _ (by decide)),
      if_neg Bool.false_ne_true, inside_continuation he (Nat.mod_lt _ (by decide)),
      if_neg Bool.false_ne_true, Nat.shiftLeft_eq, Nat.shiftLeft_eq, Nat.shiftLeft_eq]
    omega

/-- The first byte of four is followed by one that begins no character. -/
theorem Spared.cons_two {bytes : Bytes} {b b' : UInt8} (h : Spared (b' :: bytes))
    (hb : b'.toNat < 0xC2) : Spared (b :: b' :: bytes) := by
  intro front l c x y behind hbytes ho
  cases front with
  | nil =>
    rw [List.nil_append] at hbytes
    obtain rfl : b' = c := (List.cons.inj (List.cons.inj hbytes).2).1
    have := ho.two
    omega
  | cons b'' front =>
    rw [List.cons_append] at hbytes
    exact h front l c x y behind (List.cons.inj hbytes).2 ho

/-- Nothing is lost behind a character. -/
theorem spared_encoded {bytes : Bytes} (henc : Encoded c bytes) (hrest : Spared rest) :
    Spared (bytes ++ rest) := by
  cases henc with
  | one hlow ha => exact hrest.cons (by omega)
  | two hrange ha hb => exact (hrest.cons (by omega)).cons (by omega)
  | three hrange ha hb hd => exact ((hrest.cons (by omega)).cons (by omega)).cons (by omega)
  | @four hrange a b d e ha hb hd he =>
    have hlast : Spared (e :: rest) := hrest.cons (by omega)
    have hthird : Spared (d :: e :: rest) := hlast.cons (by omega)
    have hsecond : Spared (b :: d :: e :: rest) := hthird.cons (by omega)
    exact hsecond.cons_two (by omega)

end Bytes

/-- **What encoded characters mean.** -/
theorem plain_encoded {characters : List Nat} (hscalar : ∀ c ∈ characters, IsScalar c) :
    (plainText (characters.flatMap appendUTF8) = characters.flatMap appendCharacter ∧
        plainError (characters.flatMap appendUTF8) = false) ∧
      Spared (characters.flatMap appendUTF8) := by
  induction characters with
  | nil => exact ⟨plain_nil, spared_of_short (Nat.zero_le 3)⟩
  | cons c characters ih =>
    obtain ⟨hc, hrest⟩ := List.forall_mem_cons.mp hscalar
    obtain ⟨⟨htext, herror⟩, hspared⟩ := ih hrest
    have henc : Encoded c (appendUTF8 c) := by
      refine appendUTF8_encoded ?_
      unfold IsScalar at hc
      omega
    rw [List.flatMap_cons, List.flatMap_cons]
    obtain ⟨htext', herror'⟩ := plain_of_character
      (sequenceAt_encoded henc hc (characters.flatMap appendUTF8)) henc.length_pos
    rw [List.drop_left] at htext' herror'
    rw [htext', herror', htext]
    exact ⟨⟨rfl, herror⟩, spared_encoded henc hspared⟩

/-- What an encoded text means. -/
theorem plain_encode (units : Units) :
    (plainText (TextCodecUTF8.encode units) = replaceLoneSurrogates units ∧
        plainError (TextCodecUTF8.encode units) = false) ∧
      Spared (TextCodecUTF8.encode units) := by
  obtain ⟨htext, hscalar⟩ := characters_spec units
  obtain ⟨⟨hplain, herror⟩, hspared⟩ := plain_encoded hscalar
  exact ⟨⟨hplain.trans htext, herror⟩, hspared⟩

/-- **Encoding, and decoding in any chunks.** The text comes back, with a replacement character for
each surrogate that has no partner, and no error is reported. -/
theorem utf8_roundTrip (word : MachineWord) (address : Bytes → Nat) {flush : FlushBehavior}
    (hflush : flush ≠ .doNotFlush) (stopOnError : Bool) (units : Units) {chunks : List Bytes}
    (hne : chunks ≠ []) (hchunks : chunks.flatten = TextCodecUTF8.encode units) :
    (TextCodecUTF8.textCodec word address).decodeChunks flush stopOnError .create chunks =
        replaceLoneSurrogates units ∧
      (TextCodecUTF8.textCodec word address).chunksSawError flush stopOnError .create chunks =
        false := by
  obtain ⟨⟨hplain, herror⟩, hspared⟩ := plain_encode units
  rw [← hchunks] at hplain herror hspared
  have hdecoded :
      (TextCodecUTF8.textCodec word address).decodeChunks flush stopOnError .create chunks =
          plainText chunks.flatten ∧
        (TextCodecUTF8.textCodec word address).chunksSawError flush stopOnError .create chunks =
          plainError chunks.flatten :=
    decodeChunks_plain hflush hne hspared fun _ => herror
  exact ⟨hdecoded.1.trans hplain, hdecoded.2.trans herror⟩

/-- A pair of surrogates, in chunks that split its four bytes, behind a lone one. -/
theorem roundTrip_pair :
    (TextCodecUTF8.textCodec .bits64 fun _ => 0).decodeChunks .dataEOF true .create
        [[0xEF, 0xBF, 0xBD, 0xF0], [0x9F, 0x98], [0x80]] = [0xFFFD, 0xD83D, 0xDE00] ∧
      (TextCodecUTF8.textCodec .bits64 fun _ => 0).chunksSawError .dataEOF true .create
        [[0xEF, 0xBF, 0xBD, 0xF0], [0x9F, 0x98], [0x80]] = false :=
  utf8_roundTrip .bits64 (fun _ => 0) (by decide : FlushBehavior.dataEOF ≠ .doNotFlush) true
    [0xDC00, 0xD83D, 0xDE00] (List.cons_ne_nil _ _) (by decide +kernel)

end Blinkit.Text
