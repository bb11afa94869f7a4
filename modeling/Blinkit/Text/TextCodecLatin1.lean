import Mathlib.Data.Nat.ModEq
import Blinkit.Text.ASCIIFastPath
import Blinkit.Text.Surrogates

/-!
# The windows-1252 codec

Translation of `text_codec_latin1.cc`. A round of the decoding loops copies words of ASCII characters;
when it reaches the last aligned address, the byte there is copied too, whatever it is.

* `kTable` — the code units of the bytes.
* `latin1Round` — the bytes that a round copies, and whether the byte behind them is looked up.
* `latin1Loop8`, `latin1Loop16` — the two loops of `Decode`.
* `TextCodecLatin1.decode`, `encode` — `Decode`, `EncodeCommon`.
* `Spoils` — the words end behind a position, and a byte follows.

Principal results: `latin1_decode_iff`: the bytes are decoded by the table exactly when the table has
the byte behind the words as it is; `latin1_roundTrip_iff`: the same for an encoded text.
-/

set_option autoImplicit false

namespace Blinkit.Text

/-- `kTable` from `0x80` to `0x9F`. -/
def kWindows : Units :=
  [0x20AC, 0x0081, 0x201A, 0x0192, 0x201E, 0x2026, 0x2020, 0x2021,
    0x02C6, 0x2030, 0x0160, 0x2039, 0x0152, 0x008D, 0x017D, 0x008F,
    0x0090, 0x2018, 0x2019, 0x201C, 0x201D, 0x2022, 0x2013, 0x2014,
    0x02DC, 0x2122, 0x0161, 0x203A, 0x0153, 0x009D, 0x017E, 0x0178]

/-- `kTable`, which has the other bytes as they are. -/
def kTable (b : UInt8) : UInt16 :=
  if 0x80 ≤ b ∧ b < 0xA0 then kWindows.getD (b.toNat - 0x80) 0 else b.toUInt16

/-! ## Decoding -/

/-- A round of a loop: the bytes of the words that are copied, and whether the byte behind them is
looked up. -/
def latin1Round (word : MachineWord) (address : Nat) (source : Bytes) : Nat × Bool :=
  match source with
  | [] => (0, true)
  | first :: _ =>
    if isASCII first then
      if isAlignedToMachineWord word address then
        let words := source.length / word.size
        let n := copyWords word words source
        -- `useLookupTable` is for a word that is not ASCII, not for the end of the words
        (n, decide (n < words * word.size))
      else (0, false)
    else (0, true)

/-- `while (source < end)`, for 16-bit characters. -/
def latin1Loop16 (word : MachineWord) : Nat → Nat → Bytes → Units → Units
  | 0, _, _, text => text
  | _ + 1, _, [], text => text
  | rounds + 1, address, first :: rest, text =>
    let round := latin1Round word address (first :: rest)
    let text := text ++ widened ((first :: rest).take round.1)
    match (first :: rest).drop round.1 with
    | [] => text
    | b :: behind =>
      latin1Loop16 word rounds (address + round.1 + 1) behind
        (text ++ [if round.2 then kTable b else b.toUInt16])

/-- The 8-bit string is completed, or a character does not fit. -/
inductive Latin1Pass8 where
  | ended (text : Units)
  | upConvert (address : Nat) (b : UInt8) (behind : Bytes) (text : Units)

/-- `while (source < end)`, for 8-bit characters. -/
def latin1Loop8 (word : MachineWord) : Nat → Nat → Bytes → Units → Latin1Pass8
  | 0, _, _, text => .ended text
  | _ + 1, _, [], text => .ended text
  | rounds + 1, address, first :: rest, text =>
    let round := latin1Round word address (first :: rest)
    let text := text ++ widened ((first :: rest).take round.1)
    match (first :: rest).drop round.1 with
    | [] => .ended text
    | b :: behind =>
      if round.2 then
        if 0xFF < kTable b then .upConvert (address + round.1) b behind text
        else latin1Loop8 word rounds (address + round.1 + 1) behind (text ++ [kTable b])
      else latin1Loop8 word rounds (address + round.1 + 1) behind (text ++ [b.toUInt16])

/-- What becomes of the 8-bit string. -/
def Latin1Pass8.finish (word : MachineWord) : Latin1Pass8 → Units
  | .ended text => text
  | .upConvert address b behind text =>
    latin1Loop16 word behind.length (address + 1) behind (text ++ [kTable b])

namespace TextCodecLatin1

/-- `Decode`, of bytes at an address. -/
def decode (word : MachineWord) (address : Nat) (bytes : Bytes) : Units :=
  (latin1Loop8 word bytes.length address bytes []).finish word

/-- The codec, which keeps nothing. The bytes of a call may lie anywhere, but equal bytes lie at
the same address in every call. -/
def textCodec (word : MachineWord) (address : Bytes → Nat) : TextCodec Unit where
  decode _ bytes _ _ := ⟨(), decode word (address bytes) bytes, false⟩

end TextCodecLatin1

/-! ## Encoding -/

inductive UnencodableHandling where
  | entitiesForUnencodables
  | urlEncodedEntitiesForUnencodables
  | cssEncodedEntitiesForUnencodables
  | noUnencodables
  deriving DecidableEq, Repr

/-- The digits that `snprintf` writes. -/
def digitBytes (base codePoint : Nat) : Bytes :=
  (Nat.toDigits base codePoint).map fun c => c.toNat.toUInt8

/-- `GetUnencodableReplacement`. -/
def getUnencodableReplacement (codePoint : Nat) : UnencodableHandling → Bytes
  | .entitiesForUnencodables => ascii "&#" ++ digitBytes 10 codePoint ++ ascii ";"
  | .urlEncodedEntitiesForUnencodables => ascii "%26%23" ++ digitBytes 10 codePoint ++ ascii "%3B"
  | .cssEncodedEntitiesForUnencodables => ascii "\\" ++ digitBytes 16 codePoint ++ ascii " "
  | .noUnencodables => []

/-- `for (b = 0x80; b < 0xA0; ++b)`. -/
def lookUpWindows (c : Nat) : Option UInt8 :=
  ((List.range 0x20).map fun i => UInt8.ofNat (0x80 + i)).find? fun b => (kTable b).toNat == c

/-- The byte of a character. -/
def windowsByte (c : Nat) : Option UInt8 :=
  let b := UInt8.ofNat c
  if b.toNat ≠ c ∨ c &&& 0xE0 = 0x80 then lookUpWindows c else some b

/-- `EncodeComplexWindowsLatin1`. -/
def encodeComplexWindowsLatin1 (characters : Units) (handling : UnencodableHandling) : Bytes :=
  (nextCharacters characters).flatMap fun c =>
    match windowsByte c with
    | some b => [b]
    | none => getUnencodableReplacement c handling

/-- `EncodeCommon`. -/
def TextCodecLatin1.encode (characters : Units) (handling : UnencodableHandling) : Bytes :=
  if characters.foldl (· ||| ·) 0 &&& 0xFF80 = 0 then characters.map fun c => c.toUInt8
  else encodeComplexWindowsLatin1 characters handling

/-! ## The byte behind the words -/

theorem kTable_ascii {b : UInt8} (h : isASCII b = true) : kTable b = b.toUInt16 := by
  unfold isASCII at h
  rw [decide_eq_true_iff, UInt8.lt_iff_toNat_lt] at h
  refine if_neg fun hwindows => ?_
  have := UInt8.le_iff_toNat_le.mp hwindows.1
  simp only [UInt8.reduceToNat] at h this
  omega

theorem widened_eq {bytes : Bytes} (h : bytes.all isASCII = true) :
    widened bytes = bytes.map kTable :=
  List.map_congr_left fun b hb => (kTable_ascii (List.all_eq_true.mp h b hb)).symm

/-- The last word in front of the last aligned address begins at a position of the bytes, is ASCII,
and a byte follows it. -/
structure Spoils (word : MachineWord) (address : Nat) (source : Bytes) (k : Nat) : Prop where
  aligned : (address + k) % word.size = 0
  follows : k + word.size < source.length
  last : source.length < k + 2 * word.size
  ascii : ((source.drop k).take word.size).all isASCII = true

/-- The text, with the byte behind the word as it is. -/
def spoiledText (word : MachineWord) (source : Bytes) (k : Nat) : Units :=
  (source.take (k + word.size)).map kTable ++
    widened ((source.drop (k + word.size)).take 1) ++
      ((source.drop (k + word.size)).drop 1).map kTable

/-- What the bytes are decoded to. -/
inductive DecodedAs (word : MachineWord) (address : Nat) (source : Bytes) : Units → Prop
  | plain (h : ∀ k, ¬ Spoils word address source k) :
    DecodedAs word address source (source.map kTable)
  | spoiled (k : Nat) (h : Spoils word address source k) :
    DecodedAs word address source (spoiledText word source k)

section Rounds

variable {word : MachineWord} {address : Nat} {source : Bytes} {text : Units}

theorem spoils_drop {j : Nat} (hj : j ≤ source.length) (k : Nat) :
    Spoils word (address + j) (source.drop j) k ↔ Spoils word address source (j + k) := by
  constructor
  · rintro ⟨haligned, hfollows, hlast, hascii⟩
    rw [List.length_drop] at hfollows hlast
    rw [List.drop_drop] at hascii
    exact ⟨by rwa [← Nat.add_assoc], by omega, by omega, hascii⟩
  · rintro ⟨haligned, hfollows, hlast, hascii⟩
    refine ⟨by rwa [Nat.add_assoc], ?_, ?_, by rwa [List.drop_drop]⟩
    · rw [List.length_drop]
      omega
    · rw [List.length_drop]
      omega

/-- The bytes in front are decoded by the table. -/
theorem DecodedAs.behind {j : Nat} (hj : j ≤ source.length)
    (hno : ∀ k, k < j → ¬ Spoils word address source k)
    (h : DecodedAs word (address + j) (source.drop j) text) :
    DecodedAs word address source ((source.take j).map kTable ++ text) := by
  cases h with
  | plain h =>
    rw [← List.map_append, List.take_append_drop]
    refine .plain fun k hk => ?_
    by_cases hlt : k < j
    · exact hno k hlt hk
    · obtain ⟨m, rfl⟩ := Nat.exists_eq_add_of_le (Nat.le_of_not_lt hlt)
      exact h m ((spoils_drop hj m).mpr hk)
  | spoiled k h =>
    have htext : (source.take j).map kTable ++ spoiledText word (source.drop j) k =
        spoiledText word source (j + k) := by
      unfold spoiledText
      rw [List.drop_drop, Nat.add_assoc j k, List.take_add (i := j), List.map_append]
      simp only [List.append_assoc]
    rw [htext]
    exact .spoiled (j + k) ((spoils_drop hj k).mp h)

theorem DecodedAs.of_short (hshort : source.length ≤ word.size)
    (h : DecodedAs word address source text) : text = source.map kTable := by
  cases h with
  | plain _ => rfl
  | spoiled k h =>
    have := h.follows
    omega

/-- The aligned positions behind an aligned address are a word apart. -/
theorem Spoils.add_le {k n : Nat} (haligned : (address + n) % word.size = 0)
    (h : Spoils word address source k) (hlt : k < n) : k + word.size ≤ n := by
  have hmod : address + k ≡ address + n [MOD word.size] := h.aligned.trans haligned.symm
  have hle := hmod.add_le_of_lt (Nat.add_lt_add_left hlt address)
  omega

/-- The words from an aligned address on, and the byte behind them. -/
theorem decoded_words (source : Bytes) (haligned : address % word.size = 0) {n words : Nat}
    (hwords : words = source.length / word.size) (hn : n = copyWords word words source) :
    (source.drop n = [] → DecodedAs word address source (widened (source.take n))) ∧
      ∀ b behind text, source.drop n = b :: behind → (n = 0 → isASCII b = true) →
        DecodedAs word (address + n + 1) behind text →
        DecodedAs word address source (widened (source.take n) ++
          [if decide (n < words * word.size) then kTable b else b.toUInt16] ++ text) := by
  have hsize : words * word.size ≤ source.length := by
    rw [hwords]
    exact Nat.div_mul_le_self _ _
  have hrest : source.length < words * word.size + word.size := by
    rw [hwords]
    exact Nat.lt_div_mul_add word.size_pos
  obtain ⟨hlength, hall⟩ := copyWords_spec hsize
  obtain ⟨hmod, hle, hstop⟩ := copyWords_stops word words source
  rw [← hn] at hlength hall hmod hle hstop
  have hpos := word.size_pos
  have hbehindWords : (address + n) % word.size = 0 := by
    rw [Nat.add_mod, haligned, hmod, Nat.zero_add, Nat.zero_mod]
  rw [widened_eq hall]
  refine ⟨fun hnil => ?_, fun b behind text hbehind hb hnext => ?_⟩
  · have hend := List.drop_eq_nil_iff.mp hnil
    rw [List.take_of_length_le hend]
    refine .plain fun k hk => ?_
    have hfollows := hk.follows
    have hlast := hk.last
    have hfirst := hk.add_le hbehindWords (by omega)
    -- two words end at the end of the bytes, and a byte should follow the first
    have hword : address + (k + word.size) ≡ address + n [MOD word.size] := by
      refine Eq.trans ?_ hbehindWords.symm
      rw [← Nat.add_assoc, Nat.add_mod_right]
      exact hk.aligned
    have hsecond := hword.add_le_of_lt (by omega)
    omega
  · obtain ⟨htake, hlt⟩ := take_succ_of_drop hbehind
    have hdrop : source.drop (n + 1) = behind := by
      rw [← List.drop_drop, hbehind]
      rfl
    by_cases hwordsEnd : n < words * word.size
    · rw [decide_eq_true hwordsEnd, if_pos rfl]
      have hfront : (source.take n).map kTable ++ [kTable b] = (source.take (n + 1)).map kTable := by
        rw [htake, List.map_append]
        rfl
      rw [hfront]
      rw [← hdrop, Nat.add_assoc] at hnext
      have hnextWord : n + word.size ≤ words * word.size :=
        Nat.ModEq.add_le_of_lt (hmod.trans (Nat.mul_mod_left _ _).symm) hwordsEnd
      refine hnext.behind (by omega) fun k hk hspoils => ?_
      rcases Nat.lt_succ_iff_lt_or_eq.mp hk with hk | rfl
      · have hlast := hspoils.last
        have hword := hspoils.add_le hbehindWords hk
        omega
      · have hascii := hspoils.ascii
        rw [hstop hwordsEnd] at hascii
        cases hascii
    · rw [decide_eq_false hwordsEnd, if_neg Bool.false_ne_true]
      have hbehindLength : behind.length + n + 1 = source.length := by
        rw [← hdrop, List.length_drop]
        omega
      obtain rfl := hnext.of_short (by omega)
      by_cases hzero : n = 0
      · subst hzero
        rw [List.drop_zero] at hbehind
        rw [← kTable_ascii (hb rfl), List.take_zero, List.map_nil, List.nil_append,
          List.singleton_append, ← List.map_cons, ← hbehind]
        refine .plain fun k hk => ?_
        have hfollows := hk.follows
        omega
      · have hword : word.size ≤ n := by
          have hle := Nat.ModEq.add_le_of_lt ((Nat.zero_mod _).trans hmod.symm)
            (Nat.pos_of_ne_zero hzero)
          omega
        have hspoils : Spoils word address source (n - word.size) := by
          refine ⟨?_, ?_, ?_, ?_⟩
          · rw [← Nat.add_mod_right, Nat.add_assoc, Nat.sub_add_cancel hword]
            exact hbehindWords
          · omega
          · omega
          · rw [List.all_eq_true]
            intro x hx
            have htail : (source.drop (n - word.size)).take word.size =
                (source.take n).drop (n - word.size) := by
              rw [List.drop_take, Nat.sub_sub_self hword]
            rw [htail] at hx
            exact List.all_eq_true.mp hall x (List.mem_of_mem_drop hx)
        have htext : (source.take n).map kTable ++ [b.toUInt16] ++ behind.map kTable =
            spoiledText word source (n - word.size) := by
          unfold spoiledText
          rw [Nat.sub_add_cancel hword, hbehind]
          rfl
        rw [htext]
        exact .spoiled (n - word.size) hspoils

/-- **A round.** -/
theorem decoded_round (address : Nat) (first : UInt8) (rest : Bytes) :
    ((first :: rest).drop (latin1Round word address (first :: rest)).1 = [] →
        DecodedAs word address (first :: rest)
          (widened ((first :: rest).take (latin1Round word address (first :: rest)).1))) ∧
      ∀ b behind text,
        (first :: rest).drop (latin1Round word address (first :: rest)).1 = b :: behind →
        DecodedAs word (address + (latin1Round word address (first :: rest)).1 + 1) behind text →
        DecodedAs word address (first :: rest)
          (widened ((first :: rest).take (latin1Round word address (first :: rest)).1) ++
            [if (latin1Round word address (first :: rest)).2 then kTable b else b.toUInt16] ++
              text) := by
  -- one byte, with the value of the table
  have hone : (Spoils word address (first :: rest) 0 → False) → ∀ b behind text,
      (first :: rest).drop 0 = b :: behind → DecodedAs word (address + 0 + 1) behind text →
      DecodedAs word address (first :: rest) (kTable b :: text) := by
    intro hno b behind text hbehind hnext
    cases hbehind
    refine DecodedAs.behind (j := 1) (Nat.succ_pos _) (fun k hk hspoils => ?_) hnext
    obtain rfl : k = 0 := by omega
    exact hno hspoils
  unfold latin1Round
  dsimp only
  split
  · rename_i hfirst
    split
    · rename_i haligned
      obtain ⟨hend, hnext⟩ := decoded_words (first :: rest) (beq_iff_eq.mp haligned) rfl rfl
      refine ⟨hend, fun b behind text hbehind => hnext b behind text hbehind fun hzero => ?_⟩
      dsimp only at hbehind
      rw [hzero] at hbehind
      cases hbehind
      exact hfirst
    · rename_i haligned
      refine ⟨nofun, fun b behind text hbehind hnext => ?_⟩
      have hb : kTable b = b.toUInt16 := by
        cases hbehind
        exact kTable_ascii hfirst
      rw [if_neg Bool.false_ne_true, ← hb]
      refine hone (fun hspoils => haligned ?_) b behind text hbehind hnext
      exact beq_iff_eq.mpr hspoils.aligned
  · rename_i hfirst
    refine ⟨nofun, fun b behind text hbehind hnext => ?_⟩
    rw [if_pos rfl]
    refine hone (fun hspoils => hfirst ?_) b behind text hbehind hnext
    have hascii := hspoils.ascii
    rw [List.drop_zero] at hascii
    refine List.all_eq_true.mp hascii first (List.mem_take_iff_getElem.mpr ⟨0, ?_, rfl⟩)
    exact Nat.lt_min.mpr ⟨word.size_pos, Nat.succ_pos _⟩

theorem DecodedAs.nil (address : Nat) : DecodedAs word address [] [] :=
  .plain fun _ hk => absurd hk.follows (Nat.not_lt_zero _)

theorem drop_length {n : Nat} {first b : UInt8} {rest behind : Bytes} {rounds : Nat}
    (hbehind : (first :: rest).drop n = b :: behind) (hrounds : (first :: rest).length ≤ rounds + 1) :
    behind.length ≤ rounds := by
  have hlength := congrArg List.length hbehind
  simp only [List.length_drop, List.length_cons] at hlength hrounds
  omega

/-- The loop for 16-bit characters. -/
theorem loop16_decoded {rounds : Nat} (hrounds : source.length ≤ rounds) (address : Nat)
    (text : Units) :
    ∃ more, latin1Loop16 word rounds address source text = text ++ more ∧
      DecodedAs word address source more := by
  induction rounds generalizing source address text with
  | zero =>
    obtain rfl := List.length_eq_zero_iff.mp (Nat.le_zero.mp hrounds)
    exact ⟨[], (List.append_nil _).symm, .nil address⟩
  | succ rounds ih =>
    cases source with
    | nil => exact ⟨[], (List.append_nil _).symm, .nil address⟩
    | cons first rest =>
      obtain ⟨hend, hround⟩ := decoded_round address first rest
      rw [latin1Loop16]
      split
      · rename_i hnil
        exact ⟨_, rfl, hend hnil⟩
      · rename_i b behind hbehind
        obtain ⟨more, hloop, hmore⟩ := ih (drop_length hbehind hrounds)
          (address + (latin1Round word address (first :: rest)).1 + 1) _
        rw [hloop]
        refine ⟨_, ?_, hround b behind more hbehind hmore⟩
        simp only [List.append_assoc]

/-- The loop for 8-bit characters, with what becomes of its string. -/
theorem loop8_decoded {rounds : Nat} (hrounds : source.length ≤ rounds) (address : Nat)
    (text : Units) :
    ∃ more, (latin1Loop8 word rounds address source text).finish word = text ++ more ∧
      DecodedAs word address source more := by
  induction rounds generalizing source address text with
  | zero =>
    obtain rfl := List.length_eq_zero_iff.mp (Nat.le_zero.mp hrounds)
    exact ⟨[], (List.append_nil _).symm, .nil address⟩
  | succ rounds ih =>
    cases source with
    | nil => exact ⟨[], (List.append_nil _).symm, .nil address⟩
    | cons first rest =>
      obtain ⟨hend, hround⟩ := decoded_round address first rest
      rw [latin1Loop8]
      split
      · rename_i hnil
        exact ⟨_, rfl, hend hnil⟩
      · rename_i b behind hbehind
        have hnext := hround b behind
        have ih := ih (drop_length hbehind hrounds)
          (address + (latin1Round word address (first :: rest)).1 + 1)
        split
        · rename_i hlookup
          rw [if_pos hlookup] at hnext
          split
          · obtain ⟨more, hloop, hmore⟩ := loop16_decoded (Nat.le_refl behind.length)
              (address + (latin1Round word address (first :: rest)).1 + 1)
              (text ++ widened ((first :: rest).take (latin1Round word address
                (first :: rest)).1) ++ [kTable b])
            refine ⟨_, hloop.trans ?_, hnext more hbehind hmore⟩
            simp only [List.append_assoc]
          · obtain ⟨more, hloop, hmore⟩ := ih _
            refine ⟨_, hloop.trans ?_, hnext more hbehind hmore⟩
            simp only [List.append_assoc]
        · rename_i hlookup
          rw [if_neg hlookup] at hnext
          obtain ⟨more, hloop, hmore⟩ := ih _
          refine ⟨_, hloop.trans ?_, hnext more hbehind hmore⟩
          simp only [List.append_assoc]

theorem decode_decodedAs (word : MachineWord) (address : Nat) (bytes : Bytes) :
    DecodedAs word address bytes (TextCodecLatin1.decode word address bytes) := by
  obtain ⟨more, hloop, hmore⟩ := loop8_decoded (Nat.le_refl bytes.length) address []
  unfold TextCodecLatin1.decode
  rwa [hloop, List.nil_append]

/-- There is one last word. -/
theorem Spoils.unique {k k' : Nat} (h : Spoils word address source k)
    (h' : Spoils word address source k') : k = k' := by
  have hfollows := h.follows
  have hlast := h.last
  have hfollows' := h'.follows
  have hlast' := h'.last
  rcases Nat.lt_trichotomy k k' with hlt | heq | hlt
  · have hle := h.add_le h'.aligned hlt
    omega
  · exact heq
  · have hle := h'.add_le h.aligned hlt
    omega

theorem spoiledText_iff {k : Nat} (h : k + word.size < source.length) :
    spoiledText word source k = source.map kTable ↔
      kTable (source.getD (k + word.size) 0) =
        (source.getD (k + word.size) 0).toUInt16 := by
  obtain ⟨b, behind, hbehind⟩ : ∃ b behind, source.drop (k + word.size) = b :: behind := by
    refine List.exists_cons_of_ne_nil fun hnil => ?_
    have := List.drop_eq_nil_iff.mp hnil
    omega
  have hb : source.getD (k + word.size) 0 = b := by
    rw [List.getD_eq_getElem?_getD, ← List.head?_drop, hbehind]
    rfl
  have hmap : source.map kTable =
      (source.take (k + word.size)).map kTable ++ kTable b :: behind.map kTable := by
    rw [← List.map_cons, ← hbehind, ← List.map_append, List.take_append_drop]
  have htext : spoiledText word source k =
      (source.take (k + word.size)).map kTable ++ b.toUInt16 :: behind.map kTable := by
    unfold spoiledText
    rw [hbehind, List.append_assoc]
    rfl
  rw [hb, hmap, htext, List.append_cancel_left_eq, List.cons.injEq]
  exact ⟨fun heq => heq.1.symm, fun heq => ⟨heq.symm, rfl⟩⟩

end Rounds

/-- The table has the byte behind the last word as it is. -/
def Unspoiled (word : MachineWord) (address : Nat) (bytes : Bytes) : Prop :=
  ∀ k, Spoils word address bytes k →
    kTable (bytes.getD (k + word.size) 0) = (bytes.getD (k + word.size) 0).toUInt16

theorem decode_eq_map_iff (word : MachineWord) (address : Nat) (bytes : Bytes) :
    TextCodecLatin1.decode word address bytes = bytes.map kTable ↔
      Unspoiled word address bytes := by
  have hdecoded := decode_decodedAs word address bytes
  generalize TextCodecLatin1.decode word address bytes = text at hdecoded
  cases hdecoded with
  | plain h => exact iff_of_true rfl fun k hk => absurd hk (h k)
  | spoiled k h =>
    rw [spoiledText_iff h.follows]
    exact ⟨fun heq k' hk' => h.unique hk' ▸ heq, fun hall => hall k h⟩

theorem decode_length (word : MachineWord) (address : Nat) (bytes : Bytes) :
    (TextCodecLatin1.decode word address bytes).length = bytes.length := by
  have hdecoded := decode_decodedAs word address bytes
  generalize TextCodecLatin1.decode word address bytes = text at hdecoded
  cases hdecoded with
  | plain _ => exact List.length_map _
  | spoiled k h =>
    have hfollows := h.follows
    unfold spoiledText widened
    simp only [List.length_append, List.length_map, List.length_take, List.length_drop]
    omega

/-- **The chunks of windows-1252.** They are decoded by the table exactly when none of them has an
ASCII word at its last aligned address, and behind it a byte that the table changes. -/
theorem latin1_chunks_iff (word : MachineWord) (address : Bytes → Nat) (flush : FlushBehavior)
    (stopOnError : Bool) (chunks : List Bytes) :
    (TextCodecLatin1.textCodec word address).decodeChunks flush stopOnError () chunks =
        chunks.flatten.map kTable ↔
      ∀ chunk ∈ chunks, Unspoiled word (address chunk) chunk := by
  induction chunks with
  | nil => exact iff_of_true rfl (List.forall_mem_nil _)
  | cons chunk chunks ih =>
    have hcons : (TextCodecLatin1.textCodec word address).decodeChunks flush stopOnError ()
        (chunk :: chunks) = TextCodecLatin1.decode word (address chunk) chunk ++
          (TextCodecLatin1.textCodec word address).decodeChunks flush stopOnError () chunks := by
      cases chunks with
      | nil => exact (List.append_nil _).symm
      | cons next chunks => rfl
    rw [hcons, List.flatten_cons, List.map_append, List.forall_mem_cons, ← ih,
      ← decode_eq_map_iff]
    constructor
    · intro heq
      exact List.append_inj heq (by rw [decode_length, List.length_map])
    · rintro ⟨hchunk, hrest⟩
      rw [hchunk, hrest]

/-- The euro sign of the ninth byte. -/
example :
    TextCodecLatin1.decode .bits64 0 (ascii "12345678" ++ [0x80]) =
      widened (ascii "12345678\u0080") ∧
    TextCodecLatin1.decode .bits64 1 (ascii "12345678" ++ [0x80]) =
      widened (ascii "12345678") ++ [0x20AC] := by
  decide +kernel

/-! ## Encoded texts -/

/-- A character has a byte. -/
def encodable (c : Nat) : Bool := (List.range 256).any fun i => (kTable (UInt8.ofNat i)).toNat == c

/-- The text that is encoded: characters without a byte are replaced. -/
def replaceUnencodables (characters : Units) (handling : UnencodableHandling) : Units :=
  (nextCharacters characters).flatMap fun c =>
    if encodable c then [UInt16.ofNat c] else widened (getUnencodableReplacement c handling)

theorem kTable_other {b : UInt8} (h : ¬ (0x80 ≤ b.toNat ∧ b.toNat < 0xA0)) :
    (kTable b).toNat = b.toNat := by
  unfold kTable
  rw [if_neg, UInt8.toNat_toUInt16]
  intro hwindows
  have hlow := UInt8.le_iff_toNat_le.mp hwindows.1
  have hhigh := UInt8.lt_iff_toNat_lt.mp hwindows.2
  exact h ⟨hlow, hhigh⟩

theorem windows_range {c : Nat} (hc : c < 0x100) : c &&& 0xE0 = 0x80 ↔ 0x80 ≤ c ∧ c < 0xA0 := by
  have hall : ∀ c : Fin 0x100, c.val &&& 0xE0 = 0x80 ↔ 0x80 ≤ c.val ∧ c.val < 0xA0 := by
    decide +kernel
  exact hall ⟨c, hc⟩

theorem mem_encodable {c : Nat} : encodable c = true ↔ ∃ b, (kTable b).toNat = c := by
  unfold encodable
  rw [List.any_eq_true]
  constructor
  · rintro ⟨i, -, hi⟩
    exact ⟨_, beq_iff_eq.mp hi⟩
  · rintro ⟨b, hb⟩
    exact ⟨b.toNat, List.mem_range.mpr b.toNat_lt, by rwa [UInt8.ofNat_toNat, beq_iff_eq]⟩

/-- The byte of a character is the one that the table has it for. -/
theorem windowsByte_some {c : Nat} {b : UInt8} (h : windowsByte c = some b) :
    (kTable b).toNat = c := by
  unfold windowsByte at h
  dsimp only at h
  split at h
  · unfold lookUpWindows at h
    have hfound := List.find?_some h
    exact beq_iff_eq.mp hfound
  · rename_i hplain
    obtain ⟨hsame, hrange⟩ := not_or.mp hplain
    rw [not_not] at hsame
    have hb : b.toNat = c := by rw [← Option.some.inj h, hsame]
    have hc : c < 0x100 := hb ▸ b.toNat_lt
    rw [kTable_other, hb]
    rwa [hb, ← windows_range hc]

theorem windowsByte_none {c : Nat} (h : windowsByte c = none) : encodable c = false := by
  rw [Bool.eq_false_iff]
  intro hencodable
  obtain ⟨b, rfl⟩ := mem_encodable.mp hencodable
  unfold windowsByte at h
  dsimp only at h
  split at h
  · rename_i hlook
    unfold lookUpWindows at h
    rw [List.find?_eq_none] at h
    by_cases hb : 0x80 ≤ b.toNat ∧ b.toNat < 0xA0
    · refine h b (List.mem_map.mpr ⟨b.toNat - 0x80, List.mem_range.mpr (by omega), ?_⟩)
        (beq_iff_eq.mpr rfl)
      rw [Nat.add_sub_cancel' hb.1, UInt8.ofNat_toNat]
    · rw [kTable_other hb, UInt8.ofNat_toNat, windows_range b.toNat_lt] at hlook
      exact hlook.elim (fun hne => hne rfl) hb
  · cases h

theorem digitChar_lt (n : Nat) : (Nat.digitChar n).toNat < 0x80 := by
  by_cases hn : n < 17
  · have hall : ∀ n : Fin 17, (Nat.digitChar n.val).toNat < 0x80 := by decide
    exact hall ⟨n, hn⟩
  · unfold Nat.digitChar
    simp only [show ∀ k, k < 17 → n ≠ k from fun k hk heq => hn (heq ▸ hk), Nat.reduceLT, if_false]
    decide

theorem toDigitsCore_lt (base fuel n : Nat) {digits : List Char}
    (h : ∀ c ∈ digits, c.toNat < 0x80) :
    ∀ c ∈ Nat.toDigitsCore base fuel n digits, c.toNat < 0x80 := by
  induction fuel generalizing n digits with
  | zero => exact h
  | succ fuel ih =>
    have hnext : ∀ c ∈ Nat.digitChar (n % base) :: digits, c.toNat < 0x80 :=
      List.forall_mem_cons.mpr ⟨digitChar_lt _, h⟩
    rw [Nat.toDigitsCore]
    split
    · exact hnext
    · exact ih _ hnext

theorem digitBytes_ascii (base codePoint : Nat) : (digitBytes base codePoint).all isASCII = true := by
  unfold digitBytes
  rw [List.all_map, List.all_eq_true]
  intro c hc
  have hlt := toDigitsCore_lt base (codePoint + 1) codePoint (List.forall_mem_nil _) c hc
  unfold isASCII
  rw [Function.comp_apply, decide_eq_true_iff, UInt8.lt_iff_toNat_lt]
  show c.toNat % 256 < 0x80
  omega

theorem replacement_ascii (codePoint : Nat) (handling : UnencodableHandling) :
    (getUnencodableReplacement codePoint handling).all isASCII = true := by
  cases handling with
  | noUnencodables => rfl
  | _ =>
    unfold getUnencodableReplacement
    rw [List.all_append, List.all_append, digitBytes_ascii]
    decide

theorem encodeComplex_map (units : Units) (handling : UnencodableHandling) :
    (encodeComplexWindowsLatin1 units handling).map kTable = replaceUnencodables units handling := by
  unfold encodeComplexWindowsLatin1 replaceUnencodables
  rw [List.map_flatMap]
  congr 1
  funext c
  generalize hbyte : windowsByte c = byte
  cases byte with
  | none =>
    rw [windowsByte_none hbyte, if_neg Bool.false_ne_true]
    exact (widened_eq (replacement_ascii c handling)).symm
  | some b =>
    have hb := windowsByte_some hbyte
    rw [if_pos (mem_encodable.mpr ⟨b, hb⟩), ← hb, UInt16.ofNat_toNat]
    rfl

theorem lt_of_and_eq_zero {c : UInt16} (h : c &&& 0xFF80 = 0) : c.toNat < 0x80 := by
  have hbits : c.toNat &&& 0xFF80 = 0 := congrArg UInt16.toNat h
  have hshift : (c.toNat &&& 0xFF80) >>> 7 = 0 := congrArg (· >>> 7) hbits
  rw [Nat.shiftRight_and_distrib, show 0xFF80 >>> 7 = 2 ^ 9 - 1 from rfl,
    Nat.and_two_pow_sub_one_eq_mod, Nat.shiftRight_eq_div_pow] at hshift
  have := c.toNat_lt
  omega

/-- No character of an ASCII text has a high bit. -/
theorem foldl_or {units : Units} {n : UInt16} (h : units.foldl (· ||| ·) n &&& 0xFF80 = 0) :
    n &&& 0xFF80 = 0 ∧ ∀ c ∈ units, c.toNat < 0x80 := by
  induction units generalizing n with
  | nil => exact ⟨h, List.forall_mem_nil _⟩
  | cons c units ih =>
    obtain ⟨hor, hrest⟩ := ih h
    have hboth : n &&& 0xFF80 ||| c &&& 0xFF80 = 0 := by
      rw [← hor]
      apply UInt16.toNat_inj.mp
      rw [UInt16.toNat_or, UInt16.toNat_and, UInt16.toNat_and, UInt16.toNat_and, UInt16.toNat_or]
      exact (Nat.and_or_distrib_right _ _ _).symm
    obtain ⟨hn, hc⟩ := UInt16.or_eq_zero_iff.mp hboth
    exact ⟨hn, List.forall_mem_cons.mpr ⟨lt_of_and_eq_zero hc, hrest⟩⟩

theorem nextCharacters_plain {units : Units} (h : ∀ c ∈ units, c.toNat < 0x80) :
    nextCharacters units = units.map UInt16.toNat := by
  fun_induction nextCharacters units with
  | case1 => rfl
  | case2 c => rfl
  | case3 c c2 rest hpair ih =>
    have hlow := h c List.mem_cons_self
    have hlead := isLead_iff.mp hpair.1
    omega
  | case4 c c2 rest hpair ih =>
    rw [ih (List.forall_mem_cons.mp h).2]
    rfl

/-- **The fast path agrees.** -/
theorem encode_eq (units : Units) (handling : UnencodableHandling) :
    TextCodecLatin1.encode units handling = encodeComplexWindowsLatin1 units handling := by
  unfold TextCodecLatin1.encode
  split
  · rename_i hored
    obtain ⟨-, hlow⟩ := foldl_or hored
    unfold encodeComplexWindowsLatin1
    rw [nextCharacters_plain hlow, List.flatMap_map]
    clear hored
    induction units with
    | nil => rfl
    | cons c units ih =>
      obtain ⟨hlt, hrest⟩ := List.forall_mem_cons.mp hlow
      have hbyte : windowsByte c.toNat = some c.toUInt8 := by
        unfold windowsByte
        dsimp only
        rw [if_neg]
        · rfl
        · rw [windows_range (by omega), UInt8.toNat_ofNat', Nat.mod_eq_of_lt (by omega)]
          omega
      rw [List.map_cons, List.flatMap_cons, hbyte, ih hrest]
      rfl
  · rfl

/-- **The round trip.** An encoded text is decoded to the text, with the characters that have no byte
replaced, exactly when the byte behind its last ASCII word is not one that the table changes. -/
theorem latin1_roundTrip_iff (word : MachineWord) (address : Nat) (units : Units)
    (handling : UnencodableHandling) :
    TextCodecLatin1.decode word address (TextCodecLatin1.encode units handling) =
        replaceUnencodables units handling ↔
      Unspoiled word address (TextCodecLatin1.encode units handling) := by
  rw [← decode_eq_map_iff, encode_eq, encodeComplex_map]

end Blinkit.Text
