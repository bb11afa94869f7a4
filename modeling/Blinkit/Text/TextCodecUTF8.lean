import Blinkit.Text.ASCIIFastPath
import Blinkit.Text.Surrogates
import Mathlib.Algebra.Group.Int.Defs
import Mathlib.Algebra.Group.Nat.Defs

/-!
# The UTF-8 codec

Translation of `text_codec_utf8.cc`. A call decodes into an 8-bit string, and starts over with a
16-bit string where a character does not fit; a sequence that the bytes of a call do not complete is
kept in `partial_sequence_`.

* `decodeNonASCIISequence`, `appendCharacter` — one sequence of bytes, and its code units.
* `handlePartialSequence8`, `handlePartialSequence16` — the two `HandlePartialSequence`.
* `decodeLoop8`, `decodeLoop16` — the loops over the source.
* `TextCodecUTF8.decode` — `Decode`, for bytes at an address.
* `encode` — `EncodeCommon`.

A loop takes at least one byte in each of its rounds.
-/

set_option autoImplicit false

namespace Blinkit.Text

/-! ## One sequence -/

def kNonCharacter1 : Int := -1
def kNonCharacter2 : Int := -2
def kNonCharacter3 : Int := -3

def isNonCharacter (character : Int) : Bool :=
  decide (kNonCharacter3 ≤ character ∧ character ≤ kNonCharacter1)

/-- `NonASCIISequenceLength`, whose table has 0 for ASCII and above `0xF4`. -/
def nonASCIISequenceLength (firstByte : UInt8) : Nat :=
  if firstByte < 0x80 then 0
  else if firstByte < 0xE0 then 2
  else if firstByte < 0xF0 then 3
  else if firstByte < 0xF5 then 4
  else 0

/-- A byte lies outside of a range. -/
def outside (b low high : UInt8) : Bool := decide (b < low ∨ high < b)

/-- The range of the second byte behind `0xE0`, `0xED`, `0xF0`, `0xF4` and other bytes. -/
def secondOutside (first second : UInt8) : Bool :=
  if first = 0xE0 then outside second 0xA0 0xBF
  else if first = 0xED then outside second 0x80 0x9F
  else if first = 0xF0 then outside second 0x90 0xBF
  else if first = 0xF4 then outside second 0x80 0x8F
  else outside second 0x80 0xBF

/-- `DecodeNonASCIISequence`, for the bytes from the first one on. -/
def decodeNonASCIISequence (s : Bytes) (length : Nat) : Int :=
  let b (i : Nat) : UInt8 := s.getD i 0
  let v (i : Nat) : Nat := (b i).toNat
  if length = 2 then
    if b 0 < 0xC2 then kNonCharacter1
    else if outside (b 1) 0x80 0xBF then kNonCharacter1
    else ((v 0 <<< 6 + v 1 : Nat) : Int) - 0x3080
  else if length = 3 then
    if secondOutside (b 0) (b 1) then kNonCharacter1
    else if outside (b 2) 0x80 0xBF then kNonCharacter2
    else ((v 0 <<< 12 + v 1 <<< 6 + v 2 : Nat) : Int) - 0xE2080
  else
    if secondOutside (b 0) (b 1) then kNonCharacter1
    else if outside (b 2) 0x80 0xBF then kNonCharacter2
    else if outside (b 3) 0x80 0xBF then kNonCharacter3
    else ((v 0 <<< 18 + v 1 <<< 12 + v 2 <<< 6 + v 3 : Nat) : Int) - 0x3C82080

/-- `AppendCharacter`: one code unit, or the two of `U16_LEAD` and `U16_TRAIL`. -/
def appendCharacter (character : Nat) : Units :=
  if character ≤ 0xFFFF then [UInt16.ofNat character]
  else [UInt16.ofNat (character >>> 10 + 0xD7C0), UInt16.ofNat (character &&& 0x3FF ||| 0xDC00)]

/-! ## Sequences that a call left behind -/

/-- `HandlePartialSequence<LChar>`, with the bytes behind the sequence and the characters so far. -/
structure Handled8 where
  upConvert : Bool
  partialSequence : Bytes
  source : Bytes
  text : Units

/-- `HandlePartialSequence<LChar>`. -/
def handlePartialSequence8 (flush : Bool) : Nat → Bytes → Bytes → Units → Handled8
  | 0, sequence, source, text => ⟨false, sequence, source, text⟩
  | _ + 1, [], source, text => ⟨false, [], source, text⟩
  | rounds + 1, first :: rest, source, text =>
    if isASCII first then handlePartialSequence8 flush rounds rest source (text ++ [first.toUInt16])
    else
      let count := nonASCIISequenceLength first
      if count = 0 then ⟨true, first :: rest, source, text⟩
      else if count > rest.length + 1 + source.length then
        if !flush then ⟨false, first :: rest ++ source, source, text⟩
        else ⟨true, first :: rest, source, text⟩
      else
        let missing := count - (rest.length + 1)
        let sequence := first :: rest ++ source.take missing
        let character := decodeNonASCIISequence sequence count
        -- `character & ~0xff`
        if character < 0 ∨ 0xFF < character then ⟨true, sequence, source.drop missing, text⟩
        else
          -- the bytes behind the character are not moved to the front
          handlePartialSequence8 flush rounds (sequence.take (sequence.length - count))
            (source.drop missing) (text ++ [UInt16.ofNat character.toNat])

structure Handled16 where
  partialSequence : Bytes
  source : Bytes
  text : Units
  sawError : Bool

/-- `HandlePartialSequence<UChar>`, with `HandleError` and `ConsumePartialSequenceBytes`. -/
def handlePartialSequence16 (flush stopOnError : Bool) :
    Nat → Bytes → Bytes → Units → Bool → Handled16
  | 0, sequence, source, text, sawError => ⟨sequence, source, text, sawError⟩
  | _ + 1, [], source, text, sawError => ⟨[], source, text, sawError⟩
  | rounds + 1, first :: rest, source, text, sawError =>
    if isASCII first then
      handlePartialSequence16 flush stopOnError rounds rest source (text ++ [first.toUInt16])
        sawError
    else
      let count := nonASCIISequenceLength first
      if count = 0 then
        if stopOnError then ⟨first :: rest, source, text, true⟩
        else handlePartialSequence16 flush stopOnError rounds rest source
          (text ++ [kReplacementCharacter]) true
      else if count > rest.length + 1 + source.length then
        if !flush then ⟨first :: rest ++ source, source, text, sawError⟩
        else if stopOnError then ⟨first :: rest, source, text, true⟩
        else handlePartialSequence16 flush stopOnError rounds rest source
          (text ++ [kReplacementCharacter]) true
      else
        let missing := count - (rest.length + 1)
        let sequence := first :: rest ++ source.take missing
        let character := decodeNonASCIISequence sequence count
        if isNonCharacter character then
          if stopOnError then ⟨sequence, source.drop missing, text, true⟩
          else handlePartialSequence16 flush stopOnError rounds
            (sequence.drop (-character).toNat) (source.drop missing)
            (text ++ [kReplacementCharacter]) true
        else
          -- the bytes behind the character are not moved to the front
          handlePartialSequence16 flush stopOnError rounds
            (sequence.take (sequence.length - count)) (source.drop missing)
            (text ++ appendCharacter character.toNat) sawError

/-! ## The loops over the source -/

/-- The 8-bit string is completed, or the 16-bit string is started. -/
inductive Pass8 where
  | ended (partialSequence : Bytes) (text : Units) (sawError : Bool)
  | upConvert (partialSequence source : Bytes) (text : Units) (sawError : Bool)

/-- `while (source < end)`, for 8-bit characters. -/
def decodeLoop8 (word : MachineWord) (stopOnError : Bool) : Nat → Nat → Bytes → Units → Bool → Pass8
  | 0, _, _, text, sawError => .ended [] text sawError
  | _ + 1, _, [], text, sawError => .ended [] text sawError
  | rounds + 1, address, first :: rest, text, sawError =>
    let source := first :: rest
    if isASCII first then
      let n := asciiRun word address source
      decodeLoop8 word stopOnError rounds (address + n) (source.drop n)
        (text ++ widened (source.take n)) sawError
    else
      let count := nonASCIISequenceLength first
      if count > source.length then .ended source text sawError
      else
        let character := if count = 0 then kNonCharacter1 else decodeNonASCIISequence source count
        if isNonCharacter character then
          if stopOnError then .ended [] text true else .upConvert [] source text true
        else if 0xFF < character then .upConvert [] source text sawError
        else decodeLoop8 word stopOnError rounds (address + count) (source.drop count)
          (text ++ [UInt16.ofNat character.toNat]) sawError

/-- What the 16-bit string is decoded to, with the sequence that is kept. -/
structure Pass16 where
  partialSequence : Bytes
  text : Units
  sawError : Bool

/-- `while (source < end)`, for 16-bit characters. -/
def decodeLoop16 (word : MachineWord) (stopOnError : Bool) :
    Nat → Nat → Bytes → Units → Bool → Pass16
  | 0, _, _, text, sawError => ⟨[], text, sawError⟩
  | _ + 1, _, [], text, sawError => ⟨[], text, sawError⟩
  | rounds + 1, address, first :: rest, text, sawError =>
    let source := first :: rest
    if isASCII first then
      let n := asciiRun word address source
      decodeLoop16 word stopOnError rounds (address + n) (source.drop n)
        (text ++ widened (source.take n)) sawError
    else
      let count := nonASCIISequenceLength first
      if count > source.length then ⟨source, text, sawError⟩
      else
        let character := if count = 0 then kNonCharacter1 else decodeNonASCIISequence source count
        if isNonCharacter character then
          if stopOnError then ⟨[], text, true⟩
          else
            let broken := (-character).toNat
            decodeLoop16 word stopOnError rounds (address + broken) (source.drop broken)
              (text ++ [kReplacementCharacter]) true
        else decodeLoop16 word stopOnError rounds (address + count) (source.drop count)
          (text ++ appendCharacter character.toNat) sawError

/-- `do … while (do_flush && partial_sequence_size_)`, for the 8-bit string. -/
def decode8 (word : MachineWord) (doFlush stopOnError : Bool) :
    Nat → Nat → Bytes → Bytes → Units → Bool → Pass8
  | 0, _, sequence, _, text, sawError => .ended sequence text sawError
  | rounds + 1, address, sequence, source, text, sawError =>
    let h := handlePartialSequence8 doFlush (sequence.length + source.length) sequence source text
    -- the characters of the handler are dropped when it asks for a 16-bit string
    if h.upConvert then .upConvert h.partialSequence h.source text sawError
    else if h.partialSequence ≠ [] then .ended h.partialSequence h.text sawError
    else
      let address := address + (source.length - h.source.length)
      match decodeLoop8 word stopOnError h.source.length address h.source h.text sawError with
      | .upConvert sequence source text sawError => .upConvert sequence source text sawError
      | .ended sequence text sawError =>
        if doFlush ∧ sequence ≠ [] then
          decode8 word doFlush stopOnError rounds (address + h.source.length) sequence []
            text sawError
        else .ended sequence text sawError

/-- `do … while (do_flush && partial_sequence_size_)`, for the 16-bit string. -/
def decode16 (word : MachineWord) (doFlush stopOnError : Bool) :
    Nat → Nat → Bytes → Bytes → Units → Bool → Pass16
  | 0, _, sequence, _, text, sawError => ⟨sequence, text, sawError⟩
  | rounds + 1, address, sequence, source, text, sawError =>
    let h := handlePartialSequence16 doFlush stopOnError (sequence.length + source.length) sequence
      source text sawError
    if h.partialSequence ≠ [] then ⟨h.partialSequence, h.text, h.sawError⟩
    else
      let address := address + (source.length - h.source.length)
      let r := decodeLoop16 word stopOnError h.source.length address h.source h.text h.sawError
      if doFlush ∧ r.partialSequence ≠ [] then
        decode16 word doFlush stopOnError rounds (address + h.source.length) r.partialSequence []
          r.text r.sawError
      else r

/-- `TextCodecUTF8`: the bytes of `partial_sequence_`. -/
structure TextCodecUTF8 where
  partialSequence : Bytes
  deriving DecidableEq

namespace TextCodecUTF8

/-- The constructor. -/
def create : TextCodecUTF8 := ⟨[]⟩

/-- The rounds of the outer loop of `Decode`: bytes that are left behind are handled in a second
one. -/
def outerRounds : Nat := 2

/-- `Decode`, of bytes at an address. -/
def decode (word : MachineWord) (address : Nat) (codec : TextCodecUTF8) (bytes : Bytes)
    (flush : FlushBehavior) (stopOnError : Bool) : Decoded TextCodecUTF8 :=
  let doFlush : Bool := flush != .doNotFlush
  match decode8 word doFlush stopOnError outerRounds address codec.partialSequence bytes []
    false with
  | .ended sequence text sawError => ⟨⟨sequence⟩, text, sawError⟩
  | .upConvert sequence source text sawError =>
    let r := decode16 word doFlush stopOnError outerRounds
      (address + (bytes.length - source.length)) sequence source text sawError
    ⟨⟨r.partialSequence⟩, r.text, r.sawError⟩

/-- The codec. The bytes of a call may lie anywhere, but equal bytes lie at the same address in
every call. -/
def textCodec (word : MachineWord) (address : Bytes → Nat) : TextCodec TextCodecUTF8 where
  decode codec bytes flush stopOnError := codec.decode word (address bytes) bytes flush stopOnError

end TextCodecUTF8

/-! ## Encoding -/

/-- `U8_APPEND_UNSAFE`. -/
def appendUTF8 (c : Nat) : Bytes :=
  if c ≤ 0x7F then [UInt8.ofNat c]
  else if c ≤ 0x7FF then [UInt8.ofNat (c >>> 6 ||| 0xC0), UInt8.ofNat (c &&& 0x3F ||| 0x80)]
  else if c ≤ 0xFFFF then
    [UInt8.ofNat (c >>> 12 ||| 0xE0), UInt8.ofNat (c >>> 6 &&& 0x3F ||| 0x80),
      UInt8.ofNat (c &&& 0x3F ||| 0x80)]
  else
    [UInt8.ofNat (c >>> 18 ||| 0xF0), UInt8.ofNat (c >>> 12 &&& 0x3F ||| 0x80),
      UInt8.ofNat (c >>> 6 &&& 0x3F ||| 0x80), UInt8.ofNat (c &&& 0x3F ||| 0x80)]

/-- A surrogate becomes the replacement character. -/
def withoutSurrogate (character : Nat) : Nat :=
  if 0xD800 ≤ character ∧ character ≤ 0xDFFF then kReplacementCharacter.toNat else character

/-- `TextCodecUTF8::EncodeCommon`. -/
def TextCodecUTF8.encode (characters : Units) : Bytes :=
  ((nextCharacters characters).map withoutSurrogate).flatMap appendUTF8

end Blinkit.Text
