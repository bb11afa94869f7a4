import Blinkit.Text.DecoderChunks
import Blinkit.Text.TextCodecLatin1
import Blinkit.Text.TextCodecUTF16
import Blinkit.Text.UTF8RoundTrip

/-!
# The text of a resource

The decoder of a resource with the codecs of UTF-8, UTF-16 and windows-1252.

* `AnyCodec`, `AnyCodec.newTextCodec` — the codec of an encoding, as it is registered.
* `Waiting.decodeAll_pieces` — what the codec gets are the bytes behind the BOM, in some chunks.
* `UnicodeEncoding` — an encoding that has a BOM, with its bytes and its encoder.

Principal result: `bom_roundTrip`: a text that is written behind a BOM is read from any chunks,
whatever the header says.
-/

set_option autoImplicit false

namespace Blinkit.Text

/-! ## Codecs -/

/-- The objects that the functions of the registry make. Those of other encodings are in `ω`. -/
inductive AnyCodec (ω : Type) where
  | utf8 (codec : TextCodecUTF8)
  | utf16 (codec : TextCodecUTF16)
  | latin1
  | other (codec : ω)

/-- The result of a codec, as that of another one. -/
def Decoded.map {σ τ : Type} (f : σ → τ) (d : Decoded σ) : Decoded τ :=
  ⟨f d.codec, d.text, d.sawError⟩

/-- A codec that decodes as another one gives the same texts. -/
theorem TextCodec.decodeChunks_map {σ τ : Type} {c : TextCodec σ} {c' : TextCodec τ} {f : σ → τ}
    (h : ∀ s bytes flush stopOnError,
      c'.decode (f s) bytes flush stopOnError = (c.decode s bytes flush stopOnError).map f)
    (flush : FlushBehavior) (stopOnError : Bool) (s : σ) (chunks : List Bytes) :
    c'.decodeChunks flush stopOnError (f s) chunks = c.decodeChunks flush stopOnError s chunks := by
  induction chunks generalizing s with
  | nil => rfl
  | cons chunk chunks ih =>
    cases chunks with
    | nil => exact congrArg Decoded.text (h s chunk flush stopOnError)
    | cons next chunks =>
      have hnext := h s chunk .doNotFlush stopOnError
      rw [c.decodeChunks_cons flush stopOnError s chunk (List.cons_ne_nil _ _),
        c'.decodeChunks_cons flush stopOnError (f s) chunk (List.cons_ne_nil _ _), hnext, ← ih]
      rfl

section Codecs

variable {ω μ : Type} (word : MachineWord) (address : Bytes → Nat) (q : Platform ω μ)

/-- `Decode` of the codec that there is. -/
def anyTextCodec : TextCodec (AnyCodec ω) where
  decode codec bytes flush stopOnError :=
    match codec with
    | .utf8 c => ((TextCodecUTF8.textCodec word address).decode c bytes flush stopOnError).map .utf8
    | .utf16 c => (TextCodecUTF16.textCodec.decode c bytes flush stopOnError).map .utf16
    | .latin1 =>
      ((TextCodecLatin1.textCodec word address).decode () bytes flush stopOnError).map fun _ =>
        .latin1
    | .other c => (q.codec.decode c bytes flush stopOnError).map .other

/-- `NewTextCodec`: the function that is registered for the name of an encoding. -/
def AnyCodec.newTextCodec (encoding : TextEncoding) : AnyCodec ω :=
  match encoding.getName.bind fun name => extendedMaps.textCodecMap.lookup name with
  | some .utf8 => .utf8 .create
  | some .utf16LE => .utf16 (.create true)
  | some .utf16BE => .utf16 (.create false)
  | some .windowsLatin1 => .latin1
  | _ => .other (q.newTextCodec encoding)

/-- A platform with these codecs; its other codecs, and the parser for charsets, are given. -/
def Platform.withCodecs : Platform (AnyCodec ω) μ where
  codec := anyTextCodec word address q
  newTextCodec := AnyCodec.newTextCodec q
  create := q.create
  checkForMetaCharset := q.checkForMetaCharset
  charset := q.charset

end Codecs

/-! ## What the codec gets -/

section Pieces

open Decoder

variable {σ μ : Type} {p : Platform σ μ} {options : TextResourceDecoderOptions} {d : Decoder σ μ}

/-- **The codec gets the bytes behind the BOM**, in some chunks. -/
theorem Decoder.Waiting.decodeAll_pieces {header : TextEncoding} {buffer : Bytes}
    (h : d.Waiting options header buffer) (hundecided : ¬ Decided options buffer)
    (hcss : options.contentType ≠ .cssContent) (chunks : List Bytes) :
    let bytes := buffer ++ chunks.flatten
    let e := encodingOfBytes options header bytes
    ∃ pieces : List Bytes, pieces ≠ [] ∧
      pieces.flatten = bytes.drop (lengthOfBom options bytes) ∧
      (d.decodeAll p options chunks).2 =
        p.codec.decodeChunks .fetchEOF (stopOnError options) (p.newTextCodec e) pieces ∧
      (d.decodeAll p options chunks).1.encoding = e := by
  induction chunks generalizing d buffer with
  | nil =>
    obtain ⟨htext, hencoding⟩ := h.decodeAll_nil (p := p) hundecided
    dsimp only
    rw [List.flatten_nil, List.append_nil, lengthOfBom_of_not_decided hundecided, List.drop_zero]
    exact ⟨[buffer], List.cons_ne_nil _ _, List.flatten_singleton, htext, hencoding⟩
  | cons chunk chunks ih =>
    dsimp only
    rw [List.flatten_cons, ← List.append_assoc, decodeAll_cons]
    by_cases hdecided : Decided options (buffer ++ chunk)
    · rw [encodingOfBytes_append hdecided, lengthOfBom_append hdecided,
        h.decode_decided hdecided]
      obtain ⟨htext, hreading⟩ := (h.atBOM (buffer ++ chunk)).decodeBehindBOM (p := p) hcss chunk
        (lengthOfBom options (buffer ++ chunk))
      obtain ⟨htexts, hencoding⟩ := hreading.decodeAll (p := p) hcss chunks
      refine ⟨(buffer ++ chunk).drop (lengthOfBom options (buffer ++ chunk)) :: (chunks ++ [[]]),
        List.cons_ne_nil _ _, ?_, ?_, hencoding⟩
      · rw [List.flatten_cons, List.flatten_append, List.drop_append_of_le_length lengthOfBom_le]
        simp
      · dsimp only
        rw [htext, htexts, ← p.codec.decodeChunks_cons .fetchEOF (stopOnError options) _ _ (by simp)]
    · obtain ⟨htext, hwaiting⟩ := h.decode_undecided (p := p) hdecided
      rw [htext, List.nil_append]
      exact ih hwaiting hdecided

end Pieces

/-! ## Texts behind a BOM -/

/-- The encodings that have a BOM. -/
inductive UnicodeEncoding where
  | utf8
  | utf16BigEndian
  | utf16LittleEndian
  deriving DecidableEq, Repr

namespace UnicodeEncoding

def encoding : UnicodeEncoding → StaticEncoding
  | .utf8 => .utf8Encoding
  | .utf16BigEndian => .utf16BigEndianEncoding
  | .utf16LittleEndian => .utf16LittleEndianEncoding

def bom : UnicodeEncoding → Bytes
  | .utf8 => [0xEF, 0xBB, 0xBF]
  | .utf16BigEndian => [0xFE, 0xFF]
  | .utf16LittleEndian => [0xFF, 0xFE]

/-- `Encode` of the codec. -/
def encode : UnicodeEncoding → Units → Bytes
  | .utf8 => TextCodecUTF8.encode
  | .utf16BigEndian => TextCodecUTF16.encode false
  | .utf16LittleEndian => TextCodecUTF16.encode true

/-- The text that is read. At the end of a fetch, the UTF-16 codec goes on waiting for the partner
of a surrogate. -/
def readBack : UnicodeEncoding → Units → Units
  | .utf8, units => replaceLoneSurrogates units
  | _, units => replaceLoneSurrogates (complete units)

end UnicodeEncoding

section RoundTrip

variable {ω μ : Type} (word : MachineWord) (address : Bytes → Nat) (q : Platform ω μ)

/-- What is registered for the name of an encoding. -/
theorem registered :
    (StaticEncoding.utf8Encoding.encoding.getName.bind fun name =>
        extendedMaps.textCodecMap.lookup name) = some .utf8 ∧
      (StaticEncoding.utf16BigEndianEncoding.encoding.getName.bind fun name =>
        extendedMaps.textCodecMap.lookup name) = some .utf16BE ∧
      (StaticEncoding.utf16LittleEndianEncoding.encoding.getName.bind fun name =>
        extendedMaps.textCodecMap.lookup name) = some .utf16LE := by
  decide +kernel

/-- The texts of the codecs that are registered for the encodings with a BOM. -/
theorem decodeChunks_unicode (u : UnicodeEncoding) (stopOnError : Bool) (units : Units)
    {pieces : List Bytes} (hne : pieces ≠ []) (hsize : ∀ piece ∈ pieces, piece.length + 1 < 2 ^ 32)
    (hpieces : pieces.flatten = u.encode units) :
    (anyTextCodec word address q).decodeChunks .fetchEOF stopOnError
        (AnyCodec.newTextCodec q u.encoding.encoding) pieces = u.readBack units := by
  obtain ⟨hutf8, hbig, hlittle⟩ := registered
  have hutf16 : ∀ littleEndian : Bool, pieces.flatten = TextCodecUTF16.encode littleEndian units →
      (anyTextCodec word address q).decodeChunks .fetchEOF stopOnError
        (.utf16 (.create littleEndian)) pieces = replaceLoneSurrogates (complete units) := by
    intro littleEndian hpieces
    rw [TextCodec.decodeChunks_map (f := AnyCodec.utf16) (fun _ _ _ _ => rfl),
      (decodeChunks_reads littleEndian .fetchEOF stopOnError hne hsize).1, hpieces,
      (plain_of_reads littleEndian .fetchEOF _).1]
    unfold plainText16
    rw [(unitsOf_encode littleEndian units).1]
    rfl
  cases u with
  | utf8 =>
    have hnew : AnyCodec.newTextCodec q UnicodeEncoding.utf8.encoding.encoding = .utf8 .create := by
      unfold AnyCodec.newTextCodec UnicodeEncoding.encoding
      rw [hutf8]
    obtain ⟨⟨hplain, herror⟩, hspared⟩ := plain_encode units
    rw [← show pieces.flatten = TextCodecUTF8.encode units from hpieces] at hplain herror hspared
    have hdecoded : (TextCodecUTF8.textCodec word address).decodeChunks .fetchEOF stopOnError
      .create
        pieces = plainText pieces.flatten :=
      (decodeChunks_plain (by decide) hne hspared fun _ => herror).1
    rw [hnew, TextCodec.decodeChunks_map (f := AnyCodec.utf8) (fun _ _ _ _ => rfl), hdecoded]
    exact hplain
  | utf16BigEndian =>
    have hnew : AnyCodec.newTextCodec q UnicodeEncoding.utf16BigEndian.encoding.encoding =
        .utf16 (.create false) := by
      unfold AnyCodec.newTextCodec UnicodeEncoding.encoding
      rw [hbig]
    rw [hnew]
    exact hutf16 false hpieces
  | utf16LittleEndian =>
    have hnew : AnyCodec.newTextCodec q UnicodeEncoding.utf16LittleEndian.encoding.encoding =
        .utf16 (.create true) := by
      unfold AnyCodec.newTextCodec UnicodeEncoding.encoding
      rw [hlittle]
    rw [hnew]
    exact hutf16 true hpieces

/-- A BOM decides about the encoding. -/
theorem bomOf_written {options : TextResourceDecoderOptions} {u : UnicodeEncoding}
    (hbom : options.encodingDetectionOption ≠ .alwaysUseUTF8ForText ∨ u = .utf8) (rest : Bytes) :
    bomOf options (u.bom ++ rest) = some (u.encoding, u.bom.length) := by
  unfold bomOf
  cases u with
  | utf8 => rfl
  | utf16BigEndian =>
    have halways := hbom.resolve_right nofun
    rw [if_neg halways]
    rfl
  | utf16LittleEndian =>
    have halways := hbom.resolve_right nofun
    rw [if_neg halways]
    rfl

/-- The header does not count for a text that is always UTF-8. -/
theorem withHeader_always {options : TextResourceDecoderOptions}
    (halways : options.encodingDetectionOption = .alwaysUseUTF8ForText) {header : TextEncoding}
    (hvalid : header.isValid = true) {σ : Type} :
    (Decoder.withHeader options header : Decoder σ μ).encoding =
      StaticEncoding.utf8Encoding.encoding := by
  obtain ⟨hplain, hdefault⟩ := options.plain_of_always halways
  have hset : (Decoder.withHeader options header : Decoder σ μ) = .create options := by
    unfold Decoder.withHeader Decoder.setEncoding
    rw [hvalid, if_neg (by decide), if_pos halways]
  rw [hset]
  show Decoder.defaultEncoding options.contentType options.defaultEncoding = _
  unfold Decoder.defaultEncoding
  rw [hplain, hdefault, if_neg (by decide), if_neg]
  rw [bom_encodings_valid.1]
  decide

/-- **A text behind a BOM.** In any chunks a resource that is not CSS is read as the text that was
written, whatever the header says. -/
theorem bom_roundTrip (options : TextResourceDecoderOptions)
    (hcss : options.contentType ≠ .cssContent) (u : UnicodeEncoding)
    (hbom : options.encodingDetectionOption ≠ .alwaysUseUTF8ForText ∨ u = .utf8)
    {header : TextEncoding} (hvalid : header.isValid = true) (units : Units) {chunks : List Bytes}
    (hsize : chunks.flatten.length + 1 < 2 ^ 32)
    (hchunks : chunks.flatten = u.bom ++ u.encode units) :
    let d : Decoder (AnyCodec ω) μ := .withHeader options header
    let r := d.decodeAll (q.withCodecs word address) options chunks
    r.2 = u.readBack units ∧ r.1.encoding = u.encoding.encoding := by
  intro d r
  have hwaiting : d.Waiting options d.encoding [] := withHeader_waiting hvalid
  obtain ⟨pieces, hne, hpieces, htext, hencoding⟩ :=
    hwaiting.decodeAll_pieces (p := q.withCodecs word address) not_decided_nil hcss chunks
  have hfound := bomOf_written hbom (u.encode units)
  rw [List.nil_append, hchunks] at hpieces htext hencoding
  have hlength : lengthOfBom options (u.bom ++ u.encode units) = u.bom.length := by
    unfold lengthOfBom
    rw [hfound]
    rfl
  have he : encodingOfBytes options d.encoding (u.bom ++ u.encode units) = u.encoding.encoding := by
    unfold encodingOfBytes
    split
    · rename_i halways
      obtain rfl := hbom.resolve_left (not_not_intro halways)
      exact withHeader_always halways hvalid
    · rw [hfound]
      rfl
  rw [hlength, List.drop_left] at hpieces
  rw [he] at htext hencoding
  refine ⟨htext.trans ?_, hencoding⟩
  refine decodeChunks_unicode word address q u _ units hne (fun piece hpiece => ?_) hpieces
  have hle := List.Sublist.length_le (List.sublist_flatten_of_mem hpiece)
  rw [hpieces] at hle
  rw [hchunks, List.length_append] at hsize
  omega

end RoundTrip

/-- A BOM of UTF-8 that is cut, with a pair whose bytes are cut, under a header that says UTF-16. -/
theorem roundTrip_cut :
    let d : Decoder (AnyCodec Unit) Unit :=
      .withHeader (optionsFor .htmlContent) StaticEncoding.utf16BigEndianEncoding.encoding
    let r := d.decodeAll (bytePlatform.withCodecs .bits64 fun _ => 0) (optionsFor .htmlContent)
      [[0xEF], [0xBB, 0xBF, 0x41, 0xF0], [0x9F, 0x98], [0x80]]
    r.2 = [0x41, 0xD83D, 0xDE00] ∧ r.1.encoding = StaticEncoding.utf8Encoding.encoding :=
  bom_roundTrip .bits64 (fun _ => 0) bytePlatform (optionsFor .htmlContent) (by decide) .utf8
    (.inr rfl) bom_encodings_valid.2.1 [0x41, 0xD83D, 0xDE00] (by decide) (by decide +kernel)

end Blinkit.Text
