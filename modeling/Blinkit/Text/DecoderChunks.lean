import Blinkit.Text.TextResourceDecoder

/-!
# The text of a resource and its chunks

With the encoding of the HTTP header nothing but a BOM can change the encoding.

* `bomOf` — the BOM at the start of a sequence, `Decided` — enough bytes to know.
* `heldBack` — the bytes that have come before the check for a BOM can be completed.
* `Inert` — neither the check for a charset nor the detection changes the encoding.
* `ChunkInvariant` — the output of a codec does not depend on the chunks.

A decoder waits until the sequence is decided, and then reads. As CSS it waits, and drops the chunk
that decides and all behind it, so that only the bytes that were held back are decoded.

Principal result: `decodeAll_chunks_iff`.
-/

set_option autoImplicit false

namespace Blinkit.Text

variable {σ μ : Type} {p : Platform σ μ} {options : TextResourceDecoderOptions}
  {d d' : Decoder σ μ} {encoding : TextEncoding} {bytes more : Bytes} {chunks : List Bytes}

/-! ## The BOM -/

/-- The BOM at the start of a sequence: the encoding, and the length of the BOM. -/
def bomOf (options : TextResourceDecoderOptions) (bytes : Bytes) : Option (StaticEncoding × Nat) :=
  if [0xEF, 0xBB, 0xBF].isPrefixOf bytes then some (.utf8Encoding, 3)
  else if options.encodingDetectionOption = .alwaysUseUTF8ForText then none
  else if [0xFE, 0xFF].isPrefixOf bytes then some (.utf16BigEndianEncoding, 2)
  else if [0xFF, 0xFE].isPrefixOf bytes then some (.utf16LittleEndianEncoding, 2)
  else none

/-- The bytes are enough to know whether there is a BOM. -/
def Decided (options : TextResourceDecoderOptions) (bytes : Bytes) : Prop :=
  (bomOf options bytes).isSome = true ∨ maxBomLength ≤ bytes.length

instance : Decidable (Decided options bytes) :=
  inferInstanceAs (Decidable (_ ∨ _))

def lengthOfBom (options : TextResourceDecoderOptions) (bytes : Bytes) : Nat :=
  ((bomOf options bytes).map Prod.snd).getD 0

/-- The encoding of a sequence, with this encoding in the header. -/
def encodingOfBytes (options : TextResourceDecoderOptions) (header : TextEncoding) (bytes : Bytes) :
    TextEncoding :=
  if options.encodingDetectionOption = .alwaysUseUTF8ForText then header
  else ((bomOf options bytes).map fun bom => bom.1.encoding).getD header

/-- The bytes of the chunks in front of the one that decides. -/
def heldBack (options : TextResourceDecoderOptions) (buffer : Bytes) : List Bytes → Bytes
  | [] => buffer
  | chunk :: chunks =>
    if Decided options (buffer ++ chunk) then buffer
    else heldBack options (buffer ++ chunk) chunks

/-- A BOM, with its bytes. -/
theorem bomOf_eq_some {bom : StaticEncoding × Nat} (h : bomOf options bytes = some bom) :
    ∃ start rest, bytes = start ++ rest ∧ start.length = bom.2 ∧
      ∀ more, bomOf options (start ++ more) = some bom := by
  unfold bomOf at h
  have hstart : ∀ start : Bytes, start.isPrefixOf bytes = true → ∃ rest, bytes = start ++ rest := by
    intro start hprefix
    obtain ⟨rest, hrest⟩ := List.isPrefixOf_iff_prefix.mp hprefix
    exact ⟨rest, hrest.symm⟩
  split at h
  · rename_i hutf8
    cases h
    obtain ⟨rest, hrest⟩ := hstart _ hutf8
    refine ⟨_, rest, hrest, rfl, fun more => ?_⟩
    simp [bomOf, List.isPrefixOf]
  · split at h
    · cases h
    · rename_i halways
      split at h
      · rename_i hbig
        cases h
        obtain ⟨rest, hrest⟩ := hstart _ hbig
        refine ⟨_, rest, hrest, rfl, fun more => ?_⟩
        simp [bomOf, List.isPrefixOf, halways]
      · split at h
        · rename_i hlittle
          cases h
          obtain ⟨rest, hrest⟩ := hstart _ hlittle
          refine ⟨_, rest, hrest, rfl, fun more => ?_⟩
          simp [bomOf, List.isPrefixOf, halways]
        · cases h

/-- **What is decided stays decided.** -/
theorem bomOf_append (h : Decided options bytes) :
    bomOf options (bytes ++ more) = bomOf options bytes := by
  cases hbom : bomOf options bytes with
  | some bom =>
    obtain ⟨start, rest, hbytes, -, hmore⟩ := bomOf_eq_some hbom
    rw [hbytes, List.append_assoc, hmore]
  | none =>
    rcases h with h | h
    · rw [hbom] at h
      cases h
    · rcases bytes with _ | ⟨a, _ | ⟨b, _ | ⟨c, rest⟩⟩⟩ <;> simp [maxBomLength] at h
      rw [← hbom]
      simp [bomOf, List.isPrefixOf]

theorem decided_append (h : Decided options bytes) : Decided options (bytes ++ more) := by
  unfold Decided
  rw [bomOf_append h, List.length_append]
  exact h.imp id fun hlength => Nat.le_trans hlength (Nat.le_add_right _ _)

theorem lengthOfBom_le : lengthOfBom options bytes ≤ bytes.length := by
  unfold lengthOfBom
  cases hbom : bomOf options bytes with
  | none => exact Nat.zero_le _
  | some bom =>
    obtain ⟨start, rest, hbytes, hlength, -⟩ := bomOf_eq_some hbom
    rw [Option.map_some, Option.getD_some, hbytes, List.length_append, hlength]
    exact Nat.le_add_right _ _

theorem not_decided_nil : ¬ Decided options [] := by
  unfold Decided bomOf maxBomLength
  simp

/-- Of a sequence that is never decided all bytes are held back. -/
theorem heldBack_of_not_decided {buffer : Bytes}
    (h : ¬ Decided options (buffer ++ chunks.flatten)) :
    heldBack options buffer chunks = buffer ++ chunks.flatten := by
  induction chunks generalizing buffer with
  | nil => exact (List.append_nil buffer).symm
  | cons chunk chunks ih =>
    rw [List.flatten_cons, ← List.append_assoc] at h ⊢
    unfold heldBack
    rw [if_neg fun hdecided => h (decided_append hdecided)]
    exact ih h

theorem heldBack_of_decided (h : Decided options bytes) : heldBack options [] [bytes] = [] := by
  unfold heldBack
  rw [List.nil_append, if_pos h]

/-- A BOM has bytes. -/
theorem lengthOfBom_ne_zero :
    lengthOfBom options bytes ≠ 0 ↔ (bomOf options bytes).isSome = true := by
  unfold lengthOfBom bomOf
  split
  · simp
  · split
    · simp
    · split
      · simp
      · split <;> simp

/-- Undecided sequences have no BOM. -/
theorem bomOf_of_not_decided (h : ¬ Decided options bytes) : bomOf options bytes = none := by
  cases hbom : bomOf options bytes with
  | none => rfl
  | some bom => exact absurd (.inl (by rw [hbom]; rfl)) h

theorem lengthOfBom_append (h : Decided options bytes) :
    lengthOfBom options (bytes ++ more) = lengthOfBom options bytes := by
  unfold lengthOfBom
  rw [bomOf_append h]

theorem lengthOfBom_of_not_decided (h : ¬ Decided options bytes) :
    lengthOfBom options bytes = 0 := by
  unfold lengthOfBom
  rw [bomOf_of_not_decided h]
  rfl

theorem encodingOfBytes_append {header : TextEncoding} (h : Decided options bytes) :
    encodingOfBytes options header (bytes ++ more) = encodingOfBytes options header bytes := by
  unfold encodingOfBytes
  rw [bomOf_append h]

theorem encodingOfBytes_of_not_decided {header : TextEncoding} (h : ¬ Decided options bytes) :
    encodingOfBytes options header bytes = header := by
  unfold encodingOfBytes
  rw [bomOf_of_not_decided h]
  split <;> rfl

/-! ## The codecs -/

/-- The output of the codec of an encoding does not depend on the chunks. -/
def Platform.ChunkInvariant (p : Platform σ μ) (stopOnError : Bool) (e : TextEncoding) : Prop :=
  ∀ chunks : List Bytes, chunks ≠ [] →
    p.codec.ReadsChunksAs .fetchEOF stopOnError (p.newTextCodec e) chunks

/-! ## The check for a BOM -/

/-- The encodings that have a BOM are registered. -/
theorem bom_encodings_valid : StaticEncoding.utf8Encoding.encoding.isValid = true ∧
    StaticEncoding.utf16BigEndianEncoding.encoding.isValid = true ∧
    StaticEncoding.utf16LittleEndianEncoding.encoding.isValid = true := by
  decide +kernel

namespace Decoder

/-- The decoder takes the encoding of a BOM. -/
def atBOM (options : TextResourceDecoderOptions) (d : Decoder σ μ) (bytes : Bytes) : Decoder σ μ :=
  if options.encodingDetectionOption = .alwaysUseUTF8ForText then d
  else
    match bomOf options bytes with
    | some bom =>
      { d with encoding := bom.1.encoding, codec := none, source := .autoDetectedEncoding }
    | none => d

theorem setEncoding_auto (hvalid : encoding.isValid = true) :
    d.setEncoding options encoding .autoDetectedEncoding =
      if options.encodingDetectionOption = .alwaysUseUTF8ForText then d
      else { d with encoding := encoding, codec := none, source := .autoDetectedEncoding } := by
  unfold setEncoding
  rw [hvalid]
  simp

/-- The bytes that are compared are the first ones, and zero where there are none. -/
theorem isPrefixOf_cons {b : UInt8} (hb : b ≠ 0) (bs bytes : Bytes) :
    (b :: bs).isPrefixOf bytes = true ↔
      bytes.getD 0 0 = b ∧ bs.isPrefixOf (bytes.drop 1) = true := by
  cases bytes with
  | nil =>
    refine iff_of_false (fun h => by cases h) fun h => hb h.1.symm
  | cons a rest =>
    show (b == a && bs.isPrefixOf rest) = true ↔ a = b ∧ bs.isPrefixOf rest = true
    rw [Bool.and_eq_true, beq_iff_eq, eq_comm]

theorem getD_drop (n i : Nat) (bytes : Bytes) : (bytes.drop n).getD i 0 = bytes.getD (n + i) 0 := by
  rw [List.getD_eq_getElem?_getD, List.getD_eq_getElem?_getD, List.getElem?_drop]

theorem isPrefixOf_two {a b : UInt8} (h1 : a ≠ 0) (h2 : b ≠ 0) (bytes : Bytes) :
    [a, b].isPrefixOf bytes = true ↔ bytes.getD 0 0 = a ∧ bytes.getD 1 0 = b := by
  rw [isPrefixOf_cons h1, isPrefixOf_cons h2, getD_drop]
  simp only [List.isPrefixOf, and_true]

theorem isPrefixOf_three {a b c : UInt8} (h1 : a ≠ 0) (h2 : b ≠ 0) (h3 : c ≠ 0)
    (bytes : Bytes) :
    [a, b, c].isPrefixOf bytes = true ↔
      bytes.getD 0 0 = a ∧ bytes.getD 1 0 = b ∧ bytes.getD 2 0 = c := by
  rw [isPrefixOf_cons h1, isPrefixOf_two h2 h3, getD_drop, getD_drop]

theorem compareWithBOMs_eq (bytes : Bytes) :
    d.compareWithBOMs options (bytes.getD 0 0) (bytes.getD 1 0) (bytes.getD 2 0) =
      (d.atBOM options bytes, lengthOfBom options bytes) := by
  obtain ⟨hutf8, hbig, hlittle⟩ := bom_encodings_valid
  unfold compareWithBOMs lengthOfBom atBOM bomOf
  rw [setEncoding_auto hutf8, setEncoding_auto hbig, setEncoding_auto hlittle]
  simp only [← isPrefixOf_two (a := 0xFE) (b := 0xFF) (by decide) (by decide) bytes,
    ← isPrefixOf_two (a := 0xFF) (b := 0xFE) (by decide) (by decide) bytes,
    ← isPrefixOf_three (a := 0xEF) (b := 0xBB) (c := 0xBF) (by decide) (by decide) (by decide)
      bytes]
  by_cases halways : options.encodingDetectionOption = .alwaysUseUTF8ForText
  · simp only [halways, ne_eq, not_true_eq_false, if_false, if_true]
    split <;> rfl
  · simp only [halways, ne_eq, not_false_eq_true, if_false, if_true]
    split
    · rfl
    · split
      · rfl
      · split <;> rfl

/-- **The check finds the BOM at the start of all that has come**, and is completed when that is
enough. -/
theorem checkForBOM_eq (data : Bytes) :
    d.checkForBOM options data =
      (if Decided options (d.buffer ++ data) then
        { d.atBOM options (d.buffer ++ data) with checkedForBom := true }
      else d, lengthOfBom options (d.buffer ++ data)) := by
  unfold checkForBOM
  dsimp only
  rw [compareWithBOMs_eq, ← List.length_append]
  have hcond : (lengthOfBom options (d.buffer ++ data) ≠ 0 ∨
      (d.buffer ++ data).length ≥ maxBomLength) ↔ Decided options (d.buffer ++ data) := by
    exact or_congr_left lengthOfBom_ne_zero
  by_cases hdecided : Decided options (d.buffer ++ data)
  · rw [if_pos hdecided, if_pos (hcond.mpr hdecided)]
  · rw [if_neg hdecided, if_neg fun h => hdecided (hcond.mp h)]
    unfold atBOM
    rw [bomOf_of_not_decided hdecided]
    split <;> rfl

/-! ## The other checks -/

/-- Neither the check for a charset nor the detection changes the encoding. -/
def Inert (options : TextResourceDecoderOptions) (d : Decoder σ μ) : Prop :=
  options.encodingDetectionOption = .alwaysUseUTF8ForText ∨
    d.source = .encodingFromHTTPHeader ∨ d.source = .autoDetectedEncoding

/-- In a text that is not plain the encoding is that of the header or of a BOM. -/
theorem Inert.source (h : d.Inert options) (hplain : options.contentType ≠ .plainTextContent) :
    d.source = .encodingFromHTTPHeader ∨ d.source = .autoDetectedEncoding :=
  h.resolve_left fun halways => hplain (options.plain_of_always halways).1

theorem Inert.autoDetectEncodingIfAllowed (h : d.Inert options) :
    d.autoDetectEncodingIfAllowed options = d := by
  unfold Decoder.autoDetectEncodingIfAllowed
  split
  · rfl
  · rename_i hall
    rcases h with halways | hsource | hsource
    · rw [halways] at hall
      simp at hall
    · simp [hsource]
    · simp [hsource]

theorem Inert.checkForMetaCharset (h : d.Inert options)
    (hplain : options.contentType ≠ .plainTextContent) (data : Bytes) :
    d.checkForMetaCharset p options data = { d with checkedForMetaCharset := true } := by
  unfold Decoder.checkForMetaCharset
  rw [if_pos (h.source hplain)]

theorem Inert.checkForXMLCharset (h : d.Inert options)
    (hplain : options.contentType ≠ .plainTextContent) (data : Bytes) :
    d.checkForXMLCharset options data =
      ⟨{ d with checkedForXmlCharset := true }, true, false⟩ := by
  unfold Decoder.checkForXMLCharset
  rw [if_pos]
  rcases h.source hplain with hsource | hsource <;> simp [hsource]

theorem Inert.decodeChecked (h : d.Inert options) (data : Bytes) (n : Nat) :
    ∃ checkedForMetaCharset, d.decodeChecked p options data n false =
      { d with checkedForMetaCharset := checkedForMetaCharset }.callCodec p options
        ((d.buffer ++ data).drop n) .doNotFlush := by
  have hdata : (if d.buffer.isEmpty then data.drop n
      else if false then d.buffer.drop n else (d.buffer ++ data).drop n) =
      (d.buffer ++ data).drop n := by
    cases hbuffer : d.buffer <;> simp
  unfold Decoder.decodeChecked
  simp only [hdata]
  split
  · rename_i hhtml
    have hplain : options.contentType ≠ .plainTextContent := by simp [hhtml.1]
    refine ⟨true, ?_⟩
    rw [h.checkForMetaCharset hplain, Inert.autoDetectEncodingIfAllowed]
    exact h
  · refine ⟨d.checkedForMetaCharset, ?_⟩
    rw [h.autoDetectEncodingIfAllowed]

/-- **Behind the check for a BOM all the data go to the codec**, unless they are CSS. -/
theorem Inert.decodeBehindBOM (h : d.Inert options) (hcss : options.contentType ≠ .cssContent)
    (data : Bytes) (n : Nat) :
    ∃ checkedForXmlCharset checkedForMetaCharset, d.decodeBehindBOM p options data n =
      { d with
        checkedForXmlCharset := checkedForXmlCharset
        checkedForMetaCharset := checkedForMetaCharset }.callCodec p options
        ((d.buffer ++ data).drop n) .doNotFlush := by
  unfold Decoder.decodeBehindBOM
  have hnocss : ¬ (options.contentType = .cssContent ∧ (!d.checkedForCssCharset) = true) :=
    fun hboth => hcss hboth.1
  simp only [if_neg hnocss, Bool.not_true, Bool.false_eq_true, if_false]
  by_cases hxml : ((options.contentType = .htmlContent ∧
      data.length ≥ kMinimumLengthOfXMLDeclaration) ∨ options.contentType = .xmlContent) ∧
      (!d.checkedForXmlCharset) = true
  · have hplain : options.contentType ≠ .plainTextContent := by
      rcases hxml.1 with hhtml | hxml
      · simp [hhtml.1]
      · simp [hxml]
    have hinert : Inert options { d with checkedForXmlCharset := true } := h
    obtain ⟨checkedForMetaCharset, heq⟩ := hinert.decodeChecked (p := p) data n
    simp only [if_pos hxml, h.checkForXMLCharset hplain, Bool.not_true, Bool.false_eq_true,
      if_false]
    exact ⟨true, checkedForMetaCharset, heq⟩
  · obtain ⟨checkedForMetaCharset, heq⟩ := h.decodeChecked (p := p) data n
    simp only [if_neg hxml, Bool.not_true, Bool.false_eq_true, if_false]
    exact ⟨d.checkedForXmlCharset, checkedForMetaCharset, heq⟩

/-- As CSS the data are dropped. -/
theorem decodeBehindBOM_css (hcss : options.contentType = .cssContent)
    (hchecked : d.checkedForCssCharset = false) (data : Bytes) (n : Nat) :
    d.decodeBehindBOM p options data n = (d, []) := by
  unfold Decoder.decodeBehindBOM
  have hstub : options.contentType = .cssContent ∧ (!d.checkedForCssCharset) = true := by
    rw [hchecked]
    exact ⟨hcss, rfl⟩
  simp only [if_pos hstub]
  rfl

/-! ## Waiting, reading and dropping -/

/-- The bytes are not enough yet to know whether there is a BOM. -/
structure Waiting (options : TextResourceDecoderOptions) (d : Decoder σ μ) (header : TextEncoding)
    (buffer : Bytes) : Prop where
  inert : d.Inert options
  checkedForBom : d.checkedForBom = false
  checkedForCssCharset : d.checkedForCssCharset = false
  codec : d.codec = none
  encoding : d.encoding = header
  buffer : d.buffer = buffer

/-- The codec has got all the bytes behind the BOM. -/
structure Reading (options : TextResourceDecoderOptions) (d : Decoder σ μ) (e : TextEncoding)
    (s : σ) : Prop where
  inert : d.Inert options
  checkedForBom : d.checkedForBom = true
  codec : d.codec = some s
  encoding : d.encoding = e
  buffer : d.buffer = []

/-- As CSS: the bytes that were held back stay in the buffer. -/
structure Dropping (options : TextResourceDecoderOptions) (d : Decoder σ μ) (e : TextEncoding)
    (buffer : Bytes) : Prop where
  inert : d.Inert options
  checkedForBom : d.checkedForBom = true
  checkedForCssCharset : d.checkedForCssCharset = false
  codec : d.codec = none
  encoding : d.encoding = e
  buffer : d.buffer = buffer

/-- At a BOM the encoding is decided, and nothing else changes. -/
theorem Waiting.atBOM {header : TextEncoding} {buffer : Bytes} (h : d.Waiting options header buffer)
    (bytes : Bytes) :
    Dropping options { d.atBOM options bytes with checkedForBom := true }
      (encodingOfBytes options header bytes) buffer := by
  unfold Decoder.atBOM encodingOfBytes
  split
  · exact ⟨h.inert, rfl, h.checkedForCssCharset, h.codec, h.encoding, h.buffer⟩
  · cases bomOf options bytes with
    | some bom => exact ⟨.inr (.inr rfl), rfl, h.checkedForCssCharset, rfl, rfl, h.buffer⟩
    | none => exact ⟨h.inert, rfl, h.checkedForCssCharset, h.codec, h.encoding, h.buffer⟩

/-- **Undecided bytes are kept in the buffer.** -/
theorem Waiting.decode_undecided {header : TextEncoding} {buffer : Bytes}
    (h : d.Waiting options header buffer) {data : Bytes}
    (hundecided : ¬ Decided options (buffer ++ data)) :
    (d.decode p options data).2 = [] ∧
      (d.decode p options data).1.Waiting options header (buffer ++ data) := by
  unfold Decoder.decode
  simp only [h.checkedForBom, Bool.not_false, if_true, checkForBOM_eq, h.buffer,
    if_neg hundecided]
  exact ⟨trivial, h.inert, rfl, h.checkedForCssCharset, h.codec, h.encoding, rfl⟩

/-- With enough bytes the decoder goes on behind the BOM. -/
theorem Waiting.decode_decided {header : TextEncoding} {buffer : Bytes}
    (h : d.Waiting options header buffer) {data : Bytes}
    (hdecided : Decided options (buffer ++ data)) :
    d.decode p options data =
      { d.atBOM options (buffer ++ data) with checkedForBom := true }.decodeBehindBOM p options data
        (lengthOfBom options (buffer ++ data)) := by
  unfold Decoder.decode
  simp only [h.checkedForBom, Bool.not_false, if_true, checkForBOM_eq, h.buffer, if_pos hdecided,
    Bool.not_true, Bool.false_eq_true, if_false]

/-- A call of the codec. -/
theorem callCodec_reading (hinert : d.Inert options) (hchecked : d.checkedForBom = true)
    (data : Bytes) (flush : FlushBehavior) :
    let c := p.codec.decode (d.codec.getD (p.newTextCodec d.encoding)) data flush
      (stopOnError options)
    (d.callCodec p options data flush).2 = c.text ∧
      (d.callCodec p options data flush).1.Reading options d.encoding c.codec :=
  ⟨rfl, hinert, hchecked, rfl, rfl, rfl⟩

/-- **The first bytes that the codec gets are all behind the BOM.** -/
theorem Dropping.decodeBehindBOM {e : TextEncoding} {buffer : Bytes}
    (h : d.Dropping options e buffer) (hcss : options.contentType ≠ .cssContent) (data : Bytes)
    (n : Nat) :
    let c := p.codec.decode (p.newTextCodec e) ((buffer ++ data).drop n) .doNotFlush
      (stopOnError options)
    (d.decodeBehindBOM p options data n).2 = c.text ∧
      (d.decodeBehindBOM p options data n).1.Reading options e c.codec := by
  obtain ⟨xml, checkedForMetaCharset, heq⟩ := h.inert.decodeBehindBOM (p := p) hcss data n
  rw [heq]
  have hcall := callCodec_reading (p := p)
    (d := { d with checkedForXmlCharset := xml, checkedForMetaCharset := checkedForMetaCharset })
    h.inert h.checkedForBom ((d.buffer ++ data).drop n) .doNotFlush
  simp only [h.codec, h.encoding, h.buffer, Option.getD_none] at hcall ⊢
  exact hcall

/-- **Then it gets every chunk.** -/
theorem Reading.decode {e : TextEncoding} {s : σ} (h : d.Reading options e s)
    (hcss : options.contentType ≠ .cssContent) (data : Bytes) :
    let c := p.codec.decode s data .doNotFlush (stopOnError options)
    (d.decode p options data).2 = c.text ∧
      (d.decode p options data).1.Reading options e c.codec := by
  have hdecode : d.decode p options data = d.decodeBehindBOM p options data 0 := by
    unfold Decoder.decode
    simp only [h.checkedForBom, Bool.not_true, Bool.false_eq_true, if_false]
  obtain ⟨xml, checkedForMetaCharset, heq⟩ := h.inert.decodeBehindBOM (p := p) hcss data 0
  rw [hdecode, heq]
  have hcall := callCodec_reading (p := p)
    (d := { d with checkedForXmlCharset := xml, checkedForMetaCharset := checkedForMetaCharset })
    h.inert h.checkedForBom ((d.buffer ++ data).drop 0) .doNotFlush
  simp only [h.codec, h.encoding, h.buffer, Option.getD_some, List.nil_append,
    List.drop_zero] at hcall ⊢
  exact hcall

/-- As CSS every chunk is lost. -/
theorem Dropping.decode {e : TextEncoding} {buffer : Bytes} (h : d.Dropping options e buffer)
    (hcss : options.contentType = .cssContent) (data : Bytes) :
    d.decode p options data = (d, []) := by
  unfold Decoder.decode
  simp only [h.checkedForBom, Bool.not_true, Bool.false_eq_true, if_false]
  exact decodeBehindBOM_css hcss h.checkedForCssCharset data 0

/-- `Flush` gives the codec what is left in the buffer. -/
theorem Inert.flush (h : d.Inert options) :
    (d.flush p options).2 = (p.codec.decode (d.codec.getD (p.newTextCodec d.encoding)) d.buffer
      .fetchEOF (stopOnError options)).text ∧
      (d.flush p options).1.encoding = d.encoding := by
  unfold Decoder.flush
  simp only [h.autoDetectEncodingIfAllowed, ite_self]
  exact ⟨rfl, rfl⟩

/-! ## All chunks -/

theorem decodeAll_cons (chunk : Bytes) :
    d.decodeAll p options (chunk :: chunks) =
      (((d.decode p options chunk).1.decodeAll p options chunks).1,
        (d.decode p options chunk).2 ++
          ((d.decode p options chunk).1.decodeAll p options chunks).2) := by
  unfold decodeAll
  simp only [decodeEach, List.append_assoc]

/-- **A decoder that reads gives what the codec gives for the chunks**, flushed behind the last. -/
theorem Reading.decodeAll {e : TextEncoding} {s : σ} (h : d.Reading options e s)
    (hcss : options.contentType ≠ .cssContent) (chunks : List Bytes) :
    (d.decodeAll p options chunks).2 =
        p.codec.decodeChunks .fetchEOF (stopOnError options) s (chunks ++ [[]]) ∧
      (d.decodeAll p options chunks).1.encoding = e := by
  induction chunks generalizing d s with
  | nil =>
    obtain ⟨htext, hencoding⟩ := h.inert.flush (p := p)
    simp only [h.codec, h.encoding, h.buffer, Option.getD_some] at htext hencoding
    exact ⟨htext, hencoding⟩
  | cons chunk chunks ih =>
    obtain ⟨htext, hreading⟩ := h.decode (p := p) hcss chunk
    obtain ⟨htexts, hencoding⟩ := ih hreading
    rw [decodeAll_cons, List.cons_append,
      p.codec.decodeChunks_cons .fetchEOF (stopOnError options) s chunk (by simp), htext, htexts]
    exact ⟨rfl, hencoding⟩

/-- As CSS the text is that of the bytes that were held back. -/
theorem Dropping.decodeAll {e : TextEncoding} {buffer : Bytes} (h : d.Dropping options e buffer)
    (hcss : options.contentType = .cssContent) (chunks : List Bytes) :
    (d.decodeAll p options chunks).2 =
        (p.codec.decode (p.newTextCodec e) buffer .fetchEOF (stopOnError options)).text ∧
      (d.decodeAll p options chunks).1.encoding = e := by
  induction chunks with
  | nil =>
    obtain ⟨htext, hencoding⟩ := h.inert.flush (p := p)
    simp only [h.codec, h.encoding, h.buffer, Option.getD_none] at htext hencoding
    exact ⟨htext, hencoding⟩
  | cons chunk chunks ih =>
    rw [decodeAll_cons, h.decode hcss]
    exact ih

/-- A decoder that waits to the end flushes all the bytes. -/
theorem Waiting.decodeAll_nil {header : TextEncoding} {buffer : Bytes}
    (h : d.Waiting options header buffer) (hundecided : ¬ Decided options buffer) :
    (d.decodeAll p options []).2 =
        (p.codec.decode (p.newTextCodec (encodingOfBytes options header buffer)) buffer .fetchEOF
          (stopOnError options)).text ∧
      (d.decodeAll p options []).1.encoding = encodingOfBytes options header buffer := by
  obtain ⟨htext, hencoding⟩ := h.inert.flush (p := p)
  simp only [h.codec, h.encoding, h.buffer, Option.getD_none] at htext hencoding
  rw [encodingOfBytes_of_not_decided hundecided]
  exact ⟨htext, hencoding⟩

/-- **The text of a resource that is not CSS: the bytes behind the BOM, in one call.** -/
theorem Waiting.decodeAll {header : TextEncoding} {buffer : Bytes}
    (h : d.Waiting options header buffer) (hundecided : ¬ Decided options buffer)
    (hcss : options.contentType ≠ .cssContent) (chunks : List Bytes)
    (hinvariant : p.ChunkInvariant (stopOnError options)
      (encodingOfBytes options header (buffer ++ chunks.flatten))) :
    let bytes := buffer ++ chunks.flatten
    let e := encodingOfBytes options header bytes
    (d.decodeAll p options chunks).2 =
        (p.codec.decode (p.newTextCodec e) (bytes.drop (lengthOfBom options bytes)) .fetchEOF
          (stopOnError options)).text ∧
      (d.decodeAll p options chunks).1.encoding = e := by
  induction chunks generalizing d buffer with
  | nil =>
    dsimp only
    rw [List.flatten_nil, List.append_nil, lengthOfBom_of_not_decided hundecided, List.drop_zero]
    exact h.decodeAll_nil hundecided
  | cons chunk chunks ih =>
    dsimp only
    rw [List.flatten_cons, ← List.append_assoc] at hinvariant
    rw [List.flatten_cons, ← List.append_assoc, decodeAll_cons]
    by_cases hdecided : Decided options (buffer ++ chunk)
    · rw [encodingOfBytes_append hdecided] at hinvariant
      rw [encodingOfBytes_append hdecided, lengthOfBom_append hdecided,
        h.decode_decided hdecided]
      obtain ⟨htext, hreading⟩ := (h.atBOM (buffer ++ chunk)).decodeBehindBOM (p := p) hcss chunk
        (lengthOfBom options (buffer ++ chunk))
      obtain ⟨htexts, hencoding⟩ := hreading.decodeAll (p := p) hcss chunks
      refine ⟨?_, hencoding⟩
      dsimp only
      rw [htext, htexts, ← p.codec.decodeChunks_cons .fetchEOF (stopOnError options) _ _ (by simp),
        hinvariant _ (List.cons_ne_nil _ _), List.flatten_cons, List.flatten_append,
        List.drop_append_of_le_length lengthOfBom_le]
      simp
    · obtain ⟨htext, hwaiting⟩ := h.decode_undecided (p := p) hdecided
      rw [htext, List.nil_append]
      exact ih hwaiting hdecided hinvariant

/-- **The text of a resource that is CSS: the bytes that were held back.** -/
theorem Waiting.decodeAll_css {header : TextEncoding} {buffer : Bytes}
    (h : d.Waiting options header buffer) (hundecided : ¬ Decided options buffer)
    (hcss : options.contentType = .cssContent) (chunks : List Bytes) :
    let e := encodingOfBytes options header (buffer ++ chunks.flatten)
    (d.decodeAll p options chunks).2 =
        (p.codec.decode (p.newTextCodec e) (heldBack options buffer chunks) .fetchEOF
          (stopOnError options)).text ∧
      (d.decodeAll p options chunks).1.encoding = e := by
  induction chunks generalizing d buffer with
  | nil =>
    dsimp only
    rw [List.flatten_nil, List.append_nil]
    exact h.decodeAll_nil hundecided
  | cons chunk chunks ih =>
    dsimp only
    rw [List.flatten_cons, ← List.append_assoc, decodeAll_cons]
    unfold heldBack
    by_cases hdecided : Decided options (buffer ++ chunk)
    · have hdropping := h.atBOM (buffer ++ chunk)
      rw [encodingOfBytes_append hdecided, h.decode_decided hdecided, if_pos hdecided,
        decodeBehindBOM_css hcss hdropping.checkedForCssCharset]
      exact hdropping.decodeAll hcss chunks
    · obtain ⟨htext, hwaiting⟩ := h.decode_undecided (p := p) hdecided
      rw [htext, List.nil_append, if_neg hdecided]
      exact ih hwaiting hdecided

end Decoder

/-! ## Chunk invariance -/

/-- The text that a new codec gives for all bytes in one call. -/
def Platform.codecText (p : Platform σ μ) (options : TextResourceDecoderOptions) (e : TextEncoding)
    (bytes : Bytes) : Units :=
  (p.codec.decode (p.newTextCodec e) bytes .fetchEOF (Decoder.stopOnError options)).text

/-- With an encoding in the header the decoder waits for a BOM. -/
theorem withHeader_waiting (hvalid : encoding.isValid = true) :
    (Decoder.withHeader options encoding : Decoder σ μ).Waiting options
      (Decoder.withHeader options encoding : Decoder σ μ).encoding [] := by
  unfold Decoder.withHeader Decoder.setEncoding
  rw [hvalid]
  simp only [Bool.not_true, Bool.false_eq_true, if_false]
  split
  · rename_i halways
    exact ⟨.inl halways, rfl, rfl, rfl, rfl, rfl⟩
  · exact ⟨.inr (.inl rfl), rfl, rfl, rfl, rfl, rfl⟩

/-- **Chunk invariance of the decoder.** With an encoding in the header, the chunks of a sequence
give the text and the encoding that the sequence gives in one chunk exactly if the resource is not
CSS, or the sequence is too short for the check for a BOM to be completed, or the bytes in front of
the chunk that completes the check decode to nothing. -/
theorem decodeAll_chunks_iff (p : Platform σ μ) (options : TextResourceDecoderOptions)
    (header : TextEncoding) (hvalid : header.isValid = true) (chunks : List Bytes)
    (hinvariant : p.ChunkInvariant (Decoder.stopOnError options)
      (encodingOfBytes options (Decoder.withHeader options header : Decoder σ μ).encoding
        chunks.flatten)) :
    let d : Decoder σ μ := .withHeader options header
    let split := d.decodeAll p options chunks
    let whole := d.decodeAll p options [chunks.flatten]
    let e := encodingOfBytes options d.encoding chunks.flatten
    (split.2 = whole.2 ∧ split.1.encoding = whole.1.encoding) ↔
      (options.contentType ≠ .cssContent ∨ ¬ Decided options chunks.flatten ∨
        p.codecText options e (heldBack options [] chunks) = p.codecText options e []) := by
  intro d split whole e
  have hwaiting : d.Waiting options d.encoding [] := withHeader_waiting hvalid
  have hempty : ¬ Decided options [] := not_decided_nil
  have hone : [chunks.flatten].flatten = chunks.flatten := by simp
  by_cases hcss : options.contentType = .cssContent
  · obtain ⟨htext, hencoding⟩ := hwaiting.decodeAll_css (p := p) hempty hcss chunks
    obtain ⟨htext', hencoding'⟩ :=
      hwaiting.decodeAll_css (p := p) hempty hcss [chunks.flatten]
    rw [hone] at htext' hencoding'
    have hsplit : split.2 = p.codecText options e (heldBack options [] chunks) := htext
    have hwhole : whole.2 = p.codecText options e (heldBack options [] [chunks.flatten]) := htext'
    have hsame : split.1.encoding = whole.1.encoding := hencoding.trans hencoding'.symm
    rw [hsplit, hwhole]
    simp only [hsame, and_true, hcss, ne_eq, not_true_eq_false, false_or]
    by_cases hdecided : Decided options chunks.flatten
    · rw [heldBack_of_decided hdecided]
      exact (or_iff_right (not_not_intro hdecided)).symm
    · have hsame : heldBack options [] chunks = heldBack options [] [chunks.flatten] := by
        rw [heldBack_of_not_decided hdecided,
          heldBack_of_not_decided (by rw [hone]; exact hdecided), hone]
      exact iff_of_true (congrArg _ hsame) (.inl hdecided)
  · obtain ⟨htext, hencoding⟩ := hwaiting.decodeAll hempty hcss chunks hinvariant
    obtain ⟨htext', hencoding'⟩ :=
      hwaiting.decodeAll hempty hcss [chunks.flatten] (by rw [hone]; exact hinvariant)
    rw [hone] at htext' hencoding'
    exact iff_of_true ⟨htext.trans htext'.symm, hencoding.trans hencoding'.symm⟩ (.inl hcss)

/-! ## Codecs of one byte to a code unit -/

/-- Every byte is a code unit, and no charset is ever found. -/
def bytePlatform : Platform Unit Unit where
  codec := ⟨fun _ bytes _ _ => ⟨(), bytes.map UInt8.toUInt16, false⟩⟩
  newTextCodec _ := ()
  create := ()
  checkForMetaCharset _ _ := ((), false)
  charset _ := ⟨none⟩

theorem chunkInvariant_bytePlatform (stopOnError : Bool) (e : TextEncoding) :
    bytePlatform.ChunkInvariant stopOnError e := by
  intro chunks hne
  unfold TextCodec.ReadsChunksAs
  induction chunks with
  | nil => exact absurd rfl hne
  | cons chunk chunks ih =>
    cases chunks with
    | nil =>
      show chunk.map UInt8.toUInt16 = [chunk].flatten.map UInt8.toUInt16
      simp
    | cons next chunks =>
      have hrest := ih (List.cons_ne_nil next chunks)
      rw [TextCodec.decodeChunks_cons _ _ _ _ _ (List.cons_ne_nil next chunks)]
      show chunk.map UInt8.toUInt16 ++ _ = (chunk ++ (next :: chunks).flatten).map UInt8.toUInt16
      rw [List.map_append]
      exact congrArg _ hrest

/-- The options of a resource with this type of content. -/
def optionsFor (contentType : ContentType) : TextResourceDecoderOptions :=
  ⟨.useAllAutoDetection, contentType, ⟨none⟩, false, false, fun h => by cases h⟩

/-- A BOM that is cut in HTML, with an empty chunk in it. -/
theorem decodeAll_cut_bom :
    let d : Decoder Unit Unit :=
      .withHeader (optionsFor .htmlContent) StaticEncoding.utf16BigEndianEncoding.encoding
    let split := d.decodeAll bytePlatform (optionsFor .htmlContent) [[0xEF], [], [0xBB, 0xBF, 0x61]]
    let whole := d.decodeAll bytePlatform (optionsFor .htmlContent) [[0xEF, 0xBB, 0xBF, 0x61]]
    split.2 = whole.2 ∧ split.1.encoding = whole.1.encoding :=
  (decodeAll_chunks_iff bytePlatform (optionsFor .htmlContent)
    StaticEncoding.utf16BigEndianEncoding.encoding bom_encodings_valid.2.1
    [[0xEF], [], [0xBB, 0xBF, 0x61]] (chunkInvariant_bytePlatform _ _)).mpr (.inl (by decide))

/-- **A style sheet `abcd` in the chunks `a` and `bcd` is read as `a`, in one chunk as nothing**, by
a codec whose output does not depend on the chunks. -/
theorem css_chunks_dropped :
    bytePlatform.ChunkInvariant (Decoder.stopOnError (optionsFor .cssContent))
        StaticEncoding.utf8Encoding.encoding ∧
      let d : Decoder Unit Unit :=
        .withHeader (optionsFor .cssContent) StaticEncoding.utf8Encoding.encoding
      let split := d.decodeAll bytePlatform (optionsFor .cssContent) [[0x61], [0x62, 0x63, 0x64]]
      let whole := d.decodeAll bytePlatform (optionsFor .cssContent) [[0x61, 0x62, 0x63, 0x64]]
      split.2 = [0x61] ∧ whole.2 = [] :=
  ⟨chunkInvariant_bytePlatform _ _, by decide +kernel⟩

end Blinkit.Text
