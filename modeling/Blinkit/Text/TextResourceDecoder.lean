import Blinkit.Text.EncodingIdentity
import Blinkit.Text.TextCodec

/-!
# The decoder of a resource

Translation of `text_resource_decoder.cpp` and `text_resource_decoder_options.h`. The decoder gets
the bytes of a resource in chunks, decides about the encoding and hands the bytes to a codec.

* `TextResourceDecoderOptions` — with the invariant that its constructors establish.
* `Platform` — the codecs and `HTMLMetaCharsetParser`, which are not part of the translation.
* `Decoder` — `TextResourceDecoder`; `Decoder.decode` and `Decoder.flush` are its two operations.
* `Decoder.decodeAll` — `TextResource::DecodedText`: all chunks, and then `Flush`.

`CheckForCSSCharset` and the part of `CheckForXMLCharset` for an XML declaration are stubs. A chunk
or a buffer whose length does not fit into `wtf_size_t` ends the program.
-/

set_option autoImplicit false

namespace Blinkit.Text

/-! ## Encodings -/

/-- The encoding that the function of a static encoding returns. -/
def StaticEncoding.encoding (k : StaticEncoding) : TextEncoding :=
  ⟨addressOf (toLowerASCII (ascii k.label))⟩

namespace TextEncoding

/-- The characters of `TextEncoding::GetName`. -/
def getName (e : TextEncoding) : Option Bytes := e.name.bind extendedMaps.characters

/-- `TextEncoding::IsNonByteBasedEncoding`. -/
def isNonByteBased (e : TextEncoding) : Bool :=
  e = StaticEncoding.utf16LittleEndianEncoding.encoding ||
    e = StaticEncoding.utf16BigEndianEncoding.encoding

/-- `TextEncoding::ClosestByteBasedEquivalent`. -/
def closestByteBasedEquivalent (e : TextEncoding) : TextEncoding :=
  if e.isNonByteBased then StaticEncoding.utf8Encoding.encoding else e

end TextEncoding

/-! ## Options -/

inductive ContentType where
  | plainTextContent
  | htmlContent
  | jsonContent
  | xmlContent
  | cssContent
  deriving DecidableEq, Repr

inductive EncodingDetectionOption where
  | useAllAutoDetection
  | useContentAndBOMBasedDetection
  | alwaysUseUTF8ForText
  deriving DecidableEq, Repr

/-- `TextResourceDecoderOptions`. Only `CreateAlwaysUseUTF8ForText` takes the last option. -/
structure TextResourceDecoderOptions where
  encodingDetectionOption : EncodingDetectionOption
  contentType : ContentType
  defaultEncoding : TextEncoding
  useLenientXMLDecoding : Bool
  /-- There is a `HintEncoding()`. -/
  hintEncoding : Bool
  plain_of_always : encodingDetectionOption = .alwaysUseUTF8ForText →
    contentType = .plainTextContent ∧ defaultEncoding = StaticEncoding.utf8Encoding.encoding

inductive EncodingSource where
  | defaultEncoding
  | autoDetectedEncoding
  | encodingFromContentSniffing
  | encodingFromXMLHeader
  | encodingFromMetaTag
  | encodingFromCSSCharset
  | encodingFromHTTPHeader
  | encodingFromParentFrame
  deriving DecidableEq, Repr

/-! ## The decoder -/

structure Platform (σ μ : Type) where
  codec : TextCodec σ
  newTextCodec : TextEncoding → σ
  /-- `HTMLMetaCharsetParser::Create`. -/
  create : μ
  checkForMetaCharset : μ → Bytes → μ × Bool
  /-- `HTMLMetaCharsetParser::Encoding`. -/
  charset : μ → TextEncoding

structure Decoder (σ μ : Type) where
  encoding : TextEncoding
  codec : Option σ
  source : EncodingSource
  buffer : Bytes
  checkedForBom : Bool
  checkedForCssCharset : Bool
  checkedForXmlCharset : Bool
  checkedForMetaCharset : Bool
  sawError : Bool
  detectionCompleted : Bool
  charsetParser : Option μ

def kMinimumLengthOfXMLDeclaration : Nat := 8

def maxBomLength : Nat := 3

namespace Decoder

variable {σ μ : Type} (p : Platform σ μ) (options : TextResourceDecoderOptions) (d : Decoder σ μ)

/-- `TextResourceDecoder::DefaultEncoding`. -/
def defaultEncoding (contentType : ContentType) (specifiedDefaultEncoding : TextEncoding) :
    TextEncoding :=
  if contentType = .xmlContent ∨ contentType = .jsonContent then
    StaticEncoding.utf8Encoding.encoding
  else if !specifiedDefaultEncoding.isValid then StaticEncoding.latin1Encoding.encoding
  else specifiedDefaultEncoding

/-- The constructor of `TextResourceDecoder`. -/
def create : Decoder σ μ where
  encoding := defaultEncoding options.contentType options.defaultEncoding
  codec := none
  source := .defaultEncoding
  buffer := []
  checkedForBom := false
  checkedForCssCharset := false
  checkedForXmlCharset := false
  checkedForMetaCharset := false
  sawError := false
  detectionCompleted := false
  charsetParser := none

/-- `TextResourceDecoder::SetEncoding`. -/
def setEncoding (encoding : TextEncoding) (source : EncodingSource) : Decoder σ μ :=
  if !encoding.isValid then d
  else if options.encodingDetectionOption = .alwaysUseUTF8ForText then d
  else
    let encoding :=
      if source = .encodingFromMetaTag ∧
          encoding.getName.map toLowerASCII = some (ascii "x-user-defined") then
        ⟨addressOf (toLowerASCII (ascii "windows-1252"))⟩
      else if source = .encodingFromMetaTag ∨ source = .encodingFromXMLHeader ∨
          source = .encodingFromCSSCharset then
        encoding.closestByteBasedEquivalent
      else encoding
    { d with encoding := encoding, codec := none, source := source }

/-- `TextResourceDecoder::AutoDetectEncodingIfAllowed`, without the detection. -/
def autoDetectEncodingIfAllowed : Decoder σ μ :=
  if options.encodingDetectionOption ≠ .useAllAutoDetection ∨ d.detectionCompleted then d
  else if !(d.source = .defaultEncoding ||
      (d.source = .encodingFromParentFrame && options.hintEncoding)) then d
  else
    let detectedEncoding : TextEncoding := ⟨none⟩
    if detectedEncoding ≠ StaticEncoding.unknownEncoding.encoding then
      { d with detectionCompleted := true }
    else d

/-- The branches of `TextResourceDecoder::CheckForBOM`, for the first three bytes. -/
def compareWithBOMs (c1 c2 c3 : UInt8) : Decoder σ μ × Nat :=
  if c1 = 0xEF ∧ c2 = 0xBB ∧ c3 = 0xBF then
    (d.setEncoding options StaticEncoding.utf8Encoding.encoding .autoDetectedEncoding, 3)
  else if options.encodingDetectionOption ≠ .alwaysUseUTF8ForText then
    if c1 = 0xFE ∧ c2 = 0xFF then
      (d.setEncoding options StaticEncoding.utf16BigEndianEncoding.encoding
        .autoDetectedEncoding, 2)
    else if c1 = 0xFF ∧ c2 = 0xFE then
      (d.setEncoding options StaticEncoding.utf16LittleEndianEncoding.encoding
        .autoDetectedEncoding, 2)
    else (d, 0)
  else (d, 0)

/-- `TextResourceDecoder::CheckForBOM`, with the length of the BOM. The bytes are taken from the
buffer and then from the data, and are zero where there are none. -/
def checkForBOM (data : Bytes) : Decoder σ μ × Nat :=
  let bytes := d.buffer ++ data
  let r := d.compareWithBOMs options (bytes.getD 0 0) (bytes.getD 1 0) (bytes.getD 2 0)
  if r.2 ≠ 0 ∨ d.buffer.length + data.length ≥ maxBomLength then
    ({ r.1 with checkedForBom := true }, r.2)
  else r

/-- What a check for a charset leaves behind. -/
structure Checked (σ μ : Type) where
  decoder : Decoder σ μ
  /-- The check returns `true`. -/
  completed : Bool
  movedDataToBuffer : Bool

/-- `TextResourceDecoder::CheckForCSSCharset`, a stub. -/
def checkForCSSCharset : Checked σ μ := ⟨d, false, false⟩

/-- `TextResourceDecoder::CheckForMetaCharset`. -/
def checkForMetaCharset (data : Bytes) : Decoder σ μ :=
  if d.source = .encodingFromHTTPHeader ∨ d.source = .autoDetectedEncoding then
    { d with checkedForMetaCharset := true }
  else
    let r := p.checkForMetaCharset (d.charsetParser.getD p.create) data
    let d := { d with charsetParser := some r.1 }
    if !r.2 then d
    else
      { d.setEncoding options (p.charset r.1) .encodingFromMetaTag with
        charsetParser := none, checkedForMetaCharset := true }

/-- `TextResourceDecoder::CheckForXMLCharset`. An XML declaration is a stub. -/
def checkForXMLCharset (data : Bytes) : Checked σ μ :=
  if d.source ≠ .defaultEncoding ∧ d.source ≠ .encodingFromParentFrame then
    ⟨{ d with checkedForXmlCharset := true }, true, false⟩
  else
    let bytes := d.buffer ++ data
    let d := { d with buffer := bytes }
    if bytes.length < kMinimumLengthOfXMLDeclaration then ⟨d, false, true⟩
    else
      let d :=
        if (ascii "<?xml").isPrefixOf bytes then d
        else if [0x3C, 0, 0x3F, 0, 0x78, 0].isPrefixOf bytes then
          d.setEncoding options StaticEncoding.utf16LittleEndianEncoding.encoding
            .autoDetectedEncoding
        else if [0, 0x3C, 0, 0x3F, 0, 0x78].isPrefixOf bytes then
          d.setEncoding options StaticEncoding.utf16BigEndianEncoding.encoding
            .autoDetectedEncoding
        else d
      ⟨{ d with checkedForXmlCharset := true }, true, true⟩

/-- Errors stop the codec in XML only. -/
def stopOnError : Bool :=
  options.contentType = .xmlContent && !options.useLenientXMLDecoding

/-- A call of the codec, which is made if there is none. -/
def callCodec (data : Bytes) (flush : FlushBehavior) : Decoder σ μ × Units :=
  let r := p.codec.decode (d.codec.getD (p.newTextCodec d.encoding)) data flush
    (stopOnError options)
  ({ d with codec := some r.codec, sawError := d.sawError || r.sawError, buffer := [] }, r.text)

/-- `TextResourceDecoder::Decode`, behind the checks for charsets in front of the data. -/
def decodeChecked (data : Bytes) (lengthOfBom : Nat) (movedDataToBuffer : Bool) :
    Decoder σ μ × Units :=
  let dataForDecode :=
    if d.buffer.isEmpty then data.drop lengthOfBom
    else if movedDataToBuffer then d.buffer.drop lengthOfBom
    else (d.buffer ++ data).drop lengthOfBom
  let d :=
    if options.contentType = .htmlContent ∧ !d.checkedForMetaCharset then
      d.checkForMetaCharset p options dataForDecode
    else d
  (d.autoDetectEncodingIfAllowed options).callCodec p options dataForDecode .doNotFlush

/-- `TextResourceDecoder::Decode`, behind the check for a BOM. -/
def decodeBehindBOM (data : Bytes) (lengthOfBom : Nat) : Decoder σ μ × Units :=
  let css : Checked σ μ :=
    if options.contentType = .cssContent ∧ !d.checkedForCssCharset then d.checkForCSSCharset
    else ⟨d, true, false⟩
  if !css.completed then (css.decoder, [])
  else
    let d := css.decoder
    let xml : Checked σ μ :=
      if ((options.contentType = .htmlContent ∧ data.length ≥ kMinimumLengthOfXMLDeclaration) ∨
          options.contentType = .xmlContent) ∧ !d.checkedForXmlCharset then
        d.checkForXMLCharset options data
      else ⟨d, true, css.movedDataToBuffer⟩
    if !xml.completed then (xml.decoder, [])
    else xml.decoder.decodeChecked p options data lengthOfBom xml.movedDataToBuffer

/-- `TextResourceDecoder::Decode`. -/
def decode (data : Bytes) : Decoder σ μ × Units :=
  let r := if !d.checkedForBom then d.checkForBOM options data else (d, 0)
  if !r.1.checkedForBom then ({ r.1 with buffer := r.1.buffer ++ data }, [])
  else r.1.decodeBehindBOM p options data r.2

/-- `TextResourceDecoder::Flush`. -/
def flush : Decoder σ μ × Units :=
  let tryAutoDetectEncoding : Bool :=
    match options.contentType with
    | .htmlContent | .xmlContent => !d.checkedForXmlCharset
    | .cssContent => !d.checkedForCssCharset
    | _ => false
  let d :=
    if d.buffer.length ≠ 0 ∧ tryAutoDetectEncoding then d.autoDetectEncodingIfAllowed options
    else d
  let r := d.callCodec p options d.buffer .fetchEOF
  ({ r.1 with codec := none, checkedForBom := false }, r.2)

/-- The texts of the chunks. -/
def decodeEach (d : Decoder σ μ) : List Bytes → Decoder σ μ × Units
  | [] => (d, [])
  | chunk :: chunks =>
    let r := d.decode p options chunk
    let q := decodeEach r.1 chunks
    (q.1, r.2 ++ q.2)

/-- `TextResource::DecodedText`. -/
def decodeAll (chunks : List Bytes) : Decoder σ μ × Units :=
  let r := d.decodeEach p options chunks
  let q := r.1.flush p options
  (q.1, r.2 ++ q.2)

/-- A new decoder, with the encoding of the HTTP header. -/
def withHeader (encoding : TextEncoding) : Decoder σ μ :=
  (create options).setEncoding options encoding .encodingFromHTTPHeader

end Decoder

end Blinkit.Text
