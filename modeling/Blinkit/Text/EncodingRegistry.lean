import Mathlib.Logic.Function.Basic

/-!
# The registry of text encodings

Translation of `text_encoding_registry.cpp`, of the constructors, `operator==`, the static encodings
and `IsNonByteBasedEncoding` of `TextEncoding`, and of what the codecs register.

* `Registry` — the two maps (`TextCodecMaps`), the flag of the second loading stage, the statics.
* `Address` — where the characters of the name of a label are. A node of the map of names is never
  moved or removed, and the names fit into their `std::string`, so a node is its place in the order
  of insertion.
* `TextEncoding` — the pointer to a name. Two encodings are the same when the pointers are.
* `Action` — what can be asked of the registry, for histories.

A label is given by its bytes. It ends at the first null.
-/

set_option autoImplicit false

namespace Blinkit.Text

open Function

abbrev Bytes := List UInt8

/-- The characters of a literal of the source. -/
def ascii (s : String) : Bytes := s.toList.map fun c => c.toNat.toUInt8

/-- `base::ToLowerASCII`. -/
def toLowerASCII (s : Bytes) : Bytes := s.map fun c => if 65 ≤ c ∧ c ≤ 90 then c + 32 else c

/-- The characters that a `const char *` stands for. -/
def cString (s : Bytes) : Bytes := s.takeWhile (· ≠ 0)

/-- The constructor of a `TextEncoding` takes a `const char *` or a `String`, given in UTF-8. -/
inductive Label where
  | pointer (name : Option Bytes)
  | string (aliasName : Bytes)
  deriving DecidableEq

/-! ## What the codecs register -/

inductive Codec where
  | windowsLatin1
  | utf8
  | utf16LE
  | utf16BE
  | replacement
  | userDefined
  deriving DecidableEq, Repr

/-- A codec's `RegisterEncodingNames` and `RegisterCodecs`. -/
structure Registration where
  encodingNames : List (String × String)
  codecs : List (String × Codec)

def textCodecLatin1 : Registration where
  encodingNames := [("windows-1252", "windows-1252"), ("ANSI_X3.4-1968", "windows-1252"),
    ("ASCII", "windows-1252"), ("cp1252", "windows-1252"), ("cp819", "windows-1252"),
    ("csISOLatin1", "windows-1252"), ("IBM819", "windows-1252"), ("ISO-8859-1", "windows-1252"),
    ("iso-ir-100", "windows-1252"), ("iso8859-1", "windows-1252"), ("iso88591", "windows-1252"),
    ("iso_8859-1", "windows-1252"), ("iso_8859-1:1987", "windows-1252"), ("l1", "windows-1252"),
    ("latin1", "windows-1252"), ("US-ASCII", "windows-1252"), ("x-cp1252", "windows-1252")]
  codecs := [("windows-1252", .windowsLatin1), ("ISO-8859-1", .windowsLatin1),
    ("US-ASCII", .windowsLatin1)]

def textCodecUTF8 : Registration where
  encodingNames := [("UTF-8", "UTF-8"), ("unicode11utf8", "UTF-8"), ("unicode20utf8", "UTF-8"),
    ("utf8", "UTF-8"), ("x-unicode20utf8", "UTF-8"), ("unicode-1-1-utf-8", "UTF-8")]
  codecs := [("UTF-8", .utf8)]

def textCodecUTF16 : Registration where
  encodingNames := [("UTF-16LE", "UTF-16LE"), ("UTF-16BE", "UTF-16BE"),
    ("ISO-10646-UCS-2", "UTF-16LE"), ("UCS-2", "UTF-16LE"), ("UTF-16", "UTF-16LE"),
    ("Unicode", "UTF-16LE"), ("csUnicode", "UTF-16LE"), ("unicodeFEFF", "UTF-16LE"),
    ("unicodeFFFE", "UTF-16BE")]
  codecs := [("UTF-16LE", .utf16LE), ("UTF-16BE", .utf16BE)]

def textCodecReplacement : Registration where
  encodingNames := [("replacement", "replacement"), ("csiso2022kr", "replacement"),
    ("hz-gb-2312", "replacement"), ("iso-2022-cn", "replacement"),
    ("iso-2022-cn-ext", "replacement"), ("iso-2022-kr", "replacement")]
  codecs := [("replacement", .replacement)]

def textCodecUserDefined : Registration where
  encodingNames := [("GBK", "GBK"), ("gb2312", "GBK")]
  codecs := [("GBK", .userDefined)]

/-! ## The registry -/

/-- The place of a node of `g_textEncodingNameMap`. -/
abbrev Address := Nat

/-- A node of `g_textEncodingNameMap`. -/
structure Node where
  aliasName : Bytes
  name : Bytes
  deriving DecidableEq

@[ext] structure TextEncoding where
  name : Option Address
  deriving DecidableEq

/-- `TextEncoding::IsValid`. -/
def TextEncoding.isValid (e : TextEncoding) : Bool := e.name.isSome

/-- The functions that keep an encoding in a static local. -/
inductive StaticEncoding where
  | asciiEncoding
  | latin1Encoding
  | utf16BigEndianEncoding
  | utf16LittleEndianEncoding
  | utf8Encoding
  | windowsLatin1Encoding
  | unknownEncoding
  deriving DecidableEq, Repr

/-- The label that a static encoding is made from. -/
def StaticEncoding.label : StaticEncoding → String
  | .asciiEncoding => "ASCII"
  | .latin1Encoding => "latin1"
  | .utf16BigEndianEncoding => "UTF-16BE"
  | .utf16LittleEndianEncoding => "UTF-16LE"
  | .utf8Encoding => "UTF-8"
  | .windowsLatin1Encoding => "WinLatin1"
  | .unknownEncoding => "Unknown"

structure TextCodecMaps where
  /-- `g_textEncodingNameMap`, in the order of insertion. -/
  textEncodingNameMap : List Node
  /-- `g_textCodecMap`. -/
  textCodecMap : List (Bytes × Codec)
  deriving DecidableEq

namespace TextCodecMaps

def empty : TextCodecMaps := ⟨[], []⟩

/-- `g_textEncodingNameMap.find`. -/
def find (m : TextCodecMaps) (aliasName : Bytes) : Option Address :=
  m.textEncodingNameMap.findIdx? fun node => node.aliasName == aliasName

/-- The characters at an address. -/
def characters (m : TextCodecMaps) (a : Address) : Option Bytes :=
  m.textEncodingNameMap[a]?.map Node.name

/-- `AddToTextEncodingNameMap`. -/
def addToTextEncodingNameMap (m : TextCodecMaps) (aliasName name : String) : TextCodecMaps :=
  let lower := toLowerASCII (ascii aliasName)
  match m.find lower with
  | some i =>
    { m with textEncodingNameMap :=
        m.textEncodingNameMap.modify i fun node => ⟨node.aliasName, ascii name⟩ }
  | none => { m with textEncodingNameMap := m.textEncodingNameMap ++ [⟨lower, ascii name⟩] }

/-- `AddToTextCodecMap`. The name has been added before. -/
def addToTextCodecMap (m : TextCodecMaps) (name : String) (codec : Codec) : TextCodecMaps :=
  match (m.find (toLowerASCII (ascii name))).bind m.characters with
  | some key =>
    { m with textCodecMap := (key, codec) :: m.textCodecMap.filter fun entry => entry.1 ≠ key }
  | none => m

def register (m : TextCodecMaps) (codec : Registration) : TextCodecMaps :=
  let m := codec.encodingNames.foldl (fun m entry => m.addToTextEncodingNameMap entry.1 entry.2) m
  codec.codecs.foldl (fun m entry => m.addToTextCodecMap entry.1 entry.2) m

/-- `BuildBaseTextCodecMaps`. -/
def buildBaseTextCodecMaps (m : TextCodecMaps) : TextCodecMaps :=
  [textCodecLatin1, textCodecUTF8, textCodecUTF16].foldl register m

/-- `ExtendTextCodecMaps`. -/
def extendTextCodecMaps (m : TextCodecMaps) : TextCodecMaps :=
  [textCodecReplacement, textCodecUserDefined].foldl register m

end TextCodecMaps

structure Registry where
  maps : TextCodecMaps
  /-- `g_textCodecMapsExtended`. -/
  textCodecMapsExtended : Bool
  statics : StaticEncoding → Option TextEncoding

namespace Registry

def initial : Registry := ⟨.empty, false, fun _ => none⟩

/-- `AtomicCanonicalTextEncodingName`, of a `const char *`. -/
def atomicCanonicalTextEncodingName (r : Registry) (name : Option Bytes) :
    Registry × Option Address :=
  match name.map cString with
  | none | some [] => (r, none)
  | some name =>
    let r :=
      if r.maps.textEncodingNameMap.isEmpty then { r with maps := r.maps.buildBaseTextCodecMaps }
      else r
    let lower := toLowerASCII name
    match r.maps.find lower with
    | some a => (r, some a)
    | none =>
      if r.textCodecMapsExtended then (r, none)
      else
        let maps := r.maps.extendTextCodecMaps
        ({ r with maps := maps, textCodecMapsExtended := true }, maps.find lower)

/-- `AtomicCanonicalTextEncodingName`, of a `String`. -/
def atomicCanonicalTextEncodingNameOfString (r : Registry) (aliasName : Bytes) :
    Registry × Option Address :=
  if aliasName.length = 0 then (r, none) else r.atomicCanonicalTextEncodingName (some aliasName)

/-- The constructors of `TextEncoding`. -/
def textEncoding (r : Registry) (label : Label) : Registry × TextEncoding :=
  let q :=
    match label with
    | .pointer name => r.atomicCanonicalTextEncodingName name
    | .string aliasName => r.atomicCanonicalTextEncodingNameOfString aliasName
  (q.1, ⟨q.2⟩)

/-- `UTF8Encoding` and the like: the encoding is made in the first call. -/
def staticEncoding (r : Registry) (k : StaticEncoding) : Registry × TextEncoding :=
  match r.statics k with
  | some e => (r, e)
  | none =>
    let q := r.textEncoding (.pointer (some (ascii k.label)))
    ({ q.1 with statics := update q.1.statics k (some q.2) }, q.2)

/-- `TextEncoding::IsNonByteBasedEncoding`; its two branches are the same. -/
def isNonByteBasedEncoding (r : Registry) (e : TextEncoding) : Registry × Bool :=
  let little := r.staticEncoding .utf16LittleEndianEncoding
  if e = little.2 then (little.1, true)
  else
    let big := little.1.staticEncoding .utf16BigEndianEncoding
    (big.1, e = big.2)

/-- The name that `TextEncoding::GetName` points to. -/
def getName (r : Registry) (e : TextEncoding) : Option Bytes := e.name.bind r.maps.characters

/-- The codec that `NewTextCodec` makes. -/
def newTextCodec (r : Registry) (e : TextEncoding) : Option Codec :=
  (r.getName e).bind fun name => r.maps.textCodecMap.lookup name

end Registry

/-! ## Histories -/

inductive Action where
  | textEncoding (label : Label)
  | staticEncoding (k : StaticEncoding)
  | isNonByteBasedEncoding (e : TextEncoding)

namespace Registry

def step (r : Registry) : Action → Registry
  | .textEncoding label => (r.textEncoding label).1
  | .staticEncoding k => (r.staticEncoding k).1
  | .isNonByteBasedEncoding e => (r.isNonByteBasedEncoding e).1

/-- The registry behind a history. -/
def after (r : Registry) (actions : List Action) : Registry := actions.foldl step r

end Registry

end Blinkit.Text
