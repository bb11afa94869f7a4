import Blinkit.Text.TextCodec

/-!
# Tokens

Translation of `html_token.h`: the token that the tokenizer works on.

* `HTMLToken` — the type and the data of all types; what a type does not use is left from before.
* `Event` — what the token says to those it is handed to, a character at a time.

The attribute that is worked on is the last one.
-/

set_option autoImplicit false

namespace Blinkit.Html

open Text (Units)

inductive TokenType where
  | uninitialized
  | doctype
  | startTag
  | endTag
  | comment
  | character
  | endOfFile
  deriving DecidableEq, Repr

/-- `HTMLToken::Attribute::Range`, of positions in the source. -/
structure Range where
  start : Int
  stop : Int
  deriving DecidableEq, Repr

/-- `kInvalidOffset`, at both ends. -/
def Range.invalid : Range := ⟨-1, -1⟩

/-- `HTMLToken::Attribute`. -/
structure Attribute where
  name : Units
  value : Units
  nameRange : Range
  valueRange : Range
  deriving DecidableEq, Repr

structure DoctypeData where
  hasPublicIdentifier : Bool
  hasSystemIdentifier : Bool
  publicIdentifier : Units
  systemIdentifier : Units
  forceQuirks : Bool
  deriving DecidableEq, Repr

def DoctypeData.new : DoctypeData := ⟨false, false, [], [], false⟩

structure HTMLToken where
  type : TokenType
  data : Units
  selfClosing : Bool
  attributes : List Attribute
  doctypeData : DoctypeData
  deriving DecidableEq, Repr

namespace HTMLToken

/-- The constructor. -/
def new : HTMLToken := ⟨.uninitialized, [], false, [], .new⟩

/-- `Clear`, which leaves what the types do not share. -/
def clear (token : HTMLToken) : HTMLToken := { token with type := .uninitialized, data := [] }

def makeEndOfFile (token : HTMLToken) : HTMLToken := { token with type := .endOfFile }

/-- `AppendToName`, `AppendToComment`, `AppendToCharacter`. -/
def append (token : HTMLToken) (characters : Units) : HTMLToken :=
  { token with data := token.data ++ characters }

/-- `EnsureIsCharacterToken` and `AppendToCharacter`, if there is anything to append. -/
def bufferCharacters (token : HTMLToken) (characters : Units) : HTMLToken :=
  if characters = [] then token
  else { token with type := .character, data := token.data ++ characters }

def beginStartTag (token : HTMLToken) (character : UInt16) : HTMLToken :=
  { token with
    type := .startTag
    selfClosing := false
    attributes := []
    data := token.data ++ [character] }

def beginEndTag (token : HTMLToken) (characters : Units) : HTMLToken :=
  { token with
    type := .endTag
    selfClosing := false
    attributes := []
    data := token.data ++ characters }

def setSelfClosing (token : HTMLToken) : HTMLToken := { token with selfClosing := true }

def beginComment (token : HTMLToken) : HTMLToken := { token with type := .comment }

/-- `BeginDOCTYPE`, with a character or without. -/
def beginDOCTYPE (token : HTMLToken) (characters : Units) : HTMLToken :=
  { token with type := .doctype, doctypeData := .new, data := token.data ++ characters }

def setForceQuirks (token : HTMLToken) : HTMLToken :=
  { token with doctypeData := { token.doctypeData with forceQuirks := true } }

def setPublicIdentifierToEmptyString (token : HTMLToken) : HTMLToken :=
  { token with
    doctypeData := { token.doctypeData with hasPublicIdentifier := true, publicIdentifier := [] } }

def setSystemIdentifierToEmptyString (token : HTMLToken) : HTMLToken :=
  { token with
    doctypeData := { token.doctypeData with hasSystemIdentifier := true, systemIdentifier := [] } }

def appendToPublicIdentifier (token : HTMLToken) (character : UInt16) : HTMLToken :=
  { token with
    doctypeData :=
      { token.doctypeData with
        publicIdentifier := token.doctypeData.publicIdentifier ++ [character] } }

def appendToSystemIdentifier (token : HTMLToken) (character : UInt16) : HTMLToken :=
  { token with
    doctypeData :=
      { token.doctypeData with
        systemIdentifier := token.doctypeData.systemIdentifier ++ [character] } }

/-! ## Attributes -/

def addNewAttribute (token : HTMLToken) : HTMLToken :=
  { token with attributes := token.attributes ++ [⟨[], [], .invalid, .invalid⟩] }

/-- The current attribute is changed. -/
def updateAttribute (token : HTMLToken) (f : Attribute → Attribute) : HTMLToken :=
  { token with
    attributes := token.attributes.dropLast ++ (token.attributes.getLast?.map f).toList }

def beginAttributeName (token : HTMLToken) (offset : Int) : HTMLToken :=
  token.updateAttribute fun a => { a with nameRange := { a.nameRange with start := offset } }

def endAttributeName (token : HTMLToken) (offset : Int) : HTMLToken :=
  token.updateAttribute fun a =>
    { a with nameRange := { a.nameRange with stop := offset }, valueRange := ⟨offset, offset⟩ }

def beginAttributeValue (token : HTMLToken) (offset : Int) : HTMLToken :=
  token.updateAttribute fun a => { a with valueRange := { Range.invalid with start := offset } }

def endAttributeValue (token : HTMLToken) (offset : Int) : HTMLToken :=
  token.updateAttribute fun a => { a with valueRange := { a.valueRange with stop := offset } }

def appendToAttributeName (token : HTMLToken) (character : UInt16) : HTMLToken :=
  token.updateAttribute fun a => { a with name := a.name ++ [character] }

/-- `AppendToAttributeValue`, of one character or several. -/
def appendToAttributeValue (token : HTMLToken) (characters : Units) : HTMLToken :=
  token.updateAttribute fun a => { a with value := a.value ++ characters }

end HTMLToken

/-! ## What tokens say -/

inductive Event where
  | character (c : UInt16)
  | startTag (name : Units) (selfClosing : Bool) (attributes : List Attribute)
  | endTag (name : Units) (selfClosing : Bool) (attributes : List Attribute)
  | comment (data : Units)
  | doctype (name : Units) (doctypeData : DoctypeData)
  | endOfFile
  deriving DecidableEq, Repr

/-- A token by what its type uses. -/
def HTMLToken.events (token : HTMLToken) : List Event :=
  match token.type with
  | .uninitialized => []
  | .doctype => [.doctype token.data token.doctypeData]
  | .startTag => [.startTag token.data token.selfClosing token.attributes]
  | .endTag => [.endTag token.data token.selfClosing token.attributes]
  | .comment => [.comment token.data]
  | .character => token.data.map .character
  | .endOfFile => [.endOfFile]

end Blinkit.Html
