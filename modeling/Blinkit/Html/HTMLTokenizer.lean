import Blinkit.Html.HTMLEntityParser
import Blinkit.Html.HTMLToken

/-!
# The tokenizer

Translation of `html_tokenizer.h`, `html_tokenizer.cc`, `input_stream_preprocessor.h` and
`markup_tokenizer_inlines.h`.

* `HTMLTokenizer` — the state, and the names and characters that are kept for later.
* `peek`, `advance` — the input stream is preprocessed: line ends and null characters.
* `Next` — how a state ends: the macros and functions behind a `goto` or a `return`.
* `textState`, `tagState`, `commentState`, `doctypeState` — the cases of the `switch`, by what they
  work on; `lookAheadState` — those that look at more than one character.
* `nextToken` — `NextToken`; `updateStateFor` — the state that a start tag leads to.

Parse errors are only logged and are not part of the translation.
-/

set_option autoImplicit false

namespace Blinkit.Html

open Platform
open Text (Units)

inductive State where
  | dataState
  | characterReferenceInDataState
  | rcdataState
  | characterReferenceInRCDATAState
  | rawtextState
  | scriptDataState
  | plaintextState
  | tagOpenState
  | endTagOpenState
  | tagNameState
  | rcdataLessThanSignState
  | rcdataEndTagOpenState
  | rcdataEndTagNameState
  | rawtextLessThanSignState
  | rawtextEndTagOpenState
  | rawtextEndTagNameState
  | scriptDataLessThanSignState
  | scriptDataEndTagOpenState
  | scriptDataEndTagNameState
  | scriptDataEscapeStartState
  | scriptDataEscapeStartDashState
  | scriptDataEscapedState
  | scriptDataEscapedDashState
  | scriptDataEscapedDashDashState
  | scriptDataEscapedLessThanSignState
  | scriptDataEscapedEndTagOpenState
  | scriptDataEscapedEndTagNameState
  | scriptDataDoubleEscapeStartState
  | scriptDataDoubleEscapedState
  | scriptDataDoubleEscapedDashState
  | scriptDataDoubleEscapedDashDashState
  | scriptDataDoubleEscapedLessThanSignState
  | scriptDataDoubleEscapeEndState
  | beforeAttributeNameState
  | attributeNameState
  | afterAttributeNameState
  | beforeAttributeValueState
  | attributeValueDoubleQuotedState
  | attributeValueSingleQuotedState
  | attributeValueUnquotedState
  | characterReferenceInAttributeValueState
  | afterAttributeValueQuotedState
  | selfClosingStartTagState
  | bogusCommentState
  | continueBogusCommentState
  | markupDeclarationOpenState
  | commentStartState
  | commentStartDashState
  | commentState
  | commentEndDashState
  | commentEndState
  | commentEndBangState
  | doctypeState
  | beforeDOCTYPENameState
  | doctypeNameState
  | afterDOCTYPENameState
  | afterDOCTYPEPublicKeywordState
  | beforeDOCTYPEPublicIdentifierState
  | doctypePublicIdentifierDoubleQuotedState
  | doctypePublicIdentifierSingleQuotedState
  | afterDOCTYPEPublicIdentifierState
  | betweenDOCTYPEPublicAndSystemIdentifiersState
  | afterDOCTYPESystemKeywordState
  | beforeDOCTYPESystemIdentifierState
  | doctypeSystemIdentifierDoubleQuotedState
  | doctypeSystemIdentifierSingleQuotedState
  | afterDOCTYPESystemIdentifierState
  | bogusDOCTYPEState
  | cdataSectionState
  | cdataSectionBracketState
  | cdataSectionEndState
  deriving DecidableEq, Repr

/-- `IsEndTagBufferingState`. -/
def State.isEndTagBuffering : State → Bool
  | .rcdataEndTagOpenState | .rcdataEndTagNameState
  | .rawtextEndTagOpenState | .rawtextEndTagNameState
  | .scriptDataEndTagOpenState | .scriptDataEndTagNameState
  | .scriptDataEscapedEndTagOpenState | .scriptDataEscapedEndTagNameState => true
  | _ => false

/-- `HTMLTokenizer`, with the flag of its `InputStreamPreprocessor`. -/
structure HTMLTokenizer where
  state : State
  forceNullCharacterReplacement : Bool
  shouldAllowCDATA : Bool
  additionalAllowedCharacter : UInt16
  skipNextNewLine : Bool
  appropriateEndTagName : Units
  temporaryBuffer : Units
  bufferedEndTagName : Units
  scriptEnabled : Bool
  deriving DecidableEq, Repr

/-! ## The input stream -/

/-- `kEndOfFileMarker`. -/
def endOfFileMarker : UInt16 := 0

namespace HTMLTokenizer

/-- A tokenizer for options that enable scripts or not. -/
def new (scriptEnabled : Bool) : HTMLTokenizer :=
  ⟨.dataState, false, false, 0, false, [], [], [], scriptEnabled⟩

def shouldSkipNullCharacters (k : HTMLTokenizer) : Bool :=
  !k.forceNullCharacterReplacement &&
    (k.state == .dataState || k.state == .rcdataState || k.state == .rawtextState)

/-- `ShouldTreatNullAsEndOfFileMarker`. -/
def shouldTreatNullAsEndOfFileMarker (source : Platform.SegmentedString) : Bool :=
  source.closed && source.length == 1

/-- What `ProcessNextInputCharacter` does to a character that it does not skip as a line feed. -/
def processCharacter (k : HTMLTokenizer) (source : Platform.SegmentedString)
    (again : HTMLTokenizer → Platform.SegmentedString →
      HTMLTokenizer × Platform.SegmentedString × Option UInt16) :
    HTMLTokenizer × Platform.SegmentedString × Option UInt16 :=
  let nextInputCharacter := source.currentChar
  if nextInputCharacter = chr '\r' then
    ({ k with skipNextNewLine := true }, source, some (chr '\n'))
  else
    let k := { k with skipNextNewLine := false }
    if nextInputCharacter = 0 ∧ shouldTreatNullAsEndOfFileMarker source = false then
      if k.shouldSkipNullCharacters then
        let source := source.advance
        if source.empty then (k, source, none) else again k source
      else (k, source, some 0xFFFD)
    else (k, source, some nextInputCharacter)

/-- `ProcessNextInputCharacter`, whose loop takes a character each time. -/
def processNextInputCharacter :
    Nat → HTMLTokenizer → Platform.SegmentedString →
      HTMLTokenizer × Platform.SegmentedString × Option UInt16
  | 0, k, source => (k, source, none)
  | fuel + 1, k, source =>
    if source.currentChar = chr '\n' ∧ k.skipNextNewLine = true then
      let k := { k with skipNextNewLine := false }
      let source := source.advance
      if source.empty then (k, source, none)
      else processCharacter k source (processNextInputCharacter fuel)
    else processCharacter k source (processNextInputCharacter fuel)

/-- `Peek`, with the character when there is one. -/
def peek (k : HTMLTokenizer) (source : Platform.SegmentedString) :
    HTMLTokenizer × Platform.SegmentedString × Option UInt16 :=
  if source.currentChar &&& 0xFFF0 ≠ 0 then
    ({ k with skipNextNewLine := false }, source, some source.currentChar)
  else processNextInputCharacter source.length k source

/-- `source.IsEmpty() || !Peek(source)`, the other way round. -/
def peekIfNotEmpty (k : HTMLTokenizer) (source : Platform.SegmentedString) :
    HTMLTokenizer × Platform.SegmentedString × Option UInt16 :=
  if source.empty then (k, source, none) else k.peek source

end HTMLTokenizer

/-! ## How a state ends -/

inductive Next where
  /-- `RECONSUME_IN`. -/
  | reconsumeIn (state : State)
  /-- `ADVANCE_TO`, or `CONSUME` for the same state. -/
  | advanceTo (state : State)
  /-- `ADVANCE_TO`, unless characters are queued, which are emitted first. -/
  | emitOrAdvanceTo (state : State)
  | emitAndResumeIn (state : State)
  | emitAndReconsumeIn (state : State)
  | emitEndOfFile
  /-- `FLUSH_AND_ADVANCE_TO`. -/
  | flushAndAdvanceTo (state : State)
  | flushEmitAndResumeIn (state : State)
  deriving DecidableEq, Repr

/-! ## Characters -/

/-- `IsTokenizerWhitespace`. -/
def isTokenizerWhitespace (cc : UInt16) : Bool :=
  cc == chr ' ' || cc == 0x0A || cc == 0x09 || cc == 0x0C

def isASCIIUpper (cc : UInt16) : Bool := chr 'A' ≤ cc && cc ≤ chr 'Z'

/-- `ToLowerCase`, of a letter. -/
def toLowerCase (cc : UInt16) : UInt16 := cc ||| 0x20

/-- `ToLowerCaseIfAlpha`. -/
def toLowerCaseIfAlpha (cc : UInt16) : UInt16 := cc ||| (if isASCIIUpper cc then 0x20 else 0)

/-- The name of `kScriptTag`. -/
def kScriptTag : Units := ['s', 'c', 'r', 'i', 'p', 't'].map chr

/-! ## States between tags

What a state does to the members, the characters it buffers, and how it ends. -/

abbrev TextStep := HTMLTokenizer × Units × Next

/-- `kRCDATALessThanSignState`, `kRAWTEXTLessThanSignState`: a text that only its end tag ends. -/
def lessThanSignState (text endTagOpen : State) (k : HTMLTokenizer) (cc : UInt16) : TextStep :=
  if cc = chr '/' then ({ k with temporaryBuffer := [] }, [], .advanceTo endTagOpen)
  else (k, [chr '<'], .reconsumeIn text)

/-- A letter of a possible end tag, as it is and with `AddToPossibleEndTag`. -/
def addToPossibleEndTag (k : HTMLTokenizer) (cc : UInt16) : HTMLTokenizer :=
  { k with
    temporaryBuffer := k.temporaryBuffer ++ [cc]
    bufferedEndTagName := k.bufferedEndTagName ++ [toLowerCase cc] }

/-- `kRCDATAEndTagOpenState` and its like. -/
def possibleEndTagOpenState (text endTagName : State) (k : HTMLTokenizer) (cc : UInt16) :
    TextStep :=
  if isASCIIAlpha cc then (addToPossibleEndTag k cc, [], .advanceTo endTagName)
  else (k, [chr '<', chr '/'], .reconsumeIn text)

/-- `IsAppropriateEndTag`. -/
def isAppropriateEndTag (k : HTMLTokenizer) : Bool :=
  k.bufferedEndTagName == k.appropriateEndTagName

/-- `kRCDATAEndTagNameState` and its like. -/
def possibleEndTagNameState (text endTagName : State) (k : HTMLTokenizer) (cc : UInt16) :
    TextStep :=
  let pushed := { k with temporaryBuffer := k.temporaryBuffer ++ [cc] }
  if isASCIIAlpha cc then (addToPossibleEndTag k cc, [], .advanceTo endTagName)
  else if isTokenizerWhitespace cc ∧ isAppropriateEndTag k then
    (pushed, [], .flushAndAdvanceTo .beforeAttributeNameState)
  else if cc = chr '/' ∧ isAppropriateEndTag k then
    (pushed, [], .flushAndAdvanceTo .selfClosingStartTagState)
  else if cc = chr '>' ∧ isAppropriateEndTag k then (pushed, [], .flushEmitAndResumeIn .dataState)
  else
    ({ k with bufferedEndTagName := [], temporaryBuffer := [] },
      [chr '<', chr '/'] ++ k.temporaryBuffer, .reconsumeIn text)

/-- `kScriptDataEscapeStartState`, `kScriptDataEscapeStartDashState`. -/
def escapeStartState (state : State) (k : HTMLTokenizer) (cc : UInt16) : TextStep :=
  if cc = chr '-' then (k, [cc], .advanceTo state) else (k, [], .reconsumeIn .scriptDataState)

/-- `kScriptDataEscapedState` and its like, where a dash leads to `dash`, two of them and a `>` back
to the script, and another character to the state `escaped`. A `<` is buffered by the states of the
double escape only. -/
def escapedState (dash escaped lessThanSign : State) (buffersLessThanSign endsWithDashes : Bool)
    (k : HTMLTokenizer) (cc : UInt16) : TextStep :=
  if cc = chr '-' then (k, [cc], .advanceTo dash)
  else if cc = chr '<' then
    (k, if buffersLessThanSign then [cc] else [], .advanceTo lessThanSign)
  else if cc = chr '>' ∧ endsWithDashes = true then (k, [cc], .advanceTo .scriptDataState)
  else if cc = endOfFileMarker then (k, [], .reconsumeIn .dataState)
  else (k, [cc], .advanceTo escaped)

/-- `kScriptDataDoubleEscapeStartState`, `kScriptDataDoubleEscapeEndState`: the name is that of a
script or not. -/
def doubleEscapeState (state script otherwise reconsume : State) (k : HTMLTokenizer) (cc : UInt16) :
    TextStep :=
  if isTokenizerWhitespace cc = true ∨ cc = chr '/' ∨ cc = chr '>' then
    (k, [cc], .advanceTo (if k.temporaryBuffer = kScriptTag then script else otherwise))
  else if isASCIIAlpha cc then
    ({ k with temporaryBuffer := k.temporaryBuffer ++ [toLowerCase cc] }, [cc], .advanceTo state)
  else (k, [], .reconsumeIn reconsume)

/-- The states that only buffer characters. -/
def textState (k : HTMLTokenizer) (cc : UInt16) : Option TextStep :=
  match k.state with
  | .dataState =>
    if cc = chr '&' then some (k, [], .advanceTo .characterReferenceInDataState)
    else if cc = chr '<' then some (k, [], .emitOrAdvanceTo .tagOpenState)
    else if cc = endOfFileMarker then some (k, [], .emitEndOfFile)
    else some (k, [cc], .advanceTo .dataState)
  | .rcdataState =>
    if cc = chr '&' then some (k, [], .advanceTo .characterReferenceInRCDATAState)
    else if cc = chr '<' then some (k, [], .advanceTo .rcdataLessThanSignState)
    else if cc = endOfFileMarker then some (k, [], .emitEndOfFile)
    else some (k, [cc], .advanceTo .rcdataState)
  | .rawtextState =>
    if cc = chr '<' then some (k, [], .advanceTo .rawtextLessThanSignState)
    else if cc = endOfFileMarker then some (k, [], .emitEndOfFile)
    else some (k, [cc], .advanceTo .rawtextState)
  | .scriptDataState =>
    if cc = chr '<' then some (k, [], .advanceTo .scriptDataLessThanSignState)
    else if cc = endOfFileMarker then some (k, [], .emitEndOfFile)
    else some (k, [cc], .advanceTo .scriptDataState)
  | .plaintextState =>
    if cc = endOfFileMarker then some (k, [], .emitEndOfFile)
    else some (k, [cc], .advanceTo .plaintextState)
  | .rcdataLessThanSignState => some (lessThanSignState .rcdataState .rcdataEndTagOpenState k cc)
  | .rcdataEndTagOpenState =>
    some (possibleEndTagOpenState .rcdataState .rcdataEndTagNameState k cc)
  | .rcdataEndTagNameState =>
    some (possibleEndTagNameState .rcdataState .rcdataEndTagNameState k cc)
  | .rawtextLessThanSignState =>
    some (lessThanSignState .rawtextState .rawtextEndTagOpenState k cc)
  | .rawtextEndTagOpenState =>
    some (possibleEndTagOpenState .rawtextState .rawtextEndTagNameState k cc)
  | .rawtextEndTagNameState =>
    some (possibleEndTagNameState .rawtextState .rawtextEndTagNameState k cc)
  | .scriptDataLessThanSignState =>
    if cc = chr '/' then
      some ({ k with temporaryBuffer := [] }, [], .advanceTo .scriptDataEndTagOpenState)
    else if cc = chr '!' then
      some (k, [chr '<', chr '!'], .advanceTo .scriptDataEscapeStartState)
    else some (k, [chr '<'], .reconsumeIn .scriptDataState)
  | .scriptDataEndTagOpenState =>
    some (possibleEndTagOpenState .scriptDataState .scriptDataEndTagNameState k cc)
  | .scriptDataEndTagNameState =>
    some (possibleEndTagNameState .scriptDataState .scriptDataEndTagNameState k cc)
  | .scriptDataEscapeStartState => some (escapeStartState .scriptDataEscapeStartDashState k cc)
  | .scriptDataEscapeStartDashState => some (escapeStartState .scriptDataEscapedDashDashState k cc)
  | .scriptDataEscapedState =>
    some (escapedState .scriptDataEscapedDashState .scriptDataEscapedState
      .scriptDataEscapedLessThanSignState false false k cc)
  | .scriptDataEscapedDashState =>
    some (escapedState .scriptDataEscapedDashDashState .scriptDataEscapedState
      .scriptDataEscapedLessThanSignState false false k cc)
  | .scriptDataEscapedDashDashState =>
    some (escapedState .scriptDataEscapedDashDashState .scriptDataEscapedState
      .scriptDataEscapedLessThanSignState false true k cc)
  | .scriptDataEscapedLessThanSignState =>
    if cc = chr '/' then
      some ({ k with temporaryBuffer := [] }, [], .advanceTo .scriptDataEscapedEndTagOpenState)
    else if isASCIIAlpha cc then
      some ({ k with temporaryBuffer := [toLowerCase cc] }, [chr '<', cc],
        .advanceTo .scriptDataDoubleEscapeStartState)
    else some (k, [chr '<'], .reconsumeIn .scriptDataEscapedState)
  | .scriptDataEscapedEndTagOpenState =>
    some (possibleEndTagOpenState .scriptDataEscapedState .scriptDataEscapedEndTagNameState k cc)
  | .scriptDataEscapedEndTagNameState =>
    some (possibleEndTagNameState .scriptDataEscapedState .scriptDataEscapedEndTagNameState k cc)
  | .scriptDataDoubleEscapeStartState =>
    some (doubleEscapeState .scriptDataDoubleEscapeStartState .scriptDataDoubleEscapedState
      .scriptDataEscapedState .scriptDataEscapedState k cc)
  | .scriptDataDoubleEscapedState =>
    some (escapedState .scriptDataDoubleEscapedDashState .scriptDataDoubleEscapedState
      .scriptDataDoubleEscapedLessThanSignState true false k cc)
  | .scriptDataDoubleEscapedDashState =>
    some (escapedState .scriptDataDoubleEscapedDashDashState .scriptDataDoubleEscapedState
      .scriptDataDoubleEscapedLessThanSignState true false k cc)
  | .scriptDataDoubleEscapedDashDashState =>
    some (escapedState .scriptDataDoubleEscapedDashDashState .scriptDataDoubleEscapedState
      .scriptDataDoubleEscapedLessThanSignState true true k cc)
  | .scriptDataDoubleEscapedLessThanSignState =>
    if cc = chr '/' then
      some ({ k with temporaryBuffer := [] }, [cc], .advanceTo .scriptDataDoubleEscapeEndState)
    else some (k, [], .reconsumeIn .scriptDataDoubleEscapedState)
  | .scriptDataDoubleEscapeEndState =>
    some (doubleEscapeState .scriptDataDoubleEscapeEndState .scriptDataEscapedState
      .scriptDataDoubleEscapedState .scriptDataDoubleEscapedState k cc)
  | .cdataSectionState =>
    if cc = chr ']' then some (k, [], .advanceTo .cdataSectionBracketState)
    else if cc = endOfFileMarker then some (k, [], .reconsumeIn .dataState)
    else some (k, [cc], .advanceTo .cdataSectionState)
  | .cdataSectionBracketState =>
    if cc = chr ']' then some (k, [], .advanceTo .cdataSectionEndState)
    else some (k, [chr ']'], .reconsumeIn .cdataSectionState)
  | .cdataSectionEndState =>
    if cc = chr ']' then some (k, [chr ']'], .advanceTo .cdataSectionEndState)
    else if cc = chr '>' then some (k, [], .advanceTo .dataState)
    else some (k, [chr ']', chr ']'], .reconsumeIn .cdataSectionState)
  | _ => none

/-! ## States of tags

What a state does to the members and the token, and how it ends. `position` is what
`NumberOfCharactersConsumed` says. -/

abbrev TokenStep := HTMLTokenizer × HTMLToken × Next

/-- The beginning of an attribute. -/
def beginAttribute (token : HTMLToken) (cc : UInt16) (position : Int) : HTMLToken :=
  ((token.addNewAttribute).beginAttributeName position).appendToAttributeName
    (toLowerCaseIfAlpha cc)

/-- `kAttributeValueDoubleQuotedState`, `kAttributeValueSingleQuotedState`. -/
def quotedValueState (quote : UInt16) (state : State) (k : HTMLTokenizer) (token : HTMLToken)
    (cc : UInt16) (position : Int) : TokenStep :=
  if cc = quote then
    (k, token.endAttributeValue position, .advanceTo .afterAttributeValueQuotedState)
  else if cc = chr '&' then
    ({ k with additionalAllowedCharacter := quote }, token,
      .advanceTo .characterReferenceInAttributeValueState)
  else if cc = endOfFileMarker then
    (k, token.endAttributeValue position, .reconsumeIn .dataState)
  else (k, token.appendToAttributeValue [cc], .advanceTo state)

/-- The states of start tags and end tags. -/
def tagState (k : HTMLTokenizer) (token : HTMLToken) (cc : UInt16) (position : Int) :
    Option TokenStep :=
  match k.state with
  | .tagOpenState =>
    if cc = chr '!' then some (k, token, .advanceTo .markupDeclarationOpenState)
    else if cc = chr '/' then some (k, token, .advanceTo .endTagOpenState)
    else if isASCIIAlpha cc then
      some (k, token.beginStartTag (toLowerCase cc), .advanceTo .tagNameState)
    else if cc = chr '?' then some (k, token, .reconsumeIn .bogusCommentState)
    else some (k, token.bufferCharacters [chr '<'], .reconsumeIn .dataState)
  | .endTagOpenState =>
    if isASCIIAlpha cc then
      some ({ k with appropriateEndTagName := [] }, token.beginEndTag [toLowerCase cc],
        .advanceTo .tagNameState)
    else if cc = chr '>' then some (k, token, .advanceTo .dataState)
    else if cc = endOfFileMarker then
      some (k, token.bufferCharacters [chr '<', chr '/'], .reconsumeIn .dataState)
    else some (k, token, .reconsumeIn .bogusCommentState)
  | .tagNameState =>
    if isTokenizerWhitespace cc then some (k, token, .advanceTo .beforeAttributeNameState)
    else if cc = chr '/' then some (k, token, .advanceTo .selfClosingStartTagState)
    else if cc = chr '>' then some (k, token, .emitAndResumeIn .dataState)
    else if cc = endOfFileMarker then some (k, token, .reconsumeIn .dataState)
    else some (k, token.append [toLowerCaseIfAlpha cc], .advanceTo .tagNameState)
  | .beforeAttributeNameState =>
    if isTokenizerWhitespace cc then some (k, token, .advanceTo .beforeAttributeNameState)
    else if cc = chr '/' then some (k, token, .advanceTo .selfClosingStartTagState)
    else if cc = chr '>' then some (k, token, .emitAndResumeIn .dataState)
    else if cc = endOfFileMarker then some (k, token, .reconsumeIn .dataState)
    else some (k, beginAttribute token cc position, .advanceTo .attributeNameState)
  | .attributeNameState =>
    if isTokenizerWhitespace cc then
      some (k, token.endAttributeName position, .advanceTo .afterAttributeNameState)
    else if cc = chr '/' then
      some (k, token.endAttributeName position, .advanceTo .selfClosingStartTagState)
    else if cc = chr '=' then
      some (k, token.endAttributeName position, .advanceTo .beforeAttributeValueState)
    else if cc = chr '>' then
      some (k, token.endAttributeName position, .emitAndResumeIn .dataState)
    else if cc = endOfFileMarker then
      some (k, token.endAttributeName position, .reconsumeIn .dataState)
    else
      some (k, token.appendToAttributeName (toLowerCaseIfAlpha cc), .advanceTo .attributeNameState)
  | .afterAttributeNameState =>
    if isTokenizerWhitespace cc then some (k, token, .advanceTo .afterAttributeNameState)
    else if cc = chr '/' then some (k, token, .advanceTo .selfClosingStartTagState)
    else if cc = chr '=' then some (k, token, .advanceTo .beforeAttributeValueState)
    else if cc = chr '>' then some (k, token, .emitAndResumeIn .dataState)
    else if cc = endOfFileMarker then some (k, token, .reconsumeIn .dataState)
    else some (k, beginAttribute token cc position, .advanceTo .attributeNameState)
  | .beforeAttributeValueState =>
    if isTokenizerWhitespace cc then some (k, token, .advanceTo .beforeAttributeValueState)
    else if cc = chr '\x22' then
      some (k, token.beginAttributeValue (position + 1),
        .advanceTo .attributeValueDoubleQuotedState)
    else if cc = chr '&' then
      some (k, token.beginAttributeValue position, .reconsumeIn .attributeValueUnquotedState)
    else if cc = chr '\x27' then
      some (k, token.beginAttributeValue (position + 1),
        .advanceTo .attributeValueSingleQuotedState)
    else if cc = chr '>' then some (k, token, .emitAndResumeIn .dataState)
    else if cc = endOfFileMarker then some (k, token, .reconsumeIn .dataState)
    else
      some (k, (token.beginAttributeValue position).appendToAttributeValue [cc],
        .advanceTo .attributeValueUnquotedState)
  | .attributeValueDoubleQuotedState =>
    some (quotedValueState (chr '\x22') .attributeValueDoubleQuotedState k token cc position)
  | .attributeValueSingleQuotedState =>
    some (quotedValueState (chr '\x27') .attributeValueSingleQuotedState k token cc position)
  | .attributeValueUnquotedState =>
    if isTokenizerWhitespace cc then
      some (k, token.endAttributeValue position, .advanceTo .beforeAttributeNameState)
    else if cc = chr '&' then
      some ({ k with additionalAllowedCharacter := chr '>' }, token,
        .advanceTo .characterReferenceInAttributeValueState)
    else if cc = chr '>' then
      some (k, token.endAttributeValue position, .emitAndResumeIn .dataState)
    else if cc = endOfFileMarker then
      some (k, token.endAttributeValue position, .reconsumeIn .dataState)
    else some (k, token.appendToAttributeValue [cc], .advanceTo .attributeValueUnquotedState)
  | .afterAttributeValueQuotedState =>
    if isTokenizerWhitespace cc then some (k, token, .advanceTo .beforeAttributeNameState)
    else if cc = chr '/' then some (k, token, .advanceTo .selfClosingStartTagState)
    else if cc = chr '>' then some (k, token, .emitAndResumeIn .dataState)
    else if cc = endOfFileMarker then some (k, token, .reconsumeIn .dataState)
    else some (k, token, .reconsumeIn .beforeAttributeNameState)
  | .selfClosingStartTagState =>
    if cc = chr '>' then some (k, token.setSelfClosing, .emitAndResumeIn .dataState)
    else if cc = endOfFileMarker then some (k, token, .reconsumeIn .dataState)
    else some (k, token, .reconsumeIn .beforeAttributeNameState)
  | _ => none

/-! ## States of comments -/

/-- The states of comments: what they do to the token, and how they end. -/
def commentState (state : State) (token : HTMLToken) (cc : UInt16) : Option (HTMLToken × Next) :=
  match state with
  | .bogusCommentState => some (token.beginComment, .reconsumeIn .continueBogusCommentState)
  | .continueBogusCommentState =>
    if cc = chr '>' then some (token, .emitAndResumeIn .dataState)
    else if cc = endOfFileMarker then some (token, .emitAndReconsumeIn .dataState)
    else some (token.append [cc], .advanceTo .continueBogusCommentState)
  | .commentStartState =>
    if cc = chr '-' then some (token, .advanceTo .commentStartDashState)
    else if cc = chr '>' then some (token, .emitAndResumeIn .dataState)
    else if cc = endOfFileMarker then some (token, .emitAndReconsumeIn .dataState)
    else some (token.append [cc], .advanceTo .commentState)
  | .commentStartDashState =>
    if cc = chr '-' then some (token, .advanceTo .commentEndState)
    else if cc = chr '>' then some (token, .emitAndResumeIn .dataState)
    else if cc = endOfFileMarker then some (token, .emitAndReconsumeIn .dataState)
    else some (token.append [chr '-', cc], .advanceTo .commentState)
  | .commentState =>
    if cc = chr '-' then some (token, .advanceTo .commentEndDashState)
    else if cc = endOfFileMarker then some (token, .emitAndReconsumeIn .dataState)
    else some (token.append [cc], .advanceTo .commentState)
  | .commentEndDashState =>
    if cc = chr '-' then some (token, .advanceTo .commentEndState)
    else if cc = endOfFileMarker then some (token, .emitAndReconsumeIn .dataState)
    else some (token.append [chr '-', cc], .advanceTo .commentState)
  | .commentEndState =>
    if cc = chr '>' then some (token, .emitAndResumeIn .dataState)
    else if cc = chr '!' then some (token, .advanceTo .commentEndBangState)
    else if cc = chr '-' then some (token.append [chr '-'], .advanceTo .commentEndState)
    else if cc = endOfFileMarker then some (token, .emitAndReconsumeIn .dataState)
    else some (token.append [chr '-', chr '-', cc], .advanceTo .commentState)
  | .commentEndBangState =>
    if cc = chr '-' then
      some (token.append [chr '-', chr '-', chr '!'], .advanceTo .commentEndDashState)
    else if cc = chr '>' then some (token, .emitAndResumeIn .dataState)
    else if cc = endOfFileMarker then some (token, .emitAndReconsumeIn .dataState)
    else some (token.append [chr '-', chr '-', chr '!', cc], .advanceTo .commentState)
  | _ => none

/-! ## States of document types -/

/-- What ends a document type before it is complete: a `>`, the end, or something else. -/
def brokenDOCTYPE (token : HTMLToken) (cc : UInt16) : HTMLToken × Next :=
  if cc = chr '>' then (token.setForceQuirks, .emitAndResumeIn .dataState)
  else if cc = endOfFileMarker then (token.setForceQuirks, .emitAndReconsumeIn .dataState)
  else (token.setForceQuirks, .advanceTo .bogusDOCTYPEState)

/-- A quote begins an identifier, another character is `otherwise`. -/
def beginsIdentifier (setToEmptyString : HTMLToken → HTMLToken) (double single : State)
    (token : HTMLToken) (cc : UInt16) (otherwise : HTMLToken × Next) : HTMLToken × Next :=
  if cc = chr '\x22' then (setToEmptyString token, .advanceTo double)
  else if cc = chr '\x27' then (setToEmptyString token, .advanceTo single)
  else otherwise

/-- A public identifier begins. -/
def beginsPublicIdentifier : HTMLToken → UInt16 → HTMLToken × Next → HTMLToken × Next :=
  beginsIdentifier .setPublicIdentifierToEmptyString .doctypePublicIdentifierDoubleQuotedState
    .doctypePublicIdentifierSingleQuotedState

/-- A system identifier begins. -/
def beginsSystemIdentifier : HTMLToken → UInt16 → HTMLToken × Next → HTMLToken × Next :=
  beginsIdentifier .setSystemIdentifierToEmptyString .doctypeSystemIdentifierDoubleQuotedState
    .doctypeSystemIdentifierSingleQuotedState

/-- The states of quoted identifiers. -/
def identifierState (quote : UInt16) (state after : State)
    (appendTo : HTMLToken → UInt16 → HTMLToken) (token : HTMLToken) (cc : UInt16) :
    HTMLToken × Next :=
  if cc = quote then (token, .advanceTo after)
  else if cc = chr '>' ∨ cc = endOfFileMarker then brokenDOCTYPE token cc
  else (appendTo token cc, .advanceTo state)

/-- The states of document types: what they do to the token, and how they end. -/
def doctypeState (state : State) (token : HTMLToken) (cc : UInt16) : Option (HTMLToken × Next) :=
  match state with
  | .doctypeState =>
    if isTokenizerWhitespace cc then some (token, .advanceTo .beforeDOCTYPENameState)
    else if cc = endOfFileMarker then
      some ((token.beginDOCTYPE []).setForceQuirks, .emitAndReconsumeIn .dataState)
    else some (token, .reconsumeIn .beforeDOCTYPENameState)
  | .beforeDOCTYPENameState =>
    if isTokenizerWhitespace cc then some (token, .advanceTo .beforeDOCTYPENameState)
    else if cc = chr '>' then
      some ((token.beginDOCTYPE []).setForceQuirks, .emitAndResumeIn .dataState)
    else if cc = endOfFileMarker then
      some ((token.beginDOCTYPE []).setForceQuirks, .emitAndReconsumeIn .dataState)
    else some (token.beginDOCTYPE [toLowerCaseIfAlpha cc], .advanceTo .doctypeNameState)
  | .doctypeNameState =>
    if isTokenizerWhitespace cc then some (token, .advanceTo .afterDOCTYPENameState)
    else if cc = chr '>' then some (token, .emitAndResumeIn .dataState)
    else if cc = endOfFileMarker then
      some (token.setForceQuirks, .emitAndReconsumeIn .dataState)
    else some (token.append [toLowerCaseIfAlpha cc], .advanceTo .doctypeNameState)
  | .afterDOCTYPEPublicKeywordState =>
    if isTokenizerWhitespace cc then some (token, .advanceTo .beforeDOCTYPEPublicIdentifierState)
    else some (beginsPublicIdentifier token cc (brokenDOCTYPE token cc))
  | .beforeDOCTYPEPublicIdentifierState =>
    if isTokenizerWhitespace cc then some (token, .advanceTo .beforeDOCTYPEPublicIdentifierState)
    else some (beginsPublicIdentifier token cc (brokenDOCTYPE token cc))
  | .doctypePublicIdentifierDoubleQuotedState =>
    some (identifierState (chr '\x22') .doctypePublicIdentifierDoubleQuotedState
      .afterDOCTYPEPublicIdentifierState .appendToPublicIdentifier token cc)
  | .doctypePublicIdentifierSingleQuotedState =>
    some (identifierState (chr '\x27') .doctypePublicIdentifierSingleQuotedState
      .afterDOCTYPEPublicIdentifierState .appendToPublicIdentifier token cc)
  | .afterDOCTYPEPublicIdentifierState =>
    if isTokenizerWhitespace cc then
      some (token, .advanceTo .betweenDOCTYPEPublicAndSystemIdentifiersState)
    else if cc = chr '>' then some (token, .emitAndResumeIn .dataState)
    else some (beginsSystemIdentifier token cc (brokenDOCTYPE token cc))
  | .betweenDOCTYPEPublicAndSystemIdentifiersState =>
    if isTokenizerWhitespace cc then
      some (token, .advanceTo .betweenDOCTYPEPublicAndSystemIdentifiersState)
    else if cc = chr '>' then some (token, .emitAndResumeIn .dataState)
    else some (beginsSystemIdentifier token cc (brokenDOCTYPE token cc))
  | .afterDOCTYPESystemKeywordState =>
    if isTokenizerWhitespace cc then some (token, .advanceTo .beforeDOCTYPESystemIdentifierState)
    else some (beginsSystemIdentifier token cc (brokenDOCTYPE token cc))
  | .beforeDOCTYPESystemIdentifierState =>
    if isTokenizerWhitespace cc then some (token, .advanceTo .beforeDOCTYPESystemIdentifierState)
    else some (beginsSystemIdentifier token cc (brokenDOCTYPE token cc))
  | .doctypeSystemIdentifierDoubleQuotedState =>
    some (identifierState (chr '\x22') .doctypeSystemIdentifierDoubleQuotedState
      .afterDOCTYPESystemIdentifierState .appendToSystemIdentifier token cc)
  | .doctypeSystemIdentifierSingleQuotedState =>
    some (identifierState (chr '\x27') .doctypeSystemIdentifierSingleQuotedState
      .afterDOCTYPESystemIdentifierState .appendToSystemIdentifier token cc)
  | .afterDOCTYPESystemIdentifierState =>
    if isTokenizerWhitespace cc then some (token, .advanceTo .afterDOCTYPESystemIdentifierState)
    else if cc = chr '>' then some (token, .emitAndResumeIn .dataState)
    else if cc = endOfFileMarker then
      some (token.setForceQuirks, .emitAndReconsumeIn .dataState)
    else some (token, .advanceTo .bogusDOCTYPEState)
  | .bogusDOCTYPEState =>
    if cc = chr '>' then some (token, .emitAndResumeIn .dataState)
    else if cc = endOfFileMarker then some (token, .emitAndReconsumeIn .dataState)
    else some (token, .advanceTo .bogusDOCTYPEState)
  | _ => none

/-- The states that look at one character. -/
def ordinaryState (k : HTMLTokenizer) (token : HTMLToken) (cc : UInt16) (position : Int) :
    Option TokenStep :=
  match textState k cc with
  | some (k, characters, next) => some (k, token.bufferCharacters characters, next)
  | none =>
    match tagState k token cc position with
    | some step => some step
    | none =>
      match commentState k.state token cc with
      | some (token, next) => some (k, token, next)
      | none =>
        match doctypeState k.state token cc with
        | some (token, next) => some (k, token, next)
        | none => none

/-! ## States that look at more characters -/

/-- What such a state asks of the source. A reference is put where `put` says, and a match leads to
the token and the state that stand behind the string. -/
inductive Question where
  | reference (additionalAllowedCharacter : UInt16) (put : Units → HTMLToken) (state : State)
  | lookAhead (string : List Char) (ignoringCase : Bool) (token : HTMLToken) (state : State)
      (otherwise : HTMLToken × Next)
  | nothing (token : HTMLToken) (next : Next)

/-- The state that the additional character stands for. -/
def attributeValueState (additionalAllowedCharacter : UInt16) : State :=
  if additionalAllowedCharacter = chr '\x22' then .attributeValueDoubleQuotedState
  else if additionalAllowedCharacter = chr '\x27' then .attributeValueSingleQuotedState
  else .attributeValueUnquotedState

/-- `kMarkupDeclarationOpenState`. -/
def markupDeclarationOpenState (k : HTMLTokenizer) (token : HTMLToken) (cc : UInt16) : Question :=
  let bogus : HTMLToken × Next := (token, .reconsumeIn .bogusCommentState)
  if cc = chr '-' then .lookAhead ['-', '-'] false token.beginComment .commentStartState bogus
  else if cc = chr 'D' ∨ cc = chr 'd' then
    .lookAhead ['d', 'o', 'c', 't', 'y', 'p', 'e'] true token .doctypeState bogus
  else if cc = chr '[' ∧ k.shouldAllowCDATA = true then
    .lookAhead ['[', 'C', 'D', 'A', 'T', 'A', '['] false token .cdataSectionState bogus
  else .nothing bogus.1 bogus.2

/-- `kAfterDOCTYPENameState`. -/
def afterDOCTYPENameState (token : HTMLToken) (cc : UInt16) : Question :=
  let broken := brokenDOCTYPE token cc
  if isTokenizerWhitespace cc then .nothing token (.advanceTo .afterDOCTYPENameState)
  else if cc = chr '>' then .nothing token (.emitAndResumeIn .dataState)
  else if cc = chr 'P' ∨ cc = chr 'p' then
    .lookAhead ['p', 'u', 'b', 'l', 'i', 'c'] true token .afterDOCTYPEPublicKeywordState broken
  else if cc = chr 'S' ∨ cc = chr 's' then
    .lookAhead ['s', 'y', 's', 't', 'e', 'm'] true token .afterDOCTYPESystemKeywordState broken
  else .nothing broken.1 broken.2

/-- The states that are not ordinary. -/
def lookAheadState (k : HTMLTokenizer) (token : HTMLToken) (cc : UInt16) : Question :=
  match k.state with
  | .characterReferenceInDataState => .reference 0 token.bufferCharacters .dataState
  | .characterReferenceInRCDATAState => .reference 0 token.bufferCharacters .rcdataState
  | .characterReferenceInAttributeValueState =>
    .reference k.additionalAllowedCharacter token.appendToAttributeValue
      (attributeValueState k.additionalAllowedCharacter)
  | .markupDeclarationOpenState => markupDeclarationOpenState k token cc
  | _ => afterDOCTYPENameState token cc

/-- How such a state ends: more must be seen, `SWITCH_TO`, or like the others. -/
inductive LookAheadStep where
  | notEnoughCharacters (source : Platform.SegmentedString)
  | switchTo (token : HTMLToken) (state : State) (source : Platform.SegmentedString)
  | goOn (token : HTMLToken) (next : Next) (source : Platform.SegmentedString)

/-- The source is asked. Characters are consumed when they match, and those of a reference; `&` is
put where there is none. -/
def answer (table : HTMLEntityTable) (source : Platform.SegmentedString) : Question → LookAheadStep
  | .reference additionalAllowedCharacter put state =>
    let r := consumeHTMLEntity table source additionalAllowedCharacter
    match r.2 with
    | .notEnoughCharacters => .notEnoughCharacters r.1
    | .failure => .switchTo (put [chr '&']) state r.1
    | .success decodedEntity => .switchTo (put decodedEntity) state r.1
  | .lookAhead string ignoringCase token state otherwise =>
    let r := source.lookAhead (string.map chr) ignoringCase
    match r.2 with
    | .didMatch => .switchTo token state (r.1.advanceBy string.length).1
    | .notEnoughCharacters => .notEnoughCharacters r.1
    | .didNotMatch => .goOn otherwise.1 otherwise.2 r.1
  | .nothing token next => .goOn token next source

/-! ## NextToken -/

/-- What `NextToken` leaves behind, and whether it emits the token. -/
structure Returned where
  tokenizer : HTMLTokenizer
  token : HTMLToken
  source : Platform.SegmentedString
  emits : Bool

/-- `HaveBufferedCharacterToken`. -/
def haveBufferedCharacterToken (token : HTMLToken) : Bool := token.type == .character

/-- `SaveEndTagNameIfNeeded`. -/
def saveEndTagNameIfNeeded (k : HTMLTokenizer) (token : HTMLToken) : HTMLTokenizer :=
  if token.type = .startTag then { k with appropriateEndTagName := token.data } else k

/-- The end of `FlushBufferedEndTag`. -/
def clearEndTag (k : HTMLTokenizer) : HTMLTokenizer :=
  { k with bufferedEndTagName := [], appropriateEndTagName := [], temporaryBuffer := [] }

/-- On to the character that is peeked at, if there is one. -/
def continueWith (loop : HTMLTokenizer → HTMLToken → UInt16 → Platform.SegmentedString → Returned)
    (token : HTMLToken) : HTMLTokenizer × Platform.SegmentedString × Option UInt16 → Returned
  | (k, source, none) => ⟨k, token, source, haveBufferedCharacterToken token⟩
  | (k, source, some cc) => loop k token cc source

/-- How an ordinary state ends. -/
def finish (loop : HTMLTokenizer → HTMLToken → UInt16 → Platform.SegmentedString → Returned)
    (k : HTMLTokenizer) (token : HTMLToken) (cc : UInt16) (source : Platform.SegmentedString) :
    Next → Returned
  | .reconsumeIn state => loop { k with state := state } token cc source
  | .advanceTo state =>
    continueWith loop token
      (HTMLTokenizer.peekIfNotEmpty { k with state := state } source.advance)
  | .emitOrAdvanceTo state =>
    if haveBufferedCharacterToken token then ⟨k, token, source, true⟩
    else
      continueWith loop token
        (HTMLTokenizer.peekIfNotEmpty { k with state := state } source.advance)
  | .emitAndResumeIn state =>
    ⟨{ saveEndTagNameIfNeeded k token with state := state }, token, source.advance, true⟩
  | .emitAndReconsumeIn state =>
    ⟨{ saveEndTagNameIfNeeded k token with state := state }, token, source, true⟩
  | .emitEndOfFile =>
    if haveBufferedCharacterToken token then ⟨k, token, source, true⟩
    else ⟨{ k with state := .dataState }, (token.clear).makeEndOfFile, source.advance, true⟩
  | .flushAndAdvanceTo state =>
    let k := { k with state := state }
    if haveBufferedCharacterToken token then ⟨k, token, source.advance, true⟩
    else
      continueWith loop (token.beginEndTag k.bufferedEndTagName)
        (HTMLTokenizer.peekIfNotEmpty (clearEndTag k) source.advance)
  | .flushEmitAndResumeIn state =>
    let k := { k with state := state }
    if haveBufferedCharacterToken token then ⟨k, token, source.advance, true⟩
    else ⟨clearEndTag k, token.beginEndTag k.bufferedEndTagName, source.advance, true⟩

/-- The `switch`, with a `goto` for each turn of the loop. -/
def nextTokenLoop (table : HTMLEntityTable) :
    Nat → HTMLTokenizer → HTMLToken → UInt16 → Platform.SegmentedString → Returned
  | 0, k, token, _, source => ⟨k, token, source, false⟩
  | fuel + 1, k, token, cc, source =>
    match ordinaryState k token cc source.numberOfCharactersConsumed with
    | some (k, token, next) => finish (nextTokenLoop table fuel) k token cc source next
    | none =>
      match answer table source (lookAheadState k token cc) with
      | .notEnoughCharacters source => ⟨k, token, source, haveBufferedCharacterToken token⟩
      | .switchTo token state source =>
        continueWith (nextTokenLoop table fuel) token
          (HTMLTokenizer.peekIfNotEmpty { k with state := state } source)
      | .goOn token next source => finish (nextTokenLoop table fuel) k token cc source next

/-- What is behind the first lines of `NextToken`. -/
def nextTokenFrom (table : HTMLEntityTable) (k : HTMLTokenizer) (token : HTMLToken)
    (source : Platform.SegmentedString) : Returned :=
  -- No character is looked at in more than four states.
  continueWith (nextTokenLoop table (8 * (source.length + 1))) token (k.peekIfNotEmpty source)

/-- `NextToken`. -/
def nextToken (table : HTMLEntityTable) (k : HTMLTokenizer) (token : HTMLToken)
    (source : Platform.SegmentedString) : Returned :=
  if k.bufferedEndTagName ≠ [] ∧ k.state.isEndTagBuffering = false then
    let token := token.beginEndTag k.bufferedEndTagName
    let k := clearEndTag k
    if k.state = .dataState then ⟨k, token, source, true⟩ else nextTokenFrom table k token source
  else nextTokenFrom table k token source

/-- `UpdateStateFor`. -/
def updateStateFor (k : HTMLTokenizer) (tagName : Units) : HTMLTokenizer :=
  if tagName = ['t', 'e', 'x', 't', 'a', 'r', 'e', 'a'].map chr ∨
      tagName = ['t', 'i', 't', 'l', 'e'].map chr then
    { k with state := .rcdataState }
  else if tagName = ['p', 'l', 'a', 'i', 'n', 't', 'e', 'x', 't'].map chr then
    { k with state := .plaintextState }
  else if tagName = kScriptTag then { k with state := .scriptDataState }
  else if tagName = ['s', 't', 'y', 'l', 'e'].map chr ∨
      tagName = ['i', 'f', 'r', 'a', 'm', 'e'].map chr ∨ tagName = ['x', 'm', 'p'].map chr ∨
      tagName = ['n', 'o', 'f', 'r', 'a', 'm', 'e', 's'].map chr ∨
      (tagName = ['n', 'o', 's', 'c', 'r', 'i', 'p', 't'].map chr ∧ k.scriptEnabled = true) then
    { k with state := .rawtextState }
  else k

/-! ## Scanning -/

/-- A tokenizer, its token and its source, as `HTMLPreloadScanner` has them. -/
structure Scanner where
  tokenizer : HTMLTokenizer
  token : HTMLToken
  source : Platform.SegmentedString

/-- What a token that is emitted leads to before the next one. -/
def afterToken (k : HTMLTokenizer) (token : HTMLToken) : HTMLTokenizer :=
  if token.type = .startTag then updateStateFor k token.data else k

/-- The loop of `Scan`, with the tokens that are handed on. The return at a policy in a `meta`
element is not part of it: in crawler builds `do_html_preload_scanning` is false, and no token
is looked at. -/
def scanLoop (table : HTMLEntityTable) : Nat → Scanner → Scanner × List HTMLToken
  | 0, s => (s, [])
  | fuel + 1, s =>
    let r := nextToken table s.tokenizer s.token s.source
    if r.emits then
      let rest :=
        scanLoop table fuel ⟨afterToken r.tokenizer r.token, r.token.clear, r.source⟩
      (rest.1, r.token :: rest.2)
    else (⟨r.tokenizer, r.token, r.source⟩, [])

/-- `Scan`. -/
def scan (table : HTMLEntityTable) (s : Scanner) : Scanner × List HTMLToken :=
  -- There are not as many tokens.
  scanLoop table (16 * (s.source.length + 1)) s

/-- `AppendToEnd`. -/
def Scanner.appendToEnd (s : Scanner) (source : Platform.SegmentedString) : Scanner :=
  { s with source := s.source.append source }

end Blinkit.Html
