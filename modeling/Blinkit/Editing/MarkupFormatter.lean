import Mathlib.Data.List.Basic

/-!
# Markup accumulator and formatter

The nodes below an element as a tree, and the functions of `markup_formatter.cc` and
`markup_accumulator.cc` that write them.  Every document of the crawler is an HTML document
(`IsHTMLDocument` is a placeholder that returns true) and markup is made with the type of the
owner document, so `SerializeAsHTMLDocument` is true and the branches for XML are not reached.

* `appendCharactersReplacingEntities` : the scan with its pending segment
* `appendElement`, `appendText`, `appendComment` : the start of each kind of node
* `serializeNodesWithNamespaces` : the recursion over the tree
* `serializeNodes`, `createMarkup`, `innerHTML` : what a script sees

Principal results: `appendCharactersReplacingEntities_eq`, `escape_eq_nil_iff`.
-/

set_option autoImplicit false

namespace Blinkit.Editing

abbrev Str := List Char

/-! ## The tree -/

/-- A namespace URI that the formatter asks for, or another one. -/
inductive NamespaceURI where
  | xmlns
  | xml
  | xlink
  | other (uri : String)
  deriving DecidableEq

structure QualifiedName where
  pre : Option String
  localName : String
  namespaceURI : Option NamespaceURI
  deriving DecidableEq

structure Attribute where
  name : QualifiedName
  value : Str
  deriving DecidableEq

/-- Elements are HTML elements, known by their tag; `isValue` is the custom element name. -/
inductive Node where
  | element (tag : String) (isValue : Option Str) (attributes : List Attribute)
      (children : List Node)
  | text (data : Str)
  | comment (data : Str)

/-! ## Entities -/

def kEntityAmp : Nat := 0x0001
def kEntityLt : Nat := 0x0002
def kEntityGt : Nat := 0x0004
def kEntityQuot : Nat := 0x0008
def kEntityNbsp : Nat := 0x0010
def kEntityTab : Nat := 0x0020
def kEntityLineFeed : Nat := 0x0040
def kEntityCarriageReturn : Nat := 0x0080

def kEntityMaskInCDATA : Nat := 0
def kEntityMaskInPCDATA : Nat := kEntityAmp ||| kEntityLt ||| kEntityGt
def kEntityMaskInHTMLPCDATA : Nat := kEntityMaskInPCDATA ||| kEntityNbsp
def kEntityMaskInAttributeValue : Nat :=
  kEntityAmp ||| kEntityQuot ||| kEntityLt ||| kEntityGt ||| kEntityTab ||| kEntityLineFeed |||
    kEntityCarriageReturn
def kEntityMaskInHTMLAttributeValue : Nat := kEntityAmp ||| kEntityQuot ||| kEntityNbsp

structure EntityDescription where
  entity : Char
  reference : String
  mask : Nat

def kNoBreakSpaceCharacter : Char := '\xA0'

def quote : Char := '\x22'

def apostrophe : Char := '\x27'

def kEntityMaps : List EntityDescription :=
  [⟨'&', "&amp;", kEntityAmp⟩, ⟨'<', "&lt;", kEntityLt⟩, ⟨'>', "&gt;", kEntityGt⟩,
    ⟨quote, "&quot;", kEntityQuot⟩, ⟨kNoBreakSpaceCharacter, "&nbsp;", kEntityNbsp⟩,
    ⟨'\t', "&#9;", kEntityTab⟩, ⟨'\n', "&#10;", kEntityLineFeed⟩,
    ⟨'\r', "&#13;", kEntityCarriageReturn⟩]

/-- The inner loop over the entity maps. -/
def findEntity (entityMask : Nat) (c : Char) : Option EntityDescription :=
  kEntityMaps.find? fun e => c == e.entity && e.mask &&& entityMask != 0

/-- The outer loop; `segment` is the text behind the last entity. -/
def appendCharactersLoop (entityMask : Nat) (result segment : Str) : Str → Str
  | [] => result ++ segment
  | c :: rest =>
    match findEntity entityMask c with
    | some e => appendCharactersLoop entityMask (result ++ segment ++ e.reference.toList) [] rest
    | none => appendCharactersLoop entityMask result (segment ++ [c]) rest

/-- `MarkupFormatter::AppendCharactersReplacingEntities` on the whole of `source`. -/
def appendCharactersReplacingEntities (result source : Str) (entityMask : Nat) : Str :=
  if source = [] then result else appendCharactersLoop entityMask result [] source

/-- The text with the entities of the mask replaced, character by character. -/
def escape (entityMask : Nat) (source : Str) : Str :=
  source.flatMap fun c =>
    match findEntity entityMask c with
    | some e => e.reference.toList
    | none => [c]

theorem appendCharactersLoop_eq (entityMask : Nat) (result segment source : Str) :
    appendCharactersLoop entityMask result segment source =
      result ++ segment ++ escape entityMask source := by
  induction source generalizing result segment with
  | nil => simp [appendCharactersLoop, escape]
  | cons c rest ih =>
    unfold appendCharactersLoop
    have hcons : escape entityMask (c :: rest) =
        (match findEntity entityMask c with
          | some e => e.reference.toList
          | none => [c]) ++ escape entityMask rest := List.flatMap_cons ..
    rw [hcons]
    split
    · rename_i e he
      rw [ih]
      simp
    · rename_i he
      rw [ih]
      simp

theorem appendCharactersReplacingEntities_eq (result source : Str) (entityMask : Nat) :
    appendCharactersReplacingEntities result source entityMask =
      result ++ escape entityMask source := by
  unfold appendCharactersReplacingEntities
  split
  · rename_i hnil
    rw [hnil]
    simp [escape]
  · rw [appendCharactersLoop_eq, List.append_nil]

/-- An escaped text is empty only when the text is: no reference is empty. -/
theorem escape_eq_nil_iff (entityMask : Nat) (source : Str) :
    escape entityMask source = [] ↔ source = [] := by
  refine ⟨fun h => ?_, fun h => by rw [h]; rfl⟩
  rcases source with _ | ⟨c, rest⟩
  · rfl
  exfalso
  have hhead := List.flatMap_eq_nil_iff.mp h c (List.mem_cons_self ..)
  split at hhead
  · rename_i e he
    have hmem : e ∈ kEntityMaps := List.mem_of_find?_eq_some he
    have hne : ∀ e ∈ kEntityMaps, e.reference.toList ≠ [] := by decide
    exact hne e hmem hhead
  · cases hhead

/-! ## The formatter -/

/-- The tags of `Element::ShouldSerializeEndTag`. -/
def endTagOmitted : List String :=
  ["area", "base", "basefont", "bgsound", "br", "col", "embed", "frame", "hr", "img", "input",
    "keygen", "link", "meta", "param", "source", "track", "wbr"]

def shouldSerializeEndTag (tag : String) : Bool := tag ∉ endTagOmitted

/-- `ElementCannotHaveEndTag`. -/
def elementCannotHaveEndTag (tag : String) : Bool := !shouldSerializeEndTag tag

/-- The parents for which `EntityMaskForText` escapes nothing. -/
def rawTextParents : List String :=
  ["script", "style", "xmp", "iframe", "plaintext", "noembed", "noframes"]

/-- `MarkupFormatter::EntityMaskForText`; `scripting` says that the document has a frame whose
scripts can be executed. -/
def entityMaskForText (scripting : Bool) (parent : Option String) : Nat :=
  match parent with
  | none => kEntityMaskInHTMLPCDATA
  | some tag =>
    if tag ∈ rawTextParents ∨ (tag = "noscript" ∧ scripting = true) then kEntityMaskInCDATA
    else kEntityMaskInHTMLPCDATA

/-- `MarkupFormatter::AppendAttributeValue`. -/
def appendAttributeValue (result value : Str) (documentIsHTML : Bool) : Str :=
  appendCharactersReplacingEntities result value
    (if documentIsHTML then kEntityMaskInHTMLAttributeValue else kEntityMaskInAttributeValue)

/-- `Element::IsURLAttribute`: the `src` of a script element, and no other attribute. -/
def isURLAttribute (tag : String) (attr : Attribute) : Bool :=
  tag == "script" && attr.name == ⟨none, "src", none⟩

/-- `MarkupFormatter::AppendQuotedURLAttributeValue` with `kDoNotResolveURLs`. -/
def appendQuotedURLAttributeValue (result : Str) (attr : Attribute) : Str :=
  let url := attr.value
  if "javascript:".toList.isPrefixOf url then
    let url := url.flatMap fun c => if c = '&' then "&amp;".toList else [c]
    let quoteChar := if quote ∈ url ∧ apostrophe ∉ url then apostrophe else quote
    let url := if quote ∈ url ∧ apostrophe ∈ url then
        url.flatMap fun c => if c = quote then "&quot;".toList else [c]
      else url
    result ++ quoteChar :: url ++ [quoteChar]
  else appendAttributeValue (result ++ [quote]) url false ++ [quote]

/-- `QualifiedName::ToString`. -/
def QualifiedName.toStr (name : QualifiedName) : Str :=
  match name.pre with
  | none => name.localName.toList
  | some p => p.toList ++ ':' :: name.localName.toList

/-- The prefix that an attribute of an HTML document is written with. -/
def QualifiedName.prefixed (name : QualifiedName) : QualifiedName :=
  match name.namespaceURI with
  | some .xmlns =>
    if name.pre = none ∧ name.localName ≠ "xmlns" then { name with pre := some "xmlns" } else name
  | some .xml => { name with pre := some "xml" }
  | some .xlink => { name with pre := some "xlink" }
  | _ => name

/-- `MarkupFormatter::AppendAttribute`. -/
def appendAttribute (tag : String) (result : Str) (attr : Attribute) : Str :=
  let result := result ++ ' ' :: attr.name.prefixed.toStr ++ ['=']
  if isURLAttribute tag attr then appendQuotedURLAttributeValue result attr
  else appendAttributeValue (result ++ [quote]) attr.value true ++ [quote]

def kIsAttr : QualifiedName := ⟨none, "is", none⟩

/-- `MarkupAccumulator::AppendElement`. -/
def appendElement (result : Str) (tag : String) (isValue : Option Str)
    (attributes : List Attribute) : Str :=
  let result := result ++ '<' :: tag.toList
  let result :=
    match isValue with
    | some value =>
      if attributes.any (fun a => a.name == kIsAttr) then result
      else appendAttribute tag result ⟨kIsAttr, value⟩
    | none => result
  attributes.foldl (appendAttribute tag) result ++ ['>']

/-- `MarkupFormatter::AppendComment`. -/
def appendComment (result comment : Str) : Str :=
  result ++ "<!--".toList ++ comment ++ "-->".toList

/-- `MarkupFormatter::AppendText`. -/
def appendText (scripting : Bool) (parent : Option String) (result data : Str) : Str :=
  appendCharactersReplacingEntities result data (entityMaskForText scripting parent)

/-- `MarkupAccumulator::AppendStartMarkup`; `parent` is the tag of the parent element. -/
def appendStartMarkup (scripting : Bool) (parent : Option String) (result : Str) : Node → Str
  | .element tag isValue attributes _ => appendElement result tag isValue attributes
  | .text data => appendText scripting parent result data
  | .comment data => appendComment result data

/-- `MarkupFormatter::AppendEndMarkup`. -/
def appendEndMarkup (result : Str) (tag : String) (children : List Node) : Str :=
  if children.isEmpty && elementCannotHaveEndTag tag then result
  else result ++ "</".toList ++ tag.toList ++ ['>']

/-! ## The accumulator -/

inductive EChildrenOnly where
  | kIncludeNode
  | kChildrenOnly
  deriving DecidableEq

/-- The string builder of `MarkupAccumulator`. -/
structure MarkupAccumulator where
  markup : Str := []
  deriving DecidableEq

/-- `AppendStartTag`, unless only the children are wanted. -/
def MarkupAccumulator.start (accumulator : MarkupAccumulator) (scripting : Bool)
    (parent : Option String) (childrenOnly : EChildrenOnly) (node : Node) : MarkupAccumulator :=
  if childrenOnly = .kIncludeNode then ⟨appendStartMarkup scripting parent accumulator.markup node⟩
  else accumulator

mutual

/-- `SerializeNodesWithNamespaces`: the start of the node, its children unless it is void, and
the end tag of an element that has one.  `GetAuxiliaryDOMTree` gives no tree. -/
def serializeNodesWithNamespaces (scripting : Bool) (parent : Option String)
    (childrenOnly : EChildrenOnly) (accumulator : MarkupAccumulator) : Node → MarkupAccumulator
  | .element tag isValue attributes children =>
    let accumulator := accumulator.start scripting parent childrenOnly
      (.element tag isValue attributes children)
    if elementCannotHaveEndTag tag then accumulator
    else
      let accumulator := serializeChildren scripting tag accumulator children
      if childrenOnly = .kIncludeNode then ⟨appendEndMarkup accumulator.markup tag children⟩
      else accumulator
  | .text data => accumulator.start scripting parent childrenOnly (.text data)
  | .comment data => accumulator.start scripting parent childrenOnly (.comment data)

/-- The loop over the children of the element `tag`. -/
def serializeChildren (scripting : Bool) (tag : String) (accumulator : MarkupAccumulator) :
    List Node → MarkupAccumulator
  | [] => accumulator
  | current :: rest =>
    serializeChildren scripting tag
      (serializeNodesWithNamespaces scripting (some tag) .kIncludeNode accumulator current) rest

end

/-- `SerializeNodes`.  It asks whether the target is serialized as HTML, asserts the answer and
returns what the accumulator holds; the recursion above is not called. -/
def serializeNodes (accumulator : MarkupAccumulator) (_target : Node)
    (_childrenOnly : EChildrenOnly) : Str :=
  accumulator.markup

/-- `CreateMarkup`. -/
def createMarkup (node : Option Node) (childrenOnly : EChildrenOnly) : Str :=
  match node with
  | none => []
  | some node => serializeNodes {} node childrenOnly

/-- `Element::innerHTML`. -/
def innerHTML (tag : String) (isValue : Option Str) (attributes : List Attribute)
    (children : List Node) : Str :=
  createMarkup (some (.element tag isValue attributes children)) .kChildrenOnly

end Blinkit.Editing
