import Mathlib.Logic.Function.Basic

/-!
# Attribute storage

Translation of `element_data.cc`, `element_data_cache.cpp`, of `Set` and `CreateVector` in
`space_split_string.cc`, and of the functions of `element.cpp` that write an `ElementData`.

An element points to its data. The data that the parser makes may be shared: a cache gives elements
with the same attributes the same object, and a clone takes the object of its original. The class
names and the id are kept in the object next to the attributes and are written in place.

* `Environment` — what the functions ask for and do not write. The quirks mode of a document is
  decided in front of its first element.
* `ElementData` — a `ShareableElementData` or a `UniqueElementData`. The 28 bits of `array_size_`
  are enough for any vector that can be allocated.
* `Store` — the elements, the data objects and the caches of the documents.
* `Store.step` — one step of a history. A call through a null pointer is a fault.

Two strings are the same `AtomicString` when they have the same characters, and the same holds for
qualified names; `memcmp` compares the pointers to them.
-/

set_option autoImplicit false

namespace Blinkit.Dom.Attributes

open Function

abbrev Str := List Char

abbrev ElementId := Nat

abbrev DocumentId := Nat

/-- The address of an `ElementData`. -/
abbrev DataId := Nat

/-! ## Strings -/

/-- `IsHTMLSpace`. -/
def isHTMLSpace (c : Char) : Bool :=
  c == ' ' || c == '\n' || c == '\t' || c == '\r' || c == '\x0c'

/-- `AtomicString::LowerASCII`. -/
def lowerASCII (s : Str) : Str := s.map Char.toLower

/-- `SpaceSplitString::Data::CreateVector`: the tokens, each once. -/
def createVector (s : Str) : List Str :=
  ((s.splitOnP isHTMLSpace).filter fun token => !token.isEmpty).eraseDups

/-! ## Attributes -/

structure QualifiedName where
  pre : Option Str
  localName : Str
  namespaceURI : Option Str
  deriving DecidableEq

/-- `QualifiedName::ToString`. -/
def QualifiedName.toStr (q : QualifiedName) : Str :=
  match q.pre with
  | none => q.localName
  | some p => p ++ ':' :: q.localName

def kIdAttr : QualifiedName := ⟨none, "id".toList, none⟩

def kClassAttr : QualifiedName := ⟨none, "class".toList, none⟩

structure Attribute where
  name : QualifiedName
  value : Str
  deriving DecidableEq

/-- `AttributeCollection::FindIndex`; the slow case is tried when an attribute has a prefix. -/
def findIndex (attributes : List Attribute) (name : Str) : Option Nat :=
  match attributes.findIdx? fun a => a.name.pre.isNone && a.name.localName == name with
  | some index => some index
  | none => attributes.findIdx? fun a => a.name.pre.isSome && a.name.toStr == name

/-! ## Element data -/

structure ElementData where
  isUnique : Bool
  attributes : List Attribute
  /-- A `SpaceSplitString` without data is null. -/
  classNames : Option (List Str)
  idForStyleResolution : Option Str
  deriving DecidableEq

namespace ElementData

/-- `UniqueElementData::Create`. -/
def create : ElementData := ⟨true, [], none, none⟩

/-- `ShareableElementData::CreateWithAttributes`. -/
def createWithAttributes (attributes : List Attribute) : ElementData :=
  ⟨false, attributes, none, none⟩

/-- `ElementData::MakeUniqueCopy`. -/
def makeUniqueCopy (d : ElementData) : ElementData := { d with isUnique := true }

/-- `UniqueElementData::MakeShareableCopy`. -/
def makeShareableCopy (d : ElementData) : ElementData := { d with isUnique := false }

/-- `ElementData::HasID`. -/
def hasID (d : ElementData) : Bool := d.idForStyleResolution.isSome

/-- `ElementData::HasClass`. -/
def hasClass (d : ElementData) : Bool := d.classNames.isSome

/-- `ElementData::SetClass`. -/
def setClass (d : ElementData) (className : Str) (shouldFoldCase : Bool) : ElementData :=
  let className := if shouldFoldCase then lowerASCII className else className
  { d with classNames := some (createVector className) }

/-- `ElementData::ClearClass`. -/
def clearClass (d : ElementData) : ElementData := { d with classNames := none }

/-- `ElementData::SetIdForStyleResolution`. -/
def setIdForStyleResolution (d : ElementData) (newId : Str) : ElementData :=
  { d with idForStyleResolution := some newId }

end ElementData

/-- `HasSameAttributes`. -/
def hasSameAttributes (attributes : List Attribute) (d : ElementData) : Bool :=
  attributes.length == d.attributes.length && attributes == d.attributes

inductive ClassStringContent where
  | empty
  | whiteSpaceOnly
  | hasClasses
  deriving DecidableEq, Repr

/-- `ClassStringHasClassName`. -/
def classStringHasClassName (newClassString : Str) : ClassStringContent :=
  if newClassString.length = 0 then .empty
  else if newClassString.all isHTMLSpace then .whiteSpaceOnly
  else .hasClasses

/-- `MakeIdForStyleResolution`. -/
def makeIdForStyleResolution (value : Str) (inQuirksMode : Bool) : Str :=
  if inQuirksMode then lowerASCII value else value

/-- `Element::ClassAttributeChanged`, on the data of the element. -/
def classAttributeChanged (shouldFoldCase : Bool) (d : ElementData) (newClassString : Str) :
    ElementData :=
  match classStringHasClassName newClassString with
  | .hasClasses => d.setClass newClassString shouldFoldCase
  | .whiteSpaceOnly => d.setClass newClassString shouldFoldCase
  | .empty => d.clearClass

/-- The branches of `Element::AttributeChanged` that write the data of the element. -/
def attributeChangedData (inQuirksMode : Bool) (d : ElementData) (a : Attribute) : ElementData :=
  if a.name = kIdAttr then
    let newId := makeIdForStyleResolution a.value inQuirksMode
    if some newId ≠ d.idForStyleResolution then d.setIdForStyleResolution newId else d
  else if a.name = kClassAttr then classAttributeChanged inQuirksMode d a.value
  else d

/-! ## The store -/

structure Environment where
  /-- `Document::IsValidName`. -/
  isValidName : Str → Bool
  /-- `AttributeHash`. -/
  attributeHash : List Attribute → UInt32
  /-- `Document::InQuirksMode`. -/
  inQuirksMode : DocumentId → Bool

structure Store where
  /-- The elements below `elements` have been created. -/
  elements : Nat
  document : ElementId → DocumentId
  /-- `Element::m_elementData`. -/
  elementData : ElementId → Option DataId
  data : DataId → ElementData
  nextData : DataId
  /-- `Document::m_elementDataCache`, and the map in it. -/
  cache : DocumentId → Option (UInt32 → Option DataId)

inductive Fault where
  | nullPointer
  | noSuchElement
  deriving DecidableEq, Repr

structure DOMException where
  message : Str
  deriving DecidableEq

namespace Store

def initial : Store where
  elements := 0
  document _ := 0
  elementData _ := none
  data _ := .create
  nextData := 0
  cache _ := none

variable (env : Environment) (s : Store)

/-- A new `ElementData`, and its address. -/
def newData (d : ElementData) : Store × DataId :=
  ({ s with data := update s.data s.nextData d, nextData := s.nextData + 1 }, s.nextData)

def setData (a : DataId) (d : ElementData) : Store := { s with data := update s.data a d }

def setElementData (e : ElementId) (a : Option DataId) : Store :=
  { s with elementData := update s.elementData e a }

/-- `ElementDataCache::CachedShareableElementDataWithAttributes`, of the cache of the document
`d`. -/
def cachedShareableElementDataWithAttributes (d : DocumentId) (cache : UInt32 → Option DataId)
    (attributes : List Attribute) : Store × DataId :=
  let hash := env.attributeHash attributes
  match cache hash with
  | some a =>
    if hasSameAttributes attributes (s.data a) then (s, a)
    else s.newData (.createWithAttributes attributes)
  | none =>
    let r := s.newData (.createWithAttributes attributes)
    ({ r.1 with cache := update s.cache d (some (update cache hash (some r.2))) }, r.2)

/-- `Element::AttributeChanged`. An id or a class is written through `GetElementData()`. -/
def attributeChanged (e : ElementId) (a : Attribute) : Except Fault Store :=
  match s.elementData e with
  | none => if a.name = kIdAttr ∨ a.name = kClassAttr then .error .nullPointer else .ok s
  | some i => .ok (s.setData i
      (attributeChangedData (env.inQuirksMode (s.document e)) (s.data i) a))

/-- The loops of `ParserSetAttributes` and `CloneAttributesFrom` over the attributes. -/
def attributesChanged (e : ElementId) : List Attribute → Store → Except Fault Store
  | [], s => .ok s
  | a :: as, s =>
    match s.attributeChanged env e a with
    | .error f => .error f
    | .ok s => attributesChanged e as s

/-- `Element::ParserSetAttributes`. Without a cache the attributes are dropped. -/
def parserSetAttributes (e : ElementId) (attributes : List Attribute) : Except Fault Store :=
  let s :=
    if attributes.isEmpty then s
    else
      match s.cache (s.document e) with
      | some cache =>
        let r := s.cachedShareableElementDataWithAttributes env (s.document e) cache attributes
        r.1.setElementData e (some r.2)
      | none => s
  s.attributesChanged env e attributes

/-- `Element::EnsureUniqueElementData`. -/
def ensureUniqueElementData (e : ElementId) : Store × DataId :=
  match s.elementData e with
  | none =>
    let r := s.newData .create
    (r.1.setElementData e (some r.2), r.2)
  | some a =>
    if (s.data a).isUnique then (s, a)
    else
      let r := s.newData (s.data a).makeUniqueCopy
      (r.1.setElementData e (some r.2), r.2)

/-- `Element::CloneAttributesFrom`. -/
def cloneAttributesFrom (e other : ElementId) : Except Fault Store :=
  match s.elementData other with
  | none => .ok (s.setElementData e none)
  | some a =>
    let differ := ((s.data a).hasClass || (s.data a).hasID) &&
      env.inQuirksMode (s.document other) != env.inQuirksMode (s.document e)
    let r :=
      if (s.data a).isUnique && !differ then
        let r := s.newData (s.data a).makeShareableCopy
        (r.1.setElementData other (some r.2), r.2)
      else (s, a)
    let r :=
      if !(r.1.data r.2).isUnique && !differ then (r.1.setElementData e (some r.2), r.2)
      else
        let q := r.1.newData (r.1.data r.2).makeUniqueCopy
        (q.1.setElementData e (some q.2), q.2)
    r.1.attributesChanged env e (r.1.data r.2).attributes

/-- `Element::AppendAttributeInternal`, with `DidAddAttribute`. -/
def appendAttributeInternal (e : ElementId) (name : QualifiedName) (value : Str) :
    Except Fault Store :=
  let r := s.ensureUniqueElementData e
  let d := r.1.data r.2
  let s := r.1.setData r.2 { d with attributes := d.attributes ++ [⟨name, value⟩] }
  s.attributeChanged env e ⟨name, value⟩

/-- `Element::SetAttributeInternal`. Without a value nothing is done, and `DidModifyAttribute`
does nothing. -/
def setAttributeInternal (e : ElementId) (index : Option Nat) (name : QualifiedName)
    (newValue : Option Str) : Except Fault Store :=
  match newValue, index with
  | none, _ => .ok s
  | some newValue, none => s.appendAttributeInternal env e name newValue
  | some newValue, some index =>
    match s.elementData e with
    | none => .error .nullPointer
    | some a =>
      if ((s.data a).attributes[index]?).map (·.value) ≠ some newValue then
        let r := s.ensureUniqueElementData e
        let d := r.1.data r.2
        .ok (r.1.setData r.2
          { d with attributes := d.attributes.modify index fun a => ⟨a.name, newValue⟩ })
      else .ok s

/-- `Element::setAttribute`. -/
def setAttribute (e : ElementId) (localName : Str) (value : Option Str) :
    Except Fault (Store × Option DOMException) :=
  if !env.isValidName localName then
    .ok (s, some ⟨'\x27' :: localName ++ "' is not a valid attribute name.".toList⟩)
  else
    let caseAdjustedLocalName := lowerASCII localName
    let name : QualifiedName := ⟨none, caseAdjustedLocalName, none⟩
    let r :=
      match s.elementData e with
      | none => s.setAttributeInternal env e none name value
      | some a =>
        let attributes := (s.data a).attributes
        let index := findIndex attributes caseAdjustedLocalName
        let qName := ((index.bind fun i => attributes[i]?).map Attribute.name).getD name
        s.setAttributeInternal env e index qName value
    r.map fun s => (s, none)

/-- A new element of the document `d`. -/
def newElement (d : DocumentId) : Store :=
  { s with elements := s.elements + 1, document := update s.document s.elements d }

/-- `Document::SetParsingState`, when it starts parsing. -/
def startParsing (d : DocumentId) : Store :=
  { s with cache := update s.cache d (some ((s.cache d).getD fun _ => none)) }

/-- `Document::ElementDataCacheClearTimerFired`. -/
def elementDataCacheClearTimerFired (d : DocumentId) : Store :=
  { s with cache := update s.cache d none }

end Store

/-! ## Histories -/

inductive Action where
  | startParsing (d : DocumentId)
  | elementDataCacheClearTimerFired (d : DocumentId)
  /-- `document.createElement`. -/
  | createElement (d : DocumentId)
  /-- The parser makes an element with these attributes. -/
  | parse (d : DocumentId) (attributes : List Attribute)
  /-- An element of a `cloneNode`: the clone belongs to the document of the original. -/
  | clone (other : ElementId)
  | setAttribute (e : ElementId) (localName : Str) (value : Option Str)

namespace Store

/-- The element whose attributes an action changes. -/
def target (s : Store) : Action → Option ElementId
  | .startParsing _ | .elementDataCacheClearTimerFired _ => none
  | .createElement _ | .parse _ _ | .clone _ => some s.elements
  | .setAttribute e _ _ => some e

/-- One step of a history. -/
def step (env : Environment) (s : Store) : Action → Except Fault (Store × Option DOMException)
  | .startParsing d => .ok (s.startParsing d, none)
  | .elementDataCacheClearTimerFired d => .ok (s.elementDataCacheClearTimerFired d, none)
  | .createElement d => .ok (s.newElement d, none)
  | .parse d attributes =>
    ((s.newElement d).parserSetAttributes env s.elements attributes).map (·, none)
  | .clone other =>
    if other < s.elements then
      ((s.newElement (s.document other)).cloneAttributesFrom env s.elements other).map (·, none)
    else .error .noSuchElement
  | .setAttribute e localName value =>
    if e < s.elements then s.setAttribute env e localName value else .error .noSuchElement

end Store

end Blinkit.Dom.Attributes
