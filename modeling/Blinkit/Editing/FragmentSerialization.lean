import Blinkit.Editing.MarkupFormatter

/-!
# HTML fragment serialization

The serialization of HTML trees, written down from its definition: start tags with escaped
attribute values, the children and the end tag of the elements that are not void, text that is
escaped unless its parent is a raw-text element, delimited comments.

* `serialization`, `fragmentSerialization` : the definition
* `Plain` : trees whose attribute names and script sources are written the same way by the formatter
* `serializeNodesWithNamespaces_eq` : the recursion of the accumulator writes the serialization
* `innerHTML_eq_fragment_iff` : `SerializeNodes` does not call it

Principal results: `serializeNodesWithNamespaces_eq`, `innerHTML_eq_fragment_iff`.
-/

set_option autoImplicit false

namespace Blinkit.Editing

/-! ## The serialization -/

/-- Escaping in text. -/
def escapeText (s : Str) : Str :=
  s.flatMap fun c =>
    if c = '&' then "&amp;".toList
    else if c = kNoBreakSpaceCharacter then "&nbsp;".toList
    else if c = '<' then "&lt;".toList
    else if c = '>' then "&gt;".toList
    else [c]

/-- Escaping in attribute values. -/
def escapeAttribute (s : Str) : Str :=
  s.flatMap fun c =>
    if c = '&' then "&amp;".toList
    else if c = kNoBreakSpaceCharacter then "&nbsp;".toList
    else if c = quote then "&quot;".toList
    else [c]

/-- The name that an attribute is serialized with. -/
def serializedName (name : QualifiedName) : Str :=
  match name.namespaceURI with
  | none => name.localName.toList
  | some .xml => "xml:".toList ++ name.localName.toList
  | some .xmlns =>
    if name.localName = "xmlns" then "xmlns".toList
    else "xmlns:".toList ++ name.localName.toList
  | some .xlink => "xlink:".toList ++ name.localName.toList
  | some (.other _) => name.toStr

def attributeSerialization (a : Attribute) : Str :=
  ' ' :: serializedName a.name ++ '=' :: quote :: escapeAttribute a.value ++ [quote]

/-- The custom element name counts as an attribute when there is no `is` attribute. -/
def serializedAttributes (isValue : Option Str) (attributes : List Attribute) : List Attribute :=
  match isValue with
  | some value =>
    if attributes.any (fun a => a.name == kIsAttr) then attributes
    else ⟨kIsAttr, value⟩ :: attributes
  | none => attributes

def startTag (tag : String) (isValue : Option Str) (attributes : List Attribute) : Str :=
  '<' :: tag.toList ++ (serializedAttributes isValue attributes).flatMap attributeSerialization ++
    ['>']

def endTag (tag : String) : Str := "</".toList ++ tag.toList ++ ['>']

/-- Elements without children and end tag in a serialization. -/
def isVoid (tag : String) : Bool := tag ∈ endTagOmitted

/-- Elements whose text is written as it is. -/
def isRawText (scripting : Bool) (tag : String) : Bool :=
  tag ∈ rawTextParents || tag == "noscript" && scripting

mutual

/-- The serialization of a node below the element `parent`. -/
def serialization (scripting : Bool) (parent : String) : Node → Str
  | .element tag isValue attributes children =>
    startTag tag isValue attributes ++
      if isVoid tag then [] else childrenSerialization scripting tag children ++ endTag tag
  | .text data => if isRawText scripting parent then data else escapeText data
  | .comment data => "<!--".toList ++ data ++ "-->".toList

def childrenSerialization (scripting : Bool) (tag : String) : List Node → Str
  | [] => []
  | child :: rest => serialization scripting tag child ++ childrenSerialization scripting tag rest

end

/-- The fragment serialization of an element: nothing for a void one. -/
def fragmentSerialization (scripting : Bool) (tag : String) (children : List Node) : Str :=
  if isVoid tag then [] else childrenSerialization scripting tag children

/-! ## The formatter writes the serialization -/

theorem escape_text (s : Str) : escape kEntityMaskInHTMLPCDATA s = escapeText s := by
  unfold escape escapeText
  congr 1
  funext c
  unfold findEntity kEntityMaps
  by_cases h1 : c = '&'
  · subst h1; rfl
  by_cases h2 : c = kNoBreakSpaceCharacter
  · subst h2; rfl
  by_cases h3 : c = '<'
  · subst h3; rfl
  by_cases h4 : c = '>'
  · subst h4; rfl
  have hmask : kEntityQuot &&& kEntityMaskInHTMLPCDATA = 0 ∧
      kEntityTab &&& kEntityMaskInHTMLPCDATA = 0 ∧
      kEntityLineFeed &&& kEntityMaskInHTMLPCDATA = 0 ∧
      kEntityCarriageReturn &&& kEntityMaskInHTMLPCDATA = 0 := by decide
  simp [h1, h2, h3, h4, hmask]

theorem escape_attribute (s : Str) :
    escape kEntityMaskInHTMLAttributeValue s = escapeAttribute s := by
  unfold escape escapeAttribute
  congr 1
  funext c
  unfold findEntity kEntityMaps
  by_cases h1 : c = '&'
  · subst h1; rfl
  by_cases h2 : c = kNoBreakSpaceCharacter
  · subst h2; rfl
  by_cases h3 : c = quote
  · subst h3; rfl
  have hmask : kEntityLt &&& kEntityMaskInHTMLAttributeValue = 0 ∧
      kEntityGt &&& kEntityMaskInHTMLAttributeValue = 0 ∧
      kEntityTab &&& kEntityMaskInHTMLAttributeValue = 0 ∧
      kEntityLineFeed &&& kEntityMaskInHTMLAttributeValue = 0 ∧
      kEntityCarriageReturn &&& kEntityMaskInHTMLAttributeValue = 0 := by decide
  simp [h1, h2, h3, hmask]

/-- The characters on which the two escapes of attribute values differ. -/
def xmlOnly (c : Char) : Bool :=
  c ∈ ['<', '>', '\t', '\n', '\r', kNoBreakSpaceCharacter]

theorem escape_attribute_xml (s : Str) (h : ∀ c ∈ s, xmlOnly c = false) :
    escape kEntityMaskInAttributeValue s = escapeAttribute s := by
  unfold escape escapeAttribute
  apply List.flatMap_congr
  intro c hc
  have hx := h c hc
  unfold xmlOnly at hx
  simp only [List.mem_cons, List.not_mem_nil, or_false, decide_eq_false_iff_not, not_or] at hx
  obtain ⟨hlt, hgt, htab, hlf, hcr, hnbsp⟩ := hx
  unfold findEntity kEntityMaps
  by_cases h1 : c = '&'
  · subst h1; rfl
  by_cases h3 : c = quote
  · subst h3; rfl
  simp [h1, h3, hlt, hgt, htab, hlf, hcr, hnbsp]

/-- Attribute names that the DOM lets be made. -/
def ValidName (name : QualifiedName) : Prop :=
  match name.namespaceURI with
  | none => name.pre = none
  | some .xmlns =>
    if name.localName = "xmlns" then name.pre = none
    else name.pre = none ∨ name.pre = some "xmlns"
  | _ => True

/-- Attributes that are written as the serialization has them: the source of a script is neither
a `javascript:` URL nor has characters that are escaped in XML only. -/
structure PlainAttribute (tag : String) (a : Attribute) : Prop where
  name : ValidName a.name
  url : isURLAttribute tag a = true →
    "javascript:".toList.isPrefixOf a.value = false ∧ ∀ c ∈ a.value, xmlOnly c = false

mutual

def Plain : Node → Prop
  | .element tag _ attributes children =>
    (∀ a ∈ attributes, PlainAttribute tag a) ∧ PlainChildren children
  | .text _ => True
  | .comment _ => True

def PlainChildren : List Node → Prop
  | [] => True
  | child :: rest => Plain child ∧ PlainChildren rest

end

theorem prefixed_toStr {name : QualifiedName} (h : ValidName name) :
    name.prefixed.toStr = serializedName name := by
  obtain ⟨pre, localName, uri⟩ := name
  unfold ValidName at h
  rcases uri with _ | (_ | _ | _ | uri)
  · simp only at h
    subst h
    rfl
  · simp only at h
    by_cases hlocal : localName = "xmlns"
    · rw [if_pos hlocal] at h
      subst h hlocal
      rfl
    · rw [if_neg hlocal] at h
      rcases h with h | h
      · subst h
        simp [QualifiedName.prefixed, QualifiedName.toStr, serializedName, hlocal]
      · subst h
        simp [QualifiedName.prefixed, QualifiedName.toStr, serializedName, hlocal]
  · rfl
  · rfl
  · rfl

theorem appendAttribute_eq {tag : String} {a : Attribute} (h : PlainAttribute tag a)
    (result : Str) : appendAttribute tag result a = result ++ attributeSerialization a := by
  unfold appendAttribute attributeSerialization
  rw [prefixed_toStr h.name]
  split
  · rename_i hurl
    obtain ⟨hscheme, hchars⟩ := h.url hurl
    unfold appendQuotedURLAttributeValue
    simp only [hscheme, Bool.false_eq_true, if_false]
    unfold appendAttributeValue
    rw [appendCharactersReplacingEntities_eq, if_neg Bool.false_ne_true,
      escape_attribute_xml _ hchars]
    simp
  · unfold appendAttributeValue
    simp only [appendCharactersReplacingEntities_eq, if_true, escape_attribute]
    simp

theorem appendAttributes_eq {tag : String} {attributes : List Attribute}
    (h : ∀ a ∈ attributes, PlainAttribute tag a) (result : Str) :
    attributes.foldl (appendAttribute tag) result =
      result ++ attributes.flatMap attributeSerialization := by
  induction attributes generalizing result with
  | nil => simp
  | cons a attributes ih =>
    rw [List.foldl_cons, appendAttribute_eq (h a (List.mem_cons_self ..)),
      ih (fun b hb => h b (List.mem_cons_of_mem a hb)), List.flatMap_cons, List.append_assoc]

theorem plainAttribute_is (tag : String) (value : Str) : PlainAttribute tag ⟨kIsAttr, value⟩ := by
  refine ⟨rfl, ?_⟩
  intro hurl
  unfold isURLAttribute at hurl
  rw [Bool.and_eq_true] at hurl
  have hsrc : (kIsAttr == ⟨none, "src", none⟩) = true := hurl.2
  exact absurd hsrc (by decide)

theorem appendElement_eq {tag : String} {attributes : List Attribute}
    (h : ∀ a ∈ attributes, PlainAttribute tag a) (result : Str) (isValue : Option Str) :
    appendElement result tag isValue attributes = result ++ startTag tag isValue attributes := by
  unfold appendElement startTag serializedAttributes
  rcases isValue with _ | value
  · simp [appendAttributes_eq h]
  · by_cases hany : attributes.any (fun a => a.name == kIsAttr) = true
    · simp only [hany, if_true]
      rw [appendAttributes_eq h]
      simp
    · simp only [hany]
      rw [appendAttribute_eq (plainAttribute_is tag value), appendAttributes_eq h]
      simp

theorem appendText_eq (scripting : Bool) (parent : String) (result data : Str) :
    appendText scripting (some parent) result data =
      result ++ if isRawText scripting parent then data else escapeText data := by
  have hraw : (parent ∈ rawTextParents ∨ parent = "noscript" ∧ scripting = true) ↔
      isRawText scripting parent = true := by
    unfold isRawText
    simp
  unfold appendText entityMaskForText
  rw [appendCharactersReplacingEntities_eq]
  simp only
  split
  · rename_i h
    rw [if_pos (hraw.mp h)]
    have hnone : ∀ c, findEntity kEntityMaskInCDATA c = none := by
      intro c
      unfold findEntity kEntityMaskInCDATA
      simp
    unfold escape
    simp [hnone]
  · rename_i h
    rw [if_neg (fun hr => h (hraw.mpr hr)), escape_text]

mutual

/-- **The recursion writes the serialization.** -/
theorem serializeNodesWithNamespaces_eq (scripting : Bool) (parent : String)
    (accumulator : MarkupAccumulator) (node : Node) (h : Plain node) :
    serializeNodesWithNamespaces scripting (some parent) .kIncludeNode accumulator node =
      ⟨accumulator.markup ++ serialization scripting parent node⟩ :=
  match node, h with
  | .element tag isValue attributes children, h => by
    unfold Plain at h
    unfold serializeNodesWithNamespaces serialization MarkupAccumulator.start appendStartMarkup
    simp only [if_true]
    rw [appendElement_eq h.1]
    have hvoid : elementCannotHaveEndTag tag = isVoid tag := by
      unfold elementCannotHaveEndTag shouldSerializeEndTag isVoid
      simp
    cases htag : isVoid tag with
    | true => simp [hvoid, htag]
    | false =>
      rw [hvoid, htag, if_neg Bool.false_ne_true, if_neg Bool.false_ne_true,
        serializeChildren_eq scripting tag _ children h.2]
      unfold appendEndMarkup endTag
      simp [hvoid, htag]
  | .text data, _ => by
    unfold serializeNodesWithNamespaces serialization MarkupAccumulator.start appendStartMarkup
    simp only [if_true, appendText_eq]
  | .comment data, _ => by
    unfold serializeNodesWithNamespaces serialization MarkupAccumulator.start appendStartMarkup
      appendComment
    simp

theorem serializeChildren_eq (scripting : Bool) (tag : String) (accumulator : MarkupAccumulator)
    (children : List Node) (h : PlainChildren children) :
    serializeChildren scripting tag accumulator children =
      ⟨accumulator.markup ++ childrenSerialization scripting tag children⟩ :=
  match children, h with
  | [], _ => by simp [serializeChildren, childrenSerialization]
  | child :: rest, h => by
    unfold PlainChildren at h
    unfold serializeChildren childrenSerialization
    rw [serializeNodesWithNamespaces_eq scripting tag accumulator child h.1,
      serializeChildren_eq scripting tag _ rest h.2]
    simp

end

/-! ## What `innerHTML` returns -/

theorem serialization_eq_nil_iff (scripting : Bool) (parent : String) (node : Node) :
    serialization scripting parent node = [] ↔ node = .text [] := by
  rcases node with ⟨tag, isValue, attributes, children⟩ | data | data
  · unfold serialization startTag
    simp
  · unfold serialization
    split
    · simp
    · rw [← escape_text, escape_eq_nil_iff]
      simp
  · unfold serialization
    simp

theorem childrenSerialization_eq_nil_iff (scripting : Bool) (tag : String) (children : List Node) :
    childrenSerialization scripting tag children = [] ↔ ∀ c ∈ children, c = .text [] := by
  induction children with
  | nil => simp [childrenSerialization]
  | cons child rest ih =>
    unfold childrenSerialization
    rw [List.append_eq_nil_iff, serialization_eq_nil_iff, ih]
    simp

/-- **When `innerHTML` is the fragment serialization.** It is always the empty text, so only for
a void element and for one whose children are all text nodes without data. -/
theorem innerHTML_eq_fragment_iff (scripting : Bool) (tag : String) (isValue : Option Str)
    (attributes : List Attribute) (children : List Node) :
    innerHTML tag isValue attributes children = fragmentSerialization scripting tag children ↔
      shouldSerializeEndTag tag = false ∨ ∀ c ∈ children, c = .text [] := by
  have hempty : innerHTML tag isValue attributes children = [] := rfl
  rw [hempty, eq_comm]
  unfold fragmentSerialization
  cases htag : isVoid tag with
  | true =>
    have hend : shouldSerializeEndTag tag = false := by
      unfold isVoid at htag
      unfold shouldSerializeEndTag
      simpa using htag
    simp [hend]
  | false =>
    have hend : shouldSerializeEndTag tag = true := by
      unfold isVoid at htag
      unfold shouldSerializeEndTag
      simpa using htag
    rw [if_neg Bool.false_ne_true, childrenSerialization_eq_nil_iff, hend]
    simp

/-- A paragraph in a `div` is not in its `innerHTML`. -/
theorem innerHTML_drops_paragraph :
    innerHTML "div" none [] [.element "p" none [] [.text ['x']]] ≠
      fragmentSerialization true "div" [.element "p" none [] [.text ['x']]] := by
  decide

end Blinkit.Editing
