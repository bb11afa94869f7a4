import Blinkit.Html.HTMLConstructionSiteTask

/-!
# The stack of open elements and the list of active formatting elements

* `HTMLStackItem` : an element, or the root fragment, with the token it was made from
* `HTMLElementStack` : the records, the newest first; a pointer to a record is the rest of the stack
  from this record on, and the empty list is the null pointer
* `HTMLFormattingElementList` : the entries, the newest last; `none` is a marker
* `ConstructionSite` : both, with the queue of tasks; the pending text has been flushed, as it is
  before every tag

An element is in the stack at most once, so a record is known by its element.
-/

set_option autoImplicit false

namespace Blinkit.Html

open Dom

/-! ## Items -/

inductive NamespaceURI where
  | xhtml
  | other (uri : String)
  deriving DecidableEq

structure SavedToken where
  localName : String
  attributes : List (String × String)
  namespaceURI : NamespaceURI
  deriving DecidableEq

/-- An item for a document fragment has no token. -/
structure HTMLStackItem where
  node : NodeId
  token : Option SavedToken
  deriving DecidableEq

namespace HTMLStackItem

def isDocumentFragmentNode (item : HTMLStackItem) : Bool := item.token.isNone

/-- `HasTagName` and `MatchesHTMLTag`, with the name of an HTML tag. -/
def hasTagName (item : HTMLStackItem) (name : String) : Bool :=
  item.token.any fun token => token.localName == name && token.namespaceURI == .xhtml

def hasTagNameIn (item : HTMLStackItem) (names : List String) : Bool := names.any item.hasTagName

def causesFosterParenting (item : HTMLStackItem) : Bool :=
  item.hasTagNameIn ["table", "tbody", "tfoot", "thead", "tr"]

def specialTags : List String :=
  ["address", "area", "applet", "article", "aside", "base", "basefont", "bgsound", "blockquote",
    "body", "br", "button", "caption", "center", "col", "colgroup", "command", "dd", "details",
    "dir", "div", "dl", "dt", "embed", "fieldset", "figcaption", "figure", "footer", "form",
    "frame", "frameset", "h1", "h2", "h3", "h4", "h5", "h6", "head", "header", "hgroup", "hr",
    "html", "iframe", "img", "input", "li", "link", "listing", "main", "marquee", "menu", "meta",
    "nav", "noembed", "noframes", "noscript", "object", "ol", "p", "param", "plaintext", "pre",
    "script", "section", "select", "style", "summary", "table", "tbody", "tfoot", "thead", "td",
    "template", "textarea", "th", "title", "tr", "ul", "wbr", "xmp"]

def isSpecialNode (item : HTMLStackItem) : Bool :=
  item.isDocumentFragmentNode || item.hasTagNameIn specialTags

def isRootNode (item : HTMLStackItem) : Bool :=
  item.isDocumentFragmentNode || item.hasTagName "html"

def isScopeMarker (item : HTMLStackItem) : Bool :=
  item.hasTagNameIn ["applet", "caption", "marquee", "object", "table", "td", "th", "template"] ||
    item.isRootNode

def hasImpliedEndTag (item : HTMLStackItem) : Bool :=
  item.hasTagNameIn ["dd", "dt", "li", "option", "optgroup", "p", "rb", "rp", "rt", "rtc"]

end HTMLStackItem

/-! ## The stack of open elements -/

abbrev HTMLElementStack := List HTMLStackItem

namespace HTMLElementStack

def find (n : NodeId) : HTMLElementStack → HTMLElementStack
  | [] => []
  | item :: rest => if item.node = n then item :: rest else find n rest

def contains (stack : HTMLElementStack) (n : NodeId) : Bool := stack.any fun item => item.node == n

def inScope (n : NodeId) : HTMLElementStack → Bool
  | [] => false
  | item :: rest =>
    if item.node = n then true else if item.isScopeMarker then false else inScope n rest

def topmost (name : String) : HTMLElementStack → HTMLElementStack
  | [] => []
  | item :: rest => if item.hasTagName name then item :: rest else topmost name rest

/-- The loop of `FurthestBlockForFormattingElement`. -/
def furthestBlockForFormattingElement (n : NodeId) :
    HTMLElementStack → HTMLElementStack → HTMLElementStack
  | _, [] => []
  | furthestBlock, item :: rest =>
    if item.node = n then furthestBlock
    else furthestBlockForFormattingElement n
      (if item.isSpecialNode then item :: rest else furthestBlock) rest

def popUntilPopped (n : NodeId) : HTMLElementStack → HTMLElementStack
  | [] => []
  | item :: rest => if item.node = n then rest else popUntilPopped n rest

def remove (n : NodeId) : HTMLElementStack → HTMLElementStack
  | [] => []
  | item :: rest => if item.node = n then rest else item :: remove n rest

def insertAbove (item : HTMLStackItem) (n : NodeId) : HTMLElementStack → HTMLElementStack
  | [] => []
  | below :: rest =>
    if below.node = n then item :: below :: rest else below :: insertAbove item n rest

def generateImpliedEndTagsWithExclusion (name : String) : HTMLElementStack → HTMLElementStack
  | [] => []
  | item :: rest =>
    if item.hasImpliedEndTag && !item.hasTagName name then
      generateImpliedEndTagsWithExclusion name rest
    else item :: rest

end HTMLElementStack

/-! ## The list of active formatting elements -/

abbrev HTMLFormattingElementList := List (Option HTMLStackItem)

namespace HTMLFormattingElementList

/-- The loop of `ClosestElementInScopeWithName`, which goes backwards. -/
def closestLoop (name : String) : HTMLFormattingElementList → Option HTMLStackItem
  | [] => none
  | none :: _ => none
  | some item :: entries => if item.hasTagName name then some item else closestLoop name entries

def closestElementInScopeWithName (entries : HTMLFormattingElementList) (name : String) :
    Option HTMLStackItem := closestLoop name entries.reverse

def isEntryOf (n : NodeId) (entry : Option HTMLStackItem) : Bool :=
  entry.any fun item => item.node == n

theorem isEntryOf_iff {n : NodeId} {entry : Option HTMLStackItem} :
    isEntryOf n entry = true ↔ ∃ item, entry = some item ∧ item.node = n := by
  cases entry <;> simp [isEntryOf]

/-- `Find`: the index of the last entry of an element. -/
def find (n : NodeId) : HTMLFormattingElementList → Option Nat
  | [] => none
  | entry :: entries =>
    match find n entries with
    | some i => some (i + 1)
    | none => if isEntryOf n entry then some 0 else none

def contains (entries : HTMLFormattingElementList) (n : NodeId) : Bool := (entries.find n).isSome

def replaceElement (entries : HTMLFormattingElementList) (i : Nat) (item : HTMLStackItem) :
    HTMLFormattingElementList := entries.set i (some item)

def remove (entries : HTMLFormattingElementList) (n : NodeId) : HTMLFormattingElementList :=
  match entries.find n with
  | some i => entries.eraseIdx i
  | none => entries

structure Bookmark where
  hasBeenMoved : Bool
  mark : Nat

def bookmarkFor (entries : HTMLFormattingElementList) (n : NodeId) : Bookmark :=
  ⟨false, (entries.find n).getD 0⟩

def Bookmark.moveToAfter (_bookmark : Bookmark) (before : Nat) : Bookmark := ⟨true, before⟩

/-- `SwapTo`: both branches replace the entry at the mark. -/
def swapTo (entries : HTMLFormattingElementList) (newItem : HTMLStackItem) (bookmark : Bookmark) :
    HTMLFormattingElementList := replaceElement entries bookmark.mark newItem

end HTMLFormattingElementList

/-! ## The construction site -/

structure ConstructionSite where
  openElements : HTMLElementStack
  /-- `root_node_` of the stack. -/
  rootNode : NodeId
  activeFormattingElements : HTMLFormattingElementList
  taskQueue : List HTMLConstructionSiteTask
  /-- The next node that is created. -/
  nextNode : NodeId
  /-- `parentNode` of the nodes, in the tree as it is before the queue is executed. -/
  parentNode : NodeId → Option NodeId

namespace ConstructionSite

def queueTask (s : ConstructionSite) (task : HTMLConstructionSiteTask) : ConstructionSite :=
  { s with taskQueue := s.taskQueue ++ [task] }

/-- `CreateElementFromSavedToken`: the item that is made, and the site behind it. -/
def createElementFromSavedToken (s : ConstructionSite) (item : HTMLStackItem) :
    HTMLStackItem × ConstructionSite :=
  ({ item with node := s.nextNode }, { s with nextNode := s.nextNode + 1 })

def reparent (s : ConstructionSite) (newParent child : HTMLStackItem) : ConstructionSite :=
  s.queueTask ⟨.kReparent, newParent.node, none, child.node, false⟩

def takeAllChildren (s : ConstructionSite) (newParent oldParent : HTMLStackItem) :
    ConstructionSite :=
  s.queueTask ⟨.kTakeAllChildren, newParent.node, none, oldParent.node, false⟩

/-- `FindFosterSite`, when there is no template above the table: the parent and the next child. -/
def besideTable (rootNode : NodeId) (parentNode : NodeId → Option NodeId) (table : HTMLStackItem)
    (belowTable : HTMLElementStack) : NodeId × Option NodeId :=
  match parentNode table.node with
  | some parent => (parent, some table.node)
  | none => ((belowTable.head?.map HTMLStackItem.node).getD rootNode, none)

/-- `FindFosterSite`. -/
def findFosterSite (openElements : HTMLElementStack) (rootNode : NodeId)
    (parentNode : NodeId → Option NodeId) : NodeId × Option NodeId :=
  match HTMLElementStack.topmost "template" openElements,
    HTMLElementStack.topmost "table" openElements with
  | template :: _, [] => (template.node, none)
  | template :: below, table :: belowTable =>
    if HTMLElementStack.contains below table.node then (template.node, none)
    else besideTable rootNode parentNode table belowTable
  | [], [] => (rootNode, none)
  | [], table :: belowTable => besideTable rootNode parentNode table belowTable

def fosterParent (s : ConstructionSite) (node : NodeId) : ConstructionSite :=
  let site := findFosterSite s.openElements s.rootNode s.parentNode
  s.queueTask ⟨.kInsert, site.1, site.2, node, false⟩

def insertAlreadyParsedChild (s : ConstructionSite) (newParent child : HTMLStackItem) :
    ConstructionSite :=
  if newParent.causesFosterParenting then s.fosterParent child.node
  else s.queueTask ⟨.kInsertAlreadyParsedChild, newParent.node, none, child.node, false⟩

end ConstructionSite

end Blinkit.Html
