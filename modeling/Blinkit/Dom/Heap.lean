import Blinkit.Lib.Ancestry

/-!
# The heap of DOM nodes

The objects `Node`, `ContainerNode`, `Document`, `ScriptWrappable` and the pool `GCPool`, field by
field: the heap holds one function from nodes to values for each field.

* `links` — `m_parentOrShadowHostNode`, `m_previous`, `m_next`, `m_firstChild`, `m_lastChild`.
* `document` — the document of `m_treeScope`. A document is its own scope.
* `isConnected` — the flag `kIsConnectedFlag`.
* `domTreeVersion`, `globalTreeVersion` — `Document::m_domTreeVersion`, `m_globalTreeVersion`.
* `contextObject`, `contextRetained`, `inGCPool` — the fields of `ScriptWrappable`;
  `contextObject` says whether the pointer to the wrapper is set.
* `gcObjects` — `GCPool::m_objects`; `freed` — the objects deleted so far, in order.

The model is the release build of the crawler (`BLINKIT_CRAWLER_ONLY`): assertions do nothing, a
body that holds nothing but `ASSERT(false)` does nothing, there is no shadow root, no pseudo
element and no template content, and all documents share the frame that owns the pool. The tree
version is a natural number; the 64-bit counter would wrap after `2 ^ 64` mutations.
-/

set_option autoImplicit false

namespace Blinkit.Dom

open LinkedForest Function

abbrev NodeId := Nat

/-- `Node::NodeType`. -/
inductive NodeType where
  | element
  | attribute
  | text
  | cdataSection
  | processingInstruction
  | comment
  | document
  | documentType
  | documentFragment
  deriving DecidableEq, Repr

inductive DOMExceptionCode where
  | hierarchyRequestError
  | notFoundError
  deriving DecidableEq, Repr

/-- What an `ExceptionState` holds after a throw. -/
structure DOMException where
  code : DOMExceptionCode
  message : String
  deriving DecidableEq, Repr

structure Heap where
  /-- The nodes below `size` have been allocated. -/
  size : Nat
  nodeType : NodeId → NodeType
  nodeName : NodeId → String
  document : NodeId → NodeId
  isConnected : NodeId → Bool
  links : Links NodeId
  domTreeVersion : NodeId → Nat
  globalTreeVersion : Nat
  contextObject : NodeId → Bool
  contextRetained : NodeId → Bool
  inGCPool : NodeId → Bool
  gcObjects : List NodeId
  freed : List NodeId

namespace Heap

/-- Nothing has been allocated yet. -/
def initial : Heap where
  size := 0
  nodeType _ := .element
  nodeName _ := ""
  document _ := 0
  isConnected _ := false
  links := Links.empty
  domTreeVersion _ := 0
  globalTreeVersion := 0
  contextObject _ := false
  contextRetained _ := false
  inGCPool _ := false
  gcObjects := []
  freed := []

/-! ## Fields read through methods -/

variable (h : Heap)

def isElementNode (n : NodeId) : Bool := h.nodeType n == .element

def isTextNode (n : NodeId) : Bool := h.nodeType n == .text || h.nodeType n == .cdataSection

def isDocumentFragment (n : NodeId) : Bool := h.nodeType n == .documentFragment

def isDocumentNode (n : NodeId) : Bool := h.document n == n

/-- The classes derived from `ContainerNode`. -/
def isContainerNode (n : NodeId) : Bool :=
  h.nodeType n == .element || h.nodeType n == .document || h.nodeType n == .documentFragment

/-- `Node::IsTreeScope`: the root of the scope is the document. -/
def isTreeScope (n : NodeId) : Bool := h.document n == n

/-- `Node::parentNode`. -/
def parentNode (n : NodeId) : Option NodeId := h.links.parent n

/-- `Node::nextSibling`. -/
def nextSibling (n : NodeId) : Option NodeId := h.links.next n

/-- `Node::previousSibling`. -/
def previousSibling (n : NodeId) : Option NodeId := h.links.prev n

/-- `Node::firstChild`. -/
def firstChild (n : NodeId) : Option NodeId :=
  if h.isContainerNode n then h.links.first n else none

/-! ## Field updates -/

/-- `Document::IncDOMTreeVersion`. -/
def incDOMTreeVersion (d : NodeId) : Heap :=
  { h with
    globalTreeVersion := h.globalTreeVersion + 1
    domTreeVersion := update h.domTreeVersion d (h.globalTreeVersion + 1) }

/-- `ContainerNode::ChildrenChanged`. -/
def childrenChanged (p : NodeId) : Heap := h.incDOMTreeVersion (h.document p)

/-- `ScriptWrappable::ReleaseFromContext`. -/
def releaseFromContext (n : NodeId) : Heap :=
  { h with contextRetained := update h.contextRetained n false }

/-- `ScriptWrappable::RetainByContext`. -/
def retainByContext (n : NodeId) : Heap :=
  { h with contextRetained := update h.contextRetained n true }

/-- `GCPool::Restore`. -/
def restore (n : NodeId) : Heap :=
  { h with gcObjects := h.gcObjects.erase n, inGCPool := update h.inGCPool n false }

/-- `GCPool::Save`. -/
def save (n : NodeId) : Heap :=
  if h.contextRetained n then h
  else { h with gcObjects := h.gcObjects.insert n, inGCPool := update h.inGCPool n true }

def setConnected (n : NodeId) (v : Bool) : Heap :=
  { h with isConnected := update h.isConnected n v }

/-! ## Creation -/

/-- The constructors of the nodes other than documents, in the scope of the document `d`. -/
def createNode (type : NodeType) (name : String) (d : NodeId) : Heap :=
  { h with
    size := h.size + 1
    nodeType := update h.nodeType h.size type
    nodeName := update h.nodeName h.size name
    document := update h.document h.size d
    isConnected := update h.isConnected h.size false
    contextObject := update h.contextObject h.size false
    contextRetained := update h.contextRetained h.size false
    inGCPool := update h.inGCPool h.size false }

/-- The constructor of `Document`, which draws its version from the global counter. -/
def createDocument : Heap :=
  let d := h.size
  { h.createNode .document "#document" d with
    isConnected := update h.isConnected d true
    globalTreeVersion := h.globalTreeVersion + 1
    domTreeVersion := update h.domTreeVersion d (h.globalTreeVersion + 1) }

/-- `TreeScope::AdoptIfNeeded`: `TreeScopeAdopter::Execute` is a stub, so the node keeps its
scope. -/
def adoptIfNeeded (_child : NodeId) : Heap := h

end Heap

end Blinkit.Dom
