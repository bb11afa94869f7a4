import Blinkit.Dom.Heap

/-!
# The tree mutators of `ContainerNode`

Translation of `container_node.cpp`. A loop over the tree takes a bound `fuel` on its rounds; a
mutator returns `none` when one of its loops is still running at the bound.

* `ensurePreInsertionValidity` — the checks in front of an insertion, with their messages.
* `DOMTreeMutationDetector` — the comparison of tree versions around a removal.
* `appendChild`, `insertBefore`, `replaceChild`, `removeChild`, `removeChildren` — the DOM methods.
* `parserAppendChild` — the insertion used by the parser.

No script runs inside a mutator: mutation events, mutation observers and the notifications of
script elements are left out.
-/

set_option autoImplicit false

namespace Blinkit.Dom

open LinkedForest Function

namespace Heap

/-! ## Traversal -/

/-- `GetChildNodes`, and the range `NodeTraversal::ChildrenOf`. -/
def childNodes (h : Heap) (fuel : Nat) (p : NodeId) : Option (List NodeId) :=
  walk h.links.next fuel (h.links.first p)

/-- The range `NodeTraversal::InclusiveDescendantsOf`. -/
def inclusiveDescendantsOf (h : Heap) (fuel : Nat) (root : NodeId) : Option (List NodeId) :=
  preorder h.links fuel fuel root

/-- `Node::IsDescendantOf`. -/
def isDescendantOf (h : Heap) (fuel : Nat) (n other : NodeId) : Option Bool :=
  if h.firstChild other = none ∨ h.isConnected n ≠ h.isConnected other then some false
  else if h.document other ≠ h.document n then some false
  else if h.isTreeScope other then some !h.isTreeScope n
  else search h.parentNode other fuel (h.parentNode n)

/-- `Node::contains`. -/
def contains (h : Heap) (fuel : Nat) (n other : NodeId) : Option Bool :=
  if n = other then some true else h.isDescendantOf fuel other n

end Heap

/-! ## Checks in front of an insertion -/

/-- `CheckReferenceChildParent`. -/
def checkReferenceChildParent (h : Heap) (parent : NodeId) (next oldChild : Option NodeId) :
    Option DOMException :=
  if next.any fun n => h.parentNode n ≠ some parent then
    some ⟨.notFoundError,
      "The node before which the new node is to be inserted is not a child of this node."⟩
  else if oldChild.any fun n => h.parentNode n ≠ some parent then
    some ⟨.notFoundError, "The node to be replaced is not a child of this node."⟩
  else none

namespace Element

/-- `Element::ChildTypeAllowed`. -/
def childTypeAllowed : NodeType → Bool
  | .element | .text | .comment | .processingInstruction | .cdataSection => true
  | _ => false

end Element

namespace DocumentFragment

/-- `DocumentFragment::ChildTypeAllowed`. -/
def childTypeAllowed : NodeType → Bool
  | .element | .processingInstruction | .comment | .text | .cdataSection => true
  | _ => false

end DocumentFragment

namespace Document

/-- `Document::ChildTypeAllowed`. -/
def childTypeAllowed (h : Heap) (fuel : Nat) (d : NodeId) (type : NodeType) : Option Bool :=
  match type with
  | .attribute | .cdataSection | .documentFragment | .document | .text => some false
  | .comment | .processingInstruction => some true
  | .documentType | .element =>
    (h.childNodes fuel d).map fun cs => cs.all fun c => h.nodeType c ≠ type

/-- What the first loop of `Document::CanAcceptChild` counts. -/
structure ChildCount where
  numDoctypes : Nat := 0
  numElements : Nat := 0
  hasDoctypeAfterReferenceNode : Bool := false
  hasElementAfterReferenceNode : Bool := false
  sawReferenceNode : Bool := false

def ChildCount.add (h : Heap) (next oldChild : Option NodeId) (k : ChildCount) (c : NodeId) :
    ChildCount :=
  if oldChild = some c then { k with sawReferenceNode := true }
  else
    let k := if next = some c then { k with sawReferenceNode := true } else k
    match h.nodeType c with
    | .documentType =>
      { k with
        numDoctypes := k.numDoctypes + 1, hasDoctypeAfterReferenceNode := k.sawReferenceNode }
    | .element =>
      { k with
        numElements := k.numElements + 1, hasElementAfterReferenceNode := k.sawReferenceNode }
    | _ => k

def typeError (h : Heap) (newChild : NodeId) : DOMException :=
  ⟨.hierarchyRequestError, "Nodes of type '" ++ h.nodeName newChild ++
    "' may not be inserted inside nodes of type '#document'."⟩

def elementBeforeDoctype : DOMException :=
  ⟨.hierarchyRequestError, "Can't insert an element before a doctype."⟩

def doctypeBeforeRoot : DOMException :=
  ⟨.hierarchyRequestError, "Can't insert a doctype before the root element."⟩

def onlyOne (k : ChildCount) : Option DOMException :=
  if k.numElements > 1 ∨ k.numDoctypes > 1 then
    some ⟨.hierarchyRequestError, "Only one " ++
      (if k.numElements > 1 then "element" else "doctype") ++ " on document allowed."⟩
  else none

/-- The loop of `Document::CanAcceptChild` over the children of a fragment. -/
def countFragment (h : Heap) (newChild : NodeId) :
    ChildCount → List NodeId → Except DOMException ChildCount
  | k, [] => .ok k
  | k, c :: cs =>
    match h.nodeType c with
    | .attribute | .cdataSection | .documentFragment | .document | .text =>
      .error (typeError h newChild)
    | .comment | .processingInstruction => countFragment h newChild k cs
    | .documentType => countFragment h newChild { k with numDoctypes := k.numDoctypes + 1 } cs
    | .element =>
      if k.hasDoctypeAfterReferenceNode then .error elementBeforeDoctype
      else countFragment h newChild { k with numElements := k.numElements + 1 } cs

/-- `Document::CanAcceptChild`: the exception it sets, or `none` when it returns `true`. -/
def canAcceptChild (h : Heap) (fuel : Nat) (d newChild : NodeId) (next oldChild : Option NodeId) :
    Option (Option DOMException) :=
  if oldChild.any fun o => h.nodeType o = h.nodeType newChild then some none
  else do
    let children ← h.childNodes fuel d
    let k := children.foldl (ChildCount.add h next oldChild) {}
    if h.isDocumentFragment newChild then
      let cs ← h.childNodes fuel newChild
      match countFragment h newChild k cs with
      | .error e => return some e
      | .ok k => return onlyOne k
    else
      match h.nodeType newChild with
      | .attribute | .cdataSection | .documentFragment | .document | .text =>
        return some (typeError h newChild)
      | .comment | .processingInstruction => return none
      | .documentType =>
        if k.numElements > 0 ∧ !k.hasElementAfterReferenceNode then return some doctypeBeforeRoot
        else return onlyOne { k with numDoctypes := k.numDoctypes + 1 }
      | .element =>
        if k.hasDoctypeAfterReferenceNode then return some elementBeforeDoctype
        else return onlyOne { k with numElements := k.numElements + 1 }

end Document

namespace ContainerNode

/-- `ChildTypeAllowed`, by the class of the container. -/
def childTypeAllowed (h : Heap) (fuel : Nat) (p : NodeId) (type : NodeType) : Option Bool :=
  match h.nodeType p with
  | .element => some (Element.childTypeAllowed type)
  | .documentFragment => some (DocumentFragment.childTypeAllowed type)
  | .document => Document.childTypeAllowed h fuel p type
  | _ => some false

def allTypesAllowed (h : Heap) (fuel : Nat) (p : NodeId) : List NodeId → Option Bool
  | [] => some true
  | c :: cs => do
    if ← childTypeAllowed h fuel p (h.nodeType c) then allTypesAllowed h fuel p cs
    else return false

/-- `ContainerNode::IsChildTypeAllowed`. -/
def isChildTypeAllowed (h : Heap) (fuel : Nat) (p child : NodeId) : Option Bool :=
  if h.isDocumentFragment child then do
    allTypesAllowed h fuel p (← h.childNodes fuel child)
  else childTypeAllowed h fuel p (h.nodeType child)

/-- `ContainerNode::IsHostIncludingInclusiveAncestorOfThis`. -/
def isHostIncludingInclusiveAncestorOfThis (h : Heap) (fuel : Nat) (p newChild : NodeId) :
    Option Bool :=
  if h.isContainerNode newChild then h.contains fuel newChild p else some false

def containsParentError : DOMException :=
  ⟨.hierarchyRequestError, "The new child element contains the parent."⟩

/-- `ContainerNode::EnsurePreInsertionValidity`: the exception it sets, or `none` when it returns
`true`. The branch for documents is only an assertion, so they take the general path. -/
def ensurePreInsertionValidity (h : Heap) (fuel : Nat) (p newChild : NodeId)
    (next oldChild : Option NodeId) : Option (Option DOMException) := do
  if (h.isElementNode newChild || h.isTextNode newChild) && h.isElementNode p then
    if ← isHostIncludingInclusiveAncestorOfThis h fuel p newChild then
      return some containsParentError
    return checkReferenceChildParent h p next oldChild
  if ← isHostIncludingInclusiveAncestorOfThis h fuel p newChild then
    return some containsParentError
  if let some e := checkReferenceChildParent h p next oldChild then
    return some e
  if ← isChildTypeAllowed h fuel p newChild then
    return none
  return some ⟨.hierarchyRequestError, "Nodes of type '" ++ h.nodeName newChild ++
    "' may not be inserted inside nodes of type '" ++ h.nodeName p ++ "'."⟩

end ContainerNode

/-! ## Notifications -/

namespace Heap

/-- `Node::InsertedInto`. -/
def insertedInto (h : Heap) (insertionPoint n : NodeId) : Heap :=
  if h.isConnected insertionPoint then h.setConnected n true else h

/-- `Node::RemovedFrom`. -/
def removedFrom (h : Heap) (insertionPoint n : NodeId) : Heap :=
  if h.isConnected insertionPoint then h.setConnected n false else h

/-- `ContainerNode::NotifyNodeInsertedInternal`. -/
def notifyNodeInsertedInternal (h : Heap) (fuel : Nat) (p root : NodeId) : Option Heap := do
  let nodes ← h.inclusiveDescendantsOf fuel root
  return nodes.foldl (fun h n =>
    if !h.isConnected p && !h.isContainerNode n then h else h.insertedInto p n) h

/-- `ContainerNode::NotifyNodeRemoved`. -/
def notifyNodeRemoved (h : Heap) (fuel : Nat) (p root : NodeId) : Option Heap := do
  let nodes ← h.inclusiveDescendantsOf fuel root
  return nodes.foldl (fun h n =>
    if !h.isContainerNode n && !h.isConnected n then h else h.removedFrom p n) h

/-! ## Pointer updates -/

/-- `ContainerNode::AppendChildCommon`. -/
def appendChildCommon (h : Heap) (p child : NodeId) : Heap :=
  let h := h.releaseFromContext child
  { h with links := h.links.append p child }

/-- `ContainerNode::InsertBeforeCommon`. -/
def insertBeforeCommon (h : Heap) (p nextChild newChild : NodeId) : Heap :=
  let h := h.releaseFromContext newChild
  { h with links := h.links.insertBefore p nextChild newChild }

/-- `ContainerNode::RemoveBetween`. -/
def removeBetween (h : Heap) (p : NodeId) (previousChild nextChild : Option NodeId)
    (oldChild : NodeId) : Heap :=
  let h := { h with links := h.links.remove p previousChild nextChild oldChild }
  h.adoptIfNeeded oldChild

/-- `AdoptAndAppendChild`; the parser passes no pool. -/
def adoptAndAppendChild (h : Heap) (gcPool : Bool) (container child : NodeId) : Heap :=
  let h := h.adoptIfNeeded child
  let h := h.appendChildCommon container child
  if gcPool then h.restore child else h

/-- `AdoptAndInsertBefore`. -/
def adoptAndInsertBefore (h : Heap) (gcPool : Bool) (container child next : NodeId) : Heap :=
  let h := h.adoptIfNeeded child
  let h := h.insertBeforeCommon container next child
  if gcPool then h.restore child else h

end Heap

/-! ## Detection of mutations -/

/-- `DOMTreeMutationDetector`. -/
structure DOMTreeMutationDetector where
  node : NodeId
  nodeDocument : NodeId
  parentDocument : NodeId
  parent : NodeId
  originalNodeDocumentVersion : Nat
  originalParentDocumentVersion : Nat

namespace DOMTreeMutationDetector

def create (h : Heap) (node parent : NodeId) : DOMTreeMutationDetector where
  node := node
  nodeDocument := h.document node
  parentDocument := h.document parent
  parent := parent
  originalNodeDocumentVersion := h.domTreeVersion (h.document node)
  originalParentDocumentVersion := h.domTreeVersion (h.document parent)

/-- `NeedsRecheck`, which answers `true` when no other mutation has been seen. -/
def needsRecheck (d : DOMTreeMutationDetector) (h : Heap) : Bool :=
  if d.nodeDocument ≠ h.document d.node then false
  else if h.domTreeVersion d.nodeDocument > d.originalNodeDocumentVersion + 1 then false
  else if d.parentDocument ≠ h.document d.parent then false
  else if d.nodeDocument = d.parentDocument then true
  else h.domTreeVersion d.parentDocument == d.originalParentDocumentVersion

end DOMTreeMutationDetector

/-! ## Mutators -/

/-- What a DOM method leaves: the heap, the node it returns and the exception it has set. -/
structure Result where
  heap : Heap
  node : Option NodeId
  exception : Option DOMException

namespace ContainerNode

def notAChildError : DOMException :=
  ⟨.notFoundError, "The node to be removed is not a child of this node."⟩

/-- `ContainerNode::RemoveChild`. -/
def removeChild (h : Heap) (fuel : Nat) (p : NodeId) : Option NodeId → Option Result
  | none => some ⟨h, none, some notAChildError⟩
  | some child => do
    if h.parentNode child ≠ some p then
      return ⟨h, none, some notAChildError⟩
    let prev := h.previousSibling child
    let next := h.nextSibling child
    let h := h.removeBetween p prev next child
    let h ← h.notifyNodeRemoved fuel p child
    let h := h.save child
    return ⟨h.childrenChanged p, some child, none⟩

/-- The loop of `ContainerNode::RemoveChildren`. -/
def removeChildrenLoop (fuel : Nat) (p : NodeId) : Nat → Heap → Option Heap
  | rounds, h =>
    match h.links.first p, rounds with
    | none, _ => some h
    | some _, 0 => none
    | some child, rounds + 1 => do
      let h := h.removeBetween p none (h.nextSibling child) child
      let h ← h.notifyNodeRemoved fuel p child
      removeChildrenLoop fuel p rounds (h.save child)

/-- `ContainerNode::RemoveChildren`. -/
def removeChildren (h : Heap) (fuel : Nat) (p : NodeId) : Option Heap :=
  if h.links.first p = none then some h
  else (removeChildrenLoop fuel p fuel h).map (·.childrenChanged p)

end ContainerNode

namespace Node

def unsupportedError (code : DOMExceptionCode) : DOMException :=
  ⟨code, "This node type does not support this method."⟩

/-- `Node::removeChild`. -/
def removeChild (h : Heap) (fuel : Nat) (p : NodeId) (child : Option NodeId) : Option Result :=
  if h.isContainerNode p then ContainerNode.removeChild h fuel p child
  else some ⟨h, none, some (unsupportedError .notFoundError)⟩

end Node

namespace ContainerNode

/-- What `CollectChildrenAndRemoveFromOldParent` leaves. -/
structure Collected where
  heap : Heap
  nodes : List NodeId
  exception : Option DOMException

/-- The value `CollectChildrenAndRemoveFromOldParent` returns. -/
def Collected.proceed (c : Collected) : Bool := c.exception.isNone && !c.nodes.isEmpty

/-- `CollectChildrenAndRemoveFromOldParent`. -/
def collectChildrenAndRemoveFromOldParent (h : Heap) (fuel : Nat) (n : NodeId) :
    Option Collected := do
  if h.isDocumentFragment n then
    let nodes ← h.childNodes fuel n
    let h ← removeChildren h fuel n
    return ⟨h, nodes, none⟩
  match h.parentNode n with
  | none => return ⟨h, [n], none⟩
  | some oldParent =>
    let r ← Node.removeChild h fuel oldParent (some n)
    return ⟨r.heap, [n], r.exception⟩

/-- `ContainerNode::RecheckNodeInsertionStructuralPrereq` is a stub: it sets no exception. -/
def recheckNodeInsertionStructuralPrereq (_newChildren : List NodeId) (_next : Option NodeId) :
    Bool := false

/-- The functor handed to `InsertNodeVector`: `AdoptAndInsertBefore` in front of a given node,
`AdoptAndAppendChild` otherwise. -/
def mutator (h : Heap) (p target : NodeId) : Option NodeId → Heap
  | some next => h.adoptAndInsertBefore true p target next
  | none => h.adoptAndAppendChild true p target

/-- `ContainerNode::InsertNodeVector`. -/
def insertNodeVector (fuel : Nat) (p : NodeId) (next : Option NodeId) :
    List NodeId → Heap → Option Heap
  | [], h => some h
  | target :: targets, h => do
    let h ← (mutator h p target next).notifyNodeInsertedInternal fuel p target
    insertNodeVector fuel p next targets h

/-- `ContainerNode::DidInsertNodeVector`. -/
def didInsertNodeVector (h : Heap) (p : NodeId) (targets : List NodeId) : Heap :=
  targets.foldl (fun h _ => h.childrenChanged p) h

/-- The common end of `AppendChild`, `InsertBefore` and `ReplaceChild`: the nodes leave their old
parent and are inserted in front of `next`. `needsRecheck` is set by `ReplaceChild` alone, when a
detector has objected before; `ret` is the node the method returns. -/
def insertChecked (h : Heap) (fuel : Nat) (p newChild : NodeId) (next : Option NodeId)
    (ret : NodeId) (needsRecheck : Bool) : Option Result := do
  let detector := DOMTreeMutationDetector.create h newChild p
  let c ← collectChildrenAndRemoveFromOldParent h fuel newChild
  if !c.proceed then
    return ⟨c.heap, some ret, c.exception⟩
  if (!detector.needsRecheck c.heap || needsRecheck) &&
      !recheckNodeInsertionStructuralPrereq c.nodes next then
    return ⟨c.heap, some ret, none⟩
  let h ← insertNodeVector fuel p next c.nodes c.heap
  return ⟨didInsertNodeVector h p c.nodes, some ret, none⟩

/-- `ContainerNode::AppendChild`. -/
def appendChild (h : Heap) (fuel : Nat) (p newChild : NodeId) : Option Result := do
  match ← ensurePreInsertionValidity h fuel p newChild none none with
  | some e => return ⟨h, some newChild, some e⟩
  | none => insertChecked h fuel p newChild none newChild false

/-- `ContainerNode::InsertBefore`. -/
def insertBefore (h : Heap) (fuel : Nat) (p newChild : NodeId) : Option NodeId → Option Result
  | none => appendChild h fuel p newChild
  | some refChild => do
    match ← ensurePreInsertionValidity h fuel p newChild (some refChild) none with
    | some e => return ⟨h, some newChild, some e⟩
    | none =>
      match (if refChild = newChild then h.nextSibling newChild else some refChild) with
      | none => appendChild h fuel p newChild
      | some refChild => insertChecked h fuel p newChild (some refChild) newChild false

def replacedIsNullError : DOMException := ⟨.notFoundError, "The node to be replaced is null."⟩

/-- The removals of `ContainerNode::ReplaceChild` in front of the insertion: `node` leaves its
parent, if it has one. The flag says whether the detector asks for a second check. -/
def removeForReplace (h : Heap) (fuel : Nat) (p node : NodeId) :
    Option (Heap × Option DOMException × Bool) :=
  match h.parentNode node with
  | none => some (h, none, false)
  | some parent => do
    let detector := DOMTreeMutationDetector.create h node p
    let r ← removeChild h fuel parent (some node)
    return (r.heap, r.exception, !detector.needsRecheck r.heap)

/-- `ContainerNode::ReplaceChild`. -/
def replaceChild (h : Heap) (fuel : Nat) (p newChild : NodeId) : Option NodeId → Option Result
  | none => some ⟨h, none, some replacedIsNullError⟩
  | some oldChild => do
    match ← ensurePreInsertionValidity h fuel p newChild none (some oldChild) with
    | some e => return ⟨h, some oldChild, some e⟩
    | none =>
    let next := h.nextSibling oldChild
    let next := if next = some newChild then h.nextSibling newChild else next
    let (h, e, needsRecheck₁) ← removeForReplace h fuel p newChild
    if e.isSome then
      return ⟨h, none, e⟩
    let (h, e, needsRecheck₂) ← removeForReplace h fuel p oldChild
    if e.isSome then
      return ⟨h, none, e⟩
    insertChecked h fuel p newChild next oldChild (needsRecheck₁ || needsRecheck₂)

end ContainerNode

namespace Node

/-- `Node::appendChild`. -/
def appendChild (h : Heap) (fuel : Nat) (p newChild : NodeId) : Option Result :=
  if h.isContainerNode p then ContainerNode.appendChild h fuel p newChild
  else some ⟨h, none, some (unsupportedError .hierarchyRequestError)⟩

/-- `Node::insertBefore`. -/
def insertBefore (h : Heap) (fuel : Nat) (p newChild : NodeId) (refChild : Option NodeId) :
    Option Result :=
  if h.isContainerNode p then ContainerNode.insertBefore h fuel p newChild refChild
  else some ⟨h, none, some (unsupportedError .hierarchyRequestError)⟩

end Node

/-! ## Mutators of the parser -/

namespace ContainerNode

/-- The exception that the document's own check sets inside `CheckParserAcceptChild`, where it is
dropped. -/
def parserChildException (h : Heap) (fuel : Nat) (p newChild : NodeId) :
    Option (Option DOMException) :=
  if h.isDocumentNode p then Document.canAcceptChild h fuel p newChild none none else some none

/-- `ContainerNode::CheckParserAcceptChild`. -/
def checkParserAcceptChild (h : Heap) (fuel : Nat) (p newChild : NodeId) : Option Bool :=
  (parserChildException h fuel p newChild).map (·.isNone)

/-- `ContainerNode::ParserRemoveChild` is a stub. -/
def parserRemoveChild (h : Heap) (_p _oldChild : NodeId) : Heap := h

/-- `ContainerNode::ParserInsertBefore` is a stub. -/
def parserInsertBefore (h : Heap) (_p _newChild _refChild : NodeId) : Heap := h

/-- The loop of `ContainerNode::ParserAppendChild` that detaches the child. -/
def parserDetach (newChild : NodeId) : Nat → Heap → Option Heap
  | rounds, h =>
    match h.parentNode newChild, rounds with
    | none, _ => some h
    | some _, 0 => none
    | some parent, rounds + 1 => parserDetach newChild rounds (parserRemoveChild h parent newChild)

/-- `ContainerNode::ParserAppendChild`. -/
def parserAppendChild (h : Heap) (fuel : Nat) (p newChild : NodeId) : Option Heap := do
  if !(← checkParserAcceptChild h fuel p newChild) then
    return h
  let h ← parserDetach newChild fuel h
  let h := h.adoptAndAppendChild false p newChild
  let h ← h.notifyNodeInsertedInternal fuel p newChild
  return h.childrenChanged p

/-- `ContainerNode::ParserTakeAllChildrenFrom`. -/
def parserTakeAllChildrenFrom (fuel : Nat) (p oldParent : NodeId) : Nat → Heap → Option Heap
  | rounds, h =>
    match h.links.first oldParent, rounds with
    | none, _ => some h
    | some _, 0 => none
    | some child, rounds + 1 => do
      let h := parserRemoveChild h oldParent child
      let h ← parserAppendChild h fuel p child
      parserTakeAllChildrenFrom fuel p oldParent rounds h

end ContainerNode

end Blinkit.Dom
