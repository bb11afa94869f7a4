import Blinkit.Dom.ContainerNode

/-!
# What a script does with nodes

Translation of the ownership of nodes: the creation methods of `Document`, `Node::cloneNode`, the
setters of `textContent` and `innerHTML`, the method bindings in `duk_node.cpp`, `PushWrapper`, the
finalizer of a wrapper and `GCPool::CollectGarbage`.

* `ScriptCall` — a call that a script can make, or the finalizer of a wrapper that has become
  unreachable. A script names a node by its live wrapper: calls on other nodes do nothing.
* `Markup` — what the parser makes of the text assigned to `innerHTML`, in any shape that appends
  new elements, texts and comments.
* `Action` — a call, or a collection, which the crawler starts when loading has finished.

The binding pushes the result of `appendChild`, `insertBefore` and `removeChild`; nothing can come
in between. For nodes that have just been created the push is an action of its own. The loops take
the number of nodes as the bound on their rounds.
-/

set_option autoImplicit false

namespace Blinkit.Dom

open Function

/-- More than the rounds any loop over a tree of this heap needs. -/
def Heap.bound (h : Heap) : Nat := h.size + 1

/-! ## Garbage collection -/

namespace NodeTraversal

/-- The loop of `NodeTraversal::NextAncestorSibling`. -/
def nextAncestorSibling (h : Heap) : Nat → Option NodeId → Option (Option NodeId)
  | _, none => some none
  | 0, some _ => none
  | rounds + 1, some parent =>
    match h.nextSibling parent with
    | some sibling => some (some sibling)
    | none => nextAncestorSibling h rounds (h.parentNode parent)

/-- `NodeTraversal::Next`. -/
def next (h : Heap) (fuel : Nat) (current : NodeId) : Option (Option NodeId) :=
  match h.firstChild current with
  | some child => some (some child)
  | none =>
    match h.nextSibling current with
    | some sibling => some (some sibling)
    | none => nextAncestorSibling h fuel (h.parentNode current)

end NodeTraversal

/-- The loop of `ContainerNode::PreCollectGarbage`. -/
def saveTraversed : Nat → Option NodeId → Heap → Option Heap
  | _, none, h => some h
  | 0, some _, _ => none
  | rounds + 1, some n, h => do
    let h := h.save n
    saveTraversed rounds (← NodeTraversal.next h h.bound n) h

/-- `ScriptWrappable::PreCollectGarbage`, which `ContainerNode` overrides. -/
def preCollectGarbage (h : Heap) (object : NodeId) : Option Heap :=
  if h.isContainerNode object then saveTraversed h.bound (h.links.first object) h else some h

/-- `GCPool::CollectGarbage`. The first loop inserts into the set it runs over; whether it also
comes to what it has inserted makes no difference, as that is traversed already. The flag
`m_inGCPool` goes with the deleted objects. -/
def collectGarbage (h : Heap) : Option Heap := do
  let h ← h.gcObjects.foldlM preCollectGarbage h
  return { h with
    freed := h.freed ++ h.gcObjects
    gcObjects := []
    inGCPool := fun n => h.inGCPool n && !h.gcObjects.contains n }

/-! ## Wrappers -/

/-- `DukNode::Push`: the wrapper is made when there is none, and the destructor of `PushWrapper`
takes the node out of the pool. -/
def push (h : Heap) (n : NodeId) : Heap :=
  let h := { h with contextObject := update h.contextObject n true }
  if h.inGCPool n then (h.retainByContext n).restore n else h

/-- `DukScriptObject::DefaultFinalizer`. -/
def defaultFinalizer (h : Heap) (n : NodeId) : Heap :=
  let h := { h with contextObject := update h.contextObject n false }
  if h.contextRetained n then (h.releaseFromContext n).save n else h

/-! ## Creation -/

/-- `Document::createElement`, for a valid name. -/
def createElement (h : Heap) (d : NodeId) (name : String) : Heap :=
  (h.createNode .element name d).save h.size

/-- `DocumentFragment::Create`. -/
def createFragment (h : Heap) (d : NodeId) : Heap :=
  h.createNode .documentFragment "#document-fragment" d

/-- `Document::createDocumentFragment`. -/
def createDocumentFragment (h : Heap) (d : NodeId) : Heap := (createFragment h d).save h.size

/-- The nodes that a clone with children copies as its own children. -/
def clonedChildren (h : Heap) (n : NodeId) : Option (List NodeId) :=
  if h.isContainerNode n then h.childNodes h.bound n else some []

mutual

/-- `Clone` of a node with its children. A document is not cloned. `depth` bounds the recursion. -/
def cloneDeep : Nat → Heap → NodeId → Option (Heap × Option NodeId)
  | 0, _, _ => none
  | depth + 1, h, n =>
    if h.nodeType n = .document then some (h, none)
    else do
      let children ← clonedChildren h n
      let clone := h.createNode (h.nodeType n) (h.nodeName n) (h.document n)
      return (← cloneChildren depth h.size children clone, some h.size)

/-- The loop of `ContainerNode::CloneChildNodesFrom`. -/
def cloneChildren : Nat → NodeId → List NodeId → Heap → Option Heap
  | _, _, [], h => some h
  | depth, clone, child :: children, h => do
    match ← cloneDeep depth h child with
    | (h, none) => cloneChildren depth clone children h
    | (h, some c) =>
      let r ← ContainerNode.appendChild h h.bound clone c
      cloneChildren depth clone children r.heap

end

/-- `Clone` without the children: for an element it is a stub that returns null. -/
def cloneShallow (h : Heap) (n : NodeId) : Heap × Option NodeId :=
  match h.nodeType n with
  | .document | .element => (h, none)
  | type => (h.createNode type (h.nodeName n) (h.document n), some h.size)

/-- `Clone`, which every class of nodes overrides. -/
def clone (h : Heap) (n : NodeId) (deep : Bool) : Option (Heap × Option NodeId) :=
  if deep then cloneDeep h.bound h n else some (cloneShallow h n)

/-- `Node::cloneNode`. -/
def cloneNode (h : Heap) (n : NodeId) (deep : Bool) : Option Heap := do
  match ← clone h n deep with
  | (h, none) => return h
  | (h, some c) => return h.save c

/-! ## Setters -/

/-- `Node::setTextContent` of an element or a fragment: only the empty text is implemented. -/
def setTextContent (h : Heap) (p : NodeId) (text : String) : Option Heap :=
  if text.isEmpty then ContainerNode.removeChildren h h.bound p else some h

/-- What the parser appends to one node: its first child, and what follows. -/
inductive Markup where
  | nil
  | text (rest : Markup)
  | comment (rest : Markup)
  | element (name : String) (children rest : Markup)
  deriving DecidableEq

/-- The parser appends a node that it has just created. -/
def appendNew (h : Heap) (d parent : NodeId) (type : NodeType) (name : String) : Option Heap :=
  let created := h.createNode type name d
  ContainerNode.parserAppendChild created created.bound parent h.size

/-- `DocumentFragment::ParseHTML`, as far as the tree goes. -/
def Markup.parse (d : NodeId) : Markup → NodeId → Heap → Option Heap
  | nil, _, h => some h
  | text rest, parent, h => do
    rest.parse d parent (← appendNew h d parent .text "#text")
  | comment rest, parent, h => do
    rest.parse d parent (← appendNew h d parent .comment "#comment")
  | element name children rest, parent, h => do
    let element := h.size
    let h ← appendNew h d parent .element name
    rest.parse d parent (← children.parse d element h)

/-- `ReplaceChildrenWithFragment`. -/
def replaceChildrenWithFragment (h : Heap) (container fragment : NodeId) : Option Heap := do
  if h.firstChild fragment = none then
    ContainerNode.removeChildren h h.bound container
  else
    match h.firstChild container with
    | some child =>
      if h.nextSibling child = none then
        (ContainerNode.replaceChild h h.bound container fragment (some child)).map (·.heap)
      else
        let h ← ContainerNode.removeChildren h h.bound container
        (Node.appendChild h h.bound container fragment).map (·.heap)
    | none =>
      let h ← ContainerNode.removeChildren h h.bound container
      (Node.appendChild h h.bound container fragment).map (·.heap)

/-- `Element::setInnerHTML`; `HasNonInBodyInsertionMode` is false for every element. -/
def setInnerHTML (h : Heap) (p : NodeId) (html : String) (content : Markup) : Option Heap := do
  if html.isEmpty then setTextContent h p html
  else
    let fragment := h.size
    let h ← content.parse (h.document p) fragment (createFragment h (h.document p))
    replaceChildrenWithFragment h p fragment

/-! ## Calls -/

inductive ScriptCall where
  | createElement (d : NodeId) (name : String)
  | createDocumentFragment (d : NodeId)
  | cloneNode (n : NodeId) (deep : Bool)
  /-- A getter or a method hands the node to the script. -/
  | push (n : NodeId)
  | appendChild (p newChild : NodeId)
  | insertBefore (p newChild : NodeId) (refChild : Option NodeId)
  | removeChild (p : NodeId) (child : Option NodeId)
  | setTextContent (p : NodeId) (text : String)
  | setInnerHTML (p : NodeId) (html : String) (content : Markup)
  | finalize (n : NodeId)
  deriving DecidableEq

namespace ScriptCall

/-- The script has the wrappers that the call needs, and `this` has the class of the method. -/
def Callable (h : Heap) : ScriptCall → Prop
  | createElement d _ | createDocumentFragment d => d < h.size ∧ h.isDocumentNode d = true
  | cloneNode n _ | finalize n => h.contextObject n = true
  | push n => n < h.size ∧ n ∉ h.freed
  | appendChild p n => h.contextObject p = true ∧ h.contextObject n = true
  | insertBefore p n ref =>
    h.contextObject p = true ∧ h.contextObject n = true ∧
      ∀ r ∈ ref, h.contextObject r = true
  | removeChild p child => h.contextObject p = true ∧ ∀ c ∈ child, h.contextObject c = true
  | setTextContent p _ =>
    h.contextObject p = true ∧ (h.isElementNode p || h.isDocumentFragment p) = true
  | setInnerHTML p _ _ => h.contextObject p = true ∧ h.isElementNode p = true

instance (h : Heap) : DecidablePred (Callable h)
  | createElement _ _ | createDocumentFragment _ => inferInstanceAs (Decidable (_ ∧ _))
  | cloneNode _ _ | finalize _ => inferInstanceAs (Decidable (_ = _))
  | push _ | appendChild _ _ | insertBefore _ _ _ | removeChild _ _ | setTextContent _ _
  | setInnerHTML _ _ _ => inferInstanceAs (Decidable (_ ∧ _))

end ScriptCall

/-- The binding of a method of `Node`: the result is pushed unless an exception is thrown. -/
def pushResult (r : Result) : Heap :=
  match r.exception, r.node with
  | none, some n => push r.heap n
  | _, _ => r.heap

namespace ScriptCall

/-- Run a call that can be made. -/
def exec (h : Heap) : ScriptCall → Option Heap
  | createElement d name => some (Dom.createElement h d name)
  | createDocumentFragment d => some (Dom.createDocumentFragment h d)
  | cloneNode n deep => Dom.cloneNode h n deep
  | push n => some (Dom.push h n)
  | appendChild p n => (Node.appendChild h h.bound p n).map pushResult
  | insertBefore p n ref => (Node.insertBefore h h.bound p n ref).map pushResult
  | removeChild p c => (Node.removeChild h h.bound p c).map pushResult
  | setTextContent p text => Dom.setTextContent h p text
  | setInnerHTML p html content => Dom.setInnerHTML h p html content
  | finalize n => some (defaultFinalizer h n)

end ScriptCall

inductive Action where
  | call (c : ScriptCall)
  | collectGarbage
  deriving DecidableEq

/-- A loop or a recursion is still running at its bound. -/
inductive Unfinished where
  | unfinished
  deriving DecidableEq

namespace Action

def exec (h : Heap) : Action → Option Heap
  | call c => if c.Callable h then c.exec h else some h
  | collectGarbage => Dom.collectGarbage h

/-- One action, as a step of a machine. -/
def step (h : Heap) (a : Action) : Except Unfinished (Heap × Unit) :=
  match a.exec h with
  | some h => .ok (h, ())
  | none => .error .unfinished

end Action

end Blinkit.Dom
