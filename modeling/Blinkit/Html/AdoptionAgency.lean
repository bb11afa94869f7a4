import Blinkit.Dom.ChildLists
import Blinkit.Html.CallTheAdoptionAgency

/-!
# The adoption agency as the standard has it

* `DocumentTree` : parents and children, with the moves that tasks are for
* `effect` : what the tasks of a queue do to a tree
* `Agency` : the stack, the list and the tree; here every move is made at once
* `Agency.adopt`, `Agency.round`, `Agency.run` : the inner loop, of three rounds, a round of the
  outer loop, and the outer loop, of eight

This is the edition whose steps the source numbers: the inner loop ends after three rounds.  The
stack is written with its newest element first, so what stands above an element in it comes behind.
The foster parent is looked up in the tree that the call starts from.
-/

set_option autoImplicit false

namespace Blinkit.Html

open Dom ChildLists Function

/-! ## Trees -/

structure DocumentTree where
  parent : NodeId → Option NodeId
  children : NodeId → List NodeId

namespace DocumentTree

def detach (t : DocumentTree) (c : NodeId) : DocumentTree :=
  match t.parent c with
  | none => t
  | some p => ⟨update t.parent c none, update t.children p ((t.children p).erase c)⟩

/-- The node `c` leaves its parent and becomes a child of `p`, in front of `next` or at the end. -/
def insert (t : DocumentTree) (p : NodeId) (next : Option NodeId) (c : NodeId) : DocumentTree :=
  let t := t.detach c
  ⟨update t.parent c (some p), update t.children p (splice (t.children p) next [c])⟩

/-- All children of `old` become children of `p`. -/
def takeAll (t : DocumentTree) (p old : NodeId) : DocumentTree :=
  (t.children old).foldl (fun t c => t.insert p none c) t

end DocumentTree

/-- The intended effect of a task. -/
def HTMLConstructionSiteTask.apply (t : DocumentTree) (task : HTMLConstructionSiteTask) :
    DocumentTree :=
  match task.operation with
  | .kTakeAllChildren => t.takeAll task.parent task.oldParent
  | .kInsert | .kInsertText | .kInsertAlreadyParsedChild | .kReparent =>
    t.insert task.parent task.nextChild task.child

def effect (queue : List HTMLConstructionSiteTask) (t : DocumentTree) : DocumentTree :=
  queue.foldl HTMLConstructionSiteTask.apply t

/-! ## The lists of the standard -/

/-- The last element of the list behind the last marker that has the tag name. -/
def formattingElement (list : HTMLFormattingElementList) (name : String) : Option HTMLStackItem :=
  ((list.reverse.takeWhile Option.isSome).filterMap id).find? fun item => item.hasTagName name

def listed (list : HTMLFormattingElementList) (n : NodeId) : Bool :=
  list.any (HTMLFormattingElementList.isEntryOf n)

/-- The entry of an element is replaced. -/
def replaceEntry (n : NodeId) (item : HTMLStackItem) (list : HTMLFormattingElementList) :
    HTMLFormattingElementList :=
  list.map fun entry => if HTMLFormattingElementList.isEntryOf n entry then some item else entry

def removeEntry (n : NodeId) (list : HTMLFormattingElementList) : HTMLFormattingElementList :=
  list.filter fun entry => !HTMLFormattingElementList.isEntryOf n entry

/-- `item` comes immediately behind the entry of an element. -/
def insertEntryAfter (n : NodeId) (item : HTMLStackItem) (list : HTMLFormattingElementList) :
    HTMLFormattingElementList :=
  list.flatMap fun entry =>
    if HTMLFormattingElementList.isEntryOf n entry then [entry, some item] else [entry]

/-- The special element nearest to the formatting element, with what is newer and what lies
between. -/
def furthestBlock : HTMLElementStack →
    Option (HTMLElementStack × HTMLStackItem × HTMLElementStack)
  | [] => none
  | item :: rest =>
    match furthestBlock rest with
    | some (newer, block, between) => some (item :: newer, block, between)
    | none => if item.isSpecialNode then some ([], item, rest) else none

/-- Any other end tag: the stack is left below the first element with the tag name, unless a special
element comes before it. -/
def afterEndTag (name : String) : HTMLElementStack → Option HTMLElementStack
  | [] => none
  | item :: rest =>
    if item.hasTagName name then some rest
    else if item.isSpecialNode then none
    else afterEndTag name rest

/-! ## The algorithm -/

structure Agency where
  stack : HTMLElementStack
  list : HTMLFormattingElementList
  tree : DocumentTree
  /-- The next element that is created. -/
  nextNode : NodeId
  rootNode : NodeId
  parentNode : NodeId → Option NodeId

namespace Agency

/-- What the inner loop changes; `kept` are the clones, in the order of the stack, and `bookmark` is
the element that the bookmark stands behind, once it has been moved. -/
structure Inner where
  kept : HTMLElementStack
  list : HTMLFormattingElementList
  tree : DocumentTree
  nextNode : NodeId
  lastNode : HTMLStackItem
  bookmark : Option HTMLStackItem

/-- A node of the list is replaced by a clone, which becomes the parent of the last node. -/
def Inner.clone (block node : HTMLStackItem) (a : Inner) : Inner :=
  let clone := { node with node := a.nextNode }
  { kept := a.kept ++ [clone]
    list := replaceEntry node.node clone a.list
    tree := a.tree.insert clone.node none a.lastNode.node
    nextNode := a.nextNode + 1
    lastNode := clone
    bookmark := if a.lastNode = block then some clone else a.bookmark }

/-- The inner loop, over the nodes that it comes to. -/
def adopt (block : HTMLStackItem) : HTMLElementStack → Inner → Inner
  | [], a => a
  | node :: nodes, a =>
    adopt block nodes (if listed a.list node.node then a.clone block node else a)

/-- The place of a node that belongs into `target`. -/
def place (g : Agency) (stack : HTMLElementStack) (target : HTMLStackItem) :
    NodeId × Option NodeId :=
  if target.causesFosterParenting then
    ConstructionSite.findFosterSite stack g.rootNode g.parentNode
  else (target.node, none)

/-- The steps from the furthest block on. -/
def adoptBlock (g : Agency) (newer : HTMLElementStack) (block : HTMLStackItem)
    (between : HTMLElementStack) (formatting commonAncestor : HTMLStackItem)
    (below : HTMLElementStack) : Agency :=
  let a := adopt block (between.take 3) ⟨[], g.list, g.tree, g.nextNode, block, none⟩
  let between := a.kept ++ between.drop 3
  let site := g.place (newer ++ block :: (between ++ formatting :: commonAncestor :: below))
    commonAncestor
  let newElement := { formatting with node := a.nextNode }
  { g with
    stack := newer ++ newElement :: block :: (between ++ commonAncestor :: below)
    list := match a.bookmark with
      | none => replaceEntry formatting.node newElement a.list
      | some clone => insertEntryAfter clone.node newElement (removeEntry formatting.node a.list)
    tree := ((a.tree.insert site.1 site.2 a.lastNode.node).takeAll newElement.node
      block.node).insert block.node none newElement.node
    nextNode := a.nextNode + 1 }

/-- A round of the outer loop; `.inr` ends the algorithm. -/
def round (g : Agency) (name : String) : Agency ⊕ Agency :=
  match formattingElement g.list name with
  | none => .inr { g with stack := (afterEndTag name g.stack).getD g.stack }
  | some formatting =>
    let newer := g.stack.takeWhile fun item => item.node ≠ formatting.node
    match g.stack.dropWhile fun item => item.node ≠ formatting.node with
    | [] => .inr { g with list := removeEntry formatting.node g.list }
    | formatting :: below =>
      if newer.any HTMLStackItem.isScopeMarker then .inr g
      else match furthestBlock newer, below with
        | none, _ | _, [] =>
          .inr { g with stack := below, list := removeEntry formatting.node g.list }
        | some (newer, block, between), commonAncestor :: below =>
          .inl (g.adoptBlock newer block between formatting commonAncestor below)

def loop (name : String) : Nat → Agency → Agency
  | 0, g => g
  | rounds + 1, g =>
    match g.round name with
    | .inr g => g
    | .inl g => loop name rounds g

/-- **The adoption agency.** -/
def run (g : Agency) (name : String) : Agency := loop name 8 g

end Agency

end Blinkit.Html
