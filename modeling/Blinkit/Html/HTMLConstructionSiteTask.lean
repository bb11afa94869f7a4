import Blinkit.Dom.ContainerNode

/-!
# The tasks of the construction site

The tree builder does not change the tree itself: it queues tasks, and `ExecuteQueuedTasks` hands
them, one after another, to the mutators of the parser.

* `HTMLConstructionSiteTask` : the five kinds of task
* `Nodes` : the heap, with the texts and flags that the tasks read and write
* `executeTask`, `executeQueuedTasks` : as the construction site runs them

A loop over the tree takes a bound `fuel` on its rounds, as the mutators of `ContainerNode` do.
-/

set_option autoImplicit false

namespace Blinkit.Html

open Dom Function

inductive Operation where
  | kInsert
  /-- Handles possible merging of text nodes. -/
  | kInsertText
  /-- Insert without calling begin/end parsing. -/
  | kInsertAlreadyParsedChild
  | kReparent
  | kTakeAllChildren
  deriving DecidableEq

structure HTMLConstructionSiteTask where
  operation : Operation
  parent : NodeId
  nextChild : Option NodeId
  /-- The old parent for `kTakeAllChildren`. -/
  child : NodeId
  selfClosing : Bool
  deriving DecidableEq

namespace HTMLConstructionSiteTask

def oldParent (task : HTMLConstructionSiteTask) : NodeId := task.child

end HTMLConstructionSiteTask

/-- The nodes that the parser builds. -/
structure Nodes where
  heap : Heap
  /-- The flag `kIsHTMLFlag`. -/
  isHTMLElement : NodeId → Bool
  localName : NodeId → String
  /-- `CharacterData::data_`, in code units. -/
  data : NodeId → List UInt16
  isFinishedParsingChildren : NodeId → Bool

namespace Nodes

def isHTMLScriptElement (t : Nodes) (n : NodeId) : Bool :=
  t.isHTMLElement n && t.localName n == "script"

def isHTMLStyleElement (t : Nodes) (n : NodeId) : Bool :=
  t.isHTMLElement n && t.localName n == "style"

/-- `Text::kDefaultLengthLimit`. -/
def kDefaultLengthLimit : Nat := 65536

def shouldUseLengthLimit (t : Nodes) (n : NodeId) : Bool :=
  !t.isHTMLScriptElement n && !t.isHTMLStyleElement n

def textLengthLimitForContainer (t : Nodes) (n : NodeId) : Nat :=
  if t.shouldUseLengthLimit n then kDefaultLengthLimit else 4294967295

/-- `CharacterData::ParserAppendData`; `DidModifyData` tells the parent. -/
def parserAppendData (t : Nodes) (n : NodeId) (text : List UInt16) : Nodes :=
  let heap := t.heap.incDOMTreeVersion (t.heap.document n)
  { t with
    data := update t.data n (t.data n ++ text)
    heap := match heap.parentNode n with
      | some parent => heap.childrenChanged parent
      | none => heap }

/-- `BeginParsingChildren`, and `FinishParsingChildren` for what closes itself. -/
def beginParsingChildren (t : Nodes) (n : NodeId) (selfClosing : Bool) : Nodes :=
  { t with isFinishedParsingChildren := update t.isFinishedParsingChildren n selfClosing }

/-! ## Execution -/

/-- `Insert`. -/
def insert (fuel : Nat) (t : Nodes) (task : HTMLConstructionSiteTask) : Option Nodes :=
  match task.nextChild with
  | some next =>
    some { t with heap := ContainerNode.parserInsertBefore t.heap task.parent task.child next }
  | none =>
    (ContainerNode.parserAppendChild t.heap fuel task.parent task.child).map
      fun heap => { t with heap := heap }

def executeInsertTask (fuel : Nat) (t : Nodes) (task : HTMLConstructionSiteTask) :
    Option Nodes :=
  (t.insert fuel task).map fun t =>
    if t.heap.isElementNode task.child then t.beginParsingChildren task.child task.selfClosing
    else t

/-- The text node that the text of a task is merged into. -/
def previousText (t : Nodes) (task : HTMLConstructionSiteTask) : Option NodeId :=
  let previousChild := match task.nextChild with
    | some next => t.heap.previousSibling next
    | none => t.heap.links.last task.parent
  previousChild.filter fun previous => t.heap.isTextNode previous &&
    decide ((t.data previous).length + (t.data task.child).length <
      t.textLengthLimitForContainer task.parent)

def executeInsertTextTask (fuel : Nat) (t : Nodes) (task : HTMLConstructionSiteTask) :
    Option Nodes :=
  match t.previousText task with
  | some previous => some (t.parserAppendData previous (t.data task.child))
  | none => t.insert fuel task

def executeReparentTask (fuel : Nat) (t : Nodes) (task : HTMLConstructionSiteTask) :
    Option Nodes :=
  (ContainerNode.parserAppendChild t.heap fuel task.parent task.child).map
    fun heap => { t with heap := heap }

def executeInsertAlreadyParsedChildTask (fuel : Nat) (t : Nodes)
    (task : HTMLConstructionSiteTask) : Option Nodes := t.insert fuel task

def executeTakeAllChildrenTask (fuel : Nat) (t : Nodes) (task : HTMLConstructionSiteTask) :
    Option Nodes :=
  (ContainerNode.parserTakeAllChildrenFrom fuel task.parent task.oldParent fuel t.heap).map
    fun heap => { t with heap := heap }

def executeTask (fuel : Nat) (t : Nodes) (task : HTMLConstructionSiteTask) : Option Nodes :=
  match task.operation with
  | .kInsert => t.executeInsertTask fuel task
  | .kInsertText => t.executeInsertTextTask fuel task
  | .kInsertAlreadyParsedChild => t.executeInsertAlreadyParsedChildTask fuel task
  | .kReparent => t.executeReparentTask fuel task
  | .kTakeAllChildren => t.executeTakeAllChildrenTask fuel task

/-- The bound lies above the number of nodes: a loop over the tree ends within it, or never. -/
def executeTaskFully (t : Nodes) (task : HTMLConstructionSiteTask) : Option Nodes :=
  t.executeTask (t.heap.size + 1) task

/-- `ExecuteQueuedTasks`. -/
def executeQueuedTasks (t : Nodes) (queue : List HTMLConstructionSiteTask) : Option Nodes :=
  queue.foldlM executeTaskFully t

end Nodes

end Blinkit.Html
