import Blinkit.Events.EventTarget
import Blinkit.Lib.Tour
import Blinkit.Dom.Documents
import Blinkit.Dom.ScriptCalls

/-!
# The path of an event

Translation of `event_path.cpp` and of the contexts it is made of. In the crawler there is no pseudo
element and no shadow root, so the path of an event is the chain of parents of its node, no scope
has a parent scope, and `KeepEventInNode` is false everywhere.

* `TreeScopeEventContext` — a tree scope that the path comes through, and the target that listeners
  in this scope see: the first node of the path that belongs to the scope.
* `NodeEventContext` — a node of the path.
* `WindowEventContext` — the window, when it takes part.

Principal results: `calculateAdjustedTargets_eq` (what every context is), `target_contextOf` and
`exists_sameAsTarget` (a path that leaves the scope of its node has a second target).
-/

set_option autoImplicit false

namespace Blinkit.Events

open LinkedForest Dom

abbrev WindowId := Nat

inductive EventTarget where
  | node (n : NodeId)
  | window (w : WindowId)
  deriving DecidableEq, Repr

/-- A scope always gets a target when its context is made. -/
structure TreeScopeEventContext where
  treeScope : NodeId
  target : NodeId
  deriving DecidableEq, Repr

structure NodeEventContext where
  node : NodeId
  currentTarget : NodeId
  treeScopeEventContext : TreeScopeEventContext
  deriving DecidableEq, Repr

namespace NodeEventContext

/-- `NodeEventContext::Target`. -/
def target (c : NodeEventContext) : NodeId := c.treeScopeEventContext.target

/-- `NodeEventContext::CurrentTargetSameAsTarget`. -/
def currentTargetSameAsTarget (c : NodeEventContext) : Bool := c.currentTarget == c.target

end NodeEventContext

structure WindowEventContext where
  window : Option WindowId
  target : Option NodeId
  deriving DecidableEq, Repr

namespace EventPath

/-- `EventPath::EventTargetRespectingTargetRules`, without pseudo elements. -/
def eventTargetRespectingTargetRules (referenceNode : NodeId) : NodeId := referenceNode

/-- The loop of `EventPath::CalculatePath` over the parents. -/
def calculatePath (h : Heap) (node : NodeId) : Option (List NodeId) :=
  walk h.parentNode h.bound (some node)

/-- `EventPath::GetTreeScopeEventContext`. -/
def getTreeScopeEventContext (contexts : List TreeScopeEventContext) (treeScope : NodeId) :
    Option TreeScopeEventContext :=
  contexts.find? (·.treeScope = treeScope)

/-- `EventPath::EnsureTreeScopeEventContext`: the context, and all contexts there are then. -/
def ensureTreeScopeEventContext (contexts : List TreeScopeEventContext) (currentTarget : NodeId)
    (treeScope : NodeId) : List TreeScopeEventContext × TreeScopeEventContext :=
  match getTreeScopeEventContext contexts treeScope with
  | some c => (contexts, c)
  | none =>
    let c := ⟨treeScope, eventTargetRespectingTargetRules currentTarget⟩
    (contexts ++ [c], c)

/-- A round of `EventPath::CalculateAdjustedTargets` looks a context up only when the scope has
changed. `last` is `lastTreeScopeEventContext`, whose scope is `lastTreeScope`. -/
def nextTreeScopeEventContext (last : Option TreeScopeEventContext)
    (contexts : List TreeScopeEventContext) (currentNode currentTreeScope : NodeId) :
    List TreeScopeEventContext × TreeScopeEventContext :=
  match last with
  | none => ensureTreeScopeEventContext contexts currentNode currentTreeScope
  | some c =>
    if c.treeScope ≠ currentTreeScope then
      ensureTreeScopeEventContext contexts currentNode currentTreeScope
    else (contexts, c)

/-- The loop of `EventPath::CalculateAdjustedTargets` over the nodes of the path. -/
def calculateAdjustedTargets (h : Heap) :
    List NodeId → Option TreeScopeEventContext → List TreeScopeEventContext →
      List NodeEventContext
  | [], _, _ => []
  | n :: ns, last, contexts =>
    let r := nextTreeScopeEventContext last contexts n (h.document n)
    ⟨n, eventTargetRespectingTargetRules n, r.2⟩ :: calculateAdjustedTargets h ns (some r.2) r.1

/-- The constructor of `EventPath`, which calls `Initialize`: the contexts of the nodes. -/
def create (h : Heap) (node : NodeId) : Option (List NodeEventContext) :=
  (calculatePath h node).map fun path => calculateAdjustedTargets h path none []

/-- The constructor of `WindowEventContext`. -/
def windowEventContext (h : Heap) (domWindow : NodeId → Option WindowId) (type : AtomicString)
    (top : NodeEventContext) : WindowEventContext :=
  if type = "load" then ⟨none, none⟩
  else if h.isDocumentNode top.node then ⟨domWindow top.node, some top.target⟩
  else ⟨none, none⟩

/-! ## Which contexts a path has -/

variable {h : Heap} {n m a : NodeId} {path seen ns : List NodeId}

/-- The first node of the path that is in the scope of `m`. -/
def firstInScope (h : Heap) (path : List NodeId) (m : NodeId) : NodeId :=
  (path.find? fun k => h.document k = h.document m).getD m

/-- The context of a node in the middle of its path. -/
def contextOf (h : Heap) (path : List NodeId) (m : NodeId) : NodeEventContext :=
  ⟨m, m, ⟨h.document m, firstInScope h path m⟩⟩

/-- **The loop invariant:** every scope of the nodes behind has a context, with the first of its
nodes as the target. -/
structure Scopes (h : Heap) (seen : List NodeId) (last : Option TreeScopeEventContext)
    (contexts : List TreeScopeEventContext) : Prop where
  find : ∀ s, getTreeScopeEventContext contexts s =
    (seen.find? fun k => h.document k = s).map fun k => ⟨s, k⟩
  last : ∀ c, last = some c → getTreeScopeEventContext contexts c.treeScope = some c

theorem Scopes.nil (h : Heap) : Scopes h [] none [] := ⟨fun _ => rfl, fun c hc => by cases hc⟩

/-- A node is given the context of its scope. -/
theorem Scopes.ensure {last : Option TreeScopeEventContext} {contexts : List TreeScopeEventContext}
    (i : Scopes h seen last contexts) (n : NodeId) :
    let r := ensureTreeScopeEventContext contexts n (h.document n)
    r.2 = ⟨h.document n, firstInScope h (seen ++ [n]) n⟩ ∧
      Scopes h (seen ++ [n]) (some r.2) r.1 := by
  have hfind := i.find (h.document n)
  unfold ensureTreeScopeEventContext firstInScope
  rw [List.find?_append]
  cases hseen : seen.find? fun k => h.document k = h.document n with
  | some k =>
    rw [hseen] at hfind
    simp only [hfind, Option.map_some, Option.some_or, Option.getD_some, true_and]
    refine ⟨fun s => ?_, ?_⟩
    · rw [i.find, List.find?_append]
      cases hs : seen.find? fun k => h.document k = s with
      | some _ => rfl
      | none =>
        have hne : h.document n ≠ s := by
          rintro rfl
          rw [hseen] at hs
          cases hs
        simp [hne]
    · rintro c hc
      cases hc
      exact hfind
  | none =>
    rw [hseen] at hfind
    simp only [hfind, Option.map_none, Option.none_or, eventTargetRespectingTargetRules,
      List.find?_cons, decide_true, Option.getD_some, true_and]
    have hnew : ∀ s, getTreeScopeEventContext (contexts ++ [⟨h.document n, n⟩]) s =
        ((seen ++ [n]).find? fun k => h.document k = s).map fun k => ⟨s, k⟩ := by
      intro s
      have hs := i.find s
      unfold getTreeScopeEventContext at hs ⊢
      rw [List.find?_append, List.find?_append, hs, List.find?_singleton, List.find?_singleton]
      cases seen.find? fun k => h.document k = s with
      | some _ => rfl
      | none =>
        by_cases he : h.document n = s
        · subst he
          simp
        · simp [he]
    refine ⟨hnew, ?_⟩
    rintro c hc
    cases hc
    rw [hnew, List.find?_append, hseen]
    simp

/-- The last context is the one that the search finds. -/
theorem Scopes.choose {last : Option TreeScopeEventContext} {contexts : List TreeScopeEventContext}
    (i : Scopes h seen last contexts) (n : NodeId) :
    nextTreeScopeEventContext last contexts n (h.document n) =
      ensureTreeScopeEventContext contexts n (h.document n) := by
  unfold nextTreeScopeEventContext
  cases last with
  | none => rfl
  | some c =>
    show (if _ then _ else _) = _
    split
    · rfl
    · rename_i he
      have hc := i.last c rfl
      rw [not_not.mp he] at hc
      unfold ensureTreeScopeEventContext
      rw [hc]

theorem firstInScope_append (hm : m ∈ seen) (ns : List NodeId) :
    firstInScope h (seen ++ ns) m = firstInScope h seen m := by
  unfold firstInScope
  rw [List.find?_append]
  obtain ⟨k, hk⟩ : ∃ k, seen.find? (fun k => h.document k = h.document m) = some k := by
    apply Option.isSome_iff_exists.mp
    rw [List.find?_isSome]
    exact ⟨m, hm, by simp⟩
  rw [hk]
  rfl

theorem calculateAdjustedTargets_of_scopes {last : Option TreeScopeEventContext}
    {contexts : List TreeScopeEventContext} (i : Scopes h seen last contexts) (ns : List NodeId) :
    calculateAdjustedTargets h ns last contexts = ns.map (contextOf h (seen ++ ns)) := by
  induction ns generalizing seen last contexts with
  | nil => rfl
  | cons n ns ih =>
    obtain ⟨hc, i'⟩ := i.ensure n
    have hsplit : seen ++ n :: ns = (seen ++ [n]) ++ ns := by simp
    have hfirst : firstInScope h (seen ++ [n] ++ ns) n = firstInScope h (seen ++ [n]) n :=
      firstInScope_append (by simp) ns
    unfold calculateAdjustedTargets
    rw [i.choose n, List.map_cons, hsplit]
    show _ :: _ = _ :: _
    rw [ih i', hc]
    unfold contextOf
    rw [hfirst]
    rfl

/-- **Every node of the path is its own current target, and its target is the first node of the
path in the same scope.** -/
theorem calculateAdjustedTargets_eq (h : Heap) (path : List NodeId) :
    calculateAdjustedTargets h path none [] = path.map (contextOf h path) :=
  calculateAdjustedTargets_of_scopes (Scopes.nil h) path

/-! ## The path of a node of a tree -/

/-- The path is the node and its lineage. -/
theorem create_eq {ch : NodeId → List NodeId} (w : WellFormed h ch) (n : NodeId) :
    ∃ above, Lineage h.links.parent n above ∧
      create h n = some ((n :: above).map (contextOf h (n :: above))) := by
  obtain ⟨as, has⟩ := walk_parent_of_acyclic w.acyclic
    (fun x y hxy => Finset.mem_range.mpr (w.allocated x y hxy).1) n
    (by rw [Finset.card_range]; exact Nat.lt_succ_self h.size : _ < h.bound)
  obtain ⟨above, rfl, hlineage⟩ := lineage_of_walk has
  refine ⟨above, hlineage, ?_⟩
  have hpath : calculatePath h n = some (n :: above) := has
  unfold create
  rw [hpath, Option.map_some, calculateAdjustedTargets_eq]

/-- In the scope of the node, the node is the target. -/
theorem target_contextOf (above : List NodeId) (hm : h.document m = h.document n) :
    (contextOf h (n :: above) m).target = n := by
  show firstInScope h (n :: above) m = n
  unfold firstInScope
  rw [List.find?_cons, hm]
  simp

/-- The first node of a path in another scope is its own target. -/
theorem exists_sameAsTarget {above : List NodeId} (hm : m ∈ above)
    (hne : h.document m ≠ h.document n) :
    ∃ a ∈ above, h.document a ≠ h.document n ∧
      (contextOf h (n :: above) a).currentTargetSameAsTarget = true := by
  obtain ⟨a, ha⟩ : ∃ a, (n :: above).find? (fun k => h.document k = h.document m) = some a := by
    apply Option.isSome_iff_exists.mp
    rw [List.find?_isSome]
    exact ⟨m, List.mem_cons_of_mem n hm, by simp⟩
  have hdoc : h.document a = h.document m := by simpa using List.find?_some ha
  have han : a ≠ n := by
    rintro rfl
    exact hne hdoc.symm
  refine ⟨a, ?_, by rw [hdoc]; exact hne, ?_⟩
  · exact (List.mem_cons.mp (List.mem_of_find?_eq_some ha)).resolve_left han
  · show (a == firstInScope h (n :: above) a) = true
    unfold firstInScope
    rw [hdoc, ha]
    simp

end EventPath

end Blinkit.Events
