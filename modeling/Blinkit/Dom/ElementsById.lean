import Blinkit.Dom.LiveCollections
import Blinkit.Dom.TreeOrderedMap

/-!
# Elements by id while a document grows

The insertions of `container_node.cpp` with the registration of ids by `Element::InsertedInto`,
interleaved with lookups.

* `IdPage` — the heap, and `m_elementsById` of the scope of each document.
* `IdPage.insertedInto`, …, `IdPage.parserAppendChild` — the insertions; what they do to the heap
  is what the mutators of `ContainerNode` do (`insertNodeVector_heap` and the lemmas behind it).
* `IdLabel` — a new node, an insertion, or a lookup; `IdLabel.Permitted` — what is inserted is not
  in the document yet.
* `Registered` — the invariant: the entries of the map fit the tree of the document.

Principal results: `notifyNodeInserted_fits` (a subtree that is told of its insertion),
`registered_step` and `getElementById_in_tree_order`: after every run both lookups answer the
first element in tree order that has the id.
-/

set_option autoImplicit false

namespace Blinkit.Dom

open LinkedForest ChildLists Function Transition Attributes

structure IdPage where
  heap : Heap
  elementsById : NodeId → Option TreeOrderedMap

namespace IdPage

variable (getIdAttribute : NodeId → Option Str)

/-! ## Insertions -/

/-- `Element::UpdateId` in a scope, when there is no old id. -/
def updateId (s : IdPage) (scope element : NodeId) (newId : Str) : IdPage :=
  if newId.isEmpty then s
  else
    { s with
      elementsById := update s.elementsById scope
        (TreeScope.addElementById (s.elementsById scope) newId element) }

/-- `InsertedInto`, with what `Element::InsertedInto` does behind the base class. -/
def insertedInto (s : IdPage) (insertionPoint n : NodeId) : IdPage :=
  let s := { s with heap := s.heap.insertedInto insertionPoint n }
  if s.heap.isElementNode n && s.heap.isConnected insertionPoint then
    match getIdAttribute n with
    | none => s
    | some idValue => s.updateId (s.heap.document insertionPoint) n idValue
  else s

/-- `ContainerNode::NotifyNodeInsertedInternal`. -/
def notifyNodeInsertedInternal (s : IdPage) (fuel : Nat) (p root : NodeId) : Option IdPage := do
  let nodes ← s.heap.inclusiveDescendantsOf fuel root
  return nodes.foldl (fun s n =>
    if !s.heap.isConnected p && !s.heap.isContainerNode n then s
    else s.insertedInto getIdAttribute p n) s

/-- `ContainerNode::InsertNodeVector`. -/
def insertNodeVector (fuel : Nat) (p : NodeId) (next : Option NodeId) :
    List NodeId → IdPage → Option IdPage
  | [], s => some s
  | target :: targets, s => do
    let s ← notifyNodeInsertedInternal getIdAttribute
      { s with heap := ContainerNode.mutator s.heap p target next } fuel p target
    insertNodeVector fuel p next targets s

/-- The common end of `AppendChild` and `InsertBefore`. A removal changes no map:
`RemoveElementById` is a stub. -/
def insertChecked (s : IdPage) (fuel : Nat) (p newChild : NodeId) (next : Option NodeId) :
    Option IdPage := do
  let detector := DOMTreeMutationDetector.create s.heap newChild p
  let c ← ContainerNode.collectChildrenAndRemoveFromOldParent s.heap fuel newChild
  if !c.proceed then
    return { s with heap := c.heap }
  if !detector.needsRecheck c.heap &&
      !ContainerNode.recheckNodeInsertionStructuralPrereq c.nodes next then
    return { s with heap := c.heap }
  let s ← insertNodeVector getIdAttribute fuel p next c.nodes { s with heap := c.heap }
  return { s with heap := ContainerNode.didInsertNodeVector s.heap p c.nodes }

/-- `Node::appendChild`; an exception leaves the page as it was. -/
def appendChild (s : IdPage) (fuel : Nat) (p newChild : NodeId) : Option IdPage :=
  if s.heap.isContainerNode p then do
    match ← ContainerNode.ensurePreInsertionValidity s.heap fuel p newChild none none with
    | some _ => return s
    | none => s.insertChecked getIdAttribute fuel p newChild none
  else some s

/-- `Node::insertBefore`. -/
def insertBefore (s : IdPage) (fuel : Nat) (p newChild : NodeId) : Option NodeId → Option IdPage
  | none => s.appendChild getIdAttribute fuel p newChild
  | some refChild =>
    if s.heap.isContainerNode p then do
      match ← ContainerNode.ensurePreInsertionValidity s.heap fuel p newChild (some refChild) none with
      | some _ => return s
      | none =>
        match (if refChild = newChild then s.heap.nextSibling newChild else some refChild) with
        | none => s.appendChild getIdAttribute fuel p newChild
        | some refChild => s.insertChecked getIdAttribute fuel p newChild (some refChild)
    else some s

/-- `ContainerNode::ParserAppendChild`. -/
def parserAppendChild (s : IdPage) (fuel : Nat) (p newChild : NodeId) : Option IdPage := do
  if !(← ContainerNode.checkParserAcceptChild s.heap fuel p newChild) then
    return s
  let h ← ContainerNode.parserDetach newChild fuel s.heap
  let s ← notifyNodeInsertedInternal getIdAttribute
    { s with heap := h.adoptAndAppendChild false p newChild } fuel p newChild
  return { s with heap := s.heap.childrenChanged p }

/-! ## Lookups -/

/-- `TreeScope::getElementById` in the scope of the document `d`. -/
def getElementById (s : IdPage) (d : NodeId) (id : Str) : Option (Option NodeId × IdPage) := do
  let (element, m) ← TreeScope.getElementById getIdAttribute (s.elementsById d) s.heap d id
  return (element, { s with elementsById := update s.elementsById d m })

/-- `ContainerNode::GetElementById`. -/
def getElementByIdBelow (s : IdPage) (n : NodeId) (id : Str) :
    Option (Option NodeId × IdPage) := do
  let d := s.heap.document n
  let (element, m) ← ContainerNode.getElementById getIdAttribute (s.elementsById d) s.heap n id
  return (element, { s with elementsById := update s.elementsById d m })

end IdPage

/-! ## Runs -/

/-- What happens to the page of one document. -/
inductive IdLabel where
  | createNode (type : NodeType) (name : String)
  | appendChild (p newChild : NodeId)
  | insertBefore (p newChild : NodeId) (refChild : Option NodeId)
  | parserAppendChild (p newChild : NodeId)
  | getElementById (id : Str)
  | getElementByIdBelow (n : NodeId) (id : Str)

namespace IdLabel

/-- The arguments exist, and what is inserted is not in the document yet. -/
def Permitted (h : Heap) : IdLabel → Prop
  | createNode type _ => type ≠ .document
  | appendChild p n | insertBefore p n none => p < h.size ∧ n < h.size ∧ h.isConnected n = false
  | insertBefore p n (some ref) =>
    p < h.size ∧ n < h.size ∧ ref < h.size ∧ h.isConnected n = false
  | parserAppendChild p n => p < h.size ∧ n < h.size ∧ h.isContainerNode p = true ∧
      h.isConnected n = false ∧ h.isDocumentFragment n = false
  | getElementById _ => True
  | getElementByIdBelow n _ => n < h.size ∧ h.isContainerNode n = true

def exec (getIdAttribute : NodeId → Option Str) (d : NodeId) (fuel : Nat) (s : IdPage) :
    IdLabel → Option IdPage
  | createNode type name => some { s with heap := s.heap.createNode type name d }
  | appendChild p n => s.appendChild getIdAttribute fuel p n
  | insertBefore p n ref => s.insertBefore getIdAttribute fuel p n ref
  | parserAppendChild p n => s.parserAppendChild getIdAttribute fuel p n
  | getElementById id => (s.getElementById getIdAttribute d id).map Prod.snd
  | getElementByIdBelow n id => (s.getElementByIdBelow getIdAttribute n id).map Prod.snd

/-- The call of a mutator, if there is one. -/
def call (d : NodeId) : IdLabel → Option Call
  | createNode type name => some (.createNode type name d)
  | appendChild p n => some (.appendChild p n)
  | insertBefore p n ref => some (.insertBefore p n ref)
  | parserAppendChild p n => some (.parserAppendChild p n)
  | getElementById _ | getElementByIdBelow _ _ => none

end IdLabel

/-- One step of a run on the page of the document `d`. -/
def IdStep (getIdAttribute : NodeId → Option Str) (d : NodeId) (s : IdPage) (a : IdLabel)
    (s' : IdPage) : Prop :=
  a.Permitted s.heap ∧
    ∃ fuel, s.heap.size < fuel ∧ a.exec getIdAttribute d fuel s = some s'

/-- A new document, with the number `0`. -/
def IdPage.newDocument : IdPage := ⟨Heap.initial.createDocument, fun _ => none⟩

/-! ## What the insertions do to the heap -/

section Heap

variable (getIdAttribute : NodeId → Option Str) {s : IdPage} {p n : NodeId} {fuel : Nat}

@[simp] theorem updateId_heap (s : IdPage) (scope element : NodeId) (newId : Str) :
    (s.updateId scope element newId).heap = s.heap := by
  unfold IdPage.updateId
  split <;> rfl

@[simp] theorem insertedInto_heap (s : IdPage) (p n : NodeId) :
    (s.insertedInto getIdAttribute p n).heap = s.heap.insertedInto p n := by
  unfold IdPage.insertedInto
  dsimp only
  split
  · split
    · rfl
    · exact updateId_heap ..
  · rfl

theorem notifyNodeInserted_heap (s : IdPage) (fuel : Nat) (p root : NodeId) :
    (s.notifyNodeInsertedInternal getIdAttribute fuel p root).map IdPage.heap =
      s.heap.notifyNodeInsertedInternal fuel p root := by
  unfold IdPage.notifyNodeInsertedInternal Heap.notifyNodeInsertedInternal
  cases s.heap.inclusiveDescendantsOf fuel root with
  | none => rfl
  | some ds =>
    refine congrArg some ?_
    refine (List.foldl_hom IdPage.heap fun s n => ?_).symm
    split
    · rfl
    · exact (insertedInto_heap getIdAttribute s p n).symm

theorem insertNodeVector_heap (next : Option NodeId) (ts : List NodeId) :
    (IdPage.insertNodeVector getIdAttribute fuel p next ts s).map IdPage.heap =
      ContainerNode.insertNodeVector fuel p next ts s.heap := by
  induction ts generalizing s with
  | nil => rfl
  | cons t ts ih =>
    unfold IdPage.insertNodeVector ContainerNode.insertNodeVector
    rw [← notifyNodeInserted_heap getIdAttribute
      { s with heap := ContainerNode.mutator s.heap p t next }]
    cases IdPage.notifyNodeInsertedInternal getIdAttribute
        { s with heap := ContainerNode.mutator s.heap p t next } fuel p t with
    | none => rfl
    | some s₁ => exact ih

theorem insertChecked_heap (next : Option NodeId) (ret : NodeId) :
    (s.insertChecked getIdAttribute fuel p n next).map IdPage.heap =
      (ContainerNode.insertChecked s.heap fuel p n next ret false).map Result.heap := by
  unfold IdPage.insertChecked ContainerNode.insertChecked
  cases ContainerNode.collectChildrenAndRemoveFromOldParent s.heap fuel n with
  | none => rfl
  | some c =>
    simp only [Option.bind_eq_bind, Option.bind_some, Option.pure_def, Bool.or_false]
    split
    · rfl
    · split
      · rfl
      · rw [← insertNodeVector_heap getIdAttribute (s := { s with heap := c.heap })]
        cases IdPage.insertNodeVector getIdAttribute fuel p next c.nodes { s with heap := c.heap } <;>
          rfl

theorem appendChild_heap (s : IdPage) (fuel : Nat) (p n : NodeId) :
    (s.appendChild getIdAttribute fuel p n).map IdPage.heap =
      (Node.appendChild s.heap fuel p n).map Result.heap := by
  unfold IdPage.appendChild Node.appendChild ContainerNode.appendChild
  split
  · cases ContainerNode.ensurePreInsertionValidity s.heap fuel p n none none with
    | none => rfl
    | some e =>
      cases e with
      | some e => rfl
      | none => exact insertChecked_heap getIdAttribute none n
  · rfl

theorem insertBefore_heap (s : IdPage) (fuel : Nat) (p n : NodeId) (ref : Option NodeId) :
    (s.insertBefore getIdAttribute fuel p n ref).map IdPage.heap =
      (Node.insertBefore s.heap fuel p n ref).map Result.heap := by
  cases ref with
  | none => exact appendChild_heap getIdAttribute s fuel p n
  | some ref =>
    rw [IdPage.insertBefore, Node.insertBefore, ContainerNode.insertBefore]
    by_cases hcont : s.heap.isContainerNode p = true
    · rw [if_pos hcont, if_pos hcont]
      cases ContainerNode.ensurePreInsertionValidity s.heap fuel p n (some ref) none with
      | none => rfl
      | some e =>
        cases e with
        | some e => rfl
        | none =>
          simp only [Option.bind_eq_bind, Option.bind_some]
          cases (if ref = n then s.heap.nextSibling n else some ref) with
          | none =>
            have happ := appendChild_heap getIdAttribute s fuel p n
            rwa [Node.appendChild, if_pos hcont] at happ
          | some ref => exact insertChecked_heap getIdAttribute (some ref) n
    · rw [if_neg hcont, if_neg hcont]
      rfl

theorem parserAppendChild_heap (s : IdPage) (fuel : Nat) (p n : NodeId) :
    (s.parserAppendChild getIdAttribute fuel p n).map IdPage.heap =
      ContainerNode.parserAppendChild s.heap fuel p n := by
  unfold IdPage.parserAppendChild ContainerNode.parserAppendChild
  cases ContainerNode.checkParserAcceptChild s.heap fuel p n with
  | none => rfl
  | some accepted =>
    simp only [Option.bind_eq_bind, Option.bind_some, Option.pure_def]
    split
    · rfl
    · cases ContainerNode.parserDetach n fuel s.heap with
      | none => rfl
      | some h =>
        simp only [Option.bind_some]
        rw [← notifyNodeInserted_heap getIdAttribute
          { s with heap := h.adoptAndAppendChild false p n }]
        cases IdPage.notifyNodeInsertedInternal getIdAttribute
          { s with heap := h.adoptAndAppendChild false p n } fuel p n <;> rfl

end Heap

/-! ## What the notifications do to the map -/

/-- The id of a node that is told of its insertion comes into the map. -/
def registerId (getIdAttribute : NodeId → Option Str) (h : Heap) (m : Option TreeOrderedMap)
    (n : NodeId) : Option TreeOrderedMap :=
  if h.isElementNode n then
    match getIdAttribute n with
    | none => m
    | some id => if id.isEmpty then m else TreeScope.addElementById m id n
  else m

section Notify

variable {getIdAttribute : NodeId → Option Str} {s : IdPage} {h h₁ m : Heap}
  {ch ch₁ : NodeId → List NodeId} {d p t n : NodeId} {fuel : Nat}

theorem insertedInto_of_connected (hp : s.heap.isConnected p = true) (n : NodeId) :
    s.insertedInto getIdAttribute p n = ⟨s.heap.setConnected n true, update s.elementsById
      (s.heap.document p) (registerId getIdAttribute s.heap
        (s.elementsById (s.heap.document p)) n)⟩ := by
  have hp' : (s.heap.setConnected n true).isConnected p = true := by
    by_cases hpn : p = n <;> simp [Heap.setConnected, hpn, hp]
  have hel : (s.heap.setConnected n true).isElementNode n = s.heap.isElementNode n := rfl
  unfold IdPage.insertedInto Heap.insertedInto registerId
  simp only [hp, if_true, hp', hel, Bool.and_true]
  split
  · cases getIdAttribute n with
    | none => simp only [update_eq_self]
    | some id =>
      unfold IdPage.updateId
      simp only
      split
      · simp only [update_eq_self]
      · rfl
  · simp only [update_eq_self]

/-- **A subtree is told of its insertion**: below the document every element with an id comes into
the map. -/
theorem foldl_idInsertedInto (s : IdPage) (p : NodeId) (ds : List NodeId) :
    ds.foldl (fun s n => if !s.heap.isConnected p && !s.heap.isContainerNode n then s
      else s.insertedInto getIdAttribute p n) s =
      if s.heap.isConnected p then
        ⟨s.heap.setAllConnected ds true, update s.elementsById (s.heap.document p)
          (ds.foldl (registerId getIdAttribute s.heap) (s.elementsById (s.heap.document p)))⟩
      else s := by
  induction ds generalizing s with
  | nil => simp [Heap.setAllConnected]
  | cons d ds ih =>
    rw [List.foldl_cons]
    by_cases hp : s.heap.isConnected p = true
    · have hp' : (s.heap.setConnected d true).isConnected p = true := by
        by_cases hpd : p = d <;> simp [Heap.setConnected, hpd, hp]
      have hreg : registerId getIdAttribute (s.heap.setConnected d true) =
          registerId getIdAttribute s.heap := rfl
      have hdoc : (s.heap.setConnected d true).document = s.heap.document := rfl
      have hskip : ¬ (!s.heap.isConnected p && !s.heap.isContainerNode d) = true := by simp [hp]
      rw [if_neg hskip, insertedInto_of_connected hp, ih, if_pos hp', if_pos hp, hreg, hdoc]
      dsimp only
      rw [update_self, update_idem, List.foldl_cons]
      refine congrArg (IdPage.mk · _) ?_
      simp only [Heap.setAllConnected, Heap.setConnected, Heap.mk.injEq, true_and, and_true]
      funext n
      by_cases hn : n ∈ ds <;> by_cases hnd : n = d <;> simp [hn, hnd]
    · have hstay : (if !s.heap.isConnected p && !s.heap.isContainerNode d then s
          else s.insertedInto getIdAttribute p d) = s := by
        split
        · rfl
        · simp [IdPage.insertedInto, Heap.insertedInto, hp]
      rw [hstay, ih, if_neg hp, if_neg hp]

/-- The entry of an id behind the registration of some nodes. -/
theorem foldl_registerId (h : Heap) (ds : List NodeId) {key : Str} (hkey : key ≠ [])
    (m : Option TreeOrderedMap) :
    (ds.foldl (registerId getIdAttribute h) m).bind (· key) =
      (ds.filter fun x => h.isElementNode x && getIdAttribute x == some key).foldl
        (fun o t => some (MapEntry.add o t)) (m.bind (· key)) := by
  induction ds generalizing m with
  | nil => rfl
  | cons x ds ih =>
    rw [List.foldl_cons, ih]
    by_cases hx : (h.isElementNode x && getIdAttribute x == some key) = true
    · rw [List.filter_cons, if_pos hx, List.foldl_cons]
      obtain ⟨hel, hid⟩ : h.isElementNode x = true ∧ getIdAttribute x = some key := by
        simpa using hx
      have hempty : key.isEmpty = false := by simpa using hkey
      have hadd : (registerId getIdAttribute h m x).bind (· key) =
          some (MapEntry.add (m.bind (· key)) x) := by
        simp only [registerId, hel, if_true, hid, hempty, Bool.false_eq_true, if_false,
          TreeScope.addElementById, Option.bind_some, TreeOrderedMap.add, update_self]
        cases m <;> rfl
      rw [hadd]
    · rw [List.filter_cons, if_neg hx]
      have hsame : (registerId getIdAttribute h m x).bind (· key) = m.bind (· key) := by
        unfold registerId
        split
        · rename_i hel
          split
          · rfl
          · rename_i id hid
            have hne : key ≠ id := by
              rintro rfl
              exact hx (by simp [hel, hid])
            split
            · rfl
            · rw [TreeScope.addElementById, Option.bind_some, TreeOrderedMap.add, update_of_ne hne]
              cases m <;> rfl
        · rfl
      rw [hsame]

/-- The visit of a subtree that is told of its insertion. -/
theorem notify_visit (hfuel : h.size < fuel) (ht : Insertable h p t)
    (hnotify : m.notifyNodeInsertedInternal fuel p t = some h₁) (w₁ : WellFormed h₁ ch₁)
    (s₁ : SameNodes h h₁) (hparent : h₁.links.parent = update h.links.parent t (some p)) :
    ∃ ds, m.inclusiveDescendantsOf fuel t = some ds ∧
      h₁ = (if m.isConnected p then m.setAllConnected ds true else m) ∧
      ∀ x, x ∈ ds ↔ Above h.links.parent x t := by
  unfold Heap.notifyNodeInsertedInternal at hnotify
  obtain ⟨ds, hds, hheap⟩ := Option.bind_eq_some_iff.mp hnotify
  have hh₁ := Option.some.inj hheap
  rw [foldl_insertedInto] at hh₁
  refine ⟨ds, hds, hh₁.symm, fun x => ?_⟩
  have hlinks : h₁.links = m.links := by
    rw [← hh₁]
    split <;> rfl
  obtain ⟨ds', hds', hmem⟩ := w₁.inclusiveDescendantsOf_spec (by rw [s₁.size]; exact hfuel) t
  rw [Heap.inclusiveDescendantsOf, hlinks] at hds'
  obtain rfl := Option.some.inj (hds.symm.trans hds')
  rw [hmem, hparent, above_attach ht.root ht.notAbove]
  exact or_iff_left_of_imp fun hx => hx.1

/-- What is below the document once a subtree has been linked. -/
theorem above_document_attached (w : WellFormed h ch) (hd : SingleDocument h d) (hp : p < h.size)
    (ht : Insertable h p t) {x : NodeId} :
    Above (update h.links.parent t (some p)) x d ↔ Above h.links.parent x d ∨
      Above h.links.parent x t ∧ h.isConnected p = true := by
  rw [above_attach ht.root ht.notAbove, w.above_document_iff hd (Nat.lt_succ_self h.size) hp]

/-- **When a subtree has been linked under `p` and told of it, the map fits the larger tree.** -/
theorem notifyNodeInserted_fits {elementsById : NodeId → Option TreeOrderedMap}
    (w : WellFormed h ch) (hd : SingleDocument h d) (hds : d < h.size) (hfuel : h.size < fuel)
    (hp : p < h.size) (ht : Insertable h p t) (hm : SameNodes h m)
    (hconn : m.isConnected = h.isConnected)
    (hnotify : m.notifyNodeInsertedInternal fuel p t = some h₁) (w₁ : WellFormed h₁ ch₁)
    (s₁ : SameNodes h h₁) (hparent : h₁.links.parent = update h.links.parent t (some p))
    (hsub : ∀ x, (ch x).Sublist (ch₁ x))
    (hfits : ScopeFits getIdAttribute (elementsById d) h d) :
    ∃ elementsById', IdPage.notifyNodeInsertedInternal getIdAttribute ⟨m, elementsById⟩ fuel p t =
        some ⟨h₁, elementsById'⟩ ∧ ScopeFits getIdAttribute (elementsById' d) h₁ d := by
  obtain ⟨ds, hvisit, hh₁, hmem⟩ := notify_visit hfuel ht hnotify w₁ s₁ hparent
  have hdoc : m.document p = d := by rw [hm.document, hd p hp]
  have helement : h₁.isElementNode = h.isElementNode := by
    unfold Heap.isElementNode
    rw [s₁.nodeType]
  have helement' : m.isElementNode = h.isElementNode := by
    unfold Heap.isElementNode
    rw [hm.nodeType]
  have hsubtree : (descendantsOf h d).Sublist (descendantsOf h₁ d) :=
    (preorder_sublist w.represents w₁.represents w.width w₁.width hsub
      (inclusiveDescendantsOf_eq w d) (inclusiveDescendantsOf_eq w₁ d)).tail
  have hsubkey : ∀ key, (elementsWithId getIdAttribute h d key).Sublist
      (elementsWithId getIdAttribute h₁ d key) := by
    intro key
    unfold elementsWithId elementsBelow
    rw [helement]
    exact (hsubtree.filter _).filter _
  have hnotDocument : ∀ y, Above h.links.parent y t → y ≠ d := by
    rintro y hy rfl
    have hdt : y = t := hy.eq_of_root (w.document_root y (hd y hds))
    exact ht.notDocument (hdt ▸ hd y hds)
  have hfold : IdPage.notifyNodeInsertedInternal getIdAttribute ⟨m, elementsById⟩ fuel p t =
      some (if m.isConnected p then ⟨m.setAllConnected ds true, update elementsById d
        (ds.foldl (registerId getIdAttribute m) (elementsById d))⟩ else ⟨m, elementsById⟩) := by
    unfold IdPage.notifyNodeInsertedInternal
    dsimp only
    rw [hvisit, Option.bind_eq_bind, Option.bind_some, foldl_idInsertedInto]
    dsimp only
    rw [hdoc]
    rfl
  rw [hfold]
  by_cases hpc : h.isConnected p = true
  · have hmp : m.isConnected p = true := by rw [hconn, hpc]
    rw [if_pos hmp] at hh₁ ⊢
    refine ⟨_, by rw [hh₁], fun key hkey => ?_⟩
    rw [update_self, foldl_registerId m ds hkey]
    refine (hfits key hkey).addAll (hsubkey key) (elementsWithId_nodup w₁ d key) fun y => ?_
    rw [mem_elementsWithId w₁, mem_elementsWithId w, hparent, above_document_attached w hd hp ht,
      List.mem_filter, hmem, helement, helement']
    simp only [hpc, and_true, Bool.and_eq_true, beq_iff_eq]
    constructor
    · rintro ⟨⟨hyd, hy | hy⟩, hid⟩
      · exact .inl ⟨⟨hyd, hy⟩, hid⟩
      · exact .inr ⟨hy, hid⟩
    · rintro (⟨⟨hyd, hy⟩, hid⟩ | ⟨hy, hid⟩)
      · exact ⟨⟨hyd, .inl hy⟩, hid⟩
      · exact ⟨⟨hnotDocument y hy, .inr hy⟩, hid⟩
  · have hmp : ¬ m.isConnected p = true := by rw [hconn]; exact hpc
    rw [if_neg hmp] at hh₁ ⊢
    refine ⟨_, by rw [hh₁], fun key hkey => ?_⟩
    -- the subtree is linked outside the document
    have hmem' : ∀ y, y ∈ elementsWithId getIdAttribute h₁ d key ↔
        y ∈ elementsWithId getIdAttribute h d key ∨ y ∈ ([] : List NodeId) := by
      intro y
      rw [mem_elementsWithId w₁, mem_elementsWithId w, hparent,
        above_document_attached w hd hp ht, helement]
      simp [hpc]
    exact (hfits key hkey).addAll (hsubkey key) (elementsWithId_nodup w₁ d key) hmem'

end Notify

/-! ## One step -/

/-- **The map of the document fits its tree.** -/
structure Registered (getIdAttribute : NodeId → Option Str) (d : NodeId) (s : IdPage)
    (ch : NodeId → List NodeId) : Prop where
  wellFormed : WellFormed s.heap ch
  singleDocument : SingleDocument s.heap d
  allocated : d < s.heap.size
  fits : ScopeFits getIdAttribute (s.elementsById d) s.heap d

namespace Registered

variable {getIdAttribute : NodeId → Option Str} {s s' : IdPage} {h' : Heap}
  {ch ch' : NodeId → List NodeId} {d p n : NodeId} {fuel : Nat}

/-- A change of the heap that leaves the tree of the document alone. -/
theorem agree (r : Registered getIdAttribute d s ch) (w' : WellFormed h' ch')
    (hd' : SingleDocument h' d) (hsize : s.heap.size ≤ h'.size)
    (htype : ∀ x, x < s.heap.size → h'.nodeType x = s.heap.nodeType x)
    (hbelow : ∀ x, Above s.heap.links.parent x d → ch' x = ch x) :
    Registered getIdAttribute d ⟨h', s.elementsById⟩ ch' where
  wellFormed := w'
  singleDocument := hd'
  allocated := Nat.lt_of_lt_of_le r.allocated hsize
  fits key hkey := by
    have hagree := elementsBelow_agree r.wellFormed w' hbelow htype
    unfold elementsWithId
    rw [hagree]
    exact r.fits key hkey

theorem agree_of_sameNodes (r : Registered getIdAttribute d s ch) (w' : WellFormed h' ch')
    (hs : SameNodes s.heap h') (hbelow : ∀ x, Above s.heap.links.parent x d → ch' x = ch x) :
    Registered getIdAttribute d ⟨h', s.elementsById⟩ ch' := by
  refine r.agree w' (fun m hm => ?_) (Nat.le_of_eq hs.size.symm) (fun x _ => by rw [hs.nodeType])
    hbelow
  rw [hs.document]
  exact r.singleDocument m (hs.size ▸ hm)

theorem sameTree (r : Registered getIdAttribute d s ch) (hs : SameTree s.heap h') :
    Registered getIdAttribute d ⟨h', s.elementsById⟩ ch :=
  r.agree_of_sameNodes (r.wellFormed.congr hs) hs.toSameNodes fun _ _ => rfl

/-- What leaves its parent for an insertion has not been in the document. -/
theorem collect (r : Registered getIdAttribute d s ch) (hn : s.heap.isConnected n = false)
    (w' : WellFormed h' ((collected s.heap ch n).foldl detach ch)) (hs : SameNodes s.heap h') :
    Registered getIdAttribute d ⟨h', s.elementsById⟩ ((collected s.heap ch n).foldl detach ch) := by
  have w := r.wellFormed
  have hconn : s.heap.isConnected d = true :=
    (w.connected_root d r.allocated (w.document_root d (r.singleDocument d r.allocated))).mpr
      (r.singleDocument d r.allocated)
  refine r.agree_of_sameNodes w' hs fun x hx => ?_
  have hnone : ∀ t ∈ collected s.heap ch n, t ∉ ch x := by
    intro t ht htx
    have hxconn : s.heap.isConnected x = true := (w.connected_above hx).trans hconn
    have htconn : s.heap.isConnected t = true :=
      (w.connected_child t x (w.mem_iff.mp htx)).trans hxconn
    unfold collected targets at ht
    split at ht
    · -- a child of the fragment `n`
      have htn : s.heap.isConnected t = s.heap.isConnected n :=
        w.connected_child t n (w.mem_iff.mp ht)
      rw [htconn, hn] at htn
      cases htn
    · rw [List.mem_singleton.mp ht, hn] at htconn
      cases htconn
  exact (Remembers.eq_of_sublist (foldl_detach_sublist _ ch x) (w.represents.nodup x) fun t htx =>
    mem_foldl_detach_of_ne htx fun ht => hnone t ht htx).symm

/-- **A subtree that has been linked under `p` and told of it.** -/
theorem notify (r : Registered getIdAttribute d s ch) (hfuel : s.heap.size < fuel)
    (hp : p < s.heap.size) {t : NodeId} (ht : Insertable s.heap p t) {m h₁ : Heap}
    {ch₁ : NodeId → List NodeId} (hm : SameNodes s.heap m)
    (hconn : m.isConnected = s.heap.isConnected)
    (hnotify : m.notifyNodeInsertedInternal fuel p t = some h₁) (w₁ : WellFormed h₁ ch₁)
    (s₁ : SameNodes s.heap h₁)
    (hparent : h₁.links.parent = update s.heap.links.parent t (some p))
    (hsub : ∀ x, (ch x).Sublist (ch₁ x)) :
    ∃ s', IdPage.notifyNodeInsertedInternal getIdAttribute ⟨m, s.elementsById⟩ fuel p t = some s' ∧
      s'.heap = h₁ ∧ Registered getIdAttribute d s' ch₁ := by
  obtain ⟨elementsById', heq, hfits⟩ := notifyNodeInserted_fits r.wellFormed r.singleDocument
    r.allocated hfuel hp ht hm hconn hnotify w₁ s₁ hparent hsub r.fits
  refine ⟨_, heq, rfl, w₁, fun x hx => ?_, by rw [s₁.size]; exact r.allocated, hfits⟩
  rw [s₁.document]
  exact r.singleDocument x (s₁.size ▸ hx)

/-- `InsertNodeVector`, round by round. -/
theorem insertNodeVector {next : Option NodeId} {ts : List NodeId}
    (r : Registered getIdAttribute d s ch) (hfuel : s.heap.size < fuel)
    (k : Pending s.heap ch p next ts) :
    ∃ s' ch', IdPage.insertNodeVector getIdAttribute fuel p next ts s = some s' ∧
      Registered getIdAttribute d s' ch' ∧ SameNodes s.heap s'.heap := by
  induction ts generalizing s ch with
  | nil => exact ⟨s, ch, rfl, r, .refl _⟩
  | cons t ts ih =>
    obtain ⟨h₁, hnotify, w₁, s₁, -, hparent, k₁⟩ := k.round r.wellFormed hfuel
    have hm : SameNodes s.heap (ContainerNode.mutator s.heap p t next) := by
      cases next <;> exact ⟨rfl, rfl, rfl, rfl⟩
    have hconn : (ContainerNode.mutator s.heap p t next).isConnected = s.heap.isConnected := by
      cases next <;> rfl
    have hsub : ∀ x, (ch x).Sublist (update ch p (splice (ch p) next [t]) x) := by
      intro x
      by_cases hx : x = p
      · rw [hx, update_self]
        exact splice_sublist ..
      · rw [update_of_ne hx]
    obtain ⟨s', heq, rfl, r'⟩ := r.notify hfuel k.parent_allocated (k.insertable t (by simp)) hm
      hconn hnotify w₁ s₁ hparent hsub
    obtain ⟨s'', ch'', hrest, r'', s₂⟩ := ih r' (by rw [s₁.size]; exact hfuel) k₁
    refine ⟨s'', ch'', ?_, r'', s₁.trans s₂⟩
    rw [IdPage.insertNodeVector, heq]
    exact hrest

theorem insertChecked {next : Option NodeId} (r : Registered getIdAttribute d s ch)
    (hfuel : s.heap.size < fuel) (i : Insertion s.heap ch p n next)
    (hn : s.heap.isConnected n = false)
    (hs' : s.insertChecked getIdAttribute fuel p n next = some s') :
    ∃ ch', Registered getIdAttribute d s' ch' ∧ SameNodes s.heap s'.heap := by
  obtain ⟨h₁, hcol, w₁, s₁, -, -⟩ := collect_spec r.wellFormed hfuel n
  have r₁ := r.collect hn w₁ s₁
  simp only [IdPage.insertChecked, hcol, Option.bind_eq_bind, Option.bind_some,
    Option.pure_def] at hs'
  split at hs'
  · obtain rfl := Option.some.inj hs'
    exact ⟨_, r₁, s₁⟩
  · split at hs'
    · obtain rfl := Option.some.inj hs'
      exact ⟨_, r₁, s₁⟩
    · obtain ⟨s₂, ch₂, hvector, r₂, hsame⟩ := r₁.insertNodeVector (by rw [s₁.size]; exact hfuel)
        (i.pending r.wellFormed w₁ s₁)
      rw [hvector] at hs'
      obtain rfl := Option.some.inj hs'
      have hend := didInsertNodeVector_sameTree s₂.heap p (collected s.heap ch n)
      exact ⟨_, r₂.sameTree hend, (s₁.trans hsame).trans hend.toSameNodes⟩

theorem appendChild (r : Registered getIdAttribute d s ch) (hfuel : s.heap.size < fuel)
    (hp : p < s.heap.size) (hns : n < s.heap.size) (hn : s.heap.isConnected n = false)
    (hs' : s.appendChild getIdAttribute fuel p n = some s') :
    ∃ ch', Registered getIdAttribute d s' ch' ∧ SameNodes s.heap s'.heap := by
  unfold IdPage.appendChild at hs'
  split at hs'
  · rename_i hcont
    obtain ⟨e, hval⟩ := ensurePreInsertionValidity_total r.wellFormed hfuel p n none none
    rw [hval] at hs'
    cases e with
    | some e =>
      obtain rfl := Option.some.inj hs'
      exact ⟨ch, r, .refl _⟩
    | none =>
      have hv := validity_spec hval
      have hchecked : Checked s.heap ch p n none := hv.checked hp hns hcont fun _ hr => by cases hr
      exact r.insertChecked hfuel ⟨hchecked,
        not_above_of_validity r.wellFormed hfuel r.singleDocument hp hcont hv⟩ hn hs'
  · obtain rfl := Option.some.inj hs'
    exact ⟨ch, r, .refl _⟩

theorem insertBefore {ref : NodeId} (r : Registered getIdAttribute d s ch)
    (hfuel : s.heap.size < fuel) (hp : p < s.heap.size) (hns : n < s.heap.size)
    (hn : s.heap.isConnected n = false)
    (hs' : s.insertBefore getIdAttribute fuel p n (some ref) = some s') :
    ∃ ch', Registered getIdAttribute d s' ch' ∧ SameNodes s.heap s'.heap := by
  rw [IdPage.insertBefore] at hs'
  split at hs'
  · rename_i hcont
    obtain ⟨e, hval⟩ := ensurePreInsertionValidity_total r.wellFormed hfuel p n (some ref) none
    rw [hval] at hs'
    cases e with
    | some e =>
      obtain rfl := Option.some.inj hs'
      exact ⟨ch, r, .refl _⟩
    | none =>
      simp only [Option.bind_eq_bind, Option.bind_some] at hs'
      have hv := validity_spec hval
      have href : ref ∈ ch p := r.wellFormed.mem_iff.mpr (hv.next_child ref rfl)
      have hreference : (if ref = n then s.heap.nextSibling n else some ref) =
          insertReference ch p n ref := by
        unfold insertReference
        split
        · rename_i heq
          rw [(successor_eq_next r.wellFormed (heq ▸ href)).1]
          rfl
        · rfl
      have hmem := (insertBefore_eq r.wellFormed hval).2
      rw [hreference] at hs'
      cases hnext : insertReference ch p n ref with
      | none =>
        rw [hnext] at hs'
        exact r.appendChild hfuel hp hns hn hs'
      | some ref' =>
        rw [hnext] at hs' hmem
        exact r.insertChecked hfuel ⟨hv.checked hp hns hcont hmem,
          not_above_of_validity r.wellFormed hfuel r.singleDocument hp hcont hv⟩ hn hs'
  · obtain rfl := Option.some.inj hs'
    exact ⟨ch, r, .refl _⟩

theorem parserAppendChild (r : Registered getIdAttribute d s ch) (hfuel : s.heap.size < fuel)
    (hp : p < s.heap.size) (hns : n < s.heap.size) (hcont : s.heap.isContainerNode p = true)
    (hn : s.heap.isConnected n = false)
    (hs' : s.parserAppendChild getIdAttribute fuel p n = some s') :
    ∃ ch', Registered getIdAttribute d s' ch' ∧ SameNodes s.heap s'.heap := by
  have w := r.wellFormed
  have hheap := parserAppendChild_heap getIdAttribute s fuel p n
  rw [hs', Option.map_some] at hheap
  obtain ⟨e, he⟩ := parserChildException_total w hfuel p n
  have hacc : ContainerNode.checkParserAcceptChild s.heap fuel p n = some e.isNone := by
    simp [ContainerNode.checkParserAcceptChild, he]
  cases e with
  | some e =>
    simp only [IdPage.parserAppendChild, hacc, Option.bind_eq_bind, Option.bind_some,
      Option.isNone_some, Bool.not_false, if_true, Option.pure_def] at hs'
    obtain rfl := Option.some.inj hs'
    exact ⟨ch, r, .refl _⟩
  | none =>
    obtain ⟨hroot, habove⟩ := parserAppendChild_root w hfuel hns hacc hheap.symm
    have hdoc : s.heap.document n ≠ n := by
      intro hd
      rw [(w.connected_root n hns hroot).mpr hd] at hn
      cases hn
    have ht : Insertable s.heap p n := ⟨hns, hroot, hdoc, habove⟩
    obtain ⟨h₁, hnotify, w₁, s₁, -, hparent⟩ := adoptAndAppendChild_spec w hfuel false hp hcont ht
    have hsub : ∀ x, (ch x).Sublist (update ch p (ch p ++ [n]) x) := by
      intro x
      by_cases hx : x = p
      · rw [hx, update_self]
        exact List.sublist_append_left ..
      · rw [update_of_ne hx]
    have hm : SameNodes s.heap (s.heap.adoptAndAppendChild false p n) := ⟨rfl, rfl, rfl, rfl⟩
    obtain ⟨s₂, heq, rfl, r₂⟩ := r.notify hfuel hp ht hm rfl hnotify w₁ s₁ hparent hsub
    have hdetach : ContainerNode.parserDetach n fuel s.heap = some s.heap := by
      cases fuel <;> simp [ContainerNode.parserDetach, Heap.parentNode, hroot]
    simp only [IdPage.parserAppendChild, hacc, hdetach, heq, Option.bind_eq_bind, Option.bind_some,
      Option.isNone_none, Bool.not_true, Bool.false_eq_true, if_false, Option.pure_def] at hs'
    obtain rfl := Option.some.inj hs'
    exact ⟨_, r₂.sameTree (SameTree.childrenChanged ..), s₁.trans ⟨rfl, rfl, rfl, rfl⟩⟩

end Registered

/-! ## Runs on one document -/

section Runs

variable {getIdAttribute : NodeId → Option Str} {s s' : IdPage} {ch : NodeId → List NodeId}
  {d n : NodeId} {a : IdLabel} {fuel : Nat} {id : Str}

/-- **The invariant of a run.** -/
structure IdInvariant (getIdAttribute : NodeId → Option Str) (d : NodeId) (s : IdPage) : Prop where
  registered : ∃ ch, Registered getIdAttribute d s ch
  versions : VersionsBounded s.heap
  fragments : FragmentsAreRoots s.heap

/-- The answer of a lookup, in a page whose map still fits. -/
def AnswersFirst (getIdAttribute : NodeId → Option Str) (d : NodeId) (s : IdPage) (root : NodeId)
    (id : Str) (o : Option (Option NodeId × IdPage)) : Prop :=
  ∃ r s', o = some (r, s') ∧ s'.heap = s.heap ∧
    ScopeFits getIdAttribute (s'.elementsById d) s'.heap d ∧
    (id ≠ [] → r = (elementsWithId getIdAttribute s.heap root id).head?)

theorem Registered.getElementById (r : Registered getIdAttribute d s ch)
    (f : FragmentsAreRoots s.heap) (id : Str) :
    AnswersFirst getIdAttribute d s d id (s.getElementById getIdAttribute d id) := by
  have hroot := r.wellFormed.document_root d (r.singleDocument d r.allocated)
  obtain ⟨element, m, hget, hfits, hfirst⟩ :=
    treeScope_getElementById r.wellFormed f hroot r.fits id
  refine ⟨element, { s with elementsById := update s.elementsById d m }, ?_, rfl, ?_, hfirst⟩
  · rw [IdPage.getElementById, hget]
    rfl
  · simpa using hfits

theorem Registered.getElementByIdBelow (r : Registered getIdAttribute d s ch)
    (f : FragmentsAreRoots s.heap) (hn : n < s.heap.size) (id : Str) :
    AnswersFirst getIdAttribute d s n id (s.getElementByIdBelow getIdAttribute n id) := by
  have hroot := r.wellFormed.document_root d (r.singleDocument d r.allocated)
  have hdoc := r.singleDocument n hn
  obtain ⟨element, m, hget, hfits, hfirst⟩ :=
    containerNode_getElementById r.wellFormed f r.singleDocument hroot r.fits hn id
  refine ⟨element, { s with elementsById := update s.elementsById d m }, ?_, rfl, ?_, hfirst⟩
  · unfold IdPage.getElementByIdBelow
    dsimp only
    rw [hdoc, hget]
    rfl
  · simpa using hfits

/-- A lookup leaves the heap as it is. -/
theorem AnswersFirst.heap {o : Option (Option NodeId × IdPage)} {root : NodeId}
    (h : AnswersFirst getIdAttribute d s root id o) (hs' : o.map Prod.snd = some s') :
    s'.heap = s.heap := by
  obtain ⟨element, s₁, rfl, hheap, -⟩ := h
  obtain rfl := Option.some.inj hs'
  exact hheap

/-- A lookup keeps the invariant. -/
theorem AnswersFirst.invariant {o : Option (Option NodeId × IdPage)} {root : NodeId}
    (h : AnswersFirst getIdAttribute d s root id o) (r : Registered getIdAttribute d s ch)
    (v : VersionsBounded s.heap) (f : FragmentsAreRoots s.heap)
    (hs' : o.map Prod.snd = some s') : IdInvariant getIdAttribute d s' := by
  obtain ⟨element, s₁, rfl, hheap, hfits, -⟩ := h
  obtain rfl := Option.some.inj hs'
  change s₁.heap = s.heap at hheap
  refine ⟨⟨ch, ?_, ?_, ?_, hfits⟩, ?_, ?_⟩
  · exact hheap ▸ r.wellFormed
  · exact hheap ▸ r.singleDocument
  · exact hheap ▸ r.allocated
  · exact hheap ▸ v
  · exact hheap ▸ f

namespace IdLabel

/-- What a label asks of its arguments is what its call asks. -/
theorem Permitted.call_wellTyped {c : Call} (hp : a.Permitted s.heap) (hd : d < s.heap.size)
    (hroot : s.heap.isConnected d = true) (hdoc : ∀ n, n < s.heap.size → s.heap.document n = d)
    (hc : a.call d = some c) :
    c.WellTyped s.heap ∧ c.NotDocument s.heap ∧ c.NotFragment s.heap := by
  cases a with
  | createNode type name =>
    cases hc
    exact ⟨⟨hp, hd⟩, trivial, trivial⟩
  | appendChild p n =>
    cases hc
    exact ⟨⟨hp.1, hp.2.1⟩, trivial, trivial⟩
  | insertBefore p n ref =>
    cases hc
    refine ⟨?_, trivial, trivial⟩
    cases ref with
    | none => exact ⟨hp.1, hp.2.1, fun r hr => by cases hr⟩
    | some ref =>
      refine ⟨hp.1, hp.2.1, fun r hr => ?_⟩
      obtain rfl := Option.some.inj hr
      exact hp.2.2.1
  | parserAppendChild p n =>
    cases hc
    obtain ⟨hps, hns, hcont, hn, hfrag⟩ := hp
    refine ⟨⟨hps, hns, hcont⟩, fun hself => ?_, hfrag⟩
    obtain rfl : d = n := (hdoc n hns).symm.trans hself
    rw [hroot] at hn
    cases hn
  | getElementById id => cases hc
  | getElementByIdBelow n id => cases hc

/-- What a label does to the heap is what its call does. -/
theorem exec_heap {c : Call} (hc : a.call d = some c) :
    (a.exec getIdAttribute d fuel s).map IdPage.heap =
      (c.exec fuel s.heap).map Result.heap := by
  cases a with
  | createNode type name => cases hc; rfl
  | appendChild p n => cases hc; exact appendChild_heap getIdAttribute s fuel p n
  | insertBefore p n ref => cases hc; exact insertBefore_heap getIdAttribute s fuel p n ref
  | parserAppendChild p n =>
    cases hc
    refine (parserAppendChild_heap getIdAttribute s fuel p n).trans ?_
    rw [Call.exec]
    cases he : ContainerNode.parserChildException s.heap fuel p n with
    | none =>
      have hacc : ContainerNode.checkParserAcceptChild s.heap fuel p n = none := by
        rw [ContainerNode.checkParserAcceptChild, he]
        rfl
      rw [ContainerNode.parserAppendChild, hacc]
      rfl
    | some e => cases ContainerNode.parserAppendChild s.heap fuel p n <;> rfl
  | getElementById id => cases hc
  | getElementByIdBelow n id => cases hc

end IdLabel

/-- The map fits after every label, and no label but `createNode` makes nodes. -/
theorem Registered.exec (r : Registered getIdAttribute d s ch) (v : VersionsBounded s.heap)
    (f : FragmentsAreRoots s.heap) (hperm : a.Permitted s.heap) (hfuel : s.heap.size < fuel)
    (hs' : a.exec getIdAttribute d fuel s = some s') :
    (∃ ch', Registered getIdAttribute d s' ch') ∧
      ((∃ type name, a = .createNode type name) ∨ SameNodes s.heap s'.heap) := by
  have hinsert : (∃ ch', Registered getIdAttribute d s' ch' ∧ SameNodes s.heap s'.heap) →
      (∃ ch', Registered getIdAttribute d s' ch') ∧
        ((∃ type name, a = .createNode type name) ∨ SameNodes s.heap s'.heap) :=
    fun ⟨ch', r', hsame⟩ => ⟨⟨ch', r'⟩, .inr hsame⟩
  cases a with
  | createNode type name =>
    obtain rfl := Option.some.inj hs'
    refine ⟨⟨ch, r.agree (r.wellFormed.createNode name hperm r.allocated)
      (r.singleDocument.createNode type name) (Nat.le_succ _) (fun x hx => ?_) fun _ _ => rfl⟩,
      .inl ⟨type, name, rfl⟩⟩
    simp [Heap.createNode, Nat.ne_of_lt hx]
  | appendChild p n => exact hinsert (r.appendChild hfuel hperm.1 hperm.2.1 hperm.2.2 hs')
  | insertBefore p n ref =>
    cases ref with
    | none => exact hinsert (r.appendChild hfuel hperm.1 hperm.2.1 hperm.2.2 hs')
    | some ref => exact hinsert (r.insertBefore hfuel hperm.1 hperm.2.1 hperm.2.2.2 hs')
  | parserAppendChild p n =>
    exact hinsert
      (r.parserAppendChild hfuel hperm.1 hperm.2.1 hperm.2.2.1 hperm.2.2.2.1 hs')
  | getElementById id =>
    have h := r.getElementById f id
    exact ⟨(h.invariant r v f hs').registered, .inr (h.heap hs' ▸ .refl _)⟩
  | getElementByIdBelow n id =>
    have h := r.getElementByIdBelow f hperm.1 id
    exact ⟨(h.invariant r v f hs').registered, .inr (h.heap hs' ▸ .refl _)⟩

/-- **Every step keeps the invariant.** -/
theorem registered_step (i : IdInvariant getIdAttribute d s)
    (hstep : IdStep getIdAttribute d s a s') : IdInvariant getIdAttribute d s' := by
  obtain ⟨⟨ch, r⟩, v, f⟩ := i
  obtain ⟨hperm, fuel, hfuel, hs'⟩ := hstep
  have hself := r.singleDocument d r.allocated
  have hconn := (r.wellFormed.connected_root d r.allocated
    (r.wellFormed.document_root d hself)).mpr hself
  cases hc : a.call d with
  | some c =>
    -- the heap has gone through the call
    obtain ⟨htyped, hdoc, hfrag⟩ :=
      hperm.call_wellTyped r.allocated hconn r.singleDocument hc
    have hheap : (a.exec getIdAttribute d fuel s).map IdPage.heap =
        (c.exec fuel s.heap).map Result.heap := IdLabel.exec_heap hc
    rw [hs', Option.map_some] at hheap
    obtain ⟨result, hexec, hresult⟩ := Option.map_eq_some_iff.mp hheap.symm
    have htree := anyStep_tree ⟨⟨ch, r.wellFormed⟩, v⟩
      ⟨⟨htyped, hdoc⟩, fuel, result, hfuel, hexec, hresult⟩
    refine ⟨(r.exec v f hperm hfuel hs').1, htree.2, ?_⟩
    rw [← hresult]
    exact call_fragments r.wellFormed v f hfuel htyped hdoc hfrag hexec
  | none =>
    cases a with
    | getElementById id => exact (r.getElementById f id).invariant r v f hs'
    | getElementByIdBelow n id => exact (r.getElementByIdBelow f hperm.1 id).invariant r v f hs'
    | _ => cases hc

theorem idInvariant_newDocument : IdInvariant getIdAttribute 0 .newDocument where
  registered := by
    have w : WellFormed IdPage.newDocument.heap fun _ => [] := wellFormed_initial.createDocument
    have hsize : IdPage.newDocument.heap.size = 1 := rfl
    refine ⟨_, w, fun n hn => ?_, by decide, fun key _ => ?_⟩
    · rw [hsize, Nat.lt_one_iff] at hn
      rw [hn]
      rfl
    · have hnil : elementsWithId getIdAttribute IdPage.newDocument.heap 0 key = [] := by
        refine List.eq_nil_iff_forall_not_mem.mpr fun y hy => ?_
        obtain ⟨⟨hne, habove⟩, -⟩ := (mem_elementsWithId w).mp hy
        exact hne (habove.eq_of_root rfl)
      rw [hnil]
      exact Remembers.nil
  versions d := by
    by_cases hd : d = 0
    · rw [hd]
      decide
    · simp [IdPage.newDocument, Heap.createDocument, Heap.createNode, Heap.initial, hd]
  fragments _ _ := rfl

/-- **`getElementById` answers in tree order.** Start from a new document and run any steps: nodes
are created, subtrees that are not in the document are inserted anywhere, by the DOM methods or by
the parser, and ids are looked up in between. Then the lookup in the tree scope answers the first
element of the document that has the id, and the lookup below a container the first of those below
it; the answer is null when there is none. -/
theorem getElementById_in_tree_order {labels : List IdLabel}
    (hrun : Steps (IdStep getIdAttribute 0) .newDocument labels s) (hid : id ≠ []) :
    (s.getElementById getIdAttribute 0 id).map Prod.fst =
        some (elementsWithId getIdAttribute s.heap 0 id).head? ∧
      ∀ n, n < s.heap.size → s.heap.isContainerNode n = true →
        (s.getElementByIdBelow getIdAttribute n id).map Prod.fst =
          some (elementsWithId getIdAttribute s.heap n id).head? := by
  have hinvariant := Steps.invariant (I := IdInvariant getIdAttribute 0)
    (fun _ _ _ i hstep => registered_step i hstep) idInvariant_newDocument hrun
  obtain ⟨⟨ch, r⟩, -, f⟩ := hinvariant
  constructor
  · obtain ⟨element, s', heq, -, -, hfirst⟩ := r.getElementById f id
    rw [heq, ← hfirst hid]
    rfl
  · intro n hn _
    obtain ⟨element, s', heq, -, -, hfirst⟩ := r.getElementByIdBelow f hn id
    rw [heq, ← hfirst hid]
    rfl

/-- All nodes behind the first element have the id `x`. -/
def idBehindFirst (n : NodeId) : Option Str := if n < 2 then none else some ['x']

/-- The element `2` is found and remembered, then `3` is inserted in front of it. -/
theorem getElementById_in_front :
    ∃ s, Steps (IdStep idBehindFirst 0) .newDocument
        [.createNode .element "A", .createNode .element "B", .createNode .element "C",
          .appendChild 1 2, .appendChild 0 1, .getElementById ['x'],
          .insertBefore 1 3 (some 2), .getElementByIdBelow 1 ['x']] s ∧
      (s.getElementById idBehindFirst 0 ['x']).map Prod.fst = some (some 3) ∧
      ∀ n, n < s.heap.size → s.heap.isContainerNode n = true →
        (s.getElementByIdBelow idBehindFirst n ['x']).map Prod.fst =
          some (elementsWithId idBehindFirst s.heap n ['x']).head? := by
  have hnew : NodeType.element ≠ NodeType.document := by decide
  have hrun : Steps (IdStep idBehindFirst 0) .newDocument
      [.createNode .element "A", .createNode .element "B", .createNode .element "C",
        .appendChild 1 2, .appendChild 0 1, .getElementById ['x'],
        .insertBefore 1 3 (some 2), .getElementByIdBelow 1 ['x']] _ :=
    .cons ⟨hnew, 2, by decide, rfl⟩ <| .cons ⟨hnew, 3, by decide, rfl⟩ <|
      .cons ⟨hnew, 4, by decide, rfl⟩ <|
      .cons ⟨⟨by decide, by decide, by decide⟩, 5, by decide, rfl⟩ <|
      .cons ⟨⟨by decide, by decide, by decide⟩, 5, by decide, rfl⟩ <|
      .cons ⟨trivial, 5, by decide, rfl⟩ <|
      .cons ⟨⟨by decide, by decide, by decide, by decide⟩, 5, by decide, rfl⟩ <|
      .cons ⟨⟨by decide, by decide⟩, 5, by decide, rfl⟩ (.nil _)
  obtain ⟨hscope, hbelow⟩ := getElementById_in_tree_order hrun (List.cons_ne_nil 'x' [])
  exact ⟨_, hrun, hscope.trans (congrArg some rfl), hbelow⟩

end Runs

end Blinkit.Dom
