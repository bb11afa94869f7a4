import Blinkit.Dom.ChildrenChange
import Blinkit.Dom.CollectionItemsCache
import Blinkit.Dom.ElementTraversal

/-!
# The live list of the children of a node

Translation of `child_node_list.cc`, and of `Node::childNodes`, which gives an empty list for what
is no container.

* `ChildNodeList.collection` — the traversals, along the sibling links.
* `ChildNodeList.query` — `length` and `item`, through the index cache.
* `ListStep p` — one step of a run: a call, whose notices patch or empty the cache of the list of
  `p`, or a query.

Principal results: `childNodes_queries` (in every run, as long as the node has no more than `2 ^ 31`
children when it is asked, the queries are answered as an uncached walk answers them) and
`item_wraps`: beyond, the 31 bits of the cached index do not suffice.
-/

set_option autoImplicit false

namespace Blinkit.Dom

open LinkedForest ChildLists Function Transition CollectionIndexCache

/-- `Node::lastChild`. -/
def Heap.lastChild (h : Heap) (n : NodeId) : Option NodeId :=
  if h.isContainerNode n then h.links.last n else none

namespace ChildNodeList

/-- The traversals of the list of `p`. -/
def collection (h : Heap) (p : NodeId) : Collection NodeId where
  canTraverseBackward := true
  traverseToFirst := some (h.firstChild p)
  traverseToLast := some (h.lastChild p)
  traverseForwardToOffset offset current currentOffset := do
    traverseToOffset (fun n => some (h.nextSibling n)) (fun k => (k + 1) % 2 ^ 32) offset h.bound
      (← current) currentOffset
  traverseBackwardToOffset offset current currentOffset := do
    traverseToOffset (fun n => some (h.previousSibling n)) (fun k => sub32 k 1) offset h.bound
      (← current) currentOffset

/-- A query of `childNodes`: a `ChildNodeList`, or an `EmptyNodeList`. -/
def query (h : Heap) (p : NodeId) (s : CollectionIndexCache NodeId) :
    Query → Option (Answer NodeId × CollectionIndexCache NodeId)
  | .length =>
    if h.isContainerNode p then do
      let (n, s) ← s.nodeCount (collection h p)
      return (.length n, s)
    else some (.length 0, s)
  | .item offset =>
    if h.isContainerNode p then do
      let (node, s) ← s.nodeAt (collection h p) offset.toNat
      return (.item node, s)
    else some (.item none, s)

end ChildNodeList

/-! ## The traversals -/

section Traversals

variable {h : Heap} {ch : NodeId → List NodeId} {p : NodeId}

theorem WellFormed.previousSibling_eq (w : WellFormed h ch) {k : Nat} {x : NodeId}
    (hx : (ch p)[k + 1]? = some x) : h.previousSibling x = (ch p)[k]? := by
  obtain ⟨hk, hget⟩ := List.getElem?_eq_some_iff.mp hx
  have hsplit : ch p = (ch p).take (k + 1) ++ x :: (ch p).drop (k + 2) := by
    rw [← hget, ← List.drop_eq_getElem_cons hk, List.take_append_drop]
  show h.links.prev x = _
  rw [w.represents.prev_eq hsplit, List.getLast?_take, if_neg (Nat.succ_ne_zero k),
    Nat.add_sub_cancel, List.getElem?_eq_getElem (by omega)]
  rfl

namespace ChildNodeList

theorem servesForward (w : WellFormed h ch) (hcont : h.isContainerNode p = true)
    (hlen : (ch p).length ≤ 2 ^ 32) : ServesForward (collection h p) (ch p) where
  first := by
    show some (h.firstChild p) = _
    rw [Heap.firstChild, if_pos hcont, w.represents.first_eq]
  forward i j x hx hij := by
    have hbound : (ch p).length ≤ i + h.bound := by
      have := w.length_le p
      unfold Heap.bound
      omega
    exact traverseToOffset_forward (nextSibling_stepsThrough w p) hlen hx hij hbound

theorem servesBackward (w : WellFormed h ch) (hcont : h.isContainerNode p = true)
    (hlen : (ch p).length ≤ 2 ^ 32) : ServesBackward (collection h p) (ch p) where
  can := rfl
  last := by
    show some (h.lastChild p) = _
    rw [Heap.lastChild, if_pos hcont, w.represents.last_eq]
  backward i j x hx hji := by
    have hbound : i ≤ j + h.bound := by
      have := w.length_le p
      have := (List.getElem?_eq_some_iff.mp hx).1
      unfold Heap.bound
      omega
    exact traverseToOffset_backward (fun k x hx => by rw [w.previousSibling_eq hx]) hlen hx hji
      hbound

/-- **One query of a list whose cache is coherent.** -/
theorem query_spec (w : WellFormed h ch) (hlen : (ch p).length ≤ 2 ^ 31)
    {s : CollectionIndexCache NodeId} (hs : Coherent s (ch p)) (q : Query) :
    ∃ s', query h p s q = some (q.answer (ch p), s') ∧ Coherent s' (ch p) := by
  by_cases hcont : h.isContainerNode p = true
  · have hforward := servesForward w hcont (by omega)
    have hbackward := servesBackward w hcont (by omega)
    cases q with
    | length =>
      obtain ⟨s', hs', hcoherent, -⟩ := nodeCount_spec hforward hlen hs hbackward
      refine ⟨s', ?_, hcoherent⟩
      rw [query, if_pos hcont, hs']
      rfl
    | item offset =>
      obtain ⟨s', hs', hcoherent, -⟩ :=
        nodeAt_spec hforward hlen hs offset.toNat_lt (.inl hbackward)
      refine ⟨s', ?_, hcoherent⟩
      rw [query, if_pos hcont, hs']
      rfl
  · have hnil := w.children_of_not_container hcont
    refine ⟨s, ?_, hs⟩
    cases q with
    | length => rw [query, if_neg hcont, hnil]; rfl
    | item offset => rw [query, if_neg hcont, hnil]; rfl

end ChildNodeList

end Traversals

/-! ## Runs -/

/-- The heap, and the cache of the list of one node. -/
structure ListState where
  heap : Heap
  cache : CollectionIndexCache NodeId

inductive ListLabel where
  | call (c : Call)
  | query (q : Query)

/-- One step of a run: a call with its notices, or a query of the list of `p`. -/
inductive ListStep (p : NodeId) : ListState → ListLabel → ListState → Prop where
  | call {h : Heap} {s : CollectionIndexCache NodeId} {c : Call} {fuel : Nat} {r : Result}
      (htyped : c.WellTyped h) (hdoc : c.NotDocument h) (hfuel : h.size < fuel)
      (hexec : c.exec fuel h = some r) :
      ListStep p ⟨h, s⟩ (.call c) ⟨r.heap, (c.notices fuel h).foldl (Notice.childrenChanged p) s⟩
  | query {h : Heap} {s s' : CollectionIndexCache NodeId} {q : Query} {a : Answer NodeId}
      (hquery : ChildNodeList.query h p s q = some (a, s')) :
      ListStep p ⟨h, s⟩ (.query q) ⟨h, s'⟩

/-- The node has no more than `2 ^ 31` children. -/
def FewChildren (h : Heap) (p : NodeId) : Prop :=
  ∀ cs, h.childNodes h.bound p = some cs → cs.length ≤ 2 ^ 31

/-- When the list is asked, the node has not too many children. -/
def AskedWhenFew (p : NodeId) (s : ListState) : ListLabel → Prop
  | .call _ => True
  | .query _ => FewChildren s.heap p

/-- Every query that could be asked now is answered as an uncached walk answers it. -/
def AnswersAsWalk (p : NodeId) (s : ListState) : Prop :=
  ∃ cs, s.heap.childNodes s.heap.bound p = some cs ∧
    ∀ q : Query, ∃ s', ChildNodeList.query s.heap p s.cache q = some (q.answer cs, s')

/-- **The invariant of a run.** -/
structure ListInvariant (p : NodeId) (s : ListState) (ch : NodeId → List NodeId) : Prop where
  wellFormed : WellFormed s.heap ch
  versions : VersionsBounded s.heap
  coherent : Coherent s.cache (ch p)

section Runs

variable {p : NodeId} {s s' : ListState} {label : ListLabel} {ch : NodeId → List NodeId}

theorem fewChildren_iff {h : Heap} (w : WellFormed h ch) :
    FewChildren h p ↔ (ch p).length ≤ 2 ^ 31 := by
  have hwalk := w.childNodes_eq (Nat.lt_succ_self h.size) p
  constructor
  · intro hfew
    exact hfew _ hwalk
  · intro hfew cs hcs
    obtain rfl := Option.some.inj (hwalk.symm.trans hcs)
    exact hfew

/-- One step. -/
theorem ListInvariant.step (i : ListInvariant p s ch)
    (hstep : Guarded (ListStep p) (AskedWhenFew p) s label s') : ∃ ch', ListInvariant p s' ch' := by
  obtain ⟨hfew, hstep⟩ := hstep
  cases hstep with
  | call htyped hdoc hfuel hexec =>
    obtain ⟨ch', w', t⟩ := call_traced i.wellFormed i.versions hfuel htyped hdoc hexec
    have htree : Tree _ :=
      anyStep_tree ⟨⟨ch, i.wellFormed⟩, i.versions⟩ ⟨⟨htyped, hdoc⟩, _, _, hfuel, hexec, rfl⟩
    exact ⟨ch', w', htree.2, t.lists p _ i.coherent⟩
  | query hquery =>
    obtain ⟨t, ht, hcoherent⟩ := ChildNodeList.query_spec i.wellFormed
      ((fewChildren_iff i.wellFormed).mp hfew) i.coherent _
    obtain ⟨-, rfl⟩ := Prod.mk.inj (Option.some.inj (ht.symm.trans hquery))
    exact ⟨ch, i.wellFormed, i.versions, hcoherent⟩

/-- **The live child list.** In every run of calls and queries, in any order, that asks the list
only while the node has no more than `2 ^ 31` children, every query is answered as an uncached walk
answers it. -/
theorem childNodes_queries {h : Heap} {labels : List ListLabel} (hreach : Reachable h)
    (hrun : Steps (Guarded (ListStep p) (AskedWhenFew p)) ⟨h, {}⟩ labels s)
    (hfew : FewChildren s.heap p) : AnswersAsWalk p s := by
  obtain ⟨⟨ch₀, w₀⟩, v₀⟩ := reachable_tree hreach
  obtain ⟨ch, i⟩ := Steps.invariant (I := fun s => ∃ ch, ListInvariant p s ch)
    (fun _ _ _ hi hstep => hi.elim fun _ i => i.step hstep)
    ⟨ch₀, w₀, v₀, coherent_fresh (ch₀ p)⟩ hrun
  refine ⟨ch p, i.wellFormed.childNodes_eq (Nat.lt_succ_self _) p, fun q => ?_⟩
  obtain ⟨s', hs', -⟩ := ChildNodeList.query_spec i.wellFormed
    ((fewChildren_iff i.wellFormed).mp hfew) i.coherent q
  exact ⟨s', hs'⟩

end Runs

/-- A list is asked, the node is given a child, and the list is asked again. -/
theorem childNodes_queries_firstDocument :
    ∃ s, Steps (Guarded (ListStep 1) (AskedWhenFew 1)) ⟨firstDocument, {}⟩
      [.query .length, .call (.appendChild 1 3), .query (.item 0)] s ∧
      FewChildren s.heap 1 ∧ AnswersAsWalk 1 s := by
  obtain ⟨⟨ch, w⟩, -⟩ := reachable_tree firstDocument_reachable
  have hnil : FewChildren firstDocument 1 := by
    intro cs hcs
    obtain rfl := Option.some.inj (show some [] = some cs from hcs)
    exact Nat.zero_le _
  have hone : ∀ {r : Result}, (Call.appendChild 1 3).exec 5 firstDocument = some r →
      FewChildren r.heap 1 := by
    rintro r ⟨⟩ cs hcs
    obtain rfl := Option.some.inj (show some [3] = some cs from hcs)
    exact Nat.one_le_two_pow
  have hrun : Steps (Guarded (ListStep 1) (AskedWhenFew 1)) ⟨firstDocument, {}⟩
      [.query .length, .call (.appendChild 1 3), .query (.item 0)] _ :=
    .cons ⟨hnil, .query rfl⟩ <|
    .cons ⟨trivial, .call ⟨by decide, by decide⟩ trivial (by decide : _ < 5) rfl⟩ <|
    .cons ⟨hone rfl, .query rfl⟩ (.nil _)
  exact ⟨_, hrun, hone rfl, childNodes_queries firstDocument_reachable hrun (hone rfl)⟩

/-! ## Too many children -/

/-- An element is given one more child. -/
theorem append_text {h : Heap} {ch : NodeId → List NodeId} (hreach : Reachable h)
    (hsettled : Settled h 0 ch) (hsize : 1 < h.size) (htype : h.nodeType 1 = .element) :
    ∃ h' ch', Reachable h' ∧ Settled h' 0 ch' ∧ 1 < h'.size ∧ h'.nodeType 1 = .element ∧
      (ch' 1).length = (ch 1).length + 1 := by
  obtain ⟨calls, hrun⟩ := hreach
  have hdoc : 0 < h.size := Nat.zero_lt_of_lt hsize
  generalize hm : h.createNode .text "#text" 0 = m
  have hsettled₁ : Settled m 0 ch := hm ▸ createNode_settled hsettled "#text" (by decide) hdoc
  have hsize₁ : m.size = h.size + 1 := by rw [← hm]; rfl
  have hone : 1 < m.size := by rw [hsize₁]; exact Nat.lt_succ_of_lt hsize
  have hnew : h.size < m.size := by rw [hsize₁]; exact Nat.lt_succ_self _
  have hfuel : m.size < h.size + 2 := by rw [hsize₁]; exact Nat.lt_succ_self _
  have htype₁ : m.nodeType 1 = .element := by
    rw [← hm]
    simpa [Heap.createNode, Nat.ne_of_lt hsize] using htype
  have htext : m.nodeType h.size = .text := by simp [← hm, Heap.createNode]
  have hcont : m.isContainerNode 1 = true := by simp [Heap.isContainerNode, htype₁]
  have hfragment : m.isDocumentFragment h.size = false := by
    simp [Heap.isDocumentFragment, htext]
  have hval : ContainerNode.ensurePreInsertionValidity m (h.size + 2) 1 h.size none none =
      some none := by
    simp [ContainerNode.ensurePreInsertionValidity, Heap.isElementNode, Heap.isTextNode, htype₁,
      htext, ContainerNode.isHostIncludingInclusiveAncestorOfThis, Heap.isContainerNode,
      checkReferenceChildParent]
  obtain ⟨h₂, happ, hins⟩ := appendChild_spec hsettled₁.wellFormed hsettled₁.versions hfuel hval
    (hsettled₁.insertion hfuel hone hnew hcont hval) fun o ho => hsettled₁.undisturbed hnew hone ho
  have hcreate : AnyStep h (.createNode .text "#text" 0) m :=
    ⟨⟨(⟨by decide, hdoc⟩ : _ ∧ _), trivial⟩, h.size + 1, _, Nat.lt_succ_self _, rfl, hm⟩
  have happend : AnyStep m (.appendChild 1 h.size) h₂ :=
    ⟨⟨(⟨hone, hnew⟩ : _ ∧ _), trivial⟩, h.size + 2, _, hfuel, (if_pos hcont).trans happ, rfl⟩
  have hfresh : h.size ∉ ch 1 := fun hmem =>
    absurd (hsettled.wellFormed.mem_allocated hmem) (Nat.lt_irrefl _)
  refine ⟨h₂, _, ⟨_, hrun.append (.cons hcreate (.cons happend (.nil _)))⟩,
    hsettled₁.of_inserted hone hins, ?_, ?_, ?_⟩
  · rw [hins.sameNodes.size]
    exact hone
  · rw [hins.sameNodes.nodeType]
    exact htype₁
  · simp only [specAppend, targets, hfragment, Bool.false_eq_true, if_false, move,
      List.foldl_cons, List.foldl_nil, update_self, splice, detach, List.erase_of_not_mem hfresh,
      List.length_append, List.length_cons, List.length_nil]

/-- It can be given any number of them. -/
theorem exists_children (k : Nat) : ∃ h ch, Reachable h ∧ Settled h 0 ch ∧ 1 < h.size ∧
    h.nodeType 1 = .element ∧ (ch 1).length = k := by
  induction k with
  | zero =>
    have hrun : Steps AnyStep Heap.initial [.createDocument, .createNode .element "A" 0,
        .createNode .element "B" 0] twoElements :=
      .cons ⟨⟨trivial, trivial⟩, 3, _, by decide, rfl, rfl⟩ <|
      .cons ⟨⟨⟨by decide, by decide⟩, trivial⟩, 3, _, by decide, rfl, rfl⟩ <|
      .cons ⟨⟨⟨by decide, by decide⟩, trivial⟩, 3, _, by decide, rfl, rfl⟩ (.nil _)
    exact ⟨twoElements, _, ⟨_, hrun⟩, twoElements_fresh.settled, by decide, rfl, rfl⟩
  | succ k ih =>
    obtain ⟨h, ch, hreach, hsettled, hsize, htype, hlen⟩ := ih
    obtain ⟨h', ch', hreach', hsettled', hsize', htype', hlen'⟩ :=
      append_text hreach hsettled hsize htype
    exact ⟨h', ch', hreach', hsettled', hsize', htype', by rw [hlen', hlen]⟩

/-- **With more than `2 ^ 31` children the list does not answer as a walk does.** After
`item(2 ^ 31)`, `item(0)` is not the first child. -/
theorem item_wraps : ∃ h, Reachable h ∧ ∃ s,
    Steps (ListStep 1) ⟨h, {}⟩ [.query (.item 2147483648)] s ∧ ¬ AnswersAsWalk 1 s := by
  obtain ⟨h, ch, hreach, hsettled, -, htype, hlen⟩ := exists_children (2 ^ 31 + 1)
  have w := hsettled.wellFormed
  have hcont : h.isContainerNode 1 = true := by simp [Heap.isContainerNode, htype]
  have hforward := ChildNodeList.servesForward w hcont (by rw [hlen]; decide)
  have hoffset : (2147483648 : UInt32).toNat = 2 ^ 31 := by decide
  have hlt : 2 ^ 31 < (ch 1).length := by rw [hlen]; exact Nat.lt_succ_self _
  obtain ⟨s', hs', hzero⟩ := nodeAt_wraps hforward (Nat.two_pow_pos 31) (Nat.mod_self _) hlt
  refine ⟨h, hreach, ⟨h, s'⟩, .cons (.query (a := .item (ch 1)[2 ^ 31]?) ?_) (.nil _), ?_⟩
  · rw [ChildNodeList.query, if_pos hcont, hoffset, hs']
    rfl
  · rintro ⟨cs, hcs, hqueries⟩
    obtain rfl := Option.some.inj ((w.childNodes_eq (Nat.lt_succ_self _) 1).symm.trans hcs)
    obtain ⟨t, ht⟩ := hqueries (.item 0)
    have hquery : ChildNodeList.query h 1 s' (.item 0) = some (.item (ch 1)[2 ^ 31]?, s') := by
      rw [ChildNodeList.query, if_pos hcont]
      show ((s'.nodeAt (ChildNodeList.collection h 1) 0).bind _) = _
      rw [hzero]
      rfl
    have hitem : (ch 1)[2 ^ 31]? = (ch 1)[0]? :=
      Answer.item.inj (congrArg Prod.fst (Option.some.inj (hquery.symm.trans ht)))
    rw [List.getElem?_eq_getElem hlt, List.getElem?_eq_getElem (Nat.zero_lt_of_lt hlt)] at hitem
    have hindex := ((w.represents.nodup 1).getElem_inj_iff).mp (Option.some.inj hitem)
    exact absurd hindex (Nat.ne_of_gt (Nat.two_pow_pos 31))

end Blinkit.Dom
