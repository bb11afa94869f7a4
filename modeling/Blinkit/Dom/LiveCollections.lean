import Blinkit.Dom.ChildrenChange
import Blinkit.Dom.HTMLCollection

/-!
# Live collections of a tree that changes

* `NodeListInvalidationType`, `shouldInvalidateNodeListCaches` — which changes a document with
  registered lists takes for its lists.
* `LiveState.invalidated` — `InvalidateNodeListCachesInAncestors` for one collection.
* `LiveStep c root` — one step of a run: a call with its notices, a change of an attribute, a list
  that is registered, or a query of the collection `c` of `root`.
* `Reaches` — the changes below the root that a step makes reach the collection.

Principal results: `live_queries_iff` (in every run whose changes reach the collection, and that
asks it only what is supported, a query is answered right exactly when it is supported),
`reaches_of_singleDocument` and `length_counts_twice`.
-/

set_option autoImplicit false

namespace Blinkit.Dom

open LinkedForest ChildLists Function Transition

/-! ## Fragments -/

/-- What the parser appends is not a fragment. -/
def Call.NotFragment (h : Heap) : Call → Prop
  | .parserAppendChild _ n => h.isDocumentFragment n = false
  | _ => True

section Fragments

variable {h h' : Heap} {ch ch' : NodeId → List NodeId} {p n x : NodeId} {fuel : Nat}

theorem mem_move {f : NodeId → List NodeId} {ref : Option NodeId} {ns : List NodeId} {q : NodeId}
    (hx : x ∈ move f p ref ns q) : x ∈ f q ∨ x ∈ ns := by
  unfold move at hx
  by_cases hq : q = p
  · subst hq
    rw [update_self] at hx
    cases ref with
    | none =>
      rcases List.mem_append.mp hx with hx | hx
      · exact .inl (mem_foldl_detach hx)
      · exact .inr hx
    | some r =>
      simp only [splice, List.mem_append] at hx
      rcases hx with (hx | hx) | hx
      · exact .inl (mem_foldl_detach ((List.takeWhile_sublist _).mem hx))
      · exact .inr hx
      · exact .inl (mem_foldl_detach ((List.dropWhile_sublist _).mem hx))
  · rw [update_of_ne hq] at hx
    exact .inl (mem_foldl_detach hx)

/-- An insertion brings its node or, of a fragment, its children. -/
theorem Place.mem_spec {place : Place} {isFragment : NodeId → Bool} {q : NodeId}
    (hx : x ∈ (place.call p n).spec isFragment ch q) :
    x ∈ ch q ∨ x ∈ ch n ∨ x = n ∧ isFragment n = false := by
  have htargets : ∀ {f : NodeId → List NodeId}, (∀ q, f q ⊆ ch q) → x ∈ targets isFragment f n →
      x ∈ ch n ∨ x = n ∧ isFragment n = false := by
    intro f hf hmem
    unfold targets at hmem
    split at hmem
    · exact .inl (hf n hmem)
    · rename_i hfrag
      exact .inr ⟨List.mem_singleton.mp hmem, by simpa using hfrag⟩
  cases place with
  | last => exact (mem_move hx).imp id (htargets fun _ => List.Subset.refl _)
  | before ref => exact (mem_move hx).imp id (htargets fun _ => List.Subset.refl _)
  | instead old =>
    have hsub : ∀ q, detach (detach ch n) old q ⊆ ch q := fun q =>
      (List.erase_sublist.trans List.erase_sublist).subset
    exact (mem_move hx).imp (fun hm => hsub q hm) (htargets hsub)

/-- When only the nodes of an insertion are given a parent, the fragments stay roots. -/
theorem FragmentsAreRoots.of_lists (f : FragmentsAreRoots h) (w : WellFormed h ch)
    (w' : WellFormed h' ch') (s : SameNodes h h')
    (hmem : ∀ q x, x ∈ ch' q → x ∈ ch q ∨ x ∈ ch n ∨ x = n ∧ h.isDocumentFragment n = false) :
    FragmentsAreRoots h' := by
  intro x hx
  rw [s.isDocumentFragment] at hx
  cases hq : h'.links.parent x with
  | none => rfl
  | some q =>
    have hroot := f x hx
    rcases hmem q x (w'.mem_iff.mpr hq) with hm | hm | ⟨rfl, hn⟩
    · rw [w.mem_iff.mp hm] at hroot
      cases hroot
    · rw [w.mem_iff.mp hm] at hroot
      cases hroot
    · rw [hn] at hx
      cases hx

theorem FragmentsAreRoots.create (f : FragmentsAreRoots h) (w : WellFormed h ch)
    (hlinks : h'.links = h.links)
    (htype : ∀ x, x < h.size → h'.nodeType x = h.nodeType x) : FragmentsAreRoots h' := by
  intro x hx
  rw [hlinks]
  rcases Nat.lt_or_ge x h.size with hlt | hge
  · refine f x ?_
    unfold Heap.isDocumentFragment at hx ⊢
    rwa [← htype x hlt]
  · exact w.parent_unallocated hge

/-- **The fragments stay roots.** -/
theorem call_fragments {c : Call} {r : Result} (w : WellFormed h ch) (v : VersionsBounded h)
    (f : FragmentsAreRoots h) (hfuel : h.size < fuel) (htyped : c.WellTyped h)
    (hdoc : c.NotDocument h) (hfrag : c.NotFragment h) (hexec : c.exec fuel h = some r) :
    FragmentsAreRoots r.heap := by
  cases hc : c.insertion with
  | some i =>
    obtain ⟨p, n, place⟩ := i
    obtain ⟨heq, htyped'⟩ := Call.insertion_eq h fuel hc
    rw [heq] at hexec
    rcases insertion_refused_or_checked w hfuel (htyped' htyped) with
      ⟨ret, e, hexec'⟩ | ⟨hcont, hval⟩
    · obtain rfl := Option.some.inj (hexec.symm.trans hexec')
      exact f
    · obtain ⟨-, ch', w', s, hlists⟩ := insertion_lists w v hfuel (htyped' htyped) hcont hval hexec
      refine f.of_lists (n := n) w w' s fun q x hx => ?_
      rcases hlists with rfl | hsub
      · exact place.mem_spec hx
      · exact .inl ((hsub q).subset hx)
  | none =>
    cases c with
    | createNode type name d =>
      obtain rfl := Option.some.inj hexec
      exact f.create w rfl fun x hx => by simp [Heap.createNode, Nat.ne_of_lt hx]
    | createDocument =>
      obtain rfl := Option.some.inj hexec
      exact f.create w rfl fun x hx => by
        simp [Heap.createDocument, Heap.createNode, Nat.ne_of_lt hx]
    | incDOMTreeVersion d =>
      obtain rfl := Option.some.inj hexec
      exact f
    | appendChild p n => cases hc
    | insertBefore p n ref => cases ref <;> cases hc
    | replaceChild p n old =>
      cases old with
      | some old => cases hc
      | none =>
        obtain rfl := Option.some.inj hexec
        exact f
    | removeChild p c =>
      rcases removeChild_cases w hfuel c with ⟨ret, e, heq⟩ | ⟨c₀, h', -, -, heq, w', hs⟩
      · obtain rfl := Option.some.inj (hexec.symm.trans heq)
        exact f
      · obtain rfl := Option.some.inj (hexec.symm.trans heq)
        exact f.of_lists (n := p) w w' hs fun q x hx => .inl (List.erase_sublist.subset hx)
    | removeChildren p =>
      obtain ⟨h₁, hrem, w₁, hs, -⟩ := removeChildren_spec w hfuel p
      obtain rfl : _ = r := by simpa [Call.exec, hrem] using hexec
      refine f.of_lists (n := p) w w₁ hs fun q x hx => .inl ?_
      by_cases hq : q = p
      · simp [specRemoveChildren, hq] at hx
      · simpa [specRemoveChildren, hq] using hx
    | parserAppendChild p n =>
      obtain ⟨e, he⟩ := parserChildException_total w hfuel p n
      obtain ⟨h₁, happ, rfl⟩ : ∃ h₁, ContainerNode.parserAppendChild h fuel p n = some h₁ ∧
          (⟨h₁, none, e⟩ : Result) = r := by
        simpa [Call.exec, he, Option.bind_eq_some_iff] using hexec
      rcases parserAppendChild_returns w hfuel htyped.2.1 happ with rfl | ⟨hacc, hq, habove⟩
      · exact f
      · obtain ⟨h₂, heq, hins⟩ := parserAppendChild_spec w v hfuel htyped.1 htyped.2.2
          ⟨htyped.2.1, hq, hdoc, habove⟩ hacc
        obtain rfl := Option.some.inj (happ.symm.trans heq)
        refine f.of_lists (n := n) w hins.wellFormed hins.sameNodes fun q x hx => ?_
        by_cases hqp : q = p
        · subst hqp
          rw [update_self] at hx
          rcases List.mem_append.mp hx with hx | hx
          · exact .inl hx
          · exact .inr (.inr ⟨List.mem_singleton.mp hx, hfrag⟩)
        · rw [update_of_ne hqp] at hx
          exact .inl hx

end Fragments

/-! ## Invalidation -/

inductive NodeListInvalidationType where
  | doNotInvalidateOnAttributeChanges
  | invalidateOnClassAttrChange
  | invalidateOnIdNameAttrChange
  | invalidateOnNameAttrChange
  | invalidateOnForAttrChange
  | invalidateForFormControls
  | invalidateOnHRefAttrChange
  | invalidateOnAnyAttrChange
  deriving DecidableEq

namespace NodeListInvalidationType

/-- `LiveNodeListBase::ShouldInvalidateTypeOnAttributeChange`. -/
def shouldInvalidateTypeOnAttributeChange (attrName : String) : NodeListInvalidationType → Bool
  | invalidateOnClassAttrChange => attrName == "class"
  | invalidateOnNameAttrChange => attrName == "name"
  | invalidateOnIdNameAttrChange => attrName == "id" || attrName == "name"
  | invalidateOnForAttrChange => attrName == "for"
  | invalidateForFormControls => ["name", "id", "for", "form", "type"].contains attrName
  | invalidateOnHRefAttrChange => attrName == "href"
  | doNotInvalidateOnAttributeChanges => false
  | invalidateOnAnyAttrChange => true

end NodeListInvalidationType

/-- `Document::ShouldInvalidateNodeListCaches`, with the types of the registered lists. -/
def shouldInvalidateNodeListCaches (types : List NodeListInvalidationType) :
    Option String → Bool
  | some attrName => types.any fun type =>
      type != .doNotInvalidateOnAttributeChanges &&
        type.shouldInvalidateTypeOnAttributeChange attrName
  | none => !types.isEmpty

/-- `InvalidationTypeExcludingIdAndNameAttributes`. -/
def HTMLCollection.invalidationType : HTMLCollection → NodeListInvalidationType
  | tagCollection _ | htmlTagCollection _ _ => .doNotInvalidateOnAttributeChanges
  | classCollection _ => .invalidateOnClassAttrChange

/-- `HTMLCollection::InvalidateCacheForAttribute`. -/
def HTMLCollection.invalidateCacheForAttribute (c : HTMLCollection) (attrName : Option String)
    (s : CollectionItemsCache NodeId) : CollectionItemsCache NodeId :=
  if attrName.all c.invalidationType.shouldInvalidateTypeOnAttributeChange then s.invalidate else s

/-- A page with its registered lists, by document, and the cache of one collection. -/
structure LiveState where
  page : Page
  nodeLists : NodeId → List NodeListInvalidationType
  cache : CollectionItemsCache NodeId

/-- The part of `InvalidateNodeListCachesInAncestors` for the collection `c` of `root`: the loop
from the container up comes to the root. -/
def HTMLCollection.invalidated (c : HTMLCollection) (root : NodeId)
    (nodeLists : NodeId → List NodeListInvalidationType) (h : Heap) (container : NodeId)
    (attrName : Option String) (s : CollectionItemsCache NodeId) : CollectionItemsCache NodeId :=
  if shouldInvalidateNodeListCaches (nodeLists (h.document container)) attrName then
    match search h.parentNode root (h.bound + 1) (some container) with
    | some true => c.invalidateCacheForAttribute attrName s
    | _ => s
  else s

/-- What a notice does to the collection; a change of text alone does nothing. -/
def Notice.invalidate (c : HTMLCollection) (root : NodeId)
    (nodeLists : NodeId → List NodeListInvalidationType) (s : CollectionItemsCache NodeId)
    (n : Notice) : CollectionItemsCache NodeId :=
  if n.type = .textChanged then s
  else c.invalidated root nodeLists n.heap n.container none s

/-- The element with the classes that a change of its attribute gives it. -/
def ElementInfo.withAttribute (e : ElementInfo) (attrName : String)
    (classNames : Option (List String)) : ElementInfo :=
  if attrName = "class" then { e with classNames := classNames } else e

/-! ## Runs -/

inductive LiveLabel where
  | call (c : Call)
  | attributeChanged (n : NodeId) (attrName : String) (classNames : Option (List String))
  | registerNodeList (d : NodeId) (type : NodeListInvalidationType)
  | query (q : Query)

/-- One step of a run. A call may create elements, with any data. -/
inductive LiveStep (c : HTMLCollection) (root : NodeId) : LiveState → LiveLabel → LiveState → Prop
  | call {h : Heap} {element element' : NodeId → ElementInfo}
      {nodeLists : NodeId → List NodeListInvalidationType} {s : CollectionItemsCache NodeId}
      {call : Call} {fuel : Nat} {r : Result} (htyped : call.WellTyped h)
      (hdoc : call.NotDocument h) (hfrag : call.NotFragment h) (hfuel : h.size < fuel)
      (hexec : call.exec fuel h = some r) (helement : ∀ x, x < h.size → element' x = element x) :
      LiveStep c root ⟨⟨h, element⟩, nodeLists, s⟩ (.call call) ⟨⟨r.heap, element'⟩, nodeLists,
        (call.notices fuel h).foldl (Notice.invalidate c root nodeLists) s⟩
  | attributeChanged {h : Heap} {element : NodeId → ElementInfo}
      {nodeLists : NodeId → List NodeListInvalidationType} {s : CollectionItemsCache NodeId}
      {n : NodeId} {attrName : String} {classNames : Option (List String)} (hn : n < h.size) :
      LiveStep c root ⟨⟨h, element⟩, nodeLists, s⟩ (.attributeChanged n attrName classNames)
        ⟨⟨h.incDOMTreeVersion (h.document n),
            update element n ((element n).withAttribute attrName classNames)⟩,
          nodeLists, c.invalidated root nodeLists h n (some attrName) s⟩
  | registerNodeList {p : Page} {nodeLists : NodeId → List NodeListInvalidationType}
      {s : CollectionItemsCache NodeId} {d : NodeId} {type : NodeListInvalidationType} :
      LiveStep c root ⟨p, nodeLists, s⟩ (.registerNodeList d type)
        ⟨p, update nodeLists d (type :: nodeLists d), s⟩
  | query {p : Page} {nodeLists : NodeId → List NodeListInvalidationType}
      {s s' : CollectionItemsCache NodeId} {q : Query} {a : Answer NodeId}
      (hquery : c.query p root s q = some (a, s')) :
      LiveStep c root ⟨p, nodeLists, s⟩ (.query q) ⟨p, nodeLists, s'⟩

/-- The change below the root at the container reaches the collection. -/
def Reaches (root : NodeId) (nodeLists : NodeId → List NodeListInvalidationType) (h : Heap)
    (container : NodeId) (attrName : Option String) : Prop :=
  Above h.links.parent container root →
    shouldInvalidateNodeListCaches (nodeLists (h.document container)) attrName = true

/-- What is asked of a step: its changes reach the collection, and a query is supported while the
collection has no more than `2 ^ 31` items. -/
def LiveGuard (c : HTMLCollection) (root : NodeId) (s : LiveState) : LiveLabel → Prop
  | .call call => ∀ fuel r, s.page.heap.size < fuel → call.exec fuel s.page.heap = some r →
      ∀ n ∈ call.notices fuel s.page.heap, Reaches root s.nodeLists n.heap n.container none
  | .attributeChanged n attrName _ => attrName = "class" →
      c.invalidationType = .invalidateOnClassAttrChange →
      Reaches root s.nodeLists s.page.heap n (some attrName)
  | .registerNodeList _ _ => True
  | .query q => (c.items s.page root).length ≤ 2 ^ 31 ∧ q.Supported s.cache

/-- **The invariant of a run.** -/
structure LiveInvariant (c : HTMLCollection) (root : NodeId) (s : LiveState)
    (ch : NodeId → List NodeId) : Prop where
  wellFormed : WellFormed s.page.heap ch
  versions : VersionsBounded s.page.heap
  fragments : FragmentsAreRoots s.page.heap
  truthful : s.cache.Truthful (c.items s.page root)

section Steps

variable {c : HTMLCollection} {root : NodeId} {nodeLists : NodeId → List NodeListInvalidationType}
  {h h' : Heap} {ch ch' : NodeId → List NodeId} {element element' : NodeId → ElementInfo}
  {s : CollectionItemsCache NodeId} {xs ys : List NodeId}

/-- The loop from a node up comes to the root exactly from below it. -/
theorem searchUp_iff (w : WellFormed h ch) (x root : NodeId) :
    search h.parentNode root (h.bound + 1) (some x) = some true ↔ Above h.links.parent x root := by
  obtain ⟨b, hsearch, hb⟩ := w.search_parent (Nat.lt_succ_self h.size) x root
  rw [search]
  split
  · rename_i hx
    rw [hx]
    exact iff_of_true rfl (.refl root)
  · rename_i hx
    have hsearch' : search h.parentNode root h.bound (h.parentNode x) = some b := hsearch
    rw [hsearch', Option.some_inj, hb, above_iff_head]
    exact ⟨fun hq => .inr hq, fun hq => hq.resolve_left hx⟩

/-- The collection is invalidated, or left alone. -/
theorem invalidated_cases (c : HTMLCollection) (root : NodeId)
    (nodeLists : NodeId → List NodeListInvalidationType) (h : Heap) (container : NodeId)
    (attrName : Option String) (s : CollectionItemsCache NodeId) :
    c.invalidated root nodeLists h container attrName s = s.invalidate ∨
      c.invalidated root nodeLists h container attrName s = s := by
  unfold HTMLCollection.invalidated HTMLCollection.invalidateCacheForAttribute
  split
  · split
    · split
      · exact .inl rfl
      · exact .inr rfl
    · exact .inr rfl
  · exact .inr rfl

theorem truthful_invalidated (hs : s.Truthful xs) (container : NodeId) (attrName : Option String) :
    (c.invalidated root nodeLists h container attrName s).Truthful xs := by
  rcases invalidated_cases c root nodeLists h container attrName s with heq | heq
  · rw [heq]
    exact hs.invalidate xs
  · rw [heq]
    exact hs

/-- A change that reaches the collection empties its cache. -/
theorem invalidated_of_reaches (w : WellFormed h ch) {container : NodeId} {attrName : Option String}
    (habove : Above h.links.parent container root)
    (hreaches : Reaches root nodeLists h container attrName)
    (htype : attrName.all c.invalidationType.shouldInvalidateTypeOnAttributeChange = true) :
    c.invalidated root nodeLists h container attrName s = s.invalidate := by
  unfold HTMLCollection.invalidated HTMLCollection.invalidateCacheForAttribute
  rw [if_pos (hreaches habove), (searchUp_iff w container root).mpr habove]
  simp only [htype, if_true]

/-- Once the cache is empty it suits every list, and further notices leave it so. -/
theorem invalidate_truthful (hs : ∀ ys, s.Truthful ys) (ns : List Notice) :
    ∀ ys, (ns.foldl (Notice.invalidate c root nodeLists) s).Truthful ys := by
  induction ns generalizing s with
  | nil => exact hs
  | cons n ns ih =>
    refine ih fun ys => ?_
    unfold Notice.invalidate
    split
    · exact hs ys
    · exact truthful_invalidated (hs ys) _ _

/-- A notice from below the root empties the cache. -/
theorem notices_invalidate {ns : List Notice} (hs : s.Truthful xs) (hwithin : ∀ n ∈ ns, n.Within h)
    (hreach : ∀ n ∈ ns, Reaches root nodeLists n.heap n.container none)
    (hbelow : ∃ n ∈ ns, Above n.heap.links.parent n.container root) :
    ∀ ys, (ns.foldl (Notice.invalidate c root nodeLists) s).Truthful ys := by
  induction ns generalizing s xs with
  | nil =>
    obtain ⟨n, hn, -⟩ := hbelow
    cases hn
  | cons n ns ih =>
    obtain ⟨⟨ch₀, w₀⟩, -, -, htext⟩ := hwithin n (List.mem_cons_self ..)
    rw [List.foldl_cons, Notice.invalidate, if_neg htext]
    by_cases habove : Above n.heap.links.parent n.container root
    · rw [invalidated_of_reaches w₀ habove (hreach n (List.mem_cons_self ..)) rfl]
      exact invalidate_truthful (fun ys => hs.invalidate ys) ns
    · obtain ⟨m, hm, hmabove⟩ := hbelow
      have hm' : m ∈ ns := by
        rcases List.mem_cons.mp hm with rfl | hm
        · exact absurd hmabove habove
        · exact hm
      exact ih (truthful_invalidated hs _ _) (fun k hk => hwithin k (List.mem_cons_of_mem _ hk))
        (fun k hk => hreach k (List.mem_cons_of_mem _ hk)) ⟨m, hm', hmabove⟩

/-- Notices from elsewhere leave the cache alone, or empty it. -/
theorem notices_truthful {ns : List Notice} (hs : s.Truthful xs) :
    (ns.foldl (Notice.invalidate c root nodeLists) s).Truthful xs := by
  induction ns generalizing s with
  | nil => exact hs
  | cons n ns ih =>
    refine ih ?_
    unfold Notice.invalidate
    split
    · exact hs
    · exact truthful_invalidated hs _ _

/-- The items are the same when nothing below the root has changed. -/
theorem items_eq (w : WellFormed h ch) (w' : WellFormed h' ch')
    (hbelow : ∀ x, Above h.links.parent x root → ch' x = ch x)
    (htype : ∀ x, x < h.size → h'.nodeType x = h.nodeType x)
    (hmatch : ∀ x ∈ descendantsOf h root,
      c.elementMatches (element' x) = c.elementMatches (element x)) :
    c.items ⟨h', element'⟩ root = c.items ⟨h, element⟩ root := by
  have hkinds := elementsBelow_agree w w' hbelow htype
  show (elementsBelow h' root).filter _ = (elementsBelow h root).filter _
  rw [hkinds]
  exact List.filter_congr fun x hx => hmatch x (List.mem_of_mem_filter hx)

end Steps

section Runs

variable {c : HTMLCollection} {root : NodeId} {s s' : LiveState} {label : LiveLabel}
  {ch : NodeId → List NodeId}

/-- A change of an attribute. -/
theorem LiveInvariant.attributeChanged {h : Heap} {element : NodeId → ElementInfo}
    {nodeLists : NodeId → List NodeListInvalidationType} {cache : CollectionItemsCache NodeId}
    {n : NodeId} {attrName : String} {classNames : Option (List String)}
    (i : LiveInvariant c root ⟨⟨h, element⟩, nodeLists, cache⟩ ch)
    (hguard : LiveGuard c root ⟨⟨h, element⟩, nodeLists, cache⟩
      (.attributeChanged n attrName classNames)) :
    (c.invalidated root nodeLists h n (some attrName) cache).Truthful
      (c.items ⟨h.incDOMTreeVersion (h.document n),
        update element n ((element n).withAttribute attrName classNames)⟩ root) := by
  have w' : WellFormed (h.incDOMTreeVersion (h.document n)) ch :=
    i.wellFormed.congr ⟨⟨rfl, rfl, rfl, rfl⟩, rfl, rfl⟩
  by_cases hchange : Above h.links.parent n root ∧ attrName = "class" ∧
      c.invalidationType = .invalidateOnClassAttrChange
  · obtain ⟨habove, rfl, htype⟩ := hchange
    rw [invalidated_of_reaches i.wellFormed habove (hguard rfl htype) (by rw [htype]; rfl)]
    exact i.truthful.invalidate _
  · have hitems : c.items ⟨h.incDOMTreeVersion (h.document n),
        update element n ((element n).withAttribute attrName classNames)⟩ root =
        c.items ⟨h, element⟩ root := by
      refine items_eq i.wellFormed w' (fun _ _ => rfl) (fun _ _ => rfl) fun x hx => ?_
      by_cases hxn : x = n
      · subst hxn
        rw [update_self]
        unfold ElementInfo.withAttribute
        split
        · rename_i hclass
          have habove := ((mem_descendantsOf i.wellFormed).mp hx).2
          cases c with
          | tagCollection name => rfl
          | htmlTagCollection name lowered => rfl
          | classCollection names => exact absurd ⟨habove, hclass, rfl⟩ hchange
        · rfl
      · rw [update_of_ne hxn]
    rw [hitems]
    exact truthful_invalidated i.truthful n (some attrName)

/-- One step. -/
theorem LiveInvariant.step (i : LiveInvariant c root s ch)
    (hstep : Guarded (LiveStep c root) (LiveGuard c root) s label s') :
    ∃ ch', LiveInvariant c root s' ch' := by
  obtain ⟨hguard, hstep⟩ := hstep
  cases hstep with
  | @call h element element' nodeLists cache call fuel r htyped hdoc hfrag hfuel hexec helement =>
    have w : WellFormed h ch := i.wellFormed
    have hany : AnyStep h call r.heap := ⟨⟨htyped, hdoc⟩, fuel, r, hfuel, hexec, rfl⟩
    obtain ⟨ch', w', t⟩ := call_traced w i.versions hfuel htyped hdoc hexec
    obtain ⟨-, v'⟩ := anyStep_tree ⟨⟨ch, w⟩, i.versions⟩ hany
    obtain ⟨ch₁, -, hkinds, -⟩ := anyStep_children w i.versions hany
    have f' := call_fragments w i.versions i.fragments hfuel htyped hdoc hfrag hexec
    refine ⟨ch', w', v', f', ?_⟩
    by_cases hbelow : ∃ n ∈ call.notices fuel h, Above n.heap.links.parent n.container root
    · exact notices_invalidate i.truthful t.within (hguard fuel r hfuel hexec) hbelow _
    · have hsame := t.below root fun n hn habove => hbelow ⟨n, hn, habove⟩
      have hitems : c.items ⟨r.heap, element'⟩ root = c.items ⟨h, element⟩ root := by
        refine items_eq w w' hsame hkinds.nodeType fun x hx => ?_
        obtain ⟨-, -, hlt⟩ := descendantsOf_allocated w hx
        rw [helement x hlt]
      show CollectionItemsCache.Truthful _ (c.items ⟨r.heap, element'⟩ root)
      rw [hitems]
      exact notices_truthful i.truthful
  | @attributeChanged h element nodeLists cache n attrName classNames hn =>
    refine ⟨ch, i.wellFormed.congr ⟨⟨rfl, rfl, rfl, rfl⟩, rfl, rfl⟩, ?_, i.fragments,
      i.attributeChanged hguard⟩
    exact i.versions.bumped (o := n) ⟨rfl, rfl⟩
  | registerNodeList => exact ⟨ch, i.wellFormed, i.versions, i.fragments, i.truthful⟩
  | @query p nodeLists cache cache' q a hquery =>
    obtain ⟨hfew, hsupported⟩ := hguard
    obtain ⟨t, ht, htruthful, -⟩ := CollectionItemsCache.query_spec
      (HTMLCollection.servesForward i.wellFormed i.fragments hfew) hfew
      (HTMLCollection.items_length i.wellFormed c root) i.truthful hsupported
    obtain ⟨-, rfl⟩ := Prod.mk.inj (Option.some.inj (ht.symm.trans hquery))
    exact ⟨ch, i.wellFormed, i.versions, i.fragments, htruthful⟩

/-- **A live collection.** In every run whose changes reach the collection and whose queries are
supported, a query is answered as a fresh walk answers it exactly when it is supported. -/
theorem live_queries_iff {p : Page} {nodeLists : NodeId → List NodeListInvalidationType}
    {labels : List LiveLabel} (htree : Tree p.heap) (hfragments : FragmentsAreRoots p.heap)
    (hrun : Steps (Guarded (LiveStep c root) (LiveGuard c root)) ⟨p, nodeLists, {}⟩ labels s)
    (hfew : (c.items s.page root).length ≤ 2 ^ 31) (q : Query) :
    (∃ cache, c.query s.page root s.cache q = some (q.answer (c.items s.page root), cache)) ↔
      q.Supported s.cache := by
  obtain ⟨⟨ch₀, w₀⟩, v₀⟩ := htree
  obtain ⟨ch, i⟩ := Steps.invariant (I := fun s => ∃ ch, LiveInvariant c root s ch)
    (fun _ _ _ hi hstep => hi.elim fun _ i => i.step hstep)
    ⟨ch₀, w₀, v₀, hfragments, CollectionItemsCache.truthful_fresh _⟩ hrun
  exact CollectionItemsCache.query_iff
    (HTMLCollection.servesForward i.wellFormed i.fragments hfew) HTMLCollection.stubbedBackward hfew
    (HTMLCollection.items_length i.wellFormed c root) i.truthful q

/-! ## One document -/

/-- **In one document every change reaches its collections.** -/
theorem reaches_of_singleDocument {d : NodeId} {call : Call} (htree : Tree s.page.heap)
    (hd : SingleDocument s.page.heap d) (hlists : c.invalidationType ∈ s.nodeLists d)
    (htyped : call.WellTyped s.page.heap) (hdoc : call.NotDocument s.page.heap) :
    LiveGuard c root s (.call call) := by
  rintro fuel r hfuel hexec n hn -
  obtain ⟨⟨ch, w⟩, v⟩ := htree
  obtain ⟨ch', -, t⟩ := call_traced w v hfuel htyped hdoc hexec
  obtain ⟨-, hsame, halloc, -⟩ := t.within n hn
  rw [hsame.document, hd n.container halloc]
  cases hnil : s.nodeLists d with
  | nil => simp [hnil] at hlists
  | cons type types => rfl

end Runs

/-! ## A list that changes -/

/-- The document has registered the collection. -/
def listLists : NodeId → List NodeListInvalidationType :=
  fun _ => [.doNotInvalidateOnAttributeChanges]

/-- An item is asked for, the first item leaves, and the items are counted. -/
theorem live_queries_listPage :
    ∃ s, Steps (Guarded (LiveStep listItems 1) (LiveGuard listItems 1)) ⟨listPage, listLists, {}⟩
      [.query (.item 1), .call (.removeChild 1 (some 2)), .query .length] s ∧
      ((∃ cache, listItems.query s.page 1 s.cache (.item 0) =
        some (Query.answer (listItems.items s.page 1) (.item 0), cache)) ↔
        (Query.item 0).Supported s.cache) := by
  have hmany : (listItems.items listPage 1).length ≤ 2 ^ 31 := by
    rw [listItems_items]
    decide
  have hrest : ∀ {r : Result}, (Call.removeChild 1 (some 2)).exec 6 threeChildren = some r →
      (listItems.items ⟨r.heap, listPage.element⟩ 1).length ≤ 2 ^ 31 := by
    rintro r ⟨⟩
    exact (by decide : 2 ≤ 2 ^ 31)
  have hrun : Steps (Guarded (LiveStep listItems 1) (LiveGuard listItems 1))
      ⟨listPage, listLists, {}⟩
      [.query (.item 1), .call (.removeChild 1 (some 2)), .query .length] _ :=
    .cons ⟨⟨hmany, .inr (by decide)⟩, .query rfl⟩ <|
    .cons ⟨fun _ _ _ _ _ _ _ => rfl, .call ⟨by decide, by rintro d ⟨⟩; decide⟩ trivial trivial
      (by decide : _ < 6) rfl fun _ _ => rfl⟩ <|
    .cons ⟨⟨hrest rfl, .inr rfl⟩, .query rfl⟩ (.nil _)
  exact ⟨_, hrun, live_queries_iff (reachable_tree threeChildren_reachable)
    threeChildren_fragments hrun (hrest rfl) (.item 0)⟩

/-- **Items are counted twice.** Three items are counted, the first leaves and the collection is
invalidated; the next count puts the two that are left behind the three of the old list. -/
theorem length_counts_twice :
    Reachable listPage.heap ∧ ∃ s,
      Steps (LiveStep listItems 1) ⟨listPage, listLists, {}⟩
        [.query .length, .call (.removeChild 1 (some 2))] s ∧
      s.cache.isLengthCacheValid = false ∧ listItems.items s.page 1 = [3, 4] ∧
      ∃ cache, listItems.query s.page 1 s.cache .length = some (.length 5, cache) := by
  have hrun : Steps (LiveStep listItems 1) ⟨listPage, listLists, {}⟩
      [.query .length, .call (.removeChild 1 (some 2))] _ :=
    .cons (.query rfl) <|
    .cons (.call ⟨by decide, by rintro d ⟨⟩; decide⟩ trivial trivial (by decide : _ < 6) rfl
      fun _ _ => rfl) (.nil _)
  exact ⟨threeChildren_reachable, _, hrun, rfl, by decide, _, rfl⟩

end Blinkit.Dom
