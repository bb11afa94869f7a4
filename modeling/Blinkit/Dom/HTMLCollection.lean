import Blinkit.Dom.CollectionItemsCache
import Blinkit.Dom.DocumentChildren
import Blinkit.Dom.ElementTraversal

/-!
# Live collections of elements

Translation of `html_collection.cpp`, `html_tag_collection.h`, `tag_collection.cc` and
`class_collection.h`.

* `ElementInfo` — what the collections read of an element; `Page` — a heap with it.
* `HTMLCollection` — the collections by tag name and by class name, with their `elementMatches`.
* `HTMLCollection.items` — the matching descendants of the root in document order.
* `HTMLCollection.collection` — the traversals. `TraverseToLast` and `TraverseBackwardToOffset` are
  stubs that assert and return null; `CanTraverseBackward` says yes all the same.

Principal result: `queries_right_iff` — a sequence of queries on a tree that does not change is
answered right, from the first to the last, exactly when no query comes to the stubs.
-/

set_option autoImplicit false

namespace Blinkit.Dom

open LinkedForest Transition

/-- What the collections read of an element: `TagQName`, `IsHTMLElement`, and `ClassNames`, which is
null when the element has no class. -/
structure ElementInfo where
  tagQName : String
  isHTMLElement : Bool
  classNames : Option (List String)

structure Page where
  heap : Heap
  element : NodeId → ElementInfo

/-- The types of collections, with the data of their classes. -/
inductive HTMLCollection where
  | tagCollection (qualifiedName : String)
  | htmlTagCollection (qualifiedName loweredQualifiedName : String)
  | classCollection (classNames : List String)

namespace HTMLCollection

/-- `LowerASCII`. -/
def lowerASCII (s : String) : String := s.map Char.toLower

/-- The constructor of `HTMLTagCollection`. -/
def ofTagName (qualifiedName : String) : HTMLCollection :=
  .htmlTagCollection qualifiedName (lowerASCII qualifiedName)

/-- `SpaceSplitString::ContainsAll`. -/
def containsAll (classNames names : List String) : Bool := names.all classNames.contains

/-- `ElementMatches`. -/
def elementMatches (e : ElementInfo) : HTMLCollection → Bool
  | tagCollection qualifiedName => qualifiedName == "*" || qualifiedName == e.tagQName
  | htmlTagCollection qualifiedName loweredQualifiedName =>
    if qualifiedName == "*" then true
    else if e.isHTMLElement then loweredQualifiedName == e.tagQName
    else qualifiedName == e.tagQName
  | classCollection classNames =>
    match e.classNames with
    | none => false
    | some names => if classNames.length = 0 then false else containsAll names classNames

variable (c : HTMLCollection) (p : Page) (root : NodeId)

def isMatch (n : NodeId) : Bool := c.elementMatches (p.element n)

/-- The traversals of the collection below `root`. -/
def collection : Collection NodeId where
  canTraverseBackward := true
  traverseToFirst := ElementTraversal.firstWithinMatch p.heap (c.isMatch p) root
  traverseToLast := some none
  traverseForwardToOffset offset current currentOffset := do
    traverseToOffset (ElementTraversal.nextMatch p.heap (c.isMatch p) root)
      (fun k => (k + 1) % 2 ^ 32) offset p.heap.bound (← current) currentOffset
  traverseBackwardToOffset _ _ currentOffset := some (none, currentOffset)

/-- **What the collection stands for**: the matching descendants in document order. -/
def items : List NodeId := (elementsBelow p.heap root).filter (c.isMatch p)

def query (s : CollectionItemsCache NodeId) (q : Query) :
    Option (Answer NodeId × CollectionItemsCache NodeId) :=
  s.query (c.collection p root) p.heap.bound q

end HTMLCollection

section Traversals

variable {c : HTMLCollection} {p : Page} {root : NodeId} {ch : NodeId → List NodeId}

theorem HTMLCollection.items_length (w : WellFormed p.heap ch) (c : HTMLCollection)
    (root : NodeId) : (c.items p root).length ≤ p.heap.bound :=
  (List.length_filter_le _ _).trans ((elementsBelow_length w root).trans (Nat.le_succ _))

/-- Forward the collection is walked in document order. -/
theorem HTMLCollection.servesForward (w : WellFormed p.heap ch) (f : FragmentsAreRoots p.heap)
    (hfew : (c.items p root).length ≤ 2 ^ 31) :
    ServesForward (c.collection p root) (c.items p root) where
  first := firstWithinMatch_eq w f (c.isMatch p) root
  forward i j x hx hij := by
    have hlen := HTMLCollection.items_length w c root
    exact traverseToOffset_forward (nextMatch_stepsThrough w f (c.isMatch p) root)
      (hfew.trans (by decide)) hx hij (hlen.trans (Nat.le_add_left _ _))

theorem HTMLCollection.stubbedBackward : StubbedBackward (c.collection p root) :=
  ⟨rfl, rfl, fun _ _ _ => rfl⟩

end Traversals

/-! ## Queries on a tree that stays as it is -/

/-- The query does not come to the traversals from behind. -/
def Query.FromFront (s : CollectionItemsCache NodeId) : Query → Prop
  | length => True
  | item offset => s.listValid = true ∨ ¬ s.GoesBackward offset.toNat

theorem Query.supported_iff_fromFront {s : CollectionItemsCache NodeId} {q : Query}
    (h : Query.length.Supported s) : q.Supported s ↔ q.FromFront s := by
  cases q with
  | length => exact ⟨fun _ => trivial, fun _ => h⟩
  | item offset => exact Iff.rfl

/-- The state after a query. -/
def HTMLCollection.next (c : HTMLCollection) (p : Page) (root : NodeId)
    (s : CollectionItemsCache NodeId) (q : Query) : Option (CollectionItemsCache NodeId) :=
  (c.query p root s q).map (·.2)

/-- The query is answered as the matching descendants say. -/
def HTMLCollection.Right (c : HTMLCollection) (p : Page) (root : NodeId)
    (s : CollectionItemsCache NodeId) (q : Query) (s' : CollectionItemsCache NodeId) : Prop :=
  c.query p root s q = some (q.answer (c.items p root), s')

section Queries

variable {c : HTMLCollection} {p : Page} {root : NodeId} {ch : NodeId → List NodeId}

/-- One query. -/
theorem HTMLCollection.right_iff (w : WellFormed p.heap ch) (f : FragmentsAreRoots p.heap)
    (hfew : (c.items p root).length ≤ 2 ^ 31) {s : CollectionItemsCache NodeId}
    (h : s.Truthful (c.items p root)) (q : Query) :
    (∃ s', c.next p root s q = some s' ∧ c.Right p root s q s') ↔ q.Supported s := by
  rw [← CollectionItemsCache.query_iff (servesForward w f hfew) stubbedBackward hfew
    (items_length w c root) h q]
  refine exists_congr fun s' => ⟨fun hs => hs.2, fun hs => ⟨?_, hs⟩⟩
  show (s.query (c.collection p root) p.heap.bound q).map (·.2) = some s'
  rw [hs]
  rfl

/-- **On a tree that stays as it is the queries are answered right, from the first to the last,
exactly when none comes to the traversals from behind.** -/
theorem HTMLCollection.queries_right_iff (w : WellFormed p.heap ch) (f : FragmentsAreRoots p.heap)
    (hfew : (c.items p root).length ≤ 2 ^ 31) (qs : List Query) :
    Serves (c.next p root) (c.Right p root) {} qs ↔
      Allowed (machine (c.next p root)) (fun s q => q.FromFront s) {} qs := by
  refine serves_iff_allowed (C := fun _ _ => True)
    (I := fun s => s.Truthful (c.items p root) ∧ Query.length.Supported s) ?_ ?_ ?_ ?_
  · rintro s q s' ⟨h, hcount⟩ - hq hnext
    obtain ⟨t, ht, h', hcount'⟩ := CollectionItemsCache.query_spec (servesForward w f hfew) hfew
      (items_length w c root) h ((Query.supported_iff_fromFront hcount).mpr hq)
    have hsame : c.next p root s q = some t := by
      show (s.query (c.collection p root) p.heap.bound q).map (·.2) = some t
      rw [ht]
      rfl
    obtain rfl := Option.some.inj (hsame.symm.trans hnext)
    exact ⟨h', hcount' hcount⟩
  · rintro s q ⟨h, hcount⟩ -
    rw [right_iff w f hfew h, Query.supported_iff_fromFront hcount]
  · exact ⟨CollectionItemsCache.truthful_fresh _, .inr rfl⟩
  · exact allowed_of_forall fun _ _ _ => trivial

end Queries

/-! ## Three elements -/

/-- The element `1` of the document `0` with the children `2`, `3` and `4`. -/
def threeChildren : Heap :=
  let h := (Heap.initial.createDocument.createNode .element "UL" 0).createNode .element "LI" 0
  let h := (h.createNode .element "LI" 0).createNode .element "LI" 0
  match [2, 3, 4].foldlM (fun h n => ((Call.appendChild 1 n).exec 6 h).map (·.heap)) h with
  | some h => h
  | none => h

def listPage : Page where
  heap := threeChildren
  element n := ⟨if n = 1 then "ul" else "li", true, none⟩

theorem threeChildren_reachable : Reachable threeChildren :=
  ⟨[.createDocument, .createNode .element "UL" 0, .createNode .element "LI" 0,
      .createNode .element "LI" 0, .createNode .element "LI" 0, .appendChild 1 2, .appendChild 1 3,
      .appendChild 1 4],
    .cons ⟨⟨trivial, trivial⟩, 6, _, by decide, rfl, rfl⟩ <|
    .cons ⟨⟨⟨by decide, by decide⟩, trivial⟩, 6, _, by decide, rfl, rfl⟩ <|
    .cons ⟨⟨⟨by decide, by decide⟩, trivial⟩, 6, _, by decide, rfl, rfl⟩ <|
    .cons ⟨⟨⟨by decide, by decide⟩, trivial⟩, 6, _, by decide, rfl, rfl⟩ <|
    .cons ⟨⟨⟨by decide, by decide⟩, trivial⟩, 6, _, by decide, rfl, rfl⟩ <|
    .cons ⟨⟨⟨by decide, by decide⟩, trivial⟩, 6, _, by decide, rfl, rfl⟩ <|
    .cons ⟨⟨⟨by decide, by decide⟩, trivial⟩, 6, _, by decide, rfl, rfl⟩ <|
    .cons ⟨⟨⟨by decide, by decide⟩, trivial⟩, 6, _, by decide, rfl, rfl⟩ (.nil _)⟩

/-- Nothing in it is a fragment. -/
theorem threeChildren_fragments : FragmentsAreRoots threeChildren := by
  obtain ⟨⟨ch, w⟩, -⟩ := reachable_tree threeChildren_reachable
  intro x hx
  rcases Nat.lt_or_ge x 5 with hlt | hge
  · have hall : ∀ x, x < 5 → threeChildren.isDocumentFragment x = false := by decide
    rw [hall x hlt] at hx
    cases hx
  · exact w.parent_unallocated hge

/-- The collection `getElementsByTagName("li")` returns. -/
def listItems : HTMLCollection := .htmlTagCollection "li" "li"

theorem listItems_items : listItems.items listPage 1 = [2, 3, 4] := by decide

/-- Forward the queries are answered. -/
theorem items_in_order : Serves (listItems.next listPage 1) (listItems.Right listPage 1) {}
    [.item 0, .item 2, .length, .item 1] := by
  obtain ⟨⟨ch, w⟩, -⟩ := reachable_tree threeChildren_reachable
  refine (HTMLCollection.queries_right_iff w threeChildren_fragments ?_ _).mpr
    ⟨.inr ?_, .inr ?_, trivial, .inl rfl, trivial⟩
  · rw [listItems_items]
    decide
  · decide
  · decide

/-- **Backward they are not**: behind `item(2)`, `item(1)` is null. -/
theorem item_before_cached_is_null :
    Reachable listPage.heap ∧ listItems.items listPage 1 = [2, 3, 4] ∧
      ¬ Serves (listItems.next listPage 1) (listItems.Right listPage 1) {} [.item 2, .item 1] ∧
      ∃ s s', listItems.query listPage 1 {} (.item 2) = some (.item (some 4), s) ∧
        listItems.query listPage 1 s (.item 1) = some (.item none, s') := by
  refine ⟨threeChildren_reachable, listItems_items, ?_, _, _, rfl, rfl⟩
  rintro ⟨s, hs, -, t, -, hright, -⟩
  cases hs
  have hitem := Answer.item.inj (congrArg Prod.fst (Option.some.inj hright))
  rw [listItems_items] at hitem
  exact absurd hitem (by decide)

end Blinkit.Dom
