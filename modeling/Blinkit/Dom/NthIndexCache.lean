import Blinkit.Lib.SampledIndex
import Blinkit.Lib.Transition
import Blinkit.Dom.ElementData
import Blinkit.Dom.HTMLCollection

/-!
# The cache of sibling places

Translation of `nth_index_cache.cc`.  A query counts the siblings of an element; when there are
many, the places of every third child of the parent, or of every third child of a type, are kept
for the next query.  A later query asks the map for its parent with `at`, which throws when the
map has no such entry.

* `uncachedNthIndex`, `uncachedNthOfTypeIndex` — the loops over the siblings.
* `NthIndexData`, `NthIndexCache` — the sample of a parent, and the two maps.
* `query` — the four functions; `none` is the exception of `at`, or a loop that does not end.
* `plainIndex` — the place of an element in the list of the children.

The elements of the crawler are created in the XHTML namespace and without a prefix. A pseudo
element does not exist in it. Places are numbers here and `unsigned` in the source, where those of
the cache and those of the loops wrap alike; with fewer than `2 ^ 32` siblings none does.

Principal results: `query_eq`, `nthIndexCache_iff`.
-/

set_option autoImplicit false

namespace Blinkit.Dom

open LinkedForest Transition Attributes

/-! ## Siblings -/

namespace ElementTraversal

/-- `NextSibling`. -/
def nextSibling (h : Heap) (current : NodeId) : Option (Option NodeId) :=
  seek h.isElementNode (fun n => some (h.nextSibling n)) h.bound (h.nextSibling current)

/-- `PreviousSibling`. -/
def previousSibling (h : Heap) (current : NodeId) : Option (Option NodeId) :=
  seek h.isElementNode (fun n => some (h.previousSibling n)) h.bound (h.previousSibling current)

/-- `FirstChild` with a predicate. -/
def firstChildMatch (h : Heap) (isMatch : NodeId → Bool) (current : NodeId) :
    Option (Option NodeId) :=
  (firstChild h current).bind (seek isMatch (nextSibling h) h.bound)

/-- `NextSibling` with a predicate. -/
def nextSiblingMatch (h : Heap) (isMatch : NodeId → Bool) (current : NodeId) :
    Option (Option NodeId) :=
  (nextSibling h current).bind (seek isMatch (nextSibling h) h.bound)

/-- `PreviousSibling` with a predicate. -/
def previousSiblingMatch (h : Heap) (isMatch : NodeId → Bool) (current : NodeId) :
    Option (Option NodeId) :=
  (previousSibling h current).bind (seek isMatch (previousSibling h) h.bound)

end ElementTraversal

/-! ## The source -/

/-- The elements: `CrawlerElement` gives its base class this name. -/
structure ElementNames where
  localName : NodeId → Attributes.Str

namespace ElementNames

def xhtmlNamespaceURI : Attributes.Str := "http://www.w3.org/1999/xhtml".toList

/-- `Element::TagQName`. -/
def tagQName (names : ElementNames) (n : NodeId) : QualifiedName :=
  ⟨none, names.localName n, some xhtmlNamespaceURI⟩

/-- `Element::tagName`. -/
def tagName (names : ElementNames) (n : NodeId) : Attributes.Str := (names.tagQName n).toStr

/-- `Element::HasTagName`, which compares with `QualifiedName::Matches`. -/
def hasTagName (names : ElementNames) (name : QualifiedName) (n : NodeId) : Bool :=
  (names.tagQName n).localName == name.localName &&
    (names.tagQName n).namespaceURI == name.namespaceURI

end ElementNames

section Source

variable (h : Heap) (names : ElementNames)

def kCachedSiblingCountLimit : Nat := 32

def kSpread : Nat := 3

/-- `UncachedNthChildIndex` with `PreviousSibling`, `UncachedNthLastChildIndex` with
`NextSibling`. -/
def uncachedNthIndex (sibling : NodeId → Option (Option NodeId)) (element : NodeId) : Option Nat :=
  (sibling element).bind fun first =>
    foldSteps sibling (fun index _ => index + 1) h.bound first 1

def uncachedNthChildIndex (element : NodeId) : Option Nat :=
  uncachedNthIndex h (ElementTraversal.previousSibling h) element

def uncachedNthLastChildIndex (element : NodeId) : Option Nat :=
  uncachedNthIndex h (ElementTraversal.nextSibling h) element

/-- `UncachedNthOfTypeIndex` with `PreviousSibling`, `UncachedNthLastOfTypeIndex` with
`NextSibling`: the index and the number of siblings. -/
def uncachedTypeIndex (sibling : NodeId → Option (Option NodeId)) (element : NodeId) :
    Option (Nat × Nat) :=
  let tag := names.tagQName element
  (sibling element).bind fun first =>
    foldSteps sibling
      (fun r n => (if names.tagQName n = tag then r.1 + 1 else r.1, r.2 + 1)) h.bound first (1, 0)

def uncachedNthOfTypeIndex (element : NodeId) : Option (Nat × Nat) :=
  uncachedTypeIndex h names (ElementTraversal.previousSibling h) element

def uncachedNthLastOfTypeIndex (element : NodeId) : Option (Nat × Nat) :=
  uncachedTypeIndex h names (ElementTraversal.nextSibling h) element

/-- `NthIndexData`: `element_index_map_` and `count_`. -/
abbrev NthIndexData := Sample NodeId

namespace NthIndexData

/-- The constructor for the children of a parent. -/
def ofParent (parent : NodeId) : Option NthIndexData :=
  (ElementTraversal.firstChild h parent).bind fun first =>
    foldSteps (ElementTraversal.nextSibling h) (Sample.record kSpread) h.bound first {}

/-- The constructor for the children of a type. -/
def ofType (parent : NodeId) (type : QualifiedName) : Option NthIndexData :=
  (ElementTraversal.firstChildMatch h (names.hasTagName type) parent).bind fun first =>
    foldSteps (ElementTraversal.nextSiblingMatch h (names.hasTagName type))
      (Sample.record kSpread) h.bound first {}

variable (data : NthIndexData) (element : NodeId)

/-- `NthIndex`. -/
def nthIndex : Option Nat :=
  lookBack data.index (ElementTraversal.previousSibling h) h.bound (some element) 0

/-- `NthOfTypeIndex`. -/
def nthOfTypeIndex : Option Nat :=
  lookBack data.index
    (ElementTraversal.previousSiblingMatch h (names.hasTagName (names.tagQName element)))
    h.bound (some element) 0

/-- `NthLastIndex`. -/
def nthLastIndex : Option Nat := (nthIndex h data element).map fun index => data.count - index + 1

/-- `NthLastOfTypeIndex`. -/
def nthLastOfTypeIndex : Option Nat :=
  (nthOfTypeIndex h names data element).map fun index => data.count - index + 1

end NthIndexData

/-- `NthIndexCache`: the maps are created when they are first needed. -/
structure NthIndexCache where
  parentMap : Option (NodeId → Option NthIndexData) := none
  parentMapForType : Option (NodeId → Option (Attributes.Str → Option NthIndexData)) := none

namespace NthIndexCache

variable (cache : NthIndexCache)

/-- The data of a parent, when there is a map: `at` throws when the parent is not in it. -/
def dataForParent (parent : NodeId) : Option (Option NthIndexData) :=
  match cache.parentMap with
  | none => some none
  | some map => (map parent).map some

/-- `NthTypeIndexDataForParent`. -/
def nthTypeIndexDataForParent (parent : NodeId) (tagName : Attributes.Str) :
    Option (Option NthIndexData) :=
  match cache.parentMapForType with
  | none => some none
  | some map => (map parent).bind fun byType => (byType tagName).map some

/-- `CacheNthIndexDataForParent`. -/
def cacheNthIndexDataForParent (parent : NodeId) : Option NthIndexCache :=
  (NthIndexData.ofParent h parent).map fun data =>
    { cache with
      parentMap := some (Function.update (cache.parentMap.getD fun _ => none) parent (some data)) }

/-- `CacheNthOfTypeIndexDataForParent`: `insert` keeps an entry that is there. -/
def cacheNthOfTypeIndexDataForParent (parent element : NodeId) : Option NthIndexCache :=
  (NthIndexData.ofType h names parent (names.tagQName element)).map fun data =>
    let map := cache.parentMapForType.getD fun _ => none
    let byType := (map parent).getD fun _ => none
    let tagName := names.tagName element
    { cache with
      parentMapForType := some (Function.update map parent
        (some (Function.update byType tagName ((byType tagName).or (some data))))) }

end NthIndexCache

/-- The four functions of the cache. -/
inductive NthQuery where
  | nthChild (element : NodeId)
  | nthLastChild (element : NodeId)
  | nthOfType (element : NodeId)
  | nthLastOfType (element : NodeId)
  deriving DecidableEq

def NthQuery.element : NthQuery → NodeId
  | .nthChild e => e
  | .nthLastChild e => e
  | .nthOfType e => e
  | .nthLastOfType e => e

/-- `NthChildIndex` and `NthLastChildIndex`, of an element with a parent; `d` is the document that
holds the cache. -/
def nthChildQuery (d : NodeId) (cache : NthIndexCache) (element : NodeId)
    (parent : NodeId) (cached : NthIndexData → Option Nat) (uncached : Option Nat) :
    Option (NthIndexCache × Nat) :=
  let hasCache := h.document element == d
  (if hasCache then cache.dataForParent parent else some none).bind fun data =>
    match data with
    | some data => (cached data).map fun index => (cache, index)
    | none =>
      uncached.bind fun index =>
        if hasCache ∧ index > kCachedSiblingCountLimit then
          (cache.cacheNthIndexDataForParent h parent).map fun cache => (cache, index)
        else some (cache, index)

/-- `NthOfTypeIndex` and `NthLastOfTypeIndex`, of an element with a parent. -/
def nthTypeQuery (d : NodeId) (cache : NthIndexCache) (element parent : NodeId)
    (cached : NthIndexData → Option Nat) (uncached : Option (Nat × Nat)) :
    Option (NthIndexCache × Nat) :=
  let hasCache := h.document element == d
  (if hasCache then cache.nthTypeIndexDataForParent parent (names.tagName element)
    else some none).bind fun data =>
    match data with
    | some data => (cached data).map fun index => (cache, index)
    | none =>
      uncached.bind fun r =>
        if hasCache ∧ r.2 > kCachedSiblingCountLimit then
          (cache.cacheNthOfTypeIndexDataForParent h names parent element).map
            fun cache => (cache, r.1)
        else some (cache, r.1)

/-- One call, and the cache behind it. An element without a parent is answered at once, but
`NthLastChildIndex` goes on, and asks the map for the null pointer. -/
def query (d : NodeId) (cache : NthIndexCache) (q : NthQuery) : Option (NthIndexCache × Nat) :=
  match q, h.parentNode q.element with
  | .nthLastChild e, none =>
    if h.document e = d ∧ cache.parentMap.isSome then none
    else (uncachedNthLastChildIndex h e).map fun index => (cache, index)
  | _, none => some (cache, 1)
  | .nthChild e, some parent => nthChildQuery h d cache e parent
      (fun data => data.nthIndex h e) (uncachedNthChildIndex h e)
  | .nthLastChild e, some parent => nthChildQuery h d cache e parent
      (fun data => data.nthLastIndex h e) (uncachedNthLastChildIndex h e)
  | .nthOfType e, some parent => nthTypeQuery h names d cache e parent
      (fun data => data.nthOfTypeIndex h names e) (uncachedNthOfTypeIndex h names e)
  | .nthLastOfType e, some parent => nthTypeQuery h names d cache e parent
      (fun data => data.nthLastOfTypeIndex h names e) (uncachedNthLastOfTypeIndex h names e)

end Source

/-! ## What the answers should be -/

section Plain

variable (h : Heap) (names : ElementNames)

/-- The elements among the children of a node. -/
def elementChildren (p : NodeId) : List NodeId :=
  ((h.childNodes h.bound p).getD []).filter h.isElementNode

def elementSiblings (e : NodeId) : List NodeId :=
  match h.parentNode e with
  | none => []
  | some p => elementChildren h p

/-- The siblings with the name of `e`. -/
def sameType (e : NodeId) (l : List NodeId) : List NodeId :=
  l.filter fun n => names.localName n = names.localName e

/-- The place of an element among its siblings, counted from 1. -/
def plainIndex : NthQuery → Nat
  | .nthChild e => ((elementSiblings h e).takeWhile (· ≠ e)).length + 1
  | .nthLastChild e => ((elementSiblings h e).reverse.takeWhile (· ≠ e)).length + 1
  | .nthOfType e => (sameType names e ((elementSiblings h e).takeWhile (· ≠ e))).length + 1
  | .nthLastOfType e =>
    (sameType names e ((elementSiblings h e).reverse.takeWhile (· ≠ e))).length + 1

/-- The call is about an element that has a parent. -/
def NthQuery.HasParent (q : NthQuery) : Prop :=
  h.isElementNode q.element = true ∧ ∃ p, h.parentNode q.element = some p

/-- The call returns the place of its element. -/
def NthQuery.Right (d : NodeId) (cache : NthIndexCache) (q : NthQuery) (cache' : NthIndexCache) :
    Prop := query h names d cache q = some (cache', plainIndex h names q)

/-- The map that the call reads has not been created, or it has the entry that the call needs. -/
def NthQuery.found (d : NodeId) (cache : NthIndexCache) (q : NthQuery) : Bool :=
  h.document q.element != d ||
    match h.parentNode q.element with
    | none => true
    | some p =>
      match q with
      | .nthChild _ => cache.parentMap.all fun map => (map p).isSome
      | .nthLastChild _ => cache.parentMap.all fun map => (map p).isSome
      | .nthOfType e => cache.parentMapForType.all fun map =>
          (map p).any fun byType => (byType (names.tagName e)).isSome
      | .nthLastOfType e => cache.parentMapForType.all fun map =>
          (map p).any fun byType => (byType (names.tagName e)).isSome

/-- The call is answered: `found`, but an element without a parent asks for the null pointer when
it is counted from the end. -/
def NthQuery.answered (d : NodeId) (cache : NthIndexCache) (q : NthQuery) : Bool :=
  match q, h.parentNode q.element with
  | .nthLastChild e, none => !(h.document e == d && cache.parentMap.isSome)
  | q, _ => q.found h names d cache

/-- The cache behind a call. -/
def NthQuery.next (d : NodeId) (cache : NthIndexCache) (q : NthQuery) : Option NthIndexCache :=
  (query h names d cache q).map (·.1)

end Plain

/-! ## The loops over the siblings -/

section Siblings

variable {h : Heap} {names : ElementNames} {ch : NodeId → List NodeId}

theorem elementChildren_eq (w : WellFormed h ch) (p : NodeId) :
    elementChildren h p = (ch p).filter h.isElementNode := by
  have hch : h.childNodes h.bound p = some (ch p) := w.childNodes_eq (Nat.lt_succ_self _) p
  unfold elementChildren
  rw [hch]
  rfl

theorem elementChildren_nodup (w : WellFormed h ch) (p : NodeId) :
    (elementChildren h p).Nodup := by
  rw [elementChildren_eq w]
  exact (w.represents.nodup p).filter _

theorem elementChildren_length (w : WellFormed h ch) (p : NodeId) :
    (elementChildren h p).length < h.bound := by
  rw [elementChildren_eq w]
  exact Nat.lt_succ_of_le ((List.length_filter_le _ _).trans (w.length_le p))

theorem mem_elementChildren (w : WellFormed h ch) {p e : NodeId}
    (he : h.isElementNode e = true) (hp : h.parentNode e = some p) : e ∈ elementChildren h p := by
  rw [elementChildren_eq w]
  exact List.mem_filter.mpr ⟨w.mem_iff.mpr hp, he⟩

theorem nextSibling_through (w : WellFormed h ch) (p : NodeId) :
    StepsThrough (ElementTraversal.nextSibling h) (elementChildren h p) := by
  rw [elementChildren_eq w]
  exact (nextSibling_stepsThrough w p).filter
    (fun k x hx _ => nextSibling_stepsThrough w p k x hx) (w.width p)

/-- `PreviousSibling` goes through the children from behind. -/
theorem previousSibling_stepsThrough (w : WellFormed h ch) (p : NodeId) :
    StepsThrough (fun n => some (h.previousSibling n)) (ch p).reverse := by
  intro k x hx
  obtain ⟨hk, hget⟩ := List.getElem?_eq_some_iff.mp hx
  have hrev : (ch p).reverse = (ch p).reverse.take k ++ x :: (ch p).reverse.drop (k + 1) := by
    rw [← hget, ← List.drop_eq_getElem_cons hk, List.take_append_drop]
  have hsplit := congrArg List.reverse hrev
  rw [List.reverse_reverse, List.reverse_append, List.reverse_cons, List.append_assoc,
    List.singleton_append] at hsplit
  show some (h.links.prev x) = _
  rw [w.represents.prev_eq hsplit, List.getLast?_reverse, List.head?_drop]

theorem previousSibling_through (w : WellFormed h ch) (p : NodeId) :
    StepsThrough (ElementTraversal.previousSibling h) (elementChildren h p).reverse := by
  rw [elementChildren_eq w, ← List.filter_reverse]
  refine (previousSibling_stepsThrough w p).filter
    (fun k x hx _ => previousSibling_stepsThrough w p k x hx) ?_
  rw [List.length_reverse]
  exact w.width p

theorem nextSiblingMatch_through (w : WellFormed h ch) (isMatch : NodeId → Bool) (p : NodeId) :
    StepsThrough (ElementTraversal.nextSiblingMatch h isMatch)
      ((elementChildren h p).filter isMatch) :=
  (nextSibling_through w p).filter (fun k x hx _ => nextSibling_through w p k x hx)
    (Nat.le_of_lt (elementChildren_length w p))

theorem previousSiblingMatch_through (w : WellFormed h ch) (isMatch : NodeId → Bool)
    (p : NodeId) : StepsThrough (ElementTraversal.previousSiblingMatch h isMatch)
      ((elementChildren h p).filter isMatch).reverse := by
  rw [← List.filter_reverse]
  refine (previousSibling_through w p).filter
    (fun k x hx _ => previousSibling_through w p k x hx) ?_
  rw [List.length_reverse]
  exact Nat.le_of_lt (elementChildren_length w p)

/-- A node without a parent has no sibling. -/
theorem siblings_detached (w : WellFormed h ch) {e : NodeId} (hp : h.parentNode e = none) :
    ElementTraversal.previousSibling h e = some none ∧
      ElementTraversal.nextSibling h e = some none := by
  obtain ⟨hprev, hnext⟩ := w.represents.detached e hp
  unfold ElementTraversal.previousSibling ElementTraversal.nextSibling Heap.previousSibling
    Heap.nextSibling
  rw [hprev, hnext]
  exact ⟨seek.eq_1 _ _ _, seek.eq_1 _ _ _⟩

theorem firstChild_elementChildren (w : WellFormed h ch) (p : NodeId) :
    ElementTraversal.firstChild h p = some (elementChildren h p).head? := by
  have hwidth := w.width p
  have hseek : seek h.isElementNode (fun n => some (h.nextSibling n)) h.bound (ch p)[0]? =
      some (((ch p).drop 0).find? h.isElementNode) :=
    seek_spec (fun k x hx _ => nextSibling_stepsThrough w p k x hx) (by omega)
  unfold ElementTraversal.firstChild
  rw [w.firstChild_eq, List.head?_eq_getElem?, hseek, List.drop_zero, elementChildren_eq w,
    List.head?_filter]

theorem firstChildMatch_elementChildren (w : WellFormed h ch) (isMatch : NodeId → Bool)
    (p : NodeId) : ElementTraversal.firstChildMatch h isMatch p =
      some ((elementChildren h p).filter isMatch).head? := by
  have hlength := elementChildren_length w p
  have hseek : seek isMatch (ElementTraversal.nextSibling h) h.bound (elementChildren h p)[0]? =
      some (((elementChildren h p).drop 0).find? isMatch) :=
    seek_spec (fun k x hx _ => nextSibling_through w p k x hx) (by omega)
  unfold ElementTraversal.firstChildMatch
  rw [firstChild_elementChildren w, Option.bind_some, List.head?_eq_getElem?, hseek,
    List.drop_zero, List.head?_filter]

/-! ## What they compute -/

theorem foldl_count (l : List NodeId) (n : Nat) :
    l.foldl (fun index _ => index + 1) n = n + l.length := by
  induction l generalizing n with
  | nil => rfl
  | cons x l ih =>
    rw [List.foldl_cons, ih, List.length_cons]
    omega

theorem foldl_typeCount (tag : QualifiedName) (l : List NodeId) (r : Nat × Nat) :
    l.foldl (fun r n => (if names.tagQName n = tag then r.1 + 1 else r.1, r.2 + 1)) r =
      (r.1 + (l.filter fun n => names.tagQName n = tag).length, r.2 + l.length) := by
  induction l generalizing r with
  | nil => rfl
  | cons x l ih =>
    rw [List.foldl_cons, ih, List.filter_cons, List.length_cons]
    by_cases hx : names.tagQName x = tag
    · simp [hx]
      omega
    · simp [hx]
      omega

theorem tagQName_inj {m n : NodeId} :
    names.tagQName m = names.tagQName n ↔ names.localName m = names.localName n := by
  unfold ElementNames.tagQName
  simp

theorem hasTagName_iff {m n : NodeId} :
    names.hasTagName (names.tagQName n) m = true ↔ names.localName m = names.localName n := by
  unfold ElementNames.hasTagName ElementNames.tagQName
  simp

theorem tagName_eq (n : NodeId) : names.tagName n = names.localName n := rfl

theorem sameType_eq (e : NodeId) (l : List NodeId) :
    (l.filter fun n => names.tagQName n = names.tagQName e) = sameType names e l := by
  apply List.filter_congr
  intro n _
  simp only [tagQName_inj]

theorem filter_hasTagName (e : NodeId) (l : List NodeId) :
    l.filter (names.hasTagName (names.tagQName e)) = sameType names e l := by
  apply List.filter_congr
  intro n _
  rw [Bool.eq_iff_iff, hasTagName_iff, decide_eq_true_eq]

/-- The loop of an uncached function counts the siblings that its steps lead to. -/
theorem uncachedNthIndex_eq {sibling : NodeId → Option (Option NodeId)} {l r : List NodeId}
    {e : NodeId} (hstep : StepsThrough sibling (l ++ e :: r)) (hr : r.length ≤ h.bound) :
    uncachedNthIndex h sibling e = some (r.length + 1) := by
  have hassoc : l ++ e :: r = (l ++ [e]) ++ r := by simp
  unfold uncachedNthIndex
  rw [hstep.step_eq, Option.bind_some]
  rw [hassoc] at hstep
  rw [foldSteps_spec _ hstep hr, foldl_count, Nat.add_comm]

theorem uncachedTypeIndex_eq {sibling : NodeId → Option (Option NodeId)} {l r : List NodeId}
    {e : NodeId} (hstep : StepsThrough sibling (l ++ e :: r)) (hr : r.length ≤ h.bound) :
    uncachedTypeIndex h names sibling e = some ((sameType names e r).length + 1, r.length) := by
  have hassoc : l ++ e :: r = (l ++ [e]) ++ r := by simp
  unfold uncachedTypeIndex
  dsimp only
  rw [hstep.step_eq, Option.bind_some]
  rw [hassoc] at hstep
  rw [foldSteps_spec _ hstep hr, foldl_typeCount, sameType_eq, Nat.add_comm 1, Nat.zero_add]

/-- The data of a parent are the sample of its children. -/
theorem ofParent_eq (w : WellFormed h ch) (p : NodeId) :
    ∃ data, NthIndexData.ofParent h p = some data ∧ data.Of kSpread (elementChildren h p) := by
  have hstep : StepsThrough (ElementTraversal.nextSibling h) ([] ++ elementChildren h p) :=
    nextSibling_through w p
  unfold NthIndexData.ofParent
  rw [firstChild_elementChildren w, Option.bind_some,
    foldSteps_spec _ hstep (Nat.le_of_lt (elementChildren_length w p))]
  exact ⟨_, rfl, record_spec kSpread (elementChildren_nodup w p)⟩

theorem ofType_eq (names : ElementNames) (w : WellFormed h ch) (p e : NodeId) :
    ∃ data, NthIndexData.ofType h names p (names.tagQName e) = some data ∧
      data.Of kSpread (sameType names e (elementChildren h p)) := by
  have hstep : StepsThrough
      (ElementTraversal.nextSiblingMatch h (names.hasTagName (names.tagQName e)))
      ([] ++ sameType names e (elementChildren h p)) := by
    rw [← filter_hasTagName]
    exact nextSiblingMatch_through w _ p
  have hlength : (sameType names e (elementChildren h p)).length ≤ h.bound :=
    (List.length_filter_le _ _).trans (Nat.le_of_lt (elementChildren_length w p))
  unfold NthIndexData.ofType
  rw [firstChildMatch_elementChildren w, Option.bind_some, filter_hasTagName,
    foldSteps_spec _ hstep hlength]
  exact ⟨_, rfl, record_spec kSpread ((elementChildren_nodup w p).filter _)⟩

variable {p e : NodeId} {l r : List NodeId} {data : NthIndexData}

/-- **The data of a parent give the place of a child.** -/
theorem nthIndex_eq (w : WellFormed h ch) (hsplit : elementChildren h p = l ++ e :: r)
    (hdata : data.Of kSpread (elementChildren h p)) :
    data.nthIndex h e = some (l.length + 1) := by
  have hlength := elementChildren_length w p
  rw [hsplit, List.length_append] at hlength
  exact lookBack_spec hdata hsplit (previousSibling_through w p) (by omega) 0

/-- **The data of a type give the place of a child among those of the type.** -/
theorem nthOfTypeIndex_eq (w : WellFormed h ch) (hsplit : elementChildren h p = l ++ e :: r)
    (hdata : data.Of kSpread (sameType names e (elementChildren h p))) :
    data.nthOfTypeIndex h names e = some ((sameType names e l).length + 1) := by
  have hlength := elementChildren_length w p
  rw [hsplit, List.length_append] at hlength
  have hle : (sameType names e l).length ≤ l.length := List.length_filter_le _ _
  have htype : sameType names e (elementChildren h p) =
      sameType names e l ++ e :: sameType names e r := by
    rw [hsplit]
    unfold sameType
    rw [List.filter_append, List.filter_cons_of_pos (by simp)]
  have hstep := previousSiblingMatch_through w (names.hasTagName (names.tagQName e)) p
  rw [filter_hasTagName] at hstep
  exact lookBack_spec hdata htype hstep (by omega) 0

end Siblings

/-! ## The cache -/

section Cache

variable {h : Heap} {names : ElementNames} {ch : NodeId → List NodeId} {d : NodeId}
  {cache : NthIndexCache} {p e : NodeId}

/-- Every entry is the sample of its parent, or of its parent and its type. -/
structure NthIndexCache.Sound (h : Heap) (names : ElementNames) (cache : NthIndexCache) : Prop where
  parents : ∀ map, cache.parentMap = some map → ∀ p data, map p = some data →
    data.Of kSpread (elementChildren h p)
  types : ∀ map, cache.parentMapForType = some map → ∀ p byType, map p = some byType →
    ∀ e data, byType (names.tagName e) = some data →
      data.Of kSpread (sameType names e (elementChildren h p))

theorem NthIndexCache.sound_empty : NthIndexCache.Sound h names {} where
  parents _ h := by cases h
  types _ h := by cases h

/-- A new entry for a parent. -/
theorem NthIndexCache.Sound.cacheParent (w : WellFormed h ch) (hs : cache.Sound h names)
    (p : NodeId) :
    ∃ cache', cache.cacheNthIndexDataForParent h p = some cache' ∧ cache'.Sound h names := by
  obtain ⟨data, hdata, hof⟩ := ofParent_eq w p
  unfold NthIndexCache.cacheNthIndexDataForParent
  rw [hdata]
  refine ⟨_, rfl, ?_, hs.types⟩
  intro map hmap q data' hq
  cases hmap
  rw [Function.update_apply] at hq
  split at hq
  · rename_i hqp
    cases hq
    rw [hqp]
    exact hof
  · cases hold : cache.parentMap with
    | none =>
      rw [hold] at hq
      cases hq
    | some map =>
      rw [hold] at hq
      exact hs.parents map hold q data' hq

/-- A new entry for a type, when there was no map. -/
theorem NthIndexCache.Sound.cacheType (w : WellFormed h ch) (hs : cache.Sound h names)
    (hnone : cache.parentMapForType = none) (p e : NodeId) :
    ∃ cache', cache.cacheNthOfTypeIndexDataForParent h names p e = some cache' ∧
      cache'.Sound h names := by
  obtain ⟨data, hdata, hof⟩ := ofType_eq names w p e
  unfold NthIndexCache.cacheNthOfTypeIndexDataForParent
  rw [hdata, hnone]
  refine ⟨_, rfl, hs.parents, ?_⟩
  intro map hmap q byType hq e' data' he'
  cases hmap
  rw [Function.update_apply] at hq
  split at hq
  · rename_i hqp
    cases hq
    rw [Function.update_apply] at he'
    split at he'
    · rename_i htag
      cases he'
      rw [tagName_eq, tagName_eq] at htag
      have hsame : sameType names e' = sameType names e := by
        unfold sameType
        rw [htag]
      rw [hqp, hsame]
      exact hof
    · cases he'
  · cases hq

/-- **A query for the place among the children.** It is answered when the map is absent or has the
parent. -/
theorem nthChildQuery_found (w : WellFormed h ch) (hs : cache.Sound h names) {index : Nat}
    {cached : NthIndexData → Option Nat} {uncached : Option Nat}
    (hcached : ∀ data : NthIndexData, data.Of kSpread (elementChildren h p) →
      cached data = some index)
    (huncached : uncached = some index)
    (hfound : (h.document e != d || cache.parentMap.all fun map => (map p).isSome) = true) :
    ∃ cache', nthChildQuery h d cache e p cached uncached = some (cache', index) ∧
      cache'.Sound h names := by
  have hmiss : ∃ cache', (uncached.bind fun index =>
      if (h.document e == d) = true ∧ index > kCachedSiblingCountLimit then
        (cache.cacheNthIndexDataForParent h p).map fun cache => (cache, index)
      else some (cache, index)) = some (cache', index) ∧ cache'.Sound h names := by
    rw [huncached, Option.bind_some]
    split
    · obtain ⟨cache', hcache', hsound⟩ := hs.cacheParent w p
      rw [hcache']
      exact ⟨cache', rfl, hsound⟩
    · exact ⟨cache, rfl, hs⟩
  unfold nthChildQuery
  dsimp only
  by_cases hdoc : h.document e = d
  · rw [if_pos (beq_iff_eq.mpr hdoc)]
    unfold NthIndexCache.dataForParent
    cases hmap : cache.parentMap with
    | none => exact hmiss
    | some map =>
      rw [hmap, hdoc] at hfound
      dsimp only
      cases hdata : map p with
      | none => simp [hdata] at hfound
      | some data =>
        rw [Option.map_some, Option.bind_some]
        dsimp only
        rw [hcached data (hs.parents map hmap p data hdata)]
        exact ⟨cache, rfl, hs⟩
  · rw [if_neg (fun hd => hdoc (beq_iff_eq.mp hd))]
    exact hmiss

/-- Otherwise `at` throws. -/
theorem nthChildQuery_missing {cached : NthIndexData → Option Nat} {uncached : Option Nat}
    (hmissing : (h.document e != d || cache.parentMap.all fun map => (map p).isSome) = false) :
    nthChildQuery h d cache e p cached uncached = none := by
  rw [Bool.or_eq_false_iff, bne_eq_false_iff_eq] at hmissing
  obtain ⟨hdoc, hmissing⟩ := hmissing
  obtain ⟨map, hmap, hnone⟩ : ∃ map, cache.parentMap = some map ∧ map p = none := by
    cases hmap : cache.parentMap with
    | none => simp [hmap] at hmissing
    | some map => exact ⟨map, rfl, by simpa [hmap] using hmissing⟩
  unfold nthChildQuery NthIndexCache.dataForParent
  dsimp only
  rw [if_pos (beq_iff_eq.mpr hdoc), hmap]
  dsimp only
  rw [hnone]
  rfl

/-- **A query for the place among the children of a type.** -/
theorem nthTypeQuery_found (w : WellFormed h ch) (hs : cache.Sound h names) {index count : Nat}
    {cached : NthIndexData → Option Nat} {uncached : Option (Nat × Nat)}
    (hcached : ∀ data : NthIndexData,
      data.Of kSpread (sameType names e (elementChildren h p)) → cached data = some index)
    (huncached : uncached = some (index, count))
    (hfound : (h.document e != d || cache.parentMapForType.all fun map =>
      (map p).any fun byType => (byType (names.tagName e)).isSome) = true) :
    ∃ cache', nthTypeQuery h names d cache e p cached uncached = some (cache', index) ∧
      cache'.Sound h names := by
  unfold nthTypeQuery
  dsimp only
  rw [huncached]
  by_cases hdoc : h.document e = d
  · rw [if_pos (beq_iff_eq.mpr hdoc)]
    unfold NthIndexCache.nthTypeIndexDataForParent
    cases hmap : cache.parentMapForType with
    | none =>
      dsimp only [Option.bind_some]
      split
      · obtain ⟨cache', hcache', hsound⟩ := hs.cacheType w hmap p e
        rw [hcache']
        exact ⟨cache', rfl, hsound⟩
      · exact ⟨cache, rfl, hs⟩
    | some map =>
      obtain ⟨byType, hbyType, hne⟩ : ∃ byType, map p = some byType ∧
          (byType (names.tagName e)).isSome = true := by
        rw [hmap, hdoc] at hfound
        cases hp : map p with
        | none => simp [hp] at hfound
        | some byType => exact ⟨byType, rfl, by simpa [hp] using hfound⟩
      obtain ⟨data, hdata⟩ := Option.isSome_iff_exists.mp hne
      dsimp only
      · rw [hbyType, Option.bind_some, hdata, Option.map_some, Option.bind_some]
        dsimp only
        rw [hcached data (hs.types map hmap p byType hbyType e data hdata)]
        exact ⟨cache, rfl, hs⟩
  · rw [if_neg (fun hd => hdoc (beq_iff_eq.mp hd)), Option.bind_some]
    dsimp only [Option.bind_some]
    rw [if_neg (fun hd => hdoc (beq_iff_eq.mp hd.1))]
    exact ⟨cache, rfl, hs⟩

theorem nthTypeQuery_missing {cached : NthIndexData → Option Nat} {uncached : Option (Nat × Nat)}
    (hmissing : (h.document e != d || cache.parentMapForType.all fun map =>
      (map p).any fun byType => (byType (names.tagName e)).isSome) = false) :
    nthTypeQuery h names d cache e p cached uncached = none := by
  rw [Bool.or_eq_false_iff, bne_eq_false_iff_eq] at hmissing
  obtain ⟨hdoc, hmissing⟩ := hmissing
  unfold nthTypeQuery NthIndexCache.nthTypeIndexDataForParent
  dsimp only
  rw [if_pos (beq_iff_eq.mpr hdoc)]
  cases hmap : cache.parentMapForType with
  | none => simp [hmap] at hmissing
  | some map =>
    dsimp only
    cases hp : map p with
    | none => rfl
    | some byType =>
      have hnone : byType (names.tagName e) = none := by simpa [hmap, hp] using hmissing
      rw [Option.bind_some, hnone]
      rfl

/-- The children of `p`, cut at the element `e`. -/
structure Around (h : Heap) (p e : NodeId) (l r : List NodeId) : Prop where
  parent : h.parentNode e = some p
  children : elementChildren h p = l ++ e :: r
  not_left : e ∉ l
  not_right : e ∉ r

theorem around (w : WellFormed h ch) (he : h.isElementNode e = true)
    (hp : h.parentNode e = some p) : ∃ l r, Around h p e l r := by
  obtain ⟨l, r, hsplit⟩ := List.append_of_mem (mem_elementChildren w he hp)
  have hnodup := elementChildren_nodup w p
  rw [hsplit] at hnodup
  have hmid := List.nodup_middle.mp hnodup
  rw [List.nodup_cons, List.mem_append, not_or] at hmid
  exact ⟨l, r, hp, hsplit, hmid.1.1, hmid.1.2⟩

namespace Around

variable {l r : List NodeId}

theorem siblings (a : Around h p e l r) : elementSiblings h e = l ++ e :: r := by
  unfold elementSiblings
  rw [a.parent]
  exact a.children

theorem reverse (l r : List NodeId) (e : NodeId) :
    (l ++ e :: r).reverse = r.reverse ++ e :: l.reverse := by
  rw [List.reverse_append, List.reverse_cons, List.append_assoc, List.singleton_append]

theorem before (a : Around h p e l r) :
    (elementSiblings h e).takeWhile (· ≠ e) = l := by
  rw [a.siblings]
  exact ChildLists.takeWhile_ne_append a.not_left

theorem behind (a : Around h p e l r) :
    (elementSiblings h e).reverse.takeWhile (· ≠ e) = r.reverse := by
  rw [a.siblings, reverse]
  exact ChildLists.takeWhile_ne_append fun hmem => a.not_right (List.mem_reverse.mp hmem)

theorem length (a : Around h p e l r) (w : WellFormed h ch) :
    l.length + 1 + r.length < h.bound := by
  have hlength := elementChildren_length w p
  rw [a.children, List.length_append, List.length_cons] at hlength
  omega

/-- The steps backwards go through what is before the element. -/
theorem previous (a : Around h p e l r) (w : WellFormed h ch) :
    StepsThrough (ElementTraversal.previousSibling h) (r.reverse ++ e :: l.reverse) := by
  rw [← reverse, ← a.children]
  exact previousSibling_through w p

theorem next (a : Around h p e l r) (w : WellFormed h ch) :
    StepsThrough (ElementTraversal.nextSibling h) (l ++ e :: r) := by
  rw [← a.children]
  exact nextSibling_through w p

theorem previous_bound (a : Around h p e l r) (w : WellFormed h ch) :
    l.reverse.length ≤ h.bound := by
  have hlength := a.length w
  rw [List.length_reverse]
  omega

end Around

theorem sameType_length_reverse (l : List NodeId) :
    (sameType names e l.reverse).length = (sameType names e l).length := by
  unfold sameType
  rw [List.filter_reverse, List.length_reverse]

/-- **One call.** When its map is absent or has its entry, it returns the place of the element. -/
theorem query_eq (w : WellFormed h ch) (hs : cache.Sound h names) {q : NthQuery}
    (hq : q.HasParent h) (hfound : q.found h names d cache = true) :
    ∃ cache', query h names d cache q = some (cache', plainIndex h names q) ∧
      cache'.Sound h names := by
  obtain ⟨he, p, hp⟩ := hq
  obtain ⟨l, r, a⟩ := around w he hp
  have hbound := a.length w
  unfold NthQuery.found at hfound
  unfold query
  rw [hp] at hfound ⊢
  unfold plainIndex
  cases q with
  | nthChild e =>
    dsimp only [NthQuery.element] at a hfound ⊢
    apply nthChildQuery_found w hs _ _ hfound
    · intro data hdata
      rw [a.before]
      exact nthIndex_eq w a.children hdata
    · rw [a.before, ← List.length_reverse]
      exact uncachedNthIndex_eq (a.previous w) (a.previous_bound w)
  | nthLastChild e =>
    dsimp only [NthQuery.element] at a hfound ⊢
    apply nthChildQuery_found w hs _ _ hfound
    · intro data hdata
      have hcount := hdata.count
      rw [a.children, List.length_append, List.length_cons] at hcount
      unfold NthIndexData.nthLastIndex
      rw [nthIndex_eq w a.children hdata, Option.map_some, a.behind, List.length_reverse]
      congr 1
      omega
    · rw [a.behind, List.length_reverse]
      exact uncachedNthIndex_eq (a.next w) (by omega)
  | nthOfType e =>
    dsimp only [NthQuery.element] at a hfound ⊢
    rw [a.before]
    refine nthTypeQuery_found w hs (fun data hdata => nthOfTypeIndex_eq w a.children hdata)
      (?_ : _ = some (_, l.reverse.length)) hfound
    rw [← sameType_length_reverse]
    exact uncachedTypeIndex_eq (a.previous w) (a.previous_bound w)
  | nthLastOfType e =>
    dsimp only [NthQuery.element] at a hfound ⊢
    rw [a.behind, sameType_length_reverse]
    refine nthTypeQuery_found w hs (fun data hdata => ?_)
      (uncachedTypeIndex_eq (a.next w) (by omega)) hfound
    have hcount := hdata.count
    have htype : sameType names e (l ++ e :: r) =
        sameType names e l ++ e :: sameType names e r := by
      unfold sameType
      rw [List.filter_append, List.filter_cons_of_pos (by simp)]
    rw [a.children, htype, List.length_append, List.length_cons] at hcount
    unfold NthIndexData.nthLastOfTypeIndex
    rw [nthOfTypeIndex_eq w a.children hdata, Option.map_some]
    congr 1
    omega

/-- Otherwise the call throws. -/
theorem query_missing {q : NthQuery} (hq : q.HasParent h)
    (hmissing : q.found h names d cache = false) : query h names d cache q = none := by
  obtain ⟨-, p, hp⟩ := hq
  unfold NthQuery.found at hmissing
  unfold query
  rw [hp] at hmissing ⊢
  cases q with
  | nthChild e => exact nthChildQuery_missing hmissing
  | nthLastChild e => exact nthChildQuery_missing hmissing
  | nthOfType e => exact nthTypeQuery_missing hmissing
  | nthLastOfType e => exact nthTypeQuery_missing hmissing

/-- **One call, also about an element without a parent**, which is the only one of its siblings. -/
theorem query_answered (w : WellFormed h ch) (hs : cache.Sound h names) {q : NthQuery}
    (he : h.isElementNode q.element = true) (hanswered : q.answered h names d cache = true) :
    ∃ cache', query h names d cache q = some (cache', plainIndex h names q) ∧
      cache'.Sound h names := by
  unfold NthQuery.answered at hanswered
  cases hp : h.parentNode q.element with
  | some p =>
    rw [hp] at hanswered
    exact query_eq w hs ⟨he, p, hp⟩ (by cases q <;> exact hanswered)
  | none =>
    have hsiblings : elementSiblings h q.element = [] := by
      unfold elementSiblings
      rw [hp]
    rw [hp] at hanswered
    unfold query plainIndex
    rw [hp]
    cases q with
    | nthLastChild e =>
      dsimp only [NthQuery.element] at hsiblings hanswered hp ⊢
      have hcall : ¬ (h.document e = d ∧ cache.parentMap.isSome = true) := by
        rintro ⟨hdoc, hmap⟩
        simp [hdoc, hmap] at hanswered
      have hone : foldSteps (ElementTraversal.nextSibling h) (fun index _ => index + 1) h.bound
          none 1 = some 1 := foldSteps.eq_1 _ _ _ _
      unfold uncachedNthLastChildIndex uncachedNthIndex
      rw [if_neg hcall, (siblings_detached w hp).2, Option.bind_some, hone, hsiblings]
      exact ⟨cache, rfl, hs⟩
    | _ =>
      dsimp only [NthQuery.element] at hsiblings ⊢
      rw [hsiblings]
      exact ⟨cache, rfl, hs⟩

theorem query_unanswered {q : NthQuery} (he : h.isElementNode q.element = true)
    (hanswered : q.answered h names d cache = false) : query h names d cache q = none := by
  unfold NthQuery.answered at hanswered
  cases hp : h.parentNode q.element with
  | some p =>
    rw [hp] at hanswered
    exact query_missing ⟨he, p, hp⟩ (by cases q <;> exact hanswered)
  | none =>
    rw [hp] at hanswered
    unfold query
    rw [hp]
    cases q with
    | nthLastChild e =>
      dsimp only at hanswered ⊢
      exact if_pos (by simpa using hanswered)
    | _ =>
      dsimp only [NthQuery.element] at hp
      unfold NthQuery.found at hanswered
      simp [NthQuery.element, hp] at hanswered

/-- **The cache agrees with plain counting.** In a tree that stays as it is, every call of a run
returns the place of its element exactly when every call finds its map absent or with the entry
that it needs. -/
theorem nthIndexCache_iff (w : WellFormed h ch) (d : NodeId) (qs : List NthQuery)
    (hqs : ∀ q ∈ qs, q.HasParent h) :
    Serves (NthQuery.next h names d) (NthQuery.Right h names d) {} qs ↔
      Allowed (machine (NthQuery.next h names d))
        (fun cache q => q.found h names d cache = true) {} qs := by
  refine serves_iff_allowed (I := NthIndexCache.Sound h names)
    (C := fun _ q => q.HasParent h) ?_ ?_ NthIndexCache.sound_empty
    (allowed_of_forall fun q hq _ => hqs q hq)
  · intro cache q cache' hs hq hfound hnext
    obtain ⟨cache'', hquery, hsound⟩ := query_eq (d := d) w hs hq hfound
    unfold NthQuery.next at hnext
    rw [hquery] at hnext
    cases hnext
    exact hsound
  · intro cache q hs hq
    constructor
    · rintro ⟨cache', hnext, -⟩
      by_contra hnot
      unfold NthQuery.next at hnext
      rw [query_missing hq (Bool.not_eq_true _ ▸ hnot)] at hnext
      cases hnext
    · intro hfound
      obtain ⟨cache', hquery, -⟩ := query_eq (d := d) w hs hq hfound
      refine ⟨cache', ?_, hquery⟩
      unfold NthQuery.next
      rw [hquery]
      rfl

end Cache

/-! ## Many children -/

/-- The document `0` has the element `1`, with the children `2` to `34`. -/
def manyChildren : Heap where
  size := 35
  nodeType n := if n = 0 then .document else .element
  nodeName n := if n = 0 then "#document" else "LI"
  document _ := 0
  isConnected n := decide (n < 35)
  links :=
    { parent := fun n => if n = 1 then some 0 else if 2 ≤ n ∧ n < 35 then some 1 else none
      prev := fun n => if 3 ≤ n ∧ n < 35 then some (n - 1) else none
      next := fun n => if 2 ≤ n ∧ n < 34 then some (n + 1) else none
      first := fun n => if n = 0 then some 1 else if n = 1 then some 2 else none
      last := fun n => if n = 0 then some 1 else if n = 1 then some 34 else none }
  domTreeVersion _ := 0
  globalTreeVersion := 0
  contextObject _ := false
  contextRetained _ := false
  inGCPool _ := false
  gcObjects := []
  freed := []

def manyLists (n : NodeId) : List NodeId :=
  if n = 0 then [1] else if n = 1 then List.range' 2 33 else []

def manyNames : ElementNames := ⟨fun _ => "li".toList⟩

theorem manyChildren_parent_iff (x y : Nat) : manyChildren.links.parent x = some y ↔
    (x = 1 ∧ y = 0) ∨ (2 ≤ x ∧ x < 35 ∧ y = 1) := by
  have hparent : manyChildren.links.parent x =
      if x = 1 then some 0 else if 2 ≤ x ∧ x < 35 then some 1 else none := rfl
  rw [hparent]
  split
  · rw [Option.some_inj]
    show (0 : Nat) = y ↔ _
    omega
  · split
    · rw [Option.some_inj]
      show (1 : Nat) = y ↔ _
      omega
    · simp only [reduceCtorEq, false_iff]
      omega

theorem manyChildren_parent {x y : Nat} (hp : manyChildren.links.parent x = some y) :
    y < x ∧ x < 35 ∧ (y = 0 ∨ y = 1) := by
  have hcases := (manyChildren_parent_iff x y).mp hp
  omega

theorem mem_manyLists (p c : Nat) :
    c ∈ manyLists p ↔ (c = 1 ∧ p = 0) ∨ (2 ≤ c ∧ c < 35 ∧ p = 1) := by
  have hlists : manyLists p = if p = 0 then [1] else if p = 1 then List.range' 2 33 else [] := rfl
  rw [hlists]
  split
  · rw [List.mem_singleton]
    omega
  · split
    · rw [List.mem_range'_1]
      omega
    · simp only [List.not_mem_nil, false_iff]
      omega

theorem manyChildren_segment :
    Segment manyChildren.links.prev manyChildren.links.next none (List.range' 2 33) none := by
  have hchain : ∀ k n : Nat, 2 ≤ n → n + k = 35 →
      Segment manyChildren.links.prev manyChildren.links.next
        (if n = 2 then none else some (n - 1)) (List.range' n k) none := by
    intro k
    induction k with
    | zero => exact fun _ _ _ => trivial
    | succ k ih =>
      intro n hn hsum
      have hprev : manyChildren.links.prev n = if 3 ≤ n ∧ n < 35 then some (n - 1) else none := rfl
      have hnext : manyChildren.links.next n = if 2 ≤ n ∧ n < 34 then some (n + 1) else none := rfl
      refine ⟨?_, ?_, ?_⟩
      · rw [hprev]
        split
        · rw [if_neg (by omega)]
        · rw [if_pos (by omega)]
      · rw [hnext]
        cases k with
        | zero => rw [if_neg (by omega)]; rfl
        | succ k => rw [if_pos (by omega)]; rfl
      · have hrest := ih (n + 1) (by omega) (by omega)
        rw [if_neg (by omega)] at hrest
        exact hrest
  exact hchain 33 2 (Nat.le_refl _) rfl

theorem manyChildren_represents : Represents manyChildren.links manyLists where
  mem_iff p c := (mem_manyLists p c).trans (manyChildren_parent_iff c p).symm
  nodup p := by
    unfold manyLists
    split
    · decide
    · split
      · exact List.nodup_range'
      · exact List.nodup_nil
  first_eq p := by
    unfold manyLists
    simp only [manyChildren]
    split
    · rfl
    · split <;> rfl
  last_eq p := by
    unfold manyLists
    simp only [manyChildren]
    split
    · rfl
    · split <;> rfl
  segment p := by
    unfold manyLists
    split
    · exact ⟨rfl, rfl, trivial⟩
    · split
      · exact manyChildren_segment
      · trivial
  detached := by
    intro (c : Nat) hc
    have hout : ¬ (2 ≤ c ∧ c < 35) := fun hin => by
      rw [(manyChildren_parent_iff c 1).mpr (.inr ⟨hin.1, hin.2, rfl⟩)] at hc
      cases hc
    have hprev : manyChildren.links.prev c = if 3 ≤ c ∧ c < 35 then some (c - 1) else none := rfl
    have hnext : manyChildren.links.next c = if 2 ≤ c ∧ c < 34 then some (c + 1) else none := rfl
    rw [hprev, hnext]
    exact ⟨if_neg (by omega), if_neg (by omega)⟩

theorem manyChildren_wellFormed : WellFormed manyChildren manyLists where
  represents := manyChildren_represents
  acyclic := by
    have hdown : ∀ {x y : Nat}, Above manyChildren.links.parent x y → y ≤ x := by
      intro x y habove
      induction habove with
      | refl => exact Nat.le_refl _
      | tail _ hstep ih => exact (manyChildren_parent hstep).1.le.trans ih
    intro (x : Nat) (y : Nat) hp habove
    have hlt := (manyChildren_parent hp).1
    have hle := hdown habove
    omega
  allocated x y hp := by
    obtain ⟨hlt, hx, -⟩ := manyChildren_parent hp
    exact ⟨hx, hlt.trans hx⟩
  container x y hp := by
    obtain ⟨-, -, rfl | rfl⟩ := manyChildren_parent hp
    · rfl
    · rfl
  document_type := by
    intro (n : Nat) _
    show (if n = 0 then NodeType.document else .element) = .document ↔ (0 : Nat) = n
    split
    · rename_i hn
      exact iff_of_true rfl hn.symm
    · rename_i hn
      exact iff_of_false (by decide) fun h => hn h.symm
  document_root n hn := by
    have hzero : n = 0 := hn.symm
    rw [hzero]
    rfl
  connected_child x y hp := by
    obtain ⟨hlt, hx, -⟩ := manyChildren_parent hp
    simp only [manyChildren]
    rw [decide_eq_true hx, decide_eq_true (hlt.trans hx)]
  connected_root := by
    intro (n : Nat) (hn : n < 35) hp
    have hzero : n = 0 := by
      by_contra hne
      by_cases hone : n = 1
      · rw [(manyChildren_parent_iff n 0).mpr (.inl ⟨hone, rfl⟩)] at hp
        cases hp
      · rw [(manyChildren_parent_iff n 1).mpr (.inr ⟨by omega, hn, rfl⟩)] at hp
        cases hp
    subst hzero
    exact ⟨fun _ => rfl, fun _ => rfl⟩

/-- From both ends. -/
theorem nthIndexCache_manyChildren :
    Serves (NthQuery.next manyChildren manyNames 0) (NthQuery.Right manyChildren manyNames 0) {}
        [.nthChild 34, .nthLastChild 4, .nthOfType 34, .nthLastOfType 34] ↔
      Allowed (machine (NthQuery.next manyChildren manyNames 0))
        (fun cache q => q.found manyChildren manyNames 0 cache = true) {}
        [.nthChild 34, .nthLastChild 4, .nthOfType 34, .nthLastOfType 34] :=
  nthIndexCache_iff manyChildren_wellFormed 0 _ (by
    intro q hq
    simp only [List.mem_cons, List.not_mem_nil, or_false] at hq
    rcases hq with rfl | rfl | rfl | rfl <;> exact ⟨rfl, 1, rfl⟩)

/-- The place of the last child creates the map. Then the place of their parent is asked for, whose
own parent is not in it. -/
theorem nthChild_throws :
    WellFormed manyChildren manyLists ∧
      (∀ q ∈ [NthQuery.nthChild 34, NthQuery.nthChild 1], q.HasParent manyChildren) ∧
      ¬ Serves (NthQuery.next manyChildren manyNames 0) (NthQuery.Right manyChildren manyNames 0) {}
        [.nthChild 34, .nthChild 1] := by
  refine ⟨manyChildren_wellFormed, ?_, ?_⟩
  · intro q hq
    simp only [List.mem_cons, List.not_mem_nil, or_false] at hq
    rcases hq with rfl | rfl
    · exact ⟨rfl, 1, rfl⟩
    · exact ⟨rfl, 0, rfl⟩
  · have hnone : ((NthQuery.next manyChildren manyNames 0 {} (.nthChild 34)).bind fun cache =>
        NthQuery.next manyChildren manyNames 0 cache (.nthChild 1)).isNone = true := by
      decide +kernel
    rintro ⟨cache, hfirst, -, cache', hsecond, -, -⟩
    rw [hfirst, Option.bind_some, hsecond] at hnone
    cases hnone

end Blinkit.Dom
