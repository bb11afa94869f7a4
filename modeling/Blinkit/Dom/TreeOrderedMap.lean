import Blinkit.Dom.Connectedness
import Blinkit.Dom.ElementData
import Blinkit.Dom.ElementTraversal

/-!
# The map from ids to elements

* `ElementTraversal.nextInTree` — `Next` without `stay_within`, the step of `StartsAfter`.
* `TreeOrderedMap` — `m_elementsById`: for an id, one element or none, and how often the id was
  added. `orderedList` is cleared and never filled, so it is left out.
* `TreeScope.getElementById`, `ContainerNode.getElementById` — the two lookups, with the map they
  leave: a lookup may remember the element it has found.
* `Remembers o xs` — the entry `o` of an id fits the list `xs` of the elements that have it.

Principal results: `Remembers.addAll` (what the elements of an inserted subtree do to an entry),
`treeScope_getElementById` and `containerNode_getElementById`: a lookup in a map whose entries fit
finds the first element, and leaves entries that fit.
-/

set_option autoImplicit false

namespace Blinkit.Dom

open LinkedForest Function Attributes

/-! ## The traversal of a whole tree -/

namespace NodeTraversal

def nextSkippingChildrenInTree (h : Heap) (current : NodeId) : Option (Option NodeId) :=
  LinkedForest.nextSkippingChildrenInTree h.nextSibling h.parentNode h.bound current

def nextInTree (h : Heap) (current : NodeId) : Option (Option NodeId) :=
  LinkedForest.nextInTree h.firstChild h.nextSibling h.parentNode h.bound current

end NodeTraversal

/-- `ElementTraversal::Next`, without `stay_within`. -/
def ElementTraversal.nextInTree (h : Heap) (current : NodeId) : Option (Option NodeId) := do
  seek h.isElementNode (NodeTraversal.nextSkippingChildrenInTree h) h.bound
    (← NodeTraversal.nextInTree h current)

/-! ## The map -/

structure MapEntry where
  element : Option NodeId
  count : UInt32 := 1

/-- `MapEntry(element)` for a new key; a second element drops the one that was remembered. -/
def MapEntry.add : Option MapEntry → NodeId → MapEntry
  | none, element => { element := some element }
  | some entry, _ => { element := none, count := entry.count + 1 }

abbrev TreeOrderedMap := Str → Option MapEntry

namespace TreeOrderedMap

def empty : TreeOrderedMap := fun _ => none

def add (m : TreeOrderedMap) (key : Str) (element : NodeId) : TreeOrderedMap :=
  update m key (some (MapEntry.add (m key) element))

/-- `Get`: the remembered element, or the first one behind the root that matches. -/
def get (m : TreeOrderedMap) (h : Heap) (root : NodeId) (matcher : Str → NodeId → Bool)
    (key : Str) : Option (Option NodeId × TreeOrderedMap) :=
  match m key with
  | none => some (none, m)
  | some entry =>
    match entry.element with
    | some element => some (some element, m)
    | none => do
      match ← seek (matcher key) (ElementTraversal.nextInTree h) h.bound
          (← ElementTraversal.nextInTree h root) with
      | none => return (none, m)
      | some element => return (some element, update m key (some { entry with element }))

end TreeOrderedMap

section Lookup

-- what `GetIdAttribute` answers; no id is `none`
variable (getIdAttribute : NodeId → Option Str)

def TreeOrderedMap.getElementById (m : TreeOrderedMap) (h : Heap) (root : NodeId) (key : Str) :
    Option (Option NodeId × TreeOrderedMap) :=
  m.get h root (fun key element => getIdAttribute element == some key) key

namespace TreeScope

/-- `AddElementById`, which creates the map at the first id. -/
def addElementById (elementsById : Option TreeOrderedMap) (elementId : Str) (element : NodeId) :
    Option TreeOrderedMap :=
  some ((elementsById.getD .empty).add elementId element)

def getElementById (elementsById : Option TreeOrderedMap) (h : Heap) (root : NodeId)
    (elementId : Str) : Option (Option NodeId × Option TreeOrderedMap) :=
  if elementId.isEmpty then some (none, elementsById)
  else
    match elementsById with
    | none => some (none, none)
    | some m => do
      let (element, m) ← m.getElementById getIdAttribute h root elementId
      return (element, some m)

end TreeScope

namespace ContainerNode

/-- The loop of `GetElementById` over the elements below the node. -/
def seekElementById (h : Heap) (n : NodeId) (id : Str) : Option (Option NodeId) := do
  seek (fun element => getIdAttribute element == some id) (ElementTraversal.next h n) h.bound
    (← ElementTraversal.firstWithin h n)

/-- `GetElementById`: the map of the scope answers, unless its element lies elsewhere. -/
def getElementById (elementsById : Option TreeOrderedMap) (h : Heap) (n : NodeId) (id : Str) :
    Option (Option NodeId × Option TreeOrderedMap) := do
  if h.isConnected n then
    match ← TreeScope.getElementById getIdAttribute elementsById h (h.document n) id with
    | (none, elementsById) => return (none, elementsById)
    | (some element, elementsById) =>
      if ← h.isDescendantOf h.bound element n then return (some element, elementsById)
      else return (← seekElementById getIdAttribute h n id, elementsById)
  else return (← seekElementById getIdAttribute h n id, elementsById)

end ContainerNode

/-- The elements below a node that have the id, in document order. -/
def elementsWithId (h : Heap) (root : NodeId) (id : Str) : List NodeId :=
  (elementsBelow h root).filter fun element => getIdAttribute element == some id

end Lookup

/-! ## Entries that fit -/

/-- The entry of an id fits the elements that have it: there is one when there are some, and what
it remembers is the first. -/
structure Remembers (o : Option MapEntry) (xs : List NodeId) : Prop where
  absent_iff : o = none ↔ xs = []
  first : ∀ entry element, o = some entry → entry.element = some element → xs.head? = some element

namespace Remembers

variable {o : Option MapEntry} {xs ys ts : List NodeId}

theorem nil : Remembers none [] where
  absent_iff := ⟨fun _ => rfl, fun _ => rfl⟩
  first _ _ ho := by cases ho

/-- An entry that remembers nothing fits every list that has a member. -/
theorem forgotten (entry : MapEntry) (he : entry.element = none) (hne : xs ≠ []) :
    Remembers (some entry) xs where
  absent_iff := iff_of_false (fun h => by cases h) hne
  first _ _ ho hel := by
    obtain rfl := Option.some.inj ho
    rw [he] at hel
    cases hel

/-- The element found by a search is remembered. -/
theorem found {entry : MapEntry} {element : NodeId}
    (hhead : xs.head? = some element) : Remembers (some { entry with element }) xs where
  absent_iff := iff_of_false (fun he => by cases he) fun hnil => by rw [hnil] at hhead; cases hhead
  first _ _ ho hel := by
    obtain rfl := Option.some.inj ho
    rw [hhead]
    exact hel

/-- Once there is an entry, further elements leave one that remembers nothing. -/
theorem addAll_some (entry : MapEntry) (hne : ts ≠ []) :
    ∃ entry' : MapEntry, ts.foldl (fun o t => some (MapEntry.add o t)) (some entry) = some entry' ∧
      entry'.element = none := by
  induction ts generalizing entry with
  | nil => exact absurd rfl hne
  | cons t ts ih =>
    rw [List.foldl_cons]
    by_cases hts : ts = []
    · rw [hts]
      exact ⟨_, rfl, rfl⟩
    · exact ih _ hts

/-- Lists without repetition, one in the other, with the same members are the same. -/
theorem eq_of_sublist (hsub : xs.Sublist ys) (hnd : ys.Nodup) (hmem : ∀ y ∈ ys, y ∈ xs) :
    ys = xs :=
  (hsub.eq_of_length_le (hnd.subperm hmem).length_le).symm

/-- **The new elements with the id.** They may come before or behind those that were there, and
the entry fits the elements that are there now. -/
theorem addAll (h : Remembers o xs) (hsub : xs.Sublist ys) (hnd : ys.Nodup)
    (hmem : ∀ y, y ∈ ys ↔ y ∈ xs ∨ y ∈ ts) :
    Remembers (ts.foldl (fun o t => some (MapEntry.add o t)) o) ys := by
  cases ts with
  | nil =>
    rw [eq_of_sublist hsub hnd fun y hy => ((hmem y).mp hy).resolve_right (by simp)]
    exact h
  | cons t ts =>
    have hne : ys ≠ [] := List.ne_nil_of_mem ((hmem t).mpr (.inr (List.mem_cons_self ..)))
    cases o with
    | some entry =>
      obtain ⟨entry', heq, he⟩ := addAll_some entry (List.cons_ne_nil t ts)
      rw [heq]
      exact forgotten entry' he hne
    | none =>
      obtain rfl : xs = [] := h.absent_iff.mp rfl
      rw [List.foldl_cons]
      by_cases hts : ts = []
      · -- the only element with the id
        subst hts
        obtain rfl : ys = [t] := by
          refine eq_of_sublist ?_ hnd fun y hy => ((hmem y).mp hy).resolve_left (by simp)
          exact List.singleton_sublist.mpr ((hmem t).mpr (.inr (List.mem_cons_self ..)))
        refine ⟨iff_of_false (fun h => by cases h) hne, fun entry element ho hel => ?_⟩
        obtain rfl := Option.some.inj ho
        exact hel
      · obtain ⟨entry', heq, he⟩ := addAll_some (MapEntry.add none t) hts
        rw [heq]
        exact forgotten entry' he hne

end Remembers

/-! ## The lookups -/

/-- The entries of a scope fit the tree of its root. -/
def ScopeFits (getIdAttribute : NodeId → Option Str) (elementsById : Option TreeOrderedMap)
    (h : Heap) (root : NodeId) : Prop :=
  ∀ key, key ≠ [] →
    Remembers (elementsById.bind (· key)) (elementsWithId getIdAttribute h root key)

section Lookup

variable {getIdAttribute : NodeId → Option Str} {h : Heap} {ch : NodeId → List NodeId}
  {d n element : NodeId} {id : Str} {elementsById : Option TreeOrderedMap}

theorem elementsWithId_nodup (w : WellFormed h ch) (root : NodeId) (id : Str) :
    (elementsWithId getIdAttribute h root id).Nodup :=
  ((descendantsOf_nodup w root).filter _).filter _

theorem mem_elementsWithId (w : WellFormed h ch) :
    element ∈ elementsWithId getIdAttribute h n id ↔ (element ≠ n ∧ Above h.links.parent element n) ∧
      h.isElementNode element = true ∧ getIdAttribute element = some id := by
  unfold elementsWithId elementsBelow
  rw [List.mem_filter, List.mem_filter, mem_descendantsOf w, beq_iff_eq, and_assoc]

/-- What is below a node is, in the same order, below what is above the node. -/
theorem elementsWithId_sublist (getIdAttribute : NodeId → Option Str) (w : WellFormed h ch)
    (hn : Above h.links.parent n d) (id : Str) :
    (elementsWithId getIdAttribute h n id).Sublist (elementsWithId getIdAttribute h d id) := by
  have hwithin := preorder_within w.represents w.width hn (inclusiveDescendantsOf_eq w d)
    (inclusiveDescendantsOf_eq w n)
  have hbelow : (descendantsOf h n).Sublist (descendantsOf h d) := hwithin.tail
  exact (hbelow.filter _).filter _

/-- From a root the traversal of the whole tree is the one below the root. -/
theorem nextInTree_eq_next (w : WellFormed h ch) (hroot : h.links.parent d = none) :
    ElementTraversal.nextInTree h = ElementTraversal.next h d := by
  have hnext : h.nextSibling d = none := (w.represents.detached d hroot).2
  have hskip : NodeTraversal.nextSkippingChildrenInTree h =
      NodeTraversal.nextSkippingChildrenWithin h d :=
    funext fun x => nextSkippingChildrenInTree_eq hnext hroot h.bound x
  funext x
  have hstep : NodeTraversal.nextInTree h x = NodeTraversal.nextWithin h d x :=
    nextInTree_eq hnext hroot h.bound x
  unfold ElementTraversal.nextInTree ElementTraversal.next
  rw [hskip, hstep]

/-- It starts with the first element. -/
theorem next_root (w : WellFormed h ch) (f : FragmentsAreRoots h) (d : NodeId) :
    ElementTraversal.next h d d = some (elementsBelow h d).head? := by
  have hfirst : h.links.first = h.firstChild := funext fun p => by
    rw [w.firstChild_eq, w.represents.first_eq]
  have hsteps := nextWithin_of_preorder w.represents w.acyclic w.width
    (inclusiveDescendantsOf_eq w d) (Nat.le_refl _) 0 d rfl
  rw [hfirst] at hsteps
  have hstep : NodeTraversal.nextWithin h d d = some (descendantsOf h d)[0]? := hsteps
  have hlen := descendantsOf_length w d
  unfold ElementTraversal.next elementsBelow
  rw [hstep, Option.bind_eq_bind, Option.bind_some, seek_spec
    (fun k x hx he => nextSkippingChildren_of_not_element w f k x hx he)
    (by rw [Heap.bound]; omega), List.drop_zero, List.head?_filter]

/-- The loop over the elements below a node finds the first it looks for. -/
theorem seek_elementsBelow (w : WellFormed h ch) (f : FragmentsAreRoots h) (root : NodeId)
    (p : NodeId → Bool) :
    seek p (ElementTraversal.next h root) h.bound (elementsBelow h root).head? =
      some ((elementsBelow h root).filter p).head? := by
  have hlen := elementsBelow_length w root
  rw [List.head?_eq_getElem?, seek_spec (fun k x hx _ => next_stepsThrough w f root k x hx)
    (by rw [Heap.bound]; omega), List.drop_zero, List.head?_filter]

theorem seekElementById_eq (w : WellFormed h ch) (f : FragmentsAreRoots h) (n : NodeId)
    (id : Str) : ContainerNode.seekElementById getIdAttribute h n id =
      some (elementsWithId getIdAttribute h n id).head? := by
  unfold ContainerNode.seekElementById
  rw [firstWithin_eq w f, Option.bind_eq_bind, Option.bind_some, seek_elementsBelow w f]
  rfl

/-- **`Get` finds the first element with the key, and may remember it.** -/
theorem treeOrderedMap_getElementById (w : WellFormed h ch) (f : FragmentsAreRoots h)
    (hroot : h.links.parent d = none) {m : TreeOrderedMap} {key : Str}
    (hm : Remembers (m key) (elementsWithId getIdAttribute h d key)) :
    ∃ m', m.getElementById getIdAttribute h d key =
        some ((elementsWithId getIdAttribute h d key).head?, m') ∧
      Remembers (m' key) (elementsWithId getIdAttribute h d key) ∧ ∀ k, k ≠ key → m' k = m k := by
  unfold TreeOrderedMap.getElementById TreeOrderedMap.get
  split
  · rename_i hnone
    refine ⟨m, ?_, hm, fun _ _ => rfl⟩
    rw [hm.absent_iff.mp hnone]
    rfl
  · rename_i entry hentry
    split
    · rename_i element helement
      refine ⟨m, ?_, hm, fun _ _ => rfl⟩
      rw [hm.first entry element hentry helement]
    · -- nothing is remembered: the traversal looks for the first element
      rw [nextInTree_eq_next w hroot, next_root w f, Option.bind_eq_bind, Option.bind_some,
        seek_elementsBelow w f, Option.bind_some]
      change ∃ m', (match (elementsWithId getIdAttribute h d key).head? with
        | none => some (none, m)
        | some element => some (some element, update m key (some { entry with element }))) =
          some ((elementsWithId getIdAttribute h d key).head?, m') ∧ _
      cases hhead : (elementsWithId getIdAttribute h d key).head? with
      | none => exact ⟨m, rfl, hm, fun _ _ => rfl⟩
      | some element =>
        refine ⟨_, rfl, ?_, fun k hk => update_of_ne hk _ _⟩
        rw [update_self]
        exact Remembers.found hhead

/-- **`TreeScope::getElementById` finds the first element with the id.** -/
theorem treeScope_getElementById (w : WellFormed h ch) (f : FragmentsAreRoots h)
    (hroot : h.links.parent d = none) (hfits : ScopeFits getIdAttribute elementsById h d)
    (id : Str) :
    ∃ r elementsById', TreeScope.getElementById getIdAttribute elementsById h d id =
        some (r, elementsById') ∧ ScopeFits getIdAttribute elementsById' h d ∧
      (id ≠ [] → r = (elementsWithId getIdAttribute h d id).head?) := by
  unfold TreeScope.getElementById
  split
  · rename_i hempty
    exact ⟨none, elementsById, rfl, hfits, fun hne => absurd (List.isEmpty_iff.mp hempty) hne⟩
  · rename_i hempty
    have hne : id ≠ [] := fun hnil => hempty (List.isEmpty_iff.mpr hnil)
    have hid := hfits id hne
    split
    · refine ⟨none, none, rfl, hfits, fun _ => ?_⟩
      rw [hid.absent_iff.mp rfl]
      rfl
    · rename_i m
      obtain ⟨m', hget, hm', hother⟩ := treeOrderedMap_getElementById w f hroot hid
      refine ⟨_, some m', by rw [hget]; rfl, fun key hkey => ?_, fun _ => rfl⟩
      by_cases hk : key = id
      · rw [hk]
        exact hm'
      · rw [Option.bind_some, hother key hk]
        exact hfits key hkey

/-- The first of a list is the first of each part that has it. -/
theorem head_of_sublist {xs ys : List NodeId} (hsub : xs.Sublist ys) (hnd : ys.Nodup)
    (hhead : ys.head? = some element) (hmem : element ∈ xs) : xs.head? = some element := by
  obtain ⟨rest, rfl⟩ := List.head?_eq_some_iff.mp hhead
  rcases List.sublist_cons_iff.mp hsub with hrest | ⟨xs', rfl, -⟩
  · exact absurd (hrest.mem hmem) (List.nodup_cons.mp hnd).1
  · rfl

/-- **`ContainerNode::GetElementById` finds the first element with the id below its node.** -/
theorem containerNode_getElementById (w : WellFormed h ch) (f : FragmentsAreRoots h)
    (hd : SingleDocument h d) (hroot : h.links.parent d = none)
    (hfits : ScopeFits getIdAttribute elementsById h d) (hn : n < h.size) (id : Str) :
    ∃ r elementsById', ContainerNode.getElementById getIdAttribute elementsById h n id =
        some (r, elementsById') ∧ ScopeFits getIdAttribute elementsById' h d ∧
      (id ≠ [] → r = (elementsWithId getIdAttribute h n id).head?) := by
  unfold ContainerNode.getElementById
  rw [seekElementById_eq w f, hd n hn]
  split
  · rename_i hconn
    have hnd : Above h.links.parent n d :=
      (w.above_document_iff hd (Nat.lt_succ_self h.size) hn).mpr hconn
    obtain ⟨r, elementsById', hget, hfits', hr⟩ := treeScope_getElementById w f hroot hfits id
    rw [hget, Option.bind_eq_bind, Option.bind_some]
    cases r with
    | none =>
      refine ⟨none, elementsById', rfl, hfits', fun hne => ?_⟩
      have hnil := List.head?_eq_none_iff.mp (hr hne).symm
      have hsub := elementsWithId_sublist getIdAttribute w hnd id
      rw [hnil, List.sublist_nil] at hsub
      rw [hsub]
      rfl
    | some element =>
      have hne : id ≠ [] := by
        rintro rfl
        cases hget
      have hhead := (hr hne).symm
      have hmem := (mem_elementsWithId w).mp (List.mem_of_head? hhead)
      have he : element < h.size := by
        obtain ⟨p, hp, -⟩ := (above_iff_head.mp hmem.1.2).resolve_left hmem.1.1
        exact (w.allocated element p hp).1
      obtain ⟨b, hsearch, hb⟩ := w.search_parent (Nat.lt_succ_self h.size) element n
      have hdesc : h.isDescendantOf h.bound element n = some b :=
        (w.isDescendantOf_eq_search hd (Nat.lt_succ_self h.size) he hn).trans hsearch
      simp only [hdesc, Option.bind_eq_bind, Option.bind_some]
      cases b with
      | false => exact ⟨_, elementsById', rfl, hfits', fun _ => rfl⟩
      | true =>
        refine ⟨some element, elementsById', rfl, hfits', fun _ => (head_of_sublist
          (elementsWithId_sublist getIdAttribute w hnd id) (elementsWithId_nodup w d id) hhead ?_).symm⟩
        exact (mem_elementsWithId w).mpr ⟨(w.search_iff hb).mp rfl, hmem.2⟩
  · exact ⟨_, elementsById, rfl, hfits, fun _ => rfl⟩

end Lookup

end Blinkit.Dom
