import Blinkit.Lib.DocumentOrder
import Blinkit.Dom.Ledger
import Blinkit.Dom.ScriptCalls

/-!
# Traversal of the elements below a node

The traversals of `node_traversal.h` and `element_traversal.h` that a live collection uses.

* `NodeTraversal.nextWithin`, `NodeTraversal.nextSkippingChildrenWithin` — the overloads of `Next`
  and `NextSkippingChildren` with `stay_within`.
* `ElementTraversal.next`, `nextMatch`, `firstWithin`, `firstWithinMatch` — the loops over the
  elements, and over those a predicate selects; `nextSkippingChildren` leaves a subtree out.
* `elementsBelow h root` — the elements below `root` in document order.

Principal results: `nextMatch_stepsThrough` and `firstWithinMatch_eq`: the loops go through the
selected elements in document order, each once; `elementsBelow_split`: what is left out with the
children of an element are the elements below it.
-/

set_option autoImplicit false

namespace Blinkit.Dom

open LinkedForest

/-! ## The traversals -/

namespace NodeTraversal

def nextSkippingChildrenWithin (h : Heap) (stayWithin current : NodeId) : Option (Option NodeId) :=
  nextSkippingChildren h.nextSibling h.parentNode stayWithin h.bound current

def nextWithin (h : Heap) (stayWithin current : NodeId) : Option (Option NodeId) :=
  LinkedForest.nextWithin h.firstChild h.nextSibling h.parentNode stayWithin h.bound current

end NodeTraversal

namespace ElementTraversal

/-- `FirstChild`. -/
def firstChild (h : Heap) (current : NodeId) : Option (Option NodeId) :=
  seek h.isElementNode (fun n => some (h.nextSibling n)) h.bound (h.firstChild current)

/-- `FirstWithin`: the parent of an element is an element or the root. -/
def firstWithin (h : Heap) (current : NodeId) : Option (Option NodeId) := firstChild h current

/-- `Next`, without the children of what is no element. -/
def next (h : Heap) (stayWithin current : NodeId) : Option (Option NodeId) := do
  seek h.isElementNode (NodeTraversal.nextSkippingChildrenWithin h stayWithin) h.bound
    (← NodeTraversal.nextWithin h stayWithin current)

/-- `NextSkippingChildren`. -/
def nextSkippingChildren (h : Heap) (stayWithin current : NodeId) : Option (Option NodeId) := do
  seek h.isElementNode (NodeTraversal.nextSkippingChildrenWithin h stayWithin) h.bound
    (← NodeTraversal.nextSkippingChildrenWithin h stayWithin current)

/-- `Next` with a predicate. -/
def nextMatch (h : Heap) (isMatch : NodeId → Bool) (stayWithin current : NodeId) :
    Option (Option NodeId) := do
  seek isMatch (next h stayWithin) h.bound (← next h stayWithin current)

/-- `FirstWithin` with a predicate. -/
def firstWithinMatch (h : Heap) (isMatch : NodeId → Bool) (current : NodeId) :
    Option (Option NodeId) := do
  seek isMatch (nextMatch h isMatch current) h.bound (← firstWithin h current)

end ElementTraversal

/-! ## What they visit -/

/-- The descendants of a node in document order. -/
def descendantsOf (h : Heap) (root : NodeId) : List NodeId :=
  ((h.inclusiveDescendantsOf h.bound root).getD []).tail

def elementsBelow (h : Heap) (root : NodeId) : List NodeId :=
  (descendantsOf h root).filter h.isElementNode

section Order

variable {h : Heap} {ch : NodeId → List NodeId} {root x : NodeId}

/-- A node that has a child is a container. -/
theorem WellFormed.children_of_not_container (w : WellFormed h ch) {p : NodeId}
    (hcont : ¬ h.isContainerNode p = true) : ch p = [] := by
  cases hch : ch p with
  | nil => rfl
  | cons c cs => exact absurd (w.container c p (w.mem_iff.mp (by simp [hch]))) hcont

theorem WellFormed.firstChild_eq (w : WellFormed h ch) (p : NodeId) :
    h.firstChild p = (ch p).head? := by
  unfold Heap.firstChild
  split
  · exact w.represents.first_eq p
  · rename_i hcont
    rw [w.children_of_not_container hcont]
    rfl

theorem WellFormed.width (w : WellFormed h ch) (p : NodeId) : (ch p).length ≤ h.bound :=
  (w.length_le p).trans (Nat.le_succ _)

/-- The visit of a subtree. -/
theorem inclusiveDescendantsOf_eq (w : WellFormed h ch) (root : NodeId) :
    h.inclusiveDescendantsOf h.bound root = some (root :: descendantsOf h root) := by
  obtain ⟨ds, hds, -⟩ := w.inclusiveDescendantsOf_spec (Nat.lt_succ_self _) root
  obtain ⟨rest, rfl⟩ := List.head?_eq_some_iff.mp (preorder_head hds)
  rw [descendantsOf, show h.bound = h.size + 1 from rfl, hds]
  rfl

theorem mem_descendantsOf (w : WellFormed h ch) :
    x ∈ descendantsOf h root ↔ x ≠ root ∧ Above h.links.parent x root := by
  have hvisit := inclusiveDescendantsOf_eq w root
  have hmem := mem_preorder (x := x) w.represents w.width hvisit
  have hnodup := preorder_nodup w.represents w.acyclic w.width hvisit
  rw [← hmem, List.mem_cons]
  constructor
  · intro hx
    exact ⟨fun he => (List.nodup_cons.mp hnodup).1 (he ▸ hx), .inr hx⟩
  · rintro ⟨hne, hx⟩
    exact hx.resolve_left hne

theorem descendantsOf_nodup (w : WellFormed h ch) (root : NodeId) : (descendantsOf h root).Nodup :=
  (List.nodup_cons.mp (preorder_nodup w.represents w.acyclic w.width
    (inclusiveDescendantsOf_eq w root))).2

/-- What has a parent is allocated. -/
theorem descendantsOf_allocated (w : WellFormed h ch) (hx : x ∈ descendantsOf h root) :
    ∃ p, h.links.parent x = some p ∧ x < h.size := by
  obtain ⟨hne, habove⟩ := (mem_descendantsOf w).mp hx
  obtain ⟨p, hp, -⟩ := (above_iff_head.mp habove).resolve_left hne
  exact ⟨p, hp, (w.allocated x p hp).1⟩

theorem descendantsOf_length (w : WellFormed h ch) (root : NodeId) :
    (descendantsOf h root).length ≤ h.size := by
  have hsub : (descendantsOf h root).toFinset ⊆ Finset.range h.size := by
    intro x hx
    obtain ⟨-, -, hlt⟩ := descendantsOf_allocated w (List.mem_toFinset.mp hx)
    exact Finset.mem_range.mpr hlt
  have hcard := Finset.card_le_card hsub
  rwa [List.toFinset_card_of_nodup (descendantsOf_nodup w root), Finset.card_range] at hcard

/-- Below a root, what is no element has no child. -/
theorem firstChild_of_not_element (w : WellFormed h ch) (f : FragmentsAreRoots h)
    (hx : x ∈ descendantsOf h root) (he : h.isElementNode x = false) : h.firstChild x = none := by
  obtain ⟨p, hp, hlt⟩ := descendantsOf_allocated w hx
  unfold Heap.firstChild
  rw [if_neg]
  intro hcont
  simp only [Heap.isContainerNode, Bool.or_eq_true, beq_iff_eq] at hcont
  rcases hcont with (hel | hdoc) | hfrag
  · simp [Heap.isElementNode, hel] at he
  · have hroot := w.document_root x ((w.document_type x hlt).mp hdoc)
    rw [hroot] at hp
    cases hp
  · have hroot := f x (by simp [Heap.isDocumentFragment, hfrag])
    rw [hroot] at hp
    cases hp

/-- `Next` goes through the visit. -/
theorem nextWithin_stepsThrough (w : WellFormed h ch) (root : NodeId) :
    StepsThrough (NodeTraversal.nextWithin h root) (descendantsOf h root) := by
  have hsteps := nextWithin_of_preorder w.represents w.acyclic w.width
    (inclusiveDescendantsOf_eq w root) (Nat.le_refl _)
  have hfirst : h.links.first = h.firstChild := funext fun p => by
    rw [w.firstChild_eq, w.represents.first_eq]
  rw [hfirst] at hsteps
  exact hsteps.tail

/-- `NextSkippingChildren` is `Next` where there is no child. -/
theorem nextSkippingChildren_of_not_element (w : WellFormed h ch) (f : FragmentsAreRoots h) (k : Nat)
    (x : NodeId) (hx : (descendantsOf h root)[k]? = some x) (he : h.isElementNode x = false) :
    NodeTraversal.nextSkippingChildrenWithin h root x = some (descendantsOf h root)[k + 1]? := by
  have hstep := nextWithin_stepsThrough w root k x hx
  have hleaf := firstChild_of_not_element w f (List.mem_of_getElem? hx) he
  unfold NodeTraversal.nextWithin LinkedForest.nextWithin at hstep
  rw [hleaf] at hstep
  exact hstep

/-- **`Next` goes through the elements.** -/
theorem next_stepsThrough (w : WellFormed h ch) (f : FragmentsAreRoots h) (root : NodeId) :
    StepsThrough (ElementTraversal.next h root) (elementsBelow h root) :=
  (nextWithin_stepsThrough w root).filter (nextSkippingChildren_of_not_element w f)
    ((descendantsOf_length w root).trans (Nat.le_succ _))

theorem elementsBelow_length (w : WellFormed h ch) (root : NodeId) :
    (elementsBelow h root).length ≤ h.size :=
  (List.length_filter_le _ _).trans (descendantsOf_length w root)

theorem mem_elementsBelow (w : WellFormed h ch) : x ∈ elementsBelow h root ↔
    h.isElementNode x = true ∧ x ≠ root ∧ Above h.links.parent x root := by
  rw [elementsBelow, List.mem_filter, mem_descendantsOf w, and_comm]

theorem elementsBelow_nodup (w : WellFormed h ch) (root : NodeId) :
    (elementsBelow h root).Nodup := (descendantsOf_nodup w root).filter _

/-- Behind a descendant come its own descendants, and then what `NextSkippingChildren` goes to. -/
theorem descendantsOf_split (w : WellFormed h ch) {pre post : List NodeId}
    (hx : descendantsOf h root = pre ++ x :: post) :
    ∃ behind, post = descendantsOf h x ++ behind ∧
      NodeTraversal.nextSkippingChildrenWithin h root x = some behind.head? := by
  have hvisit := inclusiveDescendantsOf_eq w root
  rw [hx, ← List.cons_append] at hvisit
  have hend : LinkedForest.nextSkippingChildren h.links.next h.links.parent root 0 root = some none :=
    if_pos rfl
  obtain ⟨below, behind, hpost, ⟨fuel, hbelow⟩, hnext⟩ :=
    nextSkippingChildren_of_visit w.represents w.acyclic w.width hvisit (.refl root) hend
      (Nat.le_of_eq (Nat.zero_add h.bound))
  have hsame := preorder_agree w.represents w.represents w.width w.width (fun _ _ => rfl) hbelow
    (inclusiveDescendantsOf_eq w x)
  rw [Option.or_none] at hnext
  exact ⟨behind, by rw [hpost, (List.cons_eq_cons.mp hsame).2], hnext⟩

/-- **Behind an element come the elements below it, and then what `NextSkippingChildren` goes to.** -/
theorem elementsBelow_split (w : WellFormed h ch) (f : FragmentsAreRoots h) {pre post : List NodeId}
    (hx : elementsBelow h root = pre ++ x :: post) :
    ∃ behind, post = elementsBelow h x ++ behind ∧
      ElementTraversal.nextSkippingChildren h root x = some behind.head? := by
  unfold elementsBelow at hx
  obtain ⟨l₁, l₂, hl, -, hl₂⟩ := List.filter_eq_append_iff.mp hx
  obtain ⟨l₃, l₄, rfl, -, -, hl₄⟩ := List.filter_eq_cons_iff.mp hl₂
  rw [← List.append_assoc] at hl
  obtain ⟨behind, hbehind, hnext⟩ := descendantsOf_split w hl
  refine ⟨behind.filter h.isElementNode, ?_, ?_⟩
  · rw [← hl₄, hbehind, List.filter_append]
    rfl
  · have hlength := descendantsOf_length w root
    obtain ⟨l, hwhole⟩ : ∃ l, descendantsOf h root = l ++ behind :=
      ⟨(l₁ ++ l₃) ++ x :: descendantsOf h x, by rw [hl, hbehind]; simp⟩
    have hskip : ∀ (k : Nat) (y : NodeId), (descendantsOf h root)[k]? = some y →
        h.isElementNode y = false → NodeTraversal.nextSkippingChildrenWithin h root y =
          some (descendantsOf h root)[k + 1]? := nextSkippingChildren_of_not_element w f
    rw [hwhole] at hskip hlength
    rw [List.length_append] at hlength
    unfold ElementTraversal.nextSkippingChildren
    rw [hnext, Option.bind_eq_bind, Option.bind_some,
      seek_behind hskip (by unfold Heap.bound; omega), List.head?_filter]

/-- **What is above an element comes before it.** -/
theorem above_comes_before (w : WellFormed h ch) (f : FragmentsAreRoots h) {a : NodeId}
    {pre post : List NodeId} (hx : elementsBelow h root = pre ++ x :: post)
    (ha : a ∈ elementsBelow h root) (hbelow : x ∈ descendantsOf h a) : a ∈ pre := by
  have hnodup := elementsBelow_nodup w root
  rw [hx, List.mem_append, List.mem_cons] at ha
  rcases ha with hpre | rfl | hpost
  · exact hpre
  · exact absurd rfl ((mem_descendantsOf w).mp hbelow).1
  · obtain ⟨p₁, p₂, rfl⟩ := List.append_of_mem hpost
    rw [← List.cons_append, ← List.append_assoc] at hx
    obtain ⟨behind, rfl, -⟩ := elementsBelow_split w f hx
    have helement : h.isElementNode x = true := by
      have hmem : x ∈ elementsBelow h root := by
        rw [hx]
        simp
      exact ((mem_elementsBelow w).mp hmem).1
    have hmem : x ∈ elementsBelow h a := List.mem_filter.mpr ⟨hbelow, helement⟩
    rw [hx, List.nodup_append] at hnodup
    exact absurd rfl (hnodup.2.2 x (by simp) x (by simp [hmem]))

/-- The elements below a node are the same when nothing below it has changed. -/
theorem elementsBelow_agree {h' : Heap} {ch' : NodeId → List NodeId} (w : WellFormed h ch)
    (w' : WellFormed h' ch') (hbelow : ∀ x, Above h.links.parent x root → ch' x = ch x)
    (htype : ∀ x, x < h.size → h'.nodeType x = h.nodeType x) :
    elementsBelow h' root = elementsBelow h root := by
  have hvisit := preorder_agree w.represents w'.represents w.width w'.width hbelow
    (inclusiveDescendantsOf_eq w root) (inclusiveDescendantsOf_eq w' root)
  unfold elementsBelow
  rw [(List.cons_eq_cons.mp hvisit).2]
  refine List.filter_congr fun x hx => ?_
  obtain ⟨-, -, hlt⟩ := descendantsOf_allocated w hx
  simp only [Heap.isElementNode, htype x hlt]

/-- **`Next` with a predicate goes through the elements it selects.** -/
theorem nextMatch_stepsThrough (w : WellFormed h ch) (f : FragmentsAreRoots h)
    (isMatch : NodeId → Bool) (root : NodeId) :
    StepsThrough (ElementTraversal.nextMatch h isMatch root)
      ((elementsBelow h root).filter isMatch) :=
  (next_stepsThrough w f root).filter (fun k x hx _ => next_stepsThrough w f root k x hx)
    ((elementsBelow_length w root).trans (Nat.le_succ _))

/-! ## Where they start -/

/-- `NextSibling` goes through the children. -/
theorem nextSibling_stepsThrough (w : WellFormed h ch) (p : NodeId) :
    StepsThrough (fun n => some (h.nextSibling n)) (ch p) := by
  intro k x hx
  obtain ⟨hk, hget⟩ := List.getElem?_eq_some_iff.mp hx
  have hsplit : ch p = (ch p).take k ++ x :: (ch p).drop (k + 1) := by
    rw [← hget, ← List.drop_eq_getElem_cons hk, List.take_append_drop]
  show some (h.links.next x) = _
  rw [w.represents.next_eq hsplit, List.head?_drop]

/-- When what is not looked for has no descendant, the first find is a sibling. -/
theorem find_visits {p : NodeId → Bool} {width fuel : Nat} {cs : List NodeId}
    {below : List (List NodeId)}
    (hvisits : List.Forall₂ (fun c b => preorder h.links width fuel c = some b) cs below)
    (hleaf : ∀ c ∈ cs, p c = false → ∀ b, preorder h.links width fuel c = some b → b = [c]) :
    below.flatten.find? p = cs.find? p := by
  induction hvisits with
  | nil => rfl
  | @cons c b cs below hc hrest ih =>
    have ih' := ih fun d hd => hleaf d (List.mem_cons_of_mem c hd)
    obtain ⟨b, rfl⟩ := List.head?_eq_some_iff.mp (preorder_head hc)
    rw [List.flatten_cons, List.find?_append]
    by_cases hp : p c = true
    · rw [List.find?_cons_of_pos hp, List.find?_cons_of_pos hp]
      rfl
    · rw [hleaf c (List.mem_cons_self ..) (by simpa using hp) _ hc, List.find?_cons_of_neg hp,
        List.find?_cons_of_neg hp, ih']
      rfl

/-- A node without children is alone in its visit. -/
theorem visit_of_childless (w : WellFormed h ch) {fuel : Nat} {b : List NodeId}
    (hx : h.firstChild x = none) (hb : preorder h.links h.bound fuel x = some b) : b = [x] := by
  rw [w.firstChild_eq, List.head?_eq_none_iff] at hx
  cases fuel with
  | zero => cases hb
  | succ fuel =>
    rw [preorder_succ w.represents (w.width x), hx] at hb
    exact (Option.some.inj hb).symm

/-- **`FirstWithin` is the first of the elements.** -/
theorem firstWithin_eq (w : WellFormed h ch) (f : FragmentsAreRoots h) (root : NodeId) :
    ElementTraversal.firstWithin h root = some (elementsBelow h root).head? := by
  have hvisit : preorder h.links h.bound (h.size + 1) root = some (root :: descendantsOf h root) :=
    inclusiveDescendantsOf_eq w root
  rw [preorder_succ w.represents (w.width root), Option.map_eq_some_iff] at hvisit
  obtain ⟨below, hbelow, hcons⟩ := hvisit
  have hflat : descendantsOf h root = below.flatten := (List.cons_eq_cons.mp hcons).2.symm
  have hvisits := mapM_eq_some hbelow
  have hfind : below.flatten.find? h.isElementNode = (ch root).find? h.isElementNode := by
    refine find_visits hvisits fun c hc he b hb => visit_of_childless w ?_ hb
    have hparent := w.mem_iff.mp hc
    have hbelow : c ∈ descendantsOf h root := by
      refine (mem_descendantsOf w).mpr ⟨?_, Above.of_parent hparent⟩
      rintro rfl
      exact w.acyclic c c hparent (.refl c)
    exact firstChild_of_not_element w f hbelow he
  have hwidth := w.width root
  have hseek : seek h.isElementNode (fun n => some (h.nextSibling n)) h.bound (ch root)[0]? =
      some (((ch root).drop 0).find? h.isElementNode) :=
    seek_spec (fun k x hx _ => nextSibling_stepsThrough w root k x hx) (by omega)
  unfold ElementTraversal.firstWithin ElementTraversal.firstChild
  rw [w.firstChild_eq, List.head?_eq_getElem?, hseek, List.drop_zero, elementsBelow,
    List.head?_filter, hflat, hfind]

/-- **`FirstWithin` with a predicate is the first of the elements it selects.** -/
theorem firstWithinMatch_eq (w : WellFormed h ch) (f : FragmentsAreRoots h)
    (isMatch : NodeId → Bool) (root : NodeId) :
    ElementTraversal.firstWithinMatch h isMatch root =
      some ((elementsBelow h root).filter isMatch).head? := by
  unfold ElementTraversal.firstWithinMatch
  rw [firstWithin_eq w f, Option.bind_eq_bind, Option.bind_some]
  have hnext := next_stepsThrough w f root
  cases hxs : elementsBelow h root with
  | nil => rfl
  | cons x xs =>
    rw [List.head?_cons, Heap.bound, seek]
    split
    · rename_i hx
      rw [List.filter_cons_of_pos hx]
      rfl
    · rename_i hx
      have hlen := elementsBelow_length w root
      rw [hxs, List.length_cons] at hlen
      have hstep : ElementTraversal.nextMatch h isMatch root x = some (xs.find? isMatch) := by
        unfold ElementTraversal.nextMatch
        rw [hnext 0 x (by rw [hxs]; rfl), Option.bind_eq_bind, Option.bind_some,
          seek_spec (fun k x hx _ => hnext k x hx) (by rw [hxs, List.length_cons, Heap.bound]; omega),
          hxs]
        rfl
      rw [hstep, List.filter_cons_of_neg hx, List.head?_filter, Option.bind_eq_bind,
        Option.bind_some]
      cases hfind : xs.find? isMatch with
      | none => exact seek.eq_1 _ _ _
      | some y =>
        obtain ⟨rounds, hrounds⟩ : ∃ k, h.size = k + 1 := ⟨h.size - 1, by omega⟩
        rw [hrounds, seek, if_pos (List.find?_some hfind)]

end Order

end Blinkit.Dom
