import Blinkit.Dom.Refinement

/-!
# The checks in front of an insertion

* `SingleDocument h d` — every node belongs to the scope of `d`.

Principal results: `ensurePreInsertionValidity_total` (the checks end), `validity_spec` (what holds
when they pass) and `not_above_of_validity` (among the nodes of one document, a node that passes
is not an inclusive ancestor of the new parent).
-/

set_option autoImplicit false

namespace Blinkit.Dom

open LinkedForest ChildLists Function

variable {h : Heap} {ch : NodeId → List NodeId} {p n d : NodeId} {fuel : Nat}

/-- Every node belongs to the scope of the document `d`. -/
def SingleDocument (h : Heap) (d : NodeId) : Prop := ∀ n, n < h.size → h.document n = d

namespace WellFormed

/-- The loop towards the root ends and finds what is above its start. -/
theorem search_parent (w : WellFormed h ch) (hfuel : h.size < fuel) (n other : NodeId) :
    ∃ b, search h.parentNode other fuel (h.parentNode n) = some b ∧
      (b = true ↔ ∃ q, h.links.parent n = some q ∧ Above h.links.parent q other) := by
  cases hp : h.links.parent n with
  | none =>
    refine ⟨false, ?_, by simp⟩
    rw [show h.parentNode n = none from hp]
    cases fuel <;> rfl
  | some q =>
    have hcard : (Finset.range h.size).card < fuel := by rwa [Finset.card_range]
    obtain ⟨as, has⟩ := walk_parent_of_acyclic w.acyclic
      (fun x y hxy => Finset.mem_range.mpr (w.allocated x y hxy).1) q hcard
    have hwalk : walk h.parentNode fuel (h.parentNode n) = some as := by
      rw [show h.parentNode n = some q from hp]
      exact has
    refine ⟨_, search_eq_of_walk other hwalk, ?_⟩
    simp [mem_walk_parent has]

theorem contains_total (w : WellFormed h ch) (hfuel : h.size < fuel) (n other : NodeId) :
    ∃ b, h.contains fuel n other = some b := by
  obtain ⟨b, hb, -⟩ := w.search_parent hfuel other n
  unfold Heap.contains Heap.isDescendantOf
  split
  · exact ⟨_, rfl⟩
  · split
    · exact ⟨_, rfl⟩
    · split
      · exact ⟨_, rfl⟩
      · split
        · exact ⟨_, rfl⟩
        · exact ⟨b, hb⟩

/-- Among the nodes of one document `contains` finds every inclusive ancestor. -/
theorem contains_of_above (w : WellFormed h ch) (hfuel : h.size < fuel) (hd : SingleDocument h d)
    (hps : p < h.size) (habove : Above h.links.parent p n) : h.contains fuel n p = some true := by
  unfold Heap.contains
  by_cases hpn : n = p
  · rw [if_pos hpn]
  · rw [if_neg hpn]
    obtain ⟨c, -, hc⟩ := (above_iff_tail.mp habove).resolve_left (Ne.symm hpn)
    obtain ⟨q, hq, hqn⟩ := (above_iff_head.mp habove).resolve_left (Ne.symm hpn)
    have hns : n < h.size := (w.allocated c n hc).2
    have hfirst : h.firstChild n ≠ none := by
      have hmem : c ∈ ch n := w.mem_iff.mpr hc
      simp only [Heap.firstChild, w.container c n hc, if_true, w.represents.first_eq]
      intro hnil
      rw [List.head?_eq_none_iff] at hnil
      simp [hnil] at hmem
    have hconn : h.isConnected p = h.isConnected n := w.connected_above habove
    unfold Heap.isDescendantOf
    rw [if_neg (by simp [hfirst, hconn]), if_neg (by simp [hd n hns, hd p hps])]
    by_cases hscope : h.isTreeScope n = true
    · have hdn : d = n := by
        rw [Heap.isTreeScope, hd n hns] at hscope
        simpa using hscope
      have hp : h.isTreeScope p = false := by
        simp [Heap.isTreeScope, hd p hps, hdn, hpn]
      simp [hscope, hp]
    · rw [if_neg hscope]
      obtain ⟨b, hb, hiff⟩ := w.search_parent hfuel p n
      rw [hb, hiff.mpr ⟨q, hq, hqn⟩]

end WellFormed

/-! ## The check as a whole -/

theorem allTypesAllowed_total (w : WellFormed h ch) (hfuel : h.size < fuel) (p : NodeId)
    (cs : List NodeId) : ∃ b, ContainerNode.allTypesAllowed h fuel p cs = some b := by
  induction cs with
  | nil => exact ⟨true, rfl⟩
  | cons c cs ih =>
    obtain ⟨b, hb⟩ : ∃ b, ContainerNode.childTypeAllowed h fuel p (h.nodeType c) = some b := by
      unfold ContainerNode.childTypeAllowed
      split <;> try exact ⟨_, rfl⟩
      unfold Document.childTypeAllowed
      rw [w.childNodes_eq hfuel]
      split <;> exact ⟨_, rfl⟩
    obtain ⟨b', hb'⟩ := ih
    cases b with
    | true => exact ⟨b', by simp [ContainerNode.allTypesAllowed, hb, hb']⟩
    | false => exact ⟨false, by simp [ContainerNode.allTypesAllowed, hb]⟩

theorem isChildTypeAllowed_total (w : WellFormed h ch) (hfuel : h.size < fuel) (p n : NodeId) :
    ∃ b, ContainerNode.isChildTypeAllowed h fuel p n = some b := by
  unfold ContainerNode.isChildTypeAllowed
  split
  · rw [w.childNodes_eq hfuel]
    exact allTypesAllowed_total w hfuel p (ch n)
  · obtain ⟨b, hb⟩ := allTypesAllowed_total w hfuel p [n]
    cases hc : ContainerNode.childTypeAllowed h fuel p (h.nodeType n) with
    | some b => exact ⟨b, rfl⟩
    | none => simp [ContainerNode.allTypesAllowed, hc] at hb

/-- **The checks end.** -/
theorem ensurePreInsertionValidity_total (w : WellFormed h ch) (hfuel : h.size < fuel)
    (p n : NodeId) (next old : Option NodeId) :
    ∃ r, ContainerNode.ensurePreInsertionValidity h fuel p n next old = some r := by
  obtain ⟨b, hb⟩ : ∃ b, ContainerNode.isHostIncludingInclusiveAncestorOfThis h fuel p n = some b := by
    unfold ContainerNode.isHostIncludingInclusiveAncestorOfThis
    split
    · exact w.contains_total hfuel n p
    · exact ⟨_, rfl⟩
  obtain ⟨b', hb'⟩ := isChildTypeAllowed_total w hfuel p n
  unfold ContainerNode.ensurePreInsertionValidity
  simp only [hb, hb', Option.bind_eq_bind, Option.bind_some, Option.pure_def]
  split
  · cases b <;> exact ⟨_, rfl⟩
  · cases b with
    | true => exact ⟨_, rfl⟩
    | false =>
      cases checkReferenceChildParent h p next old with
      | some e => exact ⟨_, rfl⟩
      | none => cases b' <;> exact ⟨_, rfl⟩

/-- What holds when the checks pass. -/
structure Valid (h : Heap) (fuel : Nat) (p n : NodeId) (next old : Option NodeId) : Prop where
  notAncestor : ContainerNode.isHostIncludingInclusiveAncestorOfThis h fuel p n = some false
  next_child : ∀ r, next = some r → h.links.parent r = some p
  old_child : ∀ o, old = some o → h.links.parent o = some p
  notDocument : h.nodeType n ≠ .document

theorem checkReferenceChildParent_none {next old : Option NodeId}
    (hc : checkReferenceChildParent h p next old = none) :
    (∀ r, next = some r → h.links.parent r = some p) ∧
      (∀ o, old = some o → h.links.parent o = some p) := by
  unfold checkReferenceChildParent at hc
  split at hc
  · cases hc
  · rename_i hnext
    split at hc
    · cases hc
    · rename_i hold
      refine ⟨fun r hr => ?_, fun o ho => ?_⟩
      · simp only [hr, Option.any_some, Bool.not_eq_true, decide_eq_false_iff_not, not_not] at hnext
        exact hnext
      · simp only [ho, Option.any_some, Bool.not_eq_true, decide_eq_false_iff_not, not_not] at hold
        exact hold

/-- No container takes a document as a child. -/
theorem childTypeAllowed_document (h : Heap) (fuel : Nat) (p : NodeId) :
    ContainerNode.childTypeAllowed h fuel p .document = some false := by
  unfold ContainerNode.childTypeAllowed
  split <;> rfl

/-- **What the checks promise.** -/
theorem validity_spec {next old : Option NodeId}
    (hv : ContainerNode.ensurePreInsertionValidity h fuel p n next old = some none) :
    Valid h fuel p n next old := by
  unfold ContainerNode.ensurePreInsertionValidity at hv
  cases hanc : ContainerNode.isHostIncludingInclusiveAncestorOfThis h fuel p n with
  | none => simp [hanc] at hv
  | some b =>
    simp only [hanc, Option.bind_eq_bind, Option.bind_some, Option.pure_def] at hv
    cases b with
    | true => split at hv <;> simp at hv
    | false =>
      cases href : checkReferenceChildParent h p next old with
      | some e => split at hv <;> simp [href] at hv
      | none =>
        obtain ⟨hnext, hold⟩ := checkReferenceChildParent_none href
        refine ⟨hanc, hnext, hold, fun hdoc => ?_⟩
        split at hv
        · rename_i hfast
          simp [Heap.isElementNode, Heap.isTextNode, hdoc] at hfast
        · have hfrag : h.isDocumentFragment n = false := by simp [Heap.isDocumentFragment, hdoc]
          simp [href, ContainerNode.isChildTypeAllowed, hfrag, hdoc,
            childTypeAllowed_document] at hv

/-- **Within one document the checks refuse every inclusive ancestor of the new parent.** -/
theorem not_above_of_validity (w : WellFormed h ch) (hfuel : h.size < fuel)
    (hd : SingleDocument h d) (hps : p < h.size) (hcont : h.isContainerNode p = true)
    {next old : Option NodeId} (hv : Valid h fuel p n next old) :
    ¬ Above h.links.parent p n := by
  intro habove
  have hn : h.isContainerNode n = true := by
    rcases above_iff_tail.mp habove with rfl | ⟨c, -, hc⟩
    · exact hcont
    · exact w.container c n hc
  have := hv.notAncestor
  rw [ContainerNode.isHostIncludingInclusiveAncestorOfThis, if_pos hn,
    w.contains_of_above hfuel hd hps habove] at this
  cases this

end Blinkit.Dom
