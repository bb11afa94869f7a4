import Blinkit.Dom.Documents

/-!
# Connectedness and the questions about ancestors

* `Heap.treeRoot` — `Node::TreeRoot`, which answers from the tree scope when the node is connected.
* `LocalStep d` — a call on the nodes of the document `d`; the parser may append anything but the
  document itself.

Principal results: `localRun_settled` (the tree invariant along a run), `connected_iff_root` (the
flag says whether the root is the document), `isDescendantOf_eq_search` (the shortcuts of
`Node::IsDescendantOf` answer what its loop would) and `connectedness_agrees`.
-/

set_option autoImplicit false

namespace Blinkit.Dom

open LinkedForest ChildLists Function Transition

variable {h h' : Heap} {ch : NodeId → List NodeId} {d n r other q : NodeId} {fuel : Nat}

/-- `Node::TreeRoot`. A connected node is in the tree scope of its document. -/
def Heap.treeRoot (h : Heap) (fuel : Nat) (n : NodeId) : Option NodeId :=
  if h.isConnected n then some (h.document n) else climb h.parentNode fuel n

/-! ## Runs on the nodes of one document -/

/-- One call of a run on the nodes of the document `d`. -/
def LocalStep (d : NodeId) (h : Heap) (c : Call) (h' : Heap) : Prop :=
  c.Local d ∧ AnyStep h c h'

/-- A call that returns keeps the invariant. Of the parser's insertions, those that return have
changed nothing or have appended a root that is not above its container. -/
theorem LocalStep.settled {c : Call} (s : Settled h d ch) (hstep : LocalStep d h c h') :
    ∃ ch', Settled h' d ch' := by
  obtain ⟨hlocal, ⟨htyped, hdoc⟩, fuel, r, hfuel, hexec, rfl⟩ := hstep
  by_cases hroot : c.ParserRoot h
  · exact call_settled s hfuel ⟨htyped, hroot, hlocal⟩ hexec
  · cases c with
    | parserAppendChild p n =>
      obtain ⟨e, he⟩ := parserChildException_total s.wellFormed hfuel p n
      obtain ⟨h₁, happ, rfl⟩ : ∃ h₁, ContainerNode.parserAppendChild h fuel p n = some h₁ ∧
          (⟨h₁, none, e⟩ : Result) = r := by
        simpa [Call.exec, he, Option.bind_eq_some_iff] using hexec
      rcases parserAppendChild_returns s.wellFormed hfuel htyped.2.1 happ with
        rfl | ⟨-, hq, habove⟩
      · exact ⟨ch, s⟩
      · exact absurd ⟨hq, hdoc, habove⟩ hroot
    | _ => exact absurd trivial hroot

/-- **The tree invariant holds after every run.** -/
theorem localRun_settled {calls : List Call} (hfresh : Fresh h d)
    (hrun : Steps (LocalStep d) h calls h') : ∃ ch, Settled h' d ch := by
  refine Steps.invariant (I := fun h => ∃ ch, Settled h d ch) ?_ ⟨_, hfresh.settled⟩ hrun
  rintro h c h' ⟨ch, s⟩ hstep
  exact hstep.settled s

/-! ## The root -/

namespace WellFormed

/-- What is above a node has been allocated. -/
theorem above_allocated (w : WellFormed h ch) (hn : n < h.size) (hr : Above h.links.parent n r) :
    r < h.size := by
  rcases above_iff_tail.mp hr with rfl | ⟨c, -, hc⟩
  · exact hn
  · exact (w.allocated c r hc).2

/-- The climb along the parent links ends at the root. -/
theorem climb_parent (w : WellFormed h ch) (hfuel : h.size < fuel) (n : NodeId) :
    ∃ r, climb h.parentNode fuel n = some r ∧ Above h.links.parent n r ∧
      h.links.parent r = none := by
  have hcard : (Finset.range h.size).card < fuel := by rwa [Finset.card_range]
  obtain ⟨as, has⟩ := walk_parent_of_acyclic w.acyclic
    (fun x y hxy => Finset.mem_range.mpr (w.allocated x y hxy).1) n hcard
  exact climb_of_walk has

/-- **The flag says whether the root of a node is its document.** -/
theorem connected_iff_root (w : WellFormed h ch) (hd : SingleDocument h d) (hn : n < h.size)
    (hr : Above h.links.parent n r) (hroot : h.links.parent r = none) :
    h.isConnected n = true ↔ r = d := by
  have hrs : r < h.size := w.above_allocated hn hr
  rw [w.connected_above hr, w.connected_root r hrs hroot, hd r hrs, eq_comm]

/-- `TreeRoot` answers what the climb finds. -/
theorem treeRoot_eq_climb (w : WellFormed h ch) (hd : SingleDocument h d) (hfuel : h.size < fuel)
    (hn : n < h.size) : h.treeRoot fuel n = climb h.parentNode fuel n := by
  obtain ⟨r, hclimb, hr, hroot⟩ := w.climb_parent hfuel n
  unfold Heap.treeRoot
  split
  · rename_i hconn
    rw [hclimb, hd n hn, (w.connected_iff_root hd hn hr hroot).mp hconn]
  · rfl

/-! ## Ancestors -/

/-- A proper ancestor has children and the flag of its descendant. -/
theorem ancestor_spec (w : WellFormed h ch) (hq : h.links.parent n = some q)
    (hqo : Above h.links.parent q other) :
    h.firstChild other ≠ none ∧ h.isConnected n = h.isConnected other ∧ n ≠ other := by
  have habove : Above h.links.parent n other := (Above.of_parent hq).trans hqo
  have hne : n ≠ other := by
    rintro rfl
    exact w.acyclic n q hq hqo
  obtain ⟨c, -, hc⟩ := (above_iff_tail.mp habove).resolve_left hne
  refine ⟨fun hfirst => ?_, w.connected_above habove, hne⟩
  have hmem : c ∈ ch other := w.mem_iff.mpr hc
  rw [Heap.firstChild, if_pos (w.container c other hc), w.first_eq_none] at hfirst
  simp [hfirst] at hmem

/-- The loop of `IsDescendantOf` finds the proper ancestors. -/
theorem search_iff (w : WellFormed h ch) {b : Bool}
    (hiff : b = true ↔ ∃ q, h.links.parent n = some q ∧ Above h.links.parent q other) :
    b = true ↔ n ≠ other ∧ Above h.links.parent n other := by
  rw [hiff]
  constructor
  · rintro ⟨q, hq, hqo⟩
    exact ⟨(w.ancestor_spec hq hqo).2.2, (Above.of_parent hq).trans hqo⟩
  · rintro ⟨hne, habove⟩
    exact (above_iff_head.mp habove).resolve_left hne

/-- Below the document are exactly the connected nodes other than itself. -/
theorem above_document_iff (w : WellFormed h ch) (hd : SingleDocument h d) (hfuel : h.size < fuel)
    (hn : n < h.size) : Above h.links.parent n d ↔ h.isConnected n = true := by
  obtain ⟨r, -, hr, hroot⟩ := w.climb_parent hfuel n
  rw [w.connected_iff_root hd hn hr hroot]
  constructor
  · intro habove
    have hds : d < h.size := w.above_allocated hn habove
    rcases habove.total hr with hdr | hrd
    · exact (hdr.eq_of_root (w.document_root d (hd d hds))).symm
    · exact hrd.eq_of_root hroot
  · rintro rfl
    exact hr

/-- **The shortcuts of `IsDescendantOf` answer what its loop would.** -/
theorem isDescendantOf_eq_search (w : WellFormed h ch) (hd : SingleDocument h d)
    (hfuel : h.size < fuel) (hn : n < h.size) (ho : other < h.size) :
    h.isDescendantOf fuel n other = search h.parentNode other fuel (h.parentNode n) := by
  obtain ⟨b, hb, hiff⟩ := w.search_parent hfuel n other
  rw [hb]
  unfold Heap.isDescendantOf
  split
  · -- no children, or another flag: the loop would not find the node
    rename_i hshort
    cases b with
    | false => rfl
    | true =>
      obtain ⟨q, hq, hqo⟩ := hiff.mp rfl
      obtain ⟨hfirst, hconn, -⟩ := w.ancestor_spec hq hqo
      exact absurd hconn (hshort.resolve_left hfirst)
  · rename_i hlong
    rw [if_neg (by simp [hd n hn, hd other ho])]
    split
    · -- the document: every other connected node is below it
      rename_i hscope
      obtain rfl : d = other := by
        rw [Heap.isTreeScope, hd other ho] at hscope
        exact beq_iff_eq.mp hscope
      have hconn : h.isConnected n = true := by
        have hflag : h.isConnected n = h.isConnected d :=
          not_not.mp fun hne => hlong (.inr hne)
        rw [hflag, w.connected_root d ho (w.document_root d (hd d ho))]
        exact hd d ho
      have hbn : b = true ↔ n ≠ d := by
        rw [w.search_iff hiff, w.above_document_iff hd hfuel hn]
        exact and_iff_left hconn
      rw [Option.some.injEq, Bool.eq_iff_iff, hbn, Heap.isTreeScope, hd n hn,
        Bool.not_eq_true', beq_eq_false_iff_ne]
      exact ne_comm
    · exact hb

end WellFormed

/-- **Connectedness.** Start from freshly created nodes of one document and run any calls. Then
the flag of a node is set exactly when the climb along the parent links ends at the document,
`TreeRoot` answers where it ends, and `IsDescendantOf` and `contains` answer what the walk along
the parent links finds: the proper, or inclusive, ancestors. -/
theorem connectedness_agrees {calls : List Call} (hfresh : Fresh h d)
    (hrun : Steps (LocalStep d) h calls h') (hfuel : h'.size < fuel) :
    (∀ n, n < h'.size → ∃ r, climb h'.parentNode fuel n = some r ∧
      (h'.isConnected n = true ↔ r = d) ∧ h'.treeRoot fuel n = some r) ∧
    ∀ n other, n < h'.size → other < h'.size →
      ∃ b, search h'.parentNode other fuel (h'.parentNode n) = some b ∧
        (b = true ↔ n ≠ other ∧ Above h'.links.parent n other) ∧
        h'.isDescendantOf fuel n other = some b ∧
        h'.contains fuel other n = some (decide (other = n) || b) := by
  obtain ⟨ch, s⟩ := localRun_settled hfresh hrun
  have w := s.wellFormed
  have hd := s.singleDocument
  refine ⟨fun n hn => ?_, fun n other hn ho => ?_⟩
  · obtain ⟨r, hclimb, hr, hroot⟩ := w.climb_parent hfuel n
    exact ⟨r, hclimb, w.connected_iff_root hd hn hr hroot,
      (w.treeRoot_eq_climb hd hfuel hn).trans hclimb⟩
  · obtain ⟨b, hb, hiff⟩ := w.search_parent hfuel n other
    have hdesc : h'.isDescendantOf fuel n other = some b :=
      (w.isDescendantOf_eq_search hd hfuel hn ho).trans hb
    refine ⟨b, hb, w.search_iff hiff, hdesc, ?_⟩
    unfold Heap.contains
    split
    · rename_i heq
      simp [heq]
    · rename_i hne
      rw [hdesc, decide_eq_false hne, Bool.false_or]

/-- `1` becomes a child of the document and the parser appends `2` to `1`. -/
theorem connectedness_agrees_twoElements :
    ∃ h', Steps (LocalStep 0) twoElements [.appendChild 0 1, .parserAppendChild 1 2] h' ∧
      (∀ n, n < h'.size → ∃ r, climb h'.parentNode 4 n = some r ∧
        (h'.isConnected n = true ↔ r = 0) ∧ h'.treeRoot 4 n = some r) ∧
      ∀ n other, n < h'.size → other < h'.size →
        ∃ b, search h'.parentNode other 4 (h'.parentNode n) = some b ∧
          (b = true ↔ n ≠ other ∧ Above h'.links.parent n other) ∧
          h'.isDescendantOf 4 n other = some b ∧
          h'.contains 4 other n = some (decide (other = n) || b) := by
  have hrun : Steps (LocalStep 0) twoElements [.appendChild 0 1, .parserAppendChild 1 2] _ :=
    .cons ⟨trivial, ⟨⟨by decide, by decide⟩, trivial⟩, 4, _, by decide, rfl, rfl⟩
      (.cons ⟨trivial, ⟨⟨by decide, by decide, by decide⟩, (by decide : (0 : Nat) ≠ 2)⟩,
        4, _, by decide, rfl, rfl⟩ (.nil _))
  exact ⟨_, hrun, connectedness_agrees twoElements_fresh hrun (by decide)⟩

end Blinkit.Dom
