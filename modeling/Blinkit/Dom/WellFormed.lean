import Mathlib.Data.Finset.Range
import Blinkit.Dom.ChildLists
import Blinkit.Dom.ContainerNode

/-!
# Well-formed heaps

* `SameNodes h h'` — the fields that no mutator writes are equal.
* `WellFormed h ch` — the links are the child lists `ch`, nothing is its own ancestor, and the
  flag `kIsConnectedFlag` says whether the root of a node is a document.

Principal results: `WellFormed.detachChild` and `WellFormed.attachChild`, the two steps that every
mutator is made of: unlinking a child and telling its subtree, linking a child and telling its
subtree. Both end, and both do to the child lists what the list operation does.
-/

set_option autoImplicit false

namespace Blinkit.Dom

open LinkedForest ChildLists Function

/-- The fields that are fixed when a node is created. -/
structure SameNodes (h h' : Heap) : Prop where
  size : h'.size = h.size
  nodeType : h'.nodeType = h.nodeType
  nodeName : h'.nodeName = h.nodeName
  document : h'.document = h.document

namespace SameNodes

theorem refl (h : Heap) : SameNodes h h := ⟨rfl, rfl, rfl, rfl⟩

theorem trans {h₁ h₂ h₃ : Heap} (a : SameNodes h₁ h₂) (b : SameNodes h₂ h₃) : SameNodes h₁ h₃ :=
  ⟨b.size.trans a.size, b.nodeType.trans a.nodeType, b.nodeName.trans a.nodeName,
    b.document.trans a.document⟩

theorem isContainerNode {h h' : Heap} (s : SameNodes h h') (n : NodeId) :
    h'.isContainerNode n = h.isContainerNode n := by
  simp only [Heap.isContainerNode, s.nodeType]

theorem isDocumentFragment {h h' : Heap} (s : SameNodes h h') (n : NodeId) :
    h'.isDocumentFragment n = h.isDocumentFragment n := by
  simp only [Heap.isDocumentFragment, s.nodeType]

end SameNodes

/-- **The tree invariant.** -/
structure WellFormed (h : Heap) (ch : NodeId → List NodeId) : Prop where
  represents : Represents h.links ch
  acyclic : Acyclic h.links.parent
  allocated : ∀ x y, h.links.parent x = some y → x < h.size ∧ y < h.size
  container : ∀ x y, h.links.parent x = some y → h.isContainerNode y = true
  document_type : ∀ n, n < h.size → (h.nodeType n = .document ↔ h.document n = n)
  document_root : ∀ n, h.document n = n → h.links.parent n = none
  connected_child : ∀ x y, h.links.parent x = some y → h.isConnected x = h.isConnected y
  connected_root : ∀ n, n < h.size → h.links.parent n = none →
    (h.isConnected n = true ↔ h.document n = n)

/-- The heaps agree on everything that the tree invariant mentions. -/
structure SameTree (h h' : Heap) : Prop extends SameNodes h h' where
  links : h'.links = h.links
  isConnected : h'.isConnected = h.isConnected

namespace SameTree

variable (h : Heap) (n : NodeId)

theorem save : SameTree h (h.save n) := by
  unfold Heap.save
  split <;> exact ⟨⟨rfl, rfl, rfl, rfl⟩, rfl, rfl⟩

theorem restore : SameTree h (h.restore n) := ⟨⟨rfl, rfl, rfl, rfl⟩, rfl, rfl⟩

theorem childrenChanged : SameTree h (h.childrenChanged n) := ⟨⟨rfl, rfl, rfl, rfl⟩, rfl, rfl⟩

theorem trans {h₁ h₂ h₃ : Heap} (a : SameTree h₁ h₂) (b : SameTree h₂ h₃) : SameTree h₁ h₃ :=
  ⟨a.toSameNodes.trans b.toSameNodes, b.links.trans a.links, b.isConnected.trans a.isConnected⟩

end SameTree

theorem WellFormed.congr {h h' : Heap} {ch : NodeId → List NodeId} (w : WellFormed h ch)
    (s : SameTree h h') : WellFormed h' ch where
  represents := by rw [s.links]; exact w.represents
  acyclic := by rw [s.links]; exact w.acyclic
  allocated := by rw [s.links, s.size]; exact w.allocated
  container x y hxy := by
    rw [s.toSameNodes.isContainerNode]
    exact w.container x y (s.links ▸ hxy)
  document_type := by rw [s.size, s.nodeType, s.document]; exact w.document_type
  document_root := by rw [s.document, s.links]; exact w.document_root
  connected_child := by rw [s.links, s.isConnected]; exact w.connected_child
  connected_root := by rw [s.size, s.links, s.isConnected, s.document]; exact w.connected_root

/-- A child list has at most as many members as there are nodes. -/
theorem length_le_of_allocated {l : Links NodeId} {ch : NodeId → List NodeId} {size : Nat}
    (hrep : Represents l ch) (halloc : ∀ x y, l.parent x = some y → x < size) (p : NodeId) :
    (ch p).length ≤ size := by
  have hsub : (ch p).toFinset ⊆ Finset.range size := by
    intro c hc
    rw [List.mem_toFinset, hrep.mem_iff] at hc
    exact Finset.mem_range.mpr (halloc c p hc)
  have hcard := Finset.card_le_card hsub
  rwa [List.toFinset_card_of_nodup (hrep.nodup p), Finset.card_range] at hcard

namespace WellFormed

variable {h : Heap} {ch : NodeId → List NodeId} {p c : NodeId} {fuel : Nat}

theorem mem_iff (w : WellFormed h ch) : c ∈ ch p ↔ h.links.parent c = some p :=
  w.represents.mem_iff p c

theorem length_le (w : WellFormed h ch) (p : NodeId) : (ch p).length ≤ h.size :=
  length_le_of_allocated w.represents (fun x y hxy => (w.allocated x y hxy).1) p

theorem childNodes_eq (w : WellFormed h ch) (hfuel : h.size < fuel) (p : NodeId) :
    h.childNodes fuel p = some (ch p) :=
  w.represents.walk_children ((w.length_le p).trans (Nat.le_of_lt hfuel))

/-- The visit of a subtree ends and meets exactly what is below its root. -/
theorem inclusiveDescendantsOf_spec (w : WellFormed h ch) (hfuel : h.size < fuel)
    (root : NodeId) : ∃ ds, h.inclusiveDescendantsOf fuel root = some ds ∧
      ∀ x, x ∈ ds ↔ Above h.links.parent x root := by
  have hwidth : ∀ q, (ch q).length ≤ fuel := fun q => (w.length_le q).trans (Nat.le_of_lt hfuel)
  obtain ⟨ds, hds⟩ := preorder_of_acyclic w.represents w.acyclic hwidth
    (fun x y hxy => Finset.mem_range.mpr (w.allocated x y hxy).2)
    (by rwa [Finset.card_range]) root
  exact ⟨ds, hds, fun x => mem_preorder w.represents hwidth hds⟩

/-- The flag is the same along a chain of parents. -/
theorem connected_above (w : WellFormed h ch) {x y : NodeId} (hxy : Above h.links.parent x y) :
    h.isConnected x = h.isConnected y := by
  induction hxy with
  | refl => rfl
  | tail _ hab ih => exact ih.trans (w.connected_child _ _ hab)

theorem not_document (w : WellFormed h ch) (hc : h.links.parent c = some p) :
    h.document c ≠ c := fun hd => by
  rw [w.document_root c hd] at hc; cases hc

end WellFormed

/-! ## Creation -/

namespace WellFormed

variable {h : Heap} {ch : NodeId → List NodeId}

/-- What has not been allocated is not linked. -/
theorem parent_unallocated (w : WellFormed h ch) {n : NodeId} (hn : h.size ≤ n) :
    h.links.parent n = none := by
  cases hp : h.links.parent n with
  | none => rfl
  | some q => exact absurd (w.allocated n q hp).1 (Nat.not_lt.mpr hn)

/-- A new node that is given the flag of a root keeps the invariant. -/
theorem create (w : WellFormed h ch) {h' : Heap} {d : NodeId} (hsize : h'.size = h.size + 1)
    (hlinks : h'.links = h.links) (hdoc : h'.document = update h.document h.size d)
    (htype : ∀ n, n < h.size → h'.nodeType n = h.nodeType n)
    (hconn : ∀ n, n < h.size → h'.isConnected n = h.isConnected n)
    (hnew : h'.nodeType h.size = .document ↔ d = h.size)
    (hflag : h'.isConnected h.size = true ↔ d = h.size) : WellFormed h' ch where
  represents := by rw [hlinks]; exact w.represents
  acyclic := by rw [hlinks]; exact w.acyclic
  allocated x y hxy := by
    rw [hlinks] at hxy
    obtain ⟨hx, hy⟩ := w.allocated x y hxy
    rw [hsize]
    exact ⟨Nat.lt_succ_of_lt hx, Nat.lt_succ_of_lt hy⟩
  container x y hxy := by
    rw [hlinks] at hxy
    have hy : h'.isContainerNode y = h.isContainerNode y := by
      simp only [Heap.isContainerNode, htype y (w.allocated x y hxy).2]
    rw [hy]
    exact w.container x y hxy
  document_type n hn := by
    by_cases hns : n = h.size
    · subst hns; simpa [hdoc] using hnew
    · rw [hsize] at hn
      have hlt : n < h.size := Nat.lt_of_le_of_ne (Nat.lt_succ_iff.mp hn) hns
      simpa [hdoc, hns, htype n hlt] using w.document_type n hlt
  document_root n hn := by
    rw [hlinks]
    by_cases hlt : n < h.size
    · exact w.document_root n (by simpa [hdoc, Nat.ne_of_lt hlt] using hn)
    · exact w.parent_unallocated (Nat.not_lt.mp hlt)
  connected_child x y hxy := by
    rw [hlinks] at hxy
    rw [hconn x (w.allocated x y hxy).1, hconn y (w.allocated x y hxy).2]
    exact w.connected_child x y hxy
  connected_root n hn hp := by
    by_cases hns : n = h.size
    · subst hns; simpa [hdoc] using hflag
    · rw [hsize] at hn
      have hlt : n < h.size := Nat.lt_of_le_of_ne (Nat.lt_succ_iff.mp hn) hns
      rw [hlinks] at hp
      simpa [hdoc, hns, hconn n hlt] using w.connected_root n hlt hp

theorem createNode (w : WellFormed h ch) {type : NodeType} (name : String) {d : NodeId}
    (htype : type ≠ .document) (hd : d < h.size) : WellFormed (h.createNode type name d) ch := by
  have hne : d ≠ h.size := Nat.ne_of_lt hd
  refine w.create rfl rfl rfl (fun n hn => ?_) (fun n hn => ?_) ?_ ?_
  · simp [Heap.createNode, Nat.ne_of_lt hn]
  · simp [Heap.createNode, Nat.ne_of_lt hn]
  · simp [Heap.createNode, htype, hne]
  · simp [Heap.createNode, hne]

theorem createDocument (w : WellFormed h ch) : WellFormed h.createDocument ch := by
  refine w.create rfl rfl rfl (fun n hn => ?_) (fun n hn => ?_) ?_ ?_
  · simp [Heap.createDocument, Heap.createNode, Nat.ne_of_lt hn]
  · simp [Heap.createDocument, Nat.ne_of_lt hn]
  · simp [Heap.createDocument, Heap.createNode]
  · simp [Heap.createDocument]

end WellFormed

theorem wellFormed_initial : WellFormed Heap.initial (fun _ => []) where
  represents := represents_empty
  acyclic := acyclic_of_roots fun _ => rfl
  allocated _ _ hxy := by cases hxy
  container _ _ hxy := by cases hxy
  document_type n hn := by cases hn
  document_root _ _ := rfl
  connected_child _ _ hxy := by cases hxy
  connected_root n hn := by cases hn

/-! ## Notifications -/

/-- The flags of the nodes in `ds` become `v`. -/
def Heap.setAllConnected (h : Heap) (ds : List NodeId) (v : Bool) : Heap :=
  { h with isConnected := fun n => if n ∈ ds then v else h.isConnected n }

theorem foldl_insertedInto (h : Heap) (p : NodeId) (ds : List NodeId) :
    ds.foldl (fun h n => if !h.isConnected p && !h.isContainerNode n then h
      else h.insertedInto p n) h =
      if h.isConnected p then h.setAllConnected ds true else h := by
  induction ds generalizing h with
  | nil => simp [Heap.setAllConnected]
  | cons d ds ih =>
    rw [List.foldl_cons]
    by_cases hp : h.isConnected p = true
    · have hstep : (if !h.isConnected p && !h.isContainerNode d then h else h.insertedInto p d) =
          h.setConnected d true := by simp [hp, Heap.insertedInto]
      have hp' : (h.setConnected d true).isConnected p = true := by
        by_cases hpd : p = d <;> simp [Heap.setConnected, hpd, hp]
      rw [hstep, ih, if_pos hp', if_pos hp]
      simp only [Heap.setAllConnected, Heap.setConnected, Heap.mk.injEq, true_and, and_true]
      funext n
      by_cases hn : n ∈ ds <;> by_cases hnd : n = d <;> simp [hn, hnd]
    · have hstep : (if !h.isConnected p && !h.isContainerNode d then h else h.insertedInto p d) =
          h := by simp [hp, Heap.insertedInto]
      rw [hstep, ih, if_neg hp, if_neg hp]

theorem foldl_removedFrom (h : Heap) {p : NodeId} {ds : List NodeId} (hp : p ∉ ds) :
    ds.foldl (fun h n => if !h.isContainerNode n && !h.isConnected n then h
      else h.removedFrom p n) h =
      if h.isConnected p then h.setAllConnected ds false else h := by
  induction ds generalizing h with
  | nil => simp [Heap.setAllConnected]
  | cons d ds ih =>
    obtain ⟨hpd, hpds⟩ : p ≠ d ∧ p ∉ ds := by simpa using hp
    rw [List.foldl_cons]
    by_cases hc : h.isConnected p = true
    · -- a leaf that is skipped has the flag cleared already
      have hstep : (if !h.isContainerNode d && !h.isConnected d then h else h.removedFrom p d) =
          h.setConnected d false := by
        by_cases hd : h.isConnected d = true
        · simp [hd, hc, Heap.removedFrom]
        · have hd' : h.isConnected d = false := by simpa using hd
          have hsame : h.setConnected d false = h := by
            simp only [Heap.setConnected, ← hd', update_eq_self]
          simp [hd', hc, Heap.removedFrom, hsame]
      have hc' : (h.setConnected d false).isConnected p = true := by
        simp [Heap.setConnected, hpd, hc]
      rw [hstep, ih _ hpds, if_pos hc', if_pos hc]
      simp only [Heap.setAllConnected, Heap.setConnected, Heap.mk.injEq, true_and, and_true]
      funext n
      by_cases hn : n ∈ ds <;> by_cases hnd : n = d <;> simp [hn, hnd]
    · have hstep : (if !h.isContainerNode d && !h.isConnected d then h else h.removedFrom p d) =
          h := by simp [hc, Heap.removedFrom]
      rw [hstep, ih _ hpds, if_neg hc, if_neg hc]

/-! ## The two steps -/

namespace WellFormed

variable {h : Heap} {ch : NodeId → List NodeId} {p c : NodeId} {fuel : Nat}

/-- **Unlinking a child and telling its subtree.** -/
theorem detachChild (w : WellFormed h ch) (hfuel : h.size < fuel) {l₁ l₂ : List NodeId}
    (hs : ch p = l₁ ++ c :: l₂) :
    ∃ conn, (h.removeBetween p l₁.getLast? l₂.head? c).notifyNodeRemoved fuel p c =
        some { h with links := h.links.remove p l₁.getLast? l₂.head? c, isConnected := conn } ∧
      WellFormed { h with links := h.links.remove p l₁.getLast? l₂.head? c, isConnected := conn }
        (detach ch c) := by
  have hcp : h.links.parent c = some p := w.mem_iff.mp (by rw [hs]; simp)
  have hnd : (l₁ ++ c :: l₂).Nodup := hs ▸ w.represents.nodup p
  have hcl : c ∉ l₁ := fun hc => (List.nodup_append.mp hnd).2.2 c hc c (by simp) rfl
  have hcon : ∀ q, q ≠ p → c ∉ ch q := fun q hq =>
    w.represents.disjoint (Ne.symm hq) (w.mem_iff.mpr hcp)
  have hparent := Links.remove_parent h.links p c l₁.getLast? l₂.head?
  have hrep := w.represents.remove hs
  rw [← detach_eq_update ch p hs hcl hcon] at hrep
  -- the pointers are in place; now the visit of the subtree of `c`
  have hac : Acyclic (h.links.remove p l₁.getLast? l₂.head? c).parent :=
    hparent ▸ w.acyclic.detach c
  have halloc : ∀ x y, (h.links.remove p l₁.getLast? l₂.head? c).parent x = some y →
      x < h.size ∧ y < h.size := by
    intro x y hxy
    rw [hparent] at hxy
    exact w.allocated x y (parent_of_detach hxy)
  have hlen : ∀ q, (detach ch c q).length ≤ fuel := fun q =>
    (List.length_erase_le).trans ((w.length_le q).trans (Nat.le_of_lt hfuel))
  obtain ⟨ds, hds⟩ := preorder_of_acyclic hrep hac hlen
    (fun x y hxy => Finset.mem_range.mpr (halloc x y hxy).2) (by rwa [Finset.card_range]) c
  have hmem : ∀ x, x ∈ ds ↔ Above (h.links.remove p l₁.getLast? l₂.head? c).parent x c :=
    fun x => mem_preorder hrep hlen hds
  have hpds : p ∉ ds := by
    intro hp
    rw [hmem, hparent] at hp
    exact w.acyclic c p hcp hp.of_detach
  refine ⟨if h.isConnected p then fun n => if n ∈ ds then false else h.isConnected n
    else h.isConnected, ?_, ⟨hrep, hac, halloc, ?_, w.document_type, ?_, ?_, ?_⟩⟩
  · simp only [Heap.notifyNodeRemoved, Heap.inclusiveDescendantsOf, Heap.removeBetween,
      Heap.adoptIfNeeded, hds, Option.bind_eq_bind, Option.bind_some]
    rw [foldl_removedFrom _ hpds]
    split <;> rfl
  · intro x y hxy
    rw [hparent] at hxy
    exact w.container x y (parent_of_detach hxy)
  · intro n hn
    simp only [hparent]
    have := w.document_root n hn
    by_cases hnc : n = c
    · simp [hnc]
    · simpa [hnc] using this
  · intro x y hxy
    have hxy' : h.links.parent x = some y := by
      rw [hparent] at hxy
      exact parent_of_detach hxy
    have hxc : x ≠ c := by
      rintro rfl
      simp [hparent] at hxy
    have hiff : x ∈ ds ↔ y ∈ ds := by
      rw [hmem, hmem]
      exact above_iff_of_parent hxy hxc
    by_cases hp : h.isConnected p = true
    · by_cases hyd : y ∈ ds
      · simp [hp, hiff.mpr hyd, hyd]
      · simp [hp, mt hiff.mp hyd, hyd, w.connected_child x y hxy']
    · simp [hp, w.connected_child x y hxy']
  · intro n hn hroot
    by_cases hnc : n = c
    · subst hnc
      have hdoc : h.document n ≠ n := w.not_document hcp
      have hnds : n ∈ ds := (hmem n).mpr (.refl n)
      by_cases hp : h.isConnected p = true
      · simp [hp, hnds, hdoc]
      · simp [hp, hdoc, w.connected_child n p hcp]
    · have hroot' : h.links.parent n = none := by simpa [hparent, hnc] using hroot
      have hnds : n ∉ ds := by
        intro hm
        exact hnc (((hmem n).mp hm).eq_of_root hroot)
      rw [← w.connected_root n hn hroot']
      by_cases hp : h.isConnected p = true <;> simp [hp, hnds]

/-- **Linking a root and telling its subtree.** `l` are the links after the pointer updates. -/
theorem attachChild (w : WellFormed h ch) (hfuel : h.size < fuel) {l : Links NodeId}
    {ch' : NodeId → List NodeId} (hrep : Represents l ch')
    (hparent : l.parent = update h.links.parent c (some p)) (hc : h.links.parent c = none)
    (hcs : c < h.size) (hps : p < h.size) (hcont : h.isContainerNode p = true)
    (hdoc : h.document c ≠ c) (hpc : ¬ Above h.links.parent p c) :
    ∃ conn, Heap.notifyNodeInsertedInternal { h with links := l } fuel p c =
        some { h with links := l, isConnected := conn } ∧
      WellFormed { h with links := l, isConnected := conn } ch' := by
  have hac : Acyclic l.parent := hparent ▸ w.acyclic.attach hc hpc
  have halloc : ∀ x y, l.parent x = some y → x < h.size ∧ y < h.size := by
    intro x y hxy
    rw [hparent] at hxy
    by_cases hxc : x = c
    · subst hxc
      obtain rfl : p = y := by simpa using hxy
      exact ⟨hcs, hps⟩
    · exact w.allocated x y (by simpa [hxc] using hxy)
  have hlen : ∀ q, (ch' q).length ≤ fuel := fun q =>
    (length_le_of_allocated hrep (fun x y hxy => (halloc x y hxy).1) q).trans (Nat.le_of_lt hfuel)
  obtain ⟨ds, hds⟩ := preorder_of_acyclic hrep hac hlen
    (fun x y hxy => Finset.mem_range.mpr (halloc x y hxy).2) (by rwa [Finset.card_range]) c
  have hmem : ∀ x, x ∈ ds ↔ Above l.parent x c := fun x => mem_preorder hrep hlen hds
  refine ⟨if h.isConnected p then fun n => if n ∈ ds then true else h.isConnected n
    else h.isConnected, ?_, ⟨hrep, hac, halloc, ?_, w.document_type, ?_, ?_, ?_⟩⟩
  · simp only [Heap.notifyNodeInsertedInternal, Heap.inclusiveDescendantsOf, hds,
      Option.bind_eq_bind, Option.bind_some]
    rw [foldl_insertedInto]
    split <;> rfl
  · intro x y hxy
    rw [hparent] at hxy
    by_cases hxc : x = c
    · subst hxc
      obtain rfl : p = y := by simpa using hxy
      exact hcont
    · exact w.container x y (by simpa [hxc] using hxy)
  · intro n hn
    have hnc : n ≠ c := by rintro rfl; exact hdoc hn
    simpa [hparent, hnc] using w.document_root n hn
  · intro x y hxy
    have hxy₀ := hxy
    rw [hparent] at hxy
    by_cases hxc : x = c
    · subst hxc
      obtain rfl : p = y := by simpa using hxy
      have hx : h.isConnected x = false := by
        have := w.connected_root x hcs hc
        simpa [hdoc] using this
      by_cases hp : h.isConnected p = true
      · simp [hp, (hmem x).mpr (.refl x)]
      · simp [hp, hx]
    · have hxy' : h.links.parent x = some y := by simpa [hxc] using hxy
      have hiff : x ∈ ds ↔ y ∈ ds := by
        rw [hmem, hmem]
        exact above_iff_of_parent hxy₀ hxc
      by_cases hp : h.isConnected p = true
      · by_cases hyd : y ∈ ds
        · simp [hp, hiff.mpr hyd, hyd]
        · simp [hp, mt hiff.mp hyd, hyd, w.connected_child x y hxy']
      · simp [hp, w.connected_child x y hxy']
  · intro n hn hroot
    have hroot₀ := hroot
    have hnc : n ≠ c := by rintro rfl; simp [hparent] at hroot
    have hroot' : h.links.parent n = none := by simpa [hparent, hnc] using hroot
    have hnds : n ∉ ds := fun hm => hnc (((hmem n).mp hm).eq_of_root hroot₀)
    rw [← w.connected_root n hn hroot']
    by_cases hp : h.isConnected p = true <;> simp [hp, hnds]

end WellFormed

end Blinkit.Dom
