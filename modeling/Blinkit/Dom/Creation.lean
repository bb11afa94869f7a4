import Blinkit.Dom.Calls
import Blinkit.Dom.Ledger
import Blinkit.Dom.ScriptCalls

/-!
# Nodes that a script creates

* `Household h d ch` — what every run of a script keeps: the tree of one document, the ledger of
  its owners, and nodes of the five kinds a script meets.
* `Grown h h'` — new nodes have come, the old ones are as they were.
* `Owned h h' c` — every new node but `c` has a parent.

Principal results: `household_cloneDeep`, `household_cloneNode` and `household_parse`.
-/

set_option autoImplicit false

namespace Blinkit.Dom

open LinkedForest ChildLists Function

/-- The kinds of nodes a script makes or meets. -/
def Kind (type : NodeType) : Prop :=
  type = .document ∨ type = .element ∨ type = .documentFragment ∨ type = .text ∨ type = .comment

/-- **The invariant of a run of a script.** -/
structure Household (h : Heap) (d : NodeId) (ch : NodeId → List NodeId) : Prop where
  document : d < h.size
  settled : Settled h d ch
  ledger : Ledger h
  fragments : FragmentsAreRoots h
  kinds : ∀ n, n < h.size → Kind (h.nodeType n)
  /-- A wrapper belongs to a node that has not been deleted. -/
  wrapped : ∀ n, h.contextObject n = true → n < h.size ∧ n ∉ h.freed

/-- The old nodes are as they were; the new ones have no wrapper and are not in the pool. -/
structure Grown (h h' : Heap) : Prop where
  size : h.size ≤ h'.size
  nodeType : ∀ n, n < h.size → h'.nodeType n = h.nodeType n
  document : ∀ n, n < h.size → h'.document n = h.document n
  parent : ∀ n, n < h.size → h'.links.parent n = h.links.parent n
  contextObject : ∀ n, h'.contextObject n = true ↔ h.contextObject n = true
  contextRetained : ∀ n, h'.contextRetained n = true ↔ h.contextRetained n = true
  pooled : ∀ n, n ∈ h'.gcObjects ↔ n ∈ h.gcObjects
  freed : h'.freed = h.freed

/-- Every new node has a parent. -/
def Parented (h h' : Heap) : Prop := ∀ x, h.size ≤ x → x < h'.size → h'.links.parent x ≠ none

variable {h h' m : Heap} {d n p c : NodeId} {ch : NodeId → List NodeId}

theorem Heap.size_lt_bound (h : Heap) : h.size < h.bound := Nat.lt_succ_self _

theorem Grown.refl (h : Heap) : Grown h h :=
  ⟨Nat.le_refl _, fun _ _ => rfl, fun _ _ => rfl, fun _ _ => rfl, fun _ => .rfl, fun _ => .rfl,
    fun _ => .rfl, rfl⟩

theorem Grown.trans (a : Grown h m) (b : Grown m h') : Grown h h' where
  size := a.size.trans b.size
  nodeType n hn := (b.nodeType n (hn.trans_le a.size)).trans (a.nodeType n hn)
  document n hn := (b.document n (hn.trans_le a.size)).trans (a.document n hn)
  parent n hn := (b.parent n (hn.trans_le a.size)).trans (a.parent n hn)
  contextObject n := (b.contextObject n).trans (a.contextObject n)
  contextRetained n := (b.contextRetained n).trans (a.contextRetained n)
  pooled n := (b.pooled n).trans (a.pooled n)
  freed := b.freed.trans a.freed

theorem Parented.refl (h : Heap) : Parented h h := fun _ hle hlt =>
  absurd hlt (Nat.not_lt.mpr hle)

theorem Parented.trans (a : Parented h m) (b : Parented m h') (g : Grown m h') :
    Parented h h' := by
  intro x hle hlt
  by_cases hm : x < m.size
  · rw [g.parent x hm]
    exact a x hle hm
  · exact b x (Nat.not_lt.mp hm) hlt

namespace Household

/-! ## One new node -/

theorem createNode (k : Household h d ch) {type : NodeType} (name : String)
    (htype : type ≠ .document) (hkind : Kind type) :
    Household (h.createNode type name d) d ch ∧ Grown h (h.createNode type name d) := by
  have hold : ∀ {α : Type} (f : NodeId → α) (v : α) (n : NodeId), n < h.size →
      update f h.size v n = f n := fun f v n hn => update_of_ne (Nat.ne_of_lt hn) v f
  have hroot : h.links.parent h.size = none :=
    k.settled.wellFormed.parent_unallocated (Nat.le_refl _)
  have hnp : h.size ∉ h.gcObjects := fun hg => Nat.lt_irrefl _ (k.ledger.pooled _ hg).1
  -- the flags of the new node were clear already
  have hobj : ∀ n, update h.contextObject h.size false n = true ↔ h.contextObject n = true := by
    intro n
    rcases eq_or_ne n h.size with rfl | hn
    · rw [update_self]
      exact ⟨fun hf => absurd hf Bool.false_ne_true,
        fun ht => absurd (k.wrapped _ ht).1 (Nat.lt_irrefl _)⟩
    · rw [update_of_ne hn]
  have hret : ∀ n, update h.contextRetained h.size false n = true ↔
      h.contextRetained n = true := by
    intro n
    rcases eq_or_ne n h.size with rfl | hn
    · rw [update_self]
      exact ⟨fun hf => absurd hf Bool.false_ne_true,
        fun ht => absurd (k.ledger.retained _ ht).1 (Nat.lt_irrefl _)⟩
    · rw [update_of_ne hn]
  have hretf : ∀ n, h.contextRetained n = false →
      update h.contextRetained h.size false n = false := fun n hf =>
    Bool.eq_false_iff.mpr fun ht => by rw [(hret n).mp ht] at hf; cases hf
  refine ⟨⟨Nat.lt_succ_of_lt k.document, createNode_settled k.settled name htype k.document, ⟨?_, ?_, k.ledger.nodup, ?_⟩, ?_, ?_, ?_⟩,
    ⟨Nat.le_succ _, hold h.nodeType type, hold h.document d, fun _ _ => rfl, hobj, hret,
      fun _ => .rfl, rfl⟩⟩
  · intro n hg
    obtain ⟨hn, hp, hdoc, hr⟩ := k.ledger.pooled n hg
    refine ⟨Nat.lt_succ_of_lt hn, hp, ?_, hretf n hr⟩
    show update h.document h.size d n ≠ n
    rw [hold h.document d n hn]
    exact hdoc
  · intro n
    show update h.inGCPool h.size false n = true ↔ n ∈ h.gcObjects
    rcases eq_or_ne n h.size with rfl | hn
    · rw [update_self]
      exact iff_of_false Bool.false_ne_true hnp
    · rw [update_of_ne hn]
      exact k.ledger.flag n
  · intro n hr
    obtain ⟨hn, hp, hdoc, ho⟩ := k.ledger.retained n ((hret n).mp hr)
    refine ⟨Nat.lt_succ_of_lt hn, hp, ?_, (hobj n).mpr ho⟩
    show update h.document h.size d n ≠ n
    rw [hold h.document d n hn]
    exact hdoc
  · intro x hx
    show h.links.parent x = none
    rcases eq_or_ne x h.size with rfl | hxs
    · exact hroot
    · refine k.fragments x ?_
      have : (h.createNode type name d).nodeType x = h.nodeType x := update_of_ne hxs _ _
      simpa only [Heap.isDocumentFragment, this] using hx
  · intro n hn
    show Kind (update h.nodeType h.size type n)
    rcases eq_or_ne n h.size with rfl | hne
    · rw [update_self]
      exact hkind
    · rw [update_of_ne hne]
      exact k.kinds n (Nat.lt_of_le_of_ne (Nat.lt_succ_iff.mp hn) hne)
  · intro n ho
    obtain ⟨hn, hf⟩ := k.wrapped n ((hobj n).mp ho)
    exact ⟨Nat.lt_succ_of_lt hn, hf⟩

/-- A mutator keeps the invariant when it keeps the tree. -/
theorem handover {ch' : NodeId → List NodeId} (k : Household h d ch) (s : Settled h' d ch')
    (r : Handover h h') : Household h' d ch' where
  document := r.size ▸ k.document
  settled := s
  ledger := r.ledger
  fragments := r.fragmentsAreRoots k.fragments
  kinds n hn := by
    rw [r.nodeType]
    exact k.kinds n (r.size ▸ hn)
  wrapped n hn := by
    rw [r.size, r.freed]
    exact k.wrapped n (r.contextObject ▸ hn)

/-! ## Linking a new node -/

/-- A node that nobody owns. -/
structure Unowned (h : Heap) (n : NodeId) : Prop where
  allocated : n < h.size
  notDocument : h.document n ≠ n
  root : h.links.parent n = none
  notPooled : n ∉ h.gcObjects
  notRetained : h.contextRetained n = false

theorem new_unowned (k : Household h d ch) {type : NodeType} (name : String) :
    Unowned (h.createNode type name d) h.size where
  allocated := Nat.lt_succ_self _
  notDocument := by
    show update h.document h.size d h.size ≠ h.size
    rw [update_self]
    exact Nat.ne_of_lt k.document
  root := k.settled.wellFormed.parent_unallocated (Nat.le_refl _)
  notPooled hg := Nat.lt_irrefl _ (k.ledger.pooled _ hg).1
  notRetained := update_self _ _ _

/-- What linking an unowned node `c` under `p` changes. -/
structure Linked (h h' : Heap) (p c : NodeId) : Prop extends SameNodes h h' where
  contextObject : h'.contextObject = h.contextObject
  freed : h'.freed = h.freed
  retained : ∀ n, h'.contextRetained n = true ↔ h.contextRetained n = true
  pooled : ∀ n, n ∈ h'.gcObjects ↔ n ∈ h.gcObjects
  parent : ∀ x, h'.links.parent x = if x = c then some p else h.links.parent x

/-- A list that gets one more member, at its end. -/
theorem parent_of_append {l : Links NodeId} {ch' : NodeId → List NodeId}
    (w : WellFormed h ch) (hrep : Represents l ch') (hch : ch' = update ch p (ch p ++ [c]))
    (x : NodeId) : l.parent x = if x = c then some p else h.links.parent x := by
  have hmem : ∀ q, x ∈ ch' q ↔ x ∈ ch q ∨ (q = p ∧ x = c) := by
    intro q
    rw [hch]
    rcases eq_or_ne q p with rfl | hq
    · simp [update_self]
    · simp [hq]
  split
  · rename_i hx
    exact (hrep.mem_iff p x).mp ((hmem p).mpr (.inr ⟨rfl, hx⟩))
  · rename_i hx
    have hiff : ∀ q, l.parent x = some q ↔ h.links.parent x = some q := fun q => by
      rw [← hrep.mem_iff, ← w.mem_iff, hmem]
      simp [hx]
    cases hq : h.links.parent x with
    | some q => exact (hiff q).mpr hq
    | none =>
      cases hq' : l.parent x with
      | none => rfl
      | some q =>
        rw [(hiff q).mp hq'] at hq
        cases hq

theorem linked_of_handover {ch' : NodeId → List NodeId} (k : Household h d ch)
    (u : Unowned h c) (s : Settled h' d ch') (r : Handover h h')
    (hch : ch' = update ch p (ch p ++ [c])) :
    Household h' d ch' ∧ Linked h h' p c := by
  have hparent := parent_of_append k.settled.wellFormed s.wellFormed.represents hch
  refine ⟨k.handover s r, r.toSameNodes, r.contextObject, r.freed, fun n => ?_, fun n => ?_,
    hparent⟩
  · rw [r.retained, hparent]
    constructor
    · exact And.left
    · intro hn
      have hnc : n ≠ c := by
        rintro rfl
        rw [u.notRetained] at hn
        cases hn
      rw [if_neg hnc]
      exact ⟨hn, (k.ledger.retained n hn).2.1⟩
  · rw [r.pooled, hparent]
    split
    · rename_i hn
      rw [hn]
      exact iff_of_false (fun hc => nomatch hc.1) u.notPooled
    · constructor
      · rintro ⟨hroot, hg | hp⟩
        · exact hg
        · exact absurd hroot hp
      · intro hg
        exact ⟨(k.ledger.pooled n hg).2.1, .inl hg⟩

/-- The new nodes, one of which is linked. -/
theorem Linked.grown (g : Grown h m) (b : Linked m h' p c) (hc : h.size ≤ c) : Grown h h' where
  size := by
    rw [b.size]
    exact g.size
  nodeType n hn := by
    rw [b.nodeType]
    exact g.nodeType n hn
  document n hn := by
    rw [b.document]
    exact g.document n hn
  parent n hn := by
    rw [b.parent, if_neg (Nat.ne_of_lt (hn.trans_le hc))]
    exact g.parent n hn
  contextObject n := by
    rw [b.contextObject]
    exact g.contextObject n
  contextRetained n := (b.retained n).trans (g.contextRetained n)
  pooled n := (b.pooled n).trans (g.pooled n)
  freed := b.freed.trans g.freed

/-- **The parser appends a new node.** -/
theorem appendNew (k : Household h d ch) {parent : NodeId} {type : NodeType} (name : String)
    (htype : type = .text ∨ type = .comment ∨ type = .element) (hp : parent < h.size)
    (hcont : h.isContainerNode parent = true) (hpd : parent ≠ d) :
    ∃ h', Dom.appendNew h d parent type name = some h' ∧ (∃ ch', Household h' d ch') ∧
      Grown h h' ∧ h'.size = h.size + 1 ∧ Parented h h' ∧ h'.nodeType h.size = type := by
  have hdoc : type ≠ .document := by rcases htype with rfl | rfl | rfl <;> decide
  have hfrag : type ≠ .documentFragment := by rcases htype with rfl | rfl | rfl <;> decide
  have hkind : Kind type := by rcases htype with rfl | rfl | rfl <;> simp [Kind]
  obtain ⟨k₁, g₁⟩ := k.createNode name hdoc hkind
  have u : Unowned (h.createNode type name d) h.size := k.new_unowned name
  have hnew : (h.createNode type name d).nodeType h.size = type := update_self _ _ _
  have hps : parent ≠ h.size := Nat.ne_of_lt hp
  have hp₁ : parent < (h.createNode type name d).size := Nat.lt_succ_of_lt hp
  have hcont₁ : (h.createNode type name d).isContainerNode parent = true := by
    simp only [Heap.isContainerNode, g₁.nodeType parent hp]
    exact hcont
  have hscope : (h.createNode type name d).isDocumentNode parent = false := by
    rw [Heap.isDocumentNode, k₁.settled.singleDocument parent hp₁]
    simpa using Ne.symm hpd
  have hacc : ContainerNode.checkParserAcceptChild (h.createNode type name d)
      (h.createNode type name d).bound parent h.size = some true := by
    simp [ContainerNode.checkParserAcceptChild, ContainerNode.parserChildException, hscope]
  have hnotAbove : ¬ Above (h.createNode type name d).links.parent parent h.size := by
    intro ha
    rcases above_iff_tail.mp ha with he | ⟨x, -, hx⟩
    · exact hps he
    · exact absurd (k.settled.wellFormed.allocated x _ hx).2 (Nat.lt_irrefl _)
  obtain ⟨h₂, heq, hins⟩ := parserAppendChild_spec k₁.settled.wellFormed k₁.settled.versions
    (Heap.size_lt_bound _) hp₁ hcont₁ ⟨u.allocated, u.root, u.notDocument, hnotAbove⟩ hacc
  have hrec := received_parserAppendChild k₁.ledger u.root
    (by simp [Heap.isDocumentFragment, hnew, hfrag]) u.notPooled heq
  obtain ⟨k₂, b⟩ := linked_of_handover k₁ u (k₁.settled.of_inserted hp₁ hins)
    (hrec.handover k₁.ledger) rfl
  refine ⟨h₂, heq, ⟨_, k₂⟩, b.grown g₁ (Nat.le_refl _), b.size, fun x hle hlt => ?_,
    by rw [b.nodeType, hnew]⟩
  rw [b.size] at hlt
  obtain rfl : x = h.size := Nat.le_antisymm (Nat.lt_succ_iff.mp hlt) hle
  rw [b.parent, if_pos rfl]
  exact Option.some_ne_none _

/-- **The parser builds below one node.** -/
theorem parse (content : Markup) (k : Household h d ch) (hp : p < h.size)
    (hcont : h.isContainerNode p = true) (hpd : p ≠ d) :
    ∃ h', content.parse d p h = some h' ∧ (∃ ch', Household h' d ch') ∧ Grown h h' ∧
      Parented h h' := by
  induction content generalizing h p ch with
  | nil => exact ⟨h, rfl, ⟨ch, k⟩, .refl h, .refl h⟩
  | text rest ih =>
    obtain ⟨h₁, hnew, ⟨ch₁, k₁⟩, g₁, -, hpar, -⟩ :=
      k.appendNew "#text" (.inl rfl) hp hcont hpd
    obtain ⟨h₂, hrest, hk, g₂, hpar₂⟩ := ih k₁ (hp.trans_le g₁.size)
      (by simp only [Heap.isContainerNode, g₁.nodeType p hp]; exact hcont) hpd
    exact ⟨h₂, Option.bind_eq_some_iff.mpr ⟨h₁, hnew, hrest⟩, hk, g₁.trans g₂,
      hpar.trans hpar₂ g₂⟩
  | comment rest ih =>
    obtain ⟨h₁, hnew, ⟨ch₁, k₁⟩, g₁, -, hpar, -⟩ :=
      k.appendNew "#comment" (.inr (.inl rfl)) hp hcont hpd
    obtain ⟨h₂, hrest, hk, g₂, hpar₂⟩ := ih k₁ (hp.trans_le g₁.size)
      (by simp only [Heap.isContainerNode, g₁.nodeType p hp]; exact hcont) hpd
    exact ⟨h₂, Option.bind_eq_some_iff.mpr ⟨h₁, hnew, hrest⟩, hk, g₁.trans g₂,
      hpar.trans hpar₂ g₂⟩
  | element name children rest ihc ihr =>
    obtain ⟨h₁, hnew, ⟨ch₁, k₁⟩, g₁, hsize, hpar, htype⟩ :=
      k.appendNew name (.inr (.inr rfl)) hp hcont hpd
    obtain ⟨h₂, hchildren, ⟨ch₂, k₂⟩, g₂, hpar₂⟩ := ihc k₁
      (by rw [hsize]; exact Nat.lt_succ_self _)
      (by simp [Heap.isContainerNode, htype]) (Nat.ne_of_gt k.document)
    have g₁₂ := g₁.trans g₂
    obtain ⟨h₃, hrest, hk, g₃, hpar₃⟩ := ihr k₂ (hp.trans_le g₁₂.size)
      (by simp only [Heap.isContainerNode, g₁₂.nodeType p hp]; exact hcont) hpd
    exact ⟨h₃, Option.bind_eq_some_iff.mpr ⟨h₁, hnew,
      Option.bind_eq_some_iff.mpr ⟨h₂, hchildren, hrest⟩⟩, hk, g₁₂.trans g₃,
      (hpar.trans hpar₂ g₂).trans hpar₃ g₃⟩

/-! ## Clones -/

/-- The kinds of nodes that have a parent. -/
theorem kind_of_child (k : Household h d ch) (hc : h.links.parent c = some p) :
    h.nodeType c = .element ∨ h.nodeType c = .text ∨ h.nodeType c = .comment := by
  obtain ⟨hcs, -⟩ := k.settled.wellFormed.allocated c p hc
  have hdoc : h.nodeType c ≠ .document := fun ht =>
    k.settled.wellFormed.not_document hc ((k.settled.wellFormed.document_type c hcs).mp ht)
  have hfrag : h.nodeType c ≠ .documentFragment := fun ht => by
    have hroot := k.fragments c (by simp [Heap.isDocumentFragment, ht])
    rw [hc] at hroot
    cases hroot
  rcases k.kinds c hcs with ht | ht | ht | ht | ht
  · exact absurd ht hdoc
  · exact .inl ht
  · exact absurd ht hfrag
  · exact .inr (.inl ht)
  · exact .inr (.inr ht)

/-- A root does not contain another root. -/
theorem contains_root (u : Unowned h c) (hp : h.links.parent p = none)
    (hne : c ≠ p) : h.contains h.bound c p = some false := by
  have hscope : h.isTreeScope c = false := by
    simpa [Heap.isTreeScope] using u.notDocument
  have hparent : h.parentNode p = none := hp
  unfold Heap.contains Heap.isDescendantOf
  rw [if_neg hne, hscope, hparent]
  split
  · rfl
  · split
    · rfl
    · rw [if_neg Bool.false_ne_true]
      rfl

/-- A container other than a document accepts the kinds of nodes that have a parent. -/
theorem clone_accepted (u : Unowned h c)
    (hc : h.nodeType c = .element ∨ h.nodeType c = .text ∨ h.nodeType c = .comment)
    (hp : h.links.parent p = none) (hne : c ≠ p)
    (hkind : h.nodeType p = .element ∨ h.nodeType p = .documentFragment) :
    ContainerNode.ensurePreInsertionValidity h h.bound p c none none = some none := by
  have hcontains := contains_root u hp hne
  have hanc : ContainerNode.isHostIncludingInclusiveAncestorOfThis h h.bound p c =
      some false := by
    unfold ContainerNode.isHostIncludingInclusiveAncestorOfThis
    split
    · exact hcontains
    · rfl
  have hallowed : ContainerNode.isChildTypeAllowed h h.bound p c = some true := by
    rcases hkind with hkind | hkind <;> rcases hc with hc | hc | hc <;>
      simp [ContainerNode.isChildTypeAllowed, Heap.isDocumentFragment,
        ContainerNode.childTypeAllowed, hkind, hc, Element.childTypeAllowed,
        DocumentFragment.childTypeAllowed]
  unfold ContainerNode.ensurePreInsertionValidity
  simp [hanc, hallowed, checkReferenceChildParent]

/-- **A new node is appended to a clone.** -/
theorem appendClone (k : Household h d ch) (u : Unowned h c)
    (hc : h.nodeType c = .element ∨ h.nodeType c = .text ∨ h.nodeType c = .comment)
    (hps : p < h.size) (hp : h.links.parent p = none) (hne : c ≠ p)
    (hkind : h.nodeType p = .element ∨ h.nodeType p = .documentFragment) {r : Result}
    (hr : ContainerNode.appendChild h h.bound p c = some r) :
    (∃ ch', Household r.heap d ch') ∧ Linked h r.heap p c := by
  have hcont : h.isContainerNode p = true := by
    rcases hkind with hkind | hkind <;> simp [Heap.isContainerNode, hkind]
  have hfrag : h.isDocumentFragment c = false := by
    rcases hc with hc | hc | hc <;> simp [Heap.isDocumentFragment, hc]
  have hval := clone_accepted u hc hp hne hkind
  have hhand := handover_appendChild k.settled.wellFormed k.ledger k.fragments
    (Heap.size_lt_bound h) hps u.allocated hcont hr
  obtain ⟨h₁, heq, hins⟩ := appendChild_spec k.settled.wellFormed k.settled.versions
    (Heap.size_lt_bound h) hval
    (k.settled.insertion (Heap.size_lt_bound h) hps u.allocated hcont hval)
    fun o ho => k.settled.undisturbed u.allocated hps ho
  obtain rfl := Option.some.inj (hr.symm.trans heq)
  have hlists : specAppend h.isDocumentFragment ch p c = update ch p (ch p ++ [c]) := by
    have hdet : detach ch c = ch := detach_of_not_mem ch fun q hq =>
      k.settled.wellFormed.represents.not_mem_of_detached u.root hq
    simp [specAppend, move, targets, hfrag, hdet, splice]
  obtain ⟨k', b⟩ := linked_of_handover k u (k.settled.of_inserted hps hins) hhand hlists
  exact ⟨⟨_, k'⟩, b⟩

/-- What a clone leaves: new nodes that have a parent, all but the clone itself. -/
structure Cloned (h h' : Heap) (d c : NodeId) : Prop extends Grown h h' where
  household : ∃ ch', Household h' d ch'
  fresh : h.size ≤ c
  unowned : Unowned h' c
  owned : ∀ x, h.size ≤ x → x < h'.size → x ≠ c → h'.links.parent x ≠ none

theorem cloneChildren_spec {depth : Nat}
    (hdeep : ∀ {h ch n h' r}, Household h d ch → n < h.size →
      cloneDeep depth h n = some (h', r) →
      (r = none ∧ h.nodeType n = .document ∧ h' = h) ∨
        ∃ c, r = some c ∧ h'.nodeType c = h.nodeType n ∧ Cloned h h' d c)
    {children : List NodeId} (k : Household h d ch) (hps : p < h.size)
    (hp : h.links.parent p = none)
    (hkind : h.nodeType p = .element ∨ h.nodeType p = .documentFragment)
    (hcs : ∀ c ∈ children, c < h.size ∧
      (h.nodeType c = .element ∨ h.nodeType c = .text ∨ h.nodeType c = .comment))
    (hr : cloneChildren depth p children h = some h') :
    (∃ ch', Household h' d ch') ∧ Grown h h' ∧ Parented h h' := by
  induction children generalizing h ch with
  | nil =>
    rw [cloneChildren] at hr
    obtain rfl := Option.some.inj hr
    exact ⟨⟨ch, k⟩, .refl h, .refl h⟩
  | cons child children ih =>
    rw [cloneChildren] at hr
    obtain ⟨⟨h₁, r⟩, hclone, hr⟩ := Option.bind_eq_some_iff.mp hr
    obtain ⟨hchild, htype⟩ := hcs child (by simp)
    rcases hdeep k hchild hclone with ⟨-, hdoc, -⟩ | ⟨c, rfl, hctype, b⟩
    · rcases htype with ht | ht | ht <;> rw [ht] at hdoc <;> cases hdoc
    · obtain ⟨app, happ, hr⟩ := Option.bind_eq_some_iff.mp hr
      obtain ⟨ch₁, k₁⟩ := b.household
      have hcp : c ≠ p := Nat.ne_of_gt (hps.trans_le b.fresh)
      obtain ⟨⟨ch₂, k₂⟩, hl⟩ := k₁.appendClone b.unowned (by rw [hctype]; exact htype)
        (hps.trans_le b.size) (by rw [b.parent p hps]; exact hp) hcp
        (by rw [b.nodeType p hps]; exact hkind) happ
      have g : Grown h app.heap := hl.grown b.toGrown b.fresh
      obtain ⟨hk, g', hpar⟩ := ih k₂ (hps.trans_le g.size) (by rw [g.parent p hps]; exact hp)
        (by rw [g.nodeType p hps]; exact hkind)
        (fun x hx => by
          obtain ⟨hxs, hxt⟩ := hcs x (by simp [hx])
          rw [g.nodeType x hxs]
          exact ⟨hxs.trans_le g.size, hxt⟩) hr
      refine ⟨hk, g.trans g', Parented.trans (fun x hle hlt => ?_) hpar g'⟩
      rw [hl.size] at hlt
      rw [hl.parent]
      split
      · exact Option.some_ne_none _
      · rename_i hx
        exact b.owned x hle hlt hx

/-- The nodes that a clone copies are children of its original. -/
theorem clonedChildren_spec (k : Household h d ch) {children : List NodeId}
    (hr : clonedChildren h n = some children) : ∀ c ∈ children, c < h.size ∧
      (h.nodeType c = .element ∨ h.nodeType c = .text ∨ h.nodeType c = .comment) ∧
      h.isContainerNode n = true := by
  intro c hc
  unfold clonedChildren at hr
  split at hr
  · rename_i hcont
    rw [k.settled.wellFormed.childNodes_eq (Heap.size_lt_bound h)] at hr
    obtain rfl := Option.some.inj hr
    have hparent := k.settled.wellFormed.mem_iff.mp hc
    exact ⟨(k.settled.wellFormed.allocated c n hparent).1, k.kind_of_child hparent, hcont⟩
  · obtain rfl := Option.some.inj hr
    cases hc

theorem cloneDeep_spec {depth : Nat} {r : Option NodeId} (k : Household h d ch)
    (hn : n < h.size) (hr : cloneDeep depth h n = some (h', r)) :
    (r = none ∧ h.nodeType n = .document ∧ h' = h) ∨
      ∃ c, r = some c ∧ h'.nodeType c = h.nodeType n ∧ Cloned h h' d c := by
  induction depth generalizing h ch n h' r with
  | zero =>
    rw [cloneDeep] at hr
    cases hr
  | succ depth ih =>
    rw [cloneDeep] at hr
    split at hr
    · rename_i hdoc
      cases hr
      exact .inl ⟨rfl, hdoc, rfl⟩
    · rename_i hdoc
      obtain ⟨children, hchildren, hr⟩ := Option.bind_eq_some_iff.mp hr
      obtain ⟨h₂, hloop, hr⟩ := Option.bind_eq_some_iff.mp hr
      cases hr
      rw [k.settled.singleDocument n hn] at hloop
      have hkind := k.kinds n hn
      obtain ⟨k₁, g₁⟩ := k.createNode (h.nodeName n) hdoc hkind
      have u : Unowned (h.createNode (h.nodeType n) (h.nodeName n) d) h.size :=
        k.new_unowned (h.nodeName n)
      have htype : (h.createNode (h.nodeType n) (h.nodeName n) d).nodeType h.size =
          h.nodeType n := update_self _ _ _
      have hcopied := k.clonedChildren_spec hchildren
      have hloop' : (∃ ch', Household h' d ch') ∧
          Grown (h.createNode (h.nodeType n) (h.nodeName n) d) h' ∧
          Parented (h.createNode (h.nodeType n) (h.nodeName n) d) h' := by
        cases hcs : children with
        | nil =>
          rw [hcs, cloneChildren] at hloop
          obtain rfl := Option.some.inj hloop
          exact ⟨⟨ch, k₁⟩, .refl _, .refl _⟩
        | cons child rest =>
          -- only a container has children
          have hcont := (hcopied child (by rw [hcs]; simp)).2.2
          have hnode : h.nodeType n = .element ∨ h.nodeType n = .documentFragment := by
            rcases hkind with ht | ht | ht | ht | ht
            · exact absurd ht hdoc
            · exact .inl ht
            · exact .inr ht
            · simp [Heap.isContainerNode, ht] at hcont
            · simp [Heap.isContainerNode, ht] at hcont
          refine cloneChildren_spec ih k₁ u.allocated u.root (by rw [htype]; exact hnode)
            (fun x hx => ?_) hloop
          obtain ⟨hxs, hxt, -⟩ := hcopied x hx
          rw [g₁.nodeType x hxs]
          exact ⟨Nat.lt_succ_of_lt hxs, hxt⟩
      obtain ⟨hk, g₂, hpar⟩ := hloop'
      refine .inr ⟨h.size, rfl, (g₂.nodeType _ u.allocated).trans htype, g₁.trans g₂, hk,
        Nat.le_refl _, ⟨u.allocated.trans_le g₂.size, ?_, ?_, ?_, ?_⟩, fun x hle hlt hne => ?_⟩
      · rw [g₂.document _ u.allocated]
        exact u.notDocument
      · rw [g₂.parent _ u.allocated]
        exact u.root
      · rw [g₂.pooled]
        exact u.notPooled
      · exact Bool.eq_false_iff.mpr fun ht =>
          absurd ((g₂.contextRetained _).mp ht) (by rw [u.notRetained]; decide)
      · exact hpar x (Nat.lt_of_le_of_ne hle (Ne.symm hne)) hlt

/-- **`cloneNode` leaves new nodes, each with one owner.** -/
theorem cloneNode_spec {deep : Bool} (k : Household h d ch) (hn : n < h.size)
    (hr : cloneNode h n deep = some h') :
    h' = h ∨ ∃ m c, Cloned h m d c ∧ h' = m.save c := by
  unfold cloneNode at hr
  obtain ⟨⟨m, r⟩, hclone, hsave⟩ := Option.bind_eq_some_iff.mp hr
  clear hr
  unfold clone at hclone
  split at hclone
  · rcases k.cloneDeep_spec hn hclone with ⟨rfl, -, rfl⟩ | ⟨c, rfl, -, b⟩
    · exact .inl (Option.some.inj hsave).symm
    · exact .inr ⟨m, c, b, (Option.some.inj hsave).symm⟩
  · have hclone := Option.some.inj hclone
    unfold cloneShallow at hclone
    split at hclone
    · cases hclone
      exact .inl (Option.some.inj hsave).symm
    · cases hclone
      exact .inl (Option.some.inj hsave).symm
    · rename_i hdoc helem
      cases hclone
      have hdocument := k.settled.singleDocument n hn
      obtain ⟨k₁, g₁⟩ := k.createNode (h.nodeName n) hdoc (k.kinds n hn)
      refine .inr ⟨_, h.size, ⟨g₁, ⟨ch, k₁⟩, Nat.le_refl _, k.new_unowned (h.nodeName n),
        fun x hle hlt hne => ?_⟩, by rw [← hdocument]; exact (Option.some.inj hsave).symm⟩
      exact absurd (Nat.le_antisymm (Nat.lt_succ_iff.mp hlt) hle) hne

end Household

end Blinkit.Dom
