import Blinkit.Lib.Transition
import Blinkit.Dom.Creation

/-!
# One owner for every node

* `OneOwner h n` — the node has a parent, or it is in the pool, or the script retains it, and only
  one of the three.
* `AllOwned h` — every node other than a document has one owner, and the flag `m_inGCPool` is set
  for the members of the pool and for no other node.
* `LeavesNoFragment` — the calls behind which this is still so. Assigning a text to `innerHTML`
  makes a fragment for the result of the parser; nobody owns it, and nobody ever deletes it.

Principal results: `Household.call` (what every call keeps), `one_owner_iff` and
`innerHTML_fragment_unowned`.
-/

set_option autoImplicit false

namespace Blinkit.Dom

open LinkedForest ChildLists Function Transition

variable {h h' m : Heap} {d n p c x : NodeId} {ch : NodeId → List NodeId}

/-- **A node has exactly one owner.** -/
def OneOwner (h : Heap) (n : NodeId) : Prop :=
  (h.links.parent n ≠ none ∧ n ∉ h.gcObjects ∧ h.contextRetained n = false) ∨
  (h.links.parent n = none ∧ n ∈ h.gcObjects ∧ h.contextRetained n = false) ∨
  (h.links.parent n = none ∧ n ∉ h.gcObjects ∧ h.contextRetained n = true ∧
    h.contextObject n = true)

def AllOwned (h : Heap) : Prop :=
  ∀ n, n < h.size → (h.inGCPool n = true ↔ n ∈ h.gcObjects) ∧
    (h.document n ≠ n → OneOwner h n)

/-- With the ledger in order, a node that lacks one owner has none. -/
theorem Ledger.oneOwner_iff (l : Ledger h) (hn : n < h.size) (hd : h.document n ≠ n) :
    OneOwner h n ↔ ¬ Household.Unowned h n := by
  constructor
  · rintro (⟨hp, -⟩ | ⟨-, hg, -⟩ | ⟨-, -, hr, -⟩) u
    · exact hp u.root
    · exact u.notPooled hg
    · rw [u.notRetained] at hr
      cases hr
  · intro hu
    by_cases hg : n ∈ h.gcObjects
    · obtain ⟨-, hp, -, hr⟩ := l.pooled n hg
      exact .inr (.inl ⟨hp, hg, hr⟩)
    · cases hr : h.contextRetained n with
      | true =>
        obtain ⟨-, hp, -, ho⟩ := l.retained n hr
        exact .inr (.inr ⟨hp, hg, hr, ho⟩)
      | false => exact .inl ⟨fun hp => hu ⟨hn, hd, hp, hg, hr⟩, hg, hr⟩

theorem Ledger.allOwned_iff (l : Ledger h) : AllOwned h ↔ ∀ n, ¬ Household.Unowned h n := by
  constructor
  · intro hall n u
    exact (l.oneOwner_iff u.allocated u.notDocument).mp
      ((hall n u.allocated).2 u.notDocument) u
  · intro hall n hn
    exact ⟨l.flag n, fun hd => (l.oneOwner_iff hn hd).mpr (hall n)⟩

namespace Household

/-! ## Owners behind the single steps -/

/-- A mutator takes no owner away. -/
theorem Unowned.of_handover (r : Handover h h') (u : Unowned h' n) : Unowned h n where
  allocated := r.size ▸ u.allocated
  notDocument := by
    rw [← r.document]
    exact u.notDocument
  root := by
    by_contra hp
    exact u.notPooled ((r.pooled n).mpr ⟨u.root, .inr hp⟩)
  notPooled hg := u.notPooled ((r.pooled n).mpr ⟨u.root, .inl hg⟩)
  notRetained := Bool.eq_false_iff.mpr fun hr =>
    absurd ((r.retained n).mpr ⟨hr, u.root⟩) (by rw [u.notRetained]; decide)

/-- A fragment that nobody owns gets no owner. -/
theorem Unowned.handover (r : Handover h h') (u : Unowned h n)
    (hfrag : h.isDocumentFragment n = true) : Unowned h' n where
  allocated := by
    rw [r.size]
    exact u.allocated
  notDocument := by
    rw [r.document]
    exact u.notDocument
  root := r.fragment n hfrag u.root
  notPooled hg := ((r.pooled n).mp hg).2.elim u.notPooled fun hp => hp u.root
  notRetained := Bool.eq_false_iff.mpr fun hr =>
    absurd ((r.retained n).mp hr).1 (by rw [u.notRetained]; decide)

/-- Growing changes nothing for the old nodes. -/
theorem unowned_grown_iff (g : Grown h h') (hn : n < h.size) :
    Unowned h' n ↔ Unowned h n := by
  constructor
  · intro u
    refine ⟨hn, ?_, ?_, fun hg => u.notPooled ((g.pooled n).mpr hg), ?_⟩
    · rw [← g.document n hn]
      exact u.notDocument
    · rw [← g.parent n hn]
      exact u.root
    · exact Bool.eq_false_iff.mpr fun hr =>
        absurd ((g.contextRetained n).mpr hr) (by rw [u.notRetained]; decide)
  · intro u
    refine ⟨hn.trans_le g.size, ?_, ?_, fun hg => u.notPooled ((g.pooled n).mp hg), ?_⟩
    · rw [g.document n hn]
      exact u.notDocument
    · rw [g.parent n hn]
      exact u.root
    · exact Bool.eq_false_iff.mpr fun hr =>
        absurd ((g.contextRetained n).mp hr) (by rw [u.notRetained]; decide)

/-- **The pool takes a node that nobody owns.** -/
theorem save (k : Household h d ch) (u : Unowned h c) :
    Household (h.save c) d ch ∧ ∀ x, Unowned (h.save c) x ↔ Unowned h x ∧ x ≠ c := by
  have hsave : h.save c =
      { h with gcObjects := h.gcObjects.insert c, inGCPool := update h.inGCPool c true } := by
    unfold Heap.save
    rw [if_neg (by rw [u.notRetained]; decide)]
  have hs := SameTree.save h c
  have hv := Heap.save_versions h c
  refine ⟨⟨hs.size ▸ k.document, ⟨k.settled.wellFormed.congr hs, ?_, ?_, ?_⟩, ?_, ?_, ?_, ?_⟩, ?_⟩
  · intro n hn
    rw [hs.document]
    exact k.settled.singleDocument n (hs.size ▸ hn)
  · intro n
    rw [hv.domTreeVersion, hv.globalTreeVersion]
    exact k.settled.versions n
  · rw [hs.links, hv.domTreeVersion, hv.globalTreeVersion]
    exact k.settled.current
  · rw [hsave]
    refine ⟨?_, ?_, k.ledger.nodup.insert, k.ledger.retained⟩
    · intro n hn
      rcases List.mem_insert_iff.mp hn with rfl | hg
      · exact ⟨u.allocated, u.root, u.notDocument, u.notRetained⟩
      · exact k.ledger.pooled n hg
    · intro n
      simp only [List.mem_insert_iff]
      rcases eq_or_ne n c with rfl | hn
      · simp
      · rw [update_of_ne hn, k.ledger.flag n]
        simp [hn]
  · intro x hx
    rw [hs.links]
    exact k.fragments x (by rwa [hs.toSameNodes.isDocumentFragment] at hx)
  · intro n hn
    rw [hs.nodeType]
    exact k.kinds n (hs.size ▸ hn)
  · rw [hsave]
    exact k.wrapped
  · intro x
    rw [hsave]
    constructor
    · rintro ⟨hx, hdoc, hroot, hpool, hret⟩
      rw [List.mem_insert_iff, not_or] at hpool
      exact ⟨⟨hx, hdoc, hroot, hpool.2, hret⟩, hpool.1⟩
    · rintro ⟨⟨hx, hdoc, hroot, hpool, hret⟩, hne⟩
      refine ⟨hx, hdoc, hroot, ?_, hret⟩
      rw [List.mem_insert_iff, not_or]
      exact ⟨hne, hpool⟩

/-- **A push changes the owner of a pooled node from the pool to the script.** -/
theorem push (k : Household h d ch) (hn : n < h.size) (hf : n ∉ h.freed) :
    Household (push h n) d ch ∧ ∀ x, Unowned (Dom.push h n) x ↔ Unowned h x := by
  have hwrapped : ∀ x, update h.contextObject n true x = true → x < h.size ∧ x ∉ h.freed := by
    intro x hx
    rcases eq_or_ne x n with rfl | hne
    · exact ⟨hn, hf⟩
    · rw [update_of_ne hne] at hx
      exact k.wrapped x hx
  have hkeep : ∀ x, h.contextObject x = true → update h.contextObject n true x = true := by
    intro x hx
    rcases eq_or_ne x n with rfl | hne
    · rw [update_self]
    · rwa [update_of_ne hne]
  unfold Dom.push
  simp only
  split
  · rename_i hpool
    have hg : n ∈ h.gcObjects := (k.ledger.flag n).mp hpool
    obtain ⟨-, hroot, hdoc, -⟩ := k.ledger.pooled n hg
    have hmem : ∀ x, x ∈ h.gcObjects.erase n ↔ x ≠ n ∧ x ∈ h.gcObjects := fun x =>
      k.ledger.nodup.mem_erase_iff
    refine ⟨⟨k.document, ⟨k.settled.wellFormed.congr ⟨⟨rfl, rfl, rfl, rfl⟩, rfl, rfl⟩,
      k.settled.singleDocument, k.settled.versions, k.settled.current⟩,
      ⟨?_, ?_, k.ledger.nodup.erase n, ?_⟩, k.fragments, k.kinds, hwrapped⟩, ?_⟩
    · intro x hx
      obtain ⟨hne, hx⟩ := (hmem x).mp hx
      show _ ∧ _ ∧ _ ∧ update h.contextRetained n true x = false
      rw [update_of_ne hne]
      exact k.ledger.pooled x hx
    · intro x
      show update h.inGCPool n false x = true ↔ x ∈ h.gcObjects.erase n
      rw [hmem]
      rcases eq_or_ne x n with rfl | hne
      · simp
      · rw [update_of_ne hne, k.ledger.flag x]
        simp [hne]
    · intro x hx
      change update h.contextRetained n true x = true at hx
      rcases eq_or_ne x n with rfl | hne
      · exact ⟨hn, hroot, hdoc, update_self _ _ _⟩
      · rw [update_of_ne hne] at hx
        obtain ⟨hxs, hxp, hxd, hxo⟩ := k.ledger.retained x hx
        exact ⟨hxs, hxp, hxd, hkeep x hxo⟩
    · intro x
      rcases eq_or_ne x n with rfl | hne
      · refine iff_of_false (fun u => ?_) fun u => u.notPooled hg
        have hr : update h.contextRetained x true x = false := u.notRetained
        rw [update_self] at hr
        cases hr
      · have hg' : x ∉ h.gcObjects.erase n ↔ x ∉ h.gcObjects := by
          rw [hmem]
          simp [hne]
        have hr' : update h.contextRetained n true x = h.contextRetained x := update_of_ne hne _ _
        exact ⟨fun u => ⟨u.allocated, u.notDocument, u.root, hg'.mp u.notPooled,
            hr'.symm.trans u.notRetained⟩,
          fun u => ⟨u.allocated, u.notDocument, u.root, hg'.mpr u.notPooled,
            hr'.trans u.notRetained⟩⟩
  · refine ⟨⟨k.document, ⟨k.settled.wellFormed.congr ⟨⟨rfl, rfl, rfl, rfl⟩, rfl, rfl⟩,
      k.settled.singleDocument, k.settled.versions, k.settled.current⟩,
      ⟨k.ledger.pooled, k.ledger.flag, k.ledger.nodup, ?_⟩, k.fragments, k.kinds, hwrapped⟩,
      fun x => ⟨fun u => ⟨u.allocated, u.notDocument, u.root, u.notPooled, u.notRetained⟩,
        fun u => ⟨u.allocated, u.notDocument, u.root, u.notPooled, u.notRetained⟩⟩⟩
    intro x hx
    obtain ⟨hxs, hxp, hxd, hxo⟩ := k.ledger.retained x hx
    exact ⟨hxs, hxp, hxd, hkeep x hxo⟩

/-- The finalizer lets go of the wrapper and of what the script retained. -/
theorem forget (k : Household h d ch) (n : NodeId) :
    Household { h with
      contextObject := update h.contextObject n false
      contextRetained := update h.contextRetained n false } d ch := by
  have hsub : ∀ {f : NodeId → Bool} {x}, update f n false x = true → f x = true := by
    intro f x hx
    rcases eq_or_ne x n with rfl | hne
    · rw [update_self] at hx
      cases hx
    · rwa [update_of_ne hne] at hx
  refine ⟨k.document, ⟨k.settled.wellFormed.congr ⟨⟨rfl, rfl, rfl, rfl⟩, rfl, rfl⟩,
    k.settled.singleDocument, k.settled.versions, k.settled.current⟩,
    ⟨?_, k.ledger.flag, k.ledger.nodup, ?_⟩, k.fragments, k.kinds, fun x hx => k.wrapped x (hsub hx)⟩
  · intro x hx
    obtain ⟨hxs, hxp, hxd, hxr⟩ := k.ledger.pooled x hx
    refine ⟨hxs, hxp, hxd, Bool.eq_false_iff.mpr fun ht => ?_⟩
    rw [hsub ht] at hxr
    cases hxr
  · intro x hx
    obtain ⟨hxs, hxp, hxd, hxo⟩ := k.ledger.retained x (hsub hx)
    refine ⟨hxs, hxp, hxd, ?_⟩
    rcases eq_or_ne x n with rfl | hne
    · change update h.contextRetained x false x = true at hx
      rw [update_self] at hx
      cases hx
    · exact (update_of_ne hne _ _).trans hxo

/-- **The finalizer gives a retained node back to the pool.** -/
theorem defaultFinalizer (k : Household h d ch) (n : NodeId) :
    Household (defaultFinalizer h n) d ch ∧
      ∀ x, Unowned (Dom.defaultFinalizer h n) x → Unowned h x := by
  have hk := k.forget n
  unfold Dom.defaultFinalizer
  simp only
  split
  · rename_i hr
    obtain ⟨hn, hroot, hdoc, -⟩ := k.ledger.retained n hr
    have hpool : n ∉ h.gcObjects := fun hg => by
      rw [(k.ledger.pooled n hg).2.2.2] at hr
      cases hr
    obtain ⟨hsave, hiff⟩ := hk.save ⟨hn, hdoc, hroot, hpool, update_self _ _ _⟩
    refine ⟨hsave, fun x u => ?_⟩
    obtain ⟨u', hne⟩ := (hiff x).mp u
    exact ⟨u'.allocated, u'.notDocument, u'.root, u'.notPooled,
      (update_of_ne hne _ _).symm.trans u'.notRetained⟩
  · rename_i hr
    have hsame : update h.contextRetained n false = h.contextRetained := by
      rw [← Bool.eq_false_iff.mpr hr, update_eq_self]
    rw [hsame] at hk
    exact ⟨hk, fun x u => ⟨u.allocated, u.notDocument, u.root, u.notPooled, u.notRetained⟩⟩

/-! ## Owners behind the creations -/

theorem createSaved (k : Household h d ch) {type : NodeType} (name : String)
    (htype : type ≠ .document) (hkind : Kind type) :
    (∃ ch', Household ((h.createNode type name d).save h.size) d ch') ∧
      ∀ x, Unowned ((h.createNode type name d).save h.size) x → Unowned h x := by
  obtain ⟨k₁, g₁⟩ := k.createNode name htype hkind
  obtain ⟨k₂, hiff⟩ := k₁.save (k.new_unowned name)
  refine ⟨⟨ch, k₂⟩, fun x u => ?_⟩
  obtain ⟨u', hne⟩ := (hiff x).mp u
  have hx : x < h.size := Nat.lt_of_le_of_ne (Nat.lt_succ_iff.mp u'.allocated) hne
  exact (unowned_grown_iff g₁ hx).mp u'

theorem cloneNode {deep : Bool} (k : Household h d ch) (hn : n < h.size)
    (hr : cloneNode h n deep = some h') :
    (∃ ch', Household h' d ch') ∧ ∀ x, Unowned h' x → Unowned h x := by
  rcases k.cloneNode_spec hn hr with rfl | ⟨m, c, b, rfl⟩
  · exact ⟨⟨ch, k⟩, fun x u => u⟩
  · obtain ⟨ch', k'⟩ := b.household
    obtain ⟨k₂, hiff⟩ := k'.save b.unowned
    refine ⟨⟨ch', k₂⟩, fun x u => ?_⟩
    obtain ⟨u', hne⟩ := (hiff x).mp u
    by_cases hx : x < h.size
    · exact (unowned_grown_iff b.toGrown hx).mp u'
    · exact absurd u'.root (b.owned x (Nat.not_lt.mp hx) u'.allocated hne)

end Household

/-! ## What the methods return -/

section Result

variable {fuel : Nat} {r : Result}

theorem removeChild_none (hr : Node.removeChild h fuel p none = some r) : r.heap = h := by
  unfold Node.removeChild at hr
  split at hr <;> exact Option.some.inj hr ▸ rfl

theorem insertChecked_node {next : Option NodeId} {ret : NodeId} {flag : Bool}
    (hr : ContainerNode.insertChecked h fuel p n next ret flag = some r) : r.node = some ret := by
  unfold ContainerNode.insertChecked at hr
  obtain ⟨k, -, hr⟩ := Option.bind_eq_some_iff.mp hr
  split at hr
  · exact Option.some.inj hr ▸ rfl
  · split at hr
    · exact Option.some.inj hr ▸ rfl
    · obtain ⟨h₁, -, hr⟩ := Option.bind_eq_some_iff.mp hr
      exact Option.some.inj hr ▸ rfl

theorem appendChild_node (hr : Node.appendChild h fuel p n = some r) :
    r.node = some n ∨ r.node = none := by
  unfold Node.appendChild at hr
  split at hr
  · unfold ContainerNode.appendChild at hr
    obtain ⟨e, -, hr⟩ := Option.bind_eq_some_iff.mp hr
    split at hr
    · exact .inl (Option.some.inj hr ▸ rfl)
    · exact .inl (insertChecked_node hr)
  · exact .inr (Option.some.inj hr ▸ rfl)

theorem insertBefore_node {ref : Option NodeId} (hr : Node.insertBefore h fuel p n ref = some r) :
    r.node = some n ∨ r.node = none := by
  unfold Node.insertBefore at hr
  split at hr
  · rename_i hcont
    have happend {r : Result} (hr : ContainerNode.appendChild h fuel p n = some r) :
        r.node = some n ∨ r.node = none :=
      appendChild_node (by unfold Node.appendChild; rw [if_pos hcont]; exact hr)
    cases ref with
    | none => exact happend hr
    | some ref =>
      unfold ContainerNode.insertBefore at hr
      obtain ⟨e, -, hr⟩ := Option.bind_eq_some_iff.mp hr
      split at hr
      · exact .inl (Option.some.inj hr ▸ rfl)
      · split at hr
        · exact happend hr
        · exact .inl (insertChecked_node hr)
  · exact .inr (Option.some.inj hr ▸ rfl)

theorem removeChild_node {child : Option NodeId}
    (hr : Node.removeChild h fuel p child = some r) : r.node = child ∨ r.node = none := by
  unfold Node.removeChild at hr
  split at hr
  · cases child with
    | none => exact .inr (Option.some.inj hr ▸ rfl)
    | some c =>
      unfold ContainerNode.removeChild at hr
      simp only at hr
      split at hr
      · exact .inr (Option.some.inj hr ▸ rfl)
      · obtain ⟨h₁, -, hr⟩ := Option.bind_eq_some_iff.mp hr
        exact .inl (Option.some.inj hr ▸ rfl)
  · exact .inr (Option.some.inj hr ▸ rfl)

theorem removeChild_pushes (hr : Node.removeChild h fuel p (some c) = some r)
    (he : r.exception = none) : r.node = some c := by
  rcases removeChild_node hr with hnode | hnode
  · exact hnode
  · unfold Node.removeChild at hr
    split at hr
    · unfold ContainerNode.removeChild at hr
      simp only at hr
      split at hr
      · obtain rfl := Option.some.inj hr
        cases he
      · obtain ⟨h₁, -, hr⟩ := Option.bind_eq_some_iff.mp hr
        exact Option.some.inj hr ▸ rfl
    · obtain rfl := Option.some.inj hr
      cases he

end Result

namespace Household

/-- The tree behind a call that follows its specification or sets an exception. -/
theorem refined {ch' : NodeId → List NodeId} {o : Option Result} {r : Result}
    (k : Household h d ch) (href : Refines h d ch' o) (ho : o = some r)
    (hh : Handover h r.heap) : ∃ ch', Household r.heap d ch' := by
  obtain ⟨r', hr', hok, herr⟩ := href
  obtain rfl := Option.some.inj (ho.symm.trans hr')
  by_cases he : r.exception = none
  · exact ⟨ch', k.handover (hok he) hh⟩
  · exact ⟨ch, by rw [herr he]; exact k⟩

/-- The result of a method is pushed. -/
theorem pushResult {r : Result} (k : Household h d ch) (hk : ∃ ch', Household r.heap d ch')
    (hh : Handover h r.heap) (hnode : ∀ x ∈ r.node, h.contextObject x = true) :
    (∃ ch', Household (pushResult r) d ch') ∧ ∀ x, Unowned (pushResult r) x → Unowned h x := by
  obtain ⟨ch', k'⟩ := hk
  unfold Dom.pushResult
  split
  · rename_i n _ hn
    obtain ⟨hs, hf⟩ := k.wrapped n (hnode n hn)
    obtain ⟨k₂, hiff⟩ := k'.push (hh.size ▸ hs) (hh.freed ▸ hf)
    exact ⟨⟨ch', k₂⟩, fun x u => ((hiff x).mp u).of_handover hh⟩
  · exact ⟨⟨ch', k'⟩, fun x u => u.of_handover hh⟩

theorem removeChildren (k : Household h d ch) (hp : p < h.size) :
    ∃ h', ContainerNode.removeChildren h h.bound p = some h' ∧ Released h h' ∧
      ∃ ch', Household h' d ch' := by
  have href := removeChildren_refines k.settled (Heap.size_lt_bound h) hp
  obtain ⟨r, hr, -⟩ := id href
  obtain ⟨h', hrem, hres⟩ := Option.bind_eq_some_iff.mp hr
  obtain rfl := Option.some.inj hres
  have hrel := released_removeChildren k.settled.wellFormed k.ledger (Heap.size_lt_bound h) hrem
  exact ⟨h', hrem, hrel, k.refined href hr hrel.handover⟩

/-- Appending to a node, without the push of the binding. -/
theorem appendChild (k : Household h d ch) (hp : p < h.size) (hn : n < h.size) :
    ∃ r, Node.appendChild h h.bound p n = some r ∧ Handover h r.heap ∧
      ∃ ch', Household r.heap d ch' := by
  have href := appendChild_refines k.settled (Heap.size_lt_bound h) hp hn
  obtain ⟨r, hr, -⟩ := id href
  have hh := handover_nodeAppendChild k.settled.wellFormed k.ledger k.fragments
    (Heap.size_lt_bound h) hp hn hr
  exact ⟨r, hr, hh, k.refined href hr hh⟩

/-- Nobody loses an owner, and no fragment gets one. -/
structure Kept (h h' : Heap) : Prop where
  unowned : ∀ x, Unowned h' x → Unowned h x
  fragment : ∀ x, h.isDocumentFragment x = true → Unowned h x → Unowned h' x

theorem Kept.of_handover (hh : Handover h h') : Kept h h' :=
  ⟨fun _ u => u.of_handover hh, fun _ hx u => u.handover hh hx⟩

/-- **The children are replaced by those of a fragment.** -/
theorem replaceChildrenWithFragment {fragment : NodeId} (k : Household h d ch) (hp : p < h.size)
    (hcont : h.isContainerNode p = true) (hf : fragment < h.size) :
    ∃ h', replaceChildrenWithFragment h p fragment = some h' ∧ Kept h h' ∧
      ∃ ch', Household h' d ch' := by
  -- the children go, then those of the fragment come
  have hrefill : ∃ h', (do
      let h ← ContainerNode.removeChildren h h.bound p
      (Node.appendChild h h.bound p fragment).map (·.heap)) = some h' ∧ Kept h h' ∧
        ∃ ch', Household h' d ch' := by
    obtain ⟨m, hrem, hrel, ch₁, k₁⟩ := k.removeChildren hp
    obtain ⟨r, happ, hh, hk⟩ := k₁.appendChild (n := fragment) (hrel.size ▸ hp) (hrel.size ▸ hf)
    refine ⟨r.heap, Option.bind_eq_some_iff.mpr ⟨m, hrem, by rw [happ]; rfl⟩, ?_, hk⟩
    have a : Kept h m := .of_handover hrel.handover
    have b : Kept m r.heap := .of_handover hh
    refine ⟨fun x u => a.unowned x (b.unowned x u), fun x hx u => b.fragment x ?_ (a.fragment x hx u)⟩
    rw [hrel.toSameNodes.isDocumentFragment]
    exact hx
  unfold Dom.replaceChildrenWithFragment
  split
  · obtain ⟨h', hrem, hrel, hk⟩ := k.removeChildren hp
    exact ⟨h', hrem, .of_handover hrel.handover, hk⟩
  · split
    · rename_i child hchild
      split
      · have href : Refines h d (specReplace h.isDocumentFragment ch p fragment child) _ :=
          replaceChild_refines k.settled (Heap.size_lt_bound h) hp hf hcont
        obtain ⟨r, hr, -⟩ := id href
        have hh := handover_replaceChild k.settled.wellFormed k.settled.versions k.ledger
          k.fragments (Heap.size_lt_bound h) hp hf hcont hr
        exact ⟨r.heap, by rw [hr]; rfl, .of_handover hh, k.refined href hr hh⟩
      · exact hrefill
    · exact hrefill

theorem setTextContent (k : Household h d ch) (text : String) (hp : p < h.size) :
    ∃ h', setTextContent h p text = some h' ∧ (∃ ch', Household h' d ch') ∧
      ∀ x, Unowned h' x → Unowned h x := by
  unfold Dom.setTextContent
  split
  · obtain ⟨h', hrem, hrel, hk⟩ := k.removeChildren hp
    exact ⟨h', hrem, hk, fun x u => u.of_handover hrel.handover⟩
  · exact ⟨h, rfl, ⟨ch, k⟩, fun x u => u⟩

/-- The heap in which the children are replaced: the parser has filled a new fragment. -/
theorem parsed (content : Markup) (k : Household h d ch) :
    ∃ m, content.parse d h.size (createFragment h d) = some m ∧ (∃ ch', Household m d ch') ∧
      Grown h m ∧ h.size < m.size ∧ m.isDocumentFragment h.size = true ∧ Unowned m h.size ∧
      ∀ x, Unowned m x → x = h.size ∨ Unowned h x := by
  obtain ⟨k₁, g₁⟩ : Household (createFragment h d) d ch ∧ Grown h (createFragment h d) :=
    k.createNode "#document-fragment" (by decide) (by simp [Kind])
  have u : Unowned (createFragment h d) h.size := k.new_unowned "#document-fragment"
  have htype : (createFragment h d).nodeType h.size = .documentFragment := update_self _ _ _
  obtain ⟨m, hparse, hk, g₂, hpar⟩ := k₁.parse content u.allocated
    (by simp [Heap.isContainerNode, htype]) (Nat.ne_of_gt k.document)
  refine ⟨m, hparse, hk, g₁.trans g₂, u.allocated.trans_le g₂.size, ?_,
    (unowned_grown_iff g₂ u.allocated).mpr u, fun x ux => ?_⟩
  · unfold Heap.isDocumentFragment
    rw [g₂.nodeType _ u.allocated]
    exact decide_eq_true htype
  · by_cases hx : x < (createFragment h d).size
    · rcases Nat.lt_succ_iff_lt_or_eq.mp hx with hlt | rfl
      · exact .inr ((unowned_grown_iff (g₁.trans g₂) hlt).mp ux)
      · exact .inl rfl
    · exact absurd ux.root (hpar x (Nat.not_lt.mp hx) ux.allocated)

/-- **Assigning a text to `innerHTML` leaves a fragment that nobody owns.** -/
theorem setInnerHTML {html : String} {content : Markup} (k : Household h d ch) (hp : p < h.size)
    (helem : h.isElementNode p = true) (hhtml : html.isEmpty = false) :
    ∃ h', setInnerHTML h p html content = some h' ∧ (∃ ch', Household h' d ch') ∧
      Unowned h' h.size := by
  obtain ⟨m, hparse, ⟨ch₁, k₁⟩, g, hlt, hfrag, u, -⟩ := k.parsed content
  have hcont : m.isContainerNode p = true := by
    simp only [Heap.isElementNode, Heap.isContainerNode] at helem ⊢
    rw [g.nodeType p hp, helem]
    rfl
  obtain ⟨h', hrep, hkept, hk⟩ := k₁.replaceChildrenWithFragment (hp.trans_le g.size) hcont hlt
  refine ⟨h', ?_, hk, hkept.fragment _ hfrag u⟩
  unfold Dom.setInnerHTML
  rw [if_neg (by rw [hhtml]; decide), k.settled.singleDocument p hp]
  exact Option.bind_eq_some_iff.mpr ⟨m, hparse, hrep⟩

end Household

/-! ## Calls -/

namespace ScriptCall

/-- The calls other than those that assign a text to `innerHTML`. -/
def LeavesNoFragment : ScriptCall → Prop
  | setInnerHTML _ html _ => html.isEmpty = true
  | _ => True

instance : DecidablePred LeavesNoFragment
  | setInnerHTML _ _ _ => inferInstanceAs (Decidable (_ = _))
  | createElement _ _ | createDocumentFragment _ | cloneNode _ _ | push _ | appendChild _ _
  | insertBefore _ _ _ | removeChild _ _ | setTextContent _ _ | finalize _ =>
    inferInstanceAs (Decidable True)

/-- A call of a script, as a step of a machine. -/
def step (h : Heap) (c : ScriptCall) : Except Unfinished (Heap × Unit) := (Action.call c).step h

theorem step_cases (h : Heap) (c : ScriptCall) :
    (¬ c.Callable h ∧ c.step h = .ok (h, ())) ∨
    (c.Callable h ∧ ∃ h', c.exec h = some h' ∧ c.step h = .ok (h', ())) ∨
    (c.Callable h ∧ c.exec h = none ∧ c.step h = .error .unfinished) := by
  by_cases hc : c.Callable h
  · have hexec : (Action.call c).exec h = c.exec h := if_pos hc
    unfold step Action.step
    rw [hexec]
    cases hr : c.exec h with
    | none => exact .inr (.inr ⟨hc, rfl, rfl⟩)
    | some h' => exact .inr (.inl ⟨hc, h', rfl, rfl⟩)
  · have hexec : (Action.call c).exec h = some h := if_neg hc
    refine .inl ⟨hc, ?_⟩
    unfold step Action.step
    rw [hexec]

end ScriptCall

namespace Household

theorem eq_document (k : Household h d ch) (hn : n < h.size ∧ h.isDocumentNode n = true) :
    n = d := by
  rw [← k.settled.singleDocument n hn.1]
  exact (beq_iff_eq.mp hn.2).symm

/-- A call other than the one that makes a fragment, when it can be made. -/
theorem call_owned (k : Household h d ch) {c : ScriptCall} (hc : c.Callable h)
    (hleaves : c.LeavesNoFragment) (hr : c.exec h = some h') :
    (∃ ch', Household h' d ch') ∧ ∀ x, Unowned h' x → Unowned h x := by
  have hsize {n : NodeId} (hn : h.contextObject n = true) : n < h.size := (k.wrapped n hn).1
  cases c with
  | createElement e name =>
    obtain rfl := k.eq_document hc
    obtain rfl := Option.some.inj hr
    exact k.createSaved name (by decide) (by simp [Kind])
  | createDocumentFragment e =>
    obtain rfl := k.eq_document hc
    obtain rfl := Option.some.inj hr
    exact k.createSaved "#document-fragment" (by decide) (by simp [Kind])
  | cloneNode n deep => exact k.cloneNode (hsize hc) hr
  | push n =>
    obtain rfl := Option.some.inj hr
    obtain ⟨k', hiff⟩ := k.push hc.1 hc.2
    exact ⟨⟨ch, k'⟩, fun x u => (hiff x).mp u⟩
  | appendChild p n =>
    obtain ⟨r, happ, rfl⟩ := Option.map_eq_some_iff.mp hr
    obtain ⟨r', happ', hh, hk⟩ := k.appendChild (hsize hc.1) (hsize hc.2)
    obtain rfl := Option.some.inj (happ.symm.trans happ')
    refine k.pushResult hk hh fun x hx => ?_
    rcases appendChild_node happ with he | he
    · rw [he] at hx
      obtain rfl := Option.some.inj hx
      exact hc.2
    · rw [he] at hx
      cases hx
  | insertBefore p n ref =>
    obtain ⟨r, hins, rfl⟩ := Option.map_eq_some_iff.mp hr
    have hh := handover_insertBefore k.settled.wellFormed k.ledger k.fragments
      (Heap.size_lt_bound h) (hsize hc.1) (hsize hc.2.1) hins
    have hk : ∃ ch', Household r.heap d ch' := by
      cases ref with
      | none =>
        exact k.refined (appendChild_refines k.settled (Heap.size_lt_bound h) (hsize hc.1)
          (hsize hc.2.1)) hins hh
      | some ref =>
        exact k.refined (insertBefore_refines k.settled (Heap.size_lt_bound h) (hsize hc.1)
          (hsize hc.2.1)) hins hh
    refine k.pushResult hk hh fun x hx => ?_
    rcases insertBefore_node hins with he | he
    · rw [he] at hx
      obtain rfl := Option.some.inj hx
      exact hc.2.1
    · rw [he] at hx
      cases hx
  | removeChild p child =>
    obtain ⟨r, hrem, rfl⟩ := Option.map_eq_some_iff.mp hr
    have hrel := handover_removeChild k.settled.wellFormed k.ledger (Heap.size_lt_bound h) hrem
    have hk : ∃ ch', Household r.heap d ch' := by
      cases child with
      | none => exact ⟨ch, by rw [removeChild_none hrem]; exact k⟩
      | some c =>
        exact k.refined (removeChild_refines k.settled (Heap.size_lt_bound h) (hsize hc.1)) hrem
          hrel.handover
    refine k.pushResult hk hrel.handover fun x hx => ?_
    rcases removeChild_node hrem with he | he
    · rw [he] at hx
      exact hc.2 x hx
    · rw [he] at hx
      cases hx
  | setTextContent p text =>
    obtain ⟨m, hset, hk, hu⟩ := k.setTextContent text (hsize hc.1)
    obtain rfl := Option.some.inj (hr.symm.trans hset)
    exact ⟨hk, hu⟩
  | setInnerHTML p html content =>
    obtain ⟨m, hset, hk, hu⟩ := k.setTextContent html (hsize hc.1)
    have he : Dom.setInnerHTML h p html content = Dom.setTextContent h p html := if_pos hleaves
    obtain rfl := Option.some.inj (hr.symm.trans (he.trans hset))
    exact ⟨hk, hu⟩
  | finalize n =>
    obtain rfl := Option.some.inj hr
    obtain ⟨k', hu⟩ := k.defaultFinalizer n
    exact ⟨⟨ch, k'⟩, hu⟩

/-- The call that makes a fragment. -/
theorem call_unowned (k : Household h d ch) {c : ScriptCall} (hc : c.Callable h)
    (hleaves : ¬ c.LeavesNoFragment) :
    ∃ h', c.exec h = some h' ∧ (∃ ch', Household h' d ch') ∧ Unowned h' h.size := by
  cases c with
  | setInnerHTML p html content =>
    exact k.setInnerHTML (k.wrapped p hc.1).1 hc.2 (Bool.eq_false_iff.mpr hleaves)
  | _ => exact absurd trivial hleaves

/-- **What every call keeps.** -/
theorem call (k : Household h d ch) {c : ScriptCall} (hc : c.Callable h)
    (hr : c.exec h = some h') : ∃ ch', Household h' d ch' := by
  by_cases hleaves : c.LeavesNoFragment
  · exact (k.call_owned hc hleaves hr).1
  · obtain ⟨m, hm, hk, -⟩ := k.call_unowned hc hleaves
    obtain rfl := Option.some.inj (hr.symm.trans hm)
    exact hk

end Household

/-! ## Every sequence of calls -/

/-- A document, and nothing else. -/
def freshDocument : Heap := Heap.initial.createDocument

theorem household_freshDocument : Household freshDocument 0 fun _ => [] where
  document := by decide
  settled := Fresh.settled
    { links := rfl
      scope := by decide
      documents := by decide
      connected := by decide
      versions := fun n => by
        by_cases hn : n = 0
        · subst hn
          decide
        · simp [freshDocument, Heap.createDocument, Heap.createNode, Heap.initial, hn] }
  ledger :=
    { pooled := fun _ hg => nomatch hg
      flag := fun n => by simp [freshDocument, Heap.createDocument, Heap.createNode, Heap.initial]
      nodup := List.nodup_nil
      retained := fun n hr => by
        simp [freshDocument, Heap.createDocument, Heap.createNode, Heap.initial] at hr }
  fragments := fun _ _ => rfl
  kinds := by
    intro n hn
    obtain rfl : n = 0 := Nat.lt_one_iff.mp hn
    exact .inl rfl
  wrapped := fun n hn => by
    simp [freshDocument, Heap.createDocument, Heap.createNode, Heap.initial] at hn

/-- Whether a call leaves every node with one owner. -/
theorem allOwned_step_iff {c : ScriptCall} (hk : ∃ ch, Household h d ch) (howned : AllOwned h) :
    (c.Callable h → c.LeavesNoFragment) ↔ After AllOwned True (c.step h) := by
  obtain ⟨ch, k⟩ := hk
  have hnone := k.ledger.allOwned_iff.mp howned
  rcases c.step_cases h with ⟨hc, hstep⟩ | ⟨hc, h', hr, hstep⟩ | ⟨hc, hr, hstep⟩
  · rw [hstep]
    exact iff_of_true (fun h => absurd h hc) howned
  · rw [hstep]
    by_cases hleaves : c.LeavesNoFragment
    · refine iff_of_true (fun _ => hleaves) ?_
      obtain ⟨⟨ch', k'⟩, hu⟩ := k.call_owned hc hleaves hr
      exact k'.ledger.allOwned_iff.mpr fun x u => hnone x (hu x u)
    · refine iff_of_false (fun hl => hleaves (hl hc)) fun hall => ?_
      obtain ⟨m, hm, ⟨ch', k'⟩, u⟩ := k.call_unowned hc hleaves
      obtain rfl := Option.some.inj (hr.symm.trans hm)
      exact k'.ledger.allOwned_iff.mp hall _ u
  · rw [hstep]
    refine iff_of_true (fun _ => ?_) trivial
    by_contra hleaves
    obtain ⟨m, hm, -⟩ := k.call_unowned hc hleaves
    rw [hr] at hm
    cases hm

theorem Household.step {c : ScriptCall} {o : Unit} (k : Household h d ch)
    (hr : c.step h = .ok (h', o)) : ∃ ch', Household h' d ch' := by
  rcases c.step_cases h with ⟨hc, hstep⟩ | ⟨hc, h', hexec, hstep⟩ | ⟨hc, hexec, hstep⟩
  · cases hr.symm.trans hstep
    exact ⟨ch, k⟩
  · cases hr.symm.trans hstep
    exact k.call hc hexec
  · cases hr.symm.trans hstep

/-- **Every node has exactly one owner throughout a run exactly when no call of the run assigns a
text to `innerHTML`.** -/
theorem one_owner_iff (calls : List ScriptCall) :
    Always ScriptCall.step AllOwned True freshDocument calls ↔
      Allowed ScriptCall.step (fun h c => c.Callable h → c.LeavesNoFragment) freshDocument
        calls := by
  refine always_iff_allowed (J := fun h => ∃ ch, Household h 0 ch) ?_
    (fun h c hk howned => allOwned_step_iff hk howned) ⟨_, household_freshDocument⟩ ?_ calls
  · rintro h c r ⟨ch, k⟩ hr
    exact k.step hr
  · intro n hn
    obtain rfl : n = 0 := Nat.lt_one_iff.mp hn
    exact ⟨by decide, fun hd => absurd rfl hd⟩

/-- **An element is made and gets its wrapper; the text assigned to its `innerHTML` ends up below
it, and the fragment `2` that the parser filled has no owner.** -/
theorem innerHTML_fragment_unowned :
    ¬ Always ScriptCall.step AllOwned True freshDocument
      [.createElement 0 "div", .push 1, .setInnerHTML 1 "x" (.text .nil)] := by
  intro h
  have howned := h.2.2.2 2 (by decide)
  rcases howned.2 (by decide) with ⟨hp, -⟩ | ⟨-, hg, -⟩ | ⟨-, -, hr, -⟩
  · exact hp (by decide)
  · exact absurd hg (by decide)
  · exact absurd hr (by decide)

end Blinkit.Dom
