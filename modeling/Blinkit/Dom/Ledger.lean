import Blinkit.Dom.Operations

/-!
# The owners of nodes

A node is owned by its parent, by the pool or by the script that holds its wrapper.

* `Ledger h` — the pool and the flags of the nodes agree, and only nodes without a parent are in
  the pool or retained by the script.
* `Released h h'` — nodes have left their parents, and each went to the pool.
* `Received h h'` — nodes without a parent have got one, which is their only owner from then on.
* `Handover h h'` — the one followed by the other: what every mutator does.

Principal results: `released_removeChild`, `released_removeChildren`, `handover_insertChecked` and
the mutators that end with it.
-/

set_option autoImplicit false

namespace Blinkit.Dom

open LinkedForest ChildLists Function

variable {h h' h₁ m : Heap} {ch : NodeId → List NodeId} {p n c t : NodeId} {fuel : Nat}

/-- **The pool and the flags of the nodes agree.** -/
structure Ledger (h : Heap) : Prop where
  /-- Only roots other than documents are in the pool. -/
  pooled : ∀ n ∈ h.gcObjects, n < h.size ∧ h.links.parent n = none ∧ h.document n ≠ n ∧
    h.contextRetained n = false
  flag : ∀ n, h.inGCPool n = true ↔ n ∈ h.gcObjects
  nodup : h.gcObjects.Nodup
  /-- Only roots other than documents are retained, by a script that has their wrapper. -/
  retained : ∀ n, h.contextRetained n = true → n < h.size ∧ h.links.parent n = none ∧
    h.document n ≠ n ∧ h.contextObject n = true

structure Released (h h' : Heap) : Prop extends SameNodes h h' where
  contextObject : h'.contextObject = h.contextObject
  contextRetained : h'.contextRetained = h.contextRetained
  freed : h'.freed = h.freed
  parent : ∀ x y, h'.links.parent x = some y → h.links.parent x = some y
  pooled : ∀ n, n ∈ h'.gcObjects ↔
    n ∈ h.gcObjects ∨ (h.links.parent n ≠ none ∧ h'.links.parent n = none)
  ledger : Ledger h'

structure Received (h h' : Heap) : Prop extends SameNodes h h' where
  contextObject : h'.contextObject = h.contextObject
  freed : h'.freed = h.freed
  retained : ∀ n, h'.contextRetained n = true ↔
    h.contextRetained n = true ∧ h'.links.parent n = none
  parent : ∀ x, h.links.parent x ≠ none → h'.links.parent x = h.links.parent x
  pooled : ∀ n, n ∈ h'.gcObjects ↔ n ∈ h.gcObjects ∧ h'.links.parent n = none
  /-- Fragments stay without a parent. -/
  fragment : ∀ x, h.isDocumentFragment x = true → h'.links.parent x = h.links.parent x
  ledger : Ledger h'

structure Handover (h h' : Heap) : Prop extends SameNodes h h' where
  contextObject : h'.contextObject = h.contextObject
  freed : h'.freed = h.freed
  retained : ∀ n, h'.contextRetained n = true ↔
    h.contextRetained n = true ∧ h'.links.parent n = none
  pooled : ∀ n, n ∈ h'.gcObjects ↔
    h'.links.parent n = none ∧ (n ∈ h.gcObjects ∨ h.links.parent n ≠ none)
  fragment : ∀ x, h.isDocumentFragment x = true → h.links.parent x = none →
    h'.links.parent x = none
  ledger : Ledger h'

/-! ## Composition -/

theorem Released.refl (l : Ledger h) : Released h h where
  toSameNodes := .refl h
  contextObject := rfl
  contextRetained := rfl
  freed := rfl
  parent _ _ hxy := hxy
  pooled _ := ⟨.inl, fun hn => hn.elim id fun hc => absurd hc.2 hc.1⟩
  ledger := l

theorem Released.root (r : Released h h') (hn : h.links.parent n = none) :
    h'.links.parent n = none := by
  cases hy : h'.links.parent n with
  | none => rfl
  | some y =>
    rw [r.parent n y hy] at hn
    cases hn

theorem Released.trans (a : Released h m) (b : Released m h') : Released h h' where
  toSameNodes := a.toSameNodes.trans b.toSameNodes
  contextObject := b.contextObject.trans a.contextObject
  contextRetained := b.contextRetained.trans a.contextRetained
  freed := b.freed.trans a.freed
  parent x y hxy := a.parent x y (b.parent x y hxy)
  pooled n := by
    rw [b.pooled, a.pooled]
    constructor
    · rintro ((hn | ⟨hp, hm⟩) | ⟨hm, hn⟩)
      · exact .inl hn
      · exact .inr ⟨hp, b.root hm⟩
      · exact .inr ⟨fun hp => hm (a.root hp), hn⟩
    · rintro (hn | ⟨hp, hn⟩)
      · exact .inl (.inl hn)
      · by_cases hm : m.links.parent n = none
        · exact .inl (.inr ⟨hp, hm⟩)
        · exact .inr ⟨hm, hn⟩
  ledger := b.ledger

theorem Received.refl (l : Ledger h) : Received h h where
  toSameNodes := .refl h
  contextObject := rfl
  freed := rfl
  retained n := ⟨fun hr => ⟨hr, (l.retained n hr).2.1⟩, And.left⟩
  parent _ _ := rfl
  pooled n := ⟨fun hn => ⟨hn, (l.pooled n hn).2.1⟩, And.left⟩
  fragment _ _ := rfl
  ledger := l

theorem Received.root (r : Received h h') (hn : h'.links.parent n = none) :
    h.links.parent n = none := by
  by_contra hp
  exact hp (by rw [← r.parent n hp, hn])

theorem Received.trans (a : Received h m) (b : Received m h') : Received h h' where
  toSameNodes := a.toSameNodes.trans b.toSameNodes
  contextObject := b.contextObject.trans a.contextObject
  freed := b.freed.trans a.freed
  retained n := by
    rw [b.retained, a.retained]
    exact ⟨fun hn => ⟨hn.1.1, hn.2⟩, fun hn => ⟨⟨hn.1, b.root hn.2⟩, hn.2⟩⟩
  parent x hx := by
    have hm := a.parent x hx
    rw [b.parent x (by rw [hm]; exact hx), hm]
  pooled n := by
    rw [b.pooled, a.pooled]
    exact ⟨fun hn => ⟨hn.1.1, hn.2⟩, fun hn => ⟨⟨hn.1, b.root hn.2⟩, hn.2⟩⟩
  fragment x hx := by
    rw [b.fragment x (by rw [a.toSameNodes.isDocumentFragment]; exact hx), a.fragment x hx]
  ledger := b.ledger

/-- **Nodes leave their parents, then some of them get new ones.** -/
theorem Released.received (a : Released h m) (b : Received m h') :
    Handover h h' where
  toSameNodes := a.toSameNodes.trans b.toSameNodes
  contextObject := b.contextObject.trans a.contextObject
  freed := b.freed.trans a.freed
  retained n := by rw [b.retained, a.contextRetained]
  pooled n := by
    rw [b.pooled, a.pooled]
    constructor
    · rintro ⟨hn | ⟨hp, -⟩, hroot⟩
      · exact ⟨hroot, .inl hn⟩
      · exact ⟨hroot, .inr hp⟩
    · rintro ⟨hroot, hn | hp⟩
      · exact ⟨.inl hn, hroot⟩
      · exact ⟨.inr ⟨hp, b.root hroot⟩, hroot⟩
  fragment x hx hroot := by
    rw [b.fragment x (by rw [a.toSameNodes.isDocumentFragment]; exact hx)]
    exact a.root hroot
  ledger := b.ledger

theorem Released.handover (a : Released h h') : Handover h h' := a.received (.refl a.ledger)

theorem Received.handover (l : Ledger h) (b : Received h h') : Handover h h' :=
  (Released.refl l).received b

theorem Handover.refl (l : Ledger h) : Handover h h := (Released.refl l).handover

/-- The fields of `Ledger` are those that the equations name. -/
theorem Ledger.congr (l : Ledger h) (s : SameTree h h') (ho : h'.gcObjects = h.gcObjects)
    (hf : h'.inGCPool = h.inGCPool) (hr : h'.contextRetained = h.contextRetained)
    (hc : h'.contextObject = h.contextObject) : Ledger h' where
  pooled n hn := by
    rw [s.size, s.links, s.document, hr]
    exact l.pooled n (ho ▸ hn)
  flag n := by rw [hf, ho]; exact l.flag n
  nodup := by rw [ho]; exact l.nodup
  retained n hn := by
    rw [s.size, s.links, s.document, hc]
    exact l.retained n (hr ▸ hn)

/-! ## Notifications -/

theorem notifyNodeInsertedInternal_eq
    (hn : h.notifyNodeInsertedInternal fuel p n = some h') :
    ∃ conn, h' = { h with isConnected := conn } := by
  unfold Heap.notifyNodeInsertedInternal at hn
  obtain ⟨ds, -, heq⟩ := Option.bind_eq_some_iff.mp hn
  rw [foldl_insertedInto] at heq
  obtain rfl := Option.some.inj heq
  split
  · exact ⟨_, rfl⟩
  · exact ⟨h.isConnected, rfl⟩

/-! ## Removals -/

/-- **A child that is unlinked goes to the pool.** -/
theorem released_detach (w : WellFormed h ch) (l : Ledger h) (hc : h.links.parent c = some p)
    {links : Links NodeId} (conn : NodeId → Bool)
    (hparent : links.parent = update h.links.parent c none) :
    Released h ({ h with links := links, isConnected := conn }.save c) := by
  have hcr : h.contextRetained c = false := by
    cases hr : h.contextRetained c with
    | false => rfl
    | true =>
      rw [(l.retained c hr).2.1] at hc
      cases hc
  have hcg : c ∉ h.gcObjects := fun hg => by
    rw [(l.pooled c hg).2.1] at hc
    cases hc
  have hroot : ∀ x, x ≠ c → links.parent x = h.links.parent x := fun x hx => by
    rw [hparent, update_of_ne hx]
  have hcroot : links.parent c = none := by rw [hparent, update_self]
  have hsave : Heap.save { h with links := links, isConnected := conn } c =
      { h with
        links := links, isConnected := conn, gcObjects := h.gcObjects.insert c
        inGCPool := update h.inGCPool c true } := by
    unfold Heap.save
    rw [if_neg (by simp [hcr])]
  rw [hsave]
  refine { toSameNodes := ⟨rfl, rfl, rfl, rfl⟩, contextObject := rfl, contextRetained := rfl,
           freed := rfl, parent := ?_, pooled := ?_, ledger := ?_ }
  · intro x y hxy
    exact parent_of_detach (hparent ▸ hxy)
  · intro n
    simp only [List.mem_insert_iff]
    rcases eq_or_ne n c with rfl | hn
    · exact iff_of_true (.inl rfl) (.inr ⟨by rw [hc]; simp, hcroot⟩)
    · rw [hroot n hn]
      constructor
      · rintro (rfl | hg)
        · exact absurd rfl hn
        · exact .inl hg
      · rintro (hg | ⟨hp, hno⟩)
        · exact .inr hg
        · exact absurd hno hp
  · refine ⟨?_, ?_, l.nodup.insert, ?_⟩
    · intro n hg
      rcases List.mem_insert_iff.mp hg with rfl | hg
      · exact ⟨(w.allocated n p hc).1, hcroot, w.not_document hc, hcr⟩
      · have hn : n ≠ c := fun he => hcg (he ▸ hg)
        simp only [hroot n hn]
        exact l.pooled n hg
    · intro n
      simp only [List.mem_insert_iff]
      rcases eq_or_ne n c with rfl | hn
      · simp
      · rw [update_of_ne hn, l.flag n]
        simp [hn]
    · intro n hr
      have hn : n ≠ c := by
        rintro rfl
        rw [hcr] at hr
        cases hr
      simp only [hroot n hn]
      exact l.retained n hr

/-- A change of the version concerns no owner. -/
theorem Released.childrenChanged (r : Released h m) (p : NodeId) :
    Released h (m.childrenChanged p) :=
  r.trans { Released.refl r.ledger with
    ledger := r.ledger.congr (.childrenChanged m p) rfl rfl rfl rfl }

theorem released_removeChild (w : WellFormed h ch) (l : Ledger h) (hfuel : h.size < fuel)
    (hc : c ∈ ch p) {r : Result} (hr : ContainerNode.removeChild h fuel p (some c) = some r) :
    Released h r.heap := by
  obtain ⟨l₁, l₂, hs, -, -, hprev, hnext⟩ := w.split hc
  obtain ⟨conn, hnotify, -⟩ := w.detachChild hfuel hs
  have hparent : h.parentNode c = some p := w.mem_iff.mp hc
  simp only [ContainerNode.removeChild, hparent, ne_eq, not_true_eq_false, if_false,
    Heap.previousSibling, Heap.nextSibling, hprev, hnext, hnotify, Option.bind_eq_bind,
    Option.bind_some, Option.pure_def, Option.some.injEq] at hr
  rw [← hr]
  exact (released_detach w l hparent conn (Links.remove_parent _ _ _ _ _)).childrenChanged p

theorem released_removeChildrenLoop {rounds : Nat} (w : WellFormed h ch) (l : Ledger h)
    (hfuel : h.size < fuel)
    (hr : ContainerNode.removeChildrenLoop fuel p rounds h = some h') : Released h h' := by
  induction rounds generalizing h ch with
  | zero =>
    unfold ContainerNode.removeChildrenLoop at hr
    split at hr
    · obtain rfl := Option.some.inj hr
      exact .refl l
    · cases hr
    · rename_i hz
      cases hz
  | succ rounds ih =>
    cases hs : ch p with
    | nil =>
      have hfirst : h.links.first p = none := w.first_eq_none.mpr hs
      simp only [ContainerNode.removeChildrenLoop, hfirst, Option.some.injEq] at hr
      exact hr ▸ .refl l
    | cons c cs =>
      have hs' : ch p = [] ++ c :: cs := by simpa using hs
      have hc : h.links.parent c = some p := w.mem_iff.mp (by rw [hs]; simp)
      obtain ⟨conn, hnotify, w'⟩ := w.detachChild hfuel hs'
      have hfirst : h.links.first p = some c := by rw [w.represents.first_eq, hs]; rfl
      have hnext : h.links.next c = cs.head? := w.represents.next_eq hs'
      rw [List.getLast?_nil] at hnotify w'
      rw [ContainerNode.removeChildrenLoop.eq_def _ _ (rounds + 1)] at hr
      simp only [hfirst, Heap.nextSibling, hnext, hnotify, Option.bind_eq_bind,
        Option.bind_some] at hr
      have hrel := released_detach w l hc conn (Links.remove_parent h.links p c none cs.head?)
      exact hrel.trans (ih (w'.congr (.save _ c)) hrel.ledger
        (by rw [hrel.size]; exact hfuel) hr)

theorem released_removeChildren (w : WellFormed h ch) (l : Ledger h) (hfuel : h.size < fuel)
    (hr : ContainerNode.removeChildren h fuel p = some h') : Released h h' := by
  unfold ContainerNode.removeChildren at hr
  split at hr
  · exact Option.some.inj hr ▸ .refl l
  · obtain ⟨h₁, hloop, rfl⟩ := Option.map_eq_some_iff.mp hr
    exact (released_removeChildrenLoop w l hfuel hloop).childrenChanged p

/-! ## Insertions -/

/-- **A root that is linked has its parent as the only owner.** -/
theorem received_attach (l : Ledger h) (ht : h.links.parent t = none)
    (hfrag : h.isDocumentFragment t = false) (s : SameNodes h h')
    (hparent : h'.links.parent = update h.links.parent t (some p))
    (hobject : h'.contextObject = h.contextObject) (hfreed : h'.freed = h.freed)
    (hretained : h'.contextRetained = update h.contextRetained t false)
    (hpool : h'.gcObjects = h.gcObjects.erase t)
    (hflag : h'.inGCPool = update h.inGCPool t false) : Received h h' := by
  have hkeep : ∀ x, x ≠ t → h'.links.parent x = h.links.parent x := fun x hx => by
    rw [hparent, update_of_ne hx]
  have hlinked : h'.links.parent t = some p := by rw [hparent, update_self]
  have hmem : ∀ n, n ∈ h'.gcObjects ↔ n ≠ t ∧ n ∈ h.gcObjects := fun n => by
    rw [hpool, l.nodup.mem_erase_iff]
  refine { toSameNodes := s, contextObject := hobject, freed := hfreed, retained := ?_,
           parent := ?_, pooled := ?_, fragment := ?_, ledger := ⟨?_, ?_, ?_, ?_⟩ }
  · intro n
    rw [hretained]
    rcases eq_or_ne n t with rfl | hn
    · simp [hlinked]
    · rw [update_of_ne hn, hkeep n hn]
      exact ⟨fun hr => ⟨hr, (l.retained n hr).2.1⟩, And.left⟩
  · intro x hx
    exact hkeep x fun he => hx (he ▸ ht)
  · intro n
    rw [hmem]
    rcases eq_or_ne n t with rfl | hn
    · simp [hlinked]
    · rw [hkeep n hn]
      exact ⟨fun hg => ⟨hg.2, (l.pooled n hg.2).2.1⟩, fun hg => ⟨hn, hg.1⟩⟩
  · intro x hx
    refine hkeep x fun he => ?_
    rw [he, hfrag] at hx
    cases hx
  · intro n hn
    obtain ⟨hne, hg⟩ := (hmem n).mp hn
    rw [s.size, s.document, hkeep n hne, hretained, update_of_ne hne]
    exact l.pooled n hg
  · intro n
    rw [hflag, hmem]
    rcases eq_or_ne n t with rfl | hn
    · simp
    · rw [update_of_ne hn, l.flag n]
      simp [hn]
  · rw [hpool]
    exact l.nodup.erase t
  · intro n hr
    rw [hretained] at hr
    rcases eq_or_ne n t with rfl | hn
    · rw [update_self] at hr
      cases hr
    · rw [update_of_ne hn] at hr
      rw [s.size, s.document, hkeep n hn, hobject]
      exact l.retained n hr

/-- One round of `InsertNodeVector`. -/
theorem received_mutator {next : Option NodeId} (l : Ledger h) (ht : h.links.parent t = none)
    (hfrag : h.isDocumentFragment t = false)
    (hn : (ContainerNode.mutator h p t next).notifyNodeInsertedInternal fuel p t = some h') :
    Received h h' ∧ h'.links.parent = update h.links.parent t (some p) := by
  obtain ⟨conn, rfl⟩ := notifyNodeInsertedInternal_eq hn
  cases next with
  | none =>
    have hparent := h.links.append_parent p t
    exact ⟨received_attach l ht hfrag ⟨rfl, rfl, rfl, rfl⟩ hparent rfl rfl rfl rfl rfl, hparent⟩
  | some r =>
    have hparent := h.links.insertBefore_parent p r t
    exact ⟨received_attach l ht hfrag ⟨rfl, rfl, rfl, rfl⟩ hparent rfl rfl rfl rfl rfl, hparent⟩

theorem received_insertNodeVector {next : Option NodeId} {ts : List NodeId} (l : Ledger h)
    (hts : ∀ t ∈ ts, h.links.parent t = none ∧ h.isDocumentFragment t = false) (hnd : ts.Nodup)
    (hr : ContainerNode.insertNodeVector fuel p next ts h = some h') : Received h h' := by
  induction ts generalizing h with
  | nil => exact Option.some.inj hr ▸ .refl l
  | cons t ts ih =>
    unfold ContainerNode.insertNodeVector at hr
    obtain ⟨h₁, hstep, hrest⟩ := Option.bind_eq_some_iff.mp hr
    obtain ⟨ht, hfrag⟩ := hts t (by simp)
    obtain ⟨hrec, hparent⟩ := received_mutator l ht hfrag hstep
    refine hrec.trans (ih hrec.ledger (fun u hu => ?_) (List.nodup_cons.mp hnd).2 hrest)
    have hut : u ≠ t := ne_of_mem_of_not_mem hu (List.nodup_cons.mp hnd).1
    obtain ⟨huroot, hufrag⟩ := hts u (by simp [hu])
    rw [hparent, update_of_ne hut, hrec.toSameNodes.isDocumentFragment]
    exact ⟨huroot, hufrag⟩

theorem Received.didInsertNodeVector (r : Received h m) (p : NodeId) (ts : List NodeId) :
    Received h (ContainerNode.didInsertNodeVector m p ts) := by
  induction ts generalizing m with
  | nil => exact r
  | cons t ts ih =>
    exact ih (r.trans { Received.refl r.ledger with
      ledger := r.ledger.congr (.childrenChanged m p) rfl rfl rfl rfl })

/-- Fragments have no parent. -/
def FragmentsAreRoots (h : Heap) : Prop :=
  ∀ x, h.isDocumentFragment x = true → h.links.parent x = none

theorem Handover.fragmentsAreRoots (f : FragmentsAreRoots h) (r : Handover h h') :
    FragmentsAreRoots h' := by
  intro x hx
  rw [r.toSameNodes.isDocumentFragment] at hx
  exact r.fragment x hx (f x hx)

theorem Released.fragmentsAreRoots (f : FragmentsAreRoots h) (r : Released h h') :
    FragmentsAreRoots h' := r.handover.fragmentsAreRoots f

/-- No fragment is collected for an insertion. -/
theorem not_fragment_collected (w : WellFormed h ch) (f : FragmentsAreRoots h)
    (ht : t ∈ collected h ch n) : h.isDocumentFragment t = false := by
  unfold collected targets at ht
  split at ht
  · cases hfrag : h.isDocumentFragment t with
    | false => rfl
    | true =>
      have hroot := f t hfrag
      rw [w.mem_iff.mp ht] at hroot
      cases hroot
  · rename_i hn
    rw [List.mem_singleton.mp ht]
    exact Bool.eq_false_iff.mpr hn

theorem released_collect (w : WellFormed h ch) (l : Ledger h) (hfuel : h.size < fuel)
    {k : ContainerNode.Collected}
    (hr : ContainerNode.collectChildrenAndRemoveFromOldParent h fuel n = some k) :
    Released h k.heap := by
  unfold ContainerNode.collectChildrenAndRemoveFromOldParent at hr
  split at hr
  · obtain ⟨nodes, -, hr⟩ := Option.bind_eq_some_iff.mp hr
    obtain ⟨h₁, hrem, hr⟩ := Option.bind_eq_some_iff.mp hr
    obtain rfl := Option.some.inj hr
    exact released_removeChildren w l hfuel hrem
  · split at hr
    · obtain rfl := Option.some.inj hr
      exact .refl l
    · rename_i oldParent hp
      obtain ⟨r, hrem, hr⟩ := Option.bind_eq_some_iff.mp hr
      obtain rfl := Option.some.inj hr
      unfold Node.removeChild at hrem
      rw [if_pos (w.container n oldParent hp)] at hrem
      exact released_removeChild w l hfuel (w.mem_iff.mpr hp) hrem

/-- **Behind the checks: the collected nodes leave their parents, and then they are inserted or
stay in the pool.** -/
theorem handover_insertChecked {next : Option NodeId} {ret : NodeId} {flag : Bool} {r : Result}
    (w : WellFormed h ch) (l : Ledger h) (f : FragmentsAreRoots h) (hfuel : h.size < fuel)
    (k : Checked h ch p n next)
    (hr : ContainerNode.insertChecked h fuel p n next ret flag = some r) :
    ∃ m, Released h m ∧ Received m r.heap := by
  obtain ⟨h₁, hcol, w₁, s₁, -, -⟩ := collect_spec w hfuel n
  have hrel : Released h h₁ := released_collect w l hfuel hcol
  unfold ContainerNode.insertChecked at hr
  simp only [hcol, Option.bind_eq_bind, Option.bind_some, Option.pure_def] at hr
  split at hr
  · obtain rfl := Option.some.inj hr
    exact ⟨h₁, hrel, .refl hrel.ledger⟩
  · split at hr
    · obtain rfl := Option.some.inj hr
      exact ⟨h₁, hrel, .refl hrel.ledger⟩
    · obtain ⟨h₂, hins, hr⟩ := Option.bind_eq_some_iff.mp hr
      obtain rfl := Option.some.inj hr
      refine ⟨h₁, hrel, (received_insertNodeVector hrel.ledger (fun t ht => ⟨?_, ?_⟩)
        (collected_nodup w n) hins).didInsertNodeVector p _⟩
      · exact (detached_collected w k.node_allocated k.notDocument w₁ s₁ t ht).2.1
      · rw [s₁.isDocumentFragment]
        exact not_fragment_collected w f ht

/-! ## The methods -/

theorem handover_removeChild {child : Option NodeId} (w : WellFormed h ch) (l : Ledger h)
    (hfuel : h.size < fuel) {r : Result} (hr : Node.removeChild h fuel p child = some r) :
    Released h r.heap := by
  unfold Node.removeChild at hr
  split at hr
  · cases child with
    | none =>
      obtain rfl := Option.some.inj hr
      exact .refl l
    | some c =>
      by_cases hc : h.parentNode c = some p
      · exact released_removeChild w l hfuel (w.mem_iff.mpr hc) hr
      · simp only [ContainerNode.removeChild, hc, ne_eq, not_false_eq_true, if_true,
          Option.pure_def, Option.some.injEq] at hr
        exact hr ▸ .refl l
  · obtain rfl := Option.some.inj hr
    exact .refl l

theorem handover_appendChild (w : WellFormed h ch) (l : Ledger h) (f : FragmentsAreRoots h)
    (hfuel : h.size < fuel) (hp : p < h.size) (hn : n < h.size)
    (hcont : h.isContainerNode p = true) {r : Result}
    (hr : ContainerNode.appendChild h fuel p n = some r) : Handover h r.heap := by
  obtain ⟨e, hval⟩ := ensurePreInsertionValidity_total w hfuel p n none none
  simp only [ContainerNode.appendChild, hval, Option.bind_eq_bind, Option.bind_some,
    Option.pure_def] at hr
  cases e with
  | some e =>
    obtain rfl := Option.some.inj hr
    exact .refl l
  | none =>
    obtain ⟨m, hrel, hrec⟩ := handover_insertChecked w l f hfuel
      ((validity_spec hval).checked hp hn hcont fun _ hr => by cases hr) hr
    exact hrel.received hrec

theorem handover_nodeAppendChild (w : WellFormed h ch) (l : Ledger h) (f : FragmentsAreRoots h)
    (hfuel : h.size < fuel) (hp : p < h.size) (hn : n < h.size) {r : Result}
    (hr : Node.appendChild h fuel p n = some r) : Handover h r.heap := by
  unfold Node.appendChild at hr
  split at hr
  · rename_i hcont
    exact handover_appendChild w l f hfuel hp hn hcont hr
  · obtain rfl := Option.some.inj hr
    exact .refl l

theorem handover_insertBefore {ref : Option NodeId} (w : WellFormed h ch) (l : Ledger h)
    (f : FragmentsAreRoots h) (hfuel : h.size < fuel) (hp : p < h.size) (hn : n < h.size)
    {r : Result} (hr : Node.insertBefore h fuel p n ref = some r) : Handover h r.heap := by
  cases ref with
  | none => exact handover_nodeAppendChild w l f hfuel hp hn hr
  | some ref =>
    unfold Node.insertBefore at hr
    split at hr
    · rename_i hcont
      obtain ⟨e, hval⟩ := ensurePreInsertionValidity_total w hfuel p n (some ref) none
      cases e with
      | some e =>
        obtain rfl : _ = r := by simpa [ContainerNode.insertBefore, hval] using hr
        exact .refl l
      | none =>
        obtain ⟨heq, hmem⟩ := insertBefore_eq w hval
        rw [heq] at hr
        obtain ⟨m, hrel, hrec⟩ := handover_insertChecked w l f hfuel
          ((validity_spec hval).checked hp hn hcont hmem) hr
        exact hrel.received hrec
    · obtain rfl := Option.some.inj hr
      exact .refl l

theorem released_removeForReplace (w : WellFormed h ch) (l : Ledger h) (hfuel : h.size < fuel)
    {e : Option DOMException} {flag : Bool}
    (hr : ContainerNode.removeForReplace h fuel p n = some (h', e, flag)) : Released h h' := by
  unfold ContainerNode.removeForReplace at hr
  split at hr
  · cases hr
    exact .refl l
  · rename_i parent hp
    obtain ⟨r, hrem, hr⟩ := Option.bind_eq_some_iff.mp hr
    cases hr
    exact released_removeChild w l hfuel (w.mem_iff.mpr hp) hrem

theorem handover_replaceChild {old : NodeId} (w : WellFormed h ch) (v : VersionsBounded h)
    (l : Ledger h) (f : FragmentsAreRoots h) (hfuel : h.size < fuel) (hp : p < h.size)
    (hn : n < h.size) (hcont : h.isContainerNode p = true) {r : Result}
    (hr : ContainerNode.replaceChild h fuel p n (some old) = some r) : Handover h r.heap := by
  obtain ⟨e, hval⟩ := ensurePreInsertionValidity_total w hfuel p n none (some old)
  cases e with
  | some e =>
    obtain rfl : _ = r := by simpa [ContainerNode.replaceChild, hval] using hr
    exact .refl l
  | none =>
    have hold : old ∈ ch p := w.mem_iff.mpr ((validity_spec hval).old_child old rfl)
    obtain ⟨h₁, flag₁, hr₁, w₁, s₁, v₁, -⟩ := removeForReplace_spec w v hfuel p n
    have hfuel₁ : h₁.size < fuel := by rw [s₁.size]; exact hfuel
    obtain ⟨h₂, flag₂, hr₂, w₂, s₂, v₂, -⟩ := removeForReplace_spec w₁ v₁ hfuel₁ p old
    have hrel₁ := released_removeForReplace w l hfuel hr₁
    have hrel := hrel₁.trans (released_removeForReplace w₁ hrel₁.ledger hfuel₁ hr₂)
    rw [replaceChild_eq w hval hr₁ hr₂] at hr
    obtain ⟨m, hrel', hrec⟩ := handover_insertChecked w₂ hrel.ledger (hrel.fragmentsAreRoots f)
      (by rw [hrel.size]; exact hfuel)
      (replaceChild_checked w
        ((validity_spec hval).checked hp hn hcont fun _ hr => by cases hr) hold (s₁.trans s₂)) hr
    exact (hrel.trans hrel').received hrec

/-- The parser appends a root that nobody owns. -/
theorem received_parserAppendChild (l : Ledger h) (hroot : h.links.parent n = none)
    (hfrag : h.isDocumentFragment n = false) (hpool : n ∉ h.gcObjects)
    (hr : ContainerNode.parserAppendChild h fuel p n = some h') : Received h h' := by
  unfold ContainerNode.parserAppendChild at hr
  obtain ⟨ok, -, hr⟩ := Option.bind_eq_some_iff.mp hr
  split at hr
  · exact Option.some.inj hr ▸ .refl l
  · have hdetach : ContainerNode.parserDetach n fuel h = some h := by
      have hp : h.parentNode n = none := hroot
      cases fuel <;> simp [ContainerNode.parserDetach, hp]
    rw [hdetach, Option.bind_eq_bind, Option.bind_some] at hr
    obtain ⟨h₁, hnotify, hr⟩ := Option.bind_eq_some_iff.mp hr
    obtain rfl := Option.some.inj hr
    obtain ⟨conn, rfl⟩ := notifyNodeInsertedInternal_eq hnotify
    have hflag : update h.inGCPool n false = h.inGCPool := by
      have : h.inGCPool n = false := Bool.eq_false_iff.mpr fun ht => hpool ((l.flag n).mp ht)
      rw [← this, update_eq_self]
    exact received_attach l hroot hfrag ⟨rfl, rfl, rfl, rfl⟩ (h.links.append_parent p n) rfl rfl
      rfl (List.erase_of_not_mem hpool).symm hflag.symm

end Blinkit.Dom
