import Blinkit.Dom.WellFormed

/-!
# The mutators refine the operations on child lists

Every mutator, called on a well-formed heap with enough fuel, ends; the child lists of the heap it
leaves are those of the list operation.

* `Bumped h h' p` — one change of the children of `p` has been counted.
* `removalOwner h n` — the node whose list `CollectChildrenAndRemoveFromOldParent` changes.
* `Undisturbed h n p o` — a change of the children of `o` leaves the versions that the detector
  compares as it expects them.
* `Pending h ch p next ts` — the nodes `ts` can be spliced into the list of `p` in front of `next`.

Principal results: `removeChild_spec`, `removeChildren_spec`, `collect_spec`,
`Pending.round`, `insertNodeVector_spec` and `needsRecheck_bumped`.
-/

set_option autoImplicit false

namespace Blinkit.Dom

open LinkedForest ChildLists Function

variable {h h' : Heap} {ch : NodeId → List NodeId} {p c n : NodeId} {fuel : Nat}

/-- One change of the children of `p` has been counted by its document. -/
structure Bumped (h h' : Heap) (p : NodeId) : Prop where
  globalTreeVersion : h'.globalTreeVersion = h.globalTreeVersion + 1
  domTreeVersion : h'.domTreeVersion =
    update h.domTreeVersion (h.document p) (h.globalTreeVersion + 1)

/-- No change has been counted. -/
structure SameVersions (h h' : Heap) : Prop where
  globalTreeVersion : h'.globalTreeVersion = h.globalTreeVersion
  domTreeVersion : h'.domTreeVersion = h.domTreeVersion

theorem Heap.save_versions (h : Heap) (n : NodeId) : SameVersions h (h.save n) := by
  unfold Heap.save
  split <;> exact ⟨rfl, rfl⟩

theorem WellFormed.split (w : WellFormed h ch) (hc : c ∈ ch p) :
    ∃ l₁ l₂, ch p = l₁ ++ c :: l₂ ∧ c ∉ l₁ ∧ c ∉ l₂ ∧
      h.links.prev c = l₁.getLast? ∧ h.links.next c = l₂.head? := by
  obtain ⟨l₁, l₂, hs⟩ := List.append_of_mem hc
  have hnd : (l₁ ++ c :: l₂).Nodup := hs ▸ w.represents.nodup p
  refine ⟨l₁, l₂, hs, fun hl => ?_, ?_, w.represents.prev_eq hs, w.represents.next_eq hs⟩
  · exact (List.nodup_append.mp hnd).2.2 c hl c (by simp) rfl
  · exact (List.nodup_cons.mp (List.nodup_append.mp hnd).2.1).1

theorem WellFormed.first_eq_none (w : WellFormed h ch) {p : NodeId} :
    h.links.first p = none ↔ ch p = [] := by
  rw [w.represents.first_eq, List.head?_eq_none_iff]

/-! ## Removals -/

/-- **`RemoveChild` takes a child out of the list of its parent.** -/
theorem removeChild_spec (w : WellFormed h ch) (hfuel : h.size < fuel) (hc : c ∈ ch p) :
    ∃ h', ContainerNode.removeChild h fuel p (some c) = some ⟨h', some c, none⟩ ∧
      WellFormed h' (detach ch c) ∧ SameNodes h h' ∧ Bumped h h' p := by
  obtain ⟨l₁, l₂, hs, -, -, hprev, hnext⟩ := w.split hc
  obtain ⟨conn, hnotify, w'⟩ := w.detachChild hfuel hs
  have hparent : h.parentNode c = some p := w.mem_iff.mp hc
  have hstep := (SameTree.save { h with
    links := h.links.remove p l₁.getLast? l₂.head? c, isConnected := conn } c).trans
    (SameTree.childrenChanged _ p)
  have hver := Heap.save_versions { h with
    links := h.links.remove p l₁.getLast? l₂.head? c, isConnected := conn } c
  refine ⟨_, ?_, w'.congr hstep,
    ⟨hstep.size, hstep.nodeType, hstep.nodeName, hstep.document⟩, ?_, ?_⟩
  · simp only [ContainerNode.removeChild, hparent, ne_eq, not_true_eq_false, if_false,
      Heap.previousSibling, Heap.nextSibling, hprev, hnext, hnotify, Option.bind_eq_bind,
      Option.bind_some, Option.pure_def]
  · simp only [Heap.childrenChanged, Heap.incDOMTreeVersion, hver.globalTreeVersion]
  · simp only [Heap.childrenChanged, Heap.incDOMTreeVersion, hver.globalTreeVersion,
      hver.domTreeVersion]
    rw [(SameTree.save _ c).document]

/-- One round of the loop of `RemoveChildren`. -/
theorem removeChildrenLoop_succ {cs : List NodeId} (rounds : Nat) (w : WellFormed h ch)
    (hfuel : h.size < fuel) (hs : ch p = c :: cs) :
    ∃ h', ContainerNode.removeChildrenLoop fuel p (rounds + 1) h =
        ContainerNode.removeChildrenLoop fuel p rounds h' ∧
      WellFormed h' (update ch p cs) ∧ SameNodes h h' ∧ SameVersions h h' := by
  have hs' : ch p = [] ++ c :: cs := by simpa using hs
  obtain ⟨conn, hnotify, w'⟩ := w.detachChild hfuel hs'
  have hfirst : h.links.first p = some c := by rw [w.represents.first_eq, hs]; rfl
  have hnext : h.links.next c = cs.head? := w.represents.next_eq hs'
  have hdetach : detach ch c = update ch p cs := by
    refine detach_eq_update ch p hs' (by simp) fun q hq => ?_
    exact w.represents.disjoint (Ne.symm hq) (by rw [hs]; simp)
  rw [hdetach] at w'
  have hsave := SameTree.save { h with
    links := h.links.remove p none cs.head? c, isConnected := conn } c
  refine ⟨_, ?_, w'.congr hsave,
    ⟨hsave.size, hsave.nodeType, hsave.nodeName, hsave.document⟩, ?_, ?_⟩
  · rw [List.getLast?_nil] at hnotify
    rw [ContainerNode.removeChildrenLoop.eq_def _ _ (rounds + 1)]
    simp only [ hfirst, Heap.nextSibling, hnext,
      hnotify, Option.bind_eq_bind, Option.bind_some]
  · exact (Heap.save_versions _ c).globalTreeVersion
  · exact (Heap.save_versions _ c).domTreeVersion

theorem removeChildrenLoop_spec {rounds : Nat} {cs : List NodeId} (w : WellFormed h ch)
    (hfuel : h.size < fuel) (hs : ch p = cs) (hrounds : cs.length ≤ rounds) :
    ∃ h', ContainerNode.removeChildrenLoop fuel p rounds h = some h' ∧
      WellFormed h' (update ch p []) ∧ SameNodes h h' ∧ SameVersions h h' := by
  induction cs generalizing h ch rounds with
  | nil =>
    have hfirst : h.links.first p = none := w.first_eq_none.mpr hs
    have hsame : update ch p [] = ch := by rw [← hs, update_eq_self]
    refine ⟨h, ?_, by rwa [hsame], SameNodes.refl h, rfl, rfl⟩
    cases rounds <;> simp [ContainerNode.removeChildrenLoop, hfirst]
  | cons c cs ih =>
    obtain ⟨rounds, rfl⟩ : ∃ k, rounds = k + 1 := ⟨rounds - 1, by simp at hrounds; omega⟩
    obtain ⟨h₁, hstep, w₁, hsame, hver⟩ := removeChildrenLoop_succ rounds w hfuel hs
    obtain ⟨h₂, hloop, w₂, hsame', hver'⟩ := ih w₁ (by rw [hsame.size]; exact hfuel)
      (update_self p cs ch) (by simpa using hrounds)
    rw [update_idem] at w₂
    exact ⟨h₂, hstep.trans hloop, w₂, hsame.trans hsame',
      hver'.globalTreeVersion.trans hver.globalTreeVersion,
      hver'.domTreeVersion.trans hver.domTreeVersion⟩

/-- **`RemoveChildren` empties the list.** -/
theorem removeChildren_spec (w : WellFormed h ch) (hfuel : h.size < fuel) (p : NodeId) :
    ∃ h', ContainerNode.removeChildren h fuel p = some h' ∧
      WellFormed h' (specRemoveChildren ch p) ∧ SameNodes h h' ∧
      (ch p = [] → h' = h) ∧ (ch p ≠ [] → Bumped h h' p) := by
  by_cases hs : ch p = []
  · have hfirst : h.links.first p = none := w.first_eq_none.mpr hs
    have hsame : specRemoveChildren ch p = ch := by
      rw [specRemoveChildren, ← hs, update_eq_self]
    exact ⟨h, by simp [ContainerNode.removeChildren, hfirst], by rwa [hsame], SameNodes.refl h,
      fun _ => rfl, fun hne => absurd hs hne⟩
  · have hfirst : h.links.first p ≠ none := fun hnone => hs (w.first_eq_none.mp hnone)
    obtain ⟨h₁, hloop, w₁, hsame, hver⟩ := removeChildrenLoop_spec w hfuel rfl
      ((w.length_le p).trans (Nat.le_of_lt hfuel))
    have hstep := SameTree.childrenChanged h₁ p
    refine ⟨h₁.childrenChanged p, ?_, w₁.congr hstep, hsame.trans hstep.toSameNodes,
      fun he => absurd he hs, fun _ => ⟨?_, ?_⟩⟩
    · simp [ContainerNode.removeChildren, hfirst, hloop]
    · simp [Heap.childrenChanged, Heap.incDOMTreeVersion, hver.globalTreeVersion]
    · simp [Heap.childrenChanged, Heap.incDOMTreeVersion, hver.globalTreeVersion,
        hver.domTreeVersion, hsame.document]

/-- The node whose list `CollectChildrenAndRemoveFromOldParent` changes. -/
def removalOwner (h : Heap) (n : NodeId) : Option NodeId :=
  if h.isDocumentFragment n then (if h.links.first n = none then none else some n)
  else h.links.parent n

/-- The nodes collected for an insertion of `n`. -/
abbrev collected (h : Heap) (ch : NodeId → List NodeId) (n : NodeId) : List NodeId :=
  targets h.isDocumentFragment ch n

/-- Emptying a list detaches its members. -/
theorem foldl_detach_children (w : WellFormed h ch) (p : NodeId) :
    (ch p).foldl detach ch = update ch p [] := by
  have key : ∀ (cs : List NodeId) (f : NodeId → List NodeId), f p = cs →
      (∀ q, q ≠ p → ∀ c ∈ cs, c ∉ f q) → cs.foldl detach f = update f p [] := by
    intro cs
    induction cs with
    | nil =>
      intro f hf _
      rw [List.foldl_nil, ← hf, update_eq_self]
    | cons c cs ih =>
      intro f hf hother
      have hdet : detach f c = update f p cs := by
        have hf' : f p = [] ++ c :: cs := hf
        have hupd := detach_eq_update f p hf' (by simp) fun q hq => hother q hq c (by simp)
        rwa [List.nil_append] at hupd
      rw [List.foldl_cons, hdet, ih _ (update_self p cs f) fun q hq d hd => ?_, update_idem]
      rw [update_of_ne hq]
      exact hother q hq d (by simp [hd])
  refine key (ch p) ch rfl fun q hq c hc => ?_
  exact w.represents.disjoint (Ne.symm hq) hc

/-- **`CollectChildrenAndRemoveFromOldParent` collects the nodes to insert, detached.** -/
theorem collect_spec (w : WellFormed h ch) (hfuel : h.size < fuel) (n : NodeId) :
    ∃ h', ContainerNode.collectChildrenAndRemoveFromOldParent h fuel n =
        some ⟨h', collected h ch n, none⟩ ∧
      WellFormed h' ((collected h ch n).foldl detach ch) ∧ SameNodes h h' ∧
      (removalOwner h n = none → h' = h) ∧
      (∀ o, removalOwner h n = some o → Bumped h h' o) := by
  by_cases hfrag : h.isDocumentFragment n = true
  · obtain ⟨h', hrem, w', hsame, hnil, hbump⟩ := removeChildren_spec w hfuel n
    refine ⟨h', ?_, ?_, hsame, fun ho => hnil ?_, fun o ho => ?_⟩
    · simp [ContainerNode.collectChildrenAndRemoveFromOldParent, hfrag,
        w.childNodes_eq hfuel, hrem, targets]
    · simpa [targets, hfrag, foldl_detach_children w, specRemoveChildren] using w'
    · simpa [removalOwner, hfrag, w.first_eq_none] using ho
    · obtain ⟨hne, rfl⟩ : ¬ ch n = [] ∧ n = o := by simpa [removalOwner, hfrag, w.first_eq_none] using ho
      exact hbump hne
  · cases hp : h.links.parent n with
    | none =>
      have hdet : detach ch n = ch :=
        detach_of_not_mem ch fun q hq => w.represents.not_mem_of_detached hp hq
      refine ⟨h, ?_, ?_, SameNodes.refl h, fun _ => rfl, fun o ho => ?_⟩
      · simp [ContainerNode.collectChildrenAndRemoveFromOldParent, hfrag, Heap.parentNode, hp,
          targets]
      · simpa [targets, hfrag, hdet] using w
      · simp [removalOwner, hfrag, hp] at ho
    | some o =>
      obtain ⟨h', hrem, w', hsame, hbump⟩ := removeChild_spec w hfuel (w.mem_iff.mpr hp)
      refine ⟨h', ?_, ?_, hsame, fun ho => ?_, fun o' ho => ?_⟩
      · simp [ContainerNode.collectChildrenAndRemoveFromOldParent, hfrag, Heap.parentNode, hp,
          Node.removeChild, w.container n o hp, hrem, targets]
      · simpa [targets, hfrag] using w'
      · simp [removalOwner, hfrag, hp] at ho
      · obtain rfl : o = o' := by simpa [removalOwner, hfrag, hp] using ho
        exact hbump

/-! ## The detector -/

/-- The tree versions are drawn from the global counter. -/
def VersionsBounded (h : Heap) : Prop := ∀ d, h.domTreeVersion d ≤ h.globalTreeVersion

theorem VersionsBounded.bumped {o : NodeId} (v : VersionsBounded h) (b : Bumped h h' o) :
    VersionsBounded h' := by
  intro d
  rw [b.globalTreeVersion, b.domTreeVersion]
  by_cases hd : d = h.document o
  · simp [hd]
  · simpa [hd] using (v d).trans (Nat.le_succ _)

/-- The change of the list of `o` does not upset the comparison of versions for `n` and `p`. -/
def Undisturbed (h : Heap) (n p o : NodeId) : Prop :=
  (h.document o = h.document n → h.domTreeVersion (h.document n) = h.globalTreeVersion) ∧
    (h.document n ≠ h.document p → h.document o ≠ h.document p)

instance (h : Heap) (n p o : NodeId) : Decidable (Undisturbed h n p o) :=
  inferInstanceAs (Decidable (_ ∧ _))

theorem needsRecheck_same (h : Heap) (n p : NodeId) :
    (DOMTreeMutationDetector.create h n p).needsRecheck h = true := by
  simp [DOMTreeMutationDetector.create, DOMTreeMutationDetector.needsRecheck]

/-- **The detector is content after a removal exactly when it was undisturbed.** -/
theorem needsRecheck_bumped {o : NodeId} (v : VersionsBounded h) (s : SameNodes h h')
    (b : Bumped h h' o) :
    (DOMTreeMutationDetector.create h n p).needsRecheck h' = true ↔ Undisturbed h n p o := by
  have hn := v (h.document n)
  have hp := v (h.document p)
  simp only [DOMTreeMutationDetector.create, DOMTreeMutationDetector.needsRecheck, s.document,
    b.domTreeVersion, ne_eq, not_true_eq_false, if_false, Undisturbed, update_apply]
  by_cases hon : h.document o = h.document n
  · by_cases hnp : h.document n = h.document p
    · simp only [hon, hnp, if_true, true_implies, not_true_eq_false, false_implies, and_true]
      rw [hnp] at hn
      split <;> simp <;> omega
    · simp only [hon, hnp, if_true, true_implies, not_false_eq_true, Ne.symm hnp, if_false,
        beq_self_eq_true, and_true]
      split <;> simp <;> omega
  · simp only [Ne.symm hon, if_false, hon, false_implies, true_and]
    have hlt : ¬ h.domTreeVersion (h.document n) > h.domTreeVersion (h.document n) + 1 := by omega
    simp only [hlt, if_false]
    by_cases hnp : h.document n = h.document p
    · simp [hnp]
    · by_cases hop : h.document p = h.document o
      · simp only [hop, if_true, not_true_eq_false]
        simp
        rw [hop] at hp
        omega
      · simp [hnp, hop, Ne.symm hop]

/-! ## Insertions -/

/-- What has to hold of a node that is linked under `p`. -/
structure Insertable (h : Heap) (p t : NodeId) : Prop where
  allocated : t < h.size
  root : h.links.parent t = none
  notDocument : h.document t ≠ t
  notAbove : ¬ Above h.links.parent p t

/-- **Appending one node, with or without the pool.** -/
theorem adoptAndAppendChild_spec (w : WellFormed h ch) (hfuel : h.size < fuel) {t : NodeId}
    (gcPool : Bool) (hps : p < h.size) (hcont : h.isContainerNode p = true)
    (ht : Insertable h p t) :
    ∃ h', (h.adoptAndAppendChild gcPool p t).notifyNodeInsertedInternal fuel p t = some h' ∧
      WellFormed h' (update ch p (ch p ++ [t])) ∧ SameNodes h h' ∧ SameVersions h h' ∧
      h'.links.parent = update h.links.parent t (some p) := by
  have hparent := h.links.append_parent p t
  have hrep := w.represents.append (p := p) ht.root
  cases gcPool with
  | true =>
    have w₀ : WellFormed ((h.releaseFromContext t).restore t) ch :=
      w.congr ⟨⟨rfl, rfl, rfl, rfl⟩, rfl, rfl⟩
    obtain ⟨conn, hnotify, w'⟩ := w₀.attachChild hfuel hrep hparent ht.root ht.allocated hps hcont
      ht.notDocument ht.notAbove
    exact ⟨_, hnotify, w', ⟨rfl, rfl, rfl, rfl⟩, ⟨rfl, rfl⟩, hparent⟩
  | false =>
    have w₀ : WellFormed (h.releaseFromContext t) ch := w.congr ⟨⟨rfl, rfl, rfl, rfl⟩, rfl, rfl⟩
    obtain ⟨conn, hnotify, w'⟩ := w₀.attachChild hfuel hrep hparent ht.root ht.allocated hps hcont
      ht.notDocument ht.notAbove
    exact ⟨_, hnotify, w', ⟨rfl, rfl, rfl, rfl⟩, ⟨rfl, rfl⟩, hparent⟩

/-- **Inserting one node in front of a child.** -/
theorem adoptAndInsertBefore_spec (w : WellFormed h ch) (hfuel : h.size < fuel) {t r : NodeId}
    (hps : p < h.size) (hcont : h.isContainerNode p = true) (ht : Insertable h p t)
    {l₁ l₂ : List NodeId} (hs : ch p = l₁ ++ r :: l₂) :
    ∃ h', (h.adoptAndInsertBefore true p t r).notifyNodeInsertedInternal fuel p t = some h' ∧
      WellFormed h' (update ch p (l₁ ++ t :: r :: l₂)) ∧ SameNodes h h' ∧ SameVersions h h' ∧
      h'.links.parent = update h.links.parent t (some p) := by
  have hparent := h.links.insertBefore_parent p r t
  have hrep := w.represents.insertBefore ht.root hs
  have w₀ : WellFormed ((h.releaseFromContext t).restore t) ch :=
    w.congr ⟨⟨rfl, rfl, rfl, rfl⟩, rfl, rfl⟩
  obtain ⟨conn, hnotify, w'⟩ := w₀.attachChild hfuel hrep hparent ht.root ht.allocated hps hcont
    ht.notDocument ht.notAbove
  exact ⟨_, hnotify, w', ⟨rfl, rfl, rfl, rfl⟩, ⟨rfl, rfl⟩, hparent⟩

/-- A node stays insertable while another one is linked under `p`. -/
theorem Insertable.after {t u : NodeId} (hu : Insertable h p u) (hne : u ≠ t)
    (ht : Insertable h p t) (s : SameNodes h h')
    (hparent : h'.links.parent = update h.links.parent t (some p)) : Insertable h' p u where
  allocated := by rw [s.size]; exact hu.allocated
  root := by rw [hparent, update_of_ne hne]; exact hu.root
  notDocument := by rw [s.document]; exact hu.notDocument
  notAbove := by
    rw [hparent, above_attach ht.root ht.notAbove]
    rintro (h₁ | ⟨-, h₁⟩) <;> exact hu.notAbove h₁

theorem splice_cons {cs : List NodeId} {next : Option NodeId} {t : NodeId} {ts : List NodeId}
    (hnext : ∀ r, next = some r → r ∈ cs ∧ r ≠ t) :
    splice (splice cs next [t]) next ts = splice cs next (t :: ts) := by
  cases next with
  | none => simp [splice]
  | some r =>
    obtain ⟨hr, hne⟩ := hnext r rfl
    obtain ⟨l₁, l₂, rfl, hr₁⟩ := List.eq_append_cons_of_mem hr
    have hr₁' : r ∉ l₁ ++ [t] := by simpa [hr₁] using hne
    rw [splice_some hr₁, splice_some hr₁, splice_some hr₁']
    simp

/-- What has to hold of the nodes that are to be spliced into the list of `p` in front of `next`. -/
structure Pending (h : Heap) (ch : NodeId → List NodeId) (p : NodeId) (next : Option NodeId)
    (ts : List NodeId) : Prop where
  parent_allocated : p < h.size
  container : h.isContainerNode p = true
  insertable : ∀ t ∈ ts, Insertable h p t
  nodup : ts.Nodup
  next_mem : ∀ r, next = some r → r ∈ ch p

/-- **One round of `InsertNodeVector` splices its node in front of `next`.** -/
theorem Pending.round {next : Option NodeId} {t : NodeId} {ts : List NodeId} (w : WellFormed h ch)
    (hfuel : h.size < fuel) (k : Pending h ch p next (t :: ts)) :
    ∃ h₁, (ContainerNode.mutator h p t next).notifyNodeInsertedInternal fuel p t = some h₁ ∧
      WellFormed h₁ (update ch p (splice (ch p) next [t])) ∧ SameNodes h h₁ ∧
      SameVersions h h₁ ∧ h₁.links.parent = update h.links.parent t (some p) ∧
      Pending h₁ (update ch p (splice (ch p) next [t])) p next ts := by
  have ht : Insertable h p t := k.insertable t (by simp)
  obtain ⟨h₁, hstep, w₁, s₁, v₁, hp₁⟩ : ∃ h₁,
      (ContainerNode.mutator h p t next).notifyNodeInsertedInternal fuel p t = some h₁ ∧
      WellFormed h₁ (update ch p (splice (ch p) next [t])) ∧ SameNodes h h₁ ∧
      SameVersions h h₁ ∧ h₁.links.parent = update h.links.parent t (some p) := by
    cases next with
    | none => exact adoptAndAppendChild_spec w hfuel true k.parent_allocated k.container ht
    | some r =>
      obtain ⟨l₁, l₂, hs, hr₁⟩ := List.eq_append_cons_of_mem (k.next_mem r rfl)
      rw [hs, splice_some hr₁, List.append_assoc]
      exact adoptAndInsertBefore_spec w hfuel k.parent_allocated k.container ht hs
  refine ⟨h₁, hstep, w₁, s₁, v₁, hp₁, ?_⟩
  refine ⟨by rw [s₁.size]; exact k.parent_allocated, by rw [s₁.isContainerNode]; exact k.container,
    fun u hu => ?_, (List.nodup_cons.mp k.nodup).2, fun r hr => ?_⟩
  · have hut : u ≠ t := ne_of_mem_of_not_mem hu (List.nodup_cons.mp k.nodup).1
    exact (k.insertable u (by simp [hu])).after hut ht s₁ hp₁
  · obtain ⟨l₁, l₂, hs, hr₁⟩ := List.eq_append_cons_of_mem (k.next_mem r hr)
    rw [update_self, hr, hs, splice_some hr₁]
    simp

/-- **`InsertNodeVector` splices the nodes into the list of `p`.** -/
theorem insertNodeVector_spec {next : Option NodeId} {ts : List NodeId} (w : WellFormed h ch)
    (hfuel : h.size < fuel) (k : Pending h ch p next ts) :
    ∃ h', ContainerNode.insertNodeVector fuel p next ts h = some h' ∧
      WellFormed h' (update ch p (splice (ch p) next ts)) ∧ SameNodes h h' ∧
      SameVersions h h' := by
  induction ts generalizing h ch with
  | nil =>
    have hsame : update ch p (splice (ch p) next []) = ch := by rw [splice_nil, update_eq_self]
    exact ⟨h, rfl, by rwa [hsame], SameNodes.refl h, rfl, rfl⟩
  | cons t ts ih =>
    have hroot : h.links.parent t = none := (k.insertable t (by simp)).root
    have hnt : ∀ r, next = some r → r ∈ ch p ∧ r ≠ t := fun r hr =>
      ⟨k.next_mem r hr, ne_of_mem_of_not_mem (k.next_mem r hr)
        (w.represents.not_mem_of_detached hroot)⟩
    obtain ⟨h₁, hstep, w₁, s₁, v₁, -, k₁⟩ := k.round w hfuel
    obtain ⟨h₂, hrest, w₂, s₂, v₂⟩ := ih w₁ (by rw [s₁.size]; exact hfuel) k₁
    rw [update_idem, update_self, splice_cons hnt] at w₂
    refine ⟨h₂, ?_, w₂, s₁.trans s₂, v₂.globalTreeVersion.trans v₁.globalTreeVersion,
      v₂.domTreeVersion.trans v₁.domTreeVersion⟩
    simp only [ContainerNode.insertNodeVector, hstep, Option.bind_eq_bind, Option.bind_some, hrest]

end Blinkit.Dom
