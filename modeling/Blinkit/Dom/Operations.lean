import Blinkit.Dom.Validity

/-!
# The DOM methods on child lists

For each method: the heap it leaves when its checks pass, the detector sees no other mutation and
the node inserted is not above the new parent; and, for the insertions, the heap it leaves when
the detector objects.

Principal results: `insertChecked_spec`, `insertChecked_lost`, `appendChild_spec`,
`insertBefore_spec`, `replaceChild_spec`, `parserAppendChild_spec`.
-/

set_option autoImplicit false

namespace Blinkit.Dom

open LinkedForest ChildLists Function

variable {h h' : Heap} {ch ch' : NodeId → List NodeId} {p n : NodeId} {fuel : Nat}

/-! ## Lists that only lose members -/

theorem mem_foldl_detach {ts : List NodeId} {f : NodeId → List NodeId} {q x : NodeId}
    (hx : x ∈ ts.foldl detach f q) : x ∈ f q := by
  induction ts generalizing f with
  | nil => exact hx
  | cons t ts ih =>
    have hx' : x ∈ detach f t q := ih hx
    exact List.mem_of_mem_erase hx'

theorem not_mem_foldl_detach {ts : List NodeId} {f : NodeId → List NodeId} {q x : NodeId}
    (hnd : (f q).Nodup) (hx : x ∈ ts) : x ∉ ts.foldl detach f q := by
  induction ts generalizing f with
  | nil => cases hx
  | cons t ts ih =>
    intro hm
    have hnd' : (detach f t q).Nodup := hnd.erase t
    rcases List.mem_cons.mp hx with rfl | hx
    · have hm' : x ∈ detach f x q := mem_foldl_detach hm
      exact (hnd.mem_erase_iff.mp hm').1 rfl
    · exact ih hnd' hx hm

theorem mem_foldl_detach_of_ne {ts : List NodeId} {f : NodeId → List NodeId} {q x : NodeId}
    (hx : x ∈ f q) (hts : x ∉ ts) : x ∈ ts.foldl detach f q := by
  induction ts generalizing f with
  | nil => exact hx
  | cons t ts ih =>
    obtain ⟨hxt, hxts⟩ : x ≠ t ∧ x ∉ ts := by simpa using hts
    exact ih ((List.mem_erase_of_ne hxt).mpr hx) hxts

/-- With fewer children there are fewer ancestors. -/
theorem above_of_lists (w : WellFormed h ch) (w' : WellFormed h' ch')
    (hsub : ∀ q x, x ∈ ch' q → x ∈ ch q) {x y : NodeId} (hxy : Above h'.links.parent x y) :
    Above h.links.parent x y := by
  induction hxy with
  | refl => exact .refl x
  | tail _ hab ih => exact ih.trans (.of_parent (w.mem_iff.mp (hsub _ _ (w'.mem_iff.mpr hab))))

/-! ## The common part of the insertions -/

theorem didInsertNodeVector_sameTree (h : Heap) (p : NodeId) (ts : List NodeId) :
    SameTree h (ContainerNode.didInsertNodeVector h p ts) := by
  induction ts generalizing h with
  | nil => exact ⟨SameNodes.refl h, rfl, rfl⟩
  | cons t ts ih => exact (SameTree.childrenChanged h p).trans (ih (h.childrenChanged p))

theorem didInsertNodeVector_spec (h : Heap) (p : NodeId) (ts : List NodeId)
    (v : VersionsBounded h) :
    SameTree h (ContainerNode.didInsertNodeVector h p ts) ∧
      VersionsBounded (ContainerNode.didInsertNodeVector h p ts) ∧
      (ts ≠ [] → (ContainerNode.didInsertNodeVector h p ts).domTreeVersion (h.document p) =
        (ContainerNode.didInsertNodeVector h p ts).globalTreeVersion) := by
  refine ⟨didInsertNodeVector_sameTree h p ts, ?_⟩
  induction ts generalizing h with
  | nil => exact ⟨v, fun hne => absurd rfl hne⟩
  | cons t ts ih =>
    have hbump : Bumped h (h.childrenChanged p) p := ⟨rfl, rfl⟩
    obtain ⟨v', hcur⟩ := ih (h.childrenChanged p) (v.bumped hbump)
    refine ⟨v', fun _ => ?_⟩
    cases ts with
    | nil => simp [ContainerNode.didInsertNodeVector, Heap.childrenChanged,
        Heap.incDOMTreeVersion]
    | cons u us => exact hcur (by simp)

/-- The nodes collected for an insertion have been detached, and none is a document. -/
theorem detached_collected (w : WellFormed h ch) (hns : n < h.size)
    (hdoc : h.nodeType n ≠ .document) (w' : WellFormed h' ((collected h ch n).foldl detach ch))
    (s : SameNodes h h') :
    ∀ t ∈ collected h ch n, t < h'.size ∧ h'.links.parent t = none ∧ h'.document t ≠ t := by
  intro t ht
  have hroot : h'.links.parent t = none := by
    cases hq : h'.links.parent t with
    | none => rfl
    | some q =>
      exact absurd (w'.mem_iff.mpr hq) (not_mem_foldl_detach (w.represents.nodup q) ht)
  rw [s.size, s.document]
  by_cases hfrag : h.isDocumentFragment n = true
  · have htn : h.links.parent t = some n := w.mem_iff.mp (by simpa [targets, hfrag] using ht)
    exact ⟨(w.allocated t n htn).1, hroot, w.not_document htn⟩
  · obtain rfl : t = n := by simpa [targets, hfrag] using ht
    exact ⟨hns, hroot, fun he => hdoc ((w.document_type t hns).mpr he)⟩

/-- They can be linked under `p` when `n` is not above it. -/
theorem insertable_collected (w : WellFormed h ch) (hns : n < h.size)
    (hdoc : h.nodeType n ≠ .document) (hpn : ¬ Above h.links.parent p n)
    (w' : WellFormed h' ((collected h ch n).foldl detach ch)) (s : SameNodes h h') :
    ∀ t ∈ collected h ch n, Insertable h' p t := by
  intro t ht
  obtain ⟨hts, hroot, htdoc⟩ := detached_collected w hns hdoc w' s t ht
  refine ⟨hts, hroot, htdoc, fun hp => hpn ?_⟩
  have habove := above_of_lists w w' (fun q x hx => mem_foldl_detach hx) hp
  by_cases hfrag : h.isDocumentFragment n = true
  · exact habove.trans (.of_parent (w.mem_iff.mp (by simpa [targets, hfrag] using ht)))
  · obtain rfl : t = n := by simpa [targets, hfrag] using ht
    exact habove

/-- The reference of an insertion is not among the nodes collected for it. -/
theorem reference_not_collected (w : WellFormed h ch) (hpn : p ≠ n) {r : NodeId} (hr : r ∈ ch p)
    (hrn : r ≠ n) : r ∉ collected h ch n := by
  unfold collected targets
  split
  · exact w.represents.disjoint hpn hr
  · simpa using hrn

theorem collected_nodup (w : WellFormed h ch) (n : NodeId) : (collected h ch n).Nodup := by
  unfold collected targets
  split
  · exact w.represents.nodup n
  · simp

/-- What an insertion is called with once its checks have passed. -/
structure Checked (h : Heap) (ch : NodeId → List NodeId) (p n : NodeId)
    (next : Option NodeId) : Prop where
  parent_allocated : p < h.size
  node_allocated : n < h.size
  container : h.isContainerNode p = true
  notDocument : h.nodeType n ≠ .document
  notSelf : p ≠ n
  next_mem : ∀ r, next = some r → r ∈ ch p ∧ r ≠ n

/-- The same, when the node is not above the new parent either. -/
structure Insertion (h : Heap) (ch : NodeId → List NodeId) (p n : NodeId)
    (next : Option NodeId) : Prop extends Checked h ch p n next where
  notAbove : ¬ Above h.links.parent p n

/-- Nothing can be inserted into itself. -/
theorem Valid.notSelf {next old : Option NodeId} (hv : Valid h fuel p n next old)
    (hcont : h.isContainerNode p = true) : p ≠ n := by
  rintro rfl
  have hanc := hv.notAncestor
  simp [ContainerNode.isHostIncludingInclusiveAncestorOfThis, hcont, Heap.contains] at hanc

theorem Valid.checked {next old ref : Option NodeId} (hv : Valid h fuel p n next old)
    (hps : p < h.size) (hns : n < h.size) (hcont : h.isContainerNode p = true)
    (href : ∀ r, ref = some r → r ∈ ch p ∧ r ≠ n) : Checked h ch p n ref where
  parent_allocated := hps
  node_allocated := hns
  container := hcont
  notDocument := hv.notDocument
  notSelf := hv.notSelf hcont
  next_mem := href

theorem Insertion.next_not_collected {next : Option NodeId} (i : Insertion h ch p n next)
    (w : WellFormed h ch) {r : NodeId} (hr : next = some r) : r ∉ collected h ch n := by
  obtain ⟨hrp, hrn⟩ := i.next_mem r hr
  exact reference_not_collected w i.notSelf hrp hrn

/-- The nodes collected for an insertion are ready for it. -/
theorem Insertion.pending {next : Option NodeId} (i : Insertion h ch p n next)
    (w : WellFormed h ch) (w' : WellFormed h' ((collected h ch n).foldl detach ch))
    (s : SameNodes h h') :
    Pending h' ((collected h ch n).foldl detach ch) p next (collected h ch n) where
  parent_allocated := by rw [s.size]; exact i.parent_allocated
  container := by rw [s.isContainerNode]; exact i.container
  insertable := insertable_collected w i.node_allocated i.notDocument i.notAbove w' s
  nodup := collected_nodup w n
  next_mem := fun r hr =>
    mem_foldl_detach_of_ne (i.next_mem r hr).1 (i.next_not_collected w hr)

theorem move_nil (ch : NodeId → List NodeId) (p : NodeId) (next : Option NodeId) :
    move ch p next [] = ch := by
  rw [move, List.foldl_nil, splice_nil, update_eq_self]

theorem removalOwner_none_of_nil (w : WellFormed h ch) (hnil : collected h ch n = []) :
    removalOwner h n = none := by
  unfold collected targets at hnil
  split at hnil
  · rename_i hfrag
    simp [removalOwner, hfrag, w.first_eq_none.mpr hnil]
  · simp at hnil

/-- What a successful insertion leaves. -/
structure Inserted (h h' : Heap) (ch' : NodeId → List NodeId) (p : NodeId) : Prop where
  wellFormed : WellFormed h' ch'
  sameNodes : SameNodes h h'
  versions : VersionsBounded h'
  current : h' = h ∨ h'.domTreeVersion (h.document p) = h'.globalTreeVersion

/-- **Behind the checks: an undisturbed insertion moves the collected nodes.** -/
theorem insertChecked_spec {next : Option NodeId} {flag : Bool} (ret : NodeId)
    (w : WellFormed h ch) (v : VersionsBounded h) (hfuel : h.size < fuel)
    (i : Insertion h ch p n next) (hflag : flag = false ∨ collected h ch n = [])
    (hund : ∀ o, removalOwner h n = some o → Undisturbed h n p o) :
    ∃ h', ContainerNode.insertChecked h fuel p n next ret flag = some ⟨h', some ret, none⟩ ∧
      Inserted h h' (move ch p next (collected h ch n)) p := by
  obtain ⟨h₁, hcol, w₁, s₁, hsame, hbump⟩ := collect_spec w hfuel n
  by_cases hnil : collected h ch n = []
  · obtain rfl := hsame (removalOwner_none_of_nil w hnil)
    refine ⟨h₁, ?_, ?_, SameNodes.refl h₁, v, .inl rfl⟩
    · simp [ContainerNode.insertChecked, hcol, ContainerNode.Collected.proceed, hnil]
    · rw [hnil, move_nil]
      exact w
  · have v₁ : VersionsBounded h₁ := by
      cases ho : removalOwner h n with
      | none => rw [hsame ho]; exact v
      | some o => exact v.bumped (hbump o ho)
    have hdet : (DOMTreeMutationDetector.create h n p).needsRecheck h₁ = true := by
      cases ho : removalOwner h n with
      | none => rw [hsame ho]; exact needsRecheck_same h n p
      | some o => exact (needsRecheck_bumped v s₁ (hbump o ho)).mpr (hund o ho)
    obtain ⟨h₂, hins, w₂, s₂, v₂⟩ := insertNodeVector_spec w₁ (by rw [s₁.size]; exact hfuel)
      (i.pending w w₁ s₁)
    have hv₂ : VersionsBounded h₂ := fun d => by
      rw [v₂.domTreeVersion, v₂.globalTreeVersion]; exact v₁ d
    obtain ⟨s₃, v₃, hcur⟩ := didInsertNodeVector_spec h₂ p (collected h ch n) hv₂
    refine ⟨_, ?_, w₂.congr s₃, (s₁.trans s₂).trans s₃.toSameNodes, v₃, .inr ?_⟩
    · simp [ContainerNode.insertChecked, hcol, ContainerNode.Collected.proceed, hnil, hdet, hins,
        hflag.resolve_right hnil]
    · have hdoc : h₂.document p = h.document p := by rw [s₂.document, s₁.document]
      rw [← hdoc]
      exact hcur hnil

/-- **Behind the checks: when a detector objects, the collected nodes are detached, nothing is
inserted and no exception is set.** -/
theorem insertChecked_lost {next : Option NodeId} {flag : Bool} (ret : NodeId)
    (w : WellFormed h ch) (v : VersionsBounded h) (hfuel : h.size < fuel)
    (hne : collected h ch n ≠ [])
    (hdist : flag = true ∨ ∃ o, removalOwner h n = some o ∧ ¬ Undisturbed h n p o) :
    ∃ h', ContainerNode.insertChecked h fuel p n next ret flag = some ⟨h', some ret, none⟩ ∧
      WellFormed h' ((collected h ch n).foldl detach ch) ∧ SameNodes h h' ∧
      VersionsBounded h' := by
  obtain ⟨h₁, hcol, w₁, s₁, hsame, hbump⟩ := collect_spec w hfuel n
  have v₁ : VersionsBounded h₁ := by
    cases ho : removalOwner h n with
    | none => rw [hsame ho]; exact v
    | some o => exact v.bumped (hbump o ho)
  refine ⟨h₁, ?_, w₁, s₁, v₁⟩
  rcases hdist with rfl | ⟨o, ho, hdist⟩
  · simp [ContainerNode.insertChecked, hcol, ContainerNode.Collected.proceed, hne,
      ContainerNode.recheckNodeInsertionStructuralPrereq]
  · have hdet := mt (needsRecheck_bumped (n := n) (p := p) v s₁ (hbump o ho)).mp hdist
    simp [ContainerNode.insertChecked, hcol, ContainerNode.Collected.proceed, hne, hdet,
      ContainerNode.recheckNodeInsertionStructuralPrereq]

/-! ## The methods -/

/-- **`AppendChild` refines its list operation.** -/
theorem appendChild_spec (w : WellFormed h ch) (v : VersionsBounded h) (hfuel : h.size < fuel)
    (hval : ContainerNode.ensurePreInsertionValidity h fuel p n none none = some none)
    (i : Insertion h ch p n none)
    (hund : ∀ o, removalOwner h n = some o → Undisturbed h n p o) :
    ∃ h', ContainerNode.appendChild h fuel p n = some ⟨h', some n, none⟩ ∧
      Inserted h h' (specAppend h.isDocumentFragment ch p n) p := by
  obtain ⟨h', hins, hres⟩ := insertChecked_spec n w v hfuel i (.inl rfl) hund
  exact ⟨h', by simp [ContainerNode.appendChild, hval, hins], hres⟩

/-- The reference `InsertBefore` works with. -/
def insertReference (ch : NodeId → List NodeId) (p n ref : NodeId) : Option NodeId :=
  if ref = n then successor (ch p) n else some ref

theorem successor_eq_next (w : WellFormed h ch) {c : NodeId} (hc : c ∈ ch p) :
    successor (ch p) c = h.links.next c ∧
      ∀ r, h.links.next c = some r → r ∈ ch p ∧ r ≠ c := by
  obtain ⟨l₁, l₂, hs, hc₁, hc₂, -, hnext⟩ := w.split hc
  refine ⟨by rw [hs, successor_append hc₁, hnext], fun r hr => ?_⟩
  rw [hnext] at hr
  have hr₂ : r ∈ l₂ := List.mem_of_head? hr
  exact ⟨by rw [hs]; simp [hr₂], ne_of_mem_of_not_mem hr₂ hc₂⟩

/-- The checks of `AppendChild` pass when those of `InsertBefore` do. -/
theorem validity_append_of_insert {ref : NodeId}
    (hval : ContainerNode.ensurePreInsertionValidity h fuel p n (some ref) none = some none) :
    ContainerNode.ensurePreInsertionValidity h fuel p n none none = some none := by
  have hnone : checkReferenceChildParent h p none none = none := by
    simp [checkReferenceChildParent]
  have href : checkReferenceChildParent h p (some ref) none = none := by
    have := (validity_spec hval).next_child ref rfl
    simp [checkReferenceChildParent, Heap.parentNode, this]
  unfold ContainerNode.ensurePreInsertionValidity at hval ⊢
  rw [href] at hval
  rw [hnone]
  exact hval

theorem insertBefore_eq {ref : NodeId} (w : WellFormed h ch)
    (hval : ContainerNode.ensurePreInsertionValidity h fuel p n (some ref) none = some none) :
    ContainerNode.insertBefore h fuel p n (some ref) =
        ContainerNode.insertChecked h fuel p n (insertReference ch p n ref) n false ∧
      ∀ r, insertReference ch p n ref = some r → r ∈ ch p ∧ r ≠ n := by
  have href : ref ∈ ch p := w.mem_iff.mpr ((validity_spec hval).next_child ref rfl)
  unfold insertReference
  by_cases he : ref = n
  · subst he
    obtain ⟨hsucc, hnext⟩ := successor_eq_next w href
    rw [if_pos rfl, hsucc]
    refine ⟨?_, hnext⟩
    cases hl : h.links.next ref with
    | none =>
      simp [ContainerNode.insertBefore, hval, Heap.nextSibling, hl, ContainerNode.appendChild,
        validity_append_of_insert hval]
    | some r => simp [ContainerNode.insertBefore, hval, Heap.nextSibling, hl]
  · rw [if_neg he]
    refine ⟨by simp [ContainerNode.insertBefore, hval, he], ?_⟩
    rintro r ⟨⟩
    exact ⟨href, he⟩

/-- **`InsertBefore` refines its list operation.** -/
theorem insertBefore_spec {ref : NodeId} (w : WellFormed h ch) (v : VersionsBounded h)
    (hfuel : h.size < fuel)
    (hval : ContainerNode.ensurePreInsertionValidity h fuel p n (some ref) none = some none)
    (i : Insertion h ch p n none)
    (hund : ∀ o, removalOwner h n = some o → Undisturbed h n p o) :
    ∃ h', ContainerNode.insertBefore h fuel p n (some ref) = some ⟨h', some n, none⟩ ∧
      Inserted h h' (specInsertBefore h.isDocumentFragment ch p n ref) p := by
  obtain ⟨heq, hmem⟩ := insertBefore_eq w hval
  rw [heq]
  exact insertChecked_spec n w v hfuel { i with next_mem := hmem } (.inl rfl) hund

/-- **`ParserAppendChild` of a root appends it.** -/
theorem parserAppendChild_spec (w : WellFormed h ch) (v : VersionsBounded h)
    (hfuel : h.size < fuel) (hps : p < h.size) (hcont : h.isContainerNode p = true)
    (hn : Insertable h p n)
    (hacc : ContainerNode.checkParserAcceptChild h fuel p n = some true) :
    ∃ h', ContainerNode.parserAppendChild h fuel p n = some h' ∧
      Inserted h h' (update ch p (ch p ++ [n])) p := by
  obtain ⟨h₁, hnotify, w₁, s₁, v₁, -⟩ := adoptAndAppendChild_spec w hfuel false hps hcont hn
  have hv₁ : VersionsBounded h₁ := fun d => by
    rw [v₁.domTreeVersion, v₁.globalTreeVersion]; exact v d
  have hdetach : ContainerNode.parserDetach n fuel h = some h := by
    have hroot : h.parentNode n = none := hn.root
    cases fuel <;> simp [ContainerNode.parserDetach, hroot]
  have hstep := SameTree.childrenChanged h₁ p
  refine ⟨h₁.childrenChanged p, ?_, w₁.congr hstep, s₁.trans hstep.toSameNodes,
    hv₁.bumped (o := p) ⟨rfl, rfl⟩, .inr ?_⟩
  · simp [ContainerNode.parserAppendChild, hacc, hdetach, hnotify]
  · simp [Heap.childrenChanged, Heap.incDOMTreeVersion, s₁.document]

/-- The document's own check ends. -/
theorem parserChildException_total (w : WellFormed h ch) (hfuel : h.size < fuel)
    (p n : NodeId) : ∃ e, ContainerNode.parserChildException h fuel p n = some e := by
  unfold ContainerNode.parserChildException
  split
  · unfold Document.canAcceptChild
    simp only [w.childNodes_eq hfuel, Option.any_none, Bool.false_eq_true, if_false,
      Option.bind_eq_bind, Option.bind_some]
    split
    · split <;> exact ⟨_, rfl⟩
    · split <;> try exact ⟨_, rfl⟩
      · split <;> exact ⟨_, rfl⟩
      · split <;> exact ⟨_, rfl⟩
  · exact ⟨_, rfl⟩

/-! ## Replacement -/

/-- One of the removals of `ReplaceChild`. -/
theorem removeForReplace_spec (w : WellFormed h ch) (v : VersionsBounded h)
    (hfuel : h.size < fuel) (p m : NodeId) :
    ∃ h₁ flag, ContainerNode.removeForReplace h fuel p m = some (h₁, none, flag) ∧
      WellFormed h₁ (detach ch m) ∧ SameNodes h h₁ ∧ VersionsBounded h₁ ∧
      (h.links.parent m = none → h₁ = h ∧ flag = false) ∧
      ∀ q, h.links.parent m = some q →
        Bumped h h₁ q ∧ (flag = false ↔ Undisturbed h m p q) := by
  cases hq : h.links.parent m with
  | none =>
    have hsame : detach ch m = ch :=
      detach_of_not_mem ch fun q hm => w.represents.not_mem_of_detached hq hm
    exact ⟨h, false, by simp [ContainerNode.removeForReplace, Heap.parentNode, hq],
      by rwa [hsame], SameNodes.refl h, v, fun _ => ⟨rfl, rfl⟩, fun q h => by cases h⟩
  | some q =>
    obtain ⟨h₁, hrem, w₁, s₁, hbump⟩ := removeChild_spec w hfuel (w.mem_iff.mpr hq)
    refine ⟨h₁, !(DOMTreeMutationDetector.create h m p).needsRecheck h₁, ?_, w₁, s₁,
      v.bumped hbump, (fun hnone => by cases hnone), ?_⟩
    · simp [ContainerNode.removeForReplace, Heap.parentNode, hq, hrem]
    · rintro q' ⟨⟩
      exact ⟨hbump, by simpa using needsRecheck_bumped v s₁ hbump⟩

/-- What stands behind the two removals of `ReplaceChild`. -/
theorem replaceChild_eq {old : NodeId} {h₁ h₂ : Heap} {flag₁ flag₂ : Bool} (w : WellFormed h ch)
    (hval : ContainerNode.ensurePreInsertionValidity h fuel p n none (some old) = some none)
    (hr₁ : ContainerNode.removeForReplace h fuel p n = some (h₁, none, flag₁))
    (hr₂ : ContainerNode.removeForReplace h₁ fuel p old = some (h₂, none, flag₂)) :
    ContainerNode.replaceChild h fuel p n (some old) =
      ContainerNode.insertChecked h₂ fuel p n (replaceReference ch p n old) old
        (flag₁ || flag₂) := by
  have hold : old ∈ ch p := w.mem_iff.mpr ((validity_spec hval).old_child old rfl)
  have hsucc := (successor_eq_next w hold).1
  by_cases hn : h.links.next old = some n
  · have hsucc' := (successor_eq_next w ((successor_eq_next w hold).2 n hn).1).1
    simp [ContainerNode.replaceChild, hval, hr₁, hr₂, Heap.nextSibling, replaceReference, hsucc,
      hn, hsucc']
  · simp [ContainerNode.replaceChild, hval, hr₁, hr₂, Heap.nextSibling, replaceReference, hsucc,
      hn]

/-- The reference of a replacement is a child of `p` that stays. -/
theorem replaceReference_mem {old r : NodeId} (w : WellFormed h ch) (hold : old ∈ ch p)
    (hr : replaceReference ch p n old = some r) :
    r ∈ detach (detach ch n) old p ∧ r ≠ n := by
  unfold replaceReference at hr
  obtain ⟨hsucc, hnext⟩ := successor_eq_next w hold
  rw [hsucc] at hr
  have key : r ∈ ch p ∧ r ≠ n ∧ r ≠ old := by
    split at hr
    · rename_i hn
      obtain ⟨l₁, l₂, hs, hold₁, -, -, hnext₁⟩ := w.split hold
      rw [hnext₁] at hn
      obtain ⟨l₃, rfl⟩ : ∃ l₃, l₂ = n :: l₃ := by
        cases l₂ with
        | nil => cases hn
        | cons a l₃ => cases hn; exact ⟨l₃, rfl⟩
      have hs' : ch p = (l₁ ++ [old]) ++ n :: l₃ := by simpa using hs
      have hnd : ((l₁ ++ [old]) ++ n :: l₃).Nodup := hs' ▸ w.represents.nodup p
      have hn₁ : n ∉ l₁ ++ [old] := fun hm =>
        (List.nodup_append.mp hnd).2.2 n hm n (by simp) rfl
      rw [hs', successor_append hn₁] at hr
      have hr₃ : r ∈ l₃ := List.mem_of_head? hr
      refine ⟨by rw [hs']; simp [hr₃], ?_, ?_⟩
      · exact ne_of_mem_of_not_mem hr₃ (List.nodup_cons.mp (List.nodup_append.mp hnd).2.1).1
      · rintro rfl
        exact (List.nodup_append.mp hnd).2.2 r (by simp) r (by simp [hr₃]) rfl
    · rename_i hn
      exact ⟨(hnext r hr).1, fun he => hn (he ▸ hr), (hnext r hr).2⟩
  obtain ⟨hrp, hrn, hro⟩ := key
  exact ⟨(List.mem_erase_of_ne hro).mpr ((List.mem_erase_of_ne hrn).mpr hrp), hrn⟩

/-- What a replacement inserts behind its two removals. -/
theorem replaceChild_checked {old : NodeId} {h₂ : Heap} (w : WellFormed h ch)
    (k : Checked h ch p n none) (hold : old ∈ ch p) (s₂ : SameNodes h h₂) :
    Checked h₂ (detach (detach ch n) old) p n (replaceReference ch p n old) where
  parent_allocated := by rw [s₂.size]; exact k.parent_allocated
  node_allocated := by rw [s₂.size]; exact k.node_allocated
  container := by rw [s₂.isContainerNode]; exact k.container
  notDocument := by rw [s₂.nodeType]; exact k.notDocument
  notSelf := k.notSelf
  next_mem := fun _ hr => replaceReference_mem w hold hr

end Blinkit.Dom
