import Blinkit.Dom.LostNodes

/-!
# Runs over any number of documents

* `Reachable h` — a run of calls, on the nodes of any documents, leads to `h`.
* `Place` — where an insertion puts its node; `Place.call` and `Place.validity` are the method
  and its checks.
* `Place.Calm` — no detector objects to the call, and the node is not above the new parent.

Principal results: `reachable_tree` (the links are child lists without a cycle after every run) and
`insertion_kept_iff`: an insertion that passes its checks keeps its nodes exactly when it is calm.
-/

set_option autoImplicit false

namespace Blinkit.Dom

open LinkedForest ChildLists Function Transition

variable {h h' h₁ : Heap} {ch ch' : NodeId → List NodeId} {p n c : NodeId} {fuel : Nat}

/-! ## What every run keeps -/

/-- What the parser appends is not a document. -/
def Call.NotDocument (h : Heap) : Call → Prop
  | .parserAppendChild _ n => h.document n ≠ n
  | _ => True

/-- One call of a run over any number of documents. -/
def AnyStep (h : Heap) (c : Call) (h' : Heap) : Prop :=
  (c.WellTyped h ∧ c.NotDocument h) ∧
    ∃ fuel r, h.size < fuel ∧ c.exec fuel h = some r ∧ r.heap = h'

def Reachable (h : Heap) : Prop := ∃ calls, Steps AnyStep Heap.initial calls h

/-- **The invariant of a run over any number of documents.** -/
def Tree (h : Heap) : Prop := (∃ ch, WellFormed h ch) ∧ VersionsBounded h

theorem Tree.initial : Tree Heap.initial := ⟨⟨_, wellFormed_initial⟩, fun _ => Nat.le_refl 0⟩

theorem Tree.bumped {o : NodeId} (v : VersionsBounded h) (w : WellFormed h' ch')
    (b : Bumped h h' o) : Tree h' := ⟨⟨ch', w⟩, v.bumped b⟩

theorem tree_appendChild {r : Result} (w : WellFormed h ch) (v : VersionsBounded h)
    (hfuel : h.size < fuel) (hp : p < h.size) (hn : n < h.size)
    (hr : Node.appendChild h fuel p n = some r) : Tree r.heap := by
  unfold Node.appendChild at hr
  split at hr
  · rename_i hcont
    obtain ⟨e, hval⟩ := ensurePreInsertionValidity_total w hfuel p n none none
    cases e with
    | some e =>
      obtain rfl : _ = r := by simpa [ContainerNode.appendChild, hval] using hr
      exact ⟨⟨ch, w⟩, v⟩
    | none =>
      simp only [ContainerNode.appendChild, hval, Option.bind_eq_bind, Option.bind_some] at hr
      exact insertChecked_tree w v hfuel
        ((validity_spec hval).checked hp hn hcont fun _ hr => by cases hr) hr
  · obtain rfl := Option.some.inj hr
    exact ⟨⟨ch, w⟩, v⟩

theorem tree_insertBefore {r : Result} {ref : NodeId} (w : WellFormed h ch)
    (v : VersionsBounded h) (hfuel : h.size < fuel) (hp : p < h.size) (hn : n < h.size)
    (hr : Node.insertBefore h fuel p n (some ref) = some r) : Tree r.heap := by
  unfold Node.insertBefore at hr
  split at hr
  · rename_i hcont
    obtain ⟨e, hval⟩ := ensurePreInsertionValidity_total w hfuel p n (some ref) none
    cases e with
    | some e =>
      obtain rfl : _ = r := by simpa [ContainerNode.insertBefore, hval] using hr
      exact ⟨⟨ch, w⟩, v⟩
    | none =>
      obtain ⟨heq, hmem⟩ := insertBefore_eq w hval
      rw [heq] at hr
      exact insertChecked_tree w v hfuel ((validity_spec hval).checked hp hn hcont hmem) hr
  · obtain rfl := Option.some.inj hr
    exact ⟨⟨ch, w⟩, v⟩

theorem tree_removeChild {r : Result} (w : WellFormed h ch) (v : VersionsBounded h)
    (hfuel : h.size < fuel) {c : Option NodeId} (hr : Node.removeChild h fuel p c = some r) :
    Tree r.heap := by
  unfold Node.removeChild at hr
  split at hr
  · cases c with
    | none =>
      obtain rfl := Option.some.inj hr
      exact ⟨⟨ch, w⟩, v⟩
    | some c =>
      by_cases hc : h.links.parent c = some p
      · obtain ⟨h', hop, w', -, hbump⟩ := removeChild_spec w hfuel (w.mem_iff.mpr hc)
        obtain rfl := Option.some.inj (hr.symm.trans hop)
        exact .bumped v w' hbump
      · obtain rfl : _ = r := by
          simpa [ContainerNode.removeChild, Heap.parentNode, hc] using hr
        exact ⟨⟨ch, w⟩, v⟩
  · obtain rfl := Option.some.inj hr
    exact ⟨⟨ch, w⟩, v⟩

theorem tree_replaceChild {r : Result} {old : NodeId} (w : WellFormed h ch)
    (v : VersionsBounded h) (hfuel : h.size < fuel) (hp : p < h.size) (hn : n < h.size)
    (hcont : h.isContainerNode p = true)
    (hr : ContainerNode.replaceChild h fuel p n (some old) = some r) : Tree r.heap := by
  obtain ⟨e, hval⟩ := ensurePreInsertionValidity_total w hfuel p n none (some old)
  cases e with
  | some e =>
    obtain rfl : _ = r := by simpa [ContainerNode.replaceChild, hval] using hr
    exact ⟨⟨ch, w⟩, v⟩
  | none =>
    have hold : old ∈ ch p := w.mem_iff.mpr ((validity_spec hval).old_child old rfl)
    obtain ⟨h₁, flag₁, hr₁, w₁, s₁, v₁, -⟩ := removeForReplace_spec w v hfuel p n
    obtain ⟨h₂, flag₂, hr₂, w₂, s₂, v₂, -⟩ :=
      removeForReplace_spec w₁ v₁ (by rw [s₁.size]; exact hfuel) p old
    rw [replaceChild_eq w hval hr₁ hr₂] at hr
    exact insertChecked_tree w₂ v₂ (by rw [(s₁.trans s₂).size]; exact hfuel)
      (replaceChild_checked w
        ((validity_spec hval).checked hp hn hcont fun _ hr => by cases hr) hold (s₁.trans s₂)) hr

/-- The loop that detaches the child never ends: its body is a stub. -/
theorem parserDetach_eq_none (hn : h.links.parent n = some c) (rounds : Nat) :
    ContainerNode.parserDetach n rounds h = none := by
  have hparent : h.parentNode n = some c := hn
  induction rounds with
  | zero => simp [ContainerNode.parserDetach, hparent]
  | succ rounds ih =>
    rw [ContainerNode.parserDetach.eq_def]
    simpa [hparent, ContainerNode.parserRemoveChild] using ih

/-- When the parser's insertion of an accepted child returns, the child is a root that is not above
its container. -/
theorem parserAppendChild_root (w : WellFormed h ch) (hfuel : h.size < fuel) (hn : n < h.size)
    (hacc : ContainerNode.checkParserAcceptChild h fuel p n = some true)
    (hr : ContainerNode.parserAppendChild h fuel p n = some h') :
    h.links.parent n = none ∧ ¬ Above h.links.parent p n := by
  cases hq : h.links.parent n with
  | some q => simp [ContainerNode.parserAppendChild, hacc, parserDetach_eq_none hq] at hr
  | none =>
    refine ⟨rfl, fun habove => ?_⟩
    -- the child is above its container, whose visit never ends
    have hnotify : (h.adoptAndAppendChild false p n).notifyNodeInsertedInternal fuel p n =
        none := notify_above w hfuel hn hq habove (w.represents.append hq)
      (h.links.append_parent p n)
    have hdetach : ContainerNode.parserDetach n fuel h = some h := by
      cases fuel <;> simp [ContainerNode.parserDetach, Heap.parentNode, hq]
    simp [ContainerNode.parserAppendChild, hacc, hdetach, hnotify] at hr

/-- When the parser's insertion returns, the check has refused the child, or the child is a root
that is not above its container. -/
theorem parserAppendChild_returns (w : WellFormed h ch) (hfuel : h.size < fuel) (hn : n < h.size)
    (hr : ContainerNode.parserAppendChild h fuel p n = some h') :
    h' = h ∨ ContainerNode.checkParserAcceptChild h fuel p n = some true ∧
      h.links.parent n = none ∧ ¬ Above h.links.parent p n := by
  obtain ⟨e, he⟩ := parserChildException_total w hfuel p n
  have hacc : ContainerNode.checkParserAcceptChild h fuel p n = some e.isNone := by
    simp [ContainerNode.checkParserAcceptChild, he]
  cases e with
  | some e => exact .inl (by simpa [ContainerNode.parserAppendChild, hacc] using hr.symm)
  | none => exact .inr ⟨hacc, parserAppendChild_root w hfuel hn hacc hr⟩

theorem tree_parserAppendChild (w : WellFormed h ch) (v : VersionsBounded h)
    (hfuel : h.size < fuel) (hp : p < h.size) (hn : n < h.size)
    (hcont : h.isContainerNode p = true) (hdoc : h.document n ≠ n)
    (hr : ContainerNode.parserAppendChild h fuel p n = some h') : Tree h' := by
  rcases parserAppendChild_returns w hfuel hn hr with rfl | ⟨hacc, hq, habove⟩
  · exact ⟨⟨ch, w⟩, v⟩
  · obtain ⟨h₁, heq, hins⟩ :=
      parserAppendChild_spec w v hfuel hp hcont ⟨hn, hq, hdoc, habove⟩ hacc
    obtain rfl := Option.some.inj (hr.symm.trans heq)
    exact ⟨⟨_, hins.wellFormed⟩, hins.versions⟩

/-- **Every call that returns leaves a tree.** -/
theorem anyStep_tree {call : Call} (t : Tree h) (hstep : AnyStep h call h') : Tree h' := by
  obtain ⟨⟨ch, w⟩, v⟩ := t
  obtain ⟨⟨htyped, hdoc⟩, fuel, r, hfuel, hexec, rfl⟩ := hstep
  cases call with
  | createNode type name d =>
    obtain rfl := Option.some.inj hexec
    exact ⟨⟨ch, w.createNode name htyped.1 htyped.2⟩, v⟩
  | createDocument =>
    obtain rfl := Option.some.inj hexec
    refine ⟨⟨ch, w.createDocument⟩, fun d => ?_⟩
    by_cases hd : d = h.size
    · simp [Heap.createDocument, hd]
    · simpa [Heap.createDocument, hd] using (v d).trans (Nat.le_succ _)
  | incDOMTreeVersion d =>
    obtain rfl := Option.some.inj hexec
    refine ⟨⟨ch, w.congr ⟨⟨rfl, rfl, rfl, rfl⟩, rfl, rfl⟩⟩, fun d' => ?_⟩
    by_cases hd : d' = d
    · simp [Heap.incDOMTreeVersion, hd]
    · simpa [Heap.incDOMTreeVersion, hd] using (v d').trans (Nat.le_succ _)
  | appendChild p n => exact tree_appendChild w v hfuel htyped.1 htyped.2 hexec
  | insertBefore p n ref =>
    cases ref with
    | none =>
      have hsame : Node.insertBefore h fuel p n none = Node.appendChild h fuel p n := rfl
      exact tree_appendChild w v hfuel htyped.1 htyped.2.1 (hsame.symm.trans hexec)
    | some ref => exact tree_insertBefore w v hfuel htyped.1 htyped.2.1 hexec
  | replaceChild p n old =>
    cases old with
    | none =>
      obtain rfl := Option.some.inj hexec
      exact ⟨⟨ch, w⟩, v⟩
    | some old => exact tree_replaceChild w v hfuel htyped.1 htyped.2.1 htyped.2.2.1 hexec
  | removeChild p c => exact tree_removeChild w v hfuel hexec
  | removeChildren p =>
    obtain ⟨h₁, hrem, w₁, -, hnil, hbump⟩ := removeChildren_spec w hfuel p
    obtain rfl : _ = r := by simpa [Call.exec, hrem] using hexec
    by_cases hcs : ch p = []
    · exact ⟨⟨_, w₁⟩, by rw [hnil hcs]; exact v⟩
    · exact .bumped v w₁ (hbump hcs)
  | parserAppendChild p n =>
    obtain ⟨e, he⟩ := parserChildException_total w hfuel p n
    obtain ⟨h₁, happ, rfl⟩ : ∃ h₁, ContainerNode.parserAppendChild h fuel p n = some h₁ ∧
        (⟨h₁, none, e⟩ : Result) = r := by
      simpa [Call.exec, he, Option.bind_eq_some_iff] using hexec
    exact tree_parserAppendChild w v hfuel htyped.1 htyped.2.1 htyped.2.2 hdoc happ

/-- **After every run the links are child lists without a cycle.** -/
theorem reachable_tree (hr : Reachable h) : Tree h := by
  obtain ⟨calls, hrun⟩ := hr
  exact Steps.invariant (I := Tree) (fun _ _ _ t hs => anyStep_tree t hs) Tree.initial hrun

/-! ## Where an insertion puts its node -/

/-- The position an insertion asks for. -/
inductive Place where
  | last
  | before (ref : NodeId)
  | instead (old : NodeId)

namespace Place

/-- The method that inserts at this place. -/
def call (p n : NodeId) : Place → Call
  | last => .appendChild p n
  | before ref => .insertBefore p n (some ref)
  | instead old => .replaceChild p n (some old)

/-- The checks of this method. -/
def validity (h : Heap) (fuel : Nat) (p n : NodeId) : Place → Option (Option DOMException)
  | last => ContainerNode.ensurePreInsertionValidity h fuel p n none none
  | before ref => ContainerNode.ensurePreInsertionValidity h fuel p n (some ref) none
  | instead old => ContainerNode.ensurePreInsertionValidity h fuel p n none (some old)

end Place

/-- None of the three detectors of `ReplaceChild` objects. -/
structure ReplaceCalm (h : Heap) (p n old : NodeId) : Prop where
  notAbove : ¬ Above h.links.parent p n
  /-- The removal of the new node. -/
  node : ∀ q, h.links.parent n = some q → Undisturbed h n p q
  /-- The removal of the old node, which comes after it. -/
  old : old ≠ n → h.document old = h.document p ∧
    match h.links.parent n with
    | some q => h.document q = h.document p
    | none => h.domTreeVersion (h.document p) = h.globalTreeVersion
  /-- The removal of the children of a fragment, after both. -/
  children : h.isDocumentFragment n = true → h.document n = h.document p

/-- No detector objects to the insertion, and the node is not above the new parent. Replacing a
node by nothing is always calm. -/
def Place.Calm (h : Heap) (p n : NodeId) : Place → Prop
  | last | before _ => Unopposed h p n
  | instead old => (h.isDocumentFragment n = true ∧ h.links.first n = none) ∨
      ReplaceCalm h p n old

/-! ## Replacements -/

/-- After a change of the children of `o` the version of its document is the latest. -/
theorem Bumped.latest_iff {o d : NodeId} (v : VersionsBounded h) (b : Bumped h h' o) :
    h'.domTreeVersion d = h'.globalTreeVersion ↔ d = h.document o := by
  rw [b.domTreeVersion, b.globalTreeVersion]
  by_cases hd : d = h.document o
  · simp [hd]
  · have hv : h.domTreeVersion d ≤ h.globalTreeVersion := v d
    rw [update_of_ne hd]
    exact iff_of_false (by omega) hd

/-- The two removals of a replacement cut no link above the new parent. -/
theorem above_replace_iff {old : NodeId} (w : WellFormed h ch) (hold : old ∈ ch p)
    (w₁ : WellFormed h₁ (detach (detach ch n) old)) :
    Above h₁.links.parent p n ↔ Above h.links.parent p n := by
  have w₂ : WellFormed h₁ ([n, old].foldl detach ch) := w₁
  refine ⟨above_of_lists w w₁ fun _ _ hx => List.mem_of_mem_erase (List.mem_of_mem_erase hx),
    fun ha => above_keep w w₂ ha fun z hpz _ hzn => ?_⟩
  have hzo : z ≠ old := by
    rintro rfl
    exact w.acyclic z p (w.mem_iff.mp hold) hpz
  simp [hzn, hzo]

/-- The children of the new node stay during the two removals. -/
theorem detach_replace_self {old : NodeId} (w : WellFormed h ch) (hold : old ∈ ch p)
    (hne : p ≠ n) : detach (detach ch n) old n = ch n := by
  have hn : n ∉ ch n := fun hn => w.acyclic n n (w.mem_iff.mp hn) (.refl n)
  have ho : old ∉ ch n := w.represents.disjoint hne hold
  simp only [detach]
  rw [List.erase_of_not_mem hn, List.erase_of_not_mem ho]

/-- When the detector of the second removal does not object. -/
theorem undisturbed_old_iff {old : NodeId} (v : VersionsBounded h) (s₁ : SameNodes h h₁)
    (hroot : h.links.parent n = none → h₁ = h)
    (hchild : ∀ q, h.links.parent n = some q → Bumped h h₁ q) :
    Undisturbed h₁ old p p ↔ h.document old = h.document p ∧
      match h.links.parent n with
      | some q => h.document q = h.document p
      | none => h.domTreeVersion (h.document p) = h.globalTreeVersion := by
  have hlatest : Undisturbed h₁ old p p ↔ h.document old = h.document p ∧
      h₁.domTreeVersion (h.document p) = h₁.globalTreeVersion := by
    unfold Undisturbed
    rw [s₁.document]
    by_cases hd : h.document old = h.document p <;> simp [hd]
  rw [hlatest]
  refine and_congr_right fun _ => ?_
  cases hq : h.links.parent n with
  | none => rw [hroot hq]
  | some q => exact ((hchild q hq).latest_iff v).trans eq_comm

/-- **Exactly the calm replacements keep their nodes.** -/
theorem replaceChild_kept_iff {old : NodeId} (w : WellFormed h ch) (v : VersionsBounded h)
    (hfuel : h.size < fuel) (hp : p < h.size) (hn : n < h.size)
    (hcont : h.isContainerNode p = true)
    (hval : ContainerNode.ensurePreInsertionValidity h fuel p n none (some old) = some none) :
    Kept h (specReplace h.isDocumentFragment ch p n old)
        (ContainerNode.replaceChild h fuel p n (some old)) ↔ (Place.instead old).Calm h p n := by
  have hold : old ∈ ch p := w.mem_iff.mpr ((validity_spec hval).old_child old rfl)
  have hoparent : h.links.parent old = some p := w.mem_iff.mp hold
  have k : Checked h ch p n none :=
    (validity_spec hval).checked hp hn hcont fun _ hr => by cases hr
  obtain ⟨h₁, flag₁, hr₁, w₁, s₁, v₁, hroot₁, hchild₁⟩ := removeForReplace_spec w v hfuel p n
  obtain ⟨h₂, flag₂, hr₂, w₂, s₂, v₂, hroot₂, hchild₂⟩ :=
    removeForReplace_spec w₁ v₁ (by rw [s₁.size]; exact hfuel) p old
  have s := s₁.trans s₂
  have hspec : specReplace h.isDocumentFragment ch p n old =
      move (detach (detach ch n) old) p (replaceReference ch p n old)
        (collected h₂ (detach (detach ch n) old) n) := by
    rw [collected, funext s.isDocumentFragment]
    rfl
  have hnil : collected h₂ (detach (detach ch n) old) n = [] ↔
      h.isDocumentFragment n = true ∧ h.links.first n = none := by
    rw [collected, targets, s.isDocumentFragment, detach_replace_self w hold k.notSelf,
      w.first_eq_none]
    by_cases hfrag : h.isDocumentFragment n = true <;> simp [hfrag]
  have hparent₁ : ∀ x, h₁.links.parent x = if x = n then none else h.links.parent x := fun x => by
    have w₁' : WellFormed h₁ ([n].foldl detach ch) := w₁
    simpa using parent_of_foldl_detach w w₁' x
  have hparent₂ : h₂.links.parent n = none := by
    have w₂' : WellFormed h₂ ([n, old].foldl detach ch) := w₂
    simpa using parent_of_foldl_detach w w₂' n
  have hflag₁ : flag₁ = false ↔ ∀ q, h.links.parent n = some q → Undisturbed h n p q := by
    cases hq : h.links.parent n with
    | none => simp [(hroot₁ hq).2]
    | some q => simpa using (hchild₁ q hq).2
  have hflag₂ : flag₂ = false ↔ (old ≠ n → Undisturbed h₁ old p p) := by
    by_cases ho : old = n
    · have hroot : h₁.links.parent old = none := by simp [hparent₁, ho]
      simp [ho, (hroot₂ hroot).2]
    · simpa [ho] using (hchild₂ p (by simpa [hparent₁, ho] using hoparent)).2
  -- the last removal changed the children of `p`
  obtain ⟨h₃, v₃, hlast, hdoc₃⟩ : ∃ h₃, VersionsBounded h₃ ∧ Bumped h₃ h₂ p ∧
      h₃.document = h.document := by
    by_cases ho : old = n
    · have hroot : h₁.links.parent old = none := by simp [hparent₁, ho]
      rw [(hroot₂ hroot).1]
      exact ⟨h, v, (hchild₁ p (ho ▸ hoparent)).1, rfl⟩
    · exact ⟨h₁, v₁, (hchild₂ p (by simpa [hparent₁, ho] using hoparent)).1, s₁.document⟩
  have howner (hne : ¬ (h.isDocumentFragment n = true ∧ h.links.first n = none)) :
      (∀ o, removalOwner h₂ n = some o → Undisturbed h₂ n p o) ↔
        (h.isDocumentFragment n = true → h.document n = h.document p) := by
    by_cases hfrag : h.isDocumentFragment n = true
    · have hfirst : h₂.links.first n ≠ none := fun hf => hne ⟨hfrag, by
        rw [w₂.first_eq_none, detach_replace_self w hold k.notSelf] at hf
        exact w.first_eq_none.mpr hf⟩
      have hown : removalOwner h₂ n = some n := by
        simp [removalOwner, s.isDocumentFragment, hfrag, hfirst]
      simp [hown, hfrag, Undisturbed, s.document, hlast.latest_iff v₃, hdoc₃]
    · simp [removalOwner, s.isDocumentFragment, hfrag, hparent₂]
  rw [replaceChild_eq w hval hr₁ hr₂, hspec, insertChecked_kept_iff old _ w₂ v₂
    (by rw [s.size]; exact hfuel) (replaceChild_checked w k hold s), hnil]
  refine or_congr_right' fun hne => ?_
  rw [Bool.or_eq_false_iff, hflag₁, hflag₂,
    undisturbed_old_iff v s₁ (fun hq => (hroot₁ hq).1) fun q hq => (hchild₁ q hq).1]
  constructor
  · rintro ⟨⟨hnode, ho⟩, ⟨habove, hund⟩⟩
    exact ⟨fun ha => habove ((above_replace_iff w hold w₂).mpr ha), hnode, ho,
      (howner hne).mp hund⟩
  · rintro ⟨habove, hnode, ho, hchildren⟩
    exact ⟨⟨hnode, ho⟩, fun ha => habove ((above_replace_iff w hold w₂).mp ha),
      (howner hne).mpr hchildren⟩

/-! ## Insertions -/

/-- Nothing opposes an insertion of no nodes. -/
theorem unopposed_of_nil (w : WellFormed h ch) (hne : p ≠ n) (hnil : collected h ch n = []) :
    Unopposed h p n where
  notAbove := fun ha => by
    obtain ⟨t, ht, -⟩ := exists_collected_above w hne ha
    simp [hnil] at ht
  undisturbed := fun o ho => by
    rw [removalOwner_none_of_nil w hnil] at ho
    cases ho

/-- **Exactly the unopposed insertions of `AppendChild` and `InsertBefore` keep their nodes.** -/
theorem insertion_unopposed_iff {next : Option NodeId} (w : WellFormed h ch)
    (v : VersionsBounded h) (hfuel : h.size < fuel) (k : Checked h ch p n next) :
    Kept h (move ch p next (collected h ch n))
        (ContainerNode.insertChecked h fuel p n next n false) ↔ Unopposed h p n := by
  rw [insertChecked_kept_iff n false w v hfuel k]
  constructor
  · rintro (hnil | ⟨-, hund⟩)
    · exact unopposed_of_nil w k.notSelf hnil
    · exact hund
  · exact fun hund => .inr ⟨rfl, hund⟩

theorem Place.last_exec (hcont : h.isContainerNode p = true)
    (hval : Place.last.validity h fuel p n = some none) :
    (Place.last.call p n).exec fuel h =
      ContainerNode.insertChecked h fuel p n none n false := by
  have hval' : ContainerNode.ensurePreInsertionValidity h fuel p n none none = some none := hval
  simp [Place.call, Call.exec, Node.appendChild, hcont, ContainerNode.appendChild, hval']

theorem Place.before_exec {ref : NodeId} (w : WellFormed h ch)
    (hcont : h.isContainerNode p = true)
    (hval : (Place.before ref).validity h fuel p n = some none) :
    ((Place.before ref).call p n).exec fuel h =
      ContainerNode.insertChecked h fuel p n (insertReference ch p n ref) n false := by
  simp [Place.call, Call.exec, Node.insertBefore, hcont, (insertBefore_eq w hval).1]

/-- On a tree the calm insertions, and no others, keep their nodes. -/
theorem insertion_calm_iff {place : Place} (w : WellFormed h ch) (v : VersionsBounded h)
    (htyped : (place.call p n).WellTyped h) (hcont : h.isContainerNode p = true)
    (hfuel : h.size < fuel) (hval : place.validity h fuel p n = some none) :
    Kept h ((place.call p n).spec h.isDocumentFragment ch) ((place.call p n).exec fuel h) ↔
      place.Calm h p n := by
  cases place with
  | last =>
    rw [Place.last_exec hcont hval]
    exact insertion_unopposed_iff w v hfuel
      ((validity_spec hval).checked htyped.1 htyped.2 hcont fun _ hr => by cases hr)
  | before ref =>
    rw [Place.before_exec w hcont hval]
    exact insertion_unopposed_iff w v hfuel
      ((validity_spec hval).checked htyped.1 htyped.2.1 hcont (insertBefore_eq w hval).2)
  | instead old => exact replaceChild_kept_iff w v hfuel htyped.1 htyped.2.1 hcont hval

/-- **An insertion keeps its nodes exactly when it is calm.** In every state that a run over any
number of documents reaches, let an insertion be called on a container with nodes that exist, and
let its checks pass. Then it ends with the nodes where it was asked to put them, or with an
exception and nothing changed, if and only if no detector objects and the node inserted is not
above the new parent. -/
theorem insertion_kept_iff {place : Place} (hreach : Reachable h)
    (hrep : Represents h.links ch) (htyped : (place.call p n).WellTyped h)
    (hcont : h.isContainerNode p = true) (hfuel : h.size < fuel)
    (hval : place.validity h fuel p n = some none) :
    Kept h ((place.call p n).spec h.isDocumentFragment ch) ((place.call p n).exec fuel h) ↔
      place.Calm h p n := by
  obtain ⟨⟨ch₀, w⟩, v⟩ := reachable_tree hreach
  obtain rfl : ch₀ = ch := w.represents.unique hrep
  exact insertion_calm_iff w v htyped hcont hfuel hval

/-! ## Two documents -/

/-- The document `0` has the child `1`; the element `3` of the same document has no parent. -/
def firstDocument : Heap :=
  let h := (Heap.initial.createDocument.createNode .element "A" 0).createDocument
  let h := h.createNode .element "B" 0
  match (Call.appendChild 0 1).exec 5 h with
  | some r => r.heap
  | none => h

/-- Then the document `2` changes. -/
def twoDocuments : Heap := firstDocument.incDOMTreeVersion 2

theorem firstDocument_reachable : Reachable firstDocument :=
  ⟨[.createDocument, .createNode .element "A" 0, .createDocument, .createNode .element "B" 0,
      .appendChild 0 1],
    .cons ⟨⟨trivial, trivial⟩, 5, _, by decide, rfl, rfl⟩ <|
    .cons ⟨⟨⟨by decide, by decide⟩, trivial⟩, 5, _, by decide, rfl, rfl⟩ <|
    .cons ⟨⟨trivial, trivial⟩, 5, _, by decide, rfl, rfl⟩ <|
    .cons ⟨⟨⟨by decide, by decide⟩, trivial⟩, 5, _, by decide, rfl, rfl⟩ <|
    .cons ⟨⟨⟨by decide, by decide⟩, trivial⟩, 5, _, by decide, rfl, rfl⟩ (.nil _)⟩

theorem twoDocuments_reachable : Reachable twoDocuments := by
  obtain ⟨calls, hrun⟩ := firstDocument_reachable
  have htyped : (Call.incDOMTreeVersion 2).WellTyped firstDocument := (by decide : 2 < 4)
  exact ⟨_, hrun.append (.cons ⟨⟨htyped, trivial⟩, 5, _, by decide, rfl, rfl⟩ (.nil _))⟩

/-- As long as the second document has not changed, the child of the first can be moved. -/
theorem firstDocument_move_kept : ∃ ch, Represents firstDocument.links ch ∧
    Kept firstDocument ((Place.last.call 3 1).spec firstDocument.isDocumentFragment ch)
      ((Place.last.call 3 1).exec 5 firstDocument) := by
  obtain ⟨⟨ch, w⟩, -⟩ := reachable_tree firstDocument_reachable
  have htyped : (Place.last.call 3 1).WellTyped firstDocument := ⟨by decide, by decide⟩
  refine ⟨ch, w.represents, (insertion_kept_iff firstDocument_reachable w.represents htyped rfl
    (by decide) rfl).mpr ⟨fun habove => ?_, fun o ho => ?_⟩⟩
  · cases habove.eq_of_root rfl
  · have hown : removalOwner firstDocument 1 = some 0 := rfl
    obtain rfl := Option.some.inj (hown.symm.trans ho)
    decide

/-- **A change of another document loses a node.** The checks of `appendChild` pass, the call sets
no exception, and the node it was to move has no parent. -/
theorem appendChild_loses_node :
    Reachable twoDocuments ∧ (Place.last.call 3 1).WellTyped twoDocuments ∧
      twoDocuments.isContainerNode 3 = true ∧ twoDocuments.links.parent 1 = some 0 ∧
      Place.last.validity twoDocuments 5 3 1 = some none ∧
      ∃ r, (Place.last.call 3 1).exec 5 twoDocuments = some r ∧ r.exception = none ∧
        r.heap.links.parent 1 = none ∧
        ∀ ch, Represents twoDocuments.links ch →
          ¬ Kept twoDocuments ((Place.last.call 3 1).spec twoDocuments.isDocumentFragment ch)
            (some r) := by
  refine ⟨twoDocuments_reachable, ⟨by decide, by decide⟩, rfl, rfl, rfl, _, rfl, rfl, rfl, fun ch _ => ?_⟩
  rintro ⟨r, hr, ⟨-, hrep⟩ | ⟨hexc, -⟩⟩
  · obtain rfl := Option.some.inj hr
    have hmem : (1 : NodeId) ∈ (Place.last.call 3 1).spec twoDocuments.isDocumentFragment ch 3 := by
      change (1 : NodeId) ∈ move ch 3 none [1] 3
      simp [move, splice]
    have hparent := (hrep.mem_iff 3 1).mp hmem
    cases hparent
  · obtain rfl := Option.some.inj hr
    exact hexc rfl

end Blinkit.Dom
