import Blinkit.Dom.CollectionIndexCache
import Blinkit.Dom.DocumentChildren

/-!
# Who is told of a change of children

Every mutator calls `ContainerNode::ChildrenChanged` behind its changes, once for each change.

* `Notice` — one such call: the heap it finds, the container, the type of the change.
* `Call.notices` — the notices of a call, in order.
* `Notice.childrenChanged` — what a notice does to the index cache of a live child list.
* `Traced h ch ns ch'` — the notices `ns` account for the change from `ch` to `ch'`: the cache of
  every child list stays coherent, and when no notice comes from below `root`, nothing below `root`
  has changed.

Principal result: `call_traced`: the notices of a call account for what it does.
-/

set_option autoImplicit false

namespace Blinkit.Dom

open LinkedForest ChildLists Function

inductive ChildrenChangeType where
  | elementInserted
  | nonElementInserted
  | elementRemoved
  | nonElementRemoved
  | allChildrenRemoved
  | textChanged
  deriving DecidableEq

namespace ChildrenChangeType

def isChildInsertion (type : ChildrenChangeType) : Bool :=
  type == .elementInserted || type == .nonElementInserted

def isChildRemoval (type : ChildrenChangeType) : Bool :=
  type == .elementRemoved || type == .nonElementRemoved

end ChildrenChangeType

/-- One call of `ContainerNode::ChildrenChanged`. -/
structure Notice where
  heap : Heap
  container : NodeId
  type : ChildrenChangeType

namespace Notice

/-- `ChildrenChange::ForInsertion`. -/
def forInsertion (h : Heap) (p child : NodeId) : Notice :=
  ⟨h, p, if h.isElementNode child then .elementInserted else .nonElementInserted⟩

/-- `ChildrenChange::ForRemoval`. -/
def forRemoval (h : Heap) (p child : NodeId) : Notice :=
  ⟨h, p, if h.isElementNode child then .elementRemoved else .nonElementRemoved⟩

theorem forInsertion_insertion (h : Heap) (p c : NodeId) :
    (forInsertion h p c).type.isChildInsertion = true := by
  unfold forInsertion
  split <;> rfl

theorem forRemoval_insertion (h : Heap) (p c : NodeId) :
    (forRemoval h p c).type.isChildInsertion = false := by
  unfold forRemoval
  split <;> rfl

theorem forInsertion_notText (h : Heap) (p c : NodeId) :
    (forInsertion h p c).type ≠ .textChanged := by
  intro he
  have hins := forInsertion_insertion h p c
  rw [he] at hins
  cases hins

theorem forRemoval_removal (h : Heap) (p c : NodeId) :
    (forRemoval h p c).type.isChildRemoval = true := by
  unfold forRemoval
  split <;> rfl

theorem forRemoval_notText (h : Heap) (p c : NodeId) :
    (forRemoval h p c).type ≠ .textChanged := by
  intro he
  have hrem := forRemoval_removal h p c
  rw [he] at hrem
  cases hrem

end Notice

/-! ## The notices of the mutators -/

namespace ContainerNode

/-- `RemoveChild` notifies behind a removal: then it returns the child and sets no exception. -/
def removalNotices (p : NodeId) : Option Result → List Notice
  | some ⟨h, some child, none⟩ => [.forRemoval h p child]
  | _ => []

/-- The notice of `RemoveChildren`. -/
def removeChildrenNotices (h : Heap) (fuel : Nat) (p : NodeId) : List Notice :=
  if h.links.first p = none then []
  else
    match removeChildren h fuel p with
    | some h => [⟨h, p, .allChildrenRemoved⟩]
    | none => []

/-- The notices of `CollectChildrenAndRemoveFromOldParent`. -/
def collectNotices (h : Heap) (fuel : Nat) (n : NodeId) : List Notice :=
  if h.isDocumentFragment n then removeChildrenNotices h fuel n
  else
    match h.parentNode n with
    | none => []
    | some oldParent => removalNotices oldParent (Node.removeChild h fuel oldParent (some n))

/-- The notices of `DidInsertNodeVector`, one for each target. -/
def insertionNotices (p : NodeId) (targets : List NodeId) : Option Heap → List Notice
  | some h => targets.map (.forInsertion h p)
  | none => []

/-- The notices of the common end of `AppendChild`, `InsertBefore` and `ReplaceChild`. -/
def insertCheckedNotices (h : Heap) (fuel : Nat) (p newChild : NodeId) (next : Option NodeId)
    (needsRecheck : Bool) : List Notice :=
  collectNotices h fuel newChild ++
    match collectChildrenAndRemoveFromOldParent h fuel newChild with
    | none => []
    | some c =>
      if !c.proceed then []
      else if (!(DOMTreeMutationDetector.create h newChild p).needsRecheck c.heap || needsRecheck) &&
          !recheckNodeInsertionStructuralPrereq c.nodes next then []
      else insertionNotices p c.nodes (insertNodeVector fuel p next c.nodes c.heap)

def appendChildNotices (h : Heap) (fuel : Nat) (p newChild : NodeId) : List Notice :=
  match ensurePreInsertionValidity h fuel p newChild none none with
  | some none => insertCheckedNotices h fuel p newChild none false
  | _ => []

def insertBeforeNotices (h : Heap) (fuel : Nat) (p newChild : NodeId) :
    Option NodeId → List Notice
  | none => appendChildNotices h fuel p newChild
  | some refChild =>
    match ensurePreInsertionValidity h fuel p newChild (some refChild) none with
    | some none =>
      match (if refChild = newChild then h.nextSibling newChild else some refChild) with
      | none => appendChildNotices h fuel p newChild
      | some refChild => insertCheckedNotices h fuel p newChild (some refChild) false
    | _ => []

/-- The notices of a removal of `ReplaceChild` in front of its insertion. -/
def removeForReplaceNotices (h : Heap) (fuel : Nat) (node : NodeId) : List Notice :=
  match h.parentNode node with
  | none => []
  | some parent => removalNotices parent (removeChild h fuel parent (some node))

def replaceChildNotices (h : Heap) (fuel : Nat) (p newChild : NodeId) :
    Option NodeId → List Notice
  | none => []
  | some oldChild =>
    match ensurePreInsertionValidity h fuel p newChild none (some oldChild) with
    | some none =>
      let next := h.nextSibling oldChild
      let next := if next = some newChild then h.nextSibling newChild else next
      removeForReplaceNotices h fuel newChild ++
        match removeForReplace h fuel p newChild with
        | some (h, none, needsRecheck₁) =>
          removeForReplaceNotices h fuel oldChild ++
            match removeForReplace h fuel p oldChild with
            | some (h, none, needsRecheck₂) =>
              insertCheckedNotices h fuel p newChild next (needsRecheck₁ || needsRecheck₂)
            | _ => []
        | _ => []
    | _ => []

/-- The notice of `ParserAppendChild`. -/
def parserAppendChildNotices (h : Heap) (fuel : Nat) (p newChild : NodeId) : List Notice :=
  match checkParserAcceptChild h fuel p newChild with
  | some true => insertionNotices p [newChild] (parserAppendChild h fuel p newChild)
  | _ => []

end ContainerNode

/-- The notices of a call. -/
def Call.notices (fuel : Nat) (h : Heap) : Call → List Notice
  | createNode _ _ _ | createDocument | incDOMTreeVersion _ => []
  | appendChild p n =>
    if h.isContainerNode p then ContainerNode.appendChildNotices h fuel p n else []
  | insertBefore p n ref =>
    if h.isContainerNode p then ContainerNode.insertBeforeNotices h fuel p n ref else []
  | replaceChild p n old => ContainerNode.replaceChildNotices h fuel p n old
  | removeChild p c => ContainerNode.removalNotices p (Node.removeChild h fuel p c)
  | removeChildren p => ContainerNode.removeChildrenNotices h fuel p
  | parserAppendChild p n => ContainerNode.parserAppendChildNotices h fuel p n

/-! ## What a notice does to a live child list -/

/-- `ChildNodeList::ChildrenChanged`. -/
def ChildNodeList.childrenChanged (s : CollectionIndexCache NodeId) (type : ChildrenChangeType) :
    CollectionIndexCache NodeId :=
  if type.isChildInsertion then s.nodeInserted
  else if type.isChildRemoval then s.nodeRemoved
  else s.invalidate

/-- The part of `InvalidateNodeListCachesInAncestors` for the child list of `q`. -/
def Notice.childrenChanged (q : NodeId) (s : CollectionIndexCache NodeId) (n : Notice) :
    CollectionIndexCache NodeId :=
  if n.type = .textChanged then s
  else if n.container = q then ChildNodeList.childrenChanged s n.type
  else s

section Notices

variable {q p : NodeId} {s : CollectionIndexCache NodeId} {h : Heap}

/-- Another list hears nothing. -/
theorem childrenChanged_of_ne {ns : List Notice} (hcont : ∀ n ∈ ns, n.container = p) (hq : q ≠ p)
    (s : CollectionIndexCache NodeId) : ns.foldl (Notice.childrenChanged q) s = s := by
  induction ns with
  | nil => rfl
  | cons n ns ih =>
    have hn : n.container ≠ q := fun he => hq (he.symm.trans (hcont n (by simp)))
    have hstep : n.childrenChanged q s = s := by
      unfold Notice.childrenChanged
      rw [if_neg hn]
      split <;> rfl
    rw [List.foldl_cons, hstep]
    exact ih fun m hm => hcont m (by simp [hm])

theorem childrenChanged_insertion (h : Heap) (p c : NodeId) (s : CollectionIndexCache NodeId) :
    (Notice.forInsertion h p c).childrenChanged p s = s.nodeInserted := by
  have hins := Notice.forInsertion_insertion h p c
  have htext := Notice.forInsertion_notText h p c
  have hcont : (Notice.forInsertion h p c).container = p := rfl
  unfold Notice.childrenChanged ChildNodeList.childrenChanged
  rw [if_neg htext, if_pos hcont, if_pos hins]

theorem childrenChanged_removal (h : Heap) (p c : NodeId) (s : CollectionIndexCache NodeId) :
    (Notice.forRemoval h p c).childrenChanged p s = s.nodeRemoved := by
  have hrem := Notice.forRemoval_removal h p c
  have hins := Notice.forRemoval_insertion h p c
  have htext := Notice.forRemoval_notText h p c
  have hcont : (Notice.forRemoval h p c).container = p := rfl
  unfold Notice.childrenChanged ChildNodeList.childrenChanged
  rw [if_neg htext, if_pos hcont, if_neg (by simp [hins]), if_pos hrem]

theorem childrenChanged_clear (h : Heap) (p : NodeId) (s : CollectionIndexCache NodeId) :
    (Notice.mk h p .allChildrenRemoved).childrenChanged p s = s.invalidate := by
  simp [Notice.childrenChanged, ChildNodeList.childrenChanged,
    ChildrenChangeType.isChildInsertion, ChildrenChangeType.isChildRemoval]

/-- As many nodes come in as there are notices. -/
theorem coherent_insertions {ts : List NodeId} {xs ys : List NodeId} (hs : Coherent s xs)
    (hlen : ys.length = xs.length + ts.length) (hnil : ts = [] → ys = xs) :
    Coherent ((ts.map (Notice.forInsertion h p)).foldl (Notice.childrenChanged p) s) ys := by
  induction ts generalizing s xs with
  | nil =>
    rw [hnil rfl]
    exact hs
  | cons t ts ih =>
    rw [List.length_cons] at hlen
    rw [List.map_cons, List.foldl_cons, childrenChanged_insertion]
    have hshort : (ys.take (xs.length + 1)).length = xs.length + 1 := by
      rw [List.length_take]
      omega
    refine ih (hs.nodeInserted hshort) (by omega) ?_
    rintro rfl
    rw [List.take_of_length_le (by rw [hlen, List.length_nil])]

end Notices

/-! ## Changes that are accounted for -/

/-- The notice finds a tree of the nodes of `h`. -/
structure Notice.Within (h : Heap) (n : Notice) : Prop where
  tree : ∃ ch, WellFormed n.heap ch
  sameNodes : SameNodes h n.heap
  allocated : n.container < h.size
  notText : n.type ≠ .textChanged

/-- **The notices `ns` account for the change of the child lists from `ch` to `ch'`.** -/
structure Traced (h : Heap) (ch : NodeId → List NodeId) (ns : List Notice)
    (ch' : NodeId → List NodeId) : Prop where
  lists : ∀ (q : NodeId) (s : CollectionIndexCache NodeId), Coherent s (ch q) →
    Coherent (ns.foldl (Notice.childrenChanged q) s) (ch' q)
  within : ∀ n ∈ ns, n.Within h
  below : ∀ root, (∀ n ∈ ns, ¬ Above n.heap.links.parent n.container root) →
    ∀ x, Above h.links.parent x root → ch' x = ch x

section Changes

variable {h h' h₁ : Heap} {ch ch' ch₁ : NodeId → List NodeId} {ns ns' : List Notice}
  {p c n : NodeId} {fuel : Nat}

theorem Traced.refl (h : Heap) (ch : NodeId → List NodeId) : Traced h ch [] ch :=
  ⟨fun _ _ hs => hs, fun _ hn => (by cases hn), fun _ _ _ _ => rfl⟩

/-- What is below a node stays there as long as nothing below it changes. -/
theorem above_of_same_below (w : WellFormed h ch) (w' : WellFormed h' ch') {root x : NodeId}
    (hsame : ∀ x, Above h.links.parent x root → ch' x = ch x)
    (hx : Above h.links.parent x root) : Above h'.links.parent x root := by
  induction hx using Relation.ReflTransGen.head_induction_on with
  | refl => exact .refl root
  | head hxy hyr ih =>
    have hmem := w.mem_iff.mpr hxy
    rw [← hsame _ hyr] at hmem
    exact (Above.of_parent (w'.mem_iff.mp hmem)).trans ih

/-- One change behind the other. -/
theorem Traced.trans (w : WellFormed h ch) (w₁ : WellFormed h₁ ch₁) (s₁ : SameNodes h h₁)
    (t : Traced h ch ns ch₁) (t' : Traced h₁ ch₁ ns' ch') : Traced h ch (ns ++ ns') ch' where
  lists q s hs := by
    rw [List.foldl_append]
    exact t'.lists q _ (t.lists q s hs)
  within n hn := by
    rcases List.mem_append.mp hn with hn | hn
    · exact t.within n hn
    · obtain ⟨htree, hsame, halloc, htext⟩ := t'.within n hn
      exact ⟨htree, s₁.trans hsame, s₁.size ▸ halloc, htext⟩
  below root hnot x hx := by
    have hfirst := t.below root fun n hn => hnot n (List.mem_append_left ns' hn)
    have hx₁ := above_of_same_below w w₁ hfirst hx
    rw [t'.below root (fun n hn => hnot n (List.mem_append_right ns hn)) x hx₁, hfirst x hx]

/-- A change at one container. -/
theorem Traced.of_container (hrest : ∀ x, x ≠ p → ch' x = ch x) (hnil : ns = [] → ch' p = ch p)
    (hcont : ∀ n ∈ ns, n.container = p) (hwithin : ∀ n ∈ ns, n.Within h)
    (habove : ∀ n ∈ ns, ∀ root, Above h.links.parent p root → Above n.heap.links.parent p root)
    (hlist : ∀ s, Coherent s (ch p) → Coherent (ns.foldl (Notice.childrenChanged p) s) (ch' p)) :
    Traced h ch ns ch' where
  lists q s hs := by
    by_cases hq : q = p
    · subst hq
      exact hlist s hs
    · rw [childrenChanged_of_ne hcont hq, hrest q hq]
      exact hs
  within := hwithin
  below root hnot x hx := by
    by_cases hxp : x = p
    · subst hxp
      cases ns with
      | nil => exact hnil rfl
      | cons n ns =>
        have hn := hnot n (List.mem_cons_self ..)
        rw [hcont n (List.mem_cons_self ..)] at hn
        exact absurd (habove n (List.mem_cons_self ..) root hx) hn
    · exact hrest x hxp

/-- The ancestors of a node keep their places when only nodes that are not among them go. -/
theorem above_of_kept (w : WellFormed h ch) (w' : WellFormed h' ch') {x root : NodeId}
    (hkept : ∀ y z, Above h.links.parent x y → y ∈ ch z → y ∈ ch' z)
    (hx : Above h.links.parent x root) : Above h'.links.parent x root := by
  induction hx with
  | refl => exact .refl x
  | tail hxy hyz ih =>
    exact ih.trans (.of_parent (w'.mem_iff.mp (hkept _ _ hxy (w.mem_iff.mpr hyz))))

/-- A child goes. -/
theorem Traced.removal (w : WellFormed h ch) (hc : c ∈ ch p) (w' : WellFormed h' (detach ch c))
    (hs : SameNodes h h') : Traced h ch [.forRemoval h' p c] (detach ch c) := by
  refine Traced.of_container (p := p) (fun x hx => ?_) (fun hnil => by cases hnil) (fun n hn => ?_)
    (fun n hn => ?_) (fun n hn root hroot => ?_) fun s hs => ?_
  · exact List.erase_of_not_mem (w.represents.disjoint (Ne.symm hx) hc)
  · rw [List.mem_singleton.mp hn]
    rfl
  · rw [List.mem_singleton.mp hn]
    exact ⟨⟨_, w'⟩, hs, (w.allocated c p (w.mem_iff.mp hc)).2, Notice.forRemoval_notText h' p c⟩
  · rw [List.mem_singleton.mp hn]
    refine above_of_kept w w' (fun y z hy hz => (List.mem_erase_of_ne ?_).mpr hz) hroot
    rintro rfl
    exact w.acyclic y p (w.mem_iff.mp hc) hy
  · rw [List.foldl_cons, List.foldl_nil, childrenChanged_removal]
    refine hs.nodeRemoved ?_
    show (ch p).length = ((ch p).erase c).length + 1
    have hpos := List.length_pos_of_mem hc
    rw [List.length_erase_of_mem hc]
    omega

/-- All children go. -/
theorem Traced.clear (w : WellFormed h ch) (hp : ch p ≠ [])
    (w' : WellFormed h' (specRemoveChildren ch p)) (hs : SameNodes h h') :
    Traced h ch [⟨h', p, .allChildrenRemoved⟩] (specRemoveChildren ch p) := by
  unfold specRemoveChildren at w' ⊢
  refine Traced.of_container (p := p) (fun x hx => update_of_ne hx [] ch) (fun hnil => by cases hnil)
    (fun n hn => ?_) (fun n hn => ?_) (fun n hn root hroot => ?_) fun s hs => ?_
  · rw [List.mem_singleton.mp hn]
  · rw [List.mem_singleton.mp hn]
    obtain ⟨c, hc⟩ := List.exists_mem_of_ne_nil _ hp
    exact ⟨⟨_, w'⟩, hs, (w.allocated c p (w.mem_iff.mp hc)).2, fun he => by cases he⟩
  · rw [List.mem_singleton.mp hn]
    refine above_of_kept w w' (fun y z hy hz => ?_) hroot
    have hzp : z ≠ p := by
      rintro rfl
      exact w.acyclic y z (w.mem_iff.mp hz) hy
    rwa [update_of_ne hzp]
  · rw [List.foldl_cons, List.foldl_nil, childrenChanged_clear]
    exact .invalidate s _

/-- Children come in. -/
theorem Traced.insertion {ts : List NodeId} (w : WellFormed h ch) {cs : List NodeId}
    (w' : WellFormed h' (update ch p cs)) (hs : SameNodes h h') (hp : p < h.size) (hlen : cs.length = (ch p).length + ts.length)
    (hnil : ts = [] → cs = ch p) (hsub : ∀ x ∈ ch p, x ∈ cs) :
    Traced h ch (ts.map (.forInsertion h' p)) (update ch p cs) := by
  refine Traced.of_container (p := p) (fun x hx => update_of_ne hx cs ch) (fun hnone => ?_)
    (fun n hn => ?_) (fun n hn => ?_) (fun n hn root hroot => ?_) fun s hs => ?_
  · rw [update_self]
    exact hnil (List.map_eq_nil_iff.mp hnone)
  · obtain ⟨t, -, rfl⟩ := List.mem_map.mp hn
    rfl
  · obtain ⟨t, -, rfl⟩ := List.mem_map.mp hn
    exact ⟨⟨_, w'⟩, hs, hp, Notice.forInsertion_notText h' p t⟩
  · obtain ⟨t, -, rfl⟩ := List.mem_map.mp hn
    refine above_of_kept w w' (fun y z _ hz => ?_) hroot
    by_cases hzp : z = p
    · subst hzp
      rw [update_self]
      exact hsub y hz
    · rwa [update_of_ne hzp]
  · rw [update_self]
    exact coherent_insertions hs hlen hnil

/-! ## The mutators -/

theorem removalNotices_refused (h : Heap) (p : NodeId) (ret : Option NodeId) (e : DOMException) :
    ContainerNode.removalNotices p (some ⟨h, ret, some e⟩) = [] := by
  cases ret <;> rfl

theorem removeChildren_traced (w : WellFormed h ch) (hfuel : h.size < fuel) (p : NodeId) :
    Traced h ch (ContainerNode.removeChildrenNotices h fuel p) (specRemoveChildren ch p) := by
  obtain ⟨h', hrem, w', hs, -⟩ := removeChildren_spec w hfuel p
  unfold ContainerNode.removeChildrenNotices
  split
  · rename_i hfirst
    have hnil := w.first_eq_none.mp hfirst
    have hsame : specRemoveChildren ch p = ch := by
      rw [specRemoveChildren, ← hnil, update_eq_self]
    rw [hsame]
    exact .refl h ch
  · rename_i hfirst
    rw [hrem]
    exact .clear w (fun hnil => hfirst (w.first_eq_none.mpr hnil)) w' hs

/-- The removal of a node from its parent, if it has one. -/
theorem removeForReplace_traced (w : WellFormed h ch) (hfuel : h.size < fuel) (n : NodeId) :
    Traced h ch (ContainerNode.removeForReplaceNotices h fuel n) (detach ch n) := by
  unfold ContainerNode.removeForReplaceNotices
  cases hq : h.parentNode n with
  | none =>
    rw [detach_of_not_mem ch fun q hm => w.represents.not_mem_of_detached hq hm]
    exact .refl h ch
  | some q =>
    have hmem : n ∈ ch q := w.mem_iff.mpr hq
    obtain ⟨h', hrem, w', hs, -⟩ := removeChild_spec w hfuel hmem
    simp only [hrem]
    exact .removal w hmem w' hs

theorem collect_traced (w : WellFormed h ch) (hfuel : h.size < fuel) (n : NodeId) :
    Traced h ch (ContainerNode.collectNotices h fuel n) ((collected h ch n).foldl detach ch) := by
  unfold ContainerNode.collectNotices collected targets
  split
  · rw [foldl_detach_children w]
    exact removeChildren_traced w hfuel n
  · have hremoval := removeForReplace_traced w hfuel n
    unfold ContainerNode.removeForReplaceNotices at hremoval
    cases hq : h.parentNode n with
    | none =>
      rw [hq] at hremoval
      exact hremoval
    | some q =>
      rw [hq] at hremoval
      have hsame : Node.removeChild h fuel q (some n) =
          ContainerNode.removeChild h fuel q (some n) := if_pos (w.container n q hq)
      simp only [hsame]
      exact hremoval

/-- The common end of the insertions. -/
theorem insertChecked_traced {next : Option NodeId} {ret : NodeId} {flag : Bool} {r : Result}
    (w : WellFormed h ch) (v : VersionsBounded h) (hfuel : h.size < fuel)
    (k : Checked h ch p n next)
    (hr : ContainerNode.insertChecked h fuel p n next ret flag = some r) :
    ∃ ch', WellFormed r.heap ch' ∧
      Traced h ch (ContainerNode.insertCheckedNotices h fuel p n next flag) ch' := by
  obtain ⟨h₁, hcol, w₁, s₁, hsame, hbump⟩ := collect_spec w hfuel n
  have hcollect := collect_traced w hfuel n
  simp only [ContainerNode.insertChecked, hcol, Option.bind_eq_bind, Option.bind_some] at hr
  simp only [ContainerNode.insertCheckedNotices, hcol]
  split at hr
  · rename_i hstop
    cases hr
    rw [if_pos hstop, List.append_nil]
    exact ⟨_, w₁, hcollect⟩
  · rename_i hproceed
    rw [if_neg hproceed]
    split at hr
    · rename_i hobject
      cases hr
      rw [if_pos hobject, List.append_nil]
      exact ⟨_, w₁, hcollect⟩
    · rename_i hcalm
      rw [if_neg hcalm]
      have hsize : h₁.size < fuel := by rw [s₁.size]; exact hfuel
      have hp₁ : p < h₁.size := by rw [s₁.size]; exact k.parent_allocated
      have hcont : h₁.isContainerNode p = true := by rw [s₁.isContainerNode]; exact k.container
      have hdetached := detached_collected w k.node_allocated k.notDocument w₁ s₁
      have hnext : ∀ r, next = some r → r ∈ (collected h ch n).foldl detach ch p := fun r hr =>
        mem_foldl_detach_of_ne (k.next_mem r hr).1
          (reference_not_collected w k.notSelf (k.next_mem r hr).1 (k.next_mem r hr).2)
      -- what is above its container is not inserted: the insertion would not return
      have hclear : ∀ t ∈ collected h ch n, ¬ Above h₁.links.parent p t := by
        intro t ht habove
        rw [insertNodeVector_above w₁ hsize hp₁ hcont hdetached (collected_nodup w n) hnext
          ⟨t, ht, habove⟩] at hr
        cases hr
      obtain ⟨h₂, hins, w₂, s₂, v₂⟩ := insertNodeVector_spec w₁ hsize
        ⟨hp₁, hcont, fun t ht => ⟨(hdetached t ht).1, (hdetached t ht).2.1, (hdetached t ht).2.2,
          hclear t ht⟩, collected_nodup w n, hnext⟩
      rw [hins] at hr
      obtain rfl := Option.some.inj hr
      have hv₂ : VersionsBounded h₂ := fun d => by
        rw [v₂.domTreeVersion, v₂.globalTreeVersion]
        cases ho : removalOwner h n with
        | none => rw [hsame ho]; exact v d
        | some o => exact v.bumped (hbump o ho) d
      obtain ⟨s₃, -⟩ := didInsertNodeVector_spec h₂ p (collected h ch n) hv₂
      refine ⟨_, w₂.congr s₃, hcollect.trans w w₁ s₁ ?_⟩
      rw [hins]
      refine .insertion w₁ w₂ s₂ hp₁ (splice_length ..) (fun hnil => ?_) fun x hx => mem_splice_of_mem hx
      rw [hnil]
      exact splice_nil ..

/-! ## The calls -/

theorem before_notices {ref : NodeId} (w : WellFormed h ch)
    (hval : ContainerNode.ensurePreInsertionValidity h fuel p n (some ref) none = some none) :
    ContainerNode.insertBeforeNotices h fuel p n (some ref) =
      ContainerNode.insertCheckedNotices h fuel p n (insertReference ch p n ref) false := by
  have href : ref ∈ ch p := w.mem_iff.mpr ((validity_spec hval).next_child ref rfl)
  unfold insertReference
  by_cases he : ref = n
  · subst he
    rw [if_pos rfl, (successor_eq_next w href).1]
    cases hl : h.links.next ref with
    | none =>
      simp [ContainerNode.insertBeforeNotices, hval, Heap.nextSibling, hl,
        ContainerNode.appendChildNotices, validity_append_of_insert hval]
    | some r => simp [ContainerNode.insertBeforeNotices, hval, Heap.nextSibling, hl]
  · rw [if_neg he]
    simp [ContainerNode.insertBeforeNotices, hval, he]

theorem replace_notices {old : NodeId} {h₂ : Heap} {flag₁ flag₂ : Bool} (w : WellFormed h ch)
    (hval : ContainerNode.ensurePreInsertionValidity h fuel p n none (some old) = some none)
    (hr₁ : ContainerNode.removeForReplace h fuel p n = some (h₁, none, flag₁))
    (hr₂ : ContainerNode.removeForReplace h₁ fuel p old = some (h₂, none, flag₂)) :
    ContainerNode.replaceChildNotices h fuel p n (some old) =
      ContainerNode.removeForReplaceNotices h fuel n ++
        (ContainerNode.removeForReplaceNotices h₁ fuel old ++
          ContainerNode.insertCheckedNotices h₂ fuel p n (replaceReference ch p n old)
            (flag₁ || flag₂)) := by
  have hold : old ∈ ch p := w.mem_iff.mpr ((validity_spec hval).old_child old rfl)
  have hsucc := (successor_eq_next w hold).1
  by_cases hn : h.links.next old = some n
  · have hsucc' := (successor_eq_next w ((successor_eq_next w hold).2 n hn).1).1
    simp [ContainerNode.replaceChildNotices, hval, hr₁, hr₂, Heap.nextSibling, replaceReference,
      hsucc, hn, hsucc']
  · simp [ContainerNode.replaceChildNotices, hval, hr₁, hr₂, Heap.nextSibling, replaceReference,
      hsucc, hn]

/-- An insertion that its checks refuse notifies nobody. -/
theorem insertion_refused_notices {place : Place} (htyped : (place.call p n).WellTyped h)
    (hno : ¬ (h.isContainerNode p = true ∧ place.validity h fuel p n = some none)) :
    (place.call p n).notices fuel h = [] := by
  cases place with
  | last =>
    simp only [Place.call, Call.notices, ContainerNode.appendChildNotices]
    split
    · rename_i hcont
      split
      · rename_i hval
        exact absurd ⟨hcont, hval⟩ hno
      · rfl
    · rfl
  | before ref =>
    simp only [Place.call, Call.notices, ContainerNode.insertBeforeNotices]
    split
    · rename_i hcont
      split
      · rename_i hval
        exact absurd ⟨hcont, hval⟩ hno
      · rfl
    · rfl
  | instead old =>
    simp only [Place.call, Call.notices, ContainerNode.replaceChildNotices]
    split
    · rename_i hval
      exact absurd ⟨htyped.2.2.1, hval⟩ hno
    · rfl

/-- **The notices of an insertion account for it.** -/
theorem insertion_traced {place : Place} {r : Result} (w : WellFormed h ch) (v : VersionsBounded h)
    (hfuel : h.size < fuel) (htyped : (place.call p n).WellTyped h)
    (hr : (place.call p n).exec fuel h = some r) :
    ∃ ch', WellFormed r.heap ch' ∧ Traced h ch ((place.call p n).notices fuel h) ch' := by
  by_cases hchecked : h.isContainerNode p = true ∧ place.validity h fuel p n = some none
  · obtain ⟨hcont, hval⟩ := hchecked
    cases place with
    | last =>
      rw [Place.last_exec hcont hval] at hr
      have hval' : ContainerNode.ensurePreInsertionValidity h fuel p n none none = some none := hval
      have hnotices : (Place.last.call p n).notices fuel h =
          ContainerNode.insertCheckedNotices h fuel p n none false := by
        simp [Place.call, Call.notices, hcont, ContainerNode.appendChildNotices, hval']
      rw [hnotices]
      exact insertChecked_traced w v hfuel
        ((validity_spec hval).checked htyped.1 htyped.2 hcont fun _ hr => by cases hr) hr
    | before ref =>
      rw [Place.before_exec w hcont hval] at hr
      have hnotices : ((Place.before ref).call p n).notices fuel h =
          ContainerNode.insertCheckedNotices h fuel p n (insertReference ch p n ref) false :=
        (if_pos hcont).trans (before_notices w hval)
      rw [hnotices]
      exact insertChecked_traced w v hfuel
        ((validity_spec hval).checked htyped.1 htyped.2.1 hcont (insertBefore_eq w hval).2) hr
    | instead old =>
      have hold : old ∈ ch p := w.mem_iff.mpr ((validity_spec hval).old_child old rfl)
      obtain ⟨h₁, flag₁, hr₁, w₁, s₁, v₁, -⟩ := removeForReplace_spec w v hfuel p n
      have hfuel₁ : h₁.size < fuel := by rw [s₁.size]; exact hfuel
      obtain ⟨h₂, flag₂, hr₂, w₂, s₂, v₂, -⟩ := removeForReplace_spec w₁ v₁ hfuel₁ p old
      have s := s₁.trans s₂
      have k : Checked h ch p n none :=
        (validity_spec hval).checked htyped.1 htyped.2.1 hcont fun _ hr => by cases hr
      have hexec : ((Place.instead old).call p n).exec fuel h = _ := replaceChild_eq w hval hr₁ hr₂
      rw [hexec] at hr
      obtain ⟨ch', w', t⟩ := insertChecked_traced w₂ v₂ (by rw [s.size]; exact hfuel)
        (replaceChild_checked w k hold s) hr
      have hnotices : ((Place.instead old).call p n).notices fuel h = _ :=
        replace_notices w hval hr₁ hr₂
      rw [hnotices]
      exact ⟨ch', w', (removeForReplace_traced w hfuel n).trans w w₁ s₁
        ((removeForReplace_traced w₁ hfuel₁ old).trans w₁ w₂ s₂ t)⟩
  · rw [insertion_refused_notices htyped hchecked]
    rcases insertion_refused_or_checked w hfuel htyped with ⟨ret, e, hexec⟩ | hchecked'
    · obtain rfl := Option.some.inj (hr.symm.trans hexec)
      exact ⟨ch, w, .refl h ch⟩
    · exact absurd hchecked' hchecked

/-- A call that inserts has the notices of its place. -/
theorem Call.insertion_notices {c : Call} {place : Place} (hc : c.insertion = some (p, n, place)) :
    c.notices fuel h = (place.call p n).notices fuel h := by
  unfold insertion at hc
  split at hc
  · cases hc
    rfl
  · cases hc
    rfl
  · cases hc
    rfl
  · cases hc
    rfl
  · cases hc

/-- **The notices of a call account for what it does.** -/
theorem call_traced {c : Call} {r : Result} (w : WellFormed h ch) (v : VersionsBounded h)
    (hfuel : h.size < fuel) (htyped : c.WellTyped h) (hdoc : c.NotDocument h)
    (hexec : c.exec fuel h = some r) :
    ∃ ch', WellFormed r.heap ch' ∧ Traced h ch (c.notices fuel h) ch' := by
  cases hc : c.insertion with
  | some i =>
    obtain ⟨p, n, place⟩ := i
    obtain ⟨heq, htyped'⟩ := Call.insertion_eq h fuel hc
    rw [Call.insertion_notices hc]
    exact insertion_traced w v hfuel (htyped' htyped) (heq.symm.trans hexec)
  | none =>
    cases c with
    | createNode type name d =>
      obtain rfl := Option.some.inj hexec
      exact ⟨ch, w.createNode name htyped.1 htyped.2, .refl h ch⟩
    | createDocument =>
      obtain rfl := Option.some.inj hexec
      exact ⟨ch, w.createDocument, .refl h ch⟩
    | incDOMTreeVersion d =>
      obtain rfl := Option.some.inj hexec
      exact ⟨ch, w.congr ⟨⟨rfl, rfl, rfl, rfl⟩, rfl, rfl⟩, .refl h ch⟩
    | appendChild p n => cases hc
    | insertBefore p n ref => cases ref <;> cases hc
    | replaceChild p n old =>
      cases old with
      | some old => cases hc
      | none =>
        obtain rfl := Option.some.inj hexec
        exact ⟨ch, w, .refl h ch⟩
    | removeChild p c =>
      show ∃ ch', _ ∧ Traced h ch
        (ContainerNode.removalNotices p (Node.removeChild h fuel p c)) ch'
      rcases removeChild_cases w hfuel c with ⟨ret, e, heq⟩ | ⟨c₀, h', -, hmem, heq, w', hs⟩
      · obtain rfl := Option.some.inj (hexec.symm.trans heq)
        rw [heq, removalNotices_refused]
        exact ⟨ch, w, .refl h ch⟩
      · obtain rfl := Option.some.inj (hexec.symm.trans heq)
        rw [heq]
        exact ⟨_, w', .removal w hmem w' hs⟩
    | removeChildren p =>
      obtain ⟨h₁, hrem, w₁, -⟩ := removeChildren_spec w hfuel p
      obtain rfl : _ = r := by simpa [Call.exec, hrem] using hexec
      exact ⟨_, w₁, removeChildren_traced w hfuel p⟩
    | parserAppendChild p n =>
      obtain ⟨e, he⟩ := parserChildException_total w hfuel p n
      obtain ⟨h₁, happ, rfl⟩ : ∃ h₁, ContainerNode.parserAppendChild h fuel p n = some h₁ ∧
          (⟨h₁, none, e⟩ : Result) = r := by
        simpa [Call.exec, he, Option.bind_eq_some_iff] using hexec
      show ∃ ch', _ ∧ Traced h ch (ContainerNode.parserAppendChildNotices h fuel p n) ch'
      have hacc : ContainerNode.checkParserAcceptChild h fuel p n = some e.isNone := by
        simp [ContainerNode.checkParserAcceptChild, he]
      unfold ContainerNode.parserAppendChildNotices
      cases e with
      | some e =>
        simp only [ContainerNode.parserAppendChild, hacc, Option.isNone_some, Bool.not_false,
          Option.bind_eq_bind, Option.bind_some, if_true, Option.pure_def,
          Option.some.injEq] at happ
        simp only [hacc, Option.isNone_some]
        exact ⟨ch, happ ▸ w, .refl h ch⟩
      | none =>
        simp only [hacc, Option.isNone_none]
        have hroot := parserAppendChild_root w hfuel htyped.2.1 hacc happ
        obtain ⟨h₂, heq, hins⟩ := parserAppendChild_spec w v hfuel htyped.1 htyped.2.2
          ⟨htyped.2.1, hroot.1, hdoc, hroot.2⟩ hacc
        obtain rfl := Option.some.inj (happ.symm.trans heq)
        rw [happ]
        refine ⟨_, hins.wellFormed, .insertion w hins.wellFormed hins.sameNodes htyped.1 ?_
          (fun hnil => by cases hnil) ?_⟩
        · rw [List.length_append]
        · exact fun x hx => List.mem_append_left _ hx

end Changes

end Blinkit.Dom
