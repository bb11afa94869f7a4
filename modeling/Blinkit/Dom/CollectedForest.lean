import Blinkit.Dom.Collection

/-!
# Collections and the trees below the pool

`GCPool::CollectGarbage` prepares each pooled object by saving the nodes below it, and then deletes
the pool. Saving a retained node does nothing, but the traversal goes on below it.

* `PooledRoots h` — the pool is a set of roots, which every call keeps (`Ledger`).
* `Between h x n r` — `x` is on the way from `n` up to `r`, and is not `r`.
* `Garbage h n` — `n` is below a pooled node and no retained node is between them.
* `TopmostRetained h n` — `n` is retained and below a pooled node, with no other retained node in
  between.
* `Survives h h' deleted n` — `n` is a root with its subtree as it was, and nothing of it has been
  deleted.
* `CollectsForest h` — a collection leaves the pool alone while it runs over it, deletes the garbage
  and nothing else, each node once, and the topmost retained nodes survive.

Principal results: `collects_forest_iff`, in every order of the pool, and `collects_forest_child`.
-/

set_option autoImplicit false

namespace Blinkit.Dom

open LinkedForest ChildLists Function Transition

variable {h h' m : Heap} {n r x c : NodeId} {ch : NodeId → List NodeId}

/-- The pool is a set of roots. -/
structure PooledRoots (h : Heap) : Prop where
  root : ∀ r ∈ h.gcObjects, h.links.parent r = none
  nodup : h.gcObjects.Nodup

theorem Ledger.pooledRoots (l : Ledger h) : PooledRoots h where
  root r hr := (l.pooled r hr).2.1
  nodup := l.nodup

/-- `x` is `n` or above it, and properly below `r`. -/
def Between (h : Heap) (x n r : NodeId) : Prop :=
  Above h.links.parent n x ∧ Above h.links.parent x r ∧ x ≠ r

/-- The pooled objects, and what is below them and neither retained nor below a retained node. -/
def Garbage (h : Heap) (n : NodeId) : Prop :=
  ∃ r ∈ h.gcObjects, Above h.links.parent n r ∧
    ∀ x, Between h x n r → h.contextRetained x = false

/-- The topmost retained nodes below the pool. -/
def TopmostRetained (h : Heap) (n : NodeId) : Prop :=
  h.contextRetained n = true ∧ ∃ r ∈ h.gcObjects, n ≠ r ∧ Above h.links.parent n r ∧
    ∀ x, Between h x n r → x ≠ n → h.contextRetained x = false

/-- **`n` is a root that still has its own subtree and no pointer to a deleted node.** -/
structure Survives (h h' : Heap) (deleted : List NodeId) (n : NodeId) : Prop where
  parent : h'.links.parent n = none
  siblings : h'.links.prev n = none ∧ h'.links.next n = none
  alive : ∀ x, Above h.links.parent x n → x ∉ deleted
  children : ∀ x, Above h.links.parent x n →
    h'.links.first x = h.links.first x ∧ h'.links.last x = h.links.last x
  subtree : ∀ x, Above h.links.parent x n → x ≠ n →
    h'.links.parent x = h.links.parent x ∧ h'.links.prev x = h.links.prev x ∧
      h'.links.next x = h.links.next x

/-- **A collection deletes the garbage, and the retained nodes below it survive.** -/
def CollectsForest (h : Heap) : Prop :=
  ∃ m h' deleted, h.gcObjects.foldlM preCollectGarbage h = some m ∧ m.gcObjects = h.gcObjects ∧
    collectGarbage h = some h' ∧ h'.freed = h.freed ++ deleted ∧
    deleted.Nodup ∧ (∀ n, n ∈ deleted ↔ Garbage h n) ∧
    ∀ n, TopmostRetained h n → Survives h h' deleted n

/-! ## What the first loop saves -/

theorem mem_save (hx : x ∈ h.gcObjects) : x ∈ (h.save n).gcObjects := by
  unfold Heap.save
  split
  · exact hx
  · exact List.mem_insert_of_mem hx

theorem mem_save_self (hn : h.contextRetained n = false) : n ∈ (h.save n).gcObjects := by
  unfold Heap.save
  rw [if_neg (by rw [hn]; exact Bool.false_ne_true)]
  exact List.mem_insert_self

theorem mem_saveTraversed {rounds : Nat} {o : Option NodeId} (hx : x ∈ h.gcObjects)
    (hrun : saveTraversed rounds o h = some h') : x ∈ h'.gcObjects := by
  induction rounds generalizing o h with
  | zero =>
    cases o with
    | none =>
      obtain rfl := Option.some.inj hrun
      exact hx
    | some q => cases hrun
  | succ rounds ih =>
    cases o with
    | none =>
      obtain rfl := Option.some.inj hrun
      exact hx
    | some q =>
      obtain ⟨o', -, hrest⟩ := Option.bind_eq_some_iff.mp hrun
      exact ih (mem_save hx) hrest

theorem mem_preCollectGarbage (hx : x ∈ h.gcObjects) (hrun : preCollectGarbage h r = some h') :
    x ∈ h'.gcObjects := by
  unfold preCollectGarbage at hrun
  split at hrun
  · exact mem_saveTraversed hx hrun
  · obtain rfl := Option.some.inj hrun
    exact hx

theorem mem_preCollect {rs : List NodeId} (hx : x ∈ h.gcObjects)
    (hrun : rs.foldlM preCollectGarbage h = some h') : x ∈ h'.gcObjects := by
  induction rs generalizing h with
  | nil =>
    obtain rfl := Option.some.inj hrun
    exact hx
  | cons r rs ih =>
    obtain ⟨m, hfirst, hrest⟩ := Option.bind_eq_some_iff.mp hrun
    exact ih (mem_preCollectGarbage hx hfirst) hrest

/-- The first child is saved, unless it is retained. -/
theorem mem_preCollectGarbage_child (hchild : h.firstChild r = some c)
    (hc : h.contextRetained c = false) (hrun : preCollectGarbage h r = some h') :
    c ∈ h'.gcObjects := by
  unfold Heap.firstChild at hchild
  split at hchild
  · rename_i hcont
    unfold preCollectGarbage at hrun
    rw [if_pos hcont, hchild] at hrun
    obtain ⟨o, -, hrest⟩ := Option.bind_eq_some_iff.mp hrun
    exact mem_saveTraversed (mem_save_self hc) hrest
  · cases hchild

/-- A pooled node without children saves nothing. -/
theorem preCollectGarbage_leaf (hr : h.firstChild r = none) :
    preCollectGarbage h r = some h := by
  unfold preCollectGarbage
  split
  · rename_i hcont
    unfold Heap.firstChild at hr
    rw [if_pos hcont] at hr
    rw [hr]
    rfl
  · rfl

theorem preCollect_leaves {rs : List NodeId} (hleaf : ∀ r ∈ rs, h.firstChild r = none) :
    rs.foldlM preCollectGarbage h = some h := by
  induction rs with
  | nil => rfl
  | cons r rs ih =>
    rw [List.foldlM_cons, preCollectGarbage_leaf (hleaf r List.mem_cons_self)]
    exact ih fun r' hr' => hleaf r' (List.mem_cons_of_mem _ hr')

/-- **The loop saves the first child of every object it runs over**, unless that is retained. -/
theorem mem_preCollect_child (w : WellFormed h ch) {rs : List NodeId}
    (hroots : ∀ r ∈ rs, h.links.parent r = none) (hr : r ∈ rs)
    (hchild : h.firstChild r = some c) (hc : h.contextRetained c = false)
    (hrun : rs.foldlM preCollectGarbage h = some h') : c ∈ h'.gcObjects := by
  obtain ⟨l₁, l₂, rfl⟩ := List.append_of_mem hr
  rw [List.foldlM_append] at hrun
  obtain ⟨m₁, hbefore, hrest⟩ := Option.bind_eq_some_iff.mp hrun
  obtain ⟨m₂, hobject, hafter⟩ := Option.bind_eq_some_iff.mp hrest
  -- up to here the loop has written the pool only
  have hs : Saved h m₁ fun _ => True := preCollect_spec w
    (fun r' hr' => hroots r' (List.mem_append_left _ hr')) (fun _ _ _ _ => trivial)
    (.refl h _) hbefore
  refine mem_preCollect (mem_preCollectGarbage_child (r := r) ?_ ?_ hobject) hafter
  · rw [hs.heap]
    exact hchild
  · rw [hs.heap]
    exact hc

/-! ## The condition -/

theorem WellFormed.parent_of_firstChild (w : WellFormed h ch) (hchild : h.firstChild r = some c) :
    h.links.parent c = some r := by
  unfold Heap.firstChild at hchild
  split at hchild
  · rw [w.represents.first_eq] at hchild
    exact w.mem_iff.mp (List.mem_of_head? hchild)
  · cases hchild

/-- Nothing is properly below a node without children. -/
theorem WellFormed.eq_of_leaf (w : WellFormed h ch) (hr : h.firstChild r = none)
    (hn : Above h.links.parent n r) : n = r := by
  rcases above_iff_tail.mp hn with rfl | ⟨y, -, hy⟩
  · rfl
  · unfold Heap.firstChild at hr
    rw [if_pos (w.container y r hy), w.represents.first_eq] at hr
    have hmem := w.mem_iff.mpr hy
    rw [List.head?_eq_none_iff.mp hr] at hmem
    cases hmem

/-- A retained first child is the topmost retained node on its way. -/
theorem WellFormed.topmostRetained_child (w : WellFormed h ch) (hr : r ∈ h.gcObjects)
    (hchild : h.firstChild r = some c) (hc : h.contextRetained c = true) : TopmostRetained h c := by
  have hparent := w.parent_of_firstChild hchild
  refine ⟨hc, r, hr, ?_, .of_parent hparent, fun x hx hne => ?_⟩
  · rintro rfl
    exact w.acyclic c c hparent (.refl c)
  · obtain ⟨hcx, hxr, hxne⟩ := hx
    rcases above_iff_head.mp hcx with rfl | ⟨y, hy, hyx⟩
    · exact absurd rfl hne
    · -- between a child and its parent there is nothing
      obtain rfl : y = r := Option.some.inj (hy.symm.trans hparent)
      exact absurd (w.acyclic.antisymm hxr hyx) hxne

/-- A collection cuts no link, not even those of retained nodes. -/
theorem collectGarbage_links (w : WellFormed h ch) (p : PooledRoots h)
    (hrun : collectGarbage h = some h') : h'.links = h.links := by
  obtain ⟨m, hpre, hm⟩ := Option.bind_eq_some_iff.mp hrun
  obtain rfl := Option.some.inj hm
  have hs : Saved h m fun _ => True :=
    preCollect_spec w p.root (fun _ _ _ _ => trivial) (.refl h _) hpre
  rw [hs.heap]

/-- **Where no pooled object has a child a collection does what it should.** -/
theorem collects_forest_leaves (w : WellFormed h ch) (p : PooledRoots h)
    (hleaf : ∀ r ∈ h.gcObjects, h.firstChild r = none) : CollectsForest h := by
  have hpre := preCollect_leaves hleaf
  have hrun : collectGarbage h = some { h with
      freed := h.freed ++ h.gcObjects
      gcObjects := []
      inGCPool := fun n => h.inGCPool n && !h.gcObjects.contains n } := by
    unfold collectGarbage
    rw [hpre]
    rfl
  refine ⟨h, _, h.gcObjects, hpre, rfl, hrun, rfl, p.nodup, fun n => ⟨fun hn => ?_, ?_⟩, ?_⟩
  · refine ⟨n, hn, .refl n, fun x ⟨hnx, _, hne⟩ => ?_⟩
    exact absurd (hnx.eq_of_root (p.root n hn)).symm hne
  · rintro ⟨r, hr, hn, -⟩
    rw [w.eq_of_leaf (hleaf r hr) hn]
    exact hr
  · rintro n ⟨-, r, hr, hne, hn, -⟩
    exact absurd (w.eq_of_leaf (hleaf r hr) hn) hne

/-- **A child of a pooled object is saved while the loop runs over the pool, or is retained and
stays below its parent.** -/
theorem firstChild_of_collects_forest (w : WellFormed h ch) (p : PooledRoots h)
    (hcollects : CollectsForest h) (hr : r ∈ h.gcObjects) : h.firstChild r = none := by
  obtain ⟨m, h', deleted, hpre, hpool, hrun, -, -, -, hretained⟩ := hcollects
  cases hchild : h.firstChild r with
  | none => rfl
  | some c =>
    have hparent := w.parent_of_firstChild hchild
    exfalso
    cases hc : h.contextRetained c with
    | true =>
      have hsurvives := (hretained c (w.topmostRetained_child hr hchild hc)).parent
      rw [collectGarbage_links w p hrun, hparent] at hsurvives
      cases hsurvives
    | false =>
      have hmem := mem_preCollect_child w p.root hr hchild hc hpre
      rw [hpool] at hmem
      rw [p.root c hmem] at hparent
      cases hparent

/-- The pool in another order. -/
theorem PooledRoots.perm (p : PooledRoots h) {order : List NodeId}
    (ho : order.Perm h.gcObjects) : PooledRoots { h with gcObjects := order } where
  root r hr := p.root r (ho.mem_iff.mp hr)
  nodup := ho.nodup_iff.mpr p.nodup

/-- **A collection of a pool of roots, taken in any order, does what it should exactly when no
pooled object has a child.** -/
theorem collects_forest_iff (w : WellFormed h ch) (p : PooledRoots h) {order : List NodeId}
    (ho : order.Perm h.gcObjects) :
    CollectsForest { h with gcObjects := order } ↔ ∀ r ∈ h.gcObjects, h.firstChild r = none := by
  have w' : WellFormed { h with gcObjects := order } ch :=
    w.congr ⟨⟨rfl, rfl, rfl, rfl⟩, rfl, rfl⟩
  have p' := p.perm ho
  constructor
  · intro hcollects r hr
    have hleaf := firstChild_of_collects_forest w' p' hcollects (ho.mem_iff.mpr hr)
    exact hleaf
  · intro hleaf
    exact collects_forest_leaves w' p' fun r hr => hleaf r (ho.mem_iff.mp hr)

/-- A `div` with a `p` below it and a `span` have lost their wrappers and are in the pool; a `b`
keeps its own. -/
def pooledFamily : List ScriptCall :=
  [.createElement 0 "div", .push 1, .createElement 0 "p", .push 2, .appendChild 1 2,
    .createElement 0 "span", .push 3, .createElement 0 "b", .push 4, .finalize 3, .finalize 1]

theorem collects_forest_family : ∃ h os, run ScriptCall.step freshDocument pooledFamily =
    .ok (h, os) ∧ h.gcObjects = [1, 3] ∧ h.firstChild 1 = some 2 ∧ h.contextRetained 4 = true ∧
      (CollectsForest { h with gcObjects := [3, 1] } ↔
        ∀ r ∈ h.gcObjects, h.firstChild r = none) := by
  obtain ⟨h, os, hrun⟩ : ∃ h os, run ScriptCall.step freshDocument pooledFamily = .ok (h, os) :=
    ⟨_, _, rfl⟩
  obtain ⟨ch, k⟩ := run_invariant (I := fun h => ∃ ch, Household h 0 ch)
    (fun _ _ _ _ ⟨_, k⟩ hr => k.step hr) ⟨_, household_freshDocument⟩ hrun
  have hpool : h.gcObjects = [1, 3] := by
    cases hrun
    decide
  refine ⟨h, os, hrun, hpool, ?_, ?_, collects_forest_iff k.settled.wellFormed
    k.ledger.pooledRoots ?_⟩
  · cases hrun
    decide
  · cases hrun
    decide
  · rw [hpool]
    exact .swap 1 3 []

/-- **The pool changes while a collection runs over it**: the finalizer of `div` has put it into the
pool, and `p` is below it. -/
theorem collects_forest_child : ¬ Always Action.step CollectsForest True freshDocument
    [.call (.createElement 0 "div"), .call (.push 1), .call (.createElement 0 "p"),
      .call (.push 2), .call (.appendChild 1 2), .call (.finalize 1)] := by
  intro h
  obtain ⟨m, h', deleted, hpre, hpool, -⟩ := h.2.2.2.2.2.2
  have hm : m.gcObjects = [2, 1] := by
    obtain rfl := Option.some.inj hpre
    decide
  rw [hm] at hpool
  revert hpool
  decide

end Blinkit.Dom
