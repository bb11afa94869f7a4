import Blinkit.Dom.Ownership

/-!
# What a collection deletes

* `Doomed h n` — `n` is in the pool or below a node that is. These are the nodes a collection
  deletes.
* `CollectsSafely h` — what a collection deletes in this state has no live wrapper, and no document
  is above it.
* `SparesWrappers` — the actions that put no node with a live wrapper below the pool. The others
  are `textContent` and `innerHTML` of a node with a wrapper below it, the finalizer of a retained
  node with a wrapper below it, and a push of a node that hangs below the pool already.

Principal results: `collectGarbage_spec`, `collects_safely` and `collectGarbage_deletes_wrapped`.
-/

set_option autoImplicit false

namespace Blinkit.Dom

open LinkedForest ChildLists Function Transition

variable {h h' m : Heap} {d n p c x : NodeId} {ch : NodeId → List NodeId}

/-- `n` is in the pool or below a node that is. -/
def Doomed (h : Heap) (n : NodeId) : Prop := ∃ r ∈ h.gcObjects, Above h.links.parent n r

/-- **What a collection deletes in this state has no live wrapper and is not below a document.** -/
def CollectsSafely (h : Heap) : Prop :=
  ∀ h', collectGarbage h = some h' → ∀ n ∈ h'.freed, n ∉ h.freed →
    h.contextObject n = false ∧ ∀ d, h.isDocumentNode d = true → ¬ Above h.links.parent n d

/-! ## The traversal -/

/-- The pool has got new members, all from `D`. -/
structure Saved (h h' : Heap) (D : NodeId → Prop) : Prop where
  heap : h' = { h with gcObjects := h'.gcObjects, inGCPool := h'.inGCPool }
  members : ∀ n ∈ h'.gcObjects, n ∈ h.gcObjects ∨ D n
  flag : (∀ n, h.inGCPool n = true → n ∈ h.gcObjects) →
    ∀ n, h'.inGCPool n = true → n ∈ h'.gcObjects

theorem Saved.refl (h : Heap) (D : NodeId → Prop) : Saved h h D where
  heap := rfl
  members _ hn := .inl hn
  flag hf := hf

theorem Saved.trans {D : NodeId → Prop} (a : Saved h m D) (b : Saved m h' D) : Saved h h' D where
  heap := by
    have hb := b.heap
    rw [a.heap] at hb
    exact hb
  members n hn := by
    rcases b.members n hn with hm | hD
    · exact a.members n hm
    · exact .inr hD
  flag hf := b.flag (a.flag hf)

theorem saved_save {D : NodeId → Prop} (hn : D n) : Saved h (h.save n) D := by
  unfold Heap.save
  split
  · exact .refl h D
  · refine ⟨rfl, fun x hx => ?_, fun hf x hx => ?_⟩
    · rcases List.mem_insert_iff.mp hx with rfl | hx
      · exact .inr hn
      · exact .inl hx
    · refine List.mem_insert_iff.mpr ?_
      rcases eq_or_ne x n with rfl | hne
      · exact .inl rfl
      · change update h.inGCPool n true x = true at hx
        rw [update_of_ne hne] at hx
        exact .inr (hf x hx)

section Traversal

variable {r : NodeId}

/-- The siblings of what is below a root are below it. -/
theorem sibling_below (w : WellFormed h ch) (hr : h.links.parent r = none)
    (hn : Above h.links.parent n r) (hs : h.nextSibling n = some x) : Above h.links.parent x r := by
  rcases above_iff_head.mp hn with rfl | ⟨q, hq, habove⟩
  · rw [Heap.nextSibling, (w.represents.detached n hr).2] at hs
    cases hs
  · have hmem := w.mem_iff.mpr hq
    obtain ⟨l₁, l₂, hsplit⟩ := List.append_of_mem hmem
    rw [Heap.nextSibling, w.represents.next_eq hsplit] at hs
    have hx : x ∈ ch q := by
      rw [hsplit]
      exact List.mem_append_right _ (List.mem_cons_of_mem _ (List.mem_of_head? hs))
    exact (Above.of_parent (w.mem_iff.mp hx)).trans habove

theorem nextAncestorSibling_below (w : WellFormed h ch) (hr : h.links.parent r = none)
    {rounds : Nat} {o : Option NodeId} (ho : ∀ q ∈ o, Above h.links.parent q r)
    (hx : NodeTraversal.nextAncestorSibling h rounds o = some (some x)) :
    Above h.links.parent x r := by
  induction rounds generalizing o with
  | zero => cases o <;> cases hx
  | succ rounds ih =>
    cases o with
    | none => cases hx
    | some q =>
      have hq := ho q rfl
      unfold NodeTraversal.nextAncestorSibling at hx
      split at hx
      · rename_i s hs
        obtain rfl := Option.some.inj (Option.some.inj hx)
        exact sibling_below w hr hq hs
      · refine ih (fun q' hq' => ?_) hx
        rcases above_iff_head.mp hq with rfl | ⟨q₁, hq₁, habove⟩
        · rw [Heap.parentNode, hr] at hq'
          cases hq'
        · obtain rfl := Option.some.inj (hq₁.symm.trans hq')
          exact habove

/-- **The traversal does not leave the tree of its root.** -/
theorem next_below (w : WellFormed h ch) (hr : h.links.parent r = none)
    (hn : Above h.links.parent n r) {fuel : Nat}
    (hx : NodeTraversal.next h fuel n = some (some x)) : Above h.links.parent x r := by
  unfold NodeTraversal.next at hx
  split at hx
  · rename_i child hchild
    obtain rfl := Option.some.inj (Option.some.inj hx)
    unfold Heap.firstChild at hchild
    split at hchild
    · rw [w.represents.first_eq] at hchild
      exact (Above.of_parent (w.mem_iff.mp (List.mem_of_head? hchild))).trans hn
    · cases hchild
  · split at hx
    · rename_i s hs
      obtain rfl := Option.some.inj (Option.some.inj hx)
      exact sibling_below w hr hn hs
    · refine nextAncestorSibling_below w hr (fun q hq => ?_) hx
      rcases above_iff_head.mp hn with rfl | ⟨q₁, hq₁, habove⟩
      · rw [Heap.parentNode, hr] at hq
        cases hq
      · obtain rfl := Option.some.inj (hq₁.symm.trans hq)
        exact habove

theorem saveTraversed_spec {D : NodeId → Prop} (hD : ∀ x, Above h.links.parent x r → D x)
    (w : WellFormed h ch) (hr : h.links.parent r = none) {rounds : Nat} {o : Option NodeId}
    (ho : ∀ q ∈ o, Above h.links.parent q r) (hs : Saved h m D)
    (hrun : saveTraversed rounds o m = some h') : Saved h h' D := by
  induction rounds generalizing o m with
  | zero =>
    cases o with
    | none =>
      obtain rfl := Option.some.inj hrun
      exact hs
    | some q => cases hrun
  | succ rounds ih =>
    cases o with
    | none =>
      obtain rfl := Option.some.inj hrun
      exact hs
    | some q =>
      have hq := ho q rfl
      obtain ⟨o', hnext, hrest⟩ := Option.bind_eq_some_iff.mp hrun
      have hs' : Saved h (m.save q) D := hs.trans (saved_save (hD q hq))
      refine ih (fun x hx => ?_) hs' hrest
      -- the links are those of the heap before the traversal
      obtain rfl : o' = some x := hx
      have w' : WellFormed (m.save q) ch := by
        rw [hs'.heap]
        exact w.congr ⟨⟨rfl, rfl, rfl, rfl⟩, rfl, rfl⟩
      have hlinks : (m.save q).links = h.links := by rw [hs'.heap]
      have hbelow := next_below w' (by rw [hlinks]; exact hr) (by rw [hlinks]; exact hq) hnext
      rw [hlinks] at hbelow
      exact hbelow

theorem preCollectGarbage_spec {D : NodeId → Prop} (hD : ∀ x, Above h.links.parent x r → D x)
    (w : WellFormed h ch) (hr : h.links.parent r = none) (hs : Saved h m D)
    (hrun : preCollectGarbage m r = some h') : Saved h h' D := by
  unfold preCollectGarbage at hrun
  split at hrun
  · refine saveTraversed_spec hD w hr (fun q hq => ?_) hs hrun
    rw [hs.heap] at hq
    have hfirst : h.links.first r = some q := hq
    rw [w.represents.first_eq] at hfirst
    exact .of_parent (w.mem_iff.mp (List.mem_of_head? hfirst))
  · obtain rfl := Option.some.inj hrun
    exact hs

end Traversal

/-- The first loop of a collection. -/
theorem preCollect_spec {D : NodeId → Prop} (w : WellFormed h ch) {rs : List NodeId}
    (hroots : ∀ r ∈ rs, h.links.parent r = none)
    (hD : ∀ r ∈ rs, ∀ x, Above h.links.parent x r → D x) (hs : Saved h m D)
    (hrun : rs.foldlM preCollectGarbage m = some h') : Saved h h' D := by
  induction rs generalizing m with
  | nil =>
    obtain rfl := Option.some.inj hrun
    exact hs
  | cons r rs ih =>
    obtain ⟨m', hfirst, hrest⟩ := Option.bind_eq_some_iff.mp hrun
    have hs' := preCollectGarbage_spec (hD r List.mem_cons_self) w
      (hroots r List.mem_cons_self) hs hfirst
    exact ih (fun r' hr' => hroots r' (List.mem_cons_of_mem _ hr'))
      (fun r' hr' => hD r' (List.mem_cons_of_mem _ hr')) hs' hrest

/-- **A collection empties the pool and deletes doomed nodes only.** -/
theorem collectGarbage_spec (k : Household h d ch) (hr : collectGarbage h = some h') :
    h' = { h with freed := h'.freed, gcObjects := [], inGCPool := fun _ => false } ∧
      ∀ n ∈ h'.freed, n ∈ h.freed ∨ Doomed h n := by
  obtain ⟨m, hpre, hm⟩ := Option.bind_eq_some_iff.mp hr
  obtain rfl := Option.some.inj hm
  have hs : Saved h m (Doomed h) := preCollect_spec k.settled.wellFormed
    (fun r hg => (k.ledger.pooled r hg).2.1) (fun r hg x hx => ⟨r, hg, hx⟩) (.refl h _) hpre
  have hflag := hs.flag fun n hn => (k.ledger.flag n).mp hn
  have hclear : (fun n => m.inGCPool n && !m.gcObjects.contains n) = fun _ => false := by
    funext n
    cases hn : m.inGCPool n with
    | false => rfl
    | true => simp [hflag n hn]
  refine ⟨?_, fun n hn => ?_⟩
  · rw [hclear, hs.heap]
  · rcases List.mem_append.mp hn with hf | hg
    · rw [hs.heap] at hf
      exact .inl hf
    · rcases hs.members n hg with hg | hd
      · exact .inr ⟨n, hg, .refl n⟩
      · exact .inr hd

/-- No node with a live wrapper is doomed. -/
def Spared (h : Heap) : Prop := ∀ n, Doomed h n → h.contextObject n = false

/-- Nothing below a document is doomed, so a collection that spares the wrappers is safe. -/
theorem Spared.collectsSafely (hs : Spared h) (k : Household h d ch) : CollectsSafely h := by
  intro h' hr n hn hnew
  obtain ⟨r, hg, habove⟩ := ((collectGarbage_spec k hr).2 n hn).resolve_left hnew
  refine ⟨hs n ⟨r, hg, habove⟩, fun e he hne => ?_⟩
  obtain ⟨hrs, hroot, hrd, -⟩ := k.ledger.pooled r hg
  -- the root of the tree of `n` is in the pool, so it is not a document
  have her : e = r := by
    rcases habove.total hne with hre | her
    · exact (hre.eq_of_root hroot).symm
    · rcases above_iff_head.mp her with rfl | ⟨y, hy, -⟩
      · rfl
      · rw [k.settled.wellFormed.document_root e (beq_iff_eq.mp he)] at hy
        cases hy
  rw [her] at he
  exact hrd (beq_iff_eq.mp he)

/-! ## The nodes behind a step -/

/-- No proper descendant of `p` has a live wrapper. -/
def UnwrappedBelow (h : Heap) (p : NodeId) : Prop :=
  ∀ x q, h.links.parent x = some q → Above h.links.parent q p → h.contextObject x = false

/-- Where new parents are all the same node `p`, what is below `r` was so before, or `p` was. -/
theorem above_of_edges
    (hedge : ∀ x q, h'.links.parent x = some q → h.links.parent x = some q ∨ q = p) {r : NodeId}
    (hn : Above h'.links.parent n r) :
    Above h.links.parent n r ∨ Above h.links.parent p r := by
  induction hn using Relation.ReflTransGen.head_induction_on with
  | refl => exact .inl (.refl r)
  | head hxy _ ih =>
    rcases ih with ha | hp
    · rcases hedge _ _ hxy with hold | rfl
      · exact .inl ((Above.of_parent hold).trans ha)
      · exact .inr ha
    · exact .inr hp

/-- **New parents with a live wrapper put nothing below the pool.** -/
theorem Spared.of_edges
    (hedge : ∀ x q, h'.links.parent x = some q → h.links.parent x = some q ∨ q = p)
    (hp : h.contextObject p = true) (hobj : h'.contextObject = h.contextObject)
    (hpool : ∀ r ∈ h'.gcObjects, ∀ x, Above h.links.parent x r → h.contextObject x = false) :
    Spared h' := by
  rintro n ⟨r, hg, hn⟩
  rw [hobj]
  rcases above_of_edges hedge hn with ha | ha
  · exact hpool r hg n ha
  · rw [hpool r hg p ha] at hp
    cases hp

/-- What is below an old node of a heap that has grown. -/
theorem above_of_grown (g : Grown h m) (w : WellFormed h ch) (hn : n < h.size) {r : NodeId}
    (ha : Above m.links.parent n r) : Above h.links.parent n r ∧ r < h.size := by
  induction ha with
  | refl => exact ⟨.refl n, hn⟩
  | tail _ hyz ih =>
    rw [g.parent _ ih.2] at hyz
    exact ⟨ih.1.trans (.of_parent hyz), (w.allocated _ _ hyz).2⟩

/-- New nodes have no wrapper. -/
theorem Spared.grown (hs : Spared h) (k : Household h d ch) (g : Grown h m) : Spared m := by
  rintro n ⟨r, hg, hn⟩
  refine Bool.eq_false_iff.mpr fun ho => ?_
  have hw := (g.contextObject n).mp ho
  obtain ⟨ha, -⟩ := above_of_grown g k.settled.wellFormed (k.wrapped n hw).1 hn
  rw [hs n ⟨r, (g.pooled r).mp hg, ha⟩] at hw
  cases hw

/-- A new node is saved. -/
theorem Spared.grown_save (hs : Spared h) (k : Household h d ch) (g : Grown h m)
    (hc : h.size ≤ c) : Spared (m.save c) := by
  have hm := hs.grown k g
  have hsaved : Saved m (m.save c) (· = c) := saved_save rfl
  rintro n ⟨r, hg, hn⟩
  rw [hsaved.heap] at hn ⊢
  rcases hsaved.members r hg with hg' | rfl
  · exact hm n ⟨r, hg', hn⟩
  · refine Bool.eq_false_iff.mpr fun ho => ?_
    have hw := (g.contextObject n).mp ho
    obtain ⟨-, hr⟩ := above_of_grown g k.settled.wellFormed (k.wrapped n hw).1 hn
    exact absurd hr (Nat.not_lt.mpr hc)

theorem UnwrappedBelow.grown (hu : UnwrappedBelow h p) (k : Household h d ch) (g : Grown h m) :
    UnwrappedBelow m p := by
  intro x q hx ha
  refine Bool.eq_false_iff.mpr fun ho => ?_
  have hw := (g.contextObject x).mp ho
  have hxs := (k.wrapped x hw).1
  rw [g.parent x hxs] at hx
  obtain ⟨ha, -⟩ := above_of_grown g k.settled.wellFormed
    (k.settled.wellFormed.allocated x q hx).2 ha
  rw [hu x q hx ha] at hw
  cases hw

/-! ## Wrappers -/

theorem push_contextObject (ho : h.contextObject n = true) :
    (push h n).contextObject = h.contextObject := by
  have hsame : update h.contextObject n true = h.contextObject := by
    rw [← ho, update_eq_self]
  unfold push
  simp only
  split <;> exact hsame

theorem push_links (h : Heap) (n : NodeId) : (push h n).links = h.links := by
  unfold push
  simp only
  split <;> rfl

theorem push_pooled (l : Ledger h) {r : NodeId} (hr : r ∈ (push h n).gcObjects) :
    r ∈ h.gcObjects ∧ r ≠ n := by
  unfold push at hr
  simp only at hr
  split at hr
  · exact ⟨List.mem_of_mem_erase hr, (l.nodup.mem_erase_iff.mp hr).1⟩
  · rename_i hpool
    refine ⟨hr, ?_⟩
    rintro rfl
    exact hpool ((l.flag r).mpr hr)

/-- **A push spares the wrappers when the node is in the pool or not below it.** -/
theorem Spared.push (hs : Spared h) (l : Ledger h) (hn : n ∈ h.gcObjects ∨ ¬ Doomed h n) :
    Spared (push h n) := by
  rintro x ⟨r, hpushed, hx⟩
  obtain ⟨hg, hne⟩ := push_pooled l hpushed
  rw [push_links] at hx
  have hxn : x ≠ n := by
    rintro rfl
    rcases hn with hpool | hd
    · exact hne (hx.eq_of_root (l.pooled x hpool).2.1).symm
    · exact hd ⟨r, hg, hx⟩
  have hobj : (Dom.push h n).contextObject x = h.contextObject x := by
    have hupdate : update h.contextObject n true x = h.contextObject x := update_of_ne hxn _ _
    unfold Dom.push
    simp only
    split <;> exact hupdate
  rw [hobj]
  exact hs x ⟨r, hg, hx⟩

/-- **A finalizer spares the wrappers when its node is not retained or nothing below it has one.** -/
theorem Spared.defaultFinalizer (hs : Spared h)
    (hn : h.contextRetained n = true → UnwrappedBelow h n) : Spared (defaultFinalizer h n) := by
  have hobj {x : NodeId} (hx : h.contextObject x = false) :
      update h.contextObject n false x = false := by
    rcases eq_or_ne x n with rfl | hne
    · exact update_self _ _ _
    · rw [update_of_ne hne]
      exact hx
  unfold Dom.defaultFinalizer
  simp only
  split
  · rename_i hret
    have hsaved : Saved _ (({ h with
      contextObject := update h.contextObject n false }.releaseFromContext n).save n) (· = n) :=
        saved_save rfl
    rintro x ⟨r, hg, hx⟩
    rw [hsaved.heap] at hx ⊢
    rcases hsaved.members r hg with hg' | rfl
    · exact hobj (hs x ⟨r, hg', hx⟩)
    · rcases above_iff_head.mp hx with rfl | ⟨q, hq, ha⟩
      · exact update_self _ _ _
      · exact hobj (hn hret x q hq ha)
  · rintro x ⟨r, hg, hx⟩
    exact hobj (hs x ⟨r, hg, hx⟩)

/-! ## Where the members of the lists go -/

theorem mem_of_mem_move {f : NodeId → List NodeId} {ref : Option NodeId} {ns : List NodeId}
    {q : NodeId} (hx : x ∈ move f p ref ns q) : x ∈ f q ∨ q = p := by
  rcases eq_or_ne q p with rfl | hq
  · exact .inr rfl
  · unfold move at hx
    simp only [update_of_ne hq] at hx
    exact .inl (mem_foldl_detach hx)

/-- Who has a list keeps one. -/
theorem mem_move_of_mem {f : NodeId → List NodeId} {ref : Option NodeId} {ns : List NodeId}
    {q : NodeId} (hx : x ∈ f q ∨ x ∈ ns) : ∃ q', x ∈ move f p ref ns q' := by
  have hspliced {cs : List NodeId} (hcs : x ∈ cs ∨ x ∈ ns) : x ∈ splice cs ref ns := by
    unfold splice
    split
    · exact List.mem_append.mpr hcs
    · rename_i r
      rw [List.append_assoc, List.mem_append, List.mem_append]
      rcases hcs with hcs | hns
      · rw [← List.takeWhile_append_dropWhile (p := (· ≠ r)) (l := cs), List.mem_append] at hcs
        exact hcs.imp id .inr
      · exact .inr (.inl hns)
  unfold move
  by_cases hns : x ∈ ns
  · exact ⟨p, by simp only [update_self]; exact hspliced (.inr hns)⟩
  · have hkeep : x ∈ ns.foldl detach f q := mem_foldl_detach_of_ne (hx.resolve_right hns) hns
    rcases eq_or_ne q p with rfl | hq
    · exact ⟨q, by simp only [update_self]; exact hspliced (.inl hkeep)⟩
    · exact ⟨q, by simp only [update_of_ne hq]; exact hkeep⟩

/-! ## The mutators -/

section Mutators

variable {r : Result}

/-- **A mutator whose new lists only grow at `p` spares the wrappers.** -/
theorem Spared.mutator (hs : Spared h) (k : Household h d ch) {ch' : NodeId → List NodeId}
    {o : Option Result} (href : Refines h d ch' o) (ho : o = some r) (hh : Handover h r.heap)
    (hp : h.contextObject p = true)
    (hedge : ∀ x q, x ∈ ch' q → x ∈ ch q ∨ q = p)
    (hkeep : ∀ x q, x ∈ ch q → (∃ q', x ∈ ch' q') ∨ (q = p ∧ UnwrappedBelow h p)) :
    Spared r.heap := by
  obtain ⟨r', hr', hok, herr⟩ := href
  obtain rfl := Option.some.inj (ho.symm.trans hr')
  by_cases he : r.exception = none
  · have w' := (hok he).wellFormed
    refine Spared.of_edges (p := p) (fun x q hx => ?_) hp hh.contextObject fun t ht x hx => ?_
    · exact (hedge x q (w'.mem_iff.mpr hx)).imp k.settled.wellFormed.mem_iff.mp id
    · obtain ⟨hroot, hg | hparent⟩ := (hh.pooled t).mp ht
      · exact hs x ⟨t, hg, hx⟩
      · obtain ⟨q, hq⟩ := Option.ne_none_iff_exists'.mp hparent
        rcases hkeep t q (k.settled.wellFormed.mem_iff.mpr hq) with ⟨q', hq'⟩ | ⟨rfl, hu⟩
        · rw [w'.mem_iff.mp hq'] at hroot
          cases hroot
        · rcases above_iff_head.mp hx with rfl | ⟨y, hy, ha⟩
          · exact hu _ _ hq (.refl _)
          · exact hu x y hy (ha.trans (.of_parent hq))
  · rw [herr he]
    exact hs

theorem Spared.appendChild (hs : Spared h) (k : Household h d ch) (hp : p < h.size)
    (hn : n < h.size) (hw : h.contextObject p = true)
    (hr : Node.appendChild h h.bound p n = some r) : Spared r.heap :=
  hs.mutator k (appendChild_refines k.settled (Heap.size_lt_bound h) hp hn) hr
    (handover_nodeAppendChild k.settled.wellFormed k.ledger k.fragments
      (Heap.size_lt_bound h) hp hn hr) hw (fun _ _ => mem_of_mem_move)
    fun _ _ hx => .inl (mem_move_of_mem (.inl hx))

theorem Spared.insertBefore {ref : Option NodeId} (hs : Spared h) (k : Household h d ch)
    (hp : p < h.size) (hn : n < h.size) (hw : h.contextObject p = true)
    (hr : Node.insertBefore h h.bound p n ref = some r) : Spared r.heap := by
  have hh := handover_insertBefore k.settled.wellFormed k.ledger k.fragments
    (Heap.size_lt_bound h) hp hn hr
  cases ref with
  | none =>
    exact hs.mutator k (appendChild_refines k.settled (Heap.size_lt_bound h) hp hn) hr hh hw
      (fun _ _ => mem_of_mem_move) fun _ _ hx => .inl (mem_move_of_mem (.inl hx))
  | some ref =>
    exact hs.mutator k (insertBefore_refines k.settled (Heap.size_lt_bound h) hp hn) hr hh hw
      (fun _ _ => mem_of_mem_move) fun _ _ hx => .inl (mem_move_of_mem (.inl hx))

theorem Spared.removeChildren (hs : Spared h) (k : Household h d ch) (hp : p < h.size)
    (hw : h.contextObject p = true) (hu : UnwrappedBelow h p)
    (hr : ContainerNode.removeChildren h h.bound p = some h') : Spared h' := by
  have hrel := released_removeChildren k.settled.wellFormed k.ledger (Heap.size_lt_bound h) hr
  refine hs.mutator (r := ⟨h', none, none⟩) k
    (removeChildren_refines k.settled (Heap.size_lt_bound h) hp) ?_ hrel.handover hw
    (fun x q hx => ?_) fun x q hx => ?_
  · simp [Call.exec, hr]
  · rcases eq_or_ne q p with rfl | hq
    · exact .inr rfl
    · unfold specRemoveChildren at hx
      rw [update_of_ne hq] at hx
      exact .inl hx
  · rcases eq_or_ne q p with rfl | hq
    · exact .inr ⟨rfl, hu⟩
    · refine .inl ⟨q, ?_⟩
      unfold specRemoveChildren
      rw [update_of_ne hq]
      exact hx

/-- The replaced child is a child of `p`. -/
theorem Spared.replaceChild {old : NodeId} (hs : Spared h) (k : Household h d ch)
    (hp : p < h.size) (hn : n < h.size) (hcont : h.isContainerNode p = true)
    (hw : h.contextObject p = true) (hu : UnwrappedBelow h p)
    (hold : h.links.parent old = some p) (hfrag : h.isDocumentFragment n = true)
    (hr : ContainerNode.replaceChild h h.bound p n (some old) = some r) : Spared r.heap := by
  refine hs.mutator k (replaceChild_refines k.settled (Heap.size_lt_bound h) hp hn hcont) hr
    (handover_replaceChild k.settled.wellFormed k.settled.versions k.ledger k.fragments
      (Heap.size_lt_bound h) hp hn hcont hr) hw (fun x q hx => ?_) fun x q hx => ?_
  · exact (mem_of_mem_move hx).imp (fun hx =>
      List.mem_of_mem_erase (List.mem_of_mem_erase hx)) id
  · have hxn : x ≠ n := by
      rintro rfl
      have hparent := k.settled.wellFormed.mem_iff.mp hx
      rw [k.fragments x hfrag] at hparent
      cases hparent
    by_cases hxo : x = old
    · rw [hxo] at hx
      have hq := (k.settled.wellFormed.mem_iff.mp hx).symm.trans hold
      exact .inr ⟨Option.some.inj hq, hu⟩
    · refine .inl (mem_move_of_mem (q := q) (.inl ?_))
      exact (List.mem_erase_of_ne hxo).mpr ((List.mem_erase_of_ne hxn).mpr hx)

end Mutators

/-! ## The setters -/

/-- **The children of `p` go into the pool, those of a fragment come below `p`.** -/
theorem Spared.replaceChildrenWithFragment {fragment : NodeId} (hs : Spared h)
    (k : Household h d ch) (hp : p < h.size) (hcont : h.isContainerNode p = true)
    (hw : h.contextObject p = true) (hu : UnwrappedBelow h p) (hf : fragment < h.size)
    (hfrag : h.isDocumentFragment fragment = true)
    (hr : replaceChildrenWithFragment h p fragment = some h') : Spared h' := by
  have hrefill {o : Option Heap} (ho : o = some h')
      (heq : o = (do
        let h ← ContainerNode.removeChildren h h.bound p
        (Node.appendChild h h.bound p fragment).map (·.heap))) : Spared h' := by
    obtain ⟨m, hrem, happ⟩ := Option.bind_eq_some_iff.mp (heq.symm.trans ho)
    obtain ⟨r, hexec, rfl⟩ := Option.map_eq_some_iff.mp happ
    obtain ⟨m', hrem', hrel, ch₁, k₁⟩ := k.removeChildren hp
    obtain rfl := Option.some.inj (hrem.symm.trans hrem')
    exact (hs.removeChildren k hp hw hu hrem).appendChild k₁ (hrel.size ▸ hp) (hrel.size ▸ hf)
      (hrel.contextObject ▸ hw) hexec
  unfold Dom.replaceChildrenWithFragment at hr
  split at hr
  · exact hs.removeChildren k hp hw hu hr
  · split at hr
    · rename_i child hchild
      split at hr
      · obtain ⟨r, hrep, rfl⟩ := Option.map_eq_some_iff.mp hr
        have hparent : h.links.parent child = some p := by
          unfold Heap.firstChild at hchild
          rw [if_pos hcont, k.settled.wellFormed.represents.first_eq] at hchild
          exact k.settled.wellFormed.mem_iff.mp (List.mem_of_head? hchild)
        exact hs.replaceChild k hp hf hcont hw hu hparent hfrag hrep
      · exact hrefill hr rfl
    · exact hrefill hr rfl

theorem Spared.setTextContent {text : String} (hs : Spared h) (k : Household h d ch)
    (hw : h.contextObject p = true) (hu : text.isEmpty = true → UnwrappedBelow h p)
    (hr : setTextContent h p text = some h') : Spared h' := by
  unfold Dom.setTextContent at hr
  split at hr
  · rename_i hempty
    exact hs.removeChildren k (k.wrapped p hw).1 hw (hu hempty) hr
  · obtain rfl := Option.some.inj hr
    exact hs

theorem Spared.setInnerHTML {html : String} {content : Markup} (hs : Spared h)
    (k : Household h d ch) (hw : h.contextObject p = true) (helem : h.isElementNode p = true)
    (hu : UnwrappedBelow h p) (hr : setInnerHTML h p html content = some h') : Spared h' := by
  unfold Dom.setInnerHTML at hr
  split at hr
  · exact hs.setTextContent k hw (fun _ => hu) hr
  · have hp := (k.wrapped p hw).1
    obtain ⟨m, hparse, hrep⟩ := Option.bind_eq_some_iff.mp hr
    obtain ⟨m', hparse', ⟨ch₁, k₁⟩, g, hlt, hfrag, -⟩ := k.parsed content
    rw [k.settled.singleDocument p hp] at hparse
    obtain rfl := Option.some.inj (hparse.symm.trans hparse')
    have hcont : m.isContainerNode p = true := by
      simp only [Heap.isElementNode, Heap.isContainerNode] at helem ⊢
      rw [g.nodeType p hp, helem]
      rfl
    exact (hs.grown k g).replaceChildrenWithFragment k₁ (hp.trans_le g.size) hcont
      ((g.contextObject p).mpr hw) (hu.grown k g) hlt hfrag hrep

/-! ## Calls -/

/-- The result of a method is pushed. -/
theorem Spared.pushResult {r : Result} (hs : Spared r.heap) (l : Ledger r.heap)
    (hw : ∀ x ∈ r.node, r.heap.contextObject x = true) : Spared (pushResult r) := by
  unfold Dom.pushResult
  split
  · rename_i x _ hx
    refine hs.push l (.inr fun hd => ?_)
    have hw := hw x hx
    rw [hs x hd] at hw
    cases hw
  · exact hs

/-- **What a removed node holds goes where the push of the binding puts it.** -/
theorem Spared.removeChild {r : Result} (hs : Spared h) (k : Household h d ch) (hp : p < h.size)
    {c : NodeId} (hw : h.contextObject c = true)
    (hr : Node.removeChild h h.bound p (some c) = some r) : Spared (Dom.pushResult r) := by
  obtain ⟨r', hr', hok, herr⟩ := removeChild_refines (c := c) k.settled (Heap.size_lt_bound h) hp
  obtain rfl := Option.some.inj (hr.symm.trans hr')
  have hrel := handover_removeChild k.settled.wellFormed k.ledger (Heap.size_lt_bound h) hr
  have hpushes := removeChild_node hr
  unfold Dom.pushResult
  split
  · rename_i x he hx
    obtain rfl : x = c := by
      rcases hpushes with hnode | hnode
      · rw [hx] at hnode
        exact Option.some.inj hnode
      · rw [hx] at hnode
        cases hnode
    rintro y ⟨t, ht, hy⟩
    obtain ⟨hpool, hne⟩ := push_pooled hrel.ledger ht
    rw [push_contextObject (by rw [hrel.contextObject]; exact hw), hrel.contextObject]
    rw [push_links] at hy
    have hold : Above h.links.parent y t :=
      Relation.ReflTransGen.mono (fun a b hab => hrel.parent a b hab) _ _ hy
    rcases (hrel.pooled t).mp hpool with hg | ⟨hparent, hroot⟩
    · exact hs y ⟨t, hg, hold⟩
    · -- only `c` has lost its parent
      obtain ⟨q, hq⟩ := Option.ne_none_iff_exists'.mp hparent
      have w' := (hok he).wellFormed
      have hmem : t ∈ detach ch x q :=
        (List.mem_erase_of_ne hne).mpr (k.settled.wellFormed.mem_iff.mpr hq)
      rw [w'.mem_iff.mp hmem] at hroot
      cases hroot
  · rename_i hnone
    have hexc : r.exception ≠ none := fun he => by
      have hnode := removeChild_pushes hr he
      exact hnone c he hnode
    rw [herr hexc]
    exact hs

namespace ScriptCall

/-- The calls that put no node with a live wrapper below the pool. -/
def SparesWrappers (h : Heap) : ScriptCall → Prop
  | push n => n ∈ h.gcObjects ∨ ¬ Doomed h n
  | setTextContent p text => text.isEmpty = true → UnwrappedBelow h p
  | setInnerHTML p _ _ => UnwrappedBelow h p
  | finalize n => h.contextRetained n = true → UnwrappedBelow h n
  | _ => True

end ScriptCall

/-- **A call that spares the wrappers.** -/
theorem Spared.call (hs : Spared h) (k : Household h d ch) {c : ScriptCall} (hc : c.Callable h)
    (hspares : c.SparesWrappers h) (hr : c.exec h = some h') : Spared h' := by
  have hsize {n : NodeId} (hn : h.contextObject n = true) : n < h.size := (k.wrapped n hn).1
  cases c with
  | createElement e name =>
    obtain rfl := k.eq_document hc
    obtain rfl := Option.some.inj hr
    exact hs.grown_save k (k.createNode name (by decide) (by simp [Kind])).2 (Nat.le_refl _)
  | createDocumentFragment e =>
    obtain rfl := k.eq_document hc
    obtain rfl := Option.some.inj hr
    exact hs.grown_save k (k.createNode "#document-fragment" (by decide) (by simp [Kind])).2
      (Nat.le_refl _)
  | cloneNode n deep =>
    rcases k.cloneNode_spec (hsize hc) hr with rfl | ⟨m, c, b, rfl⟩
    · exact hs
    · exact hs.grown_save k b.toGrown b.fresh
  | push n =>
    obtain rfl := Option.some.inj hr
    exact hs.push k.ledger hspares
  | appendChild p n =>
    obtain ⟨r, happ, rfl⟩ := Option.map_eq_some_iff.mp hr
    obtain ⟨r', happ', hh, hk⟩ := k.appendChild (hsize hc.1) (hsize hc.2)
    obtain rfl := Option.some.inj (happ.symm.trans happ')
    refine (hs.appendChild k (hsize hc.1) (hsize hc.2) hc.1 happ).pushResult hh.ledger
      fun x hx => ?_
    rw [hh.contextObject]
    rcases appendChild_node happ with he | he
    · rw [he] at hx
      obtain rfl := Option.some.inj hx
      exact hc.2
    · rw [he] at hx
      cases hx
  | insertBefore p n ref =>
    obtain ⟨r, hins, rfl⟩ := Option.map_eq_some_iff.mp hr
    have hh := handover_insertBefore k.settled.wellFormed k.ledger k.fragments
      (Heap.size_lt_bound h) (hsize hc.1) (hsize hc.2.1) hins
    refine (hs.insertBefore k (hsize hc.1) (hsize hc.2.1) hc.1 hins).pushResult hh.ledger
      fun x hx => ?_
    rw [hh.contextObject]
    rcases insertBefore_node hins with he | he
    · rw [he] at hx
      obtain rfl := Option.some.inj hx
      exact hc.2.1
    · rw [he] at hx
      cases hx
  | removeChild p child =>
    obtain ⟨r, hrem, rfl⟩ := Option.map_eq_some_iff.mp hr
    cases child with
    | none =>
      have hheap := removeChild_none hrem
      refine Spared.pushResult (by rw [hheap]; exact hs) (by rw [hheap]; exact k.ledger)
        fun x hx => ?_
      rcases removeChild_node hrem with he | he <;>
      · rw [he] at hx
        cases hx
    | some c => exact hs.removeChild k (hsize hc.1) (hc.2 c rfl) hrem
  | setTextContent p text => exact hs.setTextContent k hc.1 hspares hr
  | setInnerHTML p html content => exact hs.setInnerHTML k hc.1 hc.2 hspares hr
  | finalize n =>
    obtain rfl := Option.some.inj hr
    exact hs.defaultFinalizer hspares

/-! ## Every run -/

/-- A collection is harmless; a call must spare the wrappers if it can be made. -/
def Action.SparesWrappers (h : Heap) : Action → Prop
  | .call c => c.Callable h → c.SparesWrappers h
  | .collectGarbage => True

/-- What every allowed action keeps. -/
def Sparing (d : NodeId) (h : Heap) : Prop := (∃ ch, Household h d ch) ∧ Spared h

/-- A collection that spares the wrappers leaves a heap with an empty pool. -/
theorem Sparing.collect (hs : Sparing d h) (hr : collectGarbage h = some h') : Sparing d h' := by
  obtain ⟨⟨ch, k⟩, hspared⟩ := hs
  obtain ⟨heq, hfreed⟩ := collectGarbage_spec k hr
  rw [heq]
  refine ⟨⟨ch, k.document, ⟨k.settled.wellFormed.congr ⟨⟨rfl, rfl, rfl, rfl⟩, rfl, rfl⟩,
    k.settled.singleDocument, k.settled.versions, k.settled.current⟩,
    ⟨fun _ hg => (nomatch hg), fun n => ?_, List.nodup_nil, k.ledger.retained⟩, k.fragments,
    k.kinds, fun n hn => ⟨(k.wrapped n hn).1, fun hf => ?_⟩⟩, ?_⟩
  · exact iff_of_false Bool.false_ne_true List.not_mem_nil
  · rcases hfreed n hf with hold | hd
    · exact (k.wrapped n hn).2 hold
    · rw [hspared n hd] at hn
      cases hn
  · rintro n ⟨r, hg, -⟩
    cases hg

theorem Sparing.step {a : Action} (hs : Sparing d h) (ha : a.SparesWrappers h) :
    After (Sparing d) True (a.step h) := by
  cases a with
  | call c =>
    obtain ⟨⟨ch, k⟩, hspared⟩ := id hs
    have hcases := c.step_cases h
    unfold ScriptCall.step at hcases
    rcases hcases with ⟨hc, hstep⟩ | ⟨hc, h', hexec, hstep⟩ | ⟨hc, hexec, hstep⟩
    · rw [hstep]
      exact hs
    · rw [hstep]
      exact ⟨k.call hc hexec, hspared.call k hc (ha hc) hexec⟩
    · rw [hstep]
      trivial
  | collectGarbage =>
    unfold Action.step Action.exec
    cases hr : collectGarbage h with
    | none => trivial
    | some h' => exact hs.collect hr

theorem sparing_freshDocument : Sparing 0 freshDocument :=
  ⟨⟨_, household_freshDocument⟩, fun _ ⟨_, hg, _⟩ => nomatch hg⟩

/-- **In a run whose calls put no node with a live wrapper below the pool, no collection deletes a
node that has a live wrapper or is below a document.** -/
theorem collects_safely {actions : List Action}
    (hallowed : Allowed Action.step Action.SparesWrappers freshDocument actions) :
    Always Action.step CollectsSafely True freshDocument actions := by
  refine always_of_allowed (I := Sparing 0) ?_ (fun h a hs ha => hs.step ha)
    sparing_freshDocument hallowed
  rintro h ⟨⟨ch, k⟩, hspared⟩
  exact hspared.collectsSafely k

/-- A `div` with a `p` below it loses both wrappers, the one of the `p` first, and the two are
deleted; a `span` keeps its wrapper. -/
theorem collects_safely_family : Always Action.step CollectsSafely True freshDocument
    [.call (.createElement 0 "div"), .call (.push 1), .call (.createElement 0 "p"),
      .call (.push 2), .call (.createElement 0 "span"), .call (.push 3),
      .call (.appendChild 1 2), .call (.finalize 2), .call (.finalize 1), .collectGarbage] := by
  refine collects_safely ⟨fun _ => trivial, fun _ => .inl (by decide), fun _ => trivial,
    fun _ => .inl (by decide), fun _ => trivial, fun _ => .inl (by decide), fun _ => trivial,
    fun _ hr => absurd hr (by decide), fun _ _ x q hx _ => ?_, trivial, trivial⟩
  have hp : (update Links.empty.parent 2 (some 1) : NodeId → Option NodeId) x = some q := hx
  obtain rfl : x = 2 := by
    by_contra hne
    rw [update_of_ne hne] at hp
    cases hp
  decide

/-- **A collection deletes a node with a live wrapper**: a child whose parent has been emptied by
`textContent`, and a child whose parent has lost its wrapper. -/
theorem collectGarbage_deletes_wrapped :
    ¬ Always Action.step CollectsSafely True freshDocument
      [.call (.createElement 0 "div"), .call (.push 1), .call (.createElement 0 "p"),
        .call (.push 2), .call (.appendChild 1 2), .call (.setTextContent 1 ""),
        .collectGarbage] ∧
    ¬ Always Action.step CollectsSafely True freshDocument
      [.call (.createElement 0 "div"), .call (.push 1), .call (.createElement 0 "p"),
        .call (.push 2), .call (.appendChild 1 2), .call (.finalize 1), .collectGarbage] := by
  constructor
  · intro h
    have hsafe := h.2.2.2.2.2.2.1 _ rfl 2 (by decide) (by decide)
    exact absurd hsafe.1 (by decide)
  · intro h
    have hsafe := h.2.2.2.2.2.2.1 _ rfl 2 (by decide) (by decide)
    exact absurd hsafe.1 (by decide)

end Blinkit.Dom
