import Blinkit.Dom.Calls

/-!
# Insertions among several documents

The tree version of a document is drawn from a counter that all documents share, and moving a node
between documents leaves it in its old scope. A detector may therefore object to an insertion that
nothing has interfered with, and the second check it asks for always fails.

* `Reachable h` — a run of calls, on any number of documents, leads to `h`.
* `Place` — where an insertion puts its node; `Place.call` and `Place.validity` are the method
  and its checks.
* `Kept` — the nodes are where the call asks for them, or an exception is set and nothing changed.
* `Place.Calm` — no detector objects to the call.

Principal results: `reachable_wellFormed` and `insertion_kept_iff`: an insertion that passes its
checks keeps its nodes exactly when no detector objects and the node is not above the new parent.
-/

set_option autoImplicit false

namespace Blinkit.Dom

open LinkedForest ChildLists Function Transition

variable {h h' h₁ : Heap} {ch ch' : NodeId → List NodeId} {p n c : NodeId} {fuel : Nat}

/-! ## Insertions above the container -/

/-- Detaching nodes cuts their links and no others. -/
theorem parent_of_foldl_detach {ts : List NodeId} (w : WellFormed h ch)
    (w₁ : WellFormed h₁ (ts.foldl detach ch)) (x : NodeId) :
    h₁.links.parent x = if x ∈ ts then none else h.links.parent x := by
  by_cases hx : x ∈ ts
  · rw [if_pos hx]
    cases hq : h₁.links.parent x with
    | none => rfl
    | some q => exact absurd (w₁.mem_iff.mpr hq) (not_mem_foldl_detach (w.represents.nodup q) hx)
  · rw [if_neg hx]
    refine Option.ext fun q => ?_
    rw [← w₁.mem_iff, ← w.mem_iff]
    exact ⟨mem_foldl_detach, fun hm => mem_foldl_detach_of_ne hm hx⟩

/-- A chain of ancestors stays when only its top is detached. -/
theorem above_keep {ts : List NodeId} {x t : NodeId} (w : WellFormed h ch)
    (w₁ : WellFormed h₁ (ts.foldl detach ch)) (habove : Above h.links.parent x t)
    (hts : ∀ z, Above h.links.parent x z → Above h.links.parent z t → z ≠ t → z ∉ ts) :
    Above h₁.links.parent x t := by
  induction habove using Relation.ReflTransGen.head_induction_on with
  | refl => exact .refl t
  | @head a b hab hbt ih =>
    have hat : a ≠ t := by
      rintro rfl
      exact w.acyclic a b hab hbt
    have ha : a ∉ ts := hts a (.refl a) ((Above.of_parent hab).trans hbt) hat
    refine Above.trans (.of_parent ?_) (ih fun z hz => hts z ((Above.of_parent hab).trans hz))
    rw [parent_of_foldl_detach w w₁, if_neg ha]
    exact hab

/-- Above the container stands one of the nodes to be inserted. -/
theorem exists_collected_above (w : WellFormed h ch) (hne : p ≠ n)
    (habove : Above h.links.parent p n) :
    ∃ t ∈ collected h ch n, Above h.links.parent p t ∧
      ∀ z, Above h.links.parent z t → z ≠ t → z ∉ collected h ch n := by
  unfold collected targets
  split
  · obtain ⟨t, hpt, ht⟩ := (above_iff_tail.mp habove).resolve_left hne
    refine ⟨t, w.mem_iff.mpr ht, hpt, fun z hzt hne hz => ?_⟩
    rw [w.mem_iff] at hz
    rcases above_iff_head.mp hzt with he | ⟨y, hy, hyt⟩
    · exact hne he
    · cases hz.symm.trans hy
      exact w.acyclic t n ht hyt
  · exact ⟨n, by simp, habove, fun z _ hne => by simpa using hne⟩

/-- Telling a subtree never ends once it contains its own root. -/
theorem notify_above {h' : Heap} {t : NodeId} (w : WellFormed h ch) (hfuel : h.size < fuel)
    (hts : t < h.size) (htroot : h.links.parent t = none) (ht : Above h.links.parent p t)
    (hrep : Represents h'.links ch') (hparent : h'.links.parent = update h.links.parent t (some p)) :
    h'.notifyNodeInsertedInternal fuel p t = none := by
  have halloc : ∀ x y, h'.links.parent x = some y → x < h.size := by
    intro x y hxy
    rw [hparent] at hxy
    by_cases hxt : x = t
    · rw [hxt]; exact hts
    · exact (w.allocated x y (by simpa [hxt] using hxy)).1
  refine notifyNodeInsertedInternal_eq_none hrep (fun r => ?_) (q := p) ?_ ?_
  · exact (length_le_of_allocated hrep halloc r).trans (Nat.le_of_lt hfuel)
  · rw [hparent, update_self]
  · exact hparent ▸ ht.of_attach htroot

/-- **`InsertNodeVector` does not return when a node is above the container.** -/
theorem insertNodeVector_above {next : Option NodeId} {ts : List NodeId} (w : WellFormed h ch)
    (hfuel : h.size < fuel) (hps : p < h.size) (hcont : h.isContainerNode p = true)
    (hts : ∀ t ∈ ts, t < h.size ∧ h.links.parent t = none ∧ h.document t ≠ t) (hnd : ts.Nodup)
    (hnext : ∀ r, next = some r → r ∈ ch p) (habove : ∃ t ∈ ts, Above h.links.parent p t) :
    ContainerNode.insertNodeVector fuel p next ts h = none := by
  induction ts generalizing h ch with
  | nil => obtain ⟨t, ht, -⟩ := habove; cases ht
  | cons t ts ih =>
    obtain ⟨hts', htroot, htdoc⟩ := hts t (by simp)
    by_cases ht : Above h.links.parent p t
    · -- the links are written, and the subtree of `t` now contains `t`
      obtain ⟨l, ch', hlinks, hrep, hparent⟩ : ∃ l ch',
          (ContainerNode.mutator h p t next).links = l ∧ Represents l ch' ∧
          l.parent = update h.links.parent t (some p) := by
        cases next with
        | none => exact ⟨_, _, rfl, w.represents.append htroot, h.links.append_parent p t⟩
        | some r =>
          obtain ⟨l₁, l₂, hs, -⟩ := List.eq_append_cons_of_mem (hnext r rfl)
          exact ⟨_, _, rfl, w.represents.insertBefore htroot hs,
            h.links.insertBefore_parent p r t⟩
      have hnotify := notify_above w hfuel hts' htroot ht (hlinks ▸ hrep) (hlinks ▸ hparent)
      simp [ContainerNode.insertNodeVector, hnotify]
    · have hins : Insertable h p t := ⟨hts', htroot, htdoc, ht⟩
      obtain ⟨h₁, hstep, w₁, s₁, hp₁⟩ : ∃ h₁,
          (ContainerNode.mutator h p t next).notifyNodeInsertedInternal fuel p t = some h₁ ∧
          WellFormed h₁ (update ch p (splice (ch p) next [t])) ∧ SameNodes h h₁ ∧
          h₁.links.parent = update h.links.parent t (some p) := by
        cases next with
        | none =>
          obtain ⟨h₁, e₁, w₁, s₁, -, hp₁⟩ :=
            adoptAndAppendChild_spec w hfuel true hps hcont hins
          exact ⟨h₁, e₁, w₁, s₁, hp₁⟩
        | some r =>
          obtain ⟨l₁, l₂, hs, hr₁⟩ := List.eq_append_cons_of_mem (hnext r rfl)
          obtain ⟨h₁, e₁, w₁, s₁, -, hp₁⟩ := adoptAndInsertBefore_spec w hfuel hps hcont hins hs
          refine ⟨h₁, e₁, ?_, s₁, hp₁⟩
          rw [hs, splice_some hr₁, List.append_assoc]
          exact w₁
      have hnext₁ : ∀ r, next = some r → r ∈ update ch p (splice (ch p) next [t]) p := by
        intro r hr
        obtain ⟨l₁, l₂, hs, hr₁⟩ := List.eq_append_cons_of_mem (hnext r hr)
        rw [update_self, hr, hs, splice_some hr₁]
        simp
      have hrest := ih w₁ (by rw [s₁.size]; exact hfuel) (by rw [s₁.size]; exact hps)
        (by rw [s₁.isContainerNode]; exact hcont) (fun u hu => ?_) (List.nodup_cons.mp hnd).2
        hnext₁ ?_
      · simp [ContainerNode.insertNodeVector, hstep, hrest]
      · have hut : u ≠ t := ne_of_mem_of_not_mem hu (List.nodup_cons.mp hnd).1
        obtain ⟨hus, huroot, hudoc⟩ := hts u (by simp [hu])
        rw [s₁.size, s₁.document, hp₁, update_of_ne hut]
        exact ⟨hus, huroot, hudoc⟩
      · obtain ⟨u, hu, hpu⟩ := habove
        rcases List.mem_cons.mp hu with rfl | hu
        · exact absurd hpu ht
        · exact ⟨u, hu, by rw [hp₁, above_attach htroot ht]; exact .inl hpu⟩

theorem mem_splice {cs ns : List NodeId} {next : Option NodeId} {t : NodeId} (ht : t ∈ ns) :
    t ∈ splice cs next ns := by
  cases next <;> simp [splice, ht]

/-- The nodes are where the call asks for them, or an exception is set and nothing changed. -/
def Kept (h : Heap) (ch' : NodeId → List NodeId) (o : Option Result) : Prop :=
  ∃ r, o = some r ∧ ((r.exception = none ∧ Represents r.heap.links ch') ∨
    (r.exception ≠ none ∧ r.heap = h))

/-- Nodes that are left detached are not where the call asks for them. -/
theorem not_kept_of_lost {h₀ : Heap} {next ret : Option NodeId} {ns : List NodeId} (hne : ns ≠ [])
    (w : WellFormed h ch) (w' : WellFormed h' (ns.foldl detach ch)) :
    ¬ Kept h₀ (move ch p next ns) (some ⟨h', ret, none⟩) := by
  rintro ⟨r, hr, ⟨-, hrep⟩ | ⟨hexc, -⟩⟩
  · obtain rfl := Option.some.inj hr
    obtain ⟨t, ht⟩ := List.exists_mem_of_ne_nil ns hne
    have hmem : t ∈ move ch p next ns p := by
      simp only [move, update_self]
      exact mem_splice ht
    have heq : move ch p next ns = ns.foldl detach ch := hrep.unique w'.represents
    rw [heq] at hmem
    exact not_mem_foldl_detach (w.represents.nodup p) ht hmem
  · obtain rfl := Option.some.inj hr
    exact hexc rfl

/-! ## Behind the checks -/

/-- No detector objects, and the node is not above the new parent. -/
structure Unopposed (h : Heap) (p n : NodeId) : Prop where
  notAbove : ¬ Above h.links.parent p n
  undisturbed : ∀ o, removalOwner h n = some o → Undisturbed h n p o

/-- The insertion does not return, or it leaves its nodes detached. -/
def Lost (h : Heap) (ch : NodeId → List NodeId) (n ret : NodeId) (o : Option Result) : Prop :=
  o = none ∨ ∃ h', o = some ⟨h', some ret, none⟩ ∧
    WellFormed h' ((collected h ch n).foldl detach ch) ∧ SameNodes h h' ∧ VersionsBounded h'

/-- **Above the container the insertion does not return, or it loses its nodes.** -/
theorem insertChecked_above {next : Option NodeId} (ret : NodeId) (flag : Bool)
    (w : WellFormed h ch) (v : VersionsBounded h) (hfuel : h.size < fuel)
    (k : Checked h ch p n next) (habove : Above h.links.parent p n) :
    Lost h ch n ret (ContainerNode.insertChecked h fuel p n next ret flag) := by
  obtain ⟨t, ht, hpt, hkeep⟩ := exists_collected_above w k.notSelf habove
  have hcol : collected h ch n ≠ [] := List.ne_nil_of_mem ht
  by_cases hdist : flag = true ∨ ∃ o, removalOwner h n = some o ∧ ¬ Undisturbed h n p o
  · exact .inr (insertChecked_lost ret w v hfuel hcol hdist)
  · refine .inl ?_
    rw [not_or, not_exists] at hdist
    obtain ⟨hflag, hund⟩ := hdist
    obtain ⟨h₁, hcoll, w₁, s₁, hsame, hbump⟩ := collect_spec w hfuel n
    have hdet : (DOMTreeMutationDetector.create h n p).needsRecheck h₁ = true := by
      cases ho : removalOwner h n with
      | none => rw [hsame ho]; exact needsRecheck_same h n p
      | some o =>
        refine (needsRecheck_bumped v s₁ (hbump o ho)).mpr ?_
        exact Classical.not_not.mp fun hn => hund o ⟨ho, hn⟩
    have hnone : ContainerNode.insertNodeVector fuel p next (collected h ch n) h₁ = none :=
      insertNodeVector_above w₁ (by rw [s₁.size]; exact hfuel)
        (by rw [s₁.size]; exact k.parent_allocated)
        (by rw [s₁.isContainerNode]; exact k.container)
        (detached_collected w k.node_allocated k.notDocument w₁ s₁) (collected_nodup w n)
        (fun r hr => mem_foldl_detach_of_ne (k.next_mem r hr).1
          (reference_not_collected w k.notSelf (k.next_mem r hr).1 (k.next_mem r hr).2))
        ⟨t, ht, above_keep w w₁ hpt fun z _ => hkeep z⟩
    simp [ContainerNode.insertChecked, hcoll, ContainerNode.Collected.proceed, hcol, hdet, hflag,
      hnone]

/-- **Behind the checks an insertion moves its nodes or loses them.** -/
theorem insertChecked_outcome {next : Option NodeId} (ret : NodeId) (flag : Bool)
    (w : WellFormed h ch) (v : VersionsBounded h) (hfuel : h.size < fuel)
    (k : Checked h ch p n next) :
    ((collected h ch n = [] ∨ (flag = false ∧ Unopposed h p n)) ∧
      ∃ h', ContainerNode.insertChecked h fuel p n next ret flag = some ⟨h', some ret, none⟩ ∧
        Inserted h h' (move ch p next (collected h ch n)) p) ∨
    ((collected h ch n ≠ [] ∧ (flag = true ∨ ¬ Unopposed h p n)) ∧
      Lost h ch n ret (ContainerNode.insertChecked h fuel p n next ret flag)) := by
  have hins (habove : ¬ Above h.links.parent p n) : Insertion h ch p n next :=
    ⟨k, habove⟩
  by_cases hnil : collected h ch n = []
  · have habove : ¬ Above h.links.parent p n := fun ha => by
      obtain ⟨t, ht, -⟩ := exists_collected_above w k.notSelf ha
      simp [hnil] at ht
    refine .inl ⟨.inl hnil, insertChecked_spec ret w v hfuel (hins habove) (.inr hnil) ?_⟩
    intro o ho
    rw [removalOwner_none_of_nil w hnil] at ho
    cases ho
  by_cases habove : Above h.links.parent p n
  · exact .inr ⟨⟨hnil, .inr fun u => u.notAbove habove⟩,
      insertChecked_above ret flag w v hfuel k habove⟩
  by_cases hdist : flag = true ∨ ∃ o, removalOwner h n = some o ∧ ¬ Undisturbed h n p o
  · refine .inr ⟨⟨hnil, hdist.imp id ?_⟩, .inr (insertChecked_lost ret w v hfuel hnil hdist)⟩
    rintro ⟨o, ho, hund⟩ u
    exact hund (u.undisturbed o ho)
  · rw [not_or, not_exists] at hdist
    have hflag : flag = false := by simpa using hdist.1
    have hund : ∀ o, removalOwner h n = some o → Undisturbed h n p o := fun o ho =>
      Classical.not_not.mp fun hn => hdist.2 o ⟨ho, hn⟩
    exact .inl ⟨.inr ⟨hflag, habove, hund⟩,
      insertChecked_spec ret w v hfuel (hins habove) (.inl hflag) hund⟩

/-- **Exactly the unopposed insertions keep their nodes.** -/
theorem insertChecked_kept_iff {h₀ : Heap} {next : Option NodeId} (ret : NodeId) (flag : Bool)
    (w : WellFormed h ch) (v : VersionsBounded h) (hfuel : h.size < fuel)
    (k : Checked h ch p n next) :
    Kept h₀ (move ch p next (collected h ch n))
        (ContainerNode.insertChecked h fuel p n next ret flag) ↔
      collected h ch n = [] ∨ (flag = false ∧ Unopposed h p n) := by
  rcases insertChecked_outcome ret flag w v hfuel k with ⟨hcond, h', heq, hins⟩ | ⟨hcond, hlost⟩
  · refine iff_of_true ⟨_, heq, .inl ⟨rfl, hins.wellFormed.represents⟩⟩ hcond
  · refine iff_of_false ?_ ?_
    · rcases hlost with hnone | ⟨h', heq, w', -⟩
      · rw [hnone]
        rintro ⟨r, hr, -⟩
        cases hr
      · rw [heq]
        exact not_kept_of_lost hcond.1 w w'
    · rintro (hnil | ⟨hflag, hund⟩)
      · exact hcond.1 hnil
      · rcases hcond.2 with hflag' | hopp
        · rw [hflag] at hflag'
          cases hflag'
        · exact hopp hund

/-- Whatever becomes of its nodes, an insertion that returns leaves a tree. -/
theorem insertChecked_tree {next : Option NodeId} {ret : NodeId} {flag : Bool} {r : Result}
    (w : WellFormed h ch) (v : VersionsBounded h) (hfuel : h.size < fuel)
    (k : Checked h ch p n next)
    (hr : ContainerNode.insertChecked h fuel p n next ret flag = some r) :
    (∃ ch', WellFormed r.heap ch') ∧ VersionsBounded r.heap := by
  rcases insertChecked_outcome ret flag w v hfuel k with ⟨-, h', heq, hins⟩ | ⟨-, hlost⟩
  · obtain rfl := Option.some.inj (hr.symm.trans heq)
    exact ⟨⟨_, hins.wellFormed⟩, hins.versions⟩
  · rcases hlost with hnone | ⟨h', heq, w', -, v'⟩
    · rw [hr] at hnone
      cases hnone
    · obtain rfl := Option.some.inj (hr.symm.trans heq)
      exact ⟨⟨_, w'⟩, v'⟩

end Blinkit.Dom
