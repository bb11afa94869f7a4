import Blinkit.Dom.ChildConstraints

/-!
# Runs of calls and the children of documents

* `DocumentsValid h` — the children of every document keep the constraints.
* `FitsCall h c` — what `c` is about to insert into a document fits where it goes. The check in
  front of an insertion tests every node alone, so it does not ask for this.

Principal results: `anyStep_children` (what one call does to the children of a document),
`rejected_unchanged` and `document_child_constraints` (runs).
-/

set_option autoImplicit false

namespace Blinkit.Dom

open LinkedForest ChildLists Function Transition

variable {h h' : Heap} {ch ch' : NodeId → List NodeId} {d p n : NodeId} {fuel fuel' : Nat}

/-! ## The checks do not depend on the bound -/

theorem WellFormed.contains_fuel (w : WellFormed h ch) (hfuel : h.size < fuel)
    (hfuel' : h.size < fuel') (n other : NodeId) :
    h.contains fuel n other = h.contains fuel' n other := by
  have hsearch : search h.parentNode n fuel (h.parentNode other) =
      search h.parentNode n fuel' (h.parentNode other) := by
    obtain ⟨b, hb, hiff⟩ := w.search_parent hfuel other n
    obtain ⟨b', hb', hiff'⟩ := w.search_parent hfuel' other n
    rw [hb, hb', Option.some.injEq, Bool.eq_iff_iff, hiff, hiff']
  simp only [Heap.contains, Heap.isDescendantOf, hsearch]

theorem isChildTypeAllowed_fuel (w : WellFormed h ch) (hfuel : h.size < fuel)
    (hfuel' : h.size < fuel') (p n : NodeId) :
    ContainerNode.isChildTypeAllowed h fuel p n = ContainerNode.isChildTypeAllowed h fuel' p n := by
  have htype : ContainerNode.childTypeAllowed h fuel p = ContainerNode.childTypeAllowed h fuel' p := by
    funext k
    simp only [ContainerNode.childTypeAllowed, Document.childTypeAllowed, w.childNodes_eq hfuel,
      w.childNodes_eq hfuel']
  have hall : ∀ cs, ContainerNode.allTypesAllowed h fuel p cs =
      ContainerNode.allTypesAllowed h fuel' p cs := by
    intro cs
    induction cs with
    | nil => rfl
    | cons c cs ih => simp only [ContainerNode.allTypesAllowed, htype, ih]
  simp only [ContainerNode.isChildTypeAllowed, w.childNodes_eq hfuel, w.childNodes_eq hfuel',
    htype, hall]

theorem Place.validity_fuel (w : WellFormed h ch) (hfuel : h.size < fuel) (hfuel' : h.size < fuel')
    (place : Place) (p n : NodeId) : place.validity h fuel p n = place.validity h fuel' p n := by
  have hval : ∀ next old, ContainerNode.ensurePreInsertionValidity h fuel p n next old =
      ContainerNode.ensurePreInsertionValidity h fuel' p n next old := by
    intro next old
    simp only [ContainerNode.ensurePreInsertionValidity,
      ContainerNode.isHostIncludingInclusiveAncestorOfThis, w.contains_fuel hfuel hfuel',
      isChildTypeAllowed_fuel w hfuel hfuel']
  cases place <;> exact hval _ _

/-! ## Insertions -/

/-- The container, the node and the place of an insertion. -/
def Call.insertion : Call → Option (NodeId × NodeId × Place)
  | appendChild p n | insertBefore p n none => some (p, n, .last)
  | insertBefore p n (some ref) => some (p, n, .before ref)
  | replaceChild p n (some old) => some (p, n, .instead old)
  | _ => none

/-- A call that inserts is the call of its place. -/
theorem Call.insertion_eq (h : Heap) (fuel : Nat) {c : Call} {place : Place}
    (hc : c.insertion = some (p, n, place)) :
    c.exec fuel h = (place.call p n).exec fuel h ∧
      (c.WellTyped h → (place.call p n).WellTyped h) := by
  unfold insertion at hc
  split at hc
  · cases hc
    exact ⟨rfl, id⟩
  · cases hc
    exact ⟨rfl, fun htyped => ⟨htyped.1, htyped.2.1⟩⟩
  · cases hc
    exact ⟨rfl, id⟩
  · cases hc
    exact ⟨rfl, id⟩
  · cases hc

theorem foldl_detach_sublist (ts : List NodeId) (f : NodeId → List NodeId) (q : NodeId) :
    (ts.foldl detach f q).Sublist (f q) := by
  induction ts generalizing f with
  | nil => exact List.Sublist.refl _
  | cons t ts ih => exact (ih (detach f t)).trans List.erase_sublist

/-- Behind the checks the nodes are moved, or lists only lose members. -/
theorem insertChecked_lists {next : Option NodeId} {ret : NodeId} {flag : Bool} {r : Result}
    (w : WellFormed h ch) (v : VersionsBounded h) (hfuel : h.size < fuel)
    (k : Checked h ch p n next)
    (hr : ContainerNode.insertChecked h fuel p n next ret flag = some r) :
    r.exception = none ∧ ∃ ch', WellFormed r.heap ch' ∧ SameNodes h r.heap ∧
      (ch' = move ch p next (collected h ch n) ∨ ∀ q, (ch' q).Sublist (ch q)) := by
  rcases insertChecked_outcome ret flag w v hfuel k with ⟨-, h', heq, hins⟩ | ⟨-, hlost⟩
  · obtain rfl := Option.some.inj (hr.symm.trans heq)
    exact ⟨rfl, _, hins.wellFormed, hins.sameNodes, .inl rfl⟩
  · rcases hlost with hnone | ⟨h', heq, w', s', -⟩
    · rw [hr] at hnone
      cases hnone
    · obtain rfl := Option.some.inj (hr.symm.trans heq)
      exact ⟨rfl, _, w', s', .inr fun q => foldl_detach_sublist _ ch q⟩

/-- **An insertion that passes the checks and returns puts its nodes where the call asks for
them, or lists only lose members.** -/
theorem insertion_lists {place : Place} {r : Result} (w : WellFormed h ch) (v : VersionsBounded h)
    (hfuel : h.size < fuel) (htyped : (place.call p n).WellTyped h)
    (hcont : h.isContainerNode p = true) (hval : place.validity h fuel p n = some none)
    (hr : (place.call p n).exec fuel h = some r) :
    r.exception = none ∧ ∃ ch', WellFormed r.heap ch' ∧ SameNodes h r.heap ∧
      (ch' = (place.call p n).spec h.isDocumentFragment ch ∨ ∀ q, (ch' q).Sublist (ch q)) := by
  cases place with
  | last =>
    rw [Place.last_exec hcont hval] at hr
    exact insertChecked_lists w v hfuel
      ((validity_spec hval).checked htyped.1 htyped.2 hcont fun _ hr => by cases hr) hr
  | before ref =>
    rw [Place.before_exec w hcont hval] at hr
    exact insertChecked_lists w v hfuel
      ((validity_spec hval).checked htyped.1 htyped.2.1 hcont (insertBefore_eq w hval).2) hr
  | instead old =>
    have hold : old ∈ ch p := w.mem_iff.mpr ((validity_spec hval).old_child old rfl)
    obtain ⟨h₁, flag₁, hr₁, w₁, s₁, v₁, -⟩ := removeForReplace_spec w v hfuel p n
    obtain ⟨h₂, flag₂, hr₂, w₂, s₂, v₂, -⟩ :=
      removeForReplace_spec w₁ v₁ (by rw [s₁.size]; exact hfuel) p old
    have s := s₁.trans s₂
    have k : Checked h ch p n none :=
      (validity_spec hval).checked htyped.1 htyped.2.1 hcont fun _ hr => by cases hr
    have hexec : ((Place.instead old).call p n).exec fuel h = _ := replaceChild_eq w hval hr₁ hr₂
    rw [hexec] at hr
    obtain ⟨hexc, ch', w', s', hlists⟩ := insertChecked_lists w₂ v₂
      (by rw [s.size]; exact hfuel) (replaceChild_checked w k hold s) hr
    refine ⟨hexc, ch', w', s.trans s', hlists.imp (fun heq => ?_) fun hsub q => ?_⟩
    · rw [heq, collected, funext s.isDocumentFragment]
      rfl
    · exact (hsub q).trans (List.erase_sublist.trans List.erase_sublist)

/-- A call that the checks refuse sets their exception and changes nothing. -/
theorem insertion_refused {place : Place} {e : DOMException}
    (hcont : h.isContainerNode p = true) (hval : place.validity h fuel p n = some (some e)) :
    ∃ ret, (place.call p n).exec fuel h = some ⟨h, ret, some e⟩ := by
  cases place with
  | last =>
    refine ⟨some n, ?_⟩
    simp only [Place.validity] at hval
    simp [Place.call, Call.exec, Node.appendChild, hcont, ContainerNode.appendChild, hval]
  | before ref =>
    refine ⟨some n, ?_⟩
    simp only [Place.validity] at hval
    simp [Place.call, Call.exec, Node.insertBefore, hcont, ContainerNode.insertBefore, hval]
  | instead old =>
    refine ⟨some old, ?_⟩
    simp only [Place.validity] at hval
    simp [Place.call, Call.exec, ContainerNode.replaceChild, hval]

theorem Place.validity_total (w : WellFormed h ch) (hfuel : h.size < fuel) (place : Place)
    (p n : NodeId) : ∃ e, place.validity h fuel p n = some e := by
  cases place <;> exact ensurePreInsertionValidity_total w hfuel p n _ _

/-- **An insertion is refused, with its exception and nothing changed, or its checks pass.** -/
theorem insertion_refused_or_checked {place : Place} (w : WellFormed h ch) (hfuel : h.size < fuel)
    (htyped : (place.call p n).WellTyped h) :
    (∃ ret e, (place.call p n).exec fuel h = some ⟨h, ret, some e⟩) ∨
      h.isContainerNode p = true ∧ place.validity h fuel p n = some none := by
  by_cases hcont : h.isContainerNode p = true
  · obtain ⟨e, hval⟩ := place.validity_total w hfuel p n
    cases e with
    | some e =>
      obtain ⟨ret, hexec⟩ := insertion_refused hcont hval
      exact .inl ⟨ret, e, hexec⟩
    | none => exact .inr ⟨hcont, hval⟩
  · refine .inl ⟨none, Node.unsupportedError .hierarchyRequestError, ?_⟩
    cases place with
    | last => simp [Place.call, Call.exec, Node.appendChild, hcont]
    | before ref => simp [Place.call, Call.exec, Node.insertBefore, hcont]
    | instead old => exact absurd htyped.2.2.1 hcont

/-! ## One call -/

/-- The check in front of the insertion accepts it. -/
def Place.Accepts (h : Heap) (p n : NodeId) (place : Place) : Prop :=
  place.validity h (h.size + 1) p n = some none

/-- What a call does to the children of a document: they lose members, the nodes of an accepted
insertion come where they were asked for, or the parser appends a child that the document's own
check accepts. -/
def ChildrenStep (h : Heap) (ch : NodeId → List NodeId) (c : Call) (d : NodeId)
    (cs : List NodeId) : Prop :=
  cs.Sublist (ch d) ∨ d < h.size ∧
    ((∃ n place, c.insertion = some (d, n, place) ∧ place.Accepts h d n ∧ place.Calm h d n ∧
      cs = (place.call d n).spec h.isDocumentFragment ch d) ∨
    ∃ n fuel, h.size < fuel ∧ ContainerNode.checkParserAcceptChild h fuel d n = some true ∧
      cs = ch d ++ [n])

/-- The lists of other nodes only lose members. -/
theorem Place.spec_sublist (place : Place) (isFragment : NodeId → Bool) (ch : NodeId → List NodeId)
    {q : NodeId} (hq : q ≠ p) : ((place.call p n).spec isFragment ch q).Sublist (ch q) := by
  cases place with
  | last | before ref =>
    all_goals
      simp only [call, Call.spec, specAppend, specInsertBefore, move, update_of_ne hq]
      exact foldl_detach_sublist _ ch q
  | instead old =>
    simp only [call, Call.spec, specReplace, move, update_of_ne hq]
    exact (foldl_detach_sublist _ _ q).trans (List.erase_sublist.trans List.erase_sublist)

theorem insertion_children {place : Place} {c : Call} {r : Result} (w : WellFormed h ch)
    (v : VersionsBounded h) (hfuel : h.size < fuel) (hc : c.insertion = some (p, n, place))
    (htyped : c.WellTyped h) (hexec : c.exec fuel h = some r) :
    ∃ ch', WellFormed r.heap ch' ∧ SameNodes h r.heap ∧
      ∀ d, ChildrenStep h ch c d (ch' d) := by
  obtain ⟨heq, htyped'⟩ := Call.insertion_eq h fuel hc
  have htyped := htyped' htyped
  rw [heq] at hexec
  rcases insertion_refused_or_checked w hfuel htyped with ⟨ret, e, hexec'⟩ | ⟨hcont, hval⟩
  · obtain rfl := Option.some.inj (hexec.symm.trans hexec')
    exact ⟨ch, w, .refl h, fun d => .inl (.refl _)⟩
  · obtain ⟨hexc, ch', w', s', hlists⟩ := insertion_lists w v hfuel htyped hcont hval hexec
    refine ⟨ch', w', s', fun d => ?_⟩
    rcases hlists with rfl | hsub
    · by_cases hdp : d = p
      · subst hdp
        have hds : d < h.size := by cases place <;> exact htyped.1
        refine .inr ⟨hds, .inl ⟨n, place, hc, ?_, ?_, rfl⟩⟩
        · exact (place.validity_fuel w (Nat.lt_succ_self _) hfuel d n).trans hval
        · exact (insertion_calm_iff w v htyped hcont hfuel hval).mp
            ⟨r, hexec, .inl ⟨hexc, w'.represents⟩⟩
      · exact .inl (place.spec_sublist _ _ hdp)
    · exact .inl (hsub d)

/-- `RemoveChild` refuses what is not a child, or takes it out of its list. -/
theorem removeChild_cases (w : WellFormed h ch) (hfuel : h.size < fuel) (c : Option NodeId) :
    (∃ ret e, Node.removeChild h fuel p c = some ⟨h, ret, some e⟩) ∨
      ∃ c₀ h', c = some c₀ ∧ c₀ ∈ ch p ∧
        Node.removeChild h fuel p c = some ⟨h', some c₀, none⟩ ∧
        WellFormed h' (detach ch c₀) ∧ SameNodes h h' := by
  unfold Node.removeChild
  split
  · cases c with
    | none => exact .inl ⟨none, ContainerNode.notAChildError, rfl⟩
    | some c =>
      by_cases hc : h.links.parent c = some p
      · obtain ⟨h', hop, w', hs, -⟩ := removeChild_spec w hfuel (w.mem_iff.mpr hc)
        exact .inr ⟨c, h', rfl, w.mem_iff.mpr hc, hop, w', hs⟩
      · refine .inl ⟨none, ContainerNode.notAChildError, ?_⟩
        simp [ContainerNode.removeChild, Heap.parentNode, hc]
  · exact .inl ⟨none, _, rfl⟩

theorem WellFormed.mem_allocated (w : WellFormed h ch) {x : NodeId} (hx : x ∈ ch p) :
    x < h.size :=
  (w.allocated x p (w.mem_iff.mp hx)).1

/-- The nodes keep their kinds. -/
structure SameKinds (h h' : Heap) (ch' : NodeId → List NodeId) : Prop where
  size : h.size ≤ h'.size
  nodeType : ∀ x, x < h.size → h'.nodeType x = h.nodeType x
  children : ∀ d, (ch' d).map h'.nodeType = (ch' d).map h.nodeType

theorem SameNodes.sameKinds (s : SameNodes h h') (ch' : NodeId → List NodeId) :
    SameKinds h h' ch' where
  size := Nat.le_of_eq s.size.symm
  nodeType x _ := congrFun s.nodeType x
  children d := by rw [s.nodeType]

/-- A new node has no parent. -/
theorem WellFormed.sameKinds (w : WellFormed h ch) (hsize : h'.size = h.size + 1)
    (hkinds : ∀ x, x < h.size → h'.nodeType x = h.nodeType x) : SameKinds h h' ch where
  size := by omega
  nodeType := hkinds
  children _ := List.map_congr_left fun x hx => hkinds x (w.mem_allocated hx)

/-- **What one call does to the children of every node.** -/
theorem anyStep_children {c : Call} (w : WellFormed h ch) (v : VersionsBounded h)
    (hstep : AnyStep h c h') :
    ∃ ch', WellFormed h' ch' ∧ SameKinds h h' ch' ∧ ∀ d, ChildrenStep h ch c d (ch' d) := by
  obtain ⟨⟨htyped, hdoc⟩, fuel, r, hfuel, hexec, rfl⟩ := hstep
  have hlists {ch' : NodeId → List NodeId} (w' : WellFormed r.heap ch') (s : SameNodes h r.heap)
      (hsub : ∀ d, (ch' d).Sublist (ch d)) : ∃ ch', WellFormed r.heap ch' ∧
        SameKinds h r.heap ch' ∧ ∀ d, ChildrenStep h ch c d (ch' d) :=
    ⟨ch', w', s.sameKinds ch', fun d => .inl (hsub d)⟩
  cases hc : c.insertion with
  | some i =>
    obtain ⟨p, n, place⟩ := i
    obtain ⟨ch', w', s', hchildren⟩ := insertion_children w v hfuel hc htyped hexec
    exact ⟨ch', w', s'.sameKinds ch', hchildren⟩
  | none =>
    cases c with
    | createNode type name d =>
      obtain rfl := Option.some.inj hexec
      refine ⟨ch, w.createNode name htyped.1 htyped.2, w.sameKinds rfl fun x hx => ?_,
        fun d => .inl (.refl _)⟩
      simp [Heap.createNode, Nat.ne_of_lt hx]
    | createDocument =>
      obtain rfl := Option.some.inj hexec
      refine ⟨ch, w.createDocument, w.sameKinds rfl fun x hx => ?_, fun d => .inl (.refl _)⟩
      simp [Heap.createDocument, Heap.createNode, Nat.ne_of_lt hx]
    | incDOMTreeVersion d =>
      obtain rfl := Option.some.inj hexec
      exact hlists (w.congr ⟨⟨rfl, rfl, rfl, rfl⟩, rfl, rfl⟩) ⟨rfl, rfl, rfl, rfl⟩ fun _ => .refl _
    | appendChild p n => cases hc
    | insertBefore p n ref => cases ref <;> cases hc
    | replaceChild p n old =>
      cases old with
      | some old => cases hc
      | none =>
        obtain rfl := Option.some.inj hexec
        exact hlists w (.refl h) fun _ => .refl _
    | removeChild p c =>
      rcases removeChild_cases w hfuel c with ⟨ret, e, heq⟩ | ⟨c₀, h', -, -, heq, w', hs⟩
      · obtain rfl := Option.some.inj (hexec.symm.trans heq)
        exact hlists w (.refl h) fun _ => .refl _
      · obtain rfl := Option.some.inj (hexec.symm.trans heq)
        exact hlists w' hs fun _ => List.erase_sublist
    | removeChildren p =>
      obtain ⟨h₁, hrem, w₁, hs, -⟩ := removeChildren_spec w hfuel p
      obtain rfl : _ = r := by simpa [Call.exec, hrem] using hexec
      refine hlists w₁ hs fun d => ?_
      by_cases hdp : d = p
      · simp [specRemoveChildren, hdp]
      · simp [specRemoveChildren, hdp]
    | parserAppendChild p n =>
      obtain ⟨e, he⟩ := parserChildException_total w hfuel p n
      obtain ⟨h₁, happ, rfl⟩ : ∃ h₁, ContainerNode.parserAppendChild h fuel p n = some h₁ ∧
          (⟨h₁, none, e⟩ : Result) = r := by
        simpa [Call.exec, he, Option.bind_eq_some_iff] using hexec
      rcases parserAppendChild_returns w hfuel htyped.2.1 happ with rfl | ⟨hacc, hq, habove⟩
      · exact hlists w (.refl _) fun _ => .refl _
      · obtain ⟨h₂, heq, hins⟩ := parserAppendChild_spec w v hfuel htyped.1 htyped.2.2
          ⟨htyped.2.1, hq, hdoc, habove⟩ hacc
        obtain rfl := Option.some.inj (happ.symm.trans heq)
        refine ⟨_, hins.wellFormed, hins.sameNodes.sameKinds _, fun d => ?_⟩
        by_cases hdp : d = p
        · subst hdp
          exact .inr ⟨htyped.1, .inr ⟨n, fuel, hfuel, hacc, update_self ..⟩⟩
        · rw [update_of_ne hdp]
          exact .inl (.refl _)

/-- **A call that sets an exception changes nothing.** -/
theorem rejected_unchanged {c : Call} {r : Result} (w : WellFormed h ch) (v : VersionsBounded h)
    (hfuel : h.size < fuel) (htyped : c.WellTyped h) (hexec : c.exec fuel h = some r)
    (he : r.exception ≠ none) : r.heap = h := by
  cases hc : c.insertion with
  | some i =>
    obtain ⟨p, n, place⟩ := i
    obtain ⟨heq, htyped'⟩ := Call.insertion_eq h fuel hc
    rw [heq] at hexec
    rcases insertion_refused_or_checked w hfuel (htyped' htyped) with
      ⟨ret, e, hexec'⟩ | ⟨hcont, hval⟩
    · obtain rfl := Option.some.inj (hexec.symm.trans hexec')
      rfl
    · exact absurd (insertion_lists w v hfuel (htyped' htyped) hcont hval hexec).1 he
  | none =>
    cases c with
    | createNode type name d =>
      obtain rfl := Option.some.inj hexec
      exact absurd rfl he
    | createDocument =>
      obtain rfl := Option.some.inj hexec
      exact absurd rfl he
    | incDOMTreeVersion d =>
      obtain rfl := Option.some.inj hexec
      exact absurd rfl he
    | appendChild p n => cases hc
    | insertBefore p n ref => cases ref <;> cases hc
    | replaceChild p n old =>
      cases old with
      | some old => cases hc
      | none =>
        obtain rfl := Option.some.inj hexec
        rfl
    | removeChild p c =>
      rcases removeChild_cases w hfuel c with ⟨ret, e, heq⟩ | ⟨c₀, h', -, -, heq, -⟩
      · obtain rfl := Option.some.inj (hexec.symm.trans heq)
        rfl
      · obtain rfl := Option.some.inj (hexec.symm.trans heq)
        exact absurd rfl he
    | removeChildren p =>
      obtain ⟨h₁, hrem, -⟩ := removeChildren_spec w hfuel p
      obtain rfl : _ = r := by simpa [Call.exec, hrem] using hexec
      exact absurd rfl he
    | parserAppendChild p n =>
      obtain ⟨e, hp⟩ := parserChildException_total w hfuel p n
      cases e with
      | none =>
        obtain ⟨h₁, -, rfl⟩ : ∃ h₁, ContainerNode.parserAppendChild h fuel p n = some h₁ ∧
            (⟨h₁, none, none⟩ : Result) = r := by
          simpa [Call.exec, hp, Option.bind_eq_some_iff] using hexec
        exact absurd rfl he
      | some e =>
        obtain rfl : _ = r := by
          simpa [Call.exec, hp, ContainerNode.parserAppendChild,
            ContainerNode.checkParserAcceptChild] using hexec
        rfl

/-! ## Runs -/

/-- The children of every document keep the constraints. -/
def DocumentsValid (h : Heap) : Prop :=
  ∀ ch, Represents h.links ch → ∀ d, d < h.size → h.nodeType d = .document →
    ChildConstraints ((ch d).map h.nodeType)

/-- What an accepted insertion puts among the children of a document fits there. -/
def FitsCall (h : Heap) (c : Call) : Prop :=
  ∀ d n place, c.insertion = some (d, n, place) → h.nodeType d = .document →
    place.Accepts h d n → place.Calm h d n → ∀ ch, Represents h.links ch →
      Fits ((place.front h.isDocumentFragment ch d n).map h.nodeType)
        ((collected h ch n).map h.nodeType)
        ((place.back h.isDocumentFragment ch d n).map h.nodeType)

/-- **An accepted insertion into a document keeps the constraints exactly when it fits.** -/
theorem insertion_valid_iff {place : Place} (w : WellFormed h ch)
    (hd : h.nodeType d = .document) (c : ChildConstraints ((ch d).map h.nodeType))
    (hacc : place.Accepts h d n) :
    ChildConstraints (((place.call d n).spec h.isDocumentFragment ch d).map h.nodeType) ↔
      Fits ((place.front h.isDocumentFragment ch d n).map h.nodeType)
        ((collected h ch n).map h.nodeType)
        ((place.back h.isDocumentFragment ch d n).map h.nodeType) := by
  have hcont : h.isContainerNode d = true := by simp [Heap.isContainerNode, hd]
  have hfuel : h.size < h.size + 1 := Nat.lt_succ_self _
  obtain ⟨next, old, hval, hold⟩ : ∃ next old,
      ContainerNode.ensurePreInsertionValidity h (h.size + 1) d n next old = some none ∧
        ∀ o, place = .instead o → old = some o := by
    cases place with
    | last => exact ⟨none, none, hacc, fun o ho => by cases ho⟩
    | before ref => exact ⟨some ref, none, hacc, fun o ho => by cases ho⟩
    | instead old => exact ⟨none, some old, hacc, fun o ho => by cases ho; rfl⟩
  have hvalid := validity_spec hval
  rw [Place.spec_eq w (hvalid.notSelf hcont) fun o ho =>
    w.mem_iff.mpr (hvalid.old_child o (hold o ho)), List.map_append, List.map_append]
  have hstay := place.front_append_back h.isDocumentFragment ch d n
  have hsub : (place.front h.isDocumentFragment ch d n ++
      place.back h.isDocumentFragment ch d n).Sublist (ch d) := by
    rw [hstay]
    exact List.filter_sublist
  have hsubKinds := hsub.map h.nodeType
  rw [List.map_append] at hsubKinds
  refine constraints_insert_iff (c.sublist hsubKinds) (fun k hk => hsubKinds.subset hk) ?_
  intro k hk
  obtain ⟨x, hx, rfl⟩ := List.mem_map.mp hk
  exact allowed_of_validity w hfuel hd hval x hx

/-- The children of a node that has not been allocated. -/
theorem WellFormed.children_unallocated (w : WellFormed h ch) (hd : h.size ≤ d) : ch d = [] := by
  refine List.eq_nil_iff_forall_not_mem.mpr fun c hc => ?_
  exact absurd (w.allocated c d (w.mem_iff.mp hc)).2 (Nat.not_lt.mpr hd)

/-- **A call that fits keeps the constraints.** -/
theorem anyStep_valid {c : Call} (w : WellFormed h ch) (v : VersionsBounded h)
    (hvalid : DocumentsValid h) (hstep : AnyStep h c h') (hfits : FitsCall h c) :
    DocumentsValid h' := by
  obtain ⟨ch', w', hkinds, hchildren⟩ := anyStep_children w v hstep
  intro ch₁ hrep d hds hd
  obtain rfl : ch₁ = ch' := hrep.unique w'.represents
  rw [hkinds.children d]
  rcases hchildren d with hsub | ⟨hlt, hnew⟩
  · by_cases hlt : d < h.size
    · have hdoc : h.nodeType d = .document := (hkinds.nodeType d hlt).symm.trans hd
      exact (hvalid ch w.represents d hlt hdoc).sublist (hsub.map _)
    · -- a document that the call has created
      rw [w.children_unallocated (Nat.not_lt.mp hlt), List.sublist_nil] at hsub
      rw [hsub]
      exact .nil
  · have hdoc : h.nodeType d = .document := (hkinds.nodeType d hlt).symm.trans hd
    have c₀ := hvalid ch w.represents d hlt hdoc
    rcases hnew with ⟨n, place, hc, hacc, hcalm, heq⟩ | ⟨n, fuel, hfuel, hacc, heq⟩
    · rw [heq, insertion_valid_iff w hdoc c₀ hacc]
      exact hfits d n place hc hdoc hacc hcalm ch w.represents
    · rw [heq]
      exact parser_keeps_constraints w hfuel ((w.document_type d hlt).mp hdoc) c₀ hacc

/-- An accepted and calm insertion that returns has put its nodes where they were asked for. -/
theorem AnyStep.children_eq {place : Place} {c : Call} (w : WellFormed h ch)
    (v : VersionsBounded h) (hstep : AnyStep h c h') (hc : c.insertion = some (d, n, place))
    (hd : h.isContainerNode d = true) (hacc : place.Accepts h d n) (hcalm : place.Calm h d n) :
    d < h.size ∧ Represents h'.links ((place.call d n).spec h.isDocumentFragment ch) := by
  obtain ⟨⟨htyped, -⟩, fuel, r, hfuel, hexec, rfl⟩ := hstep
  obtain ⟨heq, htyped'⟩ := Call.insertion_eq h fuel hc
  have htyped := htyped' htyped
  rw [heq] at hexec
  have hval := (place.validity_fuel w hfuel (Nat.lt_succ_self _) d n).trans hacc
  refine ⟨by cases place <;> exact htyped.1, ?_⟩
  obtain ⟨r', hexec', ⟨-, hrep⟩ | ⟨hexc, -⟩⟩ :=
    (insertion_calm_iff w v htyped hd hfuel hval).mpr hcalm
  · obtain rfl := Option.some.inj (hexec.symm.trans hexec')
    exact hrep
  · obtain rfl := Option.some.inj (hexec.symm.trans hexec')
    exact absurd (insertion_lists w v hfuel htyped hd hval hexec).1 hexc

/-- **A call keeps the constraints exactly when it fits.** -/
theorem anyStep_valid_iff {c : Call} (w : WellFormed h ch) (v : VersionsBounded h)
    (hvalid : DocumentsValid h) (hstep : AnyStep h c h') : DocumentsValid h' ↔ FitsCall h c := by
  refine ⟨fun hvalid' d n place hc hd hacc hcalm ch₁ hrep => ?_,
    anyStep_valid w v hvalid hstep⟩
  obtain rfl : ch₁ = ch := hrep.unique w.represents
  have hcont : h.isContainerNode d = true := by simp [Heap.isContainerNode, hd]
  obtain ⟨hds, hrep'⟩ := hstep.children_eq w v hc hcont hacc hcalm
  obtain ⟨ch', w', hkinds, -⟩ := anyStep_children w v hstep
  obtain rfl := hrep'.unique w'.represents
  have c' := hvalid' _ hrep' d (hds.trans_le hkinds.size) ((hkinds.nodeType d hds).trans hd)
  rw [hkinds.children d] at c'
  exact (insertion_valid_iff w hd (hvalid _ hrep d hds hd) hacc).mp c'

/-- **The constraints on the children of documents.** Start from a tree in which they hold and
run any calls, each of which fits. They hold at the end; there the next call keeps them exactly
when it fits, and a call that sets an exception changes nothing. -/
theorem document_child_constraints {calls : List Call} (t : Tree h) (hvalid : DocumentsValid h)
    (hrun : Steps (Guarded AnyStep FitsCall) h calls h') :
    DocumentsValid h' ∧
      (∀ c h'', AnyStep h' c h'' → (DocumentsValid h'' ↔ FitsCall h' c)) ∧
      ∀ (c : Call) fuel r, c.WellTyped h' → h'.size < fuel → c.exec fuel h' = some r →
        r.exception ≠ none → r.heap = h' := by
  obtain ⟨⟨⟨ch, w⟩, v⟩, hvalid'⟩ : Tree h' ∧ DocumentsValid h' := by
    refine Steps.invariant (I := fun h => Tree h ∧ DocumentsValid h) ?_ ⟨t, hvalid⟩ hrun
    rintro h c h' ⟨t, hvalid⟩ ⟨hfits, hstep⟩
    obtain ⟨⟨ch, w⟩, v⟩ := t
    exact ⟨anyStep_tree ⟨⟨ch, w⟩, v⟩ hstep, anyStep_valid w v hvalid hstep hfits⟩
  exact ⟨hvalid', fun c h'' hstep => anyStep_valid_iff w v hvalid' hstep,
    fun c fuel r htyped hfuel hexec he => rejected_unchanged w v hfuel htyped hexec he⟩

theorem DocumentsValid.initial : DocumentsValid Heap.initial := fun _ _ _ hd _ => by cases hd

/-- A new document takes an element. -/
theorem document_child_constraints_element :
    ∃ h', Steps (Guarded AnyStep FitsCall) Heap.initial
        [.createDocument, .createNode .element "HTML" 0, .appendChild 0 1] h' ∧
      DocumentsValid h' := by
  have hfits : FitsCall (Heap.initial.createDocument.createNode .element "HTML" 0)
      (.appendChild 0 1) := by
    intro d n place hc _ _ _ ch hrep
    cases hc
    have hkinds : (collected (Heap.initial.createDocument.createNode .element "HTML" 0) ch 1).map
        (Heap.initial.createDocument.createNode .element "HTML" 0).nodeType = [.element] := by
      rw [collected, targets, if_neg (by decide)]
      rfl
    have hnil : ch 0 = [] := List.eq_nil_iff_forall_not_mem.mpr fun c hc => by
      cases (hrep.mem_iff 0 c).mp hc
    rw [hkinds, Place.front, Place.staying, hnil]
    exact ⟨by decide, by decide, List.pairwise_singleton _ _, fun _ => List.not_mem_nil,
      fun _ => List.not_mem_nil⟩
  have hrun : Steps (Guarded AnyStep FitsCall) Heap.initial
      [.createDocument, .createNode .element "HTML" 0, .appendChild 0 1] _ :=
    .cons ⟨(fun _ _ _ hc => by cases hc), ⟨trivial, trivial⟩, 3, _, by decide, rfl, rfl⟩ <|
    .cons ⟨(fun _ _ _ hc => by cases hc), ⟨⟨by decide, by decide⟩, trivial⟩, 3, _, by decide, rfl,
      rfl⟩ <|
    .cons ⟨hfits, ⟨⟨by decide, by decide⟩, trivial⟩, 3, _, by decide, rfl, rfl⟩ (.nil _)
  exact ⟨_, hrun, (document_child_constraints Tree.initial DocumentsValid.initial hrun).1⟩

/-- A document `0` and a fragment `1` with the elements `2` and `3`. -/
def fragmentOfElements : Heap :=
  let h := (Heap.initial.createDocument.createNode .documentFragment "#document-fragment" 0)
  let h := (h.createNode .element "A" 0).createNode .element "B" 0
  match (Call.appendChild 1 2).exec 5 h with
  | some r =>
    match (Call.appendChild 1 3).exec 5 r.heap with
    | some r => r.heap
    | none => h
  | none => h

theorem fragmentOfElements_reachable : Reachable fragmentOfElements :=
  ⟨[.createDocument, .createNode .documentFragment "#document-fragment" 0,
      .createNode .element "A" 0, .createNode .element "B" 0, .appendChild 1 2,
      .appendChild 1 3],
    .cons ⟨⟨trivial, trivial⟩, 5, _, by decide, rfl, rfl⟩ <|
    .cons ⟨⟨⟨by decide, by decide⟩, trivial⟩, 5, _, by decide, rfl, rfl⟩ <|
    .cons ⟨⟨⟨by decide, by decide⟩, trivial⟩, 5, _, by decide, rfl, rfl⟩ <|
    .cons ⟨⟨⟨by decide, by decide⟩, trivial⟩, 5, _, by decide, rfl, rfl⟩ <|
    .cons ⟨⟨⟨by decide, by decide⟩, trivial⟩, 5, _, by decide, rfl, rfl⟩ <|
    .cons ⟨⟨⟨by decide, by decide⟩, trivial⟩, 5, _, by decide, rfl, rfl⟩ (.nil _)⟩

/-- **A fragment brings two elements into a document.** The document is empty, the check accepts
the fragment, for each of its children may be the only element, and both become children. -/
theorem fragment_brings_two_elements :
    Reachable fragmentOfElements ∧ DocumentsValid fragmentOfElements ∧
      ∃ r, (Call.appendChild 0 1).exec 5 fragmentOfElements = some r ∧ r.exception = none ∧
        r.heap.childNodes 5 0 = some [2, 3] ∧ [2, 3].map r.heap.nodeType = [.element, .element] ∧
        ¬ DocumentsValid r.heap := by
  obtain ⟨⟨ch, w⟩, -⟩ := reachable_tree fragmentOfElements_reachable
  refine ⟨fragmentOfElements_reachable, fun ch' hrep d hds hd => ?_, _, rfl, rfl, rfl, rfl, ?_⟩
  · obtain rfl : ch' = ch := hrep.unique w.represents
    have hd₀ : d = 0 := by
      have hall : ∀ d, d < 4 → fragmentOfElements.nodeType d = .document → d = 0 := by decide
      exact hall d hds hd
    have hnil : ch' d = [] := List.eq_nil_iff_forall_not_mem.mpr fun c hc => by
      have hall : ∀ c, c < 4 → fragmentOfElements.links.parent c ≠ some 0 := by decide
      rw [hd₀] at hc
      exact hall c (w.mem_allocated hc) (w.mem_iff.mp hc)
    rw [hnil]
    exact .nil
  · obtain ⟨calls, hrun⟩ := fragmentOfElements_reachable
    have hstep : AnyStep fragmentOfElements (.appendChild 0 1) _ :=
      ⟨⟨⟨by decide, by decide⟩, trivial⟩, 5, _, by decide, rfl, rfl⟩
    obtain ⟨⟨ch₁, w₁⟩, -⟩ := reachable_tree ⟨_, hrun.append (.cons hstep (.nil _))⟩
    intro hvalid
    have hlist : some (ch₁ 0) = some [2, 3] := (w₁.childNodes_eq (by decide : _ < 5) 0).symm
    have c := hvalid ch₁ w₁.represents 0 (by decide) rfl
    rw [Option.some.inj hlist] at c
    exact absurd c.oneElement (by decide)

end Blinkit.Dom
