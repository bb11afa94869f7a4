import Blinkit.Dom.Operations
import Blinkit.Lib.Transition

/-!
# Runs of calls on the nodes of one document

* `Call` — a call of a mutator, with its arguments; `Call.exec` runs it, `Call.spec` is the same
  call on child lists.
* `Call.Admissible` — the arguments exist, `this` has the class the method belongs to, and what
  the parser appends has no parent, is not a document and is not above the container.
* `Fresh h d` — the nodes of the document `d` have just been created.

Principal results: `call_refines` (one call), `run_settled` (a run) and
`dom_calls_refine_child_lists`: after every run every call ends, and either leaves the child lists
of its specification or sets an exception and leaves the heap as it was.
-/

set_option autoImplicit false

namespace Blinkit.Dom

open LinkedForest ChildLists Function Transition

/-- The mutators, with their arguments. -/
inductive Call where
  | createNode (type : NodeType) (name : String) (document : NodeId)
  | createDocument
  /-- A change of an attribute or of character data in the document `d`. -/
  | incDOMTreeVersion (d : NodeId)
  | appendChild (p newChild : NodeId)
  | insertBefore (p newChild : NodeId) (refChild : Option NodeId)
  | replaceChild (p newChild : NodeId) (oldChild : Option NodeId)
  | removeChild (p : NodeId) (child : Option NodeId)
  | removeChildren (p : NodeId)
  | parserAppendChild (p newChild : NodeId)
  deriving DecidableEq

namespace Call

/-- Run a call. For the parser the exception is the one that the document's own check drops. -/
def exec (fuel : Nat) (h : Heap) : Call → Option Result
  | createNode type name d => some ⟨h.createNode type name d, some h.size, none⟩
  | createDocument => some ⟨h.createDocument, some h.size, none⟩
  | incDOMTreeVersion d => some ⟨h.incDOMTreeVersion d, none, none⟩
  | appendChild p n => Node.appendChild h fuel p n
  | insertBefore p n ref => Node.insertBefore h fuel p n ref
  | replaceChild p n old => ContainerNode.replaceChild h fuel p n old
  | removeChild p c => Node.removeChild h fuel p c
  | removeChildren p => do
    let h ← ContainerNode.removeChildren h fuel p
    return ⟨h, none, none⟩
  | parserAppendChild p n => do
    let e ← ContainerNode.parserChildException h fuel p n
    let h ← ContainerNode.parserAppendChild h fuel p n
    return ⟨h, none, e⟩

/-- The call on child lists. -/
def spec (isFragment : NodeId → Bool) (f : NodeId → List NodeId) : Call → NodeId → List NodeId
  | createNode _ _ _ | createDocument | incDOMTreeVersion _ => f
  | appendChild p n | insertBefore p n none => specAppend isFragment f p n
  | insertBefore p n (some ref) => specInsertBefore isFragment f p n ref
  | replaceChild _ _ none | removeChild _ none => f
  | replaceChild p n (some old) => specReplace isFragment f p n old
  | removeChild _ (some c) => specRemove f c
  | removeChildren p => specRemoveChildren f p
  | parserAppendChild p n => update f p (f p ++ [n])

/-- The arguments exist and have the classes the method asks for. -/
def WellTyped (h : Heap) : Call → Prop
  | createNode type _ d => type ≠ .document ∧ d < h.size
  | createDocument => True
  | incDOMTreeVersion d => d < h.size
  | appendChild p n => p < h.size ∧ n < h.size
  | insertBefore p n ref => p < h.size ∧ n < h.size ∧ ∀ r, ref = some r → r < h.size
  | replaceChild p n old => p < h.size ∧ n < h.size ∧ h.isContainerNode p = true ∧
      ∀ o, old = some o → o < h.size
  | removeChild p c => p < h.size ∧ ∀ d, c = some d → d < h.size
  | removeChildren p => p < h.size ∧ h.isContainerNode p = true
  | parserAppendChild p n => p < h.size ∧ n < h.size ∧ h.isContainerNode p = true

/-- What the parser appends is a root other than a document and is not above the container. -/
def ParserRoot (h : Heap) : Call → Prop
  | parserAppendChild p n =>
    h.links.parent n = none ∧ h.document n ≠ n ∧ ¬ Above h.links.parent p n
  | _ => True

/-- The call creates and changes no other document. -/
def Local (d : NodeId) : Call → Prop
  | createNode _ _ d' | incDOMTreeVersion d' => d' = d
  | createDocument => False
  | _ => True

structure Admissible (h : Heap) (d : NodeId) (c : Call) : Prop where
  wellTyped : c.WellTyped h
  parserRoot : c.ParserRoot h
  isLocal : c.Local d

end Call

/-- One call of a run among the nodes of the document `d`. -/
def CallStep (d : NodeId) (h : Heap) (c : Call) (h' : Heap) : Prop :=
  c.Admissible h d ∧ ∃ fuel r, h.size < fuel ∧ c.exec fuel h = some r ∧ r.heap = h'

/-- **The invariant of a run among the nodes of one document.** -/
structure Settled (h : Heap) (d : NodeId) (ch : NodeId → List NodeId) : Prop where
  wellFormed : WellFormed h ch
  singleDocument : SingleDocument h d
  versions : VersionsBounded h
  /-- As long as nothing has a parent, nothing has to be said about the version. -/
  current : (∀ x, h.links.parent x = none) ∨ h.domTreeVersion d = h.globalTreeVersion

/-- The nodes of the document `d` have just been created: none has a parent or a child. -/
structure Fresh (h : Heap) (d : NodeId) : Prop where
  links : h.links = Links.empty
  scope : ∀ n, n < h.size → h.document n = d
  documents : ∀ n, n < h.size → (h.nodeType n = .document ↔ n = d)
  connected : ∀ n, n < h.size → (h.isConnected n = true ↔ n = d)
  versions : VersionsBounded h

theorem Fresh.settled {h : Heap} {d : NodeId} (f : Fresh h d) : Settled h d fun _ => [] where
  wellFormed :=
    { represents := f.links ▸ represents_empty
      acyclic := by rw [f.links]; exact acyclic_of_roots fun _ => rfl
      allocated := fun _ _ hxy => by rw [f.links] at hxy; cases hxy
      container := fun _ _ hxy => by rw [f.links] at hxy; cases hxy
      document_type := fun n hn => by rw [f.documents n hn, f.scope n hn, eq_comm]
      document_root := fun _ _ => by rw [f.links]; rfl
      connected_child := fun _ _ hxy => by rw [f.links] at hxy; cases hxy
      connected_root := fun n hn _ => by rw [f.connected n hn, f.scope n hn, eq_comm] }
  singleDocument := f.scope
  versions := f.versions
  current := .inl fun _ => by rw [f.links]; rfl

namespace Settled

variable {h h' : Heap} {d p n : NodeId} {ch ch' : NodeId → List NodeId} {fuel : Nat}

/-- Within one document no detector objects. -/
theorem undisturbed (s : Settled h d ch) (hn : n < h.size) (hp : p < h.size) {o : NodeId}
    (ho : removalOwner h n = some o) : Undisturbed h n p o := by
  obtain ⟨c, q, hcq⟩ : ∃ c q, h.links.parent c = some q := by
    unfold removalOwner at ho
    split at ho
    · split at ho
      · cases ho
      · rename_i hne
        have hne' : ch n ≠ [] := fun hnil => hne (s.wellFormed.first_eq_none.mpr hnil)
        obtain ⟨c, hc⟩ := List.exists_mem_of_ne_nil _ hne'
        exact ⟨c, n, s.wellFormed.mem_iff.mp hc⟩
    · exact ⟨n, o, ho⟩
  have hcur : h.domTreeVersion d = h.globalTreeVersion :=
    s.current.resolve_left fun hall => by rw [hall c] at hcq; cases hcq
  refine ⟨fun _ => ?_, fun hne => ?_⟩
  · rw [s.singleDocument n hn]; exact hcur
  · exact absurd ((s.singleDocument n hn).trans (s.singleDocument p hp).symm) hne

theorem of_inserted (s : Settled h d ch) (hp : p < h.size) (i : Inserted h h' ch' p) :
    Settled h' d ch' where
  wellFormed := i.wellFormed
  singleDocument n hn := by
    rw [i.sameNodes.document]
    exact s.singleDocument n (i.sameNodes.size ▸ hn)
  versions := i.versions
  current := by
    rcases i.current with rfl | hcur
    · exact s.current
    · rw [s.singleDocument p hp] at hcur
      exact .inr hcur

theorem of_bumped (s : Settled h d ch) (w : WellFormed h' ch') (hs : SameNodes h h') {o : NodeId}
    (ho : o < h.size) (b : Bumped h h' o) : Settled h' d ch' where
  wellFormed := w
  singleDocument n hn := by
    rw [hs.document]
    exact s.singleDocument n (hs.size ▸ hn)
  versions := s.versions.bumped b
  current := .inr (by
    rw [b.domTreeVersion, b.globalTreeVersion, s.singleDocument o ho, update_self])

/-- An insertion whose checks have passed. -/
theorem insertion (s : Settled h d ch) (hfuel : h.size < fuel) (hp : p < h.size)
    (hn : n < h.size) (hcont : h.isContainerNode p = true) {next old : Option NodeId}
    (hval : ContainerNode.ensurePreInsertionValidity h fuel p n next old = some none) :
    Insertion h ch p n none where
  toChecked := (validity_spec hval).checked hp hn hcont fun _ hr => by cases hr
  notAbove := not_above_of_validity s.wellFormed hfuel s.singleDocument hp hcont
    (validity_spec hval)

theorem removeForReplace (s : Settled h d ch) (hfuel : h.size < fuel) {m : NodeId}
    (hm : m < h.size) (hp : p < h.size) :
    ∃ h₁, ContainerNode.removeForReplace h fuel p m = some (h₁, none, false) ∧
      Settled h₁ d (detach ch m) ∧ SameNodes h h₁ := by
  obtain ⟨h₁, flag, hr, w₁, s₁, v₁, hroot, hchild⟩ :=
    removeForReplace_spec s.wellFormed s.versions hfuel p m
  cases hq : h.links.parent m with
  | none =>
    obtain ⟨rfl, rfl⟩ := hroot hq
    exact ⟨h₁, hr, { s with wellFormed := w₁ }, s₁⟩
  | some q =>
    obtain ⟨hbump, hflag⟩ := hchild q hq
    have hund : Undisturbed h m p q := by
      refine ⟨fun _ => ?_, fun hne => ?_⟩
      · rw [s.singleDocument m hm]
        exact s.current.resolve_left fun hall => by rw [hall m] at hq; cases hq
      · exact absurd ((s.singleDocument m hm).trans (s.singleDocument p hp).symm) hne
    exact ⟨h₁, (hflag.mpr hund) ▸ hr,
      s.of_bumped w₁ s₁ (s.wellFormed.allocated m q hq).2 hbump, s₁⟩

/-- **`ReplaceChild` refines its list operation.** -/
theorem replaceChild (s : Settled h d ch) (hfuel : h.size < fuel) (hp : p < h.size)
    (hn : n < h.size) (hcont : h.isContainerNode p = true) {old : NodeId}
    (hval : ContainerNode.ensurePreInsertionValidity h fuel p n none (some old) = some none) :
    ∃ h', ContainerNode.replaceChild h fuel p n (some old) = some ⟨h', some old, none⟩ ∧
      Settled h' d (specReplace h.isDocumentFragment ch p n old) := by
  have hold : old ∈ ch p := s.wellFormed.mem_iff.mpr ((validity_spec hval).old_child old rfl)
  have ho : old < h.size := (s.wellFormed.allocated old p (s.wellFormed.mem_iff.mp hold)).1
  obtain ⟨h₁, hr₁, s₁, hs₁⟩ := s.removeForReplace hfuel (p := p) hn hp
  obtain ⟨h₂, hr₂, s₂, hs₂⟩ := s₁.removeForReplace (p := p) (m := old)
    (by rw [hs₁.size]; exact hfuel) (by rw [hs₁.size]; exact ho) (by rw [hs₁.size]; exact hp)
  have hs : SameNodes h h₂ := hs₁.trans hs₂
  have i := s.insertion hfuel hp hn hcont hval
  have i₂ : Insertion h₂ (detach (detach ch n) old) p n (replaceReference ch p n old) :=
    ⟨replaceChild_checked s.wellFormed i.toChecked hold hs, fun ha => i.notAbove
      (above_of_lists s.wellFormed s₂.wellFormed
        (fun _ _ hx => List.mem_of_mem_erase (List.mem_of_mem_erase hx)) ha)⟩
  obtain ⟨h', hins, hres⟩ := insertChecked_spec old s₂.wellFormed s₂.versions
    (by rw [hs.size]; exact hfuel) i₂ (.inl (by rfl))
    (fun o hown => s₂.undisturbed (by rw [hs.size]; exact hn) (by rw [hs.size]; exact hp) hown)
  refine ⟨h', (replaceChild_eq s.wellFormed hval hr₁ hr₂).trans hins, ?_⟩
  have hfrag : h₂.isDocumentFragment = h.isDocumentFragment := funext hs.isDocumentFragment
  rw [collected, hfrag] at hres
  exact s₂.of_inserted (by rw [hs.size]; exact hp) hres

end Settled

/-! ## One call -/

section Call

variable {h h' : Heap} {d p n : NodeId} {ch : NodeId → List NodeId} {fuel : Nat}

/-- What a call does: it ends, and either it follows its specification or it sets an exception
and changes nothing. -/
def Refines (h : Heap) (d : NodeId) (ch' : NodeId → List NodeId) (o : Option Result) : Prop :=
  ∃ r, o = some r ∧ (r.exception = none → Settled r.heap d ch') ∧
    (r.exception ≠ none → r.heap = h)

theorem Refines.of_exception {ch' : NodeId → List NodeId} {o : Option Result}
    (ret : Option NodeId) (e : DOMException) (ho : o = some ⟨h, ret, some e⟩) :
    Refines h d ch' o :=
  ⟨_, ho, (fun he => by cases he), fun _ => rfl⟩

theorem Refines.of_success {ch' : NodeId → List NodeId} {o : Option Result}
    (ret : Option NodeId) (ho : o = some ⟨h', ret, none⟩) (s : Settled h' d ch') :
    Refines h d ch' o :=
  ⟨_, ho, fun _ => s, fun he => absurd rfl he⟩

theorem appendChild_refines (s : Settled h d ch) (hfuel : h.size < fuel) (hp : p < h.size)
    (hn : n < h.size) :
    Refines h d (specAppend h.isDocumentFragment ch p n) (Node.appendChild h fuel p n) := by
  unfold Node.appendChild
  split
  · rename_i hcont
    obtain ⟨e, hval⟩ := ensurePreInsertionValidity_total s.wellFormed hfuel p n none none
    cases e with
    | some e => exact .of_exception (some n) e (by simp [ContainerNode.appendChild, hval])
    | none =>
      obtain ⟨h', hop, hres⟩ := appendChild_spec s.wellFormed s.versions hfuel hval
        (s.insertion hfuel hp hn hcont hval) fun o ho => s.undisturbed hn hp ho
      exact .of_success _ hop (s.of_inserted hp hres)
  · exact .of_exception _ _ rfl

theorem insertBefore_refines {ref : NodeId} (s : Settled h d ch) (hfuel : h.size < fuel)
    (hp : p < h.size) (hn : n < h.size) :
    Refines h d (specInsertBefore h.isDocumentFragment ch p n ref)
      (Node.insertBefore h fuel p n (some ref)) := by
  unfold Node.insertBefore
  split
  · rename_i hcont
    obtain ⟨e, hval⟩ := ensurePreInsertionValidity_total s.wellFormed hfuel p n (some ref) none
    cases e with
    | some e => exact .of_exception (some n) e (by simp [ContainerNode.insertBefore, hval])
    | none =>
      obtain ⟨h', hop, hres⟩ := insertBefore_spec s.wellFormed s.versions hfuel hval
        (s.insertion hfuel hp hn hcont hval) fun o ho => s.undisturbed hn hp ho
      exact .of_success _ hop (s.of_inserted hp hres)
  · exact .of_exception _ _ rfl

theorem removeChild_refines {c : NodeId} (s : Settled h d ch) (hfuel : h.size < fuel)
    (hp : p < h.size) :
    Refines h d (specRemove ch c) (Node.removeChild h fuel p (some c)) := by
  unfold Node.removeChild
  split
  · by_cases hc : h.links.parent c = some p
    · obtain ⟨h', hop, w', hs, hbump⟩ :=
        removeChild_spec s.wellFormed hfuel (s.wellFormed.mem_iff.mpr hc)
      exact .of_success _ hop (s.of_bumped w' hs hp hbump)
    · exact .of_exception none ContainerNode.notAChildError
        (by simp [ContainerNode.removeChild, Heap.parentNode, hc])
  · exact .of_exception _ _ rfl

theorem replaceChild_refines {old : NodeId} (s : Settled h d ch) (hfuel : h.size < fuel)
    (hp : p < h.size) (hn : n < h.size) (hcont : h.isContainerNode p = true) :
    Refines h d (specReplace h.isDocumentFragment ch p n old)
      (ContainerNode.replaceChild h fuel p n (some old)) := by
  obtain ⟨e, hval⟩ := ensurePreInsertionValidity_total s.wellFormed hfuel p n none (some old)
  cases e with
  | some e => exact .of_exception (some old) e (by simp [ContainerNode.replaceChild, hval])
  | none =>
    obtain ⟨h', hop, hres⟩ := s.replaceChild hfuel hp hn hcont hval
    exact .of_success _ hop hres

theorem parserAppendChild_refines (s : Settled h d ch) (hfuel : h.size < fuel)
    (hp : p < h.size) (hn : n < h.size) (hcont : h.isContainerNode p = true)
    (hroot : (Call.parserAppendChild p n).ParserRoot h) :
    Refines h d (update ch p (ch p ++ [n])) ((Call.parserAppendChild p n).exec fuel h) := by
  obtain ⟨hpar, hdoc, habove⟩ := hroot
  obtain ⟨e, he⟩ := parserChildException_total s.wellFormed hfuel p n
  cases e with
  | some e =>
    refine .of_exception none e ?_
    simp [Call.exec, ContainerNode.parserAppendChild, ContainerNode.checkParserAcceptChild, he]
  | none =>
    obtain ⟨h', hop, hres⟩ := parserAppendChild_spec s.wellFormed s.versions hfuel hp hcont
      ⟨hn, hpar, hdoc, habove⟩ (by simp [ContainerNode.checkParserAcceptChild, he])
    refine .of_success none ?_ (s.of_inserted hp hres)
    simp [Call.exec, he, hop]

theorem removeChildren_refines (s : Settled h d ch) (hfuel : h.size < fuel) (hp : p < h.size) :
    Refines h d (specRemoveChildren ch p) ((Call.removeChildren p).exec fuel h) := by
  obtain ⟨h', hop, w', hs, hnil, hbump⟩ := removeChildren_spec s.wellFormed hfuel p
  have hexec : (Call.removeChildren p).exec fuel h = some ⟨h', none, none⟩ := by
    simp [Call.exec, hop]
  refine .of_success none hexec ?_
  by_cases hcs : ch p = []
  · obtain rfl := hnil hcs
    exact { s with wellFormed := w' }
  · exact s.of_bumped w' hs hp (hbump hcs)

theorem SingleDocument.createNode (hd : SingleDocument h d) (type : NodeType) (name : String) :
    SingleDocument (h.createNode type name d) d := by
  intro m hm
  by_cases hms : m = h.size
  · simp [Heap.createNode, hms]
  · simpa [Heap.createNode, hms] using hd m (Nat.lt_of_le_of_ne (Nat.lt_succ_iff.mp hm) hms)

theorem createNode_settled (s : Settled h d ch) {type : NodeType} (name : String)
    (htype : type ≠ .document) (hd : d < h.size) : Settled (h.createNode type name d) d ch where
  wellFormed := s.wellFormed.createNode name htype hd
  singleDocument := s.singleDocument.createNode type name
  versions := s.versions
  current := s.current

/-- **Every admissible call refines its specification.** -/
theorem call_refines (s : Settled h d ch) (hfuel : h.size < fuel) {c : Call}
    (hc : c.Admissible h d) :
    Refines h d (c.spec h.isDocumentFragment ch) (c.exec fuel h) := by
  obtain ⟨htyped, hroot, hlocal⟩ := hc
  cases c with
  | createNode type name d' =>
    obtain rfl : d' = d := hlocal
    exact .of_success _ rfl (createNode_settled s name htyped.1 htyped.2)
  | createDocument => exact hlocal.elim
  | incDOMTreeVersion d' =>
    obtain rfl : d' = d := hlocal
    refine .of_success _ rfl ⟨s.wellFormed.congr ⟨⟨rfl, rfl, rfl, rfl⟩, rfl, rfl⟩,
      s.singleDocument, fun m => ?_, .inr (by simp [Heap.incDOMTreeVersion])⟩
    by_cases hm : m = d'
    · simp [Heap.incDOMTreeVersion, hm]
    · simpa [Heap.incDOMTreeVersion, hm] using (s.versions m).trans (Nat.le_succ _)
  | appendChild p n => exact appendChild_refines s hfuel htyped.1 htyped.2
  | insertBefore p n ref =>
    cases ref with
    | none => exact appendChild_refines s hfuel htyped.1 htyped.2.1
    | some ref => exact insertBefore_refines s hfuel htyped.1 htyped.2.1
  | replaceChild p n old =>
    cases old with
    | none => exact .of_exception _ _ rfl
    | some old => exact replaceChild_refines s hfuel htyped.1 htyped.2.1 htyped.2.2.1
  | removeChild p c =>
    cases c with
    | none =>
      simp only [Call.exec, Node.removeChild]
      split
      · exact .of_exception _ _ rfl
      · exact .of_exception _ _ rfl
    | some c => exact removeChild_refines s hfuel htyped.1
  | removeChildren p => exact removeChildren_refines s hfuel htyped.1
  | parserAppendChild p n =>
    exact parserAppendChild_refines s hfuel htyped.1 htyped.2.1 htyped.2.2 hroot

end Call

/-! ## Runs -/

/-- The invariant holds after an admissible call that returns. -/
theorem call_settled {h : Heap} {d : NodeId} {ch : NodeId → List NodeId} {fuel : Nat} {c : Call}
    {r : Result} (s : Settled h d ch) (hfuel : h.size < fuel) (hc : c.Admissible h d)
    (hexec : c.exec fuel h = some r) : ∃ ch', Settled r.heap d ch' := by
  obtain ⟨r', hexec', hok, herr⟩ := call_refines s hfuel hc
  obtain rfl : r = r' := Option.some.inj (hexec.symm.trans hexec')
  by_cases he : r.exception = none
  · exact ⟨_, hok he⟩
  · exact ⟨ch, by rw [herr he]; exact s⟩

/-- **The invariant holds after every run.** -/
theorem run_settled {h h' : Heap} {d : NodeId} {calls : List Call}
    (hs : ∃ ch, Settled h d ch) (hrun : Steps (CallStep d) h calls h') :
    ∃ ch, Settled h' d ch := by
  refine Steps.invariant (I := fun h => ∃ ch, Settled h d ch) ?_ hs hrun
  rintro h c h' ⟨ch, s⟩ ⟨hc, fuel, r, hfuel, hexec, rfl⟩
  exact call_settled s hfuel hc hexec

/-- **The DOM methods refine the operations on child lists.** Start from freshly created nodes of
one document and run any admissible calls. The links then represent child lists without a cycle,
and the next admissible call ends, leaving the child lists of its specification or an exception
and an unchanged heap. -/
theorem dom_calls_refine_child_lists {h h' : Heap} {d : NodeId} {calls : List Call}
    (hfresh : Fresh h d) (hrun : Steps (CallStep d) h calls h') :
    ∃ ch, Represents h'.links ch ∧ Acyclic h'.links.parent ∧
      ∀ (c : Call) (fuel : Nat), c.Admissible h' d → h'.size < fuel →
        ∃ r, c.exec fuel h' = some r ∧
          (r.exception = none → Acyclic r.heap.links.parent ∧
            Represents r.heap.links (c.spec h'.isDocumentFragment ch)) ∧
          (r.exception ≠ none → r.heap = h') := by
  obtain ⟨ch, s⟩ := run_settled ⟨_, hfresh.settled⟩ hrun
  refine ⟨ch, s.wellFormed.represents, s.wellFormed.acyclic, fun c fuel hc hfuel => ?_⟩
  obtain ⟨r, hexec, hok, herr⟩ := call_refines s hfuel hc
  exact ⟨r, hexec, fun he => ⟨(hok he).wellFormed.acyclic, (hok he).wellFormed.represents⟩, herr⟩

/-! ## What the parser must not append -/

/-- A document `0` with two elements `1` and `2`, all without parents. -/
def twoElements : Heap :=
  (Heap.initial.createDocument.createNode .element "A" 0).createNode .element "B" 0

theorem twoElements_fresh : Fresh twoElements 0 where
  links := rfl
  scope := by decide
  documents := by decide
  connected := by decide
  versions n := by
    by_cases hn : n = 0
    · subst hn; decide
    · simp [twoElements, Heap.createDocument, Heap.createNode, Heap.initial, hn]

/-- `1` becomes a child of the document, then `2` a child of `1`. -/
theorem twoElements_run : ∃ h' ch, Steps (CallStep 0) twoElements [.appendChild 0 1] h' ∧
    Represents h'.links ch ∧ ∃ r, (Call.appendChild 1 2).exec 4 h' = some r ∧
      (r.exception = none → Acyclic r.heap.links.parent ∧
        Represents r.heap.links ((Call.appendChild 1 2).spec h'.isDocumentFragment ch)) := by
  have hadm₁ : (Call.appendChild 0 1).Admissible twoElements 0 :=
    ⟨⟨by decide, by decide⟩, trivial, trivial⟩
  have hrun : Steps (CallStep 0) twoElements [.appendChild 0 1] _ :=
    .cons ⟨hadm₁, 4, _, by decide, rfl, rfl⟩ (.nil _)
  obtain ⟨ch, hrep, -, hnext⟩ := dom_calls_refine_child_lists twoElements_fresh hrun
  obtain ⟨r, hexec, hok, -⟩ := hnext (.appendChild 1 2) 4
    ⟨⟨by decide, by decide⟩, trivial, trivial⟩ (by decide)
  exact ⟨_, ch, hrun, hrep, r, hexec, hok⟩

/-- A child linked above its own container: telling its subtree never ends. -/
theorem notifyNodeInsertedInternal_eq_none {h : Heap} {ch : NodeId → List NodeId} {p c q : NodeId}
    {fuel : Nat} (hrep : Represents h.links ch) (hlen : ∀ r, (ch r).length ≤ fuel)
    (hc : h.links.parent c = some q) (hqc : Above h.links.parent q c) :
    h.notifyNodeInsertedInternal fuel p c = none := by
  simp [Heap.notifyNodeInsertedInternal, Heap.inclusiveDescendantsOf,
    preorder_eq_none_of_cycle hrep hlen hc hqc]

theorem parserAppendChild_self {fuel : Nat} :
    (Call.parserAppendChild 1 1).exec fuel twoElements = none := by
  have hrep : Represents (twoElements.adoptAndAppendChild false 1 1).links
      (update (fun _ => []) 1 ([] ++ [1])) := represents_empty.append rfl
  have hnotify : (twoElements.adoptAndAppendChild false 1 1).notifyNodeInsertedInternal fuel 1 1 =
      none := by
    cases fuel with
    | zero => rfl
    | succ fuel =>
      refine notifyNodeInsertedInternal_eq_none hrep (fun r => ?_) (q := 1) rfl (.refl 1)
      by_cases hr : r = 1
      · subst hr; simp
      · simp [hr]
  have hdetach : ContainerNode.parserDetach 1 fuel twoElements = some twoElements := by
    cases fuel <;> rfl
  have hdoc : twoElements.isDocumentNode 1 = false := rfl
  simp [Call.exec, ContainerNode.parserAppendChild, ContainerNode.checkParserAcceptChild,
    ContainerNode.parserChildException, hdoc, hdetach, hnotify]

/-- The document `0` has the child `2` and, by the parser, the parent `1`. -/
def documentInElement : Heap :=
  (((twoElements.adoptAndAppendChild true 0 2).setConnected 2 true).childrenChanged
    0).adoptAndAppendChild false 1 0 |>.childrenChanged 1

theorem appendChild_below_document {fuel : Nat} :
    (Call.appendChild 2 1).exec fuel documentInElement = none := by
  have h₀ : Represents (Links.empty.append 0 2) (update (fun _ => []) (0 : NodeId) [2]) :=
    represents_empty.append rfl
  have h₁ := h₀.append (p := 1) (c := 0) rfl
  have h₂ := h₁.append (p := 2) (c := 1) rfl
  have hrep : Represents (documentInElement.adoptAndAppendChild true 2 1).links
      (update (update (update (fun _ => []) 0 [2]) 1 [0]) 2 [1]) := by
    change Represents (((Links.empty.append 0 2).append 1 0).append 2 1) _
    simpa using h₂
  have hcycle : Above (documentInElement.adoptAndAppendChild true 2 1).links.parent 2 1 := by
    have h₂₀ : (documentInElement.adoptAndAppendChild true 2 1).links.parent 2 = some 0 := rfl
    have h₀₁ : (documentInElement.adoptAndAppendChild true 2 1).links.parent 0 = some 1 := rfl
    exact (Above.of_parent h₂₀).trans (.of_parent h₀₁)
  have hnotify : (documentInElement.adoptAndAppendChild true 2 1).notifyNodeInsertedInternal
      fuel 2 1 = none := by
    cases fuel with
    | zero => rfl
    | succ fuel =>
      refine notifyNodeInsertedInternal_eq_none hrep (fun r => ?_) (q := 2) rfl hcycle
      by_cases h₂ : r = 2 <;> by_cases h₁ : r = 1 <;> by_cases h₀ : r = 0 <;> simp [h₂, h₁, h₀]
  have hval : ContainerNode.ensurePreInsertionValidity documentInElement fuel 2 1 none none =
      some none := rfl
  have hcol : ContainerNode.collectChildrenAndRemoveFromOldParent documentInElement fuel 1 =
      some ⟨documentInElement, [1], none⟩ := rfl
  have hcont : documentInElement.isContainerNode 2 = true := rfl
  simp [Call.exec, Node.appendChild, hcont, ContainerNode.appendChild, hval,
    ContainerNode.insertChecked, hcol, ContainerNode.Collected.proceed, needsRecheck_same,
    ContainerNode.insertNodeVector, ContainerNode.mutator, hnotify]

/-- **What the parser appends must be neither the document nor above the container.** Among
freshly created nodes, appending the root `1` to itself writes a cycle and never returns. And once
the parser has appended the document `0` to `1`, the check of `AppendChild` no longer sees that
`1` is above `2`, a child of the document: the insertion of `1` under `2` does not return. -/
theorem parserAppendChild_cycle :
    Fresh twoElements 0 ∧ twoElements.links.parent 1 = none ∧
      (twoElements.adoptAndAppendChild false 1 1).links.parent 1 = some 1 ∧
      (∀ fuel, (Call.parserAppendChild 1 1).exec fuel twoElements = none) ∧
      ∃ r₁ r₂, (Call.appendChild 0 2).exec 4 twoElements = some r₁ ∧
        r₁.heap.links.parent 0 = none ∧
        (Call.parserAppendChild 1 0).exec 4 r₁.heap = some r₂ ∧
        ∀ fuel, (Call.appendChild 2 1).exec fuel r₂.heap = none :=
  ⟨twoElements_fresh, rfl, rfl, fun _ => parserAppendChild_self, _, _, rfl, rfl, rfl,
    fun _ => appendChild_below_document⟩

end Blinkit.Dom
