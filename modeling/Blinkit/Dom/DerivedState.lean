import Blinkit.Dom.DerivedData
import Blinkit.Dom.ElementsById

/-!
# State derived from attributes

The elements of a document in no-quirks mode: they are made by the parser, by `createElement` or by
cloning, they are inserted and looked up by their ids, and their attributes are set.

* `ElementPage` — a page, and the attributes of its nodes.
* `ElementPage.setAttribute` — `Element::setAttribute`, with the registration of an id by
  `DidAddAttribute`; what it does to the attributes is what `Store.setAttribute` does
  (`setAttribute_store`).
* `ElementPage.Derived` — the class names, the id for styles and the lookups answer from the
  current attributes.
* `ElementPage.Invariant` — the map of ids fits the tree, all data are current.
* `Keeps` — a step does not give an attribute that is there a value that somebody has to be told.

`DidModifyAttribute` is a stub, so nobody is told.

Principal result: `derived_iff_keeps`.
-/

set_option autoImplicit false

namespace Blinkit.Dom

open LinkedForest Function Transition Attributes

/-- A document in no-quirks mode. -/
def noQuirks (isValidName : Str → Bool) (attributeHash : List Attribute → UInt32) : Environment :=
  ⟨isValidName, attributeHash, fun _ => false⟩

/-- The nodes of the page are numbered in the store as they are in the heap. -/
structure ElementPage where
  page : IdPage
  store : Store

namespace ElementPage

def newDocument : ElementPage := ⟨.newDocument, Store.initial.newElement 0⟩

section Operations

variable (env : Environment) (s : ElementPage)

/-- `Element::UpdateId`, when there is no old id. -/
def updateId (e : ElementId) (newId : Str) : ElementPage :=
  if s.page.heap.isConnected e then
    { s with page := s.page.updateId (s.page.heap.document e) e newId }
  else s

/-- `Element::AppendAttributeInternal`, with `DidAddAttribute`. -/
def appendAttributeInternal (e : ElementId) (name : QualifiedName) (value : Str) :
    Except Fault ElementPage :=
  let s := if name = kIdAttr then s.updateId e value else s
  (s.store.appendAttributeInternal env e name value).map fun store => { s with store }

/-- `Element::SetAttributeInternal`, with a value. -/
def setAttributeInternal (e : ElementId) (index : Option Nat) (name : QualifiedName)
    (newValue : Str) : Except Fault ElementPage :=
  match index with
  | none => s.appendAttributeInternal env e name newValue
  | some index =>
    (s.store.setAttributeInternal env e (some index) name (some newValue)).map fun store =>
      { s with store }

/-- `Element::setAttribute`. -/
def setAttribute (e : ElementId) (localName value : Str) :
    Except Fault (ElementPage × Option Attributes.DOMException) :=
  if !env.isValidName localName then
    .ok (s, some ⟨'\x27' :: localName ++ "' is not a valid attribute name.".toList⟩)
  else
    let caseAdjustedLocalName := lowerASCII localName
    let name : QualifiedName := ⟨none, caseAdjustedLocalName, none⟩
    let r :=
      match s.store.elementData e with
      | none => s.setAttributeInternal env e none name value
      | some a =>
        let attributes := (s.store.data a).attributes
        let index := findIndex attributes caseAdjustedLocalName
        let qName := ((index.bind fun i => attributes[i]?).map Attribute.name).getD name
        s.setAttributeInternal env e index qName value
    r.map fun s => (s, none)

/-- `TreeScope::getElementById` in the scope of the document. -/
def getElementById (id : Str) : Option (Option NodeId) :=
  (s.page.getElementById s.store.getIdAttribute 0 id).map Prod.fst

end Operations

end ElementPage

/-! ## Runs -/

inductive ElementLabel where
  /-- A new node, an insertion or a lookup. -/
  | dom (a : IdLabel)
  | startParsing
  | elementDataCacheClearTimerFired
  /-- The parser makes an element with these attributes. -/
  | parse (name : String) (attributes : List Attribute)
  /-- An element of a `cloneNode`. -/
  | clone (other : NodeId)
  | setAttribute (e : NodeId) (localName value : Str)

namespace ElementPage

/-- The arguments exist, and the parser has dropped attributes that are given twice. -/
def Permitted (s : ElementPage) : ElementLabel → Prop
  | .dom a => a.Permitted s.page.heap
  | .startParsing | .elementDataCacheClearTimerFired => True
  | .parse _ attributes => WellNamed attributes
  | .clone e | .setAttribute e _ _ =>
    e < s.page.heap.size ∧ s.page.heap.isElementNode e = true

instance (h : Heap) : (a : IdLabel) → Decidable (a.Permitted h)
  | .createNode type _ => inferInstanceAs (Decidable (type ≠ .document))
  | .appendChild p n | .insertBefore p n none =>
    inferInstanceAs (Decidable (p < h.size ∧ n < h.size ∧ h.isConnected n = false))
  | .insertBefore p n (some ref) =>
    inferInstanceAs (Decidable (p < h.size ∧ n < h.size ∧ ref < h.size ∧ h.isConnected n = false))
  | .parserAppendChild p n =>
    inferInstanceAs (Decidable (p < h.size ∧ n < h.size ∧ h.isContainerNode p = true ∧
      h.isConnected n = false ∧ h.isDocumentFragment n = false))
  | .getElementById _ => inferInstanceAs (Decidable True)
  | .getElementByIdBelow n _ =>
    inferInstanceAs (Decidable (n < h.size ∧ h.isContainerNode n = true))

instance (s : ElementPage) : (a : ElementLabel) → Decidable (s.Permitted a)
  | .dom a => inferInstanceAs (Decidable (a.Permitted s.page.heap))
  | .startParsing | .elementDataCacheClearTimerFired => inferInstanceAs (Decidable True)
  | .parse _ attributes => inferInstanceAs (Decidable (WellNamed attributes))
  | .clone e | .setAttribute e _ _ =>
    inferInstanceAs (Decidable (e < s.page.heap.size ∧ s.page.heap.isElementNode e = true))

/-- The store gives a new node its number. -/
def created (store : Store) : IdLabel → Store
  | .createNode _ _ => store.newElement 0
  | _ => store

/-- The heap with a new element. -/
def createElement (s : ElementPage) (name : String) : IdPage :=
  { s.page with heap := s.page.heap.createNode .element name 0 }

/-- A step. `CloneAttributesFrom` has no id to register: the clone is not in the document. -/
def exec (env : Environment) (s : ElementPage) : ElementLabel → Option ElementPage
  | .dom a => (a.exec s.store.getIdAttribute 0 s.page.heap.bound s.page).map fun page =>
      ⟨page, created s.store a⟩
  | .startParsing => some { s with store := s.store.startParsing 0 }
  | .elementDataCacheClearTimerFired =>
    some { s with store := s.store.elementDataCacheClearTimerFired 0 }
  | .parse name attributes =>
    ((s.store.newElement 0).parserSetAttributes env s.page.heap.size attributes).toOption.map
      fun store => ⟨s.createElement name, store⟩
  | .clone other =>
    ((s.store.newElement (s.store.document other)).cloneAttributesFrom env
      s.page.heap.size other).toOption.map
        fun store => ⟨s.createElement (s.page.heap.nodeName other), store⟩
  | .setAttribute e localName value => (s.setAttribute env e localName value).toOption.map Prod.fst

/-- A run ends with a label that is not permitted, or with a fault. -/
def next (env : Environment) (s : ElementPage) (a : ElementLabel) : Option ElementPage :=
  if s.Permitted a then s.exec env a else none

/-! ## The property -/

/-- **What is derived from the attributes of an element is what they say now.** -/
structure Derived (s : ElementPage) (e : ElementId) : Prop where
  classNames : ∀ c, s.store.hasClassName e c = true ↔
    ∃ value, s.store.fastGetAttribute e kClassAttr = some value ∧ c ∈ classTokens value
  id : s.store.idForStyleResolution e = s.store.fastGetAttribute e kIdAttr
  found : s.page.heap.isConnected e = true → ∀ id, id ≠ [] →
    s.store.fastGetAttribute e kIdAttr = some id →
    (∀ o, o < s.page.heap.size → s.page.heap.isElementNode o = true →
      s.page.heap.isConnected o = true → s.store.fastGetAttribute o kIdAttr = some id → o = e) →
    s.getElementById id = some (some e)
  notFound : ∀ id, s.store.fastGetAttribute e kIdAttr ≠ some id →
    ∃ o, s.getElementById id = some o ∧ o ≠ some e

/-- All elements answer from their attributes. -/
def AllDerived (s : ElementPage) : Prop :=
  ∀ e, e < s.page.heap.size → s.page.heap.isElementNode e = true → s.Derived e

/-- The attribute that `setAttribute` gives a new value. -/
def existingAttribute (env : Environment) (s : ElementPage) (e : ElementId) (localName : Str) :
    Option Attribute :=
  if env.isValidName localName then
    let attributes := (s.store.dataOf e).attributes
    (findIndex attributes (lowerASCII localName)).bind (attributes[·]?)
  else none

/-- The value of an attribute that is there is not set, or it is set to a value that leaves the
tokens of a class, or the id, as they are. -/
def Keeps (env : Environment) (s : ElementPage) : ElementLabel → Prop
  | .setAttribute e localName value => s.Permitted (.setAttribute e localName value) →
      ∀ a, s.existingAttribute env e localName = some a → Harmless a value
  | _ => True

end ElementPage

/-! ## Ids that change -/

section Ids

variable {getIdAttribute getIdAttribute' : NodeId → Option Str} {s : IdPage} {h : Heap}
  {ch : NodeId → List NodeId} {d e : NodeId} {value : Str}

/-- What a document has under an id are the connected elements with the id. -/
theorem mem_elementsWithId_document (w : WellFormed h ch) (hd : SingleDocument h d)
    (hds : d < h.size) {id : Str} : e ∈ elementsWithId getIdAttribute h d id ↔ e < h.size ∧
      h.isConnected e = true ∧ h.isElementNode e = true ∧ getIdAttribute e = some id := by
  have hself := hd d hds
  have hiff : e < h.size → (Above h.links.parent e d ↔ h.isConnected e = true) := fun he =>
    w.above_document_iff hd (Nat.lt_succ_self h.size) he
  rw [mem_elementsWithId w]
  constructor
  · rintro ⟨⟨hne, habove⟩, hel, hid⟩
    obtain ⟨p, hp, -⟩ := (above_iff_head.mp habove).resolve_left hne
    have he := (w.allocated e p hp).1
    exact ⟨he, (hiff he).mp habove, hel, hid⟩
  · rintro ⟨he, hconn, hel, hid⟩
    refine ⟨⟨?_, (hiff he).mpr hconn⟩, hel, hid⟩
    rintro rfl
    have htype := (w.document_type e he).mpr hself
    rw [Heap.isElementNode, htype] at hel
    cases hel

/-- The ids of what is not in the document do not count. -/
theorem IdInvariant.congr (i : IdInvariant getIdAttribute d s)
    (hids : ∀ e, s.heap.isConnected e = true → getIdAttribute' e = getIdAttribute e) :
    IdInvariant getIdAttribute' d s := by
  obtain ⟨⟨ch, r⟩, v, f⟩ := i
  refine ⟨⟨ch, r.wellFormed, r.singleDocument, r.allocated, fun key hkey => ?_⟩, v, f⟩
  have hself := r.singleDocument d r.allocated
  have hconn := (r.wellFormed.connected_root d r.allocated
    (r.wellFormed.document_root d hself)).mpr hself
  have hsame : elementsWithId getIdAttribute' s.heap d key =
      elementsWithId getIdAttribute s.heap d key := by
    refine List.filter_congr fun x hx => ?_
    have habove := ((mem_descendantsOf r.wellFormed).mp (List.mem_filter.mp hx).1).2
    rw [hids x ((r.wellFormed.connected_above habove).trans hconn)]
  rw [hsame]
  exact r.fits key hkey

/-- **An element of the document that gets its first id is registered under it.** -/
theorem IdInvariant.register (i : IdInvariant getIdAttribute d s) (he : e < s.heap.size)
    (hel : s.heap.isElementNode e = true) (hconn : s.heap.isConnected e = true)
    (hnone : getIdAttribute e = none) (hself : getIdAttribute' e = some value)
    (hother : ∀ o, o ≠ e → getIdAttribute' o = getIdAttribute o) :
    IdInvariant getIdAttribute' d (s.updateId d e value) := by
  obtain ⟨⟨ch, r⟩, v, f⟩ := i
  have hheap := updateId_heap s d e value
  -- under another key nothing changes
  have hkeep : ∀ key, key ≠ value → elementsWithId getIdAttribute' s.heap d key =
      elementsWithId getIdAttribute s.heap d key := by
    intro key hkey
    refine List.filter_congr fun x _ => ?_
    by_cases hx : x = e
    · subst hx
      rw [hself, hnone]
      simp [Ne.symm hkey]
    · rw [hother x hx]
  refine ⟨⟨ch, ?_, ?_, ?_, fun key hkey => ?_⟩, ?_, ?_⟩
  · exact hheap ▸ r.wellFormed
  · exact hheap ▸ r.singleDocument
  · exact hheap ▸ r.allocated
  · have hfits := r.fits key hkey
    rw [hheap]
    unfold IdPage.updateId
    split
    · rename_i hempty
      rw [hkeep key fun hk => hkey (hk.trans (List.isEmpty_iff.mp hempty))]
      exact hfits
    · dsimp only
      rw [update_self, TreeScope.addElementById, Option.bind_some, TreeOrderedMap.add]
      by_cases hk : key = value
      · subst hk
        have hold : ((s.elementsById d).getD .empty) key = (s.elementsById d).bind (· key) := by
          cases s.elementsById d <;> rfl
        rw [update_self, hold]
        have hsub : (elementsWithId getIdAttribute s.heap d key).Sublist
            (elementsWithId getIdAttribute' s.heap d key) := by
          refine List.monotone_filter_right _ fun x hx => ?_
          have hid : getIdAttribute x = some key := by simpa using hx
          have hne : x ≠ e := by
            rintro rfl
            rw [hnone] at hid
            cases hid
          simpa [hother x hne] using hid
        have hmem : ∀ y, y ∈ elementsWithId getIdAttribute' s.heap d key ↔
            y ∈ elementsWithId getIdAttribute s.heap d key ∨ y ∈ [e] := by
          intro y
          rw [mem_elementsWithId_document r.wellFormed r.singleDocument r.allocated,
            mem_elementsWithId_document r.wellFormed r.singleDocument r.allocated,
            List.mem_singleton]
          by_cases hy : y = e
          · subst hy
            exact iff_of_true ⟨he, hconn, hel, hself⟩ (.inr rfl)
          · rw [hother y hy, or_iff_left hy]
        exact hfits.addAll hsub (elementsWithId_nodup r.wellFormed d key) hmem
      · have hold : ((s.elementsById d).getD .empty) key = (s.elementsById d).bind (· key) := by
          cases s.elementsById d <;> rfl
        rw [update_of_ne hk, hold, hkeep key hk]
        exact hfits
  · exact hheap ▸ v
  · exact hheap ▸ f

end Ids

/-! ## The invariant -/

namespace ElementPage

/-- **The map of ids fits the tree, and all data are current.** -/
structure Invariant (env : Environment) (s : ElementPage) : Prop where
  ids : IdInvariant s.store.getIdAttribute 0 s.page
  sound : s.store.Sound env
  current : s.store.Current
  elements : s.store.elements = s.page.heap.size

section Property

variable {env : Environment} {s : ElementPage} {e o : ElementId} {id : Str}

/-- The lookup answers the first element with the id. -/
theorem Invariant.getElementById_eq (i : s.Invariant env) (hid : id ≠ []) :
    s.getElementById id =
      some (elementsWithId s.store.getIdAttribute s.page.heap 0 id).head? := by
  obtain ⟨⟨ch, r⟩, -, f⟩ := i.ids
  obtain ⟨element, s', heq, -, -, hfirst⟩ := r.getElementById f id
  rw [getElementById, heq, ← hfirst hid]
  rfl

theorem Invariant.mem_elementsWithId (i : s.Invariant env) :
    o ∈ elementsWithId s.store.getIdAttribute s.page.heap 0 id ↔ o < s.page.heap.size ∧
      s.page.heap.isConnected o = true ∧ s.page.heap.isElementNode o = true ∧
        s.store.fastGetAttribute o kIdAttr = some id := by
  obtain ⟨⟨ch, r⟩, -, -⟩ := i.ids
  rw [mem_elementsWithId_document r.wellFormed r.singleDocument r.allocated,
    i.current.getIdAttribute]

/-- **The invariant gives the property.** -/
theorem Invariant.derived (i : s.Invariant env) : s.AllDerived := by
  intro e he hel
  have hcurrent := i.current.dataOf e
  refine ⟨fun c => ?_, ?_, fun hconn id hid hself halone => ?_, fun id hself => ?_⟩
  · rw [Store.hasClassName_eq, Store.fastGetAttribute_eq]
    exact hcurrent.classNames c
  · rw [Store.idForStyleResolution_eq, Store.fastGetAttribute_eq]
    exact hcurrent.id
  · rw [i.getElementById_eq hid]
    have hmem := i.mem_elementsWithId.mpr ⟨he, hconn, hel, hself⟩
    cases hhead : (elementsWithId s.store.getIdAttribute s.page.heap 0 id).head? with
    | none =>
      rw [List.head?_eq_none_iff.mp hhead] at hmem
      cases hmem
    | some o =>
      obtain ⟨ho, hoconn, hoel, hoid⟩ := i.mem_elementsWithId.mp (List.mem_of_head? hhead)
      rw [halone o ho hoel hoconn hoid]
  · by_cases hid : id = []
    · subst hid
      exact ⟨none, rfl, fun h => by cases h⟩
    · refine ⟨_, i.getElementById_eq hid, fun hhead => hself ?_⟩
      exact (i.mem_elementsWithId.mp (List.mem_of_head? hhead)).2.2.2

/-- Data of which the property says that they are current. -/
theorem Derived.current (h : s.Derived e) (w : WellNamed (s.store.dataOf e).attributes) :
    (s.store.dataOf e).Current where
  named := w
  classNames c := by
    have hclass := h.classNames c
    rwa [Store.hasClassName_eq, Store.fastGetAttribute_eq] at hclass
  id := by
    have hid := h.id
    rwa [Store.idForStyleResolution_eq, Store.fastGetAttribute_eq] at hid

theorem invariant_newDocument (env : Environment) : newDocument.Invariant env where
  ids := idInvariant_newDocument
  sound := (Store.sound_initial env).newElement 0
  current := Store.current_initial
  elements := rfl

end Property

/-! ## One step -/

section Steps

variable {env : Environment} {s s' : ElementPage} {e o : ElementId} {a : ElementLabel}
  {localName value : Str} {store : Store}

/-- What `setAttribute` does to the attributes. -/
theorem setAttribute_store (env : Environment) (s : ElementPage) (e : ElementId)
    (localName value : Str) :
    (s.setAttribute env e localName value).map (fun r => (r.1.store, r.2)) =
      s.store.setAttribute env e localName (some value) := by
  have hinternal : ∀ index name, (s.setAttributeInternal env e index name value).map store =
      s.store.setAttributeInternal env e index name (some value) := by
    intro index name
    cases index with
    | none =>
      have hstore : (if name = kIdAttr then s.updateId e value else s).store = s.store := by
        unfold updateId
        split
        · split <;> rfl
        · rfl
      change ((Store.appendAttributeInternal env
        (if name = kIdAttr then s.updateId e value else s).store e name value).map _).map _ =
          s.store.appendAttributeInternal env e name value
      rw [hstore]
      cases s.store.appendAttributeInternal env e name value <;> rfl
    | some index =>
      change ((s.store.setAttributeInternal env e (some index) name (some value)).map _).map _ = _
      cases s.store.setAttributeInternal env e (some index) name (some value) <;> rfl
  have hmap : ∀ r : Except Fault ElementPage, (r.map fun s => (s, none)).map
      (fun r : ElementPage × Option Attributes.DOMException => (r.1.store, r.2)) =
        (r.map store).map fun s => (s, none) := by
    intro r
    cases r <;> rfl
  unfold setAttribute Store.setAttribute
  split
  · rfl
  · cases s.store.elementData e with
    | none =>
      dsimp only
      rw [hmap, hinternal]
    | some a =>
      dsimp only
      rw [hmap, hinternal]

/-- Without an attribute of the name `setAttribute` appends one, if the name is valid. -/
theorem setAttribute_append (value : Str) (h : s.store.Current)
    (hnone : s.existingAttribute env e localName = none) :
    (∃ x, s.setAttribute env e localName value = .ok (s, x)) ∨
      ∃ name, name.pre = none ∧
        (∀ b ∈ (s.store.dataOf e).attributes, b.name.isMatch name = false) ∧
        s.setAttribute env e localName value =
          (s.appendAttributeInternal env e name value).map (·, none) := by
  unfold existingAttribute at hnone
  unfold setAttribute
  split at hnone
  · rename_i hvalid
    rw [if_neg (by simp [hvalid])]
    refine .inr ⟨⟨none, lowerASCII localName, none⟩, rfl, ?_⟩
    dsimp only at hnone ⊢
    have hindex : findIndex (s.store.dataOf e).attributes (lowerASCII localName) = none := by
      cases hfind : findIndex (s.store.dataOf e).attributes (lowerASCII localName) with
      | none => rfl
      | some index =>
        obtain ⟨b, hb⟩ := findIndex_some hfind
        rw [hfind, Option.bind_some, hb] at hnone
        cases hnone
    refine ⟨findIndex_none (h.dataOf e).named hindex, ?_⟩
    cases ha : s.store.elementData e with
    | none => rfl
    | some a =>
      rw [Store.dataOf_of_some ha] at hindex
      dsimp only
      rw [hindex]
      rfl
  · rename_i hvalid
    rw [if_pos (by simp [hvalid])]
    exact .inl ⟨_, rfl⟩

/-- An attribute of the name is given the value. -/
theorem setAttribute_modify (value : Str) {b : Attribute}
    (hb : s.existingAttribute env e localName = some b) :
    ∃ a i, s.store.elementData e = some a ∧ (s.store.data a).attributes[i]? = some b ∧
      s.setAttribute env e localName value =
        (s.setAttributeInternal env e (some i) b.name value).map (·, none) := by
  unfold existingAttribute at hb
  unfold setAttribute
  split at hb
  · rename_i hvalid
    rw [if_neg (by simp [hvalid])]
    obtain ⟨i, hindex, hget⟩ := Option.bind_eq_some_iff.mp hb
    cases ha : s.store.elementData e with
    | none =>
      rw [Store.dataOf_of_none ha] at hget
      cases hget
    | some a =>
      rw [Store.dataOf_of_some ha] at hindex hget
      refine ⟨a, i, rfl, hget, ?_⟩
      dsimp only
      rw [hindex, Option.bind_some, hget]
      rfl
  · cases hb

/-- What is seen of the other elements. -/
theorem fastGetAttribute_others (h : Changed env s.store store e) (ho : o ≠ e)
    (name : QualifiedName) : store.fastGetAttribute o name = s.store.fastGetAttribute o name :=
  Store.fastGetAttribute_congr (h.others o ho) name

/-- **An attribute that is appended is told to everybody.** -/
theorem Invariant.appendAttributeInternal (hq : ∀ d, env.inQuirksMode d = false)
    (i : s.Invariant env) (he : e < s.page.heap.size) (hel : s.page.heap.isElementNode e = true)
    {name : QualifiedName} (hpre : name.pre = none)
    (hnew : ∀ b ∈ (s.store.dataOf e).attributes, b.name.isMatch name = false)
    (hs : s.appendAttributeInternal env e name value = .ok s') : s'.Invariant env := by
  have hstore : (if name = kIdAttr then s.updateId e value else s).store = s.store := by
    unfold updateId
    split
    · split <;> rfl
    · rfl
  obtain ⟨store', happend, hwrote⟩ :=
    Store.wrote_appendAttributeInternal env hq s.store e name value
  unfold ElementPage.appendAttributeInternal at hs
  dsimp only at hs
  rw [hstore, happend] at hs
  obtain rfl := Except.ok.inj hs
  have hchanged := i.sound.appendAttributeInternal (i.elements ▸ he) name value happend
  have hunique : ({ s.store.dataOf e with isUnique := true } : ElementData).Current :=
    (i.current.dataOf e).congr rfl rfl rfl
  have hcurrent : store'.Current :=
    hwrote.current i.current (current_append hunique hpre hnew value)
  have hself : ∀ k, store'.fastGetAttribute e k =
      if name.isMatch k then some value else s.store.fastGetAttribute e k := by
    intro k
    rw [Store.fastGetAttribute_eq, hwrote.dataOf, Store.fastGetAttribute_eq,
      attributeChangedData_eq]
    exact fastGetAttribute_append _ hnew value k
  have hother : ∀ o, o ≠ e → store'.getIdAttribute o = s.store.getIdAttribute o := by
    intro o ho
    rw [hcurrent.getIdAttribute, i.current.getIdAttribute]
    exact fastGetAttribute_others hchanged ho kIdAttr
  have hmatch : name.isMatch kIdAttr = true ↔ name = kIdAttr :=
    isMatch_plain rfl rfl fun hsome => by rw [hpre] at hsome; cases hsome
  have hsame : ∀ t : ElementPage, t.page.heap = s.page.heap →
      IdInvariant store'.getIdAttribute 0 t.page → ElementPage.Invariant env ⟨t.page, store'⟩ :=
    fun t hheap hids => ⟨hids, hchanged.sound, hcurrent,
      hchanged.elements.trans (i.elements.trans (congrArg Heap.size hheap.symm))⟩
  by_cases hname : name = kIdAttr
  · have hid : store'.getIdAttribute e = some value := by
      rw [hcurrent.getIdAttribute, hself, if_pos (hmatch.mpr hname)]
    rw [if_pos hname]
    unfold updateId
    split
    · rename_i hconn
      have hnone : s.store.getIdAttribute e = none := by
        rw [i.current.getIdAttribute, Store.fastGetAttribute_eq]
        refine Option.map_eq_none_iff.mpr (List.find?_eq_none.mpr fun b hb => ?_)
        rw [← hname, hnew b hb]
        exact Bool.false_ne_true
      obtain ⟨⟨ch, r⟩, -, -⟩ := i.ids
      rw [r.singleDocument e he]
      exact hsame ⟨s.page.updateId 0 e value, s.store⟩ (updateId_heap ..)
        (i.ids.register he hel hconn hnone hid hother)
    · rename_i hconn
      refine hsame s rfl (i.ids.congr fun o ho => hother o ?_)
      rintro rfl
      exact hconn ho
  · rw [if_neg hname]
    refine hsame s rfl (i.ids.congr fun o _ => ?_)
    by_cases ho : o = e
    · rw [ho, hcurrent.getIdAttribute, i.current.getIdAttribute, hself, if_neg (mt hmatch.mp hname)]
    · exact hother o ho

/-- **A harmless value of an attribute that is there need not be told to anybody.** -/
theorem Invariant.setAttributeInternal (i : s.Invariant env) (he : e < s.page.heap.size)
    {d : DataId} {index : Nat} {b : Attribute} (hd : s.store.elementData e = some d)
    (hb : (s.store.data d).attributes[index]? = some b) (hharmless : Harmless b value)
    {name : QualifiedName} (hs : s.setAttributeInternal env e (some index) name value = .ok s') :
    s'.Invariant env := by
  obtain ⟨store', hset, hwrote⟩ := Store.wrote_setAttributeInternal env hd hb name value
  change (s.store.setAttributeInternal env e (some index) name (some value)).map _ = .ok s' at hs
  have hchanged := i.sound.setAttributeInternal (i.elements ▸ he) _ name _ hset
  rw [hset] at hs
  obtain rfl := Except.ok.inj hs
  rcases hwrote with ⟨rfl, -⟩ | hwrote
  · exact i
  · have hunique : ({ s.store.dataOf e with isUnique := true } : ElementData).Current :=
      (i.current.dataOf e).congr rfl rfl rfl
    rw [← Store.dataOf_of_some hd] at hb
    have hdata := (current_modify_iff hunique hb value).mpr hharmless
    have hcurrent : store'.Current := hwrote.current i.current hdata
    refine ⟨i.ids.congr fun o _ => ?_, hchanged.sound, hcurrent,
      hchanged.elements.trans i.elements⟩
    rw [hcurrent.getIdAttribute, i.current.getIdAttribute]
    by_cases ho : o = e
    · -- the id that is kept has not been written
      rw [ho, Store.fastGetAttribute_eq, hwrote.dataOf, ← hdata.id, Store.fastGetAttribute_eq,
        ← (i.current.dataOf e).id]
    · exact fastGetAttribute_others hchanged ho kIdAttr

/-- **Any other value leaves something that is not what the attributes say.** -/
theorem Invariant.not_derived (i : s.Invariant env) {d : DataId} {index : Nat} {b : Attribute}
    (hd : s.store.elementData e = some d)
    (hb : (s.store.data d).attributes[index]? = some b) (hharmless : ¬ Harmless b value)
    (name : QualifiedName) :
    ∃ s', s.setAttributeInternal env e (some index) name value = .ok s' ∧
      s'.page = s.page ∧ ¬ s'.Derived e := by
  obtain ⟨store', hset, hwrote⟩ := Store.wrote_setAttributeInternal env hd hb name value
  refine ⟨⟨s.page, store'⟩, ?_, rfl, fun hderived => hharmless ?_⟩
  · change (s.store.setAttributeInternal env e (some index) name (some value)).map _ = _
    rw [hset]
    rfl
  · rcases hwrote with ⟨-, rfl⟩ | hwrote
    · exact ⟨fun _ c => Iff.rfl, fun _ => rfl⟩
    · have hunique : ({ s.store.dataOf e with isUnique := true } : ElementData).Current :=
        (i.current.dataOf e).congr rfl rfl rfl
      rw [← Store.dataOf_of_some hd] at hb
      have hnamed : WellNamed (store'.dataOf e).attributes := by
        rw [hwrote.dataOf]
        exact hunique.named.modify hb value
      have hcurrent := hderived.current hnamed
      rw [hwrote.dataOf] at hcurrent
      exact (current_modify_iff hunique hb value).mp hcurrent

theorem of_toOption {α ε : Type} {x : Except ε α} {y : α} (h : x.toOption = some y) :
    x = .ok y := by
  cases x with
  | error e => cases h
  | ok z => exact congrArg Except.ok (Option.some.inj h)

/-- A new element, which is not in the document yet. -/
theorem Invariant.createElement (i : s.Invariant env) (name : String) (hsound : store.Sound env)
    (hcurrent : store.Current) (helements : store.elements = s.store.elements + 1)
    (hothers : ∀ o, o ≠ s.page.heap.size →
      store.fastGetAttribute o kIdAttr = s.store.fastGetAttribute o kIdAttr) :
    ElementPage.Invariant env ⟨s.createElement name, store⟩ := by
  have hne : NodeType.element ≠ NodeType.document := by decide
  have hids : IdInvariant s.store.getIdAttribute 0 (s.createElement name) :=
    registered_step (a := .createNode .element name) i.ids
      ⟨hne, s.page.heap.bound, Nat.lt_succ_self _, rfl⟩
  refine ⟨hids.congr fun o ho => ?_, hsound, hcurrent, ?_⟩
  · have hnew : o ≠ s.page.heap.size := by
      rintro rfl
      simp [ElementPage.createElement, Heap.createNode] at ho
    rw [hcurrent.getIdAttribute, i.current.getIdAttribute, hothers o hnew]
  · rw [helements, i.elements]
    rfl

theorem Invariant.parse (hq : ∀ d, env.inQuirksMode d = false) (i : s.Invariant env)
    {name : String} {attributes : List Attribute} (w : WellNamed attributes)
    (hs : s.exec env (.parse name attributes) = some s') : s'.Invariant env := by
  obtain ⟨store', hstore, rfl⟩ := Option.map_eq_some_iff.mp hs
  have hparse := of_toOption hstore
  rw [← i.elements] at hparse
  have hnone : (s.store.newElement 0).elementData s.store.elements = none :=
    i.sound.absent _ (Nat.le_refl _)
  have hchanged := (i.sound.newElement 0).parserSetAttributes
    (Nat.lt_succ_self s.store.elements) hnone hparse
  obtain ⟨d, hd, hwrote⟩ := Store.wrote_parserSetAttributes hq (s := s.store.newElement 0)
    i.current w hnone hparse
  refine i.createElement name hchanged.sound (hwrote.current i.current hd) hchanged.elements
    fun o ho => ?_
  rw [← i.elements] at ho
  exact Store.fastGetAttribute_congr (hchanged.others o ho) kIdAttr

theorem Invariant.clone (hq : ∀ d, env.inQuirksMode d = false) (i : s.Invariant env)
    {other : NodeId} (hother : other < s.page.heap.size)
    (hs : s.exec env (.clone other) = some s') : s'.Invariant env := by
  obtain ⟨store', hstore, rfl⟩ := Option.map_eq_some_iff.mp hs
  have hclone := of_toOption hstore
  rw [← i.elements] at hclone hother
  have hnone : (s.store.newElement (s.store.document other)).elementData s.store.elements = none :=
    i.sound.absent _ (Nat.le_refl _)
  have hdoc : (s.store.newElement (s.store.document other)).document s.store.elements =
      (s.store.newElement (s.store.document other)).document other :=
    (Store.document_newElement s.store _).trans
      (Store.document_newElement_of_lt s.store _ hother).symm
  have hne : other ≠ s.store.elements := Nat.ne_of_lt hother
  have hsound := i.sound.newElement (s.store.document other)
  obtain ⟨hsound', helements, hothers, -⟩ := hsound.cloneAttributesFrom
    (Nat.lt_succ_self s.store.elements) (Nat.lt_succ_of_lt hother) hne hnone hdoc hclone
  obtain ⟨⟨d, hd, hwrote⟩, horiginal⟩ := Store.wrote_cloneAttributesFrom hq
    (s := s.store.newElement (s.store.document other)) i.current hsound hne hdoc hclone
  refine i.createElement _ hsound' (hwrote.current i.current hd) helements fun o ho => ?_
  rw [← i.elements] at ho
  by_cases hoo : o = other
  · rw [hoo]
    exact horiginal kIdAttr
  · exact Store.fastGetAttribute_congr (hothers o ho hoo) kIdAttr

theorem Invariant.dom (i : s.Invariant env) {a : IdLabel} (hperm : a.Permitted s.page.heap)
    (hs : s.exec env (.dom a) = some s') : s'.Invariant env := by
  obtain ⟨page, hpage, rfl⟩ := Option.map_eq_some_iff.mp hs
  have hids := registered_step i.ids ⟨hperm, s.page.heap.bound, Nat.lt_succ_self _, hpage⟩
  obtain ⟨⟨ch, r⟩, v, f⟩ := i.ids
  have hnodes := (r.exec v f hperm (Nat.lt_succ_self _) hpage).2
  cases a with
  | createNode type name =>
    obtain rfl := Option.some.inj hpage
    exact ⟨hids, i.sound.newElement 0, i.current, congrArg (· + 1) i.elements⟩
  | _ =>
    rcases hnodes with ⟨_, _, hcreate⟩ | hsame
    · cases hcreate
    · exact ⟨hids, i.sound, i.current, i.elements.trans hsame.size.symm⟩

/-- **A step that keeps what is derived keeps the invariant.** -/
theorem Invariant.next (hq : ∀ d, env.inQuirksMode d = false) (i : s.Invariant env)
    (hkeeps : s.Keeps env a) (hs : s.next env a = some s') : s'.Invariant env := by
  unfold ElementPage.next at hs
  split at hs
  · rename_i hperm
    cases a with
    | dom a => exact i.dom hperm hs
    | startParsing =>
      obtain rfl := Option.some.inj hs
      exact ⟨i.ids, (i.sound.step (.startParsing 0) rfl).1, i.current, i.elements⟩
    | elementDataCacheClearTimerFired =>
      obtain rfl := Option.some.inj hs
      exact ⟨i.ids, (i.sound.step (.elementDataCacheClearTimerFired 0) rfl).1, i.current,
        i.elements⟩
    | parse name attributes => exact i.parse hq hperm hs
    | clone other => exact i.clone hq hperm.1 hs
    | setAttribute e localName value =>
      obtain ⟨⟨s₁, x⟩, hset, rfl⟩ := Option.map_eq_some_iff.mp hs
      have hok := of_toOption hset
      cases hexisting : s.existingAttribute env e localName with
      | none =>
        rcases setAttribute_append value i.current hexisting with
          ⟨y, hskip⟩ | ⟨name, hpre, hnew, happend⟩
        · cases hskip.symm.trans hok
          exact i
        · obtain ⟨s₂, hs₂, heq⟩ := Store.map_eq_ok (happend.symm.trans hok)
          cases heq
          exact i.appendAttributeInternal hq hperm.1 hperm.2 hpre hnew hs₂
      | some b =>
        obtain ⟨d, index, hd, hb, hmodify⟩ := setAttribute_modify value hexisting
        obtain ⟨s₂, hs₂, heq⟩ := Store.map_eq_ok (hmodify.symm.trans hok)
        cases heq
        exact i.setAttributeInternal hperm.1 hd hb (hkeeps hperm b hexisting) hs₂
  · cases hs

/-- **Any other step is taken, and does not.** -/
theorem Invariant.next_not_derived (i : s.Invariant env) (hkeeps : ¬ s.Keeps env a) :
    ∃ s', s.next env a = some s' ∧ ¬ s'.AllDerived := by
  cases a with
  | setAttribute e localName value =>
    unfold ElementPage.Keeps at hkeeps
    push Not at hkeeps
    obtain ⟨hperm, b, hexisting, hharmless⟩ := hkeeps
    obtain ⟨d, index, hd, hb, hmodify⟩ := setAttribute_modify value hexisting
    obtain ⟨s', hs', hpage, hnot⟩ := i.not_derived hd hb hharmless b.name
    refine ⟨s', ?_, fun hall => hnot (hall e (hpage ▸ hperm.1) (hpage ▸ hperm.2))⟩
    unfold ElementPage.next
    rw [if_pos hperm]
    change ((s.setAttribute env e localName value).toOption.map Prod.fst) = some s'
    rw [hmodify, hs']
    rfl
  | _ => exact absurd trivial hkeeps

end Steps

/-! ## All runs -/

/-- **What is derived from the attributes.** Take any run on a document in no-quirks mode: elements
are made by the parser, by `createElement` or by cloning, subtrees are inserted, ids are looked up
and attributes are set. In every state of the run the class names, the id for styles and the
lookups of all elements answer from the current attributes exactly when no `setAttribute` gives an
id that is there a new value, or a class that is there a value with other tokens. -/
theorem derived_iff_keeps (isValidName : Str → Bool) (attributeHash : List Attribute → UInt32)
    (labels : List ElementLabel) :
    let env := noQuirks isValidName attributeHash
    Always (machine (next env)) AllDerived True newDocument labels ↔
      Allowed (machine (next env)) (fun s a => s.Keeps env a) newDocument labels := by
  intro env
  have hq : ∀ d, env.inQuirksMode d = false := fun _ => rfl
  refine always_iff_allowed_of_invariant (I := Invariant env) (fun s i => i.derived) ?_ ?_
    (invariant_newDocument env) labels
  · intro s a i hkeeps
    unfold machine
    cases hnext : s.next env a with
    | none => trivial
    | some s' => exact i.next hq hkeeps hnext
  · intro s a i hkeeps hafter
    obtain ⟨s', hs', hnot⟩ := i.next_not_derived hkeeps
    unfold machine at hafter
    rw [hs'] at hafter
    exact hnot hafter

/-- An element comes from the parser with the id `a` and the class `x`, is inserted into the
document, and is given the id `b`. -/
def renamed : List ElementLabel :=
  [.startParsing, .parse "DIV" [⟨kIdAttr, "a".toList⟩, ⟨kClassAttr, "x".toList⟩],
    .dom (.appendChild 0 1), .setAttribute 1 "id".toList "b".toList]

/-- **Afterwards its id for styles is still `a`, and it is found under `a` and not under `b`.** -/
theorem renamed_not_derived :
    ¬ Always (machine (next plainEnvironment)) AllDerived True newDocument renamed := by
  intro h
  have hrun : ∃ s us, run (machine (next plainEnvironment)) newDocument renamed = .ok (s, us) ∧
      1 < s.page.heap.size ∧ s.page.heap.isElementNode 1 = true ∧
      s.store.fastGetAttribute 1 kIdAttr = some "b".toList ∧
      s.store.idForStyleResolution 1 = some "a".toList ∧
      s.getElementById "a".toList = some (some 1) ∧ s.getElementById "b".toList = some none :=
    ⟨_, _, rfl, by decide +kernel⟩
  obtain ⟨s, us, hrun, hsize, hel, hcurrent, hstyle, -⟩ := hrun
  have hderived := (h.last hrun 1 hsize hel).id
  rw [hcurrent, hstyle] at hderived
  exact absurd hderived (by decide)

end ElementPage

end Blinkit.Dom
