import Blinkit.Dom.AttributeIsolation

/-!
# What an element derives from its attributes

* `ElementData.fastGetAttribute` — the current value of an attribute.
* `ElementData.hasClassName`, `ElementData.getIdAttribute` — what is answered from the class names
  and the id that are kept next to the attributes.
* `ElementData.Current` — the invariant of a data object: the class names are the tokens of the
  class attribute, the id is the id attribute.
* `Harmless` — what a new value of an attribute must not do: change the tokens of a class, or an
  id.
* `Store.Current` — every data object is current.
* `Store.Wrote` — what an operation on an element leaves.

Principal results: `current_refresh` (the loops over the attributes), `current_append`,
`current_modify_iff`; `wrote_parserSetAttributes` and `wrote_cloneAttributesFrom`.
-/

set_option autoImplicit false

namespace Blinkit.Dom.Attributes

open Function Transition

/-! ## Reading -/

/-- `QualifiedName::Matches`: the prefix does not count. -/
def QualifiedName.isMatch (q q' : QualifiedName) : Bool :=
  q.localName == q'.localName && q.namespaceURI == q'.namespaceURI

/-- `AttributeCollection::Find`. -/
def find (attributes : List Attribute) (name : QualifiedName) : Option Attribute :=
  attributes.find? fun a => a.name.isMatch name

namespace ElementData

/-- `Element::FastGetAttribute`. -/
def fastGetAttribute (d : ElementData) (name : QualifiedName) : Option Str :=
  (find d.attributes name).map (·.value)

/-- `Element::HasClassName`. -/
def hasClassName (d : ElementData) (className : Str) : Bool :=
  d.classNames.any (·.contains className)

/-- `Element::GetIdAttribute`. -/
def getIdAttribute (d : ElementData) : Option Str :=
  if d.hasID then d.fastGetAttribute kIdAttr else none

end ElementData

/-- The tokens of a string between its white space. -/
def classTokens (value : Str) : List Str :=
  (value.splitOnP isHTMLSpace).filter fun token => !token.isEmpty

/-- What the tokenizer and the tree builder make sure of: no two names match, and an attribute with
a prefix has a namespace. -/
structure WellNamed (attributes : List Attribute) : Prop where
  once : attributes.Pairwise fun a b => a.name.isMatch b.name = false
  prefixed : ∀ a ∈ attributes, a.name.pre.isSome = true → a.name.namespaceURI.isSome = true

instance (attributes : List Attribute) : Decidable (WellNamed attributes) :=
  decidable_of_iff (attributes.Pairwise (fun a b => a.name.isMatch b.name = false) ∧
      ∀ a ∈ attributes, a.name.pre.isSome = true → a.name.namespaceURI.isSome = true)
    ⟨fun h => ⟨h.1, h.2⟩, fun h => ⟨h.once, h.prefixed⟩⟩

/-! ## The invariant of a data object -/

/-- **What is kept next to the attributes is what they say.** -/
structure ElementData.Current (d : ElementData) : Prop where
  named : WellNamed d.attributes
  classNames : ∀ c, d.hasClassName c = true ↔
    ∃ value, d.fastGetAttribute kClassAttr = some value ∧ c ∈ classTokens value
  id : d.idForStyleResolution = d.fastGetAttribute kIdAttr

section Data

variable {d : ElementData} {attributes : List Attribute} {a : Attribute} {q name : QualifiedName}

/-- A name without a prefix and a namespace is matched by itself only. -/
theorem isMatch_plain {k : QualifiedName} (hpre : k.pre = none) (hns : k.namespaceURI = none)
    (hq : q.pre.isSome = true → q.namespaceURI.isSome = true) : q.isMatch k = true ↔ q = k := by
  obtain ⟨pre, localName, namespaceURI⟩ := q
  obtain ⟨kpre, klocal, kns⟩ := k
  change kpre = none at hpre
  change kns = none at hns
  subst hpre hns
  cases pre with
  | none => simp [QualifiedName.isMatch]
  | some p =>
    obtain ⟨ns, hsome⟩ := Option.isSome_iff_exists.mp (hq rfl)
    change namespaceURI = some ns at hsome
    subst hsome
    simp [QualifiedName.isMatch]

theorem isMatch_congr {q' name' : QualifiedName} (hn : q'.isMatch name' = true) :
    q.isMatch q' = q.isMatch name' := by
  simp only [QualifiedName.isMatch, Bool.and_eq_true, beq_iff_eq] at hn ⊢
  rw [hn.1, hn.2]

theorem isMatch_refl (q : QualifiedName) : q.isMatch q = true := by
  simp [QualifiedName.isMatch]

/-- A fold in which at most one member overwrites the value. -/
theorem foldl_overwrite_once {α β : Type} {f : β → α → β} (p : α → Prop) [DecidablePred p]
    (g : α → β) (hf : ∀ x a, f x a = if p a then g a else x) {as : List α}
    (honce : as.Pairwise fun a b => p a → ¬ p b) (x : β) :
    as.foldl f x = ((as.find? fun a => decide (p a)).map g).getD x := by
  induction as generalizing x with
  | nil => rfl
  | cons a as ih =>
    obtain ⟨ha, has⟩ := List.pairwise_cons.mp honce
    rw [List.foldl_cons, hf, ih has]
    by_cases hp : p a
    · have hnone : as.find? (fun a => decide (p a)) = none :=
        List.find?_eq_none.mpr fun b hb => by simpa using ha b hb hp
      rw [if_pos hp, hnone, List.find?_cons_of_pos (by simpa using hp)]
      rfl
    · rw [if_neg hp, List.find?_cons_of_neg (by simpa using hp)]

/-- For a plain name, searching by equality is searching by `Matches`. -/
theorem find_plain (w : WellNamed attributes) {k : QualifiedName} (hpre : k.pre = none)
    (hns : k.namespaceURI = none) :
    (attributes.find? fun a => decide (a.name = k)) = find attributes k := by
  unfold find
  rw [← List.head?_filter, ← List.head?_filter]
  refine congrArg List.head? (List.filter_congr fun a ha => ?_)
  rw [Bool.eq_iff_iff, decide_eq_true_iff, isMatch_plain hpre hns (w.prefixed a ha)]

theorem once_plain (w : WellNamed attributes) (q : QualifiedName) :
    attributes.Pairwise fun a b => a.name = q → ¬ b.name = q := by
  refine w.once.imp fun {a b} hab ha hb => ?_
  rw [ha, hb, isMatch_refl] at hab
  cases hab

/-- The class names that a value gives. -/
def classNamesOf (value : Str) : Option (List Str) :=
  (classAttributeChanged false ⟨true, [], none, none⟩ value).classNames

theorem mem_classNamesOf (value c : Str) :
    (classNamesOf value).any (·.contains c) = true ↔ c ∈ classTokens value := by
  have hvector : (createVector value).contains c = true ↔ c ∈ classTokens value := by
    rw [List.contains_iff_mem, createVector, List.mem_eraseDups]
    rfl
  unfold classNamesOf classAttributeChanged
  split
  · exact hvector
  · exact hvector
  · rename_i hempty
    have hnil : value = [] := by
      unfold classStringHasClassName at hempty
      split at hempty
      · rename_i hlen
        exact List.length_eq_zero_iff.mp hlen
      · split at hempty <;> cases hempty
    subst hnil
    simp [ElementData.clearClass, classTokens]

/-- **The loop over the attributes makes a data object current** when it holds nothing that no
attribute says. -/
theorem current_refresh (w : WellNamed d.attributes)
    (hclass : d.fastGetAttribute kClassAttr = none → ∀ c, d.hasClassName c = false)
    (hid : d.fastGetAttribute kIdAttr = none → d.idForStyleResolution = none) :
    (refresh false d.attributes d).Current := by
  have hclassNames : (refresh false d.attributes d).classNames =
      ((find d.attributes kClassAttr).map fun a => classNamesOf a.value).getD d.classNames := by
    have hfold := foldl_overwrite_once (fun a : Attribute => a.name = kClassAttr)
      (fun a => classNamesOf a.value) (fun _ _ => rfl) (once_plain w kClassAttr) d.classNames
    rw [find_plain w rfl rfl] at hfold
    rw [refresh_eq]
    exact hfold
  have hidForStyle : (refresh false d.attributes d).idForStyleResolution =
      ((find d.attributes kIdAttr).map fun a => some a.value).getD d.idForStyleResolution := by
    have hfold := foldl_overwrite_once (fun a : Attribute => a.name = kIdAttr)
      (fun a => some a.value) (fun _ _ => rfl) (once_plain w kIdAttr) d.idForStyleResolution
    rw [find_plain w rfl rfl] at hfold
    rw [refresh_eq]
    exact hfold
  refine ⟨by rw [refresh_attributes]; exact w, fun c => ?_, ?_⟩
  · unfold ElementData.fastGetAttribute ElementData.hasClassName at hclass ⊢
    rw [hclassNames, refresh_attributes]
    cases hfind : find d.attributes kClassAttr with
    | some a => simpa using mem_classNamesOf a.value c
    | none =>
      rw [hfind] at hclass
      simpa using hclass rfl c
  · unfold ElementData.fastGetAttribute at hid ⊢
    rw [hidForStyle, refresh_attributes]
    cases hfind : find d.attributes kIdAttr with
    | some a => rfl
    | none =>
      rw [hfind] at hid
      exact hid rfl

/-- Being unique does not count. -/
theorem ElementData.Current.congr {d' : ElementData} (h : d.Current)
    (ha : d'.attributes = d.attributes) (hc : d'.classNames = d.classNames)
    (hi : d'.idForStyleResolution = d.idForStyleResolution) : d'.Current := by
  obtain ⟨unique, attributes, classNames, idForStyle⟩ := d
  obtain ⟨unique', attributes', classNames', idForStyle'⟩ := d'
  change attributes' = attributes at ha
  change classNames' = classNames at hc
  change idForStyle' = idForStyle at hi
  subst ha hc hi
  exact ⟨h.named, h.classNames, h.id⟩

theorem current_refresh_self (h : d.Current) : (refresh false d.attributes d).Current := by
  refine current_refresh h.named (fun hnone c => ?_) fun hnone => by rw [h.id, hnone]
  rw [Bool.eq_false_iff, ne_eq, h.classNames]
  rintro ⟨value, hvalue, -⟩
  rw [hnone] at hvalue
  cases hvalue

/-- The data object of a new set of attributes. -/
theorem current_parsed (w : WellNamed attributes) :
    (refresh false attributes (.createWithAttributes attributes)).Current :=
  current_refresh (d := .createWithAttributes attributes) w (fun _ _ => rfl) fun _ => rfl

theorem current_create : ElementData.create.Current where
  named := ⟨List.Pairwise.nil, fun _ ha => by cases ha⟩
  classNames c := iff_of_false (fun h => by cases h) (by rintro ⟨value, hvalue, -⟩; cases hvalue)
  id := rfl

/-! ## A new attribute -/

theorem find_append (attributes : List Attribute) (a : Attribute) (k : QualifiedName) :
    find (attributes ++ [a]) k =
      (find attributes k).or (if a.name.isMatch k then some a else none) := by
  unfold find
  rw [List.find?_append, List.find?_singleton]

/-- A new attribute answers for its own name and for no other. -/
theorem fastGetAttribute_append (d : ElementData)
    (hnew : ∀ b ∈ d.attributes, b.name.isMatch name = false) (value : Str) (k : QualifiedName) :
    ({ d with attributes := d.attributes ++ [⟨name, value⟩] } : ElementData).fastGetAttribute k =
      if name.isMatch k then some value else d.fastGetAttribute k := by
  unfold ElementData.fastGetAttribute
  simp only [find_append]
  split
  · rename_i hk
    have hnone : find d.attributes k = none := by
      refine List.find?_eq_none.mpr fun b hb => ?_
      rw [← isMatch_congr hk, hnew b hb]
      exact Bool.false_ne_true
    rw [hnone]
    rfl
  · rw [Option.or_none]

/-- **An attribute that is appended is told.** -/
theorem current_append (h : d.Current) (hpre : name.pre = none)
    (hnew : ∀ b ∈ d.attributes, b.name.isMatch name = false) (value : Str) :
    (attributeChangedData false { d with attributes := d.attributes ++ [⟨name, value⟩] }
      ⟨name, value⟩).Current := by
  have hget := fastGetAttribute_append d hnew value
  have hmatch : ∀ {k : QualifiedName}, k.pre = none → k.namespaceURI = none →
      (name.isMatch k = true ↔ name = k) := fun hp hn =>
    isMatch_plain hp hn fun hsome => by rw [hpre] at hsome; cases hsome
  rw [attributeChangedData_eq]
  refine ⟨⟨?_, ?_⟩, fun c => ?_, ?_⟩
  · refine List.pairwise_append.mpr ⟨h.named.once, List.pairwise_singleton _ _, fun a ha b hb => ?_⟩
    rw [List.mem_singleton.mp hb]
    exact hnew a ha
  · intro a ha hsome
    rcases List.mem_append.mp ha with ha | ha
    · exact h.named.prefixed a ha hsome
    · rw [List.mem_singleton.mp ha, hpre] at hsome
      cases hsome
  · change (nextClassNames false d.classNames ⟨name, value⟩).any (·.contains c) = true ↔
      ∃ v, ({ d with attributes := d.attributes ++ [⟨name, value⟩] } :
        ElementData).fastGetAttribute kClassAttr = some v ∧ c ∈ classTokens v
    rw [hget]
    unfold nextClassNames
    by_cases hk : name = kClassAttr
    · rw [if_pos hk, if_pos ((hmatch rfl rfl).mpr hk)]
      refine (mem_classNamesOf value c).trans ?_
      simp
    · rw [if_neg hk, if_neg (mt (hmatch rfl rfl).mp hk)]
      exact h.classNames c
  · change nextId false d.idForStyleResolution ⟨name, value⟩ =
      ({ d with attributes := d.attributes ++ [⟨name, value⟩] } :
        ElementData).fastGetAttribute kIdAttr
    rw [hget]
    unfold nextId
    by_cases hk : name = kIdAttr
    · rw [if_pos hk, if_pos ((hmatch rfl rfl).mpr hk)]
      rfl
    · rw [if_neg hk, if_neg (mt (hmatch rfl rfl).mp hk)]
      exact h.id

/-! ## A new value of an attribute -/

/-- What nobody has to be told: the tokens of a class, or the id, stay as they are. -/
def Harmless (a : Attribute) (value : Str) : Prop :=
  (a.name = kClassAttr → ∀ c, c ∈ classTokens value ↔ c ∈ classTokens a.value) ∧
    (a.name = kIdAttr → value = a.value)

/-- Searching a list in which the names are told apart. -/
theorem find_middle {l r : List Attribute} (w : WellNamed (l ++ a :: r)) (k : QualifiedName) :
    find (l ++ a :: r) k = if a.name.isMatch k then some a else (find l k).or (find r k) := by
  unfold find
  rw [List.find?_append]
  by_cases hk : a.name.isMatch k = true
  · have hnone : (l.find? fun b => b.name.isMatch k) = none := by
      refine List.find?_eq_none.mpr fun b hb => ?_
      rw [← isMatch_congr hk, (List.pairwise_append.mp w.once).2.2 b hb a (List.mem_cons_self ..)]
      exact Bool.false_ne_true
    rw [hnone, if_pos hk, Option.none_or]
    simp only [List.find?_cons, hk]
  · rw [if_neg hk]
    simp only [List.find?_cons, Bool.eq_false_iff.mpr hk]

/-- A list with a new value in it. -/
theorem modify_eq {index : Nat} (ha : attributes[index]? = some a) (value : Str) :
    ∃ l r, attributes = l ++ a :: r ∧
      (attributes.modify index fun a => ⟨a.name, value⟩) = l ++ ⟨a.name, value⟩ :: r := by
  obtain ⟨hlt, hget⟩ := List.getElem?_eq_some_iff.mp ha
  refine ⟨attributes.take index, attributes.drop (index + 1), ?_, ?_⟩
  · rw [← hget, ← List.drop_eq_getElem_cons hlt, List.take_append_drop]
  · rw [List.modify_eq_take_cons_drop hlt, hget]

theorem WellNamed.middle {l r : List Attribute} (w : WellNamed (l ++ a :: r)) (value : Str) :
    WellNamed (l ++ ⟨a.name, value⟩ :: r) where
  once := by
    have hnames : (l ++ ⟨a.name, value⟩ :: r).map Attribute.name =
        (l ++ a :: r).map Attribute.name := by simp
    have honce := w.once
    rw [← List.pairwise_map (f := Attribute.name) (R := fun q q' => q.isMatch q' = false)]
      at honce ⊢
    rw [hnames]
    exact honce
  prefixed b hb := by
    rcases List.mem_append.mp hb with hb | hb
    · exact w.prefixed b (List.mem_append_left _ hb)
    · rcases List.mem_cons.mp hb with rfl | hb
      · exact w.prefixed a (by simp)
      · exact w.prefixed b (by simp [hb])

/-- A new value leaves the names as they are. -/
theorem WellNamed.modify (w : WellNamed attributes) {index : Nat}
    (ha : attributes[index]? = some a) (value : Str) :
    WellNamed (attributes.modify index fun a => ⟨a.name, value⟩) := by
  obtain ⟨l, r, hsplit, hmodify⟩ := modify_eq ha value
  rw [hmodify]
  exact (hsplit ▸ w).middle value

/-- The answer of `FindIndex` is an attribute. -/
theorem findIndex_some {n : Str} {index : Nat} (h : findIndex attributes n = some index) :
    ∃ a, attributes[index]? = some a := by
  have hlt : index < attributes.length := by
    unfold findIndex at h
    split at h
    · rename_i i hi
      obtain rfl := Option.some.inj h
      exact (List.findIdx?_eq_some_iff_findIdx_eq.mp hi).1
    · exact (List.findIdx?_eq_some_iff_findIdx_eq.mp h).1
  exact ⟨attributes[index], List.getElem?_eq_getElem hlt⟩

/-- When `FindIndex` finds nothing, nothing matches the plain name. -/
theorem findIndex_none (w : WellNamed attributes) {n : Str} (h : findIndex attributes n = none) :
    ∀ b ∈ attributes, b.name.isMatch ⟨none, n, none⟩ = false := by
  intro b hb
  rw [Bool.eq_false_iff, ne_eq, isMatch_plain rfl rfl (w.prefixed b hb)]
  intro hname
  unfold findIndex at h
  split at h
  · cases h
  · rename_i hnone
    have hfalse := List.findIdx?_eq_none_iff.mp hnone b hb
    rw [hname] at hfalse
    simp at hfalse

/-- **A new value that nobody is told leaves a data object current exactly when it is harmless.** -/
theorem current_modify_iff (h : d.Current) {index : Nat} (ha : d.attributes[index]? = some a)
    (value : Str) :
    ({ d with attributes := d.attributes.modify index fun a => ⟨a.name, value⟩ } :
      ElementData).Current ↔ Harmless a value := by
  obtain ⟨l, r, hsplit, hmodify⟩ := modify_eq ha value
  have w : WellNamed (l ++ a :: r) := hsplit ▸ h.named
  have w' := w.middle value
  have hmatch : ∀ {k : QualifiedName}, k.pre = none → k.namespaceURI = none →
      (a.name.isMatch k = true ↔ a.name = k) := fun hp hn =>
    isMatch_plain hp hn (w.prefixed a (by simp))
  rw [hmodify]
  -- the attribute answers for its own name, before and after
  have hold : ∀ k, d.fastGetAttribute k =
      if a.name.isMatch k then some a.value else ((find l k).or (find r k)).map (·.value) := by
    intro k
    rw [ElementData.fastGetAttribute, hsplit, find_middle w]
    split <;> rfl
  have hnew : ∀ k, ({ d with attributes := l ++ ⟨a.name, value⟩ :: r } :
      ElementData).fastGetAttribute k =
        if a.name.isMatch k then some value else ((find l k).or (find r k)).map (·.value) := by
    intro k
    rw [ElementData.fastGetAttribute, find_middle w']
    split <;> rfl
  constructor
  · intro hcurrent
    refine ⟨fun hname c => ?_, fun hname => ?_⟩
    · have hbefore := h.classNames c
      have hafter := hcurrent.classNames c
      rw [hold, if_pos ((hmatch rfl rfl).mpr hname)] at hbefore
      rw [hnew, if_pos ((hmatch rfl rfl).mpr hname)] at hafter
      have htokens := hafter.symm.trans hbefore
      simpa using htokens
    · have hbefore := h.id
      have hafter := hcurrent.id
      rw [hold, if_pos ((hmatch rfl rfl).mpr hname)] at hbefore
      rw [hnew, if_pos ((hmatch rfl rfl).mpr hname)] at hafter
      exact Option.some.inj (hafter.symm.trans hbefore)
  · rintro ⟨hclass, hid⟩
    refine ⟨w', fun c => ?_, ?_⟩
    · have hbefore := h.classNames c
      rw [hold] at hbefore
      rw [hnew]
      refine Iff.trans hbefore ?_
      split
      · rename_i hname
        simpa using (hclass ((hmatch rfl rfl).mp hname) c).symm
      · exact Iff.rfl
    · have hbefore := h.id
      rw [hold] at hbefore
      rw [hnew]
      refine Eq.trans hbefore ?_
      split
      · rename_i hname
        rw [hid ((hmatch rfl rfl).mp hname)]
      · rfl

end Data

/-! ## The elements of a store -/

namespace Store

/-- `Element::HasClassName`; without data there is nothing to answer. -/
def hasClassName (s : Store) (e : ElementId) (className : Str) : Bool :=
  (s.elementData e).any fun a => (s.data a).hasClassName className

/-- `Element::FastGetAttribute`. -/
def fastGetAttribute (s : Store) (e : ElementId) (name : QualifiedName) : Option Str :=
  (s.elementData e).bind fun a => (s.data a).fastGetAttribute name

/-- `Element::GetIdAttribute`. -/
def getIdAttribute (s : Store) (e : ElementId) : Option Str :=
  (s.elementData e).bind fun a => (s.data a).getIdAttribute

/-- `Element::IdForStyleResolution`. -/
def idForStyleResolution (s : Store) (e : ElementId) : Option Str :=
  (s.elementData e).bind fun a => (s.data a).idForStyleResolution

/-- **Every data object is current.** -/
def Current (s : Store) : Prop := ∀ a, (s.data a).Current

/-- The data of an element, or what it would get. -/
def dataOf (s : Store) (e : ElementId) : ElementData := ((s.elementData e).map s.data).getD .create

/-- `e` has the data `d` now, and no other object has been written. -/
structure Wrote (s s' : Store) (e : ElementId) (d : ElementData) : Prop where
  dataOf : s'.dataOf e = d
  rest : ∀ a, s'.elementData e ≠ some a → s'.data a = s.data a

section Store

variable {env : Environment} {s s' : Store} {e o other : ElementId} {a : DataId}
  {d : ElementData} {attributes : List Attribute} {name : QualifiedName}

theorem current_initial : initial.Current := fun _ => current_create

theorem dataOf_of_some (ha : s.elementData e = some a) : s.dataOf e = s.data a := by
  rw [dataOf, ha]
  rfl

theorem dataOf_of_none (ha : s.elementData e = none) : s.dataOf e = .create := by
  rw [dataOf, ha]
  rfl

theorem Current.dataOf (h : s.Current) (e : ElementId) : (s.dataOf e).Current := by
  cases ha : s.elementData e with
  | none => exact dataOf_of_none ha ▸ current_create
  | some a => exact dataOf_of_some ha ▸ h a

theorem hasClassName_eq (s : Store) (e : ElementId) (c : Str) :
    s.hasClassName e c = (s.dataOf e).hasClassName c := by
  unfold hasClassName Store.dataOf
  cases s.elementData e <;> rfl

theorem fastGetAttribute_eq (s : Store) (e : ElementId) (name : QualifiedName) :
    s.fastGetAttribute e name = (s.dataOf e).fastGetAttribute name := by
  unfold fastGetAttribute Store.dataOf
  cases s.elementData e <;> rfl

theorem idForStyleResolution_eq (s : Store) (e : ElementId) :
    s.idForStyleResolution e = (s.dataOf e).idForStyleResolution := by
  unfold idForStyleResolution Store.dataOf
  cases s.elementData e <;> rfl

/-- The id of current data is the id attribute. -/
theorem Current.getIdAttribute (h : s.Current) (e : ElementId) :
    s.getIdAttribute e = s.fastGetAttribute e kIdAttr := by
  unfold Store.getIdAttribute Store.fastGetAttribute
  cases s.elementData e with
  | none => rfl
  | some a =>
    change (s.data a).getIdAttribute = (s.data a).fastGetAttribute kIdAttr
    unfold ElementData.getIdAttribute ElementData.hasID
    rw [(h a).id]
    cases (s.data a).fastGetAttribute kIdAttr <;> rfl

/-- What is observed says what the attributes are. -/
theorem fastGetAttribute_congr (h : observe s' o = observe s o) (name : QualifiedName) :
    s'.fastGetAttribute o name = s.fastGetAttribute o name := by
  have hobserve : ∀ s : Store, observe s o = (s.dataOf o).observed := by
    intro s
    unfold observe Store.dataOf
    cases s.elementData o <;> rfl
  rw [hobserve, hobserve] at h
  have hattributes : (s'.dataOf o).attributes = (s.dataOf o).attributes :=
    congrArg Observed.attributes h
  rw [fastGetAttribute_eq, fastGetAttribute_eq, ElementData.fastGetAttribute, hattributes]
  rfl

/-! ## What the operations write -/

theorem Wrote.current (w : Wrote s s' e d) (h : s.Current) (hd : d.Current) : s'.Current := by
  intro a
  by_cases ha : s'.elementData e = some a
  · rw [← dataOf_of_some ha, w.dataOf]
    exact hd
  · rw [w.rest a ha]
    exact h a

theorem wrote_setData (ha : s.elementData e = some a) (d : ElementData) :
    Wrote s (s.setData a d) e d where
  dataOf := (dataOf_of_some (s := s.setData a d) ha).trans (setData_self s a d)
  rest b hb := by
    refine setData_of_ne s d ?_
    rintro rfl
    exact hb ha

theorem Wrote.setData (w : Wrote s s' e d) (ha : s'.elementData e = some a) (d' : ElementData) :
    Wrote s (s'.setData a d') e d' where
  dataOf := (wrote_setData ha d').dataOf
  rest b hb := ((wrote_setData ha d').rest b hb).trans (w.rest b hb)

/-- `EnsureUniqueElementData` copies the data, or makes new ones. -/
theorem wrote_ensureUniqueElementData (s : Store) (e : ElementId) :
    Wrote s (s.ensureUniqueElementData e).1 e { s.dataOf e with isUnique := true } := by
  have hgive : ∀ d, Wrote s (s.give e d) e d := by
    intro d
    refine ⟨?_, fun b hb => ?_⟩
    · rw [dataOf_of_some (give_self s e d), give_data_self]
    · have hne : b ≠ s.nextData := by
        rintro rfl
        exact hb (give_self s e d)
      change update s.data s.nextData d b = s.data b
      exact update_of_ne hne d s.data
  unfold ensureUniqueElementData
  cases ha : s.elementData e with
  | none =>
    rw [dataOf_of_none ha]
    exact hgive .create
  | some a =>
    dsimp only
    split
    · rename_i hu
      refine ⟨?_, fun _ _ => rfl⟩
      rw [dataOf_of_some ha, ← hu]
    · rw [dataOf_of_some ha]
      exact hgive (s.data a).makeUniqueCopy

/-- The element has the object that `EnsureUniqueElementData` answers. -/
theorem ensureUniqueElementData_self (s : Store) (e : ElementId) :
    (s.ensureUniqueElementData e).1.elementData e = some (s.ensureUniqueElementData e).2 := by
  unfold ensureUniqueElementData
  split
  · exact setElementData_self ..
  · split
    · assumption
    · exact setElementData_self ..

/-- `AppendAttributeInternal` writes the new attribute and what it derives from it. -/
theorem wrote_appendAttributeInternal (env : Environment) (hq : ∀ d, env.inQuirksMode d = false)
    (s : Store) (e : ElementId) (name : QualifiedName) (value : Str) :
    ∃ s', s.appendAttributeInternal env e name value = .ok s' ∧
      Wrote s s' e (attributeChangedData false
        { s.dataOf e with
          isUnique := true
          attributes := (s.dataOf e).attributes ++ [⟨name, value⟩] } ⟨name, value⟩) := by
  have hwrote := wrote_ensureUniqueElementData s e
  have hself := ensureUniqueElementData_self s e
  unfold appendAttributeInternal attributeChanged
  generalize s.ensureUniqueElementData e = r at hwrote hself ⊢
  have hdata : r.1.data r.2 = { s.dataOf e with isUnique := true } :=
    (dataOf_of_some hself).symm.trans hwrote.dataOf
  have hself' : ∀ d, (r.1.setData r.2 d).elementData e = some r.2 := fun _ => hself
  dsimp only
  rw [hdata, hself', hq]
  dsimp only
  rw [setData_self]
  exact ⟨_, rfl, (hwrote.setData hself _).setData (hself' _) _⟩

/-- `SetAttributeInternal` writes the new value of an attribute that is there, and nothing else. -/
theorem wrote_setAttributeInternal (env : Environment) {index : Nat} {b : Attribute}
    (ha : s.elementData e = some a) (hb : (s.data a).attributes[index]? = some b)
    (name : QualifiedName) (value : Str) :
    ∃ s', s.setAttributeInternal env e (some index) name (some value) = .ok s' ∧
      (s' = s ∧ b.value = value ∨ Wrote s s' e
        { s.dataOf e with
          isUnique := true
          attributes := (s.dataOf e).attributes.modify index fun a => ⟨a.name, value⟩ }) := by
  have hwrote := wrote_ensureUniqueElementData s e
  have hself := ensureUniqueElementData_self s e
  unfold setAttributeInternal
  rw [ha]
  dsimp only
  rw [hb]
  generalize s.ensureUniqueElementData e = r at hwrote hself ⊢
  have hdata : r.1.data r.2 = { s.dataOf e with isUnique := true } :=
    (dataOf_of_some hself).symm.trans hwrote.dataOf
  split
  · refine ⟨_, rfl, .inr ?_⟩
    rw [hdata]
    exact hwrote.setData hself _
  · rename_i hsame
    exact ⟨s, rfl, .inl ⟨rfl, Option.some.inj (not_not.mp hsame)⟩⟩

/-- The loop over the attributes of current data writes current data. -/
theorem wrote_attributesChanged (hq : ∀ d, env.inQuirksMode d = false)
    (ha : s'.elementData e = some a) (hrest : ∀ b, b ≠ a → s'.data b = s.data b)
    (hcurrent : (refresh false attributes (s'.data a)).Current) {s'' : Store}
    (hs : s'.attributesChanged env e attributes = .ok s'') :
    ∃ d, d.Current ∧ Wrote s s'' e d := by
  rw [attributesChanged_some ha, hq] at hs
  obtain rfl := Except.ok.inj hs
  refine ⟨_, hcurrent, (wrote_setData ha _).dataOf, fun b hb => ?_⟩
  have hne : b ≠ a := by
    rintro rfl
    exact hb ha
  rw [setData_of_ne _ _ hne, hrest b hne]

/-- The cache answers with new data, or with data that it has. -/
theorem cached_data (env : Environment) (s : Store) (doc : DocumentId)
    (cache : UInt32 → Option DataId) (attributes : List Attribute) :
    let r := s.cachedShareableElementDataWithAttributes env doc cache attributes
    (∀ b, b ≠ r.2 → r.1.data b = s.data b) ∧
      (r.1.data r.2 = .createWithAttributes attributes ∨
        r.1.data r.2 = s.data r.2 ∧ (s.data r.2).attributes = attributes) := by
  have hnew : (∀ b, b ≠ s.nextData →
      update s.data s.nextData (.createWithAttributes attributes) b = s.data b) ∧
      update s.data s.nextData (.createWithAttributes attributes) s.nextData =
        .createWithAttributes attributes :=
    ⟨fun b hb => update_of_ne hb _ _, update_self ..⟩
  unfold cachedShareableElementDataWithAttributes
  dsimp only
  split
  · split
    · rename_i hsame
      unfold hasSameAttributes at hsame
      simp only [Bool.and_eq_true, beq_iff_eq] at hsame
      exact ⟨fun _ _ => rfl, .inr ⟨rfl, hsame.2.symm⟩⟩
    · exact ⟨hnew.1, .inl hnew.2⟩
  · exact ⟨hnew.1, .inl hnew.2⟩

/-- **`ParserSetAttributes` writes current data.** -/
theorem wrote_parserSetAttributes (hq : ∀ d, env.inQuirksMode d = false) (h : s.Current)
    (w : WellNamed attributes) (hnone : s.elementData e = none)
    (hs : s.parserSetAttributes env e attributes = .ok s') :
    ∃ d, d.Current ∧ Wrote s s' e d := by
  have hsame : ∃ d, d.Current ∧ Wrote s s e d :=
    ⟨.create, current_create, dataOf_of_none hnone, fun _ _ => rfl⟩
  unfold parserSetAttributes at hs
  dsimp only at hs
  split at hs
  · obtain rfl := attributesChanged_none hnone hs
    exact hsame
  · split at hs
    · rename_i cache hcache
      obtain ⟨hrest, hdata⟩ := cached_data env s (s.document e) cache attributes
      generalize s.cachedShareableElementDataWithAttributes env (s.document e) cache attributes = r
        at hrest hdata hs
      have hcurrent : (refresh false attributes (r.1.data r.2)).Current := by
        rcases hdata with hdata | ⟨hdata, hattributes⟩
        · rw [hdata]
          exact current_parsed w
        · rw [hdata, ← hattributes]
          exact current_refresh_self (h _)
      exact wrote_attributesChanged hq (setElementData_self r.1 e (some r.2)) hrest hcurrent hs
    · obtain rfl := attributesChanged_none hnone hs
      exact hsame

/-- **`CloneAttributesFrom` writes current data**, and leaves the attributes of the original as they
are. -/
theorem wrote_cloneAttributesFrom (hq : ∀ d, env.inQuirksMode d = false) (h : s.Current)
    (hsound : s.Sound env) (hne : other ≠ e) (hdoc : s.document e = s.document other)
    (hs : s.cloneAttributesFrom env e other = .ok s') :
    (∃ d, d.Current ∧ Wrote s s' e d) ∧
      ∀ name, s'.fastGetAttribute other name = s.fastGetAttribute other name := by
  have hkeep : ∀ s : Store, ∀ i, (s.setElementData e i).dataOf other = s.dataOf other := by
    intro s i
    unfold Store.dataOf
    rw [setElementData_of_ne s i hne]
    rfl
  cases ha : s.elementData other with
  | none =>
    rw [cloneAttributesFrom, ha] at hs
    obtain rfl := Except.ok.inj hs
    refine ⟨⟨.create, current_create, dataOf_of_none (setElementData_self ..), fun _ _ => rfl⟩, ?_⟩
    intro name
    rw [fastGetAttribute_eq, fastGetAttribute_eq, hkeep]
  | some a =>
    cases hu : (s.data a).isUnique with
    | false =>
      rw [cloneAttributesFrom_shared hdoc ha hu (hsound.fresh other a ha hu)] at hs
      obtain rfl := Except.ok.inj hs
      refine ⟨⟨s.data a, h a, dataOf_of_some (setElementData_self ..), fun _ _ => rfl⟩, ?_⟩
      intro name
      rw [fastGetAttribute_eq, fastGetAttribute_eq, hkeep]
    | true =>
      -- both have the same new data
      rw [cloneAttributesFrom_unique env hdoc ha hu, hq] at hs
      obtain rfl := Except.ok.inj hs
      have hcopy : (s.data a).makeShareableCopy.Current := (h a).congr rfl rfl rfl
      have hcurrent : (refresh false (s.data a).attributes (s.data a).makeShareableCopy).Current :=
        current_refresh_self hcopy
      have hdata := give_data_self s other
        (refresh false (s.data a).attributes (s.data a).makeShareableCopy)
      refine ⟨⟨_, hcurrent, ?_, fun b hb => ?_⟩, fun name => ?_⟩
      · exact (dataOf_of_some (setElementData_self ..)).trans hdata
      · have hne : b ≠ s.nextData := by
          rintro rfl
          exact hb (setElementData_self ..)
        exact update_of_ne hne _ s.data
      · rw [fastGetAttribute_eq, fastGetAttribute_eq, hkeep,
          dataOf_of_some (give_self s other _), hdata, dataOf_of_some ha]
        unfold ElementData.fastGetAttribute
        rw [refresh_attributes]
        rfl

end Store

end Store

end Blinkit.Dom.Attributes
