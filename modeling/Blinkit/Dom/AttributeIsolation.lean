import Blinkit.Lib.Transition
import Blinkit.Dom.ElementData

/-!
# Elements do not see each other's attributes

An element is observed through its attributes, its class names and its id.

* `refresh` — what the loops over the attributes make of a data object.
* `Fresh` — the class names and the id are those that the attributes give.
* `Store.Sound` — the invariant: unique data have one element, shared data are fresh.
* `Isolating` — a step changes what is observed through its own element only.

`SetAttributeInternal` gives an attribute a new value without telling anybody (`DidModifyAttribute`
is a stub), so unique data may be stale. A clone is then made of stale data, which it shares with
the original, and the loop that follows writes the class names and the id that the original has as
well.

Principal result: `attribute_isolation_iff`.
-/

set_option autoImplicit false

namespace Blinkit.Dom.Attributes

open Function Transition

variable {env : Environment} {s s' : Store} {e o : ElementId} {a b : DataId} {d : ElementData}
  {attributes : List Attribute}

/-! ## The loop over the attributes -/

/-- What the loop over `attributes` makes of a data object. -/
def refresh (inQuirksMode : Bool) (attributes : List Attribute) (d : ElementData) : ElementData :=
  attributes.foldl (attributeChangedData inQuirksMode) d

/-- The class names and the id are those that the attributes give. -/
def Fresh (inQuirksMode : Bool) (d : ElementData) : Prop :=
  refresh inQuirksMode d.attributes d = d

/-- The class names that an attribute gives. -/
def nextClassNames (inQuirksMode : Bool) (old : Option (List Str)) (a : Attribute) :
    Option (List Str) :=
  if a.name = kClassAttr then
    (classAttributeChanged inQuirksMode ⟨true, [], none, none⟩ a.value).classNames
  else old

/-- The id that an attribute gives. -/
def nextId (inQuirksMode : Bool) (old : Option Str) (a : Attribute) : Option Str :=
  if a.name = kIdAttr then some (makeIdForStyleResolution a.value inQuirksMode) else old

/-- One round of the loop, field by field. -/
theorem attributeChangedData_eq (q : Bool) (d : ElementData) (a : Attribute) :
    attributeChangedData q d a =
      { d with
        classNames := nextClassNames q d.classNames a
        idForStyleResolution := nextId q d.idForStyleResolution a } := by
  have hne : kIdAttr ≠ kClassAttr := by decide
  unfold attributeChangedData nextClassNames nextId
  by_cases hid : a.name = kIdAttr
  · rw [if_pos hid, if_pos hid, hid, if_neg hne]
    simp only []
    split
    · rfl
    · rename_i heq
      rw [not_not.mp heq]
  · rw [if_neg hid, if_neg hid]
    split
    · unfold classAttributeChanged
      split <;> rfl
    · rfl

/-- The loop, field by field. -/
theorem refresh_eq (q : Bool) (attributes : List Attribute) (d : ElementData) :
    refresh q attributes d =
      { d with
        classNames := attributes.foldl (nextClassNames q) d.classNames
        idForStyleResolution := attributes.foldl (nextId q) d.idForStyleResolution } := by
  unfold refresh
  induction attributes generalizing d with
  | nil => rfl
  | cons a as ih =>
    rw [List.foldl_cons, ih, attributeChangedData_eq]
    rfl

/-- A fold whose steps keep the value or set it to one that does not depend on it. -/
theorem foldl_overwrite {α β : Type} {f : β → α → β} (p : α → Prop) [DecidablePred p] (g : α → β)
    (hf : ∀ x a, f x a = if p a then g a else x) (as : List α) (x : β) :
    as.foldl f (as.foldl f x) = as.foldl f x := by
  have hkey : ∀ (as : List α), (∀ x, as.foldl f x = x) ∨ ∃ c, ∀ x, as.foldl f x = c := by
    intro as
    induction as with
    | nil => exact .inl fun _ => rfl
    | cons a as ih =>
      rcases ih with hid | ⟨c, hc⟩
      · by_cases ha : p a
        · exact .inr ⟨g a, fun x => by rw [List.foldl_cons, hid, hf, if_pos ha]⟩
        · exact .inl fun x => by rw [List.foldl_cons, hid, hf, if_neg ha]
      · exact .inr ⟨c, fun x => by rw [List.foldl_cons, hc]⟩
  rcases hkey as with hid | ⟨c, hc⟩
  · rw [hid, hid]
  · rw [hc, hc]

/-- The loop leaves the attributes, and making the data unique, alone. -/
@[simp] theorem refresh_attributes (q : Bool) (attributes : List Attribute) (d : ElementData) :
    (refresh q attributes d).attributes = d.attributes := by
  rw [refresh_eq]

@[simp] theorem refresh_isUnique (q : Bool) (attributes : List Attribute) (d : ElementData) :
    (refresh q attributes d).isUnique = d.isUnique := by
  rw [refresh_eq]

/-- **Behind the loop over its own attributes a data object is fresh.** -/
theorem fresh_refresh (q : Bool) (d : ElementData) : Fresh q (refresh q d.attributes d) := by
  unfold Fresh
  rw [refresh_attributes, refresh_eq q d.attributes d, refresh_eq]
  simp only [ElementData.mk.injEq, true_and]
  refine ⟨foldl_overwrite (fun a : Attribute => a.name = kClassAttr) _ (fun _ _ => rfl) _ _, ?_⟩
  exact foldl_overwrite (fun a : Attribute => a.name = kIdAttr) _ (fun _ _ => rfl) _ _

theorem fresh_makeShareableCopy (q : Bool) (d : ElementData) :
    Fresh q d.makeShareableCopy ↔ Fresh q d := by
  unfold Fresh
  rw [refresh_eq, refresh_eq]
  simp only [ElementData.makeShareableCopy, ElementData.mk.injEq, true_and]
  cases d
  simp

/-! ## What is observed -/

structure Observed where
  attributes : List Attribute
  classNames : Option (List Str)
  idForStyleResolution : Option Str
  deriving DecidableEq

def ElementData.observed (d : ElementData) : Observed :=
  ⟨d.attributes, d.classNames, d.idForStyleResolution⟩

/-- What is observed through an element. -/
def observe (s : Store) (e : ElementId) : Observed :=
  match s.elementData e with
  | none => ⟨[], none, none⟩
  | some a => (s.data a).observed

theorem observe_of_some (h : s.elementData e = some a) : observe s e = (s.data a).observed := by
  unfold observe
  rw [h]

/-- Elements that keep their data object, and its contents, look the same. -/
theorem observe_congr (h : s'.elementData o = s.elementData o)
    (hd : ∀ a, s.elementData o = some a → s'.data a = s.data a) : observe s' o = observe s o := by
  unfold observe
  rw [h]
  cases ha : s.elementData o with
  | none => rfl
  | some a =>
    show (s'.data a).observed = (s.data a).observed
    rw [hd a ha]

/-! ## The invariant -/

/-- **The invariant:** unique data have one element, and shared data are fresh. -/
structure Store.Sound (env : Environment) (s : Store) : Prop where
  absent : ∀ e, s.elements ≤ e → s.elementData e = none
  allocated : ∀ e a, s.elementData e = some a → a < s.nextData
  unique : ∀ e o a, s.elementData e = some a → s.elementData o = some a →
    (s.data a).isUnique = true → e = o
  fresh : ∀ e a, s.elementData e = some a → (s.data a).isUnique = false →
    Fresh (env.inQuirksMode (s.document e)) (s.data a)
  cached : ∀ d c hash a, s.cache d = some c → c hash = some a →
    a < s.nextData ∧ (s.data a).isUnique = false ∧ Fresh (env.inQuirksMode d) (s.data a)

/-- What a step that changes the attributes of `e` leaves. -/
structure Changed (env : Environment) (s s' : Store) (e : ElementId) : Prop where
  sound : s'.Sound env
  elements : s'.elements = s.elements
  document : s'.document = s.document
  others : ∀ o, o ≠ e → observe s' o = observe s o

namespace Store

theorem sound_initial (env : Environment) : Store.initial.Sound env :=
  ⟨fun _ _ => rfl, fun _ _ h => (by cases h), fun _ _ _ h => (by cases h),
    fun _ _ h => (by cases h), fun _ _ _ _ h => (by cases h)⟩

/-- `e` gets a new data object. -/
def give (s : Store) (e : ElementId) (d : ElementData) : Store :=
  (s.newData d).1.setElementData e (some s.nextData)

theorem setElementData_self (s : Store) (e : ElementId) (a : Option DataId) :
    (s.setElementData e a).elementData e = a := by
  simp [setElementData]

theorem setElementData_of_ne (s : Store) (a : Option DataId) (ho : o ≠ e) :
    (s.setElementData e a).elementData o = s.elementData o := by
  simp [setElementData, ho]

theorem setData_self (s : Store) (a : DataId) (d : ElementData) : (s.setData a d).data a = d := by
  simp [setData]

theorem setData_of_ne (s : Store) (d : ElementData) (hb : b ≠ a) :
    (s.setData a d).data b = s.data b := by
  simp [setData, hb]

theorem give_self (s : Store) (e : ElementId) (d : ElementData) :
    (s.give e d).elementData e = some s.nextData := setElementData_self _ e _

theorem give_of_ne (s : Store) (d : ElementData) (ho : o ≠ e) :
    (s.give e d).elementData o = s.elementData o := setElementData_of_ne _ _ ho

theorem give_data_self (s : Store) (e : ElementId) (d : ElementData) :
    (s.give e d).data s.nextData = d := by
  simp [give, setElementData, newData]

theorem give_data_of_lt (s : Store) (e : ElementId) (d : ElementData) (ha : a < s.nextData) :
    (s.give e d).data a = s.data a := by
  simp [give, setElementData, newData, Nat.ne_of_lt ha]

theorem document_newElement (s : Store) (d : DocumentId) :
    (s.newElement d).document s.elements = d := by
  simp [Store.newElement]

theorem document_newElement_of_lt (s : Store) (d : DocumentId) (he : e < s.elements) :
    (s.newElement d).document e = s.document e := by
  simp [Store.newElement, Nat.ne_of_lt he]

variable (h : s.Sound env)

include h

theorem Sound.newElement (d : DocumentId) : (s.newElement d).Sound env where
  absent e he := h.absent e (Nat.le_of_succ_le he)
  allocated := h.allocated
  unique := h.unique
  fresh := by
    intro e a ha hshared
    have hlt : e < s.elements := by
      apply Nat.lt_of_not_le
      intro hle
      rw [show (s.newElement d).elementData e = none from h.absent e hle] at ha
      cases ha
    rw [document_newElement_of_lt s d hlt]
    exact h.fresh e a ha hshared
  cached := h.cached

/-- A new object for `e`. -/
theorem Sound.give (he : e < s.elements)
    (hd : d.isUnique = false → Fresh (env.inQuirksMode (s.document e)) d) :
    Changed env s (s.give e d) e := by
  have hdata : ∀ a, a < s.nextData → (s.give e d).data a = s.data a :=
    fun a ha => give_data_of_lt s e d ha
  have hnew := give_data_self s e d
  have hself := give_self s e d
  have hother : ∀ o, o ≠ e → (s.give e d).elementData o = s.elementData o :=
    fun o ho => give_of_ne s d ho
  have hold : ∀ o a, o ≠ e → (s.give e d).elementData o = some a → a < s.nextData := by
    intro o a ho ha
    rw [hother o ho] at ha
    exact h.allocated o a ha
  refine ⟨⟨?_, ?_, ?_, ?_, ?_⟩, rfl, rfl, ?_⟩
  · intro o ho
    rw [hother o (Nat.ne_of_gt (Nat.lt_of_lt_of_le he ho))]
    exact h.absent o ho
  · intro o a ha
    by_cases hoe : o = e
    · subst hoe
      rw [hself] at ha
      cases ha
      exact Nat.lt_succ_self s.nextData
    · exact Nat.lt_succ_of_lt (hold o a hoe ha)
  · intro o p a ho hp hu
    by_cases hoe : o = e <;> by_cases hpe : p = e
    · rw [hoe, hpe]
    · rw [hoe, hself] at ho
      cases ho
      exact absurd (hold p _ hpe hp) (Nat.lt_irrefl _)
    · rw [hpe, hself] at hp
      cases hp
      exact absurd (hold o _ hoe ho) (Nat.lt_irrefl _)
    · have ha := hold o a hoe ho
      rw [hother o hoe] at ho
      rw [hother p hpe] at hp
      rw [hdata a ha] at hu
      exact h.unique o p a ho hp hu
  · intro o a ho hu
    by_cases hoe : o = e
    · subst hoe
      rw [hself] at ho
      cases ho
      rw [hnew] at hu ⊢
      exact hd hu
    · have ha := hold o a hoe ho
      rw [hother o hoe] at ho
      rw [hdata a ha] at hu ⊢
      exact h.fresh o a ho hu
  · intro doc c hash a hc ha
    obtain ⟨hlt, hu, hf⟩ := h.cached doc c hash a hc ha
    rw [hdata a hlt]
    exact ⟨Nat.lt_succ_of_lt hlt, hu, hf⟩
  · intro o ho
    exact observe_congr (hother o ho) fun a ha => hdata a (h.allocated o a ha)

/-- `e` comes to share an object. -/
theorem Sound.share (he : e < s.elements) (ha : a < s.nextData)
    (hu : (s.data a).isUnique = false)
    (hf : Fresh (env.inQuirksMode (s.document e)) (s.data a)) :
    Changed env s (s.setElementData e (some a)) e := by
  have hself := setElementData_self s e (some a)
  have hother : ∀ o, o ≠ e → (s.setElementData e (some a)).elementData o = s.elementData o :=
    fun o ho => setElementData_of_ne s (some a) ho
  have hshared : ∀ b, (s.data b).isUnique = true → b ≠ a := by
    rintro b hb rfl
    rw [hu] at hb
    cases hb
  refine ⟨⟨?_, ?_, ?_, ?_, h.cached⟩, rfl, rfl, ?_⟩
  · intro o ho
    rw [hother o (Nat.ne_of_gt (Nat.lt_of_lt_of_le he ho))]
    exact h.absent o ho
  · intro o b hb
    by_cases hoe : o = e
    · subst hoe
      rw [hself] at hb
      cases hb
      exact ha
    · rw [hother o hoe] at hb
      exact h.allocated o b hb
  · intro o p b ho hp hb
    have hba := hshared b hb
    have hne : ∀ x, (s.setElementData e (some a)).elementData x = some b → x ≠ e := by
      rintro x hx rfl
      rw [hself] at hx
      exact hba (Option.some.inj hx).symm
    have hoe := hne o ho
    have hpe := hne p hp
    rw [hother o hoe] at ho
    rw [hother p hpe] at hp
    exact h.unique o p b ho hp hb
  · intro o b ho hb
    by_cases hoe : o = e
    · subst hoe
      rw [hself] at ho
      cases ho
      exact hf
    · rw [hother o hoe] at ho
      exact h.fresh o b ho hb
  · intro o ho
    exact observe_congr (hother o ho) fun _ _ => rfl

/-- The unique object of `e` is written. -/
theorem Sound.write (ha : s.elementData e = some a) (hu : (s.data a).isUnique = true)
    (hd : d.isUnique = true) : Changed env s (s.setData a d) e := by
  have hself := setData_self s a d
  have hother : ∀ b, b ≠ a → (s.setData a d).data b = s.data b :=
    fun b hb => setData_of_ne s d hb
  have hmine : ∀ o, o ≠ e → s.elementData o ≠ some a := by
    intro o ho hoa
    exact ho (h.unique o e a hoa ha hu)
  refine ⟨⟨h.absent, h.allocated, ?_, ?_, ?_⟩, rfl, rfl, ?_⟩
  · intro o p b ho hp hb
    by_cases hba : b = a
    · subst hba
      exact h.unique o p b ho hp hu
    · rw [hother b hba] at hb
      exact h.unique o p b ho hp hb
  · intro o b ho hb
    by_cases hba : b = a
    · subst hba
      rw [hself, hd] at hb
      cases hb
    · rw [hother b hba] at hb ⊢
      exact h.fresh o b ho hb
  · intro doc c hash b hc hb
    obtain ⟨hlt, hbu, hf⟩ := h.cached doc c hash b hc hb
    have hba : b ≠ a := by
      rintro rfl
      rw [hu] at hbu
      cases hbu
    rw [hother b hba]
    exact ⟨hlt, hbu, hf⟩
  · intro o ho
    refine observe_congr rfl fun b hb => hother b ?_
    rintro rfl
    exact hmine o ho hb

/-- The cache of a document comes to know an object. -/
theorem Sound.cache {doc : DocumentId} {c : UInt32 → Option DataId} (hc : s.cache doc = some c)
    (hash : UInt32) (ha : a < s.nextData) (hu : (s.data a).isUnique = false)
    (hf : Fresh (env.inQuirksMode doc) (s.data a)) :
    ({ s with cache := update s.cache doc (some (update c hash (some a))) } : Store).Sound env := by
  refine ⟨h.absent, h.allocated, h.unique, h.fresh, ?_⟩
  intro doc' c' hash' b hc' hb
  by_cases hdoc : doc' = doc
  · subst hdoc
    have he : update c hash (some a) = c' := by simpa using hc'
    subst he
    by_cases hh : hash' = hash
    · subst hh
      have hab : a = b := by simpa using hb
      subst hab
      exact ⟨ha, hu, hf⟩
    · rw [update_of_ne hh] at hb
      exact h.cached doc' c hash' b hc hb
  · exact h.cached doc' c' hash' b (by simpa [hdoc] using hc') hb

/-- A cache is made, or dropped. -/
theorem Sound.caches {cache : DocumentId → Option (UInt32 → Option DataId)}
    (hcache : ∀ d c hash a, cache d = some c → c hash = some a →
      ∃ c', s.cache d = some c' ∧ c' hash = some a) :
    ({ s with cache := cache } : Store).Sound env where
  absent := h.absent
  allocated := h.allocated
  unique := h.unique
  fresh := h.fresh
  cached := by
    intro d c hash a hc ha
    obtain ⟨c', hc', ha'⟩ := hcache d c hash a hc ha
    exact h.cached d c' hash a hc' ha'

omit h

/-! ## The operations -/

/-- Without data the loop over the attributes ends with an error or does nothing. -/
theorem attributesChanged_none (he : s.elementData e = none)
    (hs : s.attributesChanged env e attributes = .ok s') : s' = s := by
  induction attributes generalizing s with
  | nil => exact (Except.ok.inj hs).symm
  | cons a as ih =>
    unfold attributesChanged attributeChanged at hs
    rw [he] at hs
    simp only [] at hs
    split at hs
    · cases hs
    · rename_i s₁ hs₁
      split at hs₁
      · cases hs₁
      · cases hs₁
        exact ih he hs

/-- With data it refreshes them. -/
theorem attributesChanged_some (ha : s.elementData e = some a) (attributes : List Attribute) :
    s.attributesChanged env e attributes =
      .ok (s.setData a (refresh (env.inQuirksMode (s.document e)) attributes (s.data a))) := by
  induction attributes generalizing s with
  | nil =>
    show Except.ok s = _
    simp [refresh, setData]
  | cons x xs ih =>
    unfold attributesChanged attributeChanged
    rw [ha]
    simp only []
    rw [ih (by exact ha), setData_self]
    simp [setData, refresh]

/-- **The cache returns data with exactly the given attributes**, whatever their hash. -/
theorem cached_attributes (env : Environment) (s : Store) (d : DocumentId)
    (cache : UInt32 → Option DataId) (attributes : List Attribute) :
    let r := s.cachedShareableElementDataWithAttributes env d cache attributes
    (r.1.data r.2).attributes = attributes := by
  unfold cachedShareableElementDataWithAttributes
  simp only []
  split
  · split
    · rename_i a ha hsame
      unfold hasSameAttributes at hsame
      simp only [Bool.and_eq_true, beq_iff_eq] at hsame
      exact hsame.2.symm
    · simp [newData, ElementData.createWithAttributes]
  · simp [newData, ElementData.createWithAttributes]

/-- An element is given the same object twice. -/
theorem setData_give (s : Store) (e : ElementId) (d d' : ElementData) :
    (s.give e d).setData s.nextData d' = s.give e d' := by
  simp [give, setData, setElementData, newData]

/-- A new object is refreshed, whatever the caches are. -/
theorem attributesChanged_give (env : Environment) (s : Store) (e : ElementId) (d : ElementData)
    (cache : DocumentId → Option (UInt32 → Option DataId)) (attributes : List Attribute) :
    ({ s.give e d with cache := cache } : Store).attributesChanged env e attributes =
      .ok { s.give e (refresh (env.inQuirksMode (s.document e)) attributes d) with
        cache := cache } := by
  have hself : ({ s.give e d with cache := cache } : Store).elementData e = some s.nextData :=
    give_self s e d
  rw [attributesChanged_some hself]
  show Except.ok { (s.give e d).setData s.nextData _ with cache := cache } = _
  rw [setData_give, show ({ s.give e d with cache := cache } : Store).data s.nextData = d from
    give_data_self s e d]
  rfl

/-- **`ParserSetAttributes` changes the new element only.** -/
theorem Sound.parserSetAttributes (h : s.Sound env) (he : e < s.elements)
    (hnone : s.elementData e = none) (hs : s.parserSetAttributes env e attributes = .ok s') :
    Changed env s s' e := by
  have hsame : Changed env s s e := ⟨h, rfl, rfl, fun _ _ => rfl⟩
  unfold Store.parserSetAttributes at hs
  simp only [] at hs
  cases hempty : attributes.isEmpty with
  | true =>
    rw [hempty] at hs
    obtain rfl := attributesChanged_none hnone hs
    exact hsame
  | false =>
    rw [hempty] at hs
    simp only [Bool.false_eq_true, if_false] at hs
    cases hc : s.cache (s.document e) with
    | none =>
      rw [hc] at hs
      obtain rfl := attributesChanged_none hnone hs
      exact hsame
    | some c =>
      rw [hc] at hs
      have hnew : Changed env s (s.give e (refresh (env.inQuirksMode (s.document e)) attributes
          (.createWithAttributes attributes))) e :=
        h.give he fun _ => fresh_refresh _ (.createWithAttributes attributes)
      simp only [cachedShareableElementDataWithAttributes] at hs
      cases hhash : c (env.attributeHash attributes) with
      | some a =>
        obtain ⟨hlt, hu, hf⟩ := h.cached _ c _ a hc hhash
        rw [hhash] at hs
        simp only [] at hs
        split at hs
        · rename_i hsame
          unfold hasSameAttributes at hsame
          simp only [Bool.and_eq_true, beq_iff_eq] at hsame
          rw [attributesChanged_some (setElementData_self s e (some a)), hsame.2] at hs
          have hs := Except.ok.inj hs
          rw [show refresh (env.inQuirksMode ((s.setElementData e (some a)).document e))
            (s.data a).attributes ((s.setElementData e (some a)).data a) = s.data a from hf] at hs
          have hkeep : (s.setElementData e (some a)).setData a (s.data a) =
              s.setElementData e (some a) := by
            simp [setData, setElementData]
          rw [← hs, hkeep]
          exact h.share he hlt hu hf
        · have hgive := attributesChanged_give env s e (.createWithAttributes attributes)
            s.cache attributes
          cases hgive.symm.trans hs
          exact hnew
      | none =>
        rw [hhash] at hs
        have hgive := attributesChanged_give env s e (.createWithAttributes attributes)
          (update s.cache (s.document e)
            (some (update c (env.attributeHash attributes) (some s.nextData)))) attributes
        cases hgive.symm.trans hs
        have hdata := give_data_self s e (refresh (env.inQuirksMode (s.document e)) attributes
          (.createWithAttributes attributes))
        refine ⟨hnew.sound.cache hc _ (Nat.lt_succ_self s.nextData) ?_ ?_, rfl, rfl, hnew.others⟩
        · rw [hdata, refresh_isUnique]
          rfl
        · rw [hdata]
          exact fresh_refresh _ (.createWithAttributes attributes)

/-- **`EnsureUniqueElementData` makes room for any change:** what is written into the object that it
answers is seen through its element only. -/
theorem Sound.ensureUniqueElementData (h : s.Sound env) (he : e < s.elements) :
    let r := s.ensureUniqueElementData e
    r.1.elementData e = some r.2 ∧ (r.1.data r.2).isUnique = true ∧
      ∀ d, d.isUnique = true → Changed env s (r.1.setData r.2 d) e := by
  unfold Store.ensureUniqueElementData
  have hgive : ∀ d₀ d : ElementData, d.isUnique = true →
      Changed env s ((s.give e d₀).setData s.nextData d) e := by
    intro d₀ d hd
    rw [setData_give]
    exact h.give he fun hshared => by rw [hd] at hshared; cases hshared
  have hunique : ∀ d : ElementData, d.isUnique = true →
      ((s.give e d).data s.nextData).isUnique = true := by
    intro d hd
    rw [give_data_self, hd]
  cases ha : s.elementData e with
  | none => exact ⟨give_self s e .create, hunique .create rfl, hgive .create⟩
  | some a =>
    simp only []
    cases hu : (s.data a).isUnique with
    | true => exact ⟨ha, hu, fun d hd => h.write ha hu hd⟩
    | false =>
      exact ⟨give_self s e _, hunique (s.data a).makeUniqueCopy rfl,
        hgive (s.data a).makeUniqueCopy⟩

theorem Sound.appendAttributeInternal (h : s.Sound env) (he : e < s.elements)
    (name : QualifiedName) (value : Str)
    (hs : s.appendAttributeInternal env e name value = .ok s') : Changed env s s' e := by
  obtain ⟨hself, hu, hwrite⟩ := h.ensureUniqueElementData he
  unfold Store.appendAttributeInternal attributeChanged at hs
  generalize s.ensureUniqueElementData e = r at hs hself hu hwrite
  simp only [] at hs
  rw [show (r.1.setData r.2 _).elementData e = some r.2 from hself] at hs
  simp only [] at hs
  cases hs
  have htwice : ∀ d d' : ElementData, (r.1.setData r.2 d).setData r.2 d' = r.1.setData r.2 d' := by
    intro d d'
    simp [setData]
  rw [htwice, setData_self]
  apply hwrite
  rw [attributeChangedData_eq]
  exact hu

theorem Sound.setAttributeInternal (h : s.Sound env) (he : e < s.elements) (index : Option Nat)
    (name : QualifiedName) (newValue : Option Str)
    (hs : s.setAttributeInternal env e index name newValue = .ok s') : Changed env s s' e := by
  have hsame : Changed env s s e := ⟨h, rfl, rfl, fun _ _ => rfl⟩
  unfold Store.setAttributeInternal at hs
  split at hs
  · cases hs
    exact hsame
  · exact h.appendAttributeInternal he name _ hs
  · split at hs
    · cases hs
    · split at hs
      · obtain ⟨-, hu, hwrite⟩ := h.ensureUniqueElementData he
        cases hs
        exact hwrite _ hu
      · cases hs
        exact hsame

/-- **`setAttribute` changes its element only.** -/
theorem Sound.setAttribute (h : s.Sound env) (he : e < s.elements) (localName : Str)
    (value : Option Str) {r : Store × Option DOMException}
    (hs : s.setAttribute env e localName value = .ok r) : Changed env s r.1 e := by
  unfold Store.setAttribute at hs
  split at hs
  · cases hs
    exact ⟨h, rfl, rfl, fun _ _ => rfl⟩
  · simp only [] at hs
    split at hs
    all_goals
      generalize hr : s.setAttributeInternal env e _ _ value = q at hs
      cases q with
      | error f => cases hs
      | ok s' =>
        cases hs
        exact h.setAttributeInternal he _ _ value hr

/-! ## Clones -/

/-- The elements that a clone is made of have fresh data, or shared ones. -/
def Undisturbing (env : Environment) (s : Store) : Action → Prop
  | .clone other => ∀ a, s.elementData other = some a → (s.data a).isUnique = true →
      Fresh (env.inQuirksMode (s.document other)) (s.data a)
  | _ => True

/-- A refreshed object looks like the old one exactly when that was fresh. -/
theorem observed_refresh_iff (q : Bool) (d : ElementData) :
    (refresh q d.attributes d).observed = d.observed ↔ Fresh q d := by
  unfold Fresh ElementData.observed
  rw [refresh_eq]
  cases d
  simp

/-- The clone of an element with shared data, which are fresh. -/
theorem cloneAttributesFrom_shared {other : ElementId} (hdoc : s.document e = s.document other)
    (ha : s.elementData other = some a) (hu : (s.data a).isUnique = false)
    (hf : Fresh (env.inQuirksMode (s.document other)) (s.data a)) :
    s.cloneAttributesFrom env e other = .ok (s.setElementData e (some a)) := by
  unfold Store.cloneAttributesFrom
  rw [ha, hdoc]
  simp only [bne_self_eq_false, Bool.and_false, Bool.not_false, Bool.and_true, hu,
    Bool.false_eq_true, if_false, if_true]
  rw [attributesChanged_some (setElementData_self s e (some a))]
  have hrefresh : refresh (env.inQuirksMode ((s.setElementData e (some a)).document e))
      ((s.setElementData e (some a)).data a).attributes
      ((s.setElementData e (some a)).data a) = s.data a := by
    show refresh (env.inQuirksMode (s.document e)) _ _ = _
    rw [hdoc]
    exact hf
  rw [hrefresh]
  simp [setData, setElementData]

/-- The clone of an element with unique data: both share a copy, which the loop refreshes. -/
theorem cloneAttributesFrom_unique (env : Environment) {other : ElementId}
    (hdoc : s.document e = s.document other)
    (ha : s.elementData other = some a) (hu : (s.data a).isUnique = true) :
    s.cloneAttributesFrom env e other =
      .ok ((s.give other (refresh (env.inQuirksMode (s.document other)) (s.data a).attributes
        (s.data a).makeShareableCopy)).setElementData e (some s.nextData)) := by
  unfold Store.cloneAttributesFrom
  rw [ha, hdoc]
  simp only [bne_self_eq_false, Bool.and_false, Bool.not_false, Bool.and_true, hu, if_true]
  rw [show (s.newData (s.data a).makeShareableCopy).1.setElementData other
      (some (s.newData (s.data a).makeShareableCopy).2) =
        s.give other (s.data a).makeShareableCopy from rfl,
    show (s.newData (s.data a).makeShareableCopy).2 = s.nextData from rfl, give_data_self,
    show (s.data a).makeShareableCopy.isUnique = false from rfl]
  simp only [Bool.not_false, if_true]
  rw [attributesChanged_some (setElementData_self _ e _)]
  have hdata : ((s.give other (s.data a).makeShareableCopy).setElementData e
      (some s.nextData)).data s.nextData = (s.data a).makeShareableCopy := give_data_self s other _
  rw [hdata, show ((s.give other (s.data a).makeShareableCopy).setElementData e
    (some s.nextData)).document e = s.document other from hdoc]
  show Except.ok (((s.give other _).setData s.nextData _).setElementData e _) = _
  rw [setData_give]
  rfl

/-- **A clone leaves what is observed through its original alone exactly when the original's data
are shared or fresh.** The other elements are not touched in any case. -/
theorem Sound.cloneAttributesFrom (h : s.Sound env) {other : ElementId} (he : e < s.elements)
    (hother : other < s.elements) (hne : other ≠ e) (hnone : s.elementData e = none)
    (hdoc : s.document e = s.document other)
    (hs : s.cloneAttributesFrom env e other = .ok s') :
    s'.Sound env ∧ s'.elements = s.elements ∧
      (∀ o, o ≠ e → o ≠ other → observe s' o = observe s o) ∧
      (observe s' other = observe s other ↔ ∀ a, s.elementData other = some a →
        (s.data a).isUnique = true → Fresh (env.inQuirksMode (s.document other)) (s.data a)) := by
  cases ha : s.elementData other with
  | none =>
    unfold Store.cloneAttributesFrom at hs
    rw [ha] at hs
    cases hs
    have hkeep : s.setElementData e none = s := by
      unfold setElementData
      rw [← hnone, update_eq_self]
    rw [hkeep]
    exact ⟨h, rfl, fun _ _ _ => rfl, iff_of_true rfl fun a ha => by cases ha⟩
  | some a =>
    cases hu : (s.data a).isUnique with
    | false =>
      have hf := h.fresh other a ha hu
      rw [cloneAttributesFrom_shared hdoc ha hu hf] at hs
      have hc := h.share he (h.allocated other a ha) hu (by rw [hdoc]; exact hf)
      rw [← Except.ok.inj hs]
      refine ⟨hc.sound, rfl, fun o ho _ => hc.others o ho, iff_of_true (hc.others other hne) ?_⟩
      intro b hb hbu
      cases hb
      rw [hu] at hbu
      cases hbu
    | true =>
      rw [cloneAttributesFrom_unique env hdoc ha hu] at hs
      have hfresh : Fresh (env.inQuirksMode (s.document other))
          (refresh (env.inQuirksMode (s.document other)) (s.data a).attributes
            (s.data a).makeShareableCopy) := fresh_refresh _ (s.data a).makeShareableCopy
      have hshared : (refresh (env.inQuirksMode (s.document other)) (s.data a).attributes
          (s.data a).makeShareableCopy).isUnique = false := refresh_isUnique _ _ _
      have hlook : (refresh (env.inQuirksMode (s.document other)) (s.data a).attributes
          (s.data a).makeShareableCopy).observed = (s.data a).observed ↔
            Fresh (env.inQuirksMode (s.document other)) (s.data a) := by
        rw [← fresh_makeShareableCopy]
        exact observed_refresh_iff _ (s.data a).makeShareableCopy
      generalize refresh (env.inQuirksMode (s.document other)) (s.data a).attributes
        (s.data a).makeShareableCopy = D at hs hfresh hshared hlook
      have hgive := h.give hother fun _ => hfresh
      have hdata := give_data_self s other D
      have hc : Changed env (s.give other D) s' e := by
        rw [← Except.ok.inj hs]
        apply hgive.sound.share he (Nat.lt_succ_self s.nextData)
        · rw [hdata, hshared]
        · rw [hdata, show (s.give other D).document e = s.document other from hdoc]
          exact hfresh
      have hobserve : observe s' other = D.observed := by
        rw [hc.others other hne, observe_of_some (give_self s other D), hdata]
      refine ⟨hc.sound, hc.elements, fun o hoe hoo => ?_, ?_⟩
      · rw [hc.others o hoe, hgive.others o hoo]
      · rw [hobserve, observe_of_some ha, hlook]
        constructor
        · intro hf b hb hbu
          cases hb
          exact hf
        · intro hall
          exact hall a rfl hu

theorem map_eq_ok {α β ε : Type} {f : α → β} {x : Except ε α} {y : β} (h : x.map f = .ok y) :
    ∃ z, x = .ok z ∧ f z = y := by
  cases x with
  | error e => cases h
  | ok z => exact ⟨z, rfl, Except.ok.inj h⟩

/-- **Every step keeps the invariant**, and leaves what is observed through the other elements alone
exactly when it does not clone stale data. -/
theorem Sound.step (h : s.Sound env) (action : Action) {r : Store × Option DOMException}
    (hs : s.step env action = .ok r) :
    r.1.Sound env ∧ ((∀ o, some o ≠ s.target action → observe r.1 o = observe s o) ↔
      Undisturbing env s action) := by
  cases action with
  | startParsing d =>
    cases hs
    refine ⟨h.caches fun d' c hash a hc ha => ?_, iff_of_true (fun _ _ => rfl) trivial⟩
    by_cases hd : d' = d
    · subst hd
      cases hold : s.cache d' with
      | none =>
        rw [update_self, hold] at hc
        cases hc
        cases ha
      | some c' =>
        rw [update_self, hold] at hc
        cases hc
        exact ⟨_, rfl, ha⟩
    · rw [update_of_ne hd] at hc
      exact ⟨c, hc, ha⟩
  | elementDataCacheClearTimerFired d =>
    cases hs
    refine ⟨h.caches fun d' c hash a hc ha => ?_, iff_of_true (fun _ _ => rfl) trivial⟩
    by_cases hd : d' = d
    · subst hd
      rw [update_self] at hc
      cases hc
    · rw [update_of_ne hd] at hc
      exact ⟨c, hc, ha⟩
  | createElement d =>
    cases hs
    exact ⟨h.newElement d, iff_of_true (fun _ _ => rfl) trivial⟩
  | parse d attributes =>
    obtain ⟨s', hs', rfl⟩ := map_eq_ok hs
    have hc := (h.newElement d).parserSetAttributes (Nat.lt_succ_self s.elements)
      (h.absent s.elements (Nat.le_refl _)) hs'
    refine ⟨hc.sound, iff_of_true (fun o ho => hc.others o ?_) trivial⟩
    exact fun he => ho (congrArg some he)
  | clone other =>
    simp only [Store.step] at hs
    split at hs
    · rename_i hother
      obtain ⟨s', hs', rfl⟩ := map_eq_ok hs
      have hdoc : (s.newElement (s.document other)).document other = s.document other :=
        document_newElement_of_lt s _ hother
      obtain ⟨hsound, -, hothers, hiff⟩ := (h.newElement (s.document other)).cloneAttributesFrom
        (Nat.lt_succ_self s.elements) (Nat.lt_succ_of_lt hother) (Nat.ne_of_lt hother)
        (h.absent s.elements (Nat.le_refl _))
        ((document_newElement s _).trans hdoc.symm) hs'
      rw [hdoc] at hiff
      refine ⟨hsound, ?_, ?_⟩
      · intro hall
        apply hiff.mp
        apply hall other
        intro heq
        exact absurd (Option.some.inj heq) (Nat.ne_of_lt hother)
      · intro hfresh o ho
        by_cases hoo : o = other
        · subst hoo
          exact hiff.mpr hfresh
        · exact hothers o (fun he => ho (congrArg some he)) hoo
    · cases hs
  | setAttribute e localName value =>
    simp only [Store.step] at hs
    split at hs
    · rename_i he
      have hc := h.setAttribute he localName value hs
      refine ⟨hc.sound, iff_of_true (fun o ho => hc.others o ?_) trivial⟩
      exact fun he => ho (congrArg some he)
    · cases hs

end Store

/-! ## Isolation -/

/-- A step changes what is observed through its own element only. -/
def Isolating (env : Environment) (s : Store) (action : Action) : Prop :=
  ∀ r, s.step env action = .ok r → ∀ o, some o ≠ s.target action → observe r.1 o = observe s o

theorem isolating_iff (h : s.Sound env) (action : Action) :
    Isolating env s action ↔ s.Undisturbing env action := by
  constructor
  · intro hiso
    cases action with
    | clone other =>
      intro a ha hu
      have hother : other < s.elements := by
        apply Nat.lt_of_not_le
        intro hle
        rw [h.absent other hle] at ha
        cases ha
      have hdoc : (s.newElement (s.document other)).document other = s.document other :=
        Store.document_newElement_of_lt s _ hother
      have hclone := Store.cloneAttributesFrom_unique env
        ((Store.document_newElement s _).trans hdoc.symm) ha hu
      have hstep : ∃ r, s.step env (.clone other) = .ok r := by
        simp only [Store.step, if_pos hother, hclone]
        exact ⟨_, rfl⟩
      obtain ⟨r, hr⟩ := hstep
      exact (h.step (.clone other) hr).2.mp (hiso r hr) a ha hu
    | _ => trivial
  · intro hund r hr
    exact (h.step action hr).2.mpr hund

/-- **Attribute isolation.** The cache returns data with exactly the given attributes, whatever the
hash is; and the steps of a history change the attributes, the class names and the id of no other
element exactly when no clone is made of stale data. -/
theorem attribute_isolation_iff (env : Environment) (actions : List Action) :
    ((∀ (s : Store) (d : DocumentId) (cache : UInt32 → Option DataId)
        (attributes : List Attribute),
        let r := s.cachedShareableElementDataWithAttributes env d cache attributes
        (r.1.data r.2).attributes = attributes) ∧
      Allowed (Store.step env) (Isolating env) Store.initial actions) ↔
    Allowed (Store.step env) (Store.Undisturbing env) Store.initial actions := by
  have hsound : ∀ s a r, Store.Sound env s → Store.step env s a = .ok r → r.1.Sound env :=
    fun s a r hs hr => (hs.step a hr).1
  have hallowed := allowed_congr hsound (fun s a hs => isolating_iff hs a)
    (Store.sound_initial env) actions
  constructor
  · intro hboth
    exact hallowed.mp hboth.2
  · intro hund
    exact ⟨Store.cached_attributes env, hallowed.mpr hund⟩

/-- Names are valid, lists of attributes have the same hash, documents are in no-quirks mode. -/
def plainEnvironment : Environment := ⟨fun _ => true, fun _ => 0, fun _ => false⟩

/-- An element with the class `a` is given the class `b`, and then cloned. -/
def staleClone : List Action :=
  [.startParsing 0, .parse 0 [⟨kClassAttr, "a".toList⟩],
    .setAttribute 0 "class".toList (some "b".toList), .clone 0]

/-- **The class names of the original change from `a` to `b` when it is cloned.** -/
theorem clone_changes_original :
    ¬ Allowed (Store.step plainEnvironment) (Isolating plainEnvironment) Store.initial
      staleClone := by
  intro h
  have hclone := h.2.2.2.1 _ rfl 0 (by decide)
  exact absurd hclone (by decide)

end Blinkit.Dom.Attributes
