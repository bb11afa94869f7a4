import Mathlib.Data.List.Nodup
import Blinkit.Html.HTMLElementStack

/-!
# The Noah's Ark condition

`HTMLFormattingElementList::Append` makes room for the new item first: among the entries behind the
last marker at most two may be identical to it.  `EnsureNoahsArkCondition` filters the candidates
attribute by attribute with two vectors that it swaps.  Behind a swap the second vector is to be
empty, but `shrink_to_fit` leaves what it holds.

* `quickLoop`, `arkLoop`, `ensureNoahsArkCondition`, `append` : the functions of the list
* `FormattingItem`, `FormattingList` : items made from a start tag, and lists of them
* `Identical`, `Ark` : what the condition asks for

Principal results: `Ark.at_most_three`, `noahsArk_iff`.
-/

set_option autoImplicit false

namespace Blinkit.Html

open Dom

/-! ## The source -/

namespace HTMLStackItem

def attributes (item : HTMLStackItem) : List (String × String) :=
  match item.token with
  | none => []
  | some token => token.attributes

def localName (item : HTMLStackItem) : Option String := item.token.map SavedToken.localName

def namespaceURI (item : HTMLStackItem) : Option NamespaceURI :=
  item.token.map SavedToken.namespaceURI

/-- The value that `GetAttributeItem` finds. The names of a start tag have no namespace. -/
def getAttributeItem (item : HTMLStackItem) (name : String) : Option String :=
  (item.attributes.find? fun a => a.1 == name).map Prod.snd

end HTMLStackItem

namespace HTMLFormattingElementList

def kNoahsArkCapacity : Nat := 3

/-- The loop of `TryToEnsureNoahsArkConditionQuickly`, which goes backwards. -/
def quickLoop (newItem : HTMLStackItem) : HTMLFormattingElementList → List HTMLStackItem
  | [] => []
  | none :: _ => []
  | some candidate :: entries =>
    if newItem.localName ≠ candidate.localName ∨ newItem.namespaceURI ≠ candidate.namespaceURI then
      quickLoop newItem entries
    else if candidate.attributes.length ≠ newItem.attributes.length then
      quickLoop newItem entries
    else candidate :: quickLoop newItem entries

/-- `TryToEnsureNoahsArkConditionQuickly`: the remaining candidates. -/
def tryToEnsureNoahsArkConditionQuickly (entries : HTMLFormattingElementList)
    (newItem : HTMLStackItem) : List HTMLStackItem :=
  if entries.length < kNoahsArkCapacity then []
  else
    let candidates := quickLoop newItem entries.reverse
    if candidates.length < kNoahsArkCapacity then [] else candidates

/-- The candidate has the attribute. -/
def hasAttribute (a : String × String) (candidate : HTMLStackItem) : Bool :=
  candidate.getAttributeItem a.1 == some a.2

/-- The loop over the attributes of the new item; `none` is the return within it. The two vectors
are swapped, and `shrink_to_fit` does not empty the second one. -/
def arkLoop : List (String × String) → List HTMLStackItem → List HTMLStackItem →
    Option (List HTMLStackItem)
  | [], candidates, _ => some candidates
  | a :: attributes, candidates, remainingCandidates =>
    let remainingCandidates := remainingCandidates ++ candidates.filter (hasAttribute a)
    if remainingCandidates.length < kNoahsArkCapacity then none
    else arkLoop attributes remainingCandidates candidates

/-- The last loop of `EnsureNoahsArkCondition`. -/
def removeAll (entries : HTMLFormattingElementList) (candidates : List HTMLStackItem) :
    HTMLFormattingElementList :=
  candidates.foldl (fun entries candidate => entries.remove candidate.node) entries

/-- `EnsureNoahsArkCondition`. -/
def ensureNoahsArkCondition (entries : HTMLFormattingElementList) (newItem : HTMLStackItem) :
    HTMLFormattingElementList :=
  let candidates := entries.tryToEnsureNoahsArkConditionQuickly newItem
  if candidates = [] then entries
  else
    match arkLoop newItem.attributes candidates [] with
    | none => entries
    | some candidates => entries.removeAll (candidates.drop (kNoahsArkCapacity - 1))

/-- `Append`. -/
def append (entries : HTMLFormattingElementList) (item : HTMLStackItem) :
    HTMLFormattingElementList := entries.ensureNoahsArkCondition item ++ [some item]

end HTMLFormattingElementList

open HTMLFormattingElementList

/-! ## The lists of a parser -/

/-- An item made from a start tag. The token keeps the first of two attributes with one name. -/
structure FormattingItem where
  item : HTMLStackItem
  token : SavedToken
  item_token : item.token = some token
  names_nodup : (token.attributes.map Prod.fst).Nodup

/-- The elements of the entries. -/
def elements (entries : HTMLFormattingElementList) : List NodeId :=
  entries.filterMap fun entry => entry.map HTMLStackItem.node

/-- A list of active formatting elements: every element has one entry, made from a start tag. -/
structure FormattingList where
  entries : HTMLFormattingElementList
  elements_nodup : (elements entries).Nodup
  items : ∀ item, some item ∈ entries → ∃ f : FormattingItem, f.item = item

/-! ## The condition -/

/-- The entries behind the last marker, of a list in reverse. -/
def behindLoop : HTMLFormattingElementList → List HTMLStackItem
  | [] => []
  | none :: _ => []
  | some item :: entries => item :: behindLoop entries

/-- The entries behind the last marker. -/
def behindLastMarker (entries : HTMLFormattingElementList) : List HTMLStackItem :=
  (behindLoop entries.reverse).reverse

/-- The entries up to the last marker. -/
def uptoLastMarker (entries : HTMLFormattingElementList) : HTMLFormattingElementList :=
  entries.take (entries.length - (behindLastMarker entries).length)

/-- The same local name, namespace and set of attributes. -/
def Identical (item other : HTMLStackItem) : Prop :=
  other.localName = item.localName ∧ other.namespaceURI = item.namespaceURI ∧
    (∀ a ∈ other.attributes, a ∈ item.attributes) ∧ ∀ a ∈ item.attributes, a ∈ other.attributes

instance (item other : HTMLStackItem) : Decidable (Identical item other) :=
  inferInstanceAs (Decidable (_ ∧ _ ∧ _ ∧ _))

/-- The list without the first `n` elements that satisfy `p`. -/
def dropEarliest {α : Type} (p : α → Bool) : Nat → List α → List α
  | _, [] => []
  | 0, l => l
  | n + 1, a :: l => if p a then dropEarliest p n l else a :: dropEarliest p (n + 1) l

/-- The list that the condition asks for: of the entries behind the last marker that are identical
to the item the earliest are gone, as many as needed to leave two. -/
def Ark (entries : HTMLFormattingElementList) (item : HTMLStackItem)
    (result : HTMLFormattingElementList) : Prop :=
  let behind := behindLastMarker entries
  let surplus := behind.countP (fun other => Identical item other) - 2
  result = uptoLastMarker entries ++
    (dropEarliest (fun other => Identical item other) surplus behind).map some ++ [some item]

/-- The entries behind the last marker that the quick filter and the first attribute let pass. -/
def alikeSoFar (entries : HTMLFormattingElementList) (item : HTMLStackItem)
    (first : String × String) : List HTMLStackItem :=
  (behindLastMarker entries).filter fun other =>
    other.localName = item.localName ∧ other.namespaceURI = item.namespaceURI ∧
      other.attributes.length = item.attributes.length ∧ first ∈ other.attributes

/-- The item has at most one attribute, or fewer than three entries pass with the first one. -/
def FewAlike (entries : HTMLFormattingElementList) (item : HTMLStackItem) : Prop :=
  match item.attributes with
  | first :: _ :: _ => (alikeSoFar entries item first).length < 3
  | _ => True

/-! ## Dropping the earliest -/

section DropEarliest

variable {α : Type} {p : α → Bool}

theorem countP_dropEarliest (n : Nat) (l : List α) :
    (dropEarliest p n l).countP p = l.countP p - n := by
  induction l generalizing n with
  | nil => simp [dropEarliest]
  | cons a l ih =>
    cases n with
    | zero => simp [dropEarliest]
    | succ n =>
      unfold dropEarliest
      split
      · rename_i ha
        rw [ih, List.countP_cons_of_pos ha]
        omega
      · rename_i ha
        rw [List.countP_cons_of_neg ha, ih, List.countP_cons_of_neg ha]

/-- In a list without repetition, the first `n` elements that satisfy `p` are filtered out. -/
theorem dropEarliest_eq_filter [DecidableEq α] {l : List α} (hl : l.Nodup) (n : Nat) :
    dropEarliest p n l = l.filter fun a => decide (a ∉ (l.filter p).take n) := by
  induction l generalizing n with
  | nil => simp [dropEarliest]
  | cons a l ih =>
    obtain ⟨ha, hl⟩ := List.nodup_cons.mp hl
    cases n with
    | zero => simp [dropEarliest]
    | succ n =>
      unfold dropEarliest
      split
      · rename_i hpa
        rw [List.filter_cons_of_pos hpa, List.take_succ_cons, ih hl,
          List.filter_cons_of_neg (by simp)]
        apply List.filter_congr
        intro b hb
        have hne : b ≠ a := by
          rintro rfl
          exact ha hb
        simp [hne]
      · rename_i hpa
        have hkept : a ∉ (l.filter p).take (n + 1) := by
          intro hmem
          exact hpa (List.mem_filter.mp (List.mem_of_mem_take hmem)).2
        rw [List.filter_cons_of_neg hpa, ih hl, List.filter_cons_of_pos (by simpa using hkept)]

end DropEarliest

/-! ## The entries behind the last marker -/

theorem behindLoop_append (l : List HTMLStackItem) (es : HTMLFormattingElementList) :
    behindLoop (l.map some ++ es) = l ++ behindLoop es := by
  induction l with
  | nil => rfl
  | cons item l ih =>
    show item :: behindLoop (l.map some ++ es) = item :: (l ++ behindLoop es)
    rw [ih]

theorem behindLoop_split (es : HTMLFormattingElementList) :
    es = (behindLoop es).map some ++ es.drop (behindLoop es).length ∧
      behindLoop (es.drop (behindLoop es).length) = [] := by
  induction es with
  | nil => exact ⟨rfl, rfl⟩
  | cons entry es ih =>
    cases entry with
    | none => exact ⟨rfl, rfl⟩
    | some item =>
      refine ⟨?_, ih.2⟩
      show some item :: es =
        some item :: ((behindLoop es).map some ++ es.drop (behindLoop es).length)
      rw [← ih.1]

/-- The list is cut at its last marker. -/
theorem upto_append_behind (entries : HTMLFormattingElementList) :
    uptoLastMarker entries ++ (behindLastMarker entries).map some = entries := by
  obtain ⟨hsplit, -⟩ := behindLoop_split entries.reverse
  rw [List.drop_reverse] at hsplit
  have hrev := congrArg List.reverse hsplit
  rw [List.reverse_reverse, List.reverse_append, List.reverse_reverse, ← List.map_reverse] at hrev
  unfold uptoLastMarker behindLastMarker
  rw [List.length_reverse]
  exact hrev.symm

/-- What is put behind the last marker is behind it. -/
theorem behindLastMarker_append (entries : HTMLFormattingElementList) (l : List HTMLStackItem) :
    behindLastMarker (uptoLastMarker entries ++ l.map some) = l := by
  obtain ⟨-, hnone⟩ := behindLoop_split entries.reverse
  rw [List.drop_reverse] at hnone
  unfold uptoLastMarker behindLastMarker
  rw [List.length_reverse, List.reverse_append, ← List.map_reverse, behindLoop_append, hnone,
    List.append_nil, List.reverse_reverse]

/-- **Noah's Ark.** Behind the last marker at most three entries are identical to the new item,
which is one of them. -/
theorem Ark.at_most_three {entries result : HTMLFormattingElementList} {item : HTMLStackItem}
    (h : Ark entries item result) :
    (behindLastMarker result).countP (fun other => Identical item other) ≤ 3 := by
  unfold Ark at h
  dsimp only at h
  have hlast : [some item] = [item].map some := rfl
  rw [h, List.append_assoc, hlast, ← List.map_append, behindLastMarker_append, List.countP_append,
    countP_dropEarliest]
  have hone := List.countP_le_length (p := fun other => decide (Identical item other)) (l := [item])
  simp only [List.length_singleton] at hone
  omega

/-! ## Removing entries -/

theorem elements_cons_none (entries : HTMLFormattingElementList) :
    elements (none :: entries) = elements entries := rfl

theorem elements_cons_some (item : HTMLStackItem) (entries : HTMLFormattingElementList) :
    elements (some item :: entries) = item.node :: elements entries := rfl

theorem find_eq_none {n : NodeId} {entries : HTMLFormattingElementList}
    (h : n ∉ elements entries) : entries.find n = none := by
  induction entries with
  | nil => rfl
  | cons entry entries ih =>
    unfold HTMLFormattingElementList.find
    cases entry with
    | none =>
      rw [elements_cons_none] at h
      rw [ih h]
      rfl
    | some item =>
      rw [elements_cons_some, List.mem_cons, not_or] at h
      have hne : isEntryOf n (some item) = false := by
        rw [Bool.eq_false_iff]
        intro he
        obtain ⟨_, heq, hnode⟩ := isEntryOf_iff.mp he
        cases heq
        exact h.1 hnode.symm
      rw [ih h.2]
      simp only [hne]
      rfl

/-- An element with one entry loses it. -/
theorem remove_eq_filter {entries : HTMLFormattingElementList} (h : (elements entries).Nodup)
    (n : NodeId) : entries.remove n = entries.filter fun entry => !isEntryOf n entry := by
  induction entries with
  | nil => rfl
  | cons entry entries ih =>
    have hrest : (elements entries).Nodup := by
      unfold elements at h ⊢
      exact h.sublist ((List.sublist_cons_self entry entries).filterMap _)
    have ih := ih hrest
    unfold HTMLFormattingElementList.remove at ih ⊢
    unfold HTMLFormattingElementList.find
    cases hfind : HTMLFormattingElementList.find n entries with
    | some i =>
      have hmem : n ∈ elements entries := by
        by_contra hnot
        rw [find_eq_none hnot] at hfind
        cases hfind
      have hne : isEntryOf n entry = false := by
        rw [Bool.eq_false_iff]
        intro he
        obtain ⟨item, rfl, rfl⟩ := isEntryOf_iff.mp he
        rw [elements_cons_some] at h
        exact (List.nodup_cons.mp h).1 hmem
      rw [hfind] at ih
      rw [List.filter_cons_of_pos (by simp [hne])]
      exact congrArg (entry :: ·) ih
    | none =>
      rw [hfind] at ih
      dsimp only at ih ⊢
      by_cases he : isEntryOf n entry = true
      · rw [if_pos he, List.filter_cons_of_neg (by simp [he])]
        exact ih
      · rw [if_neg he, List.filter_cons_of_pos (by simp [he]), ← ih]

theorem removeAll_eq_filter {entries : HTMLFormattingElementList} (h : (elements entries).Nodup)
    (gone : List HTMLStackItem) :
    entries.removeAll gone =
      entries.filter fun entry => gone.all fun item => !isEntryOf item.node entry := by
  unfold removeAll
  induction gone generalizing entries with
  | nil => simp
  | cons item gone ih =>
    have hrest : (elements (entries.remove item.node)).Nodup := by
      rw [remove_eq_filter h]
      exact h.sublist (List.filter_sublist.filterMap _)
    rw [List.foldl_cons, ih hrest, remove_eq_filter h, List.filter_filter]
    apply List.filter_congr
    intro entry _
    rw [List.all_cons, Bool.and_comm]

/-! ## The candidates -/

/-- What the quick filter compares. -/
def Alike (item other : HTMLStackItem) : Prop :=
  other.localName = item.localName ∧ other.namespaceURI = item.namespaceURI ∧
    other.attributes.length = item.attributes.length

instance (item other : HTMLStackItem) : Decidable (Alike item other) :=
  inferInstanceAs (Decidable (_ ∧ _ ∧ _))

theorem quickLoop_eq_filter (item : HTMLStackItem) (es : HTMLFormattingElementList) :
    quickLoop item es = (behindLoop es).filter fun other => Alike item other := by
  induction es with
  | nil => rfl
  | cons entry es ih =>
    cases entry with
    | none => rfl
    | some other =>
      unfold quickLoop behindLoop
      split
      · rename_i hne
        rw [ih, List.filter_cons_of_neg]
        rw [decide_eq_true_eq]
        rintro ⟨hlocal, hnamespace, -⟩
        rcases hne with hne | hne
        · exact hne hlocal.symm
        · exact hne hnamespace.symm
      · rename_i heq
        simp only [ne_eq, not_or, not_not] at heq
        split
        · rename_i hne
          rw [ih, List.filter_cons_of_neg]
          rw [decide_eq_true_eq]
          rintro ⟨-, -, hlength⟩
          exact hne hlength
        · rename_i hlength
          rw [ih, List.filter_cons_of_pos]
          exact decide_eq_true ⟨heq.1.symm, heq.2.symm, not_not.mp hlength⟩

theorem FormattingItem.attributes_eq (f : FormattingItem) :
    f.item.attributes = f.token.attributes := by
  unfold HTMLStackItem.attributes
  rw [f.item_token]

theorem FormattingItem.attributes_nodup (f : FormattingItem) : f.item.attributes.Nodup := by
  rw [f.attributes_eq]
  exact f.names_nodup.of_map _

/-- The names are distinct, so the first attribute of a name is the only one. -/
theorem FormattingItem.hasAttribute_iff (f : FormattingItem) (a : String × String) :
    hasAttribute a f.item = true ↔ a ∈ f.item.attributes := by
  unfold hasAttribute HTMLStackItem.getAttributeItem
  rw [f.attributes_eq, beq_iff_eq, Option.map_eq_some_iff]
  constructor
  · rintro ⟨b, hb, hvalue⟩
    have hname : b.1 = a.1 := by simpa using List.find?_some hb
    have hba : b = a := Prod.ext hname hvalue
    rw [← hba]
    exact List.mem_of_find?_eq_some hb
  · intro hmem
    have hsome : (f.token.attributes.find? fun b => b.1 == a.1).isSome = true := by
      rw [List.find?_isSome]
      exact ⟨a, hmem, by simp⟩
    obtain ⟨b, hb⟩ := Option.isSome_iff_exists.mp hsome
    have hname : b.1 = a.1 := by simpa using List.find?_some hb
    have hba : b = a :=
      List.inj_on_of_nodup_map f.names_nodup (List.mem_of_find?_eq_some hb) hmem hname
    exact ⟨b, hb, congrArg Prod.snd hba⟩

/-- With the same number of attributes, one inclusion is enough. -/
theorem identical_iff (f g : FormattingItem) :
    Identical f.item g.item ↔
      Alike f.item g.item ∧ ∀ a ∈ f.item.attributes, hasAttribute a g.item = true := by
  simp only [g.hasAttribute_iff]
  constructor
  · rintro ⟨hlocal, hnamespace, hsub, hsup⟩
    have hle := (List.subperm_of_subset g.attributes_nodup hsub).length_le
    have hge := (List.subperm_of_subset f.attributes_nodup hsup).length_le
    exact ⟨⟨hlocal, hnamespace, by omega⟩, hsup⟩
  · rintro ⟨⟨hlocal, hnamespace, hlength⟩, hsup⟩
    have hperm := (List.subperm_of_subset f.attributes_nodup hsup).perm_of_length_le
      (Nat.le_of_eq hlength)
    exact ⟨hlocal, hnamespace, fun a ha => hperm.mem_iff.mpr ha, hsup⟩

/-- **Stale candidates.** Once three candidates are in the second vector, the loop never returns
early: its outcome starts with what the vector held, and the identical entries follow. -/
theorem arkLoop_stale {all : List HTMLStackItem} {same : HTMLStackItem → Prop}
    {attributes : List (String × String)} (hne : attributes ≠ [])
    (hsame : ∀ a ∈ attributes, ∀ c, same c → hasAttribute a c = true)
    {candidates remaining : List HTMLStackItem} (hcandidates : 3 ≤ candidates.length)
    (hremaining : 3 ≤ remaining.length) (hin : ∀ c, same c → c ∈ candidates ∧ c ∈ remaining)
    (hall : ∀ c, c ∈ candidates ∨ c ∈ remaining → c ∈ all) :
    ∃ stale rest, arkLoop attributes candidates remaining = some (stale ++ rest) ∧
      3 ≤ stale.length ∧ (∀ c, same c → c ∈ rest) ∧ ∀ c ∈ stale ++ rest, c ∈ all := by
  induction attributes generalizing candidates remaining with
  | nil => exact absurd rfl hne
  | cons a attributes ih =>
    have hlong : 3 ≤ (remaining ++ candidates.filter (hasAttribute a)).length := by
      rw [List.length_append]
      omega
    have hrest : ∀ c, same c → c ∈ candidates.filter (hasAttribute a) := fun c hc =>
      List.mem_filter.mpr ⟨(hin c hc).1, hsame a List.mem_cons_self c hc⟩
    have hmem : ∀ c ∈ remaining ++ candidates.filter (hasAttribute a), c ∈ all := by
      intro c hc
      rcases List.mem_append.mp hc with hc | hc
      · exact hall c (.inr hc)
      · exact hall c (.inl (List.mem_filter.mp hc).1)
    unfold arkLoop
    dsimp only
    rw [if_neg (show ¬ _ < kNoahsArkCapacity from Nat.not_lt.mpr hlong)]
    by_cases hnil : attributes = []
    · rw [hnil]
      exact ⟨remaining, _, rfl, hremaining, hrest, hmem⟩
    · refine ih hnil (fun b hb => hsame b (List.mem_cons_of_mem a hb)) hlong hcandidates ?_ ?_
      · intro c hc
        exact ⟨List.mem_append_right _ (hrest c hc), (hin c hc).1⟩
      · rintro c (hc | hc)
        · exact hmem c hc
        · exact hall c (.inl hc)

/-! ## When the condition is met -/

namespace FormattingList

variable (l : FormattingList) (f : FormattingItem)

/-- The entries behind the last marker, the newest first, as the source visits them. -/
def newest : List HTMLStackItem := behindLoop l.entries.reverse

theorem entries_eq : l.entries = uptoLastMarker l.entries ++ (l.newest.reverse).map some :=
  (upto_append_behind l.entries).symm

theorem mem_entries {c : HTMLStackItem} (hc : c ∈ l.newest) : some c ∈ l.entries := by
  rw [l.entries_eq]
  apply List.mem_append_right
  exact List.mem_map_of_mem (List.mem_reverse.mpr hc)

/-- No element has two entries behind the last marker. -/
theorem nodes_nodup : (l.newest.reverse.map HTMLStackItem.node).Nodup := by
  have h := l.elements_nodup
  unfold elements at h
  rw [l.entries_eq, List.filterMap_append, List.filterMap_map] at h
  have hmap : List.filterMap ((fun entry => Option.map HTMLStackItem.node entry) ∘ some)
      l.newest.reverse = l.newest.reverse.map HTMLStackItem.node :=
    congrFun List.filterMap_eq_map _
  rw [hmap] at h
  exact h.of_append_right

theorem newest_nodup : l.newest.reverse.Nodup := l.nodes_nodup.of_map _

/-- An entry up to the last marker belongs to none of the elements behind it. -/
theorem not_isEntryOf_upto {c : HTMLStackItem} (hc : c ∈ l.newest)
    {entry : Option HTMLStackItem} (hentry : entry ∈ uptoLastMarker l.entries) :
    isEntryOf c.node entry = false := by
  rw [Bool.eq_false_iff]
  intro he
  obtain ⟨item, rfl, hnode⟩ := isEntryOf_iff.mp he
  have h := l.elements_nodup
  unfold elements at h
  rw [l.entries_eq, List.filterMap_append, List.nodup_append] at h
  refine h.2.2 c.node ?_ c.node ?_ rfl
  · exact List.mem_filterMap.mpr ⟨some item, hentry, congrArg some hnode⟩
  · exact List.mem_filterMap.mpr
      ⟨some c, List.mem_map_of_mem (List.mem_reverse.mpr hc), rfl⟩

/-- Entries behind the last marker are removed, and nothing else. -/
theorem removeAll_eq {gone : List HTMLStackItem} (hgone : ∀ c ∈ gone, c ∈ l.newest) :
    l.entries.removeAll gone = uptoLastMarker l.entries ++
      (l.newest.reverse.filter fun c => decide (c ∉ gone)).map some := by
  rw [removeAll_eq_filter l.elements_nodup]
  have hupto : (uptoLastMarker l.entries).filter (fun entry => gone.all fun item =>
      !isEntryOf item.node entry) = uptoLastMarker l.entries := by
    rw [List.filter_eq_self]
    intro entry hentry
    rw [List.all_eq_true]
    intro item hitem
    rw [l.not_isEntryOf_upto (hgone item hitem) hentry]
    rfl
  have hbehind : (l.newest.reverse.map some).filter (fun entry => gone.all fun item =>
      !isEntryOf item.node entry) =
      (l.newest.reverse.filter fun c => decide (c ∉ gone)).map some := by
    rw [List.filter_map]
    apply congrArg (List.map some)
    apply List.filter_congr
    intro c hc
    rw [Function.comp_apply, Bool.eq_iff_iff, List.all_eq_true, decide_eq_true_eq]
    constructor
    · intro hall hmem
      have hself := hall c hmem
      have hentry : isEntryOf c.node (some c) = true := isEntryOf_iff.mpr ⟨c, rfl, rfl⟩
      rw [hentry] at hself
      cases hself
    · intro hnot item hitem
      rw [Bool.not_eq_true', Bool.eq_false_iff]
      intro he
      obtain ⟨_, heq, hnode⟩ := isEntryOf_iff.mp he
      cases heq
      have hmem : item ∈ l.newest.reverse := List.mem_reverse.mpr (hgone item hitem)
      have hsame : c = item := List.inj_on_of_nodup_map l.nodes_nodup hc hmem hnode
      rw [hsame] at hnot
      exact hnot hitem
  conv_lhs => rw [l.entries_eq]
  rw [List.filter_append, hupto, hbehind]

/-- The entries identical to the new item, the newest first. -/
def same : List HTMLStackItem := l.newest.filter fun other => Identical f.item other

/-- **What has to be removed.** The condition is met exactly when the removed entries are those
behind the two newest identical ones. -/
theorem ark_iff {gone : List HTMLStackItem} (hgone : ∀ c ∈ gone, c ∈ l.newest) :
    Ark l.entries f.item (l.entries.removeAll gone ++ [some f.item]) ↔
      ∀ c ∈ l.newest, c ∈ gone ↔ c ∈ (l.same f).drop 2 := by
  unfold Ark
  dsimp only
  rw [l.removeAll_eq hgone]
  have hbehind : behindLastMarker l.entries = l.newest.reverse := rfl
  rw [hbehind, dropEarliest_eq_filter l.newest_nodup]
  have htake : (l.newest.reverse.filter fun other => decide (Identical f.item other)).take
      (l.newest.reverse.countP (fun other => decide (Identical f.item other)) - 2) =
      ((l.same f).drop 2).reverse := by
    rw [List.filter_reverse, List.countP_eq_length_filter, List.filter_reverse,
      List.length_reverse]
    show (l.same f).reverse.take ((l.same f).length - 2) = _
    rw [List.take_reverse]
    by_cases hlong : 2 ≤ (l.same f).length
    · congr 2
      omega
    · rw [List.drop_of_length_le (by omega), List.drop_of_length_le (by omega)]
  rw [htake, List.append_left_inj, List.append_right_inj,
    List.map_inj_right fun _ _ => Option.some.inj]
  constructor
  · intro heq c hc
    have hmem : c ∈ l.newest.reverse.filter (fun c => decide (c ∉ gone)) ↔
        c ∈ l.newest.reverse.filter fun c => decide (c ∉ ((l.same f).drop 2).reverse) := by
      rw [heq]
    simp only [List.mem_filter, List.mem_reverse, hc, true_and, decide_eq_true_eq] at hmem
    exact not_iff_not.mp hmem
  · intro hsame
    apply List.filter_congr
    intro c hc
    simp only [hsame c (List.mem_reverse.mp hc), List.mem_reverse]

/-- The candidates of the quick filter, the newest first. -/
def alike : List HTMLStackItem := l.newest.filter fun other => Alike f.item other

/-- Few candidates are as good as none. -/
theorem quickly_eq : l.entries.tryToEnsureNoahsArkConditionQuickly f.item =
    if (l.alike f).length < 3 then [] else l.alike f := by
  have hloop : quickLoop f.item l.entries.reverse = l.alike f :=
    quickLoop_eq_filter f.item l.entries.reverse
  have hlength : (l.alike f).length ≤ l.entries.length := by
    have hle : (l.alike f).length ≤ l.newest.length := List.length_filter_le _ _
    have hentries := congrArg List.length l.entries_eq
    rw [List.length_append, List.length_map, List.length_reverse] at hentries
    omega
  unfold tryToEnsureNoahsArkConditionQuickly
  rw [hloop]
  show (if l.entries.length < 3 then [] else if (l.alike f).length < 3 then [] else l.alike f) = _
  split
  · rw [if_pos (by omega)]
  · rfl

/-- An entry behind the last marker is made from a start tag. -/
theorem item_of_newest {c : HTMLStackItem} (hc : c ∈ l.newest) :
    ∃ g : FormattingItem, g.item = c := l.items c (l.mem_entries hc)

theorem mem_same {c : HTMLStackItem} : c ∈ l.same f ↔
    c ∈ l.alike f ∧ ∀ a ∈ f.item.attributes, hasAttribute a c = true := by
  unfold same alike
  rw [List.mem_filter, List.mem_filter, decide_eq_true_eq, decide_eq_true_eq, and_assoc]
  apply and_congr_right
  intro hc
  obtain ⟨g, rfl⟩ := l.item_of_newest hc
  exact identical_iff f g

/-- The identical entries are the candidates that have every attribute. -/
theorem same_eq : l.same f =
    (l.alike f).filter fun c => f.item.attributes.all fun a => hasAttribute a c := by
  unfold same alike
  rw [List.filter_filter]
  apply List.filter_congr
  intro c hc
  obtain ⟨g, rfl⟩ := l.item_of_newest hc
  rw [Bool.eq_iff_iff, Bool.and_eq_true, decide_eq_true_eq, decide_eq_true_eq, List.all_eq_true,
    identical_iff, and_comm]

/-- The candidates that have the first attribute. -/
theorem alikeSoFar_length (first : String × String) :
    (alikeSoFar l.entries f.item first).length =
      ((l.alike f).filter (hasAttribute first)).length := by
  have hbehind : behindLastMarker l.entries = l.newest.reverse := rfl
  unfold alikeSoFar alike
  rw [hbehind, List.filter_reverse, List.length_reverse, List.filter_filter]
  apply congrArg List.length
  apply List.filter_congr
  intro c hc
  obtain ⟨g, rfl⟩ := l.item_of_newest hc
  rw [Bool.eq_iff_iff, Bool.and_eq_true, decide_eq_true_eq, decide_eq_true_eq, g.hasAttribute_iff]
  unfold Alike
  constructor
  · rintro ⟨hlocal, hnamespace, hlength, hfirst⟩
    exact ⟨hfirst, hlocal, hnamespace, hlength⟩
  · rintro ⟨hfirst, hlocal, hnamespace, hlength⟩
    exact ⟨hlocal, hnamespace, hlength, hfirst⟩

/-- Nothing has to be removed when there are fewer than three identical entries. -/
theorem ark_unchanged (hfew : (l.same f).length < 3) :
    Ark l.entries f.item (l.entries ++ [some f.item]) := by
  have hnone : ∀ c ∈ ([] : List HTMLStackItem), c ∈ l.newest := fun c hc =>
    absurd hc List.not_mem_nil
  apply (l.ark_iff f hnone).mpr
  intro c _
  rw [List.drop_of_length_le (by omega)]

/-- The entries removed in the end, of the list of candidates that is left. -/
theorem append_eq {candidates : List HTMLStackItem} (hmany : ¬ (l.alike f).length < 3)
    (hloop : arkLoop f.item.attributes (l.alike f) [] = some candidates) :
    l.entries.append f.item = l.entries.removeAll (candidates.drop 2) ++ [some f.item] := by
  unfold HTMLFormattingElementList.append ensureNoahsArkCondition
  rw [l.quickly_eq, if_neg hmany]
  dsimp only
  rw [if_neg (by rintro hnil; rw [hnil] at hmany; exact hmany (by decide)), hloop]
  rfl

theorem append_unchanged
    (h : (l.alike f).length < 3 ∨ arkLoop f.item.attributes (l.alike f) [] = none) :
    l.entries.append f.item = l.entries ++ [some f.item] := by
  unfold HTMLFormattingElementList.append ensureNoahsArkCondition
  rw [l.quickly_eq]
  dsimp only
  split
  · rfl
  · rename_i hmany
    rcases h with hfew | hnone
    · exact absurd hfew hmany
    · rw [hnone]
      dsimp only
      rw [ite_self]

/-- The loop ends with the identical candidates, when it is asked about at most one attribute. -/
theorem ark_of_same (hmany : ¬ (l.alike f).length < 3)
    (hloop : arkLoop f.item.attributes (l.alike f) [] = some (l.same f)) :
    Ark l.entries f.item (l.entries.append f.item) := by
  rw [l.append_eq f hmany hloop]
  refine (l.ark_iff f fun c hc => ?_).mpr fun c _ => Iff.rfl
  exact (List.mem_filter.mp (List.mem_of_mem_drop hc)).1

/-- The outcome with stale candidates is never right: it removes an entry for which there is no
need, or all that are identical. -/
theorem not_ark_of_stale {stale rest : List HTMLStackItem} (hmany : ¬ (l.alike f).length < 3)
    (hloop : arkLoop f.item.attributes (l.alike f) [] = some (stale ++ rest))
    (hstale : 3 ≤ stale.length) (hrest : ∀ c, c ∈ l.same f → c ∈ rest)
    (hmem : ∀ c ∈ stale ++ rest, c ∈ l.newest) :
    ¬ Ark l.entries f.item (l.entries.append f.item) := by
  rw [l.append_eq f hmany hloop,
    l.ark_iff f fun c hc => hmem c (List.mem_of_mem_drop hc)]
  intro hright
  have hgone : ∀ c ∈ l.same f, c ∈ (stale ++ rest).drop 2 := by
    intro c hc
    rw [List.drop_append_of_le_length (by omega)]
    exact List.mem_append_right _ (hrest c hc)
  -- some entry is removed, so there are three identical ones
  obtain ⟨c, hc⟩ := List.exists_mem_of_length_pos (l := (stale ++ rest).drop 2) (by
    rw [List.length_drop, List.length_append]
    omega)
  have hdrop := (hright c (hmem c (List.mem_of_mem_drop hc))).mp hc
  have hpos := List.length_pos_of_mem hdrop
  rw [List.length_drop] at hpos
  -- and all of them are removed
  have hnodup : (l.same f).Nodup := (List.nodup_reverse.mp l.newest_nodup).filter _
  have hsub : l.same f ⊆ (l.same f).drop 2 := fun c hc =>
    (hright c (List.mem_filter.mp hc).1).mp (hgone c hc)
  have hle := (List.subperm_of_subset hnodup hsub).length_le
  rw [List.length_drop] at hle
  omega

/-- What is removed for the new item leaves the other entries in their order. -/
theorem ensureNoahsArkCondition_sublist (entries : HTMLFormattingElementList)
    (item : HTMLStackItem) : (entries.ensureNoahsArkCondition item).Sublist entries := by
  have hremove : ∀ (es : HTMLFormattingElementList) (n : NodeId), (es.remove n).Sublist es := by
    intro es n
    unfold HTMLFormattingElementList.remove
    split
    · exact List.eraseIdx_sublist _ _
    · exact .refl es
  have hremoveAll : ∀ (gone : List HTMLStackItem) (es : HTMLFormattingElementList),
      (es.removeAll gone).Sublist es := by
    intro gone
    induction gone with
    | nil => exact fun es => .refl es
    | cons c gone ih => exact fun es => (ih (es.remove c.node)).trans (hremove es c.node)
  unfold ensureNoahsArkCondition
  dsimp only
  split
  · exact .refl entries
  · split
    · exact .refl entries
    · exact hremoveAll _ entries

/-- `Append` of an item for a new element. -/
def append (hfresh : f.item.node ∉ elements l.entries) : FormattingList where
  entries := l.entries.append f.item
  elements_nodup := by
    have hsub := (ensureNoahsArkCondition_sublist l.entries f.item).filterMap
      fun entry => entry.map HTMLStackItem.node
    unfold HTMLFormattingElementList.append elements
    rw [List.filterMap_append]
    apply List.nodup_append.mpr
    refine ⟨l.elements_nodup.sublist hsub, List.nodup_singleton _, ?_⟩
    intro n hn m hm hnm
    rw [List.mem_singleton.mp hm] at hnm
    rw [hnm] at hn
    exact hfresh (hsub.subset hn)
  items := by
    intro item hitem
    rcases List.mem_append.mp hitem with hold | hnew
    · exact l.items item ((ensureNoahsArkCondition_sublist l.entries f.item).subset hold)
    · exact ⟨f, (Option.some.inj (List.mem_singleton.mp hnew)).symm⟩

/-- **When the Noah's Ark condition is met.** `Append` leaves the list that the condition asks for
exactly when the item has at most one attribute, or fewer than three entries behind the last
marker have its local name, its namespace, its number of attributes and its first attribute. -/
theorem noahsArk_iff :
    Ark l.entries f.item (l.entries.append f.item) ↔ FewAlike l.entries f.item := by
  unfold FewAlike
  have hsame := l.same_eq f
  by_cases hfew : (l.alike f).length < 3
  · have hright : Ark l.entries f.item (l.entries.append f.item) := by
      rw [l.append_unchanged f (.inl hfew)]
      apply l.ark_unchanged f
      have hle : (l.same f).length ≤ (l.alike f).length := by
        rw [hsame]
        exact List.length_filter_le _ _
      omega
    apply iff_of_true hright
    split
    · rename_i first _ _ _
      rw [l.alikeSoFar_length f first]
      have hle := List.length_filter_le (hasAttribute first) (l.alike f)
      omega
    · trivial
  rcases hattrs : f.item.attributes with _ | ⟨first, rest⟩
  · apply iff_of_true _ trivial
    apply l.ark_of_same f hfew
    rw [hsame, hattrs]
    simp [arkLoop]
  -- the first round of the loop
  have hfirst : ∀ c, c ∈ l.same f → c ∈ (l.alike f).filter (hasAttribute first) := by
    intro c hc
    obtain ⟨halike, hall⟩ := (l.mem_same f).mp hc
    exact List.mem_filter.mpr ⟨halike, hall first (by rw [hattrs]; exact List.mem_cons_self)⟩
  have hround : arkLoop f.item.attributes (l.alike f) [] =
      if ((l.alike f).filter (hasAttribute first)).length < 3 then none
      else arkLoop rest ((l.alike f).filter (hasAttribute first)) (l.alike f) := by
    rw [hattrs]
    rfl
  by_cases hsecond : ((l.alike f).filter (hasAttribute first)).length < 3
  · rw [if_pos hsecond] at hround
    have hright : Ark l.entries f.item (l.entries.append f.item) := by
      rw [l.append_unchanged f (.inr hround)]
      apply l.ark_unchanged f
      have hnodup : (l.same f).Nodup := (List.nodup_reverse.mp l.newest_nodup).filter _
      have hle := (List.subperm_of_subset hnodup hfirst).length_le
      omega
    apply iff_of_true hright
    split
    · rename_i heq
      cases heq
      rw [l.alikeSoFar_length f first]
      exact hsecond
    · trivial
  · rw [if_neg hsecond] at hround
    rcases rest with _ | ⟨second, rest⟩
    · apply iff_of_true _ trivial
      apply l.ark_of_same f hfew
      rw [hround, hsame, hattrs]
      simp [arkLoop]
    · have hwrong : ¬ Ark l.entries f.item (l.entries.append f.item) := by
        obtain ⟨stale, left, hloop, hstale, hleft, hmem⟩ :=
          arkLoop_stale (List.cons_ne_nil second rest)
            (fun a ha c hc => ((l.mem_same f).mp hc).2 a (by
              rw [hattrs]
              exact List.mem_cons_of_mem first ha))
            (Nat.not_lt.mp hsecond) (Nat.not_lt.mp hfew)
            (fun c hc => ⟨hfirst c hc, ((l.mem_same f).mp hc).1⟩)
            (by
              rintro c (hc | hc)
              · exact (List.mem_filter.mp (List.mem_filter.mp hc).1).1
              · exact (List.mem_filter.mp hc).1)
        exact l.not_ark_of_stale f hfew (hround.trans hloop) hstale hleft hmem
      apply iff_of_false hwrong
      show ¬ (alikeSoFar l.entries f.item first).length < 3
      rw [l.alikeSoFar_length f first]
      exact hsecond

end FormattingList

/-- The start tag `<font color=red size=n>`. -/
def fontTag (node : NodeId) (size : String) : HTMLStackItem where
  node := node
  token := some ⟨"font", [("color", "red"), ("size", size)], .xhtml⟩

def fontItem (node : NodeId) (size : String) : FormattingItem where
  item := fontTag node size
  token := ⟨"font", [("color", "red"), ("size", size)], .xhtml⟩
  item_token := rfl
  names_nodup := (by decide : ["color", "size"].Nodup)

def twoFonts : FormattingList where
  entries := [some (fontTag 1 "1"), some (fontTag 2 "2")]
  elements_nodup := (by decide : [1, 2].Nodup)
  items := by
    intro item hitem
    simp only [List.mem_cons, Option.some.injEq, List.not_mem_nil, or_false] at hitem
    rcases hitem with rfl | rfl
    · exact ⟨fontItem 1 "1", rfl⟩
    · exact ⟨fontItem 2 "2", rfl⟩

/-- The third entry of a color removes nothing. -/
theorem noahsArk_twoFonts :
    Ark twoFonts.entries (fontTag 3 "3") (twoFonts.entries.append (fontTag 3 "3")) :=
  (twoFonts.noahsArk_iff (fontItem 3 "3")).mpr (by decide +kernel : 2 < 3)

/-- Three entries with one color and four sizes: the first one is removed, though no two entries
are identical. -/
theorem append_removes_different :
    ¬ Ark [some (fontTag 1 "1"), some (fontTag 2 "2"), some (fontTag 3 "3")] (fontTag 4 "4")
      (append [some (fontTag 1 "1"), some (fontTag 2 "2"), some (fontTag 3 "3")]
        (fontTag 4 "4")) := by
  unfold Ark
  decide +kernel

end Blinkit.Html
