import Blinkit.Html.AdoptionAgency

/-!
# The stack and the list, cut at an element

* `HTMLElementStack.*_append` : what the functions of the stack do when the first item of an element
  is known
* `HTMLFormattingElementList.find_split` : the entry that `Find` comes to
* `closestElementInScopeWithName_eq`, `remove_eq`, `replaceElement_eq` : the functions of the list,
  as the standard has them, when no element has two entries
* `closest_split` : the closest formatting element cuts the list
-/

set_option autoImplicit false

namespace Blinkit.Html

open Dom

/-! ## The stack -/

namespace HTMLElementStack

variable {n : NodeId} {above : HTMLElementStack}

theorem split (n : NodeId) (stack : HTMLElementStack) :
    (∀ x ∈ stack, x.node ≠ n) ∨ ∃ above item below,
      stack = above ++ item :: below ∧ item.node = n ∧ ∀ x ∈ above, x.node ≠ n := by
  induction stack with
  | nil => exact Or.inl (by simp)
  | cons item rest ih =>
    rcases Decidable.em (item.node = n) with h | h
    · exact Or.inr ⟨[], item, rest, rfl, h, by simp⟩
    · rcases ih with hrest | ⟨above, found, below, rfl, hn, habove⟩
      · exact Or.inl (by simpa using ⟨h, hrest⟩)
      · exact Or.inr ⟨item :: above, found, below, rfl, hn, by simpa using ⟨h, habove⟩⟩

theorem find_append (h : ∀ x ∈ above, x.node ≠ n) (rest : HTMLElementStack) :
    find n (above ++ rest) = find n rest := by
  induction above with
  | nil => rfl
  | cons x above ih =>
    rw [List.forall_mem_cons] at h
    simp only [List.cons_append, find, if_neg h.1, ih h.2]

theorem popUntilPopped_append (h : ∀ x ∈ above, x.node ≠ n) (rest : HTMLElementStack) :
    popUntilPopped n (above ++ rest) = popUntilPopped n rest := by
  induction above with
  | nil => rfl
  | cons x above ih =>
    rw [List.forall_mem_cons] at h
    simp only [List.cons_append, popUntilPopped, if_neg h.1, ih h.2]

theorem remove_append (h : ∀ x ∈ above, x.node ≠ n) (rest : HTMLElementStack) :
    remove n (above ++ rest) = above ++ remove n rest := by
  induction above with
  | nil => rfl
  | cons x above ih =>
    rw [List.forall_mem_cons] at h
    simp only [List.cons_append, remove, if_neg h.1, ih h.2]

theorem insertAbove_append (h : ∀ x ∈ above, x.node ≠ n) (item : HTMLStackItem)
    (rest : HTMLElementStack) :
    insertAbove item n (above ++ rest) = above ++ insertAbove item n rest := by
  induction above with
  | nil => rfl
  | cons x above ih =>
    rw [List.forall_mem_cons] at h
    simp only [List.cons_append, insertAbove, if_neg h.1, ih h.2]

theorem inScope_append (h : ∀ x ∈ above, x.node ≠ n) {item : HTMLStackItem} (hn : item.node = n)
    (below : HTMLElementStack) :
    inScope n (above ++ item :: below) = !above.any HTMLStackItem.isScopeMarker := by
  induction above with
  | nil => simp [inScope, hn]
  | cons x above ih =>
    rw [List.forall_mem_cons] at h
    simp only [List.cons_append, inScope, if_neg h.1, ih h.2, List.any_cons]
    cases x.isScopeMarker <;> rfl

theorem find_of_forall_ne {stack : HTMLElementStack} (h : ∀ x ∈ stack, x.node ≠ n) :
    find n stack = [] := by
  rw [← List.append_nil stack, find_append h]; rfl

theorem contains_of_forall_ne {stack : HTMLElementStack} (h : ∀ x ∈ stack, x.node ≠ n) :
    contains stack n = false := by
  simpa [contains] using h

theorem inScope_of_forall_ne {stack : HTMLElementStack} (h : ∀ x ∈ stack, x.node ≠ n) :
    inScope n stack = false := by
  induction stack with
  | nil => rfl
  | cons x rest ih =>
    rw [List.forall_mem_cons] at h
    simp only [inScope, if_neg h.1, ih h.2, ite_self]

theorem mem_of_mem_remove {stack : HTMLElementStack} {x : HTMLStackItem}
    (h : x ∈ remove n stack) : x ∈ stack := by
  induction stack with
  | nil => exact h
  | cons y rest ih =>
    unfold remove at h
    split at h
    · exact List.mem_cons_of_mem y h
    · rcases List.mem_cons.mp h with rfl | h
      · exact List.mem_cons_self
      · exact List.mem_cons_of_mem y (ih h)

theorem mem_of_mem_popUntilPopped {stack : HTMLElementStack} {x : HTMLStackItem}
    (h : x ∈ popUntilPopped n stack) : x ∈ stack := by
  induction stack with
  | nil => exact h
  | cons y rest ih =>
    unfold popUntilPopped at h
    split at h
    · exact List.mem_cons_of_mem y h
    · exact List.mem_cons_of_mem y (ih h)

theorem mem_of_mem_generateImplied {name : String} {stack : HTMLElementStack} {x : HTMLStackItem}
    (h : x ∈ generateImpliedEndTagsWithExclusion name stack) : x ∈ stack := by
  induction stack with
  | nil => exact h
  | cons y rest ih =>
    unfold generateImpliedEndTagsWithExclusion at h
    split at h
    · exact List.mem_cons_of_mem y (ih h)
    · exact h

theorem mem_of_mem_insertAbove {item : HTMLStackItem} {stack : HTMLElementStack}
    {x : HTMLStackItem} (h : x ∈ insertAbove item n stack) : x = item ∨ x ∈ stack := by
  induction stack with
  | nil => exact Or.inr h
  | cons y rest ih =>
    unfold insertAbove at h
    split at h
    · exact List.mem_cons.mp h
    · rcases List.mem_cons.mp h with rfl | h
      · exact Or.inr List.mem_cons_self
      · exact (ih h).imp_right (List.mem_cons_of_mem y)

/-! ### The furthest block -/

theorem mem_of_mem_furthestBlock {found stack : HTMLElementStack}
    {x : HTMLStackItem}
    (h : x ∈ furthestBlockForFormattingElement n found stack) :
    x ∈ found ∨ x ∈ stack := by
  induction stack generalizing found with
  | nil => cases h
  | cons item rest ih =>
    unfold furthestBlockForFormattingElement at h
    split at h
    · exact Or.inl h
    · rcases ih h with h | h
      · split at h
        · exact Or.inr h
        · exact Or.inl h
      · exact Or.inr (List.mem_cons_of_mem item h)

theorem furthestBlock_eq_none {stack : HTMLElementStack} :
    furthestBlock stack = none ↔ ∀ x ∈ stack, x.isSpecialNode = false := by
  induction stack with
  | nil => simp [furthestBlock]
  | cons item rest ih =>
    unfold furthestBlock
    split
    · rename_i h
      have hrest : ¬ ∀ x ∈ rest, x.isSpecialNode = false := by
        intro hall
        rw [ih.mpr hall] at h
        cases h
      simp [hrest]
    · rename_i h
      simpa using fun _ : item.isSpecialNode = false => ih.mp h

theorem furthestBlock_append {newer between : HTMLElementStack} {block : HTMLStackItem}
    (hblock : block.isSpecialNode = true) (h : ∀ x ∈ between, x.isSpecialNode = false) :
    furthestBlock (newer ++ block :: between) = some (newer, block, between) := by
  induction newer with
  | nil => simp [furthestBlock, furthestBlock_eq_none.mpr h, hblock]
  | cons x newer ih => simp [furthestBlock, ih]

theorem furthestBlock_split {stack newer between : HTMLElementStack} {block : HTMLStackItem}
    (h : furthestBlock stack = some (newer, block, between)) :
    stack = newer ++ block :: between ∧ block.isSpecialNode = true ∧
      ∀ x ∈ between, x.isSpecialNode = false := by
  induction stack generalizing newer with
  | nil => cases h
  | cons item rest ih =>
    unfold furthestBlock at h
    split at h
    · rename_i newer' block' between' hrest
      obtain ⟨rfl, rfl, rfl⟩ : item :: newer' = newer ∧ block' = block ∧ between' = between := by
        simpa using h
      obtain ⟨hsplit, hspecial⟩ := ih hrest
      exact ⟨by rw [hsplit]; rfl, hspecial⟩
    · rename_i hrest
      split at h
      · rename_i hs
        obtain ⟨rfl, rfl, rfl⟩ : [] = newer ∧ item = block ∧ rest = between := by simpa using h
        exact ⟨rfl, hs, furthestBlock_eq_none.mp hrest⟩
      · cases h

/-- The loop over items that are not special keeps what it has. -/
theorem furthestBlockForFormattingElement_plain {between : HTMLElementStack}
    (hn : ∀ x ∈ between, x.node ≠ n) (hs : ∀ x ∈ between, x.isSpecialNode = false)
    {item : HTMLStackItem} (hitem : item.node = n) (found below : HTMLElementStack) :
    furthestBlockForFormattingElement n found (between ++ item :: below) = found := by
  induction between with
  | nil => simp [furthestBlockForFormattingElement, hitem]
  | cons x between ih =>
    rw [List.forall_mem_cons] at hn hs
    simpa [furthestBlockForFormattingElement, hn.1, hs.1] using ih hn.2 hs.2

theorem furthestBlockForFormattingElement_append {newer between : HTMLElementStack}
    {block item : HTMLStackItem} (hn : ∀ x ∈ newer ++ block :: between, x.node ≠ n)
    (hitem : item.node = n) (hblock : block.isSpecialNode = true)
    (hs : ∀ x ∈ between, x.isSpecialNode = false) (found below : HTMLElementStack) :
    furthestBlockForFormattingElement n found (newer ++ block :: (between ++ item :: below)) =
      block :: (between ++ item :: below) := by
  induction newer generalizing found with
  | nil =>
    rw [List.nil_append, List.forall_mem_cons] at hn
    simp only [List.nil_append, furthestBlockForFormattingElement, if_neg hn.1, hblock, if_true]
    exact furthestBlockForFormattingElement_plain hn.2 hs hitem _ below
  | cons x newer ih =>
    rw [List.cons_append, List.forall_mem_cons] at hn
    simp only [List.cons_append, furthestBlockForFormattingElement, if_neg hn.1]
    exact ih hn.2 _

end HTMLElementStack
/-! ## Any other end tag -/

namespace HTMLElementStack

theorem generateImpliedEndTags_suffix (name : String) {above : HTMLElementStack}
    (h : ∀ x ∈ above, x.hasTagName name = false) {item : HTMLStackItem}
    (hitem : item.hasTagName name = true) (below : HTMLElementStack) :
    ∃ kept, (∀ x ∈ kept, x ∈ above) ∧
      generateImpliedEndTagsWithExclusion name (above ++ item :: below) =
        kept ++ item :: below := by
  induction above with
  | nil => exact ⟨[], by simp, by simp [generateImpliedEndTagsWithExclusion, hitem]⟩
  | cons x above ih =>
    rw [List.forall_mem_cons] at h
    obtain ⟨kept, hkept, heq⟩ := ih h.2
    simp only [List.cons_append, generateImpliedEndTagsWithExclusion, h.1, Bool.not_false,
      Bool.and_true]
    split
    · exact ⟨kept, fun y hy => List.mem_cons_of_mem x (hkept y hy), heq⟩
    · exact ⟨x :: above, fun y hy => hy, rfl⟩

theorem findOtherEndTag_split {name : String} {stack : HTMLElementStack} {item : HTMLStackItem}
    (h : ConstructionSite.findOtherEndTag name stack = some (some item)) :
    ∃ above below, stack = above ++ item :: below ∧ item.hasTagName name = true ∧
      (∀ x ∈ above, x.hasTagName name = false) ∧ afterEndTag name stack = some below := by
  induction stack with
  | nil => cases h
  | cons x rest ih =>
    unfold ConstructionSite.findOtherEndTag at h
    split at h
    · rename_i hx
      obtain rfl : x = item := by simpa using h
      exact ⟨[], rest, rfl, hx, by simp, by simp [afterEndTag, hx]⟩
    · rename_i hx
      split at h
      · cases h
      · rename_i hs
        obtain ⟨above, below, rfl, hitem, habove, hafter⟩ := ih h
        refine ⟨x :: above, below, rfl, hitem, ?_, ?_⟩
        · rw [List.forall_mem_cons]
          exact ⟨by simpa using hx, habove⟩
        · simp only [afterEndTag, hx, hs, hafter, Bool.false_eq_true, if_false]

theorem afterEndTag_of_special {name : String} {stack : HTMLElementStack}
    (h : ConstructionSite.findOtherEndTag name stack = some none) :
    afterEndTag name stack = none := by
  induction stack with
  | nil => rfl
  | cons x rest ih =>
    unfold ConstructionSite.findOtherEndTag at h
    split at h
    · cases h
    · rename_i hx
      split at h
      · rename_i hs
        simp [afterEndTag, hx, hs]
      · rename_i hs
        simp [afterEndTag, hx, hs, ih h]

/-- The search ends at the root at the latest. -/
theorem findOtherEndTag_ne_none (name : String) {stack : HTMLElementStack} {root : HTMLStackItem}
    (hroot : root ∈ stack) (hspecial : root.isSpecialNode = true) :
    ConstructionSite.findOtherEndTag name stack ≠ none := by
  induction stack with
  | nil => cases hroot
  | cons x rest ih =>
    unfold ConstructionSite.findOtherEndTag
    split
    · simp
    · split
      · simp
      · rename_i hs
        rcases List.mem_cons.mp hroot with rfl | hmem
        · exact absurd hspecial hs
        · exact ih hmem

end HTMLElementStack

/-! ## The list -/

namespace HTMLFormattingElementList

variable {n : NodeId} {list pre post : HTMLFormattingElementList} {item new : HTMLStackItem}
  {name : String}

/-- The elements that have an entry. -/
def nodes (list : HTMLFormattingElementList) : List NodeId :=
  (list.filterMap id).map HTMLStackItem.node

theorem nodes_append (pre post : HTMLFormattingElementList) :
    nodes (pre ++ post) = nodes pre ++ nodes post := by
  simp only [nodes, List.filterMap_append, List.map_append]

theorem nodes_cons (item : HTMLStackItem) (list : HTMLFormattingElementList) :
    nodes (some item :: list) = item.node :: nodes list := rfl

theorem mem_nodes : n ∈ nodes list ↔ ∃ x, some x ∈ list ∧ x.node = n := by
  simp [nodes]

theorem isEntryOf_self : isEntryOf item.node (some item) = true := by
  simp [isEntryOf]

theorem not_mem_nodes : n ∉ nodes list ↔ ∀ entry ∈ list, isEntryOf n entry = false := by
  rw [mem_nodes]
  constructor
  · intro h entry hentry
    rw [← Bool.not_eq_true, isEntryOf_iff]
    rintro ⟨x, rfl, hx⟩
    exact h ⟨x, hentry, hx⟩
  · rintro h ⟨x, hx, hnode⟩
    have hfalse := h _ hx
    rw [isEntryOf_iff.mpr ⟨x, rfl, hnode⟩] at hfalse
    cases hfalse

theorem listed_iff : listed list n = true ↔ n ∈ nodes list := by
  rw [← not_iff_not, not_mem_nodes]
  simp [listed]

theorem find_eq_none : list.find n = none ↔ n ∉ nodes list := by
  rw [not_mem_nodes]
  induction list with
  | nil => simp [find]
  | cons entry list ih =>
    unfold find
    split
    · rename_i i hi
      have hrest : ¬ ∀ entry ∈ list, isEntryOf n entry = false := by
        intro hall
        rw [ih.mpr hall] at hi
        cases hi
      simp [hrest]
    · rename_i hi
      cases he : isEntryOf n entry <;> simp [he]
      simpa using ih.mp hi

theorem find_split {i : Nat} (h : list.find n = some i) :
    ∃ pre item post, list = pre ++ some item :: post ∧ pre.length = i ∧ item.node = n := by
  induction list generalizing i with
  | nil => cases h
  | cons entry list ih =>
    unfold find at h
    split at h
    · rename_i j hj
      obtain rfl : j + 1 = i := by simpa using h
      obtain ⟨pre, item, post, rfl, rfl, hn⟩ := ih hj
      exact ⟨entry :: pre, item, post, rfl, rfl, hn⟩
    · split at h
      · rename_i he
        obtain rfl : 0 = i := by simpa using h
        obtain ⟨x, rfl, hn⟩ := isEntryOf_iff.mp he
        exact ⟨[], x, list, rfl, rfl, hn⟩
      · cases h

theorem find_isSome (h : n ∈ nodes list) : ∃ i, list.find n = some i := by
  cases hf : list.find n with
  | none => exact absurd h (find_eq_none.mp hf)
  | some i => exact ⟨i, rfl⟩

/-- No other entry belongs to the element. -/
theorem alone (h : (nodes (pre ++ some item :: post)).Nodup) :
    item.node ∉ nodes pre ∧ item.node ∉ nodes post := by
  rw [nodes_append, nodes_cons, List.nodup_append, List.nodup_cons] at h
  obtain ⟨-, ⟨hpost, -⟩, hdisjoint⟩ := h
  exact ⟨fun hpre => hdisjoint _ hpre _ List.mem_cons_self rfl, hpost⟩

theorem replaceEntry_of_not_mem (new : HTMLStackItem) (h : n ∉ nodes list) :
    replaceEntry n new list = list := by
  unfold replaceEntry
  rw [List.map_congr_left (g := id)]
  · exact List.map_id list
  · intro entry hentry
    simp [not_mem_nodes.mp h entry hentry]

theorem removeEntry_of_not_mem (h : n ∉ nodes list) : removeEntry n list = list := by
  unfold removeEntry
  rw [List.filter_eq_self]
  intro entry hentry
  simp [not_mem_nodes.mp h entry hentry]

theorem replaceEntry_split (h : (nodes (pre ++ some item :: post)).Nodup) :
    replaceEntry item.node new (pre ++ some item :: post) = pre ++ some new :: post := by
  obtain ⟨hpre, hpost⟩ := alone h
  have hp := replaceEntry_of_not_mem new hpre
  have hq := replaceEntry_of_not_mem new hpost
  simp only [replaceEntry] at hp hq
  simp only [replaceEntry, List.map_append, List.map_cons, hp, hq, isEntryOf_self, if_true]

theorem removeEntry_split (h : (nodes (pre ++ some item :: post)).Nodup) :
    removeEntry item.node (pre ++ some item :: post) = pre ++ post := by
  obtain ⟨hpre, hpost⟩ := alone h
  have hp := removeEntry_of_not_mem hpre
  have hq := removeEntry_of_not_mem hpost
  simp only [removeEntry] at hp hq
  simp only [removeEntry, List.filter_append, List.filter_cons, hp, hq, isEntryOf_self,
    Bool.not_true, Bool.false_eq_true, if_false]

theorem replaceElement_eq (hunique : (nodes list).Nodup) {i : Nat} (h : list.find n = some i)
    (new : HTMLStackItem) : list.replaceElement i new = replaceEntry n new list := by
  obtain ⟨pre, item, post, rfl, rfl, rfl⟩ := find_split h
  rw [replaceEntry_split hunique]
  simp [replaceElement]

theorem remove_eq (hunique : (nodes list).Nodup) (n : NodeId) :
    list.remove n = removeEntry n list := by
  unfold remove
  split
  · rename_i i hi
    obtain ⟨pre, item, post, rfl, rfl, rfl⟩ := find_split hi
    rw [removeEntry_split hunique, List.eraseIdx_append_of_length_le (by omega)]
    simp
  · rename_i hi
    exact (removeEntry_of_not_mem (find_eq_none.mp hi)).symm

theorem mem_nodes_replaceEntry {m : NodeId} (h : m ∈ nodes (replaceEntry n new list)) :
    m = new.node ∨ m ≠ n ∧ m ∈ nodes list := by
  obtain ⟨x, hx, rfl⟩ := mem_nodes.mp h
  obtain ⟨entry, hentry, heq⟩ := List.mem_map.mp hx
  split at heq
  · obtain rfl : new = x := by simpa using heq
    exact Or.inl rfl
  · rename_i hne
    subst heq
    exact Or.inr ⟨fun he => hne (isEntryOf_iff.mpr ⟨x, rfl, he⟩), mem_nodes.mpr ⟨x, hentry, rfl⟩⟩

/-! ### The closest element -/

theorem closestElementInScopeWithName_eq (list : HTMLFormattingElementList) (name : String) :
    list.closestElementInScopeWithName name = formattingElement list name := by
  unfold closestElementInScopeWithName formattingElement
  induction list.reverse with
  | nil => rfl
  | cons entry entries ih =>
    cases entry with
    | none => rfl
    | some item =>
      cases h : item.hasTagName name <;> simp [closestLoop, h, ih]

theorem closestLoop_split (h : closestLoop name list = some item) :
    ∃ pre post, list = pre ++ some item :: post ∧ item.hasTagName name = true ∧
      ∀ entry ∈ pre, ∃ x, entry = some x ∧ x.hasTagName name = false := by
  induction list with
  | nil => cases h
  | cons entry list ih =>
    cases entry with
    | none => cases h
    | some x =>
      unfold closestLoop at h
      split at h
      · rename_i hx
        obtain rfl : x = item := by simpa using h
        exact ⟨[], list, rfl, hx, by simp⟩
      · rename_i hx
        obtain ⟨pre, post, rfl, hitem, hpre⟩ := ih h
        refine ⟨some x :: pre, post, rfl, hitem, ?_⟩
        rw [List.forall_mem_cons]
        exact ⟨⟨x, rfl, by simpa using hx⟩, hpre⟩

theorem closestLoop_append (hitem : item.hasTagName name = true)
    (h : ∀ entry ∈ pre, ∃ x, entry = some x ∧ x.hasTagName name = false) :
    closestLoop name (pre ++ some item :: post) = some item := by
  induction pre with
  | nil => simp [closestLoop, hitem]
  | cons entry pre ih =>
    rw [List.forall_mem_cons] at h
    obtain ⟨⟨x, rfl, hx⟩, hpre⟩ := h
    simpa [closestLoop, hx] using ih hpre

/-- The closest element cuts the list. -/
theorem closest_split (h : list.closestElementInScopeWithName name = some item) :
    ∃ pre post, list = pre ++ some item :: post ∧ item.hasTagName name = true ∧
      ∀ entry ∈ post, ∃ x, entry = some x ∧ x.hasTagName name = false := by
  obtain ⟨post, pre, heq, hitem, hpost⟩ := closestLoop_split h
  refine ⟨pre.reverse, post.reverse, ?_, hitem, ?_⟩
  · rw [← List.reverse_reverse list, heq]
    simp
  · intro entry hentry
    exact hpost entry (List.mem_reverse.mp hentry)

theorem closest_append (hitem : item.hasTagName name = true)
    (h : ∀ entry ∈ post, ∃ x, entry = some x ∧ x.hasTagName name = false) :
    closestElementInScopeWithName (pre ++ some item :: post) name = some item := by
  unfold closestElementInScopeWithName
  simp only [List.reverse_append, List.reverse_cons, List.append_assoc, List.singleton_append]
  apply closestLoop_append hitem
  intro entry hentry
  exact h entry (List.mem_reverse.mp hentry)

end HTMLFormattingElementList

end Blinkit.Html
