import Mathlib.Data.List.TakeWhile
import Blinkit.Html.OpenElements

/-!
# When the tree builder's adoption agency is the standard's

* `DocumentTree.Absent` : a node that is in no place of a tree
* `ConstructionSite.WellFormed` : what the stack and the list promise each other
* `ConstructionSite.view` : what the standard sees of a construction site
* `ConstructionSite.NoneCloned` : between a furthest block and the formatting element, the inner
  loop comes to no element that is in the list
* `BlockRound` : the outer loop has found a formatting element and a furthest block

A round of the outer loop that clones nothing is a round of the standard.  A clone never gets into
the stack and is nobody's child, because `ReplaceElement` leaves the old item in its record; the
standard gives every clone a parent.

Principal results: `round_cases`, `clean_round`, `cloning_round`,
`call_the_adoption_agency_iff`.
-/

set_option autoImplicit false

namespace Blinkit.Html

open Dom ChildLists Function

/-! ## Trees -/

namespace DocumentTree

variable {t : DocumentTree} {m p c : NodeId} {next : Option NodeId}

/-- The node has no parent and is no child. -/
structure Absent (m : NodeId) (t : DocumentTree) : Prop where
  parent : t.parent m = none
  children : ∀ p, m ∉ t.children p

theorem mem_splice {cs : List NodeId} {ref : Option NodeId} (h : m ∈ splice cs ref [c]) :
    m = c ∨ m ∈ cs := by
  unfold splice at h
  split at h
  · simpa [or_comm] using h
  · rename_i r
    simp only [List.mem_append, List.mem_singleton] at h
    rcases h with (h | h) | h
    · exact Or.inr ((List.takeWhile_sublist _).subset h)
    · exact Or.inl h
    · exact Or.inr ((List.dropWhile_sublist _).subset h)

theorem detach_parent_of_ne (h : m ≠ c) : (t.detach c).parent m = t.parent m := by
  unfold detach
  split
  · rfl
  · exact update_of_ne h _ _

theorem mem_detach_children (h : m ∈ (t.detach c).children p) : m ∈ t.children p := by
  unfold detach at h
  split at h
  · exact h
  · rename_i q hq
    dsimp only at h
    rcases Decidable.em (p = q) with rfl | hp
    · rw [update_self] at h
      exact List.mem_of_mem_erase h
    · rwa [update_of_ne hp] at h

theorem insert_parent (t : DocumentTree) (p : NodeId) (next : Option NodeId) (c : NodeId) :
    (t.insert p next c).parent = update (t.detach c).parent c (some p) := rfl

theorem insert_children (t : DocumentTree) (p : NodeId) (next : Option NodeId) (c : NodeId) :
    (t.insert p next c).children =
      update (t.detach c).children p (splice ((t.detach c).children p) next [c]) := rfl

theorem insert_parent_self (t : DocumentTree) (p : NodeId) (next : Option NodeId) (c : NodeId) :
    (t.insert p next c).parent c = some p := by
  rw [insert_parent, update_self]

theorem insert_parent_of_ne (h : m ≠ c) : (t.insert p next c).parent m = t.parent m := by
  rw [insert_parent, update_of_ne h, detach_parent_of_ne h]

/-- An insertion gives its child a parent, and takes none away. -/
theorem insert_gives_parent (h : m = c ∨ t.parent m ≠ none) :
    (t.insert p next c).parent m ≠ none := by
  rcases Decidable.em (m = c) with rfl | hm
  · rw [insert_parent_self]
    simp
  · rw [insert_parent_of_ne hm]
    exact h.resolve_left hm

theorem insert_keeps_parent (h : t.parent m ≠ none) : (t.insert p next c).parent m ≠ none :=
  insert_gives_parent (Or.inr h)

theorem takeAll_keeps_parent (h : t.parent m ≠ none) (p old : NodeId) :
    (t.takeAll p old).parent m ≠ none := by
  unfold takeAll
  induction t.children old generalizing t with
  | nil => exact h
  | cons c cs ih => exact ih (insert_keeps_parent h)

theorem Absent.insert (h : t.Absent m) (hc : c ≠ m) : (t.insert p next c).Absent m := by
  constructor
  · rw [insert_parent_of_ne hc.symm]
    exact h.parent
  · intro q hq
    rw [insert_children] at hq
    rcases Decidable.em (q = p) with rfl | hp
    · rw [update_self] at hq
      rcases mem_splice hq with rfl | hq
      · exact hc rfl
      · exact h.children q (mem_detach_children hq)
    · rw [update_of_ne hp] at hq
      exact h.children q (mem_detach_children hq)

theorem Absent.takeAll (h : t.Absent m) (p old : NodeId) : (t.takeAll p old).Absent m := by
  unfold DocumentTree.takeAll
  have hold := h.children old
  revert hold
  generalize t.children old = cs
  intro hold
  induction cs generalizing t with
  | nil => exact h
  | cons c cs ih =>
    rw [List.mem_cons, not_or] at hold
    exact ih (h.insert (Ne.symm hold.1)) hold.2

end DocumentTree

theorem effect_append (queue rest : List HTMLConstructionSiteTask) (t : DocumentTree) :
    effect (queue ++ rest) t = effect rest (effect queue t) := List.foldl_append

/-! ## The promises of the construction site -/

theorem isFormattingTag_ne_html {name : String} (h : isFormattingTag name = true) :
    name ≠ "html" := by
  rintro rfl
  exact absurd h (by decide)

theorem HTMLStackItem.isRootNode_not_formatting {item : HTMLStackItem} {name : String}
    (hroot : item.isRootNode = true) (hname : isFormattingTag name = true) :
    item.hasTagName name = false := by
  unfold isRootNode isDocumentFragmentNode hasTagName at hroot
  unfold hasTagName
  cases htoken : item.token with
  | none => rfl
  | some token =>
    rw [htoken] at hroot
    have hlocal : token.localName = "html" := by
      simp only [Option.isNone_some, Option.any_some, Bool.false_or, Bool.and_eq_true,
        beq_iff_eq] at hroot
      exact hroot.1
    have hne := isFormattingTag_ne_html hname
    simp [hlocal, hne.symm]

theorem HTMLStackItem.isRootNode_special {item : HTMLStackItem} (h : item.isRootNode = true) :
    item.isSpecialNode = true := by
  unfold isRootNode at h
  unfold isSpecialNode
  rw [Bool.or_eq_true] at h ⊢
  rcases h with h | h
  · exact Or.inl h
  · exact Or.inr (List.any_eq_true.mpr ⟨"html", by decide, h⟩)

namespace ConstructionSite

/-- What the stack and the list promise each other between two tokens. -/
structure WellFormed (s : ConstructionSite) : Prop where
  nodup : (s.openElements.map HTMLStackItem.node).Nodup
  unique : s.activeFormattingElements.nodes.Nodup
  /-- The record and the entry of an element have one item. -/
  shared : ∀ x ∈ s.openElements, ∀ y, some y ∈ s.activeFormattingElements → x.node = y.node → x = y
  created : ∀ x ∈ s.openElements, x.node < s.nextNode
  listCreated : ∀ n ∈ s.activeFormattingElements.nodes, n < s.nextNode
  root : ∃ above root, s.openElements = above ++ [root] ∧ root.isRootNode = true

/-- What the standard sees, when the queue works on `tree`. -/
def view (tree : DocumentTree) (s : ConstructionSite) : Agency where
  stack := s.openElements
  list := s.activeFormattingElements
  tree := effect s.taskQueue tree
  nextNode := s.nextNode
  rootNode := s.rootNode
  parentNode := s.parentNode

/-- For so many rounds the inner loop comes to no element of the list; `above` is what stands above
the formatting element. -/
def Unlisted (list : HTMLFormattingElementList) : Nat → HTMLElementStack → Prop
  | 0, _ => True
  | rounds + 1, above =>
    match furthestBlock above with
    | none => True
    | some (newer, _, between) =>
      (∀ x ∈ between.take 3, listed list x.node = false) ∧ Unlisted list rounds newer

def Spared (s : ConstructionSite) (name : String) (rounds : Nat) : Prop :=
  ∀ f, formattingElement s.activeFormattingElements name = some f →
    HTMLElementStack.inScope f.node s.openElements = true →
    Unlisted s.activeFormattingElements rounds (s.openElements.takeWhile fun x => x.node ≠ f.node)

/-- The up to three records below each furthest block, above the formatting element, belong to
elements that are not in the list. -/
def NoneCloned (s : ConstructionSite) (name : String) : Prop := s.Spared name 8

/-! ## A round of the outer loop -/

/-- The stack, cut at a furthest block and at the formatting element. -/
structure Cut where
  newer : HTMLElementStack
  block : HTMLStackItem
  between : HTMLElementStack
  formatting : HTMLStackItem
  commonAncestor : HTMLStackItem
  below : HTMLElementStack

/-- The round comes to a furthest block. -/
structure BlockRound (s : ConstructionSite) (name : String) (c : Cut) : Prop where
  stack : s.openElements =
    c.newer ++ c.block :: (c.between ++ c.formatting :: c.commonAncestor :: c.below)
  closest : s.activeFormattingElements.closestElementInScopeWithName name = some c.formatting
  noMarker : (c.newer ++ c.block :: c.between).any HTMLStackItem.isScopeMarker = false
  special : c.block.isSpecialNode = true
  plain : ∀ x ∈ c.between, x.isSpecialNode = false

variable {s : ConstructionSite} {name : String} {tree : DocumentTree}

theorem WellFormed.formatting_eq (hw : s.WellFormed) {f item : HTMLStackItem}
    (hf : s.activeFormattingElements.closestElementInScopeWithName name = some f)
    (hitem : item ∈ s.openElements) (hnode : item.node = f.node) :
    item = f ∧ f.hasTagName name = true := by
  obtain ⟨pre, post, hlist, hname, -⟩ := HTMLFormattingElementList.closest_split hf
  have hmem : some f ∈ s.activeFormattingElements := by
    rw [hlist]
    simp
  exact ⟨hw.shared item hitem f hmem hnode, hname⟩

/-- Something lies below an element with a formatting tag. -/
theorem WellFormed.below_ne_nil (hw : s.WellFormed) (hname : isFormattingTag name = true)
    {above below : HTMLElementStack} {item : HTMLStackItem}
    (hstack : s.openElements = above ++ item :: below) (hitem : item.hasTagName name = true) :
    below ≠ [] := by
  rintro rfl
  obtain ⟨above', root, hroot, hisRoot⟩ := hw.root
  obtain ⟨-, hlast⟩ := List.append_inj' (hstack.symm.trans hroot) rfl
  obtain rfl : item = root := by simpa using hlast
  rw [HTMLStackItem.isRootNode_not_formatting hisRoot hname] at hitem
  cases hitem

theorem WellFormed.above_ne (hw : s.WellFormed) {above below : HTMLElementStack}
    {item : HTMLStackItem} (hstack : s.openElements = above ++ item :: below) :
    ∀ x ∈ above, x.node ≠ item.node := by
  have hnodup := hw.nodup
  rw [hstack, List.map_append, List.map_cons, List.nodup_append] at hnodup
  intro x hx heq
  exact hnodup.2.2 _ (List.mem_map_of_mem hx) _ List.mem_cons_self heq

theorem anyOther_agrees (tree : DocumentTree) (hw : s.WellFormed) (name : String) :
    ∃ s', s.processAnyOtherEndTagForInBody name = some s' ∧
      { s.view tree with stack := (afterEndTag name s.openElements).getD s.openElements } =
        s'.view tree := by
  unfold processAnyOtherEndTagForInBody
  obtain ⟨above', root, hroot, hisRoot⟩ := hw.root
  have hmem : root ∈ s.openElements := by
    rw [hroot]
    simp
  split
  · rename_i hnone
    exact absurd hnone (HTMLElementStack.findOtherEndTag_ne_none name hmem
      (HTMLStackItem.isRootNode_special hisRoot))
  · rename_i hspecial
    refine ⟨s, rfl, ?_⟩
    rw [HTMLElementStack.afterEndTag_of_special hspecial]
    rfl
  · rename_i item hitem
    refine ⟨_, rfl, ?_⟩
    obtain ⟨above, below, hstack, hname, habove, hafter⟩ :=
      HTMLElementStack.findOtherEndTag_split hitem
    obtain ⟨kept, hkept, hgenerate⟩ :=
      HTMLElementStack.generateImpliedEndTags_suffix name habove hname below
    have hne : ∀ x ∈ kept, x.node ≠ item.node := fun x hx =>
      hw.above_ne hstack x (hkept x hx)
    have hpop : HTMLElementStack.popUntilPopped item.node
        (HTMLElementStack.generateImpliedEndTagsWithExclusion name s.openElements) = below := by
      rw [hstack, hgenerate, HTMLElementStack.popUntilPopped_append hne]
      simp [HTMLElementStack.popUntilPopped]
    rw [hafter, hpop]
    rfl

/-- The round ends the algorithm, as the standard's does, and it had nothing to clone. -/
def Ends (tree : DocumentTree) (s : ConstructionSite) (name : String) : Prop :=
  (∃ s', s.adoptionRound name = some (.inr s') ∧ (s.view tree).round name = .inr (s'.view tree)) ∧
    ∀ rounds, s.Spared name rounds

theorem ends_of_no_entry (hw : s.WellFormed)
    (hf : s.activeFormattingElements.closestElementInScopeWithName name = none) :
    Ends tree s name := by
  obtain ⟨s', hs', hagree⟩ := anyOther_agrees tree hw name
  have hstandard := hf
  rw [HTMLFormattingElementList.closestElementInScopeWithName_eq] at hstandard
  refine ⟨⟨s', ?_, ?_⟩, ?_⟩
  · simp only [adoptionRound, hf, hs', Option.map_some]
  · rw [← hagree]
    simp only [Agency.round, view, hstandard]
  · intro rounds f hf'
    rw [hstandard] at hf'
    cases hf'

theorem ends_of_not_open (hw : s.WellFormed) {f : HTMLStackItem}
    (hf : s.activeFormattingElements.closestElementInScopeWithName name = some f)
    (hne : ∀ x ∈ s.openElements, x.node ≠ f.node) : Ends tree s name := by
  have hstandard := hf
  rw [HTMLFormattingElementList.closestElementInScopeWithName_eq] at hstandard
  refine ⟨⟨{ s with activeFormattingElements := s.activeFormattingElements.remove f.node },
    ?_, ?_⟩, ?_⟩
  · simp only [adoptionRound, hf, HTMLElementStack.contains_of_forall_ne hne, Bool.false_and,
      Bool.false_eq_true, if_false, HTMLElementStack.find_of_forall_ne hne]
  · have hdrop : s.openElements.dropWhile (fun item => item.node ≠ f.node) = [] := by
      rw [List.dropWhile_eq_nil_iff]
      simpa using hne
    simp only [Agency.round, view, hstandard, hdrop]
    rw [HTMLFormattingElementList.remove_eq hw.unique]
  · intro rounds f' hf' hscope
    obtain rfl : f = f' := by
      rw [hstandard] at hf'
      simpa using hf'
    rw [HTMLElementStack.inScope_of_forall_ne hne] at hscope
    cases hscope

/-- What both rounds read when the formatting element is in the stack. -/
structure Found (s : ConstructionSite) (name : String) (above : HTMLElementStack)
    (f commonAncestor : HTMLStackItem) (below : HTMLElementStack) : Prop where
  stack : s.openElements = above ++ f :: commonAncestor :: below
  closest : s.activeFormattingElements.closestElementInScopeWithName name = some f

section Found

variable {above below : HTMLElementStack} {f commonAncestor : HTMLStackItem}

theorem Found.standard (h : Found s name above f commonAncestor below) :
    formattingElement s.activeFormattingElements name = some f := by
  rw [← HTMLFormattingElementList.closestElementInScopeWithName_eq]
  exact h.closest

theorem Found.inScope (h : Found s name above f commonAncestor below) (hw : s.WellFormed) :
    HTMLElementStack.inScope f.node s.openElements = !above.any HTMLStackItem.isScopeMarker := by
  rw [h.stack, HTMLElementStack.inScope_append (hw.above_ne h.stack) rfl]

theorem Found.takeWhile (h : Found s name above f commonAncestor below) (hw : s.WellFormed) :
    s.openElements.takeWhile (fun x => x.node ≠ f.node) = above := by
  rw [h.stack, List.takeWhile_append_of_pos]
  · simp
  · simpa using hw.above_ne h.stack

theorem Found.dropWhile (h : Found s name above f commonAncestor below) (hw : s.WellFormed) :
    s.openElements.dropWhile (fun x => x.node ≠ f.node) = f :: commonAncestor :: below := by
  rw [h.stack, List.dropWhile_append_of_pos]
  · simp
  · simpa using hw.above_ne h.stack

theorem Found.contains (h : Found s name above f commonAncestor below) :
    HTMLElementStack.contains s.openElements f.node = true := by
  rw [h.stack]
  simp [HTMLElementStack.contains]

theorem Found.find (h : Found s name above f commonAncestor below) (hw : s.WellFormed) :
    HTMLElementStack.find f.node s.openElements = f :: commonAncestor :: below := by
  rw [h.stack, HTMLElementStack.find_append (hw.above_ne h.stack)]
  simp [HTMLElementStack.find]

/-- The round of the source, behind its tests. -/
theorem Found.code_round (h : Found s name above f commonAncestor below) (hw : s.WellFormed)
    (hmarker : above.any HTMLStackItem.isScopeMarker = false) :
    s.adoptionRound name =
      match HTMLElementStack.furthestBlockForFormattingElement f.node [] s.openElements with
      | [] => some (.inr { s with
          openElements := HTMLElementStack.popUntilPopped f.node s.openElements
          activeFormattingElements := s.activeFormattingElements.remove f.node })
      | furthestBlock :: belowBlock =>
        (s.adoptFurthestBlock f (commonAncestor :: below) furthestBlock belowBlock).map .inl := by
  cases hblock : HTMLElementStack.furthestBlockForFormattingElement f.node [] s.openElements with
  | nil =>
    simp only [adoptionRound, h.closest, h.contains, h.inScope hw, hmarker, h.find hw, hblock,
      Bool.not_false, Bool.not_true, Bool.and_false, Bool.false_eq_true, if_false]
  | cons block below =>
    simp only [adoptionRound, h.closest, h.contains, h.inScope hw, hmarker, h.find hw, hblock,
      Bool.not_false, Bool.not_true, Bool.and_false, Bool.false_eq_true, if_false]

/-- The round of the standard, behind its tests. -/
theorem Found.standard_round (h : Found s name above f commonAncestor below) (hw : s.WellFormed)
    (hmarker : above.any HTMLStackItem.isScopeMarker = false) :
    (s.view tree).round name =
      match furthestBlock above with
      | none => .inr { s.view tree with
          stack := commonAncestor :: below
          list := removeEntry f.node s.activeFormattingElements }
      | some (newer, block, between) =>
        .inl ((s.view tree).adoptBlock newer block between f commonAncestor below) := by
  cases hblock : furthestBlock above with
  | none =>
    simp only [Agency.round, view, h.standard, h.dropWhile hw, h.takeWhile hw, hmarker, hblock,
      Bool.false_eq_true, if_false]
  | some found =>
    simp only [Agency.round, view, h.standard, h.dropWhile hw, h.takeWhile hw, hmarker, hblock,
      Bool.false_eq_true, if_false]

end Found

theorem ends_of_marker (hw : s.WellFormed) {above below : HTMLElementStack}
    {f commonAncestor : HTMLStackItem} (h : Found s name above f commonAncestor below)
    (hmarker : above.any HTMLStackItem.isScopeMarker = true) : Ends tree s name := by
  have hscope := h.inScope hw
  rw [hmarker] at hscope
  refine ⟨⟨s, ?_, ?_⟩, ?_⟩
  · simp only [adoptionRound, h.closest, h.contains, hscope, Bool.not_true, Bool.not_false,
      Bool.and_self, if_true]
  · simp only [Agency.round, view, h.standard, h.dropWhile hw, h.takeWhile hw, hmarker, if_true]
  · intro rounds f' hf' hscope'
    obtain rfl : f = f' := by
      have hstandard := h.standard
      rw [hf'] at hstandard
      simpa using hstandard.symm
    rw [hscope] at hscope'
    cases hscope'

theorem ends_of_no_block (hw : s.WellFormed) {above below : HTMLElementStack}
    {f commonAncestor : HTMLStackItem} (h : Found s name above f commonAncestor below)
    (hmarker : above.any HTMLStackItem.isScopeMarker = false)
    (hnone : furthestBlock above = none) : Ends tree s name := by
  have hplain := HTMLElementStack.furthestBlock_eq_none.mp hnone
  refine ⟨⟨{ s with
      openElements := HTMLElementStack.popUntilPopped f.node s.openElements
      activeFormattingElements := s.activeFormattingElements.remove f.node }, ?_, ?_⟩, ?_⟩
  · rw [h.code_round hw hmarker, h.stack,
      HTMLElementStack.furthestBlockForFormattingElement_plain (hw.above_ne h.stack) hplain rfl]
  · rw [h.standard_round hw hmarker, hnone]
    have hpop : HTMLElementStack.popUntilPopped f.node s.openElements =
        commonAncestor :: below := by
      rw [h.stack, HTMLElementStack.popUntilPopped_append (hw.above_ne h.stack)]
      simp [HTMLElementStack.popUntilPopped]
    simp only [view, hpop, HTMLFormattingElementList.remove_eq hw.unique]
  · intro rounds f' hf' hscope
    obtain rfl : f = f' := by
      have hstandard := h.standard
      rw [hf'] at hstandard
      simpa using hstandard.symm
    rw [h.takeWhile hw]
    cases rounds with
    | zero => trivial
    | succ rounds =>
      unfold Unlisted
      rw [hnone]
      trivial

theorem Found.spared {above below : HTMLElementStack} {f commonAncestor : HTMLStackItem}
    (h : Found s name above f commonAncestor below) (hw : s.WellFormed)
    (hmarker : above.any HTMLStackItem.isScopeMarker = false) (rounds : Nat) :
    s.Spared name rounds ↔ Unlisted s.activeFormattingElements rounds above := by
  constructor
  · intro hspared
    have hscope := h.inScope hw
    rw [hmarker, Bool.not_false] at hscope
    have hunlisted := hspared f h.standard hscope
    rwa [h.takeWhile hw] at hunlisted
  · intro hunlisted f' hf' _
    obtain rfl : f = f' := by
      have hstandard := h.standard
      rw [hf'] at hstandard
      simpa using hstandard.symm
    rwa [h.takeWhile hw]

theorem BlockRound.found {c : Cut} (h : BlockRound s name c) :
    Found s name (c.newer ++ c.block :: c.between) c.formatting c.commonAncestor c.below :=
  ⟨by rw [h.stack]; simp, h.closest⟩

theorem round_cases (tree : DocumentTree) (hw : s.WellFormed)
    (hname : isFormattingTag name = true) :
    Ends tree s name ∨ ∃ c, BlockRound s name c := by
  cases hf : s.activeFormattingElements.closestElementInScopeWithName name with
  | none => exact Or.inl (ends_of_no_entry hw hf)
  | some f =>
    rcases HTMLElementStack.split f.node s.openElements with
      hne | ⟨above, item, below, hstack, hitem, -⟩
    · exact Or.inl (ends_of_not_open hw hf hne)
    · have hmem : item ∈ s.openElements := by
        rw [hstack]
        simp
      obtain ⟨rfl, htag⟩ := hw.formatting_eq hf hmem hitem
      obtain ⟨commonAncestor, below, rfl⟩ :=
        List.exists_cons_of_ne_nil (hw.below_ne_nil hname hstack htag)
      have hfound : Found s name above item commonAncestor below := ⟨hstack, hf⟩
      cases hmarker : above.any HTMLStackItem.isScopeMarker with
      | true => exact Or.inl (ends_of_marker hw hfound hmarker)
      | false =>
        cases hblock : furthestBlock above with
        | none => exact Or.inl (ends_of_no_block hw hfound hmarker hblock)
        | some found =>
          obtain ⟨newer, block, between⟩ := found
          obtain ⟨rfl, hspecial, hplain⟩ := HTMLElementStack.furthestBlock_split hblock
          refine Or.inr ⟨⟨newer, block, between, item, commonAncestor, below⟩, ?_, hf, hmarker,
            hspecial, hplain⟩
          rw [hstack]
          simp

theorem BlockRound.code_round {c : Cut} (h : BlockRound s name c) (hw : s.WellFormed) :
    s.adoptionRound name =
      (s.adoptFurthestBlock c.formatting (c.commonAncestor :: c.below) c.block
        (c.between ++ c.formatting :: c.commonAncestor :: c.below)).map .inl := by
  rw [h.found.code_round hw h.noMarker, h.stack,
    HTMLElementStack.furthestBlockForFormattingElement_append (hw.above_ne h.found.stack) rfl
      h.special h.plain]

theorem BlockRound.standard_round {c : Cut} (h : BlockRound s name c) (hw : s.WellFormed) :
    (s.view tree).round name = .inl ((s.view tree).adoptBlock c.newer c.block c.between c.formatting
      c.commonAncestor c.below) := by
  rw [h.found.standard_round hw h.noMarker,
    HTMLElementStack.furthestBlock_append h.special h.plain]

theorem BlockRound.spared_succ {c : Cut} (h : BlockRound s name c) (hw : s.WellFormed)
    (rounds : Nat) :
    s.Spared name (rounds + 1) ↔
      (∀ x ∈ c.between.take 3, x.node ∉ s.activeFormattingElements.nodes) ∧
        Unlisted s.activeFormattingElements rounds c.newer := by
  rw [h.found.spared hw h.noMarker, Unlisted,
    HTMLElementStack.furthestBlock_append h.special h.plain]
  simp only [← Bool.not_eq_true, HTMLFormattingElementList.listed_iff]

/-! ## The steps behind the inner loop -/

theorem effect_insertAlreadyParsedChild (s : ConstructionSite) (tree : DocumentTree)
    (p c : HTMLStackItem) :
    effect (s.insertAlreadyParsedChild p c).taskQueue tree =
      (effect s.taskQueue tree).insert ((s.view tree).place s.openElements p).1
        ((s.view tree).place s.openElements p).2 c.node := by
  unfold insertAlreadyParsedChild Agency.place
  split
  · exact effect_append _ _ _
  · exact effect_append _ _ _

/-- A placed child changes the queue only. -/
theorem insertAlreadyParsedChild_eq (s : ConstructionSite) (p c : HTMLStackItem) :
    s.insertAlreadyParsedChild p c =
      { s with taskQueue := (s.insertAlreadyParsedChild p c).taskQueue } := by
  unfold insertAlreadyParsedChild
  split
  · rfl
  · rfl

/-- The site behind the steps 10 to 15, which come to it from the end of the inner loop. -/
structure Adopted (l : InnerLoop) (formatting commonAncestor block : HTMLStackItem)
    (s' : ConstructionSite) : Prop where
  stack : s'.openElements = HTMLElementStack.insertAbove { formatting with node := l.site.nextNode }
    block.node (HTMLElementStack.remove formatting.node l.site.openElements)
  list : s'.activeFormattingElements =
    l.site.activeFormattingElements.swapTo { formatting with node := l.site.nextNode } l.bookmark
  tree : ∀ tree, effect s'.taskQueue tree =
    (((effect l.site.taskQueue tree).insert
      ((l.site.view tree).place l.site.openElements commonAncestor).1
      ((l.site.view tree).place l.site.openElements commonAncestor).2 l.lastNode.node).takeAll
        l.site.nextNode block.node).insert block.node none l.site.nextNode
  nextNode : s'.nextNode = l.site.nextNode + 1
  rootNode : s'.rootNode = l.site.rootNode
  parentNode : s'.parentNode = l.site.parentNode

/-- The start of the inner loop. -/
def innerStart (s : ConstructionSite) (formatting block : HTMLStackItem)
    (belowBlock : HTMLElementStack) : InnerLoop where
  site := s
  nextNode := belowBlock
  lastNode := block
  bookmark := s.activeFormattingElements.bookmarkFor formatting.node

theorem adoptFurthestBlock_of_inner {formatting block : HTMLStackItem}
    {belowBlock : HTMLElementStack} {l : InnerLoop} (commonAncestor : HTMLStackItem)
    (below : HTMLElementStack)
    (h : adoptionInnerLoop block formatting.node kInnerIterationLimit
      (s.innerStart formatting block belowBlock) = some l) :
    ∃ s', s.adoptFurthestBlock formatting (commonAncestor :: below) block belowBlock = some s' ∧
      Adopted l formatting commonAncestor block s' := by
  unfold innerStart at h
  simp only [adoptFurthestBlock, h, Option.bind_eq_bind, Option.bind_some]
  refine ⟨_, rfl, ?_⟩
  rw [insertAlreadyParsedChild_eq]
  constructor
  · rfl
  · rfl
  · intro tree
    show effect ((l.site.insertAlreadyParsedChild commonAncestor l.lastNode).taskQueue ++
      [_] ++ [_]) tree = _
    rw [effect_append, effect_append, effect_insertAlreadyParsedChild]
    rfl
  · rfl
  · rfl
  · rfl

theorem inner_of_adoptFurthestBlock {formatting commonAncestor block : HTMLStackItem}
    {below belowBlock : HTMLElementStack} {s' : ConstructionSite}
    (h : s.adoptFurthestBlock formatting (commonAncestor :: below) block belowBlock = some s') :
    ∃ l, adoptionInnerLoop block formatting.node kInnerIterationLimit
        (s.innerStart formatting block belowBlock) = some l ∧
      Adopted l formatting commonAncestor block s' := by
  cases hinner : adoptionInnerLoop block formatting.node kInnerIterationLimit
      (s.innerStart formatting block belowBlock) with
  | none =>
    unfold innerStart at hinner
    simp [adoptFurthestBlock, hinner] at h
  | some l =>
    obtain ⟨s'', hs'', hadopted⟩ := adoptFurthestBlock_of_inner commonAncestor below hinner
    obtain rfl : s'' = s' := by
      rw [h] at hs''
      simpa using hs''.symm
    exact ⟨l, rfl, hadopted⟩

/-! ## A round without a clone -/

/-- The inner loop only takes its nodes from the stack. -/
theorem inner_without_clone (block formatting : HTMLStackItem) (rest newer : HTMLElementStack)
    (rounds : Nat) (between : HTMLElementStack) (l : InnerLoop)
    (hstack : l.site.openElements = newer ++ (between ++ formatting :: rest))
    (hnext : l.nextNode = between ++ formatting :: rest)
    (hnodup : (l.site.openElements.map HTMLStackItem.node).Nodup)
    (hlisted : formatting.node ∈ l.site.activeFormattingElements.nodes)
    (hunlisted : ∀ x ∈ between.take rounds, x.node ∉ l.site.activeFormattingElements.nodes) :
    ∃ next, adoptionInnerLoop block formatting.node rounds l = some { l with
      site := { l.site with openElements := newer ++ (between.drop rounds ++ formatting :: rest) }
      nextNode := next } := by
  induction rounds generalizing between l with
  | zero =>
    refine ⟨l.nextNode, ?_⟩
    rw [List.drop_zero, ← hstack]
    rfl
  | succ rounds ih =>
    cases between with
    | nil =>
      obtain ⟨i, hi⟩ := HTMLFormattingElementList.find_isSome hlisted
      refine ⟨rest, ?_⟩
      rw [List.drop_nil, ← List.nil_append (_ ++ _ :: _), List.nil_append, ← hstack]
      rw [List.nil_append] at hnext
      simp only [adoptionInnerLoop, hnext, hi, if_true]
    | cons x between =>
      rw [List.take_succ_cons, List.forall_mem_cons] at hunlisted
      have hnone := HTMLFormattingElementList.find_eq_none.mpr hunlisted.1
      have hne : ∀ y ∈ newer, y.node ≠ x.node := by
        rw [hstack, List.map_append, List.nodup_append] at hnodup
        intro y hy heq
        exact hnodup.2.2 _ (List.mem_map_of_mem hy) x.node (by simp) heq
      have hremove : HTMLElementStack.remove x.node l.site.openElements =
          newer ++ (between ++ formatting :: rest) := by
        rw [hstack, HTMLElementStack.remove_append hne]
        simp [HTMLElementStack.remove]
      rw [List.cons_append] at hnext
      have hloop : adoptionInnerLoop block formatting.node (rounds + 1) l =
          adoptionInnerLoop block formatting.node rounds { l with
            site := l.site.removeOpenElement x.node
            nextNode := between ++ formatting :: rest } := by
        simp only [adoptionInnerLoop, hnext, hnone]
      rw [hloop, List.drop_succ_cons]
      refine ih between _ hremove rfl ?_ hlisted hunlisted.2
      show ((HTMLElementStack.remove x.node l.site.openElements).map HTMLStackItem.node).Nodup
      rw [hremove]
      rw [hstack] at hnodup
      refine hnodup.sublist (List.Sublist.map _ ?_)
      exact List.Sublist.append_left (List.sublist_cons_self _ _) newer

/-- The standard's inner loop leaves everything as it is. -/
theorem adopt_without_clone (block : HTMLStackItem) (nodes : HTMLElementStack) (a : Agency.Inner)
    (h : ∀ x ∈ nodes, x.node ∉ a.list.nodes) : Agency.adopt block nodes a = a := by
  induction nodes with
  | nil => rfl
  | cons x nodes ih =>
    rw [List.forall_mem_cons] at h
    have hx : ¬ listed a.list x.node = true := by
      rw [HTMLFormattingElementList.listed_iff]
      exact h.1
    rw [Agency.adopt, if_neg hx]
    exact ih h.2

/-- What a round leaves that has cloned no element between. -/
structure Uncloned (tree : DocumentTree) (s : ConstructionSite) (c : Cut) (s' : ConstructionSite) :
    Prop where
  view : s'.view tree = (s.view tree).adoptBlock c.newer c.block c.between c.formatting
    c.commonAncestor c.below
  stack : s'.openElements = c.newer ++ { c.formatting with node := s.nextNode } :: c.block ::
    (c.between.drop 3 ++ c.commonAncestor :: c.below)
  list : s'.activeFormattingElements = replaceEntry c.formatting.node
    { c.formatting with node := s.nextNode } s.activeFormattingElements
  nextNode : s'.nextNode = s.nextNode + 1

theorem BlockRound.formatting_listed {c : Cut} (h : BlockRound s name c) :
    c.formatting.node ∈ s.activeFormattingElements.nodes := by
  obtain ⟨pre, post, hlist, -⟩ := HTMLFormattingElementList.closest_split h.closest
  rw [hlist, HTMLFormattingElementList.nodes_append, HTMLFormattingElementList.nodes_cons]
  simp

theorem BlockRound.newer_ne {c : Cut} (h : BlockRound s name c) (hw : s.WellFormed) :
    ∀ x ∈ c.newer, x.node ≠ c.block.node := hw.above_ne h.stack

theorem clean_round {c : Cut} (tree : DocumentTree) (hw : s.WellFormed) (h : BlockRound s name c)
    (hclean : ∀ x ∈ c.between.take 3, x.node ∉ s.activeFormattingElements.nodes) :
    ∃ s', s.adoptionRound name = some (.inl s') ∧ Uncloned tree s c s' := by
  have hstack : s.openElements = (c.newer ++ [c.block]) ++
      (c.between ++ c.formatting :: c.commonAncestor :: c.below) := by
    rw [h.stack]
    simp
  obtain ⟨next, hinner⟩ := inner_without_clone c.block c.formatting (c.commonAncestor :: c.below)
    (c.newer ++ [c.block]) kInnerIterationLimit c.between
    (s.innerStart c.formatting c.block (c.between ++ c.formatting :: c.commonAncestor :: c.below))
    hstack rfl hw.nodup h.formatting_listed hclean
  obtain ⟨s', hs', hadopted⟩ := adoptFurthestBlock_of_inner c.commonAncestor c.below hinner
  have hround : s.adoptionRound name = some (.inl s') := by
    rw [h.code_round hw, hs', Option.map_some]
  have hformatting : ∀ x ∈ c.newer ++ [c.block] ++ c.between.drop 3,
      x.node ≠ c.formatting.node := by
    intro x hx
    apply hw.above_ne h.found.stack x
    simp only [List.append_assoc, List.singleton_append, List.mem_append, List.mem_cons] at hx ⊢
    rcases hx with hx | rfl | hx
    · exact Or.inl hx
    · exact Or.inr (Or.inl rfl)
    · exact Or.inr (Or.inr (List.mem_of_mem_drop hx))
  have hst : s'.openElements = c.newer ++ { c.formatting with node := s.nextNode } :: c.block ::
      (c.between.drop 3 ++ c.commonAncestor :: c.below) := by
    have hadopt : s'.openElements = HTMLElementStack.insertAbove
        { c.formatting with node := s.nextNode } c.block.node
        (HTMLElementStack.remove c.formatting.node ((c.newer ++ [c.block]) ++
          (c.between.drop 3 ++ c.formatting :: c.commonAncestor :: c.below))) :=
      hadopted.stack
    rw [hadopt, ← List.append_assoc, HTMLElementStack.remove_append hformatting]
    simp only [HTMLElementStack.remove, if_true, List.append_assoc, List.singleton_append]
    rw [HTMLElementStack.insertAbove_append (h.newer_ne hw)]
    simp [HTMLElementStack.insertAbove]
  obtain ⟨i, hi⟩ := HTMLFormattingElementList.find_isSome h.formatting_listed
  have hlist : s'.activeFormattingElements = replaceEntry c.formatting.node
      { c.formatting with node := s.nextNode } s.activeFormattingElements := by
    have hadopt : s'.activeFormattingElements = s.activeFormattingElements.replaceElement
        ((s.activeFormattingElements.find c.formatting.node).getD 0)
        { c.formatting with node := s.nextNode } := hadopted.list
    rw [hadopt, hi, Option.getD_some, HTMLFormattingElementList.replaceElement_eq hw.unique hi]
  refine ⟨s', hround, ?_, hst, hlist, hadopted.nextNode⟩
  have hadopt := adopt_without_clone c.block (c.between.take 3)
    ⟨[], s.activeFormattingElements, effect s.taskQueue tree, s.nextNode, c.block, none⟩ hclean
  simp only [Agency.adoptBlock, view, hadopt, Agency.mk.injEq, hst, hlist, List.nil_append]
  refine ⟨trivial, trivial, ?_, hadopted.nextNode, hadopted.rootNode, hadopted.parentNode⟩
  rw [hadopted.tree tree]
  simp only [List.append_assoc, List.singleton_append]
  rfl

/-! ## A node that no record names -/

/-- The node is in no record, and in no place of the tree. -/
structure Missing (tree : DocumentTree) (m : NodeId) (s : ConstructionSite) : Prop where
  unopened : ∀ x ∈ s.openElements, x.node ≠ m
  absent : (effect s.taskQueue tree).Absent m

/-- The inner loop comes to the node neither. -/
structure Unplaced (tree : DocumentTree) (m : NodeId) (l : InnerLoop) : Prop where
  missing : Missing tree m l.site
  unread : ∀ x ∈ l.nextNode, x.node ≠ m
  notLast : l.lastNode.node ≠ m

variable {m : NodeId} {s' : ConstructionSite}

theorem adoptNode_unplaced {l : InnerLoop} {block node : HTMLStackItem} (i : Nat)
    (hnode : node.node ≠ m) (h : Unplaced tree m l) :
    Unplaced tree m (adoptNode l block node i) := by
  refine ⟨⟨h.missing.unopened, ?_⟩, h.unread, hnode⟩
  show (effect (l.site.taskQueue ++ [_]) tree).Absent m
  rw [effect_append]
  exact h.missing.absent.insert h.notLast

theorem inner_unplaced {block : HTMLStackItem} {n : NodeId} (rounds : Nat) {l l' : InnerLoop}
    (h : adoptionInnerLoop block n rounds l = some l') (hl : Unplaced tree m l) :
    Unplaced tree m l' := by
  induction rounds generalizing l with
  | zero =>
    obtain rfl : l = l' := by simpa [adoptionInnerLoop] using h
    exact hl
  | succ rounds ih =>
    unfold adoptionInnerLoop at h
    split at h
    · cases h
    · rename_i node next hnext
      have hunread := hl.unread
      rw [hnext, List.forall_mem_cons] at hunread
      dsimp only at h
      split at h
      · apply ih h
        refine ⟨⟨?_, hl.missing.absent⟩, hunread.2, hl.notLast⟩
        intro x hx
        exact hl.missing.unopened x (HTMLElementStack.mem_of_mem_remove hx)
      · split at h
        · obtain rfl : _ = l' := by simpa using h
          exact ⟨hl.missing, hunread.2, hl.notLast⟩
        · apply ih h
          exact adoptNode_unplaced _ hunread.1 ⟨hl.missing, hunread.2, hl.notLast⟩

theorem inner_nextNode_le {block : HTMLStackItem} {n : NodeId} (rounds : Nat) {l l' : InnerLoop}
    (h : adoptionInnerLoop block n rounds l = some l') :
    l.site.nextNode ≤ l'.site.nextNode := by
  induction rounds generalizing l with
  | zero =>
    obtain rfl : l = l' := by simpa [adoptionInnerLoop] using h
    exact Nat.le_refl _
  | succ rounds ih =>
    unfold adoptionInnerLoop at h
    split at h
    · cases h
    · dsimp only at h
      split at h
      · have hle := ih h
        exact hle
      · split at h
        · obtain rfl : _ = l' := by simpa using h
          exact Nat.le_refl _
        · have hle := ih h
          exact Nat.le_of_succ_le hle

/-- An element of the list, above the formatting element, gets a clone. -/
theorem inner_clones {block : HTMLStackItem} {n : NodeId} (rounds : Nat) {l l' : InnerLoop}
    (between rest : HTMLElementStack) (h : adoptionInnerLoop block n rounds l = some l')
    (hnext : l.nextNode = between ++ rest) (hne : ∀ x ∈ between, x.node ≠ n)
    (hlisted : ∃ x ∈ between.take rounds, x.node ∈ l.site.activeFormattingElements.nodes) :
    l.site.nextNode < l'.site.nextNode := by
  induction rounds generalizing l between with
  | zero =>
    obtain ⟨x, hx, -⟩ := hlisted
    cases hx
  | succ rounds ih =>
    cases between with
    | nil =>
      obtain ⟨x, hx, -⟩ := hlisted
      cases hx
    | cons node between =>
      rw [List.forall_mem_cons] at hne
      rw [List.cons_append] at hnext
      unfold adoptionInnerLoop at h
      rw [hnext] at h
      dsimp only at h
      split at h
      · rename_i hnone
        apply ih between h rfl hne.2
        obtain ⟨x, hx, hmem⟩ := hlisted
        rw [List.take_succ_cons] at hx
        rcases List.mem_cons.mp hx with rfl | hx
        · exact absurd hmem (HTMLFormattingElementList.find_eq_none.mp hnone)
        · exact ⟨x, hx, hmem⟩
      · rw [if_neg hne.1] at h
        exact inner_nextNode_le rounds h

theorem Adopted.missing {l : InnerLoop} {formatting commonAncestor block : HTMLStackItem}
    (h : Adopted l formatting commonAncestor block s') (hl : Unplaced tree m l)
    (hm : s'.nextNode ≠ m + 1) : Missing tree m s' := by
  have hnew : l.site.nextNode ≠ m := by
    rintro rfl
    exact hm h.nextNode
  constructor
  · intro x hx
    rw [h.stack] at hx
    rcases HTMLElementStack.mem_of_mem_insertAbove hx with rfl | hx
    · exact hnew
    · exact hl.missing.unopened x (HTMLElementStack.mem_of_mem_remove hx)
  · rw [h.tree tree]
    exact ((hl.missing.absent.insert hl.notLast).takeAll _ _).insert hnew

/-- A round that goes on has run the steps 7 to 15, over items of the stack. -/
theorem round_goes_on (h : s.adoptionRound name = some (.inl s')) :
    ∃ formatting commonAncestor below block belowBlock,
      s.adoptFurthestBlock formatting (commonAncestor :: below) block belowBlock = some s' ∧
        ∀ x ∈ block :: belowBlock, x ∈ s.openElements := by
  unfold adoptionRound at h
  split at h
  · cases hany : s.processAnyOtherEndTagForInBody name <;> simp [hany] at h
  · rename_i f hf
    dsimp only at h
    split at h
    · simp at h
    · split at h
      · simp at h
      · rename_i formatting belowFormatting hfind
        split at h
        · simp at h
        · rename_i block belowBlock hblock
          cases belowFormatting with
          | nil => simp [adoptFurthestBlock] at h
          | cons commonAncestor below =>
            refine ⟨formatting, commonAncestor, below, block, belowBlock, by simpa using h, ?_⟩
            intro x hx
            rw [← hblock] at hx
            rcases HTMLElementStack.mem_of_mem_furthestBlock hx with hx | hx
            · cases hx
            · exact hx

theorem round_goes_on_missing (h : s.adoptionRound name = some (.inl s'))
    (hs : Missing tree m s) (hm : s'.nextNode ≠ m + 1) : Missing tree m s' := by
  obtain ⟨formatting, commonAncestor, below, block, belowBlock, hadopt, hmem⟩ := round_goes_on h
  obtain ⟨l, hinner, hadopted⟩ := inner_of_adoptFurthestBlock hadopt
  refine hadopted.missing (inner_unplaced _ hinner ⟨hs, ?_, ?_⟩) hm
  · intro x hx
    exact hs.unopened x (hmem x (List.mem_cons_of_mem block hx))
  · exact hs.unopened block (hmem block List.mem_cons_self)

theorem round_goes_on_nextNode (h : s.adoptionRound name = some (.inl s')) :
    s.nextNode < s'.nextNode := by
  obtain ⟨formatting, commonAncestor, below, block, belowBlock, hadopt, -⟩ := round_goes_on h
  obtain ⟨l, hinner, hadopted⟩ := inner_of_adoptFurthestBlock hadopt
  have hle := inner_nextNode_le _ hinner
  rw [hadopted.nextNode]
  exact Nat.lt_succ_of_le hle

theorem round_ends_missing (h : s.adoptionRound name = some (.inr s'))
    (hs : Missing tree m s) : Missing tree m s' := by
  unfold adoptionRound at h
  split at h
  · unfold processAnyOtherEndTagForInBody at h
    split at h
    · cases h
    · obtain rfl : s = s' := by simpa using h
      exact hs
    · obtain rfl : _ = s' := by simpa using h
      refine ⟨?_, hs.absent⟩
      intro x hx
      exact hs.unopened x (HTMLElementStack.mem_of_mem_generateImplied
        (HTMLElementStack.mem_of_mem_popUntilPopped hx))
  · dsimp only at h
    split at h
    · obtain rfl : s = s' := by simpa using h
      exact hs
    · split at h
      · obtain rfl : _ = s' := by simpa using h
        exact ⟨hs.unopened, hs.absent⟩
      · split at h
        · obtain rfl : _ = s' := by simpa using h
          refine ⟨?_, hs.absent⟩
          intro x hx
          exact hs.unopened x (HTMLElementStack.mem_of_mem_popUntilPopped hx)
        · simp at h

theorem loop_missing (rounds : Nat) (h : adoptionLoop name rounds s = some s')
    (hs : Missing tree m s) (hm : m < s.nextNode) : Missing tree m s' := by
  induction rounds generalizing s with
  | zero =>
    obtain rfl : s = s' := by simpa [adoptionLoop] using h
    exact hs
  | succ rounds ih =>
    unfold adoptionLoop at h
    split at h
    · cases h
    · rename_i s₁ hround
      obtain rfl : s₁ = s' := by simpa using h
      exact round_ends_missing hround hs
    · rename_i s₁ hround
      have hlt := round_goes_on_nextNode hround
      exact ih h (round_goes_on_missing hround hs (Nat.lt_of_le_of_lt hm hlt).ne')
        (Nat.lt_trans hm hlt)

/-! ## The site behind a round without a clone -/

section Uncloned

variable {c : Cut}

theorem Uncloned.wellFormed (hu : Uncloned tree s c s') (hw : s.WellFormed)
    (h : BlockRound s name c) : s'.WellFormed := by
  have hsub : (c.newer ++ c.block :: (c.between.drop 3 ++ c.commonAncestor :: c.below)).Sublist
      s.openElements := by
    rw [h.stack]
    refine List.Sublist.append_left (List.Sublist.cons_cons _ ?_) _
    exact List.Sublist.append (List.drop_sublist _ _) (List.sublist_cons_self _ _)
  have hmem : ∀ x ∈ s'.openElements, x = { c.formatting with node := s.nextNode } ∨
      x ∈ s.openElements := by
    intro x hx
    rw [hu.stack, List.mem_append, List.mem_cons] at hx
    rcases hx with hx | rfl | hx
    · exact Or.inr (hsub.subset (List.mem_append_left _ hx))
    · exact Or.inl rfl
    · exact Or.inr (hsub.subset (List.mem_append_right _ hx))
  have hnew : ∀ x ∈ s.openElements, x.node ≠ s.nextNode := fun x hx =>
    Nat.ne_of_lt (hw.created x hx)
  obtain ⟨pre, post, hlist, -⟩ := HTMLFormattingElementList.closest_split h.closest
  have hunique := hw.unique
  rw [hlist] at hunique
  have hlist' : s'.activeFormattingElements =
      pre ++ some { c.formatting with node := s.nextNode } :: post := by
    rw [hu.list, hlist, HTMLFormattingElementList.replaceEntry_split hunique]
  have hnodes : ∀ n ∈ HTMLFormattingElementList.nodes (pre ++ post), n < s.nextNode := by
    intro n hn
    apply hw.listCreated n
    rw [hlist, HTMLFormattingElementList.nodes_append, HTMLFormattingElementList.nodes_cons]
    rw [HTMLFormattingElementList.nodes_append] at hn
    exact List.perm_middle.symm.subset (List.mem_cons_of_mem _ hn)
  constructor
  · rw [hu.stack, List.map_append, List.map_cons, List.nodup_middle, List.nodup_cons,
      ← List.map_append]
    refine ⟨?_, hw.nodup.sublist (hsub.map _)⟩
    rintro hn
    obtain ⟨x, hx, hnode⟩ := List.mem_map.mp hn
    exact hnew x (hsub.subset hx) hnode
  · rw [hlist', HTMLFormattingElementList.nodes_append, HTMLFormattingElementList.nodes_cons,
      List.nodup_middle, List.nodup_cons, ← HTMLFormattingElementList.nodes_append]
    refine ⟨fun hn => Nat.lt_irrefl _ (hnodes _ hn), ?_⟩
    rw [HTMLFormattingElementList.nodes_append, HTMLFormattingElementList.nodes_cons,
      List.nodup_middle, List.nodup_cons, ← HTMLFormattingElementList.nodes_append] at hunique
    exact hunique.2
  · intro x hx y hy heq
    rw [hlist', List.mem_append, List.mem_cons] at hy
    have hold : some y ∈ pre ++ post → y.node < s.nextNode := fun hy =>
      hnodes _ (HTMLFormattingElementList.mem_nodes.mpr ⟨y, hy, rfl⟩)
    have hy : y = { c.formatting with node := s.nextNode } ∨ some y ∈ pre ++ post := by
      rcases hy with hy | hy | hy
      · exact Or.inr (List.mem_append_left _ hy)
      · exact Or.inl (by simpa using hy)
      · exact Or.inr (List.mem_append_right _ hy)
    rcases hmem x hx with rfl | hx <;> rcases hy with rfl | hy
    · rfl
    · exact absurd heq.symm (Nat.ne_of_lt (hold hy))
    · exact absurd heq (hnew x hx)
    · apply hw.shared x hx y _ heq
      rw [hlist]
      exact List.perm_middle.symm.subset (List.mem_cons_of_mem _ hy)
  · intro x hx
    rw [hu.nextNode]
    rcases hmem x hx with rfl | hx
    · exact Nat.lt_succ_self _
    · exact Nat.lt_succ_of_lt (hw.created x hx)
  · intro n hn
    rw [hu.nextNode]
    rw [hlist', HTMLFormattingElementList.nodes_append, HTMLFormattingElementList.nodes_cons] at hn
    rcases List.mem_cons.mp (List.perm_middle.subset hn) with rfl | hn
    · exact Nat.lt_succ_self _
    · rw [← HTMLFormattingElementList.nodes_append] at hn
      exact Nat.lt_succ_of_lt (hnodes n hn)
  · obtain ⟨above, root, hroot, hisRoot⟩ := hw.root
    obtain hnil | ⟨above', last, hlast⟩ := List.eq_nil_or_concat (c.commonAncestor :: c.below)
    · cases hnil
    · refine ⟨c.newer ++ { c.formatting with node := s.nextNode } :: c.block ::
        (c.between.drop 3 ++ above'), root, ?_, hisRoot⟩
      rw [h.found.stack, hlast] at hroot
      obtain rfl : last = root := by
        have hend : (c.newer ++ c.block :: c.between ++ c.formatting :: above') ++ [last] =
            above ++ [root] := by
          rw [← hroot]
          simp
        obtain ⟨-, hlast⟩ := List.append_inj' hend rfl
        simpa using hlast
      rw [hu.stack, hlast]
      simp

theorem Uncloned.found (hu : Uncloned tree s c s') (hw : s.WellFormed) (h : BlockRound s name c) :
    Found s' name c.newer { c.formatting with node := s.nextNode } c.block
      (c.between.drop 3 ++ c.commonAncestor :: c.below) := by
  obtain ⟨pre, post, hlist, htag, hpost⟩ := HTMLFormattingElementList.closest_split h.closest
  refine ⟨hu.stack, ?_⟩
  have hunique := hw.unique
  rw [hlist] at hunique
  rw [hu.list, hlist, HTMLFormattingElementList.replaceEntry_split hunique]
  exact HTMLFormattingElementList.closest_append htag hpost

theorem unlisted_congr {list list' : HTMLFormattingElementList} (rounds : Nat)
    (above : HTMLElementStack)
    (h : ∀ x ∈ above, (listed list' x.node = false ↔ listed list x.node = false)) :
    Unlisted list' rounds above ↔ Unlisted list rounds above := by
  induction rounds generalizing above with
  | zero => exact Iff.rfl
  | succ rounds ih =>
    unfold Unlisted
    cases hblock : furthestBlock above with
    | none => exact Iff.rfl
    | some found =>
      obtain ⟨newer, block, between⟩ := found
      obtain ⟨rfl, -⟩ := HTMLElementStack.furthestBlock_split hblock
      refine and_congr ?_ (ih newer fun x hx => h x (List.mem_append_left _ hx))
      refine forall₂_congr fun x hx => h x ?_
      exact List.mem_append_right _ (List.mem_cons_of_mem _ (List.mem_of_mem_take hx))

/-- What is newer than the block is in the list as before. -/
theorem Uncloned.listed_iff (hu : Uncloned tree s c s') (hw : s.WellFormed)
    (h : BlockRound s name c) {x : HTMLStackItem} (hx : x ∈ c.newer) :
    listed s'.activeFormattingElements x.node = false ↔
      listed s.activeFormattingElements x.node = false := by
  rw [← Bool.not_eq_true, ← Bool.not_eq_true, not_iff_not, HTMLFormattingElementList.listed_iff,
    HTMLFormattingElementList.listed_iff, hu.list]
  have hmem : x ∈ s.openElements := by
    rw [h.stack]
    exact List.mem_append_left _ hx
  have hne : x.node ≠ c.formatting.node :=
    hw.above_ne h.found.stack x (List.mem_append_left _ hx)
  constructor
  · intro hlisted
    rcases HTMLFormattingElementList.mem_nodes_replaceEntry hlisted with heq | ⟨-, hlisted⟩
    · exact absurd heq (Nat.ne_of_lt (hw.created x hmem))
    · exact hlisted
  · intro hlisted
    obtain ⟨pre, post, hlist, -⟩ := HTMLFormattingElementList.closest_split h.closest
    have hunique := hw.unique
    rw [hlist] at hunique hlisted ⊢
    rw [HTMLFormattingElementList.replaceEntry_split hunique]
    rw [HTMLFormattingElementList.nodes_append, HTMLFormattingElementList.nodes_cons] at hlisted ⊢
    rcases List.mem_cons.mp (List.perm_middle.subset hlisted) with heq | hlisted
    · exact absurd heq hne
    · exact List.perm_middle.symm.subset (List.mem_cons_of_mem _ hlisted)

/-- The rounds that follow come to the same nodes. -/
theorem Uncloned.spared (hu : Uncloned tree s c s') (hw : s.WellFormed) (h : BlockRound s name c)
    (rounds : Nat) :
    s'.Spared name rounds ↔ Unlisted s.activeFormattingElements rounds c.newer := by
  have hmarker := h.noMarker
  rw [List.any_append, Bool.or_eq_false_iff] at hmarker
  rw [(hu.found hw h).spared (hu.wellFormed hw h) hmarker.1]
  exact unlisted_congr rounds c.newer fun x hx => hu.listed_iff hw h hx

end Uncloned

end ConstructionSite

/-! ## The clones of the standard -/

namespace Agency

variable {g g' : Agency} {name : String} {m : NodeId}

/-- Every clone has a parent, unless it is the last node. -/
def Placed (first : NodeId) (a : Inner) : Prop :=
  ∀ k, first ≤ k → k < a.nextNode → k = a.lastNode.node ∨ a.tree.parent k ≠ none

theorem clone_placed {first : NodeId} (block node : HTMLStackItem) {a : Inner}
    (h : Placed first a) : Placed first (a.clone block node) := by
  intro k hfirst hk
  rcases Nat.lt_succ_iff_lt_or_eq.mp hk with hk | rfl
  · exact Or.inr (DocumentTree.insert_gives_parent (h k hfirst hk))
  · exact Or.inl rfl

theorem adopt_placed {first : NodeId} (block : HTMLStackItem) (nodes : HTMLElementStack)
    {a : Inner} (h : Placed first a) : Placed first (adopt block nodes a) := by
  induction nodes generalizing a with
  | nil => exact h
  | cons node nodes ih =>
    rw [adopt]
    split
    · exact ih (clone_placed block node h)
    · exact ih h

theorem adopt_keeps_parent (block : HTMLStackItem) (nodes : HTMLElementStack) {a : Inner}
    (h : a.tree.parent m ≠ none) : (adopt block nodes a).tree.parent m ≠ none := by
  induction nodes generalizing a with
  | nil => exact h
  | cons node nodes ih =>
    rw [adopt]
    split
    · exact ih (DocumentTree.insert_keeps_parent h)
    · exact ih h

theorem adopt_nextNode_le (block : HTMLStackItem) (nodes : HTMLElementStack) (a : Inner) :
    a.nextNode ≤ (adopt block nodes a).nextNode := by
  induction nodes generalizing a with
  | nil => exact Nat.le_refl _
  | cons node nodes ih =>
    rw [adopt]
    split
    · exact Nat.le_of_succ_le (ih (a.clone block node))
    · exact ih a

theorem adopt_clones (block : HTMLStackItem) (nodes : HTMLElementStack) {a : Inner}
    (h : ∃ x ∈ nodes, x.node ∈ a.list.nodes) :
    a.nextNode < (adopt block nodes a).nextNode := by
  induction nodes with
  | nil =>
    obtain ⟨x, hx, -⟩ := h
    cases hx
  | cons node nodes ih =>
    rw [adopt]
    split
    · exact adopt_nextNode_le block nodes (a.clone block node)
    · rename_i hnode
      rw [HTMLFormattingElementList.listed_iff] at hnode
      apply ih
      obtain ⟨x, hx, hmem⟩ := h
      rcases List.mem_cons.mp hx with rfl | hx
      · exact absurd hmem hnode
      · exact ⟨x, hx, hmem⟩

variable {newer between below : HTMLElementStack} {block formatting commonAncestor : HTMLStackItem}

theorem adoptBlock_keeps_parent (h : g.tree.parent m ≠ none) :
    (g.adoptBlock newer block between formatting commonAncestor below).tree.parent m ≠ none := by
  apply DocumentTree.insert_keeps_parent
  apply DocumentTree.takeAll_keeps_parent
  apply DocumentTree.insert_keeps_parent
  exact adopt_keeps_parent block (between.take 3) h

/-- The first clone of a round gets a parent. -/
theorem adoptBlock_clone_parent (h : ∃ x ∈ between.take 3, x.node ∈ g.list.nodes) :
    (g.adoptBlock newer block between formatting commonAncestor below).tree.parent g.nextNode ≠
      none := by
  have hstart : Placed g.nextNode ⟨[], g.list, g.tree, g.nextNode, block, none⟩ := fun k hle hlt =>
    absurd hlt (Nat.not_lt.mpr hle)
  have hplaced := adopt_placed block (between.take 3) hstart
  have hclones := adopt_clones block (between.take 3)
    (a := ⟨[], g.list, g.tree, g.nextNode, block, none⟩) h
  apply DocumentTree.insert_keeps_parent
  apply DocumentTree.takeAll_keeps_parent
  exact DocumentTree.insert_gives_parent (hplaced g.nextNode (Nat.le_refl _) hclones)

theorem round_keeps_parent (name : String) (h : g.tree.parent m ≠ none) :
    ((g.round name).elim Agency.tree Agency.tree).parent m ≠ none := by
  unfold round
  split
  · exact h
  · dsimp only
    split
    · exact h
    · split
      · exact h
      · split
        · exact h
        · exact h
        · exact adoptBlock_keeps_parent h

theorem loop_keeps_parent (name : String) (rounds : Nat) (h : g.tree.parent m ≠ none) :
    (loop name rounds g).tree.parent m ≠ none := by
  induction rounds generalizing g with
  | zero => exact h
  | succ rounds ih =>
    have hround := round_keeps_parent name h
    unfold loop
    split
    · rename_i g' heq
      rw [heq] at hround
      exact hround
    · rename_i g' heq
      rw [heq] at hround
      exact ih hround

end Agency

/-! ## The condition -/

namespace ConstructionSite

variable {s s' : ConstructionSite} {name : String} {tree : DocumentTree} {m : NodeId} {c : Cut}

/-- The nodes that are still to be created are in no place of the tree. -/
def Fresh (tree : DocumentTree) (s : ConstructionSite) : Prop :=
  ∀ m, s.nextNode ≤ m → (effect s.taskQueue tree).Absent m

theorem Fresh.missing (hfresh : Fresh tree s) (hw : s.WellFormed) {m : NodeId}
    (hm : s.nextNode ≤ m) : Missing tree m s :=
  ⟨fun x hx => Nat.ne_of_lt (Nat.lt_of_lt_of_le (hw.created x hx) hm), hfresh m hm⟩

theorem Uncloned.fresh (hu : Uncloned tree s c s') (hw : s.WellFormed) (hfresh : Fresh tree s)
    (hround : s.adoptionRound name = some (.inl s')) : Fresh tree s' := by
  intro m hm
  have hle : s.nextNode ≤ m := by
    rw [hu.nextNode] at hm
    exact Nat.le_of_succ_le hm
  exact (round_goes_on_missing hround (hfresh.missing hw hle) (Nat.lt_succ_of_le hm).ne).absent

/-- The stack, the list, and the tree that the queue is to give, are the standard's. -/
structure Agrees (tree : DocumentTree) (s : ConstructionSite) (g : Agency) : Prop where
  stack : s.openElements = g.stack
  list : s.activeFormattingElements = g.list
  tree : effect s.taskQueue tree = g.tree

/-- A clone has a parent in the standard's tree, and none in the tree of the queue. -/
theorem cloning_round (rounds : Nat) (hw : s.WellFormed) (hfresh : Fresh tree s)
    (h : BlockRound s name c)
    (hclone : ∃ x ∈ c.between.take 3, x.node ∈ s.activeFormattingElements.nodes)
    (hloop : adoptionLoop name (rounds + 1) s = some s') :
    ¬ Agrees tree s' (Agency.loop name (rounds + 1) (s.view tree)) := by
  intro hagrees
  have hparent : (Agency.loop name (rounds + 1) (s.view tree)).tree.parent s.nextNode ≠ none := by
    unfold Agency.loop
    rw [h.standard_round hw]
    exact Agency.loop_keeps_parent name rounds (Agency.adoptBlock_clone_parent hclone)
  rw [← hagrees.tree] at hparent
  have hmissing : Missing tree s.nextNode s' := by
    unfold adoptionLoop at hloop
    rw [h.code_round hw] at hloop
    cases hadopt : s.adoptFurthestBlock c.formatting (c.commonAncestor :: c.below) c.block
        (c.between ++ c.formatting :: c.commonAncestor :: c.below) with
    | none =>
      rw [hadopt] at hloop
      cases hloop
    | some s₁ =>
      rw [hadopt] at hloop
      obtain ⟨l, hinner, hadopted⟩ := inner_of_adoptFurthestBlock hadopt
      have hclones := inner_clones _ c.between _ hinner rfl (fun x hx =>
        hw.above_ne h.found.stack x (List.mem_append_right _ (List.mem_cons_of_mem _ hx))) hclone
      have hround : s.adoptionRound name = some (.inl s₁) := by
        rw [h.code_round hw, hadopt]
        rfl
      have hnext : s.nextNode + 1 < s₁.nextNode := by
        rw [hadopted.nextNode]
        exact Nat.succ_lt_succ hclones
      refine loop_missing rounds hloop ?_ (Nat.lt_of_succ_lt hnext)
      exact round_goes_on_missing hround (hfresh.missing hw (Nat.le_refl _)) hnext.ne'
  exact hparent hmissing.absent.parent

/-- **Round by round, the two algorithms agree as long as nothing is cloned.** -/
theorem loop_agrees_iff (rounds : Nat) (hname : isFormattingTag name = true) (hw : s.WellFormed)
    (hfresh : Fresh tree s) :
    (∃ s', adoptionLoop name rounds s = some s' ∧
      Agrees tree s' (Agency.loop name rounds (s.view tree))) ↔ s.Spared name rounds := by
  induction rounds generalizing s with
  | zero =>
    constructor
    · intro _ f _ _
      trivial
    · intro _
      exact ⟨s, rfl, rfl, rfl, rfl⟩
  | succ rounds ih =>
    rcases round_cases tree hw hname with ⟨⟨s', hcode, hstandard⟩, hspared⟩ | ⟨c, h⟩
    · constructor
      · intro _
        exact hspared (rounds + 1)
      · intro _
        refine ⟨s', by simp only [adoptionLoop, hcode], ?_⟩
        simp only [Agency.loop, hstandard]
        exact ⟨rfl, rfl, rfl⟩
    · rw [h.spared_succ hw]
      rcases Classical.em (∀ x ∈ c.between.take 3, x.node ∉ s.activeFormattingElements.nodes) with
        hclean | hclone
      · obtain ⟨s', hround, hu⟩ := clean_round tree hw h hclean
        have hrest := ih (hu.wellFormed hw h) (hu.fresh hw hfresh hround)
        rw [hu.spared hw h] at hrest
        have hloop : adoptionLoop name (rounds + 1) s = adoptionLoop name rounds s' := by
          simp only [adoptionLoop, hround]
        have hstandard : Agency.loop name (rounds + 1) (s.view tree) =
            Agency.loop name rounds (s'.view tree) := by
          rw [hu.view]
          simp only [Agency.loop, h.standard_round hw]
        rw [hloop, hstandard, hrest]
        exact ⟨fun hunlisted => ⟨hclean, hunlisted⟩, fun hboth => hboth.2⟩
      · constructor
        · rintro ⟨s', hloop, hagrees⟩
          push Not at hclone
          exact absurd hagrees (cloning_round rounds hw hfresh h hclone hloop)
        · rintro ⟨hclean, -⟩
          exact absurd hclean hclone

/-- **The call leaves the stack, the list and the tree of the standard if and only if no element
between a furthest block and the formatting element is cloned.** -/
theorem call_the_adoption_agency_iff (s : ConstructionSite) (name : String) (tree : DocumentTree)
    (hname : isFormattingTag name = true) (hw : s.WellFormed) (hfresh : Fresh tree s) :
    (∃ s', s.callTheAdoptionAgency name = some s' ∧
      Agrees tree s' ((s.view tree).run name)) ↔ s.NoneCloned name :=
  loop_agrees_iff 8 hname hw hfresh

/-- The elements `1`, `2`, … of the names, each in the one before it; `0` is the document. -/
def nestedTree (names : List String) : DocumentTree where
  parent n := if 1 ≤ n ∧ n ≤ names.length then some (n - 1) else none
  children n := if n < names.length then [n + 1] else []

def nestedItems (names : List String) : List HTMLStackItem :=
  names.zipIdx.map fun (name, i) => ⟨i + 1, some ⟨name, [], .xhtml⟩⟩

/-- The site behind their start tags. -/
def nested (names : List String) : ConstructionSite where
  openElements := (nestedItems names).reverse
  rootNode := 1
  activeFormattingElements := ((nestedItems names).filter fun item =>
    item.token.any fun token => isFormattingTag token.localName).map some
  taskQueue := []
  nextNode := names.length + 1
  parentNode := (nestedTree names).parent

theorem nestedItems_nodes (names : List String) :
    (nestedItems names).map HTMLStackItem.node = (List.range' 0 names.length).map (· + 1) := by
  rw [← List.zipIdx_map_snd, nestedItems, List.map_map, List.map_map]
  rfl

theorem nestedItems_nodup (names : List String) :
    ((nestedItems names).map HTMLStackItem.node).Nodup := by
  rw [nestedItems_nodes]
  exact List.Nodup.map (fun i j hij => Nat.succ.inj hij) List.nodup_range'

theorem nestedItems_created {names : List String} {n : NodeId}
    (h : n ∈ (nestedItems names).map HTMLStackItem.node) : n < names.length + 1 := by
  rw [nestedItems_nodes] at h
  obtain ⟨i, hi, rfl⟩ := List.mem_map.mp h
  rw [List.mem_range'_1, Nat.zero_add] at hi
  exact Nat.succ_lt_succ hi.2

theorem nested_wellFormed (names : List String) : (nested ("html" :: names)).WellFormed := by
  have hlist : (nested ("html" :: names)).activeFormattingElements.nodes.Sublist
      ((nestedItems ("html" :: names)).map HTMLStackItem.node) := by
    unfold HTMLFormattingElementList.nodes nested
    rw [List.filterMap_map]
    simp only [Function.comp_def, id_eq, List.filterMap_some]
    exact List.filter_sublist.map _
  constructor
  · show ((nestedItems ("html" :: names)).reverse.map HTMLStackItem.node).Nodup
    rw [List.map_reverse, List.nodup_reverse]
    exact nestedItems_nodup _
  · exact (nestedItems_nodup _).sublist hlist
  · intro x hx y hy heq
    obtain ⟨z, hz, hzy⟩ := List.mem_map.mp hy
    obtain rfl := Option.some.inj hzy
    exact List.inj_on_of_nodup_map (nestedItems_nodup _) (List.mem_reverse.mp hx)
      (List.mem_of_mem_filter hz) heq
  · intro x hx
    exact nestedItems_created (List.mem_map_of_mem (List.mem_reverse.mp hx))
  · intro n hn
    exact nestedItems_created (hlist.subset hn)
  · refine ⟨(nestedItems ("html" :: names)).tail.reverse, ⟨1, some ⟨"html", [], .xhtml⟩⟩, ?_,
      by decide⟩
    exact List.reverse_cons

theorem nested_fresh (names : List String) : Fresh (nestedTree names) (nested names) := by
  intro m hm
  have hlt : names.length < m := hm
  constructor
  · show (if 1 ≤ m ∧ m ≤ names.length then some (m - 1) else none) = none
    rw [if_neg]
    exact fun hboth => Nat.not_le.mpr hlt hboth.2
  · intro p hp
    replace hp : m ∈ (if p < names.length then [p + 1] else []) := hp
    split at hp
    · rename_i hlt'
      rw [List.mem_singleton] at hp
      subst hp
      exact Nat.not_lt.mpr (Nat.succ_le_of_lt hlt') hlt
    · cases hp

theorem block_in_link_moved :
    ∃ s', (nested ["html", "body", "a", "p"]).callTheAdoptionAgency "a" = some s' ∧
      Agrees (nestedTree ["html", "body", "a", "p"]) s'
        (((nested ["html", "body", "a", "p"]).view
          (nestedTree ["html", "body", "a", "p"])).run "a") := by
  refine (call_the_adoption_agency_iff _ "a" _ (by decide) (nested_wellFormed _)
    (nested_fresh _)).mpr ?_
  intro f hf _
  obtain rfl : ⟨3, some ⟨"a", [], .xhtml⟩⟩ = f :=
    Option.some.inj ((by decide : _ = formattingElement _ "a").trans hf)
  refine ⟨?_, trivial⟩
  intro x hx
  cases hx

theorem clone_loses_its_entry :
    ¬ ∃ s', (nested ["html", "body", "a", "b", "p"]).callTheAdoptionAgency "a" = some s' ∧
      Agrees (nestedTree ["html", "body", "a", "b", "p"]) s'
        (((nested ["html", "body", "a", "b", "p"]).view
          (nestedTree ["html", "body", "a", "b", "p"])).run "a") := by
  rintro ⟨s', hcall, hagrees⟩
  have hcode : ((nested ["html", "body", "a", "b", "p"]).callTheAdoptionAgency "a").map
      (fun s => s.activeFormattingElements.nodes) = some [3] := by decide
  have hstandard : (((nested ["html", "body", "a", "b", "p"]).view
      (nestedTree ["html", "body", "a", "b", "p"])).run "a").list.nodes = [6] := by decide
  rw [hcall, Option.map_some, hagrees.list, hstandard] at hcode
  exact absurd hcode (by decide)

end ConstructionSite

end Blinkit.Html
