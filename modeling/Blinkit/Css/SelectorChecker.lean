import Blinkit.Lib.Asking
import Blinkit.Lib.Climb
import Blinkit.Css.CSSSelector
import Blinkit.Dom.NthIndexCache

/-!
# The selector checker

Translation of `selector_checker.cc` in the mode `kQueryingRules`, for the crawler, which has no
shadow trees: `OwnerShadowHost` and `ContainingShadowRoot` return null there, and `ParentElement`
is the parent element. A query disables `:visited`. The places of `:nth-*` are asked for.

* `ElementFacts` — what the checker reads of an element besides the tree.
* `checkOne`, `checkPseudoNot`, `checkAny`, `matchSelector` — the functions of the checker; with the
  status they return the dynamic pseudo-element of their `MatchResult`.
* `matchForRelation` — the combinators, with `forAncestors` and `forSiblings` for their loops.
* `Scan`, `scan` — which class of an ancestor a selector asks for, as a query looks for it.

Principal result: `matchSelector_ends`: the checker ends, and what it accepts has an ancestor of the
class that `scan` finds.
-/

set_option autoImplicit false

namespace Blinkit.Css

open Dom Dom.Attributes LinkedForest Asking

/-! ## The elements -/

structure ElementFacts extends ElementNames where
  isHTMLElement : NodeId → Bool
  /-- `IsHTMLDocument`, of a document. -/
  isHTMLDocument : NodeId → Bool
  /-- `documentElement`, of a document. -/
  documentElement : NodeId → Option NodeId
  classNames : NodeId → Option (List Str)
  idForStyleResolution : NodeId → Option Str
  /-- `InQuirksMode`, of a document. -/
  inQuirksMode : NodeId → Bool
  /-- `AnyAttributeMatches`. -/
  anyAttributeMatches : AttributeSelector → NodeId → Bool
  /-- The pseudo-classes that test the state of one element. -/
  state : Nat → NodeId → Bool

section Checker

variable (h : Heap) (facts : ElementFacts)

/-- `HasClassName`. -/
def ElementFacts.hasClassName (e : NodeId) (value : Str) : Bool :=
  (facts.classNames e).any fun names => names.contains value

/-- `LocalNameUpper`. -/
def localNameUpper (s : Str) : Str := s.map Char.toUpper

/-- The upper case names are compared for elements that are not HTML, in an HTML document. -/
def ElementFacts.comparesUpper (e : NodeId) : Bool :=
  !facts.isHTMLElement e && facts.isHTMLDocument (h.document e)

/-- `MatchesTagName` of the checker. -/
def matchesTagName (e : NodeId) (tag : TagQName) : Bool :=
  if tag = anyQName then true
  else if tag.localName ≠ none ∧ tag.localName ≠ some (facts.localName e) ∧
      (facts.comparesUpper h e = false ∨
        some (localNameUpper (facts.localName e)) ≠ tag.localName.map localNameUpper) then false
  else tag.namespaceURI == some starAtom || tag.namespaceURI == (facts.tagQName e).namespaceURI

/-- `parentElement`. -/
def parentElement (n : NodeId) : Option NodeId := (h.parentNode n).filter h.isElementNode

/-- `IsFirstChild`; a loop over the siblings may not end. -/
def isFirstChild (e : NodeId) : Option Bool :=
  (ElementTraversal.previousSibling h e).map Option.isNone

/-- `IsLastChild`. -/
def isLastChild (e : NodeId) : Option Bool := (ElementTraversal.nextSibling h e).map Option.isNone

/-- `IsFirstOfType`. -/
def isFirstOfType (e : NodeId) : Option Bool :=
  (ElementTraversal.previousSiblingMatch h (facts.hasTagName (facts.tagQName e)) e).map
    Option.isNone

/-- `IsLastOfType`. -/
def isLastOfType (e : NodeId) : Option Bool :=
  (ElementTraversal.nextSiblingMatch h (facts.hasTagName (facts.tagQName e)) e).map Option.isNone

/-! ## The checker -/

/-- `SelectorCheckingContext`, without the selector. -/
structure Context where
  element : NodeId
  scope : Option NodeId
  inRightmostCompound : Bool
  hasScrollbarPseudo : Bool

inductive MatchStatus where
  | selectorMatches
  | failsLocally
  | failsAllSiblings
  | failsCompletely
  deriving DecidableEq, Repr

/-- A computation of the checker. -/
abbrev Check := Asking NthQuery Nat

/-- A result with the dynamic pseudo-element. -/
abbrev Checked (α : Type) := Check (α × Option PseudoId)

/-- The four functions of `NthIndexCache`. -/
def NthPosition.query : NthPosition → NodeId → NthQuery
  | child => .nthChild
  | lastChild => .nthLastChild
  | ofType => .nthOfType
  | lastOfType => .nthLastOfType

/-- `CheckPseudoClass`, but for `:not` and `:-webkit-any`. -/
def checkPseudoClass (c : Context) : PseudoClass → Check Bool
  | .firstChild => ofOption (isFirstChild h c.element)
  | .lastChild => ofOption (isLastChild h c.element)
  | .onlyChild => (ofOption (isFirstChild h c.element)).bind fun first =>
      if first then ofOption (isLastChild h c.element) else .done false
  | .firstOfType => ofOption (isFirstOfType h facts c.element)
  | .lastOfType => ofOption (isLastOfType h facts c.element)
  | .onlyOfType => (ofOption (isFirstOfType h facts c.element)).bind fun first =>
      if first then ofOption (isLastOfType h facts c.element) else .done false
  | .nth position a b => question (position.query c.element) (matchNth a b)
  | .root => .done (facts.documentElement (h.document c.element) == some c.element)
  | .scope => .done (match c.scope with
      | none => false
      | some scope =>
        if scope = h.document c.element then
          facts.documentElement (h.document c.element) == some c.element
        else scope == c.element)
  | .other type => .done (facts.state type c.element)
  | .not => .done false
  | .any => .done false
  | .visited => .done false
  | .host => .done false
  | .hostContext => .done false

/-- `ScopeContainsLastMatchedElement`. -/
def scopeContainsLastMatchedElement (c : Context) : Bool :=
  c.scope.all fun scope => h.document scope == h.document c.element

/-- A pseudo-element whose pseudo-classes are those of a scrollbar. -/
def isScrollbarPseudo (dynamicPseudo : Option PseudoId) : Bool :=
  dynamicPseudo == some .scrollbarCorner || dynamicPseudo == some .resizer

/-- The loop over the elements that `next` goes through, until one decides the match. -/
def forElements (next : NodeId → Option (Option NodeId)) (stop : MatchStatus → Bool)
    (atEnd : MatchStatus) (check : NodeId → Option PseudoId → Checked MatchStatus) (rounds : Nat)
    (first : Option NodeId) : Checked MatchStatus :=
  tryEach next (fun m => stop m.1) (fun m => (atEnd, m.2)) (fun m e => check e m.2) rounds first
    (atEnd, none)

/-- The loop over the ancestors. -/
def forAncestors (element : NodeId) (check : NodeId → Option PseudoId → Checked MatchStatus) :
    Checked MatchStatus :=
  forElements (fun n => some (parentElement h n))
    (fun status => status == .selectorMatches || status == .failsCompletely) .failsCompletely check
    h.bound (parentElement h element)

/-- The loop over the siblings in front. -/
def forSiblings (element : NodeId) (check : NodeId → Option PseudoId → Checked MatchStatus) :
    Checked MatchStatus :=
  (ofOption (ElementTraversal.previousSibling h element)).bind fun first =>
    forElements (ElementTraversal.previousSibling h)
      (fun status => status == .selectorMatches || status == .failsAllSiblings ||
        status == .failsCompletely) .failsAllSiblings check h.bound first

/-- `MatchForRelation`; `matchNext` is `MatchSelector` with the rest of the tag history. -/
def matchForRelation (relation : RelationType) (affected : Bool) (tagHistory : CSSSelector)
    (c : Context) (matchNext : Context → Option PseudoId → Checked MatchStatus) :
    Checked MatchStatus :=
  let matchAt (e : NodeId) : Option PseudoId → Checked MatchStatus :=
    matchNext { c with element := e, inRightmostCompound := false }
  let scopeIsFragment := tagHistory.isLastScope && c.scope.any h.isDocumentFragment
  match relation with
  | .descendant | .shadowDeepAsDescendant =>
    if scopeIsFragment then .done (.selectorMatches, none)
    else if affected || tagHistory.simple.isShadow then .done (.failsCompletely, none)
    else forAncestors h c.element matchAt
  | .child =>
    if scopeIsFragment ∧ h.parentNode c.element = c.scope then .done (.selectorMatches, none)
    else if affected then .done (.failsLocally, none)
    else if tagHistory.simple.isShadow then .done (.failsCompletely, none)
    else match parentElement h c.element with
      | none => .done (.failsCompletely, none)
      | some parent => matchAt parent none
  | .directAdjacent =>
    if tagHistory.simple.isShadow then .done (.failsCompletely, none)
    else (ofOption (ElementTraversal.previousSibling h c.element)).bind fun sibling =>
      match sibling with
      | none => .done (.failsAllSiblings, none)
      | some sibling => matchAt sibling none
  | .indirectAdjacent =>
    if tagHistory.simple.isShadow then .done (.failsCompletely, none)
    else forSiblings h c.element matchAt
  | .shadowDeep =>
    if affected then .done (.failsCompletely, none) else forAncestors h c.element matchAt
  | .shadowPseudo | .shadowSlot | .shadowPart | .subSelector => .done (.failsCompletely, none)

mutual

/-- `CheckOne`, with `CheckPseudoClass`, `CheckScrollbarPseudoClass` and `CheckPseudoElement`. -/
def checkOne : SimpleSelector → Context → Checked Bool
  | .tag name, c => .done (matchesTagName h facts c.element name, none)
  | .className value, c => .done (facts.hasClassName c.element value, none)
  | .id value, c => .done (facts.idForStyleResolution c.element == some value, none)
  | .attr a, c => .done (facts.anyAttributeMatches a c.element, none)
  | .pseudoClass type selectorList, c =>
    if type = .not then checkPseudoNot selectorList c
    else if c.hasScrollbarPseudo then .done (false, none)
    else (if type = .any then checkAny selectorList c else checkPseudoClass h facts c type).bind
      fun b => .done (b, none)
  | .pseudoElement type selectorList, c =>
    match type with
    | .cue => (checkAny selectorList { c with scope := none }).bind fun b => .done (b, none)
    | .slotted => (checkAny selectorList { c with scope := none }).bind fun b => .done (b, none)
    | .dynamic id => .done (true, some id)
    | .content | .shadow | .absent => .done (false, none)

/-- `CheckPseudoNot`: the tag history of the first selector of the list. -/
def checkPseudoNot : CSSSelectorList → Context → Checked Bool
  | .nil, _ => .done (false, none)
  | .cons first _, c => checkNone first c none

/-- The loop of `CheckPseudoNot`. -/
def checkNone : CSSSelector → Context → Option PseudoId → Checked Bool
  | .last simple, c, dynamicPseudo =>
    if simple.isVisited then .done (true, dynamicPseudo)
    else (checkOne simple c).bind fun r => .done (!r.1, r.2.or dynamicPseudo)
  | .next simple _ _ tagHistory, c, dynamicPseudo =>
    if simple.isVisited then .done (true, dynamicPseudo)
    else (checkOne simple c).bind fun r =>
      if r.1 = false then .done (true, r.2.or dynamicPseudo)
      else checkNone tagHistory c (r.2.or dynamicPseudo)

/-- The loop over a selector list, each with a `MatchResult` of its own. -/
def checkAny : CSSSelectorList → Context → Check Bool
  | .nil, _ => .done false
  | .cons first rest, c =>
    (matchSelector first c none).bind fun r =>
      if r.1 = .selectorMatches then .done true else checkAny rest c

/-- `MatchSelector`, with `MatchForSubSelector`. -/
def matchSelector : CSSSelector → Context → Option PseudoId → Checked MatchStatus
  | .last simple, c, dynamicPseudo =>
    (checkOne simple c).bind fun r =>
      if r.1 = false then .done (.failsLocally, dynamicPseudo)
      else if scopeContainsLastMatchedElement h c = true then
        .done (.selectorMatches, r.2.or dynamicPseudo)
      else .done (.failsLocally, r.2.or dynamicPseudo)
  | .next simple relation affected tagHistory, c, dynamicPseudo =>
    (checkOne simple c).bind fun r =>
      if r.1 = false then .done (.failsLocally, dynamicPseudo)
      else
        let dynamicPseudo := r.2.or dynamicPseudo
        if relation = .subSelector then
          let hasScrollbarPseudo := isScrollbarPseudo dynamicPseudo
          if c.inRightmostCompound ∧ dynamicPseudo ≠ none ∧ dynamicPseudo ≠ some .selection ∧
              hasScrollbarPseudo = false then .done (.failsCompletely, dynamicPseudo)
          else matchSelector tagHistory { c with hasScrollbarPseudo } dynamicPseudo
        else
          -- the dynamic pseudo-element is reset for the relation, and restored behind it
          (matchForRelation h relation affected tagHistory c
            fun c dynamicPseudo => matchSelector tagHistory c dynamicPseudo).bind
            fun m => .done (m.1, dynamicPseudo)

end

end Checker

/-! ## The elements that its loops go through -/

section Chains

variable {h : Heap} {ch : NodeId → List NodeId} {e a x : NodeId}

/-- The steps lead from `e` through `r`, inside the bound of the loops. -/
structure Goes (h : Heap) (step : NodeId → Option (Option NodeId)) (e : NodeId)
    (r : List NodeId) : Prop where
  through : ∃ l, StepsThrough step (l ++ r)
  first : step e = some r.head?
  length : r.length ≤ h.bound

theorem Goes.isNone {step : NodeId → Option (Option NodeId)} {r : List NodeId}
    (g : Goes h step e r) : (step e).map Option.isNone = some r.isEmpty := by
  rw [g.first]
  cases r <;> rfl

theorem Goes.seek {step : NodeId → Option (Option NodeId)} {r : List NodeId}
    (g : Goes h step e r) (isMatch : NodeId → Bool) :
    (step e).bind (LinkedForest.seek isMatch step h.bound) = some (r.find? isMatch) := by
  obtain ⟨l, hthrough⟩ := g.through
  rw [g.first, Option.bind_some]
  exact seek_behind (fun k x hx _ => hthrough k x hx) g.length

theorem parentElement_iff : parentElement h e = some x ↔
    h.parentNode e = some x ∧ h.isElementNode x = true := Option.filter_eq_some_iff

theorem above_of_parentElement (ha : Above (parentElement h) e a) :
    Above h.links.parent e a := ha.mono fun _ _ hp => (parentElement_iff.mp hp).1

/-- `a` is an element above `e`, and so is every node between them. -/
def ElementAbove (h : Heap) (e a : NodeId) : Prop :=
  ∃ p, parentElement h e = some p ∧ Above (parentElement h) p a

theorem ElementAbove.isElementNode (ha : ElementAbove h e a) : h.isElementNode a = true := by
  obtain ⟨p, hp, habove⟩ := ha
  rcases above_iff_tail.mp habove with rfl | ⟨b, -, hb⟩
  · exact (parentElement_iff.mp hp).2
  · exact (parentElement_iff.mp hb).2

theorem ElementAbove.trans (hx : ElementAbove h e x) (ha : ElementAbove h x a) :
    ElementAbove h e a := by
  obtain ⟨p, hp, hpx⟩ := hx
  obtain ⟨q, hq, hqa⟩ := ha
  exact ⟨p, hp, (hpx.trans (Above.of_parent hq)).trans hqa⟩

/-- Nodes with one parent are below the same elements. -/
theorem ElementAbove.of_sibling (hsame : h.parentNode x = h.parentNode e)
    (ha : ElementAbove h x a) : ElementAbove h e a := by
  obtain ⟨p, hp, hpa⟩ := ha
  refine ⟨p, ?_, hpa⟩
  unfold parentElement at hp ⊢
  rwa [← hsame]

/-- The elements from `e` upwards. -/
theorem parentElement_climbs (w : WellFormed h ch) (e : NodeId) :
    ∃ r, Climbs (parentElement h) (some e) (e :: r) ∧ (e :: r).length ≤ h.bound := by
  have hacyclic : Acyclic (parentElement h) := fun x y hp habove =>
    w.acyclic x y (parentElement_iff.mp hp).1 (above_of_parentElement habove)
  have hcard : (Finset.range h.size).card < h.bound := by
    rw [Finset.card_range]
    exact Nat.lt_succ_self _
  obtain ⟨as, has⟩ := walk_parent_of_acyclic hacyclic
    (fun x y hp => Finset.mem_range.mpr (w.allocated x y (parentElement_iff.mp hp).1).1) e hcard
  obtain ⟨hclimbs, hlength⟩ := climbs_of_walk has
  cases as with
  | nil => cases hclimbs
  | cons b r =>
    obtain rfl := Option.some.inj hclimbs.1
    exact ⟨r, hclimbs, hlength⟩

/-- What is on the way up from the parent is above. -/
theorem mem_climbs_iff {r : List NodeId} (hr : Climbs (parentElement h) (parentElement h e) r) :
    a ∈ r ↔ ElementAbove h e a := by
  cases hp : parentElement h e with
  | none =>
    rw [hp] at hr
    cases r with
    | nil =>
      refine iff_of_false List.not_mem_nil ?_
      rintro ⟨p, hp', -⟩
      rw [hp] at hp'
      cases hp'
    | cons _ _ => cases hr.1
  | some p =>
    rw [hp] at hr
    constructor
    · exact fun ha => ⟨p, hp, hr.above ha⟩
    · rintro ⟨q, hq, hqa⟩
      rw [hp] at hq
      obtain rfl := Option.some.inj hq
      exact hr.mem_of_above hqa

/-- **`ParentElement` goes through the elements above.** -/
theorem parentElement_goes (w : WellFormed h ch) (e : NodeId) :
    ∃ r, Goes h (fun n => some (parentElement h n)) e r ∧
      Climbs (parentElement h) (parentElement h e) r := by
  obtain ⟨r, ⟨-, hr⟩, hlength⟩ := parentElement_climbs w e
  rw [List.length_cons] at hlength
  exact ⟨r, ⟨⟨[], hr.steps⟩, congrArg some hr.head, by omega⟩, hr⟩

theorem goes_nowhere {step : NodeId → Option (Option NodeId)} (hstep : step e = some none) :
    Goes h step e [] :=
  ⟨⟨[], fun _ _ hx => nomatch hx⟩, hstep, Nat.zero_le _⟩

/-- The siblings in front of an element, in tree order. -/
def earlierSiblings (h : Heap) (e : NodeId) : List NodeId :=
  (elementSiblings h e).takeWhile (· ≠ e)

theorem elementSiblings_detached (hp : h.parentNode e = none) : elementSiblings h e = [] := by
  unfold elementSiblings
  rw [hp]

/-- **`PreviousSibling` goes through the earlier siblings.** -/
theorem previousSibling_goes (w : WellFormed h ch) (he : h.isElementNode e = true) :
    Goes h (ElementTraversal.previousSibling h) e (earlierSiblings h e).reverse := by
  unfold earlierSiblings
  cases hp : h.parentNode e with
  | none =>
    rw [elementSiblings_detached hp]
    exact goes_nowhere (siblings_detached w hp).1
  | some p =>
    obtain ⟨l, r, hsplit⟩ := around w he hp
    have hthrough := hsplit.previous w
    rw [hsplit.before]
    exact ⟨⟨r.reverse ++ [e], by rwa [List.append_assoc]⟩, hthrough.step_eq,
      hsplit.previous_bound w⟩

/-- An earlier sibling is an element with the same parent; its own earlier siblings are those in
front of it. -/
theorem earlierSiblings_split (w : WellFormed h ch) (he : h.isElementNode e = true)
    {l r : List NodeId} (hsplit : earlierSiblings h e = l ++ x :: r) :
    h.isElementNode x = true ∧ h.parentNode x = h.parentNode e ∧ earlierSiblings h x = l := by
  unfold earlierSiblings at hsplit ⊢
  cases hp : h.parentNode e with
  | none =>
    rw [elementSiblings_detached hp] at hsplit
    exact absurd hsplit.symm (by simp)
  | some p =>
    obtain ⟨l', r', ha⟩ := around w he hp
    rw [ha.before] at hsplit
    have hchildren := ha.children
    have hnodup := elementChildren_nodup w p
    have hmem : x ∈ elementChildren h p := by
      rw [hchildren, hsplit]
      simp
    rw [hchildren, hsplit] at hnodup
    rw [elementChildren_eq w] at hmem
    obtain ⟨hchild, helement⟩ := List.mem_filter.mp hmem
    have hparent := w.mem_iff.mp hchild
    refine ⟨helement, hparent, ?_⟩
    have hsiblings : elementSiblings h x = l ++ x :: (r ++ e :: r') := by
      unfold elementSiblings
      rw [show h.parentNode x = some p from hparent]
      show elementChildren h p = _
      rw [hchildren, hsplit, List.append_assoc]
      rfl
    rw [hsiblings]
    refine ChildLists.takeWhile_ne_append fun hx => ?_
    rw [List.append_assoc, List.cons_append] at hnodup
    exact (List.nodup_append.mp hnodup).2.2 x hx x List.mem_cons_self rfl

theorem mem_earlierSiblings (w : WellFormed h ch) (he : h.isElementNode e = true)
    (hx : x ∈ earlierSiblings h e) :
    h.isElementNode x = true ∧ h.parentNode x = h.parentNode e := by
  obtain ⟨l, r, hsplit⟩ := List.append_of_mem hx
  obtain ⟨helement, hparent, -⟩ := earlierSiblings_split w he hsplit
  exact ⟨helement, hparent⟩

/-- **`NextSibling` goes through the siblings behind.** -/
theorem nextSibling_goes (w : WellFormed h ch) (he : h.isElementNode e = true) :
    Goes h (ElementTraversal.nextSibling h) e
      ((elementSiblings h e).reverse.takeWhile (· ≠ e)).reverse := by
  cases hp : h.parentNode e with
  | none =>
    rw [elementSiblings_detached hp]
    exact goes_nowhere (siblings_detached w hp).2
  | some p =>
    obtain ⟨l, r, hsplit⟩ := around w he hp
    have hthrough := hsplit.next w
    have hbound := hsplit.length w
    rw [hsplit.behind, List.reverse_reverse]
    exact ⟨⟨l ++ [e], by rwa [List.append_assoc]⟩, hthrough.step_eq, by omega⟩

end Chains

/-! ## The class that a selector asks for -/

/-- The class that `FindTraverseRootsAndExecute` stops at, in the rightmost compound or behind it. -/
inductive Scan where
  | wholeTree
  | rightmostClass
  | rootsWithClass (className : Str)
  deriving DecidableEq, Repr

def SimpleSelector.classValue : SimpleSelector → Option Str
  | .className value => some value
  | _ => none

/-- What the scan says at one simple selector. -/
def SimpleSelector.scan (s : SimpleSelector) (rightmost affected : Bool) : Option Scan :=
  if affected then none
  else s.classValue.map fun value => if rightmost then .rightmostClass else .rootsWithClass value

/-- The loop over the tag history. -/
def scan : CSSSelector → Bool → Bool → Scan
  | .last simple, rightmost, affected => (simple.scan rightmost affected).getD .wholeTree
  | .next simple relation _ tagHistory, rightmost, affected =>
    (simple.scan rightmost affected).getD
      (if relation = .subSelector then scan tagHistory rightmost affected
      else scan tagHistory false relation.isAdjacent)

section Classes

variable {h : Heap} {facts : ElementFacts} {e x : NodeId} {value : Str}

/-- An element above `e` has the class, or `e` itself when it need not be a proper ancestor. -/
def HasClassAbove (h : Heap) (facts : ElementFacts) (proper : Bool) (e : NodeId) (value : Str) :
    Prop :=
  ∃ a, (ElementAbove h e a ∨ (proper = false ∧ a = e)) ∧ facts.hasClassName a value = true

theorem HasClassAbove.any (ha : HasClassAbove h facts true e value) (proper : Bool) :
    HasClassAbove h facts proper e value := by
  obtain ⟨a, hplace, hclass⟩ := ha
  exact ⟨a, .inl (hplace.resolve_right fun hself => nomatch hself.1), hclass⟩

/-- From an ancestor. -/
theorem HasClassAbove.of_above (hx : ElementAbove h e x)
    (ha : HasClassAbove h facts false x value) : HasClassAbove h facts true e value := by
  obtain ⟨a, habove | ⟨-, rfl⟩, hclass⟩ := ha
  · exact ⟨a, .inl (hx.trans habove), hclass⟩
  · exact ⟨a, .inl hx, hclass⟩

theorem HasClassAbove.of_sibling (hsame : h.parentNode x = h.parentNode e)
    (ha : HasClassAbove h facts true x value) : HasClassAbove h facts true e value := by
  obtain ⟨a, hplace, hclass⟩ := ha
  have habove := hplace.resolve_right fun hself => nomatch hself.1
  exact ⟨a, .inl (habove.of_sibling hsame), hclass⟩

/-- Around an element that the selector accepts there is the class that the scan finds in it. -/
def Carries (h : Heap) (facts : ElementFacts) (s : CSSSelector) (e : NodeId) : Prop :=
  ∀ rightmost affected value, scan s rightmost affected = .rootsWithClass value →
    HasClassAbove h facts (rightmost || affected) e value

/-- A class that the scan stops at is the class of the element. -/
theorem hasClassAbove_of_scan {simple : SimpleSelector} {rightmost affected : Bool}
    (hclass : ∀ v, simple = .className v → facts.hasClassName e v = true)
    (hscan : simple.scan rightmost affected = some (.rootsWithClass value)) :
    HasClassAbove h facts (rightmost || affected) e value := by
  unfold SimpleSelector.scan at hscan
  split at hscan
  · cases hscan
  · rename_i haffected
    obtain ⟨v, hv, hscan⟩ := Option.map_eq_some_iff.mp hscan
    split at hscan
    · cases hscan
    · rename_i hrightmost
      cases hscan
      refine ⟨e, .inr ⟨?_, rfl⟩, hclass value ?_⟩
      · rw [Bool.not_eq_true] at hrightmost haffected
        rw [hrightmost, haffected]
        rfl
      · cases simple <;> cases hv
        rfl

theorem carries_last {simple : SimpleSelector}
    (hclass : ∀ v, simple = .className v → facts.hasClassName e v = true) :
    Carries h facts (.last simple) e := by
  intro rightmost affected value hscan
  unfold scan at hscan
  cases hfound : simple.scan rightmost affected with
  | none =>
    rw [hfound] at hscan
    cases hscan
  | some found =>
    rw [hfound] at hscan
    obtain rfl : found = .rootsWithClass value := hscan
    exact hasClassAbove_of_scan hclass hfound

theorem carries_next {simple : SimpleSelector} {relation : RelationType} {affectedBy : Bool}
    {tagHistory : CSSSelector} (hclass : ∀ v, simple = .className v → facts.hasClassName e v = true)
    (hsub : relation = .subSelector → Carries h facts tagHistory e)
    (hrelation : relation ≠ .subSelector → ∀ v,
      scan tagHistory false relation.isAdjacent = .rootsWithClass v →
        HasClassAbove h facts true e v) :
    Carries h facts (.next simple relation affectedBy tagHistory) e := by
  intro rightmost affected value hscan
  unfold scan at hscan
  cases hfound : simple.scan rightmost affected with
  | some found =>
    rw [hfound] at hscan
    obtain rfl : found = .rootsWithClass value := hscan
    exact hasClassAbove_of_scan hclass hfound
  | none =>
    rw [hfound, Option.getD_none] at hscan
    split at hscan
    · rename_i hrel
      exact hsub hrel rightmost affected value hscan
    · rename_i hrel
      exact (hrelation hrel value hscan).any _

/-- `:scope` alone asks for no class. -/
theorem scan_of_isLastScope {s : CSSSelector} (hs : s.isLastScope = true)
    (rightmost affected : Bool) : scan s rightmost affected = .wholeTree := by
  cases s with
  | next _ _ _ _ => cases hs
  | last simple =>
    have hclass : simple.classValue = none := by
      cases simple <;> first | rfl | cases hs
    unfold scan SimpleSelector.scan
    rw [hclass]
    split <;> rfl

end Classes

/-! ## The checker ends -/

section Ends

variable {h : Heap} {facts : ElementFacts} {ch : NodeId → List NodeId} {answer : NthQuery → Nat}
  {e : NodeId} {S : NodeId → MatchStatus × Option PseudoId → Prop}
  {check : NodeId → Option PseudoId → Checked MatchStatus}

/-- A question about an element. -/
def OfElement (h : Heap) (q : NthQuery) : Prop := h.isElementNode q.element = true

theorem isFirstOfType_total (w : WellFormed h ch) (facts : ElementFacts) (he : h.isElementNode e = true) :
    ∃ b, isFirstOfType h facts e = some b := by
  unfold isFirstOfType ElementTraversal.previousSiblingMatch
  rw [(previousSibling_goes w he).seek]
  exact ⟨_, rfl⟩

theorem isLastOfType_total (w : WellFormed h ch) (facts : ElementFacts) (he : h.isElementNode e = true) :
    ∃ b, isLastOfType h facts e = some b := by
  unfold isLastOfType ElementTraversal.nextSiblingMatch
  rw [(nextSibling_goes w he).seek]
  exact ⟨_, rfl⟩

theorem isFirstChild_total (w : WellFormed h ch) (he : h.isElementNode e = true) :
    ∃ b, isFirstChild h e = some b := ⟨_, (previousSibling_goes w he).isNone⟩

theorem isLastChild_total (w : WellFormed h ch) (he : h.isElementNode e = true) :
    ∃ b, isLastChild h e = some b := ⟨_, (nextSibling_goes w he).isNone⟩

/-- Two tests, the second of which is made when the first is passed. -/
theorem bothTests_ends {first second : Option Bool} (hfirst : ∃ b, first = some b)
    (hsecond : ∃ b, second = some b) :
    ((ofOption first).bind fun b => if b then ofOption second else .done false :
      Check Bool).Ends answer (OfElement h) fun _ _ => True := by
  obtain ⟨b, hb⟩ := hfirst
  obtain ⟨b', hb'⟩ := hsecond
  refine Ends.bind (S := fun _ _ => True) (.ofOption hb trivial) fun b _ _ => ?_
  split
  · exact .ofOption hb' trivial
  · exact .done trivial

theorem NthPosition.query_element (position : NthPosition) (e : NodeId) :
    (position.query e).element = e := by cases position <;> rfl

theorem checkPseudoClass_ends (w : WellFormed h ch) {c : Context}
    (he : h.isElementNode c.element = true) (type : PseudoClass) :
    (checkPseudoClass h facts c type).Ends answer (OfElement h) fun _ _ => True := by
  have hfirst := isFirstChild_total w he
  have hlast := isLastChild_total w he
  have hfirstOfType := isFirstOfType_total w facts he
  have hlastOfType := isLastOfType_total w facts he
  cases type with
  | firstChild => exact hfirst.elim fun b hb => .ofOption hb trivial
  | lastChild => exact hlast.elim fun b hb => .ofOption hb trivial
  | onlyChild => exact bothTests_ends hfirst hlast
  | firstOfType => exact hfirstOfType.elim fun b hb => .ofOption hb trivial
  | lastOfType => exact hlastOfType.elim fun b hb => .ofOption hb trivial
  | onlyOfType => exact bothTests_ends hfirstOfType hlastOfType
  | nth position a b =>
    refine .question ?_ trivial
    unfold OfElement
    rwa [NthPosition.query_element]
  | _ => exact .done trivial

/-- **A loop of a combinator.** `D` is what holds of the dynamic pseudo-element in every round. -/
theorem forElements_ends {step : NodeId → Option (Option NodeId)} {stop : MatchStatus → Bool}
    {atEnd : MatchStatus} {r : List NodeId} {D : Option PseudoId → Prop} (g : Goes h step e r)
    (hcheck : ∀ a ∈ r, ∀ d, D d → (check a d).Ends answer (OfElement h) fun m _ => S a m)
    (hD : ∀ a m, S a m → D m.2) (hnone : D none) :
    (forElements step stop atEnd check h.bound r.head?).Ends answer (OfElement h) fun m _ =>
      Searched (fun m => stop m.1) S (fun m => m.1 = atEnd ∧ D m.2) r m := by
  obtain ⟨l, hthrough⟩ := g.through
  exact Ends.tryEach hthrough (fun a ha m hm => hcheck a ha m.2 hm.2) ⟨rfl, hnone⟩
    (fun a m hm => ⟨rfl, hD a m hm⟩) g.length

/-- The loop over the ancestors. -/
theorem forAncestors_ends (w : WellFormed h ch)
    (hcheck : ∀ a, ElementAbove h e a → ∀ d,
      (check a d).Ends answer (OfElement h) fun m _ => S a m) :
    (forAncestors h e check).Ends answer (OfElement h) fun m _ =>
      m.1 = .selectorMatches → ∃ a, ElementAbove h e a ∧ S a m := by
  obtain ⟨r, g, hr⟩ := parentElement_goes w e
  unfold forAncestors
  rw [Option.some.inj g.first]
  refine (forElements_ends (D := fun _ => True) g
    (fun a ha d _ => hcheck a ((mem_climbs_iff hr).mp ha) d)
    (fun _ _ _ => trivial) trivial).mono fun m _ hm hmatches => ?_
  obtain ⟨a, ha, hS⟩ := hm.found fun hend => by
    rw [hend.1] at hmatches
    cases hmatches
  exact ⟨a, (mem_climbs_iff hr).mp ha, hS⟩

/-- The loop over the siblings. -/
theorem forSiblings_ends (w : WellFormed h ch) (he : h.isElementNode e = true)
    (hcheck : ∀ x, h.isElementNode x = true → ∀ d,
      (check x d).Ends answer (OfElement h) fun m _ => S x m) :
    (forSiblings h e check).Ends answer (OfElement h) fun m _ =>
      m.1 = .selectorMatches → ∃ x, h.parentNode x = h.parentNode e ∧ S x m := by
  have g := previousSibling_goes w he
  unfold forSiblings
  refine Ends.bind (S := fun first _ => first = (earlierSiblings h e).reverse.head?)
    (.ofOption g.first rfl) ?_
  rintro _ - rfl
  refine (forElements_ends (D := fun _ => True) g
    (fun x hx d _ => hcheck x (mem_earlierSiblings w he (List.mem_reverse.mp hx)).1 d)
    (fun _ _ _ => trivial) trivial).mono fun m _ hm hmatches => ?_
  obtain ⟨x, hx, hS⟩ := hm.found fun hend => by
    rw [hend.1] at hmatches
    cases hmatches
  exact ⟨x, (mem_earlierSiblings w he (List.mem_reverse.mp hx)).2, hS⟩

/-- **The combinators.** What is accepted has the class that the scan finds behind the combinator. -/
theorem matchForRelation_ends (w : WellFormed h ch) {relation : RelationType} (affected : Bool)
    {tagHistory : CSSSelector} {c : Context} (he : h.isElementNode c.element = true)
    {matchNext : Context → Option PseudoId → Checked MatchStatus}
    (hnext : ∀ c' d, h.isElementNode c'.element = true →
      (matchNext c' d).Ends answer (OfElement h) fun m _ =>
        m.1 = .selectorMatches → Carries h facts tagHistory c'.element) :
    (matchForRelation h relation affected tagHistory c matchNext).Ends answer (OfElement h)
      fun m _ => m.1 = .selectorMatches → ∀ v,
        scan tagHistory false relation.isAdjacent = .rootsWithClass v →
          HasClassAbove h facts true c.element v := by
  have hfragment : (tagHistory.isLastScope && c.scope.any h.isDocumentFragment) = true →
      ∀ adjacent v, scan tagHistory false adjacent ≠ .rootsWithClass v := by
    intro hscope adjacent v hscan
    rw [scan_of_isLastScope (Bool.and_eq_true_iff.mp hscope).1] at hscan
    cases hscan
  have hfails : ∀ (status : MatchStatus) (adjacent : Bool), status ≠ .selectorMatches →
      (Asking.done (status, none) : Checked MatchStatus).Ends answer (OfElement h)
        fun m _ => m.1 = .selectorMatches → ∀ v,
          scan tagHistory false adjacent = .rootsWithClass v →
            HasClassAbove h facts true c.element v :=
    fun _ _ hne => .done fun hmatches => absurd hmatches hne
  have hancestors : (forAncestors h c.element fun a d =>
      matchNext { c with element := a, inRightmostCompound := false } d).Ends answer (OfElement h)
        fun m _ => m.1 = .selectorMatches → ∀ v,
          scan tagHistory false false = .rootsWithClass v →
            HasClassAbove h facts true c.element v := by
    refine (forAncestors_ends w fun a ha d => hnext _ d ha.isElementNode).mono ?_
    intro m _ hm hmatches v hscan
    obtain ⟨a, ha, hcarries⟩ := hm hmatches
    exact (hcarries hmatches false false v hscan).of_above ha
  have hsibling : ∀ x, h.parentNode x = h.parentNode c.element →
      Carries h facts tagHistory x → ∀ v, scan tagHistory false true = .rootsWithClass v →
        HasClassAbove h facts true c.element v :=
    fun _ hsame hcarries v hscan => (hcarries false true v hscan).of_sibling hsame
  unfold matchForRelation
  cases relation with
  | descendant | shadowDeepAsDescendant =>
    dsimp only
    split
    · rename_i hscope
      exact .done fun _ v hscan => absurd hscan (hfragment hscope _ v)
    · split
      · exact hfails _ _ (by decide)
      · exact hancestors
  | child =>
    dsimp only
    split
    · rename_i hscope
      exact .done fun _ v hscan => absurd hscan (hfragment hscope.1 _ v)
    · split
      · exact hfails _ _ (by decide)
      · split
        · exact hfails _ _ (by decide)
        · cases hp : parentElement h c.element with
          | none => exact hfails _ _ (by decide)
          | some p =>
            have ha : ElementAbove h c.element p := ⟨p, hp, .refl p⟩
            refine (hnext _ none ha.isElementNode).mono fun m _ hm hmatches v hscan => ?_
            exact (hm hmatches false false v hscan).of_above ha
  | directAdjacent =>
    dsimp only
    split
    · exact hfails _ _ (by decide)
    · have g := previousSibling_goes w he
      refine Ends.bind (S := fun first _ => first = (earlierSiblings h c.element).reverse.head?)
        (.ofOption g.first rfl) ?_
      rintro _ - rfl
      cases hfirst : (earlierSiblings h c.element).reverse.head? with
      | none => exact hfails _ _ (by decide)
      | some x =>
        obtain ⟨hx, hsame⟩ := mem_earlierSiblings w he
          (List.mem_reverse.mp (List.mem_of_head? hfirst))
        exact (hnext _ none hx).mono fun m _ hm hmatches => hsibling x hsame (hm hmatches)
  | indirectAdjacent =>
    dsimp only
    split
    · exact hfails _ _ (by decide)
    · refine (forSiblings_ends w he fun x hx d => hnext _ d hx).mono fun m _ hm hmatches => ?_
      obtain ⟨x, hsame, hcarries⟩ := hm hmatches
      exact hsibling x hsame (hcarries hmatches)
  | shadowDeep =>
    dsimp only
    split
    · exact hfails _ _ (by decide)
    · exact hancestors
  | _ => exact hfails _ _ (by decide)

mutual

theorem checkOne_ends (w : WellFormed h ch) (s : SimpleSelector) (c : Context)
    (he : h.isElementNode c.element = true) :
    (checkOne h facts s c).Ends answer (OfElement h) fun r _ => r.1 = true →
      ∀ v, s = .className v → facts.hasClassName c.element v = true := by
  cases s with
  | className value =>
    unfold checkOne
    refine .done fun hclass v hv => ?_
    cases hv
    exact hclass
  | tag name => exact .done fun _ v hv => nomatch hv
  | id value => exact .done fun _ v hv => nomatch hv
  | attr a => exact .done fun _ v hv => nomatch hv
  | pseudoClass type selectorList =>
    unfold checkOne
    split
    · exact (checkPseudoNot_ends w selectorList c he).mono fun _ _ _ _ v hv => nomatch hv
    · split
      · exact .done fun _ v hv => nomatch hv
      · refine Ends.bind (S := fun _ _ => True) ?_ fun b _ _ => .done fun _ v hv => nomatch hv
        split
        · exact checkAny_ends w selectorList c he
        · exact checkPseudoClass_ends w he type
  | pseudoElement type selectorList =>
    unfold checkOne
    have hlist := checkAny_ends w selectorList { c with scope := none } he
    cases type with
    | cue => exact hlist.bind fun b _ _ => .done fun _ v hv => nomatch hv
    | slotted => exact hlist.bind fun b _ _ => .done fun _ v hv => nomatch hv
    | _ => exact .done fun _ v hv => nomatch hv

theorem checkPseudoNot_ends (w : WellFormed h ch) (l : CSSSelectorList) (c : Context)
    (he : h.isElementNode c.element = true) :
    (checkPseudoNot h facts l c).Ends answer (OfElement h) fun _ _ => True := by
  cases l with
  | nil => exact .done trivial
  | cons first rest =>
    unfold checkPseudoNot
    exact checkNone_ends w first c none he

theorem checkNone_ends (w : WellFormed h ch) (s : CSSSelector) (c : Context)
    (d : Option PseudoId) (he : h.isElementNode c.element = true) :
    (checkNone h facts s c d).Ends answer (OfElement h) fun _ _ => True := by
  cases s with
  | last simple =>
    unfold checkNone
    split
    · exact .done trivial
    · exact (checkOne_ends w simple c he).bind fun r _ _ => .done trivial
  | next simple relation affected tagHistory =>
    unfold checkNone
    split
    · exact .done trivial
    · refine (checkOne_ends w simple c he).bind fun r _ _ => ?_
      split
      · exact .done trivial
      · exact checkNone_ends w tagHistory c _ he

theorem checkAny_ends (w : WellFormed h ch) (l : CSSSelectorList) (c : Context)
    (he : h.isElementNode c.element = true) :
    (checkAny h facts l c).Ends answer (OfElement h) fun _ _ => True := by
  cases l with
  | nil => exact .done trivial
  | cons first rest =>
    unfold checkAny
    refine (matchSelector_ends w first c none he).bind fun r _ _ => ?_
    split
    · exact .done trivial
    · exact checkAny_ends w rest c he

/-- **The checker ends**, and what it accepts has the class that the scan finds. -/
theorem matchSelector_ends (w : WellFormed h ch) (s : CSSSelector) (c : Context)
    (d : Option PseudoId) (he : h.isElementNode c.element = true) :
    (matchSelector h facts s c d).Ends answer (OfElement h) fun m _ =>
      m.1 = .selectorMatches → Carries h facts s c.element := by
  cases s with
  | last simple =>
    unfold matchSelector
    refine (checkOne_ends w simple c he).bind fun r _ hclass => ?_
    split
    · exact .done fun hmatches => nomatch hmatches
    · rename_i htrue
      have hcarries : Carries h facts (.last simple) c.element :=
        carries_last (hclass (by simpa using htrue))
      split <;> exact .done fun _ => hcarries
  | next simple relation affected tagHistory =>
    unfold matchSelector
    refine (checkOne_ends w simple c he).bind fun r _ hclass => ?_
    split
    · exact .done fun hmatches => nomatch hmatches
    · rename_i htrue
      have hsimple := hclass (by simpa using htrue)
      dsimp only
      split
      · rename_i hrel
        split
        · exact .done fun hmatches => nomatch hmatches
        · refine (matchSelector_ends w tagHistory
            { c with hasScrollbarPseudo := isScrollbarPseudo (r.2.or d) } _ he).mono ?_
          intro m _ hm hmatches
          exact carries_next hsimple (fun _ => hm hmatches) fun hne => absurd hrel hne
      · rename_i hrel
        refine (matchForRelation_ends w affected he fun c' d' he' =>
          matchSelector_ends w tagHistory c' d' he').bind fun m _ hm => .done fun hmatches => ?_
        exact carries_next hsimple (fun heq => absurd heq hrel) fun _ => hm hmatches

end

end Ends

end Blinkit.Css
