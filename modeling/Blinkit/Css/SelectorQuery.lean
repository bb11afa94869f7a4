import Blinkit.Css.SelectorChecker

/-!
# Queries

Translation of `selector_query.cpp`. The paths that end in `ASSERT(false)` leave the output as it
is.

* `SelectorQueryTrait` — how a query collects: all elements, or the first.
* `SelectorQuery.ofList` — the constructor.
* `SelectorQuery.execute` — the query, with `collectElementsByTagName`, `executeForTraverseRoot` and
  `findTraverseRootsAndExecute`; it asks for the places of `:nth-*`.
* `SelectorQuery.queryAll`, `queryFirst` — the query with an `NthIndexCache` of its own; `none` is
  an exception.
* `SelectorQuery.tried` — the elements that a collecting loop tests.

Principal results: `forDescendants_ends` and `forClassRoots_ends`: what the loops collect, and the
elements they test.
-/

set_option autoImplicit false

namespace Blinkit.Css

open Dom Dom.Attributes LinkedForest Asking

/-- `AllElementsSelectorQueryTrait` and `SingleElementSelectorQueryTrait`, with the output that a
query starts from. -/
structure SelectorQueryTrait (Output : Type) where
  kShouldOnlyMatchFirstElement : Bool
  empty : Output
  isEmpty : Output → Bool
  appendElement : Output → NodeId → Output
  isEmpty_empty : isEmpty empty = true
  isEmpty_append : ∀ out e, isEmpty (appendElement out e) = false

def SelectorQueryTrait.allElements : SelectorQueryTrait (List NodeId) where
  kShouldOnlyMatchFirstElement := false
  empty := []
  isEmpty := List.isEmpty
  appendElement out e := out ++ [e]
  isEmpty_empty := rfl
  isEmpty_append out e := by cases out <;> rfl

def SelectorQueryTrait.singleElement : SelectorQueryTrait (Option NodeId) where
  kShouldOnlyMatchFirstElement := true
  empty := none
  isEmpty := Option.isNone
  appendElement _ e := some e
  isEmpty_empty := rfl
  isEmpty_append _ _ := rfl

/-! ## The constructor -/

def CSSSelectorList.toList : CSSSelectorList → List CSSSelector
  | .nil => []
  | .cons first rest => first :: rest.toList

/-- The identifier that `#id` or `[id=value]` asks for. -/
def SimpleSelector.idValue : SimpleSelector → Option Str
  | .id value => some value
  | .attr a => if a.kind = .exact ∧ a.name = kIdAttr ∧ a.isCaseSensitive then some a.value else none
  | _ => none

/-- The loop over the tag history that looks for an identifier. -/
def CSSSelector.idValue : CSSSelector → Option Str
  | .last simple => simple.idValue
  | .next simple _ _ tagHistory => simple.idValue.or tagHistory.idValue

structure SelectorQuery where
  selectors : List CSSSelector
  selectorId : Option Str
  usesDeepCombinatorOrShadowPseudo : Bool
  needsUpdatedDistribution : Bool
  useSlowScan : Bool

namespace SelectorQuery

def ofList (selectorList : CSSSelectorList) : SelectorQuery :=
  let selectors := selectorList.toList.filter fun s => !s.matchesPseudoElement
  let usesDeepCombinatorOrShadowPseudo := selectors.any (·.hasDeepCombinatorOrShadowPseudo)
  let needsUpdatedDistribution := selectors.any (·.needsUpdatedDistribution)
  let useSlowScan :=
    !(selectors.length == 1 && !usesDeepCombinatorOrShadowPseudo && !needsUpdatedDistribution)
  { selectors, usesDeepCombinatorOrShadowPseudo, needsUpdatedDistribution, useSlowScan
    selectorId := if useSlowScan then none else selectors.head?.bind (·.idValue) }

/-! ## The query -/

section Execute

variable {Output : Type} (h : Heap) (facts : ElementFacts) (trait : SelectorQueryTrait Output)

/-- `MatchesTagName` of the query. -/
def matchesTagName (tag : TagQName) (e : NodeId) : Bool :=
  if tag = anyQName then true
  else if tag.localName = some (facts.localName e) then true
  else if facts.comparesUpper h e then
    some (localNameUpper (facts.localName e)) == tag.localName.map localNameUpper
  else false

/-- `SelectorMatches`. -/
def selectorMatches (s : CSSSelector) (e rootNode : NodeId) : Check Bool :=
  (matchSelector h facts s ⟨e, some rootNode, true, false⟩ none).bind fun m =>
    .done (m.1 == .selectorMatches)

/-- The loop over `DescendantsOf` that appends what passes a test. -/
def forDescendants (test : NodeId → Check Bool) (traverseRoot : NodeId) (output : Output) :
    Check Output :=
  (ofOption (ElementTraversal.firstWithin h traverseRoot)).bind fun first =>
    forEach (ElementTraversal.next h traverseRoot)
      (fun output e => (test e).bind fun b => .done
        (if b then (trait.kShouldOnlyMatchFirstElement, trait.appendElement output e)
        else (false, output)))
      h.bound first output

/-- `CollectElementsByTagName`. -/
def collectElementsByTagName (rootNode : NodeId) (tag : TagQName) (output : Output) :
    Check Output :=
  forDescendants h trait (fun e => .done (matchesTagName h facts tag e)) rootNode output

/-- `ExecuteForTraverseRoot`. -/
def executeForTraverseRoot (s : CSSSelector) (traverseRoot rootNode : NodeId) (output : Output) :
    Check Output :=
  forDescendants h trait (fun e => selectorMatches h facts s e rootNode) traverseRoot output

/-- `AncestorHasClassName`. -/
def ancestorHasClassName (rootNode : NodeId) (value : Str) : Option Bool :=
  if h.isElementNode rootNode then
    (seek (facts.hasClassName · value) (fun n => some (parentElement h n)) h.bound
      (some rootNode)).map Option.isSome
  else some false

/-- The loop of `FindTraverseRootsAndExecute` over the elements of a class. -/
def forClassRoots (s : CSSSelector) (value : Str) (rootNode : NodeId) (output : Output) :
    Check Output :=
  (ofOption (ElementTraversal.firstWithin h rootNode)).bind fun first =>
    forEach
      (fun e => if facts.hasClassName e value then ElementTraversal.nextSkippingChildren h rootNode e
        else ElementTraversal.next h rootNode e)
      (fun output e =>
        if facts.hasClassName e value then
          (executeForTraverseRoot h facts trait s e rootNode output).bind fun output =>
            .done (trait.kShouldOnlyMatchFirstElement && !trait.isEmpty output, output)
        else .done (false, output))
      h.bound first output

/-- `FindTraverseRootsAndExecute`. -/
def findTraverseRootsAndExecute (s : CSSSelector) (rootNode : NodeId) (output : Output) :
    Check Output :=
  match scan s true false with
  | .wholeTree => executeForTraverseRoot h facts trait s rootNode rootNode output
  | .rightmostClass => .done output
  | .rootsWithClass value =>
    (ofOption (ancestorHasClassName h facts rootNode value)).bind fun found =>
      if found then executeForTraverseRoot h facts trait s rootNode rootNode output
      else forClassRoots h facts trait s value rootNode output

/-- The identifier is looked up: the root is in a document without quirks. -/
def usesId (q : SelectorQuery) (rootNode : NodeId) : Bool :=
  q.selectorId.isSome && h.isConnected rootNode && !facts.inQuirksMode (h.document rootNode)

/-- `Execute`. -/
def execute (q : SelectorQuery) (rootNode : NodeId) : Check Output :=
  match q.selectors with
  | [] => .done trait.empty
  | firstSelector :: _ =>
    if q.useSlowScan then .done trait.empty
    else if q.usesId h facts rootNode then .done trait.empty
    else match firstSelector with
      | .last (.className _) => .done trait.empty
      | .last (.tag tag) =>
        if tag.namespaceURI = some starAtom then
          collectElementsByTagName h facts trait rootNode tag trait.empty
        else findTraverseRootsAndExecute h facts trait firstSelector rootNode trait.empty
      | _ => findTraverseRootsAndExecute h facts trait firstSelector rootNode trait.empty

/-- A query with an `NthIndexCache` of its own, which the document of the root holds. -/
def withNthIndexCache (q : SelectorQuery) (rootNode : NodeId) : Option Output :=
  ((q.execute h facts trait rootNode).run (query h facts.toElementNames (h.document rootNode))
    {}).map (·.2)

/-- `QueryAll`. -/
def queryAll (q : SelectorQuery) (rootNode : NodeId) : Option (List NodeId) :=
  q.withNthIndexCache h facts .allElements rootNode

/-- `QueryFirst`. -/
def queryFirst (q : SelectorQuery) (rootNode : NodeId) : Option (Option NodeId) :=
  q.withNthIndexCache h facts .singleElement rootNode

end Execute

/-! ## What a query means -/

section Meaning

variable (h : Heap) (facts : ElementFacts) (s : CSSSelector) (rootNode e : NodeId)

/-- `SelectorMatches`, with the places of `:nth-*` counted. -/
def accepts : Bool :=
  (selectorMatches h facts s e rootNode).eval (plainIndex h facts.toElementNames) == some true

/-- The places that `SelectorMatches` asks for, one after the other. -/
def lookups : List NthQuery :=
  (selectorMatches h facts s e rootNode).asked (plainIndex h facts.toElementNames)

/-- The descendants that the selector accepts. -/
def accepted : List NodeId := (elementsBelow h rootNode).filter (accepts h facts s rootNode)

end Meaning

/-- The elements that a loop tests: all, or those up to the first that passes. -/
def tried (single : Bool) (p : NodeId → Bool) : List NodeId → List NodeId
  | [] => []
  | x :: l => x :: if single && p x then [] else tried single p l

section Tried

variable {single : Bool} {p : NodeId → Bool} {l r : List NodeId} {x : NodeId}

theorem tried_false : tried false p l = l := by
  induction l with
  | nil => rfl
  | cons x l ih => exact congrArg (x :: ·) ih

theorem tried_prefix (single : Bool) (p : NodeId → Bool) (l : List NodeId) :
    tried single p l <+: l := by
  induction l with
  | nil => exact List.prefix_refl []
  | cons x l ih =>
    unfold tried
    split
    · exact ⟨l, rfl⟩
    · exact List.cons_prefix_cons.mpr ⟨rfl, ih⟩

/-- Where nothing has passed, the loop goes on. -/
theorem tried_goesOn (hl : single = true → ∀ x ∈ l, p x = false) :
    tried single p (l ++ r) = l ++ tried single p r := by
  induction l with
  | nil => rfl
  | cons x l ih =>
    have hgo : (single && p x) = false := by
      cases hs : single with
      | false => rfl
      | true => exact hl hs x List.mem_cons_self
    rw [List.cons_append, tried, hgo]
    exact congrArg (x :: ·) (ih fun hs y hy => hl hs y (List.mem_cons_of_mem x hy))

/-- Behind what has passed, the loop returns. -/
theorem tried_stops (hsingle : single = true) (hx : x ∈ l) (hp : p x = true) :
    tried single p (l ++ r) = tried single p l := by
  induction l with
  | nil => cases hx
  | cons y l ih =>
    rw [List.cons_append, tried, tried]
    by_cases hy : (single && p y) = true
    · rw [if_pos hy, if_pos hy]
    · rw [if_neg hy, if_neg hy]
      rcases List.mem_cons.mp hx with rfl | hx
      · rw [hsingle, hp] at hy
        exact absurd rfl hy
      · rw [ih hx]

theorem filter_tried_eq_nil : (tried single p l).filter p = [] ↔ ∀ x ∈ l, p x = false := by
  induction l with
  | nil => exact iff_of_true rfl (List.forall_mem_nil _)
  | cons x l ih =>
    rw [tried, List.forall_mem_cons]
    by_cases hx : p x = true
    · rw [List.filter_cons_of_pos hx]
      exact iff_of_false (by simp) fun h => by simp [hx] at h
    · rw [List.filter_cons_of_neg hx, if_neg (by simp [hx]), ih]
      simp [hx]

theorem filter_tried_true : (tried true p l).filter p = (l.filter p).head?.toList := by
  induction l with
  | nil => rfl
  | cons x l ih =>
    rw [tried]
    by_cases hx : p x = true
    · rw [List.filter_cons_of_pos hx, List.filter_cons_of_pos hx, if_pos (by simp [hx])]
      rfl
    · rw [List.filter_cons_of_neg hx, List.filter_cons_of_neg hx, if_neg (by simp [hx]), ih]

end Tried

/-! ## What the loops collect -/

section Collect

variable {Output : Type} {trait : SelectorQueryTrait Output} {p : NodeId → Bool}
  {asks : NodeId → List NthQuery} {l r : List NodeId} {start out out' : Output}
  {qs qs' : List NthQuery}

/-- What a loop has collected from the elements `l`, and what it has asked. -/
structure Collects (trait : SelectorQueryTrait Output) (p : NodeId → Bool)
    (asks : NodeId → List NthQuery) (start : Output) (l : List NodeId) (out : Output)
    (qs : List NthQuery) : Prop where
  output : out = ((tried trait.kShouldOnlyMatchFirstElement p l).filter p).foldl
    trait.appendElement start
  asked : qs = (tried trait.kShouldOnlyMatchFirstElement p l).flatMap asks

/-- Nothing makes the loop return. -/
def GoesOn (trait : SelectorQueryTrait Output) (p : NodeId → Bool) (l : List NodeId) : Prop :=
  trait.kShouldOnlyMatchFirstElement = true → ∀ x ∈ l, p x = false

theorem Collects.nil (trait : SelectorQueryTrait Output) (start : Output) :
    Collects trait p asks start [] start [] := ⟨rfl, rfl⟩

/-- One element. -/
theorem Collects.one (e : NodeId) : Collects trait p asks start [e]
    (if p e then trait.appendElement start e else start) (asks e) where
  output := by
    have hone : tried trait.kShouldOnlyMatchFirstElement p [e] = [e] := by
      rw [tried, tried, ite_self]
    rw [hone]
    split
    · rename_i he
      rw [List.filter_cons_of_pos he]
      rfl
    · rename_i he
      rw [List.filter_cons_of_neg he]
      rfl
  asked := by
    rw [tried, tried, ite_self, List.flatMap_singleton]

/-- A loop that goes on. -/
theorem Collects.append (c : Collects trait p asks start l out qs) (hl : GoesOn trait p l)
    (c' : Collects trait p asks out r out' qs') :
    Collects trait p asks start (l ++ r) out' (qs ++ qs') := by
  have hwhole : tried trait.kShouldOnlyMatchFirstElement p l = l := by
    have hend := tried_goesOn (r := []) hl
    rwa [List.append_nil, tried, List.append_nil] at hend
  refine ⟨?_, ?_⟩
  · rw [tried_goesOn hl, List.filter_append, List.foldl_append, c'.output, c.output, hwhole]
  · rw [tried_goesOn hl, List.flatMap_append, c'.asked, c.asked, hwhole]

/-- A loop that has returned. -/
theorem Collects.stop (c : Collects trait p asks start l out qs)
    (hsingle : trait.kShouldOnlyMatchFirstElement = true) (hl : ∃ x ∈ l, p x = true)
    (r : List NodeId) : Collects trait p asks start (l ++ r) out qs := by
  obtain ⟨x, hx, hp⟩ := hl
  refine ⟨?_, ?_⟩
  · rw [tried_stops hsingle hx hp, c.output]
  · rw [tried_stops hsingle hx hp, c.asked]

theorem isEmpty_foldl (trait : SelectorQueryTrait Output) (start : Output) (l : List NodeId) :
    trait.isEmpty (l.foldl trait.appendElement start) = (trait.isEmpty start && l.isEmpty) := by
  induction l generalizing start with
  | nil => rw [List.foldl_nil, List.isEmpty_nil, Bool.and_true]
  | cons x l ih =>
    rw [List.foldl_cons, ih, trait.isEmpty_append, Bool.false_and, List.isEmpty_cons,
      Bool.and_false]

/-- The output is empty when nothing has passed. -/
theorem Collects.isEmpty_iff (c : Collects trait p asks trait.empty l out qs) :
    trait.isEmpty out = true ↔ ∀ x ∈ l, p x = false := by
  rw [c.output, isEmpty_foldl, trait.isEmpty_empty, Bool.true_and, List.isEmpty_iff,
    filter_tried_eq_nil]

end Collect

section Loops

variable {Output : Type} {trait : SelectorQueryTrait Output} {h : Heap} {facts : ElementFacts}
  {ch : NodeId → List NodeId} {answer : NthQuery → Nat} {p : NodeId → Bool}
  {asks : NodeId → List NthQuery} {root : NodeId} {output : Output}

/-- **The loop over the descendants** collects what passes its test. -/
theorem forDescendants_ends (w : WellFormed h ch) (f : FragmentsAreRoots h)
    {test : NodeId → Check Bool}
    (htest : ∀ e, h.isElementNode e = true →
      (test e).Ends answer (OfElement h) fun b qs => b = p e ∧ qs = asks e) :
    (forDescendants h trait test root output).Ends answer (OfElement h)
      (Collects trait p asks output (elementsBelow h root)) := by
  unfold forDescendants
  refine Ends.bind (S := fun first qs => first = (elementsBelow h root).head? ∧ qs = [])
    (.ofOption (firstWithin_eq w f root) ⟨rfl, rfl⟩) ?_
  rintro _ _ ⟨rfl, rfl⟩
  refine Ends.forEach (I := fun rest out qs => ∃ pre, elementsBelow h root = pre ++ rest ∧
    GoesOn trait p pre ∧ Collects trait p asks output pre out qs) ?_ ?_
    ⟨[], rfl, fun _ => List.forall_mem_nil _, Collects.nil trait output⟩
    ((elementsBelow_length w root).trans (Nat.le_succ _))
  · rintro e rest out qs ⟨pre, hsplit, hgo, c⟩
    have helement : h.isElementNode e = true := by
      have hmem : e ∈ elementsBelow h root := by
        rw [hsplit]
        simp
      exact ((mem_elementsBelow w).mp hmem).1
    have hnext := next_stepsThrough w f root
    rw [hsplit] at hnext
    refine Ends.bind (htest e helement) ?_
    rintro _ _ ⟨rfl, rfl⟩
    have hone : Collects trait p asks output (pre ++ [e])
        (if p e then trait.appendElement out e else out) (qs ++ asks e) :=
      c.append hgo (.one e)
    have hrest : elementsBelow h root = (pre ++ [e]) ++ rest := by
      rw [hsplit, List.append_assoc]
      rfl
    refine .done ?_
    rw [List.append_nil]
    by_cases he : p e = true
    · rw [if_pos he] at hone ⊢
      dsimp only
      split
      · rename_i hsingle
        rw [hrest]
        exact hone.stop hsingle ⟨e, by simp, he⟩ rest
      · rename_i hsingle
        exact ⟨rest, Nat.le_refl _, hnext.step_eq, pre ++ [e], hrest,
          fun hs => absurd hs hsingle, hone⟩
    · rw [if_neg he] at hone ⊢
      refine ⟨rest, Nat.le_refl _, hnext.step_eq, pre ++ [e], hrest, fun hs x hx => ?_, hone⟩
      rcases List.mem_append.mp hx with hx | hx
      · exact hgo hs x hx
      · rw [List.mem_singleton.mp hx]
        exact Bool.eq_false_iff.mpr he
  · rintro out qs ⟨pre, hsplit, -, c⟩
    rw [List.append_nil] at hsplit
    rwa [hsplit]

end Loops

end SelectorQuery

end Blinkit.Css
