import Blinkit.Css.SelectorQuery

/-!
# What a query returns

A query tests the elements below its root, or, when an ancestor must have a class, only the elements
below those of the class. Either way the elements that are accepted are the same.

* `inClassRoot` — the elements below an element of a class.
* `Implemented` — the selector takes a path that does not end in `ASSERT(false)`.
* `searched` — the elements that the query tests.
* `OneScope` — what the tag path does not test: the elements it finds are in the scope of the root.

Principal results: `execute_ends` and `selectorQuery_iff`: a query returns the accepted descendants exactly
when the tag path stays in the scope of the root and the cache of sibling places answers every
lookup.
-/

set_option autoImplicit false

namespace Blinkit.Css

open Dom Dom.Attributes LinkedForest Asking Transition

namespace SelectorQuery

/-! ## The elements of a class -/

section ClassRoots

variable {Output : Type} {trait : SelectorQueryTrait Output} {h : Heap} {facts : ElementFacts}
  {ch : NodeId → List NodeId} {answer : NthQuery → Nat} {p : NodeId → Bool}
  {asks : NodeId → List NthQuery} {value : Str} {root e : NodeId} {out : Output}
  {pre rest : List NodeId} {qs : List NthQuery}

/-- Below the root there is an element of the class, and `e` is below it. -/
def inClassRoot (h : Heap) (facts : ElementFacts) (value : Str) (root e : NodeId) : Bool :=
  (elementsBelow h root).any fun a => facts.hasClassName a value && (elementsBelow h a).contains e

theorem inClassRoot_iff : inClassRoot h facts value root e = true ↔
    ∃ a ∈ elementsBelow h root, facts.hasClassName a value = true ∧ e ∈ elementsBelow h a := by
  unfold inClassRoot
  simp only [List.any_eq_true, Bool.and_eq_true, List.contains_iff_mem]

/-- The loop has gone through `pre`, and no element of the class in it has a descendant in what is
left. -/
structure Walked (trait : SelectorQueryTrait Output) (h : Heap) (facts : ElementFacts)
    (p : NodeId → Bool) (asks : NodeId → List NthQuery) (value : Str) (root : NodeId)
    (pre rest : List NodeId) (out : Output) (qs : List NthQuery) : Prop where
  split : elementsBelow h root = pre ++ rest
  closed : ∀ a ∈ pre, facts.hasClassName a value = true → ∀ x ∈ rest, x ∉ descendantsOf h a
  goesOn : GoesOn trait p (pre.filter (inClassRoot h facts value root))
  collects : Collects trait p asks trait.empty (pre.filter (inClassRoot h facts value root)) out qs

/-- The element in front is not below one of the class. -/
theorem Walked.head (w : WellFormed h ch) (f : FragmentsAreRoots h)
    (v : Walked trait h facts p asks value root pre (e :: rest) out qs) :
    inClassRoot h facts value root e = false := by
  rw [← Bool.not_eq_true, inClassRoot_iff]
  rintro ⟨a, ha, hclass, he⟩
  have hbelow := (List.mem_filter.mp he).1
  exact v.closed a (above_comes_before w f v.split ha hbelow) hclass e List.mem_cons_self hbelow

/-- An element without the class is passed by. -/
theorem Walked.pass (w : WellFormed h ch) (f : FragmentsAreRoots h)
    (v : Walked trait h facts p asks value root pre (e :: rest) out qs)
    (hclass : facts.hasClassName e value = false) :
    Walked trait h facts p asks value root (pre ++ [e]) rest out qs := by
  have hfilter : (pre ++ [e]).filter (inClassRoot h facts value root) =
      pre.filter (inClassRoot h facts value root) := by
    rw [List.filter_append, List.filter_cons_of_neg (Bool.eq_false_iff.mp (v.head w f)),
      List.filter_nil, List.append_nil]
  refine ⟨by rw [v.split, List.append_assoc]; rfl, ?_, hfilter ▸ v.goesOn, hfilter ▸ v.collects⟩
  intro a ha haclass x hx
  rcases List.mem_append.mp ha with ha | ha
  · exact v.closed a ha haclass x (List.mem_cons_of_mem e hx)
  · rw [List.mem_singleton.mp ha, hclass] at haclass
    cases haclass

/-- Behind an element of the class come the elements below it, which are all in a class root. -/
theorem Walked.filter_root (w : WellFormed h ch) (f : FragmentsAreRoots h) {behind : List NodeId}
    (v : Walked trait h facts p asks value root pre (e :: rest) out qs)
    (hclass : facts.hasClassName e value = true) (hrest : rest = elementsBelow h e ++ behind) :
    (pre ++ e :: elementsBelow h e).filter (inClassRoot h facts value root) =
        pre.filter (inClassRoot h facts value root) ++ elementsBelow h e ∧
      elementsBelow h root = (pre ++ e :: elementsBelow h e) ++ behind ∧
      ∀ x ∈ behind, x ∉ descendantsOf h e := by
  have hsplit : elementsBelow h root = (pre ++ e :: elementsBelow h e) ++ behind := by
    rw [v.split, hrest, List.append_assoc]
    rfl
  have hmem : e ∈ elementsBelow h root := by
    rw [hsplit]
    simp
  refine ⟨?_, hsplit, fun x hx hbelow => ?_⟩
  · rw [List.filter_append, List.filter_cons_of_neg (Bool.eq_false_iff.mp (v.head w f)),
      List.filter_eq_self.mpr fun x hx => inClassRoot_iff.mpr ⟨e, hmem, hclass, hx⟩]
  · have hnodup := elementsBelow_nodup w root
    have hx' : x ∈ elementsBelow h root := by
      rw [hsplit]
      exact List.mem_append_right _ hx
    have hunder : x ∈ elementsBelow h e :=
      List.mem_filter.mpr ⟨hbelow, ((mem_elementsBelow w).mp hx').1⟩
    rw [hsplit, List.nodup_append] at hnodup
    exact hnodup.2.2 x (by simp [hunder]) x hx rfl

/-- **The loop over the elements of a class** collects from what is below them. -/
theorem forClassRoots_ends (w : WellFormed h ch) (f : FragmentsAreRoots h) {s : CSSSelector}
    (htest : ∀ e, h.isElementNode e = true →
      (selectorMatches h facts s e root).Ends answer (OfElement h)
        fun b qs => b = p e ∧ qs = asks e) :
    (forClassRoots h facts trait s value root trait.empty).Ends answer (OfElement h)
      (Collects trait p asks trait.empty
        ((elementsBelow h root).filter (inClassRoot h facts value root))) := by
  unfold forClassRoots
  refine Ends.bind (S := fun first qs => first = (elementsBelow h root).head? ∧ qs = [])
    (.ofOption (firstWithin_eq w f root) ⟨rfl, rfl⟩) ?_
  rintro _ _ ⟨rfl, rfl⟩
  refine Ends.forEach (I := fun rest out qs =>
    ∃ pre, Walked trait h facts p asks value root pre rest out qs) ?_ ?_
    ⟨[], rfl, List.forall_mem_nil _, fun _ => List.forall_mem_nil _,
      Collects.nil trait trait.empty⟩
    ((elementsBelow_length w root).trans (Nat.le_succ _))
  · rintro e rest out qs ⟨pre, v⟩
    cases hclass : facts.hasClassName e value with
    | false =>
      have hnext := next_stepsThrough w f root
      rw [v.split] at hnext
      refine .done ⟨rest, Nat.le_refl _, hnext.step_eq, pre ++ [e], ?_⟩
      rw [List.append_nil]
      exact v.pass w f hclass
    | true =>
      obtain ⟨behind, hrest, hskip⟩ := elementsBelow_split w f v.split
      obtain ⟨hfilter, hsplit, hbehind⟩ := v.filter_root w f hclass hrest
      rw [if_pos rfl]
      refine Ends.bind (forDescendants_ends w f htest) fun out' qs' c => .done ?_
      have hcollects := v.collects.append v.goesOn c
      rw [List.append_nil]
      dsimp only
      split
      · rename_i hreturn
        rw [Bool.and_eq_true] at hreturn
        obtain ⟨hsingle, hfound⟩ := hreturn
        have hpassed : ∃ x ∈ pre.filter (inClassRoot h facts value root) ++ elementsBelow h e,
            p x = true := by
          by_contra hnone
          rw [hcollects.isEmpty_iff.mpr fun x hx => Bool.eq_false_iff.mpr fun hp =>
            hnone ⟨x, hx, hp⟩] at hfound
          cases hfound
        rw [hsplit, List.filter_append, hfilter]
        exact hcollects.stop hsingle hpassed _
      · rename_i hon
        refine ⟨behind, ?_, hskip, pre ++ e :: elementsBelow h e, hsplit, ?_, ?_, ?_⟩
        · rw [hrest, List.length_append]
          exact Nat.le_add_left _ _
        · intro a ha haclass x hx hbelow
          rcases List.mem_append.mp ha with ha | ha
          · exact v.closed a ha haclass x (by simp [hrest, hx]) hbelow
          · rcases List.mem_cons.mp ha with rfl | ha
            · exact hbehind x hx hbelow
            · obtain ⟨-, hane, haabove⟩ := (mem_elementsBelow w).mp ha
              obtain ⟨-, hxabove⟩ := (mem_descendantsOf w).mp hbelow
              refine hbehind x hx ((mem_descendantsOf w).mpr ⟨?_, hxabove.trans haabove⟩)
              rintro rfl
              exact hane (w.acyclic.antisymm haabove hxabove)
        · rw [hfilter]
          intro hsingle
          rw [hsingle, Bool.true_and, Bool.not_eq_true', Bool.not_eq_false] at hon
          exact hcollects.isEmpty_iff.mp hon
        · rw [hfilter]
          exact hcollects
  · rintro out qs ⟨pre, v⟩
    have hsplit := v.split
    rw [List.append_nil] at hsplit
    rw [hsplit]
    exact v.collects

end ClassRoots

/-! ## The search -/

section Search

variable (h : Heap) (facts : ElementFacts) (s : CSSSelector) (root : NodeId)

/-- The selector takes a path that is implemented: no identifier is looked up, and there is no class
in the rightmost compound. -/
structure Implemented : Prop where
  noPseudoElement : s.matchesPseudoElement = false
  noDeepCombinator : s.hasDeepCombinatorOrShadowPseudo = false
  noDistribution : s.needsUpdatedDistribution = false
  noId : (s.idValue.isSome && h.isConnected root && !facts.inQuirksMode (h.document root)) = false
  noClass : scan s true false ≠ .rightmostClass

/-- The query of one selector. -/
def ofSelector : SelectorQuery := ofList (.cons s .nil)

/-- The test of the path that the query takes. -/
def passes (e : NodeId) : Bool :=
  match s with
  | .last (.tag tag) =>
    if tag.namespaceURI = some starAtom then matchesTagName h facts tag e
    else accepts h facts s root e
  | _ => accepts h facts s root e

/-- The elements that the query tests. -/
def searched : List NodeId :=
  match scan s true false with
  | .rootsWithClass value =>
    if ancestorHasClassName h facts root value = some true then elementsBelow h root
    else (elementsBelow h root).filter (inClassRoot h facts value root)
  | _ => elementsBelow h root

/-- The places that the query asks for when it tests them all, one after the other. -/
def placesAsked : List NthQuery := (searched h facts s root).flatMap (lookups h facts s root)

/-- What the tag path finds is in the scope of the root. -/
def OneScope : Prop :=
  ∀ tag, s = .last (.tag tag) → tag.namespaceURI = some starAtom →
    ∀ e ∈ elementsBelow h root, matchesTagName h facts tag e = true →
      h.document e = h.document root

end Search

section Accepts

variable {h : Heap} {facts : ElementFacts} {s : CSSSelector} {root e : NodeId}
  {ch : NodeId → List NodeId} {value : Str}

/-- **`SelectorMatches` ends**, and what it accepts has the class that the scan finds. -/
theorem selectorMatches_ends (w : WellFormed h ch) (facts : ElementFacts) (s : CSSSelector)
    (root : NodeId) (he : h.isElementNode e = true) :
    (selectorMatches h facts s e root).Ends (plainIndex h facts.toElementNames) (OfElement h)
      fun b qs => (b = accepts h facts s root e ∧ qs = lookups h facts s root e) ∧
        (b = true → Carries h facts s e) := by
  have hends : (selectorMatches h facts s e root).Ends (plainIndex h facts.toElementNames)
      (OfElement h) fun b _ => b = true → Carries h facts s e := by
    refine (matchSelector_ends w s ⟨e, some root, true, false⟩ none he).bind ?_
    intro m _ hm
    exact .done fun hmatches => hm (beq_iff_eq.mp hmatches)
  refine hends.eq.mono ?_
  rintro b qs ⟨hcarries, heval, hasked⟩
  refine ⟨⟨?_, hasked⟩, hcarries⟩
  unfold accepts
  rw [heval]
  cases b <;> rfl

theorem carries_of_accepts (w : WellFormed h ch) (he : h.isElementNode e = true)
    (haccepts : accepts h facts s root e = true) : Carries h facts s e := by
  obtain ⟨b, -, -, ⟨rfl, -⟩, hcarries⟩ := selectorMatches_ends w facts s root he
  exact hcarries haccepts

/-- The two functions for tag names agree. -/
theorem matchesTagName_eq {tag : TagQName} (htag : tag.namespaceURI = some starAtom) (e : NodeId) :
    Css.matchesTagName h facts e tag = matchesTagName h facts tag e := by
  unfold Css.matchesTagName matchesTagName
  by_cases hany : tag = anyQName
  · rw [if_pos hany, if_pos hany]
  · have hlocal : tag.localName ≠ none := fun hnone => hany (TagQName.eq_anyQName htag hnone)
    have hstar : (tag.namespaceURI == some starAtom) = true := beq_iff_eq.mpr htag
    rw [if_neg hany, if_neg hany, hstar, Bool.true_or]
    by_cases hname : tag.localName = some (facts.localName e)
    · rw [if_pos hname, if_neg (fun hne => hne.2.1 hname)]
    · rw [if_neg hname]
      cases facts.comparesUpper h e with
      | false => exact if_pos ⟨hlocal, hname, .inl rfl⟩
      | true =>
        rw [if_pos rfl]
        by_cases hupper : some (localNameUpper (facts.localName e)) =
            tag.localName.map localNameUpper
        · rw [if_neg, beq_iff_eq.mpr hupper]
          rintro ⟨-, -, hfalse | hne⟩
          · cases hfalse
          · exact hne hupper
        · rw [if_pos ⟨hlocal, hname, .inr hupper⟩, beq_eq_false_iff_ne.mpr hupper]

/-- A type selector is tested without a question; the scope is tested behind the name. -/
theorem selectorMatches_tag (tag : TagQName) (e root : NodeId) :
    selectorMatches h facts (.last (.tag tag)) e root =
      .done (Css.matchesTagName h facts e tag && h.document root == h.document e) := by
  unfold selectorMatches matchSelector checkOne scopeContainsLastMatchedElement
  cases Css.matchesTagName h facts e tag with
  | false => rfl
  | true =>
    show Asking.bind (if (h.document root == h.document e) = true then _ else _) _ = _
    cases h.document root == h.document e <;> rfl

theorem accepts_tag {tag : TagQName} (htag : tag.namespaceURI = some starAtom) (e root : NodeId) :
    accepts h facts (.last (.tag tag)) root e =
      (matchesTagName h facts tag e && h.document root == h.document e) := by
  unfold accepts
  rw [selectorMatches_tag, matchesTagName_eq htag]
  show (some (_ && _) == some true) = _
  cases matchesTagName h facts tag e && h.document root == h.document e <;> rfl

theorem lookups_tag (tag : TagQName) (e root : NodeId) :
    lookups h facts (.last (.tag tag)) root e = [] := by
  unfold lookups
  rw [selectorMatches_tag]
  rfl

/-- A root that lies on the way through elements is one of them. -/
theorem above_root (w : WellFormed h ch) {p a : NodeId} (hp : h.isElementNode p = true)
    (hpa : Above (parentElement h) p a) (hroot : Above h.links.parent p root)
    (hra : Above h.links.parent root a) :
    h.isElementNode root = true ∧ Above (parentElement h) root a := by
  induction hpa using Relation.ReflTransGen.head_induction_on with
  | refl =>
    obtain rfl := w.acyclic.antisymm hroot hra
    exact ⟨hp, .refl _⟩
  | @head p q hpq hqa ih =>
    obtain ⟨hparent, hq⟩ := parentElement_iff.mp hpq
    by_cases hne : p = root
    · subst hne
      exact ⟨hp, (Above.of_parent hpq).trans hqa⟩
    · exact ih hq ((above_iff_of_parent hparent hne).mp hroot)

/-- `AncestorHasClassName` ends; when it finds no class, no element from the root upwards has it. -/
theorem ancestorHasClassName_spec (w : WellFormed h ch) (facts : ElementFacts) (root : NodeId)
    (value : Str) :
    ∃ b, ancestorHasClassName h facts root value = some b ∧
      (b = false → h.isElementNode root = true → ∀ a, Above (parentElement h) root a →
        facts.hasClassName a value = false) := by
  obtain ⟨r, hclimbs, hlength⟩ := parentElement_climbs w root
  unfold ancestorHasClassName
  split
  · have hseek := seek_behind (l := []) (r := root :: r) (p := (facts.hasClassName · value))
      (fun k x hx _ => hclimbs.steps k x hx) hlength
    rw [List.head?_cons] at hseek
    rw [hseek]
    refine ⟨_, rfl, fun hnone _ a ha => Bool.eq_false_iff.mpr fun hclass => ?_⟩
    rw [List.find?_isSome.mpr ⟨a, hclimbs.mem_of_above ha, hclass⟩] at hnone
    cases hnone
  · rename_i hroot
    exact ⟨false, rfl, fun _ helement => absurd helement hroot⟩

/-- **Nothing is lost.** When no ancestor of the root has the class, what is accepted is below an
element of the class. -/
theorem inClassRoot_of_accepts (w : WellFormed h ch) (he : e ∈ elementsBelow h root)
    (haccepts : accepts h facts s root e = true) (hscan : scan s true false = .rootsWithClass value)
    (hancestors : ancestorHasClassName h facts root value = some false) :
    inClassRoot h facts value root e = true := by
  obtain ⟨helement, hne, habove⟩ := (mem_elementsBelow w).mp he
  obtain ⟨a, hplace, hclass⟩ := carries_of_accepts w helement haccepts true false value hscan
  have ha := hplace.resolve_right fun hself => nomatch hself.1
  have hanone : h.isElementNode root = true → ¬ Above (parentElement h) root a := by
    intro hroot hra
    obtain ⟨b, hb, hnone⟩ := ancestorHasClassName_spec w facts root value
    rw [hancestors] at hb
    obtain rfl := Option.some.inj hb
    rw [hnone rfl hroot a hra] at hclass
    cases hclass
  obtain ⟨p, hp, hpa⟩ := ha
  obtain ⟨hparent, hpelement⟩ := parentElement_iff.mp hp
  have haelement := ElementAbove.isElementNode ⟨p, hp, hpa⟩
  have hea : Above h.links.parent e a :=
    (Above.of_parent hparent).trans (above_of_parentElement hpa)
  have hroot : ¬ Above h.links.parent root a := by
    intro hra
    obtain ⟨hrootelement, hra⟩ := above_root w hpelement hpa
      ((above_iff_of_parent hparent hne).mp habove) hra
    exact hanone hrootelement hra
  rw [inClassRoot_iff]
  refine ⟨a, (mem_elementsBelow w).mpr ⟨haelement, ?_, (habove.total hea).resolve_left hroot⟩,
    hclass, (mem_elementsBelow w).mpr ⟨helement, ?_, hea⟩⟩
  · rintro rfl
    exact hroot (.refl a)
  · rintro rfl
    exact w.acyclic e p hparent (above_of_parentElement hpa)

/-- **The elements that are left out are not accepted.** -/
theorem filter_searched (w : WellFormed h ch) (s : CSSSelector) (root : NodeId) :
    (searched h facts s root).filter (accepts h facts s root) = accepted h facts s root := by
  unfold searched accepted
  split
  · rename_i value hscan
    split
    · rfl
    · rename_i hancestors
      have hnone : ancestorHasClassName h facts root value = some false := by
        obtain ⟨b, hb, -⟩ := ancestorHasClassName_spec w facts root value
        rw [hb] at hancestors ⊢
        cases b with
        | false => rfl
        | true => exact absurd rfl hancestors
      rw [List.filter_filter]
      refine List.filter_congr fun x hx => ?_
      cases haccepts : accepts h facts s root x with
      | false => rfl
      | true => rw [inClassRoot_of_accepts w hx haccepts hscan hnone]; rfl
  · rfl

end Accepts

/-! ## The query -/

section Query

variable {Output : Type} {trait : SelectorQueryTrait Output} {h : Heap} {facts : ElementFacts}
  {s : CSSSelector} {root : NodeId} {ch : NodeId → List NodeId}

theorem findTraverseRoots_ends (w : WellFormed h ch) (f : FragmentsAreRoots h)
    (facts : ElementFacts) (trait : SelectorQueryTrait Output) (root : NodeId)
    (hclass : scan s true false ≠ .rightmostClass) :
    (findTraverseRootsAndExecute h facts trait s root trait.empty).Ends
      (plainIndex h facts.toElementNames) (OfElement h)
      (Collects trait (accepts h facts s root) (lookups h facts s root) trait.empty
        (searched h facts s root)) := by
  have htest : ∀ e, h.isElementNode e = true →
      (selectorMatches h facts s e root).Ends (plainIndex h facts.toElementNames) (OfElement h)
        fun b qs => b = accepts h facts s root e ∧ qs = lookups h facts s root e :=
    fun e he => (selectorMatches_ends w facts s root he).mono fun _ _ hb => hb.1
  unfold findTraverseRootsAndExecute searched
  cases hscan : scan s true false with
  | wholeTree => exact forDescendants_ends w f htest
  | rightmostClass => exact absurd hscan hclass
  | rootsWithClass value =>
    obtain ⟨b, hb, -⟩ := ancestorHasClassName_spec w facts root value
    dsimp only
    rw [hb]
    cases b with
    | true => exact forDescendants_ends w f htest
    | false =>
      rw [if_neg (by decide)]
      exact forClassRoots_ends w f htest

/-- **`Execute`** collects from the elements that are searched, on each of its paths. -/
theorem execute_ends (w : WellFormed h ch) (f : FragmentsAreRoots h)
    (trait : SelectorQueryTrait Output) (hs : Implemented h facts s root) :
    ((ofSelector s).execute h facts trait root).Ends (plainIndex h facts.toElementNames)
      (OfElement h) (Collects trait (passes h facts s root) (lookups h facts s root) trait.empty
        (searched h facts s root)) := by
  have hselectors : (ofSelector s).selectors = [s] := by
    simp [ofSelector, ofList, CSSSelectorList.toList, hs.noPseudoElement]
  have hslow : (ofSelector s).useSlowScan = false := by
    simp [ofSelector, ofList, CSSSelectorList.toList, hs.noPseudoElement, hs.noDeepCombinator,
      hs.noDistribution]
  have hid : (ofSelector s).usesId h facts root = false := by
    have hvalue : (ofSelector s).selectorId = s.idValue := by
      simp [ofSelector, ofList, CSSSelectorList.toList, hs.noPseudoElement, hs.noDeepCombinator,
        hs.noDistribution]
    unfold usesId
    rw [hvalue]
    exact hs.noId
  have hfind := findTraverseRoots_ends w f facts trait root hs.noClass
  unfold execute
  rw [hselectors]
  dsimp only
  rw [hslow, hid, if_neg Bool.false_ne_true, if_neg Bool.false_ne_true]
  cases s with
  | next simple relation affected tagHistory => exact hfind
  | last simple =>
    cases simple with
    | className value => exact absurd rfl hs.noClass
    | tag tag =>
      dsimp only
      have hpasses : passes h facts (.last (.tag tag)) root =
          fun e => if tag.namespaceURI = some starAtom then matchesTagName h facts tag e
            else accepts h facts (.last (.tag tag)) root e := rfl
      rw [hpasses]
      split
      · exact forDescendants_ends w f fun e _ => .done ⟨rfl, (lookups_tag tag e root).symm⟩
      · exact hfind
    | _ => exact hfind

/-- What passes the test of the path is what the selector accepts, inside one scope. -/
theorem filter_passes_iff (w : WellFormed h ch) :
    (searched h facts s root).filter (passes h facts s root) = accepted h facts s root ↔
      OneScope h facts s root := by
  by_cases htag : ∃ tag, s = .last (.tag tag) ∧ tag.namespaceURI = some starAtom
  · obtain ⟨tag, rfl, hstar⟩ := htag
    have hpasses : passes h facts (.last (.tag tag)) root = matchesTagName h facts tag := by
      funext e
      exact if_pos hstar
    have hsearched : searched h facts (.last (.tag tag)) root = elementsBelow h root := rfl
    rw [hpasses, hsearched, accepted]
    constructor
    · intro heq tag' htag' _ e he hmatches
      cases htag'
      have hmem : e ∈ (elementsBelow h root).filter (matchesTagName h facts tag) :=
        List.mem_filter.mpr ⟨he, hmatches⟩
      rw [heq, List.mem_filter, accepts_tag hstar, Bool.and_eq_true, beq_iff_eq] at hmem
      exact hmem.2.2.symm
    · intro hscope
      refine List.filter_congr fun e he => ?_
      rw [accepts_tag hstar]
      cases hmatches : matchesTagName h facts tag e with
      | false => rfl
      | true => rw [hscope tag rfl hstar e he hmatches, Bool.true_and, beq_self_eq_true]
  · have hpasses : passes h facts s root = accepts h facts s root := by
      funext e
      unfold passes
      split
      · rename_i tag
        exact if_neg fun hstar => htag ⟨tag, rfl, hstar⟩
      · rfl
    rw [hpasses]
    exact iff_of_true (filter_searched w s root) fun tag hs hstar =>
      absurd ⟨tag, hs, hstar⟩ htag

/-- A query returns what `Execute` collects exactly when its lookups are answered. -/
theorem withNthIndexCache_iff (w : WellFormed h ch) (f : FragmentsAreRoots h)
    (trait : SelectorQueryTrait Output) (hs : Implemented h facts s root) (out : Output) :
    (ofSelector s).withNthIndexCache h facts trait root = some out ↔
      ((tried trait.kShouldOnlyMatchFirstElement (passes h facts s root)
          (searched h facts s root)).filter (passes h facts s root)).foldl trait.appendElement
            trait.empty = out ∧
        Allowed (machine (NthQuery.next h facts.toElementNames (h.document root)))
          (fun cache q => q.answered h facts.toElementNames (h.document root) cache = true) {}
          ((tried trait.kShouldOnlyMatchFirstElement (passes h facts s root)
            (searched h facts s root)).flatMap (lookups h facts s root)) := by
  obtain ⟨out', heval, hasked, c⟩ := execute_ends w f trait hs
  unfold withNthIndexCache
  have hfound : ∀ cache q, NthIndexCache.Sound h facts.toElementNames cache → OfElement h q →
      q.answered h facts.toElementNames (h.document root) cache = true →
        ∃ cache', query h facts.toElementNames (h.document root) cache q =
            some (cache', plainIndex h facts.toElementNames q) ∧
          NthIndexCache.Sound h facts.toElementNames cache' :=
    fun cache q hcache hq hanswered => query_answered w hcache hq hanswered
  have hmissing : ∀ cache q, NthIndexCache.Sound h facts.toElementNames cache → OfElement h q →
      ¬ q.answered h facts.toElementNames (h.document root) cache = true →
        query h facts.toElementNames (h.document root) cache q = none :=
    fun cache q _ hq hanswered => query_unanswered hq (Bool.eq_false_iff.mpr hanswered)
  rw [← c.output, ← c.asked]
  refine (run_iff_allowed hfound hmissing hasked NthIndexCache.sound_empty).trans ?_
  rw [heval, Option.some_inj]
  exact Iff.rfl

/-- **What a query returns.** `QueryAll` returns the accepted descendants, in document order and
each once, and `QueryFirst` the first of them, exactly when the tag path stays in the scope of the
root and the cache of sibling places answers every lookup in its turn. -/
theorem selectorQuery_iff (w : WellFormed h ch) (f : FragmentsAreRoots h)
    (hs : Implemented h facts s root) :
    (accepted h facts s root).Nodup ∧
      (((ofSelector s).queryAll h facts root = some (accepted h facts s root) ∧
          (ofSelector s).queryFirst h facts root = some (accepted h facts s root).head?) ↔
        OneScope h facts s root ∧
          Allowed (machine (NthQuery.next h facts.toElementNames (h.document root)))
            (fun cache q => q.answered h facts.toElementNames (h.document root) cache = true) {}
            (placesAsked h facts s root)) := by
  refine ⟨(elementsBelow_nodup w root).filter _, ?_⟩
  have hall := withNthIndexCache_iff w f .allElements hs (accepted h facts s root)
  have hfirst := withNthIndexCache_iff w f .singleElement hs
    (accepted h facts s root).head?
  have hcollect : ∀ l : List NodeId, l.foldl SelectorQueryTrait.allElements.appendElement
      SelectorQueryTrait.allElements.empty = l := by
    intro l
    show l.foldl (fun output e => output ++ [e]) [] = l
    rw [List.foldl_append_eq_append, List.nil_append, ← List.flatMap_def, List.flatMap_singleton']
  have hone : ∀ l : List NodeId, l.head?.toList.foldl
      SelectorQueryTrait.singleElement.appendElement SelectorQueryTrait.singleElement.empty =
        l.head? := by
    intro l
    cases l <;> rfl
  have hsingle : SelectorQueryTrait.singleElement.kShouldOnlyMatchFirstElement = true := rfl
  have hevery : SelectorQueryTrait.allElements.kShouldOnlyMatchFirstElement = false := rfl
  rw [hevery, tried_false, hcollect, filter_passes_iff w] at hall
  rw [hsingle, filter_tried_true, hone] at hfirst
  unfold queryAll queryFirst
  rw [hall, hfirst]
  constructor
  · exact fun h => h.1
  · rintro ⟨hscope, hallowed⟩
    obtain ⟨behind, hbehind⟩ := tried_prefix true (passes h facts s root)
      (searched h facts s root)
    refine ⟨⟨hscope, hallowed⟩, congrArg List.head? ((filter_passes_iff w).mpr hscope), ?_⟩
    unfold placesAsked at hallowed
    rw [← hbehind, List.flatMap_append] at hallowed
    exact hallowed.of_append

end Query

/-! ## A list of many items -/

/-- The list of `manyChildren` has the class `c`. -/
def manyFacts : ElementFacts where
  toElementNames := manyNames
  isHTMLElement _ := true
  isHTMLDocument _ := true
  documentElement _ := some 1
  classNames e := if e = 1 then some [['c']] else none
  idForStyleResolution _ := none
  inQuirksMode _ := false
  anyAttributeMatches _ _ := false
  state _ _ := false

def nthChildTest (n : Int) : SimpleSelector := .pseudoClass (.nth .child 0 n) .nil

/-- `.c > :nth-child(33)`. -/
def lastOfClass : CSSSelector := .next (nthChildTest 33) .child false (.last (.className ['c']))

/-- `:nth-child(1) > :nth-child(33)`. -/
def lastOfFirst : CSSSelector := .next (nthChildTest 33) .child false (.last (nthChildTest 1))

theorem manyChildren_fragments : FragmentsAreRoots manyChildren := by
  intro n hn
  have htype : manyChildren.nodeType n = if n = 0 then .document else .element := rfl
  unfold Heap.isDocumentFragment at hn
  rw [htype] at hn
  split at hn <;> cases hn

/-- The list is searched, and its last item is found. -/
theorem query_lastOfClass : searched manyChildren manyFacts lastOfClass 0 = List.range' 2 33 ∧
    accepted manyChildren manyFacts lastOfClass 0 = [34] ∧
    OneScope manyChildren manyFacts lastOfClass 0 ∧
    Allowed (machine (NthQuery.next manyChildren manyNames 0))
      (fun cache q => q.answered manyChildren manyNames 0 cache = true) {}
      (placesAsked manyChildren manyFacts lastOfClass 0) :=
  ⟨by decide +kernel, by decide +kernel,
    (selectorQuery_iff manyChildren_wellFormed manyChildren_fragments
      ⟨rfl, rfl, rfl, rfl, by decide⟩).2.mp ⟨by decide +kernel, by decide +kernel⟩⟩

/-- The place of the last item creates the map, which has no entry for the place of the list. -/
theorem query_throws : Implemented manyChildren manyFacts lastOfFirst 0 ∧
    accepted manyChildren manyFacts lastOfFirst 0 = [34] ∧
    (ofSelector lastOfFirst).queryAll manyChildren manyFacts 0 = none :=
  ⟨⟨rfl, rfl, rfl, rfl, by decide⟩, by decide +kernel, by decide +kernel⟩

end SelectorQuery

end Blinkit.Css
