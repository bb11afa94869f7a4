import Blinkit.Css.PrunedSearch

/-!
# What a selector means

The meaning of a selector is stated without statuses and without loops, and compared with the
checker, which gives up early: a status may rule out the elements that a loop would try next.

* `Satisfies`, `SatisfiesOne` — an element satisfies a selector, or a simple selector.
* `Related` — the elements that a combinator leads to.
* `isPlain` — a selector without pseudo-elements, as a query takes it.
* `Upward` — what is left for the loops around an element: its earlier siblings, and the elements
  above with theirs.
* `Means` — what a status says about these.

Principal results: `matchSelector_means`: each status means what the comment of the source says;
`selectorMatches_decides`: `SelectorMatches` decides `Satisfies`.
-/

set_option autoImplicit false

namespace Blinkit.Css

open Dom Dom.Attributes LinkedForest Asking

/-! ## Counting -/

/-- A number from `b` on is `b` and a multiple of `a` when the division leaves nothing. -/
theorem mod_eq_zero_iff {a b c : Int} (ha : 0 < a) (hb : b ≤ c) :
    (c - b) % a = 0 ↔ ∃ n : Nat, a * n + b = c := by
  constructor
  · intro hmod
    obtain ⟨k, hk⟩ := Int.dvd_of_emod_eq_zero hmod
    have hk₀ : 0 ≤ k := by
      by_contra hneg
      have hlt : a * k < 0 := Int.mul_neg_of_pos_of_neg ha (by omega)
      omega
    refine ⟨k.toNat, ?_⟩
    rw [Int.toNat_of_nonneg hk₀]
    omega
  · rintro ⟨n, rfl⟩
    rw [Int.add_sub_cancel]
    exact Int.mul_emod_right a n

/-- The values for which `MatchNth` does not give up. -/
def NthInRange (a b : Int) (count : Nat) : Prop :=
  (count : Int) < 2 ^ 30 ∧ (-2 ^ 30 ≤ a ∧ a < 2 ^ 30) ∧ -2 ^ 30 ≤ b ∧ b < 2 ^ 30

/-- **`MatchNth`** : the count is one of `b`, `a + b`, `2 a + b` and so on. -/
theorem matchNth_iff (a b : Int) (count : Nat) :
    matchNth a b count = true ↔ NthInRange a b count ∧ ∃ n : Nat, a * n + b = count := by
  have hmax : ((2 : Int) ^ 31 - 1) / 2 = 1073741823 := by decide
  have hmin : (-2 ^ 31 / 2 : Int) = -1073741824 := by decide
  have hpow : (2 : Int) ^ 30 = 1073741824 := by decide
  unfold matchNth NthInRange
  dsimp only
  rw [hmax, hmin, hpow]
  split
  · rename_i hrange
    exact iff_of_false Bool.false_ne_true fun h => by omega
  · rename_i hrange
    have hin : ((count : Int) < 1073741824 ∧ (-1073741824 ≤ a ∧ a < 1073741824) ∧
        -1073741824 ≤ b ∧ b < 1073741824) := by omega
    rw [and_iff_right hin]
    split
    · rename_i ha
      rw [beq_iff_eq, ha]
      constructor
      · intro hcount
        exact ⟨0, by omega⟩
      · rintro ⟨n, hn⟩
        omega
    · rename_i ha
      split
      · rename_i hpos
        split
        · rename_i hlt
          refine iff_of_false Bool.false_ne_true ?_
          rintro ⟨n, hn⟩
          have hnonneg : 0 ≤ a * n := Int.mul_nonneg (by omega) (by omega)
          omega
        · rename_i hge
          rw [beq_iff_eq]
          exact mod_eq_zero_iff hpos (by omega)
      · rename_i hpos
        split
        · rename_i hlt
          refine iff_of_false Bool.false_ne_true ?_
          rintro ⟨n, hn⟩
          have hnonneg : 0 ≤ -a * n := Int.mul_nonneg (by omega) (by omega)
          rw [Int.neg_mul] at hnonneg
          omega
        · rename_i hge
          rw [beq_iff_eq, mod_eq_zero_iff (by omega) (by omega)]
          refine exists_congr fun n => ?_
          rw [Int.neg_mul]
          omega

/-! ## The meaning of a selector -/

/-- No simple selector is a pseudo-element. -/
def namesPseudoElement (simple : SimpleSelector) (_ : RelationType) (affected : Bool) : Bool :=
  affected || simple.isPseudoElement

/-- A selector without pseudo-elements. -/
def CSSSelector.isPlain (s : CSSSelector) : Bool := !s.forAnyInTagHistory namesPseudoElement

def SimpleSelector.isPlain (s : SimpleSelector) : Bool :=
  !(s.isPseudoElement || s.forAnyInSelectorList namesPseudoElement)

def CSSSelectorList.isPlain (l : CSSSelectorList) : Bool := !l.forAny namesPseudoElement

section Meaning

variable (h : Heap) (facts : ElementFacts)

/-- The siblings behind an element. -/
def laterSiblings (e : NodeId) : List NodeId :=
  ((elementSiblings h e).reverse.takeWhile (· ≠ e)).reverse

/-- No element of the list has the name of `e`. -/
def NoneOfType (e : NodeId) (l : List NodeId) : Prop :=
  ∀ x ∈ l, facts.hasTagName (facts.tagQName e) x = false

/-- The element is `:root`. -/
def IsRoot (e : NodeId) : Prop := facts.documentElement (h.document e) = some e

/-- The pseudo-classes without a selector list. -/
def PseudoHolds (scope : Option NodeId) (e : NodeId) : PseudoClass → Prop
  | .firstChild => earlierSiblings h e = []
  | .lastChild => laterSiblings h e = []
  | .onlyChild => earlierSiblings h e = [] ∧ laterSiblings h e = []
  | .firstOfType => NoneOfType facts e (earlierSiblings h e)
  | .lastOfType => NoneOfType facts e (laterSiblings h e)
  | .onlyOfType => NoneOfType facts e (earlierSiblings h e) ∧ NoneOfType facts e (laterSiblings h e)
  | .nth position a b =>
    NthInRange a b (plainIndex h facts.toElementNames (position.query e)) ∧
      ∃ n : Nat, a * n + b = plainIndex h facts.toElementNames (position.query e)
  | .root => IsRoot h facts e
  | .scope => ∃ s, scope = some s ∧ if s = h.document e then IsRoot h facts e else s = e
  | .other type => facts.state type e = true
  | .not => False
  | .any => False
  | .visited => False
  | .host => False
  | .hostContext => False

/-- A combinator leads from `e` to `x`. -/
def Related (relation : RelationType) (e x : NodeId) : Prop :=
  match relation with
  | .descendant => ElementAbove h e x
  | .shadowDeep => ElementAbove h e x
  | .shadowDeepAsDescendant => ElementAbove h e x
  | .child => parentElement h e = some x
  | .directAdjacent => (earlierSiblings h e).getLast? = some x
  | .indirectAdjacent => x ∈ earlierSiblings h e
  | _ => False

/-- A combinator leads from `e` to a fragment that is the scope, which is no element. -/
def ReachesFragment (scope : Option NodeId) (tagHistory : CSSSelector) (relation : RelationType)
    (e : NodeId) : Prop :=
  (tagHistory.isLastScope && scope.any h.isDocumentFragment) = true ∧
    match relation with
    | .descendant => True
    | .shadowDeepAsDescendant => True
    | .child => h.parentNode e = scope
    | _ => False

/-- A combinator leads from `e` to an element that satisfies the rest, or to the fragment. -/
def Leads (scope : Option NodeId) (tagHistory : CSSSelector) (relation : RelationType)
    (sat : NodeId → Prop) (e : NodeId) : Prop :=
  ReachesFragment h scope tagHistory relation e ∨ ∃ x, Related h relation e x ∧ sat x

mutual

/-- The element satisfies a simple selector. -/
def SatisfiesOne (scope : Option NodeId) : SimpleSelector → NodeId → Prop
  | .tag name, e => matchesTagName h facts e name = true
  | .className value, e => facts.hasClassName e value = true
  | .id value, e => facts.idForStyleResolution e = some value
  | .attr a, e => facts.anyAttributeMatches a e = true
  | .pseudoClass type selectorList, e =>
    if type = .not then FirstFails scope selectorList e
    else if type = .any then SatisfiesAny scope selectorList e
    else PseudoHolds h facts scope e type
  | .pseudoElement _ _, _ => False

/-- The first selector of the list fails. -/
def FirstFails (scope : Option NodeId) : CSSSelectorList → NodeId → Prop
  | .nil, _ => False
  | .cons first _, e => SomeFails scope first e

/-- One of the simple selectors fails or is `:visited`. The list of `:not` has no combinators. -/
def SomeFails (scope : Option NodeId) : CSSSelector → NodeId → Prop
  | .last simple, e => simple.isVisited = true ∨ ¬ SatisfiesOne scope simple e
  | .next simple _ _ tagHistory, e =>
    (simple.isVisited = true ∨ ¬ SatisfiesOne scope simple e) ∨ SomeFails scope tagHistory e

/-- The element satisfies a selector of the list. -/
def SatisfiesAny (scope : Option NodeId) : CSSSelectorList → NodeId → Prop
  | .nil, _ => False
  | .cons first rest, e => Satisfies scope first e ∨ SatisfiesAny scope rest e

/-- **The element satisfies a selector**, as seen from the scope. -/
def Satisfies (scope : Option NodeId) : CSSSelector → NodeId → Prop
  | .last simple, e =>
    SatisfiesOne scope simple e ∧ ∀ s, scope = some s → h.document s = h.document e
  | .next simple relation _ tagHistory, e =>
    SatisfiesOne scope simple e ∧
      if relation = .subSelector then Satisfies scope tagHistory e
      else Leads h scope tagHistory relation (Satisfies scope tagHistory) e

end

/-- What is in front of the loops around `e`: its siblings, and the elements above with theirs. -/
def Upward (e x : NodeId) : Prop :=
  (x = e ∨ x ∈ earlierSiblings h e) ∨
    ∃ a, ElementAbove h e a ∧ (x = a ∨ x ∈ earlierSiblings h a)

/-- What a status says: `kSelectorFailsAllSiblings` and `kSelectorFailsCompletely` speak about the
elements that a loop would try next, too. -/
def Means (sat : NodeId → Prop) (e : NodeId) : MatchStatus → Prop
  | .selectorMatches => sat e
  | .failsLocally => ¬ sat e
  | .failsAllSiblings => ∀ x, x = e ∨ x ∈ earlierSiblings h e → ¬ sat x
  | .failsCompletely => ∀ x, Upward h e x → ¬ sat x

end Meaning

/-! ## Around an element -/

section Around

variable {h : Heap} {ch : NodeId → List NodeId} {e x y a b p : NodeId} {sat : NodeId → Prop}

theorem upward_self (e : NodeId) : Upward h e e := .inl (.inl rfl)

/-- The siblings of an element have its parent. -/
theorem parentNode_of_before (w : WellFormed h ch) (he : h.isElementNode e = true)
    (hx : x = e ∨ x ∈ earlierSiblings h e) : h.parentNode x = h.parentNode e := by
  rcases hx with rfl | hx
  · rfl
  · exact (mem_earlierSiblings w he hx).2

theorem parentElement_congr (hsame : h.parentNode x = h.parentNode e) :
    parentElement h x = parentElement h e := by
  unfold parentElement
  rw [hsame]

theorem earlierSiblings_trans (w : WellFormed h ch) (he : h.isElementNode e = true)
    (hx : x = e ∨ x ∈ earlierSiblings h e) (hy : y ∈ earlierSiblings h x) :
    y ∈ earlierSiblings h e := by
  rcases hx with rfl | hx
  · exact hy
  · obtain ⟨l, r, hsplit⟩ := List.append_of_mem hx
    rw [(earlierSiblings_split w he hsplit).2.2] at hy
    rw [hsplit]
    exact List.mem_append_left _ hy

/-- What is above an element in front of the loops is above `e`. -/
theorem Upward.above (w : WellFormed h ch) (he : h.isElementNode e = true) (hx : Upward h e x)
    (hb : ElementAbove h x b) : ElementAbove h e b := by
  rcases hx with hx | ⟨a, ha, hx⟩
  · exact hb.of_sibling (parentNode_of_before w he hx)
  · exact ha.trans (hb.of_sibling (parentNode_of_before w ha.isElementNode hx))

/-- Its parent is in front of the loops around the parent of `e`. -/
theorem Upward.parent (w : WellFormed h ch) (he : h.isElementNode e = true) (hx : Upward h e x)
    (hp : parentElement h e = some p) (hy : parentElement h x = some y) : Upward h p y := by
  obtain ⟨q, hq, habove⟩ := hx.above w he ⟨y, hy, .refl y⟩
  rw [hp] at hq
  obtain rfl := Option.some.inj hq
  rcases above_iff_head.mp habove with rfl | ⟨q, hq, hqy⟩
  · exact upward_self _
  · exact .inr ⟨y, ⟨q, hq, hqy⟩, .inl rfl⟩

/-- Its earlier siblings are in front of the loops around a sibling in front of `e`. -/
theorem Upward.earlier (w : WellFormed h ch) (he : h.isElementNode e = true) (hx : Upward h e x)
    (hy : y ∈ earlierSiblings h x) :
    y ∈ earlierSiblings h e ∨ ∃ a, ElementAbove h e a ∧ y ∈ earlierSiblings h a := by
  rcases hx with hx | ⟨a, ha, hx⟩
  · exact .inl (earlierSiblings_trans w he hx hy)
  · exact .inr ⟨a, ha, earlierSiblings_trans w ha.isElementNode hx hy⟩

/-- A status other than `kSelectorMatches` says at least that the element fails. -/
theorem Means.fails {status : MatchStatus} (hm : Means h sat e status)
    (hne : status ≠ .selectorMatches) : ¬ sat e := by
  cases status with
  | selectorMatches => exact absurd rfl hne
  | failsLocally => exact hm
  | failsAllSiblings => exact hm e (.inl rfl)
  | failsCompletely => exact hm e (upward_self e)

theorem Means.iff {status : MatchStatus} (hm : Means h sat e status) :
    status = .selectorMatches ↔ sat e := by
  constructor
  · rintro rfl
    exact hm
  · intro hsat
    by_contra hne
    exact hm.fails hne hsat

/-- A status of what comes behind a simple selector is one of the whole, when the element has the
simple selector. -/
theorem Means.and {one : NodeId → Prop} {status : MatchStatus} (hm : Means h sat e status)
    (hone : one e) : Means h (fun x => one x ∧ sat x) e status := by
  cases status with
  | selectorMatches => exact ⟨hone, hm⟩
  | failsLocally => exact fun hboth => hm hboth.2
  | failsAllSiblings => exact fun x hx hboth => hm x hx hboth.2
  | failsCompletely => exact fun x hx hboth => hm x hx hboth.2

end Around

/-! ## The combinators -/

section Combinators

variable {h : Heap} {ch : NodeId → List NodeId} {answer : NthQuery → Nat} {e p x : NodeId}
  {sat : NodeId → Prop} {check : NodeId → Option PseudoId → Checked MatchStatus}
  {scope : Option NodeId} {t : CSSSelector} {status : MatchStatus}

/-- The loop over the ancestors finds one that satisfies the rest, or there is none. -/
inductive AncestorsDecided (h : Heap) (sat : NodeId → Prop) (e : NodeId) : MatchStatus → Prop
  | found (a : NodeId) (ha : ElementAbove h e a) (hsat : sat a) :
    AncestorsDecided h sat e .selectorMatches
  | none (hnone : ∀ a, ElementAbove h e a → ¬ sat a) : AncestorsDecided h sat e .failsCompletely

/-- An element that a loop has passed fails. -/
theorem fails_of_passed {stop : MatchStatus × Option PseudoId → Bool}
    (hstop : ∀ d, stop (.selectorMatches, d) = true)
    (hpassed : ∃ m, stop m = false ∧ m.2 = none ∧ Means h sat e m.1) : ¬ sat e := by
  obtain ⟨⟨status, d⟩, hon, -, hmeans⟩ := hpassed
  refine hmeans.fails ?_
  rintro rfl
  rw [hstop d] at hon
  cases hon

/-- A loop of a combinator, with no dynamic pseudo-element. -/
theorem forElements_searches {step : NodeId → Option (Option NodeId)} {stop : MatchStatus → Bool}
    {atEnd : MatchStatus} {r : List NodeId} (g : Goes h step e r)
    (hcheck : ∀ a ∈ r, (check a none).Ends answer (OfElement h) fun m _ =>
      m.2 = none ∧ Means h sat a m.1) :
    (forElements step stop atEnd check h.bound r.head?).Ends answer (OfElement h) fun m _ =>
      Searched (fun m => stop m.1) (fun a m => m.2 = none ∧ Means h sat a m.1)
        (fun m => m.1 = atEnd ∧ m.2 = none) r m := by
  refine forElements_ends (D := (· = none)) g (fun a ha d hd => ?_) (fun _ _ hm => hm.1) rfl
  rw [hd]
  exact hcheck a ha

theorem forAncestors_decides (w : WellFormed h ch)
    (hcheck : ∀ a, ElementAbove h e a → (check a none).Ends answer (OfElement h) fun m _ =>
      m.2 = none ∧ Means h sat a m.1) :
    (forAncestors h e check).Ends answer (OfElement h) fun m _ =>
      m.2 = none ∧ AncestorsDecided h sat e m.1 := by
  obtain ⟨r, g, hr⟩ := parentElement_goes w e
  unfold forAncestors
  rw [Option.some.inj g.first]
  refine (forElements_searches g fun a ha => hcheck a ((mem_climbs_iff hr).mp ha)).mono
    fun m _ hm => ?_
  rcases hm with ⟨pre, a, post, rfl, ⟨hstop, hd, hmeans⟩, hpre⟩ | ⟨⟨hend, hd⟩, hall⟩
  · refine ⟨hd, ?_⟩
    have ha : ElementAbove h e a := (mem_climbs_iff hr).mp (by simp)
    obtain ⟨status, d⟩ := m
    cases status with
    | selectorMatches => exact .found a ha hmeans
    | failsLocally => cases hstop
    | failsAllSiblings => cases hstop
    | failsCompletely =>
      refine .none fun b hb => ?_
      rcases List.mem_append.mp ((mem_climbs_iff hr).mpr hb) with hb | hb
      · exact fails_of_passed (fun _ => rfl) (hpre b hb)
      · rcases List.mem_cons.mp hb with rfl | hb
        · exact hmeans b (upward_self b)
        · exact hmeans b (.inr ⟨b, (mem_climbs_iff hr.rest.2).mp hb, .inl rfl⟩)
  · refine ⟨hd, ?_⟩
    rw [hend]
    exact .none fun b hb => fails_of_passed (fun _ => rfl) (hall b ((mem_climbs_iff hr).mpr hb))

/-- The loop over the siblings finds one that satisfies the rest, or there is none, or there is none
above either. -/
inductive SiblingsDecided (h : Heap) (sat : NodeId → Prop) (e : NodeId) : MatchStatus → Prop
  | found (x : NodeId) (hx : x ∈ earlierSiblings h e) (hsat : sat x) :
    SiblingsDecided h sat e .selectorMatches
  | none (hnone : ∀ x ∈ earlierSiblings h e, ¬ sat x) : SiblingsDecided h sat e .failsAllSiblings
  | noneAbove (hnone : ∀ x ∈ earlierSiblings h e, ¬ sat x)
    (habove : ∀ a, ElementAbove h e a → ∀ x ∈ earlierSiblings h a, ¬ sat x) :
    SiblingsDecided h sat e .failsCompletely

theorem forSiblings_decides (w : WellFormed h ch) (he : h.isElementNode e = true)
    (hcheck : ∀ x, h.isElementNode x = true → (check x none).Ends answer (OfElement h) fun m _ =>
      m.2 = none ∧ Means h sat x m.1) :
    (forSiblings h e check).Ends answer (OfElement h) fun m _ =>
      m.2 = none ∧ SiblingsDecided h sat e m.1 := by
  have g := previousSibling_goes w he
  unfold forSiblings
  refine Ends.bind (S := fun first _ => first = (earlierSiblings h e).reverse.head?)
    (.ofOption g.first rfl) ?_
  rintro _ - rfl
  refine (forElements_searches g fun x hx =>
    hcheck x (mem_earlierSiblings w he (List.mem_reverse.mp hx)).1).mono fun m _ hm => ?_
  rcases hm with ⟨pre, x, post, hr, ⟨hstop, hd, hmeans⟩, hpre⟩ | ⟨⟨hend, hd⟩, hall⟩
  · refine ⟨hd, ?_⟩
    have hsplit : earlierSiblings h e = post.reverse ++ x :: pre.reverse := by
      rw [List.reverse_eq_iff.mp hr, List.reverse_append, List.reverse_cons, List.append_assoc]
      rfl
    obtain ⟨-, hparent, hbefore⟩ := earlierSiblings_split w he hsplit
    have hx : x ∈ earlierSiblings h e := by
      rw [hsplit]
      simp
    -- what is neither `x` nor in front of it has been passed
    have hnone : (∀ y, y = x ∨ y ∈ earlierSiblings h x → ¬ sat y) →
        ∀ y ∈ earlierSiblings h e, ¬ sat y := by
      intro hrest y hy
      rw [hsplit] at hy
      rcases List.mem_append.mp hy with hy | hy
      · exact hrest y (.inr (hbefore ▸ hy))
      · rcases List.mem_cons.mp hy with rfl | hy
        · exact hrest y (.inl rfl)
        · exact fails_of_passed (fun _ => rfl) (hpre y (List.mem_reverse.mp hy))
    obtain ⟨status, d⟩ := m
    cases status with
    | selectorMatches => exact .found x hx hmeans
    | failsLocally => cases hstop
    | failsAllSiblings => exact .none (hnone hmeans)
    | failsCompletely =>
      refine .noneAbove (hnone fun y hy => hmeans y (.inl hy)) fun a ha y hy => ?_
      exact hmeans y (.inr ⟨a, ha.of_sibling hparent.symm, .inr hy⟩)
  · refine ⟨hd, ?_⟩
    rw [hend]
    exact .none fun y hy => fails_of_passed (fun _ => rfl) (hall y (List.mem_reverse.mpr hy))

theorem AncestorsDecided.means (w : WellFormed h ch) (he : h.isElementNode e = true)
    {relation : RelationType} (hd : AncestorsDecided h sat e status)
    (hrelated : ∀ x y, Related h relation x y ↔ ElementAbove h x y)
    (hfragment : ∀ x, ¬ ReachesFragment h scope t relation x) :
    Means h (Leads h scope t relation sat) e status := by
  cases hd with
  | found a ha hsat => exact .inr ⟨a, (hrelated e a).mpr ha, hsat⟩
  | none hnone =>
    rintro x hx (hreaches | ⟨y, hy, hsat⟩)
    · exact hfragment x hreaches
    · exact hnone y (hx.above w he ((hrelated x y).mp hy)) hsat

theorem SiblingsDecided.means (w : WellFormed h ch) (he : h.isElementNode e = true)
    (hd : SiblingsDecided h sat e status) :
    Means h (Leads h scope t .indirectAdjacent sat) e status := by
  cases hd with
  | found x hx hsat => exact .inr ⟨x, hx, hsat⟩
  | none hnone =>
    rintro x hx (⟨-, ⟨⟩⟩ | ⟨y, hy, hsat⟩)
    exact hnone y (earlierSiblings_trans w he hx hy) hsat
  | noneAbove hnone habove =>
    rintro x hx (⟨-, ⟨⟩⟩ | ⟨y, hy, hsat⟩)
    rcases hx.earlier w he hy with hy | ⟨a, ha, hy⟩
    · exact hnone y hy hsat
    · exact habove a ha y hy hsat

/-- The status of the parent is one of the element. -/
theorem Means.of_parent (w : WellFormed h ch) (he : h.isElementNode e = true)
    (hp : parentElement h e = some p) (hm : Means h sat p status)
    (hlocal : t.isLastScope = true → status = .selectorMatches ∨ status = .failsLocally)
    (hfragment : ¬ ReachesFragment h scope t .child e) :
    Means h (Leads h scope t .child sat) e status := by
  have hnone : status ≠ .selectorMatches → status ≠ .failsLocally →
      ∀ x, ¬ ReachesFragment h scope t .child x := by
    rintro hmatches hfails x ⟨hscope, -⟩
    exact (hlocal (Bool.and_eq_true_iff.mp hscope).1).elim hmatches hfails
  cases status with
  | selectorMatches => exact .inr ⟨p, hp, hm⟩
  | failsLocally =>
    rintro (hreaches | ⟨y, hy, hsat⟩)
    · exact hfragment hreaches
    · obtain rfl := Option.some.inj (hp.symm.trans hy)
      exact hm hsat
  | failsAllSiblings =>
    rintro x hx (hreaches | ⟨y, hy, hsat⟩)
    · exact hnone (by decide) (by decide) x hreaches
    · have hsame := parentElement_congr (parentNode_of_before w he hx)
      obtain rfl := Option.some.inj ((hsame.trans hp).symm.trans hy)
      exact hm _ (.inl rfl) hsat
  | failsCompletely =>
    rintro x hx (hreaches | ⟨y, hy, hsat⟩)
    · exact hnone (by decide) (by decide) x hreaches
    · exact hm y (hx.parent w he hp hy) hsat

/-- Without a parent element no element in front of the loops has one. -/
theorem means_of_no_parent (w : WellFormed h ch) (he : h.isElementNode e = true)
    (hp : parentElement h e = none) (hfragment : ¬ ReachesFragment h scope t .child e) :
    Means h (Leads h scope t .child sat) e .failsCompletely := by
  rintro x hx hleads
  have hbefore : x = e ∨ x ∈ earlierSiblings h e := by
    refine hx.resolve_right ?_
    rintro ⟨a, ⟨q, hq, -⟩, -⟩
    rw [hp] at hq
    cases hq
  have hsame := parentNode_of_before w he hbefore
  rcases hleads with ⟨hscope, hreaches⟩ | ⟨y, hy, -⟩
  · exact hfragment ⟨hscope, hsame.symm.trans hreaches⟩
  · have hy' : parentElement h x = some y := hy
    rw [parentElement_congr hsame, hp] at hy'
    cases hy'

/-- The status of the sibling in front is one of the element. -/
theorem Means.of_sibling (w : WellFormed h ch) (he : h.isElementNode e = true)
    (hx : (earlierSiblings h e).getLast? = some x) (hm : Means h sat x status) :
    Means h (Leads h scope t .directAdjacent sat) e status := by
  have hsplit := List.dropLast_append_getLast? x hx
  obtain ⟨hxe, hparent, hbefore⟩ := earlierSiblings_split w he hsplit.symm
  -- the sibling in front of an earlier one is in front of `x`
  have hearlier : ∀ y, y ∈ earlierSiblings h e → ∀ z, (earlierSiblings h y).getLast? = some z →
      z ∈ earlierSiblings h x := by
    intro y hy z hz
    have hz' := List.mem_of_getLast? hz
    rw [← hsplit] at hy
    refine earlierSiblings_trans w hxe ?_ hz'
    rcases List.mem_append.mp hy with hy | hy
    · exact .inr (hbefore ▸ hy)
    · exact .inl (List.mem_singleton.mp hy)
  cases status with
  | selectorMatches => exact .inr ⟨x, hx, hm⟩
  | failsLocally =>
    rintro (⟨-, ⟨⟩⟩ | ⟨y, hy, hsat⟩)
    obtain rfl := Option.some.inj (hx.symm.trans hy)
    exact hm hsat
  | failsAllSiblings =>
    rintro y hy (⟨-, ⟨⟩⟩ | ⟨z, hz, hsat⟩)
    rcases hy with rfl | hy
    · obtain rfl := Option.some.inj (hx.symm.trans hz)
      exact hm x (.inl rfl) hsat
    · exact hm z (.inr (hearlier y hy z hz)) hsat
  | failsCompletely =>
    rintro y hy (⟨-, ⟨⟩⟩ | ⟨z, hz, hsat⟩)
    rcases hy with (rfl | hy) | ⟨a, ha, hy⟩
    · obtain rfl := Option.some.inj (hx.symm.trans hz)
      exact hm x (upward_self x) hsat
    · exact hm z (.inl (.inr (hearlier y hy z hz))) hsat
    · refine hm z (.inr ⟨a, ha.of_sibling hparent.symm, .inr ?_⟩) hsat
      exact earlierSiblings_trans w ha.isElementNode hy (List.mem_of_getLast? hz)

/-- An element without a sibling in front has none that the loop over the siblings would try. -/
theorem means_of_no_sibling (w : WellFormed h ch) (he : h.isElementNode e = true)
    (hx : (earlierSiblings h e).getLast? = none) :
    Means h (Leads h scope t .directAdjacent sat) e .failsAllSiblings := by
  rintro y hy (⟨-, ⟨⟩⟩ | ⟨z, hz, -⟩)
  have hmem := earlierSiblings_trans w he hy (List.mem_of_getLast? hz)
  rw [List.getLast?_eq_none_iff.mp hx] at hmem
  cases hmem

/-- **The combinators.** The status of the whole means what the statuses of the rest mean. -/
theorem matchForRelation_means (w : WellFormed h ch) (relation : RelationType) {c : Context}
    (he : h.isElementNode c.element = true) (hshadow : t.simple.isShadow = false)
    {matchNext : Context → Option PseudoId → Checked MatchStatus}
    (hnext : ∀ e, h.isElementNode e = true →
      (matchNext { c with element := e, inRightmostCompound := false } none).Ends answer
        (OfElement h) fun m _ => (m.2 = none ∧ Means h sat e m.1) ∧
          (t.isLastScope = true → m.1 = .selectorMatches ∨ m.1 = .failsLocally)) :
    (matchForRelation h relation false t c matchNext).Ends answer (OfElement h) fun m _ =>
      m.2 = none ∧ Means h (Leads h c.scope t relation sat) c.element m.1 := by
  have hmeans : ∀ e, h.isElementNode e = true →
      (matchNext { c with element := e, inRightmostCompound := false } none).Ends answer
        (OfElement h) fun m _ => m.2 = none ∧ Means h sat e m.1 :=
    fun e he => (hnext e he).mono fun _ _ hm => hm.1
  have hancestors : ∀ relation, (∀ x y, Related h relation x y ↔ ElementAbove h x y) →
      (∀ x, ¬ ReachesFragment h c.scope t relation x) →
      (forAncestors h c.element fun e d =>
        matchNext { c with element := e, inRightmostCompound := false } d).Ends answer (OfElement h)
          fun m _ => m.2 = none ∧ Means h (Leads h c.scope t relation sat) c.element m.1 := by
    intro relation hrelated hfragment
    refine (forAncestors_decides w fun a ha => hmeans a ha.isElementNode).mono fun m _ hm => ?_
    exact ⟨hm.1, hm.2.means w he hrelated hfragment⟩
  have hnever : (∀ x y, ¬ Related h relation x y) →
      (∀ x, ¬ ReachesFragment h c.scope t relation x) →
      Means h (Leads h c.scope t relation sat) c.element .failsCompletely := by
    rintro hrelated hfragment x - (hreaches | ⟨y, hy, -⟩)
    · exact hfragment x hreaches
    · exact hrelated x y hy
  unfold matchForRelation
  rw [hshadow]
  cases relation with
  | descendant | shadowDeepAsDescendant =>
    dsimp only
    split
    · rename_i hscope
      exact .done ⟨rfl, .inl ⟨hscope, trivial⟩⟩
    · rename_i hscope
      exact hancestors _ (fun _ _ => Iff.rfl) fun _ hreaches => hscope hreaches.1
  | shadowDeep => exact hancestors _ (fun _ _ => Iff.rfl) fun _ ⟨_, hfalse⟩ => hfalse
  | child =>
    dsimp only
    split
    · rename_i hscope
      exact .done ⟨rfl, .inl hscope⟩
    · rename_i hscope
      cases hp : parentElement h c.element with
      | none => exact .done ⟨rfl, means_of_no_parent w he hp hscope⟩
      | some p =>
        refine (hnext p (parentElement_iff.mp hp).2).mono fun m _ hm => ?_
        exact ⟨hm.1.1, hm.1.2.of_parent w he hp hm.2 hscope⟩
  | directAdjacent =>
    dsimp only
    refine Ends.bind (S := fun first _ => first = (earlierSiblings h c.element).getLast?)
      (.ofOption ?_ rfl) ?_
    · rw [← List.head?_reverse]
      exact (previousSibling_goes w he).first
    · rintro _ - rfl
      cases hx : (earlierSiblings h c.element).getLast? with
      | none => exact .done ⟨rfl, means_of_no_sibling w he hx⟩
      | some x =>
        have hmem := mem_earlierSiblings w he (List.mem_of_getLast? hx)
        exact (hmeans x hmem.1).mono fun m _ hm => ⟨hm.1, hm.2.of_sibling w he hx⟩
  | indirectAdjacent =>
    exact (forSiblings_decides w he hmeans).mono fun m _ hm => ⟨hm.1, hm.2.means w he⟩
  | _ => exact .done ⟨rfl, hnever (fun _ _ hfalse => hfalse) fun _ ⟨_, hfalse⟩ => hfalse⟩

end Combinators

/-! ## Simple selectors -/

section Simple

variable {h : Heap} {facts : ElementFacts} {ch : NodeId → List NodeId} {e : NodeId} {c : Context}

theorem isFirstChild_eq (w : WellFormed h ch) (he : h.isElementNode e = true) :
    ∃ b, isFirstChild h e = some b ∧ (b = true ↔ earlierSiblings h e = []) := by
  refine ⟨_, (previousSibling_goes w he).isNone, ?_⟩
  rw [List.isEmpty_iff, List.reverse_eq_nil_iff]

theorem isLastChild_eq (w : WellFormed h ch) (he : h.isElementNode e = true) :
    ∃ b, isLastChild h e = some b ∧ (b = true ↔ laterSiblings h e = []) :=
  ⟨_, (nextSibling_goes w he).isNone, List.isEmpty_iff⟩

/-- A search for the type of the element finds nothing. -/
theorem find_isNone_iff (facts : ElementFacts) (e : NodeId) (l : List NodeId) :
    (l.find? (facts.hasTagName (facts.tagQName e))).isNone = true ↔ NoneOfType facts e l := by
  rw [Option.isNone_iff_eq_none, List.find?_eq_none]
  exact forall₂_congr fun x _ => Bool.eq_false_iff.symm

theorem isFirstOfType_eq (w : WellFormed h ch) (facts : ElementFacts)
    (he : h.isElementNode e = true) :
    ∃ b, isFirstOfType h facts e = some b ∧
      (b = true ↔ NoneOfType facts e (earlierSiblings h e)) := by
  unfold isFirstOfType ElementTraversal.previousSiblingMatch
  rw [(previousSibling_goes w he).seek]
  refine ⟨_, rfl, (find_isNone_iff facts e _).trans ?_⟩
  unfold NoneOfType
  simp only [List.mem_reverse]

theorem isLastOfType_eq (w : WellFormed h ch) (facts : ElementFacts)
    (he : h.isElementNode e = true) :
    ∃ b, isLastOfType h facts e = some b ∧
      (b = true ↔ NoneOfType facts e (laterSiblings h e)) := by
  unfold isLastOfType ElementTraversal.nextSiblingMatch
  rw [(nextSibling_goes w he).seek]
  exact ⟨_, rfl, find_isNone_iff facts e _⟩

/-- Two tests, the second of which is made when the first is passed. -/
theorem bothTests_iff {answer : NthQuery → Nat} {first second : Option Bool} {A B : Prop}
    (hfirst : ∃ b, first = some b ∧ (b = true ↔ A))
    (hsecond : ∃ b, second = some b ∧ (b = true ↔ B)) :
    ((ofOption first).bind fun b => if b then ofOption second else .done false :
      Check Bool).Ends answer (OfElement h) fun b _ => b = true ↔ A ∧ B := by
  obtain ⟨b, hb, hA⟩ := hfirst
  obtain ⟨b', hb', hB⟩ := hsecond
  refine Ends.bind (S := fun b _ => b = true ↔ A) (.ofOption hb hA) fun b _ hA => ?_
  split
  · rename_i htrue
    exact .ofOption hb' (by rw [hB, and_iff_right (hA.mp htrue)])
  · rename_i hfalse
    exact .done (iff_of_false Bool.false_ne_true fun hboth => hfalse (hA.mpr hboth.1))

theorem checkPseudoClass_iff (w : WellFormed h ch) (he : h.isElementNode c.element = true)
    (type : PseudoClass) :
    (checkPseudoClass h facts c type).Ends (plainIndex h facts.toElementNames) (OfElement h)
      fun b _ => b = true ↔ PseudoHolds h facts c.scope c.element type := by
  have hfirst := isFirstChild_eq w he
  have hlast := isLastChild_eq w he
  have hfirstOfType := isFirstOfType_eq w facts he
  have hlastOfType := isLastOfType_eq w facts he
  cases type with
  | firstChild => exact hfirst.elim fun b hb => .ofOption hb.1 hb.2
  | lastChild => exact hlast.elim fun b hb => .ofOption hb.1 hb.2
  | onlyChild => exact bothTests_iff hfirst hlast
  | firstOfType => exact hfirstOfType.elim fun b hb => .ofOption hb.1 hb.2
  | lastOfType => exact hlastOfType.elim fun b hb => .ofOption hb.1 hb.2
  | onlyOfType => exact bothTests_iff hfirstOfType hlastOfType
  | nth position a b =>
    refine .question ?_ (matchNth_iff a b _)
    unfold OfElement
    rwa [NthPosition.query_element]
  | root => exact .done beq_iff_eq
  | scope =>
    refine .done ?_
    unfold PseudoHolds
    cases hscope : c.scope with
    | none => simp
    | some s =>
      simp only [Option.some.injEq, exists_eq_left']
      split
      · exact beq_iff_eq
      · exact beq_iff_eq
  | other type => exact .done Iff.rfl
  | _ => exact .done (iff_of_false Bool.false_ne_true id)

end Simple

/-! ## The checker -/

theorem isPlain_next {simple : SimpleSelector} {relation : RelationType} {affected : Bool}
    {tagHistory : CSSSelector}
    (hplain : (CSSSelector.next simple relation affected tagHistory).isPlain = true) :
    affected = false ∧ simple.isPlain = true ∧ tagHistory.isPlain = true := by
  simp only [CSSSelector.isPlain, CSSSelector.forAnyInTagHistory, namesPseudoElement, Bool.not_or,
    Bool.and_eq_true, Bool.not_eq_true'] at hplain
  obtain ⟨⟨⟨haffected, hpseudo⟩, hlist⟩, hrest⟩ := hplain
  refine ⟨haffected, ?_, ?_⟩
  · simp only [SimpleSelector.isPlain, hpseudo, Bool.false_or, Bool.not_eq_true']
    exact hlist
  · simp only [CSSSelector.isPlain, Bool.not_eq_true']
    exact hrest

theorem isPlain_cons {first : CSSSelector} {rest : CSSSelectorList}
    (hplain : (CSSSelectorList.cons first rest).isPlain = true) :
    first.isPlain = true ∧ rest.isPlain = true := by
  simp only [CSSSelectorList.isPlain, CSSSelectorList.forAny, Bool.not_or,
    Bool.and_eq_true] at hplain
  exact hplain

/-- No plain selector begins with `::shadow`. -/
theorem isShadow_of_isPlain {s : CSSSelector} (hplain : s.isPlain = true) :
    s.simple.isShadow = false := by
  have hsimple : s.simple.isPlain = true := by
    cases s with
    | last simple => exact hplain
    | next simple relation affected tagHistory => exact (isPlain_next hplain).2.1
  unfold SimpleSelector.isShadow
  split
  · rename_i heq
    rw [heq] at hsimple
    cases hsimple
  · rfl

section Checker

variable {h : Heap} {facts : ElementFacts} {ch : NodeId → List NodeId}

/-- What the checker returns for a plain selector. -/
def Decides (h : Heap) (s : CSSSelector) (sat : NodeId → Prop) (e : NodeId)
    (m : MatchStatus × Option PseudoId) : Prop :=
  (m.2 = none ∧ Means h sat e m.1) ∧
    (s.isLastScope = true → m.1 = .selectorMatches ∨ m.1 = .failsLocally)

theorem satisfies_next (scope : Option NodeId) (simple : SimpleSelector) (relation : RelationType)
    (affected : Bool) (t : CSSSelector) :
    Satisfies h facts scope (.next simple relation affected t) = fun e =>
      SatisfiesOne h facts scope simple e ∧
        if relation = .subSelector then Satisfies h facts scope t e
        else Leads h scope t relation (Satisfies h facts scope t) e := by
  funext e
  rw [Satisfies]

mutual

theorem checkOne_iff (w : WellFormed h ch) (s : SimpleSelector) (hplain : s.isPlain = true)
    (c : Context) (hc : c.hasScrollbarPseudo = false) (he : h.isElementNode c.element = true) :
    (checkOne h facts s c).Ends (plainIndex h facts.toElementNames) (OfElement h) fun r _ =>
      r.2 = none ∧ (r.1 = true ↔ SatisfiesOne h facts c.scope s c.element) := by
  cases s with
  | tag name => exact .done ⟨rfl, Iff.rfl⟩
  | className value => exact .done ⟨rfl, Iff.rfl⟩
  | id value => exact .done ⟨rfl, beq_iff_eq⟩
  | attr a => exact .done ⟨rfl, Iff.rfl⟩
  | pseudoElement type selectorList => cases hplain
  | pseudoClass type selectorList =>
    have hlist : selectorList.isPlain = true := hplain
    unfold checkOne SatisfiesOne
    rw [hc]
    split
    · exact checkPseudoNot_iff w selectorList hlist c hc he
    · refine Ends.bind (S := fun b _ => b = true ↔ if type = .any then
        SatisfiesAny h facts c.scope selectorList c.element
        else PseudoHolds h facts c.scope c.element type) ?_ fun b _ hb => .done ⟨rfl, hb⟩
      split
      · exact checkAny_iff w selectorList hlist c hc he
      · exact checkPseudoClass_iff w he type

theorem checkPseudoNot_iff (w : WellFormed h ch) (l : CSSSelectorList) (hplain : l.isPlain = true)
    (c : Context) (hc : c.hasScrollbarPseudo = false) (he : h.isElementNode c.element = true) :
    (checkPseudoNot h facts l c).Ends (plainIndex h facts.toElementNames) (OfElement h) fun r _ =>
      r.2 = none ∧ (r.1 = true ↔ FirstFails h facts c.scope l c.element) := by
  cases l with
  | nil => exact .done ⟨rfl, iff_of_false Bool.false_ne_true id⟩
  | cons first rest =>
    unfold checkPseudoNot FirstFails
    exact checkNone_iff w first (isPlain_cons hplain).1 c hc he

theorem checkNone_iff (w : WellFormed h ch) (s : CSSSelector) (hplain : s.isPlain = true)
    (c : Context) (hc : c.hasScrollbarPseudo = false) (he : h.isElementNode c.element = true) :
    (checkNone h facts s c none).Ends (plainIndex h facts.toElementNames) (OfElement h) fun r _ =>
      r.2 = none ∧ (r.1 = true ↔ SomeFails h facts c.scope s c.element) := by
  cases s with
  | last simple =>
    unfold checkNone SomeFails
    split
    · rename_i hvisited
      exact .done ⟨rfl, iff_of_true rfl (.inl hvisited)⟩
    · rename_i hvisited
      refine (checkOne_iff w simple hplain c hc he).bind fun r _ hr => .done ⟨?_, ?_⟩
      · rw [hr.1]
        rfl
      · rw [or_iff_right hvisited, ← hr.2, Bool.not_eq_true', Bool.not_eq_true]
  | next simple relation affected tagHistory =>
    obtain ⟨-, hsimple, hrest⟩ := isPlain_next hplain
    unfold checkNone SomeFails
    split
    · rename_i hvisited
      exact .done ⟨rfl, iff_of_true rfl (.inl (.inl hvisited))⟩
    · rename_i hvisited
      refine (checkOne_iff w simple hsimple c hc he).bind fun r _ hr => ?_
      rw [hr.1]
      split
      · rename_i hfalse
        refine .done ⟨rfl, iff_of_true rfl (.inl (.inr fun hone => ?_))⟩
        rw [hr.2.mpr hone] at hfalse
        cases hfalse
      · rename_i htrue
        have hone := hr.2.mp (Bool.eq_true_of_not_eq_false htrue)
        refine (checkNone_iff w tagHistory hrest c hc he).mono fun r' _ hr' => ⟨hr'.1, ?_⟩
        rw [hr'.2, or_iff_right]
        exact fun hfails => hfails.elim hvisited fun hnot => hnot hone

theorem checkAny_iff (w : WellFormed h ch) (l : CSSSelectorList) (hplain : l.isPlain = true)
    (c : Context) (hc : c.hasScrollbarPseudo = false) (he : h.isElementNode c.element = true) :
    (checkAny h facts l c).Ends (plainIndex h facts.toElementNames) (OfElement h) fun b _ =>
      b = true ↔ SatisfiesAny h facts c.scope l c.element := by
  cases l with
  | nil => exact .done (iff_of_false Bool.false_ne_true id)
  | cons first rest =>
    obtain ⟨hfirst, hrest⟩ := isPlain_cons hplain
    unfold checkAny SatisfiesAny
    refine (matchSelector_means w first hfirst c hc he).bind fun m _ hm => ?_
    have hiff := hm.1.2.iff
    split
    · rename_i hmatches
      exact .done (iff_of_true rfl (.inl (hiff.mp hmatches)))
    · rename_i hmatches
      refine (checkAny_iff w rest hrest c hc he).mono fun b _ hb => ?_
      rw [hb, or_iff_right fun hsat => hmatches (hiff.mpr hsat)]

/-- **Each status means what it says**, of every plain selector. -/
theorem matchSelector_means (w : WellFormed h ch) (s : CSSSelector) (hplain : s.isPlain = true)
    (c : Context) (hc : c.hasScrollbarPseudo = false) (he : h.isElementNode c.element = true) :
    (matchSelector h facts s c none).Ends (plainIndex h facts.toElementNames) (OfElement h)
      fun m _ => Decides h s (Satisfies h facts c.scope s) c.element m := by
  cases s with
  | last simple =>
    unfold matchSelector
    refine (checkOne_iff w simple hplain c hc he).bind fun r _ hr => ?_
    rw [hr.1]
    split
    · rename_i hfalse
      refine .done ⟨⟨rfl, fun hsat => ?_⟩, fun _ => .inr rfl⟩
      unfold Satisfies at hsat
      rw [hr.2.mpr hsat.1] at hfalse
      cases hfalse
    · rename_i htrue
      have hone := hr.2.mp (Bool.eq_true_of_not_eq_false htrue)
      have hscope : scopeContainsLastMatchedElement h c = true ↔
          ∀ s, c.scope = some s → h.document s = h.document c.element := by
        unfold scopeContainsLastMatchedElement
        rw [Option.all_eq_true]
        simp only [beq_iff_eq]
      split
      · rename_i hcontains
        refine .done ⟨⟨rfl, ?_⟩, fun _ => .inl rfl⟩
        show Satisfies h facts c.scope (.last simple) c.element
        unfold Satisfies
        exact ⟨hone, hscope.mp hcontains⟩
      · rename_i hcontains
        refine .done ⟨⟨rfl, fun hsat => ?_⟩, fun _ => .inr rfl⟩
        unfold Satisfies at hsat
        exact hcontains (hscope.mpr hsat.2)
  | next simple relation affected tagHistory =>
    obtain ⟨rfl, hsimple, hrest⟩ := isPlain_next hplain
    unfold matchSelector
    refine (checkOne_iff w simple hsimple c hc he).bind fun r _ hr => ?_
    rw [hr.1]
    split
    · rename_i hfalse
      refine .done ⟨⟨rfl, fun hsat => ?_⟩, fun hlast => nomatch hlast⟩
      unfold Satisfies at hsat
      rw [hr.2.mpr hsat.1] at hfalse
      cases hfalse
    · rename_i htrue
      have hone := hr.2.mp (Bool.eq_true_of_not_eq_false htrue)
      dsimp only [Option.or]
      split
      · rename_i hrel
        split
        · rename_i hdynamic
          exact absurd rfl hdynamic.2.1
        · refine (matchSelector_means w tagHistory hrest
            { c with hasScrollbarPseudo := false } rfl he).mono fun m _ hm => ?_
          refine ⟨⟨hm.1.1, ?_⟩, fun hlast => nomatch hlast⟩
          rw [satisfies_next]
          simp only [if_pos hrel]
          exact hm.1.2.and hone
      · rename_i hrel
        refine (matchForRelation_means w relation he (isShadow_of_isPlain hrest) fun e he' =>
          matchSelector_means w tagHistory hrest _ hc he').bind fun m _ hm =>
            .done ⟨⟨rfl, ?_⟩, fun hlast => nomatch hlast⟩
        rw [satisfies_next]
        simp only [if_neg hrel]
        exact hm.2.and hone

end

/-- **`SelectorMatches` decides what a selector means.** It ends, and giving up early loses
nothing. -/
theorem selectorMatches_decides (w : WellFormed h ch) {s : CSSSelector} (hplain : s.isPlain = true)
    {e : NodeId} (he : h.isElementNode e = true) (root : NodeId) :
    ∃ b, (SelectorQuery.selectorMatches h facts s e root).eval
        (plainIndex h facts.toElementNames) = some b ∧
      (b = true ↔ Satisfies h facts (some root) s e) := by
  have hends : (SelectorQuery.selectorMatches h facts s e root).Ends
      (plainIndex h facts.toElementNames) (OfElement h)
      fun b _ => b = true ↔ Satisfies h facts (some root) s e := by
    refine (matchSelector_means w s hplain ⟨e, some root, true, false⟩ rfl he).bind
      fun m _ hm => .done ?_
    rw [beq_iff_eq]
    exact hm.1.2.iff
  obtain ⟨b, heval, -, hb⟩ := hends
  exact ⟨b, heval, hb⟩

end Checker

/-! ## An item of a list -/

/-- `.c > :nth-child(1) ~ :nth-child(33)`. -/
def lastBehindFirst : CSSSelector :=
  .next (SelectorQuery.nthChildTest 33) .indirectAdjacent false
    (.next (SelectorQuery.nthChildTest 1) .child false (.last (.className ['c'])))

/-- The last item of the list satisfies it. -/
theorem satisfies_lastBehindFirst :
    Satisfies manyChildren SelectorQuery.manyFacts (some 0) lastBehindFirst 34 := by
  have hdecides : ∃ b, (SelectorQuery.selectorMatches manyChildren SelectorQuery.manyFacts
      lastBehindFirst 34 0).eval (plainIndex manyChildren SelectorQuery.manyFacts.toElementNames) =
        some b ∧
      (b = true ↔ Satisfies manyChildren SelectorQuery.manyFacts (some 0) lastBehindFirst 34) :=
    selectorMatches_decides manyChildren_wellFormed rfl rfl 0
  obtain ⟨b, heval, hb⟩ := hdecides
  have htrue : (SelectorQuery.selectorMatches manyChildren SelectorQuery.manyFacts lastBehindFirst
      34 0).eval (plainIndex manyChildren SelectorQuery.manyFacts.toElementNames) = some true := by
    decide +kernel
  rw [htrue] at heval
  exact hb.mp (Option.some.inj heval).symm

end Blinkit.Css
