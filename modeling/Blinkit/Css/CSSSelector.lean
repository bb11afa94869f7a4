import Blinkit.Dom.ElementData
import Mathlib.Algebra.Group.Int.Defs
import Mathlib.Algebra.Group.Nat.Defs

/-!
# Selectors

Translation of `css_selector.h` and `css_selector.cc`.

* `CSSSelector` — a complex selector from its rightmost compound to the left: a simple selector, its
  relation to the next one, and the rest, which the source calls the tag history.
* `TagQName` — the name of a type selector. A null local name stands for `*`.
* `matchNth`, `matchesPseudoElement`, `hasDeepCombinatorOrShadowPseudo`,
  `needsUpdatedDistribution` — the functions of the source.

The pseudo-classes that test the state of one element, such as `:link` or `:enabled`, are kept by a
number (`PseudoClass.other`).
-/

set_option autoImplicit false

namespace Blinkit.Css

open Dom.Attributes

/-! ## Names -/

/-- `g_star_atom`. -/
def starAtom : Str := ['*']

/-- The name of a type selector. The parser gives no prefix to a name of any namespace. -/
structure TagQName where
  pre : Option Str
  localName : Option Str
  namespaceURI : Option Str
  anyPre : namespaceURI = some starAtom → pre = none
  deriving DecidableEq

/-- `AnyQName`. -/
def anyQName : TagQName := ⟨none, none, some starAtom, fun _ => rfl⟩

/-- A name of any namespace and any local name is `AnyQName`. -/
theorem TagQName.eq_anyQName {tag : TagQName} (hns : tag.namespaceURI = some starAtom)
    (hname : tag.localName = none) : tag = anyQName := by
  obtain ⟨pre, localName, namespaceURI, anyPre⟩ := tag
  obtain rfl : pre = none := anyPre hns
  subst hns hname
  rfl

/-! ## Simple selectors -/

inductive RelationType where
  | subSelector
  | descendant
  | child
  | directAdjacent
  | indirectAdjacent
  | shadowDeep
  | shadowDeepAsDescendant
  | shadowPseudo
  | shadowSlot
  | shadowPart
  deriving DecidableEq, Repr

/-- A sibling combinator. -/
def RelationType.isAdjacent (r : RelationType) : Bool :=
  r == .directAdjacent || r == .indirectAdjacent

/-- The values of `MatchType` for attributes, `kAttributeExact` to `kAttributeEnd`. -/
inductive AttributeMatch where
  | exact
  | set
  | hyphen
  | list
  | contain
  | begins
  | ends
  deriving DecidableEq, Repr

structure AttributeSelector where
  kind : AttributeMatch
  name : QualifiedName
  value : Str
  /-- `AttributeMatch() == kCaseSensitive`. -/
  isCaseSensitive : Bool
  deriving DecidableEq

/-- What the four `:nth-*` pseudo-classes count. -/
inductive NthPosition where
  | child
  | lastChild
  | ofType
  | lastOfType
  deriving DecidableEq, Repr

inductive PseudoClass where
  | not
  | any
  | firstChild
  | lastChild
  | onlyChild
  | firstOfType
  | lastOfType
  | onlyOfType
  | nth (position : NthPosition) (a b : Int)
  | root
  | scope
  | visited
  | host
  | hostContext
  | other (type : Nat)
  deriving DecidableEq, Repr

/-- The pseudo-elements that the checker records in its result. -/
inductive PseudoId where
  | selection
  | scrollbarCorner
  | resizer
  | other (type : Nat)
  deriving DecidableEq, Repr

inductive PseudoElement where
  | content
  | shadow
  | cue
  | slotted
  /-- `::part`, `::placeholder` and the custom elements, none of which the crawler has. -/
  | absent
  | dynamic (type : PseudoId)
  deriving DecidableEq, Repr

mutual

inductive SimpleSelector where
  | tag (name : TagQName)
  | id (value : Str)
  | className (value : Str)
  | attr (a : AttributeSelector)
  | pseudoClass (type : PseudoClass) (selectorList : CSSSelectorList)
  | pseudoElement (type : PseudoElement) (selectorList : CSSSelectorList)

/-- The last simple selector in the tag history has no relation. -/
inductive CSSSelector where
  | last (simple : SimpleSelector)
  | next (simple : SimpleSelector) (relation : RelationType)
      (relationIsAffectedByPseudoContent : Bool) (tagHistory : CSSSelector)

inductive CSSSelectorList where
  | nil
  | cons (first : CSSSelector) (rest : CSSSelectorList)

end

/-- `RareData::MatchNth`. -/
def matchNth (a b : Int) (unsignedCount : Nat) : Bool :=
  let maxValue : Int := (2 ^ 31 - 1) / 2
  let minValue : Int := -2 ^ 31 / 2
  let count : Int := unsignedCount
  if count > maxValue ∨ a > maxValue ∨ a < minValue ∨ b > maxValue ∨ b < minValue then false
  else if a = 0 then count == b
  else if a > 0 then if count < b then false else (count - b) % a == 0
  else if count > b then false
  else (b - count) % -a == 0

namespace SimpleSelector

def isPseudoElement : SimpleSelector → Bool
  | pseudoElement _ _ => true
  | _ => false

/-- `GetPseudoType() == kPseudoShadow`. -/
def isShadow : SimpleSelector → Bool
  | pseudoElement type _ => type == .shadow
  | _ => false

def isHostContext : SimpleSelector → Bool
  | pseudoClass type _ => type == .hostContext
  | _ => false

def isScope : SimpleSelector → Bool
  | pseudoClass type _ => type == .scope
  | _ => false

def isVisited : SimpleSelector → Bool
  | pseudoClass type _ => type == .visited
  | _ => false

end SimpleSelector

/-! ## Complex selectors -/

mutual

/-- `ForAnyInTagHistory`; the functor is given a simple selector with its relation. -/
def CSSSelector.forAnyInTagHistory (functor : SimpleSelector → RelationType → Bool → Bool) :
    CSSSelector → Bool
  | .last simple => functor simple .subSelector false || simple.forAnyInSelectorList functor
  | .next simple relation affected tagHistory =>
    functor simple relation affected || simple.forAnyInSelectorList functor ||
      tagHistory.forAnyInTagHistory functor

def SimpleSelector.forAnyInSelectorList (functor : SimpleSelector → RelationType → Bool → Bool) :
    SimpleSelector → Bool
  | .pseudoClass _ selectorList => selectorList.forAny functor
  | .pseudoElement _ selectorList => selectorList.forAny functor
  | .tag _ => false
  | .id _ => false
  | .className _ => false
  | .attr _ => false

def CSSSelectorList.forAny (functor : SimpleSelector → RelationType → Bool → Bool) :
    CSSSelectorList → Bool
  | .nil => false
  | .cons first rest => first.forAnyInTagHistory functor || rest.forAny functor

end

namespace CSSSelector

/-- The simple selector in front. -/
def simple : CSSSelector → SimpleSelector
  | last simple => simple
  | next simple _ _ _ => simple

/-- What is left of the tag history is `:scope`. -/
def isLastScope : CSSSelector → Bool
  | last simple => simple.isScope
  | next _ _ _ _ => false

/-- `MatchesPseudoElement`: whether the rightmost compound names a pseudo-element. -/
def matchesPseudoElement : CSSSelector → Bool
  | last simple => simple.isPseudoElement
  | next simple relation _ tagHistory =>
    simple.isPseudoElement || (relation == .subSelector && tagHistory.matchesPseudoElement)

def hasDeepCombinatorOrShadowPseudo (s : CSSSelector) : Bool :=
  s.forAnyInTagHistory fun simple relation _ => relation == .shadowDeep || simple.isShadow

def needsUpdatedDistribution (s : CSSSelector) : Bool :=
  s.forAnyInTagHistory fun simple _ affected => affected || simple.isHostContext

end CSSSelector

end Blinkit.Css
