import Blinkit.Html.HTMLElementStack

/-!
# The adoption agency of the tree builder

`HTMLTreeBuilder::CallTheAdoptionAgency`, with `ProcessAnyOtherEndTagForInBody`.

* `adoptNode`, `adoptionInnerLoop` : a round of the inner loop, and the loop
* `adoptFurthestBlock` : the steps 7 to 15
* `adoptionRound` : a round of the outer loop
* `callTheAdoptionAgency` : the loop, for an end tag that is an `isFormattingTag`; `none` is the use of
  a null pointer

`ElementRecord::ReplaceElement` has an empty body, so the record of a replaced element stays as it
is.  An item that is deleted with its record is read as it was.
-/

set_option autoImplicit false

namespace Blinkit.Html

open Dom

def isNonAnchorNonNobrFormattingTag (tagName : String) : Bool :=
  ["b", "big", "code", "em", "font", "i", "s", "small", "strike", "strong", "tt", "u"].contains
    tagName

def isNonAnchorFormattingTag (tagName : String) : Bool :=
  tagName == "nobr" || isNonAnchorNonNobrFormattingTag tagName

def isFormattingTag (tagName : String) : Bool :=
  tagName == "a" || isNonAnchorFormattingTag tagName

namespace ConstructionSite

/-- `Remove` of the stack. -/
def removeOpenElement (s : ConstructionSite) (n : NodeId) : ConstructionSite :=
  { s with openElements := HTMLElementStack.remove n s.openElements }

/-- `ProcessAnyOtherEndTagForInBody`, from a record on: `none` is the null pointer, and `some none`
the end at a special node. -/
def findOtherEndTag (name : String) : HTMLElementStack → Option (Option HTMLStackItem)
  | [] => none
  | item :: rest =>
    if item.hasTagName name then some (some item)
    else if item.isSpecialNode then some none
    else findOtherEndTag name rest

def processAnyOtherEndTagForInBody (s : ConstructionSite) (name : String) :
    Option ConstructionSite :=
  match findOtherEndTag name s.openElements with
  | none => none
  | some none => some s
  | some (some item) => some { s with
      openElements := HTMLElementStack.popUntilPopped item.node
        (HTMLElementStack.generateImpliedEndTagsWithExclusion name s.openElements) }

/-- What the inner loop carries from round to round. -/
structure InnerLoop where
  site : ConstructionSite
  nextNode : HTMLElementStack
  lastNode : HTMLStackItem
  bookmark : HTMLFormattingElementList.Bookmark

/-- The steps 9.7 to 9.10, for the entry at `i`. -/
def adoptNode (l : InnerLoop) (furthestBlock node : HTMLStackItem) (i : Nat) : InnerLoop :=
  let (newItem, site) := l.site.createElementFromSavedToken node
  let site := { site with
    activeFormattingElements := site.activeFormattingElements.replaceElement i newItem }
  -- `node->ReplaceElement(newItem)` is a stub
  { site := site.reparent node l.lastNode
    nextNode := l.nextNode
    lastNode := node
    bookmark := if l.lastNode.node = furthestBlock.node then l.bookmark.moveToAfter i
      else l.bookmark }

/-- The inner loop; it ends at the formatting element. -/
def adoptionInnerLoop (furthestBlock : HTMLStackItem) (formatting : NodeId) :
    Nat → InnerLoop → Option InnerLoop
  | 0, l => some l
  | rounds + 1, l =>
    match l.nextNode with
    | [] => none
    | node :: next =>
      let l := { l with nextNode := next }
      match l.site.activeFormattingElements.find node.node with
      | none => adoptionInnerLoop furthestBlock formatting rounds
          { l with site := l.site.removeOpenElement node.node }
      | some i =>
        if node.node = formatting then some l
        else adoptionInnerLoop furthestBlock formatting rounds
          (adoptNode l furthestBlock node i)

def kInnerIterationLimit : Nat := 3

/-- The steps 7 to 15: `formatting` is the record of the formatting element, with what is below it,
and `furthestBlock` the record of the furthest block. -/
def adoptFurthestBlock (s : ConstructionSite) (formatting : HTMLStackItem)
    (belowFormatting : HTMLElementStack) (furthestBlock : HTMLStackItem)
    (belowBlock : HTMLElementStack) : Option ConstructionSite :=
  match belowFormatting with
  | [] => none
  | commonAncestor :: _ => do
    let l ← adoptionInnerLoop furthestBlock formatting.node kInnerIterationLimit
      { site := s
        nextNode := belowBlock
        lastNode := furthestBlock
        bookmark := s.activeFormattingElements.bookmarkFor formatting.node }
    let s := l.site.insertAlreadyParsedChild commonAncestor l.lastNode
    let (newItem, s) := s.createElementFromSavedToken formatting
    let s := (s.takeAllChildren newItem furthestBlock).reparent furthestBlock newItem
    let s := { s with
      activeFormattingElements := s.activeFormattingElements.swapTo newItem l.bookmark }
    let s := s.removeOpenElement formatting.node
    return { s with
      openElements := HTMLElementStack.insertAbove newItem furthestBlock.node s.openElements }

/-- A round of the outer loop; `.inr` is a return. -/
def adoptionRound (s : ConstructionSite) (name : String) :
    Option (ConstructionSite ⊕ ConstructionSite) :=
  match s.activeFormattingElements.closestElementInScopeWithName name with
  | none => (s.processAnyOtherEndTagForInBody name).map .inr
  | some formattingElement =>
    let n := formattingElement.node
    if HTMLElementStack.contains s.openElements n && !HTMLElementStack.inScope n s.openElements then
      some (.inr s)
    else match HTMLElementStack.find n s.openElements with
      | [] => some (.inr { s with
          activeFormattingElements := s.activeFormattingElements.remove n })
      | formatting :: belowFormatting =>
        match HTMLElementStack.furthestBlockForFormattingElement n [] s.openElements with
        | [] => some (.inr { s with
            openElements := HTMLElementStack.popUntilPopped n s.openElements
            activeFormattingElements := s.activeFormattingElements.remove n })
        | furthestBlock :: belowBlock =>
          (s.adoptFurthestBlock formatting belowFormatting furthestBlock belowBlock).map .inl

/-- The outer loop. -/
def adoptionLoop (name : String) : Nat → ConstructionSite → Option ConstructionSite
  | 0, s => some s
  | rounds + 1, s =>
    match s.adoptionRound name with
    | none => none
    | some (.inr s) => some s
    | some (.inl s) => adoptionLoop name rounds s

def kOuterIterationLimit : Nat := 8

def callTheAdoptionAgency (s : ConstructionSite) (name : String) : Option ConstructionSite :=
  adoptionLoop name kOuterIterationLimit s

end ConstructionSite

end Blinkit.Html
