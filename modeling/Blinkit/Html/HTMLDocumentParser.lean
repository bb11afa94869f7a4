import Mathlib.Data.List.Basic
import Mathlib.Data.Option.Basic

/-!
# The HTML parser and the scripts that block it

The parser pumps its tokenizer until it needs more input or a script blocks it.  A script that runs
may call `document.write`, which pumps the same tokenizer from inside the script, and this may run
further scripts.  So the parser has a stack of the calls that are not finished.

* `HTMLInputStream` : the string that is read, and the strings behind the insertion points
* `Keyword`, `lookAhead`, `Unfinished` : why `NextToken` asks for more input
* `Frame` : where an unfinished call goes on
* `step` : the next part of the innermost call, up to a call of another function
* `Label`, `next` : the loader, the tokenizer and the scripts, and `step`
* `log` : what happened, newest first

The tokenizer and the tree builder are free to make any tokens of the input, within what `Completes`
and `Unfinished` say.  No style sheet is loaded, no location change is pending and nothing sets the
pause flag of the re-entry permit, so `IsPaused` is about scripts alone; the list of deferred
scripts is always empty.
-/

set_option autoImplicit false

namespace Blinkit.Html

/-! ## The input stream -/

def kEndOfFileMarker : Char := '\x00'

structure SegmentedString where
  chars : List Char
  closed : Bool
  deriving DecidableEq

def SegmentedString.append (s : SegmentedString) (text : List Char) : SegmentedString :=
  { s with chars := s.chars ++ text }

/-- The current string, and the `next_` strings of the insertion point records, the innermost
first. -/
structure HTMLInputStream where
  current : SegmentedString
  nexts : List SegmentedString
  deriving DecidableEq

namespace HTMLInputStream

/-- The string that `last_` points to. -/
def last (input : HTMLInputStream) : SegmentedString := input.nexts.getLast?.getD input.current

def modifyLast (input : HTMLInputStream) (f : SegmentedString → SegmentedString) :
    HTMLInputStream :=
  match input.nexts with
  | [] => { input with current := f input.current }
  | _ :: _ => { input with nexts := input.nexts.dropLast ++ [f input.last] }

def appendToEnd (input : HTMLInputStream) (text : List Char) : HTMLInputStream :=
  input.modifyLast fun s => s.append text

def insertAtCurrentInsertionPoint (input : HTMLInputStream) (text : List Char) : HTMLInputStream :=
  { input with current := input.current.append text }

def hasInsertionPoint (input : HTMLInputStream) : Bool := !input.nexts.isEmpty

def markEndOfFile (input : HTMLInputStream) : HTMLInputStream :=
  input.modifyLast fun s => { s.append [kEndOfFileMarker] with closed := true }

def haveSeenEndOfFile (input : HTMLInputStream) : Bool := input.last.closed

def splitInto (input : HTMLInputStream) : HTMLInputStream :=
  ⟨⟨[], false⟩, input.current :: input.nexts⟩

def mergeFrom (input : HTMLInputStream) : HTMLInputStream :=
  match input.nexts with
  | [] => input
  | next :: nexts =>
    ⟨⟨input.current.chars ++ next.chars, input.current.closed || next.closed⟩, nexts⟩

end HTMLInputStream

/-! ## The tokenizer -/

/-- The words that the tokenizer looks ahead for. -/
inductive Keyword where
  | kDashDash
  | kDoctype
  | kCdata
  | kPublic
  | kSystem
  deriving DecidableEq

def Keyword.text : Keyword → List Char
  | .kDashDash => "--".toList
  | .kDoctype => "doctype".toList
  | .kCdata => "[CDATA[".toList
  | .kPublic => "public".toList
  | .kSystem => "system".toList

/-- The character at which the tokenizer looks ahead. -/
def Keyword.begins : Keyword → Char → Bool
  | .kDashDash, c => c == '-'
  | .kDoctype, c => c == 'D' || c == 'd'
  | .kCdata, c => c == '['
  | .kPublic, c => c == 'P' || c == 'p'
  | .kSystem, c => c == 'S' || c == 's'

def Keyword.ignoresCase : Keyword → Bool
  | .kDashDash | .kCdata => false
  | .kDoctype | .kPublic | .kSystem => true

inductive LookAheadResult where
  | kDidNotMatch
  | kDidMatch
  | kNotEnoughCharacters
  deriving DecidableEq

/-- `LookAhead` and `LookAheadIgnoringCase`; whether the string is closed does not matter. -/
def SegmentedString.lookAhead (source : SegmentedString) (k : Keyword) : LookAheadResult :=
  let fold (text : List Char) := if k.ignoresCase then text.map Char.toLower else text
  if source.chars.length < k.text.length then .kNotEnoughCharacters
  else if fold (source.chars.take k.text.length) = fold k.text then .kDidMatch
  else .kDidNotMatch

/-- Why `NextToken` returns false. -/
inductive Reason where
  | exhausted
  /-- `ConsumeHTMLEntity` has not enough characters. -/
  | characterReference
  | lookAhead (k : Keyword)
  deriving DecidableEq

/-- What is left of the source when `NextToken` returns false.  The end-of-file marker ends every
character reference. -/
def SegmentedString.Unfinished (source : SegmentedString) : Reason → Prop
  | .exhausted => source.chars = []
  | .characterReference => source.closed = false
  | .lookAhead k => source.chars.head?.any k.begins = true ∧
    source.lookAhead k = .kNotEnoughCharacters

instance (source : SegmentedString) (reason : Reason) : Decidable (source.Unfinished reason) := by
  cases reason <;> unfold SegmentedString.Unfinished <;> infer_instance

/-! ## The parser -/

/-- What `PrepareScript` makes of a script. -/
inductive ScriptKind where
  /-- It is not executed, or not by the parser. -/
  | notExecuted
  | inline
  /-- It blocks the parser until its resource is there; `loaded` says whether it is there already,
  and whether the load has succeeded. -/
  | external (loaded : Option Bool)
  deriving DecidableEq

def ScriptKind.blocks : ScriptKind → Bool
  | .notExecuted => false
  | .inline | .external _ => true

def ScriptKind.isExternal : ScriptKind → Bool
  | .notExecuted | .inline => false
  | .external _ => true

inductive ParserState where
  | kParsingState
  | kStoppingState
  | kStoppedState
  deriving DecidableEq

/-- Where a call goes on. -/
inductive Frame where
  /-- `CanTakeNextToken` in the loop of `PumpTokenizer`. -/
  | canTakeNextToken
  /-- `CanTakeNextToken` behind `RunScriptsForPausedTreeBuilder`. -/
  | canTakeNextTokenPaused
  /-- `NextToken` in the loop of `PumpTokenizer`. -/
  | nextToken
  /-- `ProcessScriptElement` behind `ProcessScriptElementInternal`. -/
  | processScriptElement
  /-- The loop of `ExecuteParsingBlockingScripts`. -/
  | executeParsingBlockingScripts
  /-- `ExecuteScriptBlock` of a script. -/
  | script (s : Nat)
  /-- `NotifyScriptLoaded` behind `ExecuteScriptsWaitingForLoad`. -/
  | notifyScriptLoaded
  | endIfDelayed
  /-- `PrepareToStopParsing` behind its pump. -/
  | prepareToStopParsing
  /-- `Document::write` behind `insert`. -/
  | write
  deriving DecidableEq

inductive Entry where
  /-- Input from the loader, or the end-of-file marker. -/
  | received (text : List Char)
  | endOfFile
  | consumed (text : List Char)
  /-- The end tag of a script that blocks the parser. -/
  | scriptEndTag (s : Nat) (external : Bool)
  /-- The resource of a script is there, or has failed. -/
  | loaded (s : Nat) (ok : Bool)
  /-- The script is run, or skipped as its load has failed. -/
  | run (s : Nat) (ok : Bool)
  /-- Text that `document.write` inserts. -/
  | inserted (text : List Char)
  | returned (s : Nat)
  /-- `HTMLTreeBuilder::Finished`. -/
  | ended
  deriving DecidableEq

structure Parser where
  input : HTMLInputStream
  /-- `script_to_process_` of the tree builder. -/
  scriptToProcess : Option (Nat × ScriptKind)
  /-- The script, and whether its load has succeeded. -/
  parserBlockingScript : Option (Nat × Option Bool)
  scriptNestingLevel : Nat
  pumpSessionNestingLevel : Nat
  endWasDelayed : Bool
  state : ParserState
  writeRecursionDepth : Nat
  writeRecursionIsTooDeep : Bool
  /-- The number of scripts that have blocked the parser. -/
  scripts : Nat
  /-- The characters that were left when `NextToken` last returned false. -/
  undecided : Nat
  /-- The last character behind these that has been consumed since. -/
  lastConsumed : Option Char
  stack : List Frame
  log : List Entry
  deriving DecidableEq

namespace Parser

def record (p : Parser) (e : Entry) : Parser := { p with log := e :: p.log }

def call (p : Parser) (f : Frame) : Parser := { p with stack := f :: p.stack }

def goto (p : Parser) (stack : List Frame) : Parser := { p with stack := stack }

def isStopped (p : Parser) : Bool := p.state == .kStoppedState

/-- `IsPaused`, that is `IsWaitingForScripts`. -/
def isPaused (p : Parser) : Bool := p.scriptToProcess.isSome || p.parserBlockingScript.isSome

def isExecutingScript (p : Parser) : Bool := p.scriptNestingLevel != 0

def inPumpSession (p : Parser) : Bool := p.pumpSessionNestingLevel != 0

def shouldDelayEnd (p : Parser) : Bool := p.inPumpSession || p.isPaused || p.isExecutingScript

/-! ## Pumping -/

/-- `PumpTokenizer` starts a pump session. -/
def pumpTokenizerIfPossible (p : Parser) : Parser :=
  if p.isStopped ∨ p.isPaused then p
  else ({ p with pumpSessionNestingLevel := p.pumpSessionNestingLevel + 1 }).call .canTakeNextToken

/-- The end of a pump session. -/
def leavePump (p : Parser) (stack : List Frame) : Parser :=
  ({ p with pumpSessionNestingLevel := p.pumpSessionNestingLevel - 1 }).goto stack

/-- `PrepareToStopParsing` up to its pump. -/
def prepareToStopParsing (p : Parser) : Parser :=
  (p.call .prepareToStopParsing).pumpTokenizerIfPossible

/-- `AttemptToRunDeferredScriptsAndEnd` and `end`. -/
def «end» (p : Parser) : Parser := { p.record .ended with state := .kStoppedState }

def attemptToEnd (p : Parser) : Parser :=
  if p.shouldDelayEnd then { p with endWasDelayed := true } else p.prepareToStopParsing

/-- The last character that is consumed with `n` more of the current string. -/
def lastConsumedWith (p : Parser) (n : Nat) : Option Char :=
  ((p.input.current.chars.take n).drop p.undecided).getLast?.or p.lastConsumed

/-- `NextToken` may return true with `n` characters consumed, and `ConstructTree` may then have a
script to process: the token is an end tag, which ends with `>`, and no end tag of a script ends in
what the tokenizer could not decide on. -/
def Completes (p : Parser) (n : Nat) (script : Option ScriptKind) : Prop :=
  n ≤ p.input.current.chars.length ∧ (script.isSome = true → p.lastConsumedWith n = some '>')

instance (p : Parser) (n : Nat) (script : Option ScriptKind) : Decidable (p.Completes n script) :=
  inferInstanceAs (Decidable (_ ∧ _))

def consume (p : Parser) (n : Nat) : Parser :=
  { p.record (.consumed (p.input.current.chars.take n)) with
    input.current.chars := p.input.current.chars.drop n
    undecided := p.undecided - n
    lastConsumed := p.lastConsumedWith n }

/-- `ConstructTree` takes the end tag of a script. -/
def constructScript (p : Parser) (kind : ScriptKind) : Parser :=
  let p := { p with scriptToProcess := some (p.scripts, kind), lastConsumed := none }
  if kind.blocks then
    { p.record (.scriptEndTag p.scripts kind.isExternal) with scripts := p.scripts + 1 }
  else p

/-- `NextToken` has returned true. -/
def completeToken (p : Parser) (n : Nat) (script : Option ScriptKind) (stack : List Frame) :
    Parser :=
  let p := (p.consume n).goto (.canTakeNextToken :: stack)
  match script with
  | none => p
  | some kind => p.constructScript kind

/-- `NextToken` has returned false. -/
def needMoreInput (p : Parser) (n : Nat) (stack : List Frame) : Parser :=
  let p := p.consume n
  ({ p with undecided := p.input.current.chars.length, lastConsumed := none }).leavePump stack

/-! ## Scripts -/

/-- An insertion point record and a script nesting level, for the time of a call. -/
def enterScript (p : Parser) : Parser :=
  { p with input := p.input.splitInto, scriptNestingLevel := p.scriptNestingLevel + 1 }

def leaveScript (p : Parser) : Parser :=
  { p with input := p.input.mergeFrom, scriptNestingLevel := p.scriptNestingLevel - 1 }

/-- `RunScriptsForPausedTreeBuilder` up to the call of an inline script. -/
def runScriptsForPausedTreeBuilder (p : Parser) (s : Nat) (kind : ScriptKind)
    (stack : List Frame) : Parser :=
  let stack := .processScriptElement :: .canTakeNextTokenPaused :: stack
  let p := ({ p with scriptToProcess := none }).enterScript
  match kind with
  | .notExecuted => p.leaveScript.goto stack
  | .inline => (p.record (.run s true)).goto (.script s :: stack)
  | .external loaded =>
    let p := { p with parserBlockingScript := some (s, loaded) }.leaveScript.goto stack
    match loaded with
    | none => p
    | some ok => p.record (.loaded s ok)

/-- One round of `ExecuteParsingBlockingScripts`. -/
def executeParsingBlockingScripts (p : Parser) (stack : List Frame) : Parser :=
  match p.parserBlockingScript with
  | some (s, some ok) =>
    let p := { p with parserBlockingScript := none }.enterScript
    (p.record (.run s ok)).goto (.script s :: .executeParsingBlockingScripts :: stack)
  | _ => p.goto stack

/-- `insert`. -/
def insert (p : Parser) (text : List Char) : Parser :=
  if p.isStopped then p
  else
    let p := { p with input := p.input.insertAtCurrentInsertionPoint text }
    ((p.record (.inserted text)).call .endIfDelayed).pumpTokenizerIfPossible

def kCMaxWriteRecursionDepth : Nat := 21

/-- `Document::write`, of a document whose parser has an insertion point. -/
def write (p : Parser) (text : List Char) : Parser :=
  let depth := p.writeRecursionDepth + 1
  let tooDeep := decide (kCMaxWriteRecursionDepth < depth) ||
    (decide (1 < depth) && p.writeRecursionIsTooDeep)
  let p := { p with writeRecursionIsTooDeep := tooDeep }
  if tooDeep then p else (({ p with writeRecursionDepth := depth }).call .write).insert text

/-! ## The steps -/

/-- The innermost call goes on by itself. -/
def step (p : Parser) : Option Parser :=
  match p.stack with
  | .canTakeNextToken :: stack =>
    some <| if p.isStopped then p.leavePump stack
      else match p.scriptToProcess with
        | some (s, kind) => p.runScriptsForPausedTreeBuilder s kind stack
        | none => p.goto (.canTakeNextTokenPaused :: stack)
  | .canTakeNextTokenPaused :: stack =>
    some <| if p.isStopped ∨ p.isPaused then p.leavePump stack else p.goto (.nextToken :: stack)
  | .processScriptElement :: stack =>
    some <| if p.parserBlockingScript.isSome ∧ ¬ p.isExecutingScript then
      p.goto (.executeParsingBlockingScripts :: stack) else p.goto stack
  | .executeParsingBlockingScripts :: stack => some (p.executeParsingBlockingScripts stack)
  | .notifyScriptLoaded :: stack =>
    some <| if p.isPaused then p.goto stack
      else (p.goto (.endIfDelayed :: stack)).pumpTokenizerIfPossible
  | .endIfDelayed :: stack =>
    let p := p.goto stack
    some <| if ¬ p.endWasDelayed ∨ p.shouldDelayEnd then p
      else ({ p with endWasDelayed := false }).prepareToStopParsing
  | .prepareToStopParsing :: stack =>
    let p := p.goto stack
    some <| if p.isStopped then p else ({ p with state := .kStoppingState }).end
  | .write :: stack =>
    some <| { p with writeRecursionDepth := p.writeRecursionDepth - 1 }.goto stack
  | .nextToken :: _ | .script _ :: _ | [] => none

inductive Label where
  /-- `Append`. -/
  | append (text : List Char)
  /-- `Finish`. -/
  | finish
  /-- The resource of the parser-blocking script is there, or has failed. -/
  | loaded (ok : Bool)
  /-- `NextToken` returns true; the tree builder may have a script to process. -/
  | token (n : Nat) (script : Option ScriptKind)
  /-- `NextToken` returns false. -/
  | more (n : Nat) (reason : Reason)
  /-- The script that runs calls `document.write`. -/
  | write (text : List Char)
  /-- The script that runs returns. -/
  | «return»
  | step
  deriving DecidableEq

def next (p : Parser) : Label → Option Parser
  | .append text =>
    if p.stack ≠ [] ∨ p.input.haveSeenEndOfFile then none
    else if p.isStopped then some p
    else
      let p := ({ p with input := p.input.appendToEnd text }).record (.received text)
      if p.inPumpSession then some p
      else some (p.call .endIfDelayed).pumpTokenizerIfPossible
  | .finish =>
    if p.stack ≠ [] then none
    else
      let p := if p.input.haveSeenEndOfFile then p
        else (({ p with input := p.input.markEndOfFile }).record
          (.received [kEndOfFileMarker])).record .endOfFile
      some p.attemptToEnd
  | .loaded ok =>
    match p.stack, p.parserBlockingScript with
    | [], some (s, none) =>
      let p := ({ p with parserBlockingScript := some (s, some ok) }).record (.loaded s ok)
      match p.state with
      | .kStoppedState => some p
      | .kStoppingState => some p.end
      | .kParsingState => some (p.goto [.executeParsingBlockingScripts, .notifyScriptLoaded])
    | _, _ => none
  | .token n script =>
    match p.stack with
    | .nextToken :: stack =>
      if p.Completes n script then some (p.completeToken n script stack) else none
    | _ => none
  | .more n reason =>
    match p.stack with
    | .nextToken :: stack =>
      if n ≤ p.input.current.chars.length ∧
        ({ p.input.current with chars := p.input.current.chars.drop n }).Unfinished reason then
        some (p.needMoreInput n stack) else none
    | _ => none
  | .write text =>
    match p.stack with
    | .script _ :: _ => if p.input.hasInsertionPoint then some (p.write text) else none
    | _ => none
  | .return =>
    match p.stack with
    | .script s :: stack => some ((p.leaveScript.record (.returned s)).goto stack)
    | _ => none
  | .step => p.step

/-- A parser as the document creates it. -/
def start : Parser where
  input := ⟨⟨[], false⟩, []⟩
  scriptToProcess := none
  parserBlockingScript := none
  scriptNestingLevel := 0
  pumpSessionNestingLevel := 0
  endWasDelayed := false
  state := .kParsingState
  writeRecursionDepth := 0
  writeRecursionIsTooDeep := false
  scripts := 0
  undecided := 0
  lastConsumed := none
  stack := []
  log := []

end Parser

end Blinkit.Html
