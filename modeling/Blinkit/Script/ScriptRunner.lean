import Mathlib.Logic.Function.Basic
import Mathlib.Data.List.Basic

/-!
# Asynchronous scripts: the runner, the pending scripts and their streamers

An `async` script of a document is handed from one object to the next by nested callbacks.

* `ScriptStreamer` : listens to the data of the resource
* `PendingScript` : the ready state, the streamer and the flag that says it is at work
* `Runner` : the scripts that are loading, those to execute soon, the posted tasks
* `advanceReadyState` : tells the client that the script is ready, then the runner that the
  streamer is done, and only then takes the streaming flag back
* `Label`, `next` : what the parser or a script, the network and the task queue do

A script is named by its place in the order of queueing.  `ASSERT(c)` is `Runner.assert c`, which
remembers a failure in `assertsHold`.  `TryStreamAny` returns before its loop, as the feature
`WorkStealingInScriptRunner` is compiled out.
-/

set_option autoImplicit false

namespace Blinkit.Script

/-! ## The streamer -/

inductive ResourceStatus where
  | kPending
  | kCached
  | kLoadError
  deriving DecidableEq

structure Resource where
  status : ResourceStatus
  /-- `Url().SchemeIsHTTPOrHTTPS()`. -/
  http : Bool
  /-- The size of `ResourceBuffer()`, when there is one. -/
  resourceBuffer : Option Nat
  deriving DecidableEq

def Resource.isLoaded (resource : Resource) : Bool := resource.status != .kPending

def Resource.errorOccurred (resource : Resource) : Bool := resource.status == .kLoadError

inductive NotStreamingReason where
  | kNotHTTP
  | kScriptTooSmall
  | kNoResourceBuffer
  | kDidntTryToStartStreaming
  | kInvalid
  deriving DecidableEq

structure ScriptStreamer where
  loadingFinished : Bool
  parsingFinished : Bool
  haveEnoughDataForStreaming : Bool
  streamingSuppressed : Bool
  suppressedReason : NotStreamingReason
  deriving DecidableEq

namespace ScriptStreamer

/-- `m_smallScriptThreshold`. -/
def smallScriptThreshold : Nat := 30 * 1024

/-- A new streamer. -/
def create : ScriptStreamer where
  loadingFinished := false
  parsingFinished := false
  haveEnoughDataForStreaming := false
  streamingSuppressed := false
  suppressedReason := .kInvalid

def isFinished (streamer : ScriptStreamer) : Bool :=
  streamer.loadingFinished && (streamer.parsingFinished || streamer.streamingSuppressed)

def isStreamingFinished (streamer : ScriptStreamer) : Bool :=
  streamer.parsingFinished || streamer.streamingSuppressed

/-- Parsing counts as finished as soon as there is enough data. -/
def notifyAppendData (streamer : ScriptStreamer) (resourceBufferSize : Nat) : ScriptStreamer :=
  if streamer.streamingSuppressed ∨ streamer.haveEnoughDataForStreaming then streamer
  else if resourceBufferSize < smallScriptThreshold then streamer
  else { streamer with haveEnoughDataForStreaming := true, parsingFinished := true }

def suppressStreaming (streamer : ScriptStreamer) (reason : NotStreamingReason) : ScriptStreamer :=
  { streamer with streamingSuppressed := true, suppressedReason := reason }

/-- `NotifyFinished` up to its call of `NotifyFinishedToClient`. -/
def finishLoading (streamer : ScriptStreamer) : ScriptStreamer :=
  let streamer := if streamer.haveEnoughDataForStreaming then streamer
    else streamer.suppressStreaming .kScriptTooSmall
  { streamer with loadingFinished := true }

end ScriptStreamer

/-! ## The pending script -/

inductive ReadyState where
  | kWaitingForResource
  | kWaitingForStreaming
  | kReady
  | kReadyStreaming
  | kErrorOccurred
  deriving DecidableEq

/-- The transitions that `AdvanceReadyState` asserts. -/
def ReadyState.advancesTo : ReadyState → ReadyState → Bool
  | .kWaitingForResource, new => new == .kWaitingForStreaming
  | .kWaitingForStreaming, new => new == .kReady || new == .kErrorOccurred
  | .kReady, new => new == .kReadyStreaming
  | .kReadyStreaming, new => new == .kReady
  | .kErrorOccurred, _ => false

structure PendingScript where
  resource : Resource
  /-- `GetResource()` is set, so the script is a client of the resource. -/
  hasResource : Bool
  /-- The document of the element has a frame. -/
  frame : Bool
  readyState : ReadyState
  streamer : Option ScriptStreamer
  /-- `m_streamerDone` holds the callback into the runner. -/
  streamerDone : Bool
  isCurrentlyStreaming : Bool
  notStreamedReason : NotStreamingReason
  /-- `m_client` is set; for these scripts it is the `ScriptLoader`. -/
  isWatchingForLoad : Bool
  deriving DecidableEq

namespace PendingScript

/-- `ClassicPendingScript::Fetch` of a resource that does not finish inside its own request. -/
def fetch (frame http : Bool) : PendingScript where
  resource := ⟨.kPending, http, none⟩
  hasResource := true
  frame := frame
  readyState := .kWaitingForResource
  streamer := none
  streamerDone := false
  isCurrentlyStreaming := false
  notStreamedReason := .kDidntTryToStartStreaming
  isWatchingForLoad := false

def isReady (script : PendingScript) : Bool :=
  match script.readyState with
  | .kWaitingForResource | .kWaitingForStreaming => false
  | .kReady | .kReadyStreaming | .kErrorOccurred => true

/-- The assertions at the end of `AdvanceReadyState`. -/
def postConditions (script : PendingScript) : Bool :=
  script.isCurrentlyStreaming == script.streamer.any (fun streamer => !streamer.isFinished) &&
  script.isCurrentlyStreaming == (script.readyState == .kReadyStreaming ||
    (script.streamer.isSome && (script.readyState == .kWaitingForResource ||
      script.readyState == .kWaitingForStreaming))) &&
  (script.isCurrentlyStreaming || !script.streamerDone)

def cancelStreaming (script : PendingScript) : PendingScript :=
  if script.streamer.isNone then script
  else { script with streamer := none, streamerDone := false, isCurrentlyStreaming := false }

/-- `Dispose` gives up the client, the resource and the streamer. -/
def dispose (script : PendingScript) : PendingScript :=
  ({ script with isWatchingForLoad := false, hasResource := false }).cancelStreaming

/-- `ClassicPendingScript::DataReceived`. -/
def dataReceived (script : PendingScript) : PendingScript :=
  { script with streamer := script.streamer.map fun streamer =>
      streamer.notifyAppendData (script.resource.resourceBuffer.getD 0) }

end PendingScript

/-! ## The runner -/

inductive Entry where
  | queued (p : Nat)
  /-- The script is taken for execution, as it then is. -/
  | taken (p : Nat) (script : PendingScript)
  | done (p : Nat)

structure Runner where
  /-- The scripts, by the order in which they were queued. -/
  scripts : Nat → PendingScript
  queued : Nat
  pendingAsyncScripts : List Nat
  asyncScriptsToExecuteSoon : List Nat
  inOrderScriptsToExecuteSoon : List Nat
  isSuspended : Bool
  numberOfExtraTasks : Int
  /-- Tasks of the runner that are posted and have not run. -/
  tasks : Nat
  /-- What the runner has added to the load event delay count of the document. -/
  loadEventDelayCount : Nat
  /-- The script whose `ExecuteScriptBlock` is on the stack. -/
  executing : Option Nat
  assertsHold : Bool
  /-- Newest first. -/
  log : List Entry

namespace Runner

def assert (r : Runner) (condition : Bool) : Runner :=
  { r with assertsHold := r.assertsHold && condition }

def update (r : Runner) (p : Nat) (f : PendingScript → PendingScript) : Runner :=
  { r with scripts := Function.update r.scripts p (f (r.scripts p)) }

def record (r : Runner) (e : Entry) : Runner := { r with log := e :: r.log }

def postTask (r : Runner) : Runner := { r with tasks := r.tasks + 1 }

/-- The feature check in `TryStreamAny` always fails. -/
def tryStreamAny (r : Runner) : Runner := r

def notifyScriptReady (r : Runner) (p : Nat) : Runner :=
  let r := r.assert (decide (p ∈ r.pendingAsyncScripts))
  let r := { r with
    asyncScriptsToExecuteSoon := r.asyncScriptsToExecuteSoon ++ [p]
    pendingAsyncScripts := r.pendingAsyncScripts.erase p }
  r.postTask.tryStreamAny

def notifyScriptStreamerFinished (r : Runner) : Runner := r.postTask.tryStreamAny

/-! ## The callbacks of a pending script -/

/-- `PendingScriptFinished`, of a script that has a client and of the `ScriptLoader` that is the
client, in a document that is its own context document. -/
def pendingScriptFinished (r : Runner) (p : Nat) : Runner :=
  if (r.scripts p).isWatchingForLoad then
    (r.notifyScriptReady p).update p fun script => { script with isWatchingForLoad := false }
  else r

/-- The end of streaming in `AdvanceReadyState`. -/
def finishStreaming (r : Runner) (p : Nat) : Runner :=
  let done := (r.scripts p).streamerDone
  let r := r.update p fun script => { script with streamerDone := false }
  let r := if done then r.notifyScriptStreamerFinished else r
  r.update p fun script => { script with isCurrentlyStreaming := false }

def advanceReadyState (r : Runner) (p : Nat) (newReadyState : ReadyState) : Runner :=
  let r := r.assert ((r.scripts p).readyState.advancesTo newReadyState)
  let oldIsReady := (r.scripts p).isReady
  let r := r.update p fun script => { script with readyState := newReadyState }
  let r := if (r.scripts p).isReady ∧ ¬ oldIsReady then r.pendingScriptFinished p else r
  let r := if (r.scripts p).isCurrentlyStreaming ∧ ((r.scripts p).readyState = .kReady ∨
    (r.scripts p).readyState = .kErrorOccurred) then r.finishStreaming p else r
  r.assert (r.scripts p).postConditions

def finishWaitingForStreaming (r : Runner) (p : Nat) : Runner :=
  let r := r.assert ((r.scripts p).readyState == .kWaitingForStreaming)
  r.advanceReadyState p (if (r.scripts p).resource.errorOccurred then .kErrorOccurred else .kReady)

def finishReadyStreaming (r : Runner) (p : Nat) : Runner :=
  let r := r.assert ((r.scripts p).readyState == .kReadyStreaming)
  r.advanceReadyState p .kReady

def streamingFinished (r : Runner) (p : Nat) : Runner :=
  let r := r.assert (r.scripts p).isCurrentlyStreaming
  let r := match (r.scripts p).readyState with
    | .kWaitingForStreaming => r.finishWaitingForStreaming p
    | .kReadyStreaming => r.finishReadyStreaming p
    | _ => r.assert false
  r.assert (!(r.scripts p).isCurrentlyStreaming)

/-- `ScriptStreamer::NotifyFinished` of the streamer that the script has. -/
def streamerNotifyFinished (r : Runner) (p : Nat) (streamer : ScriptStreamer) : Runner :=
  let streamer := streamer.finishLoading
  let r := r.update p fun script => { script with streamer := some streamer }
  if streamer.isFinished then r.streamingFinished p else r

/-- `ClassicPendingScript::NotifyFinished`. -/
def notifyFinished (r : Runner) (p : Nat) : Runner :=
  let r := r.advanceReadyState p .kWaitingForStreaming
  match (r.scripts p).streamer with
  | some streamer => r.streamerNotifyFinished p streamer
  | none => r.finishWaitingForStreaming p

/-! ## Starting to stream -/

/-- `SetStreamer`; its test of the parameter comes after the parameter has been moved from, so
the ready state is left as it is. -/
def setStreamer (r : Runner) (p : Nat) (streamer : ScriptStreamer) : Runner :=
  let script := r.scripts p
  let r := r.assert (script.streamer.isNone && !streamer.isFinished &&
    (!script.isWatchingForLoad || script.readyState != .kWaitingForResource) &&
    (script.readyState == .kWaitingForResource || script.readyState == .kReady))
  r.update p fun script => { script with streamer := some streamer, isCurrentlyStreaming := true }

def startStreaming (r : Runner) (p : Nat) : Runner :=
  let resource := (r.scripts p).resource
  let r := r.update p fun script => { script with notStreamedReason := .kInvalid }
  if ¬ resource.http then
    r.update p fun script => { script with notStreamedReason := .kNotHTTP }
  else if resource.isLoaded ∧ resource.resourceBuffer = none then
    r.update p fun script => { script with notStreamedReason := .kNoResourceBuffer }
  else
    let r := r.assert (!(r.scripts p).isReady)
    let r := r.setStreamer p .create
    if (r.scripts p).isReady then r.streamerNotifyFinished p .create else r

/-- The callback is kept only when streaming has started. -/
def startStreamingIfPossible (r : Runner) (p : Nat) : Runner × Bool :=
  let script := r.scripts p
  if script.isCurrentlyStreaming then (r, false)
  else if script.readyState ≠ .kWaitingForResource ∧ script.readyState ≠ .kReady then (r, false)
  else if ¬ script.frame then (r, false)
  else
    let r := if script.streamer.any fun streamer => streamer.streamingSuppressed &&
        streamer.isFinished then r.update p fun script => { script with streamer := none }
      else r
    if (r.scripts p).streamer.isSome then (r, false)
    else
      let r := r.startStreaming p
      let success := (r.scripts p).streamer.any fun streamer => !streamer.isStreamingFinished
      let r := r.assert ((r.scripts p).isCurrentlyStreaming == success)
      if success then (r.update p fun script => { script with streamerDone := true }, true)
      else (r, false)

def doTryStream (r : Runner) (p : Nat) : Runner × Bool :=
  let r := r.assert (!r.isSuspended && decide (p ∈ r.pendingAsyncScripts))
  let wasAlreadyStreaming := (r.scripts p).isCurrentlyStreaming
  let (r, success) := r.startStreamingIfPossible p
  let r := r.assert (if wasAlreadyStreaming then !success
    else success == (r.scripts p).isCurrentlyStreaming)
  if success then ({ r with numberOfExtraTasks := r.numberOfExtraTasks + 1 }, true) else (r, false)

def tryStream (r : Runner) (p : Nat) : Runner :=
  if r.isSuspended then r else (r.doTryStream p).1

def queueScriptForExecution (r : Runner) (p : Nat) : Runner :=
  let r := { r with
    loadEventDelayCount := r.loadEventDelayCount + 1
    pendingAsyncScripts := p :: r.pendingAsyncScripts }
  r.tryStream p

/-- `WatchForLoad` with the `ScriptLoader` as the client. -/
def watchForLoad (r : Runner) (p : Nat) : Runner :=
  let r := r.assert (!(r.scripts p).isWatchingForLoad)
  let r := r.update p fun script => { script with isWatchingForLoad := true }
  if (r.scripts p).isReady then r.pendingScriptFinished p else r

/-! ## The tasks -/

/-- `ExecuteScriptBlock` up to the call of the script. -/
def executeScriptBlock (r : Runner) (p : Nat) : Runner :=
  let script := r.scripts p
  let r := if script.frame then r.assert (script.isReady &&
      (script.readyState == .kErrorOccurred || script.resource.isLoaded)) else r
  let r := r.record (.taken p script)
  { r.update p PendingScript.dispose with executing := some p }

/-- `ExecuteTask` with `ExecuteAsyncTask` and `ExecuteInOrderTask`, up to the call of the
script. -/
def executeTask (r : Runner) : Runner :=
  if r.isSuspended then r
  else
    match r.asyncScriptsToExecuteSoon.find? fun p => !(r.scripts p).isCurrentlyStreaming with
    | some p =>
      executeScriptBlock
        { r with asyncScriptsToExecuteSoon := r.asyncScriptsToExecuteSoon.erase p } p
    | none =>
      match r.inOrderScriptsToExecuteSoon with
      | p :: rest => executeScriptBlock { r with inOrderScriptsToExecuteSoon := rest } p
      | [] =>
        let r := r.assert (decide (0 < r.numberOfExtraTasks))
        { r with numberOfExtraTasks := r.numberOfExtraTasks - 1 }

end Runner

/-! ## The steps -/

/-- What happens to the scripts of a document. -/
inductive Label where
  /-- `PrepareScript` of an `async` script: `QueueScriptForExecution`, then `WatchForLoad`. -/
  | queue (frame http : Bool)
  /-- `n` bytes of a resource arrive. -/
  | data (p n : Nat)
  /-- `Resource::Finish`. -/
  | finish (p : Nat)
  /-- `Resource::FinishAsError`. -/
  | fail (p : Nat)
  /-- A posted task of the runner starts. -/
  | task
  /-- `ExecuteScriptBlock` returns to the task. -/
  | done

namespace Runner

def queue (r : Runner) (frame http : Bool) : Runner :=
  let p := r.queued
  let r := { r with queued := p + 1 }.update p fun _ => PendingScript.fetch frame http
  ((r.record (.queued p)).queueScriptForExecution p).watchForLoad p

/-- `Resource::AppendData`. -/
def appendData (r : Runner) (p n : Nat) : Runner :=
  let r := r.update p fun script =>
    { script with resource.resourceBuffer := some (script.resource.resourceBuffer.getD 0 + n) }
  if (r.scripts p).hasResource then r.update p PendingScript.dataReceived else r

/-- `Resource::Finish`, and `Resource::FinishAsError`, which clears the data. -/
def finishResource (r : Runner) (p : Nat) (status : ResourceStatus) : Runner :=
  let r := r.update p fun script =>
    { script with
      resource.status := status
      resource.resourceBuffer :=
        if status = .kLoadError then none else script.resource.resourceBuffer }
  if (r.scripts p).hasResource then r.notifyFinished p else r

/-- The resource of the script is on its way. -/
def InFlight (r : Runner) (p : Nat) : Prop :=
  p < r.queued ∧ (r.scripts p).resource.status = .kPending

instance (r : Runner) (p : Nat) : Decidable (r.InFlight p) := inferInstanceAs (Decidable (_ ∧ _))

def next (r : Runner) : Label → Option Runner
  | .queue frame http => some (r.queue frame http)
  | .data p n => if r.InFlight p then some (r.appendData p n) else none
  | .finish p => if r.InFlight p then some (r.finishResource p .kCached) else none
  | .fail p => if r.InFlight p then some (r.finishResource p .kLoadError) else none
  | .task =>
    if r.executing = none ∧ 0 < r.tasks then some (executeTask { r with tasks := r.tasks - 1 })
    else none
  | .done =>
    match r.executing with
    | none => none
    | some p =>
      let r := { r with loadEventDelayCount := r.loadEventDelayCount - 1, executing := none }
      some (r.record (.done p))

/-- A runner as the document creates it. -/
def start : Runner where
  scripts := fun _ => .fetch false false
  queued := 0
  pendingAsyncScripts := []
  asyncScriptsToExecuteSoon := []
  inOrderScriptsToExecuteSoon := []
  isSuspended := false
  numberOfExtraTasks := 0
  tasks := 0
  loadEventDelayCount := 0
  executing := none
  assertsHold := true
  log := []

end Runner

end Blinkit.Script
