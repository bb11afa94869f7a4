import Blinkit.Lib.Transition
import Blinkit.Script.ScriptRunner
import Mathlib.Data.List.Perm.Basic
import Mathlib.Data.List.Range
import Mathlib.Data.List.Nodup

/-!
# The protocol of asynchronous scripts

A pending script is `Loading` until its resource finishes, and then `Settled` at once: the notice
of the resource runs through the streamer back to the script, which goes to the scripts to execute
soon with one task, and with a second task if it was streaming.  The second task is one of the
extra tasks that the runner counts when streaming starts.

* `Loading`, `Settled` : the states of a script between the callbacks
* `queue_eq`, `finishResource_eq` : what the nested callbacks come to
* `Inv` : every script is in one place, and the posted tasks are accounted for

Principal results: `Inv.next`, `async_protocol`.
-/

set_option autoImplicit false

namespace Blinkit.Script

open Transition

namespace PendingScript

/-- The streamer of a script whose resource has not finished. -/
def Streams (script : PendingScript) : Prop :=
  match script.streamer with
  | none => script.isCurrentlyStreaming = false ∧ script.streamerDone = false
  | some streamer =>
    script.isCurrentlyStreaming = true ∧ script.streamerDone = true ∧
      streamer.loadingFinished = false ∧ streamer.streamingSuppressed = false ∧
      streamer.parsingFinished = streamer.haveEnoughDataForStreaming

/-- A script whose resource is on its way. -/
structure Loading (script : PendingScript) : Prop where
  pending : script.resource.status = .kPending
  client : script.hasResource = true
  waiting : script.readyState = .kWaitingForResource
  watching : script.isWatchingForLoad = true
  streams : script.Streams

/-- A script that waits for its execution. -/
structure Settled (script : PendingScript) : Prop where
  loaded : script.resource.isLoaded = true
  ready : script.isReady = true
  notStreaming : script.isCurrentlyStreaming = false
  finished : ∀ streamer ∈ script.streamer, streamer.isFinished = true

/-- A script that has just been queued. -/
def queued (frame http : Bool) : PendingScript :=
  { fetch frame http with
    isWatchingForLoad := true
    streamer := if frame && http then some .create else none
    streamerDone := frame && http
    isCurrentlyStreaming := frame && http
    notStreamedReason :=
      if !frame then .kDidntTryToStartStreaming else if http then .kInvalid else .kNotHTTP }

/-- The script behind the notice that its resource has finished. -/
def settle (script : PendingScript) (status : ResourceStatus) : PendingScript :=
  { script with
    resource.status := status
    resource.resourceBuffer := if status = .kLoadError then none else script.resource.resourceBuffer
    isWatchingForLoad := false
    readyState := if status = .kLoadError then .kErrorOccurred else .kReady
    streamer := script.streamer.map ScriptStreamer.finishLoading
    streamerDone := false
    isCurrentlyStreaming := false }

/-- The script behind `n` bytes of data. -/
def append (script : PendingScript) (n : Nat) : PendingScript :=
  ({ script with
    resource.resourceBuffer := some (script.resource.resourceBuffer.getD 0 + n) }).dataReceived

theorem queued_loading (frame http : Bool) : (queued frame http).Loading := by
  refine ⟨rfl, rfl, rfl, rfl, ?_⟩
  cases frame <;> cases http <;> simp [Streams, queued, fetch, ScriptStreamer.create]

theorem Loading.append {script : PendingScript} (h : script.Loading) (n : Nat) :
    (script.append n).Loading := by
  refine ⟨h.pending, h.client, h.waiting, h.watching, ?_⟩
  have hstreams := h.streams
  unfold Streams at hstreams ⊢
  cases hs : script.streamer with
  | none => simpa [PendingScript.append, dataReceived, hs] using hstreams
  | some streamer =>
    rw [hs] at hstreams
    obtain ⟨hstreaming, hdone, hloading, hsuppressed, hparsing⟩ := hstreams
    simp only [PendingScript.append, dataReceived, hs, Option.map_some,
      ScriptStreamer.notifyAppendData]
    split
    · exact ⟨hstreaming, hdone, hloading, hsuppressed, hparsing⟩
    · split
      · exact ⟨hstreaming, hdone, hloading, hsuppressed, hparsing⟩
      · exact ⟨hstreaming, hdone, hloading, hsuppressed, rfl⟩

theorem finishLoading_isFinished {streamer : ScriptStreamer}
    (h : streamer.parsingFinished = streamer.haveEnoughDataForStreaming) :
    streamer.finishLoading.isFinished = true := by
  unfold ScriptStreamer.finishLoading ScriptStreamer.isFinished
  cases hd : streamer.haveEnoughDataForStreaming
  · simp [ScriptStreamer.suppressStreaming]
  · simp [h, hd]

theorem Loading.settle {script : PendingScript} (h : script.Loading) {status : ResourceStatus}
    (hstatus : status ≠ .kPending) : (script.settle status).Settled := by
  refine ⟨?_, ?_, rfl, ?_⟩
  · simpa [Resource.isLoaded, PendingScript.settle] using hstatus
  · by_cases hfail : status = .kLoadError <;> simp [isReady, PendingScript.settle, hfail]
  · intro streamer hmem
    obtain ⟨streamer', hs, rfl⟩ := Option.map_eq_some_iff.mp (Option.mem_def.mp hmem)
    have hstreams := h.streams
    rw [Streams, hs] at hstreams
    exact finishLoading_isFinished hstreams.2.2.2.2

end PendingScript

namespace Runner

open PendingScript

/-- **Queueing.** The nested calls start the streamer of an HTTP resource and nothing else. -/
theorem queue_eq (r : Runner) (hsuspended : r.isSuspended = false) (frame http : Bool) :
    r.queue frame http =
      { r with
        scripts := Function.update r.scripts r.queued (PendingScript.queued frame http)
        queued := r.queued + 1
        pendingAsyncScripts := r.queued :: r.pendingAsyncScripts
        loadEventDelayCount := r.loadEventDelayCount + 1
        numberOfExtraTasks := r.numberOfExtraTasks + if frame && http then 1 else 0
        log := .queued r.queued :: r.log } := by
  cases frame <;> cases http <;>
    simp [queue, record, queueScriptForExecution, tryStream, doTryStream, startStreamingIfPossible,
      startStreaming, setStreamer, watchForLoad, assert, update, hsuspended, PendingScript.queued,
      fetch, isReady, Resource.isLoaded, ScriptStreamer.create, ScriptStreamer.isFinished,
      ScriptStreamer.isStreamingFinished]

/-- **Finishing.** The notice settles the script and posts a task, and another one for the
streamer. -/
theorem finishResource_eq {r : Runner} {p : Nat} (hmem : p ∈ r.pendingAsyncScripts)
    (h : (r.scripts p).Loading) {status : ResourceStatus} :
    r.finishResource p status =
      { r with
        scripts := Function.update r.scripts p ((r.scripts p).settle status)
        pendingAsyncScripts := r.pendingAsyncScripts.erase p
        asyncScriptsToExecuteSoon := r.asyncScriptsToExecuteSoon ++ [p]
        tasks := r.tasks + if (r.scripts p).isCurrentlyStreaming then 2 else 1 } := by
  obtain ⟨-, hclient, hwaiting, hwatching, hstreams⟩ := h
  generalize hs : r.scripts p = script at *
  obtain ⟨resource, hasResource, frame, readyState, streamer, streamerDone, streaming, reason,
    watching⟩ := script
  subst hclient hwaiting hwatching
  cases streamer with
  | none =>
    obtain ⟨rfl, rfl⟩ := hstreams
    cases status <;>
      simp (disch := decide) [beq_false_of_ne, finishResource, notifyFinished, advanceReadyState,
        finishWaitingForStreaming, pendingScriptFinished, notifyScriptReady, postTask, tryStreamAny,
        update, assert, settle, isReady, ReadyState.advancesTo, postConditions, Resource.errorOccurred, hs, hmem]
  | some streamer =>
    obtain ⟨loading, parsing, enough, suppressed, suppressedReason⟩ := streamer
    obtain ⟨rfl, rfl, rfl, rfl, hparsing⟩ := hstreams
    dsimp only at hparsing
    subst hparsing
    cases status <;> cases parsing <;>
      simp (disch := decide) [beq_false_of_ne, finishResource, notifyFinished, advanceReadyState,
        streamerNotifyFinished, streamingFinished, finishWaitingForStreaming,
        pendingScriptFinished, notifyScriptReady, finishStreaming, notifyScriptStreamerFinished, postTask, tryStreamAny, update, assert,
        settle, isReady, ReadyState.advancesTo, postConditions, Resource.errorOccurred,
        ScriptStreamer.finishLoading, ScriptStreamer.suppressStreaming, ScriptStreamer.isFinished,
        hs, hmem]

/-! ## The protocol -/

/-- The scripts queued so far, the newest first. -/
def queuedScripts (log : List Entry) : List Nat :=
  log.filterMap fun | .queued p => some p | _ => none

/-- The scripts taken for execution so far. -/
def takenScripts (log : List Entry) : List Nat :=
  log.filterMap fun | .taken p _ => some p | _ => none

/-- The scripts whose execution is over. -/
def doneScripts (log : List Entry) : List Nat :=
  log.filterMap fun | .done p => some p | _ => none

/-- The scripts that are queued, not taken, and ready. -/
def readyScripts (r : Runner) : List Nat :=
  (queuedScripts r.log).filter fun p => p ∉ takenScripts r.log ∧ (r.scripts p).isReady

/-- What the runner promises the document. -/
structure Protocol (r : Runner) : Prop where
  takenOnce : (takenScripts r.log).Nodup
  takenQueued : takenScripts r.log ⊆ queuedScripts r.log
  takenSettled : ∀ p script, .taken p script ∈ r.log → script.resource.isLoaded = true ∧
    script.isCurrentlyStreaming = false ∧ ∀ streamer ∈ script.streamer, streamer.isFinished = true
  delay : r.loadEventDelayCount =
    ((queuedScripts r.log).filter fun p => p ∉ doneScripts r.log).length
  /-- A script whose resource has loaded or failed is ready, or has been taken. -/
  loadedReady : ∀ p ∈ queuedScripts r.log, (r.scripts p).resource.isLoaded = true →
    p ∈ readyScripts r ∨ p ∈ takenScripts r.log
  tasks : (readyScripts r).length ≤ r.tasks
  /-- With a ready script, the next task takes one. -/
  served : r.executing = none → readyScripts r ≠ [] → ∃ r' p script,
    r.next .task = some r' ∧ r'.log = .taken p script :: r.log ∧ p ∈ readyScripts r
  assertsHold : r.assertsHold = true

/-- The scripts that are streaming. -/
def streaming (r : Runner) : Nat :=
  r.pendingAsyncScripts.countP fun p => (r.scripts p).isCurrentlyStreaming

structure Inv (r : Runner) : Prop where
  queued : queuedScripts r.log = (List.range r.queued).reverse
  /-- Every script is loading, waiting for execution, or taken. -/
  placed : (r.pendingAsyncScripts ++ (r.asyncScriptsToExecuteSoon ++ takenScripts r.log)).Perm
    (List.range r.queued)
  done : takenScripts r.log = r.executing.toList ++ doneScripts r.log
  loading : ∀ p ∈ r.pendingAsyncScripts, (r.scripts p).Loading
  settled : ∀ p ∈ r.asyncScriptsToExecuteSoon, (r.scripts p).Settled
  finished : ∀ p ∈ takenScripts r.log, (r.scripts p).resource.isLoaded = true
  takenSettled : ∀ p script, .taken p script ∈ r.log → script.Settled
  delay : r.loadEventDelayCount = r.pendingAsyncScripts.length +
    r.asyncScriptsToExecuteSoon.length + r.executing.toList.length
  posted : r.asyncScriptsToExecuteSoon.length ≤ r.tasks
  /-- The extra tasks are those of the streamers that are done, and will be those of the streamers
  at work. -/
  extra : r.tasks + r.streaming = r.asyncScriptsToExecuteSoon.length + r.numberOfExtraTasks
  inOrder : r.inOrderScriptsToExecuteSoon = []
  notSuspended : r.isSuspended = false
  assertsHold : r.assertsHold = true

/-! ## Where a script is -/

theorem Inv.nodup {r : Runner} (h : Inv r) :
    (r.pendingAsyncScripts ++ (r.asyncScriptsToExecuteSoon ++ takenScripts r.log)).Nodup :=
  h.placed.nodup_iff.mpr List.nodup_range

theorem Inv.lt_queued {r : Runner} (h : Inv r) {p : Nat}
    (hmem : p ∈ r.pendingAsyncScripts ++ (r.asyncScriptsToExecuteSoon ++ takenScripts r.log)) :
    p < r.queued :=
  List.mem_range.mp (h.placed.mem_iff.mp hmem)

theorem Inv.mem_queuedScripts {r : Runner} (h : Inv r) {p : Nat} :
    p ∈ queuedScripts r.log ↔ p < r.queued := by
  rw [h.queued, List.mem_reverse, List.mem_range]

theorem Inv.cases {r : Runner} (h : Inv r) {p : Nat} (hlt : p < r.queued) :
    p ∈ r.pendingAsyncScripts ∨ p ∈ r.asyncScriptsToExecuteSoon ∨ p ∈ takenScripts r.log := by
  have hmem := h.placed.mem_iff.mpr (List.mem_range.mpr hlt)
  rwa [List.mem_append, List.mem_append] at hmem

/-- A resource is on its way exactly when its script is loading. -/
theorem Inv.inFlight {r : Runner} (h : Inv r) {p : Nat} (hp : r.InFlight p) :
    p ∈ r.pendingAsyncScripts := by
  have hstatus : (r.scripts p).resource.isLoaded = false := by
    rw [Resource.isLoaded, hp.2]
    rfl
  rcases h.cases hp.1 with hmem | hmem | hmem
  · exact hmem
  · rw [(h.settled p hmem).loaded] at hstatus
    cases hstatus
  · rw [h.finished p hmem] at hstatus
    cases hstatus

theorem Loading.not_ready {script : PendingScript} (h : script.Loading) :
    script.isReady = false := by
  rw [isReady, h.waiting]

/-- The ready scripts are those to execute soon. -/
theorem Inv.mem_readyScripts {r : Runner} (h : Inv r) {p : Nat} :
    p ∈ readyScripts r ↔ p ∈ r.asyncScriptsToExecuteSoon := by
  have hnodup := List.nodup_append.mp (List.nodup_append.mp h.nodup).2.1
  simp only [readyScripts, List.mem_filter, h.mem_queuedScripts, decide_eq_true_eq]
  constructor
  · rintro ⟨hlt, hnot, hready⟩
    rcases h.cases hlt with hmem | hmem | hmem
    · rw [Loading.not_ready (h.loading p hmem)] at hready
      cases hready
    · exact hmem
    · exact absurd hmem hnot
  · intro hmem
    refine ⟨h.lt_queued (by simp [hmem]), ?_, (h.settled p hmem).ready⟩
    intro htaken
    exact hnodup.2.2 p hmem p htaken rfl

theorem Inv.loadedReady {r : Runner} (h : Inv r) {p : Nat} (hp : p ∈ queuedScripts r.log)
    (hloaded : (r.scripts p).resource.isLoaded = true) :
    p ∈ readyScripts r ∨ p ∈ takenScripts r.log := by
  rcases h.cases (h.mem_queuedScripts.mp hp) with hmem | hmem | hmem
  · rw [Resource.isLoaded, (h.loading p hmem).pending] at hloaded
    cases hloaded
  · exact .inl (h.mem_readyScripts.mpr hmem)
  · exact .inr hmem

theorem Inv.length_readyScripts {r : Runner} (h : Inv r) : (readyScripts r).length ≤ r.tasks := by
  have hnodup : (readyScripts r).Nodup := by
    unfold readyScripts
    rw [h.queued]
    exact (List.nodup_reverse.mpr List.nodup_range).filter _
  have hsub : readyScripts r ⊆ r.asyncScriptsToExecuteSoon := fun p => h.mem_readyScripts.mp
  exact (List.subperm_of_subset hnodup hsub).length_le.trans h.posted

/-- The delay count is the number of scripts that are queued and not done. -/
theorem Inv.delay_eq {r : Runner} (h : Inv r) : r.loadEventDelayCount =
    ((queuedScripts r.log).filter fun p => p ∉ doneScripts r.log).length := by
  have hplaced := h.placed
  have hnodup := h.nodup
  rw [h.done, ← List.append_assoc, ← List.append_assoc] at hplaced hnodup
  have hdisjoint := (List.nodup_append.mp hnodup).2.2
  have hreverse : (queuedScripts r.log).Perm (List.range r.queued) := by
    rw [h.queued]
    exact List.reverse_perm _
  have hperm := hreverse.trans hplaced.symm
  rw [(hperm.filter _).length_eq, List.filter_append, h.delay]
  rw [List.filter_eq_self.mpr, List.filter_eq_nil_iff.mpr]
  · simp [Nat.add_assoc]
  · intro p hp
    simpa using hp
  · intro p hp
    simpa using fun hdone => hdisjoint p hp p hdone rfl

/-! ## The steps keep the invariant -/

/-- A change of one script leaves the streaming flags of the others as they are. -/
theorem countP_update_of_notMem {scripts : Nat → PendingScript} {p : Nat} {script : PendingScript}
    {l : List Nat} (hp : p ∉ l) :
    l.countP (fun q => (Function.update scripts p script q).isCurrentlyStreaming) =
      l.countP fun q => (scripts q).isCurrentlyStreaming := by
  refine List.countP_congr fun q hq => ?_
  have hne : q ≠ p := fun heq => hp (heq ▸ hq)
  rw [Function.update_of_ne hne]

theorem Inv.queue {r : Runner} (h : Inv r) (frame http : Bool) : Inv (r.queue frame http) := by
  rw [r.queue_eq h.notSuspended]
  have hne : ∀ p ∈ r.pendingAsyncScripts ++ (r.asyncScriptsToExecuteSoon ++ takenScripts r.log),
      p ≠ r.queued := by
    intro p hp
    have := h.lt_queued hp
    omega
  refine ⟨?_, ?_, h.done, ?_, ?_, ?_, ?_, ?_, h.posted, ?_, h.inOrder, h.notSuspended,
    h.assertsHold⟩
  · show r.queued :: queuedScripts r.log = _
    rw [h.queued, List.range_succ, List.reverse_append]
    rfl
  · show (r.queued :: (r.pendingAsyncScripts ++
      (r.asyncScriptsToExecuteSoon ++ takenScripts r.log))).Perm _
    rw [List.range_succ]
    exact (h.placed.cons _).trans (List.perm_append_singleton _ _).symm
  · intro p hp
    dsimp only at hp ⊢
    rcases List.mem_cons.mp hp with rfl | hp
    · rw [Function.update_self]
      exact queued_loading frame http
    · rw [Function.update_of_ne (hne p (by simp [hp]))]
      exact h.loading p hp
  · intro p hp
    dsimp only at hp ⊢
    rw [Function.update_of_ne (hne p (by simp [hp]))]
    exact h.settled p hp
  · intro p hp
    have hp : p ∈ takenScripts r.log := hp
    dsimp only
    rw [Function.update_of_ne (hne p (by simp [hp]))]
    exact h.finished p hp
  · intro p script hmem
    rcases List.mem_cons.mp hmem with heq | hmem
    · cases heq
    · exact h.takenSettled p script hmem
  · have := h.delay
    simp only [List.length_cons]
    omega
  · have hnot : r.queued ∉ r.pendingAsyncScripts := fun hmem => hne _ (by simp [hmem]) rfl
    have hextra := h.extra
    unfold streaming at hextra ⊢
    simp only [List.countP_cons, countP_update_of_notMem hnot, Function.update_self,
      PendingScript.queued]
    split <;> push_cast <;> omega

/-- Data reaches the streamer through the script. -/
theorem appendData_eq {r : Runner} {p n : Nat} (hclient : (r.scripts p).hasResource = true) :
    r.appendData p n =
      { r with scripts := Function.update r.scripts p ((r.scripts p).append n) } := by
  simp [Runner.appendData, update, PendingScript.append, hclient]

theorem Inv.appendData {r : Runner} (h : Inv r) {p : Nat} (hp : r.InFlight p) (n : Nat) :
    Inv (r.appendData p n) := by
  have hmem := h.inFlight hp
  have hnodup := List.nodup_append.mp h.nodup
  rw [appendData_eq (h.loading p hmem).client]
  refine ⟨h.queued, h.placed, h.done, ?_, ?_, ?_, h.takenSettled, h.delay, h.posted, ?_, h.inOrder,
    h.notSuspended, h.assertsHold⟩
  · intro q hq
    dsimp only
    rcases eq_or_ne q p with rfl | hne
    · rw [Function.update_self]
      exact (h.loading q hmem).append n
    · rw [Function.update_of_ne hne]
      exact h.loading q hq
  · intro q hq
    dsimp only
    rw [Function.update_of_ne (hnodup.2.2 p hmem q (by simp [hq])).symm]
    exact h.settled q hq
  · intro q hq
    dsimp only at hq ⊢
    rw [Function.update_of_ne (hnodup.2.2 p hmem q (by simp [hq])).symm]
    exact h.finished q hq
  · have hstreaming : ∀ q, (Function.update r.scripts p ((r.scripts p).append n)
        q).isCurrentlyStreaming = (r.scripts q).isCurrentlyStreaming := by
      intro q
      rcases eq_or_ne q p with rfl | hne
      · rw [Function.update_self]
        rfl
      · rw [Function.update_of_ne hne]
    simpa only [streaming, hstreaming] using h.extra

theorem Inv.finishResource {r : Runner} (h : Inv r) {p : Nat} (hp : r.InFlight p)
    {status : ResourceStatus} (hstatus : status ≠ .kPending) :
    Inv (r.finishResource p status) := by
  have hmem := h.inFlight hp
  have hnodup := List.nodup_append.mp h.nodup
  have hnot := hnodup.1.not_mem_erase (a := p)
  have hperm := List.perm_cons_erase hmem
  rw [finishResource_eq hmem (h.loading p hmem)]
  refine ⟨h.queued, ?_, h.done, ?_, ?_, ?_, h.takenSettled, ?_, ?_, ?_, h.inOrder,
    h.notSuspended, h.assertsHold⟩
  · refine List.Perm.trans ?_ h.placed
    rw [List.perm_iff_count]
    intro q
    have := hperm.count_eq q
    simp only [List.count_append, List.count_cons, List.count_nil] at this ⊢
    omega
  · intro q hq
    dsimp only at hq ⊢
    have hne : q ≠ p := fun heq => hnot (heq ▸ hq)
    rw [Function.update_of_ne hne]
    exact h.loading q (List.mem_of_mem_erase hq)
  · intro q hq
    dsimp only at hq ⊢
    rcases List.mem_append.mp hq with hq | hq
    · rw [Function.update_of_ne (hnodup.2.2 p hmem q (by simp [hq])).symm]
      exact h.settled q hq
    · rw [List.mem_singleton.mp hq, Function.update_self]
      exact (h.loading p hmem).settle hstatus
  · intro q hq
    dsimp only at hq ⊢
    rw [Function.update_of_ne (hnodup.2.2 p hmem q (by simp [hq])).symm]
    exact h.finished q hq
  · have hlength := hperm.length_eq
    have := h.delay
    simp only [List.length_append, List.length_cons, List.length_nil] at hlength ⊢
    omega
  · have := h.posted
    simp only [List.length_append, List.length_cons, List.length_nil]
    split <;> omega
  · have hcount := hperm.countP_eq fun q => (r.scripts q).isCurrentlyStreaming
    have hextra := h.extra
    unfold streaming at hextra ⊢
    simp only [countP_update_of_notMem hnot, List.length_append, List.length_singleton]
    rw [List.countP_cons] at hcount
    split at hcount
    · rename_i hs
      rw [if_pos hs]
      push_cast
      omega
    · rename_i hs
      rw [if_neg hs]
      push_cast
      omega

theorem executeTask_cons {r : Runner} (hsuspended : r.isSuspended = false) {p : Nat}
    {rest : List Nat} (hsoon : r.asyncScriptsToExecuteSoon = p :: rest)
    (h : (r.scripts p).Settled) :
    r.executeTask =
      { r with
        scripts := Function.update r.scripts p (r.scripts p).dispose
        asyncScriptsToExecuteSoon := rest
        executing := some p
        log := .taken p (r.scripts p) :: r.log } := by
  simp [executeTask, executeScriptBlock, record, assert, update, hsuspended, hsoon, h.notStreaming,
    h.ready, h.loaded]

theorem executeTask_nil {r : Runner} (hsuspended : r.isSuspended = false)
    (hsoon : r.asyncScriptsToExecuteSoon = []) (hinOrder : r.inOrderScriptsToExecuteSoon = [])
    (hextra : 0 < r.numberOfExtraTasks) :
    r.executeTask = { r with numberOfExtraTasks := r.numberOfExtraTasks - 1 } := by
  simp [executeTask, assert, hsuspended, hsoon, hinOrder, hextra]

@[simp] theorem dispose_resource (script : PendingScript) :
    script.dispose.resource = script.resource := by
  unfold PendingScript.dispose cancelStreaming
  split <;> rfl

theorem Inv.executeTask {r : Runner} (h : Inv r) (hexecuting : r.executing = none)
    (htasks : 0 < r.tasks) : Inv (executeTask { r with tasks := r.tasks - 1 }) := by
  have hnodup := List.nodup_append.mp h.nodup
  have hextra := h.extra
  have hposted := h.posted
  have hdone := h.done
  rw [hexecuting] at hdone
  rcases eq_or_ne r.asyncScriptsToExecuteSoon [] with hsoon | hne
  · -- With no script to execute, the task is one of the extra ones.
    rw [hsoon] at hextra hposted
    simp only [List.length_nil] at hextra
    have hpositive : 0 < r.numberOfExtraTasks := by omega
    rw [executeTask_nil (r := { r with tasks := r.tasks - 1 }) h.notSuspended hsoon h.inOrder
      hpositive]
    refine ⟨h.queued, h.placed, h.done, h.loading, h.settled, h.finished, h.takenSettled, h.delay,
      ?_, ?_, h.inOrder, h.notSuspended, h.assertsHold⟩
    · simp [hsoon]
    · unfold streaming at hextra ⊢
      simp only [hsoon, List.length_nil]
      omega
  · obtain ⟨p, rest, hsoon⟩ := List.exists_cons_of_ne_nil hne
    have hp : p ∈ r.asyncScriptsToExecuteSoon := by simp [hsoon]
    have hsettled := h.settled p hp
    have hsoonNodup := List.nodup_append.mp hnodup.2.1
    rw [executeTask_cons (r := { r with tasks := r.tasks - 1 }) h.notSuspended hsoon hsettled]
    rw [hsoon] at hextra hposted hsoonNodup
    simp only [List.length_cons] at hextra hposted
    have hnot : p ∉ r.pendingAsyncScripts := fun hmem => hnodup.2.2 p hmem p (by simp [hp]) rfl
    refine ⟨h.queued, ?_, ?_, ?_, ?_, ?_, ?_, ?_, ?_, ?_, h.inOrder, h.notSuspended,
      h.assertsHold⟩
    · refine List.Perm.trans ?_ h.placed
      rw [hsoon]
      exact (List.Perm.refl _).append List.perm_middle
    · show p :: takenScripts r.log = p :: doneScripts r.log
      rw [hdone]
      rfl
    · intro q hq
      dsimp only at hq ⊢
      have hne : q ≠ p := fun heq => hnot (heq ▸ hq)
      rw [Function.update_of_ne hne]
      exact h.loading q hq
    · intro q hq
      dsimp only at hq ⊢
      have hne : q ≠ p := fun heq => (List.nodup_cons.mp hsoonNodup.1).1 (heq ▸ hq)
      rw [Function.update_of_ne hne]
      exact h.settled q (by simp [hsoon, hq])
    · intro q hq
      dsimp only
      rcases eq_or_ne q p with rfl | hne
      · rw [Function.update_self, dispose_resource]
        exact hsettled.loaded
      · rw [Function.update_of_ne hne]
        rcases List.mem_cons.mp hq with heq | hq
        · exact absurd heq hne
        · exact h.finished q hq
    · intro q script hmem
      rcases List.mem_cons.mp hmem with heq | hmem
      · cases heq
        exact hsettled
      · exact h.takenSettled q script hmem
    · have := h.delay
      rw [hsoon, hexecuting] at this
      simpa [Nat.add_assoc] using this
    · dsimp only
      omega
    · unfold streaming at hextra ⊢
      simp only [countP_update_of_notMem hnot]
      omega

theorem Inv.executed {r : Runner} (h : Inv r) {p : Nat} (hexecuting : r.executing = some p) :
    Inv (({ r with loadEventDelayCount := r.loadEventDelayCount - 1, executing := none }).record
      (.done p)) := by
  have hdone := h.done
  have hdelay := h.delay
  rw [hexecuting] at hdone hdelay
  refine ⟨h.queued, h.placed, hdone, h.loading, h.settled, h.finished, ?_, ?_, h.posted, h.extra,
    h.inOrder, h.notSuspended, h.assertsHold⟩
  · intro q script hmem
    rcases List.mem_cons.mp hmem with heq | hmem
    · cases heq
    · exact h.takenSettled q script hmem
  · simp only [record, Option.toList_some, Option.toList_none, List.length_singleton,
      List.length_nil] at hdelay ⊢
    omega

/-- **Every step keeps the invariant.** -/
theorem Inv.next {r r' : Runner} (h : Inv r) {l : Label} (hnext : r.next l = some r') :
    Inv r' := by
  cases l with
  | queue frame http =>
    cases hnext
    exact h.queue frame http
  | data p n =>
    simp only [Runner.next, Option.ite_none_right_eq_some, Option.some.injEq] at hnext
    obtain ⟨hp, rfl⟩ := hnext
    exact h.appendData hp n
  | finish p =>
    simp only [Runner.next, Option.ite_none_right_eq_some, Option.some.injEq] at hnext
    obtain ⟨hp, rfl⟩ := hnext
    exact h.finishResource hp (by decide)
  | fail p =>
    simp only [Runner.next, Option.ite_none_right_eq_some, Option.some.injEq] at hnext
    obtain ⟨hp, rfl⟩ := hnext
    exact h.finishResource hp (by decide)
  | task =>
    simp only [Runner.next, Option.ite_none_right_eq_some, Option.some.injEq] at hnext
    obtain ⟨⟨hexecuting, htasks⟩, rfl⟩ := hnext
    exact h.executeTask hexecuting htasks
  | done =>
    simp only [Runner.next] at hnext
    split at hnext
    · cases hnext
    · rename_i p hexecuting
      cases hnext
      exact h.executed hexecuting

/-- With a ready script, the next task takes one. -/
theorem Inv.served {r : Runner} (h : Inv r) (hexecuting : r.executing = none)
    (hready : readyScripts r ≠ []) : ∃ r' p script,
    r.next .task = some r' ∧ r'.log = .taken p script :: r.log ∧ p ∈ readyScripts r := by
  obtain ⟨q, hq⟩ := List.exists_mem_of_ne_nil _ hready
  have hmem := h.mem_readyScripts.mp hq
  obtain ⟨p, rest, hsoon⟩ := List.exists_cons_of_ne_nil (List.ne_nil_of_mem hmem)
  have hp : p ∈ r.asyncScriptsToExecuteSoon := by simp [hsoon]
  have htasks : 0 < r.tasks := (List.length_pos_of_mem hp).trans_le h.posted
  refine ⟨_, p, r.scripts p, if_pos ⟨hexecuting, htasks⟩, ?_, h.mem_readyScripts.mpr hp⟩
  rw [executeTask_cons (r := { r with tasks := r.tasks - 1 }) h.notSuspended hsoon (h.settled p hp)]

theorem Inv.protocol {r : Runner} (h : Inv r) : Protocol r where
  takenOnce := (List.nodup_append.mp (List.nodup_append.mp h.nodup).2.1).2.1
  takenQueued := fun _ hp => h.mem_queuedScripts.mpr (h.lt_queued (by simp [hp]))
  takenSettled := fun p script hmem =>
    have hsettled := h.takenSettled p script hmem
    ⟨hsettled.loaded, hsettled.notStreaming, hsettled.finished⟩
  delay := h.delay_eq
  loadedReady := fun _ => h.loadedReady
  tasks := h.length_readyScripts
  served := h.served
  assertsHold := h.assertsHold

theorem inv_start : Inv start := by
  refine ⟨rfl, .nil, rfl, ?_, ?_, ?_, ?_, rfl, Nat.le_refl _, rfl, rfl, rfl, rfl⟩
  · intro p hp
    cases hp
  · intro p hp
    cases hp
  · intro p hp
    cases hp
  · intro p script hp
    cases hp

/-- **The protocol of asynchronous scripts.** In every state of every run, whatever is queued and
in whatever order data, finishes, failures and tasks come: every script is taken at most once, with
its resource loaded or failed and its streamer finished; the delay count is the number of scripts
queued and not done; a script whose resource has loaded or failed is ready or has been taken; there
is a posted task for every ready script, and the next one takes a ready script; and no assertion has
failed. -/
theorem async_protocol (labels : List Label) :
    Always (machine next) Protocol True start labels :=
  always_machine (I := Inv) (G := fun _ _ => True) (fun _ h => h.protocol)
    (fun _ _ _ h _ hnext => h.next hnext) inv_start (allowed_of_forall fun _ _ _ => trivial)

/-- A large script of an HTTP resource ends its streaming: it leaves an extra task behind. -/
example : ((run (machine next) start [.queue true true, .data 0 20000, .data 0 20000, .finish 0,
    .task, .done, .task]).toOption.map fun r =>
      (takenScripts r.1.log, r.1.loadEventDelayCount, r.1.tasks, r.1.numberOfExtraTasks)) =
    some ([0], 0, 0, 0) := by
  decide

end Runner

end Blinkit.Script
