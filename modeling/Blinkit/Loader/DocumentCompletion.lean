import Blinkit.Lib.Transition
import Mathlib.Data.List.Infix

/-!
# Completion of a document

`Document::CheckCompleted` is called whenever something that completion waits for may have changed.
It calls out four times: to the scripts that run at document idle, to the `readystatechange`
handlers, to the handlers of the load event, and to the client.  Each of these may change the
document and may call `CheckCompleted` again, so the state has a stack of calls that wait for the
code they called.

* `Wait` : what a call on the stack waits for
* `checkCompletedInternal`, `implicitClose`, `finishedParsing` and the parts of them that run when
  a wait is over
* `Label`, `next` : acts of handlers and of tasks, and the return of the code that was called
* `log` : what happened, newest first, each entry with the number of calls that were waiting

A navigation starts behind `OpenForNavigation`, with the parser at work and the load event not run.

Principal results: `Inv.next`, `document_completes`.
-/

set_option autoImplicit false

namespace Blinkit.Loader

open Transition

inductive ParsingState where
  | kParsing
  | kInDOMContentLoaded
  | kFinishedParsing
  deriving DecidableEq

inductive DocumentReadyState where
  | kLoading
  | kInteractive
  | kComplete
  deriving DecidableEq

inductive LoadEventProgress where
  | kLoadEventNotRun
  | kLoadEventInProgress
  | kLoadEventCompleted
  deriving DecidableEq

/-- What a call waits for. -/
inductive Wait where
  /-- The `readystatechange` handlers, for the state `interactive`. -/
  | interactive
  /-- The `DOMContentLoaded` handlers in `FinishedParsing`. -/
  | domContentLoaded
  /-- `DispatchDidFinishDocumentLoad` in `FrameLoader::FinishedParsing`. -/
  | finishDocumentLoad
  /-- `RunScriptsAtDocumentIdle` in `CheckCompletedInternal`. -/
  | documentIdle
  /-- The `readystatechange` handlers in `CheckCompletedInternal`. -/
  | readyStateComplete
  /-- The load handlers in `ImplicitClose`. -/
  | load
  /-- `DispatchDidHandleOnloadEvents` in `ImplicitClose`. -/
  | onloadEvents
  /-- `DispatchDidFinishLoad` in `CheckCompletedInternal`. -/
  | finishLoad
  deriving DecidableEq

/-- The call is inside `ImplicitClose`. -/
def Wait.Closing (w : Wait) : Prop := w = .load ∨ w = .onloadEvents

/-- The call is in a check, before `ImplicitClose`. -/
def Wait.Checking (w : Wait) : Prop := w = .documentIdle ∨ w = .readyStateComplete

/-- What handlers and tasks do to the conditions of completion. -/
inductive Act where
  | incrementLoadEventDelayCount
  | decrementLoadEventDelayCount
  | addResourceLoader
  | removeResourceLoader
  /-- `DocumentLoader::LoadFailed` of the committed document. -/
  | loadFailed
  | detachFrame
  | clearDOMWindow
  deriving DecidableEq

inductive Entry where
  | act (a : Act)
  /-- A check goes on to set the ready state, with the conditions it has just read. -/
  | passed (parsing : ParsingState) (blockingRequests delayCount : Nat)
  /-- The handlers of the ready state that the check has set are called. -/
  | readystatechange
  /-- The load event is dispatched. -/
  | load
  /-- The loader reports, with the progress of the load event and whether it is being
  dispatched. -/
  | didFinishLoad (progress : LoadEventProgress) (dispatching : Bool)
  deriving DecidableEq

structure Document where
  parsingState : ParsingState
  readyState : DocumentReadyState
  loadEventProgress : LoadEventProgress
  loadEventDelayCount : Nat
  loadEventDelayTimer : Bool
  /-- `ResourceFetcher::BlockingRequestCount`. -/
  blockingRequestCount : Nat
  /-- `m_frame` is set. -/
  frame : Bool
  /-- `m_domWindow` is set. -/
  domWindow : Bool
  /-- `SentDidFinishLoad` of the document loader. -/
  sentDidFinishLoad : Bool
  /-- The calls that wait, the innermost first. -/
  stack : List Wait
  log : List (Nat × Entry)
  deriving DecidableEq

namespace Document

def record (d : Document) (e : Entry) : Document := { d with log := (d.stack.length, e) :: d.log }

def wait (d : Document) (w : Wait) : Document := { d with stack := w :: d.stack }

/-- `Document::ShouldComplete`. -/
def shouldComplete (d : Document) : Bool :=
  d.parsingState == .kFinishedParsing && d.blockingRequestCount == 0 &&
    d.loadEventDelayCount == 0 && d.loadEventProgress != .kLoadEventInProgress

/-! ## A completeness check -/

/-- The rest of `CheckCompletedInternal` behind `ImplicitClose`. -/
def afterClose (d : Document) : Document :=
  if d.frame = false ∨ d.sentDidFinishLoad = true then d
  else
    let d := { d with sentDidFinishLoad := true }
    (d.record (.didFinishLoad d.loadEventProgress (.load ∈ d.stack))).wait .finishLoad

/-- The rest of `ImplicitClose` behind `DispatchDidHandleOnloadEvents`. -/
def afterOnloadEvents (d : Document) : Document :=
  ({ d with loadEventProgress := .kLoadEventCompleted }).afterClose

/-- The rest of `ImplicitClose` behind `DocumentWasClosed`. -/
def afterLoad (d : Document) : Document :=
  if d.frame then d.wait .onloadEvents else d.afterOnloadEvents

/-- `Document::ImplicitClose`. -/
def implicitClose (d : Document) : Document :=
  let d := { d with loadEventProgress := .kLoadEventInProgress }
  if d.domWindow then (d.record .load).wait .load else d.afterLoad

/-- The rest of `CheckCompletedInternal` behind `SetReadyState`. -/
def afterReadyState (d : Document) : Document :=
  if d.loadEventProgress = .kLoadEventNotRun then d.implicitClose else d.afterClose

/-- `SetReadyState(kComplete)` and the rest of `CheckCompletedInternal`. -/
def complete (d : Document) : Document :=
  let d := d.record (.passed d.parsingState d.blockingRequestCount d.loadEventDelayCount)
  if d.readyState = .kComplete then d.afterReadyState
  else (({ d with readyState := .kComplete }).record .readystatechange).wait .readyStateComplete

/-- The rest of `CheckCompletedInternal` behind `RunScriptsAtDocumentIdle`. -/
def afterDocumentIdle (d : Document) : Document :=
  if d.frame = true ∧ d.shouldComplete = true then d.complete else d

/-- `Document::CheckCompletedInternal`. What `CheckCompleted` does behind it concerns the frame
only. -/
def checkCompletedInternal (d : Document) : Document :=
  if d.shouldComplete then
    if d.frame then d.wait .documentIdle else d.complete
  else d

/-! ## The end of parsing -/

/-- `Document::FinishedParsing`, up to the handlers of `DOMContentLoaded`. -/
def finishedParsing (d : Document) : Document :=
  ({ d with parsingState := .kInDOMContentLoaded }).wait .domContentLoaded

/-- The rest of `Document::FinishedParsing`, into `FrameLoader::FinishedParsing`. -/
def afterDOMContentLoaded (d : Document) : Document :=
  let d := { d with parsingState := .kFinishedParsing }
  if d.frame then d.wait .finishDocumentLoad else d

/-! ## Steps -/

/-- The code that a call waited for has returned. -/
def resume (d : Document) : Wait → Document
  | .interactive => d
  | .domContentLoaded => d.afterDOMContentLoaded
  | .finishDocumentLoad => d.checkCompletedInternal
  | .documentIdle => d.afterDocumentIdle
  | .readyStateComplete => d.afterReadyState
  | .load => d.afterLoad
  | .onloadEvents => d.afterOnloadEvents
  | .finishLoad => d

/-- `CheckLoadEventSoon`. -/
def checkLoadEventSoon (d : Document) : Document :=
  if d.frame then { d with loadEventDelayTimer := true } else d

/-- One act; a count that is zero is not decremented. -/
def act (d : Document) : Act → Option Document
  | .incrementLoadEventDelayCount =>
    some { d with loadEventDelayCount := d.loadEventDelayCount + 1 }
  | .decrementLoadEventDelayCount =>
    if d.loadEventDelayCount = 0 then none
    else
      let d := { d with loadEventDelayCount := d.loadEventDelayCount - 1 }
      some (if d.loadEventDelayCount = 0 then d.checkLoadEventSoon else d)
  | .addResourceLoader => some { d with blockingRequestCount := d.blockingRequestCount + 1 }
  | .removeResourceLoader =>
    if d.blockingRequestCount = 0 then none
    else some { d with blockingRequestCount := d.blockingRequestCount - 1 }
  | .loadFailed => some { d with sentDidFinishLoad := true }
  | .detachFrame => some { d with frame := false }
  | .clearDOMWindow => some { d with domWindow := false }

/-- What can happen: with an empty stack in a task, else in the code that the innermost call waits
for. -/
inductive Label where
  | act (a : Act)
  /-- The parser sets the ready state to interactive. -/
  | interactive
  /-- Parsing ends. -/
  | finishedParsing
  /-- A completeness check, from `DidLoadResource` or from a handler. -/
  | checkCompleted
  /-- `LoadEventDelayTimerFired`, which is a task. -/
  | timerFired
  /-- The code that the innermost call waits for returns. -/
  | return
  deriving DecidableEq

def next (d : Document) : Label → Option Document
  | .act a => (d.act a).map fun d' => d'.record (.act a)
  | .interactive =>
    if d.parsingState = .kParsing ∧ d.readyState = .kLoading then
      some (({ d with readyState := .kInteractive }).wait .interactive)
    else none
  | .finishedParsing => if d.parsingState = .kParsing then some d.finishedParsing else none
  | .checkCompleted => some d.checkCompletedInternal
  | .timerFired =>
    if d.loadEventDelayTimer = true ∧ d.stack = [] then
      some ({ d with loadEventDelayTimer := false }).checkCompletedInternal
    else none
  | .return =>
    match d.stack with
    | [] => none
    | w :: below => some (({ d with stack := below }).resume w)

/-- A navigation behind `OpenForNavigation`. -/
def start : Document where
  parsingState := .kParsing
  readyState := .kLoading
  loadEventProgress := .kLoadEventNotRun
  loadEventDelayCount := 0
  loadEventDelayTimer := false
  blockingRequestCount := 0
  frame := true
  domWindow := true
  sentDidFinishLoad := false
  stack := []
  log := []

/-! ## The law -/

def isLoad (e : Nat × Entry) : Bool := e.2 == .load

def isDidFinishLoad (e : Nat × Entry) : Bool :=
  match e.2 with
  | .didFinishLoad _ _ => true
  | _ => false

/-- The conditions of completion. -/
def conditions : Entry := .passed .kFinishedParsing 0 0

/-- The check with `n` calls below it has just passed with the conditions of completion. -/
def Passed (n : Nat) (log : List (Nat × Entry)) : Prop :=
  ∃ before, log = (n, conditions) :: before

/-- The check with `n` calls below it has passed, has called its `readystatechange` handlers, and
since then only they have run: the entries behind have more calls below them. -/
def Handling (n : Nat) (log : List (Nat × Entry)) : Prop :=
  ∃ inner before, log = inner ++ (n, .readystatechange) :: (n, conditions) :: before ∧
    ∀ e ∈ inner, n < e.1

/-- The log of a check with `n` calls below it that may dispatch the load event. -/
def Justified (n : Nat) (log : List (Nat × Entry)) : Prop := Passed n log ∨ Handling n log

/-- **The completion of a document.** -/
structure Completes (d : Document) : Prop where
  /-- The load event is dispatched at most once. -/
  loadOnce : d.log.countP isLoad ≤ 1
  /-- It is dispatched in a check that had passed before it set the ready state. -/
  loadJustified : ∀ n rest, (n, .load) :: rest <:+ d.log → Justified n rest
  /-- The loader reports at most once. -/
  reportOnce : d.log.countP isDidFinishLoad ≤ 1
  /-- It does so when the load event is over. -/
  reportLate : ∀ n progress dispatching, (n, .didFinishLoad progress dispatching) ∈ d.log →
    progress = .kLoadEventCompleted ∧ dispatching = false

/-! ## The invariant -/

/-- Every check that waits for its `readystatechange` handlers is at the handlers. -/
def Opened (log : List (Nat × Entry)) : List Wait → Prop
  | [] => True
  | w :: below => (w = .readyStateComplete → Handling below.length log) ∧ Opened log below

structure Inv (d : Document) : Prop where
  closing : d.loadEventProgress = .kLoadEventInProgress ↔ ∃ w ∈ d.stack, w.Closing
  nested : d.stack.Pairwise fun above below => below.Closing → ¬ above.Closing ∧ ¬ above.Checking
  opened : Opened d.log d.stack
  loadJustified : ∀ n rest, (n, .load) :: rest <:+ d.log → Justified n rest
  loadNotRun : d.loadEventProgress = .kLoadEventNotRun → d.log.countP isLoad = 0
  loadOnce : d.log.countP isLoad ≤ 1
  reportNotSent : d.sentDidFinishLoad = false → d.log.countP isDidFinishLoad = 0
  reportOnce : d.log.countP isDidFinishLoad ≤ 1
  reportLate : ∀ n progress dispatching, (n, .didFinishLoad progress dispatching) ∈ d.log →
    progress = .kLoadEventCompleted ∧ dispatching = false

theorem Inv.completes {d : Document} (h : Inv d) : Completes d :=
  ⟨h.loadOnce, h.loadJustified, h.reportOnce, h.reportLate⟩

/-- The invariant is about the progress, the stack, the log and the loader only. -/
theorem Inv.congr {d d' : Document} (h : Inv d) (hp : d'.loadEventProgress = d.loadEventProgress)
    (hstack : d'.stack = d.stack) (hlog : d'.log = d.log)
    (hsent : d'.sentDidFinishLoad = d.sentDidFinishLoad) : Inv d' := by
  obtain ⟨h1, h2, h3, h4, h5, h6, h7, h8, h9⟩ := h
  constructor <;> simp only [hp, hstack, hlog, hsent] <;> assumption

/-- An entry with more calls below it does not concern a check. -/
theorem Handling.cons {n m : Nat} {log : List (Nat × Entry)} {e : Entry} (h : Handling n log)
    (hm : n < m) : Handling n ((m, e) :: log) := by
  obtain ⟨inner, before, rfl, hinner⟩ := h
  refine ⟨(m, e) :: inner, before, rfl, ?_⟩
  intro x hx
  rcases List.mem_cons.mp hx with rfl | hx
  · exact hm
  · exact hinner x hx

theorem Opened.cons {log : List (Nat × Entry)} {stack : List Wait} {m : Nat} {e : Entry}
    (h : Opened log stack) (hm : stack.length ≤ m) : Opened ((m, e) :: log) stack := by
  induction stack with
  | nil => trivial
  | cons w below ih =>
    have hlt : below.length < m := hm
    exact ⟨fun hw => (h.1 hw).cons hlt, ih h.2 (Nat.le_of_lt hlt)⟩

/-- An entry that is neither a load event nor a report. -/
theorem Inv.record {d : Document} (h : Inv d) {e : Entry} (hload : isLoad (0, e) = false)
    (hreport : isDidFinishLoad (0, e) = false) : Inv (d.record e) := by
  have hload' : isLoad (d.stack.length, e) = false := hload
  have hreport' : isDidFinishLoad (d.stack.length, e) = false := hreport
  have hloads : (d.record e).log.countP isLoad = d.log.countP isLoad := by
    show ((d.stack.length, e) :: d.log).countP isLoad = _
    rw [List.countP_cons_of_neg (by rw [hload']; exact Bool.false_ne_true)]
  have hreports : (d.record e).log.countP isDidFinishLoad = d.log.countP isDidFinishLoad := by
    show ((d.stack.length, e) :: d.log).countP isDidFinishLoad = _
    rw [List.countP_cons_of_neg (by rw [hreport']; exact Bool.false_ne_true)]
  refine ⟨h.closing, h.nested, h.opened.cons (Nat.le_refl _), ?_, ?_, ?_, ?_, ?_, ?_⟩
  · intro n rest hsuffix
    rcases List.suffix_cons_iff.mp hsuffix with heq | hsuffix
    · cases heq
      cases hload
    · exact h.loadJustified n rest hsuffix
  · intro hp
    rw [hloads]
    exact h.loadNotRun hp
  · rw [hloads]
    exact h.loadOnce
  · intro hsent
    rw [hreports]
    exact h.reportNotSent hsent
  · rw [hreports]
    exact h.reportOnce
  · intro n progress dispatching hmem
    rcases List.mem_cons.mp hmem with heq | hmem
    · cases heq
      cases hreport
    · exact h.reportLate n progress dispatching hmem

/-- A call waits for something outside `ImplicitClose`. -/
theorem Inv.wait {d : Document} (h : Inv d) {w : Wait} (hclosing : ¬ w.Closing)
    (hchecking : w.Checking → d.loadEventProgress ≠ .kLoadEventInProgress)
    (hhandling : w = .readyStateComplete → Handling d.stack.length d.log) : Inv (d.wait w) := by
  refine ⟨?_, ?_, ⟨hhandling, h.opened⟩, h.loadJustified, h.loadNotRun, h.loadOnce,
    h.reportNotSent, h.reportOnce, h.reportLate⟩
  · show d.loadEventProgress = _ ↔ ∃ v ∈ w :: d.stack, v.Closing
    rw [List.exists_mem_cons_iff, h.closing]
    exact ⟨.inr, fun hw => hw.resolve_left hclosing⟩
  · refine List.Pairwise.cons ?_ h.nested
    intro below hmem hbelow
    exact ⟨hclosing, fun hw => hchecking hw (h.closing.mpr ⟨below, hmem, hbelow⟩)⟩

/-- `ImplicitClose` waits for what it has called. -/
theorem Inv.waitClosing {d : Document} (h : Inv d) {w : Wait} (hclosing : w.Closing)
    (hprogress : d.loadEventProgress ≠ .kLoadEventInProgress)
    (hcount : d.log.countP isLoad ≤ 1) :
    Inv (({ d with loadEventProgress := .kLoadEventInProgress }).wait w) := by
  have hnone : ∀ v ∈ d.stack, ¬ v.Closing := fun v hv hc => hprogress (h.closing.mpr ⟨v, hv, hc⟩)
  refine ⟨?_, ?_, ⟨?_, h.opened⟩, h.loadJustified, ?_, hcount, h.reportNotSent, h.reportOnce,
    h.reportLate⟩
  · exact iff_of_true rfl ⟨w, List.mem_cons_self, hclosing⟩
  · refine List.Pairwise.cons ?_ h.nested
    intro below hmem hbelow
    exact absurd hbelow (hnone below hmem)
  · rintro rfl
    rcases hclosing with hw | hw <;> cases hw
  · intro hp
    cases hp

/-- The load event is over. -/
theorem Inv.completed {d : Document} (h : Inv d)
    (hprogress : d.loadEventProgress ≠ .kLoadEventInProgress) :
    Inv { d with loadEventProgress := .kLoadEventCompleted } := by
  refine ⟨?_, h.nested, h.opened, h.loadJustified, ?_, h.loadOnce, h.reportNotSent, h.reportOnce,
    h.reportLate⟩
  · refine iff_of_false (fun hp => by cases hp) ?_
    rintro ⟨w, hw, hc⟩
    exact hprogress (h.closing.mpr ⟨w, hw, hc⟩)
  · intro hp
    cases hp

/-- **The report.** -/
theorem Inv.afterClose {d : Document} (h : Inv d)
    (hprogress : d.loadEventProgress = .kLoadEventCompleted) : Inv d.afterClose := by
  unfold Document.afterClose
  split
  · exact h
  · rename_i hcond
    have hsent : d.sentDidFinishLoad = false := by
      cases hs : d.sentDidFinishLoad with
      | false => rfl
      | true => exact absurd (.inr hs) hcond
    have hnot : Wait.load ∉ d.stack := by
      intro hmem
      have hp := h.closing.mpr ⟨.load, hmem, .inl rfl⟩
      rw [hprogress] at hp
      cases hp
    have hcount := h.reportNotSent hsent
    have hinv : Inv (Document.record { d with sentDidFinishLoad := true }
        (.didFinishLoad d.loadEventProgress (decide (Wait.load ∈ d.stack)))) := by
      refine ⟨h.closing, h.nested, h.opened.cons (Nat.le_refl _), ?_, ?_, ?_, ?_, ?_, ?_⟩
      · intro n rest hsuffix
        rcases List.suffix_cons_iff.mp hsuffix with heq | hsuffix
        · cases heq
        · exact h.loadJustified n rest hsuffix
      · exact h.loadNotRun
      · exact h.loadOnce
      · intro hs
        cases hs
      · show ((_, _) :: d.log).countP isDidFinishLoad ≤ 1
        rw [List.countP_cons_of_pos rfl, hcount]
      · intro n progress dispatching hmem
        rcases List.mem_cons.mp hmem with heq | hmem
        · cases heq
          exact ⟨hprogress, decide_eq_false hnot⟩
        · exact h.reportLate n progress dispatching hmem
    refine hinv.wait ?_ ?_ ?_
    · rintro (hw | hw) <;> cases hw
    · rintro (hw | hw) <;> cases hw
    · intro hw
      cases hw

/-- **The load event.** -/
theorem Inv.recordLoad {d : Document} (h : Inv d) (hcount : d.log.countP isLoad = 0)
    (hprogress : d.loadEventProgress = .kLoadEventCompleted)
    (hjustified : Justified d.stack.length d.log) : Inv (d.record .load) := by
  have hload : (d.record .load).log.countP isLoad = 1 := by
    show ((_, _) :: d.log).countP isLoad = 1
    rw [List.countP_cons_of_pos rfl, hcount]
  refine ⟨h.closing, h.nested, h.opened.cons (Nat.le_refl _), ?_, ?_, ?_, h.reportNotSent,
    h.reportOnce, ?_⟩
  · intro n rest hsuffix
    rcases List.suffix_cons_iff.mp hsuffix with heq | hsuffix
    · cases heq
      exact hjustified
    · exact h.loadJustified n rest hsuffix
  · intro hp
    exact absurd (hprogress.symm.trans hp) (by decide)
  · rw [hload]
  · intro n progress dispatching hmem
    rcases List.mem_cons.mp hmem with heq | hmem
    · cases heq
    · exact h.reportLate n progress dispatching hmem

theorem Inv.implicitClose {d : Document} (h : Inv d)
    (hprogress : d.loadEventProgress = .kLoadEventNotRun)
    (hjustified : Justified d.stack.length d.log) : Inv d.implicitClose := by
  have hnot : d.loadEventProgress ≠ .kLoadEventInProgress := by
    rw [hprogress]
    decide
  have hcount := h.loadNotRun hprogress
  unfold Document.implicitClose
  simp only
  split
  · have hrecorded := (h.completed hnot).recordLoad hcount rfl hjustified
    exact hrecorded.waitClosing (w := .load) (.inl rfl)
      (show LoadEventProgress.kLoadEventCompleted ≠ .kLoadEventInProgress by decide)
      hrecorded.loadOnce
  · unfold Document.afterLoad
    split
    · exact h.waitClosing (.inr rfl) hnot h.loadOnce
    · exact (h.completed hnot).afterClose rfl

/-- A progress that is neither of the first two is the last. -/
theorem completed_of_ne {p : LoadEventProgress} (h1 : p ≠ .kLoadEventNotRun)
    (h2 : p ≠ .kLoadEventInProgress) : p = .kLoadEventCompleted := by
  cases p with
  | kLoadEventNotRun => exact absurd rfl h1
  | kLoadEventInProgress => exact absurd rfl h2
  | kLoadEventCompleted => rfl

theorem Inv.afterReadyState {d : Document} (h : Inv d)
    (hprogress : d.loadEventProgress ≠ .kLoadEventInProgress)
    (hjustified : Justified d.stack.length d.log) : Inv d.afterReadyState := by
  unfold Document.afterReadyState
  split
  · rename_i hrun
    exact h.implicitClose hrun hjustified
  · rename_i hrun
    exact h.afterClose (completed_of_ne hrun hprogress)

theorem shouldComplete_iff {d : Document} : d.shouldComplete = true ↔
    d.parsingState = .kFinishedParsing ∧ d.blockingRequestCount = 0 ∧
      d.loadEventDelayCount = 0 ∧ d.loadEventProgress ≠ .kLoadEventInProgress := by
  unfold shouldComplete
  simp [and_assoc]

/-- **A check that passes.** -/
theorem Inv.complete {d : Document} (h : Inv d) (hshould : d.shouldComplete = true) :
    Inv d.complete := by
  obtain ⟨hparsing, hrequests, hdelay, hprogress⟩ := shouldComplete_iff.mp hshould
  unfold Document.complete
  rw [hparsing, hrequests, hdelay]
  have hpassed : Inv (d.record conditions) := h.record rfl rfl
  simp only
  split
  · exact hpassed.afterReadyState hprogress (.inl ⟨d.log, rfl⟩)
  · have hcomplete : Inv { d.record conditions with readyState := .kComplete } :=
      hpassed.congr rfl rfl rfl rfl
    have hready := hcomplete.record (e := .readystatechange) rfl rfl
    refine hready.wait ?_ ?_ ?_
    · rintro (hw | hw) <;> cases hw
    · intro _
      exact hprogress
    · intro _
      exact ⟨[], d.log, rfl, fun e he => by cases he⟩

theorem Inv.checkCompletedInternal {d : Document} (h : Inv d) : Inv d.checkCompletedInternal := by
  unfold Document.checkCompletedInternal
  split
  · rename_i hshould
    split
    · refine h.wait ?_ ?_ ?_
      · rintro (hw | hw) <;> cases hw
      · intro _
        exact (shouldComplete_iff.mp hshould).2.2.2
      · intro hw
        cases hw
    · exact h.complete hshould
  · exact h

theorem Inv.afterDOMContentLoaded {d : Document} (h : Inv d) : Inv d.afterDOMContentLoaded := by
  unfold Document.afterDOMContentLoaded
  have hparsed : Inv { d with parsingState := .kFinishedParsing } := h.congr rfl rfl rfl rfl
  simp only
  split
  · refine hparsed.wait ?_ ?_ ?_
    · rintro (hw | hw) <;> cases hw
    · rintro (hw | hw) <;> cases hw
    · intro hw
      cases hw
  · exact hparsed

/-! ## Steps keep the invariant -/

/-- The innermost call goes on, outside `ImplicitClose`. -/
theorem Inv.pop {d : Document} (h : Inv d) {w : Wait} {below : List Wait}
    (hstack : d.stack = w :: below) (hclosing : ¬ w.Closing) : Inv { d with stack := below } := by
  obtain ⟨h1, h2, h3, h4, h5, h6, h7, h8, h9⟩ := h
  rw [hstack] at h1 h2 h3
  refine ⟨?_, (List.pairwise_cons.mp h2).2, h3.2, h4, h5, h6, h7, h8, h9⟩
  rw [List.exists_mem_cons_iff] at h1
  exact h1.trans ⟨fun hw => hw.resolve_left hclosing, .inr⟩

/-- `ImplicitClose` goes on: without it no call is inside `ImplicitClose`. -/
theorem Inv.popClosing {d : Document} (h : Inv d) {w : Wait} {below : List Wait}
    (hstack : d.stack = w :: below) (hclosing : w.Closing) :
    Inv { d with stack := below, loadEventProgress := .kLoadEventCompleted } := by
  obtain ⟨h1, h2, h3, h4, h5, h6, h7, h8, h9⟩ := h
  rw [hstack] at h2 h3
  have hpairwise := List.pairwise_cons.mp h2
  refine ⟨?_, hpairwise.2, h3.2, h4, ?_, h6, h7, h8, h9⟩
  · refine iff_of_false (fun hp => by cases hp) ?_
    rintro ⟨v, hv, hc⟩
    exact (hpairwise.1 v hv hc).1 hclosing
  · intro hp
    cases hp

/-- A check on the stack is not inside an `ImplicitClose`. -/
theorem Inv.not_inProgress {d : Document} (h : Inv d) {w : Wait} {below : List Wait}
    (hstack : d.stack = w :: below) (hchecking : w.Checking) :
    d.loadEventProgress ≠ .kLoadEventInProgress := by
  intro hp
  obtain ⟨v, hv, hc⟩ := h.closing.mp hp
  have hnested := h.nested
  rw [hstack] at hv hnested
  rcases List.mem_cons.mp hv with rfl | hv
  · rcases hc with rfl | rfl <;> rcases hchecking with hw | hw <;> cases hw
  · exact ((List.pairwise_cons.mp hnested).1 v hv hc).2 hchecking

/-- **The code that the innermost call waited for has returned.** -/
theorem Inv.resume {d : Document} (h : Inv d) {w : Wait} {below : List Wait}
    (hstack : d.stack = w :: below) : Inv (({ d with stack := below }).resume w) := by
  cases w with
  | interactive => exact h.pop hstack (by rintro (hw | hw) <;> cases hw)
  | domContentLoaded =>
    exact (h.pop hstack (by rintro (hw | hw) <;> cases hw)).afterDOMContentLoaded
  | finishDocumentLoad =>
    exact (h.pop hstack (by rintro (hw | hw) <;> cases hw)).checkCompletedInternal
  | documentIdle =>
    have hpop := h.pop hstack (by rintro (hw | hw) <;> cases hw)
    show Inv (Document.afterDocumentIdle _)
    unfold Document.afterDocumentIdle
    split
    · rename_i hcond
      exact hpop.complete hcond.2
    · exact hpop
  | readyStateComplete =>
    have hopened := h.opened
    rw [hstack] at hopened
    exact (h.pop hstack (by rintro (hw | hw) <;> cases hw)).afterReadyState
      (h.not_inProgress hstack (.inr rfl)) (.inr (hopened.1 rfl))
  | load =>
    have hpop := h.popClosing hstack (.inl rfl)
    have hprogress : d.loadEventProgress = .kLoadEventInProgress :=
      h.closing.mpr ⟨.load, by rw [hstack]; exact List.mem_cons_self, .inl rfl⟩
    show Inv (Document.afterLoad _)
    unfold Document.afterLoad
    split
    · have hwait := hpop.waitClosing (w := .onloadEvents) (.inr rfl)
        (show LoadEventProgress.kLoadEventCompleted ≠ .kLoadEventInProgress by decide) hpop.loadOnce
      exact hwait.congr hprogress rfl rfl rfl
    · exact hpop.afterClose rfl
  | onloadEvents => exact (h.popClosing hstack (.inr rfl)).afterClose rfl
  | finishLoad => exact h.pop hstack (by rintro (hw | hw) <;> cases hw)

/-- What an act leaves as it is; the report of a failed load is not one of `DidFinishLoad`. -/
theorem Inv.act {d d' : Document} (h : Inv d) {a : Act} (hact : d.act a = some d') : Inv d' := by
  cases a with
  | incrementLoadEventDelayCount =>
    cases hact
    exact h.congr rfl rfl rfl rfl
  | decrementLoadEventDelayCount =>
    simp only [Document.act, Option.ite_none_left_eq_some, Option.some.injEq] at hact
    obtain ⟨-, rfl⟩ := hact
    unfold checkLoadEventSoon
    split
    · split <;> exact h.congr rfl rfl rfl rfl
    · exact h.congr rfl rfl rfl rfl
  | addResourceLoader =>
    cases hact
    exact h.congr rfl rfl rfl rfl
  | removeResourceLoader =>
    simp only [Document.act, Option.ite_none_left_eq_some, Option.some.injEq] at hact
    obtain ⟨-, rfl⟩ := hact
    exact h.congr rfl rfl rfl rfl
  | loadFailed =>
    cases hact
    refine ⟨h.closing, h.nested, h.opened, h.loadJustified, h.loadNotRun, h.loadOnce, ?_,
      h.reportOnce, h.reportLate⟩
    intro hs
    cases hs
  | detachFrame =>
    cases hact
    exact h.congr rfl rfl rfl rfl
  | clearDOMWindow =>
    cases hact
    exact h.congr rfl rfl rfl rfl

/-- **Every step keeps the invariant.** -/
theorem Inv.next {d d' : Document} (h : Inv d) {l : Label} (hnext : d.next l = some d') :
    Inv d' := by
  cases l with
  | act a =>
    obtain ⟨d₁, hact, rfl⟩ := Option.map_eq_some_iff.mp hnext
    exact (h.act hact).record rfl rfl
  | interactive =>
    simp only [Document.next, Option.ite_none_right_eq_some, Option.some.injEq] at hnext
    obtain ⟨-, rfl⟩ := hnext
    have hready : Inv { d with readyState := .kInteractive } := h.congr rfl rfl rfl rfl
    refine hready.wait ?_ ?_ ?_
    · rintro (hw | hw) <;> cases hw
    · rintro (hw | hw) <;> cases hw
    · intro hw
      cases hw
  | finishedParsing =>
    simp only [Document.next, Option.ite_none_right_eq_some, Option.some.injEq] at hnext
    obtain ⟨-, rfl⟩ := hnext
    have hparsing : Inv { d with parsingState := .kInDOMContentLoaded } :=
      h.congr rfl rfl rfl rfl
    refine hparsing.wait ?_ ?_ ?_
    · rintro (hw | hw) <;> cases hw
    · rintro (hw | hw) <;> cases hw
    · intro hw
      cases hw
  | checkCompleted =>
    cases hnext
    exact h.checkCompletedInternal
  | timerFired =>
    simp only [Document.next, Option.ite_none_right_eq_some, Option.some.injEq] at hnext
    obtain ⟨-, rfl⟩ := hnext
    have hfired : Inv { d with loadEventDelayTimer := false } := h.congr rfl rfl rfl rfl
    exact hfired.checkCompletedInternal
  | «return» =>
    simp only [Document.next] at hnext
    split at hnext
    · cases hnext
    · rename_i w below hstack
      cases hnext
      exact h.resume hstack

theorem inv_start : Inv start := by
  refine ⟨?_, .nil, trivial, ?_, fun _ => rfl, Nat.zero_le _, fun _ => rfl, Nat.zero_le _, ?_⟩
  · refine iff_of_false (fun hp => by cases hp) ?_
    rintro ⟨w, hw, -⟩
    cases hw
  · intro n rest hsuffix
    cases List.suffix_nil.mp hsuffix
  · intro n progress dispatching hmem
    cases hmem

/-- **The completion protocol.** In every state of every run of a navigation, whatever handlers
and tasks do and however checks are nested, the load event has been dispatched at most once, in a
check that had found parsing finished, no blocking request and no delay before it set the ready
state and has run only its `readystatechange` handlers since; and the loader has reported at most
once, with the load event over. -/
theorem document_completes (labels : List Label) :
    Always (machine next) Completes True start labels :=
  always_machine (I := Inv) (G := fun _ _ => True) (fun _ h => h.completes)
    (fun _ _ _ h _ hnext => h.next hnext) inv_start (allowed_of_forall fun _ _ _ => trivial)

/-- A check is made again by a `readystatechange` handler: it dispatches the load event and makes
the report, and the outer check finds nothing left to do. -/
example : ((run (machine next) start [.finishedParsing, .return, .return, .return, .checkCompleted,
    .return, .checkCompleted, .return, .return, .return, .return]).toOption.map fun r =>
      (r.1.log.countP isLoad, r.1.log.countP isDidFinishLoad, r.1.stack)) = some (1, 1, []) := by
  decide

end Document

end Blinkit.Loader
