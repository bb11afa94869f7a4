import Blinkit.Events.EventTarget
import Blinkit.Events.EventPath

/-!
# Dispatching an event

Translation of `event_dispatcher.cpp`, `node_event_context.cc` and `window_event_context.cc`.

What the listeners of a target do is not fixed: `Scripts` is any state with any effect of
`FireEventListeners` on it, on the tree, and on what a handler can write in the event. Which
listeners of one target a firing invokes is the subject of the modules before.

* `DispatchedEvent` — an event on its way.
* `Scripts` — the world around the dispatcher.
* `Invocation` — a listener that was invoked, with its target and its phase.
* `dispatchEvent` — `EventDispatcher::DispatchEvent`.
* `schedule` — the order in which the targets have to be visited.
* `DispatchedInOrder` — the dispatch is the tour of the schedule that is over when a handler has
  stopped the propagation.

Principal result: `dispatch_order_iff`. Every dispatch to a node is in order, whatever the listeners
do, exactly when no ancestor of the node belongs to another document.
-/

set_option autoImplicit false

namespace Blinkit.Events

open LinkedForest Dom Tour

/-! ## Events on their way -/

structure DispatchedEvent extends Event where
  bubbles : Bool
  propagationStopped : Bool
  target : Option EventTarget
  currentTarget : Option EventTarget

/-- What a handler, or the loop that calls it, can write in the event. -/
structure Marks where
  propagationStopped : Bool
  immediatePropagationStopped : Bool
  defaultPrevented : Bool
  executedListenerOrDefaultAction : Bool
  handlingPassive : PassiveMode

namespace DispatchedEvent

/-- `Event::Create` and `Event::CreateBubble`. -/
def create (type : AtomicString) (bubbles : Bool) : DispatchedEvent :=
  { (default : Event) with
    type := type
    bubbles := bubbles
    propagationStopped := false
    target := none
    currentTarget := none }

/-- `Event::PropagationStopped`, and `cancelBubble`. -/
def stopped (e : DispatchedEvent) : Bool := e.propagationStopped || e.immediatePropagationStopped

/-- The marks of the event as it is. -/
def marks (e : DispatchedEvent) : Marks :=
  ⟨e.propagationStopped, e.immediatePropagationStopped, e.defaultPrevented,
    e.executedListenerOrDefaultAction, e.handlingPassive⟩

def write (e : DispatchedEvent) (m : Marks) : DispatchedEvent :=
  { e with
    propagationStopped := m.propagationStopped
    immediatePropagationStopped := m.immediatePropagationStopped
    defaultPrevented := m.defaultPrevented
    executedListenerOrDefaultAction := m.executedListenerOrDefaultAction
    handlingPassive := m.handlingPassive }

end DispatchedEvent

/-- What a call of `FireEventListeners` leaves behind. -/
structure Fired (σ : Type) where
  world : σ
  /-- The listeners it has invoked, in order. -/
  listeners : List RegisteredEventListener
  marks : Marks

/-- A world of trees and scripts. -/
structure Scripts (σ : Type) where
  heap : σ → Heap
  /-- `Document::m_domWindow`. -/
  domWindow : σ → NodeId → Option WindowId
  fireEventListeners : σ → EventTarget → DispatchedEvent → Fired σ

structure Invocation where
  currentTarget : EventTarget
  phase : Phase
  listener : RegisteredEventListener
  deriving DecidableEq

/-- The world, the event, and the listeners that have been invoked for it. -/
structure Dispatch (σ : Type) where
  world : σ
  event : DispatchedEvent
  invocations : List Invocation

variable {σ : Type}

namespace Dispatch

/-- `Event::SetEventPhase`. -/
def setEventPhase (s : Dispatch σ) (phase : Phase) : Dispatch σ :=
  { s with event := { s.event with eventPhase := phase } }

/-- `SetTarget` and `SetCurrentTarget`, then `FireEventListeners` of the current target. -/
def fire (x : Scripts σ) (s : Dispatch σ) (target currentTarget : EventTarget) : Dispatch σ :=
  let event :=
    { s.event with target := some target, currentTarget := some currentTarget }
  let fired := x.fireEventListeners s.world currentTarget event
  { world := fired.world
    event := event.write fired.marks
    invocations := s.invocations ++
      fired.listeners.map fun r => ⟨currentTarget, event.eventPhase, r⟩ }

def stopped (s : Dispatch σ) : Bool := s.event.stopped

end Dispatch

/-- `NodeEventContext::HandleLocalEvents`. There is no related target. -/
def NodeEventContext.handleLocalEvents (x : Scripts σ) (c : NodeEventContext) (s : Dispatch σ) :
    Dispatch σ :=
  s.fire x (.node c.target) (.node c.currentTarget)

/-- `WindowEventContext::HandleLocalEvents`, and whether there is a window. -/
def WindowEventContext.handleLocalEvents (x : Scripts σ) (c : WindowEventContext)
    (s : Dispatch σ) : Bool × Dispatch σ :=
  match c.window, c.target with
  | some w, some target => (true, s.fire x (.node target) (.window w))
  | _, _ => (false, s)

/-! ## The dispatcher -/

/-- `EventDispatchContinuation`. -/
inductive EventDispatchContinuation where
  | continueDispatching
  | doneDispatching
  deriving DecidableEq, Repr

/-- `m_event->PropagationStopped() ? kDoneDispatching : kContinueDispatching`. -/
def Dispatch.continuation (s : Dispatch σ) : EventDispatchContinuation :=
  if s.stopped then .doneDispatching else .continueDispatching

/-- The loop of `DispatchEventAtCapturing`; the contexts come from the top down. A node that is its
own target has nothing but an assertion. -/
def capturingLoop (x : Scripts σ) :
    List NodeEventContext → Dispatch σ → EventDispatchContinuation × Dispatch σ
  | [], s => (.continueDispatching, s)
  | c :: cs, s =>
    let s :=
      if c.currentTargetSameAsTarget then s
      else c.handleLocalEvents x (s.setEventPhase .capturingPhase)
    if s.stopped then (.doneDispatching, s) else capturingLoop x cs s

/-- `EventDispatcher::DispatchEventAtCapturing`. -/
def dispatchEventAtCapturing (x : Scripts σ) (window : WindowEventContext)
    (above : List NodeEventContext) (s : Dispatch σ) :
    EventDispatchContinuation × Dispatch σ :=
  let s := s.setEventPhase .capturingPhase
  let (handled, s) := window.handleLocalEvents x s
  if handled && s.stopped then (.doneDispatching, s)
  else capturingLoop x above.reverse s

/-- `EventDispatcher::DispatchEventAtTarget`. -/
def dispatchEventAtTarget (x : Scripts σ) (target : NodeEventContext) (s : Dispatch σ) :
    EventDispatchContinuation × Dispatch σ :=
  let s := target.handleLocalEvents x (s.setEventPhase .atTarget)
  (s.continuation, s)

/-- The loop of `DispatchEventAtBubbling`; `doneDispatching` is its `return`. -/
def bubblingLoop (x : Scripts σ) :
    List NodeEventContext → Dispatch σ → EventDispatchContinuation × Dispatch σ
  | [], s => (.continueDispatching, s)
  | c :: cs, s =>
    if c.currentTargetSameAsTarget then
      let s := s.setEventPhase .atTarget
      if s.stopped then (.doneDispatching, s) else bubblingLoop x cs s
    else if s.event.bubbles && !s.stopped then
      let s := c.handleLocalEvents x (s.setEventPhase .bubblingPhase)
      if s.stopped then (.doneDispatching, s) else bubblingLoop x cs s
    else bubblingLoop x cs s

/-- `EventDispatcher::DispatchEventAtBubbling`. -/
def dispatchEventAtBubbling (x : Scripts σ) (window : WindowEventContext)
    (above : List NodeEventContext) (s : Dispatch σ) : Dispatch σ :=
  match bubblingLoop x above s with
  | (.doneDispatching, s) => s
  | (.continueDispatching, s) =>
    if s.event.bubbles && !s.stopped then
      (window.handleLocalEvents x (s.setEventPhase .bubblingPhase)).2
    else s

/-- `EventDispatcher::DispatchEventPreProcess`. -/
def dispatchEventPreProcess (s : Dispatch σ) : EventDispatchContinuation := s.continuation

/-- `EventDispatcher::DispatchEventPostProcess`. The default event handlers do nothing here. -/
def dispatchEventPostProcess (node : NodeId) (s : Dispatch σ) : Dispatch σ :=
  { s with
    event :=
      { s.event with
        target := some (.node (EventPath.eventTargetRespectingTargetRules node))
        propagationStopped := false
        immediatePropagationStopped := false
        eventPhase := .none
        currentTarget := none } }

/-- The stages of `EventDispatcher::Dispatch`. -/
def dispatchStages (x : Scripts σ) (window : WindowEventContext) (target : NodeEventContext)
    (above : List NodeEventContext) (s : Dispatch σ) : Dispatch σ :=
  match dispatchEventPreProcess s with
  | .doneDispatching => s
  | .continueDispatching =>
    match dispatchEventAtCapturing x window above s with
    | (.doneDispatching, s) => s
    | (.continueDispatching, s) =>
      match dispatchEventAtTarget x target s with
      | (.doneDispatching, s) => s
      | (.continueDispatching, s) => dispatchEventAtBubbling x window above s

/-- `EventDispatcher::DispatchEvent`. An event is made for one dispatch, so it comes without a
path. -/
def dispatchEvent (x : Scripts σ) (w : σ) (node : NodeId) (event : DispatchedEvent) :
    Option (Dispatch σ × DispatchEventResult) :=
  match EventPath.create (x.heap w) node with
  | none => none
  | some [] => some (⟨w, event, []⟩, .notCanceled)
  | some (target :: above) =>
    let window := EventPath.windowEventContext (x.heap w) (x.domWindow w) event.type
      ((target :: above).getLast (List.cons_ne_nil target above))
    let event :=
      { event with target := some (.node (EventPath.eventTargetRespectingTargetRules node)) }
    let s := dispatchEventPostProcess node (dispatchStages x window target above ⟨w, event, []⟩)
    some (s, Target.getDispatchEventResult s.event.toEvent)

/-! ## The order of the targets -/

/-- A target, in the phase in which it is visited. -/
structure Turn where
  currentTarget : EventTarget
  phase : Phase
  deriving DecidableEq, Repr

/-- The window takes part when the root of the tree is a document with a window and the event is
not `load`. -/
def takingPart (h : Heap) (domWindow : NodeId → Option WindowId) (type : AtomicString)
    (root : NodeId) : Option WindowId :=
  if type ≠ "load" ∧ h.isDocumentNode root = true then domWindow root else none

/-- From the window down to the parent, the target, and, for an event that bubbles, up again. -/
def schedule (n : NodeId) (above : List NodeId) (window : Option WindowId) (bubbles : Bool) :
    List Turn :=
  (window.toList.map fun w => ⟨.window w, .capturingPhase⟩) ++
  (above.reverse.map fun a => ⟨.node a, .capturingPhase⟩) ++
  [⟨.node n, .atTarget⟩] ++
  if bubbles then
    (above.map fun a => ⟨.node a, .bubblingPhase⟩) ++
    (window.toList.map fun w => ⟨.window w, .bubblingPhase⟩)
  else []

/-- One turn of a dispatch to `n`. -/
def visit (x : Scripts σ) (n : NodeId) (s : Dispatch σ) (t : Turn) : Dispatch σ :=
  (s.setEventPhase t.phase).fire x (.node n) t.currentTarget

/-- The event, with its target set, in front of the first turn. -/
def departure (w : σ) (n : NodeId) (event : DispatchedEvent) : Dispatch σ :=
  ⟨w, { event with target := some (.node n) }, []⟩

/-- **The dispatch of an event visits its schedule in order.** The schedule is that of the tree in
which the dispatch starts. It is left early only behind a visit that has stopped the propagation. -/
def DispatchedInOrder (x : Scripts σ) (w : σ) (n : NodeId) (event : DispatchedEvent) : Prop :=
  ∃ above visited s result,
    Lineage (x.heap w).links.parent n above ∧
    Toured (visit x n) Dispatch.stopped (departure w n event)
      (schedule n above (takingPart (x.heap w) (x.domWindow w) event.type
        ((n :: above).getLast (List.cons_ne_nil n above))) event.bubbles) visited s ∧
    dispatchEvent x w n event = some (dispatchEventPostProcess n s, result)

/-! ## One stage after the other -/

namespace Dispatch

@[simp] theorem setEventPhase_setEventPhase (s : Dispatch σ) (p q : Phase) :
    (s.setEventPhase p).setEventPhase q = s.setEventPhase q := rfl

@[simp] theorem stopped_setEventPhase (s : Dispatch σ) (p : Phase) :
    (s.setEventPhase p).stopped = s.stopped := rfl

@[simp] theorem bubbles_setEventPhase (s : Dispatch σ) (p : Phase) :
    (s.setEventPhase p).event.bubbles = s.event.bubbles := rfl

@[simp] theorem bubbles_fire (x : Scripts σ) (s : Dispatch σ) (a b : EventTarget) :
    (s.fire x a b).event.bubbles = s.event.bubbles := rfl

theorem continuation_of_stopped {s : Dispatch σ} (h : s.stopped = true) :
    s.continuation = .doneDispatching := if_pos h

theorem continuation_of_not_stopped {s : Dispatch σ} (h : s.stopped = false) :
    s.continuation = .continueDispatching := by
  unfold continuation
  rw [h]
  rfl

end Dispatch

@[simp] theorem dispatchEventPostProcess_setEventPhase (n : NodeId) (s : Dispatch σ) (p : Phase) :
    dispatchEventPostProcess n (s.setEventPhase p) = dispatchEventPostProcess n s := rfl

section Stages

variable {x : Scripts σ} {n : NodeId} {s : Dispatch σ}

@[simp] theorem visit_setEventPhase (s : Dispatch σ) (p : Phase) (t : Turn) :
    visit x n (s.setEventPhase p) t = visit x n s t := rfl

/-- The phase in which a tour starts is forgotten with the first visit. -/
theorem tour_setEventPhase (s : Dispatch σ) (p : Phase) {ts : List Turn} (hne : ts ≠ [])
    (hs : s.stopped = false) :
    tour (visit x n) Dispatch.stopped (s.setEventPhase p) ts =
      tour (visit x n) Dispatch.stopped s ts := by
  cases ts with
  | nil => exact absurd rfl hne
  | cons t ts =>
    have hs' : (s.setEventPhase p).stopped = false := hs
    rw [tour_cons hs, tour_cons hs', visit_setEventPhase]

/-- Contexts of nodes other than the target, all with the target `n`. -/
def Plain (n : NodeId) (c : NodeEventContext) : Prop :=
  c.currentTarget = c.node ∧ c.target = n ∧ c.currentTargetSameAsTarget = false

theorem Plain.handleLocalEvents {c : NodeEventContext} (h : Plain n c) (s : Dispatch σ)
    (p : Phase) :
    c.handleLocalEvents x (s.setEventPhase p) = visit x n s ⟨.node c.node, p⟩ := by
  unfold NodeEventContext.handleLocalEvents
  rw [h.1, h.2.1]
  rfl

/-- The capturing loop is a tour from the top down. -/
theorem capturingLoop_eq {cs : List NodeEventContext} (hcs : ∀ c ∈ cs, Plain n c)
    (hs : s.stopped = false) :
    capturingLoop x cs s =
      let t := tour (visit x n) Dispatch.stopped s
        (cs.map fun c => ⟨.node c.node, .capturingPhase⟩)
      (t.continuation, t) := by
  induction cs generalizing s with
  | nil => exact congrArg (·, s) (Dispatch.continuation_of_not_stopped hs).symm
  | cons c cs ih =>
    have hc := hcs c List.mem_cons_self
    unfold capturingLoop
    rw [hc.2.2, hc.handleLocalEvents, List.map_cons, tour_cons hs]
    show (if (visit x n s _).stopped = true then _ else _) = _
    split
    · rename_i hstop
      rw [tour_of_ended hstop]
      exact congrArg (·, visit x n s _) (Dispatch.continuation_of_stopped hstop).symm
    · rename_i hstop
      exact ih (fun d hd => hcs d (List.mem_cons_of_mem c hd)) (Bool.eq_false_iff.mpr hstop)

/-- The bubbling loop is a tour from the bottom up, or does nothing. -/
theorem bubblingLoop_eq {cs : List NodeEventContext} (hcs : ∀ c ∈ cs, Plain n c)
    (hs : s.stopped = false) :
    bubblingLoop x cs s =
      let t := tour (visit x n) Dispatch.stopped s
        (if s.event.bubbles then cs.map fun c => ⟨.node c.node, .bubblingPhase⟩ else [])
      (t.continuation, t) := by
  induction cs generalizing s with
  | nil =>
    rw [List.map_nil, ite_self]
    exact congrArg (·, s) (Dispatch.continuation_of_not_stopped hs).symm
  | cons c cs ih =>
    have hc := hcs c List.mem_cons_self
    have hrest : ∀ d ∈ cs, Plain n d := fun d hd => hcs d (List.mem_cons_of_mem c hd)
    unfold bubblingLoop
    rw [hc.2.2, hc.handleLocalEvents, hs]
    cases hb : s.event.bubbles with
    | false =>
      have h := ih hrest hs
      rw [hb] at h
      exact h
    | true =>
      have h := ih hrest (s := visit x n s ⟨.node c.node, .bubblingPhase⟩)
      have hb' : (visit x n s ⟨.node c.node, .bubblingPhase⟩).event.bubbles = true := hb
      rw [hb'] at h
      simp only [if_true] at h ⊢
      rw [List.map_cons, tour_cons hs]
      show (if (visit x n s _).stopped = true then _ else _) = _
      split
      · rename_i hstop
        rw [tour_of_ended hstop]
        exact congrArg (·, visit x n s _) (Dispatch.continuation_of_stopped hstop).symm
      · rename_i hstop
        exact h (Bool.eq_false_iff.mpr hstop)

/-- What a visit leaves of the event. -/
theorem bubbles_tour (s : Dispatch σ) (ts : List Turn) :
    (tour (visit x n) Dispatch.stopped s ts).event.bubbles = s.event.bubbles := by
  induction ts generalizing s with
  | nil => rfl
  | cons t ts ih =>
    unfold tour
    split
    · rfl
    · rw [ih]
      rfl

/-- The window, when it takes part, has a turn. -/
theorem windowHandleLocalEvents_eq {c : WindowEventContext}
    (hc : c.window = none ∨ c.target = some n) (s : Dispatch σ) (p : Phase) :
    c.handleLocalEvents x (s.setEventPhase p) =
      match c.window with
      | none => (false, s.setEventPhase p)
      | some w => (true, visit x n s ⟨.window w, p⟩) := by
  unfold WindowEventContext.handleLocalEvents
  cases hw : c.window with
  | none => rfl
  | some w =>
    rcases hc with hc | hc
    · rw [hw] at hc
      cases hc
    · rw [hc]
      rfl

/-- **The capturing stage is a tour** of the window and of the ancestors from the root down. -/
theorem dispatchEventAtCapturing_eq {c : WindowEventContext} {above : List NodeEventContext}
    (hc : c.window = none ∨ c.target = some n) (habove : ∀ a ∈ above, Plain n a)
    (hs : s.stopped = false) :
    dispatchEventAtCapturing x c above s =
      let t := tour (visit x n) Dispatch.stopped (s.setEventPhase .capturingPhase)
        ((c.window.toList.map fun w => ⟨.window w, .capturingPhase⟩) ++
          above.reverse.map fun a => ⟨.node a.node, .capturingPhase⟩)
      (t.continuation, t) := by
  have hreverse : ∀ a ∈ above.reverse, Plain n a := fun a ha => habove a (List.mem_reverse.mp ha)
  have hs' : (s.setEventPhase .capturingPhase).stopped = false := hs
  unfold dispatchEventAtCapturing
  dsimp only
  rw [windowHandleLocalEvents_eq hc]
  cases c.window with
  | none => exact capturingLoop_eq hreverse hs'
  | some w =>
    show (if (true && (visit x n s ⟨.window w, .capturingPhase⟩).stopped) = true then _ else _) = _
    rw [Option.toList_some, List.map_singleton, List.singleton_append, tour_cons hs',
      visit_setEventPhase]
    split
    · rename_i hstop
      rw [Bool.true_and] at hstop
      rw [tour_of_ended hstop]
      exact congrArg (·, visit x n s _) (Dispatch.continuation_of_stopped hstop).symm
    · rename_i hstop
      rw [Bool.true_and] at hstop
      exact capturingLoop_eq hreverse (Bool.eq_false_iff.mpr hstop)

/-- **The bubbling stage is a tour** of the ancestors from the parent up and of the window. -/
theorem dispatchEventAtBubbling_eq {c : WindowEventContext} {above : List NodeEventContext}
    (hc : c.window = none ∨ c.target = some n) (habove : ∀ a ∈ above, Plain n a)
    (hs : s.stopped = false) :
    ∃ p, dispatchEventAtBubbling x c above s =
      (tour (visit x n) Dispatch.stopped s
        (if s.event.bubbles then
          (above.map fun a => ⟨.node a.node, .bubblingPhase⟩) ++
          (c.window.toList.map fun w => ⟨.window w, .bubblingPhase⟩)
        else [])).setEventPhase p := by
  unfold dispatchEventAtBubbling
  rw [bubblingLoop_eq habove hs]
  cases hb : s.event.bubbles with
  | false =>
    refine ⟨s.event.eventPhase, ?_⟩
    simp only [Bool.false_eq_true, if_false]
    rw [show tour (visit x n) Dispatch.stopped s [] = s from rfl,
      Dispatch.continuation_of_not_stopped hs]
    simp only [hb, Bool.false_and, Bool.false_eq_true, if_false]
    rfl
  | true =>
    simp only [if_true]
    rw [tour_append]
    generalize ht : tour (visit x n) Dispatch.stopped s
      (above.map fun a => ⟨.node a.node, .bubblingPhase⟩) = t
    have hbt : t.event.bubbles = true := by rw [← ht, bubbles_tour, hb]
    cases hstop : t.stopped with
    | true =>
      refine ⟨t.event.eventPhase, ?_⟩
      rw [tour_of_ended hstop, Dispatch.continuation_of_stopped hstop]
      rfl
    | false =>
      rw [Dispatch.continuation_of_not_stopped hstop]
      simp only [hbt, hstop, Bool.not_false, Bool.and_self, if_true]
      rw [windowHandleLocalEvents_eq hc]
      cases c.window with
      | none => exact ⟨.bubblingPhase, rfl⟩
      | some w =>
        rw [Option.toList_some, List.map_singleton, tour_cons hstop]
        exact ⟨_, rfl⟩

/-- **The stages follow the schedule.** -/
theorem dispatchStages_eq {c : WindowEventContext} {target : NodeEventContext}
    {above : List NodeEventContext} (hc : c.window = none ∨ c.target = some n)
    (htarget : target.currentTarget = n ∧ target.target = n) (habove : ∀ a ∈ above, Plain n a)
    (hs : s.stopped = false) :
    ∃ p, dispatchStages x c target above s =
      (tour (visit x n) Dispatch.stopped s
        (schedule n (above.map NodeEventContext.node) c.window
          s.event.bubbles)).setEventPhase p := by
  rw [← tour_setEventPhase s .capturingPhase (by simp [schedule]) hs]
  unfold dispatchStages dispatchEventPreProcess schedule
  rw [Dispatch.continuation_of_not_stopped hs, dispatchEventAtCapturing_eq hc habove hs,
    ← List.map_reverse, List.map_map, List.map_map]
  simp only [Function.comp_def]
  generalize (c.window.toList.map fun w => (⟨.window w, .capturingPhase⟩ : Turn)) ++
    (above.reverse.map fun a => (⟨.node a.node, .capturingPhase⟩ : Turn)) = down
  rw [List.append_assoc, tour_append]
  generalize ht : tour (visit x n) Dispatch.stopped (s.setEventPhase .capturingPhase) down = t
  have hbt : t.event.bubbles = s.event.bubbles := by rw [← ht, bubbles_tour]; rfl
  cases hstop : t.stopped with
  | true =>
    refine ⟨t.event.eventPhase, ?_⟩
    rw [tour_of_ended hstop, Dispatch.continuation_of_stopped hstop]
    rfl
  | false =>
    rw [Dispatch.continuation_of_not_stopped hstop, List.singleton_append, tour_cons hstop]
    have hvisit : target.handleLocalEvents x (t.setEventPhase .atTarget) =
        visit x n t ⟨.node n, .atTarget⟩ := by
      unfold NodeEventContext.handleLocalEvents
      rw [htarget.1, htarget.2]
      rfl
    simp only [dispatchEventAtTarget, hvisit]
    generalize hu : visit x n t ⟨.node n, .atTarget⟩ = u
    have hbu : u.event.bubbles = s.event.bubbles := by rw [← hu, ← hbt]; rfl
    cases hstop' : u.stopped with
    | true =>
      refine ⟨u.event.eventPhase, ?_⟩
      rw [tour_of_ended hstop', Dispatch.continuation_of_stopped hstop']
      rfl
    | false =>
      rw [Dispatch.continuation_of_not_stopped hstop', ← hbu]
      exact dispatchEventAtBubbling_eq hc habove hstop'

end Stages

/-! ## Trees in one scope -/

section InOrder

variable {x : Scripts σ} {v : σ} {n : NodeId} {ch : NodeId → List NodeId} {above : List NodeId}
  {event : DispatchedEvent}

/-- In the scope of the target every ancestor has a plain context. -/
theorem plain_contextOf {h : Heap} {a : NodeId} (hdoc : h.document a = h.document n)
    (hne : a ≠ n) : Plain n (EventPath.contextOf h (n :: above) a) := by
  have htarget := EventPath.target_contextOf above hdoc
  refine ⟨rfl, htarget, ?_⟩
  unfold NodeEventContext.currentTargetSameAsTarget
  rw [htarget]
  exact beq_false_of_ne hne

/-- The window context of a path whose top has the target `n`. -/
theorem windowEventContext_eq (h : Heap) (domWindow : NodeId → Option WindowId)
    (type : AtomicString) {top : NodeEventContext} (htop : top.target = n) :
    let c := EventPath.windowEventContext h domWindow type top
    c.window = takingPart h domWindow type top.node ∧ (c.window = none ∨ c.target = some n) := by
  unfold EventPath.windowEventContext takingPart
  by_cases hload : type = "load"
  · simp [hload]
  · by_cases hdoc : h.isDocumentNode top.node = true
    · simp [hload, hdoc, htop]
    · simp [hload, hdoc]

/-- The stages of a dispatch, by the contexts of its path. -/
theorem dispatchEvent_eq (event : DispatchedEvent)
    (hcreate : EventPath.create (x.heap v) n =
      some ((n :: above).map (EventPath.contextOf (x.heap v) (n :: above)))) :
    ∃ result, dispatchEvent x v n event = some (dispatchEventPostProcess n
      (dispatchStages x
        (EventPath.windowEventContext (x.heap v) (x.domWindow v) event.type
          (EventPath.contextOf (x.heap v) (n :: above)
            ((n :: above).getLast (List.cons_ne_nil n above))))
        (EventPath.contextOf (x.heap v) (n :: above) n)
        (above.map (EventPath.contextOf (x.heap v) (n :: above))) (departure v n event)),
      result) := by
  unfold dispatchEvent
  have hne : (n :: above).map (EventPath.contextOf (x.heap v) (n :: above)) ≠ [] :=
    List.cons_ne_nil _ _
  rw [hcreate, ← List.getLast_map hne]
  exact ⟨_, rfl⟩

/-- **A dispatch inside one scope is in order.** -/
theorem in_order_of_scope (w : WellFormed (x.heap v) ch)
    (hscope : ∀ a, Above (x.heap v).links.parent n a →
      (x.heap v).document a = (x.heap v).document n) (hevent : event.stopped = false) :
    DispatchedInOrder x v n event := by
  obtain ⟨above, hlineage, hcreate⟩ := EventPath.create_eq w n
  have hnodup := List.nodup_cons.mp (hlineage.nodup w.acyclic)
  have hdoc : ∀ a ∈ n :: above, (x.heap v).document a = (x.heap v).document n :=
    fun a ha => hscope a (hlineage.mem.mp ha)
  have hplain : ∀ c ∈ above.map (EventPath.contextOf (x.heap v) (n :: above)), Plain n c := by
    intro c hc
    obtain ⟨a, ha, rfl⟩ := List.mem_map.mp hc
    apply plain_contextOf (hdoc a (List.mem_cons_of_mem n ha))
    rintro rfl
    exact hnodup.1 ha
  have hnodes : (above.map (EventPath.contextOf (x.heap v) (n :: above))).map
      NodeEventContext.node = above := by
    rw [List.map_map]
    exact List.map_id above
  have htarget := EventPath.target_contextOf above (hdoc n List.mem_cons_self)
  have htop := EventPath.target_contextOf above (hdoc _ (List.getLast_mem
    (List.cons_ne_nil n above)))
  obtain ⟨hwindow, hc⟩ := windowEventContext_eq (x.heap v) (x.domWindow v) event.type htop
  have hdeparture : (departure v n event).stopped = false := hevent
  obtain ⟨p, hstages⟩ := dispatchStages_eq (x := x) hc ⟨rfl, htarget⟩ hplain hdeparture
  obtain ⟨visited, htoured⟩ := toured_tour (visit x n) Dispatch.stopped (departure v n event)
    (schedule n above (takingPart (x.heap v) (x.domWindow v) event.type
      ((n :: above).getLast (List.cons_ne_nil n above))) event.bubbles)
  obtain ⟨result, hdispatch⟩ := dispatchEvent_eq event hcreate
  refine ⟨above, visited, _, result, hlineage, htoured, ?_⟩
  rw [hdispatch, hstages, hnodes, hwindow, dispatchEventPostProcess_setEventPhase]
  rfl

/-! ## Trees in several scopes -/

/-- Only targets with `P` have heard of the event. -/
def Heard (P : EventTarget → Prop) (s : Dispatch σ) : Prop :=
  ∀ i ∈ s.invocations, P i.currentTarget

variable {P : EventTarget → Prop} {s : Dispatch σ}

theorem Heard.fire {target currentTarget : EventTarget} (h : Heard P s) (hp : P currentTarget) :
    Heard P (s.fire x target currentTarget) := by
  intro i hi
  rcases List.mem_append.mp hi with hi | hi
  · exact h i hi
  · obtain ⟨r, -, rfl⟩ := List.mem_map.mp hi
    exact hp

theorem Heard.window {c : WindowEventContext} (h : Heard P s)
    (hp : ∀ w, P (.window w)) : Heard P (c.handleLocalEvents x s).2 := by
  unfold WindowEventContext.handleLocalEvents
  split
  · exact h.fire (hp _)
  · exact h

/-- A node that is its own target hears nothing in the capturing stage. -/
theorem Heard.capturingLoop {cs : List NodeEventContext} (h : Heard P s)
    (hcs : ∀ c ∈ cs, c.currentTargetSameAsTarget = false → P (.node c.currentTarget)) :
    Heard P (capturingLoop x cs s).2 := by
  induction cs generalizing s with
  | nil => exact h
  | cons c cs ih =>
    have hrest := fun d hd => hcs d (List.mem_cons_of_mem c hd)
    unfold Blinkit.Events.capturingLoop
    cases hsame : c.currentTargetSameAsTarget with
    | true =>
      simp only [if_true]
      split
      · exact h
      · exact ih h hrest
    | false =>
      have h' : Heard P (c.handleLocalEvents x (s.setEventPhase .capturingPhase)) :=
        h.fire (s := s.setEventPhase .capturingPhase) (hcs c List.mem_cons_self hsame)
      simp only [Bool.false_eq_true, if_false]
      split
      · exact h'
      · exact ih h' hrest

/-- Nor in the bubbling stage. -/
theorem Heard.bubblingLoop {cs : List NodeEventContext} (h : Heard P s)
    (hcs : ∀ c ∈ cs, c.currentTargetSameAsTarget = false → P (.node c.currentTarget)) :
    Heard P (bubblingLoop x cs s).2 := by
  induction cs generalizing s with
  | nil => exact h
  | cons c cs ih =>
    have hrest := fun d hd => hcs d (List.mem_cons_of_mem c hd)
    unfold Blinkit.Events.bubblingLoop
    cases hsame : c.currentTargetSameAsTarget with
    | true =>
      have h' : Heard P (s.setEventPhase .atTarget) := h
      simp only [if_true]
      split
      · exact h'
      · exact ih h' hrest
    | false =>
      have h' : Heard P (c.handleLocalEvents x (s.setEventPhase .bubblingPhase)) :=
        h.fire (s := s.setEventPhase .bubblingPhase) (hcs c List.mem_cons_self hsame)
      simp only [Bool.false_eq_true, if_false]
      split
      · split
        · exact h'
        · exact ih h' hrest
      · exact ih h hrest

/-- What hears of an event is the window, the target, or an ancestor that is not its own target. -/
theorem Heard.dispatchStages {c : WindowEventContext} {target : NodeEventContext}
    {cs : List NodeEventContext} (h : Heard P s) (hwindow : ∀ w, P (.window w))
    (htarget : P (.node target.currentTarget))
    (hcs : ∀ c ∈ cs, c.currentTargetSameAsTarget = false → P (.node c.currentTarget)) :
    Heard P (dispatchStages x c target cs s) := by
  have hcapturing : Heard P (dispatchEventAtCapturing x c cs s).2 := by
    have h' : Heard P (c.handleLocalEvents x (s.setEventPhase .capturingPhase)).2 :=
      Heard.window (s := s.setEventPhase .capturingPhase) h hwindow
    unfold dispatchEventAtCapturing
    dsimp only
    split
    · exact h'
    · exact h'.capturingLoop fun d hd => hcs d (List.mem_reverse.mp hd)
  unfold Blinkit.Events.dispatchStages
  split
  · exact h
  · split
    · rename_i s₁ hs₁
      rw [hs₁] at hcapturing
      exact hcapturing
    · rename_i s₁ hs₁
      rw [hs₁] at hcapturing
      have hat : Heard P (dispatchEventAtTarget x target s₁).2 :=
        Heard.fire (s := s₁.setEventPhase .atTarget) hcapturing htarget
      split
      · rename_i s₂ hs₂
        rw [hs₂] at hat
        exact hat
      · rename_i s₂ hs₂
        rw [hs₂] at hat
        have hloop := hat.bubblingLoop (x := x) hcs
        unfold dispatchEventAtBubbling
        split
        · rename_i s₃ hs₃
          rw [hs₃] at hloop
          exact hloop
        · rename_i s₃ hs₃
          rw [hs₃] at hloop
          split
          · exact Heard.window (s := s₃.setEventPhase .bubblingPhase) hloop hwindow
          · exact hloop

/-- A world in which every target has one listener, which does nothing. -/
def listeningEverywhere (h : Heap) : Scripts Unit where
  heap _ := h
  domWindow _ _ := none
  fireEventListeners _ _ event := ⟨(), [⟨0, false, false, false, false, false⟩], event.marks⟩

/-- There every target of the schedule is visited, and its listener invoked. -/
theorem listening_visits {h : Heap} (s : Dispatch Unit) (ts : List Turn) :
    (ts.foldl (visit (listeningEverywhere h) n) s).stopped = s.stopped ∧
      ∀ t ∈ ts, ∃ i ∈ (ts.foldl (visit (listeningEverywhere h) n) s).invocations,
        i.currentTarget = t.currentTarget := by
  have hmono : ∀ (ts : List Turn) (s : Dispatch Unit), ∀ i ∈ s.invocations,
      i ∈ (ts.foldl (visit (listeningEverywhere h) n) s).invocations := by
    intro ts
    induction ts with
    | nil => exact fun _ _ hi => hi
    | cons t ts ih => exact fun s i hi => ih _ i (List.mem_append_left _ hi)
  induction ts generalizing s with
  | nil => exact ⟨rfl, fun t ht => by cases ht⟩
  | cons t ts ih =>
    obtain ⟨hstop, hall⟩ := ih (visit (listeningEverywhere h) n s t)
    refine ⟨hstop, ?_⟩
    intro u hu
    rcases List.mem_cons.mp hu with rfl | hu
    · exact ⟨_, hmono ts _ _ (List.mem_append_right _ (List.mem_singleton.mpr rfl)), rfl⟩
    · exact hall u hu

/-- **A dispatch that comes through a second scope is not in order:** the first node of that scope
is left out. -/
theorem scope_of_in_order {h : Heap} (w : WellFormed h ch) (hevent : event.stopped = false)
    (horder : DispatchedInOrder (listeningEverywhere h) () n event) {m : NodeId}
    (hm : Above h.links.parent n m) : h.document m = h.document n := by
  apply Classical.byContradiction
  intro hne
  obtain ⟨above, visited, s, result, hlineage, htoured, hdispatch⟩ := horder
  obtain ⟨above', hlineage', hcreate⟩ := EventPath.create_eq w n
  obtain rfl := hlineage.unique hlineage'
  have hmn : m ≠ n := by
    rintro rfl
    exact hne rfl
  have hmem : m ∈ above := (List.mem_cons.mp (hlineage.mem.mpr hm)).resolve_left hmn
  obtain ⟨a, ha, hdoc, hsame⟩ := EventPath.exists_sameAsTarget hmem hne
  have han : a ≠ n := by
    rintro rfl
    exact hdoc rfl
  -- by the tour, `a` hears of the event
  have hgoing := (listening_visits (n := n) (h := h) (departure () n event) visited).1
  obtain rfl := htoured.all (hgoing.trans hevent)
  have hturn : (⟨.node a, .capturingPhase⟩ : Turn) ∈ schedule n above
      (takingPart h (fun _ => none) event.type
        ((n :: above).getLast (List.cons_ne_nil n above))) event.bubbles := by
    simp [schedule, ha]
  obtain ⟨i, hi, hcurrent⟩ :=
    (listening_visits (n := n) (h := h) (departure () n event) _).2 _ hturn
  have his : i ∈ s.invocations := by
    rw [← htoured.outcome]
    exact hi
  -- by the stages, it does not
  obtain ⟨result', hstages⟩ := dispatchEvent_eq (x := listeningEverywhere h) (v := ())
    event hcreate
  rw [hdispatch] at hstages
  have hinvocations := congrArg (fun r => r.map fun r => r.1.invocations) hstages
  simp only [Option.map_some, Option.some.injEq] at hinvocations
  have hheard : Heard (· ≠ .node a) s := by
    intro j hj
    have hj' : j ∈ (dispatchEventPostProcess n s).invocations := hj
    rw [hinvocations] at hj'
    refine Heard.dispatchStages (P := (· ≠ .node a)) (s := departure () n event)
      (fun _ h => by cases h) ?_ ?_ ?_ j hj'
    · rintro w ⟨⟩
    · intro he
      exact han (EventTarget.node.inj he).symm
    · intro c hc hplain he
      obtain ⟨b, hb, rfl⟩ := List.mem_map.mp hc
      obtain rfl : b = a := EventTarget.node.inj he
      cases hsame.symm.trans hplain
  exact hheard i his hcurrent

/-- **When dispatches are in order.** In every tree over any number of documents, every dispatch of
an event to `n` is in order, whatever the listeners of nodes and windows do to the event and to the
tree, exactly when no ancestor of `n` belongs to another document. -/
theorem dispatch_order_iff {h : Heap} (hreach : Reachable h) (n : NodeId) (type : AtomicString)
    (bubbles : Bool) :
    (∀ (σ : Type) (x : Scripts σ) (v : σ), x.heap v = h →
      DispatchedInOrder x v n (.create type bubbles)) ↔
      ∀ m, Above h.links.parent n m → h.document m = h.document n := by
  obtain ⟨⟨ch, w⟩, -⟩ := reachable_tree hreach
  constructor
  · intro horder m hm
    exact scope_of_in_order w rfl (horder Unit (listeningEverywhere h) () rfl) hm
  · rintro hscope σ x v rfl
    exact in_order_of_scope w hscope rfl

end InOrder

/-- In a tree of one document the dispatches are in order. -/
theorem dispatch_order_firstDocument :
    DispatchedInOrder (listeningEverywhere firstDocument) () 1 (.create "click" true) := by
  refine (dispatch_order_iff firstDocument_reachable 1 "click" true).mpr ?_ Unit _ () rfl
  intro m hm
  have hlineage : Lineage firstDocument.links.parent 1 [0] := ⟨rfl, rfl⟩
  have hmem := hlineage.mem.mpr hm
  simp only [List.mem_cons, List.not_mem_nil, or_false] at hmem
  rcases hmem with rfl | rfl <;> rfl

/-- The element `3` of the document `2` below the element `1` of the document `0`. -/
def movedElement : Heap :=
  let h := (Heap.initial.createDocument.createNode .element "A" 0).createDocument
  let h := h.createNode .element "B" 2
  match (Call.appendChild 0 1).exec 5 h with
  | some r =>
    match (Call.appendChild 1 3).exec 5 r.heap with
    | some r => r.heap
    | none => r.heap
  | none => h

theorem movedElement_reachable : Reachable movedElement :=
  ⟨[.createDocument, .createNode .element "A" 0, .createDocument, .createNode .element "B" 2,
      .appendChild 0 1, .appendChild 1 3],
    .cons ⟨⟨trivial, trivial⟩, 5, _, by decide, rfl, rfl⟩ <|
    .cons ⟨⟨⟨by decide, by decide⟩, trivial⟩, 5, _, by decide, rfl, rfl⟩ <|
    .cons ⟨⟨trivial, trivial⟩, 5, _, by decide, rfl, rfl⟩ <|
    .cons ⟨⟨⟨by decide, by decide⟩, trivial⟩, 5, _, by decide, rfl, rfl⟩ <|
    .cons ⟨⟨⟨by decide, by decide⟩, trivial⟩, 5, _, by decide, rfl, rfl⟩ <|
    .cons ⟨⟨⟨by decide, by decide⟩, trivial⟩, 5, _, by decide, rfl, rfl⟩ (.nil _)⟩

/-- **The parent in another document hears nothing.** A click on the moved element is heard by the
root, by the element, and by the root again; the listener of the parent is never invoked. -/
theorem parent_in_other_scope_left_out :
    Reachable movedElement ∧ Lineage movedElement.links.parent 3 [1, 0] ∧
      (∃ s result, dispatchEvent (listeningEverywhere movedElement) () 3 (.create "click" true) =
          some (s, result) ∧
        s.invocations.map (fun i => (i.currentTarget, i.phase)) =
          [(.node 0, .capturingPhase), (.node 3, .atTarget), (.node 0, .bubblingPhase)]) ∧
      ¬ DispatchedInOrder (listeningEverywhere movedElement) () 3 (.create "click" true) := by
  refine ⟨movedElement_reachable, ⟨rfl, rfl, rfl⟩, ⟨_, _, rfl, rfl⟩, ?_⟩
  intro horder
  obtain ⟨⟨ch, w⟩, -⟩ := reachable_tree movedElement_reachable
  have hscope := scope_of_in_order w rfl horder (Above.of_parent rfl : Above _ 3 1)
  cases hscope

end Blinkit.Events
