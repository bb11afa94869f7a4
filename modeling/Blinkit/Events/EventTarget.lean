import Mathlib.Logic.Function.Basic
import Mathlib.Data.List.Basic

/-!
# Event targets

Translation of `event_listener_map.cpp`, `registered_event_listener.cc` and of the part of
`event_target.cpp` that registers, removes and fires listeners.

`FireEventListeners` hands control to a handler in the middle of its loop, and the handler may call
the target again. The model is therefore a machine: an `Action` is a call that comes from outside
or from a handler, `handlerReturned` is the return of the innermost handler, and a `Firing` is the
activation record of one call of `FireEventListeners` that has not returned.

* `EventListenerMap` — the entries, each with the address of the vector it owns.
* `Firing` — the locals `i`, `size`, `firedListener` and the reference to the vector. The record in
  `firingEventIterators` refers to the same `i` and `size`, so it is not kept twice.
* `Target.step` — one action. A vector read after it was destroyed, or beyond its end, is a fault.
-/

set_option autoImplicit false

namespace Blinkit.Events

open Function

/-- An `EventListener` object; `operator==` compares addresses. -/
abbrev ListenerId := Nat

abbrev EventId := Nat

/-- `AtomicString`; `none` is the null atom, which is equal to itself only. -/
abbrev AtomicString := Option String

/-! ## Events -/

inductive Phase where
  | none
  | capturingPhase
  | atTarget
  | bubblingPhase
  deriving DecidableEq, Repr

inductive PassiveMode where
  | notPassiveDefault
  | notPassive
  | passive
  | passiveForcedDocumentLevel
  | passiveDefault
  deriving DecidableEq, Repr

inductive DispatchEventResult where
  | notCanceled
  | canceledByEventHandler
  | canceledByDefaultEventHandler
  deriving DecidableEq, Repr

/-- The fields of an event that decide which listeners fire. -/
structure Dispatching where
  type : AtomicString
  eventPhase : Phase
  immediatePropagationStopped : Bool
  fireOnlyCaptureListenersAtTarget : Bool
  fireOnlyNonCaptureListenersAtTarget : Bool

structure Event extends Dispatching where
  cancelable : Bool
  handlingPassive : PassiveMode
  defaultPrevented : Bool
  defaultHandled : Bool
  executedListenerOrDefaultAction : Bool

/-- What the constructor makes of the empty type. -/
instance : Inhabited Event where
  default :=
    { type := ""
      eventPhase := .none
      immediatePropagationStopped := false
      fireOnlyCaptureListenersAtTarget := false
      fireOnlyNonCaptureListenersAtTarget := false
      cancelable := false
      handlingPassive := .notPassiveDefault
      defaultPrevented := false
      defaultHandled := false
      executedListenerOrDefaultAction := false }

namespace Event

/-- `Event::SetHandlingPassive`. -/
def setHandlingPassive (mode : PassiveMode) (e : Event) : Event := { e with handlingPassive := mode }

/-- `Event::preventDefault`. -/
def preventDefault (e : Event) : Event :=
  if e.handlingPassive ≠ .notPassive ∧ e.handlingPassive ≠ .notPassiveDefault then e
  else if e.cancelable then { e with defaultPrevented := true }
  else e

/-- `Event::DoneDispatchingEventAtCurrentTarget`. -/
def doneDispatchingEventAtCurrentTarget (e : Event) : Event :=
  { e with executedListenerOrDefaultAction := true }

end Event

/-! ## Registered listeners -/

/-- The options of a registration. `passive` is an `std::optional`. -/
structure AddEventListenerOptionsResolved where
  capture : Bool := false
  once : Bool := false
  passive : Option Bool := none
  passiveForcedForDocumentTarget : Bool := false
  passiveSpecified : Bool := false
  deriving DecidableEq

structure RegisteredEventListener where
  callback : ListenerId
  useCapture : Bool
  passive : Bool
  once : Bool
  passiveForcedForDocumentTarget : Bool
  passiveSpecified : Bool
  deriving DecidableEq, Repr

/-- The flag of this name in `RuntimeEnabledFeatures`, a stable feature. -/
def callCaptureListenersAtCapturePhaseAtShadowHostsEnabled : Bool := true

namespace RegisteredEventListener

/-- The constructor. It asks for the value of `passive`, which ends the process when none has been
set. -/
def create (listener : ListenerId) (options : AddEventListenerOptionsResolved) :
    Option RegisteredEventListener :=
  options.passive.map fun passive =>
    { callback := listener
      useCapture := options.capture
      passive := passive
      once := options.once
      passiveForcedForDocumentTarget := options.passiveForcedForDocumentTarget
      passiveSpecified := options.passiveSpecified }

/-- `RegisteredEventListener::Matches`. -/
def matchesListener (r : RegisteredEventListener) (listener : ListenerId) (useCapture : Bool) : Bool :=
  r.callback == listener && r.useCapture == useCapture

/-- `RegisteredEventListener::operator==`. -/
def equals (r other : RegisteredEventListener) : Bool :=
  r.callback == other.callback && r.useCapture == other.useCapture

/-- `RegisteredEventListener::ShouldFire`. -/
def shouldFire (r : RegisteredEventListener) (event : Dispatching) : Bool :=
  let byPhase :=
    match event.eventPhase with
    | .capturingPhase => r.useCapture
    | .bubblingPhase => !r.useCapture
    | _ => true
  if callCaptureListenersAtCapturePhaseAtShadowHostsEnabled then
    if event.fireOnlyCaptureListenersAtTarget then r.useCapture
    else if event.fireOnlyNonCaptureListenersAtTarget then !r.useCapture
    else byPhase
  else byPhase

end RegisteredEventListener

/-- `IsScrollBlockingEvent`. -/
def isScrollBlockingEvent (type : AtomicString) : Bool := type == "mousewheel" || type == "wheel"

/-- `EventTarget::SetDefaultAddEventListenerOptions`. For the events that block scrolling the
crawler has nothing but an assertion, and `passive` stays empty. -/
def setDefaultAddEventListenerOptions (type : AtomicString)
    (options : AddEventListenerOptionsResolved) : AddEventListenerOptionsResolved :=
  let options := { options with passiveSpecified := options.passive.isSome }
  if !isScrollBlockingEvent type then
    if options.passive.isNone then { options with passive := some false } else options
  else options

/-- `EventPassiveMode`. -/
def eventPassiveMode (r : RegisteredEventListener) : PassiveMode :=
  if !r.passive then
    if r.passiveSpecified then .notPassive else .notPassiveDefault
  else if r.passiveForcedForDocumentTarget then .passiveForcedDocumentLevel
  else if r.passiveSpecified then .passive
  else .passiveDefault

/-! ## The listener map -/

abbrev EventListenerVector := List RegisteredEventListener

/-- An entry of the map: the vector is owned by a `unique_ptr`, which is its address. -/
structure Entry where
  type : AtomicString
  address : Nat
  listeners : EventListenerVector

/-- `EventListenerMap`. A new vector gets an address that no vector had before. -/
structure EventListenerMap where
  entries : List Entry
  nextAddress : Nat

/-- `AddListenerToVector`. -/
def addListenerToVector (vector : EventListenerVector) (r : RegisteredEventListener) :
    EventListenerVector :=
  if vector.any r.equals then vector else vector ++ [r]

/-- `RemoveListenerFromVector`: the index and the vector behind the removal. -/
def removeListenerFromVector (vector : EventListenerVector) (listener : ListenerId)
    (useCapture : Bool) : Option (Nat × EventListenerVector) :=
  (vector.findIdx? (·.matchesListener listener useCapture)).map fun k => (k, vector.eraseIdx k)

namespace EventListenerMap

def empty : EventListenerMap := ⟨[], 0⟩

/-- The loop of `EventListenerMap::Add`; behind the last entry a new one is added. -/
def addToEntries (type : AtomicString) (r : RegisteredEventListener) (address : Nat) :
    List Entry → List Entry
  | [] => [⟨type, address, addListenerToVector [] r⟩]
  | e :: es =>
    if e.type = type then { e with listeners := addListenerToVector e.listeners r } :: es
    else e :: addToEntries type r address es

/-- `EventListenerMap::Add`. -/
def add (m : EventListenerMap) (type : AtomicString) (r : RegisteredEventListener) :
    EventListenerMap :=
  ⟨addToEntries type r m.nextAddress m.entries, m.nextAddress + 1⟩

/-- `EventListenerMap::Find`. -/
def find (m : EventListenerMap) (type : AtomicString) : Option Entry :=
  m.entries.find? (·.type = type)

/-- The loop of `EventListenerMap::Remove`: the entries behind it and the index that was removed.
An entry whose vector is empty is erased. -/
def removeFromEntries (type : AtomicString) (listener : ListenerId) (useCapture : Bool) :
    List Entry → List Entry × Option Nat
  | [] => ([], none)
  | e :: es =>
    if e.type = type then
      match removeListenerFromVector e.listeners listener useCapture with
      | none => (if e.listeners.isEmpty then es else e :: es, none)
      | some (k, v) => (if v.isEmpty then es else { e with listeners := v } :: es, some k)
    else
      let r := removeFromEntries type listener useCapture es
      (e :: r.1, r.2)

/-- `EventListenerMap::Remove`. -/
def remove (m : EventListenerMap) (type : AtomicString) (listener : ListenerId)
    (useCapture : Bool) : EventListenerMap × Option Nat :=
  let r := removeFromEntries type listener useCapture m.entries
  (⟨r.1, m.nextAddress⟩, r.2)

/-- `EventListenerMap::Clear`. -/
def clear (m : EventListenerMap) : EventListenerMap := ⟨[], m.nextAddress⟩

/-- The vector at an address, as long as it has not been destroyed. -/
def deref (m : EventListenerMap) (address : Nat) : Option EventListenerVector :=
  (m.entries.find? (·.address = address)).map (·.listeners)

end EventListenerMap

/-! ## The target -/

/-- A call of `FireEventListeners` that has not returned. -/
structure Firing where
  event : EventId
  entry : Nat
  i : Nat
  size : Nat
  firedListener : Bool

/-- What the removal of the listener at index `k` does to the iterator of a firing. -/
def Firing.patch (k : Nat) (f : Firing) : Firing :=
  if k ≥ f.size then f
  else { f with size := f.size - 1, i := if k < f.i then f.i - 1 else f.i }

structure Target where
  hasExecutionContext : Bool
  /-- Whether `GetEventTargetData` is not null; the map and the firings are in the data. -/
  hasEventTargetData : Bool
  eventListenerMap : EventListenerMap
  /-- The firings in progress, the innermost first. -/
  firings : List Firing
  events : EventId → Event

inductive Fault where
  /-- `std::optional::value` of an empty optional. -/
  | badOptionalAccess
  /-- A vector is read after it was destroyed. -/
  | danglingVector
  | indexOutOfRange
  /-- The loop runs on although no firing is in progress or its rounds are used up. -/
  | stuck
  deriving DecidableEq, Repr

inductive Output where
  | idle
  | invoked (r : RegisteredEventListener)
  | returned (result : DispatchEventResult)
  deriving DecidableEq, Repr

/-- The calls on a target, from outside or from inside a handler. -/
inductive Action where
  | addEventListener (type : AtomicString) (listener : ListenerId)
      (options : AddEventListenerOptionsResolved)
  | removeEventListener (type : AtomicString) (listener : ListenerId) (useCapture : Bool)
  | removeAllEventListeners
  | fireEventListeners (event : EventId)
  /-- The innermost handler returns. -/
  | handlerReturned
  | stopImmediatePropagation (event : EventId)
  | preventDefault (event : EventId)
  | setEventPhase (event : EventId) (phase : Phase) (onlyCapture onlyNonCapture : Bool)
  | setExecutionContext (available : Bool)
  deriving DecidableEq

namespace Target

def initial (events : EventId → Event) (hasExecutionContext : Bool) : Target :=
  ⟨hasExecutionContext, false, .empty, [], events⟩

def updateEvent (s : Target) (event : EventId) (f : Event → Event) : Target :=
  { s with events := update s.events event (f (s.events event)) }

/-- `EventTarget::AddEventListenerInternal`. -/
def addEventListenerInternal (s : Target) (type : AtomicString) (listener : ListenerId)
    (options : AddEventListenerOptionsResolved) : Except Fault Target :=
  match RegisteredEventListener.create listener options with
  | none => .error .badOptionalAccess
  | some r =>
    .ok { s with hasEventTargetData := true, eventListenerMap := s.eventListenerMap.add type r }

/-- `EventTarget::addEventListener`. -/
def addEventListener (s : Target) (type : AtomicString) (listener : ListenerId)
    (useCapture : Bool) : Except Fault Target :=
  s.addEventListenerInternal type listener
    (setDefaultAddEventListenerOptions type { capture := useCapture })

/-- `EventTarget::RemoveEventListenerInternal`. -/
def removeEventListenerInternal (s : Target) (type : AtomicString) (listener : ListenerId)
    (useCapture : Bool) : Target :=
  let r := s.eventListenerMap.remove type listener useCapture
  match r.2 with
  | none => { s with eventListenerMap := r.1 }
  | some k =>
    { s with
      eventListenerMap := r.1
      firings := s.firings.map fun f =>
        if type ≠ (s.events f.event).type then f else f.patch k }

/-- `EventTarget::RemoveAllEventListeners`. -/
def removeAllEventListeners (s : Target) : Target :=
  { s with
    eventListenerMap := s.eventListenerMap.clear
    firings := s.firings.map fun f => { f with i := 0, size := 0 } }

/-- `EventTarget::GetDispatchEventResult`. -/
def getDispatchEventResult (event : Event) : DispatchEventResult :=
  if event.defaultPrevented then .canceledByEventHandler
  else if event.defaultHandled then .canceledByDefaultEventHandler
  else .notCanceled

/-- The end of `FireEventListeners`, in front of its two returns. -/
def endFiring (s : Target) (f : Firing) : Target × Output :=
  let s := if f.firedListener then
    s.updateEvent f.event Event.doneDispatchingEventAtCurrentTarget else s
  ({ s with firings := s.firings.tail }, .returned (getDispatchEventResult (s.events f.event)))

/-- The body of the loop behind `ShouldFire`. -/
def fireListener (s : Target) (f : Firing) (r : RegisteredEventListener) : Target × Output :=
  let event := s.events f.event
  let s := if r.once then
    s.removeEventListenerInternal event.type r.callback r.useCapture else s
  if event.immediatePropagationStopped then s.endFiring f
  else (s.updateEvent f.event (Event.setHandlingPassive (eventPassiveMode r)), .invoked r)

/-- The loop of `FireEventListeners`, up to the call of the next handler. -/
def fireLoop : Nat → Target → Except Fault (Target × Output)
  | 0, _ => .error .stuck
  | rounds + 1, s =>
    match s.firings with
    | [] => .error .stuck
    | f :: fs =>
      if f.i < f.size then
        match s.eventListenerMap.deref f.entry with
        | none => .error .danglingVector
        | some entry =>
          match entry[f.i]? with
          | none => .error .indexOutOfRange
          | some r =>
            let s := { s with firings := { f with i := f.i + 1 } :: fs }
            if !r.shouldFire (s.events f.event).toDispatching then fireLoop rounds s
            else .ok (s.fireListener f r)
      else .ok (s.endFiring f)

/-- `EventTarget::FireEventListeners`, up to the call of the first handler. -/
def fireEventListeners (s : Target) (event : EventId) : Except Fault (Target × Output) :=
  if s.hasEventTargetData then
    match s.eventListenerMap.find (s.events event).type with
    | none => .ok (s, .returned (getDispatchEventResult (s.events event)))
    | some entry =>
      if s.hasExecutionContext then
        let size := entry.listeners.length
        fireLoop (size + 1)
          { s with firings := ⟨event, entry.address, 0, size, false⟩ :: s.firings }
      else .ok (s, .returned (getDispatchEventResult (s.events event)))
  else .ok (s, .returned .notCanceled)

/-- The innermost handler returns and the loop that called it goes on. -/
def handlerReturned (s : Target) : Except Fault (Target × Output) :=
  match s.firings with
  | [] => .ok (s, .idle)
  | f :: fs =>
    let s := s.updateEvent f.event (Event.setHandlingPassive .notPassive)
    fireLoop (f.size - f.i + 1) { s with firings := { f with firedListener := true } :: fs }

def step (s : Target) : Action → Except Fault (Target × Output)
  | .addEventListener type listener options =>
    (s.addEventListenerInternal type listener options).map (·, .idle)
  | .removeEventListener type listener useCapture =>
    .ok (s.removeEventListenerInternal type listener useCapture, .idle)
  | .removeAllEventListeners => .ok (s.removeAllEventListeners, .idle)
  | .fireEventListeners event => s.fireEventListeners event
  | .handlerReturned => s.handlerReturned
  | .stopImmediatePropagation event =>
    .ok (s.updateEvent event fun e => { e with immediatePropagationStopped := true }, .idle)
  | .preventDefault event => .ok (s.updateEvent event Event.preventDefault, .idle)
  | .setEventPhase event phase onlyCapture onlyNonCapture =>
    .ok (s.updateEvent event fun e =>
      { e with
        eventPhase := phase
        fireOnlyCaptureListenersAtTarget := onlyCapture
        fireOnlyNonCaptureListenersAtTarget := onlyNonCapture }, .idle)
  | .setExecutionContext available => .ok ({ s with hasExecutionContext := available }, .idle)

end Target

end Blinkit.Events
