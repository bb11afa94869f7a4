import Blinkit.Events.EventTarget

/-!
# The script bindings of the listener calls

Translation of `duk_event_target.cpp`, `duk_event_listener.cpp` and `ContextImpl::Reset`.

A `DukEventListener` is made for every call of `addEventListener`. It keeps the raw heap pointer of
the function and stores a hidden property on the global object, which is what keeps the function
alive and what `removeEventListener` finds the listener by.

* `DukString` — a script string by its bytes. Duktape keeps the code units of a string one by one,
  so a surrogate has three bytes of its own, which are not UTF-8.
* `fromUTF8` — the atom that both calls make of the type: all types that are not UTF-8 are one.
* `Key` — the text that `GenerateKey` formats. Between the two addresses, which have no underscore,
  stands the type, so the text determines the three parts; `%s` ends at the first NUL of the type,
  and the null atom is written as nothing.
* `Bindings` — the hidden properties of the current global object, the listener objects, the
  targets.
* `Bindings.step` — one call. No event is being fired, so a listener is owned by its registration
  and by the call that handles it.
-/

set_option autoImplicit false

namespace Blinkit.Events

open Function

abbrev TargetId := Nat

/-- The heap pointer of a script function. -/
abbrev FunctionId := Nat

/-- A string of a script: the bytes that `duk_to_lstring` returns. -/
abbrev DukString := List UInt8

/-- `AtomicString::FromUTF8`: bytes that `IsLegalUTF8` refuses, those of a surrogate among them,
make the null atom. -/
def fromUTF8 (chars : DukString) : AtomicString := String.fromUTF8? ⟨chars.toArray⟩

/-- The bytes of a text without surrogates. -/
def utf8 (s : String) : DukString := s.toByteArray.data.toList

/-- An atom that is not null comes from one string only. -/
theorem eq_utf8_of_fromUTF8 {chars : DukString} {s : String} (h : fromUTF8 chars = some s) :
    chars = utf8 s := by
  unfold fromUTF8 String.fromUTF8? at h
  split at h
  · cases h
    rfl
  · cases h

structure Key where
  target : TargetId
  type : List Char
  heapPtr : FunctionId
  deriving DecidableEq

/-- `DukEventListener::GenerateKey`. -/
def generateKey (target : TargetId) (type : AtomicString) (heapPtr : FunctionId) : Key :=
  ⟨target, (type.getD "").toList.takeWhile (fun c => c.toNat ≠ 0), heapPtr⟩

/-- The object that the constructor stores under the key. -/
structure ListenerProp where
  listener : FunctionId
  nativeListener : ListenerId
  deriving DecidableEq

structure DukEventListener where
  heapPtr : FunctionId
  key : Key

structure Bindings where
  /-- The listener properties of the current global object. -/
  global : Key → Option ListenerProp
  listeners : ListenerId → DukEventListener
  nextListener : ListenerId
  targets : TargetId → Target
  /-- The targets that are a window whose `document()` is null. -/
  windowWithoutDocument : TargetId → Bool
  /-- The functions that the global object reaches without the listener properties. -/
  scriptReaches : FunctionId → Bool

/-- How a call ends for the script. -/
inductive Outcome where
  | returned
  | typeError (message : String)
  deriving DecidableEq, Repr

/-- The calls of a script on one target: the number of arguments and the third of them. -/
inductive ListenerCall where
  | addEventListener (type : DukString) (f : FunctionId) (argc : Nat) (third : Bool)
  | removeEventListener (type : DukString) (f : FunctionId) (argc : Nat) (third : Bool)
  deriving DecidableEq

inductive Call where
  | onTarget (target : TargetId) (call : ListenerCall)
  /-- `ContextImpl::Reset`, and what the new global object reaches. -/
  | reset (reaches : FunctionId → Bool)
  /-- Script changes what the global object reaches. -/
  | runScript (reaches : FunctionId → Bool)

/-- The argument check of both calls. -/
def useCaptureArgument (argc : Nat) (third : Bool) : Except String Bool :=
  match argc with
  | 2 => .ok false
  | 3 => .ok third
  | argc => .error ("Invalid argument count: " ++ toString argc)

/-- Whether a vector of the map holds a reference to the listener. -/
def EventListenerMap.holds (m : EventListenerMap) (listener : ListenerId) : Bool :=
  m.entries.any fun e => e.listeners.any (·.callback == listener)

namespace Bindings

def initial (events : EventId → Event) (windowWithoutDocument : TargetId → Bool)
    (scriptReaches : FunctionId → Bool) : Bindings where
  global _ := none
  listeners _ := ⟨0, ⟨0, [], 0⟩⟩
  nextListener := 0
  targets target := .initial events (!windowWithoutDocument target)
  windowWithoutDocument := windowWithoutDocument
  scriptReaches := scriptReaches

/-- `DukEventListener::Create`: the property replaces the one stored under the key before. -/
def createListener (s : Bindings) (target : TargetId) (type : AtomicString)
    (heapPtr : FunctionId) : Bindings × ListenerId :=
  let key := generateKey target type heapPtr
  ({ s with
      global := update s.global key (some ⟨heapPtr, s.nextListener⟩)
      listeners := update s.listeners s.nextListener ⟨heapPtr, key⟩
      nextListener := s.nextListener + 1 }, s.nextListener)

/-- `DukEventListener::From`. -/
def listenerFrom (s : Bindings) (target : TargetId) (type : AtomicString) (heapPtr : FunctionId) :
    Option ListenerId :=
  (s.global (generateKey target type heapPtr)).map (·.nativeListener)

/-- The call gives its reference to the listener up. When the target has none, the destructor
`~DukEventListener` runs and deletes the property under the key of the listener. -/
def releaseListener (s : Bindings) (target : TargetId) (listener : ListenerId) : Bindings :=
  if (s.targets target).eventListenerMap.holds listener then s
  else { s with global := update s.global (s.listeners listener).key none }

/-- `Impl::AddEventListener`, with the atom of its type. -/
def addEventListener (s : Bindings) (target : TargetId) (type : AtomicString) (f : FunctionId)
    (argc : Nat) (third : Bool) : Except Fault (Bindings × Outcome) :=
  if s.windowWithoutDocument target then .ok (s, .returned)
  else
    match useCaptureArgument argc third with
    | .error message => .ok (s, .typeError message)
    | .ok useCapture =>
      let c := s.createListener target type f
      match (c.1.targets target).addEventListener type c.2 useCapture with
      | .error fault => .error fault
      | .ok t =>
        let s := { c.1 with targets := update c.1.targets target t }
        .ok (s.releaseListener target c.2, .returned)

/-- `Impl::RemoveEventListener`, with the atom of its type. -/
def removeEventListener (s : Bindings) (target : TargetId) (type : AtomicString) (f : FunctionId)
    (argc : Nat) (third : Bool) : Bindings × Outcome :=
  if s.windowWithoutDocument target then (s, .returned)
  else
    match useCaptureArgument argc third with
    | .error message => (s, .typeError message)
    | .ok useCapture =>
      match s.listenerFrom target type f with
      | none => (s, .returned)
      | some listener =>
        let t := (s.targets target).removeEventListenerInternal type listener useCapture
        let s := { s with targets := update s.targets target t }
        (s.releaseListener target listener, .returned)

/-- A new global object takes over what the first one had, but no hidden property. -/
def reset (s : Bindings) (reaches : FunctionId → Bool) : Bindings :=
  { s with global := fun _ => none, scriptReaches := reaches }

/-- A call, behind `Duk::To<AtomicString>` of its first argument. -/
def call (s : Bindings) (target : TargetId) : ListenerCall → Except Fault (Bindings × Outcome)
  | .addEventListener type f argc third => s.addEventListener target (fromUTF8 type) f argc third
  | .removeEventListener type f argc third =>
    .ok (s.removeEventListener target (fromUTF8 type) f argc third)

def step (s : Bindings) : Call → Except Fault (Bindings × Outcome)
  | .onTarget target c => s.call target c
  | .reset reaches => .ok (s.reset reaches, .returned)
  | .runScript reaches => .ok ({ s with scriptReaches := reaches }, .returned)

end Bindings

end Blinkit.Events
