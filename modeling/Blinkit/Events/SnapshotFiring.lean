import Blinkit.Lib.Transition
import Blinkit.Events.EventTarget

/-!
# Firing over a snapshot: what `FireEventListeners` is for

The abstract target keeps its registrations in one list, in the order in which they were made, each
with a stamp of its own. A round of firing takes a snapshot of the registrations for its type and
visits them in order. It invokes one at its turn if it is still registered and should fire, and ends
when the snapshot is used up or, at the next turn, when propagation has been stopped. Registering
and removing touch no round.

* `Registration` — what one successful call of `addEventListener` makes.
* `Round` — a firing: its snapshot, what is left of it, and what it has invoked.
* `Registry.turn` — the turns up to the next invocation.

Principal result: `run_orderly`: in every run, every round invokes a part of its snapshot, in
order, none twice.
-/

set_option autoImplicit false

namespace Blinkit.Events

open Function

structure Registration where
  stamp : Nat
  type : AtomicString
  listener : RegisteredEventListener
  deriving DecidableEq

structure Round where
  event : EventId
  snapshot : List Registration
  todo : List Registration
  invoked : List Registration

structure Registry where
  hasExecutionContext : Bool
  registrations : List Registration
  nextStamp : Nat
  /-- The rounds in progress, the innermost first. -/
  rounds : List Round
  events : EventId → Dispatching

/-- What is seen of an action: the listener that is invoked, or the end of a firing. -/
inductive Observation where
  | idle
  | invoked (r : RegisteredEventListener)
  | returned
  deriving DecidableEq

namespace Registry

def initial (events : EventId → Dispatching) (hasExecutionContext : Bool) : Registry :=
  ⟨hasExecutionContext, [], 0, [], events⟩

/-- The registrations for a type. -/
def ofType (a : Registry) (type : AtomicString) : List Registration :=
  a.registrations.filter (·.type = type)

def register (a : Registry) (type : AtomicString) (listener : RegisteredEventListener) : Registry :=
  if (a.ofType type).any (listener.equals ·.listener) then a
  else { a with
    registrations := a.registrations ++ [⟨a.nextStamp, type, listener⟩]
    nextStamp := a.nextStamp + 1 }

def unregister (a : Registry) (type : AtomicString) (listener : ListenerId) (useCapture : Bool) :
    Registry :=
  { a with registrations := a.registrations.filter fun r =>
      ¬ (r.type = type ∧ r.listener.matchesListener listener useCapture = true) }

def updateEvent (a : Registry) (event : EventId) (f : Dispatching → Dispatching) : Registry :=
  { a with events := update a.events event (f (a.events event)) }

/-- The turn of the registration `r`, which is due in the round `g`. -/
def invoke (a : Registry) (g : Round) (r : Registration) (rest : List Registration) :
    Registry × Observation :=
  let event := a.events g.event
  let a := if r.listener.once then
    a.unregister event.type r.listener.callback r.listener.useCapture else a
  if event.immediatePropagationStopped then (a, .returned)
  else ({ a with rounds := { g with todo := rest, invoked := g.invoked ++ [r] } :: a.rounds },
    .invoked r.listener)

/-- The round `g`, inside the rounds of `a`, goes on with the registrations `todo`. -/
def turn (a : Registry) (g : Round) : List Registration → Registry × Observation
  | [] => (a, .returned)
  | r :: rest =>
    if r ∈ a.registrations ∧ r.listener.shouldFire (a.events g.event) = true then
      a.invoke g r rest
    else turn a g rest

def step (a : Registry) : Action → Except Fault (Registry × Observation)
  | .addEventListener type listener options =>
    match RegisteredEventListener.create listener options with
    | none => .error .badOptionalAccess
    | some r => .ok (a.register type r, .idle)
  | .removeEventListener type listener useCapture =>
    .ok (a.unregister type listener useCapture, .idle)
  | .removeAllEventListeners => .ok ({ a with registrations := [] }, .idle)
  | .fireEventListeners event =>
    if a.hasExecutionContext then
      let snapshot := a.ofType (a.events event).type
      .ok (a.turn ⟨event, snapshot, snapshot, []⟩ snapshot)
    else .ok (a, .returned)
  | .handlerReturned =>
    match a.rounds with
    | [] => .ok (a, .idle)
    | g :: gs => .ok (turn { a with rounds := gs } g g.todo)
  | .stopImmediatePropagation event =>
    .ok (a.updateEvent event fun e => { e with immediatePropagationStopped := true }, .idle)
  | .preventDefault _ => .ok (a, .idle)
  | .setEventPhase event phase onlyCapture onlyNonCapture =>
    .ok (a.updateEvent event fun e =>
      { e with
        eventPhase := phase
        fireOnlyCaptureListenersAtTarget := onlyCapture
        fireOnlyNonCaptureListenersAtTarget := onlyNonCapture }, .idle)
  | .setExecutionContext available => .ok ({ a with hasExecutionContext := available }, .idle)

end Registry

/-! ## What holds of every round -/

/-- A round has a part of its snapshot behind it, and has invoked a part of that, in order. -/
structure Round.Orderly (g : Round) : Prop where
  nodup : g.snapshot.Nodup
  invoked : ∃ past, g.snapshot = past ++ g.todo ∧ g.invoked.Sublist past

/-- No two registrations are the same. -/
structure Registry.Distinct (a : Registry) : Prop where
  stamps : a.registrations.Pairwise fun r r' => r.stamp ≠ r'.stamp
  fresh : ∀ r ∈ a.registrations, r.stamp < a.nextStamp
  listeners : a.registrations.Pairwise fun r r' =>
    r.type = r'.type → r.listener.equals r'.listener = false

/-- **The invariant of the abstract target.** -/
structure Registry.Orderly (a : Registry) : Prop extends a.Distinct where
  rounds : ∀ g ∈ a.rounds, g.Orderly
  old : ∀ g ∈ a.rounds, ∀ r ∈ g.snapshot, r.stamp < a.nextStamp

namespace Registry

variable {a a' : Registry}

theorem Distinct.nodup (h : a.Distinct) : a.registrations.Nodup :=
  h.stamps.imp fun hne he => hne (congrArg Registration.stamp he)

theorem equals_comm (r r' : RegisteredEventListener) : r.equals r' = r'.equals r := by
  simp only [RegisteredEventListener.equals, Bool.beq_comm]

theorem Distinct.register (h : a.Distinct) (type : AtomicString)
    (listener : RegisteredEventListener) : (a.register type listener).Distinct := by
  unfold Registry.register
  split
  · exact h
  · rename_i hany
    refine ⟨?_, ?_, ?_⟩
    · rw [List.pairwise_append]
      refine ⟨h.stamps, List.pairwise_singleton _ _, ?_⟩
      intro r hr r' hr'
      obtain rfl := List.mem_singleton.mp hr'
      exact Nat.ne_of_lt (h.fresh r hr)
    · intro r hr
      rcases List.mem_append.mp hr with hr | hr
      · exact Nat.lt_succ_of_lt (h.fresh r hr)
      · obtain rfl := List.mem_singleton.mp hr
        exact Nat.lt_succ_self _
    · rw [List.pairwise_append]
      refine ⟨h.listeners, List.pairwise_singleton _ _, ?_⟩
      intro r hr r' hr' htype
      obtain rfl := List.mem_singleton.mp hr'
      have hmem : r ∈ a.ofType type := List.mem_filter.mpr ⟨hr, by simpa using htype⟩
      rw [equals_comm]
      simpa using fun he => hany (List.any_eq_true.mpr ⟨r, hmem, he⟩)

theorem Distinct.unregister (h : a.Distinct) (type : AtomicString) (listener : ListenerId)
    (useCapture : Bool) : (a.unregister type listener useCapture).Distinct where
  stamps := h.stamps.filter _
  fresh := fun r hr => h.fresh r (List.mem_of_mem_filter hr)
  listeners := h.listeners.filter _

theorem nextStamp_register (a : Registry) (type : AtomicString)
    (listener : RegisteredEventListener) : a.nextStamp ≤ (a.register type listener).nextStamp := by
  unfold Registry.register
  split
  · exact Nat.le_refl _
  · exact Nat.le_succ _

theorem orderly_initial (events : EventId → Dispatching) (available : Bool) :
    (initial events available).Orderly :=
  ⟨⟨.nil, fun _ h => (by cases h), .nil⟩, fun _ h => (by cases h), fun _ h => (by cases h)⟩

/-- Invoking a registration keeps its round orderly. -/
theorem Orderly.invoke (h : a.Orderly) {g : Round} {past rest : List Registration}
    {r : Registration} (hg : g.snapshot.Nodup) (hold : ∀ r ∈ g.snapshot, r.stamp < a.nextStamp)
    (hs : g.snapshot = past ++ r :: rest) (hinv : g.invoked.Sublist past) :
    (a.invoke g r rest).1.Orderly := by
  unfold Registry.invoke
  simp only
  -- unregistering `r`, if it fires once, leaves the rounds alone
  generalize hb : (if r.listener.once = true then a.unregister (a.events g.event).type
    r.listener.callback r.listener.useCapture else a) = b
  have hb' : b.Orderly ∧ b.nextStamp = a.nextStamp := by
    rw [← hb]
    split
    · exact ⟨⟨h.toDistinct.unregister _ _ _, h.rounds, h.old⟩, rfl⟩
    · exact ⟨h, rfl⟩
  obtain ⟨hord, hstamp⟩ := hb'
  split
  · exact hord
  · refine ⟨⟨hord.stamps, hord.fresh, hord.listeners⟩, ?_, ?_⟩
    · intro g' hg'
      rcases List.mem_cons.mp hg' with rfl | hg'
      · refine ⟨hg, past ++ [r], by simpa using hs, ?_⟩
        exact hinv.append (List.Sublist.refl _)
      · exact hord.rounds g' hg'
    · intro g' hg'
      rcases List.mem_cons.mp hg' with rfl | hg'
      · intro r' hr'
        rw [hstamp]
        exact hold r' hr'
      · exact hord.old g' hg'

/-- The turns of an orderly round keep it orderly. -/
theorem Orderly.turn (h : a.Orderly) {g : Round} {past : List Registration}
    (hg : g.snapshot.Nodup) (hold : ∀ r ∈ g.snapshot, r.stamp < a.nextStamp)
    {todo : List Registration} (hs : g.snapshot = past ++ todo) (hinv : g.invoked.Sublist past) :
    (a.turn g todo).1.Orderly := by
  induction todo generalizing past with
  | nil => exact h
  | cons r rest ih =>
    unfold Registry.turn
    split
    · exact h.invoke hg hold hs hinv
    · have hs' : g.snapshot = (past ++ [r]) ++ rest := by simpa using hs
      exact ih hs' (hinv.trans (List.sublist_append_left past [r]))

/-- **One action keeps every round orderly.** -/
theorem orderly_step {c : Action} {o : Observation} (h : a.Orderly)
    (hstep : a.step c = .ok (a', o)) : a'.Orderly := by
  have hsame {b : Registry} (hr : b.registrations = a.registrations)
      (hn : b.nextStamp = a.nextStamp) (hg : b.rounds = a.rounds) : b.Orderly :=
    ⟨⟨by rw [hr]; exact h.stamps, by rw [hr, hn]; exact h.fresh, by rw [hr]; exact h.listeners⟩,
      by rw [hg]; exact h.rounds, by rw [hg, hn]; exact h.old⟩
  cases c with
  | addEventListener type listener options =>
    simp only [step] at hstep
    split at hstep
    · cases hstep
    · rename_i r _
      cases hstep
      have hrounds : (a.register type r).rounds = a.rounds := by
        unfold Registry.register
        split <;> rfl
      refine ⟨h.toDistinct.register _ _, by rw [hrounds]; exact h.rounds, ?_⟩
      rw [hrounds]
      exact fun g hg r' hr' => Nat.lt_of_lt_of_le (h.old g hg r' hr') (nextStamp_register a type r)
  | removeEventListener type listener useCapture =>
    cases hstep
    exact ⟨h.toDistinct.unregister _ _ _, h.rounds, h.old⟩
  | removeAllEventListeners =>
    cases hstep
    exact ⟨⟨.nil, fun _ hr => (by cases hr), .nil⟩, h.rounds, h.old⟩
  | fireEventListeners event =>
    simp only [step] at hstep
    split at hstep
    · have hmem : ∀ r ∈ a.ofType (a.events event).type, r ∈ a.registrations := fun r hr =>
        List.mem_of_mem_filter hr
      have hs : a.ofType (a.events event).type = [] ++ a.ofType (a.events event).type := rfl
      have hturn := h.turn (g := ⟨event, a.ofType (a.events event).type,
        a.ofType (a.events event).type, []⟩) (h.nodup.filter _)
        (fun r hr => h.fresh r (hmem r hr)) hs (List.Sublist.refl [])
      rwa [Except.ok.inj hstep] at hturn
    · cases hstep
      exact h
  | handlerReturned =>
    simp only [step] at hstep
    split at hstep
    · cases hstep
      exact h
    · rename_i g gs hrounds
      have hg : g ∈ a.rounds := by rw [hrounds]; exact List.mem_cons_self
      obtain ⟨hnd, past, hs, hinv⟩ := h.rounds g hg
      have hrest : ({ a with rounds := gs } : Registry).Orderly := by
        refine ⟨⟨h.stamps, h.fresh, h.listeners⟩, fun g' hg' => h.rounds g' ?_,
          fun g' hg' => h.old g' ?_⟩
        · rw [hrounds]; exact List.mem_cons_of_mem g hg'
        · rw [hrounds]; exact List.mem_cons_of_mem g hg'
      have hturn := hrest.turn hnd (h.old g hg) hs hinv
      rwa [Except.ok.inj hstep] at hturn
  | stopImmediatePropagation event => cases hstep; exact hsame rfl rfl rfl
  | preventDefault event => cases hstep; exact h
  | setEventPhase event phase onlyCapture onlyNonCapture => cases hstep; exact hsame rfl rfl rfl
  | setExecutionContext available => cases hstep; exact hsame rfl rfl rfl

/-- **Every round of every run is orderly.** -/
theorem run_orderly {cs : List Action} {os : List Observation} (h : a.Orderly)
    (hrun : Transition.run step a cs = .ok (a', os)) : a'.Orderly :=
  Transition.run_invariant (I := Orderly) (fun _ _ _ _ h hs => orderly_step h hs) h hrun

end Registry

end Blinkit.Events
