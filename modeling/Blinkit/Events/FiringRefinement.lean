import Mathlib.Data.List.Pairwise
import Blinkit.Lib.Window
import Blinkit.Events.ListenerMap
import Blinkit.Events.SnapshotFiring

/-!
# `FireEventListeners` fires over a snapshot

The vector of a type holds the listeners of its registrations. What a firing has still to visit is
the window of the vector between its two indices, and that window is what the round has left of its
snapshot, without the registrations that have been removed since.

* `FiringRefines m a f g` — the firing `f` over the map `m` is at the same point as the round `g`.
* `Refines s a` — the map, the firings and the events of the target are those of the registry.

Principal results: `Refines.unregister` (the iterators are patched as they must be), `fireLoop_refines`
(the loop reads no index outside its vector and ends where the turns of the round end) and
`fireEventListeners_refines`.
-/

set_option autoImplicit false

namespace Blinkit.Events

open Function Window

variable {s s' : Target} {a : Registry} {f : Firing} {g : Round} {m m' : EventListenerMap}

/-- The type that a round fires for. -/
abbrev Registry.typeOf (a : Registry) (g : Round) : AtomicString := (a.events g.event).type

/-- The firing `f` is at the same point as the round `g`. -/
structure FiringRefines (m : EventListenerMap) (a : Registry) (f : Firing) (g : Round) : Prop where
  event : f.event = g.event
  index_le : f.i ≤ f.size
  size_le : f.size ≤ (a.ofType (a.typeOf g)).length
  todo : window (a.ofType (a.typeOf g)) f.i f.size = g.todo.filter (· ∈ a.registrations)
  /-- As long as there is something to visit, the vector exists. -/
  alive : 0 < f.size → ∃ e, m.find (a.typeOf g) = some e ∧ e.address = f.entry
  type : ∀ r ∈ g.todo, r.type = a.typeOf g
  old : ∀ r ∈ g.todo, r.stamp < a.nextStamp

/-- The map holds the registrations. -/
structure MapRefines (m : EventListenerMap) (a : Registry) : Prop where
  valid : m.Valid
  distinct : a.Distinct
  listeners : ∀ t, m.listenersOf t = (a.ofType t).map (·.listener)

/-- **The target is in the state of the registry.** -/
structure Refines (s : Target) (a : Registry) : Prop where
  context : s.hasExecutionContext = a.hasExecutionContext
  /-- What is registered is in the data of the target. -/
  data : s.hasEventTargetData = false → a.registrations = []
  map : MapRefines s.eventListenerMap a
  events : ∀ e, (s.events e).toDispatching = a.events e
  firings : List.Forall₂ (FiringRefines s.eventListenerMap a) s.firings a.rounds

theorem Registry.Distinct.congr {b : Registry} (h : a.Distinct)
    (hr : b.registrations = a.registrations) (hn : b.nextStamp = a.nextStamp) : b.Distinct :=
  ⟨by rw [hr]; exact h.stamps, by rw [hr, hn]; exact h.fresh, by rw [hr]; exact h.listeners⟩

theorem MapRefines.congr {b : Registry} (h : MapRefines m a)
    (hr : b.registrations = a.registrations) (hn : b.nextStamp = a.nextStamp) :
    MapRefines m b :=
  ⟨h.valid, h.distinct.congr hr hn, fun t => by
    rw [h.listeners, Registry.ofType, Registry.ofType, hr]⟩

theorem FiringRefines.congr {b : Registry} (h : FiringRefines m a f g)
    (hr : b.registrations = a.registrations) (hn : b.nextStamp = a.nextStamp)
    (he : ∀ e, (b.events e).type = (a.events e).type) : FiringRefines m b f g := by
  have htype : b.typeOf g = a.typeOf g := he g.event
  have hof : ∀ t, b.ofType t = a.ofType t := fun t => by rw [Registry.ofType, hr]; rfl
  refine ⟨h.event, h.index_le, ?_, ?_, ?_, ?_, ?_⟩
  · rw [htype, hof]
    exact h.size_le
  · rw [htype, hof, hr]
    exact h.todo
  · rw [htype]
    exact h.alive
  · rw [htype]
    exact h.type
  · rw [hn]
    exact h.old

/-- Another stack of rounds over the same registrations. -/
theorem Refines.reround {fs : List Firing} {gs : List Round} (h : Refines s a)
    (hfirings : List.Forall₂ (FiringRefines s.eventListenerMap a) fs gs) :
    Refines { s with firings := fs } { a with rounds := gs } where
  context := h.context
  data := h.data
  map := h.map.congr rfl rfl
  events := h.events
  firings := hfirings.imp fun _ _ hfg => hfg.congr rfl rfl fun _ => rfl

/-! ## Registering -/

theorem Registry.ofType_register_of_ne {type t : AtomicString} (h : t ≠ type)
    (listener : RegisteredEventListener) : (a.register type listener).ofType t = a.ofType t := by
  unfold Registry.register
  split
  · rfl
  · simp [Registry.ofType, Ne.symm h]

theorem Registry.register_eq (a : Registry) (type : AtomicString)
    (listener : RegisteredEventListener) :
    a.register type listener = a ∨ ∃ r, r.stamp = a.nextStamp ∧ a.register type listener =
      { a with registrations := a.registrations ++ [r], nextStamp := a.nextStamp + 1 } := by
  unfold Registry.register
  split
  · exact .inl rfl
  · exact .inr ⟨⟨a.nextStamp, type, listener⟩, rfl, rfl⟩

theorem Registry.any_equals (h : MapRefines m a) (type : AtomicString)
    (listener : RegisteredEventListener) :
    (m.listenersOf type).any listener.equals =
      (a.ofType type).any (listener.equals ·.listener) := by
  rw [h.listeners, List.any_map]
  rfl

theorem MapRefines.register (h : MapRefines m a) (type : AtomicString)
    (listener : RegisteredEventListener) :
    MapRefines (m.add type listener) (a.register type listener) where
  valid := h.valid.add type listener
  distinct := h.distinct.register type listener
  listeners t := by
    by_cases ht : t = type
    · subst ht
      rw [EventListenerMap.listenersOf_add_self, addListenerToVector, Registry.any_equals h]
      unfold Registry.register
      split
      · exact h.listeners t
      · simp [Registry.ofType, h.listeners]
    · rw [EventListenerMap.listenersOf_add_of_ne ht, Registry.ofType_register_of_ne ht]
      exact h.listeners t

/-- A vector that exists before a registration exists afterwards. -/
theorem find_add_address {type t : AtomicString} {e : Entry} (listener : RegisteredEventListener)
    (hf : m.find t = some e) : ∃ e', (m.add type listener).find t = some e' ∧
      e'.address = e.address := by
  by_cases ht : t = type
  · subst ht
    refine ⟨{ e with listeners := addListenerToVector e.listeners listener }, ?_, rfl⟩
    rw [EventListenerMap.find_add_self, hf]
  · exact ⟨e, by rw [EventListenerMap.find_add_of_ne ht, hf], rfl⟩

theorem FiringRefines.register (h : FiringRefines m a f g) (type : AtomicString)
    (listener : RegisteredEventListener) :
    FiringRefines (m.add type listener) (a.register type listener) f g := by
  have halive : 0 < f.size → ∃ e, (m.add type listener).find (a.typeOf g) = some e ∧
      e.address = f.entry := by
    intro hpos
    obtain ⟨e, hf, he⟩ := h.alive hpos
    obtain ⟨e', hf', he'⟩ := find_add_address listener hf
    exact ⟨e', hf', he'.trans he⟩
  rcases a.register_eq type listener with heq | ⟨r, hstamp, heq⟩
  · rw [heq]
    exact ⟨h.event, h.index_le, h.size_le, h.todo, halive, h.type, h.old⟩
  · rw [heq]
    have hvec : (a.registrations ++ [r]).filter (·.type = a.typeOf g) =
        a.ofType (a.typeOf g) ++ [r].filter (·.type = a.typeOf g) := List.filter_append ..
    refine ⟨h.event, h.index_le, ?_, ?_, halive, h.type, fun r hr => Nat.lt_succ_of_lt (h.old r hr)⟩
    · show f.size ≤ ((a.registrations ++ [r]).filter (·.type = a.typeOf g)).length
      rw [hvec, List.length_append]
      exact Nat.le_add_right_of_le h.size_le
    · show window ((a.registrations ++ [r]).filter (·.type = a.typeOf g)) f.i f.size = _
      rw [hvec, window_append _ _ h.size_le, h.todo]
      -- what has just been registered is in no snapshot
      refine List.filter_congr fun r' hr' => ?_
      have hne : r' ≠ r := by
        rintro rfl
        exact Nat.ne_of_lt (h.old r' hr') hstamp
      simp [hne]

theorem Refines.register (h : Refines s a) (type : AtomicString)
    (listener : RegisteredEventListener) :
    Refines { s with
      hasEventTargetData := true, eventListenerMap := s.eventListenerMap.add type listener }
      (a.register type listener) := by
  have hother : (a.register type listener).hasExecutionContext = a.hasExecutionContext ∧
      (a.register type listener).events = a.events ∧
      (a.register type listener).rounds = a.rounds := by
    unfold Registry.register
    split <;> exact ⟨rfl, rfl, rfl⟩
  refine ⟨h.context.trans hother.1.symm, (nomatch ·), h.map.register type listener, ?_, ?_⟩
  · rw [hother.2.1]
    exact h.events
  · rw [hother.2.2]
    exact h.firings.imp fun f g hfg => hfg.register type listener

/-! ## Removing -/

/-- Whether a registration is the one that is removed. -/
def Registration.isRemoved (type : AtomicString) (listener : ListenerId) (useCapture : Bool)
    (r : Registration) : Prop :=
  r.type = type ∧ r.listener.matchesListener listener useCapture = true

theorem matches_equals {r r' : RegisteredEventListener} {listener : ListenerId} {useCapture : Bool}
    (h : r.matchesListener listener useCapture = true)
    (h' : r'.matchesListener listener useCapture = true) : r.equals r' = true := by
  simp only [RegisteredEventListener.matchesListener, Bool.and_eq_true, beq_iff_eq] at h h'
  simp [RegisteredEventListener.equals, h.1, h.2, h'.1, h'.2]

/-- At most one registration is removed. -/
theorem Registry.Distinct.removed_unique (h : a.Distinct) {type : AtomicString}
    {listener : ListenerId} {useCapture : Bool} {r r' : Registration} (hr : r ∈ a.registrations)
    (hr' : r' ∈ a.registrations) (hrem : r.isRemoved type listener useCapture)
    (hrem' : r'.isRemoved type listener useCapture) : r = r' := by
  by_contra hne
  have hsymm : Std.Symm fun r r' : Registration =>
      r.type = r'.type → r.listener.equals r'.listener = false :=
    ⟨fun _ _ hxy htype => (Registry.equals_comm ..).trans (hxy htype.symm)⟩
  have hpair := h.listeners.forall hr hr' hne (hrem.1.trans hrem'.1.symm)
  rw [matches_equals hrem.2 hrem'.2] at hpair
  cases hpair

/-- Removing finds nothing, or it finds one registration. -/
theorem MapRefines.remove_cases (h : MapRefines m a) (type : AtomicString) (listener : ListenerId)
    (useCapture : Bool) :
    ((m.remove type listener useCapture).2 = none ∧
      a.unregister type listener useCapture = a) ∨
    ∃ l₁ c l₂, (m.remove type listener useCapture).2 = some l₁.length ∧
      a.ofType type = l₁ ++ c :: l₂ ∧ c ∉ l₁ ∧ c ∉ l₂ ∧
      (a.unregister type listener useCapture).registrations =
        a.registrations.filter (· ≠ c) := by
  rw [EventListenerMap.remove_index, h.listeners, List.findIdx?_map]
  cases hk : (a.ofType type).findIdx?
      ((fun r => r.matchesListener listener useCapture) ∘ fun r => r.listener) with
  | none =>
    refine .inl ⟨rfl, ?_⟩
    have hkeep : (a.unregister type listener useCapture).registrations = a.registrations := by
      refine List.filter_eq_self.mpr fun r hr => ?_
      rw [decide_eq_true_iff]
      rintro ⟨htype, hmatch⟩
      have hnone := List.findIdx?_eq_none_iff.mp hk r
        (List.mem_filter.mpr ⟨hr, by simpa using htype⟩)
      simp only [comp_apply] at hnone
      rw [hmatch] at hnone
      cases hnone
    unfold Registry.unregister at hkeep ⊢
    simp only at hkeep
    rw [hkeep]
  | some k =>
    obtain ⟨hlt, hmatch, -⟩ := List.findIdx?_eq_some_iff_getElem.mp hk
    have hsplit : a.ofType type = (a.ofType type).take k ++ (a.ofType type)[k] ::
        (a.ofType type).drop (k + 1) := by
      rw [← List.drop_eq_getElem_cons hlt, List.take_append_drop]
    have hnd : ((a.ofType type).take k ++ (a.ofType type)[k] ::
        (a.ofType type).drop (k + 1)).Nodup := hsplit ▸ h.distinct.nodup.filter _
    have hmem := List.mem_filter.mp (List.getElem_mem hlt)
    have hrem : Registration.isRemoved type listener useCapture (a.ofType type)[k] :=
      ⟨by simpa using hmem.2, hmatch⟩
    refine .inr ⟨_, _, _, ?_, hsplit, ?_, ?_, ?_⟩
    · rw [List.length_take, Nat.min_eq_left (Nat.le_of_lt hlt)]
    · intro hc
      exact (List.nodup_append.mp hnd).2.2 _ hc _ List.mem_cons_self rfl
    · exact (List.nodup_cons.mp (List.nodup_append.mp hnd).2.1).1
    · refine List.filter_congr fun r hr => ?_
      rw [decide_eq_decide, not_iff_not]
      constructor
      · exact fun hr' => h.distinct.removed_unique hr hmem.1 hr' hrem
      · rintro rfl
        exact hrem

theorem ofType_of_filter {b : Registry} {c : Registration}
    (hb : b.registrations = a.registrations.filter (· ≠ c)) (t : AtomicString) :
    b.ofType t = (a.ofType t).filter (· ≠ c) := by
  rw [Registry.ofType, hb, Registry.ofType, List.filter_filter, List.filter_filter]
  exact List.filter_congr fun r _ => Bool.and_comm ..

/-- The removal of a registration of another type leaves the vector as it is. -/
theorem ofType_unregister_of_ne {type t : AtomicString} (h : t ≠ type) (listener : ListenerId)
    (useCapture : Bool) : (a.unregister type listener useCapture).ofType t = a.ofType t := by
  unfold Registry.unregister Registry.ofType
  rw [List.filter_filter]
  refine List.filter_congr fun r _ => ?_
  by_cases ht : r.type = t
  · simp [ht, h]
  · simp [ht]

theorem removed_eq (h : MapRefines m a) (type : AtomicString) (listener : ListenerId)
    (useCapture : Bool) :
    EventListenerMap.removed listener useCapture (m.listenersOf type) =
      ((a.unregister type listener useCapture).ofType type).map (·.listener) := by
  have hindex := EventListenerMap.remove_index m type listener useCapture
  unfold EventListenerMap.removed
  rw [← hindex]
  rcases h.remove_cases type listener useCapture with ⟨hnone, heq⟩ | ⟨l₁, c, l₂, hsome, hs, h₁, h₂, hb⟩
  · rw [hnone, heq]
    exact h.listeners type
  · rw [hsome, ofType_of_filter hb, hs, filter_ne_middle h₁ h₂, h.listeners, hs]
    simp only [List.map_append, List.map_cons]
    rw [List.eraseIdx_append_of_length_le (by simp)]
    simp

theorem MapRefines.unregister (h : MapRefines m a) (type : AtomicString) (listener : ListenerId)
    (useCapture : Bool) :
    MapRefines (m.remove type listener useCapture).1 (a.unregister type listener useCapture) where
  valid := h.valid.remove type listener useCapture
  distinct := h.distinct.unregister type listener useCapture
  listeners t := by
    by_cases ht : t = type
    · subst ht
      rw [h.valid.listenersOf_remove_self, removed_eq h]
    · rw [EventListenerMap.listenersOf_remove_of_ne ht, ofType_unregister_of_ne ht]
      exact h.listeners t

/-- A vector that is not empty after a removal has not been destroyed. -/
theorem MapRefines.find_remove (h : MapRefines m a) {type t : AtomicString} {listener : ListenerId}
    {useCapture : Bool} {e : Entry} (hf : m.find t = some e)
    (hne : (a.unregister type listener useCapture).ofType t ≠ []) :
    ∃ e', (m.remove type listener useCapture).1.find t = some e' ∧ e'.address = e.address := by
  by_cases ht : t = type
  · subst ht
    rw [h.valid.find_remove_self, hf, Option.bind_some]
    have hv : ¬ (EventListenerMap.removed listener useCapture e.listeners).isEmpty = true := by
      have he : m.listenersOf t = e.listeners := by simp [EventListenerMap.listenersOf, hf]
      rw [← he, removed_eq h, List.isEmpty_iff, List.map_eq_nil_iff]
      exact hne
    rw [if_neg hv]
    exact ⟨_, rfl, rfl⟩
  · exact ⟨e, by rw [EventListenerMap.find_remove_of_ne ht, hf], rfl⟩

theorem Firing.patch_eq (f : Firing) (k : Nat) :
    f.patch k = { f with i := (shift k f.i f.size).1, size := (shift k f.i f.size).2 } := by
  unfold Firing.patch shift
  by_cases hk : f.size ≤ k <;> simp [hk]

/-- **The patch of the iterator.** The registration `c` is removed; when it is of the type of the
round, the firing has been patched for it. -/
theorem FiringRefines.unregister (hm : MapRefines m a) (h : FiringRefines m a f g)
    {type : AtomicString}
    {listener : ListenerId} {useCapture : Bool} {l₁ l₂ : List Registration} {c : Registration}
    (hs : a.ofType type = l₁ ++ c :: l₂) (h₁ : c ∉ l₁) (h₂ : c ∉ l₂)
    (hb : (a.unregister type listener useCapture).registrations =
      a.registrations.filter (· ≠ c)) :
    FiringRefines (m.remove type listener useCapture).1 (a.unregister type listener useCapture)
      (if type ≠ a.typeOf g then f else f.patch l₁.length) g := by
  have htodo : g.todo.filter (· ∈ (a.unregister type listener useCapture).registrations) =
      (g.todo.filter (· ∈ a.registrations)).filter (· ≠ c) := by
    rw [hb, List.filter_filter]
    refine List.filter_congr fun r _ => ?_
    rw [← Bool.decide_and, decide_eq_decide, List.mem_filter]
    simp [and_comm]
  by_cases ht : a.typeOf g = type
  · rw [if_neg (by simp [ht]), Firing.patch_eq]
    have hs' : a.ofType (a.typeOf g) = l₁ ++ c :: l₂ := by rw [ht]; exact hs
    have hafter : (a.unregister type listener useCapture).ofType (a.typeOf g) = l₁ ++ l₂ := by
      rw [ofType_of_filter hb, hs', filter_ne_middle h₁ h₂]
    have hsize := h.size_le
    rw [hs'] at hsize
    have hsize' : (shift l₁.length f.i f.size).2 ≤ (l₁ ++ l₂).length := shift_le_length hsize
    refine ⟨h.event, shift_le h.index_le, ?_, ?_, ?_, h.type, h.old⟩
    · show (shift l₁.length f.i f.size).2 ≤
        ((a.unregister type listener useCapture).ofType (a.typeOf g)).length
      rw [hafter]
      exact hsize'
    · show window ((a.unregister type listener useCapture).ofType (a.typeOf g)) _ _ = _
      rw [hafter, htodo, ← h.todo, hs']
      exact window_erase h₁ h₂ f.i f.size
    · intro hpos
      have hpos' : 0 < (shift l₁.length f.i f.size).2 := hpos
      have hfpos : 0 < f.size := by
        unfold shift at hpos'
        split at hpos' <;> simp only at hpos' <;> omega
      obtain ⟨e, hf, he⟩ := h.alive hfpos
      have hne : (a.unregister type listener useCapture).ofType (a.typeOf g) ≠ [] := by
        rw [hafter]
        intro hnil
        rw [hnil, List.length_nil] at hsize'
        omega
      obtain ⟨e', hf', he'⟩ := hm.find_remove hf hne
      exact ⟨e', hf', he'.trans he⟩
  · -- the round fires for another type, and `c` is not in its snapshot
    have hsame := ofType_unregister_of_ne (a := a) ht listener useCapture
    have hc : c ∉ g.todo := by
      intro hc
      have htype : c.type = type := by
        have hmem : c ∈ a.ofType type := by rw [hs]; simp
        simpa using (List.mem_filter.mp hmem).2
      exact ht ((h.type c hc).symm.trans htype)
    rw [if_pos (Ne.symm ht)]
    refine ⟨h.event, h.index_le, ?_, ?_, ?_, h.type, h.old⟩
    · show f.size ≤ ((a.unregister type listener useCapture).ofType (a.typeOf g)).length
      rw [hsame]
      exact h.size_le
    · show window ((a.unregister type listener useCapture).ofType (a.typeOf g)) _ _ = _
      rw [hsame, htodo, filter_ne_of_not_mem fun hmem => hc (List.mem_of_mem_filter hmem)]
      exact h.todo
    · intro hpos
      obtain ⟨e, hf, he⟩ := h.alive hpos
      refine ⟨e, ?_, he⟩
      show (m.remove type listener useCapture).1.find (a.typeOf g) = some e
      rw [EventListenerMap.find_remove_of_ne ht]
      exact hf

theorem Refines.unregister (h : Refines s a) (type : AtomicString) (listener : ListenerId)
    (useCapture : Bool) :
    Refines (s.removeEventListenerInternal type listener useCapture)
      (a.unregister type listener useCapture) := by
  have hmap := h.map.unregister type listener useCapture
  unfold Target.removeEventListenerInternal
  rcases h.map.remove_cases type listener useCapture with
    ⟨hnone, heq⟩ | ⟨l₁, c, l₂, hsome, hs, h₁, h₂, hb⟩
  · -- nothing matches; at most an entry without listeners goes
    simp only [hnone]
    rw [heq] at hmap ⊢
    refine ⟨h.context, h.data, hmap, h.events, h.firings.imp fun f g hfg => ?_⟩
    refine { hfg with alive := fun hpos => ?_ }
    obtain ⟨e, hf, he⟩ := hfg.alive hpos
    have hne : (a.unregister type listener useCapture).ofType (a.typeOf g) ≠ [] := by
      rw [heq]
      intro hnil
      have hsize := hfg.size_le
      rw [hnil, List.length_nil] at hsize
      omega
    obtain ⟨e', hf', he'⟩ := h.map.find_remove hf hne
    exact ⟨e', hf', he'.trans he⟩
  · simp only [hsome]
    refine ⟨h.context, fun hdata => ?_, hmap, h.events, ?_⟩
    · rw [hb, h.data hdata]
      rfl
    show List.Forall₂ _ (s.firings.map _) a.rounds
    rw [List.forall₂_map_left_iff]
    refine h.firings.imp fun f g hfg => ?_
    have htype : (s.events f.event).type = a.typeOf g := by
      rw [Registry.typeOf, ← h.events, hfg.event]
    rw [htype]
    exact hfg.unregister h.map hs h₁ h₂ hb

theorem Refines.clear (h : Refines s a) :
    Refines s.removeAllEventListeners { a with registrations := [] } where
  context := h.context
  data _ := rfl
  map :=
    { valid := EventListenerMap.valid_clear _
      distinct := ⟨.nil, fun _ hr => (by cases hr), .nil⟩
      listeners := fun _ => rfl }
  events := h.events
  firings := by
    show List.Forall₂ _ (s.firings.map _) a.rounds
    rw [List.forall₂_map_left_iff]
    refine h.firings.imp fun f g hfg => ?_
    exact ⟨hfg.event, Nat.le_refl 0, Nat.zero_le _, by simp [window],
      fun hpos => absurd hpos (Nat.lt_irrefl 0), hfg.type, hfg.old⟩

/-! ## Events -/

/-- An update of an event that leaves its type. -/
theorem Refines.updateEvent (h : Refines s a) (event : EventId) {u : Event → Event}
    {v : Dispatching → Dispatching} (hu : ∀ e, (u e).toDispatching = v e.toDispatching)
    (hv : ∀ d, (v d).type = d.type) :
    Refines (s.updateEvent event u) (a.updateEvent event v) := by
  have hevents : ∀ e, ((s.updateEvent event u).events e).toDispatching =
      (a.updateEvent event v).events e := by
    intro e
    unfold Target.updateEvent Registry.updateEvent
    by_cases he : e = event
    · subst he
      simp only [update_self, hu, h.events]
    · simp only [update_of_ne he, h.events]
  refine ⟨h.context, h.data, h.map.congr rfl rfl, hevents, ?_⟩
  refine h.firings.imp fun f g hfg => hfg.congr rfl rfl fun e => ?_
  unfold Registry.updateEvent
  by_cases he : e = event
  · subst he
    simp only [update_self, hv]
  · simp only [update_of_ne he]

/-- An update that the registry does not see. -/
theorem Refines.hiddenUpdate (h : Refines s a) (event : EventId) {u : Event → Event}
    (hu : ∀ e, (u e).toDispatching = e.toDispatching) : Refines (s.updateEvent event u) a where
  context := h.context
  data := h.data
  map := h.map
  firings := h.firings
  events e := by
    unfold Target.updateEvent
    by_cases he : e = event
    · subst he
      simp only [update_self, hu, h.events]
    · simp only [update_of_ne he, h.events]

/-! ## The loop -/

/-- What is seen of an action. -/
def Output.observed : Output → Observation
  | .idle => .idle
  | .invoked r => .invoked r
  | .returned _ => .returned

/-- The end of a firing. -/
theorem Refines.endFiring {gs : List Round} (h : Refines s { a with rounds := g :: gs })
    (f : Firing) : Refines (s.endFiring f).1 { a with rounds := gs } ∧
      (s.endFiring f).2.observed = .returned := by
  obtain ⟨f', fs', -, hrest, heq⟩ := List.forall₂_cons_right_iff.mp h.firings
  have hpop : Refines { s with firings := s.firings.tail } { a with rounds := gs } := by
    rw [heq, List.tail_cons]
    exact h.reround hrest
  refine ⟨?_, rfl⟩
  unfold Target.endFiring
  simp only
  split
  · exact hpop.hiddenUpdate f.event fun _ => rfl
  · exact hpop

/-- What a round has invoked, and what its snapshot was, does not show. -/
theorem FiringRefines.sameTodo (h : FiringRefines m a f g) (g' : Round)
    (he : g'.event = g.event) (ht : g'.todo = g.todo) (fired : Bool) :
    FiringRefines m a { f with firedListener := fired } g' := by
  have htype : a.typeOf g' = a.typeOf g := by rw [Registry.typeOf, he]
  refine ⟨h.event.trans he.symm, h.index_le, ?_, ?_, ?_, ?_, ?_⟩
  · rw [htype]
    exact h.size_le
  · rw [htype, ht]
    exact h.todo
  · rw [htype]
    exact h.alive
  · rw [htype, ht]
    exact h.type
  · rw [ht]
    exact h.old

/-- The registrations in front of the next one that is still registered are passed over. -/
theorem FiringRefines.skip {r : Registration} {rest : List Registration}
    (h : FiringRefines m a f { g with todo := r :: rest }) (hr : r ∉ a.registrations) :
    FiringRefines m a f { g with todo := rest } where
  event := h.event
  index_le := h.index_le
  size_le := h.size_le
  todo := by
    have htodo := h.todo
    rwa [List.filter_cons_of_neg (by simpa using hr)] at htodo
  alive := h.alive
  type := fun r' hr' => h.type r' (List.mem_cons_of_mem r hr')
  old := fun r' hr' => h.old r' (List.mem_cons_of_mem r hr')

/-- The next registration that is still registered stands at the index of the loop. -/
theorem FiringRefines.next (hm : MapRefines m a) {r : Registration} {rest : List Registration}
    (h : FiringRefines m a f { g with todo := r :: rest }) (hr : r ∈ a.registrations) :
    f.i < f.size ∧ (∃ v, m.deref f.entry = some v ∧ v[f.i]? = some r.listener) ∧
      FiringRefines m a { f with i := f.i + 1 } { g with todo := rest } := by
  have htodo := h.todo
  rw [List.filter_cons_of_pos (by simpa using hr)] at htodo
  have hlt : f.i < f.size := by
    by_contra hnot
    rw [window_nil _ (Nat.not_lt.mp hnot)] at htodo
    cases htodo
  obtain ⟨x, hx, hcons⟩ := window_cons _ hlt h.size_le
  rw [hcons, List.cons.injEq] at htodo
  obtain ⟨rfl, hrest⟩ := htodo
  obtain ⟨e, hf, he⟩ := h.alive (Nat.zero_lt_of_lt hlt)
  have hlisteners : e.listeners = (a.ofType (a.typeOf g)).map (·.listener) := by
    rw [← hm.listeners, EventListenerMap.listenersOf]
    rw [show m.find (a.typeOf g) = some e from hf]
  refine ⟨hlt, ⟨e.listeners, ?_, ?_⟩, ⟨h.event, hlt, h.size_le, hrest, h.alive, ?_, ?_⟩⟩
  · rw [← he]
    exact hm.valid.deref_find hf
  · rw [hlisteners, List.getElem?_map, hx, Option.map_some]
  · exact fun r' hr' => h.type r' (List.mem_cons_of_mem x hr')
  · exact fun r' hr' => h.old r' (List.mem_cons_of_mem x hr')

/-- The body of the loop does what the turn of the registration does. -/
theorem Refines.fireListener {r : Registration} {rest : List Registration}
    (h : Refines s { a with rounds := { g with todo := rest } :: a.rounds })
    (hf : f.event = g.event) :
    Refines (s.fireListener f r.listener).1 (a.invoke g r rest).1 ∧
      (s.fireListener f r.listener).2.observed = (a.invoke g r rest).2 := by
  have hevent : (s.events f.event).toDispatching = a.events g.event := by
    rw [hf]
    exact h.events g.event
  unfold Target.fireListener Registry.invoke
  simp only [hevent]
  -- the listener leaves the map if it fires only once
  generalize hs₂ : (if r.listener.once = true then s.removeEventListenerInternal
    (a.events g.event).type r.listener.callback r.listener.useCapture else s) = s₂
  generalize hb : (if r.listener.once = true then a.unregister (a.events g.event).type
    r.listener.callback r.listener.useCapture else a) = b
  have h₂ : Refines s₂ { b with rounds := { g with todo := rest } :: a.rounds } ∧
      b.rounds = a.rounds := by
    rw [← hs₂, ← hb]
    split
    · exact ⟨h.unregister _ _ _, rfl⟩
    · exact ⟨h, rfl⟩
  obtain ⟨h₂, hbrounds⟩ := h₂
  by_cases hstop : (a.events g.event).immediatePropagationStopped = true
  · simp only [if_pos hstop]
    rw [← hbrounds] at h₂
    exact h₂.endFiring f
  · simp only [if_neg hstop]
    refine ⟨Refines.hiddenUpdate ?_ _ fun _ => rfl, rfl⟩
    rw [hbrounds]
    obtain ⟨f₂, fs₂, hf₂, hfs₂, heq⟩ := List.forall₂_cons_right_iff.mp h₂.firings
    have hfirings : List.Forall₂ (FiringRefines s₂.eventListenerMap
        { b with rounds := { g with todo := rest } :: a.rounds }) s₂.firings
        ({ g with todo := rest, invoked := g.invoked ++ [r] } :: a.rounds) := by
      rw [heq]
      exact .cons (hf₂.sameTodo { g with todo := rest, invoked := g.invoked ++ [r] } rfl rfl
        f₂.firedListener) hfs₂
    exact h₂.reround hfirings

/-- **The loop of `FireEventListeners` takes the turns of the round.** It reads no vector that has
been destroyed and no index outside a vector, and its rounds suffice. -/
theorem fireLoop_refines {rounds : Nat} {fs : List Firing} {todo : List Registration}
    (h : Refines s { a with rounds := { g with todo := todo } :: a.rounds })
    (hs : s.firings = f :: fs) (hrounds : f.size - f.i < rounds) :
    ∃ s' o, Target.fireLoop rounds s = .ok (s', o) ∧ Refines s' (a.turn g todo).1 ∧
      o.observed = (a.turn g todo).2 := by
  induction todo generalizing s f rounds with
  | nil =>
    obtain ⟨rounds, rfl⟩ : ∃ k, rounds = k + 1 := ⟨rounds - 1, by omega⟩
    have hfirings := h.firings
    rw [hs] at hfirings
    obtain ⟨hfg, -⟩ := List.forall₂_cons.mp hfirings
    have hge : ¬ f.i < f.size := by
      intro hlt
      obtain ⟨x, -, hcons⟩ := window_cons _ hlt hfg.size_le
      have htodo := hfg.todo
      rw [hcons] at htodo
      cases htodo
    obtain ⟨hend, hobs⟩ := h.endFiring f
    refine ⟨_, _, ?_, hend, hobs⟩
    unfold Target.fireLoop
    rw [hs]
    simp only [if_neg hge]
  | cons r rest ih =>
    have hfirings := h.firings
    rw [hs] at hfirings
    obtain ⟨hfg, hrest⟩ := List.forall₂_cons.mp hfirings
    unfold Registry.turn
    by_cases hr : r ∈ a.registrations
    · obtain ⟨rounds, rfl⟩ : ∃ k, rounds = k + 1 := ⟨rounds - 1, by omega⟩
      obtain ⟨hlt, ⟨v, hderef, hget⟩, hnext⟩ := hfg.next h.map hr
      have hevent : (s.events f.event).toDispatching = a.events g.event := by
        rw [hfg.event]
        exact h.events g.event
      -- the state in which the index has been moved past `r`
      have h₁ : Refines { s with firings := { f with i := f.i + 1 } :: fs }
          { a with rounds := { g with todo := rest } :: a.rounds } :=
        h.reround (List.forall₂_cons.mpr ⟨hnext, hrest⟩)
      unfold Target.fireLoop
      rw [hs]
      simp only [if_pos hlt, hderef, hget, hevent]
      by_cases hfire : r.listener.shouldFire (a.events g.event) = true
      · have hdue : r ∈ a.registrations ∧ r.listener.shouldFire (a.events g.event) = true :=
          ⟨hr, hfire⟩
        obtain ⟨href, hobs⟩ := h₁.fireListener (r := r) hfg.event
        simp only [if_pos hdue]
        simp only [hfire, Bool.not_true, Bool.false_eq_true, if_false]
        exact ⟨_, _, congrArg Except.ok (Prod.eta _).symm, href, hobs⟩
      · have hnot : ¬ (r ∈ a.registrations ∧ r.listener.shouldFire (a.events g.event) = true) :=
          fun hand => hfire hand.2
        have hfalse : r.listener.shouldFire (a.events g.event) = false := by simpa using hfire
        simp only [if_neg hnot]
        simp only [hfalse, Bool.not_false, if_true]
        exact ih h₁ rfl (by show f.size - (f.i + 1) < rounds; omega)
    · have hnot : ¬ (r ∈ a.registrations ∧ r.listener.shouldFire (a.events g.event) = true) :=
        fun hand => hr hand.1
      simp only [if_neg hnot]
      have h₁ : Refines { s with firings := s.firings }
          { a with rounds := { g with todo := rest } :: a.rounds } := by
        refine h.reround ?_
        rw [hs]
        exact List.forall₂_cons.mpr ⟨hfg.skip hr, hrest⟩
      exact ih h₁ hs hrounds

/-! ## The actions -/

theorem Refines.fireEventListeners (h : Refines s a) (event : EventId) :
    Transition.Agree Refines Output.observed (s.fireEventListeners event)
      (a.step (.fireEventListeners event)) := by
  have hevent := h.events event
  have htype : (s.events event).type = (a.events event).type := by rw [← hevent]
  unfold Target.fireEventListeners Registry.step
  by_cases hdata : s.hasEventTargetData = true
  swap
  · -- nothing is registered
    have hnil : a.ofType (a.events event).type = [] := by
      rw [Registry.ofType, h.data (by simpa using hdata)]
      rfl
    rw [if_neg hdata]
    simp only [hnil]
    split
    · exact ⟨h, rfl⟩
    · exact ⟨h, rfl⟩
  rw [if_pos hdata]
  simp only
  cases hf : s.eventListenerMap.find (s.events event).type with
  | none =>
    -- no entry: the snapshot is empty
    have hnil : a.ofType (a.events event).type = [] := by
      rw [← List.map_eq_nil_iff (f := fun r => r.listener), ← h.map.listeners,
        EventListenerMap.listenersOf, ← htype, hf]
    simp only [hnil]
    split
    · exact ⟨h, rfl⟩
    · exact ⟨h, rfl⟩
  | some e =>
    simp only
    by_cases hc : a.hasExecutionContext = true
    · rw [if_pos (h.context.trans hc), if_pos hc]
      have hlen : e.listeners.length = (a.ofType (a.events event).type).length := by
        have hl := h.map.listeners (a.events event).type
        rw [EventListenerMap.listenersOf, ← htype, hf] at hl
        simp only at hl
        rw [hl, List.length_map, htype]
      have hfiring : FiringRefines s.eventListenerMap a
          ⟨event, e.address, 0, e.listeners.length, false⟩
          ⟨event, a.ofType (a.events event).type, a.ofType (a.events event).type, []⟩ := by
        have hmem : ∀ r ∈ a.ofType (a.events event).type, r ∈ a.registrations ∧
            r.type = (a.events event).type := fun r hr => by
          simpa using List.mem_filter.mp hr
        refine ⟨rfl, Nat.zero_le _, Nat.le_of_eq hlen, ?_, ?_, fun r hr => (hmem r hr).2,
          fun r hr => h.map.distinct.fresh r (hmem r hr).1⟩
        · rw [hlen, window_full]
          exact (List.filter_eq_self.mpr fun r hr => by simpa using (hmem r hr).1).symm
        · intro _
          refine ⟨e, ?_, rfl⟩
          show s.eventListenerMap.find (a.events event).type = some e
          rw [← htype]
          exact hf
      have hstart := h.reround (List.forall₂_cons.mpr ⟨hfiring, h.firings⟩)
      obtain ⟨s', o, hloop, href, hobs⟩ := fireLoop_refines (g := ⟨event,
        a.ofType (a.events event).type, a.ofType (a.events event).type, []⟩) hstart rfl
        (Nat.lt_succ_self _)
      refine Eq.subst (motive := fun x => Transition.Agree _ _ x _) hloop.symm ?_
      exact ⟨href, hobs⟩
    · have hc' : ¬ s.hasExecutionContext = true := fun hs => hc (h.context.symm.trans hs)
      rw [if_neg hc', if_neg hc]
      exact ⟨h, rfl⟩

theorem Refines.handlerReturned (h : Refines s a) :
    Transition.Agree Refines Output.observed s.handlerReturned (a.step .handlerReturned) := by
  unfold Target.handlerReturned Registry.step
  simp only
  have hfirings := h.firings
  cases hs : s.firings with
  | nil =>
    rw [hs] at hfirings
    have ha : a.rounds = [] := List.forall₂_nil_left_iff.mp hfirings
    rw [ha]
    exact ⟨h, rfl⟩
  | cons f fs =>
    rw [hs] at hfirings
    obtain ⟨g, gs, hfg, hrest, ha⟩ := List.forall₂_cons_left_iff.mp hfirings
    rw [ha]
    simp only
    have hfs : List.Forall₂ (FiringRefines s.eventListenerMap a)
        ({ f with firedListener := true } :: fs) ({ g with todo := g.todo } :: gs) :=
      .cons (hfg.sameTodo { g with todo := g.todo } rfl rfl true) hrest
    have hstart := (h.reround hfs).hiddenUpdate f.event (u := Event.setHandlingPassive .notPassive)
      fun _ => rfl
    obtain ⟨s', o, hloop, href, hobs⟩ := fireLoop_refines (a := { a with rounds := gs }) hstart rfl
      (Nat.lt_succ_self _)
    refine Eq.subst (motive := fun x => Transition.Agree _ _ x _) hloop.symm ?_
    exact ⟨href, hobs⟩

/-- **One action does the same to the target and to the registry.** -/
theorem step_refines (h : Refines s a) (c : Action) :
    Transition.Agree Refines Output.observed (s.step c) (a.step c) := by
  cases c with
  | addEventListener type listener options =>
    cases hc : RegisteredEventListener.create listener options with
    | none =>
      have hs : s.step (.addEventListener type listener options) = .error .badOptionalAccess := by
        simp only [Target.step, Target.addEventListenerInternal, hc, Except.map]
      have ha : a.step (.addEventListener type listener options) = .error .badOptionalAccess := by
        simp only [Registry.step, hc]
      rw [hs, ha]
      unfold Transition.Agree
      rfl
    | some r =>
      have hs : s.step (.addEventListener type listener options) =
          .ok ({ s with
            hasEventTargetData := true
            eventListenerMap := s.eventListenerMap.add type r }, .idle) := by
        simp only [Target.step, Target.addEventListenerInternal, hc, Except.map]
      have ha : a.step (.addEventListener type listener options) =
          .ok (a.register type r, .idle) := by
        simp only [Registry.step, hc]
      rw [hs, ha]
      exact ⟨h.register type r, rfl⟩
  | removeEventListener type listener useCapture => exact ⟨h.unregister _ _ _, rfl⟩
  | removeAllEventListeners => exact ⟨h.clear, rfl⟩
  | fireEventListeners event => exact h.fireEventListeners event
  | handlerReturned => exact h.handlerReturned
  | stopImmediatePropagation event => exact ⟨h.updateEvent event (fun _ => rfl) fun _ => rfl, rfl⟩
  | preventDefault event =>
    refine ⟨h.hiddenUpdate event fun e => ?_, rfl⟩
    unfold Event.preventDefault
    split
    · rfl
    · split <;> rfl
  | setEventPhase event phase onlyCapture onlyNonCapture =>
    exact ⟨h.updateEvent event (fun _ => rfl) fun _ => rfl, rfl⟩
  | setExecutionContext available =>
    refine ⟨⟨rfl, h.data, h.map.congr rfl rfl, h.events, h.firings.imp fun f g hfg => ?_⟩, rfl⟩
    exact hfg.congr rfl rfl fun _ => rfl

theorem refines_initial (events : EventId → Event) (available : Bool) :
    Refines (Target.initial events available)
      (Registry.initial (fun e => (events e).toDispatching) available) where
  context := rfl
  data _ := rfl
  map :=
    { valid := EventListenerMap.valid_empty
      distinct := (Registry.orderly_initial _ _).toDistinct
      listeners := fun _ => rfl }
  events := fun _ => rfl
  firings := .nil

/-! ## Runs -/

namespace Target

/-- What is seen of a run. -/
def observe (s : Target) (cs : List Action) : Except Fault (List Observation) :=
  (Transition.run step s cs).map fun r => r.2.map Output.observed

end Target

namespace Registry

/-- What is seen of a run. -/
def observe (a : Registry) (cs : List Action) : Except Fault (List Observation) :=
  (Transition.run step a cs).map (·.2)

/-- The registry has no vectors and no indices: what ends its run is an option without a value. -/
theorem run_error {cs : List Action} {e : Fault} (h : Transition.run step a cs = .error e) :
    e = .badOptionalAccess := by
  refine Transition.run_error (E := (· = Fault.badOptionalAccess)) (fun a c e h => ?_) h
  cases c with
  | addEventListener type listener options =>
    simp only [step] at h
    split at h
    · cases h
      rfl
    · cases h
  | fireEventListeners event =>
    simp only [step] at h
    split at h <;> cases h
  | handlerReturned =>
    simp only [step] at h
    split at h <;> cases h
  | _ => cases h

end Registry

/-- **`FireEventListeners` fires over a snapshot, whatever the handlers do.** Let a target have no
listeners and let any calls be made on it, from outside or from inside its handlers, any firing
inside any other. Then what is invoked, and when each firing returns, is what the registry
prescribes; every round invokes registrations of its snapshot, in order and none twice; and no
index outside a vector and no destroyed vector is read: nothing but a registration whose `passive`
was not set can end the run. -/
theorem fireEventListeners_refines (events : EventId → Event) (available : Bool)
    (cs : List Action) :
    (Target.initial events available).observe cs =
        (Registry.initial (fun e => (events e).toDispatching) available).observe cs ∧
      (∀ e, (Target.initial events available).observe cs = .error e → e = .badOptionalAccess) ∧
      ∀ a os, Transition.run Registry.step
          (Registry.initial (fun e => (events e).toDispatching) available) cs = .ok (a, os) →
        ∀ g ∈ a.rounds, g.Orderly := by
  have hagree := Transition.run_agree (fun _ _ c h => step_refines h c)
    (refines_initial events available) cs
  have hsame : (Target.initial events available).observe cs =
      (Registry.initial (fun e => (events e).toDispatching) available).observe cs := by
    unfold Target.observe Registry.observe
    revert hagree
    cases Transition.run Target.step (Target.initial events available) cs with
    | error e =>
      cases Transition.run Registry.step _ cs with
      | error e' =>
        intro hagree
        rw [show e = e' from hagree]
        rfl
      | ok r => exact fun hagree => hagree.elim
    | ok r =>
      cases Transition.run Registry.step _ cs with
      | error e' => exact fun hagree => hagree.elim
      | ok r' => exact fun hagree => congrArg Except.ok hagree.2
  refine ⟨hsame, fun e he => ?_, fun a os hrun g hg => ?_⟩
  · rw [hsame] at he
    unfold Registry.observe at he
    cases hrun : Transition.run Registry.step
        (Registry.initial (fun e => (events e).toDispatching) available) cs with
    | error e' =>
      rw [hrun] at he
      cases he
      exact Registry.run_error hrun
    | ok r =>
      rw [hrun] at he
      cases he
  · exact (Registry.run_orderly (Registry.orderly_initial _ _) hrun).rounds g hg

/-! ## What fires nothing -/

/-- An event of the type `"a"` at its target. -/
def sampleEvent : Event where
  type := "a"
  eventPhase := .atTarget
  immediatePropagationStopped := false
  fireOnlyCaptureListenersAtTarget := false
  fireOnlyNonCaptureListenersAtTarget := false
  cancelable := true
  handlingPassive := .notPassiveDefault
  defaultPrevented := false
  defaultHandled := false
  executedListenerOrDefaultAction := false

/-- The registration of the listener `7` for events of this type. -/
def sampleRegistration : RegisteredEventListener :=
  ⟨7, false, false, false, false, false⟩

/-- **A target without an execution context fires nothing, and neither does an event that has been
stopped before.** The one listener is registered and should fire. -/
theorem fireEventListeners_guards :
    sampleRegistration.shouldFire sampleEvent.toDispatching = true ∧
    (Target.initial (fun _ => sampleEvent) true).observe
        [.addEventListener "a" 7 { passive := some false }, .fireEventListeners 0] =
      .ok [.idle, .invoked sampleRegistration] ∧
    (Target.initial (fun _ => sampleEvent) false).observe
        [.addEventListener "a" 7 { passive := some false }, .fireEventListeners 0] =
      .ok [.idle, .returned] ∧
    (Target.initial (fun _ => sampleEvent) true).observe
        [.addEventListener "a" 7 { passive := some false }, .stopImmediatePropagation 0,
          .fireEventListeners 0] = .ok [.idle, .idle, .returned] :=
  ⟨rfl, rfl, rfl, rfl⟩

end Blinkit.Events
