import Blinkit.Events.ListenerBindings
import Blinkit.Events.ListenerMap

/-!
# What the listener calls do to the registrations and the properties

* `Bindings.registered s target type` — the registrations of a target for a type.
* `Unchanged`, `Added`, `Removed` — the three effects a call can have.
* `Bindings.Consistent` — a listener object belongs to one registration, its key is the one of that
  registration, and a property leads to a registered listener of its key.

Principal results: `addEventListener_cases`, `removeEventListener_cases` (the effects, with the
exact condition of each) and `Consistent.step`.
-/

set_option autoImplicit false

namespace Blinkit.Events

open Function

/-! ## References from the map -/

namespace EventListenerMap

variable {m : EventListenerMap} {type : AtomicString} {r : RegisteredEventListener}
  {listener : ListenerId} {useCapture : Bool}

/-- An entry of a valid map is the one that `find` returns for its type. -/
theorem Valid.find_of_mem {e : Entry} (h : m.Valid) (he : e ∈ m.entries) :
    m.find e.type = some e := by
  have htypes := h.types
  unfold find
  clear h
  generalize m.entries = es at he htypes
  induction es with
  | nil => cases he
  | cons e' es ih =>
    rw [List.map_cons, List.nodup_cons] at htypes
    rcases List.mem_cons.mp he with rfl | he
    · simp
    · have hne : e'.type ≠ e.type := fun hc => htypes.1 (hc ▸ List.mem_map_of_mem he)
      rw [List.find?_cons_of_neg (by simpa using hne)]
      exact ih he htypes.2

theorem Valid.holds_iff (h : m.Valid) :
    m.holds listener = true ↔ ∃ type, ∃ r ∈ m.listenersOf type, r.callback = listener := by
  unfold holds
  rw [List.any_eq_true]
  constructor
  · rintro ⟨e, he, hany⟩
    obtain ⟨r, hr, heq⟩ := List.any_eq_true.mp hany
    refine ⟨e.type, r, ?_, by simpa using heq⟩
    unfold listenersOf
    rw [h.find_of_mem he]
    exact hr
  · rintro ⟨type, r, hr, heq⟩
    unfold listenersOf at hr
    cases hf : m.find type with
    | none => rw [hf] at hr; cases hr
    | some e =>
      rw [hf] at hr
      exact ⟨e, (find_type hf).1, List.any_eq_true.mpr ⟨r, hr, by simpa using heq⟩⟩

/-- A listener that the vector of a type does not have is appended to it. -/
theorem listenersOf_add_fresh (h : ∀ q ∈ m.listenersOf type, q.callback ≠ r.callback) :
    (m.add type r).listenersOf type = m.listenersOf type ++ [r] := by
  rw [listenersOf_add_self]
  unfold addListenerToVector
  have hany : ¬ (m.listenersOf type).any r.equals = true := by
    intro hany
    obtain ⟨q, hq, heq⟩ := List.any_eq_true.mp hany
    unfold RegisteredEventListener.equals at heq
    rw [Bool.and_eq_true, beq_iff_eq] at heq
    exact h q hq heq.1.symm
  rw [if_neg hany]

/-- What the removal of a listener does to a vector: nothing, or it takes one registration out. -/
theorem removed_cases (listener : ListenerId) (useCapture : Bool) (v : EventListenerVector) :
    ((∀ r ∈ v, ¬ (r.callback = listener ∧ r.useCapture = useCapture)) ∧
      removed listener useCapture v = v) ∨
    ∃ past r rest, v = past ++ r :: rest ∧ r.callback = listener ∧ r.useCapture = useCapture ∧
      removed listener useCapture v = past ++ rest := by
  unfold removed
  cases hk : v.findIdx? (·.matchesListener listener useCapture) with
  | none =>
    refine .inl ⟨fun r hr hc => ?_, rfl⟩
    have hno := List.findIdx?_eq_none_iff.mp hk r hr
    simp [RegisteredEventListener.matchesListener, hc.1, hc.2] at hno
  | some k =>
    obtain ⟨hlt, hmatch, -⟩ := List.findIdx?_eq_some_iff_getElem.mp hk
    unfold RegisteredEventListener.matchesListener at hmatch
    rw [Bool.and_eq_true, beq_iff_eq, beq_iff_eq] at hmatch
    refine .inr ⟨v.take k, v[k], v.drop (k + 1), ?_, hmatch.1, hmatch.2, ?_⟩
    · rw [List.getElem_cons_drop, List.take_append_drop]
    · exact List.eraseIdx_eq_take_drop_succ v k

end EventListenerMap

/-- The event types without a default for `passive`. -/
theorem create_default (listener : ListenerId) (type : AtomicString) (useCapture : Bool) :
    RegisteredEventListener.create listener
        (setDefaultAddEventListenerOptions type { capture := useCapture }) =
      if isScrollBlockingEvent type then none
      else some ⟨listener, useCapture, false, false, false, false⟩ := by
  unfold setDefaultAddEventListenerOptions RegisteredEventListener.create
  cases isScrollBlockingEvent type <;> rfl

namespace Bindings

variable {s s' : Bindings} {target : TargetId} {type : AtomicString} {f : FunctionId} {argc : Nat}
  {third useCapture : Bool} {listener : ListenerId}

/-- The registrations of a target for a type, in the order in which they fire. -/
def registered (s : Bindings) (target : TargetId) (type : AtomicString) : EventListenerVector :=
  (s.targets target).eventListenerMap.listenersOf type

/-! ## The effects of a call -/

/-- The fields no call on a target writes. -/
structure SameScript (s s' : Bindings) : Prop where
  windows : s'.windowWithoutDocument = s.windowWithoutDocument
  reaches : s'.scriptReaches = s.scriptReaches

structure Unchanged (s s' : Bindings) : Prop extends SameScript s s' where
  global : s'.global = s.global
  listeners : s'.listeners = s.listeners
  next : s'.nextListener = s.nextListener
  registered : ∀ t ty, s'.registered t ty = s.registered t ty

/-- A new listener object stands at the end of the vector and under the key. -/
structure Added (s s' : Bindings) (target : TargetId) (type : AtomicString) (f : FunctionId)
    (useCapture : Bool) : Prop extends SameScript s s' where
  global : s'.global =
    update s.global (generateKey target type f) (some ⟨f, s.nextListener⟩)
  listeners : s'.listeners =
    update s.listeners s.nextListener ⟨f, generateKey target type f⟩
  next : s'.nextListener = s.nextListener + 1
  self : s'.registered target type =
    s.registered target type ++ [⟨s.nextListener, useCapture, false, false, false, false⟩]
  other : ∀ t ty, (t, ty) ≠ (target, type) → s'.registered t ty = s.registered t ty

/-- The registration `r` is gone and nothing stands under the key of its listener. -/
structure Removed (s s' : Bindings) (target : TargetId) (type : AtomicString) (f : FunctionId)
    (past rest : EventListenerVector) (r : RegisteredEventListener) : Prop
    extends SameScript s s' where
  global : s'.global = update s.global (generateKey target type f) none
  listeners : s'.listeners = s.listeners
  next : s'.nextListener = s.nextListener
  before : s.registered target type = past ++ r :: rest
  after : s'.registered target type = past ++ rest
  other : ∀ t ty, (t, ty) ≠ (target, type) → s'.registered t ty = s.registered t ty

theorem Unchanged.refl (s : Bindings) : Unchanged s s where
  windows := rfl
  reaches := rfl
  global := rfl
  listeners := rfl
  next := rfl
  registered _ _ := rfl

/-! ## Consistency -/

structure Consistent (s : Bindings) : Prop where
  valid : ∀ t, (s.targets t).eventListenerMap.Valid
  /-- A registered listener was made before, for its target, type and function. -/
  known : ∀ t ty, ∀ r ∈ s.registered t ty, r.callback < s.nextListener ∧
    (s.listeners r.callback).key = generateKey t ty (s.listeners r.callback).heapPtr
  distinct : ∀ t ty, ((s.registered t ty).map (·.callback)).Nodup
  once : ∀ t ty t' ty', ∀ r ∈ s.registered t ty, ∀ r' ∈ s.registered t' ty',
    r.callback = r'.callback → (t, ty) = (t', ty')
  /-- A property is about a registered listener of its key. -/
  props : ∀ k p, s.global k = some p → p.listener = k.heapPtr ∧
    (s.listeners p.nativeListener).key = k ∧
    ∃ ty, ∃ r ∈ s.registered k.target ty, r.callback = p.nativeListener

theorem consistent_initial (events : EventId → Event) (windows : TargetId → Bool)
    (reaches : FunctionId → Bool) : (initial events windows reaches).Consistent where
  valid _ := EventListenerMap.valid_empty
  known _ _ _ hr := by cases hr
  distinct _ _ := List.nodup_nil
  once _ _ _ _ _ hr := by cases hr
  props _ _ h := by cases h

/-- The function of a registered listener is the one its key names. -/
theorem Consistent.heapPtr_key (h : s.Consistent) {t : TargetId} {ty : AtomicString}
    {r : RegisteredEventListener} (hr : r ∈ s.registered t ty) :
    (s.listeners r.callback).key.heapPtr = (s.listeners r.callback).heapPtr := by
  rw [(h.known t ty r hr).2]
  rfl

/-- What the property under a key leads to. -/
theorem Consistent.listenerFrom_some (h : s.Consistent)
    (hl : s.listenerFrom target type f = some listener) :
    (s.listeners listener).key = generateKey target type f ∧
    (s.listeners listener).heapPtr = f ∧
    ∃ ty, ∃ r ∈ s.registered target ty, r.callback = listener := by
  unfold listenerFrom at hl
  obtain ⟨p, hp, rfl⟩ := Option.map_eq_some_iff.mp hl
  obtain ⟨-, hkey, ty, r, hr, heq⟩ := h.props _ _ hp
  have hptr := h.heapPtr_key hr
  rw [heq, hkey] at hptr
  exact ⟨hkey, hptr.symm, ty, r, hr, heq⟩

theorem registered_targets_ne {s s' : Bindings} {x : Target} {t : TargetId} (h : t ≠ target)
    (hs : s'.targets = update s.targets target x) (ty : AtomicString) :
    s'.registered t ty = s.registered t ty := by
  unfold registered
  rw [hs, update_of_ne h]

theorem registered_targets_self {s t : Bindings} {x : Target}
    (hs : t.targets = update s.targets target x) (ty : AtomicString) :
    t.registered target ty = x.eventListenerMap.listenersOf ty := by
  unfold registered
  rw [hs, update_self]

theorem releaseListener_held
    (h : (s.targets target).eventListenerMap.holds listener = true) :
    s.releaseListener target listener = s := by
  unfold releaseListener
  rw [if_pos h]

theorem releaseListener_free
    (h : ¬ (s.targets target).eventListenerMap.holds listener = true) :
    s.releaseListener target listener =
      { s with global := update s.global (s.listeners listener).key none } := by
  unfold releaseListener
  rw [if_neg h]

/-! ## Adding -/

/-- How `addEventListener` ends. -/
inductive AddResult (s : Bindings) (target : TargetId) (type : AtomicString) (f : FunctionId)
    (argc : Nat) (third : Bool) : Except Fault (Bindings × Outcome) → Prop where
  | ignored (o : Outcome) :
      (s.windowWithoutDocument target = true ∨ ∃ m, useCaptureArgument argc third = .error m) →
      AddResult s target type f argc third (.ok (s, o))
  | fault (e : Fault) (useCapture : Bool) : s.windowWithoutDocument target = false →
      useCaptureArgument argc third = .ok useCapture → isScrollBlockingEvent type = true →
      AddResult s target type f argc third (.error e)
  | added (s' : Bindings) (o : Outcome) (useCapture : Bool) :
      s.windowWithoutDocument target = false →
      useCaptureArgument argc third = .ok useCapture → isScrollBlockingEvent type = false →
      Added s s' target type f useCapture → (∀ t, (s'.targets t).eventListenerMap.Valid) →
      AddResult s target type f argc third (.ok (s', o))

theorem Consistent.addEventListener_cases (h : s.Consistent) (target : TargetId)
    (type : AtomicString) (f : FunctionId) (argc : Nat) (third : Bool) :
    AddResult s target type f argc third (s.addEventListener target type f argc third) := by
  unfold addEventListener
  split
  · rename_i hw
    exact .ignored _ (.inl hw)
  rename_i hw
  have hw : s.windowWithoutDocument target = false := Bool.eq_false_iff.mpr hw
  cases harg : useCaptureArgument argc third with
  | error m => exact .ignored _ (.inr ⟨m, harg⟩)
  | ok useCapture =>
    unfold createListener Target.addEventListener Target.addEventListenerInternal
    simp only [create_default]
    cases hscroll : isScrollBlockingEvent type with
    | true =>
      rw [if_pos rfl]
      exact .fault _ useCapture hw harg hscroll
    | false =>
      rw [if_neg Bool.false_ne_true]
      simp only
      let r : RegisteredEventListener := ⟨s.nextListener, useCapture, false, false, false, false⟩
      let map := (s.targets target).eventListenerMap
      -- no vector has the listener that has just been made
      have hfresh : ∀ q ∈ map.listenersOf type, q.callback ≠ r.callback := by
        intro q hq hc
        have := (h.known target type q hq).1
        rw [hc] at this
        exact Nat.lt_irrefl _ this
      have hvalid := (h.valid target).add type r
      have hself := EventListenerMap.listenersOf_add_fresh hfresh
      have hholds : (map.add type r).holds s.nextListener = true :=
        hvalid.holds_iff.mpr ⟨type, r, by rw [hself]; simp, rfl⟩
      rw [releaseListener_held (by simp only [update_self]; exact hholds)]
      refine .added _ _ useCapture hw harg hscroll
        { windows := rfl
          reaches := rfl
          global := rfl
          listeners := rfl
          next := rfl
          self := ?_
          other := ?_ } ?_
      · rw [registered_targets_self (s := s) rfl]
        exact hself
      · intro t ty hne
        rcases eq_or_ne t target with rfl | ht
        · rw [registered_targets_self (s := s) rfl]
          exact EventListenerMap.listenersOf_add_of_ne fun hty => hne (by rw [hty])
        · exact registered_targets_ne ht rfl ty
      · intro t
        simp only
        rcases eq_or_ne t target with rfl | ht
        · rw [update_self]
          exact hvalid
        · rw [update_of_ne ht]
          exact h.valid t

/-! ## Removing -/

/-- How `removeEventListener` ends. -/
inductive RemoveResult (s : Bindings) (target : TargetId) (type : AtomicString) (f : FunctionId)
    (argc : Nat) (third : Bool) (s' : Bindings) : Prop where
  | ignored :
      (s.windowWithoutDocument target = true ∨ (∃ m, useCaptureArgument argc third = .error m) ∨
        ∀ r ∈ s.registered target type, s.listenerFrom target type f = some r.callback →
          useCaptureArgument argc third ≠ .ok r.useCapture) →
      Unchanged s s' → (∀ t, (s'.targets t).eventListenerMap.Valid) →
      RemoveResult s target type f argc third s'
  | removed (past rest : EventListenerVector) (r : RegisteredEventListener) :
      s.windowWithoutDocument target = false →
      useCaptureArgument argc third = .ok r.useCapture →
      s.listenerFrom target type f = some r.callback →
      Removed s s' target type f past rest r → (∀ t, (s'.targets t).eventListenerMap.Valid) →
      RemoveResult s target type f argc third s'

theorem listenersOf_removeEventListenerInternal (t : Target) (type : AtomicString)
    (listener : ListenerId) (useCapture : Bool) :
    (t.removeEventListenerInternal type listener useCapture).eventListenerMap =
      (t.eventListenerMap.remove type listener useCapture).1 := by
  unfold Target.removeEventListenerInternal
  simp only
  split <;> rfl

theorem Consistent.removeEventListener_cases (h : s.Consistent) (target : TargetId)
    (type : AtomicString) (f : FunctionId) (argc : Nat) (third : Bool) :
    RemoveResult s target type f argc third
      (s.removeEventListener target type f argc third).1 := by
  unfold removeEventListener
  split
  · rename_i hw
    exact .ignored (.inl hw) (.refl s) h.valid
  rename_i hw
  have hw : s.windowWithoutDocument target = false := Bool.eq_false_iff.mpr hw
  cases harg : useCaptureArgument argc third with
  | error m => exact .ignored (.inr (.inl ⟨m, harg⟩)) (.refl s) h.valid
  | ok useCapture =>
    cases hfrom : s.listenerFrom target type f with
    | none =>
      exact .ignored (.inr (.inr fun r _ hc => by rw [hfrom] at hc; cases hc)) (.refl s) h.valid
    | some l =>
      simp only
      let t := (s.targets target).removeEventListenerInternal type l useCapture
      let s₁ : Bindings := { s with targets := update s.targets target t }
      obtain ⟨hkey, -, ty₀, r₀, hr₀, hl₀⟩ := h.listenerFrom_some hfrom
      have hmap := listenersOf_removeEventListenerInternal (s.targets target) type l useCapture
      have hvalid : t.eventListenerMap.Valid := by
        show ((s.targets target).removeEventListenerInternal type l useCapture).eventListenerMap.Valid
        rw [hmap]
        exact (h.valid target).remove type l useCapture
      have hvalid₁ : ∀ t, (s₁.targets t).eventListenerMap.Valid := by
        intro t'
        show ((update s.targets target t) t').eventListenerMap.Valid
        rcases eq_or_ne t' target with rfl | ht
        · rw [update_self]; exact hvalid
        · rw [update_of_ne ht]; exact h.valid t'
      have hself : s₁.registered target type =
          EventListenerMap.removed l useCapture (s.registered target type) := by
        rw [registered_targets_self (s := s) (t := s₁) rfl]
        show ((s.targets target).removeEventListenerInternal type l
          useCapture).eventListenerMap.listenersOf type = _
        rw [hmap]
        exact (h.valid target).listenersOf_remove_self type l useCapture
      have hother : ∀ t' ty, (t', ty) ≠ (target, type) →
          s₁.registered t' ty = s.registered t' ty := by
        intro t' ty hne
        rcases eq_or_ne t' target with rfl | ht
        · rw [registered_targets_self (s := s) (t := s₁) rfl]
          show ((s.targets t').removeEventListenerInternal type l
            useCapture).eventListenerMap.listenersOf ty = _
          rw [hmap]
          exact EventListenerMap.listenersOf_remove_of_ne fun hty => hne (by rw [hty])
        · exact registered_targets_ne ht rfl ty
      have hholds : (s₁.targets target).eventListenerMap.holds l = true ↔
          ∃ ty, ∃ r ∈ s₁.registered target ty, r.callback = l := (hvalid₁ target).holds_iff
      rcases EventListenerMap.removed_cases l useCapture (s.registered target type) with
        ⟨hno, hsame⟩ | ⟨past, r, rest, hbefore, hcallback, hcapture, hafter⟩
      · have hreg : ∀ t' ty, s₁.registered t' ty = s.registered t' ty := by
          intro t' ty
          by_cases hty : (t', ty) = (target, type)
          · cases hty; rw [hself, hsame]
          · exact hother t' ty hty
        rw [releaseListener_held (s := s₁) (hholds.mpr ⟨ty₀, r₀, by rw [hreg]; exact hr₀, hl₀⟩)]
        refine .ignored (.inr (.inr ?_)) ⟨⟨rfl, rfl⟩, rfl, rfl, rfl, hreg⟩ hvalid₁
        intro r hr hc hcap
        rw [hfrom] at hc
        cases hc
        rw [harg] at hcap
        cases hcap
        exact hno r hr ⟨rfl, rfl⟩
      · have hfree : ¬ (s₁.targets target).eventListenerMap.holds l = true := by
          intro hheld
          obtain ⟨ty, q, hq, hql⟩ := hholds.mp hheld
          -- the listener had one registration, and it is the one taken out
          have hmem : r ∈ s.registered target type := by rw [hbefore]; simp
          by_cases hty : ty = type
          · subst hty
            rw [hself, hafter] at hq
            have hnodup := h.distinct target ty
            rw [hbefore, List.map_append, List.map_cons, List.nodup_middle, List.nodup_cons,
              ← List.map_append] at hnodup
            exact hnodup.1 (hcallback.trans hql.symm ▸ List.mem_map_of_mem hq)
          · rw [hother target ty (by simpa using hty)] at hq
            exact hty (Prod.mk.inj (h.once target ty target type q hq r hmem
              (hql.trans hcallback.symm))).2
        rw [releaseListener_free (s := s₁) hfree]
        refine .removed past rest r hw (by rw [harg, hcapture]) (by rw [hfrom, hcallback])
          { windows := rfl
            reaches := rfl
            global := ?_
            listeners := rfl
            next := rfl
            before := hbefore
            after := by rw [← hafter, ← hself]; rfl
            other := hother } hvalid₁
        show update s.global (s.listeners l).key none = _
        rw [hkey]

/-! ## Consistency is kept -/

theorem Consistent.unchanged (h : s.Consistent) (hs : Unchanged s s')
    (hv : ∀ t, (s'.targets t).eventListenerMap.Valid) : s'.Consistent where
  valid := hv
  known t ty r hr := by
    rw [hs.registered] at hr
    rw [hs.listeners, hs.next]
    exact h.known t ty r hr
  distinct t ty := by
    rw [hs.registered]
    exact h.distinct t ty
  once t ty t' ty' r hr r' hr' := by
    rw [hs.registered] at hr hr'
    exact h.once t ty t' ty' r hr r' hr'
  props k p hp := by
    rw [hs.global] at hp
    rw [hs.listeners]
    simp only [hs.registered]
    exact h.props k p hp

/-- The registrations after an addition: the old ones and the new one. -/
theorem Added.mem_registered {q : RegisteredEventListener} {t : TargetId} {ty : AtomicString}
    (hs : Added s s' target type f useCapture) : q ∈ s'.registered t ty ↔ q ∈ s.registered t ty ∨
      ((t, ty) = (target, type) ∧ q = ⟨s.nextListener, useCapture, false, false, false, false⟩) := by
  by_cases hty : (t, ty) = (target, type)
  · cases hty
    rw [hs.self, List.mem_append, List.mem_singleton]
    simp
  · rw [hs.other t ty hty]
    simp [hty]

/-- The object of an old listener is not touched by an addition. -/
theorem Added.listeners_old (hs : Added s s' target type f useCapture)
    (hl : listener < s.nextListener) : s'.listeners listener = s.listeners listener := by
  rw [hs.listeners, update_of_ne (Nat.ne_of_lt hl)]

theorem Added.listeners_new (hs : Added s s' target type f useCapture) :
    s'.listeners s.nextListener = ⟨f, generateKey target type f⟩ := by
  rw [hs.listeners, update_self]

theorem Consistent.added (h : s.Consistent) (hs : Added s s' target type f useCapture)
    (hv : ∀ t, (s'.targets t).eventListenerMap.Valid) : s'.Consistent where
  valid := hv
  known t ty r hr := by
    rw [hs.next]
    rcases hs.mem_registered.mp hr with hold | ⟨hty, rfl⟩
    · obtain ⟨hlt, hkey⟩ := h.known t ty r hold
      rw [hs.listeners_old hlt]
      exact ⟨Nat.lt_succ_of_lt hlt, hkey⟩
    · cases hty
      rw [hs.listeners_new]
      exact ⟨Nat.lt_succ_self _, rfl⟩
  distinct t ty := by
    by_cases hty : (t, ty) = (target, type)
    · cases hty
      rw [hs.self, List.map_append]
      refine (h.distinct target type).append (List.nodup_singleton _) ?_
      intro l hl hnew
      obtain ⟨r, hr, rfl⟩ := List.mem_map.mp hl
      have hlt := (h.known target type r hr).1
      rw [List.mem_singleton.mp hnew] at hlt
      exact Nat.lt_irrefl _ hlt
    · rw [hs.other t ty hty]
      exact h.distinct t ty
  once t ty t' ty' r hr r' hr' heq := by
    rcases hs.mem_registered.mp hr with hold | ⟨hty, rfl⟩
    · rcases hs.mem_registered.mp hr' with hold' | ⟨-, rfl⟩
      · exact h.once t ty t' ty' r hold r' hold' heq
      · exact absurd heq (Nat.ne_of_lt (h.known t ty r hold).1)
    · rcases hs.mem_registered.mp hr' with hold' | ⟨hty', -⟩
      · exact absurd heq.symm (Nat.ne_of_lt (h.known t' ty' r' hold').1)
      · rw [hty, hty']
  props k p hp := by
    rw [hs.global] at hp
    rcases eq_or_ne k (generateKey target type f) with rfl | hk
    · rw [update_self] at hp
      cases hp
      exact ⟨rfl, by rw [hs.listeners_new], type, _, hs.mem_registered.mpr (.inr ⟨rfl, rfl⟩), rfl⟩
    · rw [update_of_ne hk] at hp
      obtain ⟨hf, hkey, ty, r, hr, hl⟩ := h.props k p hp
      refine ⟨hf, ?_, ty, r, hs.mem_registered.mpr (.inl hr), hl⟩
      rw [hs.listeners_old (hl ▸ (h.known k.target ty r hr).1), hkey]

section

variable {past rest : EventListenerVector} {r : RegisteredEventListener}

theorem Removed.sublist (hs : Removed s s' target type f past rest r) (t : TargetId)
    (ty : AtomicString) : (s'.registered t ty).Sublist (s.registered t ty) := by
  by_cases hty : (t, ty) = (target, type)
  · cases hty
    rw [hs.before, hs.after]
    exact (List.sublist_cons_self r rest).append_left past
  · rw [hs.other t ty hty]

theorem Removed.mem (hs : Removed s s' target type f past rest r) :
    r ∈ s.registered target type := by
  rw [hs.before]
  simp

/-- The registrations after a removal: the old ones of another listener. -/
theorem Removed.mem_registered {q : RegisteredEventListener} {t : TargetId} {ty : AtomicString}
    (h : s.Consistent) (hs : Removed s s' target type f past rest r) :
    q ∈ s'.registered t ty ↔ q ∈ s.registered t ty ∧ q.callback ≠ r.callback := by
  by_cases hty : (t, ty) = (target, type)
  · cases hty
    have hnodup := h.distinct target type
    rw [hs.before, List.map_append, List.map_cons, List.nodup_middle, List.nodup_cons,
      ← List.map_append] at hnodup
    rw [hs.before, hs.after]
    constructor
    · intro hq
      refine ⟨?_, fun hc => hnodup.1 (hc ▸ List.mem_map_of_mem hq)⟩
      exact ((List.sublist_cons_self r rest).append_left past).subset hq
    · rintro ⟨hq, hne⟩
      rcases List.mem_append.mp hq with hq | hq
      · exact List.mem_append_left _ hq
      · rcases List.mem_cons.mp hq with rfl | hq
        · exact absurd rfl hne
        · exact List.mem_append_right _ hq
  · rw [hs.other t ty hty]
    refine ⟨fun hq => ⟨hq, fun hc => hty (h.once t ty target type q hq r hs.mem hc)⟩, And.left⟩

theorem Consistent.removed (h : s.Consistent) (hs : Removed s s' target type f past rest r)
    (hfrom : s.listenerFrom target type f = some r.callback)
    (hv : ∀ t, (s'.targets t).eventListenerMap.Valid) : s'.Consistent where
  valid := hv
  known t ty q hq := by
    rw [hs.listeners, hs.next]
    exact h.known t ty q ((hs.sublist t ty).subset hq)
  distinct t ty := (h.distinct t ty).sublist ((hs.sublist t ty).map _)
  once t ty t' ty' q hq q' hq' :=
    h.once t ty t' ty' q ((hs.sublist t ty).subset hq) q' ((hs.sublist t' ty').subset hq')
  props k p hp := by
    rw [hs.global] at hp
    rw [hs.listeners]
    rcases eq_or_ne k (generateKey target type f) with rfl | hk
    · rw [update_self] at hp
      cases hp
    · rw [update_of_ne hk] at hp
      obtain ⟨hf, hkey, ty, q, hq, hl⟩ := h.props k p hp
      refine ⟨hf, hkey, ty, q, (hs.mem_registered h).mpr ⟨hq, fun hc => hk ?_⟩, hl⟩
      rw [← hkey, ← hl, hc]
      exact (h.listenerFrom_some hfrom).1

end

theorem Consistent.reset (h : s.Consistent) (reaches : FunctionId → Bool) :
    (s.reset reaches).Consistent where
  valid := h.valid
  known := h.known
  distinct := h.distinct
  once := h.once
  props _ _ hp := by cases hp

theorem Consistent.runScript (h : s.Consistent) (reaches : FunctionId → Bool) :
    { s with scriptReaches := reaches : Bindings }.Consistent where
  valid := h.valid
  known := h.known
  distinct := h.distinct
  once := h.once
  props := h.props

theorem Consistent.call (h : s.Consistent) {c : ListenerCall} {q : Bindings × Outcome}
    (hc : s.call target c = .ok q) : q.1.Consistent := by
  cases c with
  | addEventListener type f argc third =>
    have hcase := h.addEventListener_cases target (fromUTF8 type) f argc third
    change s.addEventListener target (fromUTF8 type) f argc third = .ok q at hc
    rw [hc] at hcase
    cases hcase with
    | ignored o _ => exact h
    | added s' o useCapture _ _ _ hs hv => exact h.added hs hv
  | removeEventListener type f argc third =>
    cases hc
    cases h.removeEventListener_cases target (fromUTF8 type) f argc third with
    | ignored _ hs hv => exact h.unchanged hs hv
    | removed past rest r _ _ hfrom hs hv => exact h.removed hs hfrom hv

theorem Consistent.step (h : s.Consistent) {c : Call} {q : Bindings × Outcome}
    (hc : s.step c = .ok q) : q.1.Consistent := by
  cases c with
  | onTarget target c => exact h.call hc
  | reset reaches =>
    cases hc
    exact h.reset reaches
  | runScript reaches =>
    cases hc
    exact h.runScript reaches

end Bindings

end Blinkit.Events
