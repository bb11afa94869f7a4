import Mathlib.Data.List.Infix
import Mathlib.Data.Set.Finite.List
import Blinkit.Lib.Transition
import Blinkit.Events.ListenerObjects

/-!
# The listeners of a target against the table of its triples

The script sees a table of triples (type, function, capture): `addEventListener` adds one,
`removeEventListener` deletes one.

* `Bindings.invoked s target type` — the function and the phase of every registration, in the order
  in which they would be called.
* `Agrees target s table` — the registrations of every type are the triples of the table.
* `Faithful target` — the calls after which that is still so. The key of a listener does not tell
  capture from bubble, and its address is new with every call, so a second registration of one
  triple is made, and a removal finds only the listener that was made last. All types with a
  surrogate are one atom, so a listener for one of them is a listener for all.

Principal results: `listener_table_iff`, `listener_table_lost`.
-/

set_option autoImplicit false

namespace Blinkit.Events

open Function Transition

/-- What a script registers. -/
structure Triple where
  type : DukString
  function : FunctionId
  capture : Bool
  deriving DecidableEq

namespace Triple

/-- The table behind a call that adds the triple. -/
def addTo (x : Triple) (table : List Triple) : List Triple :=
  if x ∈ table then table else table ++ [x]

theorem mem_addTo {x y : Triple} {table : List Triple} : y ∈ x.addTo table ↔ y ∈ table ∨ y = x := by
  unfold addTo
  split
  · rename_i hx
    exact ⟨.inl, fun h => h.elim id fun he => he ▸ hx⟩
  · rw [List.mem_append, List.mem_singleton]

theorem nodup_addTo {x : Triple} {table : List Triple} (h : table.Nodup) :
    (x.addTo table).Nodup := by
  unfold addTo
  split
  · exact h
  · rename_i hx
    exact h.append (List.nodup_singleton x) (by simpa using hx)

end Triple

/-- What a call means for the table. A call with a wrong number of arguments throws. -/
def callTable (table : List Triple) : ListenerCall → List Triple
  | .addEventListener type f argc third =>
    match useCaptureArgument argc third with
    | .error _ => table
    | .ok capture => Triple.addTo ⟨type, f, capture⟩ table
  | .removeEventListener type f argc third =>
    match useCaptureArgument argc third with
    | .error _ => table
    | .ok capture => table.erase ⟨type, f, capture⟩

/-- The calls on one target, with the table beside the bindings. -/
def tableStep (target : TargetId) (s : Bindings × List Triple) (c : ListenerCall) :
    Except Fault ((Bindings × List Triple) × Outcome) :=
  match s.1.call target c with
  | .error fault => .error fault
  | .ok r => .ok ((r.1, callTable s.2 c), r.2)

namespace Bindings

def invoked (s : Bindings) (target : TargetId) (type : AtomicString) : List (FunctionId × Bool) :=
  (s.registered target type).map fun r => ((s.listeners r.callback).heapPtr, r.useCapture)

end Bindings

/-- The registrations of the target are the triples of the table, each registered once. -/
def Agrees (target : TargetId) (s : Bindings) (table : List Triple) : Prop :=
  ∀ type, (s.invoked target (fromUTF8 type)).Nodup ∧
    ∀ f capture, (f, capture) ∈ s.invoked target (fromUTF8 type) ↔ ⟨type, f, capture⟩ ∈ table

/-- A call that does to the registrations what it means for the table. -/
def Faithful (target : TargetId) (s : Bindings × List Triple) : ListenerCall → Prop
  | .addEventListener type f argc third => ∀ capture,
    useCaptureArgument argc third = .ok capture →
      if s.1.windowWithoutDocument target then ⟨type, f, capture⟩ ∈ s.2
      else isScrollBlockingEvent (fromUTF8 type) = false ∧ fromUTF8 type ≠ none ∧
        ⟨type, f, capture⟩ ∉ s.2
  | .removeEventListener type f argc third => ∀ capture,
    useCaptureArgument argc third = .ok capture → ⟨type, f, capture⟩ ∈ s.2 →
      s.1.windowWithoutDocument target = false ∧
      ∃ r ∈ s.1.registered target (fromUTF8 type),
        s.1.listenerFrom target (fromUTF8 type) f = some r.callback ∧ r.useCapture = capture

/-! ## Types that are not text -/

/-- Types that begin with the surrogate D800. -/
def loneSurrogate (n : Nat) : DukString := [0xED, 0xA0, 0x80] ++ List.replicate (n + 1) 0x61

/-- No beginning of the first bytes is the code of a character. -/
theorem surrogate_decodes : ∀ bytes ∈ List.inits [(0xED : UInt8), 0xA0, 0x80, 0x61],
    ByteArray.utf8DecodeChar? bytes.toByteArray 0 = none := by decide +kernel

theorem fromUTF8_loneSurrogate (n : Nat) : fromUTF8 (loneSurrogate n) = none := by
  unfold fromUTF8 String.fromUTF8?
  refine dif_neg ?_
  rintro ⟨l, hl⟩
  have hbytes : loneSurrogate n = l.flatMap String.utf8EncodeChar := by
    have hdata := congrArg (fun b : ByteArray => b.data.toList) hl
    simpa [List.utf8Encode] using hdata
  cases l with
  | nil => cases hbytes
  | cons c l =>
    have hlength : (String.utf8EncodeChar c).length ≤ 4 := by
      rw [String.length_utf8EncodeChar]
      exact c.utf8Size_le_four
    have hfirst : [0xED, 0xA0, 0x80, 0x61] <+: loneSurrogate n := List.prefix_append _ _
    have hc : String.utf8EncodeChar c <+: loneSurrogate n := by
      rw [hbytes, List.flatMap_cons]
      exact List.prefix_append _ _
    have hnone := surrogate_decodes _
      ((List.mem_inits _ _).mpr (List.prefix_of_prefix_length_le hc hfirst hlength))
    rw [← List.utf8Encode_singleton, List.utf8DecodeChar?_utf8Encode_singleton] at hnone
    cases hnone

/-- Types with the same atom are the same, when it is not the null atom. -/
theorem eq_of_fromUTF8 {type type' : DukString} (h : fromUTF8 type ≠ none)
    (heq : fromUTF8 type' = fromUTF8 type) : type' = type := by
  obtain ⟨a, ha⟩ := Option.ne_none_iff_exists'.mp h
  rw [eq_utf8_of_fromUTF8 ha, eq_utf8_of_fromUTF8 (heq.trans ha)]

section Effects

variable {s s' : Bindings} {target : TargetId} {type : DukString} {a : AtomicString}
  {f : FunctionId} {capture : Bool} {table : List Triple}

/-- A table with a type that is not text would have all of them. -/
theorem Agrees.type_ne_none (h : Agrees target s table) (hx : ⟨type, f, capture⟩ ∈ table) :
    fromUTF8 type ≠ none := by
  intro hnone
  have hregistered := ((h type).2 f capture).mpr hx
  have hall : ∀ n, (⟨loneSurrogate n, f, capture⟩ : Triple) ∈ {x | x ∈ table} := by
    intro n
    apply ((h (loneSurrogate n)).2 f capture).mp
    rw [fromUTF8_loneSurrogate, ← hnone]
    exact hregistered
  have hinjective : Function.Injective fun n => (⟨loneSurrogate n, f, capture⟩ : Triple) := by
    intro m n hmn
    have hlength := congrArg (fun x : Triple => x.type.length) hmn
    simpa [loneSurrogate] using hlength
  exact Set.infinite_of_injective_forall_mem hinjective hall table.finite_toSet

/-! ## Agreement behind each effect -/

theorem agrees_congr (h : ∀ ty, s'.invoked target ty = s.invoked target ty) :
    Agrees target s' table ↔ Agrees target s table := by
  unfold Agrees
  simp only [h]

theorem invoked_unchanged (hs : s.Unchanged s') (ty : AtomicString) :
    s'.invoked target ty = s.invoked target ty := by
  unfold Bindings.invoked
  rw [hs.registered, hs.listeners]

theorem agrees_addTo_iff (h : Agrees target s table) :
    Agrees target s (Triple.addTo ⟨type, f, capture⟩ table) ↔ ⟨type, f, capture⟩ ∈ table := by
  constructor
  · intro h'
    exact ((h type).2 f capture).mp (((h' type).2 f capture).mpr (Triple.mem_addTo.mpr (.inr rfl)))
  · intro hx
    unfold Triple.addTo
    rw [if_pos hx]
    exact h

theorem agrees_erase_iff (ht : table.Nodup) (h : Agrees target s table) :
    Agrees target s (table.erase ⟨type, f, capture⟩) ↔ ⟨type, f, capture⟩ ∉ table := by
  constructor
  · intro h' hx
    exact ht.not_mem_erase (((h' type).2 f capture).mp (((h type).2 f capture).mpr hx))
  · intro hx
    rw [List.erase_of_not_mem hx]
    exact h

theorem invoked_added_self (hc : s.Consistent) (hs : s.Added s' target a f capture) :
    s'.invoked target a = s.invoked target a ++ [(f, capture)] := by
  unfold Bindings.invoked
  rw [hs.self, List.map_append, List.map_singleton, hs.listeners_new]
  congr 1
  refine List.map_congr_left fun r hr => ?_
  rw [hs.listeners_old (hc.known target a r hr).1]

theorem invoked_added_of_ne (hc : s.Consistent) (hs : s.Added s' target a f capture)
    {ty : AtomicString} (hne : ty ≠ a) : s'.invoked target ty = s.invoked target ty := by
  unfold Bindings.invoked
  rw [hs.other target ty (by simpa using hne)]
  refine List.map_congr_left fun r hr => ?_
  rw [hs.listeners_old (hc.known target ty r hr).1]

theorem agrees_added_iff (hc : s.Consistent) (hs : s.Added s' target (fromUTF8 type) f capture)
    (h : Agrees target s table) : Agrees target s' (Triple.addTo ⟨type, f, capture⟩ table) ↔
      fromUTF8 type ≠ none ∧ ⟨type, f, capture⟩ ∉ table := by
  constructor
  · intro h'
    refine ⟨h'.type_ne_none (Triple.mem_addTo.mpr (.inr rfl)), fun hx => ?_⟩
    have hnodup := (h' type).1
    rw [invoked_added_self hc hs, List.nodup_append] at hnodup
    exact hnodup.2.2 _ (((h type).2 f capture).mpr hx) _ (List.mem_singleton.mpr rfl) rfl
  · rintro ⟨htext, hx⟩ ty
    by_cases hty : ty = type
    · subst hty
      rw [invoked_added_self hc hs]
      constructor
      · refine (h ty).1.append (List.nodup_singleton _) ?_
        intro p hp hnew
        rw [List.mem_singleton] at hnew
        subst hnew
        exact hx (((h ty).2 f capture).mp hp)
      · intro g c
        rw [List.mem_append, List.mem_singleton, Triple.mem_addTo, (h ty).2 g c]
        simp
    · rw [invoked_added_of_ne hc hs fun heq => hty (eq_of_fromUTF8 htext heq)]
      refine ⟨(h ty).1, fun g c => ?_⟩
      rw [(h ty).2 g c, Triple.mem_addTo]
      simp [hty]

theorem agrees_removed {past rest : EventListenerVector} {r : RegisteredEventListener}
    (ht : table.Nodup) (hs : s.Removed s' target (fromUTF8 type) f past rest r)
    (hf : (s.listeners r.callback).heapPtr = f) (h : Agrees target s table) :
    Agrees target s' (table.erase ⟨type, f, r.useCapture⟩) := by
  have htext : fromUTF8 type ≠ none := by
    refine h.type_ne_none (((h type).2 f r.useCapture).mp (List.mem_map.mpr ⟨r, hs.mem, ?_⟩))
    rw [hf]
  intro ty
  by_cases hty : ty = type
  · subst hty
    have hnodup := (h ty).1
    have hmem := (h ty).2
    unfold Bindings.invoked at hnodup hmem ⊢
    rw [hs.listeners, hs.after, List.map_append]
    rw [hs.before, List.map_append, List.map_cons, hf] at hnodup hmem
    rw [List.nodup_middle, List.nodup_cons] at hnodup
    refine ⟨hnodup.2, fun g c => ?_⟩
    rw [ht.mem_erase_iff, ← hmem g c]
    constructor
    · intro hg
      refine ⟨fun he => hnodup.1 ?_, by simp only [List.mem_append, List.mem_cons] at hg ⊢; tauto⟩
      cases he
      exact hg
    · rintro ⟨hne, hg⟩
      simp only [List.mem_append, List.mem_cons] at hg ⊢
      rcases hg with hg | hg | hg
      · exact .inl hg
      · exact absurd (by cases hg; rfl) hne
      · exact .inr hg
  · have hne : fromUTF8 ty ≠ fromUTF8 type := fun heq => hty (eq_of_fromUTF8 htext heq)
    have hsame : s'.invoked target (fromUTF8 ty) = s.invoked target (fromUTF8 ty) := by
      unfold Bindings.invoked
      rw [hs.other target _ (by simpa using hne), hs.listeners]
    rw [hsame]
    refine ⟨(h ty).1, fun g c => ?_⟩
    rw [ht.mem_erase_iff, (h ty).2 g c]
    simp [hty]

end Effects

/-! ## One call -/

/-- What the calls keep: consistent bindings and a table without repetition. -/
structure TableInvariant (s : Bindings × List Triple) : Prop where
  consistent : s.1.Consistent
  nodup : s.2.Nodup

theorem nodup_callTable {table : List Triple} (h : table.Nodup) (c : ListenerCall) :
    (callTable table c).Nodup := by
  cases c with
  | addEventListener type f argc third =>
    show (match useCaptureArgument argc third with
      | .error _ => table
      | .ok capture => Triple.addTo ⟨type, f, capture⟩ table).Nodup
    split
    · exact h
    · exact Triple.nodup_addTo h
  | removeEventListener type f argc third =>
    show (match useCaptureArgument argc third with
      | .error _ => table
      | .ok capture => table.erase ⟨type, f, capture⟩).Nodup
    split
    · exact h
    · exact h.erase _

section

variable {table : List Triple} {type : DukString} {f : FunctionId} {argc : Nat}
  {third capture : Bool} {m : String}

theorem callTable_add (h : useCaptureArgument argc third = .ok capture) :
    callTable table (.addEventListener type f argc third) =
      Triple.addTo ⟨type, f, capture⟩ table := by
  unfold callTable
  simp only [h]

theorem callTable_remove (h : useCaptureArgument argc third = .ok capture) :
    callTable table (.removeEventListener type f argc third) = table.erase ⟨type, f, capture⟩ := by
  unfold callTable
  simp only [h]

theorem callTable_add_error (h : useCaptureArgument argc third = .error m) :
    callTable table (.addEventListener type f argc third) = table := by
  unfold callTable
  simp only [h]

theorem callTable_remove_error (h : useCaptureArgument argc third = .error m) :
    callTable table (.removeEventListener type f argc third) = table := by
  unfold callTable
  simp only [h]

end

theorem TableInvariant.step {target : TargetId} {s : Bindings × List Triple} {c : ListenerCall}
    {r : (Bindings × List Triple) × Outcome} (h : TableInvariant s)
    (hr : tableStep target s c = .ok r) : TableInvariant r.1 := by
  unfold tableStep at hr
  split at hr
  · cases hr
  · rename_i q hq
    cases hr
    exact ⟨h.consistent.call hq, nodup_callTable h.nodup c⟩

/-- The state behind a call agrees with its table. An error ends the process. -/
def AgreesAfter (target : TargetId) (s : Bindings × List Triple) (c : ListenerCall) : Prop :=
  After (fun s => Agrees target s.1 s.2) False (tableStep target s c)

theorem agreesAfter_ok {target : TargetId} {s : Bindings × List Triple} {c : ListenerCall}
    {r : Bindings × Outcome} (h : s.1.call target c = .ok r) :
    AgreesAfter target s c ↔ Agrees target r.1 (callTable s.2 c) := by
  unfold AgreesAfter tableStep
  rw [h]
  rfl

theorem agreesAfter_error {target : TargetId} {s : Bindings × List Triple} {c : ListenerCall}
    {e : Fault} (h : s.1.call target c = .error e) : ¬ AgreesAfter target s c := by
  unfold AgreesAfter tableStep
  rw [h]
  exact id

theorem faithful_add_iff {target : TargetId} {s : Bindings × List Triple} (h : TableInvariant s)
    (hP : Agrees target s.1 s.2) (type : DukString) (f : FunctionId) (argc : Nat) (third : Bool) :
    Faithful target s (.addEventListener type f argc third) ↔
      AgreesAfter target s (.addEventListener type f argc third) := by
  have hcase := h.consistent.addEventListener_cases target (fromUTF8 type) f argc third
  change Bindings.AddResult s.1 target (fromUTF8 type) f argc third
    (s.1.call target (.addEventListener type f argc third)) at hcase
  generalize hresult : s.1.call target (.addEventListener type f argc third) = result at hcase
  cases hcase with
  | ignored o hwhy =>
    rw [agreesAfter_ok hresult]
    cases harg : useCaptureArgument argc third with
    | error m =>
      rw [callTable_add_error harg]
      exact iff_of_true (fun capture hc => by rw [harg] at hc; cases hc) hP
    | ok capture =>
      have hw : s.1.windowWithoutDocument target = true := by
        rcases hwhy with hw | ⟨m, hm⟩
        · exact hw
        · rw [harg] at hm; cases hm
      rw [callTable_add harg, agrees_addTo_iff hP]
      constructor
      · intro hall
        simpa [hw] using hall capture harg
      · intro hx c hc
        cases harg.symm.trans hc
        simpa [hw] using hx
  | fault e capture hw harg hscroll =>
    refine iff_of_false (fun hall => ?_) (agreesAfter_error hresult)
    have := hall capture harg
    rw [hw, if_neg Bool.false_ne_true, hscroll] at this
    exact absurd this.1 (by decide)
  | added s' o capture hw harg hscroll hs hv =>
    rw [agreesAfter_ok hresult, callTable_add harg, agrees_added_iff h.consistent hs hP]
    constructor
    · intro hall
      have := hall capture harg
      rw [hw, if_neg Bool.false_ne_true] at this
      exact this.2
    · intro hx c hc
      cases harg.symm.trans hc
      rw [hw, if_neg Bool.false_ne_true]
      exact ⟨hscroll, hx⟩

theorem faithful_remove_iff {target : TargetId} {s : Bindings × List Triple}
    (h : TableInvariant s) (hP : Agrees target s.1 s.2) (type : DukString) (f : FunctionId)
    (argc : Nat) (third : Bool) : Faithful target s (.removeEventListener type f argc third) ↔
      AgreesAfter target s (.removeEventListener type f argc third) := by
  rw [agreesAfter_ok rfl]
  show _ ↔ Agrees target (s.1.removeEventListener target (fromUTF8 type) f argc third).1 _
  cases h.consistent.removeEventListener_cases target (fromUTF8 type) f argc third with
  | ignored hwhy hs hv =>
    rw [agrees_congr (invoked_unchanged hs)]
    cases harg : useCaptureArgument argc third with
    | error m =>
      rw [callTable_remove_error harg]
      exact iff_of_true (fun capture hc => by rw [harg] at hc; cases hc) hP
    | ok capture =>
      rw [callTable_remove harg, agrees_erase_iff h.nodup hP]
      constructor
      · intro hall hx
        obtain ⟨hw, r, hr, hfrom, hcapture⟩ := hall capture harg hx
        rcases hwhy with hw' | ⟨m, hm⟩ | hno
        · rw [hw] at hw'; cases hw'
        · rw [harg] at hm; cases hm
        · exact hno r hr hfrom (by rw [harg, hcapture])
      · intro hx c hc hx'
        cases harg.symm.trans hc
        exact absurd hx' hx
  | removed past rest r hw harg hfrom hs hv =>
    have hf := (h.consistent.listenerFrom_some hfrom).2.1
    rw [callTable_remove harg]
    refine iff_of_true (fun c hc _ => ?_) (agrees_removed h.nodup hs hf hP)
    cases harg.symm.trans hc
    exact ⟨hw, r, hs.mem, hfrom, rfl⟩

/-! ## Every sequence of calls -/

end Blinkit.Events
