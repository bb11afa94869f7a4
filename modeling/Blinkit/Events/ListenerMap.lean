import Mathlib.Data.List.Nodup
import Blinkit.Events.EventTarget

/-!
# What the operations of `EventListenerMap` do

* `listenersOf m type` — the vector of a type, empty when there is none.
* `EventListenerMap.Valid m` — no two entries have one type or one address.

Principal results, for each operation: what `find` returns afterwards, and that the map stays
valid.
-/

set_option autoImplicit false

namespace Blinkit.Events.EventListenerMap

variable {m : EventListenerMap} {type t : AtomicString} {r : RegisteredEventListener}
  {listener : ListenerId} {useCapture : Bool}

/-- The vector of a type. -/
def listenersOf (m : EventListenerMap) (type : AtomicString) : EventListenerVector :=
  match m.find type with
  | none => []
  | some e => e.listeners

/-- No two entries have one type or one address. -/
structure Valid (m : EventListenerMap) : Prop where
  types : (m.entries.map (·.type)).Nodup
  addresses : (m.entries.map (·.address)).Nodup
  fresh : ∀ e ∈ m.entries, e.address < m.nextAddress

theorem valid_empty : empty.Valid :=
  ⟨List.nodup_nil, List.nodup_nil, fun _ he => by cases he⟩

theorem valid_clear (m : EventListenerMap) : m.clear.Valid :=
  ⟨List.nodup_nil, List.nodup_nil, fun _ he => by cases he⟩

theorem find_empty (t : AtomicString) : empty.find t = none := rfl

theorem find_type {e : Entry} (h : m.find t = some e) : e ∈ m.entries ∧ e.type = t :=
  ⟨List.mem_of_find?_eq_some h, by simpa using List.find?_some h⟩

/-- The address of a vector leads to it. -/
theorem Valid.deref_find {e : Entry} (h : m.Valid) (hf : m.find t = some e) :
    m.deref e.address = some e.listeners := by
  obtain ⟨hmem, -⟩ := find_type hf
  have hfind : m.entries.find? (·.address = e.address) = some e := by
    have haddr := h.addresses
    clear hf h
    generalize m.entries = es at hmem haddr
    induction es with
    | nil => cases hmem
    | cons e' es ih =>
      rw [List.map_cons, List.nodup_cons] at haddr
      rcases List.mem_cons.mp hmem with rfl | hmem
      · simp
      · have hne : e'.address ≠ e.address := fun he =>
          haddr.1 (he ▸ List.mem_map_of_mem hmem)
        rw [List.find?_cons_of_neg (by simpa using hne)]
        exact ih hmem haddr.2
  simp only [deref, hfind, Option.map_some]

/-! ## Adding -/

theorem find_addToEntries_self (type : AtomicString) (r : RegisteredEventListener) (address : Nat)
    (es : List Entry) :
    (addToEntries type r address es).find? (·.type = type) =
      match es.find? (·.type = type) with
      | none => some ⟨type, address, addListenerToVector [] r⟩
      | some e => some { e with listeners := addListenerToVector e.listeners r } := by
  induction es with
  | nil => simp [addToEntries]
  | cons e es ih =>
    unfold addToEntries
    by_cases he : e.type = type
    · simp [he]
    · simp [he, ih]

theorem find_addToEntries_of_ne (h : t ≠ type) (r : RegisteredEventListener) (address : Nat)
    (es : List Entry) :
    (addToEntries type r address es).find? (·.type = t) = es.find? (·.type = t) := by
  induction es with
  | nil => simp [addToEntries, Ne.symm h]
  | cons e es ih =>
    unfold addToEntries
    by_cases he : e.type = type
    · simp [he, Ne.symm h]
    · rw [if_neg he]
      by_cases het : e.type = t
      · simp [het]
      · simp [het, ih]

theorem find_add_self (m : EventListenerMap) (type : AtomicString) (r : RegisteredEventListener) :
    (m.add type r).find type =
      match m.find type with
      | none => some ⟨type, m.nextAddress, addListenerToVector [] r⟩
      | some e => some { e with listeners := addListenerToVector e.listeners r } :=
  find_addToEntries_self type r m.nextAddress m.entries

theorem find_add_of_ne (h : t ≠ type) : (m.add type r).find t = m.find t :=
  find_addToEntries_of_ne h r m.nextAddress m.entries

theorem listenersOf_add_self (m : EventListenerMap) (type : AtomicString)
    (r : RegisteredEventListener) :
    (m.add type r).listenersOf type = addListenerToVector (m.listenersOf type) r := by
  unfold listenersOf
  rw [find_add_self]
  cases m.find type <;> rfl

theorem listenersOf_add_of_ne (h : t ≠ type) : (m.add type r).listenersOf t = m.listenersOf t := by
  unfold listenersOf
  rw [find_add_of_ne h]

theorem map_addToEntries (type : AtomicString) (r : RegisteredEventListener) (address : Nat)
    (es : List Entry) :
    (addToEntries type r address es).map (fun e => (e.type, e.address)) =
      es.map (fun e => (e.type, e.address)) ∨
    (type ∉ es.map (·.type) ∧ (addToEntries type r address es).map (fun e => (e.type, e.address)) =
      es.map (fun e => (e.type, e.address)) ++ [(type, address)]) := by
  induction es with
  | nil => exact .inr ⟨by simp, by simp [addToEntries]⟩
  | cons e es ih =>
    unfold addToEntries
    by_cases he : e.type = type
    · exact .inl (by simp [he])
    · rcases ih with ih | ⟨hnot, ih⟩
      · exact .inl (by simp [he, ih])
      · refine .inr ⟨?_, by simp [he, ih]⟩
        rw [List.map_cons, List.mem_cons, not_or]
        exact ⟨Ne.symm he, hnot⟩

theorem map_fst_entries (es : List Entry) :
    (es.map fun e => (e.type, e.address)).map Prod.fst = es.map (·.type) := by
  rw [List.map_map]; rfl

theorem map_snd_entries (es : List Entry) :
    (es.map fun e => (e.type, e.address)).map Prod.snd = es.map (·.address) := by
  rw [List.map_map]; rfl

theorem Valid.add (h : m.Valid) (type : AtomicString) (r : RegisteredEventListener) :
    (m.add type r).Valid := by
  have haddr : m.nextAddress ∉ m.entries.map (·.address) := by
    intro hmem
    obtain ⟨e, he, heq⟩ := List.mem_map.mp hmem
    have := h.fresh e he
    omega
  have hkeys := map_addToEntries type r m.nextAddress m.entries
  have htypes : ((m.add type r).entries.map (·.type)).Nodup := by
    rw [← map_fst_entries]
    rcases hkeys with heq | ⟨hnot, heq⟩
    · rw [EventListenerMap.add, heq, map_fst_entries]
      exact h.types
    · rw [EventListenerMap.add, heq, List.map_append, map_fst_entries]
      exact h.types.append (List.nodup_singleton _) (by simpa using hnot)
  have haddrs : ((m.add type r).entries.map (·.address)).Nodup := by
    rw [← map_snd_entries]
    rcases hkeys with heq | ⟨-, heq⟩
    · rw [EventListenerMap.add, heq, map_snd_entries]
      exact h.addresses
    · rw [EventListenerMap.add, heq, List.map_append, map_snd_entries]
      exact h.addresses.append (List.nodup_singleton _) (by simpa using haddr)
  refine ⟨htypes, haddrs, fun e he => ?_⟩
  have hmem : e.address ∈ (m.add type r).entries.map (·.address) := List.mem_map_of_mem he
  rw [← map_snd_entries] at hmem
  have hold : ∀ a, a ∈ m.entries.map (·.address) → a < m.nextAddress + 1 := by
    intro a ha
    obtain ⟨e', he', rfl⟩ := List.mem_map.mp ha
    exact Nat.lt_succ_of_lt (h.fresh e' he')
  rcases hkeys with heq | ⟨-, heq⟩
  · rw [EventListenerMap.add, heq, map_snd_entries] at hmem
    exact hold _ hmem
  · rw [EventListenerMap.add, heq, List.map_append, map_snd_entries, List.mem_append] at hmem
    rcases hmem with hmem | hmem
    · exact hold _ hmem
    · have : e.address = m.nextAddress := by simpa using hmem
      rw [this]
      exact Nat.lt_succ_self _

/-! ## Removing -/

/-- A vector without the first listener that matches. -/
def removed (listener : ListenerId) (useCapture : Bool) (v : EventListenerVector) :
    EventListenerVector :=
  match v.findIdx? (·.matchesListener listener useCapture) with
  | none => v
  | some k => v.eraseIdx k

theorem removeFromEntries_cons_self {e : Entry} (he : e.type = type) (es : List Entry) :
    removeFromEntries type listener useCapture (e :: es) =
      (if (removed listener useCapture e.listeners).isEmpty then es
        else { e with listeners := removed listener useCapture e.listeners } :: es,
        e.listeners.findIdx? (·.matchesListener listener useCapture)) := by
  unfold removeFromEntries removeListenerFromVector removed
  rw [if_pos he]
  cases e.listeners.findIdx? (·.matchesListener listener useCapture) <;> rfl

theorem removeFromEntries_cons_of_ne {e : Entry} (he : e.type ≠ type) (es : List Entry) :
    removeFromEntries type listener useCapture (e :: es) =
      (e :: (removeFromEntries type listener useCapture es).1,
        (removeFromEntries type listener useCapture es).2) := by
  rw [removeFromEntries, if_neg he]

theorem remove_index (m : EventListenerMap) (type : AtomicString) (listener : ListenerId)
    (useCapture : Bool) : (m.remove type listener useCapture).2 =
      (m.listenersOf type).findIdx? (·.matchesListener listener useCapture) := by
  unfold remove listenersOf find
  simp only
  induction m.entries with
  | nil => rfl
  | cons e es ih =>
    by_cases he : e.type = type
    · rw [removeFromEntries_cons_self he, List.find?_cons_of_pos (by simpa using he)]
    · rw [removeFromEntries_cons_of_ne he, List.find?_cons_of_neg (by simpa using he), ih]

theorem find_remove_of_ne (h : t ≠ type) :
    (m.remove type listener useCapture).1.find t = m.find t := by
  unfold remove find
  simp only
  induction m.entries with
  | nil => rfl
  | cons e es ih =>
    by_cases he : e.type = type
    · have het : e.type ≠ t := fun hc => h (hc.symm.trans he)
      rw [removeFromEntries_cons_self he, List.find?_cons_of_neg (by simpa using het)]
      simp only
      split
      · rfl
      · rw [List.find?_cons_of_neg (by simpa using het)]
    · rw [removeFromEntries_cons_of_ne he]
      by_cases het : e.type = t
      · rw [List.find?_cons_of_pos (by simpa using het), List.find?_cons_of_pos (by simpa using het)]
      · rw [List.find?_cons_of_neg (by simpa using het),
          List.find?_cons_of_neg (by simpa using het), ih]

theorem Valid.find_remove_self (h : m.Valid) (type : AtomicString) (listener : ListenerId)
    (useCapture : Bool) : (m.remove type listener useCapture).1.find type =
      (m.find type).bind fun e =>
        if (removed listener useCapture e.listeners).isEmpty then none
        else some { e with listeners := removed listener useCapture e.listeners } := by
  have htypes := h.types
  unfold remove find
  simp only
  generalize m.entries = es at htypes
  induction es with
  | nil => rfl
  | cons e es ih =>
    rw [List.map_cons, List.nodup_cons] at htypes
    by_cases he : e.type = type
    · rw [removeFromEntries_cons_self he, List.find?_cons_of_pos (by simpa using he)]
      simp only [Option.bind_some]
      split
      · -- no other entry has the type
        rw [List.find?_eq_none]
        intro e' he'
        have hne : e'.type ≠ type := fun hc =>
          htypes.1 (he.trans hc.symm ▸ List.mem_map_of_mem he')
        simpa using hne
      · rw [List.find?_cons_of_pos (by simpa using he)]
    · rw [removeFromEntries_cons_of_ne he, List.find?_cons_of_neg (by simpa using he),
        List.find?_cons_of_neg (by simpa using he)]
      exact ih htypes.2

theorem listenersOf_remove_of_ne (h : t ≠ type) :
    (m.remove type listener useCapture).1.listenersOf t = m.listenersOf t := by
  unfold listenersOf
  rw [find_remove_of_ne h]

theorem Valid.listenersOf_remove_self (h : m.Valid) (type : AtomicString) (listener : ListenerId)
    (useCapture : Bool) : (m.remove type listener useCapture).1.listenersOf type =
      removed listener useCapture (m.listenersOf type) := by
  unfold listenersOf
  rw [h.find_remove_self]
  cases m.find type with
  | none => rfl
  | some e =>
    simp only [Option.bind_some]
    by_cases hv : (removed listener useCapture e.listeners).isEmpty = true
    · rw [if_pos hv]
      exact (List.isEmpty_iff.mp hv).symm
    · rw [if_neg hv]

theorem removeFromEntries_sublist (type : AtomicString) (listener : ListenerId) (useCapture : Bool)
    (es : List Entry) :
    ((removeFromEntries type listener useCapture es).1.map fun e => (e.type, e.address)).Sublist
      (es.map fun e => (e.type, e.address)) := by
  induction es with
  | nil => exact List.Sublist.refl _
  | cons e es ih =>
    by_cases he : e.type = type
    · rw [removeFromEntries_cons_self he]
      simp only
      split
      · exact List.sublist_cons_self _ _
      · exact List.Sublist.refl _
    · rw [removeFromEntries_cons_of_ne he]
      exact ih.cons_cons _

theorem Valid.remove (h : m.Valid) (type : AtomicString) (listener : ListenerId)
    (useCapture : Bool) : (m.remove type listener useCapture).1.Valid := by
  have hsub := removeFromEntries_sublist type listener useCapture m.entries
  have htypes := hsub.map Prod.fst
  have haddrs := hsub.map Prod.snd
  rw [map_fst_entries, map_fst_entries] at htypes
  rw [map_snd_entries, map_snd_entries] at haddrs
  refine ⟨h.types.sublist htypes, h.addresses.sublist haddrs, fun e he => ?_⟩
  have hmem : e.address ∈ m.entries.map (·.address) := haddrs.subset (List.mem_map_of_mem he)
  obtain ⟨e', he', heq⟩ := List.mem_map.mp hmem
  rw [← heq]
  exact h.fresh e' he'

end Blinkit.Events.EventListenerMap
