import Blinkit.Lib.Transition
import Blinkit.Dom.CollectionIndexCache

/-!
# The items cache of a live collection

Translation of `collection_items_cache.h`.

* `CollectionItemsCache` — the index cache together with a list of all items, which the first count
  fills.
* `Query`, `Answer`, `query` — what is asked of a collection, and what it answers.
* `Truthful s xs` — what the cache remembers is true of the list `xs`. An invalidated cache keeps its
  old list: `Invalidate` takes the list for empty, but `shrink_to_fit` does not remove anything.
* `Query.Supported` — the query does not come to the missing traversals from behind, and counts no
  item twice.

Principal results: `query_iff` (a query is answered right exactly when it is supported) and
its two directions `query_spec` and `query_unsupported`.
-/

set_option autoImplicit false

namespace Blinkit.Dom

open Transition

structure CollectionItemsCache (α : Type) extends CollectionIndexCache α where
  listValid : Bool := false
  cachedList : List α := []

namespace CollectionItemsCache

variable {α : Type}

/-- `Invalidate`. The list keeps its items. -/
def invalidate (s : CollectionItemsCache α) : CollectionItemsCache α :=
  { s with toCollectionIndexCache := s.toCollectionIndexCache.invalidate, listValid := false }

/-- The loop of `NodeCount`. -/
def collectItems (c : Collection α) : Nat → List α → Option α → Nat → Option (List α)
  | _, list, none, _ => some list
  | 0, _, some _, _ => none
  | rounds + 1, list, some node, index => do
    let (next, index) ← c.traverseForwardToOffset ((index + 1) % 2 ^ 32) (some node) index
    collectItems c rounds (list ++ [node]) next index

/-- `NodeCount`. -/
def nodeCount (c : Collection α) (rounds : Nat) (s : CollectionItemsCache α) :
    Option (Nat × CollectionItemsCache α) :=
  if s.isLengthCacheValid then some (s.cachedNodeCount, s)
  else do
    let list ← collectItems c rounds s.cachedList (← c.traverseToFirst) 0
    let base := s.setCachedNodeCount list.length
    return (base.cachedNodeCount,
      { toCollectionIndexCache := base, listValid := true, cachedList := list })

/-- `NodeAt`. -/
def nodeAt (c : Collection α) (s : CollectionItemsCache α) (index : Nat) :
    Option (Option α × CollectionItemsCache α) :=
  if s.listValid then
    some (if index < s.cachedNodeCount then s.cachedList[index]? else none, s)
  else do
    let (node, base) ← s.toCollectionIndexCache.nodeAt c index
    return (node, { s with toCollectionIndexCache := base })

end CollectionItemsCache

/-! ## Queries -/

inductive Query where
  | length
  | item (offset : UInt32)
  deriving DecidableEq

inductive Answer (α : Type) where
  | length (n : Nat)
  | item (node : Option α)
  deriving DecidableEq

/-- The answer of the list of all items. -/
def Query.answer {α : Type} (xs : List α) : Query → Answer α
  | length => .length xs.length
  | item offset => .item xs[offset.toNat]?

namespace CollectionItemsCache

variable {α : Type}

/-- `length` and `item`. -/
def query (c : Collection α) (rounds : Nat) (s : CollectionItemsCache α) :
    Query → Option (Answer α × CollectionItemsCache α)
  | .length => do
    let (n, s) ← s.nodeCount c rounds
    return (.length n, s)
  | .item offset => do
    let (node, s) ← s.nodeAt c offset.toNat
    return (.item node, s)

def next (c : Collection α) (rounds : Nat) (s : CollectionItemsCache α) (q : Query) :
    Option (CollectionItemsCache α) :=
  (s.query c rounds q).map (·.2)

/-- **What the cache remembers is true of the list.** -/
structure Truthful (s : CollectionItemsCache α) (xs : List α) : Prop where
  coherent : Coherent s.toCollectionIndexCache xs
  valid : s.listValid = true → s.isLengthCacheValid = true ∧ s.cachedList = xs
  short : s.cachedList.length ≤ 2 ^ 31

end CollectionItemsCache

/-- The query stays away from the traversals from behind, or counts no item twice. -/
def Query.Supported {α : Type} (s : CollectionItemsCache α) : Query → Prop
  | length => s.isLengthCacheValid = true ∨ s.cachedList = []
  | item offset => s.listValid = true ∨ ¬ s.GoesBackward offset.toNat

namespace CollectionItemsCache

variable {α : Type} {c : Collection α} {xs : List α} {s s' : CollectionItemsCache α} {rounds : Nat}

theorem truthful_fresh (xs : List α) : Truthful {} xs where
  coherent := coherent_fresh xs
  valid hv := by cases hv
  short := Nat.zero_le _

theorem Truthful.invalidate (h : Truthful s xs) (ys : List α) : Truthful s.invalidate ys where
  coherent := .invalidate _ ys
  valid hv := by cases hv
  short := h.short

/-- The loop appends the rest of the list. -/
theorem collectItems_spec (hc : ServesForward c xs) (hlen : xs.length ≤ 2 ^ 31) {k : Nat}
    (hrounds : xs.length ≤ k + rounds) {list : List α} :
    collectItems c rounds list xs[k]? k = some (list ++ xs.drop k) := by
  induction rounds generalizing k list with
  | zero =>
    have hend : xs.length ≤ k := hrounds
    rw [List.getElem?_eq_none hend, List.drop_of_length_le hend, List.append_nil]
    exact collectItems.eq_1 ..
  | succ rounds ih =>
    cases hx : xs[k]? with
    | none =>
      rw [List.drop_of_length_le (List.getElem?_eq_none_iff.mp hx), List.append_nil]
      exact collectItems.eq_1 ..
    | some x =>
      obtain ⟨hk, hget⟩ := List.getElem?_eq_some_iff.mp hx
      have hmod : (k + 1) % 2 ^ 32 = k + 1 := Nat.mod_eq_of_lt (by omega)
      have hdrop : xs.drop k = [x] ++ xs.drop (k + 1) := by
        rw [List.drop_eq_getElem_cons hk, hget]
        rfl
      rw [collectItems, hmod, hc.forward k (k + 1) x hx (Nat.lt_succ_self k), Option.bind_eq_bind,
        Option.bind_some, hdrop, ← List.append_assoc]
      rcases Nat.lt_or_ge (k + 1) xs.length with hlt | hge
      · have hmin : min (k + 1) (xs.length - 1) = k + 1 := by omega
        simp only [hmin]
        exact ih (by omega)
      · rw [List.getElem?_eq_none hge, List.drop_of_length_le hge, List.append_nil]
        exact collectItems.eq_1 ..

/-- The count, which takes what the list holds already for items. -/
theorem nodeCount_eq (hc : ServesForward c xs) (hlen : xs.length ≤ 2 ^ 31)
    (hrounds : xs.length ≤ rounds) (hvalid : s.isLengthCacheValid = false) :
    s.nodeCount c rounds = some ((s.cachedList ++ xs).length % 2 ^ 32,
      { toCollectionIndexCache := s.setCachedNodeCount (s.cachedList ++ xs).length
        listValid := true, cachedList := s.cachedList ++ xs }) := by
  have hitems : collectItems c rounds s.cachedList xs[0]? 0 = some (s.cachedList ++ xs.drop 0) :=
    collectItems_spec hc hlen (by omega)
  rw [List.drop_zero, ← List.head?_eq_getElem?] at hitems
  unfold nodeCount
  rw [if_neg (by simp [hvalid]), hc.first, Option.bind_eq_bind, Option.bind_some, hitems]
  rfl

/-- **A supported query is answered as the list says.** -/
theorem query_spec (hc : ServesForward c xs) (hlen : xs.length ≤ 2 ^ 31)
    (hrounds : xs.length ≤ rounds) (h : Truthful s xs) {q : Query} (hq : q.Supported s) :
    ∃ s', s.query c rounds q = some (q.answer xs, s') ∧ Truthful s' xs ∧
      (Query.length.Supported s → Query.length.Supported s') := by
  cases q with
  | length =>
    rcases hvalid : s.isLengthCacheValid with _ | _
    · have hnil : s.cachedList = [] := hq.resolve_left (by simp [hvalid])
      have hmod : xs.length % 2 ^ 32 = xs.length := Nat.mod_eq_of_lt (by omega)
      have hcount := nodeCount_eq (s := s) hc hlen hrounds hvalid
      rw [hnil, List.nil_append, hmod] at hcount
      refine ⟨_, by rw [query, hcount]; rfl, ⟨h.coherent.setCachedNodeCount, fun _ => ⟨rfl, rfl⟩,
        hlen⟩, fun _ => .inl rfl⟩
    · refine ⟨s, ?_, h, id⟩
      rw [query, nodeCount, if_pos hvalid, h.coherent.count_eq hlen hvalid]
      rfl
  | item offset =>
    rcases hlist : s.listValid with _ | _
    · have hback : ¬ s.GoesBackward offset.toNat := hq.resolve_left (by simp [hlist])
      obtain ⟨base, hbase, hcoherent, hvalid⟩ := nodeAt_spec hc hlen h.coherent
        offset.toNat_lt (.inr hback)
      refine ⟨{ s with toCollectionIndexCache := base }, ?_, ⟨hcoherent, ?_, h.short⟩, ?_⟩
      · rw [query, nodeAt, if_neg (by simp [hlist]), hbase]
        rfl
      · intro hv
        exact absurd (hlist.symm.trans hv) (by decide)
      · exact Or.imp (fun hv => hvalid (.inl hv)) id
    · refine ⟨s, ?_, h, id⟩
      obtain ⟨hvalid, hitems⟩ := h.valid hlist
      rw [query, nodeAt, if_pos hlist, h.coherent.count_eq hlen hvalid, hitems]
      split
      · rfl
      · rename_i hend
        rw [Query.answer, List.getElem?_eq_none (Nat.not_lt.mp hend)]
        rfl

/-- **Any other is not.** -/
theorem query_unsupported (hc : ServesForward c xs) (hs : StubbedBackward c)
    (hlen : xs.length ≤ 2 ^ 31) (hrounds : xs.length ≤ rounds) (h : Truthful s xs) {q : Query}
    (hq : ¬ q.Supported s) : s.query c rounds q ≠ some (q.answer xs, s') := by
  intro heq
  cases q with
  | length =>
    unfold Query.Supported at hq
    obtain ⟨hvalid, hitems⟩ := not_or.mp hq
    rw [query, nodeCount_eq hc hlen hrounds (by simpa using hvalid)] at heq
    have hcount : (s.cachedList ++ xs).length % 2 ^ 32 = xs.length :=
      Answer.length.inj (congrArg Prod.fst (Option.some.inj heq))
    have hpos : 0 < s.cachedList.length := List.length_pos_iff.mpr hitems
    have hshort := h.short
    rw [List.length_append] at hcount
    omega
  | item offset =>
    unfold Query.Supported at hq
    obtain ⟨hlist, hback⟩ := not_or.mp hq
    obtain ⟨hlt, base, hbase⟩ :=
      nodeAt_stubbed hc hs hlen h.coherent (not_not.mp hback)
    rw [query, nodeAt, if_neg hlist, hbase] at heq
    have hnone : none = xs[offset.toNat]? :=
      Answer.item.inj (congrArg Prod.fst (Option.some.inj heq))
    rw [List.getElem?_eq_getElem hlt] at hnone
    cases hnone

/-- **A query is answered right exactly when it is supported.** -/
theorem query_iff (hc : ServesForward c xs) (hs : StubbedBackward c) (hlen : xs.length ≤ 2 ^ 31)
    (hrounds : xs.length ≤ rounds) (h : Truthful s xs) (q : Query) :
    (∃ s', s.query c rounds q = some (q.answer xs, s')) ↔ q.Supported s := by
  constructor
  · rintro ⟨s', hs'⟩
    by_contra hq
    exact query_unsupported hc hs hlen hrounds h hq hs'
  · intro hq
    obtain ⟨s', hs', -⟩ := query_spec hc hlen hrounds h hq
    exact ⟨s', hs'⟩

end CollectionItemsCache

end Blinkit.Dom
