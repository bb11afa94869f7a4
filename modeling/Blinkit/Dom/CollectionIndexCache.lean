import Mathlib.Algebra.Group.Int.Defs
import Mathlib.Algebra.Group.Nat.Defs
import Mathlib.Data.List.Basic
import Mathlib.Tactic.Common

/-!
# The index cache of a live collection

Translation of `collection_index_cache.h`.

* `Collection` — what the cache asks of the collection: its traversals, at one state of the tree.
* `CollectionIndexCache` — the fields; `nodeAt` and `nodeCount` answer from the node, the index and
  the count they remember, walking forward, backward or from the end.
* `ServesForward`, `ServesBackward`, `StubbedBackward` — how the traversals relate to a list.
* `Coherent` — what the cache remembers is true of the list.
* `GoesBackward` — the query is answered from behind: backward from the cached node, or from the
  last node.

The counters are of type `unsigned`: the count has 32 bits, the index 31. Principal results:
`nodeAt_spec`, `nodeAt_stubbed` and `nodeCount_spec`.
-/

set_option autoImplicit false

namespace Blinkit.Dom

/-- The traversals of a collection. A traversal that is still running at its bound gives `none`;
those towards an offset also give the offset they have come to. -/
structure Collection (α : Type) where
  canTraverseBackward : Bool
  traverseToFirst : Option (Option α)
  traverseToLast : Option (Option α)
  traverseForwardToOffset (offset : Nat) (current : Option α) (currentOffset : Nat) :
    Option (Option α × Nat)
  traverseBackwardToOffset (offset : Nat) (current : Option α) (currentOffset : Nat) :
    Option (Option α × Nat)

/-- Subtraction of `unsigned` numbers. -/
def sub32 (a b : Nat) : Nat := (a + 2 ^ 32 - b) % 2 ^ 32

theorem sub32_of_le {a b : Nat} (hab : b ≤ a) (ha : a < 2 ^ 32) : sub32 a b = a - b := by
  unfold sub32
  omega

structure CollectionIndexCache (α : Type) where
  currentNode : Option α := none
  cachedNodeCount : Nat := 0
  cachedNodeIndex : Nat := 0
  isLengthCacheValid : Bool := false

namespace CollectionIndexCache

variable {α : Type}

/-- `SetCachedNode`; the index is a bit field of 31 bits. -/
def setCachedNode (s : CollectionIndexCache α) (node : Option α) (index : Nat) :
    CollectionIndexCache α :=
  { s with currentNode := node, cachedNodeIndex := index % 2 ^ 31 }

@[simp] theorem setCachedNode_currentNode (s : CollectionIndexCache α) (node : Option α)
    (index : Nat) : (s.setCachedNode node index).currentNode = node := rfl

@[simp] theorem setCachedNode_cachedNodeIndex (s : CollectionIndexCache α) (node : Option α)
    (index : Nat) : (s.setCachedNode node index).cachedNodeIndex = index % 2 ^ 31 := rfl

@[simp] theorem setCachedNode_cachedNodeCount (s : CollectionIndexCache α) (node : Option α)
    (index : Nat) : (s.setCachedNode node index).cachedNodeCount = s.cachedNodeCount := rfl

@[simp] theorem setCachedNode_isLengthCacheValid (s : CollectionIndexCache α) (node : Option α)
    (index : Nat) : (s.setCachedNode node index).isLengthCacheValid = s.isLengthCacheValid := rfl

/-- `SetCachedNodeCount`. -/
def setCachedNodeCount (s : CollectionIndexCache α) (length : Nat) : CollectionIndexCache α :=
  { s with cachedNodeCount := length % 2 ^ 32, isLengthCacheValid := true }

def invalidate (s : CollectionIndexCache α) : CollectionIndexCache α :=
  { s with currentNode := none, isLengthCacheValid := false }

def nodeInserted (s : CollectionIndexCache α) : CollectionIndexCache α :=
  { s with currentNode := none, cachedNodeCount := (s.cachedNodeCount + 1) % 2 ^ 32 }

def nodeRemoved (s : CollectionIndexCache α) : CollectionIndexCache α :=
  { s with currentNode := none, cachedNodeCount := sub32 s.cachedNodeCount 1 }

mutual

/-- `NodeBeforeCachedNode`. The calls between the two functions are at most `depth` deep. -/
def nodeBeforeCachedNode (c : Collection α) :
    Nat → CollectionIndexCache α → Nat → Option (Option α × CollectionIndexCache α)
  | 0, _, _ => none
  | depth + 1, s, index => do
    let currentIndex := s.cachedNodeIndex
    -- determine if we should traverse from the beginning of the collection
    let firstIsCloser := index < sub32 currentIndex index
    if firstIsCloser || !c.canTraverseBackward then
      let firstNode ← c.traverseToFirst
      let s := s.setCachedNode firstNode 0
      if index ≠ 0 then nodeAfterCachedNode c depth s index
      else return (firstNode, s)
    else
      let (currentNode, currentIndex) ←
        c.traverseBackwardToOffset index s.currentNode currentIndex
      return (currentNode, s.setCachedNode currentNode currentIndex)

/-- `NodeAfterCachedNode`. -/
def nodeAfterCachedNode (c : Collection α) :
    Nat → CollectionIndexCache α → Nat → Option (Option α × CollectionIndexCache α)
  | 0, _, _ => none
  | depth + 1, s, index => do
    let currentIndex := s.cachedNodeIndex
    -- determine if we should traverse from the end of the collection
    let lastIsCloser := s.isLengthCacheValid &&
      sub32 s.cachedNodeCount index < sub32 index currentIndex
    if lastIsCloser && c.canTraverseBackward then
      let lastItem ← c.traverseToLast
      let s := s.setCachedNode lastItem (sub32 s.cachedNodeCount 1)
      if index < sub32 s.cachedNodeCount 1 then nodeBeforeCachedNode c depth s index
      else return (lastItem, s)
    else
      let (currentNode, currentIndex) ←
        c.traverseForwardToOffset index s.currentNode currentIndex
      match currentNode with
      | none => return (none, s.setCachedNodeCount (currentIndex + 1))
      | some node => return (some node, s.setCachedNode (some node) currentIndex)

end

/-- `NodeAt`. No query goes more than two calls deep, see `nodeAt_spec` and `nodeAt_stubbed`. -/
def nodeAt (c : Collection α) (s : CollectionIndexCache α) (index : Nat) :
    Option (Option α × CollectionIndexCache α) :=
  if s.isLengthCacheValid && s.cachedNodeCount ≤ index then some (none, s)
  else
    match s.currentNode with
    | some node =>
      if s.cachedNodeIndex < index then nodeAfterCachedNode c 2 s index
      else if index < s.cachedNodeIndex then nodeBeforeCachedNode c 2 s index
      else some (some node, s)
    | none => do
      match ← c.traverseToFirst with
      | none => return (none, s.setCachedNodeCount 0)
      | some firstNode =>
        let s := s.setCachedNode (some firstNode) 0
        if index ≠ 0 then nodeAfterCachedNode c 2 s index else return (some firstNode, s)

/-- `NodeCount`. -/
def nodeCount (c : Collection α) (s : CollectionIndexCache α) :
    Option (Nat × CollectionIndexCache α) :=
  if s.isLengthCacheValid then some (s.cachedNodeCount, s)
  else do
    let (_, s) ← nodeAt c s (2 ^ 32 - 1)
    return (s.cachedNodeCount, s)

end CollectionIndexCache

/-! ## Traversals of a list -/

/-- The loops of `TraverseForwardToOffset` and `TraverseBackwardToOffset`: from node to node, as
long as `count` has not come to the offset. -/
def traverseToOffset {α : Type} (next : α → Option (Option α)) (count : Nat → Nat) (offset : Nat) :
    Nat → α → Nat → Option (Option α × Nat)
  | 0, _, _ => none
  | rounds + 1, current, currentOffset => do
    match ← next current with
    | none => return (none, currentOffset)
    | some node =>
      if count currentOffset = offset then return (some node, count currentOffset)
      else traverseToOffset next count offset rounds node (count currentOffset)

section Specification

variable {α : Type}

/-- The traversals from the front are those of the list `xs`. -/
structure ServesForward (c : Collection α) (xs : List α) : Prop where
  first : c.traverseToFirst = some xs.head?
  forward : ∀ (i j : Nat) (x : α), xs[i]? = some x → i < j →
    c.traverseForwardToOffset j (some x) i = some (xs[j]?, min j (xs.length - 1))

/-- The traversals from behind are those of the list `xs`. -/
structure ServesBackward (c : Collection α) (xs : List α) : Prop where
  can : c.canTraverseBackward = true
  last : c.traverseToLast = some xs.getLast?
  backward : ∀ (i j : Nat) (x : α), xs[i]? = some x → j < i →
    c.traverseBackwardToOffset j (some x) i = some (xs[j]?, j)

/-- The traversals from behind are stubs that find nothing. -/
structure StubbedBackward (c : Collection α) : Prop where
  can : c.canTraverseBackward = true
  last : c.traverseToLast = some none
  backward : ∀ j x i, c.traverseBackwardToOffset j x i = some (none, i)

/-- What the cache remembers is true of the list. -/
structure Coherent (s : CollectionIndexCache α) (xs : List α) : Prop where
  node : ∀ x, s.currentNode = some x → xs[s.cachedNodeIndex]? = some x
  count : s.isLengthCacheValid = true → s.cachedNodeCount = xs.length % 2 ^ 32

/-- The loop along a list towards its end. -/
theorem traverseToOffset_forward {next : α → Option (Option α)} {xs : List α}
    (hnext : ∀ (k : Nat) (x : α), xs[k]? = some x → next x = some xs[k + 1]?)
    (hlen : xs.length ≤ 2 ^ 32) {i j rounds : Nat} {x : α} (hx : xs[i]? = some x) (hij : i < j)
    (hrounds : xs.length ≤ i + rounds) :
    traverseToOffset next (fun k => (k + 1) % 2 ^ 32) j rounds x i =
      some (xs[j]?, min j (xs.length - 1)) := by
  have hi : i < xs.length := (List.getElem?_eq_some_iff.mp hx).1
  induction rounds generalizing i x with
  | zero => omega
  | succ rounds ih =>
    rw [traverseToOffset, hnext i x hx]
    simp only [Option.bind_eq_bind, Option.bind_some]
    cases hy : xs[i + 1]? with
    | none =>
      have hend : xs.length ≤ i + 1 := List.getElem?_eq_none_iff.mp hy
      have hnone : xs[j]? = none := List.getElem?_eq_none (by omega)
      rw [hnone, Nat.min_eq_right (by omega)]
      simp only [Option.pure_def, show i = xs.length - 1 by omega]
    | some y =>
      have hi' : i + 1 < xs.length := (List.getElem?_eq_some_iff.mp hy).1
      have hmod : (i + 1) % 2 ^ 32 = i + 1 := Nat.mod_eq_of_lt (by omega)
      simp only [hmod]
      split
      · rename_i hj
        rw [← hj, hy, Nat.min_eq_left (by omega)]
        rfl
      · exact ih hy (by omega) (by omega) hi'

/-- The loop along a list towards its front. -/
theorem traverseToOffset_backward {prev : α → Option (Option α)} {xs : List α}
    (hprev : ∀ (k : Nat) (x : α), xs[k + 1]? = some x → prev x = some xs[k]?)
    (hlen : xs.length ≤ 2 ^ 32) {i j rounds : Nat} {x : α} (hx : xs[i]? = some x) (hij : j < i)
    (hrounds : i ≤ j + rounds) :
    traverseToOffset prev (fun k => sub32 k 1) j rounds x i = some (xs[j]?, j) := by
  induction rounds generalizing i x with
  | zero => omega
  | succ rounds ih =>
    obtain ⟨i, rfl⟩ : ∃ k, i = k + 1 := ⟨i - 1, by omega⟩
    have hi : i + 1 < xs.length := (List.getElem?_eq_some_iff.mp hx).1
    obtain ⟨y, hy⟩ : ∃ y, xs[i]? = some y := ⟨_, List.getElem?_eq_getElem (by omega)⟩
    have hsub : sub32 (i + 1) 1 = i := sub32_of_le (by omega) (by omega)
    rw [traverseToOffset, hprev i x hx, hy]
    simp only [Option.bind_eq_bind, Option.bind_some, hsub]
    split
    · rename_i hj
      rw [← hj, hy]
      rfl
    · exact ih hy (by omega) (by omega)

namespace CollectionIndexCache

/-- Where a walk starts: at the cached node, or at the first. -/
def start (s : CollectionIndexCache α) : Nat :=
  if s.currentNode.isSome then s.cachedNodeIndex else 0

/-- The query is answered from behind. -/
def GoesBackward (s : CollectionIndexCache α) (index : Nat) : Prop :=
  (s.isLengthCacheValid = true → index < s.cachedNodeCount) ∧
    ((index < s.start ∧ s.start - index ≤ index) ∨
      (s.start < index ∧ s.isLengthCacheValid = true ∧
        s.cachedNodeCount - index < index - s.start))

instance (s : CollectionIndexCache α) (index : Nat) : Decidable (s.GoesBackward index) :=
  inferInstanceAs (Decidable (_ ∧ _))

end CollectionIndexCache

variable {c : Collection α} {s : CollectionIndexCache α} {xs : List α} {index : Nat}

open CollectionIndexCache

theorem coherent_fresh (xs : List α) : Coherent ({} : CollectionIndexCache α) xs where
  node _ hx := by cases hx
  count hv := by cases hv

theorem Coherent.invalidate (s : CollectionIndexCache α) (xs : List α) :
    Coherent s.invalidate xs where
  node _ hx := by cases hx
  count hv := by cases hv

theorem Coherent.setCachedNode (h : Coherent s xs) {node : Option α} {i : Nat} (hi : i < 2 ^ 31)
    (hnode : ∀ x, node = some x → xs[i]? = some x) : Coherent (s.setCachedNode node i) xs where
  node x hx := by
    rw [setCachedNode_cachedNodeIndex, Nat.mod_eq_of_lt hi]
    exact hnode x hx
  count := h.count

theorem Coherent.setCachedNodeCount (h : Coherent s xs) :
    Coherent (s.setCachedNodeCount xs.length) xs where
  node := h.node
  count _ := rfl

/-- As long as there are few of them the nodes are counted. -/
theorem Coherent.count_eq (h : Coherent s xs) (hlen : xs.length ≤ 2 ^ 31)
    (hvalid : s.isLengthCacheValid = true) : s.cachedNodeCount = xs.length :=
  (h.count hvalid).trans (Nat.mod_eq_of_lt (by omega))

/-- A node comes in, anywhere. -/
theorem Coherent.nodeInserted (h : Coherent s xs) {ys : List α} (hys : ys.length = xs.length + 1) :
    Coherent s.nodeInserted ys where
  node _ hx := by cases hx
  count hv := by
    have hcount := h.count hv
    simp only [CollectionIndexCache.nodeInserted, hcount, hys]
    omega

/-- A node goes. -/
theorem Coherent.nodeRemoved (h : Coherent s xs) {ys : List α} (hys : xs.length = ys.length + 1) :
    Coherent s.nodeRemoved ys where
  node _ hx := by cases hx
  count hv := by
    have hcount := h.count hv
    simp only [CollectionIndexCache.nodeRemoved, sub32, hcount, hys]
    omega

/-! ## The walks -/

/-- What a query leaves: its answer, a coherent cache, and a valid count when it has come to the
end or had one. -/
def Answers (xs : List α) (s : CollectionIndexCache α) (index : Nat)
    (r : Option (Option α × CollectionIndexCache α)) : Prop :=
  ∃ s', r = some (xs[index]?, s') ∧ Coherent s' xs ∧
    (s.isLengthCacheValid = true ∨ xs.length ≤ index → s'.isLengthCacheValid = true)

/-- The walk forward from the cached node. -/
theorem walkForward_spec (hc : ServesForward c xs) (hlen : xs.length ≤ 2 ^ 31)
    (h : Coherent s xs) {x : α} (hx : s.currentNode = some x) (hindex : s.cachedNodeIndex < index)
    {depth : Nat} (hfront : ¬ (s.isLengthCacheValid = true ∧
      sub32 s.cachedNodeCount index < sub32 index s.cachedNodeIndex)) :
    Answers xs s index (nodeAfterCachedNode c (depth + 1) s index) := by
  have hforward := hc.forward _ _ _ (h.node x hx) hindex
  have hclose : (s.isLengthCacheValid &&
      decide (sub32 s.cachedNodeCount index < sub32 index s.cachedNodeIndex)) = false := by
    simpa using hfront
  rw [nodeAfterCachedNode]
  simp only [hclose, Bool.false_and, Bool.false_eq_true, if_false, hx, hforward,
    Option.bind_eq_bind, Option.bind_some]
  have hpos : s.cachedNodeIndex < xs.length := (List.getElem?_eq_some_iff.mp (h.node x hx)).1
  cases hi : xs[index]? with
  | none =>
    have hle : xs.length ≤ index := List.getElem?_eq_none_iff.mp hi
    have hcount : min index (xs.length - 1) + 1 = xs.length := by omega
    exact ⟨s.setCachedNodeCount xs.length, by rw [hi, hcount]; rfl,
      h.setCachedNodeCount, fun _ => rfl⟩
  | some y =>
    have hlt : index < xs.length := (List.getElem?_eq_some_iff.mp hi).1
    have hmin : min index (xs.length - 1) = index := by omega
    exact ⟨s.setCachedNode (some y) index, by rw [hi, hmin]; rfl,
      h.setCachedNode (by omega) fun z hz => by rw [hi, hz],
      fun hv => hv.resolve_right (by omega)⟩

/-- The walk forward from the first node. -/
theorem walkFromFirst_spec (hc : ServesForward c xs) (hlen : xs.length ≤ 2 ^ 31)
    (h : Coherent s xs) {x : α} (hx : xs.head? = some x) {depth : Nat}
    (hfront : ¬ (s.isLengthCacheValid = true ∧ sub32 s.cachedNodeCount index < index))
    (hindex : index < 2 ^ 32) :
    Answers xs s index (if index ≠ 0 then
      nodeAfterCachedNode c (depth + 1) (s.setCachedNode (some x) 0) index
      else some (some x, s.setCachedNode (some x) 0)) := by
  have hx₀ : xs[0]? = some x := by rw [← hx, List.head?_eq_getElem?]
  have h' : Coherent (s.setCachedNode (some x) 0) xs :=
    h.setCachedNode (Nat.two_pow_pos 31) fun z hz => by rw [hx₀, hz]
  split
  · rename_i hpos
    refine walkForward_spec (s := s.setCachedNode (some x) 0) hc hlen h' rfl ?_ ?_
    · rw [setCachedNode_cachedNodeIndex, Nat.zero_mod]
      exact Nat.pos_of_ne_zero hpos
    have hsub : sub32 index 0 = index := sub32_of_le (Nat.zero_le _) hindex
    rw [setCachedNode_isLengthCacheValid, setCachedNode_cachedNodeCount,
      setCachedNode_cachedNodeIndex, Nat.zero_mod, hsub]
    exact hfront
  · rename_i hzero
    obtain rfl : index = 0 := not_not.mp hzero
    have hpos : 0 < xs.length := (List.getElem?_eq_some_iff.mp hx₀).1
    exact ⟨_, by rw [hx₀], h', fun hv => hv.resolve_right (by omega)⟩

/-- The walk backward from the cached node. -/
theorem walkBackward_spec (hc : ServesBackward c xs) (hlen : xs.length ≤ 2 ^ 31)
    (h : Coherent s xs) {x : α} (hx : s.currentNode = some x) (hindex : index < s.cachedNodeIndex)
    {depth : Nat} (hback : ¬ index < sub32 s.cachedNodeIndex index) :
    Answers xs s index (nodeBeforeCachedNode c (depth + 1) s index) := by
  have hbackward := hc.backward _ _ _ (h.node x hx) hindex
  have hlt : s.cachedNodeIndex < xs.length := (List.getElem?_eq_some_iff.mp (h.node x hx)).1
  rw [nodeBeforeCachedNode]
  simp only [hback, decide_false, hc.can, Bool.not_true, Bool.or_self, Bool.false_eq_true, if_false,
    hx, hbackward, Option.bind_eq_bind, Option.bind_some]
  exact ⟨s.setCachedNode xs[index]? index, rfl, h.setCachedNode (by omega) fun z hz => hz,
    fun hv => hv.resolve_right (by omega)⟩

/-- The walk backward from the last node. -/
theorem walkFromLast_spec (hc : ServesBackward c xs) (hlen : xs.length ≤ 2 ^ 31)
    (h : Coherent s xs) (hstart : s.cachedNodeIndex < index) {depth : Nat}
    (hlt : index < xs.length) (hvalid : s.isLengthCacheValid = true)
    (hclose : xs.length - index < index - s.cachedNodeIndex) :
    Answers xs s index (nodeAfterCachedNode c (depth + 2) s index) := by
  have hcount := h.count_eq hlen hvalid
  have hclose' : sub32 s.cachedNodeCount index < sub32 index s.cachedNodeIndex := by
    rw [sub32_of_le (by omega) (by omega), sub32_of_le (by omega) (by omega), hcount]
    exact hclose
  have hlast : sub32 s.cachedNodeCount 1 = xs.length - 1 := by
    rw [sub32_of_le (by omega) (by omega), hcount]
  obtain ⟨y, hy⟩ : ∃ y, xs[xs.length - 1]? = some y :=
    ⟨_, List.getElem?_eq_getElem (by omega)⟩
  have hlastItem : c.traverseToLast = some (some y) := by
    rw [hc.last, List.getLast?_eq_getElem?, hy]
  have h' : Coherent (s.setCachedNode (some y) (xs.length - 1)) xs :=
    h.setCachedNode (by omega) fun z hz => by rw [hy, hz]
  have hindex' : (s.setCachedNode (some y) (xs.length - 1)).cachedNodeIndex = xs.length - 1 :=
    Nat.mod_eq_of_lt (by omega)
  rw [nodeAfterCachedNode]
  simp only [hvalid, hclose', decide_true, Bool.and_self, hc.can, if_true, hlastItem, hlast,
    Option.bind_eq_bind, Option.bind_some, setCachedNode_cachedNodeCount]
  split
  · rename_i hbefore
    refine walkBackward_spec hc hlen h' rfl (by rw [hindex']; exact hbefore) ?_
    rw [hindex', sub32_of_le (by omega) (by omega)]
    omega
  · have hi : index = xs.length - 1 := by omega
    exact ⟨_, by rw [hi, hy]; rfl, h', fun hv => hv.resolve_right (by omega)⟩

/-! ## Queries -/

/-- `NodeAfterCachedNode` answers, from behind when the collection can. -/
theorem nodeAfterCachedNode_spec (hc : ServesForward c xs) (hlen : xs.length ≤ 2 ^ 31)
    (h : Coherent s xs) {x : α} (hx : s.currentNode = some x) (hstart : s.cachedNodeIndex < index)
    (hindex : index < 2 ^ 32) (hcount : s.isLengthCacheValid = true → index < s.cachedNodeCount)
    (hback : ServesBackward c xs ∨ ¬ (s.isLengthCacheValid = true ∧
      s.cachedNodeCount - index < index - s.cachedNodeIndex)) {depth : Nat} :
    Answers xs s index (nodeAfterCachedNode c (depth + 2) s index) := by
  have hpos : s.cachedNodeIndex < xs.length := (List.getElem?_eq_some_iff.mp (h.node x hx)).1
  by_cases hclose : s.isLengthCacheValid = true ∧
      s.cachedNodeCount - index < index - s.cachedNodeIndex
  · have hs := hback.resolve_right fun hno => hno hclose
    obtain ⟨hvalid, hclose'⟩ := hclose
    have hlt := hcount hvalid
    rw [h.count_eq hlen hvalid] at hclose' hlt
    exact walkFromLast_spec hs hlen h hstart hlt hvalid hclose'
  · refine walkForward_spec hc hlen h hx hstart fun hsub => hclose ⟨hsub.1, ?_⟩
    have hlt := hcount hsub.1
    have hcnt := h.count_eq hlen hsub.1
    have hsub' := hsub.2
    rwa [sub32_of_le (by omega) (by omega), sub32_of_le (by omega) (by omega)] at hsub'

/-- `NodeBeforeCachedNode` answers, backward when the collection can. -/
theorem nodeBeforeCachedNode_spec (hc : ServesForward c xs) (hlen : xs.length ≤ 2 ^ 31)
    (h : Coherent s xs) {x : α} (hx : s.currentNode = some x) (hstart : index < s.cachedNodeIndex)
    (hback : ServesBackward c xs ∨ index < s.cachedNodeIndex - index) {depth : Nat} :
    Answers xs s index (nodeBeforeCachedNode c (depth + 2) s index) := by
  have hpos : s.cachedNodeIndex < xs.length := (List.getElem?_eq_some_iff.mp (h.node x hx)).1
  have hsub : sub32 s.cachedNodeIndex index = s.cachedNodeIndex - index :=
    sub32_of_le (by omega) (by omega)
  by_cases hfirst : index < s.cachedNodeIndex - index
  · obtain ⟨y, hy⟩ : ∃ y, xs.head? = some y := by
      rw [List.head?_eq_getElem?]
      exact ⟨_, List.getElem?_eq_getElem (by omega)⟩
    rw [nodeBeforeCachedNode]
    simp only [hsub, hfirst, decide_true, Bool.true_or, if_true, hc.first, hy, Option.bind_eq_bind,
      Option.bind_some]
    refine walkFromFirst_spec hc hlen h hy ?_ (by omega)
    -- the first node is so close that the last is not
    rintro ⟨hvalid, hlast⟩
    rw [sub32_of_le (by rw [h.count_eq hlen hvalid]; omega) (by rw [h.count_eq hlen hvalid]; omega),
      h.count_eq hlen hvalid] at hlast
    omega
  · exact walkBackward_spec (hback.resolve_right hfirst) hlen h hx hstart (by rwa [hsub])

/-- **A query is answered as the list says**, by a collection that can be walked from behind, or
when the query does not go there. -/
theorem nodeAt_spec (hc : ServesForward c xs) (hlen : xs.length ≤ 2 ^ 31) (h : Coherent s xs)
    (hindex : index < 2 ^ 32) (hback : ServesBackward c xs ∨ ¬ s.GoesBackward index) :
    Answers xs s index (nodeAt c s index) := by
  unfold nodeAt
  split
  · rename_i hend
    rw [Bool.and_eq_true, decide_eq_true_eq] at hend
    have hnone : xs[index]? = none := List.getElem?_eq_none (h.count_eq hlen hend.1 ▸ hend.2)
    exact ⟨s, by rw [hnone], h, fun _ => hend.1⟩
  · rename_i hend
    have hcount : s.isLengthCacheValid = true → index < s.cachedNodeCount := by
      intro hvalid
      simpa [hvalid] using hend
    split
    · rename_i x hx
      have hstart : s.start = s.cachedNodeIndex := by simp [start, hx]
      split
      · rename_i hafter
        refine nodeAfterCachedNode_spec hc hlen h hx hafter hindex hcount (hback.imp id ?_)
        intro hno hclose
        exact hno ⟨hcount, .inr ⟨by omega, hclose.1, by rw [hstart]; exact hclose.2⟩⟩
      · split
        · rename_i hbefore
          refine nodeBeforeCachedNode_spec hc hlen h hx hbefore (hback.imp id fun hno => ?_)
          by_contra hfirst
          exact hno ⟨hcount, .inl ⟨by omega, by omega⟩⟩
        · have hsame : s.cachedNodeIndex = index := by omega
          have hnode := h.node x hx
          rw [hsame] at hnode
          have hlt := (List.getElem?_eq_some_iff.mp hnode).1
          exact ⟨s, by rw [hnode], h, fun hv => hv.resolve_right (by omega)⟩
    · rename_i hx
      have hstart : s.start = 0 := by simp [start, hx]
      rw [hc.first]
      cases hfirst : xs.head? with
      | none =>
        obtain rfl : xs = [] := List.head?_eq_none_iff.mp hfirst
        exact ⟨s.setCachedNodeCount 0, rfl, h.setCachedNodeCount, fun _ => rfl⟩
      | some y =>
        have hy : xs[0]? = some y := by rw [← hfirst, List.head?_eq_getElem?]
        simp only [Option.bind_eq_bind, Option.bind_some]
        by_cases hclose : 0 < index ∧ s.isLengthCacheValid = true ∧
            s.cachedNodeCount - index < index
        · obtain ⟨hpos, hvalid, hclose⟩ := hclose
          have hs := hback.resolve_right fun hno =>
            hno ⟨hcount, .inr ⟨by omega, hvalid, by omega⟩⟩
          have h' : Coherent (s.setCachedNode (some y) 0) xs :=
            h.setCachedNode (Nat.two_pow_pos 31) fun z hz => by rw [hy, hz]
          rw [if_pos (Nat.ne_of_gt hpos)]
          have hcnt := h.count_eq hlen hvalid
          have hlt := hcount hvalid
          refine walkFromLast_spec (s := s.setCachedNode (some y) 0) hs hlen h' ?_ (by omega) hvalid
            ?_
          · rw [setCachedNode_cachedNodeIndex, Nat.zero_mod]
            exact hpos
          · rw [setCachedNode_cachedNodeIndex, Nat.zero_mod]
            omega
        · refine walkFromFirst_spec hc hlen h hfirst (fun hlast => ?_) hindex
          have hlt := hcount hlast.1
          have hcnt := h.count_eq hlen hlast.1
          have hsub := hlast.2
          rw [sub32_of_le (by omega) (by omega)] at hsub
          exact hclose ⟨by omega, hlast.1, hsub⟩

/-- **`NodeCount` is the length of the list.** -/
theorem nodeCount_spec (hc : ServesForward c xs) (hlen : xs.length ≤ 2 ^ 31) (h : Coherent s xs)
    (hback : ServesBackward c xs) :
    ∃ s', nodeCount c s = some (xs.length, s') ∧ Coherent s' xs ∧ s'.isLengthCacheValid = true := by
  unfold nodeCount
  split
  · rename_i hvalid
    exact ⟨s, by rw [h.count_eq hlen hvalid], h, hvalid⟩
  · obtain ⟨s', hs', h', hvalid⟩ : Answers xs s (2 ^ 32 - 1) (nodeAt c s (2 ^ 32 - 1)) :=
      nodeAt_spec hc hlen h (by decide) (.inl hback)
    have hv := hvalid (.inr (by omega))
    exact ⟨s', by simp only [hs', Option.bind_eq_bind, Option.bind_some, h'.count_eq hlen hv,
      Option.pure_def], h', hv⟩

/-- The stub behind `NodeAfterCachedNode`. -/
theorem nodeAfterCachedNode_stubbed (hs : StubbedBackward c) (hlen : s.cachedNodeCount ≤ 2 ^ 31)
    (hvalid : s.isLengthCacheValid = true) (hstart : s.cachedNodeIndex < index)
    (hlt : index < s.cachedNodeCount)
    (hclose : s.cachedNodeCount - index < index - s.cachedNodeIndex) {depth : Nat} :
    ∃ s', nodeAfterCachedNode c (depth + 2) s index = some (none, s') := by
  have hclose' : sub32 s.cachedNodeCount index < sub32 index s.cachedNodeIndex := by
    rw [sub32_of_le (by omega) (by omega), sub32_of_le (by omega) (by omega)]
    exact hclose
  have hlast : sub32 s.cachedNodeCount 1 = s.cachedNodeCount - 1 :=
    sub32_of_le (by omega) (by omega)
  have hindex : (s.cachedNodeCount - 1) % 2 ^ 31 = s.cachedNodeCount - 1 :=
    Nat.mod_eq_of_lt (by omega)
  rw [nodeAfterCachedNode]
  simp only [hvalid, hclose', decide_true, Bool.and_self, hs.can, if_true, hs.last, hlast,
    Option.bind_eq_bind, Option.bind_some, setCachedNode_cachedNodeCount]
  split
  · have hback : ¬ index < sub32 (s.cachedNodeCount - 1) index := by
      rw [sub32_of_le (by omega) (by omega)]
      omega
    rw [nodeBeforeCachedNode]
    simp only [setCachedNode_cachedNodeIndex, hindex, hback, decide_false, hs.can, Bool.not_true,
      Bool.or_self, Bool.false_eq_true, if_false, hs.backward, Option.bind_eq_bind,
      Option.bind_some]
    exact ⟨_, rfl⟩
  · exact ⟨_, rfl⟩

/-- **With stubs behind, a query that goes there finds nothing.** -/
theorem nodeAt_stubbed (hc : ServesForward c xs) (hs : StubbedBackward c) (hlen : xs.length ≤ 2 ^ 31)
    (h : Coherent s xs) (hback : s.GoesBackward index) :
    index < xs.length ∧ ∃ s', nodeAt c s index = some (none, s') := by
  obtain ⟨hcount, hback⟩ := hback
  have hend : ¬ (s.isLengthCacheValid && decide (s.cachedNodeCount ≤ index)) = true := by
    rw [Bool.and_eq_true, decide_eq_true_eq]
    rintro ⟨hvalid, hle⟩
    exact absurd (hcount hvalid) (by omega)
  unfold nodeAt
  rw [if_neg hend]
  cases hx : s.currentNode with
  | some x =>
    have hstart : s.start = s.cachedNodeIndex := by simp [start, hx]
    have hpos : s.cachedNodeIndex < xs.length := (List.getElem?_eq_some_iff.mp (h.node x hx)).1
    rw [hstart] at hback
    rcases hback with ⟨hbefore, hfar⟩ | ⟨hafter, hvalid, hclose⟩
    · have hsub : ¬ index < sub32 s.cachedNodeIndex index := by
        rw [sub32_of_le (by omega) (by omega)]
        omega
      refine ⟨by omega, s.setCachedNode none s.cachedNodeIndex, ?_⟩
      simp only [if_neg (Nat.not_lt.mpr (Nat.le_of_lt hbefore)), if_pos hbefore]
      rw [nodeBeforeCachedNode]
      simp only [hsub, decide_false, hs.can, Bool.not_true, Bool.or_self, Bool.false_eq_true,
        if_false, hs.backward, Option.bind_eq_bind, Option.bind_some, Option.pure_def]
    · have hcnt := h.count_eq hlen hvalid
      have hlt := hcount hvalid
      simp only [if_pos hafter]
      exact ⟨by omega, nodeAfterCachedNode_stubbed hs (by omega) hvalid hafter hlt hclose⟩
  | none =>
    have hstart : s.start = 0 := by simp [start, hx]
    rw [hstart] at hback
    obtain ⟨hafter, hvalid, hclose⟩ := hback.resolve_left fun hno => Nat.not_lt_zero _ hno.1
    have hcnt := h.count_eq hlen hvalid
    have hlt := hcount hvalid
    obtain ⟨y, hy⟩ : ∃ y, xs.head? = some y := by
      rw [List.head?_eq_getElem?]
      exact ⟨_, List.getElem?_eq_getElem (by omega)⟩
    refine ⟨by omega, ?_⟩
    simp only [hc.first, hy, Option.bind_eq_bind, Option.bind_some,
      if_pos (Nat.ne_of_gt hafter)]
    have hle : s.cachedNodeCount ≤ 2 ^ 31 := by rw [hcnt]; exact hlen
    refine nodeAfterCachedNode_stubbed (s := s.setCachedNode (some y) 0) hs hle hvalid ?_ hlt ?_
    · rw [setCachedNode_cachedNodeIndex, Nat.zero_mod]
      exact hafter
    · rw [setCachedNode_cachedNodeIndex, Nat.zero_mod]
      exact hclose

/-- **The index of the cached node wraps.** A fresh cache finds the node at a multiple of `2 ^ 31`,
and takes it for the first. -/
theorem nodeAt_wraps (hc : ServesForward c xs) (hpos : 0 < index) (hmod : index % 2 ^ 31 = 0)
    (hlt : index < xs.length) :
    ∃ s', nodeAt c {} index = some (xs[index]?, s') ∧ nodeAt c s' 0 = some (xs[index]?, s') := by
  obtain ⟨x, hx⟩ : ∃ x, xs[0]? = some x := ⟨_, List.getElem?_eq_getElem (by omega)⟩
  obtain ⟨y, hy⟩ : ∃ y, xs[index]? = some y := ⟨_, List.getElem?_eq_getElem hlt⟩
  have hfirst : c.traverseToFirst = some (some x) := by
    rw [hc.first, List.head?_eq_getElem?, hx]
  have hwalk := hc.forward 0 index x hx hpos
  rw [hy, Nat.min_eq_left (by omega)] at hwalk
  refine ⟨(({} : CollectionIndexCache α).setCachedNode (some x) 0).setCachedNode (some y) index,
    ?_, ?_⟩
  · rw [hy]
    unfold nodeAt
    simp only [Bool.false_and, Bool.false_eq_true, if_false, hfirst, Option.bind_eq_bind,
      Option.bind_some, if_pos (Nat.ne_of_gt hpos)]
    rw [nodeAfterCachedNode]
    simp only [setCachedNode_isLengthCacheValid, Bool.false_and, Bool.false_eq_true, if_false,
      setCachedNode_currentNode, setCachedNode_cachedNodeIndex, Nat.zero_mod, hwalk,
      Option.bind_eq_bind, Option.bind_some, Option.pure_def]
  · rw [hy]
    unfold nodeAt
    simp only [setCachedNode_isLengthCacheValid, Bool.false_and, Bool.false_eq_true, if_false,
      setCachedNode_currentNode, setCachedNode_cachedNodeIndex, hmod, Nat.lt_irrefl]

end Specification

end Blinkit.Dom
