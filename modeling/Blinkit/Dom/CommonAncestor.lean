import Mathlib.Data.List.TakeWhile
import Blinkit.Lib.Climb
import Blinkit.Dom.NthIndexCache

/-!
# Common ancestors

Translation of `Node::CommonAncestor`. The function measures how deep the two nodes are, brings
them to the same depth and climbs from there in step. It returns early when one of the nodes is on
the way of the other, and at once when the nodes belong to different documents.

* `increment` — `++` of an `int`.
* `depthBelow` — the two loops that measure a depth.
* `commonAncestor` — the function; `none` when a depth overflows, a loop steps up from a null
  pointer or a loop does not end.
* `IsDeepestCommonAncestor` — what the result should be.
* `DepthsFit` — the loops that measure the depths count fewer than `2 ^ 31` nodes.

Principal results: `commonAncestor_deepest`, and `commonAncestor_overflows`: in a tree that is
deeper than an `int` counts the function does not return.
-/

set_option autoImplicit false

namespace Blinkit.Dom

open LinkedForest

/-! ## The source -/

/-- `++depth` of an `int`; `none` where it overflows, which is undefined. -/
def increment (depth : Nat) : Option Nat :=
  if depth + 1 < 2 ^ 31 then some (depth + 1) else none

/-- The loop that measures a depth, from `node` on; the inner `none` says that it has come to
`target`. -/
def depthBelow (getParent : NodeId → Option NodeId) (target : NodeId) :
    Nat → Option NodeId → Nat → Option (Option Nat)
  | _, none, depth => some (some depth)
  | 0, some _, _ => none
  | rounds + 1, some node, depth =>
    if node = target then some none
    else do depthBelow getParent target rounds (getParent node) (← increment depth)

/-- `Node::CommonAncestor`. -/
def commonAncestor (h : Heap) (getParent : NodeId → Option NodeId) (rounds : Nat)
    (this other : NodeId) : Option (Option NodeId) :=
  if this = other then some (some this)
  else if h.document this ≠ h.document other then some none
  else do
    match ← depthBelow getParent other rounds (some this) 0 with
    | none => return some other
    | some thisDepth =>
      match ← depthBelow getParent this rounds (some other) 0 with
      | none => return some this
      | some otherDepth =>
        if thisDepth > otherDepth then
          let thisIterator ← climbTimes getParent (thisDepth - otherDepth) (some this)
          meet getParent rounds thisIterator (some other)
        else
          let otherIterator ← climbTimes getParent (otherDepth - thisDepth) (some other)
          meet getParent rounds (some this) otherIterator

/-! ## What the result should be -/

def IsCommonAncestor (parent : NodeId → Option NodeId) (a b x : NodeId) : Prop :=
  Above parent a x ∧ Above parent b x

/-- The common ancestor that every common ancestor is above of. -/
def IsDeepestCommonAncestor (parent : NodeId → Option NodeId) (a b x : NodeId) : Prop :=
  IsCommonAncestor parent a b x ∧ ∀ y, IsCommonAncestor parent a b y → Above parent x y

/-- The result is the deepest common ancestor, or null when there is none. -/
structure FindsDeepest (parent : NodeId → Option NodeId) (a b : NodeId)
    (r : Option NodeId) : Prop where
  deepest : ∀ x, r = some x → IsDeepestCommonAncestor parent a b x
  null : r = none ↔ ∀ x, ¬ IsCommonAncestor parent a b x

/-- From `a` up to `b`, or to the root, there are fewer nodes than an `int` counts. -/
def CountFits (parent : NodeId → Option NodeId) (a b : NodeId) : Prop :=
  ∀ l, Climbs parent (some a) l → (l.takeWhile (· ≠ b)).length < 2 ^ 31

/-- The loops that are run count fewer than `2 ^ 31` nodes. -/
def DepthsFit (h : Heap) (this other : NodeId) : Prop :=
  this ≠ other → h.document this = h.document other →
    CountFits h.parentNode this other ∧
      (¬ Above h.parentNode this other → CountFits h.parentNode other this)

section Climb

variable {parent : NodeId → Option NodeId} {a b x : NodeId} {l r as bs : List NodeId}

theorem FindsDeepest.of_some (h : IsDeepestCommonAncestor parent a b x) :
    FindsDeepest parent a b (some x) where
  deepest y hy := by
    obtain rfl := Option.some.inj hy
    exact h
  null := iff_of_false (by simp) fun hnone => hnone x h.1

theorem FindsDeepest.of_none (h : ∀ x, ¬ IsCommonAncestor parent a b x) :
    FindsDeepest parent a b none where
  deepest x hx := by cases hx
  null := iff_of_true rfl h

theorem FindsDeepest.of_above (h : Above parent a b) : FindsDeepest parent a b (some b) :=
  .of_some ⟨⟨h, .refl b⟩, fun _ hy => hy.2⟩

theorem FindsDeepest.symm {r : Option NodeId} (h : FindsDeepest parent a b r) :
    FindsDeepest parent b a r where
  deepest x hx :=
    have hd := h.deepest x hx
    ⟨hd.1.symm, fun y hy => hd.2 y hy.symm⟩
  null := h.null.trans (forall_congr' fun _ => not_congr and_comm)

/-- The loop counts the nodes in front of `target`, and overflows where an `int` does not hold
their number. -/
theorem depthBelow_eq {target : NodeId} {o : Option NodeId} (h : Climbs parent o l) {rounds : Nat}
    (hrounds : l.length ≤ rounds) {depth : Nat} (hdepth : depth < 2 ^ 31) :
    depthBelow parent target rounds o depth =
      if depth + (l.takeWhile (· ≠ target)).length < 2 ^ 31 then
        some (if target ∈ l then none else some (depth + l.length))
      else none := by
  induction l generalizing o rounds depth with
  | nil =>
    obtain rfl : o = none := h
    unfold depthBelow
    rw [List.takeWhile_nil, List.length_nil, Nat.add_zero, if_pos hdepth, if_neg List.not_mem_nil]
  | cons x l ih =>
    obtain ⟨rfl, hl⟩ := h
    obtain ⟨rounds, rfl⟩ : ∃ k, rounds = k + 1 :=
      ⟨rounds - 1, by rw [List.length_cons] at hrounds; omega⟩
    unfold depthBelow
    by_cases hx : x = target
    · rw [if_pos hx, List.takeWhile_cons_of_neg (by simpa using hx), List.length_nil, Nat.add_zero,
        if_pos hdepth, if_pos (List.mem_cons.mpr (.inl hx.symm))]
    rw [if_neg hx, List.takeWhile_cons_of_pos (by simpa using hx), List.length_cons,
      List.length_cons]
    have hmem : target ∈ x :: l ↔ target ∈ l := by simp [Ne.symm hx]
    unfold increment
    by_cases hlt : depth + 1 < 2 ^ 31
    · rw [if_pos hlt, Option.bind_eq_bind, Option.bind_some,
        ih hl (Nat.le_of_succ_le_succ hrounds) hlt]
      simp only [hmem, Nat.add_assoc, Nat.add_comm 1]
    · rw [if_neg hlt, if_neg (by omega)]
      rfl

theorem depthBelow_spec {target : NodeId} (h : Climbs parent (some a) l) {rounds : Nat}
    (hrounds : l.length ≤ rounds) (hfits : CountFits parent a target) :
    depthBelow parent target rounds (some a) 0 =
      some (if target ∈ l then none else some l.length) := by
  rw [depthBelow_eq h hrounds (Nat.two_pow_pos 31), if_pos (by simpa using hfits l h), Nat.zero_add]

theorem exists_split {n : Nat} (h : n ≤ as.length) :
    ∃ l r, as = l ++ r ∧ l.length = as.length - n :=
  ⟨as.take (as.length - n), as.drop (as.length - n), (List.take_append_drop _ _).symm, by
    rw [List.length_take]
    omega⟩

/-- The nodes that are above both are on the rest of the longer way. -/
theorem mem_rest {o o' : Option NodeId} (h : Climbs parent o (l ++ r)) (h' : Climbs parent o' bs)
    (hlen : r.length = bs.length) (hx : x ∈ l ++ r) (hx' : x ∈ bs) : x ∈ r := by
  obtain ⟨p, p', q, hp, hp'⟩ := h.split h' hx hx'
  have h₁ := congrArg List.length hp
  have h₂ := congrArg List.length hp'
  simp only [List.length_append, List.length_cons] at h₁ h₂
  have hsplit : ∃ t, p = l ++ t ∧ r = t ++ x :: q :=
    (List.append_eq_append_iff.mp hp).elim id fun ⟨t, hl, hr⟩ => by
      have hlen' := congrArg List.length hr
      rw [List.length_cons, List.length_append] at hlen'
      obtain rfl : t = [] := List.length_eq_zero_iff.mp (by omega)
      exact ⟨[], by simpa using hl.symm, by simpa using hr.symm⟩
  obtain ⟨t, -, rfl⟩ := hsplit
  simp

/-- **Where the ways that are left hold the common ancestors, climbing in step finds the
deepest.** -/
theorem meet_deepest {o o' : Option NodeId} (has : Climbs parent o as) (hbs : Climbs parent o' bs)
    (hlen : as.length = bs.length) {rounds : Nat} (hrounds : as.length ≤ rounds)
    (hcommon : ∀ y, IsCommonAncestor parent a b y ↔ y ∈ as ∧ y ∈ bs) :
    ∃ res, meet parent rounds o o' = some res ∧ FindsDeepest parent a b res := by
  obtain ⟨res, hmeet, hsome, hnone⟩ := meet_spec has hbs hlen hrounds
  refine ⟨res, hmeet, ?_⟩
  cases res with
  | none =>
    refine .of_none fun y hy => ?_
    obtain ⟨hya, hyb⟩ := (hcommon y).mp hy
    exact hnone rfl y hya hyb
  | some x =>
    obtain ⟨hxa, hxb, habove⟩ := hsome x rfl
    refine .of_some ⟨(hcommon x).mpr ⟨hxa, hxb⟩, fun y hy => ?_⟩
    obtain ⟨hya, hyb⟩ := (hcommon y).mp hy
    exact habove y hya hyb

end Climb

section Tree

variable {h : Heap} {ch : NodeId → List NodeId}

/-- The way up from a node holds the nodes above it. -/
theorem climbs_up (w : WellFormed h ch) (x : NodeId) : ∃ l, Climbs h.parentNode (some x) l ∧
    l.length ≤ h.bound ∧ ∀ y, y ∈ l ↔ Above h.parentNode x y := by
  have hcard : (Finset.range h.size).card < h.bound := by
    rw [Finset.card_range]
    exact Nat.lt_succ_self _
  obtain ⟨l, hwalk⟩ := walk_parent_of_acyclic w.acyclic
    (fun x y hxy => Finset.mem_range.mpr (w.allocated x y hxy).1) x hcard
  obtain ⟨hclimbs, hlen⟩ := climbs_of_walk hwalk
  exact ⟨l, hclimbs, hlen, fun y => mem_walk_parent hwalk⟩

/-- **Where an `int` holds the depths, `CommonAncestor` returns the deepest common ancestor, and
null only when there is none.** -/
theorem commonAncestor_deepest (w : WellFormed h ch)
    (hscope : ∀ x r, Above h.parentNode x r → h.document x = h.document r) (this other : NodeId)
    (hfit : DepthsFit h this other) :
    ∃ r, commonAncestor h h.parentNode h.bound this other = some r ∧
      FindsDeepest h.parentNode this other r := by
  obtain ⟨as, has, haslen, hasmem⟩ := climbs_up w this
  obtain ⟨bs, hbs, hbslen, hbsmem⟩ := climbs_up w other
  unfold commonAncestor
  split
  · rename_i heq
    exact ⟨_, rfl, heq ▸ .of_above (.refl this)⟩
  split
  · rename_i hdoc
    refine ⟨none, rfl, .of_none fun x hx => hdoc ?_⟩
    rw [hscope this x hx.1, hscope other x hx.2]
  rename_i hne hdoc
  obtain ⟨hthisFits, hotherFits⟩ := hfit hne (not_not.mp hdoc)
  rw [depthBelow_spec has haslen hthisFits]
  by_cases hother : other ∈ as
  · rw [if_pos hother]
    exact ⟨_, rfl, .of_above ((hasmem other).mp hother)⟩
  rw [if_neg hother, depthBelow_spec hbs hbslen (hotherFits ((hasmem other).not.mp hother))]
  simp only [Option.bind_eq_bind, Option.bind_some]
  by_cases hthis : this ∈ bs
  · rw [if_pos hthis]
    exact ⟨_, rfl, (FindsDeepest.of_above ((hbsmem this).mp hthis)).symm⟩
  rw [if_neg hthis]
  dsimp only
  split
  · rename_i hlt
    obtain ⟨l, r, rfl, hl⟩ := exists_split (Nat.le_of_lt hlt)
    have hlen : r.length = bs.length := by
      rw [List.length_append] at hl hlt
      omega
    obtain ⟨o, ho, hr⟩ := climbTimes_spec has
    rw [← hl, ho, Option.bind_some]
    refine meet_deepest hr hbs hlen (hlen ▸ hbslen) fun y => ⟨fun hy => ?_, fun hy => ?_⟩
    · have hyb := (hbsmem y).mpr hy.2
      exact ⟨mem_rest has hbs hlen ((hasmem y).mpr hy.1) hyb, hyb⟩
    · exact ⟨(hasmem y).mp (List.mem_append_right l hy.1), (hbsmem y).mp hy.2⟩
  · rename_i hle
    obtain ⟨l, r, rfl, hl⟩ := exists_split (Nat.le_of_not_lt hle)
    have hlen : r.length = as.length := by
      rw [List.length_append] at hl hle
      omega
    obtain ⟨o, ho, hr⟩ := climbTimes_spec hbs
    rw [← hl, ho, Option.bind_some]
    refine meet_deepest has hr hlen.symm haslen fun y => ⟨fun hy => ?_, fun hy => ?_⟩
    · have hya := (hasmem y).mpr hy.1
      exact ⟨hya, mem_rest hbs has hlen ((hbsmem y).mpr hy.2) hya⟩
    · exact ⟨(hasmem y).mp hy.1, (hbsmem y).mp (List.mem_append_right l hy.2)⟩

/-- Two of the many children. -/
theorem commonAncestor_manyChildren :
    ∃ r, commonAncestor manyChildren manyChildren.parentNode manyChildren.bound 5 20 = some r ∧
      FindsDeepest manyChildren.parentNode 5 20 r :=
  commonAncestor_deepest manyChildren_wellFormed (fun _ _ _ => rfl) 5 20 fun _ _ =>
    have hfive : Climbs manyChildren.parentNode (some 5) [5, 1, 0] := ⟨rfl, rfl, rfl, rfl⟩
    have htwenty : Climbs manyChildren.parentNode (some 20) [20, 1, 0] := ⟨rfl, rfl, rfl, rfl⟩
    ⟨fun l hl => hfive.unique hl ▸ by decide, fun _ l hl => htwenty.unique hl ▸ by decide⟩

end Tree

/-! ## A deep tree -/

/-- Each of the nodes `0` to `n` is the parent of the one behind it; `0` is the document, and the
element `1` has a second child `n + 1`. -/
def deepTree (n : Nat) : Heap where
  size := n + 2
  nodeType k := if k = 0 then .document else .element
  nodeName k := if k = 0 then "#document" else "DIV"
  document _ := 0
  isConnected k := decide (k < n + 2)
  links :=
    { parent := fun k =>
        if k = n + 1 then some 1 else if 1 ≤ k ∧ k ≤ n then some (k - 1) else none
      prev := fun k => if k = n + 1 then some 2 else none
      next := fun k => if k = 2 then some (n + 1) else none
      first := fun k => if k < n then some (k + 1) else none
      last := fun k => if k = 1 then some (n + 1) else if k < n then some (k + 1) else none }
  domTreeVersion _ := 0
  globalTreeVersion := 0
  contextObject _ := false
  contextRetained _ := false
  inGCPool _ := false
  gcObjects := []
  freed := []

def deepLists (n : Nat) (k : NodeId) : List NodeId :=
  if k = 1 then [2, n + 1] else if k < n then [k + 1] else []

section DeepTree

variable {n : Nat}

theorem deepTree_parent_iff (x y : Nat) : (deepTree n).links.parent x = some y ↔
    (x = n + 1 ∧ y = 1) ∨ (1 ≤ x ∧ x ≤ n ∧ y + 1 = x) := by
  have hparent : (deepTree n).links.parent x =
      if x = n + 1 then some 1 else if 1 ≤ x ∧ x ≤ n then some (x - 1) else none := rfl
  rw [hparent]
  split
  · rw [Option.some_inj]
    show (1 : Nat) = y ↔ _
    omega
  · split
    · rw [Option.some_inj]
      show x - 1 = y ↔ _
      omega
    · simp only [reduceCtorEq, false_iff]
      omega

theorem deepTree_parent (hn : 2 ≤ n) {x y : Nat} (hp : (deepTree n).links.parent x = some y) :
    y < x ∧ x < n + 2 := by
  have hcases := (deepTree_parent_iff x y).mp hp
  omega

theorem mem_deepLists (hn : 2 ≤ n) (p c : Nat) :
    c ∈ deepLists n p ↔ (c = n + 1 ∧ p = 1) ∨ (1 ≤ c ∧ c ≤ n ∧ p + 1 = c) := by
  have hlists : deepLists n p = if p = 1 then [2, n + 1] else if p < n then [p + 1] else [] := rfl
  rw [hlists]
  split
  · simp only [List.mem_cons, List.not_mem_nil, or_false]
    omega
  · split
    · rw [List.mem_singleton]
      omega
    · simp only [List.not_mem_nil, false_iff]
      omega

theorem deepTree_represents (hn : 2 ≤ n) : Represents (deepTree n).links (deepLists n) where
  mem_iff p c := (mem_deepLists hn p c).trans (deepTree_parent_iff c p).symm
  nodup p := by
    unfold deepLists
    split
    · refine List.nodup_cons.mpr ⟨?_, List.nodup_singleton _⟩
      rw [List.mem_singleton]
      exact Nat.ne_of_lt (Nat.lt_succ_of_le hn)
    · split
      · exact List.nodup_singleton _
      · exact List.nodup_nil
  first_eq p := by
    unfold deepLists
    simp only [deepTree]
    by_cases hp : p = 1
    · rw [if_pos hp, hp, if_pos (Nat.lt_of_succ_le hn)]
      rfl
    · rw [if_neg hp]
      split <;> rfl
  last_eq p := by
    unfold deepLists
    simp only [deepTree]
    split
    · rfl
    · split <;> rfl
  segment p := by
    have hprev : ∀ c : Nat, (deepTree n).links.prev c = if c = n + 1 then some 2 else none :=
      fun _ => rfl
    have hnext : ∀ c : Nat, (deepTree n).links.next c = if c = 2 then some (n + 1) else none :=
      fun _ => rfl
    unfold deepLists
    split
    · refine ⟨?_, ?_, ?_, ?_, trivial⟩
      · rw [hprev, if_neg (by omega)]
      · rw [hnext, if_pos rfl]
        rfl
      · rw [hprev, if_pos rfl]
      · rw [hnext, if_neg (by omega)]
        rfl
    · split
      · rename_i hp hlt
        refine ⟨?_, ?_, trivial⟩
        · rw [hprev, if_neg (Nat.ne_of_lt (Nat.succ_lt_succ hlt))]
        · rw [hnext, if_neg fun h => hp (Nat.succ.inj h)]
          rfl
      · trivial
  detached := by
    intro (c : Nat) hc
    have hout : ∀ y : Nat, ¬ ((c = n + 1 ∧ y = 1) ∨ (1 ≤ c ∧ c ≤ n ∧ y + 1 = c)) := by
      intro y hin
      rw [(deepTree_parent_iff c y).mpr hin] at hc
      cases hc
    refine ⟨if_neg fun hlast => hout 1 (.inl ⟨hlast, rfl⟩), if_neg fun (htwo : c = 2) => ?_⟩
    exact hout 1 (.inr (by omega))

theorem deepTree_wellFormed (hn : 2 ≤ n) : WellFormed (deepTree n) (deepLists n) where
  represents := deepTree_represents hn
  acyclic := by
    have hdown : ∀ {x y : Nat}, Above (deepTree n).links.parent x y → y ≤ x := by
      intro x y habove
      induction habove with
      | refl => exact Nat.le_refl _
      | tail _ hstep ih => exact (deepTree_parent hn hstep).1.le.trans ih
    intro (x : Nat) (y : Nat) hp habove
    have hlt := (deepTree_parent hn hp).1
    have hle := hdown habove
    omega
  allocated x y hp := by
    obtain ⟨hlt, hx⟩ := deepTree_parent hn hp
    exact ⟨hx, hlt.trans hx⟩
  container x y _ := by
    unfold Heap.isContainerNode
    simp only [deepTree]
    split <;> rfl
  document_type := by
    intro (k : Nat) _
    show (if k = 0 then NodeType.document else .element) = .document ↔ (0 : Nat) = k
    split
    · rename_i hk
      exact iff_of_true rfl hk.symm
    · rename_i hk
      exact iff_of_false (by decide) fun h => hk h.symm
  document_root k hk := by
    have hzero : k = 0 := hk.symm
    rw [hzero]
    rfl
  connected_child x y hp := by
    obtain ⟨hlt, hx⟩ := deepTree_parent hn hp
    simp only [deepTree]
    rw [decide_eq_true hx, decide_eq_true (hlt.trans hx)]
  connected_root := by
    intro (k : Nat) (hk : k < n + 2) hp
    have hzero : k = 0 := by
      by_contra hne
      by_cases hlast : k = n + 1
      · rw [(deepTree_parent_iff k 1).mpr (.inl ⟨hlast, rfl⟩)] at hp
        cases hp
      · rw [(deepTree_parent_iff k (k - 1)).mpr (.inr (by omega))] at hp
        cases hp
    subst hzero
    exact ⟨fun _ => rfl, fun _ => rfl⟩

/-- The way up from `k`. -/
theorem deepTree_climbs (k : Nat) (hk : k ≤ n) :
    Climbs (deepTree n).parentNode (some k) (List.range (k + 1)).reverse := by
  induction k with
  | zero => exact ⟨rfl, rfl⟩
  | succ k ih =>
    rw [List.range_succ, List.reverse_append]
    refine ⟨rfl, ?_⟩
    have hp : (deepTree n).parentNode (k + 1) = some k :=
      (deepTree_parent_iff (k + 1) k).mpr (.inr ⟨Nat.le_add_left 1 k, hk, rfl⟩)
    rw [hp]
    exact ih (Nat.le_of_succ_le hk)

theorem deepTree_deepest (hn : 2 ≤ n) :
    IsDeepestCommonAncestor (deepTree n).parentNode n (n + 1) 1 := by
  have hn' := deepTree_climbs n (Nat.le_refl n)
  have hmem : ∀ y : Nat, y ∈ (List.range (n + 1)).reverse ↔ y < n + 1 := by simp
  have hp : (deepTree n).parentNode (n + 1) = some 1 :=
    (deepTree_parent_iff (n + 1) 1).mpr (.inl ⟨rfl, rfl⟩)
  refine ⟨⟨hn'.above ((hmem 1).mpr (by omega)), .of_parent hp⟩, fun y hy => ?_⟩
  obtain ⟨hyn, hy'⟩ := hy
  rcases above_iff_head.mp hy' with rfl | ⟨q, hq, hqy⟩
  · exact absurd ((hmem (n + 1)).mp (hn'.mem_of_above hyn)) (Nat.lt_irrefl _)
  · cases hp.symm.trans hq
    exact hqy

theorem deepTree_overflows (hn : 2 ^ 31 ≤ n) :
    commonAncestor (deepTree n) (deepTree n).parentNode (deepTree n).bound n (n + 1) = none := by
  have hmem : ∀ y : Nat, y ∈ (List.range (n + 1)).reverse ↔ y < n + 1 := by simp
  have hall : ((List.range (n + 1)).reverse.takeWhile (· ≠ n + 1)).length = n + 1 := by
    rw [List.takeWhile_eq_self_iff.mpr fun y hy => by
      simpa using Nat.ne_of_lt ((hmem y).mp hy)]
    simp
  have hrounds : (List.range (n + 1)).reverse.length ≤ (deepTree n).bound := by
    rw [List.length_reverse, List.length_range]
    exact Nat.le_add_right (n + 1) 2
  unfold commonAncestor
  rw [if_neg (Nat.ne_of_lt (Nat.lt_succ_self n)), if_neg fun h => h rfl,
    depthBelow_eq (deepTree_climbs n (Nat.le_refl n)) hrounds (Nat.two_pow_pos 31), if_neg]
  · rfl
  · rw [hall]
    omega

/-- **From `2 ^ 31` levels below the document the depth overflows**, although the two nodes have a
common ancestor. -/
theorem commonAncestor_overflows :
    WellFormed (deepTree (2 ^ 31)) (deepLists (2 ^ 31)) ∧
      (∀ x r, Above (deepTree (2 ^ 31)).parentNode x r →
        (deepTree (2 ^ 31)).document x = (deepTree (2 ^ 31)).document r) ∧
      commonAncestor (deepTree (2 ^ 31)) (deepTree (2 ^ 31)).parentNode (deepTree (2 ^ 31)).bound
        (2 ^ 31) (2 ^ 31 + 1) = none ∧
      IsDeepestCommonAncestor (deepTree (2 ^ 31)).parentNode (2 ^ 31) (2 ^ 31 + 1) 1 :=
  have htwo : 2 ≤ 2 ^ 31 := Nat.le_self_pow (by decide) 2
  ⟨deepTree_wellFormed htwo, fun _ _ _ => rfl, deepTree_overflows (Nat.le_refl _),
    deepTree_deepest htwo⟩

end DeepTree

end Blinkit.Dom
