import Mathlib.Data.Finset.Card
import Mathlib.Logic.Relation
import Blinkit.Lib.LinkedForest

/-!
# Ancestors, descendants and the loops that visit them

* `Above parent x y` — `y` is `x` or an ancestor of `x`.
* `Acyclic parent` — no node is above its own parent.
* `walk f fuel start` — the nodes a loop `for (n = start; n; n = f(n))` visits; `none` when the
  loop is still running after `fuel` rounds.
* `search f target fuel start` — the same loop, left as soon as it meets `target`.
* `climb f fuel x` — where the loop `while (f(x)) x = f(x)` stops.
* `preorder l width fuel root` — the inclusive descendants of `root` in document order.

Principal results: `Acyclic.attach`, `Acyclic.detach`, `walk_parent_of_acyclic` and
`preorder_of_acyclic` (on an acyclic forest with finitely many linked nodes the loops end),
`preorder_eq_none_of_cycle` (on a cycle they do not, whatever the fuel).
-/

set_option autoImplicit false

namespace LinkedForest

open Function Relation

variable {ι : Type*}

/-- `y` is `x` or an ancestor of `x`. -/
def Above (parent : ι → Option ι) : ι → ι → Prop :=
  ReflTransGen fun x y => parent x = some y

/-- No node is above its own parent. -/
def Acyclic (parent : ι → Option ι) : Prop :=
  ∀ x y, parent x = some y → ¬ Above parent y x

section Above

variable {parent : ι → Option ι} {x y z c p : ι}

theorem Above.refl (x : ι) : Above parent x x := ReflTransGen.refl

theorem Above.of_parent (h : parent x = some y) : Above parent x y := ReflTransGen.single h

theorem Above.trans (h₁ : Above parent x y) (h₂ : Above parent y z) : Above parent x z :=
  ReflTransGen.trans h₁ h₂

/-- More links only lengthen the ancestor chains. -/
theorem Above.mono {parent' : ι → Option ι}
    (hsub : ∀ x y, parent x = some y → parent' x = some y) (h : Above parent x y) :
    Above parent' x y := by
  induction h with
  | refl => exact .refl x
  | tail _ hab ih => exact ih.trans (.of_parent (hsub _ _ hab))

theorem above_iff_head : Above parent x z ↔ x = z ∨ ∃ y, parent x = some y ∧ Above parent y z := by
  rw [Above, ReflTransGen.cases_head_iff]

theorem above_iff_tail : Above parent x z ↔ x = z ∨ ∃ y, Above parent x y ∧ parent y = some z := by
  rw [Above, ReflTransGen.cases_tail_iff, eq_comm]

theorem above_iff_of_parent (h : parent x = some y) (hne : x ≠ z) :
    Above parent x z ↔ Above parent y z := by
  simp [above_iff_head (x := x), hne, h]

/-- A node without a parent is below itself only. -/
theorem Above.eq_of_root (h : Above parent x z) (hx : parent x = none) : x = z := by
  rcases above_iff_head.mp h with he | ⟨y, hy, -⟩
  · exact he
  · rw [hx] at hy; cases hy

/-- The nodes above one node are linearly ordered. -/
theorem Above.total (hy : Above parent x y) (hz : Above parent x z) :
    Above parent y z ∨ Above parent z y := by
  induction hy with
  | refl => exact .inl hz
  | tail _ hab ih =>
    rcases ih with h | h
    · rcases above_iff_head.mp h with rfl | ⟨w, hw, h⟩
      · exact .inr (.of_parent hab)
      · cases hab.symm.trans hw
        exact .inl h
    · exact .inr (h.trans (.of_parent hab))

theorem Acyclic.antisymm (h : Acyclic parent) (h₁ : Above parent x y) (h₂ : Above parent y x) :
    x = y := by
  rcases above_iff_head.mp h₁ with he | ⟨w, hw, h₃⟩
  · exact he
  · exact absurd (h₃.trans h₂) (h x w hw)

theorem acyclic_of_roots (h : ∀ x, parent x = none) : Acyclic parent := fun x y hxy => by
  rw [h x] at hxy; cases hxy

variable [DecidableEq ι]

theorem parent_of_detach (h : update parent c none x = some y) : parent x = some y := by
  by_cases hx : x = c
  · subst hx; simp at h
  · simpa [hx] using h

/-- Cutting a link only shortens the ancestor chains. -/
theorem Above.of_detach (h : Above (update parent c none) x y) : Above parent x y :=
  h.mono fun _ _ => parent_of_detach

theorem Acyclic.detach (h : Acyclic parent) (c : ι) : Acyclic (update parent c none) :=
  fun x y hxy hyx => h x y (parent_of_detach hxy) hyx.of_detach

/-- The chains of ancestors stay when a root is linked. -/
theorem Above.of_attach {v : Option ι} (hc : parent c = none) (h : Above parent x y) :
    Above (update parent c v) x y := by
  induction h with
  | refl => exact .refl x
  | @tail a b _ hab ih =>
    have hac : a ≠ c := by rintro rfl; rw [hc] at hab; cases hab
    exact ih.trans (.of_parent (by simpa [hac] using hab))

/-- Linking the root `c` under `p` puts what is above `p` above what is below `c`. -/
theorem above_attach (hc : parent c = none) (hpc : ¬ Above parent p c) :
    Above (update parent c (some p)) x y ↔
      Above parent x y ∨ Above parent x c ∧ Above parent p y := by
  constructor
  · intro h
    induction h with
    | refl => exact .inl (.refl x)
    | @tail a b _ hab ih =>
      by_cases hac : a = c
      · subst hac
        have hbp : p = b := by simpa using hab
        subst hbp
        rcases ih with h | ⟨_, h⟩
        · exact .inr ⟨h, .refl _⟩
        · exact absurd h hpc
      · rw [update_of_ne hac] at hab
        rcases ih with h | ⟨h₁, h₂⟩
        · exact .inl (h.trans (.of_parent hab))
        · exact .inr ⟨h₁, h₂.trans (.of_parent hab)⟩
  · rintro (h | ⟨h₁, h₂⟩)
    · exact h.of_attach hc
    · exact (h₁.of_attach hc).trans (Above.trans (.of_parent (by simp)) (h₂.of_attach hc))

theorem Acyclic.attach (h : Acyclic parent) (hc : parent c = none) (hpc : ¬ Above parent p c) :
    Acyclic (update parent c (some p)) := by
  intro x y hxy hyx
  rw [above_attach hc hpc] at hyx
  by_cases hxc : x = c
  · subst hxc
    have hyp : p = y := by simpa using hxy
    subst hyp
    rcases hyx with hyx | ⟨hyx, -⟩ <;> exact hpc hyx
  · rw [update_of_ne hxc] at hxy
    rcases hyx with hyx | ⟨hyc, hpx⟩
    · exact h x y hxy hyx
    · rcases Above.total (.of_parent hxy) ((Above.of_parent hxy).trans hyc) with hyc' | hcy
      · exact hpc (hpx.trans ((Above.of_parent hxy).trans hyc))
      · exact hpc (hpx.trans ((Above.of_parent hxy).trans hyc))

end Above

/-! ## Loops along a link -/

/-- The nodes visited by `for (n = start; n; n = f(n))`; `none` when out of fuel. -/
def walk (f : ι → Option ι) : Nat → Option ι → Option (List ι)
  | _, none => some []
  | 0, some _ => none
  | fuel + 1, some n => (walk f fuel (f n)).map (n :: ·)

/-- The loop `for (n = start; n; n = f(n)) if (n == target) return true; return false`. -/
def search [DecidableEq ι] (f : ι → Option ι) (target : ι) : Nat → Option ι → Option Bool
  | _, none => some false
  | 0, some _ => none
  | fuel + 1, some n => if n = target then some true else search f target fuel (f n)

theorem search_eq_of_walk [DecidableEq ι] {f : ι → Option ι} {fuel : Nat} {start : Option ι}
    {as : List ι} (target : ι) (h : walk f fuel start = some as) :
    search f target fuel start = some (decide (target ∈ as)) := by
  induction fuel generalizing start as with
  | zero =>
    cases start with
    | none => cases h; simp [search]
    | some n => cases h
  | succ fuel ih =>
    cases start with
    | none => cases h; simp [search]
    | some n =>
      simp only [walk, Option.map_eq_some_iff] at h
      obtain ⟨bs, hbs, rfl⟩ := h
      simp only [search, List.mem_cons]
      by_cases hn : n = target
      · simp [hn]
      · rw [if_neg hn, ih hbs]
        simp [Ne.symm hn]

/-- The loop `while (f(n)) n = f(n)`; the node it stops at, or `none` when out of fuel. -/
def climb (f : ι → Option ι) : Nat → ι → Option ι
  | 0, _ => none
  | fuel + 1, n =>
    match f n with
    | none => some n
    | some m => climb f fuel m

/-- Where the walk ends the climb stops. -/
theorem climb_of_walk {f : ι → Option ι} {fuel : Nat} {x : ι} {as : List ι}
    (h : walk f fuel (some x) = some as) :
    ∃ r, climb f fuel x = some r ∧ Above f x r ∧ f r = none := by
  induction fuel generalizing x as with
  | zero => cases h
  | succ fuel ih =>
    simp only [walk, Option.map_eq_some_iff] at h
    obtain ⟨bs, hbs, rfl⟩ := h
    cases hx : f x with
    | none => exact ⟨x, by simp [climb, hx], .refl x, hx⟩
    | some y =>
      rw [hx] at hbs
      obtain ⟨r, hr, hyr, hroot⟩ := ih hbs
      exact ⟨r, by simp [climb, hx, hr], (Above.of_parent hx).trans hyr, hroot⟩

/-- A chained list is what the loop along `next` visits. -/
theorem walk_next_of_segment {prev next : ι → Option ι} {before : Option ι} {cs : List ι}
    {fuel : Nat} (h : Segment prev next before cs none) (hfuel : cs.length ≤ fuel) :
    walk next fuel cs.head? = some cs := by
  induction cs generalizing before fuel with
  | nil => cases fuel <;> rfl
  | cons c cs ih =>
    obtain ⟨fuel, rfl⟩ : ∃ k, fuel = k + 1 := ⟨fuel - 1, by simp at hfuel; omega⟩
    obtain ⟨-, hn, hseg⟩ := h
    have hrec := ih hseg (by simpa using hfuel)
    simp only [List.head?_cons, walk]
    rw [hn, Option.or_none, hrec]
    rfl

/-- **The loop over the children of `p` visits the list of `p`.** -/
theorem Represents.walk_children {l : Links ι} {ch : ι → List ι} (h : Represents l ch) {p : ι}
    {fuel : Nat} (hfuel : (ch p).length ≤ fuel) : walk l.next fuel (l.first p) = some (ch p) := by
  rw [h.first_eq]
  exact walk_next_of_segment (h.segment p) hfuel

/-- **The links determine the child lists.** -/
theorem Represents.unique {l : Links ι} {ch ch' : ι → List ι} (h : Represents l ch)
    (h' : Represents l ch') : ch = ch' := by
  funext p
  have hwalk := h.walk_children (Nat.le_max_left (ch p).length (ch' p).length)
  rw [h'.walk_children (Nat.le_max_right _ _)] at hwalk
  exact (Option.some.inj hwalk).symm

/-- What the loop towards the root visits is what is above its start. -/
theorem mem_walk_parent {parent : ι → Option ι} {fuel : Nat} {x y : ι} {as : List ι}
    (h : walk parent fuel (some x) = some as) : y ∈ as ↔ Above parent x y := by
  induction fuel generalizing x as with
  | zero => cases h
  | succ fuel ih =>
    simp only [walk, Option.map_eq_some_iff] at h
    obtain ⟨bs, hbs, rfl⟩ := h
    rw [List.mem_cons, above_iff_head, eq_comm]
    refine or_congr Iff.rfl ?_
    cases hx : parent x with
    | none =>
      rw [hx] at hbs
      cases fuel <;> cases hbs <;> simp
    | some z =>
      rw [hx] at hbs
      simpa using ih hbs

/-- **On an acyclic forest the loop towards the root ends.** -/
theorem walk_parent_of_acyclic [DecidableEq ι] {parent : ι → Option ι} (hac : Acyclic parent)
    {s : Finset ι} (hs : ∀ x y, parent x = some y → x ∈ s) {fuel : Nat} (x : ι)
    (hfuel : s.card < fuel) : ∃ as, walk parent fuel (some x) = some as := by
  suffices key : ∀ (fuel : Nat) (seen : Finset ι) (x : ι), seen ⊆ s →
      (∀ y ∈ seen, Above parent y x ∧ y ≠ x) → s.card < fuel + seen.card →
      ∃ as, walk parent fuel (some x) = some as from
    key fuel ∅ x (by simp) (by simp) (by simpa using hfuel)
  intro fuel
  induction fuel with
  | zero =>
    intro seen x hsub _ hlt
    exact absurd (Finset.card_le_card hsub) (by omega)
  | succ fuel ih =>
    intro seen x hsub hseen hlt
    simp only [walk]
    cases hx : parent x with
    | none => exact ⟨[x], by cases fuel <;> rfl⟩
    | some y =>
      have hxs : x ∉ seen := fun hm => (hseen x hm).2 rfl
      have hseen' : ∀ z ∈ insert x seen, Above parent z y ∧ z ≠ y := by
        intro z hz
        have hzx : Above parent z x := by
          rcases Finset.mem_insert.mp hz with rfl | hz
          · exact .refl z
          · exact (hseen z hz).1
        refine ⟨hzx.trans (.of_parent hx), ?_⟩
        rintro rfl
        exact hac x z hx hzx
      obtain ⟨as, has⟩ := ih (insert x seen) y (Finset.insert_subset (hs x y hx) hsub) hseen'
        (by rw [Finset.card_insert_of_notMem hxs]; omega)
      exact ⟨x :: as, by rw [has]; rfl⟩

/-! ## Loops over a subtree -/

/-- The inclusive descendants of `root` in document order. `width` bounds the rounds of each loop
over siblings, `fuel` the depth. -/
def preorder (l : Links ι) (width : Nat) : Nat → ι → Option (List ι)
  | 0, _ => none
  | fuel + 1, root => do
    let children ← walk l.next width (l.first root)
    let below ← children.mapM (preorder l width fuel)
    return root :: below.flatten

theorem mapM_eq_some {α β : Type*} {f : α → Option β} {as : List α} {bs : List β}
    (h : as.mapM f = some bs) : List.Forall₂ (fun a b => f a = some b) as bs := by
  induction as generalizing bs with
  | nil => cases h; exact .nil
  | cons a as ih =>
    simp only [List.mapM_cons, Option.bind_eq_bind, Option.bind_eq_some_iff] at h
    obtain ⟨b, hb, cs, hcs, h⟩ := h
    cases h
    exact .cons hb (ih hcs)

theorem mapM_of_forall {α β : Type*} {f : α → Option β} {as : List α}
    (h : ∀ a ∈ as, ∃ b, f a = some b) : ∃ bs, as.mapM f = some bs := by
  induction as with
  | nil => exact ⟨[], rfl⟩
  | cons a as ih =>
    obtain ⟨b, hb⟩ := h a (by simp)
    obtain ⟨bs, hbs⟩ := ih fun c hc => h c (by simp [hc])
    exact ⟨b :: bs, by simp [hb, hbs]⟩

section Preorder

variable {l : Links ι} {ch : ι → List ι} {width fuel : Nat} {root x : ι}

/-- One level of the visit. -/
theorem preorder_succ (h : Represents l ch) (hwidth : (ch root).length ≤ width) :
    preorder l width (fuel + 1) root =
      ((ch root).mapM (preorder l width fuel)).map fun below => root :: below.flatten := by
  simp only [preorder, h.walk_children hwidth, Option.bind_eq_bind, Option.bind_some]
  cases (ch root).mapM (preorder l width fuel) <;> rfl

/-- **The visit meets exactly the inclusive descendants.** -/
theorem mem_preorder (h : Represents l ch) (hwidth : ∀ p, (ch p).length ≤ width) {ds : List ι}
    (hd : preorder l width fuel root = some ds) : x ∈ ds ↔ Above l.parent x root := by
  induction fuel generalizing root ds with
  | zero => cases hd
  | succ fuel ih =>
    rw [preorder_succ h (hwidth root), Option.map_eq_some_iff] at hd
    obtain ⟨below, hbelow, rfl⟩ := hd
    have hall := mapM_eq_some hbelow
    rw [List.mem_cons, above_iff_tail, List.mem_flatten]
    refine or_congr Iff.rfl ⟨?_, ?_⟩
    · rintro ⟨bs, hbs, hx⟩
      obtain ⟨i, hi, rfl⟩ := List.mem_iff_getElem.mp hbs
      have hlen := hall.length_eq
      have hc := (List.forall₂_iff_get.mp hall).2 i (by omega) hi
      simp only [List.get_eq_getElem] at hc
      refine ⟨(ch root)[i], (ih hc).mp hx, (h.mem_iff _ _).mp (List.getElem_mem _)⟩
    · rintro ⟨c, hxc, hc⟩
      obtain ⟨i, hi, rfl⟩ := List.mem_iff_getElem.mp ((h.mem_iff root c).mpr hc)
      have hlen := hall.length_eq
      have hci := (List.forall₂_iff_get.mp hall).2 i hi (by omega)
      simp only [List.get_eq_getElem] at hci
      exact ⟨below[i], List.getElem_mem _, (ih hci).mpr hxc⟩

/-- **On an acyclic forest the visit ends.** -/
theorem preorder_of_acyclic [DecidableEq ι] (h : Represents l ch) (hac : Acyclic l.parent)
    (hwidth : ∀ p, (ch p).length ≤ width) {s : Finset ι}
    (hs : ∀ x y, l.parent x = some y → y ∈ s) (hfuel : s.card < fuel) (root : ι) :
    ∃ ds, preorder l width fuel root = some ds := by
  suffices key : ∀ (fuel : Nat) (seen : Finset ι) (root : ι), seen ⊆ s →
      (∀ y ∈ seen, Above l.parent root y ∧ y ≠ root) → s.card < fuel + seen.card →
      ∃ ds, preorder l width fuel root = some ds from
    key fuel ∅ root (by simp) (by simp) (by simpa using hfuel)
  intro fuel
  induction fuel with
  | zero =>
    intro seen root hsub _ hlt
    exact absurd (Finset.card_le_card hsub) (by omega)
  | succ fuel ih =>
    intro seen root hsub hseen hlt
    have hroot : root ∉ seen := fun hm => (hseen root hm).2 rfl
    rw [preorder_succ h (hwidth root)]
    obtain ⟨below, hbelow⟩ : ∃ below, (ch root).mapM (preorder l width fuel) = some below := by
      refine mapM_of_forall fun c hc => ?_
      have hpc : l.parent c = some root := (h.mem_iff root c).mp hc
      refine ih (insert root seen) c (Finset.insert_subset (hs c root hpc) hsub)
        (fun z hz => ?_) (by rw [Finset.card_insert_of_notMem hroot]; omega)
      have hz : Above l.parent root z := by
        rcases Finset.mem_insert.mp hz with rfl | hz
        · exact .refl z
        · exact (hseen z hz).1
      refine ⟨(Above.of_parent hpc).trans hz, ?_⟩
      rintro rfl
      exact hac z root hpc hz
    exact ⟨root :: below.flatten, by rw [hbelow]; rfl⟩

/-- A visit that ends is deeper than the visit of anything strictly below. -/
theorem preorder_below (h : Represents l ch) (hwidth : ∀ p, (ch p).length ≤ width)
    {ds : List ι} (hd : preorder l width fuel root = some ds) (hx : Above l.parent x root) :
    ∃ k ds', preorder l width k x = some ds' ∧ k ≤ fuel ∧ (x ≠ root → k < fuel) := by
  induction fuel generalizing root ds with
  | zero => cases hd
  | succ fuel ih =>
    rcases above_iff_tail.mp hx with rfl | ⟨c, hxc, hc⟩
    · exact ⟨fuel + 1, ds, hd, Nat.le_refl _, fun hne => absurd rfl hne⟩
    · rw [preorder_succ h (hwidth root), Option.map_eq_some_iff] at hd
      obtain ⟨below, hbelow, -⟩ := hd
      have hall := mapM_eq_some hbelow
      obtain ⟨i, hi, rfl⟩ := List.mem_iff_getElem.mp ((h.mem_iff root c).mpr hc)
      have hci := (List.forall₂_iff_get.mp hall).2 i hi (by have := hall.length_eq; omega)
      obtain ⟨k, ds', hk, hle, -⟩ := ih hci hxc
      exact ⟨k, ds', hk, by omega, fun _ => by omega⟩

/-- **A visit that starts on a cycle of parent links never ends.** -/
theorem preorder_eq_none_of_cycle (h : Represents l ch) (hwidth : ∀ p, (ch p).length ≤ width)
    {y : ι} (hy : l.parent root = some y) (hcycle : Above l.parent y root) :
    preorder l width fuel root = none := by
  induction fuel using Nat.strongRecOn with
  | ind fuel ih =>
    cases hd : preorder l width fuel root with
    | none => rfl
    | some ds =>
      exfalso
      -- the child of `root` on the cycle is visited with less fuel, and `root` below it again
      cases fuel with
      | zero => cases hd
      | succ fuel =>
        rw [preorder_succ h (hwidth root), Option.map_eq_some_iff] at hd
        obtain ⟨below, hbelow, -⟩ := hd
        have hall := mapM_eq_some hbelow
        obtain ⟨c, hrc, hc⟩ : ∃ c, Above l.parent root c ∧ l.parent c = some root := by
          rcases above_iff_tail.mp hcycle with rfl | ⟨c, hyc, hc⟩
          · exact ⟨y, .refl y, hy⟩
          · exact ⟨c, (Above.of_parent hy).trans hyc, hc⟩
        obtain ⟨i, hi, rfl⟩ := List.mem_iff_getElem.mp ((h.mem_iff root c).mpr hc)
        have hci := (List.forall₂_iff_get.mp hall).2 i hi (by have := hall.length_eq; omega)
        obtain ⟨k, ds', hk, hle, -⟩ := preorder_below h hwidth hci hrc
        rw [ih k (by omega)] at hk
        cases hk

end Preorder

end LinkedForest
