import Mathlib.Logic.Basic

/-!
# Searching by halves

* `bisect q fuel left right` — the loop: the middle of the two ends replaces the right one when
  `q` holds there, else the left one.
* `InOrder cmp left right` — from the left end to the right one, what is less comes first, and what
  is greater last.
* `first`, `last` — the searches for the two ends of what is equal.

Principal results: `bisect_spec`: the ends become neighbours and stay on their sides;
`equal_range`: the two searches, one after the other, find what is equal.
-/

set_option autoImplicit false

namespace Bisect

/-- The loop, while a place is left between the ends. -/
def bisect (q : Nat → Bool) : Nat → Nat → Nat → Nat × Nat
  | 0, left, right => (left, right)
  | fuel + 1, left, right =>
    if left + 1 < right then
      let probe := left + (right - left) / 2
      if q probe then bisect q fuel left probe else bisect q fuel probe right
    else (left, right)

/-- The ends have met, and none of them has changed its side. -/
structure Boundary (q : Nat → Bool) (left right : Nat) (r : Nat × Nat) : Prop where
  left_le : left ≤ r.1
  le_right : r.2 ≤ right
  next : r.2 = r.1 + 1
  below : q left = false → q r.1 = false
  above : q right = true → q r.2 = true

/-- **The ends meet where `q` begins to hold.** -/
theorem bisect_spec {q : Nat → Bool} {fuel left right : Nat} (hlt : left < right)
    (hfuel : right - left ≤ fuel) : Boundary q left right (bisect q fuel left right) := by
  induction fuel generalizing left right with
  | zero => omega
  | succ fuel ih =>
    unfold bisect
    split
    · rename_i hroom
      dsimp only
      split
      · rename_i hprobe
        have hprobe_lt : left < left + (right - left) / 2 := by omega
        have h := ih hprobe_lt (by omega)
        exact ⟨h.left_le, by have := h.le_right; omega, h.next, h.below, fun _ => h.above hprobe⟩
      · rename_i hprobe
        have hlt_probe : left + (right - left) / 2 < right := by omega
        have h := ih hlt_probe (by omega)
        exact ⟨by have := h.left_le; omega, h.le_right, h.next,
          fun _ => h.below (Bool.not_eq_true _ ▸ hprobe), h.above⟩
    · exact ⟨Nat.le_refl _, Nat.le_refl _, by omega, id, id⟩

/-- The left end stays when `q` holds everywhere between. -/
theorem bisect_left {q : Nat → Bool} {fuel left right : Nat}
    (h : ∀ i, left < i → i < right → q i = true) : (bisect q fuel left right).1 = left := by
  induction fuel generalizing right with
  | zero => rfl
  | succ fuel ih =>
    unfold bisect
    split
    · dsimp only
      rw [if_pos (h _ (by omega) (by omega))]
      exact ih fun i hleft hright => h i hleft (by omega)
    · rfl

/-! ## What is equal -/

/-- The results of the comparison are in order between the two ends. -/
structure InOrder (cmp : Nat → Ordering) (left right : Nat) : Prop where
  gt : ∀ i j, left ≤ i → i ≤ j → j ≤ right → cmp i = .gt → cmp j = .gt
  lt : ∀ i j, left ≤ i → i ≤ j → j ≤ right → cmp j = .lt → cmp i = .lt

/-- The search for the first place that is equal. -/
def first (cmp : Nat → Ordering) (left right : Nat) : Nat :=
  if left = right then left
  else
    match cmp left with
    | .eq => left
    | .gt => right
    | .lt => (bisect (fun probe => cmp probe != .lt) (right - left) left right).2

/-- The search for the last place that is equal. -/
def last (cmp : Nat → Ordering) (left right : Nat) : Nat :=
  if left = right then right
  else
    match cmp right with
    | .eq => right
    | .lt => left
    | .gt => (bisect (fun probe => cmp probe == .gt) (right - left) left right).1

section Range

variable {cmp : Nat → Ordering} {left right : Nat}

theorem first_bounds (cmp : Nat → Ordering) (hle : left ≤ right) :
    left ≤ first cmp left right ∧ first cmp left right ≤ right := by
  unfold first
  split
  · exact ⟨Nat.le_refl _, hle⟩
  · rename_i hne
    have hends := bisect_spec (q := fun probe => cmp probe != .lt)
      (Nat.lt_of_le_of_ne hle hne) (Nat.le_refl (right - left))
    split
    · exact ⟨Nat.le_refl _, hle⟩
    · exact ⟨hle, Nat.le_refl _⟩
    · exact ⟨by have := hends.left_le; have := hends.next; omega, hends.le_right⟩

/-- When a place is equal, the first one is found. -/
theorem first_eq (h : InOrder cmp left right) {j : Nat} (hleft : left ≤ j) (hright : j ≤ right)
    (hj : cmp j = .eq) : cmp (first cmp left right) = .eq ∧ first cmp left right ≤ j := by
  unfold first
  split
  · rename_i heq
    have hjl : j = left := by omega
    rw [← hjl]
    exact ⟨hj, Nat.le_refl _⟩
  · rename_i hne
    split
    · rename_i heq
      exact ⟨heq, hleft⟩
    · rename_i hgt
      rw [h.gt left j (Nat.le_refl _) hleft hright hgt] at hj
      cases hj
    · rename_i hlt
      have hends := bisect_spec (q := fun probe => cmp probe != .lt)
        (Nat.lt_of_le_of_ne (Nat.le_trans hleft hright) hne) (Nat.le_refl (right - left))
      generalize bisect (fun probe => cmp probe != .lt) (right - left) left right = r at hends ⊢
      obtain ⟨hleft_le, hle_right, hnext, hbelow, habove⟩ := hends
      have hright_ne : cmp right ≠ .lt := by
        intro hlt_right
        rw [h.lt j right hleft hright (Nat.le_refl _) hlt_right] at hj
        cases hj
      have hr_ne : cmp r.2 ≠ .lt := bne_iff_ne.mp (habove (bne_iff_ne.mpr hright_ne))
      have hbelow_lt : cmp r.1 = .lt := by
        have hb := hbelow (by rw [hlt]; rfl)
        rwa [bne_eq_false_iff_eq] at hb
      have hr_le : r.2 ≤ j := by
        refine Nat.le_of_not_lt fun hlt_r => ?_
        rw [h.lt j r.1 hleft (by omega) (by omega) hbelow_lt] at hj
        cases hj
      refine ⟨?_, hr_le⟩
      cases hr : cmp r.2 with
      | lt => exact absurd hr hr_ne
      | eq => rfl
      | gt =>
        rw [h.gt r.2 j (by omega) hr_le hright hr] at hj
        cases hj

/-- From a place that is equal, the last one is found. -/
theorem last_eq (h : InOrder cmp left right) (hle : left ≤ right) (hleft : cmp left = .eq) :
    cmp (last cmp left right) = .eq ∧ left ≤ last cmp left right ∧ last cmp left right ≤ right ∧
      ∀ j, left ≤ j → j ≤ right → cmp j = .eq → j ≤ last cmp left right := by
  unfold last
  split
  · rename_i heq
    rw [← heq]
    exact ⟨hleft, Nat.le_refl _, Nat.le_refl _, fun j _ hj _ => hj⟩
  · rename_i hne
    split
    · rename_i heq
      exact ⟨heq, hle, Nat.le_refl _, fun j _ hj _ => hj⟩
    · rename_i hlt
      rw [h.lt left right (Nat.le_refl _) hle (Nat.le_refl _) hlt] at hleft
      cases hleft
    · rename_i hgt
      have hends := bisect_spec (q := fun probe => cmp probe == .gt)
        (Nat.lt_of_le_of_ne hle hne) (Nat.le_refl (right - left))
      generalize bisect (fun probe => cmp probe == .gt) (right - left) left right = r at hends ⊢
      obtain ⟨hleft_le, hle_right, hnext, hbelow, habove⟩ := hends
      have hr_gt : cmp r.2 = .gt := beq_iff_eq.mp (habove (beq_iff_eq.mpr hgt))
      have hr_ne : cmp r.1 ≠ .gt := beq_eq_false_iff_ne.mp (hbelow (by rw [hleft]; rfl))
      refine ⟨?_, hleft_le, by omega, fun j hj hj_right hj_eq => ?_⟩
      · cases hr : cmp r.1 with
        | gt => exact absurd hr hr_ne
        | eq => rfl
        | lt =>
          rw [h.lt left r.1 (Nat.le_refl _) hleft_le (by omega) hr] at hleft
          cases hleft
      · refine Nat.le_of_not_lt fun hlt_j => ?_
        rw [h.gt r.2 j (by omega) (by omega) hj_right hr_gt] at hj_eq
        cases hj_eq

/-- When no place is equal, the second search ends where the first one did. -/
theorem last_first (h : InOrder cmp left right) (hle : left ≤ right)
    (hnone : ∀ j, left ≤ j → j ≤ right → cmp j ≠ .eq) :
    last cmp (first cmp left right) right = first cmp left right := by
  have hbounds := first_bounds cmp hle
  have hafter : first cmp left right ≠ right → cmp right = .gt →
      cmp (first cmp left right) = .gt := by
    intro hne hgt
    revert hne
    unfold first
    split
    · rename_i heq
      exact fun hne => absurd heq hne
    · rename_i hne
      split
      · rename_i heq
        exact fun _ => absurd heq (hnone left (Nat.le_refl _) hle)
      · exact fun hne => absurd rfl hne
      · intro _
        have hends := bisect_spec (q := fun probe => cmp probe != .lt)
          (Nat.lt_of_le_of_ne hle hne) (Nat.le_refl (right - left))
        generalize bisect (fun probe => cmp probe != .lt) (right - left) left right = r at hends ⊢
        have hr := bne_iff_ne.mp (hends.above (by rw [hgt]; rfl))
        have hr_eq := hnone r.2 (by have := hends.left_le; have := hends.next; omega) hends.le_right
        cases hcmp : cmp r.2 with
        | lt => exact absurd hcmp hr
        | eq => exact absurd hcmp hr_eq
        | gt => rfl
  unfold last
  split
  · rename_i heq
    exact heq.symm
  · rename_i hne
    split
    · rename_i heq
      exact absurd heq (hnone right hle (Nat.le_refl _))
    · rfl
    · rename_i hgt
      have hfirst := hafter hne hgt
      exact bisect_left fun i hi hi_right => beq_iff_eq.mpr
        (h.gt _ i hbounds.1 (Nat.le_of_lt hi) (Nat.le_of_lt hi_right) hfirst)

/-- **The two searches find what is equal, or one place that is not.** -/
theorem equal_range (h : InOrder cmp left right) (hle : left ≤ right) {f l : Nat}
    (hf : first cmp left right = f) (hl : last cmp f right = l) :
    (f = l ∧ cmp f ≠ .eq ∧ ∀ j, left ≤ j → j ≤ right → cmp j ≠ .eq) ∨
      (cmp f = .eq ∧ left ≤ f ∧ f ≤ l ∧ l ≤ right ∧
        ∀ j, left ≤ j → j ≤ right → (cmp j = .eq ↔ f ≤ j ∧ j ≤ l)) := by
  have hbounds := first_bounds cmp hle
  rw [hf] at hbounds
  by_cases hsome : ∃ j, left ≤ j ∧ j ≤ right ∧ cmp j = .eq
  · obtain ⟨j, hj, hj_right, hj_eq⟩ := hsome
    have hfirst := first_eq h hj hj_right hj_eq
    rw [hf] at hfirst
    have hinner : InOrder cmp f right :=
      ⟨fun i j hi => h.gt i j (Nat.le_trans hbounds.1 hi),
        fun i j hi => h.lt i j (Nat.le_trans hbounds.1 hi)⟩
    obtain ⟨hl_eq, hfl, hl_right, hmax⟩ := last_eq hinner hbounds.2 hfirst.1
    rw [hl] at hl_eq hfl hl_right hmax
    refine .inr ⟨hfirst.1, hbounds.1, hfl, hl_right, fun k hk hk_right => ⟨fun hk_eq => ?_, ?_⟩⟩
    · have hfk := (first_eq h hk hk_right hk_eq).2
      rw [hf] at hfk
      exact ⟨hfk, hmax k hfk hk_right hk_eq⟩
    · rintro ⟨hfk, hkl⟩
      cases hcmp : cmp k with
      | lt =>
        have hlt := h.lt f k hbounds.1 hfk hk_right hcmp
        rw [hfirst.1] at hlt
        cases hlt
      | eq => rfl
      | gt =>
        have hgt := h.gt k l hk hkl hl_right hcmp
        rw [hl_eq] at hgt
        cases hgt
  · have hnone : ∀ j, left ≤ j → j ≤ right → cmp j ≠ .eq := fun j hj hj_right hj_eq =>
      hsome ⟨j, hj, hj_right, hj_eq⟩
    have hsame := last_first h hle hnone
    rw [hf, hl] at hsame
    exact .inl ⟨hsame.symm, hnone f hbounds.1 hbounds.2, hnone⟩

end Range

end Bisect
