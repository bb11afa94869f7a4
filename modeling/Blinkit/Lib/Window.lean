import Mathlib.Data.List.Basic

/-!
# Windows of a list that is mutated behind a pair of indices

A loop runs over a list with two indices, the next member and the end, while the list grows at its
end and loses members anywhere. The window is what the loop has still to visit.

* `window l lo hi` — the members of `l` from index `lo` up to, but without, `hi`.
* `shift k lo hi` — the indices after the member at index `k` has been erased.

Principal results: `window_append` (what is added behind the window is not in it) and
`window_erase` (with the indices shifted, the window loses the erased member and no other).
-/

set_option autoImplicit false

namespace Window

variable {α : Type*}

/-- The members at the indices from `lo` up to `hi`. -/
def window (l : List α) (lo hi : Nat) : List α := (l.take hi).drop lo

/-- The indices of a loop after the member at index `k` has been erased. -/
def shift (k lo hi : Nat) : Nat × Nat :=
  if hi ≤ k then (lo, hi) else (if k < lo then lo - 1 else lo, hi - 1)

theorem window_nil (l : List α) {lo hi : Nat} (h : hi ≤ lo) : window l lo hi = [] := by
  unfold window
  rw [List.drop_eq_nil_iff, List.length_take]
  omega

theorem window_cons (l : List α) {lo hi : Nat} (h : lo < hi) (hl : hi ≤ l.length) :
    ∃ x, l[lo]? = some x ∧ window l lo hi = x :: window l (lo + 1) hi := by
  have hlt : lo < l.length := by omega
  refine ⟨l[lo], List.getElem?_eq_getElem hlt, ?_⟩
  unfold window
  have hlen : lo < (l.take hi).length := by rw [List.length_take]; omega
  rw [List.drop_eq_getElem_cons hlen, List.getElem_take]

theorem window_full (l : List α) : window l 0 l.length = l := by
  unfold window
  rw [List.take_length, List.drop_zero]

theorem window_append (l m : List α) {lo hi : Nat} (hl : hi ≤ l.length) :
    window (l ++ m) lo hi = window l lo hi := by
  unfold window
  rw [List.take_append_of_le_length hl]

theorem shift_le {k lo hi : Nat} (h : lo ≤ hi) : (shift k lo hi).1 ≤ (shift k lo hi).2 := by
  unfold shift
  split
  · exact h
  · split <;> simp only <;> omega

theorem shift_le_length {l₁ l₂ : List α} {c : α} {lo hi : Nat}
    (h : hi ≤ (l₁ ++ c :: l₂).length) : (shift l₁.length lo hi).2 ≤ (l₁ ++ l₂).length := by
  unfold shift
  simp only [List.length_append, List.length_cons] at h ⊢
  split
  · simp only; omega
  · simp only; omega

theorem filter_ne_of_not_mem [DecidableEq α] {l : List α} {c : α} (h : c ∉ l) :
    l.filter (· ≠ c) = l := by
  rw [List.filter_eq_self]
  intro a ha
  simpa using ne_of_mem_of_not_mem ha h

theorem filter_ne_middle [DecidableEq α] {l₁ l₂ : List α} {c : α} (h₁ : c ∉ l₁) (h₂ : c ∉ l₂) :
    (l₁ ++ c :: l₂).filter (· ≠ c) = l₁ ++ l₂ := by
  rw [List.filter_append, List.filter_cons_of_neg (by simp), filter_ne_of_not_mem h₁,
    filter_ne_of_not_mem h₂]

/-- **Erasing a member erases it from the window.** -/
theorem window_erase [DecidableEq α] {l₁ l₂ : List α} {c : α} (h₁ : c ∉ l₁) (h₂ : c ∉ l₂)
    (lo hi : Nat) :
    window (l₁ ++ l₂) (shift l₁.length lo hi).1 (shift l₁.length lo hi).2 =
      (window (l₁ ++ c :: l₂) lo hi).filter (· ≠ c) := by
  unfold shift window
  split
  · -- the member stands behind the window
    rename_i hhi
    simp only [List.take_append_of_le_length hhi]
    exact (filter_ne_of_not_mem fun hc =>
      h₁ (List.mem_of_mem_take (List.mem_of_mem_drop hc))).symm
  · rename_i hhi
    obtain ⟨m, rfl⟩ : ∃ m, hi = l₁.length + (m + 1) := ⟨hi - l₁.length - 1, by omega⟩
    have htake : (l₁ ++ c :: l₂).take (l₁.length + (m + 1)) = l₁ ++ c :: l₂.take m := by
      rw [List.take_length_add_append, List.take_succ_cons]
    have htake' : (l₁ ++ l₂).take (l₁.length + (m + 1) - 1) = l₁ ++ l₂.take m := by
      rw [← Nat.add_assoc, Nat.add_sub_cancel, List.take_length_add_append]
    have hc₂ : c ∉ l₂.take m := fun hc => h₂ (List.mem_of_mem_take hc)
    rw [htake]
    simp only [htake']
    split
    · -- it stands in front of the window
      rename_i hlo
      obtain ⟨k, rfl⟩ : ∃ k, lo = l₁.length + (k + 1) := ⟨lo - l₁.length - 1, by omega⟩
      rw [← Nat.add_assoc, Nat.add_sub_cancel, List.drop_length_add_append, Nat.add_assoc,
        List.drop_length_add_append, List.drop_succ_cons]
      exact (filter_ne_of_not_mem fun hc => hc₂ (List.mem_of_mem_drop hc)).symm
    · -- it stands inside
      rename_i hlo
      have hlo' : lo ≤ l₁.length := by omega
      rw [List.drop_append_of_le_length hlo', List.drop_append_of_le_length hlo',
        filter_ne_middle (fun hc => h₁ (List.mem_of_mem_drop hc)) hc₂]

end Window
