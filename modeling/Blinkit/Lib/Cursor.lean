import Mathlib.Data.List.Basic

/-!
# Positions in a text

A scanner works with positions in a text; what it does is said of the text behind the position.

* `At s i t` — the text `s` has `t` behind the position `i`.
* `slice s i j` — the text between two positions.
* `findFrom p s i` — the first position from `i` on whose element satisfies `p`.
* `before p`, `behind p` — the text up to the first element that satisfies `p`, and from it on.

Principal results: `At.slice`, `At.findFrom_some`, `At.findFrom_none`.
-/

set_option autoImplicit false

namespace Cursor

universe u

variable {α : Type u} {s t a : List α} {i j : Nat} {c : α} {p : α → Bool}

/-- The text behind the position `i` is `t`. -/
structure At (s : List α) (i : Nat) (t : List α) : Prop where
  drop : s.drop i = t
  length : i + t.length = s.length

theorem at_zero (s : List α) : At s 0 s := ⟨rfl, Nat.zero_add _⟩

theorem at_append (a t : List α) : At (a ++ t) a.length t :=
  ⟨List.drop_left, (List.length_append ..).symm⟩

namespace At

theorem le (h : At s i t) : i ≤ s.length := by
  have := h.length
  omega

theorem lt (h : At s i (c :: t)) : i < s.length := by
  have := h.length
  rw [List.length_cons] at this
  omega

/-- A position that is not behind the text has an element. -/
theorem lt_iff (h : At s i t) : i < s.length ↔ t ≠ [] := by
  have hlen := h.length
  cases t with
  | nil =>
    rw [List.length_nil] at hlen
    exact iff_of_false (by omega) (fun hne => hne rfl)
  | cons c t => exact iff_of_true h.lt (List.cons_ne_nil c t)

theorem of_nil (h : At s i []) : i = s.length := h.length

theorem append (h : At s i (a ++ t)) : At s (i + a.length) t := by
  refine ⟨?_, ?_⟩
  · rw [← List.drop_drop, h.drop, List.drop_left]
  · have hlen := h.length
    rw [List.length_append] at hlen
    omega

theorem succ (h : At s i (c :: t)) : At s (i + 1) t := h.append (a := [c])

theorem get (h : At s i (c :: t)) : s[i]? = some c := by
  have hhead : (s.drop i)[0]? = some c := by
    rw [h.drop]
    rfl
  rwa [List.getElem?_drop, Nat.add_zero] at hhead

end At

/-- The text from position `i` up to position `j`. -/
def slice (s : List α) (i j : Nat) : List α := (s.take j).drop i

theorem At.slice (h : At s i (a ++ t)) : slice s i (i + a.length) = a := by
  unfold Cursor.slice
  rw [List.drop_take, h.drop, Nat.add_sub_cancel_left, List.take_left]

/-! ## Searching -/

/-- The position of the first element from `i` on that satisfies `p`. -/
def findFrom (p : α → Bool) (s : List α) (i : Nat) : Option Nat :=
  ((s.drop i).findIdx? p).map (i + ·)

/-- The text up to the first element that satisfies `p`. -/
def before (p : α → Bool) (t : List α) : List α := t.takeWhile fun c => !p c

/-- The text from the first element on that satisfies `p`. -/
def behind (p : α → Bool) (t : List α) : List α := t.dropWhile fun c => !p c

theorem before_append_behind (p : α → Bool) (t : List α) : before p t ++ behind p t = t :=
  List.takeWhile_append_dropWhile

theorem behind_length_le (p : α → Bool) (t : List α) : (behind p t).length ≤ t.length :=
  (List.dropWhile_sublist _).length_le

/-- What is found satisfies `p`. -/
theorem behind_head (h : behind p t = c :: a) : p c = true := by
  have hhead := List.head?_dropWhile_not (fun c => !p c) t
  unfold behind at h
  rw [h] at hhead
  simpa using hhead

/-- A search stops behind the elements that do not satisfy `p`. -/
theorem before_append (ha : ∀ c ∈ a, p c = false) (ht : ∀ c, t.head? = some c → p c = true) :
    before p (a ++ t) = a ∧ behind p (a ++ t) = t := by
  have hall : ∀ c ∈ a, (!p c) = true := by
    intro c hc
    rw [ha c hc]
    rfl
  unfold before behind
  rw [List.takeWhile_append_of_pos hall, List.dropWhile_append_of_pos hall]
  cases t with
  | nil => exact ⟨List.append_nil a, rfl⟩
  | cons c t =>
    have hc : p c = true := ht c rfl
    rw [List.takeWhile_cons_of_neg (by simp [hc]), List.dropWhile_cons_of_neg (by simp [hc])]
    exact ⟨List.append_nil a, rfl⟩

theorem mem_before (hc : c ∈ before p t) : p c = false := by
  have hall : (t.takeWhile fun c => !p c).all (fun c => !p c) = true := List.all_takeWhile
  simpa using List.all_eq_true.mp hall c hc

theorem At.behind (h : At s i t) (p : α → Bool) :
    At s (i + (before p t).length) (behind p t) := by
  refine At.append (a := before p t) ?_
  rw [before_append_behind]
  exact h

theorem At.before_slice (h : At s i t) (p : α → Bool) :
    Cursor.slice s i (i + (before p t).length) = before p t := by
  refine At.slice (t := Cursor.behind p t) ?_
  rw [before_append_behind]
  exact h

theorem findIdx?_eq (p : α → Bool) (t : List α) :
    t.findIdx? p = if behind p t = [] then none else some (before p t).length := by
  induction t with
  | nil => rfl
  | cons c t ih =>
    unfold behind before at ih ⊢
    rw [List.findIdx?_cons]
    cases hc : p c with
    | true => simp [hc]
    | false =>
      rw [if_neg (by simp), ih, List.dropWhile_cons_of_pos (by simp [hc]),
        List.takeWhile_cons_of_pos (by simp [hc])]
      split <;> rfl

/-- **Nothing is found** when no element behind the position satisfies `p`. -/
theorem At.findFrom_none (h : At s i t) (hp : Cursor.behind p t = []) : findFrom p s i = none := by
  unfold findFrom
  rw [h.drop, findIdx?_eq, if_pos hp]
  rfl

/-- **What is found** is the first element behind the position that satisfies `p`. -/
theorem At.findFrom_some (h : At s i t) (hp : Cursor.behind p t ≠ []) :
    findFrom p s i = some (i + (before p t).length) := by
  unfold findFrom
  rw [h.drop, findIdx?_eq, if_neg hp]
  rfl

/-- The position that is found, or the end of the text. -/
theorem At.findFrom_getD (h : At s i t) (p : α → Bool) :
    (findFrom p s i).getD s.length = i + (before p t).length := by
  by_cases hp : Cursor.behind p t = []
  · rw [h.findFrom_none hp]
    have hnil := h.behind p
    rw [hp] at hnil
    exact hnil.of_nil.symm
  · rw [h.findFrom_some hp]
    rfl

theorem At.findFrom_append (h : At s i (a ++ t)) (ha : ∀ c ∈ a, p c = false)
    (ht : ∀ c, t.head? = some c → p c = true) :
    (findFrom p s i).getD s.length = i + a.length := by
  rw [h.findFrom_getD p, (before_append ha ht).1]

end Cursor
