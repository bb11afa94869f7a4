import Mathlib.Logic.Relation

/-!
# Loops that take turns

A loop is a function `turn` on states: a turn goes on with a new state, or leaves the loop with a
result.

* `loop turn fuel` — at most `fuel` turns; `none` when they are used up.
* `Reaches turn` — the turns from one state to another.
* `Ends turn s r` — from `s` the loop leaves with `r`, for some number of turns.

Principal results: `ends_iff`, `Ends.unique`, `ends_of_measure` (a measure that every turn brings
down) and `not_ends` (a state that goes on with itself).
-/

set_option autoImplicit false

namespace Turns

open Relation

variable {σ ρ : Type*}

def loop (turn : σ → σ ⊕ ρ) : Nat → σ → Option ρ
  | 0, _ => none
  | fuel + 1, s =>
    match turn s with
    | .inl s' => loop turn fuel s'
    | .inr r => some r

def Reaches (turn : σ → σ ⊕ ρ) : σ → σ → Prop :=
  ReflTransGen fun s s' => turn s = .inl s'

def Ends (turn : σ → σ ⊕ ρ) (s : σ) (r : ρ) : Prop :=
  ∃ fuel, loop turn fuel s = some r

variable {turn : σ → σ ⊕ ρ} {s s' t : σ} {r r' : ρ}

theorem Reaches.refl (s : σ) : Reaches turn s s := ReflTransGen.refl

theorem Reaches.tail (h : Reaches turn s s') (hturn : turn s' = .inl t) : Reaches turn s t :=
  ReflTransGen.tail h hturn

theorem Ends.last (h : turn s = .inr r) : Ends turn s r := by
  refine ⟨1, ?_⟩
  unfold loop
  rw [h]

theorem ends_step (h : turn s = .inl s') : Ends turn s r ↔ Ends turn s' r := by
  constructor
  · rintro ⟨fuel, hfuel⟩
    cases fuel with
    | zero => cases hfuel
    | succ fuel =>
      unfold loop at hfuel
      rw [h] at hfuel
      exact ⟨fuel, hfuel⟩
  · rintro ⟨fuel, hfuel⟩
    refine ⟨fuel + 1, ?_⟩
    unfold loop
    rw [h]
    exact hfuel

theorem Reaches.ends_iff (h : Reaches turn s s') : Ends turn s r ↔ Ends turn s' r := by
  induction h with
  | refl => exact Iff.rfl
  | tail _ hturn ih => exact ih.trans (ends_step hturn)

theorem Ends.eq_of_last (h : Ends turn s r) (hlast : turn s = .inr r') : r = r' := by
  obtain ⟨fuel, hfuel⟩ := h
  cases fuel with
  | zero => cases hfuel
  | succ fuel =>
    unfold loop at hfuel
    rw [hlast] at hfuel
    cases hfuel
    rfl

/-- **The loop leaves with `r` exactly when it reaches a state whose turn does.** -/
theorem ends_iff : Ends turn s r ↔ ∃ s', Reaches turn s s' ∧ turn s' = .inr r := by
  constructor
  · rintro ⟨fuel, hfuel⟩
    induction fuel generalizing s with
    | zero => cases hfuel
    | succ fuel ih =>
      unfold loop at hfuel
      split at hfuel
      · rename_i t hturn
        obtain ⟨s', hreach, hlast⟩ := ih hfuel
        exact ⟨s', ReflTransGen.head hturn hreach, hlast⟩
      · rename_i r' hturn
        cases hfuel
        exact ⟨s, .refl s, hturn⟩
  · rintro ⟨s', hreach, hlast⟩
    exact hreach.ends_iff.mpr (.last hlast)

theorem Ends.unique (h : Ends turn s r) (h' : Ends turn s r') : r = r' := by
  obtain ⟨s', hreach, hlast⟩ := ends_iff.mp h'
  exact (hreach.ends_iff.mp h).eq_of_last hlast

/-- **A loop ends when every turn brings a measure down.** -/
theorem ends_of_measure (m : σ → Nat)
    (hm : ∀ t t', Reaches turn s t → turn t = .inl t' → m t' < m t) : ∃ r, Ends turn s r := by
  have hall : ∀ n t, m t ≤ n → Reaches turn s t → ∃ r, Ends turn t r := by
    intro n
    induction n with
    | zero =>
      intro t hle hreach
      cases hturn : turn t with
      | inl t' =>
        have hlt := hm t t' hreach hturn
        omega
      | inr r => exact ⟨r, .last hturn⟩
    | succ n ih =>
      intro t hle hreach
      cases hturn : turn t with
      | inl t' =>
        have hlt := hm t t' hreach hturn
        obtain ⟨r, hr⟩ := ih t' (by omega) (hreach.tail hturn)
        exact ⟨r, (ends_step hturn).mpr hr⟩
      | inr r => exact ⟨r, .last hturn⟩
  exact hall (m s) s (Nat.le_refl _) (.refl s)

/-- **A loop that reaches a state which goes on with itself does not end.** -/
theorem not_ends (hreach : Reaches turn s t) (hfixed : turn t = .inl t) : ¬ Ends turn s r := by
  intro hends
  obtain ⟨fuel, hfuel⟩ := hreach.ends_iff.mp hends
  induction fuel with
  | zero => cases hfuel
  | succ fuel ih =>
    unfold loop at hfuel
    rw [hfixed] at hfuel
    exact ih hfuel

/-- A state that is reached, and not by staying, from one that leaves the loop: there is none. -/
theorem Reaches.eq_of_last (h : Reaches turn s s') (hlast : turn s = .inr r) : s' = s := by
  rcases ReflTransGen.cases_head_iff.mp h with heq | ⟨t, hturn, -⟩
  · exact heq.symm
  · rw [hlast] at hturn
    cases hturn

end Turns
