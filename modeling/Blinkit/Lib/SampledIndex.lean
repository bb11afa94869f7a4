import Blinkit.Lib.DocumentOrder

/-!
# Places in a list from a sample of them

A loop over a list counts its members and remembers the count of every `spread`-th one.  The place
of a member is then found by going back to the next remembered one, or to the front.

* `record spread` — one round of the loop
* `lookBack` — the search for a remembered member; `none` when out of rounds

Principal results: `record_spec`, `lookBack_spec`.
-/

set_option autoImplicit false

namespace LinkedForest

open Function

variable {ι : Type*}

/-- The remembered counts, and the count so far. -/
structure Sample (ι : Type*) where
  index : ι → Option Nat := fun _ => none
  count : Nat := 0

/-- One round: the member is counted, and remembered when it is its turn. -/
def Sample.record [DecidableEq ι] (spread : Nat) (s : Sample ι) (x : ι) : Sample ι :=
  let count := s.count + 1
  if count % spread = 0 then
    { index := update s.index x ((s.index x).or (some count)), count := count }
  else { s with count := count }

/-- The counts of every `spread`-th member, and no others. -/
structure Sample.Of (spread : Nat) (s : Sample ι) (xs : List ι) : Prop where
  count : s.count = xs.length
  index : ∀ l x r, xs = l ++ x :: r →
    s.index x = if (l.length + 1) % spread = 0 then some (l.length + 1) else none
  others : ∀ x, x ∉ xs → s.index x = none

theorem Sample.Of.record [DecidableEq ι] {spread : Nat} {s : Sample ι} {xs : List ι} (h : s.Of spread xs) {x : ι}
    (hx : x ∉ xs) : (s.record spread x).Of spread (xs ++ [x]) := by
  have hcount : (s.record spread x).count = xs.length + 1 := by
    unfold Sample.record
    rw [← h.count]
    dsimp only
    split <;> rfl
  have hnew : (s.record spread x).index x =
      if (xs.length + 1) % spread = 0 then some (xs.length + 1) else none := by
    unfold Sample.record
    rw [← h.count]
    dsimp only
    split
    · dsimp only
      rw [update_self, h.others x hx, Option.none_or]
    · exact h.others x hx
  have hold : ∀ y, y ≠ x → (s.record spread x).index y = s.index y := by
    intro y hy
    unfold Sample.record
    dsimp only
    split
    · exact update_of_ne hy ..
    · rfl
  refine ⟨by rw [hcount, List.length_append, List.length_singleton], ?_, ?_⟩
  · intro l y r hsplit
    rcases List.eq_nil_or_concat r with rfl | ⟨r, z, rfl⟩
    · obtain ⟨rfl, hyx⟩ := List.append_inj' hsplit rfl
      obtain rfl := List.singleton_inj.mp hyx
      exact hnew
    · rw [List.concat_eq_append, ← List.cons_append, ← List.append_assoc] at hsplit
      obtain ⟨rfl, -⟩ := List.append_inj' hsplit rfl
      rw [hold y ?_, h.index l y r rfl]
      rintro rfl
      exact hx (List.mem_append_right l List.mem_cons_self)
  · intro y hy
    rw [List.mem_append, List.mem_singleton, not_or] at hy
    rw [hold y hy.2]
    exact h.others y hy.1

/-- **The loop over a list without repetition.** -/
theorem record_spec [DecidableEq ι] (spread : Nat) {xs : List ι} (hxs : xs.Nodup) :
    (xs.foldl (Sample.record spread) {}).Of spread xs := by
  induction xs using List.reverseRecOn with
  | nil =>
    refine ⟨rfl, ?_, fun _ _ => rfl⟩
    intro l x r h
    simp at h
  | append_singleton xs x ih =>
    rw [List.foldl_append, List.foldl_cons, List.foldl_nil]
    have hnodup := List.nodup_append.mp hxs
    apply (ih hnodup.1).record
    intro hx
    exact hnodup.2.2 x hx x List.mem_cons_self rfl

/-- The search, which counts the steps it goes. -/
def lookBack (m : ι → Option Nat) (step : ι → Option (Option ι)) :
    Nat → Option ι → Nat → Option Nat
  | _, none, index => some index
  | 0, some _, _ => none
  | rounds + 1, some x, index =>
    match m x with
    | some v => some (v + index)
    | none => (step x).bind fun before => lookBack m step rounds before (index + 1)

/-- **The search finds the place of a member.** -/
theorem lookBack_spec {spread : Nat} {s : Sample ι} {xs l r : List ι} {x : ι}
    {step : ι → Option (Option ι)} {rounds : Nat} (h : s.Of spread xs) (hsplit : xs = l ++ x :: r)
    (hstep : StepsThrough step xs.reverse) (hrounds : l.length < rounds) (index : Nat) :
    lookBack s.index step rounds (some x) index = some (l.length + 1 + index) := by
  induction l using List.reverseRecOn generalizing x r rounds index with
  | nil =>
    obtain ⟨rounds, rfl⟩ : ∃ k, rounds = k + 1 := ⟨rounds - 1, by omega⟩
    have hback : step x = some none := by
      rw [hsplit, List.nil_append, List.reverse_cons] at hstep
      exact hstep.step_eq
    unfold lookBack
    rw [h.index [] x r hsplit]
    split
    · rename_i v hv
      split at hv
      · cases hv
        rfl
      · cases hv
    · rw [hback, Option.bind_some, lookBack, List.length_nil]
      congr 1
      omega
  | append_singleton l y ih =>
    obtain ⟨rounds, rfl⟩ : ∃ k, rounds = k + 1 := ⟨rounds - 1, by omega⟩
    have hsplit' : xs = l ++ y :: (x :: r) := by rw [hsplit]; simp
    have hback : step x = some (some y) := by
      have hrev : xs.reverse = r.reverse ++ x :: (y :: l.reverse) := by rw [hsplit]; simp
      rw [hrev] at hstep
      exact hstep.step_eq
    rw [List.length_append, List.length_singleton] at hrounds ⊢
    unfold lookBack
    rw [h.index (l ++ [y]) x r hsplit, List.length_append, List.length_singleton]
    split
    · rename_i v hv
      split at hv
      · cases hv
        rfl
      · cases hv
    · rw [hback, Option.bind_some, ih hsplit' (by omega)]
      congr 1
      omega

end LinkedForest
