import Blinkit.Lib.Ancestry

/-!
# Tours that may be called off

A tour visits the stops of a list in order. Every visit changes the state, and before each visit
the tour looks whether it is over.

* `tour visit ended s stops` — the state behind the tour.
* `Toured visit ended s stops visited t` — the tour has made the visits `visited` and ended in `t`.
* `Lineage parent x as` — `as` are the proper ancestors of `x`, from its parent up to a root.

Principal results: `toured_tour`, `tour_append` (a tour can be made in stages), and
`lineage_of_walk` (the loop towards the root visits a node and its lineage).
-/

set_option autoImplicit false

namespace Tour

variable {σ ι : Type*} {visit : σ → ι → σ} {ended : σ → Bool} {s t : σ} {stops visited : List ι}

/-- The state behind a tour of `stops` that starts in `s`. -/
def tour (visit : σ → ι → σ) (ended : σ → Bool) (s : σ) : List ι → σ
  | [] => s
  | i :: is => if ended s then s else tour visit ended (visit s i) is

/-- The tour of `stops` from `s` has made the visits `visited` and ended in `t`. -/
structure Toured (visit : σ → ι → σ) (ended : σ → Bool) (s : σ) (stops visited : List ι) (t : σ) :
    Prop where
  /-- The visits are those that come first. -/
  isPrefix : visited <+: stops
  outcome : visited.foldl visit s = t
  /-- No visit is made when the tour is over. -/
  going : ∀ before, before <+: visited → before ≠ visited →
    ended (before.foldl visit s) = false
  /-- A stop is left out only because the tour is over. -/
  calledOff : visited ≠ stops → ended t = true

theorem tour_of_ended (h : ended s = true) (stops : List ι) : tour visit ended s stops = s := by
  cases stops with
  | nil => rfl
  | cons i is => exact if_pos h

theorem tour_cons (h : ended s = false) (i : ι) (is : List ι) :
    tour visit ended s (i :: is) = tour visit ended (visit s i) is := by
  show (if ended s then s else _) = _
  rw [h]
  rfl

/-- **A tour can be made in stages.** -/
theorem tour_append (s : σ) (as bs : List ι) :
    tour visit ended s (as ++ bs) = tour visit ended (tour visit ended s as) bs := by
  induction as generalizing s with
  | nil => rfl
  | cons a as ih =>
    cases h : ended s with
    | true => rw [tour_of_ended h, tour_of_ended h, tour_of_ended h]
    | false =>
      rw [List.cons_append, tour_cons h, tour_cons h]
      exact ih (visit s a)

/-- A visit in front of a tour. -/
theorem Toured.cons {i : ι} {is : List ι} (h : ended s = false)
    (ht : Toured visit ended (visit s i) is visited t) :
    Toured visit ended s (i :: is) (i :: visited) t where
  isPrefix := (List.prefix_cons_inj i).mpr ht.isPrefix
  outcome := ht.outcome
  going := by
    intro before hbefore hne
    cases before with
    | nil => exact h
    | cons j js =>
      obtain ⟨rfl, hjs⟩ := List.cons_prefix_cons.mp hbefore
      apply ht.going js hjs
      rintro rfl
      exact hne rfl
  calledOff := by
    intro hne
    apply ht.calledOff
    rintro rfl
    exact hne rfl

/-- **The state behind a tour is that of its visits.** -/
theorem toured_tour (visit : σ → ι → σ) (ended : σ → Bool) (s : σ) (stops : List ι) :
    ∃ visited, Toured visit ended s stops visited (tour visit ended s stops) := by
  induction stops generalizing s with
  | nil =>
    refine ⟨[], List.prefix_rfl, rfl, fun before hbefore hne => ?_, fun hne => absurd rfl hne⟩
    exact absurd (List.prefix_nil.mp hbefore) hne
  | cons i is ih =>
    cases h : ended s with
    | true =>
      rw [tour_of_ended h]
      refine ⟨[], List.nil_prefix, rfl, fun before hbefore hne => ?_, fun _ => h⟩
      exact absurd (List.prefix_nil.mp hbefore) hne
    | false =>
      obtain ⟨visited, hvisited⟩ := ih (visit s i)
      rw [tour_cons h]
      exact ⟨i :: visited, hvisited.cons h⟩

/-- When no visit ends the tour, every stop is visited. -/
theorem Toured.all (ht : Toured visit ended s stops visited t)
    (hgoing : ended (visited.foldl visit s) = false) : visited = stops := by
  apply Classical.byContradiction
  intro hne
  have hended := ht.calledOff hne
  rw [← ht.outcome, hgoing] at hended
  cases hended

end Tour

/-! ## Lineages -/

namespace LinkedForest

variable {ι : Type*} {parent : ι → Option ι} {x y : ι} {as bs : List ι} {fuel : Nat}

/-- `as` are the proper ancestors of `x`, from its parent up to a root. -/
def Lineage (parent : ι → Option ι) (x : ι) : List ι → Prop
  | [] => parent x = none
  | a :: as => parent x = some a ∧ Lineage parent a as

/-- A node has one lineage at most. -/
theorem Lineage.unique (h : Lineage parent x as) (h' : Lineage parent x bs) : as = bs := by
  induction as generalizing x bs with
  | nil =>
    cases bs with
    | nil => rfl
    | cons b bs => cases h.symm.trans h'.1
  | cons a as ih =>
    cases bs with
    | nil => cases h.1.symm.trans h'
    | cons b bs =>
      cases h.1.symm.trans h'.1
      exact congrArg _ (ih h.2 h'.2)

theorem Lineage.above (h : Lineage parent x as) (hy : y ∈ as) :
    ∃ p, parent x = some p ∧ Above parent p y := by
  induction as generalizing x with
  | nil => cases hy
  | cons a as ih =>
    refine ⟨a, h.1, ?_⟩
    rcases List.mem_cons.mp hy with rfl | hy
    · exact .refl y
    · obtain ⟨p, hp, habove⟩ := ih h.2 hy
      exact above_iff_head.mpr (.inr ⟨p, hp, habove⟩)

theorem Lineage.mem (h : Lineage parent x as) : y ∈ x :: as ↔ Above parent x y := by
  constructor
  · intro hy
    rcases List.mem_cons.mp hy with rfl | hy
    · exact .refl y
    · obtain ⟨p, hp, habove⟩ := h.above hy
      exact above_iff_head.mpr (.inr ⟨p, hp, habove⟩)
  · intro habove
    induction as generalizing x with
    | nil => exact List.mem_singleton.mpr (habove.eq_of_root h).symm
    | cons a as ih =>
      rcases above_iff_head.mp habove with rfl | ⟨p, hp, habove⟩
      · exact List.mem_cons_self
      · cases h.1.symm.trans hp
        exact List.mem_cons_of_mem _ (ih h.2 habove)

/-- Without a cycle a node does not occur among its ancestors. -/
theorem Lineage.nodup (hac : Acyclic parent) (h : Lineage parent x as) : (x :: as).Nodup := by
  induction as generalizing x with
  | nil => exact List.nodup_singleton x
  | cons a as ih =>
    refine List.nodup_cons.mpr ⟨?_, ih h.2⟩
    intro hx
    obtain ⟨p, hp, habove⟩ := h.above hx
    exact hac x p hp habove

/-- **The loop towards the root visits a node and its lineage.** -/
theorem lineage_of_walk (h : walk parent fuel (some x) = some as) :
    ∃ above, as = x :: above ∧ Lineage parent x above := by
  induction fuel generalizing x as with
  | zero => cases h
  | succ fuel ih =>
    simp only [walk, Option.map_eq_some_iff] at h
    obtain ⟨bs, hbs, rfl⟩ := h
    refine ⟨bs, rfl, ?_⟩
    cases hx : parent x with
    | none =>
      rw [hx] at hbs
      cases fuel <;> cases hbs <;> exact hx
    | some p =>
      rw [hx] at hbs
      obtain ⟨above, rfl, hp⟩ := ih hbs
      exact ⟨hx, hp⟩

end LinkedForest
