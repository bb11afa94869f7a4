import Blinkit.Lib.DocumentOrder

/-!
# The way up from a node

* `Climbs parent o l` — `l` goes from `o` up to where the parents end.
* `climbTimes` — a number of steps up; `none` where there is no parent to step to.
* `meet` — two nodes climb in step until they meet.

Two ways up that have a node in common are the same from there on, so nodes that are equally high
come to it at the same time.

Principal results: `Climbs.split`, `climbTimes_spec` and `meet_spec`.
-/

set_option autoImplicit false

namespace LinkedForest

variable {ι : Type*} {parent : ι → Option ι}

/-- The nodes from `o` to the root. -/
def Climbs (parent : ι → Option ι) : Option ι → List ι → Prop
  | o, [] => o = none
  | o, x :: l => o = some x ∧ Climbs parent (parent x) l

section Climbs

variable {o : Option ι} {x y : ι} {l r as bs : List ι}

theorem climbs_of_walk {fuel : Nat} (h : walk parent fuel o = some l) :
    Climbs parent o l ∧ l.length ≤ fuel := by
  induction fuel generalizing o l with
  | zero =>
    cases o with
    | none =>
      cases h
      exact ⟨rfl, Nat.le_refl 0⟩
    | some x => cases h
  | succ fuel ih =>
    cases o with
    | none =>
      cases h
      exact ⟨rfl, Nat.zero_le _⟩
    | some x =>
      obtain ⟨l', hl', rfl⟩ := Option.map_eq_some_iff.mp h
      obtain ⟨hclimbs, hlen⟩ := ih hl'
      exact ⟨⟨rfl, hclimbs⟩, Nat.succ_le_succ hlen⟩

theorem Climbs.head (h : Climbs parent o l) : o = l.head? := by
  cases l with
  | nil => exact h
  | cons x l => exact h.1

/-- The way up is what the steps to the parents go through. -/
theorem Climbs.steps (h : Climbs parent o l) : StepsThrough (fun x => some (parent x)) l := by
  induction l generalizing o with
  | nil => exact fun _ _ hx => nomatch hx
  | cons x l ih =>
    intro k y hy
    cases k with
    | zero =>
      cases hy
      show some (parent x) = some l[0]?
      rw [h.2.head, List.head?_eq_getElem?]
    | succ k => exact ih h.2 k y hy

/-- There is one way up. -/
theorem Climbs.unique (h : Climbs parent o l) (h' : Climbs parent o r) : r = l := by
  induction l generalizing o r with
  | nil =>
    cases r with
    | nil => rfl
    | cons y r =>
      obtain ⟨hy, -⟩ := h'
      rw [show o = none from h] at hy
      cases hy
  | cons x l ih =>
    obtain ⟨rfl, hl⟩ := h
    cases r with
    | nil => cases h'
    | cons y r =>
      obtain ⟨hy, hr⟩ := h'
      cases hy
      rw [ih hl hr]

theorem Climbs.above (h : Climbs parent (some x) l) (hy : y ∈ l) : Above parent x y := by
  induction l generalizing x with
  | nil => cases hy
  | cons z l ih =>
    obtain ⟨hz, hl⟩ := h
    cases hz
    rcases List.mem_cons.mp hy with rfl | hy
    · exact .refl y
    · cases hp : parent z with
      | none =>
        rw [hp] at hl
        cases l with
        | nil => cases hy
        | cons w l => cases hl.1
      | some p =>
        rw [hp] at hl
        exact (Above.of_parent hp).trans (ih hl hy)

theorem Climbs.mem_of_above (h : Climbs parent (some x) l) (hy : Above parent x y) : y ∈ l := by
  induction l generalizing x with
  | nil => cases h
  | cons z l ih =>
    obtain ⟨hz, hl⟩ := h
    cases hz
    rcases above_iff_head.mp hy with rfl | ⟨p, hp, hpy⟩
    · exact List.mem_cons_self
    · rw [hp] at hl
      exact List.mem_cons_of_mem z (ih hl hpy)

/-- From one of its members the way up is the rest of it. -/
theorem Climbs.rest (h : Climbs parent o (l ++ y :: r)) : Climbs parent (some y) (y :: r) := by
  induction l generalizing o with
  | nil =>
    obtain ⟨rfl, hr⟩ := h
    exact ⟨rfl, hr⟩
  | cons x l ih => exact ih h.2

/-- **Two ways up that share a node are the same from there on.** -/
theorem Climbs.split {o' : Option ι} (h : Climbs parent o as) (h' : Climbs parent o' bs)
    (hy : y ∈ as) (hy' : y ∈ bs) : ∃ l l' r, as = l ++ y :: r ∧ bs = l' ++ y :: r := by
  obtain ⟨l, r, rfl⟩ := List.append_of_mem hy
  obtain ⟨l', r', rfl⟩ := List.append_of_mem hy'
  obtain ⟨-, rfl⟩ := List.cons_eq_cons.mp (h.rest.unique h'.rest)
  exact ⟨l, l', r', rfl, rfl⟩

end Climbs

/-! ## Climbing by a number of steps -/

def climbTimes (parent : ι → Option ι) : Nat → Option ι → Option (Option ι)
  | 0, o => some o
  | _ + 1, none => none
  | times + 1, some x => climbTimes parent times (parent x)

theorem climbTimes_spec {o : Option ι} {l r : List ι} (h : Climbs parent o (l ++ r)) :
    ∃ o', climbTimes parent l.length o = some o' ∧ Climbs parent o' r := by
  induction l generalizing o with
  | nil => exact ⟨o, rfl, h⟩
  | cons x l ih =>
    obtain ⟨rfl, hl⟩ := h
    exact ih hl

/-! ## Climbing in step -/

variable [DecidableEq ι]

/-- The loop that returns the node where `o` and `o'` meet; `none` when it steps up from nothing, or
is out of rounds. -/
def meet (parent : ι → Option ι) : Nat → Option ι → Option ι → Option (Option ι)
  | _, none, _ => some none
  | 0, some _, _ => none
  | rounds + 1, some x, o' =>
    if some x = o' then some (some x)
    else o'.bind fun y => meet parent rounds (parent x) (parent y)

/-- **Nodes that are equally high meet in the first node that is above both.** -/
theorem meet_spec {o o' : Option ι} {as bs : List ι} (h : Climbs parent o as)
    (h' : Climbs parent o' bs) (hlen : as.length = bs.length) {rounds : Nat}
    (hrounds : as.length ≤ rounds) :
    ∃ r, meet parent rounds o o' = some r ∧
      (∀ x, r = some x → x ∈ as ∧ x ∈ bs ∧ ∀ y ∈ as, y ∈ bs → Above parent x y) ∧
      (r = none → ∀ y ∈ as, y ∉ bs) := by
  induction as generalizing o o' bs rounds with
  | nil =>
    obtain rfl : o = none := h
    refine ⟨none, by unfold meet; rfl, ?_, ?_⟩
    · rintro x ⟨⟩
    · rintro - y ⟨⟩
  | cons x as ih =>
    obtain ⟨rfl, has⟩ := h
    obtain ⟨rounds, rfl⟩ : ∃ k, rounds = k + 1 :=
      ⟨rounds - 1, by rw [List.length_cons] at hrounds; omega⟩
    cases bs with
    | nil => cases hlen
    | cons y bs =>
      obtain ⟨rfl, hbs⟩ := h'
      unfold meet
      by_cases hxy : x = y
      · subst hxy
        rw [if_pos rfl]
        refine ⟨some x, rfl, fun z hz => ?_, fun hn => by cases hn⟩
        cases hz
        exact ⟨List.mem_cons_self, List.mem_cons_self,
          fun z hz _ => Climbs.above (l := x :: as) ⟨rfl, has⟩ hz⟩
      · rw [if_neg (fun heq => hxy (Option.some.inj heq)), Option.bind_some]
        have hlen' : as.length = bs.length := Nat.succ.inj hlen
        obtain ⟨r, hmeet, hsome, hnone⟩ := ih has hbs hlen' (Nat.le_of_succ_le_succ hrounds)
        -- a node above both is at the same place on both ways, so not at the start of one
        have hcommon : ∀ z ∈ x :: as, z ∈ y :: bs → z ∈ as ∧ z ∈ bs := by
          intro z hz hz'
          have hx : Climbs parent (some x) (x :: as) := ⟨rfl, has⟩
          have hy : Climbs parent (some y) (y :: bs) := ⟨rfl, hbs⟩
          obtain ⟨l, l', r, hl, hl'⟩ := hx.split hy hz hz'
          have hsame : l.length = l'.length := by
            have h₁ := congrArg List.length hl
            have h₂ := congrArg List.length hl'
            simp only [List.length_cons, List.length_append] at h₁ h₂
            omega
          cases l with
          | nil =>
            obtain rfl := List.length_eq_zero_iff.mp hsame.symm
            obtain ⟨rfl, -⟩ := List.cons_eq_cons.mp hl
            obtain ⟨rfl, -⟩ := List.cons_eq_cons.mp hl'
            exact absurd rfl hxy
          | cons a l =>
            cases l' with
            | nil => cases hsame
            | cons b l' =>
              obtain ⟨-, rfl⟩ := List.cons_eq_cons.mp hl
              obtain ⟨-, rfl⟩ := List.cons_eq_cons.mp hl'
              simp
        refine ⟨r, hmeet, fun z hz => ?_, fun hr z hz hz' => ?_⟩
        · obtain ⟨hza, hzb, habove⟩ := hsome z hz
          refine ⟨List.mem_cons_of_mem _ hza, List.mem_cons_of_mem _ hzb, fun w hw hw' => ?_⟩
          obtain ⟨hwa, hwb⟩ := hcommon w hw hw'
          exact habove w hwa hwb
        · obtain ⟨hza, hzb⟩ := hcommon z hz hz'
          exact hnone hr z hza hzb

end LinkedForest
