import Mathlib.Logic.Relation

/-!
# Labelled transition systems and their runs

* `Steps step s as t` — the labels `as`, taken in order, lead from `s` to `t`.
* `Guarded step guard` — the steps of `step` whose guard holds in the state before the step.
* `run step s as` — the run of a machine that answers every label with a new state and an output,
  or with an error.

* `Always step P E s as` — every state of the run has `P`, and if the run stops with an error, `E`.
* `Allowed step G s as` — every label of the run is allowed by `G` in the state it is taken from.

* `machine next` — the machine of a partial step function, for parties that take turns.
* `Serves next Q s as` — every label of the run is answered, as the relation `Q` says.

Principal results: `Steps.invariant` (what one step keeps, a run keeps), and for machines
`run_invariant` and `run_agree` (a step-by-step simulation lifts to runs). `always_of_allowed`
lifts a condition on steps to runs, `always_iff_allowed` and `always_iff_allowed_of_invariant` an
exact one.
-/

set_option autoImplicit false

namespace Transition

variable {σ τ α : Type*}

/-- A run: the labels `as`, taken in order. -/
inductive Steps (step : σ → α → σ → Prop) : σ → List α → σ → Prop where
  | nil (s : σ) : Steps step s [] s
  | cons {s t u : σ} {a : α} {as : List α} : step s a t → Steps step t as u →
      Steps step s (a :: as) u

/-- The steps whose guard holds in the state they start from. -/
def Guarded (step : σ → α → σ → Prop) (guard : σ → α → Prop) (s : σ) (a : α) (t : σ) : Prop :=
  guard s a ∧ step s a t

variable {step : σ → α → σ → Prop}

/-- **A property that every step keeps holds at the end of every run.** -/
theorem Steps.invariant {I : σ → Prop} (hstep : ∀ s a t, I s → step s a t → I t) {s t : σ}
    {as : List α} (hs : I s) (h : Steps step s as t) : I t := by
  induction h with
  | nil s => exact hs
  | cons ha _ ih => exact ih (hstep _ _ _ hs ha)

/-- Runs compose. -/
theorem Steps.append {s t u : σ} {as bs : List α} (h₁ : Steps step s as t)
    (h₂ : Steps step t bs u) : Steps step s (as ++ bs) u := by
  induction h₁ with
  | nil s => exact h₂
  | cons ha _ ih => exact .cons ha (ih h₂)

/-! ## Machines -/

section Machine

variable {ε ω ω' : Type*}

/-- The labels `as`, taken in order, with the output of each. -/
def run (step : σ → α → Except ε (σ × ω)) (s : σ) : List α → Except ε (σ × List ω)
  | [] => .ok (s, [])
  | a :: as =>
    match step s a with
    | .error e => .error e
    | .ok (s, o) =>
      match run step s as with
      | .error e => .error e
      | .ok (s, os) => .ok (s, o :: os)

theorem run_invariant {step : σ → α → Except ε (σ × ω)} {I : σ → Prop}
    (hstep : ∀ s a s' o, I s → step s a = .ok (s', o) → I s') {s s' : σ} {as : List α}
    {os : List ω} (hs : I s) (hrun : run step s as = .ok (s', os)) : I s' := by
  induction as generalizing s os with
  | nil =>
    cases hrun
    exact hs
  | cons a as ih =>
    unfold run at hrun
    split at hrun
    · cases hrun
    · rename_i s₁ o ha
      split at hrun
      · cases hrun
      · rename_i s₂ os₂ hrest
        cases hrun
        exact ih (hstep _ _ _ _ hs ha) hrest

/-- The error of a run is the error of a step. -/
theorem run_error {step : σ → α → Except ε (σ × ω)} {E : ε → Prop}
    (hstep : ∀ s a e, step s a = .error e → E e) {s : σ} {as : List α} {e : ε}
    (hrun : run step s as = .error e) : E e := by
  induction as generalizing s with
  | nil => cases hrun
  | cons a as ih =>
    unfold run at hrun
    split at hrun
    · rename_i e' ha
      cases hrun
      exact hstep _ _ _ ha
    · split at hrun
      · rename_i e' hrest
        cases hrun
        exact ih hrest
      · cases hrun

/-- Two answers agree: the same error, or related states and outputs that look the same. -/
def Agree (R : σ → τ → Prop) (view : ω → ω') : Except ε (σ × ω) → Except ε (τ × ω') → Prop
  | .ok (s, o), .ok (t, o') => R s t ∧ view o = o'
  | .error e, .error e' => e = e'
  | _, _ => False

/-- **Machines whose steps agree agree on every run.** -/
theorem run_agree {step : σ → α → Except ε (σ × ω)} {step' : τ → α → Except ε (τ × ω')}
    {R : σ → τ → Prop} {view : ω → ω'}
    (hstep : ∀ s t a, R s t → Agree R view (step s a) (step' t a)) {s : σ} {t : τ} (hR : R s t)
    (as : List α) : Agree R (List.map view) (run step s as) (run step' t as) := by
  induction as generalizing s t with
  | nil => exact ⟨hR, rfl⟩
  | cons a as ih =>
    have ha := hstep s t a hR
    unfold run
    cases hs : step s a with
    | error e =>
      cases ht : step' t a with
      | error e' =>
        rw [hs, ht] at ha
        exact ha
      | ok r' => rw [hs, ht] at ha; exact ha.elim
    | ok r =>
      cases ht : step' t a with
      | error e' => rw [hs, ht] at ha; exact ha.elim
      | ok r' =>
        rw [hs, ht] at ha
        have hrest := ih ha.1
        simp only
        cases hs' : run step r.1 as with
        | error e =>
          cases ht' : run step' r'.1 as with
          | error e' =>
            rw [hs', ht'] at hrest
            exact hrest
          | ok q' => rw [hs', ht'] at hrest; exact hrest.elim
        | ok q =>
          cases ht' : run step' r'.1 as with
          | error e' => rw [hs', ht'] at hrest; exact hrest.elim
          | ok q' =>
            rw [hs', ht'] at hrest
            refine ⟨hrest.1, ?_⟩
            rw [List.map_cons, ha.2, hrest.2]

/-! ## The exact condition of a property -/

/-- The state of an answer has the property `P`, an error counts as `E`. -/
def After (P : σ → Prop) (E : Prop) : Except ε (σ × ω) → Prop
  | .error _ => E
  | .ok r => P r.1

/-- Every state of the run has the property `P`. A run that stops with an error counts as `E`. -/
def Always (step : σ → α → Except ε (σ × ω)) (P : σ → Prop) (E : Prop) (s : σ) :
    List α → Prop
  | [] => P s
  | a :: as => P s ∧ After (fun s' => Always step P E s' as) E (step s a)

/-- Every label of the run is allowed in the state it is taken from. -/
def Allowed (step : σ → α → Except ε (σ × ω)) (G : σ → α → Prop) (s : σ) : List α → Prop
  | [] => True
  | a :: as => G s a ∧ After (fun s' => Allowed step G s' as) True (step s a)

theorem Always.head {step : σ → α → Except ε (σ × ω)} {P : σ → Prop} {E : Prop} {s : σ}
    {as : List α} (h : Always step P E s as) : P s := by
  cases as with
  | nil => exact h
  | cons a as => exact h.1

/-- Labels that are allowed in every state are allowed in every run. -/
theorem allowed_of_forall {step : σ → α → Except ε (σ × ω)} {G : σ → α → Prop} {s : σ}
    {as : List α} (h : ∀ a ∈ as, ∀ s, G s a) : Allowed step G s as := by
  induction as generalizing s with
  | nil => trivial
  | cons a as ih =>
    refine ⟨h a List.mem_cons_self s, ?_⟩
    cases step s a with
    | error e => trivial
    | ok r => exact ih fun b hb => h b (List.mem_cons_of_mem a hb)

/-- Labels that are allowed in every state may follow an allowed run. -/
theorem Allowed.append {step : σ → α → Except ε (σ × ω)} {G : σ → α → Prop} {s : σ}
    {as bs : List α} (h : Allowed step G s as) (hbs : ∀ b ∈ bs, ∀ s, G s b) :
    Allowed step G s (as ++ bs) := by
  induction as generalizing s with
  | nil => exact allowed_of_forall hbs
  | cons a as ih =>
    refine ⟨h.1, ?_⟩
    have hrest := h.2
    cases ha : step s a with
    | error e => trivial
    | ok r =>
      rw [ha] at hrest
      exact ih hrest

/-- The beginning of a run. -/
theorem Allowed.of_append {step : σ → α → Except ε (σ × ω)} {G : σ → α → Prop} {s : σ}
    {as bs : List α} (h : Allowed step G s (as ++ bs)) : Allowed step G s as := by
  induction as generalizing s with
  | nil => trivial
  | cons a as ih =>
    refine ⟨h.1, ?_⟩
    have hrest := h.2
    cases ha : step s a with
    | error e => trivial
    | ok r =>
      rw [ha] at hrest
      exact ih hrest

/-- **Conditions that are the same under an invariant allow the same runs.** -/
theorem allowed_congr {step : σ → α → Except ε (σ × ω)} {J : σ → Prop} {G G' : σ → α → Prop}
    (hJ : ∀ s a r, J s → step s a = .ok r → J r.1) (hG : ∀ s a, J s → (G s a ↔ G' s a)) {s : σ}
    (hs : J s) (as : List α) : Allowed step G s as ↔ Allowed step G' s as := by
  induction as generalizing s with
  | nil => exact Iff.rfl
  | cons a as ih =>
    unfold Allowed
    rw [hG s a hs]
    cases ha : step s a with
    | error e => exact Iff.rfl
    | ok r => exact and_congr_right fun _ => ih (hJ s a r hs ha)

/-- What holds throughout a run holds at its end. -/
theorem Always.last {step : σ → α → Except ε (σ × ω)} {P : σ → Prop} {E : Prop} {s s' : σ}
    {as : List α} {os : List ω} (h : Always step P E s as) (hrun : run step s as = .ok (s', os)) :
    P s' := by
  induction as generalizing s os with
  | nil =>
    cases hrun
    exact h
  | cons a as ih =>
    have hrest := h.2
    unfold run at hrun
    split at hrun
    · cases hrun
    · rename_i s₁ o ha
      rw [ha] at hrest
      split at hrun
      · cases hrun
      · rename_i s₂ os₂ htail
        cases hrun
        exact ih hrest htail

/-- **If `G` decides, under an invariant, whether one step keeps the property, then the runs that
have it throughout are the runs `G` allows.** -/
theorem always_iff_allowed {step : σ → α → Except ε (σ × ω)} {J P : σ → Prop} {E : Prop}
    {G : σ → α → Prop} (hJ : ∀ s a r, J s → step s a = .ok r → J r.1)
    (hG : ∀ s a, J s → P s → (G s a ↔ After P E (step s a))) {s : σ} (hs : J s) (hP : P s)
    (as : List α) : Always step P E s as ↔ Allowed step G s as := by
  induction as generalizing s with
  | nil => exact iff_of_true hP trivial
  | cons a as ih =>
    have hstep := hG s a hs hP
    unfold Always Allowed
    rw [hstep]
    cases ha : step s a with
    | error e => exact ⟨fun h => ⟨h.2, trivial⟩, fun h => ⟨hP, h.1⟩⟩
    | ok r =>
      have hr := hJ s a r hs ha
      constructor
      · intro h
        exact ⟨h.2.head, (ih hr h.2.head).mp h.2⟩
      · intro h
        exact ⟨hP, (ih hr h.1).mpr h.2⟩

/-- **A condition that makes every step keep an invariant gives every state of the runs it allows
the properties of the invariant.** -/
theorem always_of_allowed {step : σ → α → Except ε (σ × ω)} {I P : σ → Prop} {E : Prop}
    {G : σ → α → Prop} (hI : ∀ s, I s → P s) (hG : ∀ s a, I s → G s a → After I E (step s a))
    {s : σ} (hs : I s) {as : List α} (hallowed : Allowed step G s as) :
    Always step P E s as := by
  induction as generalizing s with
  | nil => exact hI s hs
  | cons a as ih =>
    have hstep := hG s a hs hallowed.1
    refine ⟨hI s hs, ?_⟩
    have hrest := hallowed.2
    cases ha : step s a with
    | error e =>
      rw [ha] at hstep
      exact hstep
    | ok r =>
      rw [ha] at hstep hrest
      exact ih hstep hrest

/-- **A condition that makes every step keep an invariant, and whose failure makes a step lose the
property, is exact.** -/
theorem always_iff_allowed_of_invariant {step : σ → α → Except ε (σ × ω)} {I P : σ → Prop}
    {E : Prop} {G : σ → α → Prop} (hI : ∀ s, I s → P s)
    (hG : ∀ s a, I s → G s a → After I E (step s a))
    (hnot : ∀ s a, I s → ¬ G s a → ¬ After P E (step s a)) {s : σ} (hs : I s) (as : List α) :
    Always step P E s as ↔ Allowed step G s as := by
  refine ⟨fun halways => ?_, always_of_allowed hI hG hs⟩
  induction as generalizing s with
  | nil => trivial
  | cons a as ih =>
    have hrest := halways.2
    have hallowed : G s a := by
      refine Classical.byContradiction fun hna => hnot s a hs hna ?_
      cases ha : step s a with
      | error e => rwa [ha] at hrest
      | ok r =>
        rw [ha] at hrest
        exact hrest.head
    have hstep := hG s a hs hallowed
    refine ⟨hallowed, ?_⟩
    cases ha : step s a with
    | error e => trivial
    | ok r =>
      rw [ha] at hstep hrest
      exact ih hstep hrest

end Machine

/-! ## Machines of several parties -/

section Parties

/-- The label belongs to a party that cannot take it now. -/
inductive Disabled where
  | disabled
  deriving DecidableEq

/-- The machine of a partial step function: a label that is not enabled ends the run. -/
def machine (next : σ → α → Option σ) (s : σ) (a : α) : Except Disabled (σ × Unit) :=
  match next s a with
  | some s' => .ok (s', ())
  | none => .error .disabled

variable {next : σ → α → Option σ} {s s' : σ} {a : α} {as : List α}

theorem machine_eq_ok {u : Unit} (h : machine next s a = .ok (s', u)) : next s a = some s' := by
  unfold machine at h
  split at h
  · cases h
    assumption
  · cases h

/-- **What every enabled step keeps holds at the end of a run.** -/
theorem machine_invariant {I : σ → Prop} (hI : ∀ s a s', I s → next s a = some s' → I s')
    {us : List Unit} (hs : I s) (hrun : run (machine next) s as = .ok (s', us)) : I s' :=
  run_invariant (fun s a s' _ hs hstep => hI s a s' hs (machine_eq_ok hstep)) hs hrun

/-- **A condition under which the enabled steps keep an invariant.** -/
theorem always_machine {I P : σ → Prop} {G : σ → α → Prop} (hP : ∀ s, I s → P s)
    (hI : ∀ s a s', I s → G s a → next s a = some s' → I s') (hs : I s)
    (hallowed : Allowed (machine next) G s as) : Always (machine next) P True s as := by
  refine always_of_allowed hP (fun s a hs ha => ?_) hs hallowed
  unfold machine
  cases hnext : next s a with
  | none => trivial
  | some s' => exact hI s a s' hs ha hnext

/-- **A run that ends without a lasting damage has taken only steps that do not cause it.** -/
theorem allowed_of_run {B : σ → Prop} {G : σ → α → Prop}
    (hB : ∀ s a s', next s a = some s' → B s ∨ ¬ G s a → B s') {us : List Unit}
    (hrun : run (machine next) s as = .ok (s', us)) (hs' : ¬ B s') :
    Allowed (machine next) G s as ∧ ¬ B s := by
  induction as generalizing s us with
  | nil =>
    cases hrun
    exact ⟨trivial, hs'⟩
  | cons a as ih =>
    unfold run at hrun
    split at hrun
    · cases hrun
    · rename_i s₁ u ha
      split at hrun
      · cases hrun
      · rename_i s₂ us₂ htail
        cases hrun
        obtain ⟨hrest, hs₁⟩ := ih htail
        have hstep := hB s a s₁ (machine_eq_ok ha)
        refine ⟨⟨Classical.byContradiction fun hG => hs₁ (hstep (.inr hG)), ?_⟩,
          fun hs => hs₁ (hstep (.inl hs))⟩
        rw [ha]
        exact hrest

/-- Every label of the run is answered, and as `Q` says. -/
def Serves (next : σ → α → Option σ) (Q : σ → α → σ → Prop) (s : σ) : List α → Prop
  | [] => True
  | a :: as => ∃ s', next s a = some s' ∧ Q s a s' ∧ Serves next Q s' as

/-- **If `G` decides, for the labels that `C` admits, whether one is served, then the runs of such
labels that are served are the runs `G` allows.** -/
theorem serves_iff_allowed {I : σ → Prop} {C G : σ → α → Prop} {Q : σ → α → σ → Prop}
    (hI : ∀ s a s', I s → C s a → G s a → next s a = some s' → I s')
    (hG : ∀ s a, I s → C s a → ((∃ s', next s a = some s' ∧ Q s a s') ↔ G s a)) (hs : I s)
    (hC : Allowed (machine next) C s as) :
    Serves next Q s as ↔ Allowed (machine next) G s as := by
  induction as generalizing s with
  | nil => exact Iff.rfl
  | cons a as ih =>
    obtain ⟨hCa, hrest⟩ := hC
    have hstep := hG s a hs hCa
    unfold Serves Allowed
    unfold machine at hrest ⊢
    cases hnext : next s a with
    | none =>
      rw [← hstep, hnext]
      simp
    | some t =>
      rw [hnext] at hrest
      constructor
      · rintro ⟨t', heq, hQ, hserves⟩
        cases heq
        have hGa := hstep.mp ⟨t, hnext, hQ⟩
        exact ⟨hGa, (ih (hI s a t hs hCa hGa hnext) hrest).mp hserves⟩
      · rintro ⟨hGa, hallowed⟩
        obtain ⟨t', heq, hQ⟩ := hstep.mpr hGa
        cases hnext.symm.trans heq
        exact ⟨t, rfl, hQ, (ih (hI s a t hs hCa hGa hnext) hrest).mpr hallowed⟩

end Parties

end Transition
