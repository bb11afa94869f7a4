import Mathlib.Logic.Basic

/-!
# Machines that are fed

A machine takes steps, with outputs, until it is blocked; then its state may grow: more input
arrives.

* `Leads step c os c'` — some steps lead from `c` to `c'`, with the outputs `os`.
* `Exhausts step c os c'` — they lead there, and no further.
* `Feeds step G c xs os c'` — the state grows by each of `xs`, and is exhausted each time.

* `Trails step c os c'` — what comes from `c'` comes from `c`, with `os` in front.

Principal results: `Exhausts.unique` and `Feeds.whole`: if growing does not change the steps that
are possible, it does not matter how the input is cut.
-/

set_option autoImplicit false

namespace Feeding

variable {γ ω α : Type*} {step : γ → Option (γ × List ω)} {c c₁ c' c'' : γ} {o os os' : List ω}

/-- Steps and their outputs. -/
inductive Leads (step : γ → Option (γ × List ω)) : γ → List ω → γ → Prop where
  | nil (c : γ) : Leads step c [] c
  | cons {c c₁ c' : γ} {o os : List ω} : step c = some (c₁, o) → Leads step c₁ os c' →
      Leads step c (o ++ os) c'

/-- Steps as far as they go. -/
inductive Exhausts (step : γ → Option (γ × List ω)) : γ → List ω → γ → Prop where
  | blocked {c : γ} : step c = none → Exhausts step c [] c
  | cons {c c₁ c' : γ} {o os : List ω} : step c = some (c₁, o) → Exhausts step c₁ os c' →
      Exhausts step c (o ++ os) c'

theorem Leads.single (h : step c = some (c', o)) : Leads step c o c' := by
  have := Leads.cons h (.nil c')
  rwa [List.append_nil] at this

theorem Leads.trans (h : Leads step c os c₁) (h' : Leads step c₁ os' c') :
    Leads step c (os ++ os') c' := by
  induction h with
  | nil c => exact h'
  | cons hstep _ ih =>
    rw [List.append_assoc]
    exact .cons hstep (ih h')

theorem Leads.exhausts (h : Leads step c os c₁) (h' : Exhausts step c₁ os' c') :
    Exhausts step c (os ++ os') c' := by
  induction h with
  | nil c => exact h'
  | cons hstep _ ih =>
    rw [List.append_assoc]
    exact .cons hstep (ih h')

theorem Exhausts.leads (h : Exhausts step c os c') : Leads step c os c' ∧ step c' = none := by
  induction h with
  | blocked hblocked => exact ⟨.nil _, hblocked⟩
  | cons hstep _ ih => exact ⟨.cons hstep ih.1, ih.2⟩

theorem Exhausts.unique (h : Exhausts step c os c') (h' : Exhausts step c os' c'') :
    os = os' ∧ c' = c'' := by
  induction h generalizing os' with
  | blocked hblocked =>
    cases h' with
    | blocked _ => exact ⟨rfl, rfl⟩
    | cons hstep' _ =>
      rw [hblocked] at hstep'
      cases hstep'
  | cons hstep _ ih =>
    cases h' with
    | blocked hblocked' =>
      rw [hblocked'] at hstep
      cases hstep
    | cons hstep' hrest' =>
      rw [hstep] at hstep'
      cases hstep'
      obtain ⟨hos, hc⟩ := ih hrest'
      exact ⟨congrArg _ hos, hc⟩

/-- What comes from `c'` comes from `c` as well, with `os` in front. -/
def Trails (step : γ → Option (γ × List ω)) (c : γ) (os : List ω) (c' : γ) : Prop :=
  ∀ ⦃os' c''⦄, Exhausts step c' os' c'' → Exhausts step c (os ++ os') c''

theorem Leads.trails (h : Leads step c os c') : Trails step c os c' :=
  fun _ _ hrest => h.exhausts hrest

theorem Trails.trans (h : Trails step c os c₁) (h' : Trails step c₁ os' c') :
    Trails step c (os ++ os') c' := by
  intro os'' c'' hrest
  rw [List.append_assoc]
  exact h (h' hrest)

/-- A step without output can be taken back. -/
theorem Trails.back (h : step c' = some (c, [])) : Trails step c [] c' := by
  intro os' c'' hrest
  cases hrest with
  | blocked hblocked =>
    rw [h] at hblocked
    cases hblocked
  | cons hstep hrest =>
    rw [h] at hstep
    cases hstep
    exact hrest

/-- What comes from a state comes from every state on the way. -/
theorem Leads.rest (h : Leads step c os c₁) (h' : Exhausts step c os' c') :
    ∃ os'', os' = os ++ os'' ∧ Exhausts step c₁ os'' c' := by
  induction h generalizing os' with
  | nil c => exact ⟨os', rfl, h'⟩
  | cons hstep _ ih =>
    cases h' with
    | blocked hblocked =>
      rw [hblocked] at hstep
      cases hstep
    | cons hstep' hrest =>
      rw [hstep] at hstep'
      cases hstep'
      obtain ⟨os'', rfl, hrest'⟩ := ih hrest
      exact ⟨os'', (List.append_assoc _ _ _).symm, hrest'⟩

theorem Leads.invariant {I : γ → Prop} (hI : ∀ c c₁ o, I c → step c = some (c₁, o) → I c₁)
    (hc : I c) (h : Leads step c os c') : I c' := by
  induction h with
  | nil c => exact hc
  | cons hstep _ ih => exact ih (hI _ _ _ hc hstep)

/-! ## Growing -/

/-- A step that is possible stays so, with the same output, when the state grows. -/
def Stable (step : γ → Option (γ × List ω)) (I : γ → Prop) (g : γ → γ) : Prop :=
  ∀ c c₁ o, I c → step c = some (c₁, o) → step (g c) = some (g c₁, o)

theorem Leads.grow {I : γ → Prop} {g : γ → γ}
    (hI : ∀ c c₁ o, I c → step c = some (c₁, o) → I c₁) (hg : Stable step I g) (hc : I c)
    (h : Leads step c os c') : Leads step (g c) os (g c') := by
  induction h with
  | nil c => exact .nil _
  | cons hstep _ ih => exact .cons (hg _ _ _ hc hstep) (ih (hI _ _ _ hc hstep))

/-- **A machine that is exhausted, grows and is exhausted again does what it does when it has
grown before.** -/
theorem Exhausts.grow {I : γ → Prop} {g : γ → γ}
    (hI : ∀ c c₁ o, I c → step c = some (c₁, o) → I c₁) (hg : Stable step I g) (hc : I c)
    (h : Exhausts step c os c') (h' : Exhausts step (g c') os' c'') :
    Exhausts step (g c) (os ++ os') c'' :=
  (h.leads.1.grow hI hg hc).exhausts h'

/-- The state grows by one piece after the other. -/
inductive Feeds (step : γ → Option (γ × List ω)) (G : List α → γ → γ) :
    γ → List (List α) → List ω → γ → Prop where
  | nil (c : γ) : Feeds step G c [] [] c
  | cons {c c₁ c' : γ} {x : List α} {xs : List (List α)} {os os' : List ω} :
      Exhausts step (G x c) os c₁ → Feeds step G c₁ xs os' c' →
      Feeds step G c (x :: xs) (os ++ os') c'

/-- **It does not matter how the input is cut.** -/
theorem Feeds.whole {I : γ → Prop} {G : List α → γ → γ} (hnil : ∀ c, G [] c = c)
    (happend : ∀ x y c, G (x ++ y) c = G y (G x c)) (hIG : ∀ x c, I c → I (G x c))
    (hI : ∀ c c₁ o, I c → step c = some (c₁, o) → I c₁) (hG : ∀ x, Stable step I (G x))
    {xs : List (List α)} (hc : I c) (hblocked : step c = none)
    (h : Feeds step G c xs os c') : Exhausts step (G xs.flatten c) os c' := by
  induction h with
  | nil c =>
    rw [List.flatten_nil, hnil]
    exact .blocked hblocked
  | cons hpiece _ ih =>
    obtain ⟨hleads, hstop⟩ := hpiece.leads
    have hnext := hleads.invariant hI (hIG _ _ hc)
    rw [List.flatten_cons, happend]
    exact hpiece.grow hI (hG _) (hIG _ _ hc) (ih hnext hstop)

end Feeding
