import Blinkit.Lib.DocumentOrder
import Blinkit.Lib.Transition

/-!
# Computations that ask

A computation that puts questions to something with a state of its own, such as a cache, and goes on
with the answers.

* `Asking Q R α` — a computation is done, it has run out of rounds, or it asks a question.
* `eval`, `asked` — the result and the questions when a function gives the answers.
* `run` — the computation against a step function, which fails where it returns `none`.
* `Ends answer P S x` — `x` ends, every question it asks has `P`, and what it returns and the
  questions have `S`.
* `forEach`, `tryEach` — loops along a step function that may return before the end.

Principal results: `Ends.forEach` and `Ends.tryEach`, the rules of the loops, and `run_iff_allowed`:
a run returns what `eval` returns exactly when each question is allowed in the state that it meets.
-/

set_option autoImplicit false

/-- A computation that asks questions from `Q` and is given answers in `R`. -/
inductive Asking (Q R : Type*) (α : Type*) where
  | done (a : α)
  | outOfRounds
  | ask (q : Q) (k : R → Asking Q R α)

namespace Asking

open LinkedForest Transition

variable {Q R σ ι α β μ : Type*}

protected def bind : Asking Q R α → (α → Asking Q R β) → Asking Q R β
  | done a, f => f a
  | outOfRounds, _ => outOfRounds
  | ask q k, f => ask q fun r => (k r).bind f

/-- A computation that asks nothing. -/
def ofOption : Option α → Asking Q R α
  | some a => done a
  | none => outOfRounds

/-- The question, and its answer. -/
def question (q : Q) (f : R → α) : Asking Q R α := ask q fun r => done (f r)

/-! ## What a computation means -/

/-- The result, when `answer` answers. -/
def eval (answer : Q → R) : Asking Q R α → Option α
  | done a => some a
  | outOfRounds => none
  | ask q k => (k (answer q)).eval answer

/-- The questions in their order, when `answer` answers. -/
def asked (answer : Q → R) : Asking Q R α → List Q
  | done _ => []
  | outOfRounds => []
  | ask q k => q :: (k (answer q)).asked answer

/-- Every question is put to `step`, which may change its state, and may fail. -/
def run (step : σ → Q → Option (σ × R)) (s : σ) : Asking Q R α → Option (σ × α)
  | done a => some (s, a)
  | outOfRounds => none
  | ask q k => (step s q).bind fun r => (k r.2).run step r.1

/-- The computation ends. -/
def Ends (answer : Q → R) (P : Q → Prop) (S : α → List Q → Prop) (x : Asking Q R α) : Prop :=
  ∃ a, x.eval answer = some a ∧ (∀ q ∈ x.asked answer, P q) ∧ S a (x.asked answer)

section Rules

variable {answer : Q → R} {P : Q → Prop} {S T : α → List Q → Prop} {x : Asking Q R α}

theorem Ends.mono (hx : x.Ends answer P S) (h : ∀ a qs, S a qs → T a qs) : x.Ends answer P T := by
  obtain ⟨a, heval, hP, hS⟩ := hx
  exact ⟨a, heval, hP, h a _ hS⟩

/-- The result is what `eval` says, and the questions are those of `asked`. -/
theorem Ends.eq (hx : x.Ends answer P S) :
    x.Ends answer P fun a qs => S a qs ∧ x.eval answer = some a ∧ qs = x.asked answer := by
  obtain ⟨a, heval, hP, hS⟩ := hx
  exact ⟨a, heval, hP, hS, heval, rfl⟩

theorem Ends.done {a : α} (h : S a []) : (Asking.done a : Asking Q R α).Ends answer P S :=
  ⟨a, rfl, fun _ hq => (List.not_mem_nil hq).elim, h⟩

theorem Ends.ofOption {o : Option α} {a : α} (ho : o = some a) (h : S a []) :
    (Asking.ofOption o : Asking Q R α).Ends answer P S := by
  rw [ho]
  exact .done h

theorem Ends.question {q : Q} {f : R → α} (hq : P q) (h : S (f (answer q)) [q]) :
    (Asking.question q f).Ends answer P S :=
  ⟨f (answer q), rfl, fun _ hmem => List.mem_singleton.mp hmem ▸ hq, h⟩

theorem eval_bind (x : Asking Q R α) (f : α → Asking Q R β) :
    (x.bind f).eval answer = (x.eval answer).bind fun a => (f a).eval answer := by
  induction x with
  | done a => rfl
  | outOfRounds => rfl
  | ask q k ih => exact ih _

theorem asked_bind {x : Asking Q R α} {a : α} (hx : x.eval answer = some a)
    (f : α → Asking Q R β) :
    (x.bind f).asked answer = x.asked answer ++ (f a).asked answer := by
  induction x with
  | done b =>
    cases hx
    rfl
  | outOfRounds => cases hx
  | ask q k ih => exact congrArg (q :: ·) (ih _ hx)

/-- **One computation behind the other.** -/
theorem Ends.bind {f : α → Asking Q R β} {T : β → List Q → Prop} (hx : x.Ends answer P S)
    (hf : ∀ a qs, S a qs → (f a).Ends answer P fun b qs' => T b (qs ++ qs')) :
    (x.bind f).Ends answer P T := by
  obtain ⟨a, heval, hP, hS⟩ := hx
  obtain ⟨b, heval', hP', hT⟩ := hf a _ hS
  refine ⟨b, ?_, ?_, ?_⟩
  · rw [eval_bind, heval, Option.bind_some, heval']
  · rw [asked_bind heval]
    intro q hq
    exact (List.mem_append.mp hq).elim (hP q) (hP' q)
  · rw [asked_bind heval]
    exact hT

end Rules

/-! ## Loops -/

/-- The loop `for (; e; e = next(e))`, whose body changes the accumulator and says whether the
function returns. -/
def forEach (next : ι → Option (Option ι)) (body : β → ι → Asking Q R (Bool × β)) :
    Nat → Option ι → β → Asking Q R β
  | _, none, b => .done b
  | 0, some _, _ => .outOfRounds
  | rounds + 1, some e, b =>
    (body b e).bind fun r =>
      if r.1 then .done r.2
      else match next e with
        | none => .outOfRounds
        | some o => forEach next body rounds o r.2

/-- The loop that returns the first result that `stop` accepts; any other result is carried on to
the next round by `again`. -/
def tryEach (next : ι → Option (Option ι)) (stop : μ → Bool) (again : μ → μ)
    (check : μ → ι → Asking Q R μ) (rounds : Nat) (first : Option ι) (m : μ) : Asking Q R μ :=
  forEach next (fun m e => (check m e).bind fun m =>
    .done (if stop m then (true, m) else (false, again m))) rounds first m

section Loops

variable {answer : Q → R} {P : Q → Prop} {next : ι → Option (Option ι)}

/-- **The rule of the loop.** The invariant speaks about the list that the loop has still in front
of it, the accumulator and the questions that have been asked. -/
theorem Ends.forEach {body : β → ι → Asking Q R (Bool × β)} {S : β → List Q → Prop}
    {I : List ι → β → List Q → Prop}
    (hstep : ∀ e rest b qs, I (e :: rest) b qs → (body b e).Ends answer P fun r qs' =>
      if r.1 then S r.2 (qs ++ qs')
      else ∃ rest', rest'.length ≤ rest.length ∧ next e = some rest'.head? ∧
        I rest' r.2 (qs ++ qs'))
    (hend : ∀ b qs, I [] b qs → S b qs) {rest : List ι} {b : β} {l : List Q} (hI : I rest b l)
    {rounds : Nat} (hrounds : rest.length ≤ rounds) :
    (Asking.forEach next body rounds rest.head? b).Ends answer P fun b qs => S b (l ++ qs) := by
  induction rounds generalizing rest b l with
  | zero =>
    obtain rfl := List.length_eq_zero_iff.mp (Nat.le_zero.mp hrounds)
    refine .done ?_
    rw [List.append_nil]
    exact hend b l hI
  | succ rounds ih =>
    cases rest with
    | nil =>
      refine .done ?_
      rw [List.append_nil]
      exact hend b l hI
    | cons e rest =>
      refine Ends.bind (hstep e rest b l hI) fun r qs hr => ?_
      split
      · rename_i hreturn
        rw [if_pos hreturn] at hr
        refine .done ?_
        rwa [List.append_nil]
      · rename_i hon
        rw [if_neg hon] at hr
        obtain ⟨rest', hlen, hnext, hI'⟩ := hr
        rw [hnext]
        refine (ih hI' (hlen.trans (Nat.le_of_succ_le_succ hrounds))).mono fun b qs' h => ?_
        rwa [← List.append_assoc]

/-- What a search over `r` ends with: a result that `stop` accepts, or one that was carried on. `S`
is what is known of the result at each member. -/
def Searched (stop : μ → Bool) (S : ι → μ → Prop) (N : μ → Prop) (r : List ι) (m : μ) : Prop :=
  (∃ pre e post, r = pre ++ e :: post ∧ (stop m = true ∧ S e m) ∧
    ∀ x ∈ pre, ∃ m', stop m' = false ∧ S x m') ∨
  (N m ∧ ∀ x ∈ r, ∃ m', stop m' = false ∧ S x m')

/-- A result that was not carried on is one of a member. -/
theorem Searched.found {stop : μ → Bool} {S : ι → μ → Prop} {N : μ → Prop} {r : List ι} {m : μ}
    (hm : Searched stop S N r m) (hN : ¬ N m) : ∃ e ∈ r, S e m := by
  rcases hm with ⟨pre, e, post, rfl, ⟨-, hS⟩, -⟩ | ⟨hend, -⟩
  · exact ⟨e, by simp, hS⟩
  · exact absurd hend hN

/-- **The rule of the search.** -/
theorem Ends.tryEach {stop : μ → Bool} {again : μ → μ} {check : μ → ι → Asking Q R μ}
    {S : ι → μ → Prop} {N : μ → Prop} {l r : List ι} {m : μ} (hnext : StepsThrough next (l ++ r))
    (hcheck : ∀ e ∈ r, ∀ m, N m → (check m e).Ends answer P fun m _ => S e m) (hm : N m)
    (hagain : ∀ e m, S e m → N (again m)) {rounds : Nat} (hrounds : r.length ≤ rounds) :
    (Asking.tryEach next stop again check rounds r.head? m).Ends answer P fun m _ =>
      Searched stop S N r m := by
  refine Ends.forEach (l := []) (S := fun m _ => Searched stop S N r m)
    (I := fun rest b _ => N b ∧ ∃ pre, r = pre ++ rest ∧ ∀ x ∈ pre, ∃ m', stop m' = false ∧ S x m')
    ?_ ?_ ⟨hm, [], rfl, List.forall_mem_nil _⟩ hrounds
  · rintro e rest b - ⟨hb, pre, rfl, hpre⟩
    refine Ends.bind (hcheck e (by simp) b hb) fun m _ hm => .done ?_
    by_cases hstop : stop m = true
    · rw [if_pos hstop]
      exact .inl ⟨pre, e, rest, rfl, ⟨hstop, hm⟩, hpre⟩
    · rw [if_neg hstop]
      refine ⟨rest, Nat.le_refl _, ?_, hagain e m hm, pre ++ [e], by simp, fun x hx => ?_⟩
      · rw [← List.append_assoc] at hnext
        exact hnext.step_eq
      · rcases List.mem_append.mp hx with hx | hx
        · exact hpre x hx
        · rw [List.mem_singleton.mp hx]
          exact ⟨m, Bool.eq_false_iff.mpr hstop, hm⟩
  · rintro b - ⟨hb, pre, hr, hpre⟩
    rw [List.append_nil] at hr
    exact .inr ⟨hb, hr ▸ hpre⟩

end Loops

/-! ## Runs -/

/-- **A run that is served.** Where `step` answers as `answer` does when the question is allowed,
and fails otherwise, a run returns what `eval` returns exactly when all its questions are allowed in
their turn. -/
theorem run_iff_allowed {answer : Q → R} {P : Q → Prop} {step : σ → Q → Option (σ × R)}
    {I : σ → Prop} {found : σ → Q → Prop}
    (hfound : ∀ s q, I s → P q → found s q → ∃ s', step s q = some (s', answer q) ∧ I s')
    (hmissing : ∀ s q, I s → P q → ¬ found s q → step s q = none) {x : Asking Q R α} {a : α}
    (hasked : ∀ q ∈ x.asked answer, P q) {s : σ} (hs : I s) :
    (x.run step s).map (·.2) = some a ↔ x.eval answer = some a ∧
      Allowed (machine fun s q => (step s q).map (·.1)) found s (x.asked answer) := by
  induction x generalizing s with
  | done b => exact (and_iff_left trivial).symm
  | outOfRounds =>
    have hnone : none ≠ some a := (Option.some_ne_none a).symm
    exact iff_of_false hnone fun h => hnone h.1
  | ask q k ih =>
    have hq := hasked q List.mem_cons_self
    have hrest : ∀ q' ∈ (k (answer q)).asked answer, P q' := fun q' h =>
      hasked q' (List.mem_cons_of_mem q h)
    unfold run eval asked Allowed
    by_cases hallowed : found s q
    · obtain ⟨s', hstep, hs'⟩ := hfound s q hs hq hallowed
      have hmachine : machine (fun s q => (step s q).map (·.1)) s q = .ok (s', ()) := by
        simp only [machine, hstep, Option.map_some]
      rw [hstep, hmachine, Option.bind_some, ih (answer q) hrest hs']
      exact and_congr_right fun _ => ⟨fun h => ⟨hallowed, h⟩, fun h => h.2⟩
    · rw [hmissing s q hs hq hallowed]
      have hnone : none ≠ some a := (Option.some_ne_none a).symm
      exact iff_of_false hnone fun h => hallowed h.2.1

end Asking
