import Mathlib.Data.List.Nodup
import Mathlib.Data.List.Perm.Basic
import Blinkit.Lib.Transition

/-!
# The task loop

Translation of `TaskLoop`: a queue and an exit code behind one mutex, threads that post tasks, the
thread of `Run`, and the destructor.

* `TaskLoop` — the loop, with the tasks that threads are about to push and a history: the tasks in
  the order they were posted, those that were started, those that were run and freed, those that
  were freed without being run.
* `Label` — what a thread does next. What stands under the lock is one step.
* `Lawful` — tasks start in the order they were posted, none twice and none after `Run` has seen
  the exit code; none is freed twice, and behind the destructor every posted task is freed.
* `HoldsNoTask` — `Run` looks at the exit code when it has no task in hand, or there is no exit
  code yet.

Principal results: `inv_next`, `task_loop_law` and `popped_task_lost`.
-/

set_option autoImplicit false

namespace Blinkit.Posix

open Transition

/-- A task is named by its number among the tasks created. -/
abbrev TaskId := Nat

namespace TaskLoop

/-- Where the thread of `Run` is. -/
inductive RunState where
  /-- `Run` has not been called. -/
  | outside
  /-- At the top of the loop. -/
  | locking
  /-- In `pthread_cond_wait`. -/
  | waiting
  /-- Behind the critical section, with what it popped. -/
  | unlocked (taskData : Option TaskId)
  /-- In the destructor of the task data, which calls the task. -/
  | running (task : TaskId)
  | returned (code : Int)
  deriving DecidableEq

end TaskLoop

structure TaskLoop where
  taskQueue : List TaskId
  exitCode : Option Int
  run : TaskLoop.RunState
  /-- Created by a posting thread that does not have the lock yet. -/
  posting : List TaskId
  created : Nat
  destroyed : Bool
  posted : List TaskId
  started : List TaskId
  /-- Run and freed. -/
  ran : List TaskId
  /-- Freed without being run. -/
  discarded : List TaskId
  /-- Popped by `Run`, which then returned. -/
  lost : List TaskId
  /-- What had been started when `Run` first saw the exit code. -/
  startedAtExit : Option (List TaskId)
  deriving DecidableEq

namespace TaskLoop

/-- The constructor. -/
def create : TaskLoop where
  taskQueue := []
  exitCode := none
  run := .outside
  posting := []
  created := 0
  destroyed := false
  posted := []
  started := []
  ran := []
  discarded := []
  lost := []
  startedAtExit := none

inductive Label where
  /-- The task poster makes the task data. -/
  | postTask
  /-- The task poster pushes it. -/
  | push (task : TaskId)
  | exit (code : Int)
  /-- `Run` is called. -/
  | enter
  /-- The critical section of `Run`, up to the wait or to the unlock. -/
  | lock
  /-- `pthread_cond_wait` returns, on a signal or spuriously; the critical section goes on. -/
  | wake
  /-- What stands behind the unlock, up to the call of the task. -/
  | check
  /-- The task returns and its data is freed. -/
  | taskDone
  /-- The destructor. -/
  | destroy
  deriving DecidableEq

/-- `Run` has seen the exit code. -/
def observeExit (s : TaskLoop) : TaskLoop :=
  { s with startedAtExit := some (s.startedAtExit.getD s.started) }

/-- The critical section of `Run`. The exit code is read only when the queue is empty. -/
def popTask (s : TaskLoop) : TaskLoop :=
  match s.taskQueue with
  | task :: taskQueue => { s with taskQueue, run := .unlocked (some task) }
  | [] =>
    if s.exitCode = none then { s with run := .waiting }
    else { s.observeExit with run := .unlocked none }

/-- The end of a round of `Run`. Deleting no task data does nothing. -/
def checkExit (s : TaskLoop) (taskData : Option TaskId) : TaskLoop :=
  match s.exitCode, taskData with
  | some code, _ =>
    { s.observeExit with run := .returned code, lost := s.lost ++ taskData.toList }
  | none, some task => { s with run := .running task, started := s.started ++ [task] }
  | none, none => { s with run := .locking }

/-- One step, where the thread that makes it can. The owner destroys the loop when `Run` has
returned and no thread is posting; then nobody uses it any more. -/
def next (s : TaskLoop) : Label → Option TaskLoop
  | .postTask =>
    if s.destroyed then none
    else some { s with posting := s.posting ++ [s.created], created := s.created + 1 }
  | .push task =>
    if task ∈ s.posting then
      some { s with
        posting := s.posting.erase task
        taskQueue := s.taskQueue ++ [task]
        posted := s.posted ++ [task] }
    else none
  | .exit code => if s.destroyed then none else some { s with exitCode := some code }
  | .enter => if s.run = .outside then some { s with run := .locking } else none
  | .lock => if s.run = .locking then some s.popTask else none
  | .wake => if s.run = .waiting then some s.popTask else none
  | .check =>
    match s.run with
    | .unlocked taskData => some (s.checkExit taskData)
    | _ => none
  | .taskDone =>
    match s.run with
    | .running task => some { s with run := .locking, ran := s.ran ++ [task] }
    | _ => none
  | .destroy =>
    match s.run with
    | .returned _ =>
      if s.posting = [] ∧ s.destroyed = false then
        some { s with
          taskQueue := []
          discarded := s.discarded ++ s.taskQueue
          destroyed := true }
      else none
    | _ => none

/-! ## The law -/

/-- **What the loop owes its tasks.** -/
structure Lawful (s : TaskLoop) : Prop where
  order : s.started <+: s.posted
  once : s.posted.Nodup
  afterExit : ∀ ts, s.startedAtExit = some ts → s.started = ts
  freedOnce : (s.ran ++ s.discarded).Nodup
  /-- A task that is run has been started, a task that is discarded has not. -/
  freedStarted : ∀ t, (t ∈ s.ran → t ∈ s.started) ∧ (t ∈ s.discarded → t ∉ s.started)
  accounted : s.destroyed = true → (s.ran ++ s.discarded).Perm s.posted

/-- The look at the exit code finds no task in hand, or no exit code. -/
def HoldsNoTask (s : TaskLoop) : Label → Prop
  | .check => ∀ t, s.run = .unlocked (some t) → s.exitCode = none
  | _ => True

/-! ## One invariant for all threads -/

/-- The task whose data is being deleted. -/
def RunState.running? : RunState → List TaskId
  | running t => [t]
  | _ => []

/-- The task that is popped and not started. -/
def RunState.held : RunState → List TaskId
  | unlocked taskData => taskData.toList
  | _ => []

/-- **Where the posted tasks are.** -/
structure Inv (s : TaskLoop) : Prop where
  posted : s.posted = s.ran ++ s.run.running? ++ s.run.held ++ s.lost ++ s.taskQueue ++ s.discarded
  started : s.started = s.ran ++ s.run.running?
  nodup : (s.posted ++ s.posting).Nodup
  fresh : ∀ t ∈ s.posted ++ s.posting, t < s.created
  lost : s.lost ≠ [] → ∃ code, s.run = .returned code
  discarded : s.destroyed = false → s.discarded = []
  destroyed : s.destroyed = true →
    s.taskQueue = [] ∧ s.posting = [] ∧ ∃ code, s.run = .returned code
  observed : ∀ ts, s.startedAtExit = some ts → s.exitCode ≠ none ∧ s.started = ts ∧
    s.run.running? = []
  /-- Who has popped nothing has seen the exit code. -/
  empty : s.run = .unlocked none → s.exitCode ≠ none

theorem inv_create : Inv create where
  posted := rfl
  started := rfl
  nodup := List.nodup_nil
  fresh := by simp [create]
  lost := by simp [create]
  discarded := fun _ => rfl
  destroyed := by simp [create]
  observed := by simp [create]
  empty := by simp [create]

section Steps

variable {s s' : TaskLoop} {a : Label}

/-- As long as `Run` has not returned, nothing is lost and the loop is there. -/
theorem Inv.inside (i : Inv s) (hrun : ∀ code, s.run ≠ .returned code) :
    s.lost = [] ∧ s.destroyed = false ∧ s.discarded = [] := by
  have hlost : s.lost = [] := by
    cases hl : s.lost with
    | nil => rfl
    | cons t ts =>
      obtain ⟨code, hcode⟩ := i.lost (by rw [hl]; exact List.cons_ne_nil t ts)
      exact absurd hcode (hrun code)
  have hdes : s.destroyed = false := by
    cases hd : s.destroyed with
    | false => rfl
    | true =>
      obtain ⟨-, -, code, hcode⟩ := i.destroyed hd
      exact absurd hcode (hrun code)
  exact ⟨hlost, hdes, i.discarded hdes⟩

theorem Inv.popTask (i : Inv s) (hrun : s.run = .locking ∨ s.run = .waiting) :
    Inv s.popTask := by
  have hnone : s.run.running? = [] ∧ s.run.held = [] := by
    rcases hrun with hr | hr <;> rw [hr] <;> exact ⟨rfl, rfl⟩
  have hne : ∀ code, s.run ≠ .returned code := by
    intro code hc
    rcases hrun with hr | hr <;> rw [hr] at hc <;> cases hc
  obtain ⟨hlost, hdes, hdis⟩ := i.inside hne
  have hposted := i.posted
  have hstarted := i.started
  rw [hnone.1, hnone.2, hlost, hdis] at hposted
  rw [hnone.1] at hstarted
  unfold TaskLoop.popTask
  split
  · rename_i task taskQueue hqueue
    rw [hqueue] at hposted
    refine ⟨?_, hstarted, i.nodup, i.fresh, fun hl => absurd hlost hl, fun _ => hdis,
      fun hd => ?_, fun ts hts => ?_, nofun⟩
    · simpa [RunState.running?, RunState.held, hlost, hdis] using hposted
    · exact absurd (hdes.symm.trans hd) Bool.false_ne_true
    · obtain ⟨hexit, heq, -⟩ := i.observed ts hts
      exact ⟨hexit, heq, rfl⟩
  · rename_i hqueue
    rw [hqueue] at hposted
    have hsplit : s.posted = s.ran ++ [] ++ [] ++ s.lost ++ s.taskQueue ++ s.discarded := by
      rw [hqueue, hlost, hdis]
      simpa using hposted
    split
    · refine ⟨hsplit, hstarted, i.nodup, i.fresh, fun hl => absurd hlost hl, fun _ => hdis,
        fun hd => ?_, fun ts hts => ?_, nofun⟩
      · exact absurd (hdes.symm.trans hd) Bool.false_ne_true
      · obtain ⟨hexit, heq, -⟩ := i.observed ts hts
        exact ⟨hexit, heq, rfl⟩
    · rename_i hexit
      refine ⟨hsplit, hstarted, i.nodup, i.fresh, fun hl => absurd hlost hl, fun _ => hdis,
        fun hd => ?_, fun ts hts => ?_, fun _ => hexit⟩
      · exact absurd (hdes.symm.trans hd) Bool.false_ne_true
      · refine ⟨hexit, ?_, rfl⟩
        obtain rfl := Option.some.inj hts
        show s.started = s.startedAtExit.getD s.started
        cases hobs : s.startedAtExit with
        | none => rfl
        | some ts => exact (i.observed ts hobs).2.1

theorem Inv.checkExit (i : Inv s) {taskData : Option TaskId} (hrun : s.run = .unlocked taskData) :
    Inv (s.checkExit taskData) := by
  have hne : ∀ code, s.run ≠ .returned code := fun code hc => by rw [hrun] at hc; cases hc
  obtain ⟨hlost, hdes, hdis⟩ := i.inside hne
  have hposted := i.posted
  have hstarted := i.started
  rw [hrun, hlost, hdis] at hposted
  rw [hrun] at hstarted
  unfold TaskLoop.checkExit
  split
  · rename_i code hexit
    refine ⟨?_, hstarted, i.nodup, i.fresh, fun _ => ⟨code, rfl⟩, fun _ => hdis, fun hd => ?_,
      fun ts hts => ?_, nofun⟩
    · simpa [RunState.running?, RunState.held, observeExit, hlost, hdis] using hposted
    · exact absurd (hdes.symm.trans hd) Bool.false_ne_true
    · refine ⟨fun hn => ?_, ?_, rfl⟩
      · rw [show s.exitCode = none from hn] at hexit
        cases hexit
      · obtain rfl := Option.some.inj hts
        show s.started = s.startedAtExit.getD s.started
        cases hobs : s.startedAtExit with
        | none => rfl
        | some ts => exact (i.observed ts hobs).2.1
  · rename_i task hexit
    refine ⟨?_, ?_, i.nodup, i.fresh, fun hl => absurd hlost hl, fun _ => hdis, fun hd => ?_,
      fun ts hts => ?_, nofun⟩
    · simpa [RunState.running?, RunState.held, hlost, hdis] using hposted
    · rw [hstarted]
      simp [RunState.running?]
    · exact absurd (hdes.symm.trans hd) Bool.false_ne_true
    · exact absurd hexit (i.observed ts hts).1
  · rename_i hexit
    exact absurd hexit (i.empty hrun)

/-- **Every step keeps the invariant.** -/
theorem inv_next (i : Inv s) (h : s.next a = some s') : Inv s' := by
  cases a with
  | postTask =>
    simp only [next] at h
    split at h
    · cases h
    · rename_i hdes
      obtain rfl := Option.some.inj h
      have hnew : s.created ∉ s.posted ++ s.posting := fun hm =>
        Nat.lt_irrefl _ (i.fresh _ hm)
      refine ⟨i.posted, i.started, ?_, fun t ht => ?_, i.lost, i.discarded,
        fun hd => absurd hd hdes, i.observed, i.empty⟩
      · show (s.posted ++ (s.posting ++ [s.created])).Nodup
        rw [← List.append_assoc]
        exact i.nodup.append (List.nodup_singleton _) (List.disjoint_singleton.mpr hnew)
      · have ht : t ∈ s.posted ++ (s.posting ++ [s.created]) := ht
        rw [← List.append_assoc, List.mem_append, List.mem_singleton] at ht
        rcases ht with ht | rfl
        · exact Nat.lt_succ_of_lt (i.fresh t ht)
        · exact Nat.lt_succ_self _
  | push task =>
    simp only [next] at h
    split at h
    · rename_i hmem
      obtain rfl := Option.some.inj h
      have hdes : s.destroyed = false := by
        cases hd : s.destroyed with
        | false => rfl
        | true =>
          rw [(i.destroyed hd).2.1] at hmem
          cases hmem
      have hdis := i.discarded hdes
      have hperm : (s.posted ++ [task] ++ s.posting.erase task).Perm (s.posted ++ s.posting) := by
        rw [List.append_assoc]
        exact (List.perm_cons_erase hmem).symm.append_left s.posted
      refine ⟨?_, i.started, hperm.nodup_iff.mpr i.nodup,
        fun t ht => i.fresh t (hperm.mem_iff.mp ht), i.lost, i.discarded, fun hd => ?_, i.observed,
        i.empty⟩
      · show s.posted ++ [task] = _
        rw [i.posted, hdis]
        simp
      · exact absurd (hdes.symm.trans hd) Bool.false_ne_true
    · cases h
  | exit code =>
    simp only [next] at h
    split at h
    · cases h
    · obtain rfl := Option.some.inj h
      exact ⟨i.posted, i.started, i.nodup, i.fresh, i.lost, i.discarded, i.destroyed,
        fun ts hts => ⟨Option.some_ne_none code, (i.observed ts hts).2⟩,
        fun _ => Option.some_ne_none code⟩
  | enter =>
    simp only [next] at h
    split at h
    · rename_i hrun
      obtain rfl := Option.some.inj h
      have hne : ∀ code, s.run ≠ .returned code := fun code hc => by rw [hrun] at hc; cases hc
      obtain ⟨hlost, hdes, hdis⟩ := i.inside hne
      have hposted := i.posted
      have hstarted := i.started
      rw [hrun] at hposted hstarted
      refine ⟨hposted, hstarted, i.nodup, i.fresh, fun hl => absurd hlost hl, i.discarded,
        fun hd => ?_, fun ts hts => ?_, nofun⟩
      · exact absurd (hdes.symm.trans hd) Bool.false_ne_true
      · obtain ⟨hexit, heq, -⟩ := i.observed ts hts
        exact ⟨hexit, heq, rfl⟩
    · cases h
  | lock =>
    simp only [next] at h
    split at h
    · rename_i hrun
      obtain rfl := Option.some.inj h
      exact i.popTask (.inl hrun)
    · cases h
  | wake =>
    simp only [next] at h
    split at h
    · rename_i hrun
      obtain rfl := Option.some.inj h
      exact i.popTask (.inr hrun)
    · cases h
  | check =>
    simp only [next] at h
    split at h
    · rename_i taskData hrun
      obtain rfl := Option.some.inj h
      exact i.checkExit hrun
    · cases h
  | taskDone =>
    simp only [next] at h
    split at h
    · rename_i task hrun
      obtain rfl := Option.some.inj h
      have hne : ∀ code, s.run ≠ .returned code := fun code hc => by rw [hrun] at hc; cases hc
      obtain ⟨hlost, hdes, hdis⟩ := i.inside hne
      have hposted := i.posted
      have hstarted := i.started
      rw [hrun] at hposted hstarted
      refine ⟨?_, ?_, i.nodup, i.fresh, fun hl => absurd hlost hl, i.discarded,
        fun hd => ?_, fun ts hts => ?_, nofun⟩
      · simpa [RunState.running?, RunState.held] using hposted
      · simpa [RunState.running?] using hstarted
      · exact absurd (hdes.symm.trans hd) Bool.false_ne_true
      · obtain ⟨hexit, heq, -⟩ := i.observed ts hts
        exact ⟨hexit, heq, rfl⟩
    · cases h
  | destroy =>
    simp only [next] at h
    split at h
    · rename_i code hrun
      split at h
      · rename_i hcond
        obtain rfl := Option.some.inj h
        have hposted := i.posted
        rw [i.discarded hcond.2] at hposted
        refine ⟨?_, i.started, i.nodup, i.fresh, i.lost, nofun,
          fun _ => ⟨rfl, hcond.1, code, hrun⟩, i.observed, i.empty⟩
        rw [i.discarded hcond.2]
        simpa using hposted
      · cases h
    · cases h

/-! ## Runs -/

/-- When nothing is lost, the loop owes its tasks nothing. -/
theorem Inv.lawful (i : Inv s) (hlost : s.lost = []) : Lawful s := by
  have hposted := i.posted
  have hnodup : s.posted.Nodup := (List.nodup_append.mp i.nodup).1
  rw [hlost, List.append_nil] at hposted
  have hsub : (s.ran ++ s.discarded).Sublist s.posted := by
    rw [hposted]
    simp only [List.append_assoc]
    refine List.Sublist.append_left ?_ s.ran
    rw [← List.append_assoc, ← List.append_assoc]
    exact List.sublist_append_right _ _
  refine ⟨?_, hnodup, fun ts hts => (i.observed ts hts).2.1, hsub.nodup hnodup, fun t => ?_,
    fun hd => ?_⟩
  · rw [i.started, hposted]
    simp only [List.append_assoc]
    exact ⟨s.run.held ++ (s.taskQueue ++ s.discarded), by simp only [List.append_assoc]⟩
  · refine ⟨fun ht => ?_, fun ht hst => ?_⟩
    · rw [i.started]
      exact List.mem_append_left _ ht
    · rw [i.started] at hst
      have hd : (s.ran ++ s.run.running? ++ (s.run.held ++ s.taskQueue) ++ s.discarded).Nodup := by
        rw [hposted] at hnodup
        simpa only [List.append_assoc] using hnodup
      exact (List.nodup_append.mp hd).2.2 t (List.mem_append_left _ hst) t ht rfl
  · obtain ⟨hqueue, -, code, hrun⟩ := i.destroyed hd
    rw [hposted, hqueue, hrun]
    simp [RunState.running?, RunState.held]

/-- A lost task is never freed. -/
theorem Inv.not_lawful (i : Inv s) (hlost : s.lost ≠ []) (hd : s.destroyed = true) :
    ¬ Lawful s := by
  intro l
  have hlen := (l.accounted hd).length_eq
  obtain ⟨hqueue, -, code, hrun⟩ := i.destroyed hd
  rw [i.posted, hqueue, hrun] at hlen
  have hpos := List.length_pos_iff.mpr hlost
  simp only [RunState.running?, RunState.held, List.append_nil, List.length_append] at hlen
  omega

theorem popTask_lost (s : TaskLoop) : s.popTask.lost = s.lost := by
  unfold TaskLoop.popTask
  split
  · rfl
  · split <;> rfl

theorem checkExit_lost (s : TaskLoop) (taskData : Option TaskId) :
    (s.checkExit taskData).lost =
      if s.exitCode = none then s.lost else s.lost ++ taskData.toList := by
  unfold TaskLoop.checkExit
  cases s.exitCode with
  | some code => rfl
  | none => cases taskData <;> rfl

/-- What is lost was in hand when `Run` saw the exit code. -/
theorem lost_next (h : s.next a = some s') :
    (s'.lost = s.lost ∧ s.HoldsNoTask a) ∨
      (∃ t, s'.lost = s.lost ++ [t]) ∧ ¬ s.HoldsNoTask a := by
  cases a with
  | check =>
    simp only [next] at h
    split at h
    · rename_i taskData hrun
      obtain rfl := Option.some.inj h
      rw [checkExit_lost]
      split
      · rename_i hexit
        exact .inl ⟨rfl, fun _ _ => hexit⟩
      · rename_i hexit
        cases taskData with
        | none => exact .inl ⟨List.append_nil _, fun t ht => by rw [hrun] at ht; cases ht⟩
        | some t => exact .inr ⟨⟨t, rfl⟩, fun hn => hexit (hn t hrun)⟩
    · cases h
  | lock | wake =>
    simp only [next] at h
    split at h
    · obtain rfl := Option.some.inj h
      exact .inl ⟨popTask_lost s, trivial⟩
    · cases h
  | postTask | exit =>
    simp only [next] at h
    split at h
    · cases h
    · obtain rfl := Option.some.inj h
      exact .inl ⟨rfl, trivial⟩
  | push | enter | taskDone =>
    simp only [next] at h
    split at h
    · obtain rfl := Option.some.inj h
      exact .inl ⟨rfl, trivial⟩
    · cases h
  | destroy =>
    simp only [next] at h
    split at h
    · split at h
      · obtain rfl := Option.some.inj h
        exact .inl ⟨rfl, trivial⟩
      · cases h
    · cases h

end Steps

/-- **The law holds throughout a run when `Run` never looks at the exit code with a task in hand,
and in a run up to the destructor only then.** -/
theorem task_loop_law (labels : List Label) :
    (Allowed (machine next) HoldsNoTask create labels →
      Always (machine next) Lawful True create labels) ∧
    ∀ s us, Transition.run (machine next) create labels = .ok (s, us) → s.destroyed = true →
      (Always (machine next) Lawful True create labels ↔
        Allowed (machine next) HoldsNoTask create labels) := by
  have hlawful (hallowed : Allowed (machine next) HoldsNoTask create labels) :
      Always (machine next) Lawful True create labels := by
    refine always_machine (I := fun s => Inv s ∧ s.lost = []) (fun s hs => hs.1.lawful hs.2) ?_
      ⟨inv_create, rfl⟩ hallowed
    rintro s a s' ⟨i, hlost⟩ hG h
    rcases lost_next h with ⟨hsame, -⟩ | ⟨-, hnot⟩
    · exact ⟨inv_next i h, hsame.trans hlost⟩
    · exact absurd hG hnot
  refine ⟨hlawful, fun s us hrun hd => ⟨fun hall => ?_, hlawful⟩⟩
  have i : Inv s := machine_invariant (fun _ _ _ i h => inv_next i h) inv_create hrun
  have hlost : ¬ s.lost ≠ [] := fun hl => i.not_lawful hl hd (hall.last hrun)
  refine (allowed_of_run (B := fun s => s.lost ≠ []) (fun s a s' h hb => ?_) hrun hlost).1
  rcases lost_next h with ⟨hsame, hG⟩ | ⟨⟨t, ht⟩, -⟩
  · rw [hsame]
    exact hb.resolve_right fun hn => hn hG
  · rw [ht]
    exact List.append_ne_nil_of_right_ne_nil _ (List.cons_ne_nil t [])

/-- A task is posted and the exit code is set before `Run` takes the lock. -/
def exitWithTask : List Label :=
  [.postTask, .push 0, .exit 0, .enter, .lock, .check, .destroy]

/-- **`Run` pops the task, sees the exit code and returns: the task is neither run nor freed.** -/
theorem popped_task_lost :
    ¬ Always (machine next) Lawful True create exitWithTask := by
  intro h
  have hlaw := (Always.last h rfl).accounted rfl
  exact absurd hlaw.length_eq (by decide)

end TaskLoop

end Blinkit.Posix
