import Mathlib.Data.List.Nodup
import Mathlib.Data.List.Perm.Basic
import Blinkit.Base.Time
import Blinkit.Lib.Transition

/-!
# Timers

`TimerBase`: each start posts a task to the task runner with the delay of the start, and a task that
runs makes the timer fire.

* `Timer` — the fields; `Timer.start`, `Timer.runInternal` — its functions, with the delay of the
  task that they post.
* `System` — the timer, the clock and the tasks that have been posted and have not run; `fired` is
  the history of the starts whose task has made the timer fire.
* `Ideal` — what the timer is for: a start replaces the start that waits, unless it is for the same
  time, and only the start that waits fires, once.
* `FiresOnce s` — the timer has fired when it should have, it is active exactly while a start
  waits, and that start has a task that is due at its time.
* `StartsAlone s` — a start finds no task outstanding and is not for the null time, or it is for the
  time at which the outstanding task is due.

Principal results: `Sound.next` and `timer_fires_iff`.
-/

set_option autoImplicit false

namespace Blinkit.Platform

open Base Transition

/-! ## The timer -/

structure Timer where
  isActive : Bool
  /-- `0` if inactive. -/
  nextFireTime : TimeTicks
  /-- `0` if not repeating. -/
  repeatInterval : TimeDelta
  deriving DecidableEq

namespace Timer

/-- The constructor. -/
def fresh : Timer := ⟨false, 0, .zero⟩

/-- `SetNextFireTime`. -/
def setNextFireTime (t : Timer) (now : TimeTicks) (delay : TimeDelta) : Timer × Option TimeDelta :=
  let newTime := saturatedAdd delay now
  if t.nextFireTime ≠ newTime then
    ({ t with nextFireTime := newTime, isActive := true }, some delay)
  else (t, none)

/-- `Start`. -/
def start (t : Timer) (now : TimeTicks) (nextFireInterval repeatInterval : TimeDelta) :
    Timer × Option TimeDelta :=
  setNextFireTime { t with repeatInterval := repeatInterval } now nextFireInterval

/-- `StartOneShot`. -/
def startOneShot (t : Timer) (now : TimeTicks) (interval : TimeDelta) : Timer × Option TimeDelta :=
  t.start now interval .zero

/-- `RunInternal`, which then calls `Fired`. In the branch for repeating timers the difference of
two times is made by `FromMicroseconds`, a stub that returns zero. -/
def runInternal (t : Timer) (now : TimeTicks) : Timer × Option TimeDelta :=
  let t := { t with isActive := false }
  if t.repeatInterval.isZero then ({ t with nextFireTime := 0 }, none)
  else setNextFireTime t now t.repeatInterval

end Timer

/-! ## What the timer is for -/

/-- The starts are numbered; a start for the time that is waited for already is not counted. -/
structure Ideal where
  starts : Nat
  /-- The start that waits, and its time. -/
  waiting : Option (Nat × Int)
  fired : List Nat

namespace Ideal

def fresh : Ideal := ⟨0, none, []⟩

def start (s : Ideal) (time : Int) : Ideal :=
  if s.waiting.map Prod.snd = some time then s
  else { s with starts := s.starts + 1, waiting := some (s.starts, time) }

/-- The task of the start `n` runs. -/
def run (s : Ideal) (n : Nat) : Ideal :=
  if s.waiting.map Prod.fst = some n then { s with waiting := none, fired := s.fired ++ [n] } else s

/-- The number of the last start. -/
def last (s : Ideal) : Nat := s.starts - 1

end Ideal

/-! ## The timer, its clock and its tasks -/

/-- A task of the timer: the start that has posted it, and when its delay is over. -/
structure Posted where
  start : Nat
  due : Int
  deriving DecidableEq

structure System where
  now : Nat
  timer : Timer
  tasks : List Posted
  fired : List Nat
  ideal : Ideal

inductive Label where
  | startOneShot (interval : TimeDelta)
  /-- Time passes. -/
  | advance (us : Nat)
  /-- One of the tasks runs, if its delay is over. -/
  | run (index : Nat)

namespace System

def initial (now : Nat) : System := ⟨now, .fresh, [], [], .fresh⟩

/-- `PostDelayedTask`. -/
def post (start now : Nat) (delay : Option TimeDelta) : List Posted :=
  delay.toList.map fun d => ⟨start, now + d.us⟩

def next (s : System) : Label → System
  | .startOneShot interval =>
    let ideal := s.ideal.start (s.now + interval.us)
    let r := s.timer.startOneShot s.now interval
    { s with timer := r.1, tasks := s.tasks ++ post ideal.last s.now r.2, ideal := ideal }
  | .advance us => { s with now := s.now + us }
  | .run index =>
    match s.tasks[index]? with
    | none => s
    | some t =>
      if t.due ≤ s.now then
        let r := s.timer.runInternal s.now
        { s with
          timer := r.1
          tasks := s.tasks.eraseIdx index ++ post s.ideal.last s.now r.2
          fired := s.fired ++ [t.start]
          ideal := s.ideal.run t.start }
      else s

/-- The steps as a machine. -/
def step : System → Label → Except Disabled (System × Unit) := machine fun s l => some (s.next l)

end System

/-- **The timer has fired as it should.** -/
structure FiresOnce (s : System) : Prop where
  /-- No start has fired that was superseded, or at the time of another. -/
  fired : s.fired = s.ideal.fired
  once : s.fired.Nodup
  active : s.timer.isActive = true ↔ s.ideal.waiting ≠ none
  /-- The start that waits is going to fire at its time. -/
  pending : ∀ n time, s.ideal.waiting = some (n, time) → ⟨n, time⟩ ∈ s.tasks

/-- The start finds no task outstanding, or the outstanding task is due at its time. -/
def StartsAlone (s : System) : Label → Prop
  | .startOneShot interval =>
    (s.tasks = [] ∧ saturatedAdd interval s.now ≠ 0) ∨ ∃ t ∈ s.tasks, t.due = s.now + interval.us
  | _ => True

/-! ## The invariant -/

/-- Nothing waits. -/
structure Idle (s : System) : Prop where
  waiting : s.ideal.waiting = none
  tasks : s.tasks = []
  nextFireTime : s.timer.nextFireTime = 0
  isActive : s.timer.isActive = false

/-- The start of the task `t` waits. -/
structure Waits (s : System) (t : Posted) : Prop where
  waiting : s.ideal.waiting = some (t.start, t.due)
  tasks : s.tasks = [t]
  nextFireTime : ∀ (interval : TimeDelta) (now : Nat), now + interval.us = t.due →
    saturatedAdd interval now = s.timer.nextFireTime
  isActive : s.timer.isActive = true
  counted : t.start < s.ideal.starts
  unfired : t.start ∉ s.fired

/-- **At most one task is outstanding, and it is the task of the start that waits.** -/
structure Sound (s : System) : Prop where
  fired : s.fired = s.ideal.fired
  once : s.fired.Nodup
  counted : ∀ n ∈ s.fired, n < s.ideal.starts
  oneShot : s.timer.repeatInterval.isZero = true
  phase : Idle s ∨ ∃ t, Waits s t

variable {s : System}

theorem Sound.firesOnce (h : Sound s) : FiresOnce s := by
  refine ⟨h.fired, h.once, ?_, fun n time hw => ?_⟩
  · rcases h.phase with hidle | ⟨t, hwaits⟩
    · rw [hidle.isActive, hidle.waiting]
      exact iff_of_false Bool.false_ne_true (fun hne => hne rfl)
    · rw [hwaits.isActive, hwaits.waiting]
      exact iff_of_true rfl (Option.some_ne_none _)
  · rcases h.phase with hidle | ⟨t, hwaits⟩
    · rw [hidle.waiting] at hw
      cases hw
    · obtain rfl : (⟨n, time⟩ : Posted) = t := by
        have hpair := Option.some.inj (hwaits.waiting.symm.trans hw)
        cases hpair
        rfl
      rw [hwaits.tasks]
      exact List.mem_singleton_self _

/-- Behind the origin of the clock the sum alone decides the saturated time. -/
theorem saturatedAdd_congr {d d' : TimeDelta} {now now' : Nat}
    (h : now + d.us = now' + d'.us) : saturatedAdd d now = saturatedAdd d' now' := by
  have hsum : d.us + (now : Int) = d'.us + now' := by omega
  have hnow : ¬ (now : Int) < 0 := by omega
  have hnow' : ¬ (now' : Int) < 0 := by omega
  unfold saturatedAdd
  rw [hsum, if_neg hnow, if_neg hnow']

/-! ## The steps -/

/-- What a start does to a timer that waits for another time. -/
theorem startOneShot_posts {t : Timer} {now : TimeTicks} {interval : TimeDelta}
    (hne : t.nextFireTime ≠ saturatedAdd interval now) :
    t.startOneShot now interval =
      ({ t with
        repeatInterval := .zero
        nextFireTime := saturatedAdd interval now
        isActive := true }, some interval) := by
  unfold Timer.startOneShot Timer.start Timer.setNextFireTime
  exact if_pos hne

theorem startOneShot_waits {t : Timer} {now : TimeTicks} {interval : TimeDelta}
    (heq : t.nextFireTime = saturatedAdd interval now) :
    t.startOneShot now interval = ({ t with repeatInterval := .zero }, none) := by
  unfold Timer.startOneShot Timer.start Timer.setNextFireTime
  exact if_neg (not_not.mpr heq)

/-- A one-shot timer that runs is inactive. -/
theorem runInternal_oneShot {t : Timer} (h : t.repeatInterval.isZero = true) (now : TimeTicks) :
    t.runInternal now = ({ t with isActive := false, nextFireTime := 0 }, none) := by
  unfold Timer.runInternal
  exact if_pos h

theorem Ideal.start_new {i : Ideal} {time : Int} (h : i.waiting.map Prod.snd ≠ some time) :
    i.start time = { i with starts := i.starts + 1, waiting := some (i.starts, time) } := if_neg h

theorem Ideal.start_same {i : Ideal} {time : Int} (h : i.waiting.map Prod.snd = some time) :
    i.start time = i := if_pos h

/-- **A start that finds no task outstanding** posts the task that is due at its time. -/
theorem Sound.start_idle {interval : TimeDelta} (h : Sound s) (htasks : s.tasks = [])
    (htime : saturatedAdd interval s.now ≠ 0) : Sound (s.next (.startOneShot interval)) := by
  have hidle : Idle s := by
    rcases h.phase with hidle | ⟨t, hwaits⟩
    · exact hidle
    · rw [hwaits.tasks] at htasks
      cases htasks
  have hideal : s.ideal.start (s.now + interval.us) = _ := Ideal.start_new
    (by rw [hidle.waiting]; exact nofun)
  have htimer : s.timer.startOneShot s.now interval = _ := startOneShot_posts
    (by rw [hidle.nextFireTime]; exact htime.symm)
  unfold System.next
  simp only
  rw [hideal, htimer, htasks]
  refine ⟨h.fired, h.once, fun n hn => ?_, rfl, .inr ⟨⟨s.ideal.starts, s.now + interval.us⟩, ?_⟩⟩
  · exact Nat.lt_succ_of_lt (h.counted n hn)
  · refine ⟨rfl, rfl, fun d now heq => saturatedAdd_congr heq, rfl, Nat.lt_succ_self _, ?_⟩
    intro hmem
    exact Nat.lt_irrefl _ (h.counted _ hmem)

/-- **A start for the time of the outstanding task** changes nothing. -/
theorem Sound.start_same {interval : TimeDelta} (h : Sound s)
    (hdue : ∃ t ∈ s.tasks, t.due = s.now + interval.us) :
    Sound (s.next (.startOneShot interval)) := by
  obtain ⟨u, hu, hdue⟩ := hdue
  rcases h.phase with hidle | ⟨t, hwaits⟩
  · rw [hidle.tasks] at hu
    cases hu
  · rw [hwaits.tasks] at hu
    obtain rfl := List.mem_singleton.mp hu
    have hideal : s.ideal.start (s.now + interval.us) = _ := Ideal.start_same
      (by rw [hwaits.waiting, ← hdue]; rfl)
    have htimer : s.timer.startOneShot s.now interval = _ := startOneShot_waits
      (hwaits.nextFireTime interval s.now hdue.symm).symm
    unfold System.next
    simp only
    rw [hideal, htimer, System.post, Option.toList_none, List.map_nil, List.append_nil]
    exact ⟨h.fired, h.once, h.counted, rfl, .inr ⟨u, hwaits.waiting, hwaits.tasks,
      hwaits.nextFireTime, hwaits.isActive, hwaits.counted, hwaits.unfired⟩⟩

/-- **The task that runs is that of the start that waits**, and the timer fires for it. -/
theorem Sound.run (h : Sound s) (index : Nat) : Sound (s.next (.run index)) := by
  unfold System.next
  simp only
  split
  · exact h
  · rename_i u hu
    split
    · rcases h.phase with hidle | ⟨t, hwaits⟩
      · rw [hidle.tasks] at hu
        cases hu
      · -- there is one task only
        rw [hwaits.tasks] at hu ⊢
        obtain ⟨hlt, hget⟩ := List.getElem?_eq_some_iff.mp hu
        obtain rfl : index = 0 := Nat.lt_one_iff.mp hlt
        obtain rfl : t = u := hget
        have hideal : s.ideal.run t.start =
            { s.ideal with waiting := none, fired := s.ideal.fired ++ [t.start] } :=
          if_pos (by rw [hwaits.waiting]; rfl)
        rw [runInternal_oneShot h.oneShot, hideal]
        refine ⟨congrArg (· ++ [t.start]) h.fired, ?_, fun n hn => ?_, h.oneShot,
          .inl ⟨rfl, rfl, rfl, rfl⟩⟩
        · exact List.nodup_append.mpr ⟨h.once, List.nodup_singleton _, fun a ha b hb => by
            obtain rfl := List.mem_singleton.mp hb
            rintro rfl
            exact hwaits.unfired ha⟩
        · rcases List.mem_append.mp hn with hold | hnew
          · exact h.counted n hold
          · obtain rfl := List.mem_singleton.mp hnew
            exact hwaits.counted
    · exact h

/-- **What an allowed step keeps.** -/
theorem Sound.next {l : Label} (h : Sound s) (hl : StartsAlone s l) : Sound (s.next l) := by
  cases l with
  | startOneShot interval =>
    rcases hl with ⟨htasks, htime⟩ | hdue
    · exact h.start_idle htasks htime
    · exact h.start_same hdue
  | advance us =>
    refine ⟨h.fired, h.once, h.counted, h.oneShot, h.phase.imp (fun hidle => ?_) ?_⟩
    · exact ⟨hidle.waiting, hidle.tasks, hidle.nextFireTime, hidle.isActive⟩
    · rintro ⟨t, hwaits⟩
      exact ⟨t, hwaits.waiting, hwaits.tasks, hwaits.nextFireTime, hwaits.isActive,
        hwaits.counted, hwaits.unfired⟩
  | run index => exact h.run index

/-! ## The condition is exact -/

/-- A task is outstanding whose start does not wait any more. -/
def Stale (s : System) : Prop :=
  ∃ t ∈ s.tasks, t.start < s.ideal.starts ∧ s.ideal.waiting.map Prod.fst ≠ some t.start

/-- A start that waits keeps its number, or a new one takes its place. -/
theorem Ideal.start_waiting (i : Ideal) (time : Int) {n : Nat} (hn : n < i.starts)
    (hstale : i.waiting.map Prod.fst ≠ some n) :
    n < (i.start time).starts ∧ (i.start time).waiting.map Prod.fst ≠ some n := by
  unfold Ideal.start
  split
  · exact ⟨hn, hstale⟩
  · refine ⟨Nat.lt_succ_of_lt hn, fun heq => ?_⟩
    exact Nat.ne_of_gt hn (Option.some.inj heq)

theorem Ideal.run_waiting (i : Ideal) (m : Nat) {n : Nat} (hn : n < i.starts)
    (hstale : i.waiting.map Prod.fst ≠ some n) :
    n < (i.run m).starts ∧ (i.run m).waiting.map Prod.fst ≠ some n := by
  unfold Ideal.run
  split
  · exact ⟨hn, nofun⟩
  · exact ⟨hn, hstale⟩

/-- **A stale task that runs makes the timer fire for a start that does not wait.** -/
theorem not_firesOnce_run {t : Posted} {index : Nat} (hs : FiresOnce s)
    (ht : s.tasks[index]? = some t) (hdue : t.due ≤ s.now)
    (hstale : s.ideal.waiting.map Prod.fst ≠ some t.start) :
    ¬ FiresOnce (s.next (.run index)) := by
  intro h
  have hfired := h.fired
  unfold System.next at hfired
  simp only at hfired
  rw [ht] at hfired
  simp only at hfired
  rw [if_pos hdue] at hfired
  simp only at hfired
  have hideal : s.ideal.run t.start = s.ideal := if_neg hstale
  rw [hideal, ← hs.fired] at hfired
  have hlen := congrArg List.length hfired
  rw [List.length_append, List.length_singleton] at hlen
  omega

/-- A stale task stays, or the timer fires for it. -/
theorem Stale.next {l : Label} (h : Stale s) (hs : FiresOnce s) :
    Stale (s.next l) ∨ ¬ FiresOnce (s.next l) := by
  obtain ⟨t, ht, hcount, hstale⟩ := h
  cases l with
  | startOneShot interval =>
    obtain ⟨hcount', hstale'⟩ := s.ideal.start_waiting (s.now + interval.us) hcount hstale
    exact .inl ⟨t, List.mem_append_left _ ht, hcount', hstale'⟩
  | advance us => exact .inl ⟨t, ht, hcount, hstale⟩
  | run index =>
    cases hu : s.tasks[index]? with
    | none =>
      left
      unfold System.next
      simp only
      rw [hu]
      exact ⟨t, ht, hcount, hstale⟩
    | some u =>
      by_cases hdue : u.due ≤ s.now
      · by_cases hmem : t ∈ s.tasks.eraseIdx index
        · left
          obtain ⟨hcount', hstale'⟩ := s.ideal.run_waiting u.start hcount hstale
          unfold System.next
          simp only
          rw [hu]
          simp only
          rw [if_pos hdue]
          exact ⟨t, List.mem_append_left _ hmem, hcount', hstale'⟩
        · right
          -- the task that runs is the stale one
          obtain ⟨hlt, hget⟩ := List.getElem?_eq_some_iff.mp hu
          have hperm := List.getElem_cons_eraseIdx_perm hlt
          rw [hget] at hperm
          obtain rfl : t = u := (List.mem_cons.mp (hperm.mem_iff.mpr ht)).resolve_right hmem
          exact not_firesOnce_run hs hu hdue hstale
      · left
        unfold System.next
        simp only
        rw [hu]
        simp only
        rw [if_neg hdue]
        exact ⟨t, ht, hcount, hstale⟩

/-- The label is not a start. -/
def Label.Passive : Label → Prop
  | .startOneShot _ => False
  | _ => True

theorem always_cons {l : Label} {labels : List Label} :
    Always System.step FiresOnce True s (l :: labels) ↔
      FiresOnce s ∧ Always System.step FiresOnce True (s.next l) labels := Iff.rfl

/-- **With a stale task there is a way on that makes the timer fire for it.** -/
theorem Stale.fails (h : Stale s) (labels : List Label) :
    ∃ more : List Label, (∀ l ∈ more, l.Passive) ∧
      ¬ Always System.step FiresOnce True s (labels ++ more) := by
  induction labels generalizing s with
  | nil =>
    obtain ⟨t, ht, hcount, hstale⟩ := h
    obtain ⟨index, hindex⟩ := List.mem_iff_getElem?.mp ht
    refine ⟨[.advance t.due.toNat, .run index], ?_, fun halways => ?_⟩
    · intro l hl
      rcases List.mem_cons.mp hl with rfl | hl
      · trivial
      · obtain rfl := List.mem_singleton.mp hl
        trivial
    · obtain ⟨-, hadvanced, hrun⟩ := halways
      have hdue : t.due ≤ ((s.now + t.due.toNat : Nat) : Int) := by omega
      exact not_firesOnce_run hadvanced hindex hdue hstale hrun
  | cons l labels ih =>
    by_cases hs : FiresOnce s
    · rcases h.next (l := l) hs with hnext | hnot
      · obtain ⟨more, hmore, hfails⟩ := ih hnext
        exact ⟨more, hmore, fun halways => hfails (always_cons.mp halways).2⟩
      · exact ⟨[], List.forall_mem_nil _, fun halways => hnot (always_cons.mp halways).2.head⟩
    · exact ⟨[], List.forall_mem_nil _, fun halways => hs (Always.head halways)⟩

/-- **A start that is not allowed leaves a stale task behind, or never fires.** -/
theorem Sound.stale {l : Label} (h : Sound s) (hl : ¬ StartsAlone s l) :
    Stale (s.next l) ∨ ¬ FiresOnce (s.next l) := by
  cases l with
  | advance us => exact absurd trivial hl
  | run index => exact absurd trivial hl
  | startOneShot interval =>
    obtain ⟨hnull, hdue⟩ := not_or.mp hl
    rcases h.phase with hidle | ⟨t, hwaits⟩
    · right
      have htime : saturatedAdd interval s.now = 0 := by
        by_contra htime
        exact hnull ⟨hidle.tasks, htime⟩
      have hideal : s.ideal.start (s.now + interval.us) = _ := Ideal.start_new
        (by rw [hidle.waiting]; exact nofun)
      have htimer : s.timer.startOneShot s.now interval = _ := startOneShot_waits
        (hidle.nextFireTime.trans htime.symm)
      intro hfires
      have hpending := hfires.pending s.ideal.starts (s.now + interval.us)
      unfold System.next at hpending
      simp only at hpending
      rw [hideal, htimer, hidle.tasks] at hpending
      exact absurd (hpending rfl) List.not_mem_nil
    · left
      have hother : s.ideal.waiting.map Prod.snd ≠ some (s.now + interval.us) := by
        rw [hwaits.waiting]
        intro heq
        exact hdue ⟨t, by rw [hwaits.tasks]; exact List.mem_singleton_self t, Option.some.inj heq⟩
      have hideal := Ideal.start_new hother
      refine ⟨t, List.mem_append_left _ (by rw [hwaits.tasks]; exact List.mem_singleton_self t), ?_⟩
      show t.start < (s.ideal.start _).starts ∧ (s.ideal.start _).waiting.map Prod.fst ≠ _
      rw [hideal]
      refine ⟨Nat.lt_succ_of_lt hwaits.counted, fun heq => ?_⟩
      exact Nat.ne_of_gt hwaits.counted (Option.some.inj heq)

theorem sound_initial (now : Nat) : Sound (.initial now) :=
  ⟨rfl, List.nodup_nil, nofun, rfl, .inl ⟨rfl, rfl, rfl, rfl⟩⟩

theorem Label.Passive.startsAlone {l : Label} (hl : l.Passive) (s : System) : StartsAlone s l := by
  cases l with
  | startOneShot interval => exact hl.elim
  | advance us => trivial
  | run index => trivial

/-- **A timer fires once for each start, at its time, whatever tasks run after the run, exactly when
every start of the run finds no task outstanding and is not for the null time, or is for the time at
which the outstanding task is due.** -/
theorem timer_fires_iff (now : Nat) (labels : List Label) :
    (∀ more : List Label, (∀ l ∈ more, l.Passive) →
      Always System.step FiresOnce True (.initial now) (labels ++ more)) ↔
      Allowed System.step StartsAlone (.initial now) labels := by
  generalize hs : System.initial now = s
  have h : Sound s := hs ▸ sound_initial now
  clear hs
  constructor
  · intro halways
    induction labels generalizing s with
    | nil => trivial
    | cons l labels ih =>
      have hl : StartsAlone s l := by
        by_contra hl
        rcases h.stale hl with hstale | hnot
        · obtain ⟨more, hmore, hfails⟩ := hstale.fails labels
          exact hfails (always_cons.mp (halways more hmore)).2
        · exact hnot (always_cons.mp (halways [] (List.forall_mem_nil _))).2.head
      exact ⟨hl, ih (s.next l) (h.next hl) fun more hmore =>
        (always_cons.mp (halways more hmore)).2⟩
  · intro hallowed more hmore
    have hstep : ∀ s l, Sound s → StartsAlone s l → After Sound True (System.step s l) :=
      fun s l h hl => h.next hl
    exact always_of_allowed (fun s h => h.firesOnce) hstep h
      (hallowed.append fun l hl s => (hmore l hl).startsAlone s)

/-- **A superseded start fires**: its task runs while the later start waits, and again when the task
of the later start runs. -/
theorem timer_fires_superseded :
    ¬ Always System.step FiresOnce True (.initial 1000000)
      [.startOneShot ⟨10000, by decide⟩, .startOneShot ⟨20000, by decide⟩, .advance 10000,
        .run 0] := by
  intro h
  have hfired := h.2.2.2.2.fired
  revert hfired
  decide

end Blinkit.Platform
