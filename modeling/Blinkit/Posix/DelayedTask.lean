import Mathlib.Data.List.Basic
import Blinkit.Base.Time

/-!
# Delayed tasks

`PosixTaskRunner::PostDelayedTask`. The task travels in a `DelayData`, whose destructor sleeps and
then posts the task; a helper thread deletes it.

* `Nanosleep` — `nanosleep`, when no signal interrupts it.
* `DelayData.destroy` — the destructor.
* `Attempt` — what the platform answers: whether the thread can be created, and when it starts.
* `postDelayedTask` — what is handed to the poster and when, and what the call returns.
* `Accounts` — a call that returns true hands its task over once and not before the delay, a call
  that returns false does not.

Principal results: `postDelayedTask_iff` and `postDelayedTask_refused`.
-/

set_option autoImplicit false

namespace Blinkit.Posix

open Base

variable {Location Task : Type}

structure Timespec where
  sec : Int
  nsec : Int
  deriving DecidableEq

/-- What `nanosleep` accepts. -/
def Timespec.Valid (t : Timespec) : Prop := 0 ≤ t.sec ∧ 0 ≤ t.nsec ∧ t.nsec < 10 ^ 9

instance (t : Timespec) : Decidable t.Valid := inferInstanceAs (Decidable (_ ∧ _ ∧ _))

/-- **`nanosleep`** : the nanoseconds that it sleeps, at least as many as asked for. -/
structure Nanosleep where
  slept : Timespec → Nat
  atLeast : ∀ t, t.Valid → t.sec * 10 ^ 9 + t.nsec ≤ slept t
  invalid : ∀ t, ¬ t.Valid → slept t = 0

/-- A call of the task poster, in nanoseconds after the call of `PostDelayedTask`. -/
structure Handover (Location Task : Type) where
  location : Location
  task : Task
  time : Nat
  deriving DecidableEq

structure DelayData (Location Task : Type) where
  location : Location
  task : Task
  delayInMs : Int

namespace DelayData

/-- The constructor. -/
def create (location : Location) (task : Task) (delay : TimeDelta) : DelayData Location Task :=
  ⟨location, task, delay.inMilliseconds⟩

def timespec (d : DelayData Location Task) : Timespec :=
  ⟨d.delayInMs.tdiv 1000, d.delayInMs.tmod 1000 * 1000000⟩

/-- The destructor, run from the time `start` on. -/
def destroy (nanosleep : Nanosleep) (start : Nat) (d : DelayData Location Task) :
    Handover Location Task :=
  ⟨d.location, d.task, start + nanosleep.slept d.timespec⟩

end DelayData

/-- What `pthread_create` does: it succeeds and the thread starts some time later, or it fails. -/
inductive Attempt where
  | created (start : Nat)
  | failed

/-- What a call leads to. Where an assertion stops the process it returns nothing. -/
structure Outcome (Location Task : Type) where
  handed : List (Handover Location Task)
  returned : Option Bool

/-- `PosixTaskRunner::PostDelayedTask`; `asserts` says that the build checks assertions. -/
def postDelayedTask (asserts : Bool) (nanosleep : Nanosleep) (attempt : Attempt)
    (fromHere : Location) (task : Task) (delay : TimeDelta) : Outcome Location Task :=
  if delay.isZero then ⟨[⟨fromHere, task, 0⟩], some true⟩
  else
    let delayData := DelayData.create fromHere task delay
    match attempt with
    | .created start => ⟨[delayData.destroy nanosleep start], some true⟩
    | .failed => if asserts then ⟨[], none⟩ else ⟨[delayData.destroy nanosleep 0], some false⟩

/-- **The call accounts for its task.** -/
structure Accounts (fromHere : Location) (task : Task) (delay : TimeDelta)
    (o : Outcome Location Task) : Prop where
  accepted : o.returned = some true → ∃ t, o.handed = [t] ∧ t.location = fromHere ∧
    t.task = task ∧ delay.us * 1000 ≤ t.time
  refused : o.returned = some false → o.handed = []

/-- The delay is a whole number of milliseconds, or there is nothing to wait for. -/
def WholeDelay (delay : TimeDelta) : Prop :=
  delay.us ≤ 0 ∨ delay.isMax = true ∨ (1000 : Int) ∣ delay.us

/-! ## The wait -/

/-- A sleep that ends as soon as it may. -/
def promptSleep : Nanosleep where
  slept t := if t.Valid then (t.sec * 10 ^ 9 + t.nsec).toNat else 0
  atLeast t ht := by
    rw [if_pos ht]
    exact Int.self_le_toNat _
  invalid t ht := if_neg ht

variable {fromHere : Location} {task : Task} {delay : TimeDelta}

/-- What the destructor asks `nanosleep` for is its number of milliseconds. -/
theorem timespec_spec {d : DelayData Location Task} (hd : 0 ≤ d.delayInMs) :
    d.timespec.Valid ∧ d.timespec.sec * 10 ^ 9 + d.timespec.nsec = d.delayInMs * 1000000 := by
  unfold DelayData.timespec Timespec.Valid
  simp only
  rw [Int.tdiv_eq_ediv_of_nonneg hd, Int.tmod_eq_emod_of_nonneg hd]
  omega

theorem whole_le (hpos : 0 < delay.us) (hwhole : WholeDelay delay) :
    delay.us * 1000 ≤ delay.inMilliseconds * 1000000 := by
  rcases hwhole with hle | hmax | hdvd
  · omega
  · have hus : delay.us = int64Max := beq_iff_eq.mp hmax
    unfold TimeDelta.inMilliseconds
    rw [if_pos hmax, hus]
    decide
  · have hms := TimeDelta.inMilliseconds_of_dvd hdvd
    omega

/-- **The destructor waits long enough when the delay is whole.** -/
theorem destroy_time (nanosleep : Nanosleep) (start : Nat) (hwhole : WholeDelay delay) :
    delay.us * 1000 ≤ ((DelayData.create fromHere task delay).destroy nanosleep start).time := by
  rcases Int.lt_or_le 0 delay.us with hpos | hneg
  · have hms := whole_le hpos hwhole
    have hnonneg : 0 ≤ (DelayData.create fromHere task delay).delayInMs := by
      show 0 ≤ delay.inMilliseconds
      omega
    obtain ⟨hvalid, hsum⟩ := timespec_spec hnonneg
    have hslept := nanosleep.atLeast _ hvalid
    rw [hsum] at hslept
    have htime : ((DelayData.create fromHere task delay).destroy nanosleep start).time =
        start + nanosleep.slept (DelayData.create fromHere task delay).timespec := rfl
    have hdelay : (DelayData.create fromHere task delay).delayInMs = delay.inMilliseconds := rfl
    rw [hdelay] at hslept
    omega
  · omega

/-- A fraction of a millisecond is not waited for. -/
theorem destroy_early (hwhole : ¬ WholeDelay delay) :
    (((DelayData.create fromHere task delay).destroy promptSleep 0).time : Int) <
      delay.us * 1000 := by
  obtain ⟨hneg, hrest⟩ := not_or.mp hwhole
  obtain ⟨hmax, hdvd⟩ := not_or.mp hrest
  have hpos : 0 < delay.us := Int.not_le.mp hneg
  have hlt := TimeDelta.inMilliseconds_lt hpos (Bool.eq_false_iff.mpr hmax) hdvd
  have hnonneg : 0 ≤ (DelayData.create fromHere task delay).delayInMs := by
    show 0 ≤ delay.inMilliseconds
    unfold TimeDelta.inMilliseconds
    rw [if_neg hmax, Int.tdiv_eq_ediv_of_nonneg (Int.le_of_lt hpos)]
    omega
  obtain ⟨hvalid, hsum⟩ := timespec_spec hnonneg
  have hslept : (promptSleep.slept (DelayData.create fromHere task delay).timespec : Int) =
      delay.inMilliseconds * 1000000 := by
    unfold promptSleep
    simp only
    rw [if_pos hvalid, hsum]
    exact Int.toNat_of_nonneg (by omega)
  have htime : ((DelayData.create fromHere task delay).destroy promptSleep 0).time =
      0 + promptSleep.slept (DelayData.create fromHere task delay).timespec := rfl
  omega

/-! ## The call -/

/-- Whether the platform can create the thread. -/
def Attempt.succeeds : Attempt → Bool
  | created _ => true
  | failed => false

theorem postDelayedTask_zero (asserts : Bool) (nanosleep : Nanosleep) (attempt : Attempt)
    (hzero : delay.us = 0) :
    postDelayedTask asserts nanosleep attempt fromHere task delay =
      ⟨[⟨fromHere, task, 0⟩], some true⟩ := by
  unfold postDelayedTask TimeDelta.isZero
  rw [hzero]
  rfl

theorem postDelayedTask_delayed (asserts : Bool) (nanosleep : Nanosleep) (attempt : Attempt)
    (hzero : delay.us ≠ 0) :
    postDelayedTask asserts nanosleep attempt fromHere task delay =
      match attempt with
      | .created start =>
        ⟨[(DelayData.create fromHere task delay).destroy nanosleep start], some true⟩
      | .failed =>
        if asserts then ⟨[], none⟩
        else ⟨[(DelayData.create fromHere task delay).destroy nanosleep 0], some false⟩ := by
  unfold postDelayedTask TimeDelta.isZero
  exact if_neg (by rwa [beq_iff_eq])

/-- **A call accounts for its task, however long the sleep and the start of the thread take, exactly
when the delay is zero, or the thread is created and the delay is a whole number of milliseconds or
negative, or an assertion stops the process.** -/
theorem postDelayedTask_iff (asserts succeeds : Bool) (fromHere : Location) (task : Task)
    (delay : TimeDelta) :
    (∀ nanosleep attempt, attempt.succeeds = succeeds → Accounts fromHere task delay
      (postDelayedTask asserts nanosleep attempt fromHere task delay)) ↔
      delay.us = 0 ∨ (succeeds = true ∧ WholeDelay delay) ∨
        (succeeds = false ∧ asserts = true) := by
  by_cases hzero : delay.us = 0
  · refine iff_of_true (fun nanosleep attempt _ => ?_) (.inl hzero)
    rw [postDelayedTask_zero asserts nanosleep attempt hzero]
    refine ⟨fun _ => ⟨_, rfl, rfl, rfl, ?_⟩, fun hfalse => ?_⟩
    · rw [hzero]
      exact Int.le_refl 0
    · cases hfalse
  constructor
  · intro haccounts
    right
    cases succeeds with
    | true =>
      refine .inl ⟨rfl, ?_⟩
      by_contra hwhole
      -- the sleep ends at once, and so does the start of the thread
      have hearly := (haccounts promptSleep (.created 0) rfl).accepted
      rw [postDelayedTask_delayed _ _ _ hzero] at hearly
      obtain ⟨t, ht, -, -, htime⟩ := hearly rfl
      obtain rfl := List.singleton_inj.mp ht
      exact absurd htime (Int.not_le.mpr (destroy_early hwhole))
    | false =>
      refine .inr ⟨rfl, ?_⟩
      cases asserts with
      | true => rfl
      | false =>
        have hrefused := (haccounts promptSleep .failed rfl).refused
        rw [postDelayedTask_delayed _ _ _ hzero] at hrefused
        cases hrefused rfl
  · rintro (hz | ⟨rfl, hwhole⟩ | ⟨rfl, rfl⟩) nanosleep attempt hattempt
    · exact absurd hz hzero
    · rw [postDelayedTask_delayed _ _ _ hzero]
      cases attempt with
      | created start =>
        refine ⟨fun _ => ⟨_, rfl, rfl, rfl, destroy_time nanosleep start hwhole⟩, fun hfalse => ?_⟩
        cases hfalse
      | failed => cases hattempt
    · rw [postDelayedTask_delayed _ _ _ hzero]
      cases attempt with
      | created start => cases hattempt
      | failed =>
        constructor
        · intro htrue
          cases htrue
        · intro hfalse
          cases hfalse

/-- **A refused task is handed over**: the failure branch deletes the data, whose destructor posts
the task. -/
theorem postDelayedTask_refused :
    ¬ Accounts "caller" 0 (⟨5000, by decide⟩ : TimeDelta)
      (postDelayedTask false promptSleep .failed "caller" 0 ⟨5000, by decide⟩) := by
  intro h
  have hrefused := h.refused (by decide)
  revert hrefused
  decide

end Blinkit.Posix
