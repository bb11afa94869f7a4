import Blinkit.Lib.Transition

/-!
# The references of a request on Windows

Translation of `RequestImpl`, `WinRequest` and `RequestControllerImpl`: the reference count, the
loop of the worker thread and the two ways in which a controller ends.

* `WinRequest` — a request that has been started, with its thread, its controller and the number of
  its references and releases so far.
* `Label` — what one of the parties does next: the thread, WinINet or the owner of the controller.
  Everything that a worker does while it runs is one step, with any result it can have.
* `Safe` — no reference is released that is not held, and the request is destroyed once, when the
  thread and the controller are through with it.

Principal results: `counted_step` (one invariant for every order of steps), `reference_protocol`
and `cancelled_request_released_twice`.
-/

set_option autoImplicit false

namespace Blinkit.Http

open Transition

/-- The error codes of a request. -/
inductive BkError where
  | unknown
  | uri
  | network
  | cancelled
  | forbidden
  deriving DecidableEq

namespace WinRequest

/-- The workers that the thread runs one after the other. -/
inductive ThreadWorker where
  | sendRequest
  | sendBody
  | endRequest
  | queryRequest
  | receiveData
  | requestComplete
  | requestRedirect
  deriving DecidableEq

/-- What a worker returns: an error, or the arguments of `Continue`. -/
inductive Outcome where
  | error (e : BkError)
  | continue_ (nextWorker : Option ThreadWorker) (signal : Bool)
  deriving DecidableEq

/-- The results that a worker can have. -/
def ThreadWorker.outcomes (hasBody : Bool) : ThreadWorker → List Outcome
  | sendRequest =>
    [.error .network, .error .cancelled,
      .continue_ (some (if hasBody then sendBody else endRequest)) true]
  | sendBody =>
    [.error .network, .continue_ (some endRequest) true, .continue_ (some endRequest) false]
  | endRequest =>
    [.error .unknown, .continue_ (some queryRequest) true, .continue_ (some queryRequest) false]
  | queryRequest => [.error .unknown, .continue_ (some receiveData) true]
  | receiveData =>
    [.error .network, .error .cancelled, .continue_ (some requestComplete) true]
  | requestComplete => [.continue_ none true, .continue_ (some requestRedirect) true]
  | requestRedirect => [.error .uri, .error .network, .continue_ (some sendRequest) true]

/-- Where the thread is in `DoThreadWork`. -/
inductive Thread where
  | waiting
  | running (worker : ThreadWorker)
  /-- The loop is left; `RequestFailed` and the release are to come. -/
  | finishing
  | finished
  deriving DecidableEq

/-- Where the owner of the controller is. -/
inductive Controller where
  /-- `BkPerformRequest` was not asked for a controller. -/
  | absent
  | held
  /-- In `Cancel`, the event is set. -/
  | cancelling
  /-- In `delete this`. -/
  | deleting
  | gone
  deriving DecidableEq

end WinRequest

/-- A request. `references` and `releases` count what was taken and what was given back,
`destroyed` how often `delete this` was reached. -/
structure WinRequest where
  refCount : UInt32
  hEvent : Bool
  hEventCancel : Option Bool
  nextWorker : Option WinRequest.ThreadWorker
  errorCode : Option BkError
  hasBody : Bool
  thread : WinRequest.Thread
  controller : WinRequest.Controller
  references : Nat
  releases : Nat
  destroyed : Nat
  deriving DecidableEq

namespace WinRequest

/-- The constructor of `WinRequest`. -/
def create (hasBody : Bool) : WinRequest where
  refCount := 1
  hEvent := false
  hEventCancel := none
  nextWorker := none
  errorCode := none
  hasBody
  thread := .waiting
  controller := .absent
  references := 1
  releases := 0
  destroyed := 0

/-- `WinRequest::GetController`. -/
def getController (r : WinRequest) : WinRequest :=
  { r with
    hEventCancel := some false
    refCount := r.refCount + 1
    references := r.references + 1
    controller := .held }

/-- `WinRequest::Continue`. -/
def continueWith (r : WinRequest) (nextWorker : Option ThreadWorker) (signal : Bool) :
    WinRequest :=
  { r with nextWorker, hEvent := r.hEvent || signal }

/-- `BkPerformRequest` when nothing fails: the thread has been created and waits. -/
def started (hasController hasBody : Bool) : WinRequest :=
  let r := create hasBody
  let r := if hasController then r.getController else r
  r.continueWith (some .sendRequest) true

/-- `RequestImpl::Release`. -/
def release (r : WinRequest) : WinRequest :=
  let refCount := r.refCount - 1
  { r with
    refCount
    releases := r.releases + 1
    destroyed := if refCount = 0 then r.destroyed + 1 else r.destroyed }

inductive Label where
  /-- `WaitForIOPending` returns, and the round goes on to its worker or leaves the loop. -/
  | wake
  /-- The worker returns. -/
  | work (o : Outcome)
  /-- The end of `DoThreadWork`. -/
  | finish
  /-- `StatusCallback` for `INTERNET_STATUS_REQUEST_COMPLETE`. -/
  | statusCallback (failed : Bool)
  /-- `RequestControllerImpl::Release`, up to the destructor. -/
  | releaseController
  /-- `RequestControllerImpl::CancelWork`, up to the release in `WinRequest::Cancel`. -/
  | cancelWork
  /-- The rest of `WinRequest::Cancel`. -/
  | cancelRelease
  /-- The destructor of the controller. -/
  | destroyController
  deriving DecidableEq

/-- The round of `DoThreadWork` behind the wait. -/
def round (r : WinRequest) : WinRequest :=
  match r.errorCode, r.nextWorker with
  | some _, _ | none, none => { r with thread := .finishing }
  | none, some worker => { r with nextWorker := none, thread := .running worker }

/-- `WinRequest::WaitForIOPending`: `m_hEvent` comes first and is reset. -/
def wake (r : WinRequest) : Option WinRequest :=
  if r.hEvent then some { r with hEvent := false }.round
  else if r.hEventCancel = some true then
    some { r with errorCode := some .cancelled, thread := .finishing }
  else none

/-- What follows the return of a worker. -/
def work (r : WinRequest) : Outcome → WinRequest
  | .error e => { r with errorCode := some e, thread := .finishing }
  | .continue_ nextWorker signal =>
    { r.continueWith nextWorker signal with thread := .waiting }

/-- One step, where the party that makes it can. -/
def next (r : WinRequest) : Label → Option WinRequest
  | .wake => if r.thread = .waiting then r.wake else none
  | .work o =>
    match r.thread with
    | .running worker => if o ∈ worker.outcomes r.hasBody then some (r.work o) else none
    | _ => none
  | .finish =>
    if r.thread = .finishing then some { r.release with thread := .finished } else none
  | .statusCallback failed =>
    if r.thread = .finished then none
    else some { r with
      errorCode := if failed then some .network else r.errorCode
      hEvent := true }
  | .releaseController =>
    if r.controller = .held then some { r with controller := .deleting } else none
  | .cancelWork =>
    if r.controller = .held then
      some { r with hEventCancel := some true, controller := .cancelling }
    else none
  | .cancelRelease =>
    if r.controller = .cancelling then some { r.release with controller := .deleting } else none
  | .destroyController =>
    if r.controller = .deleting then some { r.release with controller := .gone } else none

/-! ## What the protocol asks for -/

/-- The thread and the controller are through with the request. -/
def Finished (r : WinRequest) : Prop :=
  r.thread = .finished ∧ (r.controller = .absent ∨ r.controller = .gone)

instance (r : WinRequest) : Decidable r.Finished := inferInstanceAs (Decidable (_ ∧ _))

/-- **The reference protocol.** -/
structure Safe (r : WinRequest) : Prop where
  held : r.releases ≤ r.references
  once : r.destroyed ≤ 1
  late : 0 < r.destroyed → r.Finished
  done : r.Finished → r.destroyed = 1

/-! ## Counting -/

/-- The releases of the thread. -/
def Thread.releases : Thread → Nat
  | finished => 1
  | _ => 0

/-- The releases on the side of the controller. -/
def Controller.releases (cancelled : Bool) : Controller → Nat
  | deleting => if cancelled then 1 else 0
  | gone => if cancelled then 2 else 1
  | _ => 0

/-- `Cancel` has been called. -/
def cancelled (r : WinRequest) : Bool := r.hEventCancel == some true

/-- **What the counters say, in whatever order the parties come.** -/
structure Counted (r : WinRequest) : Prop where
  references : r.references = if r.controller = .absent then 1 else 2
  releases : r.releases = r.thread.releases + r.controller.releases r.cancelled
  refCount : r.refCount = UInt32.ofNat r.references - UInt32.ofNat r.releases
  destroyed : r.destroyed = if r.references ≤ r.releases then 1 else 0
  /-- Who cancels has a controller, and no longer holds it. -/
  cancel : r.cancelled = true → r.controller ≠ .absent ∧ r.controller ≠ .held
  cancelling : r.controller = .cancelling → r.cancelled = true

theorem counted_started (hasController hasBody : Bool) : Counted (started hasController hasBody) := by
  cases hasController <;> cases hasBody <;> constructor <;> decide

variable {r r' : WinRequest} {a : Label}

/-- What a step leaves alone that releases nothing. -/
theorem Counted.congr (c : Counted r) (href : r'.references = r.references)
    (hrel : r'.releases = r.releases) (hcount : r'.refCount = r.refCount)
    (hdes : r'.destroyed = r.destroyed) (hcon : r'.controller = r.controller)
    (hcan : r'.cancelled = r.cancelled) (hthr : r'.thread.releases = r.thread.releases) :
    Counted r' where
  references := by rw [href, hcon, c.references]
  releases := by rw [hrel, hthr, hcon, hcan, c.releases]
  refCount := by rw [hcount, href, hrel, c.refCount]
  destroyed := by rw [hdes, href, hrel, c.destroyed]
  cancel := by rw [hcan, hcon]; exact c.cancel
  cancelling := by rw [hcan, hcon]; exact c.cancelling

/-- The counter and the destruction behind a release, as long as the counter has not run around. -/
theorem release_counts {references releases : Nat} {refCount : UInt32} {destroyed : Nat}
    (href : references = 1 ∨ references = 2) (hrel : releases ≤ 2)
    (hcount : refCount = UInt32.ofNat references - UInt32.ofNat releases)
    (hdes : destroyed = if references ≤ releases then 1 else 0) :
    refCount - 1 = UInt32.ofNat references - UInt32.ofNat (releases + 1) ∧
      (if refCount - 1 = 0 then destroyed + 1 else destroyed) =
        if references ≤ releases + 1 then 1 else 0 := by
  have hcases : releases = 0 ∨ releases = 1 ∨ releases = 2 := by omega
  subst hcount
  subst hdes
  rcases href with rfl | rfl <;> rcases hcases with rfl | rfl | rfl <;> decide

theorem Thread.releases_le (t : Thread) : t.releases ≤ 1 := by cases t <;> simp [releases]

theorem Controller.releases_le (k : Controller) (cancelled : Bool) :
    k.releases cancelled ≤ 2 := by
  cases k <;> cases cancelled <;> decide

/-- One party gives back one reference. -/
theorem Counted.release (c : Counted r) {t : Thread} {k : Controller}
    (habsent : k = .absent ↔ r.controller = .absent)
    (hone : t.releases + k.releases r.cancelled =
      r.thread.releases + r.controller.releases r.cancelled + 1)
    (hbound : r.thread.releases + r.controller.releases r.cancelled ≤ 2)
    (hcancel : r.cancelled = true → k ≠ .absent ∧ k ≠ .held)
    (hcancelling : k = .cancelling → r.cancelled = true) :
    Counted { r.release with thread := t, controller := k } := by
  have hreferences : r.references = 1 ∨ r.references = 2 := by
    rw [c.references]
    split
    · exact .inl rfl
    · exact .inr rfl
  obtain ⟨h₁, h₂⟩ := release_counts hreferences (c.releases ▸ hbound) c.refCount c.destroyed
  refine ⟨?_, ?_, h₁, h₂, hcancel, hcancelling⟩
  · show r.references = if k = .absent then 1 else 2
    rw [c.references]
    simp only [habsent]
  · show r.releases + 1 = t.releases + k.releases r.cancelled
    rw [hone, c.releases]

/-- **Every step keeps the count.** -/
theorem counted_step (c : Counted r) (h : r.next a = some r') : Counted r' := by
  cases a with
  | wake =>
    simp only [next] at h
    split at h
    · rename_i hthread
      unfold wake at h
      split at h
      · obtain rfl := Option.some.inj h
        unfold round
        split <;> exact c.congr rfl rfl rfl rfl rfl rfl (by rw [hthread]; rfl)
      · split at h
        · obtain rfl := Option.some.inj h
          exact c.congr rfl rfl rfl rfl rfl rfl (by rw [hthread]; rfl)
        · cases h
    · cases h
  | work o =>
    simp only [next] at h
    split at h
    · rename_i worker hthread
      split at h
      · obtain rfl := Option.some.inj h
        cases o <;> exact c.congr rfl rfl rfl rfl rfl rfl (by rw [hthread]; rfl)
      · cases h
    · cases h
  | finish =>
    simp only [next] at h
    split at h
    · rename_i hthread
      obtain rfl := Option.some.inj h
      have hzero : r.thread.releases = 0 := by rw [hthread]; rfl
      refine c.release (t := .finished) (k := r.controller) Iff.rfl ?_ ?_ c.cancel c.cancelling
      · show 1 + r.controller.releases r.cancelled = _
        omega
      · have := r.controller.releases_le r.cancelled
        omega
    · cases h
  | statusCallback failed =>
    simp only [next] at h
    split at h
    · cases h
    · obtain rfl := Option.some.inj h
      exact c.congr rfl rfl rfl rfl rfl rfl rfl
  | releaseController =>
    simp only [next] at h
    split at h
    · rename_i hheld
      obtain rfl := Option.some.inj h
      have hcan : r.cancelled = false := Bool.eq_false_iff.mpr fun ht => (c.cancel ht).2 hheld
      have hrel := c.releases
      have href := c.references
      rw [hheld, hcan] at hrel
      rw [hheld] at href
      refine ⟨href, ?_, c.refCount, c.destroyed, fun ht => ?_, fun hc => nomatch hc⟩
      · show r.releases = r.thread.releases + Controller.deleting.releases r.cancelled
        rw [hrel, hcan]
        rfl
      · have ht : r.cancelled = true := ht
        rw [hcan] at ht
        cases ht
    · cases h
  | cancelWork =>
    simp only [next] at h
    split at h
    · rename_i hheld
      obtain rfl := Option.some.inj h
      have hrel := c.releases
      have href := c.references
      rw [hheld] at hrel href
      exact ⟨href, hrel, c.refCount, c.destroyed, fun _ => ⟨nofun, nofun⟩, fun _ => rfl⟩
    · cases h
  | cancelRelease =>
    simp only [next] at h
    split at h
    · rename_i hcon
      obtain rfl := Option.some.inj h
      have hcan := c.cancelling hcon
      have hthread := r.thread.releases_le
      refine c.release (k := .deleting) (by rw [hcon]; decide) ?_ ?_ (fun _ => by decide) nofun
      · rw [hcon, hcan]
        rfl
      · rw [hcon, hcan]
        show _ + 0 ≤ 2
        omega
    · cases h
  | destroyController =>
    simp only [next] at h
    split at h
    · rename_i hcon
      obtain rfl := Option.some.inj h
      have hthread := r.thread.releases_le
      refine c.release (k := .gone) (by rw [hcon]; decide) ?_ ?_ (fun _ => by decide) nofun
      · rw [hcon]
        cases r.cancelled <;> rfl
      · rw [hcon]
        have hone : Controller.deleting.releases r.cancelled ≤ 1 := by
          cases r.cancelled <;> decide
        omega
    · cases h

/-! ## Runs -/

/-- As long as nobody has cancelled, the count is in order. -/
theorem Counted.safe (c : Counted r) (hcan : r.cancelled = false) : Safe r := by
  have hrel := c.releases
  have href := c.references
  have hdes := c.destroyed
  have hthread := r.thread.releases_le
  rw [hcan] at hrel
  have hfinished : r.Finished ↔ r.references ≤ r.releases := by
    unfold Finished
    rw [hrel, href]
    cases ht : r.thread <;> cases hc : r.controller <;>
      simp [Thread.releases, Controller.releases]
  refine ⟨?_, ?_, fun hpos => ?_, fun hf => ?_⟩
  · rw [hrel, href]
    cases hc : r.controller <;> simp only [Controller.releases] <;> simp <;> omega
  · rw [hdes]
    split <;> omega
  · rw [hdes] at hpos
    split at hpos
    · rename_i hle
      exact hfinished.mpr hle
    · exact absurd hpos (Nat.lt_irrefl 0)
  · rw [hdes, if_pos (hfinished.mp hf)]

/-- Who has cancelled has released twice, and the thread releases as well. -/
theorem Counted.not_safe (c : Counted r) (hcan : r.cancelled = true) (hf : r.Finished) :
    ¬ Safe r := by
  intro s
  have hrel := c.releases
  have href := c.references
  have hheld := s.held
  obtain ⟨hthread, habsent | hgone⟩ := hf
  · exact (c.cancel hcan).1 habsent
  · rw [hthread, hgone, hcan] at hrel
    rw [hgone] at href
    have hrel : r.releases = 3 := hrel
    have href : r.references = 2 := href
    omega

theorem next_cancelled (h : r.next a = some r') :
    r'.cancelled = (r.cancelled || a == .cancelWork) := by
  cases a <;> simp only [next] at h
  case wake =>
    split at h
    · unfold wake at h
      split at h
      · obtain rfl := Option.some.inj h
        unfold round
        split <;> exact (Bool.or_false _).symm
      · split at h
        · obtain rfl := Option.some.inj h
          exact (Bool.or_false _).symm
        · cases h
    · cases h
  case work o =>
    split at h
    · split at h
      · obtain rfl := Option.some.inj h
        cases o <;> exact (Bool.or_false _).symm
      · cases h
    · cases h
  case cancelWork =>
    split at h
    · obtain rfl := Option.some.inj h
      exact (Bool.or_true _).symm
    · cases h
  case statusCallback =>
    split at h
    · cases h
    · obtain rfl := Option.some.inj h
      exact (Bool.or_false _).symm
  all_goals
    split at h
    · obtain rfl := Option.some.inj h
      exact (Bool.or_false _).symm
    · cases h

theorem run_cancelled {labels : List Label} {us : List Unit}
    (hrun : run (machine next) r labels = .ok (r', us)) :
    r'.cancelled = (r.cancelled || labels.contains .cancelWork) := by
  induction labels generalizing r us with
  | nil =>
    cases hrun
    simp
  | cons a labels ih =>
    unfold run at hrun
    split at hrun
    · cases hrun
    · rename_i r₁ u ha
      split at hrun
      · cases hrun
      · rename_i r₂ us₂ htail
        cases hrun
        rw [ih htail, next_cancelled (machine_eq_ok ha), Bool.or_assoc, List.contains_cons]
        congr 2
        exact Bool.beq_comm

/-- **A run keeps to the protocol as long as nobody cancels, and a run that has come to its end
has kept to it only if nobody has cancelled.** -/
theorem reference_protocol (hasController hasBody : Bool) (labels : List Label) :
    (.cancelWork ∉ labels → Always (machine next) Safe True (started hasController hasBody) labels) ∧
      ∀ r us, run (machine next) (started hasController hasBody) labels = .ok (r, us) → r.Finished →
        (Always (machine next) Safe True (started hasController hasBody) labels ↔ .cancelWork ∉ labels) := by
  have hstart : (started hasController hasBody).cancelled = false := by
    cases hasController <;> rfl
  have hsafe (hnot : .cancelWork ∉ labels) :
      Always (machine next) Safe True (started hasController hasBody) labels := by
    refine always_machine (I := fun r => Counted r ∧ r.cancelled = false)
      (G := fun _ a => a ≠ .cancelWork) (fun r hr => hr.1.safe hr.2) ?_
      ⟨counted_started hasController hasBody, hstart⟩
      (allowed_of_forall fun a ha _ => ne_of_mem_of_not_mem ha hnot)
    rintro r a r' ⟨c, hcan⟩ hne hr
    refine ⟨counted_step c hr, ?_⟩
    rw [next_cancelled hr, hcan]
    simpa using hne
  refine ⟨hsafe, fun r us hrun hf => ⟨fun hall hmem => ?_, hsafe⟩⟩
  have hcounted : Counted r := machine_invariant (fun _ _ _ c hr => counted_step c hr)
    (counted_started hasController hasBody) hrun
  refine hcounted.not_safe ?_ hf (hall.last hrun)
  rw [run_cancelled hrun, hstart]
  simpa using hmem

/-- The owner cancels, the thread notices it and ends. -/
def cancelledRun : List Label :=
  [.cancelWork, .cancelRelease, .destroyController, .wake, .work (.error .cancelled), .finish]

/-- **The releases of `Cancel` and of the destructor destroy the request while its thread is still
running.** -/
theorem cancelled_request_released_twice :
    ¬ Always (machine next) Safe True (started true false) cancelledRun := by
  intro h
  have hsafe := h.2.2.2.1
  exact absurd (hsafe.late (by decide)) (by decide)

end WinRequest

end Blinkit.Http
