import Blinkit.Http.WinRequest

/-!
# The outcome of a loader task

Translation of `HTTPLoaderTask`: the answer of the request, the decision of the crawler through
the controller, and the notifications of the client.

* `HTTPLoaderTask` — the task, what it has posted to the main loop, the calls of `DoContinue` that
  are under way and what the client has been told.
* `Label` — what comes next: the request, the main loop, a notification, the crawler's callback or
  a call of the controller, from inside the callback or at any later time.
* `Outcome` — one terminal notification, behind the response in the case of success, and one
  deletion.
* `Decisive` — the crawler lets the task continue once and leaves the controller alone afterwards.

Principal results: `good_next`, `loader_outcome` and `cancelled_load_hangs`.
-/

set_option autoImplicit false

namespace Blinkit.Http

open Transition

/-- `blink::HijackType`. -/
inductive HijackType where
  | notForCrawler
  | mainHTML
  | script
  | other
  deriving DecidableEq

namespace HTTPLoaderTask

/-- A call of the loader's client. -/
inductive Notification where
  | didReceiveResponse
  | didReceiveData
  | didFinishLoading
  | didFail (error : BkError)
  deriving DecidableEq

/-- A statement of `DoContinue`. -/
inductive Statement where
  | notify (n : Notification)
  | deleteThis
  deriving DecidableEq

/-- The statements of `DoContinue`. -/
def continueBody : List Statement :=
  [.notify .didReceiveResponse, .notify .didReceiveData, .notify .didFinishLoading, .deleteThis]

/-- What the task posts to the main loop. -/
inductive Posted where
  | doContinue
  | processRequestComplete
  | errorWorker (error : BkError)
  deriving DecidableEq

/-- Where the request is. -/
inductive Request where
  | none
  | inFlight
  | ended
  deriving DecidableEq

/-- A call of the controller. -/
inductive Decision where
  | continueWorking
  | cancelWork
  | release
  deriving DecidableEq

end HTTPLoaderTask

structure HTTPLoaderTask where
  hijackType : HijackType
  callingCrawler : Bool
  cancel : Option Bool
  request : HTTPLoaderTask.Request
  posted : List HTTPLoaderTask.Posted
  /-- The calls of `DoContinue` under way, the innermost first, with what is left of each. -/
  continuing : List (List HTTPLoaderTask.Statement)
  notifications : List HTTPLoaderTask.Notification
  /-- `Run` has been called. -/
  run : Bool
  /-- The crawler has the controller. -/
  handedOut : Bool
  /-- The crawler has decided. -/
  answered : Bool
  deleted : Nat
  usedAfterDelete : Bool
  deriving DecidableEq

namespace HTTPLoaderTask

/-- The constructor. -/
def create (hijackType : HijackType) : HTTPLoaderTask where
  hijackType
  callingCrawler := false
  cancel := none
  request := .none
  posted := []
  continuing := []
  notifications := []
  run := false
  handedOut := false
  answered := false
  deleted := 0
  usedAfterDelete := false

inductive Label where
  /-- `Run`, when the crawler does or does not hijack a script, with the result of `Perform`. -/
  | run (hijacks : Bool) (error : Option BkError)
  | requestComplete
  | requestFailed (error : BkError)
  /-- The main loop runs what was posted first. -/
  | runPosted
  /-- The next statement of the innermost `DoContinue`. -/
  | statement
  | controller (d : Decision)
  /-- The crawler returns from its callback. -/
  | callbackReturns
  deriving DecidableEq

/-- `DoContinue` is called. -/
def doContinue (t : HTTPLoaderTask) : HTTPLoaderTask :=
  { t with continuing := continueBody :: t.continuing }

/-- `DoCancel` is a stub. -/
def doCancel (t : HTTPLoaderTask) : HTTPLoaderTask := t

/-- `Run`. An error goes to `LoadAsynchronously`, which reports it. -/
def start (t : HTTPLoaderTask) (hijacks : Bool) (error : Option BkError) : HTTPLoaderTask :=
  let t := { t with run := true }
  -- `ProcessHijackRequest`
  if t.hijackType = .script ∧ hijacks = true then { t with posted := t.posted ++ [.doContinue] }
  else
    match error with
    | none => { t with request := .inFlight }
    | some error => { t with posted := t.posted ++ [.errorWorker error] }

/-- `ProcessRequestComplete`, up to the callback of the crawler. -/
def processRequestComplete (t : HTTPLoaderTask) : HTTPLoaderTask :=
  -- `ProcessHijackResponse`
  if t.hijackType = .mainHTML then { t with callingCrawler := true, handedOut := true }
  else t.doContinue

/-- `ProcessRequestComplete`, behind the callback. -/
def callbackReturns (t : HTTPLoaderTask) : HTTPLoaderTask :=
  let t := { t with callingCrawler := false, answered := t.cancel.isSome }
  match t.cancel with
  | none => t
  | some true => t.doCancel
  | some false => t.doContinue

/-- A member of the task is used. -/
def use (t : HTTPLoaderTask) : HTTPLoaderTask :=
  if 0 < t.deleted then { t with usedAfterDelete := true } else t

/-- `CancelWork`, `ContinueWorking` and `Release`, which is `CancelWork`. -/
def controllerCall (t : HTTPLoaderTask) : Decision → HTTPLoaderTask
  | .continueWorking =>
    if t.callingCrawler then { t with cancel := some false }
    else { t with answered := true }.doContinue
  | .cancelWork | .release =>
    if t.callingCrawler then { t with cancel := some true }
    else { t with answered := true }.doCancel

/-- A statement of `DoContinue`. -/
def exec (t : HTTPLoaderTask) : Statement → HTTPLoaderTask
  | .notify n => { t with notifications := t.notifications ++ [n] }
  | .deleteThis => { t with deleted := t.deleted + 1 }

/-- What the main loop runs. `ErrorWorker` has no task. -/
def runPosted (t : HTTPLoaderTask) : Posted → HTTPLoaderTask
  | .doContinue => t.use.doContinue
  | .processRequestComplete => t.use.processRequestComplete
  | .errorWorker error => { t with notifications := t.notifications ++ [.didFail error] }

/-- One step, where it can be made. -/
def next (t : HTTPLoaderTask) : Label → Option HTTPLoaderTask
  | .run hijacks error => if t.run then none else some (t.start hijacks error)
  | .requestComplete =>
    if t.request = .inFlight then
      some { t.use with request := .ended, posted := t.posted ++ [.processRequestComplete] }
    else none
  | .requestFailed error =>
    if t.request = .inFlight then
      some { t.use with
        request := .ended
        posted := t.posted ++ [.errorWorker error]
        deleted := t.deleted + 1 }
    else none
  | .runPosted =>
    match t.posted, t.continuing, t.callingCrawler with
    | p :: posted, [], false => some ({ t with posted }.runPosted p)
    | _, _, _ => none
  | .statement =>
    match t.continuing, t.callingCrawler with
    | (s :: []) :: calls, false => some ({ t.use with continuing := calls }.exec s)
    | (s :: body) :: calls, false => some ({ t.use with continuing := body :: calls }.exec s)
    | _, _ => none
  | .controller d => if t.handedOut then some (t.use.controllerCall d) else none
  | .callbackReturns => if t.callingCrawler then some t.use.callbackReturns else none

/-! ## What the protocol asks for -/

/-- The notifications of a load that succeeds. -/
def success : List Notification := [.didReceiveResponse, .didReceiveData, .didFinishLoading]

/-- Nothing is left to do, and the crawler, if it was asked, has decided. -/
structure Settled (t : HTTPLoaderTask) : Prop where
  run : t.run = true
  request : t.request ≠ .inFlight
  posted : t.posted = []
  continuing : t.continuing = []
  callingCrawler : t.callingCrawler = false
  answered : t.handedOut = true → t.answered = true

/-- **The outcome protocol.** -/
structure Outcome (t : HTTPLoaderTask) : Prop where
  alive : t.usedAfterDelete = false
  once : t.deleted ≤ 1
  order : t.notifications <+: success ∨ ∃ error, t.notifications <+: [.didFail error]
  settled : t.Settled → t.deleted = 1 ∧
    (t.notifications = success ∨ ∃ error, t.notifications = [.didFail error])

/-- The request is performed, and the crawler lets the task continue: with its last word inside the
callback, or with the first word behind it. Later it does not touch the controller, but it may
cancel in vain while the client is being told. -/
def Decisive (t : HTTPLoaderTask) : Label → Prop
  | .run hijacks error => error = none ∨ (t.hijackType = .script ∧ hijacks = true)
  | .callbackReturns => t.cancel ≠ some true
  | .controller .continueWorking => t.callingCrawler = true ∨ t.answered = false
  | .controller _ => t.callingCrawler = true ∨ t.continuing ≠ []
  | _ => True

/-! ## The protocol as an automaton -/

/-- How far `DoContinue` is. -/
inductive Stage where
  | response
  | data
  | finish
  | delete
  deriving DecidableEq

/-- What is left of `DoContinue`. -/
def Stage.left : Stage → List Statement
  | response => continueBody
  | data => [.notify .didReceiveData, .notify .didFinishLoading, .deleteThis]
  | finish => [.notify .didFinishLoading, .deleteThis]
  | delete => [.deleteThis]

/-- What the client has been told. -/
def Stage.told : Stage → List Notification
  | response => []
  | data => [.didReceiveResponse]
  | finish => [.didReceiveResponse, .didReceiveData]
  | delete => success

/-- The states of a task whose crawler is decisive. -/
inductive Config where
  | created
  | inFlight
  /-- The script was hijacked, `DoContinue` is posted. -/
  | hijacked
  | completed
  /-- In the callback of the crawler, with the last word so far. -/
  | calling (cancel : Option Bool)
  /-- The callback has returned without a decision. -/
  | awaiting
  | continuing (request : Bool) (cancel : Option Bool) (handedOut : Bool) (stage : Stage)
  | done (request : Bool) (cancel : Option Bool) (handedOut : Bool)
  | failing (error : BkError)
  | failed (error : BkError)
  deriving DecidableEq

/-- The task in a state of the automaton. -/
def Config.state (hijackType : HijackType) : Config → HTTPLoaderTask
  | created => create hijackType
  | inFlight => { create hijackType with run := true, request := .inFlight }
  | hijacked => { create hijackType with run := true, posted := [.doContinue] }
  | completed =>
    { create hijackType with run := true, request := .ended, posted := [.processRequestComplete] }
  | calling cancel =>
    { create hijackType with
      run := true, request := .ended, callingCrawler := true, handedOut := true, cancel }
  | awaiting => { create hijackType with run := true, request := .ended, handedOut := true }
  | continuing request cancel handedOut stage =>
    { create hijackType with
      run := true
      request := if request then .ended else .none
      cancel, handedOut
      answered := handedOut
      continuing := [stage.left]
      notifications := stage.told }
  | done request cancel handedOut =>
    { create hijackType with
      run := true
      request := if request then .ended else .none
      cancel, handedOut
      answered := handedOut
      notifications := success
      deleted := 1 }
  | failing error =>
    { create hijackType with
      run := true, request := .ended, posted := [.errorWorker error], deleted := 1 }
  | failed error =>
    { create hijackType with
      run := true, request := .ended, notifications := [.didFail error], deleted := 1 }

/-- The steps of the automaton. -/
def Config.next (hijackType : HijackType) : Config → Label → Option Config
  | created, .run hijacks _ =>
    some (if hijackType = .script ∧ hijacks = true then hijacked else inFlight)
  | inFlight, .requestComplete => some completed
  | inFlight, .requestFailed error => some (failing error)
  | hijacked, .runPosted => some (continuing false none false .response)
  | completed, .runPosted =>
    some (if hijackType = .mainHTML then calling none else continuing true none false .response)
  | calling _, .controller .continueWorking => some (calling (some false))
  | calling _, .controller _ => some (calling (some true))
  | calling none, .callbackReturns => some awaiting
  | calling (some _), .callbackReturns => some (continuing true (some false) true .response)
  | awaiting, .controller _ => some (continuing true none true .response)
  | continuing request cancel true stage, .controller _ =>
    some (continuing request cancel true stage)
  | continuing request cancel handedOut .response, .statement =>
    some (continuing request cancel handedOut .data)
  | continuing request cancel handedOut .data, .statement =>
    some (continuing request cancel handedOut .finish)
  | continuing request cancel handedOut .finish, .statement =>
    some (continuing request cancel handedOut .delete)
  | continuing request cancel handedOut .delete, .statement =>
    some (done request cancel handedOut)
  | failing error, .runPosted => some (failed error)
  | _, _ => none

/-- **The task of a decisive crawler simulates the automaton.** -/
theorem next_state {hijackType : HijackType} {c : Config} {a : Label}
    (h : (c.state hijackType).Decisive a) :
    (c.state hijackType).next a = (c.next hijackType a).map (Config.state hijackType) := by
  cases c with
  | created =>
    cases a with
    | run hijacks error =>
      by_cases hhijack : hijackType = .script ∧ hijacks = true
      · simp only [Config.next, if_pos hhijack]
        exact congrArg some (if_pos hhijack)
      · obtain rfl := h.resolve_right hhijack
        simp only [Config.next, if_neg hhijack]
        exact congrArg some (if_neg hhijack)
    | _ => rfl
  | completed =>
    cases a with
    | runPosted =>
      by_cases hmain : hijackType = .mainHTML
      · subst hmain
        rfl
      · simp only [Config.next, if_neg hmain]
        exact congrArg some (if_neg hmain)
    | _ => rfl
  | inFlight | hijacked | failing => cases a <;> rfl
  | failed => cases a <;> rfl
  | calling cancel =>
    cases a with
    | controller d => cases d <;> rfl
    | callbackReturns =>
      cases cancel with
      | none => rfl
      | some b =>
        cases b with
        | false => rfl
        | true => exact absurd rfl h
    | _ => rfl
  | awaiting =>
    cases a with
    | controller d =>
      cases d with
      | continueWorking => rfl
      | cancelWork | release =>
        rcases h with hc | hc
        · cases hc
        · exact absurd rfl hc
    | _ => rfl
  | continuing request cancel handedOut stage =>
    cases a with
    | controller d =>
      cases handedOut with
      | false => cases stage <;> rfl
      | true =>
        cases d with
        | continueWorking =>
          rcases h with hc | hc <;> cases hc
        | cancelWork | release => rfl
    | statement => cases handedOut <;> cases stage <;> rfl
    | runPosted => cases handedOut <;> cases stage <;> rfl
    | _ => cases request <;> cases handedOut <;> cases stage <;> rfl
  | done request cancel handedOut =>
    cases a with
    | controller d =>
      cases handedOut with
      | false => rfl
      | true =>
        cases d with
        | continueWorking =>
          rcases h with hc | hc <;> cases hc
        | cancelWork | release =>
          rcases h with hc | hc
          · cases hc
          · exact absurd rfl hc
    | _ => cases request <;> rfl

/-- Every state of the automaton has the outcome. -/
theorem Config.outcome (hijackType : HijackType) (c : Config) : Outcome (c.state hijackType) := by
  have hnil : [] <+: success := List.nil_prefix
  cases c with
  | created => exact ⟨rfl, Nat.zero_le 1, .inl hnil, fun s => nomatch s.run⟩
  | inFlight => exact ⟨rfl, Nat.zero_le 1, .inl hnil, fun s => absurd rfl s.request⟩
  | hijacked | completed => exact ⟨rfl, Nat.zero_le 1, .inl hnil, fun s => nomatch s.posted⟩
  | calling => exact ⟨rfl, Nat.zero_le 1, .inl hnil, fun s => nomatch s.callingCrawler⟩
  | awaiting => exact ⟨rfl, Nat.zero_le 1, .inl hnil, fun s => nomatch s.answered rfl⟩
  | continuing request cancel handedOut stage =>
    refine ⟨rfl, Nat.zero_le 1, .inl ?_, fun s => nomatch s.continuing⟩
    cases stage
    · exact ⟨success, rfl⟩
    · exact ⟨[.didReceiveData, .didFinishLoading], rfl⟩
    · exact ⟨[.didFinishLoading], rfl⟩
    · exact ⟨[], rfl⟩
  | done => exact ⟨rfl, Nat.le_refl 1, .inl ⟨[], rfl⟩, fun _ => ⟨rfl, .inl rfl⟩⟩
  | failing error => exact ⟨rfl, Nat.le_refl 1, .inl hnil, fun s => nomatch s.posted⟩
  | failed error =>
    exact ⟨rfl, Nat.le_refl 1, .inr ⟨error, [], rfl⟩, fun _ => ⟨rfl, .inr ⟨error, rfl⟩⟩⟩

/-- **In a run whose crawler is decisive the client gets one outcome and the task is deleted
once.** -/
theorem loader_outcome (hijackType : HijackType) {labels : List Label}
    (hallowed : Allowed (machine next) Decisive (create hijackType) labels) :
    Always (machine next) Outcome True (create hijackType) labels := by
  refine always_machine (I := fun t => ∃ c : Config, t = c.state hijackType) ?_ ?_
    ⟨.created, rfl⟩ hallowed
  · rintro t ⟨c, rfl⟩
    exact c.outcome hijackType
  · rintro t a t' ⟨c, rfl⟩ hG h
    rw [next_state hG] at h
    obtain ⟨c', -, rfl⟩ := Option.map_eq_some_iff.mp h
    exact ⟨c', rfl⟩

/-- The main page, which the crawler accepts inside its callback. -/
theorem accepted_page : Always (machine next) Outcome True (create .mainHTML)
    [.run false none, .requestComplete, .runPosted, .controller .continueWorking,
      .callbackReturns, .statement, .statement, .statement, .statement] :=
  loader_outcome .mainHTML ⟨.inl rfl, trivial, trivial, .inl rfl, nofun, trivial, trivial,
    trivial, trivial, trivial⟩

/-- **A page that the crawler cancels is never answered**: the stub of `DoCancel` tells the client
nothing and deletes nothing. And a second `ContinueWorking` uses the deleted task. -/
theorem cancelled_load_hangs :
    ¬ Always (machine next) Outcome True (create .mainHTML)
      [.run false none, .requestComplete, .runPosted, .controller .cancelWork,
        .callbackReturns] ∧
    ¬ Always (machine next) Outcome True (create .mainHTML)
      [.run false none, .requestComplete, .runPosted, .callbackReturns,
        .controller .continueWorking, .statement, .statement, .statement, .statement,
        .controller .continueWorking] := by
  constructor
  · intro h
    have hout := h.last rfl
    exact absurd (hout.settled ⟨rfl, nofun, rfl, rfl, rfl, fun _ => rfl⟩).1 (by decide)
  · intro h
    have hout := h.last rfl
    exact absurd hout.alive (by decide)

end HTTPLoaderTask

end Blinkit.Http
