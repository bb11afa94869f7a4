import Blinkit.Http.Perform
import Blinkit.Http.ResponseHeaders
import Blinkit.Http.GZipInflate

/-!
# What the client of a request is told

The thread of `WinRequest` again, now with what its workers do. A step of the thread is one call of
WinINet, one wait, one `Continue` or one callback to the client; between two steps WinINet can
deliver a completion and the owner of the controller can cancel.

* `Transfer` — the members that the workers use, what WinINet owes, and the callbacks so far.
* `next` — one step of the thread, of `Perform`, of WinINet or of the owner of the controller.
* `Right` — what the client should be told.
* `CanFinish` — the thread can come to its end.
* `Sound` — what holds at each place of the thread.

WinINet delivers one completion for every call that returned pending and no other. A read gives the
next bytes of the body, and none at its end only.

Principal results: `sound_step`, `terminal_callback`.
-/

set_option autoImplicit false

namespace Blinkit.Http

open Transition WinRequest

/-! ## The thread -/

/-- What a call of WinINet returns. -/
inductive CallResult where
  | success
  | pending
  | failed
  deriving DecidableEq

/-- The callers of `WaitForIOPending`. -/
inductive Wait where
  | doThreadWork
  | sendRequest
  /-- `dwBufferLength` will be `length`. -/
  | receiveData (length : Nat)
  deriving DecidableEq

inductive Phase where
  /-- In `WaitForIOPending`. -/
  | waiting (caller : Wait)
  /-- It has returned. -/
  | woken (caller : Wait) (r : Option BkError)
  | running (worker : ThreadWorker)
  /-- In the loop of `ReceiveData`. -/
  | reading (dwBufferLength : Nat)
  /-- The worker comes to its `return`. -/
  | returning (o : Outcome)
  /-- The loop of `DoThreadWork` is left. -/
  | finishing
  | finished
  deriving DecidableEq

/-- The callbacks to the client; `appended` is what the response had been given. -/
inductive Callback where
  | requestRedirect (followed : Bool)
  | requestComplete (appended body : Bytes)
  | requestFailed (errorCode : BkError)
  deriving DecidableEq

def Callback.isTerminal : Callback → Bool
  | requestRedirect _ => false
  | requestComplete _ _ => true
  | requestFailed _ => true

/-- `performing` until `Perform` has come to its `Continue`, `owed` while a completion is to come;
`served` and `unread` are the body that the server sends and the part that has not been read. -/
structure Transfer where
  performing : Bool := true
  hEvent : Bool := false
  hEventCancel : Bool := false
  nextWorker : Option ThreadWorker := none
  errorCode : Option BkError := none
  response : ResponseImpl := {}
  body : Bytes := []
  phase : Phase := .waiting .doThreadWork
  owed : Bool := false
  served : Bytes := []
  unread : Bytes := []
  callbacks : List Callback := []

def contentEncoding : Str :=
  ['C', 'o', 'n', 't', 'e', 'n', 't', '-', 'E', 'n', 'c', 'o', 'd', 'i', 'n', 'g']

def gzip : Str := ['g', 'z', 'i', 'p']

/-- `ResponseImpl::GetHeader`: an empty value is not found. -/
def ResponseImpl.getHeader (r : ResponseImpl) (name : Str) : Option Str :=
  (r.headers.find name).filter (· ≠ [])

namespace Transfer

/-- `WinRequest::Continue`. -/
def continueWith (t : Transfer) (nextWorker : Option ThreadWorker) (signal : Bool) : Transfer :=
  { t with nextWorker, hEvent := t.hEvent || signal }

/-- `WinRequest::WaitForIOPending`: of two signalled events the first one counts. -/
def waitForIOPending (t : Transfer) (caller : Wait) : Option Transfer :=
  if t.hEvent then some { t with hEvent := false, phase := .woken caller none }
  else if t.hEventCancel then some { t with phase := .woken caller (some .cancelled) }
  else none

/-- A call whose completion the loop of `DoThreadWork` waits for. -/
def callThen (t : Transfer) (nextWorker : ThreadWorker) (e : BkError) : CallResult → Transfer
  | .success => { t with phase := .returning (.continue_ (some nextWorker) true) }
  | .pending => { t with owed := true, phase := .returning (.continue_ (some nextWorker) false) }
  | .failed => { t with phase := .returning (.error e) }

/-- `ReceiveData` behind a read of `length` bytes. -/
def received (t : Transfer) (length : Nat) : Transfer :=
  if length > 0 then
    { t with
      body := t.body ++ t.unread.take length
      unread := t.unread.drop length
      phase := .reading length }
  else { t with phase := .returning (.continue_ (some .requestComplete) true) }

section

variable (hasBody hasRequestRedirect : Bool) (gZipInflate : Bytes → Option Bytes)

/-- `SendRequest` behind its call. -/
def sent (t : Transfer) : Transfer :=
  let nextWorker := if hasBody then ThreadWorker.sendBody else .endRequest
  { t with phase := .returning (.continue_ (some nextWorker) true) }

/-- What follows the return of `WaitForIOPending`. -/
def goOn (t : Transfer) (caller : Wait) (r : Option BkError) : Transfer :=
  match caller, r.or t.errorCode with
  | .doThreadWork, some e => { t with errorCode := some e, phase := .finishing }
  | .doThreadWork, none =>
    match t.nextWorker with
    | none => { t with phase := .finishing }
    | some worker => { t with nextWorker := none, phase := .running worker }
  | .sendRequest, some e => { t with phase := .returning (.error e) }
  | .sendRequest, none => t.sent hasBody
  | .receiveData _, some e => { t with phase := .returning (.error e) }
  | .receiveData length, none => t.received length

/-- The body behind `GZipInflate`, when the response is compressed. -/
def decoded (t : Transfer) (body : Bytes) : Option Bytes :=
  if (t.response.getHeader contentEncoding).any fun v => equalsCaseInsensitiveASCII v gzip then
    gZipInflate body
  else some body

/-- `WinRequest::RequestComplete`; `accepts` is the answer of the client. -/
def requestComplete (t : Transfer) (accepts : Bool) : Option Transfer :=
  (t.decoded gZipInflate t.body).map fun body =>
    if t.response.statusCode = 301 ∨ t.response.statusCode = 302 then
      let followed := !hasRequestRedirect || accepts
      let nextWorker := if followed then some ThreadWorker.requestRedirect else none
      { t with
        body
        callbacks := t.callbacks ++ if hasRequestRedirect then [.requestRedirect accepts] else []
        phase := .returning (.continue_ nextWorker true) }
    else
      { t with
        body
        callbacks := t.callbacks ++ [.requestComplete t.body body]
        phase := .returning (.continue_ none true) }

/-- `WinRequest::RequestRedirect`, with what `OpenRequest` returns. -/
def requestRedirect (t : Transfer) (opened : Option BkError) : Transfer :=
  { t with
    response := t.response.resetForRedirection
    body := []
    errorCode := none
    phase := .returning (match opened with
      | some e => .error e
      | none => .continue_ (some .sendRequest) true) }

/-- The end of `DoThreadWork`. -/
def finish (t : Transfer) : Transfer :=
  { t with
    callbacks := t.callbacks ++ t.errorCode.toList.map .requestFailed
    phase := .finished }

inductive Label where
  /-- `Continue` in `Perform`. -/
  | perform
  /-- `WaitForIOPending` returns. -/
  | wake
  /-- What follows. -/
  | goOn
  /-- `HttpSendRequestEx`, `InternetWriteFile` or `HttpEndRequest`. -/
  | call (r : CallResult)
  /-- `QueryInfo` fails, or gives the header block of a response with the body `served`. -/
  | queryRequest (answer : Option (Str × Bytes))
  /-- `ReceiveData`, up to its loop. -/
  | receiveData
  /-- `InternetReadFileEx`. -/
  | read (r : CallResult) (length : Nat)
  | requestComplete (accepts : Bool)
  | requestRedirect (schemeIsHTTPOrHTTPS connected requestOpened : Bool)
  /-- The worker returns. -/
  | return_
  | finish
  /-- `StatusCallback` for `INTERNET_STATUS_REQUEST_COMPLETE`. -/
  | statusCallback (failed : Bool)
  /-- `WinRequest::Cancel`. -/
  | cancel
  deriving DecidableEq

/-- One step, where the party that makes it can. -/
def next (t : Transfer) : Label → Option Transfer
  | .perform =>
    if t.performing then
      some { t.continueWith (some .sendRequest) true with performing := false }
    else none
  | .wake =>
    match t.phase with
    | .waiting caller => t.waitForIOPending caller
    | _ => none
  | .goOn =>
    match t.phase with
    | .woken caller r => some (t.goOn hasBody caller r)
    | _ => none
  | .call r =>
    match t.phase, r with
    | .running .sendRequest, .success => some (t.sent hasBody)
    | .running .sendRequest, .pending =>
      some { t with owed := true, phase := .waiting .sendRequest }
    | .running .sendRequest, .failed => some { t with phase := .returning (.error .network) }
    | .running .sendBody, r => some (t.callThen .endRequest .network r)
    | .running .endRequest, r => some (t.callThen .queryRequest .unknown r)
    | _, _ => none
  | .queryRequest answer =>
    match t.phase, answer with
    | .running .queryRequest, none => some { t with phase := .returning (.error .unknown) }
    | .running .queryRequest, some (rawHeaders, served) =>
      (t.response.parseHeaders rawHeaders).map fun response =>
        { t with
          response
          served
          unread := served
          phase := .returning (.continue_ (some .receiveData) true) }
    | _, _ => none
  | .receiveData =>
    match t.phase with
    | .running .receiveData => some { t with phase := .reading 1024 }
    | _ => none
  | .read r length =>
    match t.phase, r with
    | .reading _, .failed => some { t with phase := .returning (.error .network) }
    | .reading dwBufferLength, r =>
      if length ≤ dwBufferLength ∧ length ≤ t.unread.length ∧ (length = 0 → t.unread = []) then
        some (if r = .pending then
          { t with owed := true, phase := .waiting (.receiveData length) }
        else t.received length)
      else none
    | _, _ => none
  | .requestComplete accepts =>
    match t.phase with
    | .running .requestComplete => t.requestComplete hasRequestRedirect gZipInflate accepts
    | _ => none
  | .requestRedirect schemeIsHTTPOrHTTPS connected requestOpened =>
    match t.phase with
    | .running .requestRedirect =>
      some (t.requestRedirect (openRequest schemeIsHTTPOrHTTPS connected requestOpened))
    | _ => none
  | .return_ =>
    match t.phase with
    | .returning (.error e) => some { t with errorCode := some e, phase := .finishing }
    | .returning (.continue_ nextWorker signal) =>
      some { t.continueWith nextWorker signal with phase := .waiting .doThreadWork }
    | _ => none
  | .finish =>
    match t.phase with
    | .finishing => some t.finish
    | _ => none
  | .statusCallback failed =>
    if t.owed then
      some { t with
        owed := false
        errorCode := if failed then some .network else t.errorCode
        hEvent := true }
    else none
  | .cancel => some { t with hEventCancel := true }

end

end Transfer

/-! ## What the client should be told -/

namespace Transfer

/-- **The callbacks of a request.** `whole`: what the response had been given is the body of the
final response, and the client is shown it as its header block says. -/
structure Right (gZipInflate : Bytes → Option Bytes) (t : Transfer) : Prop where
  atMostOne : (t.callbacks.filter Callback.isTerminal).length ≤ 1
  last : ∀ before c after, t.callbacks = before ++ c :: after → c.isTerminal = true → after = []
  one : t.phase = .finished → .requestRedirect false ∉ t.callbacks →
    (t.callbacks.filter Callback.isTerminal).length = 1
  whole : ∀ appended body, .requestComplete appended body ∈ t.callbacks →
    appended = t.served ∧ t.decoded gZipInflate t.served = some body

/-- **The thread can come to its end**, with the completions that are owed and no cancellation, or
into a `GZipInflate` that does not return. -/
inductive CanFinish (hasBody hasRequestRedirect : Bool) (gZipInflate : Bytes → Option Bytes) :
    Transfer → Prop where
  | finished {t : Transfer} (hphase : t.phase = .finished) :
    CanFinish hasBody hasRequestRedirect gZipInflate t
  | inflating {t : Transfer} (hphase : t.phase = .running .requestComplete)
    (hbody : t.decoded gZipInflate t.body = none) :
    CanFinish hasBody hasRequestRedirect gZipInflate t
  | step {t t' : Transfer} {a : Label} (ha : a ≠ .cancel)
    (hstep : t.next hasBody hasRequestRedirect gZipInflate a = some t')
    (h : CanFinish hasBody hasRequestRedirect gZipInflate t') :
    CanFinish hasBody hasRequestRedirect gZipInflate t

/-! ## What holds at each place of the thread -/

section Places

variable (gZipInflate : Bytes → Option Bytes) (t : Transfer)

/-- Nothing but redirects that were followed. -/
def Quiet : Prop := ∀ c ∈ t.callbacks, c = .requestRedirect true

/-- The callback that ends the work, for this body. -/
def Ending (c : Callback) : Prop :=
  c = .requestRedirect false ∨
    ∃ body, c = .requestComplete t.served body ∧ t.decoded gZipInflate t.served = some body

/-- The client has been told the end, or has declined a redirect. -/
def Closed : Prop :=
  ∃ before c, t.callbacks = before ++ [c] ∧ (∀ b ∈ before, b = .requestRedirect true) ∧
    t.Ending gZipInflate c

/-- No signal is set, and none is to come. -/
structure Idle : Prop where
  performing : t.performing = false
  hEvent : t.hEvent = false
  owed : t.owed = false

/-- One signal is set or to come. -/
structure Armed : Prop where
  performing : t.performing = false
  one : t.hEvent = true ∧ t.owed = false ∨
    t.hEvent = false ∧ t.owed = true ∧ t.errorCode = none

/-- What a worker needs to be true of the body. -/
def Ready : ThreadWorker → Prop
  | .sendRequest | .sendBody | .endRequest | .queryRequest => t.body = []
  | .receiveData => t.body = [] ∧ t.unread = t.served
  | .requestComplete => t.body = t.served
  | .requestRedirect => True

/-- What a wait leads to, when it is not cancelled. -/
def Awaits : Wait → Prop
  | .doThreadWork => ∃ worker, t.nextWorker = some worker ∧ t.Ready worker
  | .sendRequest => t.body = []
  | .receiveData length => t.body ++ t.unread = t.served ∧ (length = 0 → t.unread = [])

/-- Before `Perform` has come to its `Continue`. -/
structure Unstarted : Prop where
  performing : t.performing = true
  hEvent : t.hEvent = false
  owed : t.owed = false
  errorCode : t.errorCode = none
  body : t.body = []

/-- **What holds at a place of the thread.** -/
def At : Phase → Prop
  | .waiting caller =>
    t.Quiet ∧ t.Armed ∧ t.Awaits caller ∨
      caller = .doThreadWork ∧ t.Quiet ∧ t.Unstarted ∨
      caller = .doThreadWork ∧ t.Closed gZipInflate ∧ t.performing = false ∧ t.hEvent = true ∧
        t.owed = false ∧ t.errorCode = none ∧ t.nextWorker = none
  | .woken caller none =>
    t.Quiet ∧ t.Idle ∧ t.Awaits caller ∨
      caller = .doThreadWork ∧ t.Closed gZipInflate ∧ t.Idle ∧ t.errorCode = none ∧
        t.nextWorker = none
  | .woken _ (some _) => t.Quiet
  | .running worker => t.Quiet ∧ t.Idle ∧ t.errorCode = none ∧ t.Ready worker
  | .reading _ => t.Quiet ∧ t.Idle ∧ t.errorCode = none ∧ t.body ++ t.unread = t.served
  | .returning (.error _) => t.Quiet
  | .returning (.continue_ (some worker) signal) =>
    t.Quiet ∧ (if signal then t.Idle else t.Armed) ∧ t.Ready worker
  | .returning (.continue_ none signal) =>
    signal = true ∧ t.Closed gZipInflate ∧ t.Idle ∧ t.errorCode = none
  | .finishing =>
    t.Quiet ∧ t.errorCode ≠ none ∨ t.Closed gZipInflate ∧ t.owed = false ∧ t.errorCode = none
  | .finished =>
    (∃ before e, t.callbacks = before ++ [.requestFailed e] ∧
      ∀ b ∈ before, b = .requestRedirect true) ∨ t.Closed gZipInflate

def Sound : Prop := t.At gZipInflate t.phase

end Places

section Steps

variable {hasBody hasRequestRedirect : Bool} {gZipInflate : Bytes → Option Bytes}
  {t t' : Transfer} {a : Label}

theorem sound_start : Sound gZipInflate {} := by
  refine .inr (.inl ⟨rfl, ?_, ⟨rfl, rfl, rfl, rfl, rfl⟩⟩)
  intro c hc
  cases hc

theorem Sound.at_ (h : Sound gZipInflate t) {phase : Phase} (hphase : t.phase = phase) :
    t.At gZipInflate phase := hphase ▸ h

/-- The owner of the controller changes nothing that matters. -/
theorem sound_cancel (h : Sound gZipInflate t) :
    Sound gZipInflate { t with hEventCancel := true } := by
  show At gZipInflate { t with hEventCancel := true } t.phase
  cases hphase : t.phase with
  | waiting caller =>
    rcases h.at_ hphase with ⟨hq, ha, hw⟩ | ⟨hc, hq, hu⟩ | ⟨hc, hclosed, hrest⟩
    · refine .inl ⟨hq, ⟨ha.performing, ha.one⟩, ?_⟩
      cases caller <;> exact hw
    · exact .inr (.inl ⟨hc, hq, hu.performing, hu.hEvent, hu.owed, hu.errorCode, hu.body⟩)
    · exact .inr (.inr ⟨hc, hclosed, hrest⟩)
  | woken caller r =>
    cases r with
    | none =>
      rcases h.at_ hphase with ⟨hq, hi, hw⟩ | ⟨hc, hclosed, hi, hrest⟩
      · refine .inl ⟨hq, ⟨hi.performing, hi.hEvent, hi.owed⟩, ?_⟩
        cases caller <;> exact hw
      · exact .inr ⟨hc, hclosed, ⟨hi.performing, hi.hEvent, hi.owed⟩, hrest⟩
    | some e => exact h.at_ hphase
  | running worker =>
    obtain ⟨hq, hi, herr, hr⟩ := h.at_ hphase
    refine ⟨hq, ⟨hi.performing, hi.hEvent, hi.owed⟩, herr, ?_⟩
    cases worker <;> exact hr
  | reading room =>
    obtain ⟨hq, hi, hrest⟩ := h.at_ hphase
    exact ⟨hq, ⟨hi.performing, hi.hEvent, hi.owed⟩, hrest⟩
  | returning o =>
    cases o with
    | error e => exact h.at_ hphase
    | continue_ nextWorker signal =>
      cases nextWorker with
      | none =>
        obtain ⟨hs, hclosed, hi, herr⟩ := h.at_ hphase
        exact ⟨hs, hclosed, ⟨hi.performing, hi.hEvent, hi.owed⟩, herr⟩
      | some worker =>
        obtain ⟨hq, hi, hr⟩ := h.at_ hphase
        refine ⟨hq, ?_, ?_⟩
        · cases signal with
          | true => exact ⟨hi.performing, hi.hEvent, hi.owed⟩
          | false => exact ⟨hi.performing, hi.one⟩
        · cases worker <;> exact hr
  | finishing => exact h.at_ hphase
  | finished => exact h.at_ hphase

/-- `Perform` comes to its `Continue`: the thread waits for it, or has been cancelled. -/
theorem sound_perform (h : Sound gZipInflate t) (hp : t.performing = true) :
    Sound gZipInflate { t.continueWith (some .sendRequest) true with performing := false } := by
  have hidle : ¬ t.Idle := fun hi => by
    rw [hi.performing] at hp
    cases hp
  have harmed : ¬ t.Armed := fun ha => by
    rw [ha.performing] at hp
    cases hp
  show At gZipInflate { t.continueWith (some .sendRequest) true with performing := false } t.phase
  cases hphase : t.phase with
  | waiting caller =>
    rcases h.at_ hphase with ⟨-, ha, -⟩ | ⟨rfl, hq, hu⟩ | ⟨-, -, hp', -⟩
    · exact absurd ha harmed
    · exact .inl ⟨hq, ⟨rfl, .inl ⟨Bool.or_true _, hu.owed⟩⟩, .sendRequest, rfl, hu.body⟩
    · rw [hp'] at hp
      cases hp
  | woken caller r =>
    cases r with
    | none =>
      rcases h.at_ hphase with ⟨-, hi, -⟩ | ⟨-, -, hi, -⟩
      · exact absurd hi hidle
      · exact absurd hi hidle
    | some e => exact h.at_ hphase
  | running worker => exact absurd (h.at_ hphase).2.1 hidle
  | reading room => exact absurd (h.at_ hphase).2.1 hidle
  | returning o =>
    cases o with
    | error e => exact h.at_ hphase
    | continue_ nextWorker signal =>
      cases nextWorker with
      | none => exact absurd (h.at_ hphase).2.2.1 hidle
      | some worker =>
        have hsignal := (h.at_ hphase).2.1
        cases signal with
        | true => exact absurd hsignal hidle
        | false => exact absurd hsignal harmed
  | finishing => exact h.at_ hphase
  | finished => exact h.at_ hphase

/-- A completion arrives: the thread waits for it, is on its way to the wait, or has been
cancelled. -/
theorem sound_statusCallback (h : Sound gZipInflate t) (ho : t.owed = true) (failed : Bool) :
    Sound gZipInflate { t with
      owed := false
      errorCode := if failed then some .network else t.errorCode
      hEvent := true } := by
  have hidle : ¬ t.Idle := fun hi => by
    rw [hi.owed] at ho
    cases ho
  have hno : t.owed ≠ false := fun hfalse => by
    rw [hfalse] at ho
    cases ho
  show At gZipInflate { t with
      owed := false
      errorCode := if failed then some .network else t.errorCode
      hEvent := true } t.phase
  cases hphase : t.phase with
  | waiting caller =>
    rcases h.at_ hphase with ⟨hq, ha, hw⟩ | ⟨-, -, hu⟩ | ⟨-, -, -, -, ho', -⟩
    · refine .inl ⟨hq, ⟨ha.performing, .inl ⟨rfl, rfl⟩⟩, ?_⟩
      cases caller <;> exact hw
    · exact absurd hu.owed hno
    · exact absurd ho' hno
  | woken caller r =>
    cases r with
    | none =>
      rcases h.at_ hphase with ⟨-, hi, -⟩ | ⟨-, -, hi, -⟩
      · exact absurd hi hidle
      · exact absurd hi hidle
    | some e => exact h.at_ hphase
  | running worker => exact absurd (h.at_ hphase).2.1 hidle
  | reading room => exact absurd (h.at_ hphase).2.1 hidle
  | returning o =>
    cases o with
    | error e => exact h.at_ hphase
    | continue_ nextWorker signal =>
      cases nextWorker with
      | none => exact absurd (h.at_ hphase).2.2.1 hidle
      | some worker =>
        obtain ⟨hq, hsignal, hr⟩ := h.at_ hphase
        cases signal with
        | true => exact absurd hsignal hidle
        | false =>
          refine ⟨hq, ⟨hsignal.performing, .inl ⟨rfl, rfl⟩⟩, ?_⟩
          cases worker <;> exact hr
  | finishing =>
    rcases h.at_ hphase with ⟨hq, herr⟩ | ⟨-, ho', -⟩
    · refine .inl ⟨hq, ?_⟩
      show (if failed then some BkError.network else t.errorCode) ≠ none
      split
      · nofun
      · exact herr
    · exact absurd ho' hno
  | finished => exact h.at_ hphase

/-! ## The steps of the thread -/

/-- `WaitForIOPending` returns. -/
theorem sound_wake (h : Sound gZipInflate t) {caller : Wait} (hphase : t.phase = .waiting caller)
    (hwake : t.waitForIOPending caller = some t') : Sound gZipInflate t' := by
  unfold waitForIOPending at hwake
  split at hwake
  · rename_i hevent
    cases hwake
    rcases h.at_ hphase with ⟨hq, ha, hw⟩ | ⟨-, -, hu⟩ | ⟨hc, hclosed, hp, -, ho, herr, hnext⟩
    · rcases ha.one with ⟨-, ho⟩ | ⟨hfalse, -⟩
      · refine .inl ⟨hq, ⟨ha.performing, rfl, ho⟩, ?_⟩
        cases caller <;> exact hw
      · rw [hfalse] at hevent
        cases hevent
    · rw [hu.hEvent] at hevent
      cases hevent
    · exact .inr ⟨hc, hclosed, ⟨hp, rfl, ho⟩, herr, hnext⟩
  · rename_i hevent
    split at hwake
    · cases hwake
      rcases h.at_ hphase with ⟨hq, -⟩ | ⟨-, hq, -⟩ | ⟨-, -, -, htrue, -⟩
      · exact hq
      · exact hq
      · exact absurd htrue hevent
    · cases hwake

/-- `ReceiveData` behind a read. -/
theorem sound_received (hq : t.Quiet) (hi : t.Idle) (herr : t.errorCode = none)
    (hbody : t.body ++ t.unread = t.served) {length : Nat} (hlength : length = 0 → t.unread = []) :
    Sound gZipInflate (t.received length) := by
  unfold received
  split
  · refine ⟨hq, ⟨hi.performing, hi.hEvent, hi.owed⟩, herr, ?_⟩
    show t.body ++ t.unread.take length ++ t.unread.drop length = t.served
    rw [List.append_assoc, List.take_append_drop, hbody]
  · have hend := hlength (by omega)
    rw [hend, List.append_nil] at hbody
    exact ⟨hq, ⟨hi.performing, hi.hEvent, hi.owed⟩, hbody⟩

theorem sound_sent (hq : t.Quiet) (hi : t.Idle) (hbody : t.body = []) :
    Sound gZipInflate (t.sent hasBody) := by
  cases hasBody
  · exact ⟨hq, ⟨hi.performing, hi.hEvent, hi.owed⟩, hbody⟩
  · exact ⟨hq, ⟨hi.performing, hi.hEvent, hi.owed⟩, hbody⟩

/-- What follows a wait. -/
theorem sound_goOn (h : Sound gZipInflate t) {caller : Wait} {r : Option BkError}
    (hphase : t.phase = .woken caller r) : Sound gZipInflate (t.goOn hasBody caller r) := by
  cases hr : r.or t.errorCode with
  | some e =>
    have hquiet : t.Quiet := by
      cases r with
      | some e => exact h.at_ hphase
      | none =>
        rcases h.at_ hphase with ⟨hq, -⟩ | ⟨-, -, -, herr, -⟩
        · exact hq
        · rw [Option.none_or, herr] at hr
          cases hr
    unfold goOn
    rw [hr]
    cases caller with
    | doThreadWork => exact .inl ⟨hquiet, nofun⟩
    | sendRequest => exact hquiet
    | receiveData length => exact hquiet
  | none =>
    obtain ⟨rfl, herr⟩ := Option.or_eq_none_iff.mp hr
    unfold goOn
    rw [hr]
    rcases h.at_ hphase with ⟨hq, hi, hw⟩ | ⟨rfl, hclosed, hi, -, hnext⟩
    · cases caller with
      | doThreadWork =>
        obtain ⟨worker, hnext, hready⟩ := hw
        dsimp only
        rw [hnext]
        refine ⟨hq, ⟨hi.performing, hi.hEvent, hi.owed⟩, herr, ?_⟩
        cases worker <;> exact hready
      | sendRequest => exact sound_sent hq hi hw
      | receiveData length => exact sound_received hq hi herr hw.1 hw.2
    · dsimp only
      rw [hnext]
      exact .inr ⟨hclosed, hi.owed, herr⟩

/-- A call of `SendBody` or `EndRequest`. -/
theorem sound_callThen (hq : t.Quiet) (hi : t.Idle) (herr : t.errorCode = none)
    {nextWorker : ThreadWorker} (hready : t.Ready nextWorker) (e : BkError) (r : CallResult) :
    Sound gZipInflate (t.callThen nextWorker e r) := by
  cases r with
  | success =>
    refine ⟨hq, ⟨hi.performing, hi.hEvent, hi.owed⟩, ?_⟩
    cases nextWorker <;> exact hready
  | pending =>
    refine ⟨hq, ⟨hi.performing, .inr ⟨hi.hEvent, rfl, herr⟩⟩, ?_⟩
    cases nextWorker <;> exact hready
  | failed => exact hq

/-- `RequestComplete`: a redirect that is followed, one that is declined, or the end. -/
theorem sound_requestComplete (hq : t.Quiet) (hi : t.Idle) (herr : t.errorCode = none)
    (hbody : t.body = t.served) {accepts : Bool}
    (hstep : t.requestComplete hasRequestRedirect gZipInflate accepts = some t') :
    Sound gZipInflate t' := by
  obtain ⟨body, hdecoded, rfl⟩ := Option.map_eq_some_iff.mp hstep
  rw [hbody] at hdecoded
  split
  · cases hasRequestRedirect with
    | false =>
      refine ⟨?_, ⟨hi.performing, hi.hEvent, hi.owed⟩, trivial⟩
      intro c hc
      exact hq c (by simpa using hc)
    | true =>
      cases accepts with
      | true =>
        refine ⟨?_, ⟨hi.performing, hi.hEvent, hi.owed⟩, trivial⟩
        intro c hc
        rcases List.mem_append.mp hc with hc | hc
        · exact hq c hc
        · exact List.mem_singleton.mp hc
      | false =>
        exact ⟨rfl, ⟨t.callbacks, .requestRedirect false, rfl, hq, .inl rfl⟩,
          ⟨hi.performing, hi.hEvent, hi.owed⟩, herr⟩
  · refine ⟨rfl, ⟨t.callbacks, .requestComplete t.body body, rfl, hq, .inr ⟨body, ?_, hdecoded⟩⟩,
      ⟨hi.performing, hi.hEvent, hi.owed⟩, herr⟩
    rw [hbody]

theorem sound_requestRedirect (hq : t.Quiet) (hi : t.Idle) (opened : Option BkError) :
    Sound gZipInflate (t.requestRedirect opened) := by
  cases opened with
  | none => exact ⟨hq, ⟨hi.performing, hi.hEvent, hi.owed⟩, rfl⟩
  | some e => exact hq

theorem sound_finish (h : Sound gZipInflate t) (hphase : t.phase = .finishing) :
    Sound gZipInflate t.finish := by
  unfold finish
  rcases h.at_ hphase with ⟨hq, herr⟩ | ⟨hclosed, -, herr⟩
  · obtain ⟨e, he⟩ := Option.ne_none_iff_exists'.mp herr
    rw [he]
    exact .inl ⟨t.callbacks, e, rfl, hq⟩
  · rw [herr]
    obtain ⟨before, c, hcallbacks, hbefore, hend⟩ := hclosed
    exact .inr ⟨before, c, (List.append_nil _).trans hcallbacks, hbefore, hend⟩

/-- The worker returns to `DoThreadWork`. -/
theorem sound_return {o : Outcome} (h : Sound gZipInflate t) (hphase : t.phase = .returning o)
    (hstep : t.next hasBody hasRequestRedirect gZipInflate .return_ = some t') :
    Sound gZipInflate t' := by
  unfold next at hstep
  dsimp only at hstep
  rw [hphase] at hstep
  cases o with
  | error e =>
    cases hstep
    exact .inl ⟨h.at_ hphase, nofun⟩
  | continue_ nextWorker signal =>
    cases hstep
    cases nextWorker with
    | none =>
      obtain ⟨rfl, hclosed, hi, herr⟩ := h.at_ hphase
      exact .inr (.inr ⟨rfl, hclosed, hi.performing, Bool.or_true _, hi.owed, herr, rfl⟩)
    | some worker =>
      obtain ⟨hq, hsignal, hready⟩ := h.at_ hphase
      refine .inl ⟨hq, ?_, worker, rfl, ?_⟩
      · cases signal with
        | true =>
          have hi : t.Idle := hsignal
          exact ⟨hi.performing, .inl ⟨Bool.or_true _, hi.owed⟩⟩
        | false =>
          have ha : t.Armed := hsignal
          refine ⟨ha.performing, ?_⟩
          show (t.hEvent || false) = true ∧ _ ∨ (t.hEvent || false) = false ∧ _
          rw [Bool.or_false]
          exact ha.one
      · cases worker <;> exact hready

/-- **Every step keeps what holds at the places of the thread.** -/
theorem sound_step (h : Sound gZipInflate t)
    (hstep : t.next hasBody hasRequestRedirect gZipInflate a = some t') :
    Sound gZipInflate t' := by
  cases a with
  | return_ =>
    cases hphase : t.phase with
    | returning o => exact sound_return h hphase hstep
    | _ =>
      simp only [next, hphase] at hstep
      cases hstep
  | perform =>
    simp only [next] at hstep
    split at hstep
    · rename_i hp
      cases hstep
      exact sound_perform h hp
    · cases hstep
  | wake =>
    simp only [next] at hstep
    split at hstep
    · rename_i hphase
      exact sound_wake h hphase hstep
    · cases hstep
  | goOn =>
    simp only [next] at hstep
    split at hstep
    · rename_i hphase
      cases hstep
      exact sound_goOn h hphase
    · cases hstep
  | call r =>
    simp only [next] at hstep
    split at hstep
    · rename_i hphase
      obtain ⟨hq, hi, -, hbody⟩ := h.at_ hphase
      cases hstep
      exact sound_sent hq hi hbody
    · rename_i hphase
      obtain ⟨hq, hi, herr, hbody⟩ := h.at_ hphase
      cases hstep
      exact .inl ⟨hq, ⟨hi.performing, .inr ⟨hi.hEvent, rfl, herr⟩⟩, hbody⟩
    · rename_i hphase
      cases hstep
      exact (h.at_ hphase).1
    · rename_i hphase
      obtain ⟨hq, hi, herr, hbody⟩ := h.at_ hphase
      have hready : t.Ready .endRequest := hbody
      cases hstep
      exact sound_callThen hq hi herr hready _ _
    · rename_i hphase
      obtain ⟨hq, hi, herr, hbody⟩ := h.at_ hphase
      have hready : t.Ready .queryRequest := hbody
      cases hstep
      exact sound_callThen hq hi herr hready _ _
    · cases hstep
  | queryRequest answer =>
    simp only [next] at hstep
    split at hstep
    · rename_i hphase
      cases hstep
      exact (h.at_ hphase).1
    · rename_i hphase
      obtain ⟨hq, hi, -, hbody⟩ := h.at_ hphase
      obtain ⟨response, -, rfl⟩ := Option.map_eq_some_iff.mp hstep
      exact ⟨hq, ⟨hi.performing, hi.hEvent, hi.owed⟩, hbody, rfl⟩
    · cases hstep
  | receiveData =>
    simp only [next] at hstep
    split at hstep
    · rename_i hphase
      obtain ⟨hq, hi, herr, hbody, hunread⟩ := h.at_ hphase
      cases hstep
      refine ⟨hq, ⟨hi.performing, hi.hEvent, hi.owed⟩, herr, ?_⟩
      show t.body ++ t.unread = t.served
      rw [hbody, hunread]
      rfl
    · cases hstep
  | read r length =>
    simp only [next] at hstep
    split at hstep
    · rename_i hphase
      cases hstep
      exact (h.at_ hphase).1
    · rename_i hphase _
      obtain ⟨hq, hi, herr, hbody⟩ := h.at_ hphase
      split at hstep
      · rename_i hread
        cases hstep
        split
        · exact .inl ⟨hq, ⟨hi.performing, .inr ⟨hi.hEvent, rfl, herr⟩⟩, hbody, hread.2.2⟩
        · exact sound_received hq hi herr hbody hread.2.2
      · cases hstep
    · cases hstep
  | requestComplete accepts =>
    simp only [next] at hstep
    split at hstep
    · rename_i hphase
      obtain ⟨hq, hi, herr, hbody⟩ := h.at_ hphase
      exact sound_requestComplete hq hi herr hbody hstep
    · cases hstep
  | requestRedirect schemeIsHTTPOrHTTPS connected requestOpened =>
    simp only [next] at hstep
    split at hstep
    · rename_i hphase
      obtain ⟨hq, hi, -⟩ := h.at_ hphase
      cases hstep
      exact sound_requestRedirect hq hi _
    · cases hstep
  | finish =>
    simp only [next] at hstep
    split at hstep
    · rename_i hphase
      cases hstep
      exact sound_finish h hphase
    · cases hstep
  | statusCallback failed =>
    simp only [next] at hstep
    split at hstep
    · rename_i howed
      cases hstep
      exact sound_statusCallback h howed failed
    · cases hstep
  | cancel =>
    cases hstep
    exact sound_cancel h

/-! ## Runs -/

/-- Redirects that were followed, and at most one callback behind them. -/
structure Tidy (callbacks before tail : List Callback) : Prop where
  callbacks_eq : callbacks = before ++ tail
  before : ∀ b ∈ before, b = .requestRedirect true
  tail : tail.length ≤ 1

theorem Tidy.filter {callbacks before tail : List Callback} (d : Tidy callbacks before tail) :
    callbacks.filter Callback.isTerminal = tail.filter Callback.isTerminal := by
  have hnone : before.filter Callback.isTerminal = [] := by
    rw [List.filter_eq_nil_iff]
    intro b hb
    rw [d.before b hb]
    decide
  rw [d.callbacks_eq, List.filter_append, hnone, List.nil_append]

theorem Tidy.last {callbacks before tail : List Callback} (d : Tidy callbacks before tail)
    {l after : List Callback} {c : Callback} (heq : callbacks = l ++ c :: after)
    (hc : c.isTerminal = true) : after = [] := by
  have hout : c ∉ before := fun hmem => by
    rw [d.before c hmem] at hc
    cases hc
  have hboth := d.callbacks_eq.symm.trans heq
  rcases List.eq_nil_or_concat after with hnil | ⟨l', y, rfl⟩
  · exact hnil
  · rw [List.concat_eq_append, ← List.cons_append, ← List.append_assoc] at hboth
    match tail, d.tail with
    | [], _ =>
      rw [List.append_nil] at hboth
      refine absurd ?_ hout
      rw [hboth]
      simp
    | [x], _ =>
      have hbefore := List.append_inj_left' hboth rfl
      refine absurd ?_ hout
      rw [hbefore]
      simp

/-- What the callbacks are, wherever the thread is. -/
theorem Sound.callbacks (h : Sound gZipInflate t) :
    t.Quiet ∨ t.Closed gZipInflate ∨ ∃ before e, t.callbacks = before ++ [.requestFailed e] ∧
      ∀ b ∈ before, b = .requestRedirect true := by
  cases hphase : t.phase with
  | waiting caller =>
    rcases h.at_ hphase with ⟨hq, -⟩ | ⟨-, hq, -⟩ | ⟨-, hclosed, -⟩
    · exact .inl hq
    · exact .inl hq
    · exact .inr (.inl hclosed)
  | woken caller r =>
    cases r with
    | none =>
      rcases h.at_ hphase with ⟨hq, -⟩ | ⟨-, hclosed, -⟩
      · exact .inl hq
      · exact .inr (.inl hclosed)
    | some e => exact .inl (h.at_ hphase)
  | running worker => exact .inl (h.at_ hphase).1
  | reading room => exact .inl (h.at_ hphase).1
  | returning o =>
    cases o with
    | error e => exact .inl (h.at_ hphase)
    | continue_ nextWorker signal =>
      cases nextWorker with
      | none => exact .inr (.inl (h.at_ hphase).2.1)
      | some worker => exact .inl (h.at_ hphase).1
  | finishing =>
    rcases h.at_ hphase with ⟨hq, -⟩ | ⟨hclosed, -⟩
    · exact .inl hq
    · exact .inr (.inl hclosed)
  | finished =>
    rcases h.at_ hphase with hfailed | hclosed
    · exact .inr (.inr hfailed)
    · exact .inr (.inl hclosed)

theorem right_of_tidy {before tail : List Callback} (d : Tidy t.callbacks before tail)
    (hone : t.phase = .finished → .requestRedirect false ∉ t.callbacks →
      (tail.filter Callback.isTerminal).length = 1)
    (hwhole : ∀ appended body, .requestComplete appended body ∈ tail →
      appended = t.served ∧ t.decoded gZipInflate t.served = some body) :
    Right gZipInflate t where
  atMostOne := by
    rw [d.filter]
    exact (List.length_filter_le _ _).trans d.tail
  last l c after heq hc := d.last heq hc
  one hfinished hdeclined := by
    rw [d.filter]
    exact hone hfinished hdeclined
  whole appended body hmem := by
    rw [d.callbacks_eq, List.mem_append] at hmem
    rcases hmem with hmem | hmem
    · have heq := d.before _ hmem
      cases heq
    · exact hwhole appended body hmem

theorem Sound.right (h : Sound gZipInflate t) : Right gZipInflate t := by
  rcases h.callbacks with
    hq | ⟨before, c, hcallbacks, hbefore, hend⟩ | ⟨before, e, hcallbacks, hbefore⟩
  · refine right_of_tidy ⟨(List.append_nil _).symm, hq, Nat.zero_le _⟩ ?_ nofun
    intro hfinished
    rcases h.at_ hfinished with ⟨before, e, hcallbacks, -⟩ | ⟨before, c, hcallbacks, -, hend⟩
    · have heq := hq (.requestFailed e) (by rw [hcallbacks]; simp)
      cases heq
    · have heq := hq c (by rw [hcallbacks]; simp)
      rcases hend with rfl | ⟨body, rfl, -⟩
      · cases heq
      · cases heq
  · refine right_of_tidy ⟨hcallbacks, hbefore, Nat.le_refl _⟩ ?_ ?_
    · intro _ hdeclined
      rcases hend with rfl | ⟨body, rfl, -⟩
      · exact absurd (by rw [hcallbacks]; simp) hdeclined
      · rfl
    · intro appended body hmem
      rcases hend with rfl | ⟨body', rfl, hdecoded⟩
      · cases List.mem_singleton.mp hmem
      · cases List.mem_singleton.mp hmem
        exact ⟨rfl, hdecoded⟩
  · refine right_of_tidy ⟨hcallbacks, hbefore, Nat.le_refl _⟩ (fun _ _ => rfl) ?_
    intro appended body hmem
    cases List.mem_singleton.mp hmem

/-! ## Coming to an end -/

section Finish

variable {worker : ThreadWorker} {e : BkError} {room : Nat}

theorem canFinish_finishing (hphase : t.phase = .finishing) :
    CanFinish hasBody hasRequestRedirect gZipInflate t := by
  refine .step (a := .finish) nofun (by rw [next, hphase]) ?_
  exact .finished rfl

theorem canFinish_error (hphase : t.phase = .returning (.error e)) :
    CanFinish hasBody hasRequestRedirect gZipInflate t := by
  refine .step (a := .return_) nofun (by rw [next, hphase]) ?_
  exact canFinish_finishing rfl

theorem canFinish_reading (hphase : t.phase = .reading room) :
    CanFinish hasBody hasRequestRedirect gZipInflate t := by
  refine .step (a := .read .failed 0) nofun (by unfold next; rw [hphase]) ?_
  exact canFinish_error rfl

/-- The loop of `DoThreadWork` goes on, where its next worker can. -/
theorem canFinish_goOn (hphase : t.phase = .woken .doThreadWork none)
    (hworker : ∀ worker, t.nextWorker = some worker → ∀ t' : Transfer,
      t'.phase = .running worker → CanFinish hasBody hasRequestRedirect gZipInflate t') :
    CanFinish hasBody hasRequestRedirect gZipInflate t := by
  refine .step (a := .goOn) nofun (by rw [next, hphase]) ?_
  unfold goOn
  rw [Option.none_or]
  cases t.errorCode with
  | some e => exact canFinish_finishing rfl
  | none =>
    cases hnext : t.nextWorker with
    | none => exact canFinish_finishing rfl
    | some worker => exact hworker worker hnext _ rfl

/-- A worker returns with the event set. -/
theorem canFinish_continue {nextWorker : Option ThreadWorker}
    (hphase : t.phase = .returning (.continue_ nextWorker true))
    (hworker : ∀ worker, nextWorker = some worker → ∀ t' : Transfer,
      t'.phase = .running worker → CanFinish hasBody hasRequestRedirect gZipInflate t') :
    CanFinish hasBody hasRequestRedirect gZipInflate t := by
  refine .step (a := .return_) nofun (by rw [next, hphase]) ?_
  refine .step (a := .wake) nofun (if_pos (Bool.or_true _)) ?_
  exact canFinish_goOn rfl hworker

theorem canFinish_running (hphase : t.phase = .running worker) :
    CanFinish hasBody hasRequestRedirect gZipInflate t := by
  have hredirect : ∀ t : Transfer, t.phase = .running .requestRedirect →
      CanFinish hasBody hasRequestRedirect gZipInflate t := by
    intro t hphase
    refine .step (a := .requestRedirect false false false) nofun (by rw [next, hphase]) ?_
    exact canFinish_error (e := .uri) rfl
  cases worker with
  | sendRequest | sendBody | endRequest =>
    refine .step (a := .call .failed) nofun (by unfold next; rw [hphase]) ?_
    exact canFinish_error rfl
  | queryRequest =>
    refine .step (a := .queryRequest none) nofun (by unfold next; rw [hphase]) ?_
    exact canFinish_error rfl
  | receiveData =>
    refine .step (a := .receiveData) nofun (by rw [next, hphase]) ?_
    exact canFinish_reading rfl
  | requestRedirect => exact hredirect t hphase
  | requestComplete =>
    cases hbody : t.decoded gZipInflate t.body with
    | none => exact .inflating hphase hbody
    | some body =>
      have hstep : t.next hasBody hasRequestRedirect gZipInflate (.requestComplete false) =
          t.requestComplete hasRequestRedirect gZipInflate false := by simp only [next, hphase]
      unfold requestComplete at hstep
      rw [hbody, Option.map_some] at hstep
      refine .step (a := .requestComplete false) nofun hstep ?_
      split
      · refine canFinish_continue rfl fun worker hworker => ?_
        split at hworker
        · cases hworker
          exact hredirect
        · cases hworker
      · exact canFinish_continue rfl nofun

theorem canFinish_woken {caller : Wait} {r : Option BkError} (hphase : t.phase = .woken caller r) :
    CanFinish hasBody hasRequestRedirect gZipInflate t := by
  have hnext : ∀ t : Transfer, ∀ nextWorker,
      t.phase = .returning (.continue_ nextWorker true) →
        CanFinish hasBody hasRequestRedirect gZipInflate t := fun t nextWorker h =>
    canFinish_continue h fun _ _ _ => canFinish_running
  refine .step (a := .goOn) nofun (by rw [next, hphase]) ?_
  unfold goOn
  cases r.or t.errorCode with
  | some e =>
    cases caller with
    | doThreadWork => exact canFinish_finishing rfl
    | sendRequest => exact canFinish_error rfl
    | receiveData length => exact canFinish_error rfl
  | none =>
    cases caller with
    | doThreadWork =>
      cases t.nextWorker with
      | none => exact canFinish_finishing rfl
      | some worker => exact canFinish_running rfl
    | sendRequest => exact hnext _ _ rfl
    | receiveData length =>
      dsimp only
      unfold received
      split
      · exact canFinish_reading rfl
      · exact hnext _ _ rfl

/-- A wait whose event is set, or will be by a completion or by `Perform`. -/
theorem canFinish_waiting {caller : Wait} (hphase : t.phase = .waiting caller)
    (hevent : t.hEvent = true ∨ t.owed = true ∨ t.performing = true) :
    CanFinish hasBody hasRequestRedirect gZipInflate t := by
  have hwake : ∀ t : Transfer, t.phase = .waiting caller → t.hEvent = true →
      CanFinish hasBody hasRequestRedirect gZipInflate t := by
    intro t hphase hset
    refine .step (a := .wake) nofun (by rw [next, hphase]; exact if_pos hset) ?_
    exact canFinish_woken rfl
  rcases hevent with hset | howed | hperforming
  · exact hwake t hphase hset
  · exact .step (a := .statusCallback false) nofun (if_pos howed) (hwake _ hphase rfl)
  · exact .step (a := .perform) nofun (if_pos hperforming) (hwake _ hphase (Bool.or_true _))

theorem Sound.canFinish (h : Sound gZipInflate t) :
    CanFinish hasBody hasRequestRedirect gZipInflate t := by
  have harmed : ∀ {t : Transfer}, t.Armed → t.hEvent = true ∨ t.owed = true := fun ha =>
    ha.one.imp And.left fun hone => hone.2.1
  cases hphase : t.phase with
  | waiting caller =>
    refine canFinish_waiting hphase ?_
    rcases h.at_ hphase with ⟨-, ha, -⟩ | ⟨-, -, hu⟩ | ⟨-, -, -, hset, -⟩
    · exact (harmed ha).imp id .inl
    · exact .inr (.inr hu.performing)
    · exact .inl hset
  | woken caller r => exact canFinish_woken hphase
  | running worker => exact canFinish_running hphase
  | reading room => exact canFinish_reading hphase
  | returning o =>
    cases o with
    | error e => exact canFinish_error hphase
    | continue_ nextWorker signal =>
      cases signal with
      | true => exact canFinish_continue hphase fun _ _ _ => canFinish_running
      | false =>
        cases nextWorker with
        | none => exact absurd (h.at_ hphase).1 Bool.false_ne_true
        | some worker =>
          have ha : t.Armed := (h.at_ hphase).2.1
          refine .step (a := .return_) nofun (by rw [next, hphase]) ?_
          refine canFinish_waiting rfl ?_
          show (t.hEvent || false) = true ∨ t.owed = true ∨ _
          rw [Bool.or_false]
          exact (harmed ha).imp id .inl
  | finishing => exact canFinish_finishing hphase
  | finished => exact .finished hphase

end Finish

/-- **The terminal callback.** Whatever WinINet answers, however many redirects there are, and
whenever the owner of the controller cancels: the client is told the end at most once, and nothing
behind it; it has been told once the thread is through, unless it declined a redirect; it is told of
a complete body only; and the thread can get through, unless `GZipInflate` keeps it. -/
theorem terminal_callback (hasBody hasRequestRedirect : Bool)
    (gZipInflate : Bytes → Option Bytes) (labels : List Label) :
    Always (machine (next hasBody hasRequestRedirect gZipInflate))
      (fun t => Right gZipInflate t ∧ CanFinish hasBody hasRequestRedirect gZipInflate t) True {}
      labels :=
  always_machine (G := fun _ _ => True) (fun _ h => ⟨Sound.right h, Sound.canFinish h⟩)
    (fun _ _ _ h _ hstep => sound_step h hstep) sound_start
    (allowed_of_forall fun _ _ _ => trivial)

/-- A redirect that the client follows, then a body in two reads. -/
example :
    ((run (machine (next false true some)) {}
      [.perform, .wake, .goOn, .call .pending, .statusCallback false, .wake, .goOn, .return_,
        .wake, .goOn, .call .success, .return_, .wake, .goOn,
        .queryRequest (some (['H', 'T', 'T', 'P', '/', '1', ' ', '3', '0', '2'], [])), .return_,
        .wake, .goOn, .receiveData, .read .success 0, .return_, .wake, .goOn,
        .requestComplete true, .return_, .wake, .goOn, .requestRedirect true true true, .return_,
        .wake, .goOn, .call .success, .return_, .wake, .goOn, .call .pending, .return_,
        .statusCallback false, .wake, .goOn,
        .queryRequest (some (['H', 'T', 'T', 'P', '/', '1', ' ', '2', '0', '0'], [7, 8, 9])),
        .return_, .wake, .goOn, .receiveData, .read .success 2, .cancel, .read .pending 1,
        .statusCallback false, .wake, .goOn, .read .success 0, .return_, .wake, .goOn,
        .requestComplete true, .return_, .wake, .goOn, .finish]).toOption.map
      fun r => (r.1.phase, r.1.callbacks)) =
    some (.finished, [.requestRedirect true, .requestComplete [7, 8, 9] [7, 8, 9]]) := by
  decide +kernel

end Steps

end Transfer

end Blinkit.Http
