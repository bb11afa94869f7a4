import Blinkit.Http.WinRequest

/-!
# A request that cannot be performed

Translation of `Perform` on the two platforms, of its caller `HTTPLoaderTask::Run`, and of
`URLLoaderImpl::LoadAsynchronously`, which tells the client. What the platform answers is an input;
assertions are those of a release build.

* `Platform` — the answers that `Perform` meets.
* `Load` — the objects of one load: how often each was deleted, and what the client was told.

Principal results: `failed_load`, which says what becomes of a load whose request cannot be
performed, and `failed_load_not_clean`.
-/

set_option autoImplicit false

namespace Blinkit.Http

/-- What `Perform` meets on its way, on the platform that the library was built for. -/
inductive Platform where
  /-- The scheme of the URL, and `pthread_create`. -/
  | curl (schemeIsHTTPOrHTTPS threadCreated : Bool)
  /-- Whether the session is open already, `OpenSession`, and the steps of `OpenRequest`. -/
  | win (sessionIsValid sessionOpened schemeIsHTTPOrHTTPS connected requestOpened : Bool)
  deriving DecidableEq

/-- What `Perform` returns, and whether it has deleted the request. -/
structure Performed where
  error : Option BkError
  deletedThis : Bool
  deriving DecidableEq

/-- `CURLRequest::Perform`. -/
def CURLRequest.perform (schemeIsHTTPOrHTTPS threadCreated : Bool) : Performed :=
  if !schemeIsHTTPOrHTTPS then ⟨some .uri, true⟩
  else if threadCreated then ⟨none, false⟩
  else ⟨some .unknown, true⟩

/-- `WinRequest::OpenRequest`. -/
def WinRequest.openRequest (schemeIsHTTPOrHTTPS connected requestOpened : Bool) : Option BkError :=
  if !schemeIsHTTPOrHTTPS then some .uri
  else if !connected then some .network
  else if !requestOpened then some .network
  else none

/-- `WinRequest::Perform`. -/
def WinRequest.perform (sessionIsValid sessionOpened schemeIsHTTPOrHTTPS connected
    requestOpened : Bool) : Performed :=
  if sessionIsValid then ⟨some .forbidden, false⟩
  else if !sessionOpened then ⟨some .network, false⟩
  else ⟨WinRequest.openRequest schemeIsHTTPOrHTTPS connected requestOpened, false⟩

/-- `RequestImpl::Perform`. -/
def Platform.perform : Platform → Performed
  | curl schemeIsHTTPOrHTTPS threadCreated =>
    CURLRequest.perform schemeIsHTTPOrHTTPS threadCreated
  | win sessionIsValid sessionOpened schemeIsHTTPOrHTTPS connected requestOpened =>
    WinRequest.perform sessionIsValid sessionOpened schemeIsHTTPOrHTTPS connected requestOpened

/-- The objects of one load. -/
structure Load where
  taskCreated : Nat
  taskDeleted : Nat
  requestCreated : Nat
  requestDeleted : Nat
  /-- The errors that `LoaderTask::ReportError` has posted. -/
  posted : List BkError
  /-- The errors that `DidFail` has told the client. -/
  failures : List BkError
  deriving DecidableEq

namespace Load

def start : Load := ⟨0, 0, 0, 0, [], []⟩

/-- `HTTPLoaderTask::Run` for a request that the crawler does not hijack. -/
def run (l : Load) (platform : Platform) : Load × Option BkError :=
  let l := { l with requestCreated := l.requestCreated + 1 }
  let performed := platform.perform
  let l := if performed.deletedThis then { l with requestDeleted := l.requestDeleted + 1 } else l
  match performed.error with
  | none => (l, none)
  | some error => ({ l with requestDeleted := l.requestDeleted + 1 }, some error)

/-- `LoaderTask::ReportError`. -/
def reportError (l : Load) (error : BkError) : Load := { l with posted := l.posted ++ [error] }

/-- `URLLoaderImpl::LoadAsynchronously`. -/
def loadAsynchronously (l : Load) (schemeIsHTTPOrHTTPS : Bool) (platform : Platform) : Load :=
  if schemeIsHTTPOrHTTPS then
    match { l with taskCreated := l.taskCreated + 1 }.run platform with
    | (l, none) => l
    | (l, some error) => l.reportError error
  else l.reportError .uri

/-- The task runner runs what has been posted. -/
def runPosted (l : Load) : Load :=
  { l with posted := [], failures := l.failures ++ l.posted }

/-- **Every object is destroyed once, and the client is told once.** -/
def Clean (l : Load) : Prop :=
  l.taskDeleted = 1 ∧ l.requestDeleted = 1 ∧ l.failures.length = 1

instance : DecidablePred Clean := fun _ => inferInstanceAs (Decidable (_ ∧ _ ∧ _))

/-- **What becomes of a load whose request cannot be performed**: the client is told once, the
task is never deleted, and the request is deleted once on Windows and twice elsewhere. -/
theorem failed_load {platform : Platform} {error : BkError}
    (h : platform.perform.error = some error) :
    (start.loadAsynchronously true platform).runPosted =
      { taskCreated := 1
        taskDeleted := 0
        requestCreated := 1
        requestDeleted := if platform.perform.deletedThis then 2 else 1
        posted := []
        failures := [error] } := by
  unfold loadAsynchronously run
  simp only [h]
  cases platform.perform.deletedThis <;> rfl

/-- **No failure of `Perform` is cleaned up, on either platform.** -/
theorem failed_load_not_clean (platform : Platform) (h : platform.perform.error ≠ none) :
    ¬ (start.loadAsynchronously true platform).runPosted.Clean := by
  obtain ⟨error, he⟩ := Option.ne_none_iff_exists'.mp h
  rw [failed_load he]
  rintro ⟨htask, -⟩
  cases htask

/-- The thread cannot be created. -/
theorem failed_thread_not_clean :
    ¬ (start.loadAsynchronously true (.curl true false)).runPosted.Clean :=
  failed_load_not_clean (.curl true false) (by decide)

/-- **The request is deleted twice and the task never**, when the thread cannot be created; on
Windows, when the session cannot be opened, the task is not deleted either. -/
theorem failed_load_leaks :
    ((start.loadAsynchronously true (.curl true false)).runPosted.requestDeleted = 2 ∧
      ¬ (start.loadAsynchronously true (.curl true false)).runPosted.Clean) ∧
    ¬ (start.loadAsynchronously true (.win false false true true true)).runPosted.Clean := by
  decide

end Load

end Blinkit.Http
