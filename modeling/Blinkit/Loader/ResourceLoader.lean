import Blinkit.Lib.Transition

/-!
# Lifetime of a resource

A `Resource` is kept alive by shared pointers.  Its `ResourceLoader`, which it owns, has one, the
client that requested it has one, and other code may have made more.  The crawler has no memory
cache, so every request makes its own resource and the resource has the one client.

* `touch` : a member of the resource is read or written; `usedAfterRelease` records a use of a
  resource that no shared pointer keeps alive
* `ClientAct` : what the client may do to the ownership when it is called
* `didReceiveResponse`, `didReceiveData`, `didFinishLoading`, `didFail` : the callbacks of the
  loader, down to `Resource::Finish`, `Resource::FinishAsError` and `DidLoadResource`
* `Callback`, `next` : the callbacks in any order, with other code of the client between them

`DidFinishLoading` copies the shared pointer for the time of the call, `HandleError` passes a raw
pointer.

Principal results: `notifyEnd_kept_iff`, `didFail_kept_iff`, `resource_kept_iff`.
-/

set_option autoImplicit false

namespace Blinkit.Loader

open Transition

inductive ResourceType where
  | kMainResource
  | kImage
  | kCSSStyleSheet
  | kScript
  | kFont
  | kRaw
  | kXSLStyleSheet
  | kLinkPrefetch
  | kTextTrack
  | kImportResource
  | kAudio
  | kVideo
  | kManifest
  deriving DecidableEq

inductive ResourceStatus where
  | kNotStarted
  | kPending
  | kCached
  | kLoadError
  | kDecodeError
  deriving DecidableEq

/-- What code of the client can do to the ownership. -/
inductive ClientAct where
  /-- `ResourceClient::ClearResource`. -/
  | clearResource
  /-- A shared pointer is copied from one that the code has. -/
  | share
  /-- Such a copy is dropped. -/
  | release
  /-- The document is committed, or the fetch context is detached. -/
  | setDocument (document : Bool)
  deriving DecidableEq

/-- The shared pointers besides the one of the loader, and the document of the fetch context. -/
structure Owners where
  /-- `ResourceClient::m_resource` of the client is set. -/
  client : Bool
  /-- The shared pointers of other code. -/
  others : Nat
  /-- `FrameFetchContext::m_document` is set. -/
  document : Bool
  deriving DecidableEq

namespace Owners

def Shared (o : Owners) : Prop := o.client = true ∨ 0 < o.others

instance (o : Owners) : Decidable o.Shared := inferInstanceAs (Decidable (_ ∨ _))

def act (o : Owners) : ClientAct → Owners
  | .clearResource => { o with client := false }
  | .share => if o.Shared then { o with others := o.others + 1 } else o
  | .release => { o with others := o.others - 1 }
  | .setDocument document => { o with document := document }

def acts (o : Owners) (as : List ClientAct) : Owners := as.foldl act o

end Owners

/-- One load: the resource and its owners. -/
structure Load where
  type : ResourceType
  status : ResourceStatus
  /-- `Resource::m_loader` is set: the loader exists and has its shared pointer. -/
  loader : Bool
  /-- The client is in `m_clients`. -/
  isClient : Bool
  /-- The client is in `m_finishedClients`. -/
  isFinishedClient : Bool
  owners : Owners
  /-- The copy of the shared pointer that `DidFinishLoading` makes. -/
  localCopy : Bool
  /-- A member was used after the last shared pointer had gone. -/
  usedAfterRelease : Bool
  deriving DecidableEq

namespace Load

/-- Some shared pointer keeps the resource alive. -/
def Alive (l : Load) : Prop := l.loader = true ∨ l.localCopy = true ∨ l.owners.Shared

instance (l : Load) : Decidable l.Alive := inferInstanceAs (Decidable (_ ∨ _ ∨ _))

/-- A member of the resource is read or written. -/
def touch (l : Load) : Load := if l.Alive then l else { l with usedAfterRelease := true }

/-! ## The client -/

/-- `Resource::RemoveClient`. -/
def removeClient (l : Load) : Load :=
  let l := l.touch
  if l.isFinishedClient then { l with isFinishedClient := false } else { l with isClient := false }

/-- One act. `ClearResource` keeps the old shared pointer until the client is removed, and does
nothing when there is none. -/
def act (l : Load) (a : ClientAct) : Load :=
  if a = .clearResource ∧ l.owners.client = true then
    { l.removeClient with owners := l.owners.act a }
  else { l with owners := l.owners.act a }

def acts (l : Load) (as : List ClientAct) : Load := as.foldl act l

/-! ## The resource -/

/-- `Resource::MarkClientFinished`. -/
def markClientFinished (l : Load) : Load :=
  let l := l.touch
  if l.isClient then { l with isClient := false, isFinishedClient := true } else l

/-- `Resource::NotifyFinished`: the loop over the copied client list. -/
def notifyFinished (l : Load) (client : List ClientAct) : Load :=
  let l := l.touch
  if l.isClient then l.markClientFinished.acts client else l

def ResourceStatus.errorOccurred (s : ResourceStatus) : Bool :=
  s == .kLoadError || s == .kDecodeError

/-- `m_loader.reset()`: the loader is deleted, and its shared pointer with it. -/
def resetLoader (l : Load) : Load := { l.touch with loader := false }

/-- `TriggerNotificationForFinishObservers`, for a resource without observers. -/
def triggerNotificationForFinishObservers (l : Load) : Load := l.touch

/-- `Resource::Finish`. -/
def finish (l : Load) (client : List ClientAct) : Load :=
  let l := l.touch
  let l := if ResourceStatus.errorOccurred l.status then l else { l with status := .kCached }
  l.resetLoader.triggerNotificationForFinishObservers.notifyFinished client

/-- `Resource::FinishAsError`. -/
def finishAsError (l : Load) (client : List ClientAct) : Load :=
  let l := l.touch
  let l := if ResourceStatus.errorOccurred l.status then l else { l with status := .kLoadError }
  l.resetLoader.triggerNotificationForFinishObservers.notifyFinished client

/-! ## The fetcher and the loader -/

/-- `Resource::IsLoadEventBlockingResourceType`. -/
def isLoadEventBlockingResourceType (type : ResourceType) : Bool :=
  match type with
  | .kMainResource | .kImage | .kCSSStyleSheet | .kScript | .kFont | .kXSLStyleSheet
  | .kImportResource => true
  | .kRaw | .kLinkPrefetch | .kTextTrack | .kAudio | .kVideo | .kManifest => false

/-- `FrameFetchContext::DidLoadResource`: with a document, the type of the resource is read. The
completeness check for a blocking type does not use the resource. -/
def didLoadResource (l : Load) : Load := if l.owners.document then l.touch else l

/-- `ResourceFetcher::HandleLoadCompletion`. -/
def handleLoadCompletion (l : Load) : Load := l.didLoadResource

/-- `ResourceFetcher::HandleLoaderError`: the loader, the URL and the identifier are read, then
the resource is finished. -/
def handleLoaderError (l : Load) (client : List ClientAct) : Load :=
  (l.touch.touch.finishAsError client).handleLoadCompletion

/-- `ResourceFetcher::HandleLoaderFinish`. -/
def handleLoaderFinish (l : Load) (client : List ClientAct) : Load :=
  (l.touch.touch.finish client).handleLoadCompletion

/-- `ResourceLoader::HandleError`. -/
def handleError (l : Load) (client : List ClientAct) : Load := l.handleLoaderError client

/-- `ResourceLoader::DidFail`. -/
def didFail (l : Load) (client : List ClientAct) : Load := l.handleError client

/-- `ResourceLoader::DidFinishLoading`, with the local copy of the shared pointer. -/
def didFinishLoading (l : Load) (client : List ClientAct) : Load :=
  { ({ l with localCopy := true }).handleLoaderFinish client with localCopy := false }

/-- `ResourceLoader::DidReceiveData`. -/
def didReceiveData (l : Load) (client : List ClientAct) : Load :=
  let l := l.touch.touch
  if l.isClient then l.acts client else l

/-- `ResourceLoader::DidReceiveResponse`. -/
def didReceiveResponse (l : Load) (client : List ClientAct) : Load :=
  let l := l.touch.touch
  let l := if l.isClient then l.acts client else l
  l.touch

/-! ## Runs -/

/-- A callback of the loader with what the client does in it, or other code of the client. -/
inductive Callback where
  | response (client : List ClientAct)
  | data (client : List ClientAct)
  | finish (client : List ClientAct)
  | fail (client : List ClientAct)
  | other (client : List ClientAct)
  deriving DecidableEq

/-- The loader calls back as long as it exists. -/
def next (l : Load) : Callback → Option Load
  | .response client => if l.loader then some (l.didReceiveResponse client) else none
  | .data client => if l.loader then some (l.didReceiveData client) else none
  | .finish client => if l.loader then some (l.didFinishLoading client) else none
  | .fail client => if l.loader then some (l.didFail client) else none
  | .other client => some (l.acts client)

/-- A load that has been started, for a client or for none. -/
def start (type : ResourceType) (client : Bool) (others : Nat) (document : Bool) : Load where
  type := type
  status := .kPending
  loader := true
  isClient := client
  isFinishedClient := false
  owners := { client := client, others := others, document := document }
  localCopy := false
  usedAfterRelease := false

/-- No member was used after the last shared pointer had gone. -/
def Kept (l : Load) : Prop := l.usedAfterRelease = false

/-- The owners when the client, if the resource still has it, has done its part. -/
def notifiedOwners (l : Load) (client : List ClientAct) : Owners :=
  if l.isClient then l.owners.acts client else l.owners

/-- A failure that the resource survives: it is shared as the failure arrives, and when the client
has done its part it still is, or there is no document to be told. -/
def FailsSafely (l : Load) (client : List ClientAct) : Prop :=
  l.owners.Shared ∧
    ((l.notifiedOwners client).Shared ∨ (l.notifiedOwners client).document = false)

/-- The callbacks that the resource survives. -/
def Survives (l : Load) : Callback → Prop
  | .fail client => l.loader = true → l.FailsSafely client
  | _ => True

/-! ## What the client can change -/

theorem touch_of_alive {l : Load} (h : l.Alive) : l.touch = l := if_pos h

theorem touch_of_not_alive {l : Load} (h : ¬ l.Alive) :
    l.touch = { l with usedAfterRelease := true } := if_neg h

/-- The members that the client leaves as they are: it uses the resource only through a shared
pointer that it has. -/
structure Untouched (l l' : Load) : Prop where
  loader : l'.loader = l.loader
  localCopy : l'.localCopy = l.localCopy
  usedAfterRelease : l'.usedAfterRelease = l.usedAfterRelease

theorem Untouched.trans {l l' l'' : Load} (h : Untouched l l') (h' : Untouched l' l'') :
    Untouched l l'' :=
  ⟨h'.loader.trans h.loader, h'.localCopy.trans h.localCopy,
    h'.usedAfterRelease.trans h.usedAfterRelease⟩

theorem act_spec (l : Load) (a : ClientAct) :
    Untouched l (l.act a) ∧ (l.act a).owners = l.owners.act a := by
  unfold act
  split
  · rename_i h
    have halive : l.Alive := .inr (.inr (.inl h.2))
    unfold removeClient
    rw [touch_of_alive halive]
    refine ⟨?_, rfl⟩
    simp only
    split <;> exact ⟨rfl, rfl, rfl⟩
  · exact ⟨⟨rfl, rfl, rfl⟩, rfl⟩

theorem acts_spec (l : Load) (as : List ClientAct) :
    Untouched l (l.acts as) ∧ (l.acts as).owners = l.owners.acts as := by
  induction as generalizing l with
  | nil => exact ⟨⟨rfl, rfl, rfl⟩, rfl⟩
  | cons a as ih =>
    obtain ⟨h1, ho1⟩ := l.act_spec a
    obtain ⟨h2, ho2⟩ := ih (l.act a)
    refine ⟨h1.trans h2, ?_⟩
    rw [ho1] at ho2
    exact ho2

/-! ## The terminal notification -/

/-- What the last notification does to a resource that something keeps alive. -/
theorem notifyFinished_spec {l : Load} (h : l.Alive) (client : List ClientAct) :
    Untouched l (l.notifyFinished client) ∧
      (l.notifyFinished client).owners = l.notifiedOwners client := by
  unfold notifyFinished notifiedOwners
  rw [touch_of_alive h]
  simp only
  split
  · rename_i hclient
    have hmark : l.markClientFinished = { l with isClient := false, isFinishedClient := true } := by
      unfold markClientFinished
      rw [touch_of_alive h]
      exact if_pos hclient
    rw [hmark]
    obtain ⟨huntouched, howners⟩ :=
      acts_spec { l with isClient := false, isFinishedClient := true } client
    exact ⟨⟨huntouched.loader, huntouched.localCopy, huntouched.usedAfterRelease⟩, howners⟩
  · exact ⟨⟨rfl, rfl, rfl⟩, rfl⟩

/-- The resource as its loader has been destroyed. -/
def finished (l : Load) (status : ResourceStatus) : Load :=
  { l with status := status, loader := false }

/-- The part that both endings share, from the destruction of the loader on. -/
def notifyEnd (l : Load) (client : List ClientAct) : Load :=
  (l.triggerNotificationForFinishObservers.notifyFinished client).handleLoadCompletion

theorem handleLoaderError_eq {l : Load} (h : l.loader = true) (client : List ClientAct) :
    ∃ status, l.handleLoaderError client = (l.finished status).notifyEnd client := by
  have halive : l.Alive := .inl h
  unfold handleLoaderError finishAsError resetLoader
  simp only [touch_of_alive halive]
  split
  · rw [touch_of_alive halive]
    exact ⟨l.status, rfl⟩
  · refine ⟨.kLoadError, ?_⟩
    rw [touch_of_alive (show Load.Alive { l with status := .kLoadError } from .inl h)]
    rfl

theorem handleLoaderFinish_eq {l : Load} (h : l.loader = true) (client : List ClientAct) :
    ∃ status, l.handleLoaderFinish client = (l.finished status).notifyEnd client := by
  have halive : l.Alive := .inl h
  unfold handleLoaderFinish finish resetLoader
  simp only [touch_of_alive halive]
  split
  · rw [touch_of_alive halive]
    exact ⟨l.status, rfl⟩
  · refine ⟨.kCached, ?_⟩
    rw [touch_of_alive (show Load.Alive { l with status := .kCached } from .inl h)]
    rfl

/-- A use after the release is not undone. -/
theorem touch_used {l : Load} (h : l.usedAfterRelease = true) :
    l.touch.usedAfterRelease = true := by
  unfold touch
  split
  · exact h
  · rfl

theorem notifyEnd_used {l : Load} (h : ¬ l.Alive) (client : List ClientAct) :
    (l.notifyEnd client).usedAfterRelease = true := by
  have hused : l.touch.usedAfterRelease = true := by rw [touch_of_not_alive h]
  have hnotified : (l.touch.notifyFinished client).usedAfterRelease = true := by
    unfold notifyFinished
    simp only
    split
    · rw [(acts_spec _ client).1.usedAfterRelease]
      unfold markClientFinished
      simp only
      split
      · exact touch_used (touch_used hused)
      · exact touch_used (touch_used hused)
    · exact touch_used hused
  unfold notifyEnd triggerNotificationForFinishObservers handleLoadCompletion didLoadResource
  split
  · exact touch_used hnotified
  · exact hnotified

/-- **The end of a load that is still alive without its loader.** The resource is used after its
release exactly when nothing keeps it and a document is told. -/
theorem notifyEnd_kept_iff {l : Load} (h : l.Alive) (hkept : l.Kept) (hloader : l.loader = false)
    (client : List ClientAct) :
    (l.notifyEnd client).Kept ↔ l.localCopy = true ∨ (l.notifiedOwners client).Shared ∨
      (l.notifiedOwners client).document = false := by
  obtain ⟨huntouched, howners⟩ := notifyFinished_spec h client
  unfold notifyEnd triggerNotificationForFinishObservers handleLoadCompletion didLoadResource
  rw [touch_of_alive h, howners]
  have hkept' : (l.notifyFinished client).Kept := huntouched.usedAfterRelease.trans hkept
  have halive : (l.notifyFinished client).Alive ↔
      l.localCopy = true ∨ (l.notifiedOwners client).Shared := by
    unfold Alive
    rw [huntouched.loader, huntouched.localCopy, howners, hloader]
    simp
  cases hdocument : (l.notifiedOwners client).document with
  | false => simp [hkept']
  | true =>
    rw [if_pos rfl]
    rcases Decidable.em (l.notifyFinished client).Alive with hal | hal
    · rw [touch_of_alive hal]
      exact iff_of_true hkept' ((halive.mp hal).imp_right .inl)
    · rw [touch_of_not_alive hal]
      refine iff_of_false (fun hk => ?_) (fun hor => hal (halive.mpr ?_))
      · cases hk
      · exact hor.imp_right fun hs => hs.resolve_right (fun hd => by cases hd)

/-- **A failure.** -/
theorem didFail_kept_iff {l : Load} (h : l.loader = true) (hcopy : l.localCopy = false)
    (hkept : l.Kept) (client : List ClientAct) :
    (l.didFail client).Kept ↔ l.FailsSafely client := by
  unfold didFail handleError FailsSafely
  obtain ⟨status, heq⟩ := handleLoaderError_eq h client
  rw [heq]
  rcases Decidable.em l.owners.Shared with hshared | hshared
  · rw [notifyEnd_kept_iff (l := l.finished status) (.inr (.inr hshared)) hkept rfl client]
    have hnone : (l.finished status).localCopy = false := hcopy
    rw [hnone]
    simp only [Bool.false_eq_true, false_or, hshared, true_and]
    exact Iff.rfl
  · refine iff_of_false (fun hk => ?_) (fun hs => hshared hs.1)
    have hdead : ¬ (l.finished status).Alive := by
      rintro (hl | hl | hl)
      · cases hl
      · exact Bool.false_ne_true (hcopy.symm.trans hl)
      · exact hshared hl
    exact Bool.false_ne_true (hk.symm.trans (notifyEnd_used hdead client))

/-- **A success never uses the resource after its release**: the local copy outlives the calls. -/
theorem didFinishLoading_kept {l : Load} (h : l.loader = true) (hkept : l.Kept)
    (client : List ClientAct) : (l.didFinishLoading client).Kept := by
  obtain ⟨status, heq⟩ := handleLoaderFinish_eq (l := { l with localCopy := true }) h client
  unfold didFinishLoading
  rw [heq]
  exact (notifyEnd_kept_iff (l := ({ l with localCopy := true } : Load).finished status)
    (.inr (.inl rfl)) hkept rfl client).mpr (.inl rfl)

/-! ## Runs of callbacks -/

theorem touch_localCopy (l : Load) : l.touch.localCopy = l.localCopy := by
  unfold touch
  split <;> rfl

theorem notifyEnd_localCopy (l : Load) (client : List ClientAct) :
    (l.notifyEnd client).localCopy = l.localCopy := by
  have hnotified : (l.touch.notifyFinished client).localCopy = l.localCopy := by
    unfold notifyFinished
    simp only
    split
    · rw [(acts_spec _ client).1.localCopy]
      unfold markClientFinished
      simp only
      split <;> simp only [touch_localCopy]
    · simp only [touch_localCopy]
  unfold notifyEnd triggerNotificationForFinishObservers handleLoadCompletion didLoadResource
  split
  · rw [touch_localCopy, hnotified]
  · exact hnotified

/-- The callbacks before the end leave the loader, and with it the resource, in place. -/
theorem didReceiveData_untouched {l : Load} (h : l.loader = true) (client : List ClientAct) :
    Untouched l (l.didReceiveData client) := by
  unfold didReceiveData
  rw [touch_of_alive (.inl h), touch_of_alive (.inl h)]
  simp only
  split
  · exact (acts_spec l client).1
  · exact ⟨rfl, rfl, rfl⟩

theorem didReceiveResponse_untouched {l : Load} (h : l.loader = true) (client : List ClientAct) :
    Untouched l (l.didReceiveResponse client) := by
  have hdata := didReceiveData_untouched h client
  have hresponse : l.didReceiveResponse client = (l.didReceiveData client).touch := rfl
  rw [hresponse, touch_of_alive (.inl (hdata.loader.trans h))]
  exact hdata

/-- No local copy is left behind by a callback. -/
theorem next_localCopy {l l' : Load} {c : Callback} (h : l.localCopy = false)
    (hnext : next l c = some l') : l'.localCopy = false := by
  cases c with
  | response client =>
    simp only [next, Option.ite_none_right_eq_some, Option.some.injEq] at hnext
    obtain ⟨hloader, rfl⟩ := hnext
    exact (didReceiveResponse_untouched hloader client).localCopy.trans h
  | data client =>
    simp only [next, Option.ite_none_right_eq_some, Option.some.injEq] at hnext
    obtain ⟨hloader, rfl⟩ := hnext
    exact (didReceiveData_untouched hloader client).localCopy.trans h
  | finish client =>
    simp only [next, Option.ite_none_right_eq_some, Option.some.injEq] at hnext
    obtain ⟨-, rfl⟩ := hnext
    rfl
  | fail client =>
    simp only [next, Option.ite_none_right_eq_some, Option.some.injEq] at hnext
    obtain ⟨hloader, rfl⟩ := hnext
    obtain ⟨status, heq⟩ := handleLoaderError_eq hloader client
    unfold didFail handleError
    rw [heq, notifyEnd_localCopy]
    exact h
  | other client =>
    simp only [next, Option.some.injEq] at hnext
    subst hnext
    exact (acts_spec l client).1.localCopy.trans h

/-- One callback. -/
theorem next_kept_iff {l l' : Load} {c : Callback} (hcopy : l.localCopy = false) (hkept : l.Kept)
    (hnext : next l c = some l') : l.Survives c ↔ l'.Kept := by
  cases c with
  | response client =>
    simp only [next, Option.ite_none_right_eq_some, Option.some.injEq] at hnext
    obtain ⟨hloader, rfl⟩ := hnext
    exact iff_of_true trivial
      ((didReceiveResponse_untouched hloader client).usedAfterRelease.trans hkept)
  | data client =>
    simp only [next, Option.ite_none_right_eq_some, Option.some.injEq] at hnext
    obtain ⟨hloader, rfl⟩ := hnext
    exact iff_of_true trivial
      ((didReceiveData_untouched hloader client).usedAfterRelease.trans hkept)
  | finish client =>
    simp only [next, Option.ite_none_right_eq_some, Option.some.injEq] at hnext
    obtain ⟨hloader, rfl⟩ := hnext
    exact iff_of_true trivial (didFinishLoading_kept hloader hkept client)
  | fail client =>
    simp only [next, Option.ite_none_right_eq_some, Option.some.injEq] at hnext
    obtain ⟨hloader, rfl⟩ := hnext
    rw [didFail_kept_iff hloader hcopy hkept]
    exact ⟨fun h => h hloader, fun h _ => h⟩
  | other client =>
    simp only [next, Option.some.injEq] at hnext
    subst hnext
    exact iff_of_true trivial ((acts_spec l client).1.usedAfterRelease.trans hkept)

/-- **When a resource outlives its notifications.** In a run of callbacks, with any acts of the
client in them and between them, no member is used after the last shared pointer has gone exactly
when every failure arrives at a resource that something besides the loader shares, and leaves one
that is still shared or a fetch context without a document. -/
theorem resource_kept_iff (type : ResourceType) (client : Bool) (others : Nat) (document : Bool)
    (callbacks : List Callback) :
    Always (machine next) Kept True (start type client others document) callbacks ↔
      Allowed (machine next) Survives (start type client others document) callbacks := by
  have hcopy : (start type client others document).localCopy = false := rfl
  have hkept : (start type client others document).Kept := rfl
  refine always_iff_allowed (J := fun l : Load => l.localCopy = false) ?_ ?_ hcopy hkept callbacks
  · rintro l c ⟨l', u⟩ hcopy hstep
    exact next_localCopy hcopy (machine_eq_ok hstep)
  · intro l c hcopy hkept
    unfold machine
    cases hnext : next l c with
    | none =>
      refine iff_of_true ?_ trivial
      cases c with
      | fail acts =>
        intro hloader
        simp [next, hloader] at hnext
      | _ => trivial
    | some l' => exact next_kept_iff hcopy hkept hnext

/-- **A main resource fails after its document was committed, and its client lets go of it**: its
type is read behind the last shared pointer. -/
theorem committed_failure_releases :
    ¬ Always (machine next) Kept True (start .kMainResource true 0 false)
      [.response [], .data [.setDocument true], .fail [.clearResource]] := by
  intro h
  have hkept : Kept ((((start .kMainResource true 0 false).didReceiveResponse []).didReceiveData
      [.setDocument true]).didFail [.clearResource]) := h.2.2.2
  have hused : ((((start .kMainResource true 0 false).didReceiveResponse []).didReceiveData
      [.setDocument true]).didFail [.clearResource]).usedAfterRelease = true := by decide
  exact Bool.false_ne_true (hkept.symm.trans hused)

end Load

end Blinkit.Loader
