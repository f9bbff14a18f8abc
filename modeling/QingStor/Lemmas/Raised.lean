import QingStor.Api
import QingStor.Lemmas.Requests

/-!
# What is thrown before it is caught

Of each operation, what it would come to if no handler on the way threw again: the exception is then the one a `THROW` raised.
The operation comes to that, once through a handler `throw e`, however many of them there are.
-/

namespace QingStor

variable {α γ : Type*}

/-- What the last attempt of `DoGetJSON` comes to, before the handler in it. -/
def requestRaised (J : JsonC) (a : RequestArgs) (md : Option MemoryData) (retries : Int) (xs : Nat → Exchange) :
    Except Fault Json :=
  let last := (doGetJSON J a md retries xs).last
  (doGetJSONTry J a (wireBefore J a md xs last).md (xs last)).result

/-- The `try` block of `listBuckets` after its request. -/
def listBucketsResponse (J : JsonC) : Except Fault Json → Except Fault (List BucketInfo)
  | .error f => .error f
  | .ok respBody =>
    if respBody.isNull then .error (throwing .qingStorNetworkException "could not list bucket \"%s\"")
    else
      match extractListBucketContent J respBody with
      | .error f => .error f
      | .ok none => .error (throwing .qingStorNetworkException "could not parse list bucket result \"%s\"")
      | .ok (some buckets) => .ok buckets

/-- The request of `listBuckets`. -/
def listBucketsArgs (cfg : Configuration) (location : Str) : RequestArgs :=
  ⟨cfg.mHost, cfg.mProtocol ++ lit "://" ++ cfg.mHost ++ lit "/", none, if location = [] then none else some location,
    cfg.credential, .listBucket⟩

/-- The `try` block of one turn of `listObjects`. -/
def listTurnRaised (J : JsonC) (Q : Qsort) (raised : Ask) (cfg : Configuration) (bucket keyPrefix : Str) (st : ListState) :
    Except Fault Unit :=
  match raised st (cfg.listUrl bucket keyPrefix st.currentMarker) with
  | .error f => .error f
  | .ok respBody =>
    let st := { st with
      responses := st.responses + 1, respBody := if respBody.isNull then none else some st.responses }
    if respBody.isNull then .error (throwing .qingStorNetworkException "could not list bucket \"%s\"")
    else
      match (extractListObjectContent J Q respBody st).1 with
      | .error f => .error f
      | .ok false => .error (listRefused J respBody)
      | .ok true => .ok ()

/-- The loop of `listObjects` up to the turn that ends it. -/
def listLoopRaised (J : JsonC) (Q : Qsort) (raised : Ask) (cfg : Configuration) (bucket keyPrefix : Str) :
    Nat → ListState → Option (Except Fault Unit)
  | 0, _ => none
  | fuel + 1, st =>
    match listTurnRaised J Q raised cfg bucket keyPrefix st with
    | .error f => some (.error f)
    | .ok () =>
      let st := (listTurn J Q raised cfg bucket keyPrefix st).state
      if st.eof then some (.ok ()) else listLoopRaised J Q raised cfg bucket keyPrefix fuel st

namespace QingStorWriter

variable (J : JsonC) (net : Network)

/-- `doSend` without its handlers. -/
def sendRaised (w : QingStorWriter) (data : List Byte) (length : Int) : Except Fault Unit :=
  match requestRaised J w.partArgs (some (partBody data length)) w.mConfiguration.mConnectionRetries (net w.calls.length) with
  | .error f => .error f
  | .ok respBody => if respBody.isNull then .ok () else .error (throwing .qingStorIOException "writer transfer data")

/-- The outer loop of `transferData` up to the part that ends it. -/
def loopRaised : Nat → QingStorWriter → List Byte → Option (Except Fault Unit)
  | 0, _, _ => none
  | fuel + 1, w, rest =>
    if rest = [] then some (.ok ())
    else
      let s := w.fill rest
      if s.1.mWritePos = s.1.mBuffSize then
        match sendRaised J net s.1 (s.1.mBuffer.getD []) s.1.mBuffSize with
        | .error f => some (.error f)
        | .ok () =>
          loopRaised fuel { (s.1.doSend J net (s.1.mBuffer.getD []) s.1.mBuffSize).writer with mWritePos := 0 } s.2
      else loopRaised fuel s.1 s.2

/-- `transferData` without its handlers. -/
def transferRaised (fuel : Nat) (w : QingStorWriter) (buffer : List Byte) : Option (Except Fault Unit) :=
  if ¬ w.mCache then some (w.sendRaised J net buffer buffer.length) else loopRaised J net fuel w buffer

/-- `flush` without its handlers. -/
def flushRaised (w : QingStorWriter) : Except Fault Unit :=
  if w.mCache then w.sendRaised J net (w.mBuffer.getD []) w.mWritePos
  else if w.mPartNum = 0 then w.sendRaised J net (w.mBuffer.getD []) w.mWritePos
  else .ok ()

/-- `completeMultipartUpload` without its handler. -/
def completeRaised (w : QingStorWriter) : Except Fault Unit :=
  let body := cString (J.toJsonString w.completeBody)
  (requestRaised J (w.uploadArgs .compMpUpload) (some ⟨body, body.length⟩) w.mConfiguration.mConnectionRetries
    (net w.calls.length)).map (fun _ => ())

/-- `close` without its handlers. -/
def closeRaised (w : QingStorWriter) : Except Fault Unit :=
  if w.mCanceled then .ok ()
  else
    match w.flushRaised J net with
    | .error f => .error f
    | .ok () => (w.flush J net).writer.completeRaised J net

/-- `cancel` without its handler. -/
def cancelRaised (w : QingStorWriter) : Except Fault Unit :=
  (requestRaised J (w.uploadArgs .abortMpUpload) none w.mConfiguration.mConnectionRetries (net w.calls.length)).map (fun _ => ())

end QingStorWriter

/-! ## Handlers that throw again -/

/-- What was thrown as an object of its static type is thrown so again. -/
theorem rethrown_rethrown (f : Fault) : f.rethrown.rethrown = f.rethrown := by
  cases f with
  | undefined what => rfl
  | thrown e =>
    obtain ⟨cls, what⟩ := e
    cases cls <;> rfl

/-- A second handler around a block changes nothing, when the block passes on what it is given. -/
theorem rethrowing_through {R : Except Fault α → Except Fault γ} (hR : ∀ f, R (.error f) = .error f) (r : Except Fault α) :
    rethrowing (R (rethrowing r)) = rethrowing (R r) := by
  cases r with
  | ok a => rfl
  | error f =>
    unfold rethrowing
    dsimp only
    rw [hR, hR]
    dsimp only
    rw [rethrown_rethrown]

/-- `DoGetJSON` comes to what its last attempt raised, through the handler in it. -/
theorem doGetJSON_raised (J : JsonC) (a : RequestArgs) (md : Option MemoryData) (retries : Int) (xs : Nat → Exchange) :
    (doGetJSON J a md retries xs).result = rethrowing (requestRaised J a md retries xs) := by
  obtain ⟨n, hlast, hresult⟩ := Lib.retry_last (tryGetJSON J a xs) Fault.isThrown (retries - 1).toNat 0 ⟨md, []⟩
  rw [Nat.zero_add] at hlast hresult
  unfold requestRaised
  change (doGetJSON J a md retries xs).last = n at hlast
  dsimp only
  rw [hlast]
  exact hresult

/-! ## The operations of `Context` -/

section

variable (J : JsonC) (ctx : Context) (xs : Nat → Exchange)

/-- `listBuckets` comes to what was raised in it, through one handler. -/
theorem listBuckets_raised (location : Str) : ctx.listBuckets J location xs =
    rethrowing (listBucketsResponse J (requestRaised J (listBucketsArgs ctx.mConfiguration location) none
      ctx.mConfiguration.mConnectionRetries xs)) := by
  rw [← rethrowing_through (fun _ => rfl), ← doGetJSON_raised]
  rfl

/-- So do the requests whose answer is not read. -/
theorem request_raised (args : RequestArgs) : ctx.request J args xs =
    rethrowing ((requestRaised J args none ctx.mConfiguration.mConnectionRetries xs).map (fun _ => ())) := by
  rw [← rethrowing_through (R := fun r => r.map (fun _ => ())) (fun _ => rfl), ← doGetJSON_raised]
  rfl

/-- So does `headObject`. -/
theorem headObject_raised (bucket key : Str) : ctx.headObject J bucket key xs =
    rethrowing (headResponse J (requestRaised J (objectArgs ctx.mConfiguration bucket key .headObject) none
      ctx.mConfiguration.mConnectionRetries xs)) := by
  rw [← rethrowing_through (fun _ => rfl), ← doGetJSON_raised]
  rfl

/-- So does the opening of an upload. -/
theorem initMultipartUpload_raised (cfg : Configuration) (bucket key : Str) : initMultipartUpload J cfg bucket key xs =
    rethrowing (initResponse J (requestRaised J (initArgs cfg bucket key) none cfg.mConnectionRetries xs)) := by
  rw [← rethrowing_through (fun _ => rfl), ← doGetJSON_raised]
  rfl

/-! ## The listing -/

variable {J : JsonC} {Q : Qsort} {ask raised : Ask}

/-- The handler of a turn throws on what it caught. -/
theorem caught_result (st : ListState) (f : Fault) : (st.caught f).result = .error f.rethrown := by
  cases f <;> rfl

/-- A turn of the listing comes to what was raised in it, through its handler; one that ends well goes on as if there were no
handler in the request. -/
theorem listTurn_raised (hask : ∀ st url, ask st url = rethrowing (raised st url)) (cfg : Configuration) (bucket keyPrefix : Str)
    (st : ListState) :
    (listTurn J Q ask cfg bucket keyPrefix st).result = rethrowing (listTurnRaised J Q raised cfg bucket keyPrefix st) ∧
      (listTurnRaised J Q raised cfg bucket keyPrefix st = .ok () →
        (listTurn J Q ask cfg bucket keyPrefix st).state = (listTurn J Q raised cfg bucket keyPrefix st).state) := by
  unfold listTurn listTurnRaised
  rw [hask]
  cases raised st (cfg.listUrl bucket keyPrefix st.currentMarker) with
  | error f =>
    refine ⟨?_, fun h => by cases h⟩
    simp only [rethrowing, caught_result, rethrown_rethrown]
  | ok respBody =>
    refine ⟨?_, fun _ => rfl⟩
    simp only [rethrowing]
    split
    · simp only [caught_result]
    · split
      · rename_i f st' hf
        simp only [caught_result, hf]
      · rename_i st' hf
        simp only [caught_result, hf]
      · rename_i st' hf
        simp only [hf]

/-- The loop of the listing comes to what was raised in its last turn, through the handler. -/
theorem listLoop_raised (hask : ∀ st url, ask st url = rethrowing (raised st url)) (cfg : Configuration) (bucket keyPrefix : Str)
    (fuel : Nat) (st : ListState) : (listLoop J Q ask cfg bucket keyPrefix fuel st).map (·.result) =
      (listLoopRaised J Q raised cfg bucket keyPrefix fuel st).map rethrowing := by
  induction fuel generalizing st with
  | zero => rfl
  | succ fuel ih =>
    obtain ⟨hresult, hstate⟩ := listTurn_raised (J := J) (Q := Q) hask cfg bucket keyPrefix st
    unfold listLoop listLoopRaised
    dsimp only
    rw [hresult]
    cases hr : listTurnRaised J Q raised cfg bucket keyPrefix st with
    | error f =>
      rw [hr] at hresult
      simp only [rethrowing, Option.map_some, hresult]
    | ok u =>
      rw [hr] at hresult
      simp only [rethrowing, hstate hr]
      split
      · simp only [Option.map_some, hresult, rethrowing]
      · exact ih _

/-! ## The operations of a writer -/

namespace QingStorWriter

variable {net : Network}

/-- A part that was answered was stored: its answer is a null pointer. -/
theorem part_answer {w : QingStorWriter} {data : List Byte} {length : Int} {j : Json} {xs : Nat → Exchange}
    (h : (doGetJSON J w.partArgs (some (partBody data length)) w.mConfiguration.mConnectionRetries xs).result = .ok j) :
    j = .null := by
  obtain ⟨_, n, _, _, hx, _⟩ := doGetJSON_ok (fun _ => rfl) h
  exact hx.2.2.2

/-- `doSend` comes to what was raised in it, through one handler. -/
theorem doSend_raised (w : QingStorWriter) (data : List Byte) (length : Int) :
    (w.doSend J net data length).result = rethrowing (w.sendRaised J net data length) := by
  have hrequest := doGetJSON_raised J w.partArgs (some (partBody data length)) w.mConfiguration.mConnectionRetries
    (net w.calls.length)
  unfold doSend uploadMultipart sendRaised
  dsimp only
  cases hr : requestRaised J w.partArgs (some (partBody data length)) w.mConfiguration.mConnectionRetries
      (net w.calls.length) with
  | error f =>
    rw [hrequest, hr]
    simp only [rethrowing, rethrown_rethrown]
  | ok j =>
    rw [hr] at hrequest
    obtain rfl := part_answer hrequest
    rw [hrequest]
    rfl

/-- So do the loops of `transferData`. -/
theorem transferLoop_raised (fuel : Nat) (w : QingStorWriter) (rest : List Byte) :
    (w.transferLoop J net fuel rest).map (·.result) = (loopRaised J net fuel w rest).map rethrowing := by
  induction fuel generalizing w rest with
  | zero => rfl
  | succ fuel ih =>
    unfold transferLoop loopRaised
    split
    · rfl
    · dsimp only
      split
      · rw [doSend_raised]
        cases sendRaised J net (w.fill rest).1 ((w.fill rest).1.mBuffer.getD []) (w.fill rest).1.mBuffSize with
        | error f => rfl
        | ok u => exact ih _ _
      · exact ih _ _

/-- So does `transferData`, with and without a cache. -/
theorem transferData_raised (fuel : Nat) (w : QingStorWriter) (buffer : List Byte) :
    (w.transferData J net fuel buffer).map (·.result) = (w.transferRaised J net fuel buffer).map rethrowing := by
  unfold transferData transferRaised
  split
  · rw [Option.map_some, Option.map_some, doSend_raised]
  · exact transferLoop_raised fuel w buffer

/-- So does `flush`. -/
theorem flush_raised (w : QingStorWriter) : (w.flush J net).result = rethrowing (w.flushRaised J net) := by
  have hsend : (w.doSend J net (w.mBuffer.getD []) w.mWritePos).result =
      rethrowing (w.sendRaised J net (w.mBuffer.getD []) w.mWritePos) := w.doSend_raised _ _
  unfold flush flushRaised
  split
  · dsimp only
    rw [hsend]
    cases w.sendRaised J net (w.mBuffer.getD []) w.mWritePos <;> rfl
  · split
    · exact hsend
    · rfl

/-- So does the completion. -/
theorem complete_raised (w : QingStorWriter) :
    (w.completeMultipartUpload J net).result = rethrowing (w.completeRaised J net) := by
  unfold completeMultipartUpload completeRaised
  dsimp only
  rw [doGetJSON_raised]
  cases requestRaised J (w.uploadArgs .compMpUpload) (some ⟨cString (J.toJsonString w.completeBody),
      (cString (J.toJsonString w.completeBody)).length⟩) w.mConfiguration.mConnectionRetries (net w.calls.length) with
  | error f => simp only [rethrowing, rethrown_rethrown, Except.map]
  | ok j => rfl

/-- So does `close`. -/
theorem close_raised (w : QingStorWriter) : (w.close J net).result = rethrowing (w.closeRaised J net) := by
  unfold close closeRaised
  split
  · rfl
  · dsimp only
    rw [flush_raised]
    cases w.flushRaised J net with
    | error f => rfl
    | ok u =>
      simp only [rethrowing]
      rw [complete_raised]
      cases (w.flush J net).writer.completeRaised J net <;> rfl

/-- So does `cancel`. -/
theorem cancel_raised (w : QingStorWriter) : (w.cancel J net).result = rethrowing (w.cancelRaised J net) := by
  unfold cancel abortMultipartUpload cancelRaised
  rw [doGetJSON_raised]
  cases requestRaised J (w.uploadArgs .abortMpUpload) none w.mConfiguration.mConnectionRetries (net w.calls.length) with
  | error f => simp only [rethrowing, rethrown_rethrown, Except.map]
  | ok j => rfl

end QingStorWriter

end

end QingStor
