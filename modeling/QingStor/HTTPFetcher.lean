import QingStor.Common

/-!
# One range request: `HTTPFetcher.cpp`

An `HTTPFetcher` reads one range of an object through one easy handle at a time and keeps what it has not handed out in a
buffer with two cursors. Curl's side is `Multi`: the easy handles registered with the multi handle, each with the response the
server makes to its attempt, and a record of what the callback took and of the calls made on handles. The code only moves the
bytes of an object, so their type is a parameter `β`.
-/

namespace QingStor

variable {β : Type*}

/-! ## Curl's side -/

/-- The value of a `CURL *`: the constructor of the fetcher does not set it. -/
inductive CurlPtr where
  | indeterminate
  | null
  | easy (h : Nat)
  deriving DecidableEq, Repr

/-- The text of a `Range` header: `bytes=%ld-%ld` or `bytes=%ld-`. -/
inductive RangeHeader where
  | fromTo (first last : Int)
  | fromOn (first : Int)
  deriving DecidableEq, Repr

def RangeHeader.text : RangeHeader → Str
  | .fromTo first last => lit "bytes=" ++ decimal first ++ lit "-" ++ decimal last
  | .fromOn first => lit "bytes=" ++ decimal first ++ lit "-"

/-- What the server answers to one attempt: the status, the body in full, and the code curl reports when it was delivered. -/
structure Response (β : Type*) where
  status : Nat
  body : List β
  res : CURLcode

/-- An easy handle registered with the multi handle: the fetcher its write callback was given, the status of its response,
the bytes that were not yet taken, whether the callback has paused it and whether its end was reported. -/
structure Transfer (β : Type*) where
  easy : Nat
  userp : Nat
  status : Nat
  rest : List β
  res : CURLcode
  paused : Bool
  ended : Bool

/-- A call on an easy handle. -/
inductive CurlCall where
  | easyInit (h : Nat)
  | multiAdd (h : Nat)
  | multiRemove (p : CurlPtr)
  | easyCleanup (p : CurlPtr)
  | easyPause (p : CurlPtr)
  | easyGetinfo (p : CurlPtr)
  deriving DecidableEq, Repr

/-- A piece the write callback took: the fetcher it was for, the status of the response it is part of, its bytes. -/
structure Piece (β : Type*) where
  userp : Nat
  status : Nat
  bytes : List β

/-- The multi handle. `dangling` records that a delivery had no fetcher to go to any more. -/
structure Multi (β : Type*) where
  fresh : Nat
  transfers : List (Transfer β)
  taken : List (Piece β)
  calls : List CurlCall
  dangling : Bool

def Multi.empty : Multi β := ⟨0, [], [], [], false⟩

def Multi.find? (m : Multi β) (h : Nat) : Option (Transfer β) := m.transfers.find? (fun t => t.easy = h)

def Multi.update (m : Multi β) (h : Nat) (g : Transfer β → Transfer β) : Multi β :=
  { m with transfers := m.transfers.map (fun t => if t.easy = h then g t else t) }

/-- What the outside does while `HTTPFetcher::start` runs: whether the buffer can be allocated, whether curl has a handle,
what signing takes, whether signing gets its memory, and the response to the request, by the range it asks for. -/
structure StartEnv (β : Type*) where
  malloc : Bool
  easyInit : Bool
  signer : Signer
  signs : Bool
  respond : Option RangeHeader → Response β

/-- `curl_easy_init` and `curl_multi_add_handle`, with the write callback's argument. Until headers are set the request asks
for no range. -/
def Multi.addHandle (m : Multi β) (userp : Nat) (resp : Response β) : Multi β :=
  { m with
    fresh := m.fresh + 1
    transfers := m.transfers ++ [⟨m.fresh, userp, resp.status, resp.body, resp.res, false, false⟩]
    calls := m.calls ++ [.easyInit m.fresh, .multiAdd m.fresh] }

/-- `CURLOPT_HTTPHEADER`: from here on the request is the one the headers make. -/
def Multi.setHeaders (m : Multi β) (h : Nat) (resp : Response β) : Multi β :=
  m.update h (fun t => { t with status := resp.status, rest := resp.body, res := resp.res })

/-- `curl_multi_remove_handle`: the handle and its pending message are gone. -/
def Multi.removeHandle (m : Multi β) (p : CurlPtr) : Multi β :=
  { m with
    transfers := match p with
      | .easy h => m.transfers.filter (fun t => t.easy ≠ h)
      | _ => m.transfers
    calls := m.calls ++ [.multiRemove p] }

/-- `curl_easy_cleanup` -/
def Multi.easyCleanup (m : Multi β) (p : CurlPtr) : Multi β := { m with calls := m.calls ++ [.easyCleanup p] }

/-- `curl_easy_pause(p, CURLPAUSE_CONT)` before it delivers anything; on a handle curl does not have it reports a bad
argument. -/
def Multi.easyPause (m : Multi β) (p : CurlPtr) : Multi β :=
  let m := { m with calls := m.calls ++ [.easyPause p] }
  match p with
  | .easy h => m.update h (fun t => { t with paused := false })
  | _ => m

/-! ## The fetcher -/

inductive FetcherState where
  | init | running | failed | done
  deriving DecidableEq, Repr

/-- `CURL_MAX_WRITE_SIZE` -/
def curlMaxWriteSize : Int := 16384

/-- `HTTPFetcher`. `this` is its address; `mReadBuff` is `none` while it is null, and otherwise the cells written so far. -/
structure HTTPFetcher (β : Type*) where
  this : Nat
  mState : FetcherState
  mCurl : CurlPtr
  mPaused : Bool
  mHttpHeaders : Option (List Str)
  mParent : Bool
  mUrl : Str
  mBucket : Str
  mHost : Str
  mCred : QSCredential
  mConfBuffSize : Int
  mOffset : Int
  mLen : Int
  mBytesDone : Int
  mHeaders : HeaderContent
  mReadBuff : Option (List β)
  mBuffSize : Nat
  mNused : Nat
  mReadOff : Nat
  mNFailures : Nat

/-- The constructor. The length arrives as an `int`. -/
def HTTPFetcher.make (this : Nat) (url host bucket : Str) (cred : QSCredential) (buffsize offset len : Int) :
    HTTPFetcher β where
  this := this
  mState := .init
  mCurl := .indeterminate
  mPaused := false
  mHttpHeaders := none
  mParent := false
  mUrl := url
  mBucket := bucket
  mHost := host
  mCred := cred
  mConfBuffSize := buffsize
  mOffset := offset
  mLen := toInt32 len
  mBytesDone := 0
  mHeaders := []
  mReadBuff := none
  mBuffSize := 0
  mNused := 0
  mReadOff := 0
  mNFailures := 0

/-- The bytes in the buffer that were not handed out. -/
def HTTPFetcher.unread (f : HTTPFetcher β) : List β := Lib.slice (f.mReadBuff.getD []) f.mReadOff (f.mNused - f.mReadOff)

/-! ### `WriterCallback` -/

/-- `if (mNused == mReadOff) mNused = mReadOff = 0` -/
def HTTPFetcher.rewind (f : HTTPFetcher β) : HTTPFetcher β :=
  if f.mNused = f.mReadOff then { f with mNused := 0, mReadOff := 0 } else f

/-- Shift the valid data in the buffer to make room for more. -/
def HTTPFetcher.shift (f : HTTPFetcher β) : HTTPFetcher β :=
  if f.mReadOff > 0 then
    { f with
      mReadBuff := f.mReadBuff.map (fun b => Lib.blit b 0 (Lib.slice b f.mReadOff (f.mNused - f.mReadOff)))
      mNused := f.mNused - f.mReadOff
      mReadOff := 0 }
  else f

/-- `memcpy(mReadBuff + mNused, contents, realsize); mNused += realsize` -/
def HTTPFetcher.store (f : HTTPFetcher β) (contents : List β) : HTTPFetcher β :=
  { f with
    mReadBuff := f.mReadBuff.map (fun b => Lib.blit b f.mNused contents)
    mNused := f.mNused + contents.length }

/-- `WriterCallback`: whether the piece was taken (otherwise the answer is `CURL_WRITEFUNC_PAUSE`), and the fetcher after. -/
def HTTPFetcher.writerCallback (f : HTTPFetcher β) (contents : List β) : Bool × HTTPFetcher β :=
  let f := f.rewind
  if contents.length > f.mBuffSize - f.mNused then
    let f := f.shift
    if contents.length > f.mBuffSize - f.mNused then (false, { f with mPaused := true })
    else (true, f.store contents)
  else (true, f.store contents)

/-- Curl offers the next `n` bytes of the transfer on handle `h`: nothing happens when the handle is paused, has ended or has
nothing left. -/
def HTTPFetcher.offer (f : HTTPFetcher β) (m : Multi β) (h n : Nat) : HTTPFetcher β × Multi β :=
  match m.find? h with
  | none => (f, m)
  | some t =>
    if t.paused ∨ t.ended ∨ (t.rest.take n).isEmpty then (f, m)
    else
      match f.writerCallback (t.rest.take n) with
      | (true, f) =>
        (f, { m.update h (fun t => { t with rest := t.rest.drop n }) with
          taken := m.taken ++ [⟨t.userp, t.status, t.rest.take n⟩] })
      | (false, f) => (f, m.update h (fun t => { t with paused := true }))

/-! ### `start` -/

/-- The size `start` gives the buffer. -/
def HTTPFetcher.confBuffSize (f : HTTPFetcher β) : Nat :=
  (if curlMaxWriteSize > f.mConfBuffSize then curlMaxWriteSize else f.mConfBuffSize).toNat

/-- `int64_t offset = mOffset + (mNused - mReadOff) + mBytesDone` -/
def HTTPFetcher.resumeOffset (f : HTTPFetcher β) : Int :=
  toInt64 (f.mOffset + ((f.mNused : Int) - f.mReadOff) + f.mBytesDone)

/-- `int64_t len = mLen - (mNused - mReadOff) - mBytesDone` -/
def HTTPFetcher.resumeLen (f : HTTPFetcher β) : Int :=
  toInt64 (f.mLen - ((f.mNused : Int) - f.mReadOff) - f.mBytesDone)

/-- The range `start` asks for; `none` when it sends no `Range` header. -/
def HTTPFetcher.range (f : HTTPFetcher β) : Option RangeHeader :=
  if f.mOffset + f.mBytesDone > 0 ∨ f.mLen ≥ 0 then
    if f.resumeLen ≥ 0 then some (.fromTo f.resumeOffset (f.resumeOffset + f.resumeLen - 1))
    else some (.fromOn f.resumeOffset)
  else none

/-- What a member function of a fetcher that may throw comes to: the fetcher and curl's side are as the throw left them. -/
structure FetcherStep (β : Type*) where
  result : Except Fault Unit
  fetcher : HTTPFetcher β
  multi : Multi β

/-- `HTTPFetcher::start`: a handle is registered before the headers of its request are set, and the state is set last. -/
def HTTPFetcher.start (f : HTTPFetcher β) (env : StartEnv β) (m : Multi β) : FetcherStep β :=
  let f := if f.mReadBuff.isNone then { f with mBuffSize := f.confBuffSize } else f
  if f.mReadBuff.isNone ∧ ¬ env.malloc then
    ⟨.error (throwing .outOfMemoryException "could not allocate enough memory for HTTPFetcher read buff"), f, m⟩
  else
    let f := if f.mReadBuff.isNone then { f with mReadBuff := some [] } else f
    if f.mState ≠ .init ∧ f.mState ≠ .failed then
      ⟨.error (throwing .qingStorException "invalid fetcher state"), f, m⟩
    else if ¬ env.easyInit then
      ⟨.error (throwing .qingStorNetworkException "could not create curl handle"), f, m⟩
    else
      let curl := m.fresh
      let m := m.addHandle f.this (env.respond none)
      let f := { f with mCurl := .easy curl, mParent := true, mHeaders := headerContentAdd f.mHeaders .host f.mHost }
      let f := match f.range with
        | some r => { f with mHeaders := headerContentAdd f.mHeaders .range r.text }
        | none => f
      match qsParseUrl f.mUrl with
      | .error e => ⟨.error e, f, m⟩
      | .ok (path, query) =>
        if ¬ env.signs then ⟨.error (.thrown ⟨.badAlloc, "std::bad_alloc"⟩), f, m⟩
        else
          match signature env.signer f.mHeaders (signedResource f.mBucket path query) f.mCred .getData none with
          | .error e => ⟨.error e, f, m⟩
          | .ok headers =>
            let f := { f with mHeaders := headers, mHttpHeaders := some (headerContentGetList headers), mState := .running }
            ⟨.ok (), f, m.setHeaders curl (env.respond f.range)⟩

/-! ### `cleanup`, `fail`, `done` -/

/-- `HTTPFetcher::cleanup` -/
def HTTPFetcher.cleanup (f : HTTPFetcher β) (m : Multi β) : HTTPFetcher β × Multi β :=
  let f' := { f with mHttpHeaders := none }
  if f.mCurl = .null then (f', m)
  else if f.mParent then ({ f' with mCurl := .null, mParent := false }, (m.removeHandle f.mCurl).easyCleanup f.mCurl)
  else ({ f' with mCurl := .null }, m.easyCleanup f.mCurl)

/-- `HTTPFetcher::fail` -/
def HTTPFetcher.fail (f : HTTPFetcher β) (m : Multi β) : HTTPFetcher β × Multi β :=
  ({ (f.cleanup m).1 with mState := .failed, mNFailures := f.mNFailures + 1 }, (f.cleanup m).2)

/-- `HTTPFetcher::done` -/
def HTTPFetcher.done (f : HTTPFetcher β) (m : Multi β) : HTTPFetcher β × Multi β :=
  ({ (f.cleanup m).1 with mState := .done }, (f.cleanup m).2)

/-! ### `get` -/

/-- What `get` answers: bytes, end of the fetcher, or neither for now. -/
inductive Got (β : Type*) where
  | bytes (bs : List β)
  | eof
  | nothing

/-- The first part of `get`: hand out up to `bufflen` of the unread bytes. -/
def HTTPFetcher.handOut (f : HTTPFetcher β) (bufflen : Nat) : Got β × HTTPFetcher β :=
  let avail := min (f.mNused - f.mReadOff) bufflen
  (.bytes (Lib.slice (f.mReadBuff.getD []) f.mReadOff avail),
    { f with mReadOff := f.mReadOff + avail, mBytesDone := f.mBytesDone + avail })

/-- `mPaused = false; curl_easy_pause(mCurl, CURLPAUSE_CONT)`, where curl delivers pieces of the sizes `ns` at once. -/
def HTTPFetcher.unpause (f : HTTPFetcher β) (m : Multi β) (ns : List Nat) : HTTPFetcher β × Multi β :=
  let f := { f with mPaused := false }
  let m := m.easyPause f.mCurl
  match f.mCurl with
  | .easy h => ns.foldl (fun s n => s.1.offer s.2 h n) (f, m)
  | _ => (f, m)

/-- The last part of `get`: the buffer is empty. -/
def HTTPFetcher.drained (f : HTTPFetcher β) : Got β := if f.mState = .done then .eof else .nothing

/-- `HTTPFetcher::get`. The list says what curl delivers at each `curl_easy_pause` of its loop, and nothing once it is used
up. -/
def HTTPFetcher.get (bufflen : Nat) : List (List Nat) → HTTPFetcher β → Multi β → Got β × HTTPFetcher β × Multi β
  | [], f, m =>
    if f.mNused - f.mReadOff > 0 then ((f.handOut bufflen).1, (f.handOut bufflen).2, m)
    else if f.mPaused then ((f.unpause m []).1.drained, f.unpause m [])
    else (f.drained, f, m)
  | ns :: resumes, f, m =>
    if f.mNused - f.mReadOff > 0 then ((f.handOut bufflen).1, (f.handOut bufflen).2, m)
    else if f.mPaused then get bufflen resumes (f.unpause m ns).1 (f.unpause m ns).2
    else (f.drained, f, m)

/-- The `goto retry` loop of `get`, for an outside that delivers pieces of the sizes `deliver i` at the `i`-th
`curl_easy_pause`. `none` when the loop has not ended after `fuel` turns. -/
def HTTPFetcher.retry (bufflen : Nat) (deliver : Nat → List Nat) :
    Nat → Nat → HTTPFetcher β → Multi β → Option (Got β × HTTPFetcher β × Multi β)
  | 0, _, _, _ => none
  | fuel + 1, i, f, m =>
    if f.mNused - f.mReadOff > 0 then some ((f.handOut bufflen).1, (f.handOut bufflen).2, m)
    else if f.mPaused then retry bufflen deliver fuel (i + 1) (f.unpause m (deliver i)).1 (f.unpause m (deliver i)).2
    else some (f.drained, f, m)

/-! ### `handleResult` -/

/-- `HTTPFetcher::handleResult`, with the response code `curl_easy_getinfo` gives. -/
def HTTPFetcher.handleResult (f : HTTPFetcher β) (res : CURLcode) (respcode : Nat) (m : Multi β) : FetcherStep β :=
  if f.mCurl = .null then ⟨.error (throwing .qingStorException "invalid state: curl is not initialized"), f, m⟩
  else match res with
    | .ok =>
      let m := { m with calls := m.calls ++ [.easyGetinfo f.mCurl] }
      if respcode = 0 then ⟨.error (throwing .qingStorNetworkException "got response code as 0"), f, m⟩
      else if respcode ≠ 200 ∧ respcode ≠ 206 then ⟨.ok (), (f.fail m).1, (f.fail m).2⟩
      else ⟨.ok (), (f.done m).1, (f.done m).2⟩
    | .failure _ => ⟨.ok (), (f.fail m).1, (f.fail m).2⟩

/-- `~HTTPFetcher` -/
def HTTPFetcher.destroy (f : HTTPFetcher β) (m : Multi β) : Multi β := (f.cleanup m).2

end QingStor
