import QingStor.Lemmas.Fetcher
import QingStor.QingStorReader

/-!
# The reader does not look at the bytes

Everything that holds bytes of an object can be relabelled: each byte is replaced by another one. A relabelled reader with a relabelled
outside does what the reader does, relabelled. So a byte may carry a label, such as its position in the object, through a download.
-/

namespace Lib

variable {α β : Type*}

end Lib

namespace QingStor

variable {β γ : Type*}

/-! ## What holds bytes -/

/-- What a server answers a request with. -/
@[simps] def Response.map (φ : β → γ) (r : Response β) : Response γ := ⟨r.status, r.body.map φ, r.res⟩

/-- A transfer curl has in hand. -/
@[simps] def Transfer.map (φ : β → γ) (t : Transfer β) : Transfer γ := ⟨t.easy, t.userp, t.status, t.rest.map φ, t.res, t.paused, t.ended⟩

/-- Bytes the write callback was given. -/
@[simps] def Piece.map (φ : β → γ) (p : Piece β) : Piece γ := ⟨p.userp, p.status, p.bytes.map φ⟩

/-- The multi handle, with its transfers and what was taken of them. -/
@[simps] def Multi.map (φ : β → γ) (m : Multi β) : Multi γ :=
  ⟨m.fresh, m.transfers.map (Transfer.map φ), m.taken.map (Piece.map φ), m.calls, m.dangling⟩

/-- The outside of a start: the answers are relabelled, the rest has no bytes. -/
@[simps] def StartEnv.map (φ : β → γ) (env : StartEnv β) : StartEnv γ :=
  ⟨env.malloc, env.easyInit, env.signer, env.signs, fun r => (env.respond r).map φ⟩

/-- A fetcher: its buffer is relabelled, the counters stay. -/
@[simps] def HTTPFetcher.map (φ : β → γ) (f : HTTPFetcher β) : HTTPFetcher γ where
  this := f.this
  mState := f.mState
  mCurl := f.mCurl
  mPaused := f.mPaused
  mHttpHeaders := f.mHttpHeaders
  mParent := f.mParent
  mUrl := f.mUrl
  mBucket := f.mBucket
  mHost := f.mHost
  mCred := f.mCred
  mConfBuffSize := f.mConfBuffSize
  mOffset := f.mOffset
  mLen := f.mLen
  mBytesDone := f.mBytesDone
  mHeaders := f.mHeaders
  mReadBuff := f.mReadBuff.map (List.map φ)
  mBuffSize := f.mBuffSize
  mNused := f.mNused
  mReadOff := f.mReadOff
  mNFailures := f.mNFailures

/-- What a call on a fetcher comes to. -/
@[simps] def FetcherStep.map (φ : β → γ) (s : FetcherStep β) : FetcherStep γ := ⟨s.result, s.fetcher.map φ, s.multi.map φ⟩

/-- What `get` returns. -/
def Got.map (φ : β → γ) : Got β → Got γ
  | .bytes bs => .bytes (bs.map φ)
  | .eof => .eof
  | .nothing => .nothing

/-- The outside of one turn of `read`. -/
@[simps] def Round.map (φ : β → γ) (r : Round β) : Round γ :=
  ⟨fun i => (r.launch i).map φ, r.resume, r.restart.map φ, r.wait, r.perform, r.events, r.ends⟩

/-- A pipeline, with the record of what it handed out. -/
@[simps] def DownloadPipeline.map (φ : β → γ) (p : DownloadPipeline β) : DownloadPipeline γ :=
  ⟨p.mActiveFetchers.map (HTTPFetcher.map φ), p.mPendingFetchers.map (HTTPFetcher.map φ), p.mNConnections, p.mCurlMHandle.map φ,
    p.created, p.handed.map (fun e => (e.1, e.2.map φ))⟩

/-- What a call on a pipeline comes to. -/
@[simps] def PipelineStep.map (φ : β → γ) (s : PipelineStep β) : PipelineStep γ := ⟨s.result, s.pipeline.map φ⟩

/-- What a turn of `read` comes to. -/
def Turn.map (φ : β → γ) : Turn β → Turn γ
  | .again => .again
  | .bytes bs => .bytes (bs.map φ)
  | .eof => .eof
  | .thrown f => .thrown f

/-- What `read` returns. -/
def ReadResult.map (φ : β → γ) : ReadResult β → ReadResult γ
  | .bytes bs => .bytes (bs.map φ)
  | .eof => .eof
  | .thrown f => .thrown f
  | .waiting => .waiting

/-- What `transferData` returns. -/
def TransferResult.map (φ : β → γ) : TransferResult β → TransferResult γ
  | .bytes bs => .bytes (bs.map φ)
  | .thrown f => .thrown f
  | .waiting => .waiting

@[simps] def QingStorReader.map (φ : β → γ) (r : QingStorReader β) : QingStorReader γ := ⟨r.mPipeline.map φ⟩

/-! ## Curl's side -/

namespace Multi

variable (φ : β → γ) (m : Multi β)

/-- A transfer is looked up by its handle. -/
theorem find?_map (e : Nat) : (m.map φ).find? e = (m.find? e).map (Transfer.map φ) := List.find?_map ..

end Multi

/-! ## The fetcher -/

namespace HTTPFetcher

variable (φ : β → γ) (f : HTTPFetcher β) (m : Multi β)

end HTTPFetcher

/-! ## The pipeline -/

namespace DownloadPipeline

variable (φ : β → γ) (p : DownloadPipeline β)

end DownloadPipeline

/-! ## The reader -/

end QingStor
