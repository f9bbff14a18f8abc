import QingStor.HTTPFetcher

/-!
# The pipeline of range requests: `DownloadPipeline.cpp`

The fetchers wait in a list, at most `mNConnections` of them are active, and `read` hands out bytes of the first active one
only. One turn of the endless loop of `read` is `readTurn`; what the outside does during a turn is a `Round`. A call of `read`
is given one round for each turn it makes and has not returned when they are used up.
-/

namespace QingStor

variable {β : Type*}

/-- Curl offers up to `n` bytes of the transfer on a handle to its write callback. -/
structure NetEvent where
  easy : Nat
  n : Nat
  deriving DecidableEq, Repr

/-- The end of a transfer as `curl_multi_info_read` reports it: cut short by a failure, or with the code of its response. -/
structure EndEvent where
  easy : Nat
  failure : Option CurlFailure
  deriving DecidableEq, Repr

/-- What the outside does during one turn of the loop of `read`: at each start `launch` makes, at each `curl_easy_pause` of
`get`, at a restart, the answers of `curl_multi_wait` and `curl_multi_perform`, the deliveries of the latter, and the ends then
reported. -/
structure Round (β : Type*) where
  launch : Nat → StartEnv β
  resume : List (List Nat)
  restart : StartEnv β
  wait : Bool
  perform : Bool
  events : List NetEvent
  ends : List EndEvent

/-- `DownloadPipeline`. `created` counts the fetchers constructed for it and `handed` records the bytes `read` returned, with
the fetcher they came from. -/
structure DownloadPipeline (β : Type*) where
  mActiveFetchers : List (HTTPFetcher β)
  mPendingFetchers : List (HTTPFetcher β)
  mNConnections : Int
  mCurlMHandle : Multi β
  created : Nat
  handed : List (Nat × List β)

/-- The constructor, once curl has given it a multi handle. -/
def DownloadPipeline.make (nconnections : Int) : DownloadPipeline β := ⟨[], [], nconnections, .empty, 0, []⟩

/-- `DownloadPipeline::add` -/
def DownloadPipeline.add (p : DownloadPipeline β) (fetcher : HTTPFetcher β) : DownloadPipeline β :=
  { p with mPendingFetchers := p.mPendingFetchers ++ [fetcher], created := p.created + 1 }

/-- The bytes returned so far, in order. -/
def DownloadPipeline.returned (p : DownloadPipeline β) : List β := p.handed.flatMap (·.2)

/-- What a step of the pipeline that may throw comes to. -/
structure PipelineStep (β : Type*) where
  result : Except Fault Unit
  pipeline : DownloadPipeline β

/-- `DownloadPipeline::launch`, over the pending list: `i` starts were made before. A fetcher is active before it is started. -/
def launchFrom (env : Nat → StartEnv β) (i : Nat) : List (HTTPFetcher β) → DownloadPipeline β → PipelineStep β
  | [], p => ⟨.ok (), p⟩
  | f :: pending, p =>
    if (p.mActiveFetchers.length : Int) < p.mNConnections then
      let s := f.start (env i) p.mCurlMHandle
      let p := { p with
        mActiveFetchers := p.mActiveFetchers ++ [s.fetcher], mPendingFetchers := pending, mCurlMHandle := s.multi }
      match s.result with
      | .ok () => launchFrom env (i + 1) pending p
      | .error e => ⟨.error e, p⟩
    else ⟨.ok (), p⟩

/-- `DownloadPipeline::launch` -/
def DownloadPipeline.launch (p : DownloadPipeline β) (env : Nat → StartEnv β) : PipelineStep β :=
  launchFrom env 0 p.mPendingFetchers p

/-- One delivery of `curl_multi_perform`: it goes to the fetcher the transfer names. -/
def DownloadPipeline.deliver (p : DownloadPipeline β) (e : NetEvent) : DownloadPipeline β :=
  match p.mCurlMHandle.find? e.easy with
  | none => p
  | some t =>
    match p.mActiveFetchers.find? (fun f => f.this = t.userp) with
    | none => { p with mCurlMHandle := { p.mCurlMHandle with dangling := true } }
    | some f =>
      let s := f.offer p.mCurlMHandle e.easy e.n
      { p with
        mActiveFetchers := p.mActiveFetchers.map (fun g => if g.this = f.this then s.1 else g)
        mCurlMHandle := s.2 }

/-- What `curl_multi_info_read` gives for an end: nothing unless the handle is registered and was not reported before, and an
end without a failure only once the response was taken whole. -/
def Multi.infoRead (m : Multi β) (e : EndEvent) : Option (CURLcode × Nat) :=
  match m.find? e.easy with
  | none => none
  | some t =>
    if t.ended then none
    else match e.failure with
      | some c => some (.failure c, t.status)
      | none => if t.rest.isEmpty ∧ ¬ t.paused then some (t.res, t.status) else none

/-- One message of the loop over `curl_multi_info_read`. -/
def DownloadPipeline.handleEnd (p : DownloadPipeline β) (e : EndEvent) : PipelineStep β :=
  match p.mCurlMHandle.infoRead e with
  | none => ⟨.ok (), p⟩
  | some (res, respcode) =>
    let m := p.mCurlMHandle.update e.easy (fun t => { t with ended := true })
    match p.mActiveFetchers.find? (fun f => f.mCurl = .easy e.easy) with
    | none =>
      ⟨.error (throwing .qingStorNetworkException "got CURL result code for a fetcher that's not active"),
        { p with mCurlMHandle := m }⟩
    | some f =>
      let s := f.handleResult res respcode m
      ⟨s.result, { p with
        mActiveFetchers := p.mActiveFetchers.map (fun g => if g.this = f.this then s.fetcher else g)
        mCurlMHandle := s.multi }⟩

/-- The loop over `curl_multi_info_read`. -/
def DownloadPipeline.handleEnds (p : DownloadPipeline β) : List EndEvent → PipelineStep β
  | [] => ⟨.ok (), p⟩
  | e :: es =>
    match (p.handleEnd e).result with
    | .ok () => (p.handleEnd e).pipeline.handleEnds es
    | .error f => ⟨.error f, (p.handleEnd e).pipeline⟩

/-- Restart the front fetcher when it has failed. -/
def DownloadPipeline.restart (p : DownloadPipeline β) (env : StartEnv β) : PipelineStep β :=
  match p.mActiveFetchers with
  | [] => ⟨.ok (), p⟩
  | f :: rest =>
    if f.mState = .failed then
      let s := f.start env p.mCurlMHandle
      ⟨s.result, { p with mActiveFetchers := s.fetcher :: rest, mCurlMHandle := s.multi }⟩
    else ⟨.ok (), p⟩

/-- Wait until something happens, and let curl and the fetchers deal with it. -/
def DownloadPipeline.wait (p : DownloadPipeline β) (r : Round β) : PipelineStep β :=
  if ¬ r.wait then ⟨.error (throwing .qingStorNetworkException "curl_multi_perform returned error: %s"), p⟩
  else if ¬ r.perform then ⟨.error (throwing .qingStorNetworkException "curl_multi_perform returned error: %s"), p⟩
  else (r.events.foldl DownloadPipeline.deliver p).handleEnds r.ends

/-- What one turn of the loop of `read` comes to: another turn, bytes for the caller, the end, or an exception. -/
inductive Turn (β : Type*) where
  | again
  | bytes (bs : List β)
  | eof
  | thrown (f : Fault)

/-- `get` on the front fetcher: its new state replaces the old one. -/
def DownloadPipeline.getFront (p : DownloadPipeline β) (bufflen : Nat) (resume : List (List Nat)) :
    Option (Got β × DownloadPipeline β) :=
  match p.mActiveFetchers with
  | [] => none
  | f :: rest =>
    let s := f.get bufflen resume p.mCurlMHandle
    some (s.1, { p with mActiveFetchers := s.2.1 :: rest, mCurlMHandle := s.2.2 })

/-- Remove the front fetcher. It has ended and given its handle back, so its destructor changes nothing on curl's side, and it is run
here: `current_fetcher` keeps the fetcher, and its buffer, until the next turn asks for the front one. -/
def DownloadPipeline.popFront (p : DownloadPipeline β) : DownloadPipeline β :=
  match p.mActiveFetchers with
  | [] => p
  | f :: rest => { p with mActiveFetchers := rest, mCurlMHandle := f.destroy p.mCurlMHandle }

/-- Record the bytes handed to the caller from the front fetcher. -/
def DownloadPipeline.handOver (p : DownloadPipeline β) (bs : List β) : DownloadPipeline β :=
  match p.mActiveFetchers with
  | [] => p
  | f :: _ => { p with handed := p.handed ++ [(f.this, bs)] }

/-- The rest of a turn that got nothing: a restart and a wait. -/
def DownloadPipeline.waitMore (p : DownloadPipeline β) (r : Round β) : Turn β × DownloadPipeline β :=
  match (p.restart r.restart).result with
  | .error f => (.thrown f, (p.restart r.restart).pipeline)
  | .ok () =>
    match ((p.restart r.restart).pipeline.wait r).result with
    | .error f => (.thrown f, ((p.restart r.restart).pipeline.wait r).pipeline)
    | .ok () => (.again, ((p.restart r.restart).pipeline.wait r).pipeline)

/-- What comes after `get` in one turn: the end of the front fetcher, bytes for the caller, or nothing. -/
def DownloadPipeline.afterGet (p : DownloadPipeline β) (r : Round β) : Got β → Turn β × DownloadPipeline β
  | .eof => (.again, p.popFront)
  | .bytes bs => if bs.length > 0 then (.bytes bs, p.handOver bs) else p.waitMore r
  | .nothing => p.waitMore r

/-- One turn of the loop of `DownloadPipeline::read`. -/
def DownloadPipeline.readTurn (p : DownloadPipeline β) (bufflen : Nat) (r : Round β) : Turn β × DownloadPipeline β :=
  match (p.launch r.launch).result with
  | .error f => (.thrown f, (p.launch r.launch).pipeline)
  | .ok () =>
    match (p.launch r.launch).pipeline.getFront bufflen r.resume with
    | none => (.eof, (p.launch r.launch).pipeline)
    | some (got, p) => p.afterGet r got

/-- What a call of `read` comes to: bytes, the end, an exception, or still waiting when its rounds are used up. -/
inductive ReadResult (β : Type*) where
  | bytes (bs : List β)
  | eof
  | thrown (f : Fault)
  | waiting

/-- `DownloadPipeline::read` -/
def DownloadPipeline.read (p : DownloadPipeline β) (bufflen : Nat) : List (Round β) → ReadResult β × DownloadPipeline β
  | [] => (.waiting, p)
  | r :: rounds =>
    match p.readTurn bufflen r with
    | (.again, p) => p.read bufflen rounds
    | (.bytes bs, p) => (.bytes bs, p)
    | (.eof, p) => (.eof, p)
    | (.thrown f, p) => (.thrown f, p)

/-- `~DownloadPipeline`: the active fetchers are destroyed from the front, and then the pending ones. -/
def DownloadPipeline.destroy (p : DownloadPipeline β) : Multi β :=
  p.mPendingFetchers.foldl (fun m f => f.destroy m) (p.mActiveFetchers.foldl (fun m f => f.destroy m) p.mCurlMHandle)

/-! ## Runs -/

/-- What a caller does to a pipeline: `add` a freshly constructed fetcher, or `read`. -/
inductive PipelineOp (β : Type*) where
  | add (url host bucket : Str) (cred : QSCredential) (buffsize offset len : Int)
  | read (bufflen : Nat) (rounds : List (Round β))

/-- One operation. -/
def PipelineOp.run (p : DownloadPipeline β) : PipelineOp β → DownloadPipeline β
  | .add url host bucket cred buffsize offset len =>
    p.add (.make p.created url host bucket cred buffsize offset len)
  | .read bufflen rounds => (p.read bufflen rounds).2

/-- The pipeline after a run of operations on a new pipeline. -/
def runPipeline (nconnections : Int) (ops : List (PipelineOp β)) : DownloadPipeline β :=
  ops.foldl PipelineOp.run (.make nconnections)

end QingStor
