import QingStor.DownloadPipeline

/-!
# The turns of a run

A call of `read` makes one turn of its loop after another. A `ReadTurn` is one of them, with the pipeline before it and what the
outside does.
-/

namespace QingStor

variable {β : Type*}

/-- A turn of the loop of `read`: the pipeline before it, the room the caller has, and what the outside does. -/
structure ReadTurn (β : Type*) where
  before : DownloadPipeline β
  bufflen : Nat
  round : Round β

namespace ReadTurn

def result (t : ReadTurn β) : Turn β := (t.before.readTurn t.bufflen t.round).1

def after (t : ReadTurn β) : DownloadPipeline β := (t.before.readTurn t.bufflen t.round).2

/-- The pipeline after the `launch` of a turn. -/
def launched (t : ReadTurn β) : DownloadPipeline β := (t.before.launch t.round.launch).pipeline

/-- Where a turn gets to the line that restarts the front fetcher, the pipeline there. -/
def beforeRestart (t : ReadTurn β) : Option (DownloadPipeline β) :=
  match (t.before.launch t.round.launch).result with
  | .error _ => none
  | .ok () =>
    match t.launched.getFront t.bufflen t.round.resume with
    | none => none
    | some (.eof, _) => none
    | some (.bytes bs, p) => if bs.length > 0 then none else some p
    | some (.nothing, p) => some p

end ReadTurn

/-! ## The calls of the write callback in a turn -/

/-- A call of the write callback, as curl makes it: the fetcher and curl's side before it, the handle, and how many of the bytes
that are left of its response are offered. -/
structure Offer (β : Type*) where
  fetcher : HTTPFetcher β
  multi : Multi β
  easy : Nat
  n : Nat

namespace Offer

/-- The status of the response offered. -/
def status (o : Offer β) : Nat := ((o.multi.find? o.easy).map (·.status)).getD 0

/-- The bytes offered: none when the handle is paused, has ended or has nothing left. -/
def bytes (o : Offer β) : List β :=
  match o.multi.find? o.easy with
  | none => []
  | some t => if t.paused ∨ t.ended then [] else t.rest.take o.n

/-- The room in the fetcher's buffer, once the unread bytes are shifted to its front. -/
def room (o : Offer β) : Nat := o.fetcher.mBuffSize - (o.fetcher.mNused - o.fetcher.mReadOff)

end Offer

/-- The offers of pieces of the sizes `ns`, one after the other. -/
def HTTPFetcher.offers (h : Nat) : List Nat → HTTPFetcher β → Multi β → List (Offer β)
  | [], _, _ => []
  | n :: ns, f, m => ⟨f, m, h, n⟩ :: offers h ns (f.offer m h n).1 (f.offer m h n).2

/-- The offers curl makes when `get` takes a pause off. -/
def HTTPFetcher.unpauseOffers (f : HTTPFetcher β) (m : Multi β) (ns : List Nat) : List (Offer β) :=
  match f.mCurl with
  | .easy h => offers h ns { f with mPaused := false } (m.easyPause f.mCurl)
  | _ => []

/-- The offers curl makes during a call of `get`. -/
def HTTPFetcher.getOffers : List (List Nat) → HTTPFetcher β → Multi β → List (Offer β)
  | [], _, _ => []
  | ns :: resumes, f, m =>
    if f.mNused - f.mReadOff > 0 then []
    else if f.mPaused then f.unpauseOffers m ns ++ getOffers resumes (f.unpause m ns).1 (f.unpause m ns).2
    else []

/-- The offer of one delivery, when there is a fetcher it goes to. -/
def DownloadPipeline.deliverOffer (p : DownloadPipeline β) (e : NetEvent) : List (Offer β) :=
  match p.mCurlMHandle.find? e.easy with
  | none => []
  | some t =>
    match p.mActiveFetchers.find? (fun f => f.this = t.userp) with
    | none => []
    | some f => [⟨f, p.mCurlMHandle, e.easy, e.n⟩]

/-- The offers of the deliveries of `curl_multi_perform`. -/
def DownloadPipeline.deliverOffers (p : DownloadPipeline β) : List NetEvent → List (Offer β)
  | [] => []
  | e :: es => p.deliverOffer e ++ (p.deliver e).deliverOffers es

/-- The offers curl makes when the front fetcher is asked for bytes. -/
def DownloadPipeline.frontOffers (p : DownloadPipeline β) (resume : List (List Nat)) : List (Offer β) :=
  match p.mActiveFetchers with
  | [] => []
  | f :: _ => f.getOffers resume p.mCurlMHandle

/-- The offers curl makes from the line of the restart on. -/
def DownloadPipeline.waitOffers (p : DownloadPipeline β) (r : Round β) : List (Offer β) :=
  match (p.restart r.restart).result with
  | .error _ => []
  | .ok () => if r.wait ∧ r.perform then (p.restart r.restart).pipeline.deliverOffers r.events else []

/-- The offers of a turn in its `get`. -/
def ReadTurn.getOffers (t : ReadTurn β) : List (Offer β) :=
  match (t.before.launch t.round.launch).result with
  | .error _ => []
  | .ok () => t.launched.frontOffers t.round.resume

/-- The offers of a turn that goes on to wait. -/
def ReadTurn.waitOffers (t : ReadTurn β) : List (Offer β) :=
  match t.beforeRestart with
  | none => []
  | some p => p.waitOffers t.round

/-- The calls of the write callback in a turn, in order. -/
def ReadTurn.offers (t : ReadTurn β) : List (Offer β) := t.getOffers ++ t.waitOffers

/-- The turns of a call of `read`. -/
def DownloadPipeline.turns (p : DownloadPipeline β) (bufflen : Nat) : List (Round β) → List (ReadTurn β)
  | [] => []
  | r :: rounds =>
    ⟨p, bufflen, r⟩ :: match p.readTurn bufflen r with
      | (.again, p) => p.turns bufflen rounds
      | _ => []

/-- The turns one operation makes. -/
def PipelineOp.turns (p : DownloadPipeline β) : PipelineOp β → List (ReadTurn β)
  | .add .. => []
  | .read bufflen rounds => p.turns bufflen rounds

/-- The turns of a run of operations. -/
def DownloadPipeline.runTurns (p : DownloadPipeline β) : List (PipelineOp β) → List (ReadTurn β)
  | [] => []
  | op :: ops => op.turns p ++ (op.run p).runTurns ops

end QingStor
