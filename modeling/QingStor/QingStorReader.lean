import QingStor.DownloadPipeline
import QingStor.Configuration

/-!
# Reading an object: `QingStorReader.cpp`

The constructor cuts the range of the object into chunks and adds a fetcher for each to the pipeline. The loop that cuts is run
with a bound on its turns, and comes to nothing when the bound is reached first.
-/

namespace QingStor

variable {β : Type*}

structure RangeInfo where
  start : Int
  stop : Int
  deriving DecidableEq, Repr

structure ObjectInfo where
  key : Str
  size : Int
  range : RangeInfo
  deriving DecidableEq, Repr

/-- `bucket.location.host`, the host name of a bucket. -/
def Configuration.bucketHost (cfg : Configuration) (bucket : Str) : Str :=
  bucket ++ lit "." ++ cfg.mLocation ++ lit "." ++ cfg.mHost

/-- `protocol://host/key`, the address of an object. -/
def Configuration.objectUrl (cfg : Configuration) (bucket key : Str) : Str :=
  cfg.mProtocol ++ lit "://" ++ cfg.bucketHost bucket ++ lit "/" ++ key

def Configuration.credential (cfg : Configuration) : QSCredential := ⟨cfg.mAccessKeyId, cfg.mSecretAccessKey⟩

/-- `setupPipeline` chooses the chunk size, `-1` for one transfer of the whole range, and the size of the buffers. The size of
a buffer is an `int`. -/
def Configuration.chunking (cfg : Configuration) : Int × Int :=
  if cfg.mNConnections > 1 then
    if cfg.mChunkSize > 128 * 1024 * 1024 then (cfg.mChunkSize, 128 * 1024 * 1024)
    else (cfg.mChunkSize, toInt32 cfg.mChunkSize)
  else (-1, -1)

/-- The length of the chunk at `offset`. -/
def chunkLen (chunkSize stop offset : Int) : Except Fault Int :=
  let last : Except Fault Int :=
    match addInt64 stop (-offset) with
    | .error f => .error f
    | .ok d => addInt64 d 1
  if chunkSize = -1 then last
  else
    match addInt64 offset chunkSize with
    | .error f => .error f
    | .ok next => if next > stop then last else .ok chunkSize

/-- The `do ... while` loop of `setupPipeline`: the offset and length of each chunk. `none` when the loop has not ended after
`fuel` turns. -/
def chunkLoop (chunkSize stop : Int) : Nat → Int → Option (Except Fault (List (Int × Int)))
  | 0, _ => none
  | fuel + 1, offset =>
    match chunkLen chunkSize stop offset with
    | .error f => some (.error f)
    | .ok len =>
      match addInt64 offset len with
      | .error f => some (.error f)
      | .ok next =>
        if next ≤ stop then
          (chunkLoop chunkSize stop fuel next).map (fun r => r.map (fun chunks => (offset, len) :: chunks))
        else some (.ok [(offset, len)])

/-- Add a fetcher for each chunk. -/
def addChunks (cfg : Configuration) (bucket : Str) (object : ObjectInfo) (p : DownloadPipeline β)
    (chunks : List (Int × Int)) : DownloadPipeline β :=
  chunks.foldl
    (fun p c => p.add (.make p.created (cfg.objectUrl bucket object.key) (cfg.bucketHost bucket) bucket cfg.credential
      cfg.chunking.2 c.1 c.2))
    p

/-- `setupPipeline`, for the one object a reader is made for. -/
def setupPipeline (cfg : Configuration) (bucket : Str) (object : ObjectInfo) (fuel : Nat) :
    Option (Except Fault (DownloadPipeline β)) :=
  (chunkLoop cfg.chunking.1 object.range.stop fuel object.range.start).map
    (fun r => r.map (addChunks cfg bucket object (.make cfg.mNConnections)))

/-- `QingStorReader`; its constructor is `setupPipeline`. -/
structure QingStorReader (β : Type*) where
  mPipeline : DownloadPipeline β

/-- What `transferData` comes to: bytes, an exception, or still waiting when the rounds it was given are used up. -/
inductive TransferResult (β : Type*) where
  | bytes (bs : List β)
  | thrown (f : Fault)
  | waiting

/-- The exception that ends a stream. -/
def endOfStream : Fault := throwing .qingStorEndOfStream "transferData"

/-- `QingStorReader::transferData` -/
def QingStorReader.transferData (r : QingStorReader β) (buffsize : Nat) (rounds : List (Round β)) :
    TransferResult β × QingStorReader β :=
  match r.mPipeline.read buffsize rounds with
  | (.bytes bs, p) => (.bytes bs, ⟨p⟩)
  | (.eof, p) => (.thrown endOfStream, ⟨p⟩)
  | (.thrown f, p) => (.thrown f, ⟨p⟩)
  | (.waiting, p) => (.waiting, ⟨p⟩)

/-- The bytes a call of `transferData` gave the caller. -/
def TransferResult.given : TransferResult β → List β
  | .bytes bs => bs
  | _ => []

/-- Calls of `transferData` one after another, each with the length of its buffer and what the outside does meanwhile. -/
def QingStorReader.transferAll (r : QingStorReader β) : List (Nat × List (Round β)) → List (TransferResult β)
  | [] => []
  | c :: calls => (r.transferData c.1 c.2).1 :: (r.transferData c.1 c.2).2.transferAll calls

end QingStor
