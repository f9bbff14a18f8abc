import QingStor.Context
import QingStor.QingStorWriter

/-!
# The interface in C: `QingStor.cpp`

An API function checks its parameters, calls the class behind it, and turns an exception into its failure value and an `errno`.
A null pointer given for a string is `none`.
-/

namespace QingStor

variable {β : Type*}

/-- The values of `errno` the interface sets. -/
inductive Errno where
  | eacces | eio | einval | einternal | enomem
  deriving DecidableEq, Repr

/-- What an API function returns, and the `errno` it leaves when it sets one. -/
structure Returned (α : Type*) where
  value : α
  errno : Option Errno

/-- `handleException`, by the class that is rethrown. -/
def handleException : ExceptionClass → Errno
  | .accessControlException => .eacces
  | .qingStorCanceled => .eio
  | .qingStorConfigInvalid => .einval
  | .qingStorConfigNotFound => .einval
  | .qingStorTimeoutException => .eio
  | .illegalArgumentException => .einval
  | .invalidParameter => .einval
  | .qingStorNetworkException => .eio
  | .qingStorNetworkConnectException => .eio
  | .qingStorIOException => .eio
  | .qingStorEndOfStream => .eio
  | .outOfMemoryException => .einternal
  | .qingStorException => .einternal
  | .badAlloc => .einternal

/-- The two handlers that end an API function. -/
def catching {α : Type*} (failed : α) : Except Fault α → Except Fault (Returned α)
  | .ok a => .ok ⟨a, none⟩
  | .error (.thrown e) => .ok ⟨failed, some (if e.cls = .badAlloc then .enomem else handleException e.cls)⟩
  | .error (.undefined what) => .error (.undefined what)

/-- `PARAMETER_ASSERT(..., retval, EINVAL)` -/
def refused {α : Type*} (retval : α) : Except Fault (Returned α) := .ok ⟨retval, some .einval⟩

/-- `s != NULL && strlen(s) > 0` -/
def given (s : Option Str) : Bool := s.getD [] ≠ []

/-- The two handlers that end `qingstorInitContext` and `qingstorInitContextFromFile`. They delete the pointer to the context
first, which nothing was assigned to when its constructor throws. -/
def catchingContext : Except Fault Context → Except Fault (Returned (Option Context))
  | .ok ctx => .ok ⟨some ctx, none⟩
  | .error (.thrown _) => .error (.undefined "delete of an indeterminate pointer")
  | .error (.undefined what) => .error (.undefined what)

/-- `qingstorInitContext`: `none` is the null pointer. -/
def qingstorInitContext (location accessKeyId secretAccessKey : Option Str) (chunkSize : Int) :
    Except Fault (Returned (Option Context)) :=
  if ¬ given accessKeyId then refused none
  else if ¬ given secretAccessKey then refused none
  else catchingContext (match location with
    | none => .error (.undefined "std::string made from a null pointer")
    | some location => .ok ⟨.ofArguments location (accessKeyId.getD []) (secretAccessKey.getD []) chunkSize⟩)

/-- `qingstorInitContextFromFile`, with what the outside gives for the file. -/
def qingstorInitContextFromFile (configFile : Option Str) (file : ConfigFile) : Except Fault (Returned (Option Context)) :=
  if ¬ given configFile then refused none
  else catchingContext ((Configuration.ofFile file).map (fun cfg => ⟨cfg⟩))

/-- `qingstorListBuckets`, with memory for its array: a null pointer also when there is no bucket. -/
def qingstorListBuckets (J : JsonC) (ctx : Context) (location : Option Str) (xs : Nat → Exchange) :
    Except Fault (Returned (Option (List BucketInfo))) :=
  catching none ((ctx.listBuckets J (location.getD []) xs).map (fun buckets => if buckets = [] then none else some buckets))

/-- `qingstorCreateBucket` -/
def qingstorCreateBucket (J : JsonC) (ctx : Context) (location bucket : Option Str) (xs : Nat → Exchange) :
    Except Fault (Returned Int) :=
  if ¬ given bucket then refused (-1)
  else catching (-1) ((ctx.createBucket J (location.getD []) (bucket.getD []) xs).map (fun _ => 0))

/-- `qingstorDeleteBucket` -/
def qingstorDeleteBucket (J : JsonC) (ctx : Context) (location bucket : Option Str) (xs : Nat → Exchange) :
    Except Fault (Returned Int) :=
  if ¬ given bucket then refused (-1)
  else catching (-1) ((ctx.deleteBucket J (location.getD []) (bucket.getD []) xs).map (fun _ => 0))

/-- `qingstorListObjects`, with memory for its result; `none` when the listing has not ended after `fuel` pages. -/
def qingstorListObjects (J : JsonC) (Q : Qsort) (ctx : Context) (bucket path : Option Str)
    (net : ListState → Str → Nat → Exchange) (fuel : Nat) : Option (Except Fault (Returned (Option ListObjectResult))) :=
  if ¬ given bucket then some (refused none)
  else (ctx.listObjects J Q (ctx.ask J (bucket.getD []) net) (bucket.getD []) (path.getD []) fuel).map
    (fun r => catching none (r.map some))

/-- `qingstorDeleteObject` -/
def qingstorDeleteObject (J : JsonC) (ctx : Context) (bucket key : Option Str) (xs : Nat → Exchange) :
    Except Fault (Returned Int) :=
  if ¬ given bucket then refused (-1)
  else if ¬ given key then refused (-1)
  else catching (-1) ((ctx.deleteObject J (bucket.getD []) (key.getD []) xs).map (fun _ => 0))

/-- `qingstorHeadObject` -/
def qingstorHeadObject (J : JsonC) (ctx : Context) (bucket key : Option Str) (xs : Nat → Exchange) :
    Except Fault (Returned (Option HeadObjectResult)) :=
  if ¬ given bucket then refused none
  else if ¬ given key then refused none
  else catching none ((ctx.headObject J (bucket.getD []) (key.getD []) xs).map some)

/-- The range of an object as `qingstorGetObject` hands it to the reader. -/
def openedRange (contentLength rangeStart rangeEnd : Int) : RangeInfo :=
  ⟨if rangeStart < 0 then 0 else rangeStart, if rangeEnd < 0 then contentLength - 1 else rangeEnd⟩

/-- `qingstorGetObject`; `none` when the loop of `setupPipeline` has not ended after `fuel` turns. -/
def qingstorGetObject (J : JsonC) (ctx : Context) (bucket key : Option Str) (rangeStart rangeEnd : Int)
    (xs : Nat → Exchange) (fuel : Nat) : Option (Except Fault (Returned (Option (QingStorReader β)))) :=
  if ¬ given bucket then some (refused none)
  else if ¬ given key then some (refused none)
  else if ¬ rangeEnd ≥ rangeStart then some (refused none)
  else
    match ctx.headObject J (bucket.getD []) (key.getD []) xs with
    | .error f => some (catching none (.error f))
    | .ok res =>
      let object : ObjectInfo := ⟨key.getD [], res.contentLength, openedRange res.contentLength rangeStart rangeEnd⟩
      (setupPipeline ctx.mConfiguration (bucket.getD []) object fuel).map
        (fun r => catching none (r.map (fun p => some ⟨p⟩)))

/-- `qingstorGetObject` when curl has no multi handle to give: the constructor of the pipeline throws. -/
def qingstorGetObjectNoMulti (J : JsonC) (ctx : Context) (bucket key : Option Str) (rangeStart rangeEnd : Int)
    (xs : Nat → Exchange) : Except Fault (Returned (Option (QingStorReader β))) :=
  if ¬ given bucket then refused none
  else if ¬ given key then refused none
  else if ¬ rangeEnd ≥ rangeStart then refused none
  else
    match ctx.headObject J (bucket.getD []) (key.getD []) xs with
    | .error f => catching none (.error f)
    | .ok _ => catching none (.error (throwing .qingStorException "could not create CURL multi-handle"))

/-- `qingstorPutObject` -/
def qingstorPutObject (J : JsonC) (ctx : Context) (bucket key : Option Str) (cache : Bool) (xs : Nat → Exchange) :
    Except Fault (Returned (Option QingStorWriter)) :=
  if ¬ given bucket then refused none
  else if ¬ given key then refused none
  else catching none ((QingStorWriter.make J ctx.mConfiguration (bucket.getD []) (key.getD []) cache xs).map some)

/-- What an API function on an open object for writing comes to: what it returns, and the writer after it. -/
structure ObjectStep where
  returned : Except Fault (Returned Int)
  writer : QingStorWriter

/-- `qingstorWrite`; `none` when the loops of `transferData` have not ended after `fuel` turns. A buffer longer than an
`int32_t` cannot be given. -/
def qingstorWrite (J : JsonC) (net : Network) (fuel : Nat) (w : QingStorWriter) (buffer : List Byte) : Option ObjectStep :=
  if buffer = [] then some ⟨refused (-1), w⟩
  else (w.transferData J net fuel buffer).map
    (fun o => ⟨catching (-1) (o.result.map (fun _ => (buffer.length : Int))), o.writer⟩)

/-- A call reports success when it returned normally with something other than -1. -/
def ObjectStep.succeeded (o : ObjectStep) : Bool :=
  match o.returned with
  | .ok r => r.value ≠ -1
  | .error _ => false

/-- The runs of calls of `qingstorWrite` from the writer `w₀`: each call with its buffer and whether it succeeded. A length is a
positive `int32_t`. -/
inductive Writes (J : JsonC) (net : Network) (w₀ : QingStorWriter) : List (List Byte × Bool) → QingStorWriter → Prop
  | start : Writes J net w₀ [] w₀
  | write {calls : List (List Byte × Bool)} {w : QingStorWriter} {buffer : List Byte} {fuel : Nat} {o : ObjectStep} :
      Writes J net w₀ calls w → buffer ≠ [] → buffer.length < 2 ^ 31 → qingstorWrite J net fuel w buffer = some o →
      Writes J net w₀ (calls ++ [(buffer, o.succeeded)]) o.writer

/-- `qingstorCloseObject` on an object open for writing. -/
def qingstorCloseObject (J : JsonC) (net : Network) (w : QingStorWriter) : ObjectStep :=
  let o := w.close J net
  ⟨catching (-1) (o.result.map (fun _ => 0)), o.writer⟩

/-- `qingstorCancelObject` on an object open for writing. -/
def qingstorCancelObject (J : JsonC) (net : Network) (w : QingStorWriter) : ObjectStep :=
  let o := w.cancel J net
  ⟨catching (-1) (o.result.map (fun _ => 0)), o.writer⟩

/-- `qingstorRead` on an object open for reading: the bytes returned, or `none` for -1. There is nothing to return while it
waits. -/
def qingstorRead (r : QingStorReader β) (length : Int) (rounds : List (Round β)) :
    Option (Except Fault (Returned (Option (List β)))) × QingStorReader β :=
  if ¬ length > 0 then (some (refused none), r)
  else
    match r.transferData length.toNat rounds with
    | (.bytes bs, r) => (some (.ok ⟨some bs, none⟩), r)
    | (.thrown (.thrown e), r) =>
      (some (if e.cls = .qingStorEndOfStream then .ok ⟨some [], none⟩ else catching none (.error (.thrown e))), r)
    | (.thrown f, r) => (some (catching none (.error f)), r)
    | (.waiting, r) => (none, r)

end QingStor
