import QingStor.Common
import QingStor.QingStorReader

/-!
# Writing an object: `QingStorWriter.cpp`

A writer uploads an object in numbered parts. With a cache the bytes of the caller are copied into a buffer of the chunk size
and each full buffer is a part; without one each call is a part. Every request goes through `DoGetJSON`; the network is a
function that gives, for the number of the request and of the attempt, what the outside does. `calls` is a record of the
requests made, which no code reads but their number.
-/

namespace QingStor

/-- The requests of a writer: a part with its number and bytes, the completion with its body, the abort; and whether
`DoGetJSON` returned. -/
inductive WriterCall where
  | part (num : Int) (bytes : List Byte) (ok : Bool)
  | complete (body : Json) (ok : Bool)
  | abort (ok : Bool)

/-- What the outside does, by the number of the request made on the writer and the number of the attempt. -/
abbrev Network := Nat → Nat → Exchange

/-- `QingStorWriter` -/
structure QingStorWriter where
  mConfiguration : Configuration
  mBucket : Str
  mUploadId : Str
  mKey : Str
  mCred : QSCredential
  mBuffer : Option (List Byte)
  mBuffSize : Int
  mWritePos : Int
  mPartNum : Int
  mCanceled : Bool
  mCache : Bool
  calls : List WriterCall

/-- What a member function of a writer comes to: the writer is as a throw left it. -/
structure WriterStep where
  result : Except Fault Unit
  writer : QingStorWriter

/-! ## Opening -/

/-- `QingStorWriter::extractUploadIDContent`: the upload id and key, `none` for `false`. -/
def extractUploadIDContent (J : JsonC) (respBody : Json) : Except Fault (Option (Str × Str)) :=
  match respBody.objectGetEx (lit "upload_id") with
  | none => .ok none
  | some value =>
    match value.stdString J with
    | .error f => .error f
    | .ok uploadId =>
      match respBody.objectGetEx (lit "key") with
      | none => .ok none
      | some value =>
        match value.stdString J with
        | .error f => .error f
        | .ok key => .ok (some (uploadId, key))

/-- The part of `initMultipartUpload` after a response whose upload id could not be read: it throws in every case. -/
def initRefused (J : JsonC) (respBody : Json) : Fault :=
  match respBody.objectGetEx (lit "code") with
  | none => throwing .qingStorNetworkException "could not init multipart with message \"%s\""
  | some code =>
    match code.getString J with
    | none => .undefined "strcmp of a null pointer"
    | some errCode =>
      if cString errCode = lit "permission_denied" then
        throwing .qingStorNetworkException "you don't have enough permission to access bucket %s"
      else throwing .qingStorNetworkException "could not init multipart with message \"%s\""

/-- What `initMultipartUpload` makes of what `DoGetJSON` returned or threw. -/
def initResponse (J : JsonC) : Except Fault Json → Except Fault (Str × Str)
  | .error f => .error f
  | .ok respBody =>
    if respBody.isNull then .error (throwing .qingStorNetworkException "could not init multipart upload")
    else
      match extractUploadIDContent J respBody with
      | .error f => .error f
      | .ok (some ids) => .ok ids
      | .ok none => .error (initRefused J respBody)

/-- What `initMultipartUpload` comes to, and the number of calls of `json_object_put` on its response. -/
structure InitStep where
  result : Except Fault (Str × Str)
  puts : Nat

/-- The two blocks of `initMultipartUpload`, for what `DoGetJSON` returned or threw. The handler releases the response the pointer
holds; the other call of `json_object_put` stands after branches that have all thrown. -/
def initBlocks (J : JsonC) (r : Except Fault Json) : InitStep :=
  let respBody : Option Json := match r with
    | .ok v => if v.isNull then none else some v
    | .error _ => none
  match initResponse J r with
  | .ok ids => ⟨.ok ids, 0⟩
  | .error (.thrown e) =>
    ⟨.error (Fault.thrown e).rethrown, if e.cls.isQingStorException ∧ respBody.isSome then 1 else 0⟩
  | .error (.undefined what) => ⟨.error (.undefined what), 0⟩

/-- `protocol://host/key?uploads` -/
def Configuration.initUrl (cfg : Configuration) (bucket key : Str) : Str := cfg.objectUrl bucket key ++ lit "?uploads"

/-- The request that opens an upload. -/
def initArgs (cfg : Configuration) (bucket key : Str) : RequestArgs :=
  ⟨cfg.bucketHost bucket, cfg.initUrl bucket key, some bucket, none, cfg.credential, .initMpUpload⟩

/-- `QingStorWriter::initMultipartUpload`: the upload id and the key of the response. -/
def initMultipartUpload (J : JsonC) (cfg : Configuration) (bucket key : Str) (xs : Nat → Exchange) :
    Except Fault (Str × Str) :=
  rethrowing (initResponse J (doGetJSON J (initArgs cfg bucket key) none cfg.mConnectionRetries xs).result)

/-- `new char[n]` with a 64-bit count: a negative count is refused. There is memory for every other one. -/
def newBuffer (n : Int) : Except Fault (List Byte) :=
  if n < 0 then .error (.thrown ⟨.badAlloc, "std::bad_array_new_length"⟩) else .ok (List.replicate n.toNat 0)

/-- The constructor after the upload was opened. -/
def QingStorWriter.opened (cfg : Configuration) (bucket : Str) (cache : Bool) (ids : Str × Str) :
    Except Fault QingStorWriter :=
  let w : QingStorWriter :=
    { mConfiguration := cfg, mBucket := bucket, mUploadId := ids.1, mKey := ids.2, mCred := cfg.credential, mBuffer := none,
      mBuffSize := cfg.mChunkSize, mWritePos := 0, mPartNum := 0, mCanceled := false, mCache := cache, calls := [] }
  if cache then
    match newBuffer cfg.mChunkSize with
    | .error f => .error f
    | .ok b => .ok { w with mBuffer := some b }
  else .ok w

/-- The constructor of `QingStorWriter`. -/
def QingStorWriter.make (J : JsonC) (cfg : Configuration) (bucket key : Str) (cache : Bool) (xs : Nat → Exchange) :
    Except Fault QingStorWriter :=
  match initMultipartUpload J cfg bucket key xs with
  | .error f => .error f
  | .ok ids => QingStorWriter.opened cfg bucket cache ids

/-! ## Parts -/

/-- `protocol://host/key`, for the key the server named. -/
def QingStorWriter.url (w : QingStorWriter) : Str := w.mConfiguration.objectUrl w.mBucket w.mKey

/-- The request of a part. -/
def QingStorWriter.partArgs (w : QingStorWriter) : RequestArgs :=
  ⟨w.mConfiguration.bucketHost w.mBucket,
    w.url ++ lit "?part_number=" ++ decimal w.mPartNum ++ lit "&upload_id=" ++ w.mUploadId,
    some w.mBucket, none, w.mCred, .uploadMp⟩

/-- The body `uploadMultipart` sets up: the length is an `int32_t` assigned to a `size_t`. -/
def partBody (data : List Byte) (length : Int) : MemoryData := ⟨data, toSizeT (toInt32 length)⟩

/-- `QingStorWriter::uploadMultipart`: the response is a null pointer when the part was stored. -/
def QingStorWriter.uploadMultipart (J : JsonC) (net : Network) (w : QingStorWriter) (data : List Byte) (length : Int) :
    Except Fault Bool :=
  match (doGetJSON J w.partArgs (some (partBody data length)) w.mConfiguration.mConnectionRetries (net w.calls.length)).result with
  | .error f => .error f.rethrown
  | .ok respBody => .ok respBody.isNull

/-- `QingStorWriter::doSend` -/
def QingStorWriter.doSend (J : JsonC) (net : Network) (w : QingStorWriter) (data : List Byte) (length : Int) : WriterStep :=
  let sent (ok : Bool) : List WriterCall := w.calls ++ [.part w.mPartNum (partBody data length).bytes ok]
  match w.uploadMultipart J net data length with
  | .error f => ⟨.error f, { w with calls := sent false }⟩
  | .ok false => ⟨.error (throwing .qingStorIOException "writer transfer data"), { w with calls := sent false }⟩
  | .ok true => ⟨.ok (), { w with mPartNum := w.mPartNum + 1, calls := sent true }⟩

/-! ## `transferData` -/

/-- The inner loop of `transferData`: copy until the buffer is full or the caller's bytes, `rest`, are used up. -/
def QingStorWriter.fill (w : QingStorWriter) : List Byte → QingStorWriter × List Byte
  | [] => (w, [])
  | b :: rest =>
    if w.mWritePos ≠ w.mBuffSize then
      let w := { w with
        mBuffer := w.mBuffer.map (fun buf => Lib.blit buf w.mWritePos.toNat [b]), mWritePos := w.mWritePos + 1 }
      if rest = [] then (w, []) else fill w rest
    else (w, b :: rest)

/-- The outer loop of `transferData`; `none` when it has not ended after `fuel` turns. -/
def QingStorWriter.transferLoop (J : JsonC) (net : Network) : Nat → QingStorWriter → List Byte → Option WriterStep
  | 0, _, _ => none
  | fuel + 1, w, rest =>
    if rest = [] then some ⟨.ok (), w⟩
    else
      let s := w.fill rest
      if s.1.mWritePos = s.1.mBuffSize then
        let o := s.1.doSend J net (s.1.mBuffer.getD []) s.1.mBuffSize
        match o.result with
        | .error f => some ⟨.error f, o.writer⟩
        | .ok () => transferLoop J net fuel { o.writer with mWritePos := 0 } s.2
      else transferLoop J net fuel s.1 s.2

/-- `QingStorWriter::transferData` -/
def QingStorWriter.transferData (J : JsonC) (net : Network) (fuel : Nat) (w : QingStorWriter) (buffer : List Byte) :
    Option WriterStep :=
  if ¬ w.mCache then some (w.doSend J net buffer buffer.length) else w.transferLoop J net fuel buffer

/-! ## Closing -/

/-- `QingStorWriter::flush` -/
def QingStorWriter.flush (J : JsonC) (net : Network) (w : QingStorWriter) : WriterStep :=
  if w.mCache then
    let o := w.doSend J net (w.mBuffer.getD []) w.mWritePos
    match o.result with
    | .error f => ⟨.error f, o.writer⟩
    | .ok () => ⟨.ok (), { o.writer with mWritePos := 0 }⟩
  else if w.mPartNum = 0 then w.doSend J net (w.mBuffer.getD []) w.mWritePos
  else ⟨.ok (), w⟩

/-- The request body of the completion: the loop adds one element for each `i` from 0 to `mPartNum - 1`. -/
def QingStorWriter.completeBody (w : QingStorWriter) : Json :=
  .object [(lit "object_parts", .array ((List.range w.mPartNum.toNat).map
    (fun (i : Nat) => .object [(lit "part_number", .int i)])))]

/-- The request of the completion and of the abort. -/
def QingStorWriter.uploadArgs (w : QingStorWriter) (qsrt : QSRequestType) : RequestArgs :=
  ⟨w.mConfiguration.bucketHost w.mBucket, w.url ++ lit "?upload_id=" ++ w.mUploadId, some w.mBucket, none, w.mCred, qsrt⟩

/-- `QingStorWriter::completeMultipartUpload` -/
def QingStorWriter.completeMultipartUpload (J : JsonC) (net : Network) (w : QingStorWriter) : WriterStep :=
  let body := cString (J.toJsonString w.completeBody)
  match (doGetJSON J (w.uploadArgs .compMpUpload) (some ⟨body, body.length⟩) w.mConfiguration.mConnectionRetries
      (net w.calls.length)).result with
  | .error f => ⟨.error f.rethrown, { w with calls := w.calls ++ [.complete w.completeBody false] }⟩
  | .ok _ => ⟨.ok (), { w with calls := w.calls ++ [.complete w.completeBody true] }⟩

/-- `QingStorWriter::close` -/
def QingStorWriter.close (J : JsonC) (net : Network) (w : QingStorWriter) : WriterStep :=
  if w.mCanceled then ⟨.ok (), { w with mBuffer := none }⟩
  else
    let o := w.flush J net
    match o.result with
    | .error f => ⟨.error f, o.writer⟩
    | .ok () =>
      let c := o.writer.completeMultipartUpload J net
      match c.result with
      | .error f => ⟨.error f, c.writer⟩
      | .ok () => ⟨.ok (), { c.writer with mBuffer := none }⟩

/-- `QingStorWriter::abortMultipartUpload` -/
def QingStorWriter.abortMultipartUpload (J : JsonC) (net : Network) (w : QingStorWriter) : WriterStep :=
  match (doGetJSON J (w.uploadArgs .abortMpUpload) none w.mConfiguration.mConnectionRetries (net w.calls.length)).result with
  | .error f => ⟨.error f.rethrown, { w with calls := w.calls ++ [.abort false] }⟩
  | .ok _ => ⟨.ok (), { w with calls := w.calls ++ [.abort true] }⟩

/-- `QingStorWriter::cancel` -/
def QingStorWriter.cancel (J : JsonC) (net : Network) (w : QingStorWriter) : WriterStep :=
  let o := w.abortMultipartUpload J net
  match o.result with
  | .error f => ⟨.error f, o.writer⟩
  | .ok () => ⟨.ok (), { o.writer with mPartNum := 0, mCanceled := true }⟩

end QingStor
