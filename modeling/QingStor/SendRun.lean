import QingStor.Api

/-!
# What a writer sends

Each call of `doSend` is given a pointer to bytes and their number, a 64-bit count that the parameter narrows. The definitions here
follow the loops of the writer and keep, call by call, what `doSend` is given; the record `calls` of a writer has only the bytes
that are set up for the request.
-/

namespace QingStor

/-- What `doSend` is given: the bytes from the pointer on, and their number before it is narrowed. -/
structure Send where
  data : List Byte
  length : Int

/-- The body `uploadMultipart` sets up for it. -/
def Send.body (s : Send) : MemoryData := partBody s.data s.length

namespace QingStorWriter

/-- What the loops of `transferData` send. -/
def loopSends (J : JsonC) (net : Network) : Nat → QingStorWriter → List Byte → List Send
  | 0, _, _ => []
  | fuel + 1, w, rest =>
    if rest = [] then []
    else
      let s := w.fill rest
      if s.1.mWritePos = s.1.mBuffSize then
        let o := s.1.doSend J net (s.1.mBuffer.getD []) s.1.mBuffSize
        ⟨s.1.mBuffer.getD [], s.1.mBuffSize⟩ :: match o.result with
          | .error _ => []
          | .ok () => loopSends J net fuel { o.writer with mWritePos := 0 } s.2
      else loopSends J net fuel s.1 s.2

/-- What `transferData` sends. -/
def transferSends (J : JsonC) (net : Network) (fuel : Nat) (w : QingStorWriter) (buffer : List Byte) : List Send :=
  if ¬ w.mCache then [⟨buffer, buffer.length⟩] else w.loopSends J net fuel buffer

/-- What `flush` sends. -/
def flushSends (w : QingStorWriter) : List Send :=
  if w.mCache then [⟨w.mBuffer.getD [], w.mWritePos⟩]
  else if w.mPartNum = 0 then [⟨w.mBuffer.getD [], w.mWritePos⟩]
  else []

end QingStorWriter

/-- The runs of calls of `qingstorWrite` from the writer `w₀`, as in `Writes`, each with its buffer, and what they send. -/
inductive Sends (J : JsonC) (net : Network) (w₀ : QingStorWriter) : List (List Byte) → QingStorWriter → List Send → Prop
  | start : Sends J net w₀ [] w₀ []
  | write {buffers : List (List Byte)} {w : QingStorWriter} {sends : List Send} {buffer : List Byte} {fuel : Nat}
      {o : ObjectStep} :
      Sends J net w₀ buffers w sends → buffer ≠ [] → buffer.length < 2 ^ 31 → qingstorWrite J net fuel w buffer = some o →
      Sends J net w₀ (buffers ++ [buffer]) o.writer (sends ++ w.transferSends J net fuel buffer)

end QingStor
