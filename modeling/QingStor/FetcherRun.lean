import QingStor.HTTPFetcher

/-!
# What happens to one fetcher

The calls a fetcher gets from the pipeline and from curl, in any order. Curl's side is given anew with each call, so that nothing
is supposed of what the other fetchers do to it. A `FetcherRun` records next to the fetcher the bytes its write callback took and
the bytes its `get` returned.
-/

namespace QingStor

variable {β : Type*}

/-- A call on a fetcher. -/
inductive FetcherOp (β : Type*) where
  | start (env : StartEnv β) (m : Multi β)
  /-- curl calls the write callback -/
  | write (contents : List β)
  | get (bufflen : Nat) (resumes : List (List Nat)) (m : Multi β)
  | handleResult (res : CURLcode) (respcode : Nat) (m : Multi β)

/-- A fetcher, with the bytes it took and the bytes it gave. -/
structure FetcherRun (β : Type*) where
  fetcher : HTTPFetcher β
  accepted : List β
  returned : List β

/-- The bytes an answer of `get` carries. -/
def Got.given : Got β → List β
  | .bytes bs => bs
  | _ => []

/-- The bytes the write callbacks took since the record of pieces was `m`'s. -/
def Multi.takenSince (m' m : Multi β) : List β := (m'.taken.drop m.taken.length).flatMap (·.bytes)

/-- One call. Curl calls the write callback only for a request that was set up, with the buffer allocated. -/
def FetcherOp.run (s : FetcherRun β) : FetcherOp β → FetcherRun β
  | .start env m => { s with fetcher := (s.fetcher.start env m).fetcher }
  | .write contents =>
    if s.fetcher.mReadBuff.isSome then
      { s with
        fetcher := (s.fetcher.writerCallback contents).2
        accepted := s.accepted ++ if (s.fetcher.writerCallback contents).1 then contents else [] }
    else s
  | .get bufflen resumes m =>
    { fetcher := (s.fetcher.get bufflen resumes m).2.1
      accepted := s.accepted ++ (s.fetcher.get bufflen resumes m).2.2.takenSince m
      returned := s.returned ++ (s.fetcher.get bufflen resumes m).1.given }
  | .handleResult res respcode m => { s with fetcher := (s.fetcher.handleResult res respcode m).fetcher }

@[simp] theorem FetcherOp.run_start (s : FetcherRun β) (env : StartEnv β) (m : Multi β) :
    (FetcherOp.start env m).run s = { s with fetcher := (s.fetcher.start env m).fetcher } := rfl

@[simp] theorem FetcherOp.run_get (s : FetcherRun β) (bufflen : Nat) (resumes : List (List Nat)) (m : Multi β) :
    (FetcherOp.get bufflen resumes m).run s =
      ⟨(s.fetcher.get bufflen resumes m).2.1, s.accepted ++ (s.fetcher.get bufflen resumes m).2.2.takenSince m,
        s.returned ++ (s.fetcher.get bufflen resumes m).1.given⟩ := rfl

@[simp] theorem FetcherOp.run_handleResult (s : FetcherRun β) (res : CURLcode) (respcode : Nat) (m : Multi β) :
    (FetcherOp.handleResult res respcode m).run s = { s with fetcher := (s.fetcher.handleResult res respcode m).fetcher } := rfl

theorem FetcherOp.run_write (s : FetcherRun β) (contents : List β) :
    (FetcherOp.write contents).run s =
      if s.fetcher.mReadBuff.isSome then
        ⟨(s.fetcher.writerCallback contents).2,
          s.accepted ++ if (s.fetcher.writerCallback contents).1 then contents else [], s.returned⟩
      else s := rfl

/-- The calls one after another. -/
def HTTPFetcher.after (f : HTTPFetcher β) (ops : List (FetcherOp β)) : FetcherRun β := ops.foldl FetcherOp.run ⟨f, [], []⟩

/-- A fetcher as the constructor makes it. -/
def HTTPFetcher.Made (f : HTTPFetcher β) : Prop :=
  ∃ this url host bucket cred buffsize offset len, f = .make this url host bucket cred buffsize offset len

/-- A fetcher with a buffer of a given size, empty. -/
def HTTPFetcher.withBuffer (f : HTTPFetcher β) (size : Nat) : HTTPFetcher β :=
  { f with mReadBuff := some [], mBuffSize := size, mNused := 0, mReadOff := 0 }

end QingStor
