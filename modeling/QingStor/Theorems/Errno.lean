import QingStor.Lemmas.Raised
import QingStor.Lemmas.Attempt
import QingStor.Lemmas.Listing

/-!
# The `errno` of an exception

`handleException` looks at the class of what arrives. A handler that throws `e` again on the way leaves the class
`QingStorException`, so only what no such handler sees is told apart: the exceptions of `DownloadPipeline::read`.
-/

namespace QingStor

variable {β : Type*}

/-- A call of the interface that the classes behind it may throw in, with what the outside does meanwhile. -/
inductive ApiCall (β : Type*) where
  | initContext (location accessKeyId secretAccessKey : Option Str) (chunkSize : Int)
  | initContextFromFile (configFile : Option Str) (file : ConfigFile)
  | listBuckets (ctx : Context) (location : Option Str) (xs : Nat → Exchange)
  | createBucket (ctx : Context) (location bucket : Option Str) (xs : Nat → Exchange)
  | deleteBucket (ctx : Context) (location bucket : Option Str) (xs : Nat → Exchange)
  | listObjects (ctx : Context) (bucket path : Option Str) (net : ListState → Str → Nat → Exchange) (fuel : Nat)
  | getObject (ctx : Context) (bucket key : Option Str) (rangeStart rangeEnd : Int) (xs : Nat → Exchange) (fuel : Nat)
      (multi : Bool)
  | putObject (ctx : Context) (bucket key : Option Str) (cache : Bool) (xs : Nat → Exchange)
  | headObject (ctx : Context) (bucket key : Option Str) (xs : Nat → Exchange)
  | deleteObject (ctx : Context) (bucket key : Option Str) (xs : Nat → Exchange)
  | cancelObject (w : QingStorWriter) (net : Network)
  | closeObject (w : QingStorWriter) (net : Network)
  | read (r : QingStorReader β) (length : Int) (rounds : List (Round β))
  | write (w : QingStorWriter) (net : Network) (fuel : Nat) (buffer : List Byte)

/-- The `errno` a function leaves, when it sets one. -/
def errnoLeft {α : Type*} (r : Except Fault (Returned α)) : Except Fault (Option Errno) := r.map (·.errno)

namespace ApiCall

variable (J : JsonC) (Q : Qsort)

/-- The `errno` a call leaves; nothing when it has not ended. -/
def left : ApiCall β → Option (Except Fault (Option Errno))
  | initContext location accessKeyId secretAccessKey chunkSize =>
    some (errnoLeft (qingstorInitContext location accessKeyId secretAccessKey chunkSize))
  | initContextFromFile configFile file => some (errnoLeft (qingstorInitContextFromFile configFile file))
  | listBuckets ctx location xs => some (errnoLeft (qingstorListBuckets J ctx location xs))
  | createBucket ctx location bucket xs => some (errnoLeft (qingstorCreateBucket J ctx location bucket xs))
  | deleteBucket ctx location bucket xs => some (errnoLeft (qingstorDeleteBucket J ctx location bucket xs))
  | listObjects ctx bucket path net fuel => (qingstorListObjects J Q ctx bucket path net fuel).map errnoLeft
  | getObject ctx bucket key rangeStart rangeEnd xs fuel multi =>
    if multi then
      ((qingstorGetObject J ctx bucket key rangeStart rangeEnd xs fuel :
        Option (Except Fault (Returned (Option (QingStorReader β)))))).map errnoLeft
    else some (errnoLeft (qingstorGetObjectNoMulti J ctx bucket key rangeStart rangeEnd xs :
      Except Fault (Returned (Option (QingStorReader β)))))
  | putObject ctx bucket key cache xs => some (errnoLeft (qingstorPutObject J ctx bucket key cache xs))
  | headObject ctx bucket key xs => some (errnoLeft (qingstorHeadObject J ctx bucket key xs))
  | deleteObject ctx bucket key xs => some (errnoLeft (qingstorDeleteObject J ctx bucket key xs))
  | cancelObject w net => some (errnoLeft (qingstorCancelObject J net w).returned)
  | closeObject w net => some (errnoLeft (qingstorCloseObject J net w).returned)
  | read r length rounds => (qingstorRead r length rounds).1.map errnoLeft
  | write w net fuel buffer => (qingstorWrite J net fuel w buffer).map (fun o => errnoLeft o.returned)

/-- What a call raises behind its parameter checks, before any handler: nothing when it refuses its parameters. -/
def raised : ApiCall β → Option (Except Fault Unit)
  | initContext .. => none
  | initContextFromFile configFile file =>
    if ¬ given configFile then none else some ((Configuration.ofFile file).map (fun _ => ()))
  | listBuckets ctx location xs =>
    some ((listBucketsResponse J (requestRaised J (listBucketsArgs ctx.mConfiguration (location.getD [])) none
      ctx.mConfiguration.mConnectionRetries xs)).map (fun _ => ()))
  | createBucket ctx location bucket xs =>
    if ¬ given bucket then none
    else some ((requestRaised J (bucketArgs ctx.mConfiguration (location.getD []) (bucket.getD []) .createBucket) none
      ctx.mConfiguration.mConnectionRetries xs).map (fun _ => ()))
  | deleteBucket ctx location bucket xs =>
    if ¬ given bucket then none
    else some ((requestRaised J (bucketArgs ctx.mConfiguration (location.getD []) (bucket.getD []) .deleteBucket) none
      ctx.mConfiguration.mConnectionRetries xs).map (fun _ => ()))
  | listObjects ctx bucket path net fuel =>
    if ¬ given bucket then none
    else listLoopRaised J Q (fun st url => requestRaised J (listArgs ctx.mConfiguration (bucket.getD []) url) none
      ctx.mConfiguration.mConnectionRetries (net st url)) ctx.mConfiguration (bucket.getD []) (path.getD []) fuel .start
  | getObject ctx bucket key rangeStart rangeEnd xs _ multi =>
    if ¬ given bucket then none
    else if ¬ given key then none
    else if ¬ rangeEnd ≥ rangeStart then none
    else
      match headResponse J (requestRaised J (objectArgs ctx.mConfiguration (bucket.getD []) (key.getD []) .headObject) none
          ctx.mConfiguration.mConnectionRetries xs) with
      | .error f => some (.error f)
      | .ok _ => if multi then none else some (.error (throwing .qingStorException "could not create CURL multi-handle"))
  | putObject ctx bucket key _ xs =>
    if ¬ given bucket then none
    else if ¬ given key then none
    else some ((initResponse J (requestRaised J (initArgs ctx.mConfiguration (bucket.getD []) (key.getD [])) none
      ctx.mConfiguration.mConnectionRetries xs)).map (fun _ => ()))
  | headObject ctx bucket key xs =>
    if ¬ given bucket then none
    else if ¬ given key then none
    else some ((headResponse J (requestRaised J (objectArgs ctx.mConfiguration (bucket.getD []) (key.getD []) .headObject) none
      ctx.mConfiguration.mConnectionRetries xs)).map (fun _ => ()))
  | deleteObject ctx bucket key xs =>
    if ¬ given bucket then none
    else if ¬ given key then none
    else some ((requestRaised J (objectArgs ctx.mConfiguration (bucket.getD []) (key.getD []) .deleteObject) none
      ctx.mConfiguration.mConnectionRetries xs).map (fun _ => ()))
  | cancelObject w net => some (w.cancelRaised J net)
  | closeObject w net => some (w.closeRaised J net)
  | read r length rounds =>
    if ¬ length > 0 then none
    else
      match (r.transferData length.toNat rounds).1 with
      | .thrown f => some (.error f)
      | _ => none
  | write w net fuel buffer => if buffer = [] then none else w.transferRaised J net fuel buffer

/-- The call reads an open object: no handler on its way throws again. -/
def reads : ApiCall β → Bool
  | read .. => true
  | _ => false

/-- The call makes a context. -/
def initializes : ApiCall β → Bool
  | initContext .. | initContextFromFile .. => true
  | _ => false

end ApiCall

namespace ErrnoAux

variable {α γ : Type*} {J : JsonC} {Q : Qsort} {e : Exception}

/-- What was thrown again leaves the `errno` of the base class. -/
theorem left_rethrown {raised : Except Fault α} (h : raised = .error (.thrown e)) (hsdk : e.cls.isQingStorException = true)
    (failed : γ) (g : α → γ) :
    errnoLeft (catching failed ((rethrowing raised).map g)) = .ok (some .einternal) := by
  subst h
  simp only [rethrowing, Fault.rethrown, hsdk, if_true, Except.map, catching, errnoLeft, reduceCtorEq, if_false, handleException]

theorem raised_of_map {raised : Except Fault α} {g : α → γ} (h : raised.map g = .error (.thrown e)) :
    raised = .error (.thrown e) := by
  cases raised with
  | ok a => cases h
  | error f => exact congrArg Except.error (Except.error.inj h)

/-- A call that raised something did not refuse its parameters. -/
theorem passed {c : Prop} [Decidable c] {r : Option α} {a : α} (h : (if ¬ c then none else r) = some a) : c ∧ r = some a := by
  by_cases hc : c
  · rw [if_neg (not_not.2 hc)] at h
    exact ⟨hc, h⟩
  · rw [if_pos hc] at h
    cases h

/-- The result of a run with a bound, when it was raised before the bound. -/
theorem result_of_raised {step : Option γ} {result : γ → Except Fault α} {raised : Option (Except Fault α)}
    (h : step.map result = raised.map rethrowing) (hraised : raised = some (.error (.thrown e))) :
    ∃ o, step = some o ∧ result o = rethrowing (.error (.thrown e)) := by
  rw [hraised, Option.map_some, Option.map_eq_some_iff] at h
  exact h

/-- A call behind a handler that throws again leaves the `errno` of the base class. -/
theorem left_of_raised (call : ApiCall β) (hreads : call.reads = false) (hinit : call.initializes = false)
    (hraised : call.raised J Q = some (.error (.thrown e))) (hsdk : e.cls.isQingStorException = true) :
    call.left J Q = some (.ok (some .einternal)) := by
  cases call with
  | initContext => cases hinit
  | initContextFromFile => cases hinit
  | read => cases hreads
  | listBuckets ctx location xs =>
    have h := raised_of_map (Option.some.inj hraised)
    simp only [ApiCall.left, qingstorListBuckets, listBuckets_raised]
    rw [left_rethrown h hsdk]
  | createBucket ctx location bucket xs =>
    obtain ⟨hbucket, hraised⟩ := passed hraised
    simp only [ApiCall.left, qingstorCreateBucket, hbucket, not_true_eq_false, if_false, Context.createBucket, request_raised]
    rw [left_rethrown (Option.some.inj hraised) hsdk]
  | deleteBucket ctx location bucket xs =>
    obtain ⟨hbucket, hraised⟩ := passed hraised
    simp only [ApiCall.left, qingstorDeleteBucket, hbucket, not_true_eq_false, if_false, Context.deleteBucket, request_raised]
    rw [left_rethrown (Option.some.inj hraised) hsdk]
  | listObjects ctx bucket path net fuel =>
    obtain ⟨hbucket, hraised⟩ := passed hraised
    have hask : ∀ st url, ctx.ask J (bucket.getD []) net st url = rethrowing (requestRaised J
        (listArgs ctx.mConfiguration (bucket.getD []) url) none ctx.mConfiguration.mConnectionRetries (net st url)) :=
      fun st url => doGetJSON_raised ..
    obtain ⟨o, ho, hresult⟩ := result_of_raised
      (listLoop_raised (J := J) (Q := Q) hask ctx.mConfiguration (bucket.getD []) (path.getD []) fuel .start) hraised
    have hleft : (rethrowing (.error (.thrown e) : Except Fault Unit)).map (fun _ => o.state.result) =
        rethrowing (.error (.thrown e)) := rfl
    simp only [ApiCall.left, qingstorListObjects, hbucket, not_true_eq_false, if_false, Context.listObjects, ho,
      Option.map_some, hresult, hleft]
    rw [left_rethrown rfl hsdk]
  | getObject ctx bucket key rangeStart rangeEnd xs fuel multi =>
    obtain ⟨hbucket, hraised⟩ := passed hraised
    obtain ⟨hkey, hraised⟩ := passed hraised
    obtain ⟨hrange, hraised⟩ := passed hraised
    have hhead := headObject_raised J ctx xs (bucket.getD []) (key.getD [])
    split at hraised
    · rename_i f hf
      obtain rfl := Except.error.inj (Option.some.inj hraised)
      rw [hf] at hhead
      have hleft := left_rethrown (γ := Option (QingStorReader β)) (rfl : (Except.error (.thrown e) : Except Fault _) = _)
        hsdk none id
      simp only [ApiCall.left, qingstorGetObject, qingstorGetObjectNoMulti, hbucket, hkey, hrange, not_true_eq_false, if_false,
        hhead]
      simp only [rethrowing, Except.map] at hleft ⊢
      rw [Option.map_some, hleft, ite_self]
    · rename_i res hres
      rw [hres] at hhead
      split at hraised
      · cases hraised
      · rename_i hmulti
        obtain rfl := Fault.thrown.inj (Except.error.inj (Option.some.inj hraised))
        simp only [ApiCall.left, if_neg hmulti, qingstorGetObjectNoMulti, hbucket, hkey, hrange, not_true_eq_false, if_false,
          hhead, rethrowing]
        rfl
  | putObject ctx bucket key cache xs =>
    obtain ⟨hbucket, hraised⟩ := passed hraised
    obtain ⟨hkey, hraised⟩ := passed hraised
    have h := raised_of_map (Option.some.inj hraised)
    have hmake : QingStorWriter.make J ctx.mConfiguration (bucket.getD []) (key.getD []) cache xs =
        rethrowing (.error (.thrown e)) := by
      unfold QingStorWriter.make
      rw [initMultipartUpload_raised, h]
      rfl
    simp only [ApiCall.left, qingstorPutObject, hbucket, hkey, not_true_eq_false, if_false, hmake]
    rw [left_rethrown rfl hsdk]
  | headObject ctx bucket key xs =>
    obtain ⟨hbucket, hraised⟩ := passed hraised
    obtain ⟨hkey, hraised⟩ := passed hraised
    have h := raised_of_map (Option.some.inj hraised)
    simp only [ApiCall.left, qingstorHeadObject, hbucket, hkey, not_true_eq_false, if_false, headObject_raised]
    rw [left_rethrown h hsdk]
  | deleteObject ctx bucket key xs =>
    obtain ⟨hbucket, hraised⟩ := passed hraised
    obtain ⟨hkey, hraised⟩ := passed hraised
    simp only [ApiCall.left, qingstorDeleteObject, hbucket, hkey, not_true_eq_false, if_false, Context.deleteObject,
      request_raised]
    rw [left_rethrown (Option.some.inj hraised) hsdk]
  | cancelObject w net =>
    simp only [ApiCall.left, qingstorCancelObject, QingStorWriter.cancel_raised]
    rw [left_rethrown (Option.some.inj hraised) hsdk]
  | closeObject w net =>
    simp only [ApiCall.left, qingstorCloseObject, QingStorWriter.close_raised]
    rw [left_rethrown (Option.some.inj hraised) hsdk]
  | write w net fuel buffer =>
    by_cases hnone : buffer = []
    · simp only [ApiCall.raised, if_pos hnone] at hraised
      cases hraised
    · simp only [ApiCall.raised, if_neg hnone] at hraised
      have hwrite : (w.transferData J net fuel buffer).map (·.result) = (w.transferRaised J net fuel buffer).map rethrowing :=
        w.transferData_raised fuel buffer
      obtain ⟨o, ho, hresult⟩ := result_of_raised hwrite hraised
      simp only [ApiCall.left, qingstorWrite, if_neg hnone, ho, Option.map_some, hresult]
      rw [left_rethrown rfl hsdk]

/-- What is thrown while an object is read arrives as it was raised. -/
theorem left_of_read {r : QingStorReader β} {length : Int} {rounds : List (Round β)}
    (hraised : (ApiCall.read r length rounds).raised J Q = some (.error (.thrown e)))
    (hsdk : e.cls.isQingStorException = true) (hfails : (ApiCall.read r length rounds).left J Q ≠ some (.ok none)) :
    (ApiCall.read r length rounds).left J Q = some (.ok (some (handleException e.cls))) := by
  obtain ⟨hlength, hraised⟩ := passed hraised
  simp only [ApiCall.left, qingstorRead, hlength, not_true_eq_false, if_false] at hfails ⊢
  cases htransfer : r.transferData length.toNat rounds with
  | mk result r' =>
    rw [htransfer] at hraised hfails
    cases result with
    | bytes bs => cases hraised
    | waiting => cases hraised
    | thrown f =>
      obtain rfl := Except.error.inj (Option.some.inj hraised)
      dsimp only at hfails ⊢
      have hstream : e.cls ≠ .qingStorEndOfStream := by
        intro hend
        rw [if_pos hend] at hfails
        exact hfails rfl
      have hmemory : e.cls ≠ .badAlloc := by
        intro hbad
        rw [hbad] at hsdk
        cases hsdk
      rw [if_neg hstream]
      simp only [catching, if_neg hmemory]
      rfl

/-- A call that makes a context leaves nothing that can be relied on when it raised something. -/
theorem left_of_init {call : ApiCall β} (hinit : call.initializes = true)
    (hraised : call.raised J Q = some (.error (.thrown e))) (errno : Option Errno) : call.left J Q ≠ some (.ok errno) := by
  cases call with
  | initContext => cases hraised
  | initContextFromFile configFile file =>
    obtain ⟨hfile, hraised⟩ := passed hraised
    have h := raised_of_map (Option.some.inj hraised)
    simp only [ApiCall.left, qingstorInitContextFromFile, hfile, not_true_eq_false, if_false, h]
    intro hleft
    cases hleft
  | _ => cases hinit

end ErrnoAux

/-- The `errno` of a call that failed by an exception of the SDK is the one of its class exactly if the call reads an open
object, or the class is one that `handleException` does not tell from the base class, and no context is made. -/
theorem errno_reflects_iff (J : JsonC) (Q : Qsort) (call : ApiCall β) (e : Exception)
    (hraised : call.raised J Q = some (.error (.thrown e))) (hsdk : e.cls.isQingStorException = true)
    (hfails : call.left J Q ≠ some (.ok none)) :
    call.left J Q = some (.ok (some (handleException e.cls))) ↔
      call.reads = true ∨ call.initializes = false ∧ handleException e.cls = .einternal := by
  cases hinit : call.initializes with
  | true =>
    have hreads : call.reads = false := by
      cases call with
      | initContext | initContextFromFile => rfl
      | _ => cases hinit
    have hne := ErrnoAux.left_of_init hinit hraised (some (handleException e.cls))
    simp [hne, hreads]
  | false =>
    cases hreads : call.reads with
    | true =>
      cases call with
      | read r length rounds => simp [ErrnoAux.left_of_read hraised hsdk hfails]
      | _ => cases hreads
    | false =>
      rw [ErrnoAux.left_of_raised call hreads hinit hraised hsdk]
      simp only [Bool.false_eq_true, false_or, true_and, Option.some.injEq, Except.ok.injEq]
      exact eq_comm

/-- Reading an object whose URL the parser does not take. -/
def Sample.spacedRead : ApiCall Byte :=
  .read ⟨(DownloadPipeline.make 1).add (.make 0 (lit "https://b.pek3a.qingstor.com/a b") (lit "b.pek3a.qingstor.com") (lit "b")
    ⟨lit "id", lit "secret"⟩ 4 0 (-1))⟩ 1 [⟨fun _ => Sample.willing, [], Sample.willing, true, true, [], []⟩]

theorem errno_reflects_iff_spaced :
    (ApiCall.left Sample.json Sample.mergeSort Sample.spacedRead) = some (.ok (some .einval)) :=
  (errno_reflects_iff Sample.json Sample.mergeSort Sample.spacedRead
    ⟨.invalidParameter, "could not parse URL \"%s\": error code %d\n"⟩ (by decide +kernel) rfl (by decide +kernel)).2 (Or.inl rfl)

/-- Deleting an object over a network that fails raises a network exception, and leaves `EINTERNAL`. -/
theorem errno_reflects_false :
    ¬ ∀ (J : JsonC) (Q : Qsort) (call : ApiCall Byte) (e : Exception), call.raised J Q = some (.error (.thrown e)) →
      e.cls.isQingStorException = true → call.left J Q ≠ some (.ok none) →
      call.left J Q = some (.ok (some (handleException e.cls))) := by
  intro h
  have hleft := h Sample.json Sample.mergeSort
    (.deleteObject ⟨.ofArguments (lit "pek3a") (lit "id") (lit "secret") 4⟩ (some (lit "b")) (some (lit "k"))
      (fun _ => Sample.broken []))
    ⟨.qingStorNetworkConnectException, "curl_easy_perform() failed: %s"⟩ (by decide +kernel) rfl (by decide +kernel)
  exact absurd hleft (by decide +kernel)

end QingStor
