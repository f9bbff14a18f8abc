import QingStor.Lemmas.Requests
import QingStor.Api

/-!
# What an operation takes for a success

`DoGetJSON_Internal` never looks at the status of a response. An operation takes the first response of the right shape for a
success: no body where none is expected, and the members it reads where JSON is. So success means a 2xx status exactly when that
first response has one.
-/

namespace QingStor

/-- The operations that go through `DoGetJSON`, with their arguments. -/
inductive Operation where
  | createBucket (location bucket : Str)
  | deleteBucket (location bucket : Str)
  | deleteObject (bucket key : Str)
  | headObject (bucket key : Str)
  | openForWrite (bucket key : Str) (cache : Bool)
  | uploadPart (w : QingStorWriter) (data : List Byte) (length : Int)
  | complete (w : QingStorWriter)
  | abort (w : QingStorWriter)

/-- An API function returned 0. -/
def returnsZero : Except Fault (Returned Int) → Bool
  | .ok r => r.value = 0
  | .error _ => false

/-- An API function returned a pointer that is not null. -/
def returnsPointer {α : Type*} : Except Fault (Returned (Option α)) → Bool
  | .ok r => r.value.isSome
  | .error _ => false

namespace Operation

/-- The request an operation makes. -/
def args (ctx : Context) : Operation → RequestArgs
  | createBucket location bucket => bucketArgs ctx.mConfiguration location bucket .createBucket
  | deleteBucket location bucket => bucketArgs ctx.mConfiguration location bucket .deleteBucket
  | deleteObject bucket key => objectArgs ctx.mConfiguration bucket key .deleteObject
  | headObject bucket key => objectArgs ctx.mConfiguration bucket key .headObject
  | openForWrite bucket key _ => initArgs ctx.mConfiguration bucket key
  | uploadPart w _ _ => w.partArgs
  | complete w => w.uploadArgs .compMpUpload
  | abort w => w.uploadArgs .abortMpUpload

/-- The body of its request. -/
def body (J : JsonC) : Operation → Option MemoryData
  | uploadPart _ data length => some (partBody data length)
  | complete w => some ⟨cString (J.toJsonString w.completeBody), (cString (J.toJsonString w.completeBody)).length⟩
  | _ => none

/-- How often its request is tried. -/
def retries (ctx : Context) : Operation → Int
  | uploadPart w _ _ | complete w | abort w => w.mConfiguration.mConnectionRetries
  | _ => ctx.mConfiguration.mConnectionRetries

/-- Whether the operation reports success over the exchanges `xs`: 0, a handle, a result, or no exception. -/
def succeeds (J : JsonC) (ctx : Context) (xs : Nat → Exchange) : Operation → Bool
  | createBucket location bucket => returnsZero (qingstorCreateBucket J ctx (some location) (some bucket) xs)
  | deleteBucket location bucket => returnsZero (qingstorDeleteBucket J ctx (some location) (some bucket) xs)
  | deleteObject bucket key => returnsZero (qingstorDeleteObject J ctx (some bucket) (some key) xs)
  | headObject bucket key => returnsPointer (qingstorHeadObject J ctx (some bucket) (some key) xs)
  | openForWrite bucket key cache => returnsPointer (qingstorPutObject J ctx (some bucket) (some key) cache xs)
  | uploadPart w data length => (w.doSend J (fun _ => xs) data length).result.isOk
  | complete w => (w.completeMultipartUpload J (fun _ => xs)).result.isOk
  | abort w => (w.abortMultipartUpload J (fun _ => xs)).result.isOk

/-- The number of its final attempt. -/
def last (J : JsonC) (ctx : Context) (xs : Nat → Exchange) (op : Operation) : Nat :=
  (doGetJSON J (op.args ctx) (op.body J) (op.retries ctx) xs).last

/-- The parameters an operation goes on with: names that are not empty, and a cache that can be allocated. -/
def Allowed (ctx : Context) : Operation → Prop
  | createBucket _ bucket | deleteBucket _ bucket => bucket ≠ []
  | deleteObject bucket key | headObject bucket key => bucket ≠ [] ∧ key ≠ []
  | openForWrite bucket key cache => bucket ≠ [] ∧ key ≠ [] ∧ (cache = true → 0 ≤ ctx.mConfiguration.mChunkSize)
  | _ => True

end Operation

/-- A JSON value has a member. -/
def Json.Has (j : Json) (key : Str) : Prop := ∃ v, j.objectGetEx key = some v

/-- A JSON value has a member that is not null. -/
def Json.HasText (j : Json) (key : Str) : Prop := ∃ v, j.objectGetEx key = some v ∧ v.isNull = false

/-- The shape an operation asks of the answer. -/
def Operation.Reads (op : Operation) (j : Json) : Prop :=
  match op with
  | .headObject _ _ => j.HasText (lit "Content-Type") ∧ j.Has (lit "Content-Length") ∧ j.HasText (lit "Last-Modified")
  | .openForWrite _ _ _ => j.HasText (lit "upload_id") ∧ j.HasText (lit "key")
  | _ => True

/-- A status of success. -/
def Is2xx (status : Nat) : Prop := 200 ≤ status ∧ status < 300

namespace StatusAux

theorem stdString_ok_iff (J : JsonC) (v : Json) : (∃ s, v.stdString J = .ok s) ↔ v.isNull = false := by
  cases v <;> simp [Json.stdString, Json.getString, Json.isNull]

/-- A member read as a string. -/
theorem hasText_iff (J : JsonC) (j : Json) (key : Str) :
    j.HasText key ↔ ∃ v s, j.objectGetEx key = some v ∧ v.stdString J = .ok s := by
  constructor
  · rintro ⟨v, hv, hn⟩
    obtain ⟨s, hs⟩ := (stdString_ok_iff J v).2 hn
    exact ⟨v, s, hv, hs⟩
  · rintro ⟨v, s, hv, hs⟩
    exact ⟨v, hv, (stdString_ok_iff J v).1 ⟨s, hs⟩⟩

/-- When `extractHeadObjectContent` returns true. -/
theorem extractHead_iff (J : JsonC) (j : Json) :
    (∃ r, extractHeadObjectContent J j = .ok (some r)) ↔
      j.HasText (lit "Content-Type") ∧ j.Has (lit "Content-Length") ∧ j.HasText (lit "Last-Modified") := by
  rw [hasText_iff J, hasText_iff J]
  unfold extractHeadObjectContent Json.Has
  constructor
  · rintro ⟨r, h⟩
    split at h
    · cases h
    · rename_i v hv
      split at h
      · cases h
      · rename_i s hs
        split at h
        · cases h
        · rename_i v' hv'
          split at h
          · cases h
          · rename_i v'' hv''
            split at h
            · cases h
            · rename_i s'' hs''
              exact ⟨⟨v, s, hv, hs⟩, ⟨v', hv'⟩, ⟨v'', s'', hv'', hs''⟩⟩
  · rintro ⟨⟨v, s, hv, hs⟩, ⟨v', hv'⟩, ⟨v'', s'', hv'', hs''⟩⟩
    simp only [hv, hs, hv', hv'', hs'']
    exact ⟨_, rfl⟩

/-- When `extractUploadIDContent` returns true. -/
theorem extractUploadID_iff (J : JsonC) (j : Json) :
    (∃ ids, extractUploadIDContent J j = .ok (some ids)) ↔ j.HasText (lit "upload_id") ∧ j.HasText (lit "key") := by
  rw [hasText_iff J, hasText_iff J]
  unfold extractUploadIDContent
  constructor
  · rintro ⟨ids, h⟩
    split at h
    · cases h
    · rename_i v hv
      split at h
      · cases h
      · rename_i s hs
        split at h
        · cases h
        · rename_i v' hv'
          split at h
          · cases h
          · rename_i s' hs'
            exact ⟨⟨v, s, hv, hs⟩, ⟨v', s', hv', hs'⟩⟩
  · rintro ⟨⟨v, s, hv, hs⟩, ⟨v', s', hv', hs'⟩⟩
    simp only [hv, hs, hv', hs']
    exact ⟨_, rfl⟩

/-- A member that is there was found in an object, which is no null pointer. -/
theorem not_null_of_has {j : Json} {key : Str} (h : j.HasText key) : j.isNull = false := by
  obtain ⟨v, hv, _⟩ := h
  cases j with
  | null => cases hv
  | _ => rfl

theorem rethrowing_map_ok_iff {α β : Type*} (r : Except Fault α) (g : α → β) (b : β) :
    rethrowing (r.map g) = .ok b ↔ ∃ a, r = .ok a ∧ g a = b := by
  rw [rethrowing_ok_iff]
  cases r <;> simp [Except.map]

/-- An API function that returns 0 or -1 returns 0 when its checks pass and what it calls does not throw. -/
theorem returnsZero_iff {α : Type*} (r : Except Fault α) :
    returnsZero (catching (-1) (r.map (fun _ => 0))) = true ↔ ∃ a, r = .ok a := by
  cases r with
  | ok a => simp [returnsZero, catching, Except.map]
  | error f => cases f <;> simp [returnsZero, catching, Except.map]

/-- An API function that returns a pointer returns one when what it calls does not throw. -/
theorem returnsPointer_iff {α : Type*} (r : Except Fault α) :
    returnsPointer (catching none (r.map some)) = true ↔ ∃ a, r = .ok a := by
  cases r with
  | ok a => simp [returnsPointer, catching, Except.map]
  | error f => cases f <;> simp [returnsPointer, catching, Except.map]

theorem request_ok_iff (ctx : Context) (J : JsonC) (args : RequestArgs) (xs : Nat → Exchange) :
    (∃ u, ctx.request J args xs = .ok u) ↔ ∃ j, (doGetJSON J args none ctx.mConfiguration.mConnectionRetries xs).result = .ok j := by
  unfold Context.request
  simp only [rethrowing_map_ok_iff]
  constructor
  · rintro ⟨_, j, hj, _⟩
    exact ⟨j, hj⟩
  · rintro ⟨j, hj⟩
    exact ⟨(), j, hj, trivial⟩

/-- `headObject` returns when its answer has the members it reads. -/
theorem headObject_ok_iff (ctx : Context) (J : JsonC) (bucket key : Str) (xs : Nat → Exchange) :
    (∃ r, ctx.headObject J bucket key xs = .ok r) ↔
      ∃ j, (doGetJSON J (objectArgs ctx.mConfiguration bucket key .headObject) none ctx.mConfiguration.mConnectionRetries
          xs).result = .ok j ∧
        j.HasText (lit "Content-Type") ∧ j.Has (lit "Content-Length") ∧ j.HasText (lit "Last-Modified") := by
  unfold Context.headObject
  simp only [rethrowing_ok_iff]
  cases (doGetJSON J (objectArgs ctx.mConfiguration bucket key .headObject) none ctx.mConfiguration.mConnectionRetries
    xs).result with
  | error f => simp [headResponse]
  | ok j =>
    simp only [headResponse, Except.ok.injEq, exists_eq_left']
    rw [← extractHead_iff J]
    constructor
    · rintro ⟨r, h⟩
      split at h
      · cases h
      · split at h
        · cases h
        · cases h
        · rename_i r' hr'
          exact ⟨r', hr'⟩
    · rintro ⟨r, h⟩
      have hnull := not_null_of_has ((extractHead_iff J j).1 ⟨r, h⟩).1
      simp [hnull, h]

/-- The constructor of a writer returns when its answer has the members it reads and its buffer can be allocated. -/
theorem make_ok_iff (J : JsonC) (cfg : Configuration) (bucket key : Str) (cache : Bool) (xs : Nat → Exchange) :
    (∃ w, QingStorWriter.make J cfg bucket key cache xs = .ok w) ↔
      (cache = true → 0 ≤ cfg.mChunkSize) ∧
      ∃ j, (doGetJSON J (initArgs cfg bucket key) none cfg.mConnectionRetries xs).result = .ok j ∧
        j.HasText (lit "upload_id") ∧ j.HasText (lit "key") := by
  have hopened : ∀ ids, (∃ w, QingStorWriter.opened cfg bucket cache ids = .ok w) ↔ (cache = true → 0 ≤ cfg.mChunkSize) := by
    intro ids
    unfold QingStorWriter.opened newBuffer
    cases cache with
    | false => simp
    | true =>
      by_cases h : cfg.mChunkSize < 0
      · simp [h]
      · simp [h, Int.not_lt.1 h]
  unfold QingStorWriter.make initMultipartUpload
  cases (doGetJSON J (initArgs cfg bucket key) none cfg.mConnectionRetries xs).result with
  | error f => simp [initResponse, rethrowing]
  | ok j =>
    simp only [Except.ok.injEq, exists_eq_left']
    rw [← extractUploadID_iff J]
    constructor
    · rintro ⟨w, h⟩
      split at h
      · cases h
      · rename_i ids hids
        rw [rethrowing_ok_iff] at hids
        unfold initResponse at hids
        dsimp only at hids
        split at hids
        · cases hids
        · split at hids
          · cases hids
          · rename_i ids' hx
            exact ⟨(hopened ids).1 ⟨w, h⟩, ids', hx⟩
          · cases hids
    · rintro ⟨hc, ids, h⟩
      have hnull := not_null_of_has ((extractUploadID_iff J j).1 ⟨ids, h⟩).1
      have hinit : rethrowing (initResponse J (.ok j)) = .ok ids := by
        rw [rethrowing_ok_iff]
        simp [initResponse, hnull, h]
      rw [hinit]
      exact (hopened ids).2 hc

/-- An upload that is answered is answered with a null pointer. -/
theorem part_answer_null {J : JsonC} {a : RequestArgs} {md : Option MemoryData} {retries : Int} {xs : Nat → Exchange} {j : Json}
    (hq : a.qsrt = .uploadMp) (hmd : md.isSome = true) (h : (doGetJSON J a md retries xs).result = .ok j) : j.isNull = true := by
  obtain ⟨_, n, _, _, hx, _⟩ := doGetJSON_ok (fun _ => hmd) h
  unfold Exchange.Answers at hx
  rw [hq] at hx
  have hj : j = .null := hx.2.2.2
  rw [hj]
  rfl

/-- The empty string is no name. -/
theorem given_some (s : Str) : given (some s) = true ↔ s ≠ [] := by
  simp [given]

theorem uploadPart_isOk_iff (J : JsonC) (xs : Nat → Exchange) (w : QingStorWriter) (data : List Byte) (length : Int) :
    (w.doSend J (fun _ => xs) data length).result.isOk = true ↔
      ∃ j, (doGetJSON J w.partArgs (some (partBody data length)) w.mConfiguration.mConnectionRetries xs).result = .ok j := by
  unfold QingStorWriter.doSend QingStorWriter.uploadMultipart
  cases h : (doGetJSON J w.partArgs (some (partBody data length)) w.mConfiguration.mConnectionRetries xs).result with
  | error f => simp [Except.isOk, Except.toBool]
  | ok j =>
    simp only [part_answer_null (a := w.partArgs) rfl rfl h, Except.ok.injEq, exists_eq', iff_true]
    rfl

theorem complete_isOk_iff (J : JsonC) (xs : Nat → Exchange) (w : QingStorWriter) :
    (w.completeMultipartUpload J (fun _ => xs)).result.isOk = true ↔
      ∃ j, (doGetJSON J (w.uploadArgs .compMpUpload)
        (some ⟨cString (J.toJsonString w.completeBody), (cString (J.toJsonString w.completeBody)).length⟩)
        w.mConfiguration.mConnectionRetries xs).result = .ok j := by
  unfold QingStorWriter.completeMultipartUpload
  dsimp only
  split
  · rename_i h
    rw [h]
    simp [Except.isOk, Except.toBool]
  · rename_i j h
    rw [h]
    simp [Except.isOk, Except.toBool]

theorem abort_isOk_iff (J : JsonC) (xs : Nat → Exchange) (w : QingStorWriter) :
    (w.abortMultipartUpload J (fun _ => xs)).result.isOk = true ↔
      ∃ j, (doGetJSON J (w.uploadArgs .abortMpUpload) none w.mConfiguration.mConnectionRetries xs).result = .ok j := by
  unfold QingStorWriter.abortMultipartUpload
  split
  · rename_i h
    rw [h]
    simp [Except.isOk, Except.toBool]
  · rename_i j h
    rw [h]
    simp [Except.isOk, Except.toBool]

/-- An operation succeeds when `DoGetJSON` returns an answer of the shape it asks for. -/
theorem succeeds_iff (J : JsonC) (ctx : Context) (xs : Nat → Exchange) (op : Operation) :
    op.succeeds J ctx xs = true ↔
      op.Allowed ctx ∧ ∃ j, (doGetJSON J (op.args ctx) (op.body J) (op.retries ctx) xs).result = .ok j ∧ op.Reads j := by
  cases op with
  | createBucket location bucket =>
    simp only [Operation.succeeds, Operation.Allowed, Operation.Reads, and_true, qingstorCreateBucket, given_some, not_not]
    by_cases hb : bucket = []
    · simp [hb, refused, returnsZero]
    · rw [if_neg hb, returnsZero_iff, Context.createBucket, request_ok_iff]
      exact ⟨fun h => ⟨hb, h⟩, fun h => h.2⟩
  | deleteBucket location bucket =>
    simp only [Operation.succeeds, Operation.Allowed, Operation.Reads, and_true, qingstorDeleteBucket, given_some, not_not]
    by_cases hb : bucket = []
    · simp [hb, refused, returnsZero]
    · rw [if_neg hb, returnsZero_iff, Context.deleteBucket, request_ok_iff]
      exact ⟨fun h => ⟨hb, h⟩, fun h => h.2⟩
  | deleteObject bucket key =>
    simp only [Operation.succeeds, Operation.Allowed, Operation.Reads, and_true, qingstorDeleteObject, given_some, not_not]
    by_cases hb : bucket = []
    · simp [hb, refused, returnsZero]
    · by_cases hk : key = []
      · simp [hb, hk, refused, returnsZero]
      · rw [if_neg hb, if_neg hk, returnsZero_iff, Context.deleteObject, request_ok_iff]
        exact ⟨fun h => ⟨⟨hb, hk⟩, h⟩, fun h => h.2⟩
  | headObject bucket key =>
    simp only [Operation.succeeds, Operation.Allowed, qingstorHeadObject, given_some, not_not]
    by_cases hb : bucket = []
    · simp [hb, refused, returnsPointer]
    · by_cases hk : key = []
      · simp [hb, hk, refused, returnsPointer]
      · rw [if_neg hb, if_neg hk, returnsPointer_iff]
        exact (headObject_ok_iff ctx J bucket key xs).trans ⟨fun h => ⟨⟨hb, hk⟩, h⟩, fun h => h.2⟩
  | openForWrite bucket key cache =>
    simp only [Operation.succeeds, Operation.Allowed, qingstorPutObject, given_some, not_not]
    by_cases hb : bucket = []
    · simp [hb, refused, returnsPointer]
    · by_cases hk : key = []
      · simp [hb, hk, refused, returnsPointer]
      · rw [if_neg hb, if_neg hk, returnsPointer_iff]
        exact (make_ok_iff J ctx.mConfiguration bucket key cache xs).trans
          ⟨fun h => ⟨⟨hb, hk, h.1⟩, h.2⟩, fun h => ⟨h.1.2.2, h.2⟩⟩
  | uploadPart w data length =>
    simp only [Operation.Allowed, Operation.Reads, true_and, and_true]
    exact uploadPart_isOk_iff J xs w data length
  | complete w =>
    simp only [Operation.Allowed, Operation.Reads, true_and, and_true]
    exact complete_isOk_iff J xs w
  | abort w =>
    simp only [Operation.Allowed, Operation.Reads, true_and, and_true]
    exact abort_isOk_iff J xs w

end StatusAux

/-- Exactly when success means a 2xx status: if the first response of the shape asked for has one. -/
theorem success_2xx_iff (J : JsonC) (ctx : Context) (op : Operation) (xs : Nat → Exchange) :
    (op.succeeds J ctx xs = true → Is2xx (xs (op.last J ctx xs)).status) ↔
    (op.Allowed ctx → (op.args ctx).Sendable → ∀ n : Nat, (n : Int) < max 1 (op.retries ctx) →
      Unanswered J (op.args ctx).qsrt xs n → ∀ j, (xs n).Answers J (op.args ctx).qsrt j → op.Reads j →
      Is2xx (xs n).status) := by
  have hmd : (op.args ctx).qsrt.uploads = true → (op.body J).isSome = true := by
    intro hu
    cases op <;> first | rfl | cases hu
  constructor
  · intro h hallowed hs n hn hfail j hx hreads
    have heq := doGetJSON_of_first hs hmd (show n ≤ (op.retries ctx - 1).toNat by omega) hfail hx
    have hlast : op.last J ctx xs = n := by
      rw [Operation.last, heq]
    rw [← hlast]
    exact h ((StatusAux.succeeds_iff J ctx xs op).2 ⟨hallowed, j, by rw [heq], hreads⟩)
  · intro h hsucc
    obtain ⟨hallowed, j, hj, hreads⟩ := (StatusAux.succeeds_iff J ctx xs op).1 hsucc
    obtain ⟨hs, n, hn, hfail, hx, heq⟩ := doGetJSON_ok hmd hj
    rw [Operation.last, heq]
    exact h hallowed hs n (by omega) hfail j hx hreads

/-- Success does not always mean a 2xx status: a deletion answered with status 500 and no body is reported as done. -/
theorem success_2xx_false :
    ¬ ∀ (J : JsonC) (ctx : Context) (op : Operation) (xs : Nat → Exchange),
      op.succeeds J ctx xs = true → Is2xx (xs (op.last J ctx xs)).status := by
  intro h
  have h500 := h Sample.json ⟨.ofArguments (lit "pek3a") (lit "id") (lit "secret") 4⟩ (.deleteObject (lit "b") (lit "k"))
    (fun _ => Sample.answer [] 500 []) (by decide)
  exact absurd h500.2 (by decide)

end QingStor
