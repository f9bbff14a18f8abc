import QingStor.HandleRun
import QingStor.Lemmas.Writer
import QingStor.Theorems.Upload

/-!
# The run of a handle

What holds of a writer in every state its caller can bring it to, with failed writes and cancels in between, and which requests
each call adds to those made before.
-/

namespace QingStor

/-- What holds of a writer at any time: a writer with a cache has its buffer, and the cursor is inside. -/
structure QingStorWriter.Fitting (w : QingStorWriter) : Prop where
  cached : w.mCache = true → ∃ b, w.mBuffer = some b ∧ (b.length : Int) = w.mBuffSize
  uncached : w.mCache = false → w.mBuffer = none ∧ w.mWritePos = 0
  cursor : 0 ≤ w.mWritePos ∧ (w.mCache = true → w.mWritePos ≤ w.mBuffSize)
  count : 0 ≤ w.mPartNum

/-- An upload of a part. -/
def WriterCall.isPart : WriterCall → Bool
  | .part .. => true
  | _ => false

/-- An abort. -/
def WriterCall.isAbort : WriterCall → Bool
  | .abort _ => true
  | _ => false

/-- What a call of `qingstorWrite` does to a writer, for its requests: it adds uploads of parts. -/
structure QingStorWriter.Adds (w : QingStorWriter) (parts : List WriterCall) (w' : QingStorWriter) : Prop where
  fitting : w'.Fitting
  mCache : w'.mCache = w.mCache
  mBuffSize : w'.mBuffSize = w.mBuffSize
  mCanceled : w'.mCanceled = w.mCanceled
  calls : w'.calls = w.calls ++ parts
  parts : ∀ c ∈ parts, c.isPart = true

namespace QingStorWriter

variable {w : QingStorWriter}

/-- The constructor makes such a writer, and it has made no request for its upload. -/
theorem fitting_make {J : JsonC} {cfg : Configuration} {bucket key : Str} {cache : Bool} {xs : Nat → Exchange}
    (h : QingStorWriter.make J cfg bucket key cache xs = .ok w) : w.Fitting ∧ w.calls = [] ∧ w.mCanceled = false := by
  unfold QingStorWriter.make at h
  split at h
  · cases h
  · rename_i ids _
    unfold QingStorWriter.opened at h
    cases cache with
    | false =>
      cases h
      exact ⟨⟨by simp, fun _ => ⟨rfl, rfl⟩, ⟨le_rfl, by simp⟩, le_rfl⟩, rfl, rfl⟩
    | true =>
      unfold newBuffer at h
      rw [if_pos rfl] at h
      by_cases hneg : cfg.mChunkSize < 0
      · rw [if_pos hneg] at h
        cases h
      · rw [if_neg hneg] at h
        cases h
        refine ⟨⟨fun _ => ⟨_, rfl, ?_⟩, by simp, ⟨le_rfl, fun _ => ?_⟩, le_rfl⟩, rfl, rfl⟩
        · rw [List.length_replicate]
          dsimp only
          omega
        · dsimp only
          omega

/-- The first part has number 0. -/
theorem mPartNum_make {J : JsonC} {cfg : Configuration} {bucket key : Str} {cache : Bool} {xs : Nat → Exchange}
    (h : QingStorWriter.make J cfg bucket key cache xs = .ok w) : w.mPartNum = 0 := by
  unfold QingStorWriter.make at h
  split at h
  · cases h
  · unfold QingStorWriter.opened at h
    split at h
    · split at h
      · cases h
      · cases h
        rfl
    · cases h
      rfl

/-- The inner loop holds the bytes it takes, and stops with none left or a full buffer. -/
theorem Fitting.fill (hw : w.Fitting) (hc : w.mCache = true) (rest : List Byte) :
    ∃ b chunk, rest = chunk ++ (w.fill rest).2 ∧
      (w.fill rest).1 = { w with mBuffer := some b, mWritePos := w.mWritePos + chunk.length } ∧
      (w.fill rest).1.Fitting ∧ (w.fill rest).1.held = w.held ++ chunk ∧
      ((w.fill rest).2 = [] ∨ w.mWritePos + chunk.length = w.mBuffSize) := by
  obtain ⟨b, hb, hl⟩ := hw.cached hc
  obtain ⟨b', chunk, rest', heq, hsplit, hlen, htake, hle, hend⟩ := fill_spec rest hb hl hw.cursor.1 (hw.cursor.2 hc)
  rw [heq]
  refine ⟨b', chunk, hsplit, rfl, ⟨fun _ => ⟨b', rfl, hlen⟩, fun hf => ?_, ⟨?_, fun _ => hle⟩, hw.count⟩, ?_, hend⟩
  · rw [hc] at hf
    cases hf
  · have := hw.cursor.1
    dsimp only
    omega
  · simp only [held, hb, Option.getD_some]
    exact htake

/-- Sending a part adds its upload, whatever becomes of it. -/
theorem Fitting.send (hw : w.Fitting) (J : JsonC) (net : Network) (data : List Byte) (length : Int) :
    ∃ call, w.Adds [call] (w.doSend J net data length).writer := by
  have hcount := hw.count
  rcases doSend_cases J net w data length with h | ⟨f, h⟩
  · rw [h]
    refine ⟨_, ⟨hw.cached, hw.uncached, hw.cursor, ?_⟩, rfl, rfl, rfl, rfl, ?_⟩
    · dsimp only
      omega
    · simp [WriterCall.isPart]
  · rw [h]
    refine ⟨_, ⟨hw.cached, hw.uncached, hw.cursor, hcount⟩, rfl, rfl, rfl, rfl, ?_⟩
    simp [WriterCall.isPart]

/-- A writer whose buffer was emptied. -/
theorem Fitting.emptied (hw : w.Fitting) : QingStorWriter.Fitting { w with mWritePos := 0 } := by
  refine ⟨hw.cached, fun hf => ⟨(hw.uncached hf).1, rfl⟩, ⟨le_rfl, fun hc => ?_⟩, hw.count⟩
  obtain ⟨b, _, hl⟩ := hw.cached hc
  dsimp only
  omega

/-- A writer whose buffer was stored as a part. -/
theorem Fitting.stored (hw : w.Fitting) (bytes : List Byte) : (w.stored bytes).Fitting := by
  have hcount := hw.count
  refine ⟨hw.emptied.cached, hw.emptied.uncached, hw.emptied.cursor, ?_⟩
  unfold QingStorWriter.stored
  dsimp only
  omega

theorem Fitting.adds_stored (hw : w.Fitting) (bytes : List Byte) : w.Adds [.part w.mPartNum bytes true] (w.stored bytes) :=
  ⟨hw.stored bytes, rfl, rfl, rfl, rfl, by simp [WriterCall.isPart]⟩

theorem Adds.trans {w' w'' : QingStorWriter} {parts parts' : List WriterCall} (h : w.Adds parts w') (h' : w'.Adds parts' w'') :
    w.Adds (parts ++ parts') w'' := by
  refine ⟨h'.fitting, h'.mCache.trans h.mCache, h'.mBuffSize.trans h.mBuffSize, h'.mCanceled.trans h.mCanceled, ?_, ?_⟩
  · rw [h'.calls, h.calls, List.append_assoc]
  · intro c hc
    rcases List.mem_append.1 hc with hc | hc
    · exact h.parts c hc
    · exact h'.parts c hc

/-- The outer loop adds uploads of parts. -/
theorem Fitting.loop (hw : w.Fitting) (hc : w.mCache = true) (J : JsonC) (net : Network) {fuel : Nat} {rest : List Byte}
    {o : WriterStep} (h : w.transferLoop J net fuel rest = some o) : ∃ parts, w.Adds parts o.writer := by
  induction fuel generalizing w rest with
  | zero => cases h
  | succ fuel ih =>
    obtain ⟨b, chunk, hsplit, heq, hfit, _, _⟩ := hw.fill hc rest
    have hfilled : w.Adds [] (w.fill rest).1 := by
      rw [heq] at hfit ⊢
      exact ⟨hfit, rfl, rfl, rfl, (List.append_nil _).symm, by simp⟩
    cases loopTurn h with
    | ended _ ho =>
      rw [ho]
      exact ⟨[], hw, rfl, rfl, rfl, (List.append_nil _).symm, by simp⟩
    | stored _ _ _ hloop =>
      obtain ⟨parts, hrest⟩ := ih (hfit.stored _) (hfilled.mCache.trans hc) hloop
      exact ⟨_, (hfilled.trans (hfit.adds_stored _)).trans hrest⟩
    | refused f bytes _ _ hsent _ =>
      obtain ⟨call, hsend⟩ := hfit.send J net ((w.fill rest).1.mBuffer.getD []) (w.fill rest).1.mBuffSize
      rw [hsent] at hsend
      exact ⟨_, hfilled.trans hsend⟩
    | filled _ _ hloop =>
      obtain ⟨parts, hrest⟩ := ih hfit (hfilled.mCache.trans hc) hloop
      exact ⟨_, hfilled.trans hrest⟩

/-- A call of `qingstorWrite` adds uploads of parts. -/
theorem Fitting.write (hw : w.Fitting) {J : JsonC} {net : Network} {fuel : Nat} {buffer : List Byte} {o : ObjectStep}
    (h : qingstorWrite J net fuel w buffer = some o) : ∃ parts, w.Adds parts o.writer := by
  unfold qingstorWrite at h
  split at h
  · cases h
    exact ⟨[], hw, rfl, rfl, rfl, (List.append_nil _).symm, by simp⟩
  · rw [Option.map_eq_some_iff] at h
    obtain ⟨s, hs, rfl⟩ := h
    rcases transferData_cases hs with ⟨_, rfl⟩ | ⟨hc, hs⟩
    · obtain ⟨call, hsent⟩ := hw.send J net buffer buffer.length
      exact ⟨_, hsent⟩
    · exact hw.loop hc J net hs

/-- What a cancel does: it adds an abort, and when that goes well the parts are counted from 0 again. -/
theorem Fitting.cancel (hw : w.Fitting) (J : JsonC) (net : Network) :
    (qingstorCancelObject J net w).writer.Fitting ∧ (qingstorCancelObject J net w).writer.mCache = w.mCache ∧
      ∃ ok, (qingstorCancelObject J net w).writer.calls = w.calls ++ [.abort ok] := by
  unfold qingstorCancelObject QingStorWriter.cancel QingStorWriter.abortMultipartUpload
  dsimp only
  split <;> rename_i hr <;> split at hr <;> cases hr
  · exact ⟨⟨hw.cached, hw.uncached, hw.cursor, hw.count⟩, rfl, false, rfl⟩
  · exact ⟨⟨hw.cached, hw.uncached, hw.cursor, le_rfl⟩, rfl, true, rfl⟩

/-- Every call but a close keeps what holds of a writer at any time. -/
theorem Fitting.step (hw : w.Fitting) {J : JsonC} {net : Network} {op : HandleOp} (hne : op ≠ .close) {o : ObjectStep}
    (h : op.step J net w = some o) : o.writer.Fitting := by
  cases op with
  | write fuel buffer =>
    obtain ⟨parts, hadds⟩ := hw.write h
    exact hadds.fitting
  | cancel =>
    cases h
    exact (hw.cancel J net).1
  | close => exact (hne rfl).elim

end QingStorWriter

namespace Sample

/-- A handle opened for writing, after calls on it. -/
def handle (net : Network) (cache : Bool) (ops : List HandleOp) : Option (QingStorWriter × QingStorWriter) :=
  (QingStorWriter.make json config (lit "b") (lit "k") cache (fun _ => answer [] 200 [initAnswer])).toOption.bind
    (fun w₀ => (runHandle json net ops w₀).map (fun w => (w₀, w)))

/-- Such a handle is one the calls lead to. -/
theorem handle_run {net : Network} {cache : Bool} {ops : List HandleOp} {w₀ w : QingStorWriter}
    (h : handle net cache ops = some (w₀, w)) :
    QingStorWriter.make json config (lit "b") (lit "k") cache (fun _ => answer [] 200 [initAnswer]) = .ok w₀ ∧
      runHandle json net ops w₀ = some w := by
  unfold handle at h
  cases hmake : QingStorWriter.make json config (lit "b") (lit "k") cache (fun _ => answer [] 200 [initAnswer]) with
  | error f =>
    rw [hmake] at h
    cases h
  | ok w' =>
    rw [hmake] at h
    simp only [Except.toOption, Option.bind_some, Option.map_eq_some_iff, Prod.mk.injEq] at h
    obtain ⟨_, hrun, rfl, rfl⟩ := h
    exact ⟨rfl, hrun⟩

end Sample

end QingStor
