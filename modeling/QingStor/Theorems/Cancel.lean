import QingStor.Lemmas.Handle

/-!
# Requests after a cancel

The flag that a cancel sets is looked at by `close` only. The requests of an upload are parts, and then one completion or aborts,
as long as no write after an abort fills the buffer, and no close comes after an abort that failed.
-/

namespace QingStor

/-- The requests made for an upload id: parts, then either one completion or only aborts. -/
def LawfulRequests (calls : List WriterCall) : Prop :=
  ∃ parts last, calls = parts ++ last ∧ (∀ c ∈ parts, c.isPart = true) ∧
    ((∃ body ok, last = [.complete body ok]) ∨ ∀ c ∈ last, c.isAbort = true)

/-- No abort was made, or this call makes no request that is not one. A write makes none while the bytes held and its own do not
fill the buffer. -/
def HandleOp.Permitted (w : QingStorWriter) : HandleOp → Prop
  | .write _ buffer => (∀ c ∈ w.calls, c.isAbort = false) ∨ buffer = [] ∨
      w.mCache = true ∧ w.mWritePos + buffer.length < w.mBuffSize
  | .cancel => True
  | .close => (∀ c ∈ w.calls, c.isAbort = false) ∨ w.mCanceled = true

/-- Every call of a run is permitted in the state it is made in. -/
def Careful (J : JsonC) (net : Network) : List HandleOp → QingStorWriter → Prop
  | [], _ => True
  | op :: ops, w => op.Permitted w ∧ ∀ o, op.step J net w = some o → Careful J net ops o.writer

instance (w : QingStorWriter) : (op : HandleOp) → Decidable (op.Permitted w)
  | .write _ buffer => inferInstanceAs (Decidable ((∀ c ∈ w.calls, c.isAbort = false) ∨ buffer = [] ∨
      w.mCache = true ∧ w.mWritePos + buffer.length < w.mBuffSize))
  | .cancel => isTrue trivial
  | .close => inferInstanceAs (Decidable ((∀ c ∈ w.calls, c.isAbort = false) ∨ w.mCanceled = true))

instance decidableCareful (J : JsonC) (net : Network) : (ops : List HandleOp) → (w : QingStorWriter) →
    Decidable (Careful J net ops w)
  | [], _ => isTrue trivial
  | op :: ops, w =>
    match ho : op.step J net w with
    | none => decidable_of_iff (op.Permitted w) ⟨fun h => ⟨h, fun o' ho' => by rw [ho] at ho'; nomatch ho'⟩, And.left⟩
    | some o =>
      have := decidableCareful J net ops o.writer
      decidable_of_iff (op.Permitted w ∧ Careful J net ops o.writer)
        ⟨fun h => ⟨h.1, fun o' ho' => by rw [ho] at ho'; cases ho'; exact h.2⟩, fun h => ⟨h.1, h.2 o ho⟩⟩

namespace CancelAux

variable {J : JsonC} {net : Network} {w : QingStorWriter}

/-- The requests so far of a handle that is open: parts, then aborts. -/
def PartsThenAborts (calls : List WriterCall) : Prop :=
  ∃ parts aborts, calls = parts ++ aborts ∧ (∀ c ∈ parts, c.isPart = true) ∧ ∀ c ∈ aborts, c.isAbort = true

/-- A request that is no abort, after one that is. -/
def Broken (calls : List WriterCall) : Prop :=
  ∃ pre c post, calls = pre ++ c :: post ∧ (∃ a ∈ pre, a.isAbort = true) ∧ c.isAbort = false

theorem not_part_of_abort {c : WriterCall} (h : c.isAbort = true) : c.isPart = false := by
  cases c with
  | abort ok => rfl
  | part num bytes ok => cases h
  | complete body ok => cases h

theorem not_abort_of_part {c : WriterCall} (h : c.isPart = true) : c.isAbort = false := by
  cases c with
  | part num bytes ok => rfl
  | abort ok => cases h
  | complete body ok => cases h

theorem Broken.append {calls : List WriterCall} (h : Broken calls) (more : List WriterCall) : Broken (calls ++ more) := by
  obtain ⟨pre, c, post, rfl, ha, hc⟩ := h
  exact ⟨pre, c, post ++ more, by simp, ha, hc⟩

/-- A request that is no abort breaks the requests of an upload that has one. -/
theorem broken_append {calls more : List WriterCall} (ha : ∃ a ∈ calls, a.isAbort = true)
    (hmore : ∃ c ∈ more, c.isAbort = false) : Broken (calls ++ more) := by
  obtain ⟨c, hc, hno⟩ := hmore
  obtain ⟨before, after, rfl⟩ := List.append_of_mem hc
  obtain ⟨a, hmem, hyes⟩ := ha
  exact ⟨calls ++ before, c, after, by simp, ⟨a, List.mem_append_left _ hmem, hyes⟩, hno⟩

/-- Broken requests are not lawful. -/
theorem Broken.not_lawful {calls : List WriterCall} (h : Broken calls) : ¬ LawfulRequests calls := by
  rintro ⟨parts, last, hcalls, hparts, hlast⟩
  obtain ⟨pre, c, post, heq, ⟨a, ha, hyes⟩, hno⟩ := h
  have hnot : a ∉ parts := by
    intro hmem
    have hpart := hparts a hmem
    rw [not_part_of_abort hyes] at hpart
    cases hpart
  rw [hcalls] at heq
  rcases List.append_eq_append_iff.1 heq with ⟨t, hpre, hlast'⟩ | ⟨t, hparts', _⟩
  · have ht : a ∈ t := by
      rw [hpre, List.mem_append] at ha
      exact ha.resolve_left hnot
    rcases hlast with ⟨body, ok, hone⟩ | hall
    · have hlen := congrArg List.length (hlast'.symm.trans hone)
      have hpos := List.length_pos_of_mem ht
      simp only [List.length_append, List.length_cons, List.length_nil] at hlen
      omega
    · have hc := hall c (by rw [hlast']; simp)
      rw [hno] at hc
      cases hc
  · exact hnot (by rw [hparts']; exact List.mem_append_left _ ha)

theorem PartsThenAborts.lawful {calls : List WriterCall} (h : PartsThenAborts calls) : LawfulRequests calls := by
  obtain ⟨parts, aborts, heq, hparts, haborts⟩ := h
  exact ⟨parts, aborts, heq, hparts, Or.inr haborts⟩

/-- Without an abort, the requests so far are parts. -/
theorem PartsThenAborts.parts {calls : List WriterCall} (h : PartsThenAborts calls) (hno : ∀ c ∈ calls, c.isAbort = false) :
    ∀ c ∈ calls, c.isPart = true := by
  obtain ⟨parts, aborts, rfl, hparts, haborts⟩ := h
  intro c hc
  rcases List.mem_append.1 hc with hc' | hc'
  · exact hparts c hc'
  · have habort := haborts c hc'
    rw [hno c hc] at habort
    cases habort

theorem exists_abort {calls : List WriterCall} (h : ¬ ∀ c ∈ calls, c.isAbort = false) : ∃ a ∈ calls, a.isAbort = true := by
  simpa using h

/-! ## Writes -/

/-- A turn of the outer loop with bytes to take: it sends the buffer when these fill it, and otherwise the loop is over. -/
theorem loop_silent_iff (hw : w.Fitting) (hc : w.mCache = true) {fuel : Nat} {rest : List Byte} (hne : rest ≠ [])
    {o : WriterStep} (h : w.transferLoop J net fuel rest = some o) :
    o.writer.calls = w.calls ↔ w.mWritePos + rest.length < w.mBuffSize := by
  cases fuel with
  | zero => cases h
  | succ fuel =>
    obtain ⟨b, chunk, hsplit, heq, hfit, _, hend⟩ := hw.fill hc rest
    have hcalls : (w.fill rest).1.calls = w.calls := by rw [heq]
    have hpos : (w.fill rest).1.mWritePos = w.mWritePos + chunk.length := by rw [heq]
    have hsize : (w.fill rest).1.mBuffSize = w.mBuffSize := by rw [heq]
    have hcache : (w.fill rest).1.mCache = true := by rw [heq]; exact hc
    have hlen := congrArg List.length hsplit
    have hin := hfit.cursor.2 hcache
    rw [List.length_append] at hlen
    have hsilent : ∀ call parts, (w.fill rest).1.mWritePos = (w.fill rest).1.mBuffSize →
        o.writer.calls = w.calls ++ call :: parts →
        (o.writer.calls = w.calls ↔ w.mWritePos + rest.length < w.mBuffSize) := by
      intro call parts hfull hparts
      refine iff_of_false (fun hsame => ?_) (by omega)
      rw [hsame] at hparts
      have := congrArg List.length hparts
      simp at this
    cases QingStorWriter.loopTurn h with
    | ended hnil _ => exact (hne hnil).elim
    | stored _ hfull _ hloop =>
      obtain ⟨parts, hrest⟩ := (hfit.stored _).loop hcache J net hloop
      have hparts := hrest.calls
      rw [(hfit.adds_stored _).calls, hcalls, List.append_assoc] at hparts
      exact hsilent _ parts hfull hparts
    | refused f bytes _ hfull _ ho =>
      have hparts : o.writer.calls = w.calls ++ [.part (w.fill rest).1.mPartNum bytes false] := by
        rw [ho, ← hcalls]
      exact hsilent _ [] hfull hparts
    | filled _ hroom hloop =>
      have hnil := hend.resolve_right (by omega)
      rw [hnil] at hloop hlen
      rw [QingStorWriter.transferLoop_nil hloop]
      simp only [List.length_nil, Nat.add_zero] at hlen
      exact ⟨fun _ => by omega, fun _ => hcalls⟩

/-- A write makes no request exactly when it is refused, or its bytes do not fill the buffer. -/
theorem write_silent_iff (hw : w.Fitting) {fuel : Nat} {buffer : List Byte} {o : ObjectStep}
    (h : qingstorWrite J net fuel w buffer = some o) :
    o.writer.calls = w.calls ↔ buffer = [] ∨ w.mCache = true ∧ w.mWritePos + buffer.length < w.mBuffSize := by
  unfold qingstorWrite at h
  split at h
  · rename_i hnil
    cases h
    exact ⟨fun _ => Or.inl hnil, fun _ => rfl⟩
  · rename_i hne
    rw [Option.map_eq_some_iff] at h
    obtain ⟨s, hs, rfl⟩ := h
    rcases QingStorWriter.transferData_cases hs with ⟨hc, rfl⟩ | ⟨hc, hs⟩
    · obtain ⟨call, hsent⟩ := hw.send J net buffer buffer.length
      simp [hsent.calls, hne, hc]
    · simp [loop_silent_iff hw hc hne hs, hne, hc]

/-! ## Closing -/

/-- A close of a writer that is not canceled adds an upload of a part at most, and then a completion at most, and one of the two. -/
theorem close_calls (J : JsonC) (net : Network) (hw : w.Fitting) (hopen : w.mCanceled = false) :
    ∃ parts last, (qingstorCloseObject J net w).writer.calls = w.calls ++ (parts ++ last) ∧ (∀ c ∈ parts, c.isPart = true) ∧
      (last = [] ∨ ∃ body ok, last = [.complete body ok]) ∧ parts ++ last ≠ [] := by
  have hflush : (∃ parts, w.Adds parts (w.flush J net).writer ∧ (parts = [] → (w.flush J net).result = .ok ())) := by
    have hsend : ∀ length, ∃ parts, w.Adds parts (w.doSend J net (w.mBuffer.getD []) length).writer ∧ parts ≠ [] := by
      intro length
      obtain ⟨call, hsent⟩ := hw.send J net (w.mBuffer.getD []) length
      exact ⟨[call], hsent, List.cons_ne_nil _ _⟩
    unfold QingStorWriter.flush
    dsimp only
    split
    · obtain ⟨parts, hsent, hne⟩ := hsend w.mWritePos
      split
      · exact ⟨parts, hsent, fun h => (hne h).elim⟩
      · exact ⟨parts, ⟨hsent.fitting.emptied, hsent.mCache, hsent.mBuffSize, hsent.mCanceled, hsent.calls, hsent.parts⟩,
          fun h => (hne h).elim⟩
    · split
      · obtain ⟨parts, hsent, hne⟩ := hsend w.mWritePos
        exact ⟨parts, hsent, fun h => (hne h).elim⟩
      · exact ⟨[], ⟨hw, rfl, rfl, rfl, (List.append_nil _).symm, by simp⟩, fun _ => rfl⟩
  obtain ⟨parts, hadds, hnil⟩ := hflush
  unfold qingstorCloseObject QingStorWriter.close
  dsimp only
  rw [if_neg (by rw [hopen]; simp)]
  cases hr : (w.flush J net).result with
  | error f =>
    dsimp only
    refine ⟨parts, [], by rw [hadds.calls, List.append_nil], hadds.parts, Or.inl rfl, ?_⟩
    intro h
    rw [List.append_nil] at h
    rw [hnil h] at hr
    cases hr
  | ok u =>
    dsimp only
    refine ⟨parts, [.complete (w.flush J net).writer.completeBody
      (((w.flush J net).writer.completeMultipartUpload J net).result.isOk)], ?_, hadds.parts, Or.inr ⟨_, _, rfl⟩, by simp⟩
    rcases completeMultipartUpload_cases J net (w.flush J net).writer with h | ⟨f, h⟩ <;>
      (rw [h]; dsimp only [Except.isOk, Except.toBool]; rw [hadds.calls, List.append_assoc])

/-- A canceled writer is closed without a request. -/
theorem close_canceled (hcanceled : w.mCanceled = true) : (qingstorCloseObject J net w).writer.calls = w.calls := by
  unfold qingstorCloseObject QingStorWriter.close
  rw [if_pos hcanceled]

/-! ## Runs -/

/-- A call only adds to the requests. -/
theorem step_calls (hw : w.Fitting) {op : HandleOp} {o : ObjectStep} (h : op.step J net w = some o) :
    ∃ more, o.writer.calls = w.calls ++ more := by
  cases op with
  | write fuel buffer =>
    obtain ⟨parts, hadds⟩ := hw.write h
    exact ⟨parts, hadds.calls⟩
  | cancel =>
    cases h
    obtain ⟨_, _, ok, hcalls⟩ := hw.cancel J net
    exact ⟨_, hcalls⟩
  | close =>
    cases h
    cases hc : w.mCanceled with
    | true => exact ⟨[], by rw [close_canceled hc, List.append_nil]⟩
    | false =>
      obtain ⟨parts, last, hcalls, _⟩ := close_calls J net hw hc
      exact ⟨_, hcalls⟩

/-- The first call of a run, and the calls after it. A close is the last one. -/
theorem runHandle_cons {op : HandleOp} {ops : List HandleOp} {w' : QingStorWriter}
    (h : runHandle J net (op :: ops) w = some w') :
    ∃ o, op.step J net w = some o ∧ runHandle J net ops o.writer = some w' ∧ (op = .close → ops = []) := by
  unfold runHandle at h
  split at h
  · cases h
  · rename_i hlast
    rw [Option.bind_eq_some_iff] at h
    obtain ⟨o, ho, hrest⟩ := h
    exact ⟨o, ho, hrest, fun hclose => by_contra fun hne => hlast ⟨hclose, hne⟩⟩

/-- A run only adds to the requests. -/
theorem run_calls (hw : w.Fitting) {ops : List HandleOp} {w' : QingStorWriter} (h : runHandle J net ops w = some w') :
    ∃ more, w'.calls = w.calls ++ more := by
  induction ops generalizing w with
  | nil =>
    cases h
    exact ⟨[], (List.append_nil _).symm⟩
  | cons op ops ih =>
    obtain ⟨o, ho, hrest, hlast⟩ := runHandle_cons h
    obtain ⟨more, hmore⟩ := step_calls hw ho
    by_cases hclose : op = .close
    · rw [hlast hclose] at hrest
      cases hrest
      exact ⟨more, hmore⟩
    · obtain ⟨more', hmore'⟩ := ih (hw.step hclose ho) hrest
      exact ⟨more ++ more', by rw [hmore', hmore, List.append_assoc]⟩

/-- What a call does to the requests of an open handle: permitted, it keeps them lawful, and it breaks them otherwise. -/
theorem step_requests (hw : w.Fitting) (hcalls : PartsThenAborts w.calls) {op : HandleOp} {o : ObjectStep}
    (h : op.step J net w = some o) :
    op.Permitted w ∧ LawfulRequests o.writer.calls ∧ (op ≠ .close → PartsThenAborts o.writer.calls) ∨
      ¬ op.Permitted w ∧ Broken o.writer.calls := by
  cases op with
  | write fuel buffer =>
    obtain ⟨parts, hadds⟩ := hw.write h
    by_cases hpermitted : (HandleOp.write fuel buffer).Permitted w
    · have hafter : PartsThenAborts o.writer.calls := by
        rcases hpermitted with hno | hsilent
        · refine ⟨w.calls ++ parts, [], by rw [hadds.calls, List.append_nil], ?_, by simp⟩
          intro c hc
          rcases List.mem_append.1 hc with hc | hc
          · exact hcalls.parts hno c hc
          · exact hadds.parts c hc
        · rw [(write_silent_iff hw h).2 hsilent]
          exact hcalls
      exact Or.inl ⟨hpermitted, hafter.lawful, fun _ => hafter⟩
    · refine Or.inr ⟨hpermitted, ?_⟩
      unfold HandleOp.Permitted at hpermitted
      rw [not_or, ← write_silent_iff hw h, hadds.calls] at hpermitted
      rw [hadds.calls]
      obtain ⟨c, hc⟩ := List.exists_mem_of_ne_nil parts (fun hnil => hpermitted.2 (by rw [hnil, List.append_nil]))
      exact broken_append (exists_abort hpermitted.1) ⟨c, hc, not_abort_of_part (hadds.parts c hc)⟩
  | cancel =>
    cases h
    obtain ⟨_, _, ok, hafter⟩ := hw.cancel J net
    have hshape : PartsThenAborts (qingstorCancelObject J net w).writer.calls := by
      obtain ⟨parts, aborts, heq, hparts, haborts⟩ := hcalls
      refine ⟨parts, aborts ++ [.abort ok], by rw [hafter, heq, List.append_assoc], hparts, ?_⟩
      intro c hc
      rcases List.mem_append.1 hc with hc | hc
      · exact haborts c hc
      · rw [List.mem_singleton.1 hc]
        rfl
    exact Or.inl ⟨trivial, hshape.lawful, fun _ => hshape⟩
  | close =>
    cases h
    cases hc : w.mCanceled with
    | true =>
      left
      refine ⟨Or.inr hc, ?_, fun hne => (hne rfl).elim⟩
      rw [close_canceled hc]
      exact hcalls.lawful
    | false =>
      obtain ⟨parts, last, hafter, hparts, hlast, hne⟩ := close_calls J net hw hc
      rw [hafter]
      by_cases hno : ∀ c ∈ w.calls, c.isAbort = false
      · left
        refine ⟨Or.inl hno, ⟨w.calls ++ parts, last, by simp, ?_, ?_⟩, fun hne => (hne rfl).elim⟩
        · intro c hc
          rcases List.mem_append.1 hc with hc | hc
          · exact hcalls.parts hno c hc
          · exact hparts c hc
        · rcases hlast with rfl | hone
          · exact Or.inr (by simp)
          · exact Or.inl hone
      · right
        refine ⟨fun hpermitted => ?_, broken_append (exists_abort hno) ?_⟩
        · rcases hpermitted with h | h
          · exact hno h
          · rw [hc] at h
            cases h
        · obtain ⟨c, hc⟩ := List.exists_mem_of_ne_nil _ hne
          refine ⟨c, hc, ?_⟩
          rcases List.mem_append.1 hc with hc | hc
          · exact not_abort_of_part (hparts c hc)
          · rcases hlast with rfl | ⟨body, ok, rfl⟩
            · cases hc
            · rw [List.mem_singleton.1 hc]
              rfl

/-- The requests of a run, by its calls one after another. -/
theorem run_requests (hw : w.Fitting) (hcalls : PartsThenAborts w.calls) {ops : List HandleOp} {w' : QingStorWriter}
    (h : runHandle J net ops w = some w') : LawfulRequests w'.calls ↔ Careful J net ops w := by
  induction ops generalizing w with
  | nil =>
    cases h
    exact ⟨fun _ => trivial, fun _ => hcalls.lawful⟩
  | cons op ops ih =>
    obtain ⟨o, ho, hrest, hlast⟩ := runHandle_cons h
    have hcareful : Careful J net (op :: ops) w ↔ op.Permitted w ∧ Careful J net ops o.writer := by
      refine ⟨fun h => ⟨h.1, h.2 o ho⟩, fun h => ⟨h.1, fun o' ho' => ?_⟩⟩
      rw [ho] at ho'
      cases ho'
      exact h.2
    rw [hcareful]
    rcases step_requests hw hcalls ho with ⟨hpermitted, hlaw, hopen⟩ | ⟨hnot, hbroken⟩
    · by_cases hclose : op = .close
      · rw [hlast hclose] at hrest ⊢
        cases hrest
        exact ⟨fun _ => ⟨hpermitted, trivial⟩, fun _ => hlaw⟩
      · rw [ih (hw.step hclose ho) (hopen hclose) hrest]
        exact ⟨fun h => ⟨hpermitted, h⟩, fun h => h.2⟩
    · refine ⟨fun hlaw => ?_, fun h => (hnot h.1).elim⟩
      have hmore : ∃ more, w'.calls = o.writer.calls ++ more := by
        by_cases hclose : op = .close
        · rw [hlast hclose] at hrest
          cases hrest
          exact ⟨[], (List.append_nil _).symm⟩
        · exact run_calls (hw.step hclose ho) hrest
      obtain ⟨more, hmore⟩ := hmore
      rw [hmore] at hlaw
      exact ((hbroken.append more).not_lawful hlaw).elim

end CancelAux

/-- The requests of an upload are parts, and then one completion or only aborts, exactly when after an abort no write fills the
buffer (nor is made without one), and a close comes after an abort only when it is of a canceled writer. -/
theorem requests_lawful_iff (J : JsonC) (net : Network) (cfg : Configuration) (bucket key : Str) (cache : Bool)
    (xs : Nat → Exchange) (w₀ w : QingStorWriter) (ops : List HandleOp)
    (hopen : QingStorWriter.make J cfg bucket key cache xs = .ok w₀) (hrun : runHandle J net ops w₀ = some w) :
    LawfulRequests w.calls ↔ Careful J net ops w₀ := by
  obtain ⟨hfitting, hcalls, _⟩ := QingStorWriter.fitting_make hopen
  refine CancelAux.run_requests hfitting ⟨[], [], ?_, by simp, by simp⟩ hrun
  rw [hcalls]
  rfl

/-- The general statement for a write of six bytes in chunks of four, a cancel and a close. -/
theorem requests_lawful_iff_canceled :
    ∃ w₀ w, runHandle Sample.json Sample.net [.write 8 (lit "abcdef"), .cancel, .close] w₀ = some w ∧
      LawfulRequests w.calls := by
  obtain ⟨⟨w₀, w⟩, hhandle, hcareful⟩ := (Option.any_eq_true _ _).1
    (show (Sample.handle Sample.net true [.write 8 (lit "abcdef"), .cancel, .close]).any
      (fun s => decide (Careful Sample.json Sample.net [.write 8 (lit "abcdef"), .cancel, .close] s.1)) = true by decide +kernel)
  obtain ⟨hmake, hrun⟩ := Sample.handle_run hhandle
  exact ⟨w₀, w, hrun, (requests_lawful_iff Sample.json Sample.net Sample.config (lit "b") (lit "k") true _ w₀ w _ hmake hrun).2
    (of_decide_eq_true hcareful)⟩

/-- A request does follow a cancel: without a cache, a write after it sends its bytes as a part. -/
theorem requests_lawful_false :
    ¬ ∀ (J : JsonC) (net : Network) (cfg : Configuration) (bucket key : Str) (cache : Bool) (xs : Nat → Exchange)
      (w₀ w : QingStorWriter) (ops : List HandleOp), QingStorWriter.make J cfg bucket key cache xs = .ok w₀ →
      runHandle J net ops w₀ = some w → LawfulRequests w.calls := by
  intro h
  obtain ⟨⟨w₀, w⟩, hhandle, hcareless⟩ := (Option.any_eq_true _ _).1
    (show (Sample.handle Sample.net false [.cancel, .write 0 (lit "x")]).any
      (fun s => ! decide (Careful Sample.json Sample.net [.cancel, .write 0 (lit "x")] s.1)) = true by decide +kernel)
  obtain ⟨hmake, hrun⟩ := Sample.handle_run hhandle
  have hlaw := h _ _ _ _ _ _ _ w₀ w _ hmake hrun
  obtain ⟨hfitting, hcalls, _⟩ := QingStorWriter.fitting_make hmake
  rw [CancelAux.run_requests hfitting ⟨[], [], by rw [hcalls]; rfl, by simp, by simp⟩ hrun] at hlaw
  simp [hlaw] at hcareless

end QingStor
