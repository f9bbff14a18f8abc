import QingStor.SendRun
import QingStor.Lemmas.Writer

/-!
# What the loops of a writer send

With a cache every part but the last is a full buffer, so the bytes taken are as many chunks as there were parts, and the bytes
held. The size of the buffer is any positive number here: the counts are those before anything is narrowed.
-/

namespace QingStor

/-- The bytes set up for a call of `doSend`. -/
def Send.bytes (s : Send) : List Byte := s.body.bytes

/-- The part recorded for a call of `doSend`, stored if the function that made the call did not throw. -/
def RecordOf (result : Except Fault Unit) (c : WriterCall) (s : Send) : Prop :=
  ∃ num stored, c = .part num s.bytes stored ∧ (result = .ok () → stored = true)

namespace QingStorWriter

/-- What the loops send from a writer with room in its buffer, and what they leave. -/
structure LoopSent (w : QingStorWriter) (rest : List Byte) (o : WriterStep) (sends : List Send) : Prop where
  sized : o.writer.Sized
  mCache : o.writer.mCache = w.mCache
  mBuffSize : o.writer.mBuffSize = w.mBuffSize
  mCanceled : o.writer.mCanceled = w.mCanceled
  full : ∀ s ∈ sends, s.length = w.mBuffSize ∧ (s.data.length : Int) = w.mBuffSize
  few : (sends.length : Int) * w.mBuffSize ≤ w.mWritePos + rest.length
  silent : sends = [] → o.result = .ok ()
  counted : o.result = .ok () → (sends.length : Int) * w.mBuffSize + o.writer.mWritePos = w.mWritePos + rest.length
  room : o.result = .ok () → rest ≠ [] ∨ w.left = 0 → o.writer.left = 0
  recorded : ∃ calls, o.writer.calls = w.calls ++ calls ∧ List.Forall₂ (RecordOf o.result) calls sends

/-- Filling moves bytes from the caller into the buffer. -/
theorem Sized.fill_counts {w : QingStorWriter} (hw : w.Sized) (rest : List Byte) :
    (w.fill rest).1.mWritePos + (w.fill rest).2.length = w.mWritePos + rest.length ∧
      (w.fill rest).1.mCanceled = w.mCanceled := by
  obtain ⟨b, hb, hl⟩ := hw.buffer
  obtain ⟨b', chunk, rest', heq, hsplit, _⟩ := fill_spec rest hb hl hw.cursor.1 hw.cursor.2
  rw [heq, hsplit, List.length_append]
  refine ⟨?_, rfl⟩
  dsimp only
  omega

theorem Sized.getD_length {w : QingStorWriter} (hw : w.Sized) : ((w.mBuffer.getD []).length : Int) = w.mBuffSize := by
  obtain ⟨b, hb, hlen⟩ := hw.buffer
  rw [hb]
  exact hlen

/-- A loop with nothing to take sends nothing. -/
theorem LoopSent.ended {w : QingStorWriter} (hw : w.Sized) : LoopSent w [] ⟨.ok (), w⟩ [] := by
  refine ⟨hw, rfl, rfl, rfl, (fun s hs => by cases hs), ?_, fun _ => rfl, fun _ => by simp, fun _ hor => ?_, [], by simp, .nil⟩
  · have hpos := hw.cursor.1
    simp only [List.length_nil]
    omega
  · rcases hor with hne | hleft
    · exact absurd rfl hne
    · exact hleft

/-- What is sent from the buffer that was filled is sent from the one before. -/
theorem LoopSent.of_fill {w : QingStorWriter} {rest : List Byte} {o : WriterStep} {sends : List Send} (hw : w.Sized) (hr : rest ≠ [])
    (h : LoopSent (w.fill rest).1 (w.fill rest).2 o sends) (hroom : o.result = .ok () → o.writer.left = 0) :
    LoopSent w rest o sends := by
  obtain ⟨_, hcalls, hcache, hsize, _⟩ := hw.fill hr
  obtain ⟨hcount, hcanceled⟩ := hw.fill_counts rest
  refine ⟨h.sized, h.mCache.trans hcache, h.mBuffSize.trans hsize, h.mCanceled.trans hcanceled, ?_, ?_, h.silent, fun hok => ?_,
    fun hok _ => hroom hok, ?_⟩
  · rw [← hsize]
    exact h.full
  · rw [← hcount, ← hsize]
    exact h.few
  · rw [← hcount, ← hsize]
    exact h.counted hok
  · rw [← hcalls]
    exact h.recorded

/-- A full buffer that is stored is sent before what is sent from the emptied one. -/
theorem LoopSent.stored {w : QingStorWriter} {rest : List Byte} {o : WriterStep} {sends : List Send} (hw : w.Sized)
    (hfull : w.mWritePos = w.mBuffSize)
    (h : LoopSent (w.stored (partBody (w.mBuffer.getD []) w.mBuffSize).bytes) rest o sends) :
    LoopSent w rest o (⟨w.mBuffer.getD [], w.mBuffSize⟩ :: sends) := by
  have hlength : ((⟨w.mBuffer.getD [], w.mBuffSize⟩ :: sends : List Send).length : Int) * w.mBuffSize =
      sends.length * w.mBuffSize + w.mBuffSize := by
    rw [List.length_cons]
    push_cast
    ring
  refine ⟨h.sized, h.mCache, h.mBuffSize, h.mCanceled, List.forall_mem_cons.2 ⟨⟨rfl, hw.getD_length⟩, h.full⟩, ?_,
    (fun h => by cases h), fun hok => ?_, fun hok _ => h.room hok (Or.inr (left_stored hw _)), ?_⟩
  · have hfew : (sends.length : Int) * w.mBuffSize ≤ 0 + rest.length := h.few
    rw [hlength, hfull]
    linarith
  · have hcounted : (sends.length : Int) * w.mBuffSize + o.writer.mWritePos = 0 + rest.length := h.counted hok
    rw [hlength, hfull]
    linarith
  · obtain ⟨calls, hnew, hrecords⟩ := h.recorded
    refine ⟨.part w.mPartNum (partBody (w.mBuffer.getD []) w.mBuffSize).bytes true :: calls, ?_,
      .cons ⟨_, true, rfl, fun _ => rfl⟩ hrecords⟩
    rw [hnew]
    exact List.append_assoc ..

/-- A full buffer that is refused is the last that is sent. -/
theorem LoopSent.refused {w : QingStorWriter} {rest : List Byte} {f : Fault} (hw : w.Sized) (hfull : w.mWritePos = w.mBuffSize) :
    LoopSent w rest
      ⟨.error f, { w with calls := w.calls ++ [.part w.mPartNum (partBody (w.mBuffer.getD []) w.mBuffSize).bytes false] }⟩
      [⟨w.mBuffer.getD [], w.mBuffSize⟩] := by
  refine ⟨⟨hw.size, hw.cursor, hw.buffer⟩, rfl, rfl, rfl, ?_, ?_, (fun h => by cases h), (fun h => by cases h),
    (fun h => by cases h), ⟨[_], rfl, .cons ⟨_, false, rfl, fun h => by cases h⟩ .nil⟩⟩
  · intro s hs
    rw [List.mem_singleton.1 hs]
    exact ⟨rfl, hw.getD_length⟩
  · rw [hfull, List.length_singleton, Nat.cast_one, one_mul]
    omega

/-- By induction on the turns of the outer loop: each fills the buffer, and sends it when it is full. -/
theorem transferLoop_sends (J : JsonC) (net : Network) {fuel : Nat} {w : QingStorWriter} {rest : List Byte} {o : WriterStep}
    (hw : w.Sized) (h : w.transferLoop J net fuel rest = some o) : LoopSent w rest o (w.loopSends J net fuel rest) := by
  induction fuel generalizing w rest with
  | zero => cases h
  | succ fuel ih =>
    unfold loopSends
    cases loopTurn h with
    | ended hnil ho =>
      subst ho hnil
      rw [if_pos rfl]
      exact .ended hw
    | stored hne hfull hok hloop =>
      have hs := (hw.fill hne).1
      rw [if_neg hne]
      dsimp only
      rw [if_pos hfull]
      rcases doSend_cases J net (w.fill rest).1 ((w.fill rest).1.mBuffer.getD []) (w.fill rest).1.mBuffSize with hd | ⟨f, hd⟩
      · rw [hd]
        have hrest := ih (hs.stored _) hloop
        exact (hrest.stored hs hfull).of_fill hw hne (fun hgood => hrest.room hgood (Or.inr (left_stored hs _)))
      · rw [hd] at hok
        cases hok
    | refused f bytes hne hfull hsent ho =>
      have hs := (hw.fill hne).1
      rw [if_neg hne]
      dsimp only
      rw [if_pos hfull]
      rcases doSend_cases J net (w.fill rest).1 ((w.fill rest).1.mBuffer.getD []) (w.fill rest).1.mBuffSize with hd | ⟨f', hd⟩
      · rw [hsent, ho] at hd
        cases hd
      · rw [hd, ← hsent, hd]
        exact (LoopSent.refused hs hfull).of_fill hw hne (fun hgood => by cases hgood)
    | filled hne hroom hloop =>
      have hs := (hw.fill hne).1
      have hleft : (w.fill rest).1.left = 0 := if_neg hroom
      rw [if_neg hne]
      dsimp only
      rw [if_neg hroom]
      have hrest := ih hs hloop
      exact hrest.of_fill hw hne (fun hgood => hrest.room hgood (Or.inr hleft))

/-- What the constructor gives a cached writer: an empty buffer, for a positive size of any magnitude. -/
theorem opened_cached {J : JsonC} {cfg : Configuration} {bucket key : Str} {xs : Nat → Exchange} {w : QingStorWriter}
    (hchunk : 1 ≤ cfg.mChunkSize) (h : QingStorWriter.make J cfg bucket key true xs = .ok w) :
    w.Sized ∧ w.mCache = true ∧ w.mBuffSize = cfg.mChunkSize ∧ w.mWritePos = 0 ∧ w.left = 0 ∧ w.calls = [] ∧
      w.mCanceled = false := by
  unfold QingStorWriter.make at h
  split at h
  · cases h
  · unfold QingStorWriter.opened newBuffer at h
    rw [if_pos rfl, if_neg (by omega)] at h
    cases h
    refine ⟨⟨hchunk, ⟨le_rfl, by dsimp only; omega⟩, _, rfl, ?_⟩, rfl, rfl, rfl, ?_, rfl, rfl⟩
    · rw [List.length_replicate]
      dsimp only
      omega
    · unfold left
      rw [if_neg (by dsimp only; omega)]

/-- What it gives a writer without a cache. -/
theorem opened_uncached {J : JsonC} {cfg : Configuration} {bucket key : Str} {xs : Nat → Exchange} {w : QingStorWriter}
    (h : QingStorWriter.make J cfg bucket key false xs = .ok w) :
    w.mCache = false ∧ w.mBuffer = none ∧ w.mWritePos = 0 ∧ w.mPartNum = 0 ∧ w.calls = [] ∧ w.mCanceled = false := by
  unfold QingStorWriter.make at h
  split at h
  · cases h
  · cases h
    exact ⟨rfl, rfl, rfl, rfl, rfl, rfl⟩

/-- A call of `qingstorWrite` on a cached writer is the loop. -/
theorem qingstorWrite_cached {J : JsonC} {net : Network} {fuel : Nat} {w : QingStorWriter} {buffer : List Byte} {o : ObjectStep}
    (hc : w.mCache = true) (hne : buffer ≠ []) (h : qingstorWrite J net fuel w buffer = some o) :
    ∃ s, w.transferLoop J net fuel buffer = some s ∧ o.writer = s.writer ∧
      (o.succeeded = true → s.result = .ok ()) ∧ w.transferSends J net fuel buffer = w.loopSends J net fuel buffer := by
  obtain ⟨s, hs, hwriter, hsucceeded⟩ := qingstorWrite_step hne h
  rcases transferData_cases hs with ⟨hno, _⟩ | ⟨_, hloop⟩
  · rw [hc] at hno
    cases hno
  · exact ⟨s, hloop, hwriter, hsucceeded.1, by unfold transferSends; rw [if_neg (by simp [hc])]⟩

/-- A call of `qingstorWrite` on a writer without a cache is one call of `doSend`. -/
theorem qingstorWrite_uncached {J : JsonC} {net : Network} {fuel : Nat} {w : QingStorWriter} {buffer : List Byte} {o : ObjectStep}
    (hc : w.mCache = false) (hne : buffer ≠ []) (h : qingstorWrite J net fuel w buffer = some o) :
    o.writer = (w.doSend J net buffer buffer.length).writer ∧
      (o.succeeded = true → (w.doSend J net buffer buffer.length).result = .ok ()) ∧
      w.transferSends J net fuel buffer = [⟨buffer, buffer.length⟩] := by
  obtain ⟨s, hs, hwriter, hsucceeded⟩ := qingstorWrite_step hne h
  rcases transferData_cases hs with ⟨_, rfl⟩ | ⟨hyes, _⟩
  · exact ⟨hwriter, hsucceeded.1, by unfold transferSends; rw [if_pos (by simp [hc])]⟩
  · rw [hc] at hyes
    cases hyes

/-- A call of `doSend` puts one part on the record. -/
theorem doSend_sends (J : JsonC) (net : Network) (w : QingStorWriter) (s : Send) :
    ∃ c, (w.doSend J net s.data s.length).writer.calls = w.calls ++ [c] ∧ RecordOf (w.doSend J net s.data s.length).result c s := by
  rcases doSend_cases J net w s.data s.length with hd | ⟨f, hd⟩
  · rw [hd]
    exact ⟨_, rfl, _, true, rfl, fun _ => rfl⟩
  · rw [hd]
    exact ⟨_, rfl, _, false, rfl, fun h => by cases h⟩

/-- So does `transferData`. -/
theorem transferData_sends (J : JsonC) (net : Network) {fuel : Nat} {w : QingStorWriter} {buffer : List Byte} {o : WriterStep}
    (hw : w.mCache = true → w.Sized) (h : w.transferData J net fuel buffer = some o) :
    ∃ calls, o.writer.calls = w.calls ++ calls ∧
      List.Forall₂ (RecordOf o.result) calls (w.transferSends J net fuel buffer) := by
  unfold transferSends
  rcases transferData_cases h with ⟨hc, rfl⟩ | ⟨hc, hloop⟩
  · obtain ⟨c, hcalls, hrecord⟩ := w.doSend_sends J net ⟨buffer, buffer.length⟩
    rw [if_pos (by simp [hc])]
    exact ⟨[c], hcalls, .cons hrecord .nil⟩
  · rw [if_neg (by simp [hc])]
    exact (transferLoop_sends J net (hw hc) hloop).recorded

end QingStorWriter

/-! ## Narrowing -/

/-- The size set up for a number of bytes is the number as long as it fits in an `int32_t`. -/
theorem narrowed_eq_iff {n : Int} (h0 : 0 ≤ n) (h1 : n ≤ int64Max) : (toSizeT (toInt32 n) : Int) = n ↔ n < 2 ^ 31 := by
  unfold toSizeT toInt32 Int.bmod
  unfold int64Max at h1
  constructor
  · intro h
    by_contra hge
    have hmod : n % (2 ^ 32 : Nat) < (2 ^ 32 : Nat) := Int.emod_lt_of_pos _ (by decide)
    norm_num at h hmod
    split at h <;> omega
  · intro h
    norm_num
    split <;> omega

/-- It is 0 for the multiples of 2^32. -/
theorem narrowed_eq_zero_iff (n : Int) : toSizeT (toInt32 n) = 0 ↔ n % 2 ^ 32 = 0 := by
  unfold toSizeT toInt32 Int.bmod
  norm_num
  split <;> omega

end QingStor
