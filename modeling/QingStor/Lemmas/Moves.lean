import QingStor.Lemmas.Handle
import QingStor.Lemmas.Requests

/-!
# The moves of a writer

Whatever the caller of a writer does comes down to moves of four kinds: the buffer and the cursor change, or a part, a completion
or an abort is put on the record. What every move keeps holds after every run of calls.
-/

namespace QingStor

/-- A move of a writer. A part that is stored moves the number on, an abort that goes well sets it back and cancels the upload; a
canceled upload is not completed. -/
inductive QingStorWriter.Move (w : QingStorWriter) : QingStorWriter → Prop
  | hold (buffer : Option (List Byte)) (pos : Int) : Move w { w with mBuffer := buffer, mWritePos := pos }
  | part (bytes : List Byte) (ok : Bool) :
      Move w { w with
        mPartNum := if ok then w.mPartNum + 1 else w.mPartNum, calls := w.calls ++ [.part w.mPartNum bytes ok] }
  | complete (ok : Bool) : w.mCanceled = false →
      Move w { w with calls := w.calls ++ [.complete w.completeBody ok] }
  | abort (ok : Bool) :
      Move w { w with
        mPartNum := if ok then 0 else w.mPartNum, mCanceled := if ok then true else w.mCanceled,
        calls := w.calls ++ [.abort ok] }

variable {J : JsonC} {net : Network}

namespace QingStorWriter

variable {w w' : QingStorWriter}

/-! ## What moves leave as it is -/

/-- A writer of the same upload: its requests are for the same URLs. -/
structure Continues (w w' : QingStorWriter) : Prop where
  mConfiguration : w'.mConfiguration = w.mConfiguration
  mBucket : w'.mBucket = w.mBucket
  mKey : w'.mKey = w.mKey
  mUploadId : w'.mUploadId = w.mUploadId
  mCred : w'.mCred = w.mCred

theorem Continues.refl (w : QingStorWriter) : w.Continues w := ⟨rfl, rfl, rfl, rfl, rfl⟩

theorem Continues.trans {w'' : QingStorWriter} (h : w.Continues w') (h' : w'.Continues w'') : w.Continues w'' :=
  ⟨h'.mConfiguration.trans h.mConfiguration, h'.mBucket.trans h.mBucket, h'.mKey.trans h.mKey,
    h'.mUploadId.trans h.mUploadId, h'.mCred.trans h.mCred⟩

theorem Continues.url (h : w.Continues w') : w'.url = w.url := by
  unfold QingStorWriter.url
  rw [h.mConfiguration, h.mBucket, h.mKey]

/-- A part under a number is asked for by the same request. -/
theorem Continues.partArgs (h : w.Continues w') (num : Int) :
    ({ w' with mPartNum := num } : QingStorWriter).partArgs = ({ w with mPartNum := num } : QingStorWriter).partArgs := by
  have hurl : ({ w' with mPartNum := num } : QingStorWriter).url = ({ w with mPartNum := num } : QingStorWriter).url := h.url
  unfold QingStorWriter.partArgs
  dsimp only
  rw [hurl, h.mConfiguration, h.mBucket, h.mUploadId, h.mCred]

/-- So are a completion and an abort. -/
theorem Continues.uploadArgs (h : w.Continues w') (qsrt : QSRequestType) : w'.uploadArgs qsrt = w.uploadArgs qsrt := by
  unfold QingStorWriter.uploadArgs
  rw [h.url, h.mConfiguration, h.mBucket, h.mUploadId, h.mCred]

theorem Move.continues (h : w.Move w') : w.Continues w' := by
  cases h with
  | hold _ _ | part _ _ | complete _ _ | abort _ => exact ⟨rfl, rfl, rfl, rfl, rfl⟩

/-! ## Single functions -/

/-- The inner loop changes the buffer and the cursor. -/
theorem fill_eq (w : QingStorWriter) (rest : List Byte) :
    ∃ buffer pos, (w.fill rest).1 = { w with mBuffer := buffer, mWritePos := pos } := by
  induction rest generalizing w with
  | nil => exact ⟨w.mBuffer, w.mWritePos, rfl⟩
  | cons x rest ih =>
    unfold fill
    split
    · dsimp only
      split
      · exact ⟨_, _, rfl⟩
      · obtain ⟨buffer, pos, heq⟩ := ih { w with
          mBuffer := w.mBuffer.map (fun buf => Lib.blit buf w.mWritePos.toNat [x]), mWritePos := w.mWritePos + 1 }
        exact ⟨buffer, pos, heq⟩
    · exact ⟨w.mBuffer, w.mWritePos, rfl⟩

theorem move_fill (w : QingStorWriter) (rest : List Byte) : w.Move (w.fill rest).1 := by
  obtain ⟨buffer, pos, heq⟩ := w.fill_eq rest
  rw [heq]
  exact .hold buffer pos

end QingStorWriter

end QingStor
