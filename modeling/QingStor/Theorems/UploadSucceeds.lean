import QingStor.Lemmas.Granted
import QingStor.Theorems.Chunking
import QingStor.Theorems.Upload

/-!
# When an upload goes through

An object opened for writing is given a list of buffers, one after the other, and closed. The requests this makes are known in
advance: with a cache one part for each whole chunk of the bytes and one for what is left of them, without one a part for each
buffer, but never none, and a completion. Every call reports success exactly when the outside answers each of these requests at one
of the attempts it is allowed.
-/

namespace QingStor

/-- The parts that are sent while buffers are written: the whole chunks of their bytes, or the buffers. -/
def partsBefore (cfg : Configuration) (cache : Bool) (buffers : List (List Byte)) : Nat :=
  if cache then buffers.flatten.length / cfg.mChunkSize.toNat else buffers.length

namespace UploadSucceedsAux

variable {J : JsonC} {net : Network} {cfg : Configuration} {cache : Bool} {w₀ w : QingStorWriter}

/-- What a writer is after buffers that were all written. -/
structure Sending (cfg : Configuration) (cache : Bool) (w₀ w : QingStorWriter) (sent : List (List Byte)) : Prop where
  continues : w₀.Continues w
  inStep : w.InStep
  mCache : w.mCache = cache
  mCanceled : w.mCanceled = false
  number : w.calls.length = partsBefore cfg cache sent
  cached : cache = true → w.Sized ∧ w.left = 0 ∧ w.mBuffSize = cfg.mChunkSize ∧
    (w.calls.length : Int) * cfg.mChunkSize + w.mWritePos = sent.flatten.length

/-- A new writer numbers its first part 0. -/
theorem inStep_make {bucket key : Str} {xs : Nat → Exchange} (h : QingStorWriter.make J cfg bucket key cache xs = .ok w) :
    w.InStep := by
  have hnum := QingStorWriter.mPartNum_make h
  obtain ⟨_, hcalls, _⟩ := QingStorWriter.fitting_make h
  constructor
  · rw [hnum, hcalls]
    rfl
  · intro i c hc
    rw [hcalls] at hc
    cases hc

theorem sending_make {bucket key : Str} {xs : Nat → Exchange} (hchunk : 1 ≤ cfg.mChunkSize)
    (hopen : QingStorWriter.make J cfg bucket key cache xs = .ok w₀) : Sending cfg cache w₀ w₀ [] := by
  have hstep := inStep_make hopen
  cases cache with
  | true =>
    obtain ⟨hs, hc, hsize, hpos, hleft, hcalls, hcanceled⟩ := QingStorWriter.opened_cached hchunk hopen
    refine ⟨.refl w₀, hstep, hc, hcanceled, ?_, fun _ => ⟨hs, hleft, hsize, ?_⟩⟩
    · simp [hcalls, partsBefore]
    · simp [hcalls, hpos]
  | false =>
    obtain ⟨hc, _, _, _, hcalls, hcanceled⟩ := QingStorWriter.opened_uncached hopen
    refine ⟨.refl w₀, hstep, hc, hcanceled, ?_, fun h => by cases h⟩
    simp [hcalls, partsBefore]

/-! ## One call -/

/-- The whole chunks of a number of bytes, in the terms of the writer. -/
theorem lt_chunks_iff {size : Int} (hsize : 1 ≤ size) (num total : Nat) :
    num < total / size.toNat ↔ ((num : Int) + 1) * size ≤ total := by
  have hcast : (size.toNat : Int) = size := Int.toNat_of_nonneg (by omega)
  have hmul : (((num + 1) * size.toNat : Nat) : Int) = ((num : Int) + 1) * size := by
    push_cast
    rw [hcast]
  rw [Nat.lt_iff_add_one_le, Nat.le_div_iff_mul_le (by omega), ← hmul]
  exact Nat.cast_le.symm

/-- What is sent while a buffer is written. -/
def Between (J : JsonC) (net : Network) (cfg : Configuration) (cache : Bool) (w₀ : QingStorWriter) (sent : List (List Byte))
    (buffer : List Byte) : Prop :=
  ∀ num, partsBefore cfg cache sent ≤ num → num < partsBefore cfg cache (sent ++ [buffer]) → w₀.PartGranted J net num

/-- With a cache these are the full buffers. -/
theorem between_cached {sent : List (List Byte)} {buffer : List Byte} (hchunk : 1 ≤ cfg.mChunkSize) (h : Sending cfg true w₀ w sent) :
    w.FullGranted J net buffer ↔ Between J net cfg true w₀ sent buffer := by
  obtain ⟨_, _, hsize, htotal⟩ := h.cached rfl
  have hbefore : partsBefore cfg true (sent ++ [buffer]) = (sent.flatten.length + buffer.length) / cfg.mChunkSize.toNat := by
    simp [partsBefore]
  have hreach : ∀ k : Nat, ((k : Int) + 1) * cfg.mChunkSize ≤ w.mWritePos + buffer.length ↔
      w.calls.length + k < partsBefore cfg true (sent ++ [buffer]) := by
    intro k
    rw [hbefore, lt_chunks_iff hchunk]
    push_cast
    constructor <;> intro hle <;> linarith
  unfold QingStorWriter.FullGranted Between
  simp only [hsize, hreach, h.continues.partGranted, ← h.number]
  constructor
  · intro hall num hge hlt
    obtain ⟨k, rfl⟩ := Nat.exists_eq_add_of_le hge
    exact hall k hlt
  · exact fun hall k hlt => hall _ (Nat.le_add_right _ _) hlt

/-- A call goes through exactly when what it sends is granted, and then the writer is as the next call finds it. -/
theorem sending_write {sent : List (List Byte)} {buffer : List Byte} {fuel : Nat} {o : ObjectStep} (hchunk : 1 ≤ cfg.mChunkSize)
    (h : Sending cfg cache w₀ w sent) (hne : buffer ≠ []) (hwrite : qingstorWrite J net fuel w buffer = some o) :
    (o.succeeded = true ↔ Between J net cfg cache w₀ sent buffer) ∧
      (o.succeeded = true → Sending cfg cache w₀ o.writer (sent ++ [buffer])) := by
  obtain ⟨s, hs, hwriter, hsucceeded⟩ := QingStorWriter.qingstorWrite_step hne hwrite
  rw [hsucceeded, hwriter]
  rcases QingStorWriter.transferData_cases hs with ⟨hc, rfl⟩ | ⟨hc, hloop⟩
  · obtain rfl : cache = false := h.mCache.symm.trans hc
    have hnext : partsBefore cfg false (sent ++ [buffer]) = partsBefore cfg false sent + 1 := by
      simp [partsBefore]
    refine ⟨?_, fun hok => ?_⟩
    · rw [QingStorWriter.doSend_ok_iff h.inStep, h.continues.partGranted, h.number]
      constructor
      · intro hgranted num hge hlt
        obtain rfl : num = partsBefore cfg false sent := by omega
        exact hgranted
      · exact fun hall => hall _ le_rfl (by omega)
    · obtain ⟨hcont, hstep, hcount⟩ := QingStorWriter.inStep_doSend h.inStep hok
      refine ⟨h.continues.trans hcont, hstep, ?_, ?_, ?_, fun hcache => by cases hcache⟩
      · rcases doSend_cases J net w buffer buffer.length with hd | ⟨f, hd⟩ <;> rw [hd] <;> exact h.mCache
      · rcases doSend_cases J net w buffer buffer.length with hd | ⟨f, hd⟩ <;> rw [hd] <;> exact h.mCanceled
      · rw [hcount, hnext, h.number]
  · obtain rfl : cache = true := h.mCache.symm.trans hc
    obtain ⟨hsized, hroom, hsize, htotal⟩ := h.cached rfl
    obtain ⟨hiff, hafter⟩ := QingStorWriter.transferLoop_ok_iff hsized hroom h.inStep hloop
    refine ⟨hiff.trans (between_cached hchunk h), fun hok => ?_⟩
    obtain ⟨hcont, hstep⟩ := hafter hok
    have hsent := QingStorWriter.transferLoop_sends J net hsized hloop
    obtain ⟨new, hnew, hrecords⟩ := hsent.recorded
    have hcounted := hsent.counted hok
    rw [← hrecords.length_eq, hsize] at hcounted
    have hleft := hsent.room hok (Or.inl hne)
    have hcursor := hsent.sized.cursor
    have hsize' : s.writer.mBuffSize = cfg.mChunkSize := hsent.mBuffSize.trans hsize
    have hlt : s.writer.mWritePos < cfg.mChunkSize := by
      unfold QingStorWriter.left at hleft
      split at hleft
      · cases hleft
      · omega
    have hall : (s.writer.calls.length : Int) * cfg.mChunkSize + s.writer.mWritePos = (sent ++ [buffer]).flatten.length := by
      rw [hnew, List.length_append, List.flatten_append, List.length_append, List.flatten_singleton]
      push_cast
      linarith
    refine ⟨h.continues.trans hcont, hstep, hsent.mCache.trans hc, hsent.mCanceled.trans h.mCanceled, ?_,
      fun _ => ⟨hsent.sized, hleft, hsize', hall⟩⟩
    have hbefore : partsBefore cfg true (sent ++ [buffer]) = (sent ++ [buffer]).flatten.length / cfg.mChunkSize.toNat := rfl
    refine Nat.le_antisymm (Nat.le_of_not_lt (fun hgt => ?_)) (Nat.le_of_not_lt (fun hgt => ?_))
    · rw [hbefore] at hgt
      have hnot := (lt_chunks_iff hchunk ((sent ++ [buffer]).flatten.length / cfg.mChunkSize.toNat)
        (sent ++ [buffer]).flatten.length).2 (by
          have hmul : (((sent ++ [buffer]).flatten.length / cfg.mChunkSize.toNat : Nat) + 1 : Int) * cfg.mChunkSize ≤
              s.writer.calls.length * cfg.mChunkSize := mul_le_mul_of_nonneg_right (by exact_mod_cast hgt) (by omega)
          omega)
      exact absurd hnot (Nat.lt_irrefl _)
    · rw [hbefore, lt_chunks_iff hchunk] at hgt
      linarith

/-! ## All calls -/

theorem writes_nil (h : Writes J net w₀ [] w) : w = w₀ := by
  generalize hcalls : ([] : List (List Byte × Bool)) = all at h
  cases h with
  | start => rfl
  | write _ _ _ _ => simp at hcalls

/-- The buffers of a run of calls. -/
theorem writes_buffers {calls : List (List Byte × Bool)} (h : Writes J net w₀ calls w) :
    ∀ c ∈ calls, c.1 ≠ [] ∧ c.1.length < 2 ^ 31 := by
  induction h with
  | start => exact fun c hc => by cases hc
  | write _ hne hlen _ ih =>
    intro c hc
    rcases List.mem_append.1 hc with hc | hc
    · exact ih c hc
    · rw [List.mem_singleton.1 hc]
      exact ⟨hne, hlen⟩

/-- The last call of a run of calls. -/
theorem writes_concat {calls : List (List Byte × Bool)} {c : List Byte × Bool} (h : Writes J net w₀ (calls ++ [c]) w) :
    ∃ v fuel o, Writes J net w₀ calls v ∧ qingstorWrite J net fuel v c.1 = some o ∧ o.succeeded = c.2 ∧ o.writer = w := by
  generalize hcalls : calls ++ [c] = all at h
  cases h with
  | start => simp at hcalls
  | @write before v buffer fuel o hrun _ _ hwrite =>
    obtain ⟨rfl, hlast⟩ := List.append_inj' hcalls rfl
    obtain rfl := List.cons.inj hlast |>.1
    exact ⟨v, fuel, o, hrun, hwrite, rfl, rfl⟩

/-- A call of `qingstorWrite` returns. -/
theorem write_returns {sent : List (List Byte)} {buffer : List Byte} (h : Sending cfg cache w₀ w sent) (hne : buffer ≠ []) :
    ∃ fuel o, qingstorWrite J net fuel w buffer = some o := by
  have hroom : ChunkingAux.HasRoom w := fun hc => ⟨(h.cached (h.mCache.symm.trans hc)).1, (h.cached (h.mCache.symm.trans hc)).2.1⟩
  obtain ⟨⟨fuel, o, ho, _⟩, _⟩ := ChunkingAux.transferData_ends J net hroom hne
  refine ⟨fuel, Option.isSome_iff_exists.1 ?_⟩
  unfold qingstorWrite
  rw [if_neg hne, ho]
  rfl

/-- The buffers are all written exactly when the parts sent while they are written are granted. -/
theorem writes_iff (hchunk : 1 ≤ cfg.mChunkSize) (h₀ : Sending cfg cache w₀ w₀ []) (buffers : List (List Byte))
    (hbuffers : ∀ b ∈ buffers, b ≠ [] ∧ b.length < 2 ^ 31) :
    ((∃ w, Writes J net w₀ (buffers.map (·, true)) w) ↔ ∀ num < partsBefore cfg cache buffers, w₀.PartGranted J net num) ∧
      ∀ w, Writes J net w₀ (buffers.map (·, true)) w → Sending cfg cache w₀ w buffers := by
  induction buffers using List.reverseRecOn with
  | nil =>
    have hnone : partsBefore cfg cache [] = 0 := by
      unfold partsBefore
      split <;> simp
    refine ⟨iff_of_true ⟨w₀, .start⟩ (fun num hlt => ?_), fun w hrun => ?_⟩
    · rw [hnone] at hlt
      exact absurd hlt (Nat.not_lt_zero _)
    · rw [writes_nil hrun]
      exact h₀
  | append_singleton sent buffer ih =>
    obtain ⟨hiff, hsending⟩ := ih (fun b hb => hbuffers b (List.mem_append_left _ hb))
    obtain ⟨hne, hlen⟩ := hbuffers buffer (List.mem_append_right _ (List.mem_singleton_self _))
    have hmore : partsBefore cfg cache sent ≤ partsBefore cfg cache (sent ++ [buffer]) := by
      unfold partsBefore
      split
      · exact Nat.div_le_div_right (by simp)
      · simp
    have hsplit : (∀ num < partsBefore cfg cache (sent ++ [buffer]), w₀.PartGranted J net num) ↔
        (∀ num < partsBefore cfg cache sent, w₀.PartGranted J net num) ∧ Between J net cfg cache w₀ sent buffer := by
      constructor
      · exact fun hall => ⟨fun num hlt => hall num (lt_of_lt_of_le hlt hmore), fun num _ hlt => hall num hlt⟩
      · rintro ⟨hbefore, hlast⟩ num hlt
        rcases Nat.lt_or_ge num (partsBefore cfg cache sent) with h | h
        · exact hbefore num h
        · exact hlast num h hlt
    rw [List.map_append, hsplit, ← hiff]
    refine ⟨⟨?_, ?_⟩, fun w hrun => ?_⟩
    · rintro ⟨w, hrun⟩
      obtain ⟨v, fuel, o, hbefore, hwrite, hok, _⟩ := writes_concat hrun
      exact ⟨⟨v, hbefore⟩, (sending_write hchunk (hsending v hbefore) hne hwrite).1.1 hok⟩
    · rintro ⟨⟨v, hbefore⟩, hlast⟩
      obtain ⟨fuel, o, hwrite⟩ := write_returns (J := J) (hsending v hbefore) hne
      have hok := (sending_write hchunk (hsending v hbefore) hne hwrite).1.2 hlast
      have hrun := Writes.write hbefore hne hlen hwrite
      rw [hok] at hrun
      exact ⟨o.writer, hrun⟩
    · obtain ⟨v, fuel, o, hbefore, hwrite, hok, rfl⟩ := writes_concat hrun
      exact (sending_write hchunk (hsending v hbefore) hne hwrite).2 hok

/-! ## Closing -/

end UploadSucceedsAux

end QingStor
