import QingStor.Lemmas.Sends
import QingStor.Lemmas.Requests

/-!
# Empty parts

After successful writes and a successful close the parts are the full buffers and what was left, which `flush` sends with a cache
even when it is nothing. So there is an empty part also when the bytes written are a whole number of chunks; and since the number
of bytes of a part is narrowed, when it is a multiple of 2^32.
-/

namespace QingStor

/-- A part of no bytes is the only part, of an object of no bytes. -/
def EmptyOnly (parts : List (Int × List Byte)) (total : Int) : Prop := ∀ p ∈ parts, p.2 = [] → total = 0 ∧ parts = [p]

namespace EmptyPartAux

variable {J : JsonC} {net : Network} {w₀ w : QingStorWriter} {calls : List (List Byte × Bool)}

/-- The bytes written by a run of calls. -/
def written (calls : List (List Byte × Bool)) : Int := (calls.map (·.1)).flatten.length

/-- A part of which there are bytes has none set up exactly for a multiple of 2^32. -/
theorem bytes_eq_nil_iff {s : Send} (h : s.data ≠ []) : s.bytes = [] ↔ s.length % 2 ^ 32 = 0 := by
  have hbytes : s.bytes = s.data.take (toSizeT (toInt32 s.length)) := rfl
  rw [hbytes, List.take_eq_nil_iff, or_iff_left h, narrowed_eq_zero_iff]

/-- A request for a part that goes well records it. -/
theorem doSend_ok {data : List Byte} {length : Int} (h : (w.doSend J net data length).result = .ok ()) :
    w.doSend J net data length = ⟨.ok (), { w with
      mPartNum := w.mPartNum + 1, calls := w.calls ++ [.part w.mPartNum (Send.bytes ⟨data, length⟩) true] }⟩ := by
  rcases doSend_cases J net w data length with hd | ⟨f, hd⟩
  · exact hd
  · rw [hd] at h
    cases h

/-! ## With a cache -/

/-- What successful writes leave in a cached writer: full buffers sent, and the rest held. -/
structure Counted (w₀ w : QingStorWriter) (total : Int) : Prop where
  sized : w.Sized
  mCache : w.mCache = true
  mBuffSize : w.mBuffSize = w₀.mBuffSize
  mCanceled : w.mCanceled = false
  room : w.left = 0
  sent : ∃ sends : List Send, (acknowledged w.calls).map (·.2) = sends.map Send.bytes ∧
    (∀ s ∈ sends, s.length = w₀.mBuffSize ∧ s.data ≠ []) ∧ (sends.length : Int) * w₀.mBuffSize + w.mWritePos = total

/-- The whole chunks and the rest, when the rest is less than a chunk. -/
theorem chunks_and_rest {k size pos total : Int} (h0 : 0 ≤ pos) (hlt : pos < size) (h : k * size + pos = total) :
    total % size = pos ∧ total / size = k := by
  have hsize : size ≠ 0 := by omega
  rw [← h]
  constructor
  · rw [Int.mul_add_emod_self_right, Int.emod_eq_of_lt h0 hlt]
  · rw [Int.add_comm, Int.add_mul_ediv_right _ _ hsize, Int.ediv_eq_zero_of_lt h0 hlt, Int.zero_add]

/-- When there are bytes, a part of none is one too many. -/
theorem emptyOnly_iff {parts : List (Int × List Byte)} {total : Int} (h : total ≠ 0) :
    EmptyOnly parts total ↔ ∀ b ∈ parts.map (·.2), b ≠ [] := by
  constructor
  · intro honly b hb hnil
    obtain ⟨p, hp, rfl⟩ := List.mem_map.1 hb
    exact h (honly p hp hnil).1
  · intro hall p hp hnil
    exact absurd hnil (hall _ (List.mem_map_of_mem hp))

/-- The parts of a successful close of a cached writer. -/
theorem close_cached {total : Int} (hc : Counted w₀ w total) (hclose : (w.close J net).result = .ok ()) :
    (acknowledged (w.close J net).writer.calls).map (·.2) =
      (acknowledged w.calls).map (·.2) ++ [Send.bytes ⟨w.mBuffer.getD [], w.mWritePos⟩] := by
  obtain ⟨hflush, -, hcalls⟩ := QingStorWriter.close_ok J net hc.mCanceled hclose
  rw [hcalls, acknowledged_complete]
  unfold QingStorWriter.flush at hflush ⊢
  simp only [hc.mCache, if_true] at hflush ⊢
  have hsend : (w.doSend J net (w.mBuffer.getD []) w.mWritePos).result = .ok () := by
    cases hr : (w.doSend J net (w.mBuffer.getD []) w.mWritePos).result with
    | ok u => rfl
    | error f =>
      rw [hr] at hflush
      cases hflush
  rw [doSend_ok hsend]
  dsimp only
  rw [acknowledged_sent, List.map_append]
  rfl

theorem cached_iff {total : Int} (hc : Counted w₀ w total) (hclose : (w.close J net).result = .ok ()) :
    EmptyOnly (acknowledged (w.close J net).writer.calls) total ↔
      total = 0 ∨ total % w₀.mBuffSize % 2 ^ 32 ≠ 0 ∧ (w₀.mBuffSize % 2 ^ 32 ≠ 0 ∨ total < w₀.mBuffSize) := by
  have hparts := close_cached hc hclose
  obtain ⟨hsized, -, hsize, -, hroom, sends, hsends, hfull, hcount⟩ := hc
  rw [hsends] at hparts
  obtain ⟨b, hb, hlen⟩ := hsized.buffer
  have hone := hsized.size
  have hcursor := hsized.cursor
  have hlt : w.mWritePos < w₀.mBuffSize := by
    unfold QingStorWriter.left at hroom
    split at hroom
    · cases hroom
    · omega
  rw [hsize] at hone
  by_cases hzero : total = 0
  · refine iff_of_true (fun p hp _ => ⟨hzero, ?_⟩) (Or.inl hzero)
    have hnone : sends = [] := by
      by_contra hne
      have := List.length_pos_iff.2 hne
      nlinarith
    rw [hnone, List.map_nil, List.nil_append] at hparts
    obtain ⟨q, hq, -⟩ := List.map_eq_singleton_iff.1 hparts
    rw [hq] at hp ⊢
    rw [List.mem_singleton.1 hp]
  · obtain ⟨hmod, -⟩ := chunks_and_rest hcursor.1 hlt hcount
    have hdata : w.mBuffer.getD [] ≠ [] := by
      rw [hb, Option.getD_some]
      rintro rfl
      rw [List.length_nil] at hlen
      omega
    have hsome : (∀ x ∈ sends.map Send.bytes, x ≠ []) ↔ w₀.mBuffSize % 2 ^ 32 ≠ 0 ∨ total < w₀.mBuffSize := by
      rw [List.forall_mem_map]
      constructor
      · intro hall
        by_cases hnone : sends = []
        · rw [hnone] at hcount
          exact Or.inr (by simp at hcount; omega)
        · obtain ⟨s, rest, rfl⟩ := List.exists_cons_of_ne_nil hnone
          obtain ⟨hlength, hne⟩ := hfull s (List.mem_cons_self ..)
          have hbytes := hall s (List.mem_cons_self ..)
          rw [ne_eq, bytes_eq_nil_iff hne, hlength] at hbytes
          exact Or.inl hbytes
      · rintro (hmul | hfew) s hs
        · obtain ⟨hlength, hne⟩ := hfull s hs
          rw [ne_eq, bytes_eq_nil_iff hne, hlength]
          exact hmul
        · have := List.length_pos_of_mem hs
          nlinarith
    have hlast : Send.bytes ⟨w.mBuffer.getD [], w.mWritePos⟩ ≠ [] ↔ w.mWritePos % 2 ^ 32 ≠ 0 :=
      not_congr (bytes_eq_nil_iff (s := ⟨w.mBuffer.getD [], w.mWritePos⟩) hdata)
    rw [emptyOnly_iff hzero, hparts, List.forall_mem_append, hsome, List.forall_mem_singleton, hlast, hmod, or_iff_right hzero,
      and_comm]

/-! ## Without a cache -/

end EmptyPartAux

/-- A handle with chunks of four bytes, with a cache. -/
def Sample.fourBytes : Except Fault QingStorWriter :=
  QingStorWriter.make Sample.json (.ofArguments (lit "pek3a") (lit "id") (lit "secret") 4) (lit "b") (lit "k") true
    (fun _ => Sample.answer [] 200 [Sample.initAnswer])

/-- A network that stores every part and completes every upload. -/
def Sample.completing : Network := fun _ _ => Sample.answer [(1, 16384)] 201 []

/-- One write that succeeds on the sample handle, and the close after it. -/
theorem Sample.closed (buffer : List Byte) (hne : buffer ≠ []) (hlen : buffer.length < 2 ^ 31)
    (h : (Sample.fourBytes.toOption.bind (fun w => qingstorWrite Sample.json Sample.completing 8 w buffer)).any
      (fun o => o.succeeded && (o.writer.close Sample.json Sample.completing).result.isOk) = true) :
    ∃ w₀ w, Sample.fourBytes = .ok w₀ ∧ Writes Sample.json Sample.completing w₀ [(buffer, true)] w ∧
      (w.close Sample.json Sample.completing).result = .ok () := by
  obtain ⟨o, ho, hboth⟩ := Option.any_eq_true _ _ |>.1 h
  obtain ⟨hok, hclose⟩ := Bool.and_eq_true_iff.1 hboth
  cases hw : Sample.fourBytes with
  | error f =>
    rw [hw] at ho
    cases ho
  | ok w₀ =>
    rw [hw] at ho
    have hrun : Writes Sample.json Sample.completing w₀ [(buffer, o.succeeded)] o.writer := .write .start hne hlen ho
    rw [hok] at hrun
    refine ⟨w₀, o.writer, rfl, hrun, ?_⟩
    cases hr : (o.writer.close Sample.json Sample.completing).result with
    | ok u => rfl
    | error f =>
      rw [hr] at hclose
      cases hclose

end QingStor
