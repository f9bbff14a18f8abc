import QingStor.Lemmas.Sends
import QingStor.Lemmas.Moves

/-!
# When a request of a writer succeeds

`DoGetJSON` returns exactly when its request can be sent and the outside answers one of the attempts it is allowed. The requests of
a writer that only writes are numbered as its parts are, so whether a loop of `transferData` goes through is a question about the
numbers of the full buffers there are to send.
-/

namespace QingStor

variable {J : JsonC} {net : Network}

/-- A request that can be sent, and that the outside answers at one of the attempts allowed. -/
def RequestArgs.Granted (J : JsonC) (a : RequestArgs) (retries : Int) (xs : Nat → Exchange) : Prop :=
  a.Sendable ∧ ∃ n ≤ (retries - 1).toNat, ∃ j, (xs n).Answers J a.qsrt j

/-- Attempts that are answered have a first one. -/
theorem exists_first {qsrt : QSRequestType} {xs : Nat → Exchange} {n : Nat} (h : ∃ j, (xs n).Answers J qsrt j) :
    ∃ m ≤ n, Unanswered J qsrt xs m ∧ ∃ j, (xs m).Answers J qsrt j := by
  induction n using Nat.strongRecOn with
  | ind n ih =>
    by_cases hfirst : Unanswered J qsrt xs n
    · exact ⟨n, le_rfl, hfirst, h⟩
    · unfold Unanswered at hfirst
      push Not at hfirst
      obtain ⟨k, hk, hanswer⟩ := hfirst
      obtain ⟨m, hm, hnone, hsome⟩ := ih k hk hanswer
      exact ⟨m, by omega, hnone, hsome⟩

/-- `DoGetJSON` returns exactly when its request is granted. -/
theorem doGetJSON_isOk_iff {a : RequestArgs} {md : Option MemoryData} {retries : Int} {xs : Nat → Exchange}
    (hmd : a.qsrt.uploads = true → md.isSome = true) :
    (∃ j, (doGetJSON J a md retries xs).result = .ok j) ↔ a.Granted J retries xs := by
  constructor
  · rintro ⟨j, hj⟩
    obtain ⟨hs, n, hn, _, hanswer, _⟩ := doGetJSON_ok hmd hj
    exact ⟨hs, n, hn, j, hanswer⟩
  · rintro ⟨hs, n, hn, hanswer⟩
    obtain ⟨m, hm, hnone, j, hj⟩ := exists_first hanswer
    rw [doGetJSON_of_first hs hmd (hm.trans hn) hnone hj]
    exact ⟨j, rfl⟩

namespace QingStorWriter

variable {w w' : QingStorWriter}

/-- The upload of the part under a number is granted, as the request of that number. -/
def PartGranted (J : JsonC) (net : Network) (w : QingStorWriter) (num : Nat) : Prop :=
  ({ w with mPartNum := num }.partArgs).Granted J w.mConfiguration.mConnectionRetries (net num)

theorem Continues.partGranted (h : w.Continues w') (num : Nat) : w'.PartGranted J net num ↔ w.PartGranted J net num := by
  unfold PartGranted
  rw [h.partArgs, h.mConfiguration]

/-- There were nothing but parts, and none failed: their numbers are those of the requests. -/
structure InStep (w : QingStorWriter) : Prop where
  number : w.mPartNum = w.calls.length
  stored : ∀ (i : Nat) (c : WriterCall), w.calls[i]? = some c → ∃ bytes, c = .part i bytes true

/-- One more part that is stored. -/
theorem InStep.concat (h : w.InStep) {bytes : List Byte} (hnum : w'.mPartNum = w.mPartNum + 1)
    (hcalls : w'.calls = w.calls ++ [.part w.mPartNum bytes true]) : w'.InStep := by
  constructor
  · rw [hnum, hcalls, h.number, List.length_append]
    rfl
  · intro i c hc
    rw [hcalls] at hc
    rcases Nat.lt_or_ge i w.calls.length with hlt | hge
    · rw [List.getElem?_append_left hlt] at hc
      exact h.stored i c hc
    · rw [List.getElem?_append_right hge, List.getElem?_singleton] at hc
      split at hc
      · rename_i hone
        obtain rfl : i = w.calls.length := by omega
        cases hc
        exact ⟨bytes, by rw [h.number]⟩
      · cases hc

/-- A part is stored exactly when its upload is granted. -/
theorem doSend_ok_iff (hstep : w.InStep) (data : List Byte) (length : Int) :
    (w.doSend J net data length).result = .ok () ↔ w.PartGranted J net w.calls.length := by
  have hsame : ({ w with mPartNum := (w.calls.length : Nat) } : QingStorWriter) = w := by
    rw [← hstep.number]
  unfold PartGranted
  have hgranted := @doGetJSON_isOk_iff J w.partArgs (some (partBody data length)) w.mConfiguration.mConnectionRetries
    (net w.calls.length) (fun _ => rfl)
  rw [hsame, ← hgranted]
  unfold doSend uploadMultipart
  cases hr : (doGetJSON J w.partArgs (some (partBody data length)) w.mConfiguration.mConnectionRetries (net w.calls.length)).result with
  | error f =>
    refine iff_of_false (fun h => by cases h) ?_
    rintro ⟨j, hj⟩
    cases hj
  | ok j =>
    obtain ⟨_, n, _, _, ⟨_, _, hanswer⟩, _⟩ := doGetJSON_ok (fun _ => rfl) hr
    have hnull : j = .null := hanswer.2
    subst hnull
    exact iff_of_true rfl ⟨_, rfl⟩

/-- A part that is stored keeps the numbers in step. -/
theorem inStep_doSend (hstep : w.InStep) {data : List Byte} {length : Int} (h : (w.doSend J net data length).result = .ok ()) :
    w.Continues (w.doSend J net data length).writer ∧ (w.doSend J net data length).writer.InStep ∧
      (w.doSend J net data length).writer.calls.length = w.calls.length + 1 := by
  rcases doSend_cases J net w data length with hd | ⟨f, hd⟩
  · rw [hd]
    have hgrown : ∀ c, (w.calls ++ [c]).length = w.calls.length + 1 := fun c => by simp
    exact ⟨⟨rfl, rfl, rfl, rfl, rfl⟩, hstep.concat rfl rfl, hgrown _⟩
  · rw [hd] at h
    cases h

/-- The parts that are full buffers of the bytes held and the bytes to come are granted. -/
def FullGranted (J : JsonC) (net : Network) (w : QingStorWriter) (rest : List Byte) : Prop :=
  ∀ k : Nat, ((k : Int) + 1) * w.mBuffSize ≤ w.mWritePos + rest.length → w.PartGranted J net (w.calls.length + k)

/-- Nothing is to be sent while there is room for all there is to come. -/
theorem fullGranted_of_room (hw : w.Sized) {rest : List Byte} (h : w.mWritePos + rest.length < w.mBuffSize) :
    w.FullGranted J net rest := by
  intro k hk
  have hsize := hw.size
  have hle : w.mBuffSize ≤ ((k : Int) + 1) * w.mBuffSize := by nlinarith
  omega

/-- A full buffer is the first part to be sent. -/
theorem fullGranted_full (bytes : List Byte) {rest : List Byte} (hfull : w.mWritePos = w.mBuffSize) :
    w.FullGranted J net rest ↔ w.PartGranted J net w.calls.length ∧ (w.stored bytes).FullGranted J net rest := by
  have hcont : w.Continues (w.stored bytes) := ⟨rfl, rfl, rfl, rfl, rfl⟩
  have hcount : (w.stored bytes).calls.length = w.calls.length + 1 := by simp [stored]
  have hsize : (w.stored bytes).mBuffSize = w.mBuffSize := rfl
  have hpos : (w.stored bytes).mWritePos = 0 := rfl
  unfold FullGranted
  simp only [hcont.partGranted, hcount, hsize, hpos, hfull]
  constructor
  · intro h
    refine ⟨h 0 (by push_cast; omega), fun k hk => ?_⟩
    have hnext := h (k + 1) (by push_cast; linarith)
    rwa [Nat.add_assoc, Nat.add_comm 1 k]
  · rintro ⟨hfirst, hrest⟩ k hk
    cases k with
    | zero => exact hfirst
    | succ k =>
      have hnext := hrest k (by push_cast at hk; linarith)
      rwa [Nat.add_assoc, Nat.add_comm 1 k] at hnext

/-- Filling changes nothing of what is to be sent. -/
theorem fullGranted_fill (hw : w.Sized) (rest : List Byte) :
    (w.fill rest).1.FullGranted J net (w.fill rest).2 ↔ w.FullGranted J net rest := by
  obtain ⟨b, hb, hl⟩ := hw.buffer
  obtain ⟨b', chunk, rest', heq, hsplit, _⟩ := fill_spec rest hb hl hw.cursor.1 hw.cursor.2
  obtain ⟨hcount, _⟩ := hw.fill_counts rest
  have hcont : w.Continues (w.fill rest).1 := by
    rw [heq]
    exact ⟨rfl, rfl, rfl, rfl, rfl⟩
  have hcalls : (w.fill rest).1.calls = w.calls := by rw [heq]
  have hsize : (w.fill rest).1.mBuffSize = w.mBuffSize := by rw [heq]
  unfold FullGranted
  simp only [hcont.partGranted, hcalls, hsize, hcount]

/-- The outer loop does not throw exactly when every full buffer is granted: by induction on its turns, each of which fills the
buffer and may send it. -/
theorem transferLoop_ok_iff {fuel : Nat} {rest : List Byte} {o : WriterStep} (hw : w.Sized) (hroom : w.left = 0)
    (hstep : w.InStep) (h : w.transferLoop J net fuel rest = some o) :
    (o.result = .ok () ↔ w.FullGranted J net rest) ∧ (o.result = .ok () → w.Continues o.writer ∧ o.writer.InStep) := by
  induction fuel generalizing w rest with
  | zero => cases h
  | succ fuel ih =>
    have hcont : w.Continues (w.fill rest).1 := (w.move_fill rest).continues
    have hfilled : FullGranted J net (w.fill rest).1 (w.fill rest).2 ↔ FullGranted J net w rest := fullGranted_fill hw rest
    have hstep' : (w.fill rest).1.InStep := by
      obtain ⟨buffer, pos, heq⟩ := w.fill_eq rest
      rw [heq]
      exact ⟨hstep.number, hstep.stored⟩
    cases loopTurn h with
    | ended hnil ho =>
      subst hnil ho
      have hlt : w.mWritePos < w.mBuffSize := by
        have hle := hw.cursor.2
        unfold left at hroom
        split at hroom
        · cases hroom
        · omega
      refine ⟨iff_of_true rfl (fullGranted_of_room hw ?_), fun _ => ⟨.refl w, hstep⟩⟩
      simpa using hlt
    | stored hne hfull hok hloop =>
      obtain ⟨hs, _⟩ := hw.fill hne
      have hsent := (doSend_ok_iff hstep' _ _).1 hok
      generalize (partBody ((w.fill rest).1.mBuffer.getD []) (w.fill rest).1.mBuffSize).bytes = bytes at hloop
      have hstored : ((w.fill rest).1.stored bytes).InStep := hstep'.concat rfl rfl
      obtain ⟨hiff, hafter⟩ := ih (hs.stored bytes) (left_stored hs bytes) hstored hloop
      refine ⟨?_, fun hgood => ?_⟩
      · rw [hiff, ← hfilled, fullGranted_full bytes hfull]
        exact ⟨fun hrest => ⟨hsent, hrest⟩, fun hall => hall.2⟩
      · obtain ⟨hcont', hnum⟩ := hafter hgood
        have hkept : (w.fill rest).1.Continues ((w.fill rest).1.stored bytes) := ⟨rfl, rfl, rfl, rfl, rfl⟩
        exact ⟨hcont.trans (hkept.trans hcont'), hnum⟩
    | refused f bytes hne hfull hsent ho =>
      have hnot : ¬ (w.fill rest).1.PartGranted J net (w.fill rest).1.calls.length := by
        rw [← doSend_ok_iff hstep', hsent, ho]
        exact fun hok => by cases hok
      have hbad : o.result ≠ .ok () := by
        rw [ho]
        exact fun hok => by cases hok
      refine ⟨iff_of_false hbad (fun hall => hnot ?_), fun hok => absurd hok hbad⟩
      exact ((fullGranted_full bytes hfull).1 (hfilled.2 hall)).1
    | filled hne hfull hloop =>
      obtain ⟨hs, _⟩ := hw.fill hne
      have hroom' : (w.fill rest).1.left = 0 := by
        unfold left
        rw [if_neg hfull]
      obtain ⟨hiff, hafter⟩ := ih hs hroom' hstep' hloop
      refine ⟨hiff.trans hfilled, fun hgood => ?_⟩
      obtain ⟨hcont', hnum⟩ := hafter hgood
      exact ⟨hcont.trans hcont', hnum⟩

end QingStorWriter

end QingStor
