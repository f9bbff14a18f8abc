import QingStor.Api

/-!
# What a writer has accepted

The bytes a writer took from its caller are in the parts the server acknowledged and in the first `mWritePos` bytes of the
buffer. `Sound` is what holds of a writer between two calls, `doSend_cases` and `fill_spec` are what the two inner steps of
`transferData` do, and the loop is taken apart into turns with them.
-/

namespace QingStor

/-- The parts the server acknowledged, with their numbers, oldest first. -/
def acknowledged (calls : List WriterCall) : List (Int × List Byte) :=
  calls.filterMap (fun c => match c with
    | .part num bytes true => some (num, bytes)
    | _ => none)

/-- The bytes of the acknowledged parts, one part after the other. -/
def acknowledgedBytes (calls : List WriterCall) : List Byte := (acknowledged calls).flatMap (·.2)

/-- `mBuffer[0..mWritePos)`; nothing without a buffer. -/
def QingStorWriter.held (w : QingStorWriter) : List Byte := (w.mBuffer.getD []).take w.mWritePos.toNat

/-- The bytes a writer has accepted. -/
def QingStorWriter.accepted (w : QingStorWriter) : List Byte := acknowledgedBytes w.calls ++ w.held

/-- The part numbers `0, ..., n - 1`. -/
def partNumbers (n : Nat) : List Int := (List.range n).map (fun (i : Nat) => (i : Int))

theorem partNumbers_succ (n : Nat) : partNumbers (n + 1) = partNumbers n ++ [(n : Int)] := by
  simp [partNumbers, List.range_succ]

/-- The acknowledged parts are numbered from 0 on, and `mPartNum` is the next number. -/
def QingStorWriter.Numbered (w : QingStorWriter) : Prop :=
  ∃ n : Nat, w.mPartNum = n ∧ (acknowledged w.calls).map (·.1) = partNumbers n

/-- What holds of a writer between two calls of `transferData`. -/
structure QingStorWriter.Sound (w : QingStorWriter) : Prop where
  size : 1 ≤ w.mBuffSize ∧ w.mBuffSize < 2 ^ 31
  cursor : 0 ≤ w.mWritePos ∧ w.mWritePos ≤ w.mBuffSize
  numbered : w.Numbered
  cached : w.mCache = true → ∃ b, w.mBuffer = some b ∧ (b.length : Int) = w.mBuffSize
  uncached : w.mCache = false → w.mBuffer = none ∧ w.mWritePos = 0
  parts : ∀ c ∈ w.calls, ∃ num bytes ok, c = .part num bytes ok ∧ (w.mCache = true → (bytes.length : Int) = w.mBuffSize)
  notCanceled : w.mCanceled = false

/-! ## Records of requests -/

/-- A part that was refused is not among those acknowledged. -/
@[simp] theorem acknowledged_refused (calls : List WriterCall) (num : Int) (bytes : List Byte) :
    acknowledged (calls ++ [.part num bytes false]) = acknowledged calls := by
  simp [acknowledged]

@[simp] theorem acknowledged_sent (calls : List WriterCall) (num : Int) (bytes : List Byte) :
    acknowledged (calls ++ [.part num bytes true]) = acknowledged calls ++ [(num, bytes)] := by
  simp [acknowledged]

@[simp] theorem acknowledged_complete (calls : List WriterCall) (body : Json) (ok : Bool) :
    acknowledged (calls ++ [.complete body ok]) = acknowledged calls := by
  simp [acknowledged]

@[simp] theorem acknowledgedBytes_sent (calls : List WriterCall) (num : Int) (bytes : List Byte) :
    acknowledgedBytes (calls ++ [.part num bytes true]) = acknowledgedBytes calls ++ bytes := by
  simp [acknowledgedBytes]

/-- One more acknowledged part, under the next number. -/
theorem QingStorWriter.Numbered.sent {w w' : QingStorWriter} {bytes : List Byte} (h : w.Numbered)
    (hp : w'.mPartNum = w.mPartNum + 1) (hc : w'.calls = w.calls ++ [.part w.mPartNum bytes true]) : w'.Numbered := by
  obtain ⟨n, hn, hnum⟩ := h
  refine ⟨n + 1, by rw [hp, hn]; rfl, ?_⟩
  rw [hc, acknowledged_sent, List.map_append, hnum, partNumbers_succ, hn]
  rfl

theorem QingStorWriter.Numbered.refused {w w' : QingStorWriter} {num : Int} {bytes : List Byte} (h : w.Numbered)
    (hp : w'.mPartNum = w.mPartNum) (hc : w'.calls = w.calls ++ [.part num bytes false]) : w'.Numbered := by
  obtain ⟨n, hn, hnum⟩ := h
  exact ⟨n, by rw [hp, hn], by rw [hc, acknowledged_refused, hnum]⟩

/-! ## One request -/

/-- The body set up for a length that is a positive `int32_t`, or 0. -/
theorem partBody_bytes {data : List Byte} {length : Int} (h1 : 0 ≤ length) (h2 : length < 2 ^ 31) :
    (partBody data length).bytes = data.take length.toNat := by
  have h : (toSizeT (toInt32 length) : Int) = length := by
    rw [toInt32_of_bounds (by omega) h2]
    exact toSizeT_of_nonneg h1 (by omega)
  have h' : toSizeT (toInt32 length) = length.toNat := by omega
  rw [MemoryData.bytes, partBody, h']

/-- What `doSend` does: the part is stored and the number moves on, or it throws and only the record of the request is new. -/
theorem doSend_cases (J : JsonC) (net : Network) (w : QingStorWriter) (data : List Byte) (length : Int) :
    w.doSend J net data length =
      ⟨.ok (), { w with
        mPartNum := w.mPartNum + 1, calls := w.calls ++ [.part w.mPartNum (partBody data length).bytes true] }⟩ ∨
    ∃ f, w.doSend J net data length =
      ⟨.error f, { w with calls := w.calls ++ [.part w.mPartNum (partBody data length).bytes false] }⟩ := by
  unfold QingStorWriter.doSend
  cases w.uploadMultipart J net data length with
  | error f => exact Or.inr ⟨f, rfl⟩
  | ok stored =>
    cases stored with
    | false => exact Or.inr ⟨_, rfl⟩
    | true => exact Or.inl rfl

/-- What `completeMultipartUpload` does: it leaves the record of its request, and nothing else. -/
theorem completeMultipartUpload_cases (J : JsonC) (net : Network) (w : QingStorWriter) :
    w.completeMultipartUpload J net = ⟨.ok (), { w with calls := w.calls ++ [.complete w.completeBody true] }⟩ ∨
    ∃ f, w.completeMultipartUpload J net =
      ⟨.error f, { w with calls := w.calls ++ [.complete w.completeBody false] }⟩ := by
  unfold QingStorWriter.completeMultipartUpload
  dsimp only
  split
  · exact Or.inr ⟨_, rfl⟩
  · exact Or.inl rfl

namespace QingStorWriter

/-! ## Filling the buffer -/

/-- What the inner loop does: it takes bytes off the front of `rest` and holds them, until none is left or the buffer is full. -/
theorem fill_spec {w : QingStorWriter} {b : List Byte} (rest : List Byte) (hb : w.mBuffer = some b)
    (hl : (b.length : Int) = w.mBuffSize) (h0 : 0 ≤ w.mWritePos) (h1 : w.mWritePos ≤ w.mBuffSize) :
    ∃ b' chunk rest', w.fill rest = ({ w with mBuffer := some b', mWritePos := w.mWritePos + chunk.length }, rest') ∧
      rest = chunk ++ rest' ∧ (b'.length : Int) = w.mBuffSize ∧
      b'.take (w.mWritePos + chunk.length).toNat = b.take w.mWritePos.toNat ++ chunk ∧
      w.mWritePos + chunk.length ≤ w.mBuffSize ∧ (rest' = [] ∨ w.mWritePos + chunk.length = w.mBuffSize) := by
  induction rest generalizing w b with
  | nil => exact ⟨b, [], [], by simp [fill, ← hb], rfl, hl, by simp, by simpa using h1, Or.inl rfl⟩
  | cons x rest ih =>
    unfold fill
    by_cases hp : w.mWritePos = w.mBuffSize
    · rw [if_neg (not_not_intro hp)]
      exact ⟨b, [], x :: rest, by simp [← hb], rfl, hl, by simp, by simpa using h1, Or.inr (by simpa using hp)⟩
    · rw [if_pos hp]
      have hlt : w.mWritePos < w.mBuffSize := lt_of_le_of_ne h1 hp
      have hlen : (Lib.blit b w.mWritePos.toNat [x]).length = b.length :=
        Lib.length_blit (by simp only [List.length_singleton]; omega)
      have htake : (Lib.blit b w.mWritePos.toNat [x]).take (w.mWritePos + 1).toNat = b.take w.mWritePos.toNat ++ [x] := by
        rw [show (w.mWritePos + 1).toNat = w.mWritePos.toNat + [x].length by simp only [List.length_singleton]; omega]
        exact Lib.take_blit (by omega)
      by_cases hr : rest = []
      · subst hr
        simp only [hb, Option.map_some, if_true]
        exact ⟨_, [x], [], rfl, rfl, by rw [hlen]; exact hl, htake, by simp only [List.length_singleton]; omega, Or.inl rfl⟩
      · simp only [hb, Option.map_some, if_neg hr]
        obtain ⟨b', chunk, rest', heq, hsplit, hlen', htake', hle, hend⟩ := ih
          (w := { w with mBuffer := some (Lib.blit b w.mWritePos.toNat [x]), mWritePos := w.mWritePos + 1 }) rfl
          (by rw [hlen]; exact hl) (by dsimp only; omega) (by dsimp only; omega)
        have hcount : w.mWritePos + 1 + (chunk.length : Int) = w.mWritePos + ((x :: chunk).length : Int) := by
          rw [List.length_cons]
          omega
        refine ⟨b', x :: chunk, rest', ?_, by rw [hsplit]; rfl, hlen', ?_, ?_, ?_⟩
        · rw [heq]
          simp only [hcount]
        · rw [← hcount, htake', htake]
          simp
        · rw [← hcount]
          exact hle
        · rw [← hcount]
          exact hend

/-! ## One turn of the outer loop -/

/-- A cached writer keeps its bytes through `fill`: those it took are held after those it held. -/
theorem Sound.fill {w : QingStorWriter} (hw : w.Sound) (rest : List Byte) (hc : w.mCache = true) :
    ∃ chunk, rest = chunk ++ (w.fill rest).2 ∧ (w.fill rest).1.Sound ∧ (w.fill rest).1.mCache = true ∧
      (w.fill rest).1.mBuffSize = w.mBuffSize ∧ (w.fill rest).1.calls = w.calls ∧
      (w.fill rest).1.mWritePos = w.mWritePos + chunk.length ∧ (w.fill rest).1.held = w.held ++ chunk ∧
      ((w.fill rest).2 = [] ∨ (w.fill rest).1.mWritePos = w.mBuffSize) := by
  obtain ⟨b, hb, hl⟩ := hw.cached hc
  obtain ⟨b', chunk, rest', heq, hsplit, hlen, htake, hle, hend⟩ := fill_spec rest hb hl hw.cursor.1 hw.cursor.2
  rw [heq]
  refine ⟨chunk, hsplit, ⟨hw.size, ⟨?_, hle⟩, hw.numbered, fun _ => ⟨b', rfl, hlen⟩, fun h => ?_, hw.parts, hw.notCanceled⟩,
    hc, rfl, rfl, rfl, ?_, hend⟩
  · have := hw.cursor.1
    dsimp only
    omega
  · rw [hc] at h
    cases h
  · simp only [held, hb, Option.getD_some]
    exact htake

/-- A writer whose buffer was stored as a part. -/
def stored (w : QingStorWriter) (bytes : List Byte) : QingStorWriter :=
  { w with mPartNum := w.mPartNum + 1, calls := w.calls ++ [.part w.mPartNum bytes true], mWritePos := 0 }

/-- A writer that records a part the server refused. -/
theorem Sound.refused {w : QingStorWriter} {num : Int} {bytes : List Byte} (hw : w.Sound)
    (hl : w.mCache = true → (bytes.length : Int) = w.mBuffSize) :
    QingStorWriter.Sound { w with calls := w.calls ++ [.part num bytes false] } := by
  refine ⟨hw.size, hw.cursor, hw.numbered.refused rfl rfl, hw.cached, hw.uncached, fun c hc => ?_, hw.notCanceled⟩
  rcases List.mem_append.1 hc with h | h
  · exact hw.parts c h
  · exact ⟨num, bytes, false, List.mem_singleton.1 h, hl⟩

/-- A writer that records a part the server stored, and holds nothing any more. -/
theorem Sound.sent {w : QingStorWriter} (bytes : List Byte) (hw : w.Sound)
    (hl : w.mCache = true → (bytes.length : Int) = w.mBuffSize) : (w.stored bytes).Sound := by
  have := hw.size
  refine ⟨hw.size, ⟨le_rfl, by dsimp only [stored]; omega⟩, hw.numbered.sent rfl rfl, hw.cached,
    fun h => ⟨(hw.uncached h).1, rfl⟩, fun c hc => ?_, hw.notCanceled⟩
  rcases List.mem_append.1 hc with h | h
  · exact hw.parts c h
  · exact ⟨w.mPartNum, bytes, true, List.mem_singleton.1 h, hl⟩

/-- A full buffer is sent whole. -/
theorem Sound.full_bytes {w : QingStorWriter} (hw : w.Sound) (hc : w.mCache = true) (hfull : w.mWritePos = w.mBuffSize) :
    (partBody (w.mBuffer.getD []) w.mBuffSize).bytes = w.held ∧ (w.held.length : Int) = w.mBuffSize := by
  obtain ⟨b, hb, hl⟩ := hw.cached hc
  have hsize := hw.size
  have hall : b.take w.mBuffSize.toNat = b := List.take_of_length_le (by omega)
  rw [partBody_bytes (by omega) hsize.2, held, hb, hfull, Option.getD_some, hall]
  exact ⟨rfl, hl⟩

/-- What a turn of the outer loop comes to: there was nothing to take, the full buffer was stored and the loop goes on, it was
refused, or there is room left and the loop goes on. -/
inductive LoopTurn (J : JsonC) (net : Network) (fuel : Nat) (w : QingStorWriter) (rest : List Byte) (o : WriterStep) : Prop
  | ended : rest = [] → o = ⟨.ok (), w⟩ → LoopTurn J net fuel w rest o
  | stored : rest ≠ [] → (w.fill rest).1.mWritePos = (w.fill rest).1.mBuffSize →
      ((w.fill rest).1.doSend J net ((w.fill rest).1.mBuffer.getD []) (w.fill rest).1.mBuffSize).result = .ok () →
      ((w.fill rest).1.stored (partBody ((w.fill rest).1.mBuffer.getD []) (w.fill rest).1.mBuffSize).bytes).transferLoop J net fuel
        (w.fill rest).2 = some o → LoopTurn J net fuel w rest o
  | refused (f : Fault) (bytes : List Byte) : rest ≠ [] → (w.fill rest).1.mWritePos = (w.fill rest).1.mBuffSize →
      (w.fill rest).1.doSend J net ((w.fill rest).1.mBuffer.getD []) (w.fill rest).1.mBuffSize = o →
      o = ⟨.error f, { (w.fill rest).1 with
        calls := (w.fill rest).1.calls ++ [.part (w.fill rest).1.mPartNum bytes false] }⟩ → LoopTurn J net fuel w rest o
  | filled : rest ≠ [] → (w.fill rest).1.mWritePos ≠ (w.fill rest).1.mBuffSize →
      (w.fill rest).1.transferLoop J net fuel (w.fill rest).2 = some o → LoopTurn J net fuel w rest o

theorem loopTurn {J : JsonC} {net : Network} {fuel : Nat} {w : QingStorWriter} {rest : List Byte} {o : WriterStep}
    (h : w.transferLoop J net (fuel + 1) rest = some o) : LoopTurn J net fuel w rest o := by
  unfold transferLoop at h
  split at h
  · rename_i hnil
    cases h
    exact .ended hnil rfl
  · rename_i hne
    dsimp only at h
    split at h
    · rename_i hfull
      rcases doSend_cases J net (w.fill rest).1 ((w.fill rest).1.mBuffer.getD []) (w.fill rest).1.mBuffSize with
        hsent | ⟨f, hsent⟩
      · rw [hsent] at h
        exact .stored hne hfull (by rw [hsent]) h
      · rw [hsent] at h
        cases h
        exact .refused f _ hne hfull hsent rfl
    · rename_i hfull
      exact .filled hne hfull h

/-- What a call, or a loop inside one, makes of a sound writer it was given the bytes `rest` to take: a sound writer that has
accepted some of their front, and all of them when the call does not throw. -/
structure Took (w : QingStorWriter) (rest : List Byte) (o : WriterStep) : Prop where
  sound : o.writer.Sound
  mCache : o.writer.mCache = w.mCache
  mBuffSize : o.writer.mBuffSize = w.mBuffSize
  accepted : ∃ taken, taken <+: rest ∧ o.writer.accepted = w.accepted ++ taken ∧ (o.result = .ok () → taken = rest)

/-- The loop from a writer that has taken `chunk` already. -/
theorem Took.after {w w' : QingStorWriter} {chunk rest : List Byte} {o : WriterStep} (h : Took w' rest o)
    (hc : w'.mCache = w.mCache) (hs : w'.mBuffSize = w.mBuffSize) (ha : w'.accepted = w.accepted ++ chunk) :
    Took w (chunk ++ rest) o := by
  obtain ⟨taken, hpre, hacc, hok⟩ := h.accepted
  refine ⟨h.sound, h.mCache.trans hc, h.mBuffSize.trans hs, chunk ++ taken, ?_, ?_, ?_⟩
  · exact (List.prefix_append_right_inj chunk).2 hpre
  · rw [hacc, ha, List.append_assoc]
  · intro hr
    rw [hok hr]

/-- What the loops need of a writer to end: room for a byte, and a buffer of the size they count with. -/
structure Sized (w : QingStorWriter) : Prop where
  size : 1 ≤ w.mBuffSize
  cursor : 0 ≤ w.mWritePos ∧ w.mWritePos ≤ w.mBuffSize
  buffer : ∃ b, w.mBuffer = some b ∧ (b.length : Int) = w.mBuffSize

theorem Sized.stored {w : QingStorWriter} (hw : w.Sized) (bytes : List Byte) : (w.stored bytes).Sized := by
  have := hw.size
  exact ⟨hw.size, ⟨le_rfl, by dsimp only [QingStorWriter.stored]; omega⟩, hw.buffer⟩

/-- 1 for a writer whose buffer an earlier call left full. -/
def left (w : QingStorWriter) : Nat := if w.mWritePos = w.mBuffSize then 1 else 0

theorem left_stored {w : QingStorWriter} (hw : w.Sized) (bytes : List Byte) : (w.stored bytes).left = 0 := by
  have := hw.size
  unfold left
  rw [if_neg (by dsimp only [stored]; omega)]

/-- A turn takes a byte at least, unless the buffer was full. -/
theorem Sized.fill {w : QingStorWriter} {rest : List Byte} (hw : w.Sized) (hr : rest ≠ []) :
    (w.fill rest).1.Sized ∧ (w.fill rest).1.calls = w.calls ∧ (w.fill rest).1.mCache = w.mCache ∧
      (w.fill rest).1.mBuffSize = w.mBuffSize ∧ (w.fill rest).2.length + 1 ≤ rest.length + w.left ∧
      ((w.fill rest).1.mWritePos ≠ w.mBuffSize → (w.fill rest).2.length < rest.length) ∧
      ((w.fill rest).2 = [] ∨ (w.fill rest).1.mWritePos = w.mBuffSize) := by
  obtain ⟨b, hb, hl⟩ := hw.buffer
  obtain ⟨b', chunk, rest', heq, hsplit, hlen, _, hle, hend⟩ := fill_spec rest hb hl hw.cursor.1 hw.cursor.2
  have h0 := hw.cursor.1
  have hcount := congrArg List.length hsplit
  rw [List.length_append] at hcount
  have hnone : chunk.length = 0 → w.mWritePos = w.mBuffSize := by
    intro hz
    rcases hend with hend | hend
    · rw [hend, hz] at hcount
      exact absurd (List.length_eq_zero_iff.1 hcount) hr
    · rw [hz] at hend
      simpa using hend
  rw [heq]
  refine ⟨⟨hw.size, ⟨by dsimp only; omega, hle⟩, b', rfl, hlen⟩, rfl, rfl, rfl, ?_, ?_, hend⟩
  · unfold left
    by_cases hz : chunk.length = 0
    · rw [if_pos (hnone hz)]
      dsimp only
      omega
    · dsimp only
      omega
  · intro hne
    dsimp only at hne ⊢
    by_cases hz : chunk.length = 0
    · exact absurd (by rw [hz, hnone hz]; simp) hne
    · omega

/-- With nothing left to take the loop ends where it is. -/
theorem transferLoop_nil {J : JsonC} {net : Network} {fuel : Nat} {w : QingStorWriter} {o : WriterStep}
    (h : w.transferLoop J net fuel [] = some o) : o = ⟨.ok (), w⟩ := by
  cases fuel with
  | zero => cases h
  | succ fuel =>
    unfold transferLoop at h
    rw [if_pos rfl] at h
    cases h
    rfl

/-- The outer loop ends, whatever the network does: each turn takes a byte at least, but for one that first has to send a
buffer left full. Each byte fills at most one part, and a loop that does not throw leaves room in the buffer. -/
theorem transferLoop_ends (J : JsonC) (net : Network) (fuel : Nat) (w : QingStorWriter) (rest : List Byte) (hw : w.Sized) :
    (rest.length + w.left < fuel → ∃ o, w.transferLoop J net fuel rest = some o) ∧
    ∀ o, w.transferLoop J net fuel rest = some o →
      o.writer.Sized ∧ o.writer.mCache = w.mCache ∧ o.writer.calls.length ≤ w.calls.length + rest.length + w.left ∧
      (o.result = .ok () → rest ≠ [] → o.writer.left = 0) := by
  induction fuel generalizing w rest with
  | zero => exact ⟨fun h => absurd h (Nat.not_lt_zero _), fun o h => by cases h⟩
  | succ fuel ih =>
    unfold transferLoop
    by_cases hr : rest = []
    · rw [if_pos hr]
      refine ⟨fun _ => ⟨_, rfl⟩, fun o ho => ?_⟩
      cases ho
      exact ⟨hw, rfl, by dsimp only; omega, fun _ h => absurd hr h⟩
    · rw [if_neg hr]
      obtain ⟨hs, hcalls, hcache, hsize, hprogress, hless, hend⟩ := hw.fill hr
      dsimp only
      by_cases hfull : (w.fill rest).1.mWritePos = (w.fill rest).1.mBuffSize
      · rw [if_pos hfull]
        rcases doSend_cases J net (w.fill rest).1 ((w.fill rest).1.mBuffer.getD []) (w.fill rest).1.mBuffSize with h | ⟨f, h⟩
        · rw [h]
          dsimp only
          obtain ⟨hfuel, hall⟩ := ih ((w.fill rest).1.stored
            (partBody ((w.fill rest).1.mBuffer.getD []) (w.fill rest).1.mBuffSize).bytes) (w.fill rest).2 (hs.stored _)
          have hempty := left_stored hs
            (partBody ((w.fill rest).1.mBuffer.getD []) (w.fill rest).1.mBuffSize).bytes
          rw [hempty] at hfuel
          refine ⟨fun hf => hfuel (by omega), fun o ho => ?_⟩
          obtain ⟨h1, h2, h3, h4⟩ := hall o ho
          rw [hempty] at h3
          simp only [stored, hcalls, List.length_append, List.length_singleton] at h3
          refine ⟨h1, h2.trans hcache, by omega, fun hok _ => ?_⟩
          by_cases hlast : (w.fill rest).2 = []
          · rw [hlast] at ho
            rw [transferLoop_nil ho]
            exact hempty
          · exact h4 hok hlast
        · rw [h]
          refine ⟨fun _ => ⟨_, rfl⟩, fun o ho => ?_⟩
          cases ho
          refine ⟨⟨hs.size, hs.cursor, hs.buffer⟩, hcache, ?_, fun hok => by cases hok⟩
          simp only [hcalls, List.length_append, List.length_singleton]
          omega
      · rw [if_neg hfull]
        have hroom : (w.fill rest).1.left = 0 := by
          unfold left
          rw [if_neg hfull]
        rw [hsize] at hfull
        have hlt := hless hfull
        obtain ⟨hfuel, hall⟩ := ih _ (w.fill rest).2 hs
        rw [hroom] at hfuel
        refine ⟨fun hf => hfuel (by omega), fun o ho => ?_⟩
        obtain ⟨h1, h2, h3, h4⟩ := hall o ho
        rw [hroom, hcalls] at h3
        refine ⟨h1, h2.trans hcache, by omega, fun hok _ => ?_⟩
        by_cases hlast : (w.fill rest).2 = []
        · rw [hlast] at ho
          rw [transferLoop_nil ho]
          exact hroom
        · exact h4 hok hlast

/-! ## `transferData` -/

/-- What a call of `transferData` is: the upload of one part without a cache, the loop with one. -/
theorem transferData_cases {J : JsonC} {net : Network} {fuel : Nat} {w : QingStorWriter} {buffer : List Byte} {o : WriterStep}
    (h : w.transferData J net fuel buffer = some o) :
    w.mCache = false ∧ o = w.doSend J net buffer buffer.length ∨
      w.mCache = true ∧ w.transferLoop J net fuel buffer = some o := by
  unfold transferData at h
  cases hc : w.mCache with
  | false =>
    rw [if_pos (by simp [hc])] at h
    cases h
    exact Or.inl ⟨rfl, rfl⟩
  | true =>
    rw [if_neg (by simp [hc])] at h
    exact Or.inr ⟨rfl, h⟩

/-- A call of `qingstorWrite` is one of `transferData`, and reports success exactly when that does not throw. -/
theorem qingstorWrite_step {J : JsonC} {net : Network} {fuel : Nat} {w : QingStorWriter} {buffer : List Byte} {o : ObjectStep}
    (hne : buffer ≠ []) (h : qingstorWrite J net fuel w buffer = some o) :
    ∃ s, w.transferData J net fuel buffer = some s ∧ o.writer = s.writer ∧ (o.succeeded = true ↔ s.result = .ok ()) := by
  unfold qingstorWrite at h
  rw [if_neg hne, Option.map_eq_some_iff] at h
  obtain ⟨s, hs, rfl⟩ := h
  refine ⟨s, hs, rfl, ?_⟩
  cases hr : s.result with
  | ok u =>
    have hlength : (buffer.length : Int) ≠ -1 := by omega
    exact iff_of_true (decide_eq_true hlength) rfl
  | error f =>
    refine iff_of_false (fun hok => ?_) (fun hok => by cases hok)
    unfold ObjectStep.succeeded at hok
    cases f <;> cases hok

/-- What `flush` leaves when it does not throw: everything accepted is in acknowledged parts. -/
theorem Sound.flush {w : QingStorWriter} (J : JsonC) (net : Network) (hw : w.Sound) (h : (w.flush J net).result = .ok ()) :
    (w.flush J net).writer.Numbered ∧ acknowledgedBytes (w.flush J net).writer.calls = w.accepted ∧
      ∃ last, (w.flush J net).writer.calls = w.calls ++ last ∧ last.length ≤ 1 ∧
        ∀ c ∈ last, ∃ num bytes, c = .part num bytes true ∧ (bytes.length : Int) ≤ w.mBuffSize := by
  have hsize := hw.size
  have hcursor := hw.cursor
  unfold QingStorWriter.flush at h ⊢
  have hbytes : (partBody (w.mBuffer.getD []) w.mWritePos).bytes = w.held :=
    partBody_bytes hcursor.1 (by omega)
  have hheld : (w.held.length : Int) ≤ w.mBuffSize := by
    rw [held, List.length_take]
    omega
  have hsent : ∀ w' : QingStorWriter, w'.mPartNum = w.mPartNum + 1 → w'.calls = w.calls ++ [.part w.mPartNum w.held true] →
      w'.Numbered ∧ acknowledgedBytes w'.calls = w.accepted ∧ ∃ last, w'.calls = w.calls ++ last ∧ last.length ≤ 1 ∧
        ∀ c ∈ last, ∃ num bytes, c = .part num bytes true ∧ (bytes.length : Int) ≤ w.mBuffSize := by
    intro w' hnum hcalls
    refine ⟨hw.numbered.sent hnum hcalls, ?_, [.part w.mPartNum w.held true], hcalls, le_rfl, ?_⟩
    · rw [hcalls]
      exact acknowledgedBytes_sent _ _ _
    · intro c hm
      exact ⟨_, _, List.mem_singleton.1 hm, hheld⟩
  cases hc : w.mCache with
  | true =>
    simp only [hc, if_true] at h ⊢
    rcases doSend_cases J net w (w.mBuffer.getD []) w.mWritePos with hd | ⟨f, hd⟩
    · rw [hd, hbytes]
      exact hsent _ rfl rfl
    · rw [hd] at h
      cases h
  | false =>
    have hnone : w.held = [] := by
      rw [held, (hw.uncached hc).1]
      simp
    simp only [hc, Bool.false_eq_true, if_false] at h ⊢
    split at h
    · rename_i hz
      rw [if_pos hz]
      rcases doSend_cases J net w (w.mBuffer.getD []) w.mWritePos with hd | ⟨f, hd⟩
      · rw [hd, hbytes]
        exact hsent _ rfl rfl
      · rw [hd] at h
        cases h
    · rename_i hz
      rw [if_neg hz]
      exact ⟨hw.numbered, by rw [accepted, hnone, List.append_nil], [], (List.append_nil _).symm, by simp,
        fun c hm => by cases hm⟩

/-- A close that succeeds, on a writer that was not canceled, ends with one completion, made after the last part. -/
theorem close_ok {w : QingStorWriter} (J : JsonC) (net : Network) (hw : w.mCanceled = false)
    (h : (w.close J net).result = .ok ()) :
    (w.flush J net).result = .ok () ∧ (w.close J net).writer.mPartNum = (w.flush J net).writer.mPartNum ∧
      (w.close J net).writer.calls =
        (w.flush J net).writer.calls ++ [.complete (w.flush J net).writer.completeBody true] := by
  unfold QingStorWriter.close at h ⊢
  rw [if_neg (by rw [hw]; simp)] at h ⊢
  cases hf : (w.flush J net).result with
  | error f =>
    simp only [hf] at h
    cases h
  | ok u =>
    rcases completeMultipartUpload_cases J net (w.flush J net).writer with hd | ⟨f, hd⟩
    · simp only [hf, hd, and_self]
    · simp only [hf, hd] at h
      cases h

/-- The same for a sound writer. -/
theorem Sound.close {w : QingStorWriter} (J : JsonC) (net : Network) (hw : w.Sound) (h : (w.close J net).result = .ok ()) :
    (w.flush J net).result = .ok () ∧ (w.close J net).writer.mPartNum = (w.flush J net).writer.mPartNum ∧
      (w.close J net).writer.calls =
        (w.flush J net).writer.calls ++ [.complete (w.flush J net).writer.completeBody true] :=
  close_ok J net hw.notCanceled h

end QingStorWriter

end QingStor
