import QingStor.Lemmas.Handle

/-!
# Writes that fail

A write that fails at one of its parts has copied bytes of the caller into the buffer, unless the writer has no cache or found its
buffer full and could not send it.
-/

namespace QingStor

/-- The bytes a writer has accepted: the parts below `mPartNum`, each as it was last acknowledged, and the bytes in the buffer. -/
def QingStorWriter.acceptedBytes (w : QingStorWriter) : List Byte :=
  assembled (acknowledged w.calls).reverse (partNumbers w.mPartNum.toNat) ++ w.held

namespace QingStorWriter

variable {J : JsonC} {net : Network} {w : QingStorWriter}

theorem acceptedBytes_refused (w : QingStorWriter) (num : Int) (bytes : List Byte) :
    acceptedBytes { w with calls := w.calls ++ [.part num bytes false] } = w.acceptedBytes := by
  simp [acceptedBytes, held]

/-- A part under the next number is put after the parts before it. -/
theorem assembled_next (parts : List (Int × List Byte)) (n : Nat) (bytes : List Byte) :
    assembled ((((n : Int), bytes)) :: parts) (partNumbers (n + 1)) = assembled parts (partNumbers n) ++ bytes := by
  unfold assembled
  rw [partNumbers_succ, List.flatMap_append, List.flatMap_singleton, List.lookup_cons_self, Option.getD_some]
  congr 1
  refine List.flatMap_congr (fun i hi => ?_)
  have hne : (i == (n : Int)) = false := by
    obtain ⟨j, hj, rfl⟩ := List.mem_map.1 hi
    rw [List.mem_range] at hj
    rw [beq_eq_false_iff_ne]
    omega
  rw [List.lookup_cons, hne]

/-- A buffer that was stored as a part of the bytes `bytes`. -/
theorem Fitting.acceptedBytes_stored (hw : w.Fitting) (bytes : List Byte) :
    (w.stored bytes).acceptedBytes = assembled (acknowledged w.calls).reverse (partNumbers w.mPartNum.toNat) ++ bytes := by
  obtain ⟨n, hn⟩ := Int.eq_ofNat_of_zero_le hw.count
  have hheld : (w.stored bytes).held = [] := by simp [held, QingStorWriter.stored]
  unfold acceptedBytes
  rw [hheld, List.append_nil]
  unfold QingStorWriter.stored
  dsimp only
  rw [hn, acknowledged_sent, List.reverse_append, show ((n : Int) + 1).toNat = n + 1 by omega, Int.toNat_natCast]
  exact assembled_next _ n bytes

/-- What the inner loop takes is accepted. -/
theorem Fitting.acceptedBytes_fill (hw : w.Fitting) (hc : w.mCache = true) (rest : List Byte) :
    ∃ b chunk, rest = chunk ++ (w.fill rest).2 ∧
      (w.fill rest).1 = { w with mBuffer := some b, mWritePos := w.mWritePos + chunk.length } ∧ (w.fill rest).1.Fitting ∧
      (w.fill rest).1.acceptedBytes = w.acceptedBytes ++ chunk ∧
      ((w.fill rest).2 = [] ∨ w.mWritePos + chunk.length = w.mBuffSize) := by
  obtain ⟨b, chunk, hsplit, heq, hfit, hheld, hend⟩ := hw.fill hc rest
  refine ⟨b, chunk, hsplit, heq, hfit, ?_, hend⟩
  rw [acceptedBytes, hheld, acceptedBytes, List.append_assoc, heq]

/-- The part a full buffer is sent as holds what the buffer holds, unless its size is no `int32_t`. -/
theorem Fitting.full_bytes (hw : w.Fitting) (hfull : w.mWritePos = w.mBuffSize)
    (hsize : w.mBuffSize < 2 ^ 31) : (partBody (w.mBuffer.getD []) w.mBuffSize).bytes = w.held := by
  have h0 := hw.cursor.1
  rw [partBody_bytes (by omega) hsize, held, hfull]

/-- Bytes that do not fill the buffer are taken without a request, which cannot fail. -/
theorem Fitting.loop_fits (hw : w.Fitting) (hc : w.mCache = true) {fuel : Nat} {rest : List Byte} {o : WriterStep}
    (h : w.transferLoop J net fuel rest = some o) (hfits : w.mWritePos + rest.length < w.mBuffSize) : o.result = .ok () := by
  cases fuel with
  | zero => cases h
  | succ fuel =>
    obtain ⟨b, chunk, hsplit, heq, _, _, hend⟩ := hw.fill hc rest
    have hlen := congrArg List.length hsplit
    rw [List.length_append] at hlen
    have hnil := hend.resolve_right (by omega)
    have hnot : ¬ (w.fill rest).1.mWritePos = (w.fill rest).1.mBuffSize := by
      rw [heq]
      dsimp only
      omega
    cases loopTurn h with
    | ended _ ho => rw [ho]
    | stored _ hfull _ _ | refused _ _ _ hfull _ _ => exact (hnot hfull).elim
    | filled _ _ hloop =>
      rw [hnil] at hloop
      rw [transferLoop_nil hloop]

/-- A loop that fails from a buffer with room has accepted bytes: by induction on its turns, the first of which takes one. -/
theorem Fitting.loop_failed (hw : w.Fitting) (hc : w.mCache = true) {fuel : Nat} {rest : List Byte} {o : WriterStep}
    (h : w.transferLoop J net fuel rest = some o) (hfail : o.result ≠ .ok ()) (hlen : rest.length < 2 ^ 31)
    (hroom : w.mWritePos ≠ w.mBuffSize) : w.acceptedBytes.length < o.writer.acceptedBytes.length := by
  induction fuel generalizing w rest with
  | zero => cases h
  | succ fuel ih =>
    obtain ⟨b, chunk, hsplit, heq, hfit, hacc, hend⟩ := hw.acceptedBytes_fill hc rest
    have hcount := congrArg List.length hsplit
    rw [List.length_append] at hcount
    have hpos : rest ≠ [] → 0 < chunk.length := by
      intro hne
      have := List.length_pos_iff.2 hne
      rcases hend with hend | hend
      · rw [hend] at hcount
        simp only [List.length_nil] at hcount
        omega
      · omega
    have hcursor := hw.cursor
    have hcache : (w.fill rest).1.mCache = true := by rw [heq]; exact hc
    have hsize : (w.fill rest).1.mBuffSize = w.mBuffSize := by rw [heq]
    have hfilled := congrArg List.length hacc
    rw [List.length_append] at hfilled
    have hle := hcursor.2 hc
    cases loopTurn h with
    | ended _ ho =>
      rw [ho] at hfail
      exact (hfail rfl).elim
    | stored hne hfull _ hloop =>
      have htook := hpos hne
      have hbytes : w.mBuffSize < 2 ^ 31 →
          (partBody ((w.fill rest).1.mBuffer.getD []) (w.fill rest).1.mBuffSize).bytes = (w.fill rest).1.held :=
        fun hshort => hfit.full_bytes hfull (by omega)
      generalize (partBody ((w.fill rest).1.mBuffer.getD []) (w.fill rest).1.mBuffSize).bytes = bytes at hloop hbytes
      have hfit' := hfit.stored bytes
      have hzero : ((w.fill rest).1.stored bytes).mWritePos = 0 := rfl
      have hsize' : ((w.fill rest).1.stored bytes).mBuffSize = w.mBuffSize := hsize
      by_cases hshort : w.mBuffSize < 2 ^ 31
      · have hlt := ih hfit' hcache hloop (by omega) (by rw [hzero, hsize']; omega)
        rw [hfit.acceptedBytes_stored, hbytes hshort, ← acceptedBytes] at hlt
        omega
      · have hok := hfit'.loop_fits hcache hloop (by rw [hzero, hsize']; omega)
        exact (hfail hok).elim
    | refused f bytes hne _ _ ho =>
      have htook := hpos hne
      rw [ho, acceptedBytes_refused]
      omega
    | filled hne hfull hloop =>
      have hnil := hend.resolve_right (by rw [heq] at hfull; exact hfull)
      rw [hnil] at hloop
      rw [transferLoop_nil hloop] at hfail
      exact (hfail rfl).elim

/-- A full buffer takes nothing. -/
theorem fill_full {rest : List Byte} (hne : rest ≠ []) (hfull : w.mWritePos = w.mBuffSize) : w.fill rest = (w, rest) := by
  cases rest with
  | nil => exact (hne rfl).elim
  | cons b rest =>
    unfold fill
    rw [if_neg (not_not_intro hfull)]

/-- A buffer of no bytes accepts nothing. -/
theorem Fitting.loop_zero (hw : w.Fitting) (hc : w.mCache = true) {fuel : Nat} {rest : List Byte} {o : WriterStep}
    (h : w.transferLoop J net fuel rest = some o) (hsize : w.mBuffSize = 0) : o.writer.acceptedBytes = w.acceptedBytes := by
  induction fuel generalizing w with
  | zero => cases h
  | succ fuel ih =>
    have hpos : w.mWritePos = 0 := by
      have h0 := hw.cursor.1
      have h1 := hw.cursor.2 hc
      omega
    have hfull := hpos.trans hsize.symm
    have hheld : w.held = [] := by
      rw [held, hpos]
      rfl
    cases loopTurn h with
    | ended _ ho => rw [ho]
    | stored hne _ _ hloop =>
      rw [fill_full hne hfull] at hloop
      have hbytes : (partBody (w.mBuffer.getD []) w.mBuffSize).bytes = [] := by
        rw [partBody_bytes (by omega) (by omega), hsize]
        rfl
      rw [ih (hw.stored _) hc hloop hsize, hw.acceptedBytes_stored, hbytes, acceptedBytes, hheld]
    | refused f bytes hne _ _ ho =>
      rw [ho, acceptedBytes_refused, fill_full hne hfull]
    | filled hne hroom _ =>
      rw [fill_full hne hfull] at hroom
      exact (hroom hfull).elim

/-- The buffer is full, as a failed write left it, and sending it fails again. -/
def Stuck (J : JsonC) (net : Network) (w : QingStorWriter) : Prop :=
  w.mWritePos = w.mBuffSize ∧ (w.doSend J net (w.mBuffer.getD []) w.mBuffSize).result ≠ .ok ()

/-- A loop that fails with a buffer for some bytes leaves what is accepted as it was exactly when it fails to send what an earlier
one left. -/
theorem Fitting.loop_failed_iff (hw : w.Fitting) (hc : w.mCache = true) {fuel : Nat} {rest : List Byte} {o : WriterStep}
    (h : w.transferLoop J net fuel rest = some o) (hfail : o.result ≠ .ok ()) (hne : rest ≠ []) (hlen : rest.length < 2 ^ 31)
    (hsize : w.mBuffSize ≠ 0) : o.writer.acceptedBytes = w.acceptedBytes ↔ w.Stuck J net := by
  by_cases hfull : w.mWritePos = w.mBuffSize
  · have h0 := hw.cursor.1
    cases fuel with
    | zero => cases h
    | succ fuel =>
      unfold Stuck
      cases loopTurn h with
      | ended hnil _ => exact (hne hnil).elim
      | stored _ _ hsent hloop =>
        rw [fill_full hne hfull] at hsent hloop
        have hfit := hw.stored (partBody (w.mBuffer.getD []) w.mBuffSize).bytes
        have hzero : (w.stored (partBody (w.mBuffer.getD []) w.mBuffSize).bytes).mWritePos ≠
            (w.stored (partBody (w.mBuffer.getD []) w.mBuffSize).bytes).mBuffSize := hsize.symm
        refine ⟨fun hsame => ?_, fun hstuck => (hstuck.2 hsent).elim⟩
        by_cases hshort : w.mBuffSize < 2 ^ 31
        · have hlt := hfit.loop_failed hc hloop hfail hlen hzero
          rw [hw.acceptedBytes_stored, hw.full_bytes hfull hshort, ← acceptedBytes, hsame] at hlt
          exact (lt_irrefl _ hlt).elim
        · have hfits : (w.stored (partBody (w.mBuffer.getD []) w.mBuffSize).bytes).mWritePos + rest.length <
              (w.stored (partBody (w.mBuffer.getD []) w.mBuffSize).bytes).mBuffSize := by
            unfold QingStorWriter.stored
            dsimp only
            omega
          exact (hfail (hfit.loop_fits hc hloop hfits)).elim
      | refused f bytes _ _ hsent ho =>
        rw [fill_full hne hfull] at hsent ho
        rw [hsent, ho, acceptedBytes_refused]
        exact iff_of_true rfl ⟨hfull, fun hok => by cases hok⟩
      | filled _ hroom _ =>
        rw [fill_full hne hfull] at hroom
        exact (hroom hfull).elim
  · have hlt := hw.loop_failed hc h hfail hlen hfull
    refine ⟨fun hsame => ?_, fun hstuck => (hfull hstuck.1).elim⟩
    rw [hsame] at hlt
    exact (lt_irrefl _ hlt).elim

end QingStorWriter

/-- A write that fails at a part leaves what is accepted as it was exactly when the writer has no cache, or a cache of no bytes, or
the part that failed is the full buffer an earlier failure left. -/
theorem write_all_or_nothing_iff (J : JsonC) (net : Network) (cfg : Configuration) (bucket key : Str) (cache : Bool)
    (xs : Nat → Exchange) (w₀ w : QingStorWriter) (ops : List HandleOp) (fuel : Nat) (buffer : List Byte) (o : ObjectStep)
    (e : Option Errno) (hmake : QingStorWriter.make J cfg bucket key cache xs = .ok w₀) (hopen : HandleOp.close ∉ ops)
    (hrun : runHandle J net ops w₀ = some w) (hne : buffer ≠ []) (hlen : buffer.length < 2 ^ 31)
    (hwrite : qingstorWrite J net fuel w buffer = some o) (hfail : o.returned = .ok ⟨-1, e⟩) :
    o.writer.acceptedBytes = w.acceptedBytes ↔ w.mCache = false ∨ w.mBuffSize = 0 ∨ w.Stuck J net := by
  have hw : w.Fitting := runHandle_keeps (fun _ _ _ hclose hw hstep => hw.step hclose hstep) hopen
    (QingStorWriter.fitting_make hmake).1 hrun
  unfold qingstorWrite at hwrite
  rw [if_neg hne, Option.map_eq_some_iff] at hwrite
  obtain ⟨s, hs, rfl⟩ := hwrite
  have hresult : s.result ≠ .ok () := by
    intro hok
    dsimp only at hfail
    rw [hok] at hfail
    simp only [Except.map, catching, Except.ok.injEq, Returned.mk.injEq] at hfail
    omega
  rcases QingStorWriter.transferData_cases hs with ⟨hc, rfl⟩ | ⟨hc, hs⟩
  · refine ⟨fun _ => Or.inl hc, fun _ => ?_⟩
    rcases doSend_cases J net w buffer buffer.length with hsent | ⟨f, hsent⟩
    · rw [hsent] at hresult
      exact (hresult rfl).elim
    · rw [hsent]
      exact QingStorWriter.acceptedBytes_refused w _ _
  · by_cases hsize : w.mBuffSize = 0
    · exact ⟨fun _ => Or.inr (Or.inl hsize), fun _ => hw.loop_zero hc hs hsize⟩
    · rw [hw.loop_failed_iff hc hs hresult hne hlen hsize]
      simp [hsize, hc]

/-- A network in which every transfer fails. -/
def Sample.cutOff : Network := fun _ _ => Sample.broken []

/-- A failed write on a new handle, and whether it leaves what is accepted as it was. -/
def Sample.failing (cache : Bool) (buffer : List Byte) (unchanged : Bool) : Bool :=
  (Sample.handle Sample.cutOff cache []).any (fun s =>
    (qingstorWrite Sample.json Sample.cutOff 8 s.2 buffer).any (fun o =>
      o.returned.toOption.any (fun r => r.value = -1) && (decide (o.writer.acceptedBytes = s.2.acceptedBytes) == unchanged)))

theorem Sample.failing_iff {cache unchanged : Bool} {buffer : List Byte} (h : Sample.failing cache buffer unchanged = true) :
    ∃ w₀ w o e, QingStorWriter.make Sample.json Sample.config (lit "b") (lit "k") cache
        (fun _ => Sample.answer [] 200 [Sample.initAnswer]) = .ok w₀ ∧ runHandle Sample.json Sample.cutOff [] w₀ = some w ∧
      qingstorWrite Sample.json Sample.cutOff 8 w buffer = some o ∧ o.returned = .ok ⟨-1, e⟩ ∧
      (o.writer.acceptedBytes = w.acceptedBytes ↔ unchanged = true) := by
  obtain ⟨⟨w₀, w⟩, hhandle, h⟩ := (Option.any_eq_true _ _).1 h
  obtain ⟨o, ho, h⟩ := (Option.any_eq_true _ _).1 h
  obtain ⟨hmake, hrun⟩ := Sample.handle_run hhandle
  rw [Bool.and_eq_true, Option.any_eq_true] at h
  obtain ⟨⟨r, hr, hvalue⟩, hsame⟩ := h
  refine ⟨w₀, w, o, r.errno, hmake, hrun, ho, ?_, ?_⟩
  · cases hreturned : o.returned with
    | error f =>
      rw [hreturned] at hr
      cases hr
    | ok r' =>
      rw [hreturned] at hr
      cases hr
      rw [← of_decide_eq_true hvalue]
  · rw [beq_iff_eq] at hsame
    rw [← hsame, decide_eq_true_iff]

/-- The general statement for a write without a cache. -/
theorem write_all_or_nothing_iff_uncached :
    ∃ w o e, qingstorWrite Sample.json Sample.cutOff 8 w (lit "ab") = some o ∧ o.returned = .ok ⟨-1, e⟩ ∧
      o.writer.acceptedBytes = w.acceptedBytes := by
  obtain ⟨w₀, w, o, e, hmake, hrun, hwrite, hfail, _⟩ := Sample.failing_iff
    (show Sample.failing false (lit "ab") true = true by decide +kernel)
  have hcache : w.mCache = false := by
    cases hrun
    exact (UploadAux.sound_make (by decide) hmake).2.2.1
  exact ⟨w, o, e, hwrite, hfail, (write_all_or_nothing_iff Sample.json Sample.cutOff Sample.config (lit "b") (lit "k") false _ w₀ w
    [] 8 (lit "ab") o e hmake (by decide) hrun (by decide) (by decide) hwrite hfail).2 (Or.inl hcache)⟩

/-- A write that fails is not all or nothing: with a cache of four bytes, the first four of six are in the buffer after it. -/
theorem write_all_or_nothing_false :
    ¬ ∀ (J : JsonC) (net : Network) (cfg : Configuration) (bucket key : Str) (cache : Bool) (xs : Nat → Exchange)
      (w₀ w : QingStorWriter) (ops : List HandleOp) (fuel : Nat) (buffer : List Byte) (o : ObjectStep) (e : Option Errno),
      QingStorWriter.make J cfg bucket key cache xs = .ok w₀ → HandleOp.close ∉ ops → runHandle J net ops w₀ = some w →
      buffer ≠ [] → buffer.length < 2 ^ 31 → qingstorWrite J net fuel w buffer = some o → o.returned = .ok ⟨-1, e⟩ →
      o.writer.acceptedBytes = w.acceptedBytes := by
  intro h
  obtain ⟨w₀, w, o, e, hmake, hrun, hwrite, hfail, hchanged⟩ := Sample.failing_iff
    (show Sample.failing true (lit "abcdef") false = true by decide +kernel)
  have hsame := h _ _ _ _ _ _ _ w₀ w [] 8 (lit "abcdef") o e hmake (by decide) hrun (by decide) (by decide) hwrite hfail
  cases hchanged.1 hsame

end QingStor
