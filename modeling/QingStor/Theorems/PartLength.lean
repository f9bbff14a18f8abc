import QingStor.Lemmas.Sends
import QingStor.Theorems.Chunking

/-!
# The length set up for a part

The number of bytes of a part goes through an `int32_t` before it is the size of the request's body. Without a cache it is a
number the caller gave as an `int32_t`. With one it is the size of the buffer, or what the buffer holds at the end, and both
survive exactly below 2^31.
-/

namespace QingStor

/-- The size set up for the body is the number of bytes `doSend` was given. -/
def Send.Whole (s : Send) : Prop := (s.body.sizeleft : Int) = s.length

namespace PartLengthAux

variable {J : JsonC} {net : Network} {w₀ w : QingStorWriter} {buffers : List (List Byte)} {sends : List Send}

theorem whole_iff {s : Send} (h0 : 0 ≤ s.length) (h1 : s.length ≤ int64Max) : s.Whole ↔ s.length < 2 ^ 31 :=
  narrowed_eq_iff h0 h1

/-- Without a cache only lengths of the caller are sent, and nothing is held. -/
theorem sends_uncached (hc : w₀.mCache = false) (hpos : w₀.mWritePos = 0) (h : Sends J net w₀ buffers w sends) :
    w.mCache = false ∧ w.mWritePos = 0 ∧ ∀ s ∈ sends, s.Whole := by
  induction h with
  | start => exact ⟨hc, hpos, fun s hs => by cases hs⟩
  | @write buffers w sends buffer fuel o _ hne hlen hwrite ih =>
    obtain ⟨hcache, hzero, hwhole⟩ := ih
    obtain ⟨hwriter, -, hsends⟩ := QingStorWriter.qingstorWrite_uncached hcache hne hwrite
    rw [hwriter, hsends]
    have hsame : (w.doSend J net buffer buffer.length).writer.mCache = w.mCache ∧
        (w.doSend J net buffer buffer.length).writer.mWritePos = w.mWritePos := by
      rcases doSend_cases J net w buffer buffer.length with hd | ⟨f, hd⟩ <;> rw [hd] <;> exact ⟨rfl, rfl⟩
    refine ⟨hsame.1.trans hcache, hsame.2.trans hzero, fun s hs => ?_⟩
    rcases List.mem_append.1 hs with hs | hs
    · exact hwhole s hs
    · rw [List.mem_singleton.1 hs]
      refine (whole_iff (by dsimp only; omega) ?_).2 (by dsimp only; exact_mod_cast hlen)
      unfold int64Max
      dsimp only
      omega

/-- What a run with a cache sends: full buffers only, and none before the buffer is full for the first time. -/
structure CachedRun (w₀ : QingStorWriter) (buffers : List (List Byte)) (w : QingStorWriter) (sends : List Send) : Prop where
  sized : w.Sized
  mCache : w.mCache = true
  mBuffSize : w.mBuffSize = w₀.mBuffSize
  full : ∀ s ∈ sends, s.length = w₀.mBuffSize
  held : sends = [] → w.mWritePos = buffers.flatten.length ∧ w.left = 0
  silent : (buffers.flatten.length : Int) < w₀.mBuffSize → sends = []

theorem sends_cached (hs : w₀.Sized) (hc : w₀.mCache = true) (hpos : w₀.mWritePos = 0) (hleft : w₀.left = 0)
    (h : Sends J net w₀ buffers w sends) : CachedRun w₀ buffers w sends := by
  induction h with
  | start => exact ⟨hs, hc, rfl, (fun s hs => by cases hs), fun _ => ⟨by rw [hpos]; rfl, hleft⟩, fun _ => rfl⟩
  | @write buffers w sends buffer fuel o _ hne _ hwrite ih =>
    obtain ⟨hsized, hcache, hsize, hfull, hheld, hsilent⟩ := ih
    obtain ⟨s, hloop, hwriter, -, hsends⟩ := QingStorWriter.qingstorWrite_cached hcache hne hwrite
    have hsent := QingStorWriter.transferLoop_sends J net hsized hloop
    rw [hwriter, hsends]
    generalize w.loopSends J net fuel buffer = more at hsent ⊢
    have htotal : ((buffers ++ [buffer]).flatten.length : Int) = buffers.flatten.length + buffer.length := by
      simp [List.flatten_append]
    refine ⟨hsent.sized, hsent.mCache.trans hcache, hsent.mBuffSize.trans hsize, ?_, fun hnil => ?_, fun hlt => ?_⟩
    · intro t ht
      rcases List.mem_append.1 ht with ht | ht
      · exact hfull t ht
      · rw [← hsize]
        exact (hsent.full t ht).1
    · obtain ⟨hbefore, hmore⟩ := List.append_eq_nil_iff.1 hnil
      have hcounted := hsent.counted (hsent.silent hmore)
      rw [hmore, (hheld hbefore).1] at hcounted
      refine ⟨?_, hsent.room (hsent.silent hmore) (Or.inl hne)⟩
      rw [htotal, ← hcounted]
      simp
    · rw [htotal] at hlt
      have hbefore := hsilent (by omega)
      have hfew := hsent.few
      rw [(hheld hbefore).1, hsize] at hfew
      rw [hbefore, List.nil_append]
      by_contra hmore
      have hone : (1 : Int) ≤ more.length := by
        have := List.length_pos_iff.2 hmore
        omega
      have hpos := hs.size
      nlinarith

/-- With a cache the lengths are whole exactly if a buffer, or all that was written, has fewer than 2^31 bytes. -/
theorem cached_iff (hs : w₀.Sized) (hc : w₀.mCache = true) (hpos : w₀.mWritePos = 0) (hleft : w₀.left = 0)
    (hmax : w₀.mBuffSize ≤ int64Max) (h : Sends J net w₀ buffers w sends) :
    (∀ s ∈ sends ++ w.flushSends, s.Whole) ↔ w₀.mBuffSize < 2 ^ 31 ∨ (buffers.flatten.length : Int) < 2 ^ 31 := by
  obtain ⟨hsized, hcache, hsize, hfull, hheld, hsilent⟩ := sends_cached hs hc hpos hleft h
  have hflush : w.flushSends = [⟨w.mBuffer.getD [], w.mWritePos⟩] := by
    unfold QingStorWriter.flushSends
    rw [if_pos hcache]
  have hcursor := hsized.cursor
  have hone := hs.size
  rw [hsize] at hcursor
  rw [hflush, List.forall_mem_append, List.forall_mem_singleton, whole_iff hcursor.1 (le_trans hcursor.2 hmax)]
  constructor
  · rintro ⟨hwhole, hlast⟩
    by_cases hnone : sends = []
    · rw [(hheld hnone).1] at hlast
      exact Or.inr hlast
    · obtain ⟨s, rest, rfl⟩ := List.exists_cons_of_ne_nil hnone
      have hlength := hfull s (List.mem_cons_self ..)
      have hs := (whole_iff (by rw [hlength]; omega) (by rw [hlength]; exact hmax)).1 (hwhole s (List.mem_cons_self ..))
      rw [hlength] at hs
      exact Or.inl hs
  · intro hor
    by_cases hsmall : w₀.mBuffSize < 2 ^ 31
    · refine ⟨fun s hmem => ?_, by dsimp only; omega⟩
      have hlength := hfull s hmem
      exact (whole_iff (by rw [hlength]; omega) (by rw [hlength]; exact hmax)).2 (by rw [hlength]; exact hsmall)
    · have hfew := hor.resolve_left hsmall
      have hnone := hsilent (by omega)
      rw [hnone]
      exact ⟨(fun s hs => by cases hs), by rw [(hheld hnone).1]; exact hfew⟩

/-- With a cache every row of writes can be made. -/
theorem exists_sends (J : JsonC) (net : Network) (hs : w₀.Sized) (hc : w₀.mCache = true) (hpos : w₀.mWritePos = 0)
    (hleft : w₀.left = 0) (buffers : List (List Byte)) (hall : ∀ b ∈ buffers, b ≠ [] ∧ b.length < 2 ^ 31) :
    ∃ w sends, Sends J net w₀ buffers w sends := by
  induction buffers using List.reverseRecOn with
  | nil => exact ⟨w₀, [], .start⟩
  | append_singleton buffers buffer ih =>
    obtain ⟨w, sends, hrun⟩ := ih (fun b hb => hall b (List.mem_append_left _ hb))
    obtain ⟨hne, hlen⟩ := hall buffer (List.mem_append_right _ (List.mem_singleton_self _))
    obtain ⟨hsized, hcache, -⟩ := sends_cached hs hc hpos hleft hrun
    obtain ⟨o, ho⟩ := (QingStorWriter.transferLoop_ends J net (buffer.length + w.left + 1) w buffer hsized).1 (by omega)
    have hwrite : qingstorWrite J net (buffer.length + w.left + 1) w buffer =
        some ⟨catching (-1) (o.result.map (fun _ => (buffer.length : Int))), o.writer⟩ := by
      unfold qingstorWrite QingStorWriter.transferData
      rw [if_neg hne, if_neg (by simp [hcache]), ho]
      rfl
    exact ⟨_, _, .write hrun hne hlen hwrite⟩

end PartLengthAux

/-- In every run of writes and the flush after it, the size set up for each part is the number of bytes of the part, exactly if
there is no cache, or the buffer has fewer than 2^31 bytes, or fewer than 2^31 bytes were written. -/
theorem part_length_iff (J : JsonC) (net : Network) (location accessKeyId secretAccessKey : Option Str) (chunkSize : Int)
    (ctx : Context) (bucket key : Str) (cache : Bool) (xs : Nat → Exchange) (w₀ w : QingStorWriter)
    (buffers : List (List Byte)) (sends : List Send)
    (hctx : qingstorInitContext location accessKeyId secretAccessKey chunkSize = .ok ⟨some ctx, none⟩)
    (hchunk : 1 ≤ chunkSize ∧ chunkSize ≤ int64Max)
    (hopen : QingStorWriter.make J ctx.mConfiguration bucket key cache xs = .ok w₀)
    (hrun : Sends J net w₀ buffers w sends) :
    (∀ s ∈ sends ++ w.flushSends, s.Whole) ↔
      cache = false ∨ chunkSize < 2 ^ 31 ∨ (buffers.flatten.length : Int) < 2 ^ 31 := by
  obtain ⟨hsize, -⟩ := ChunkingAux.initContext_cases hctx
  cases cache with
  | false =>
    obtain ⟨hc, -, hpos, -⟩ := QingStorWriter.opened_uncached hopen
    obtain ⟨-, hzero, hwhole⟩ := PartLengthAux.sends_uncached hc hpos hrun
    refine iff_of_true (fun s hs => ?_) (Or.inl rfl)
    rcases List.mem_append.1 hs with hs | hs
    · exact hwhole s hs
    · have hlength : s.length = 0 := by
        unfold QingStorWriter.flushSends at hs
        split at hs
        · rw [List.mem_singleton.1 hs]
          exact hzero
        · split at hs
          · rw [List.mem_singleton.1 hs]
            exact hzero
          · cases hs
      exact (PartLengthAux.whole_iff (by omega) (by rw [hlength]; decide)).2 (by rw [hlength]; decide)
  | true =>
    obtain ⟨hs, hc, hbuff, hpos, hleft, -⟩ := QingStorWriter.opened_cached (by omega) hopen
    rw [hsize] at hbuff
    have hiff := PartLengthAux.cached_iff hs hc hpos hleft (by rw [hbuff]; exact hchunk.2) hrun
    rw [hbuff] at hiff
    rw [hiff]
    simp

/-- A handle with a cache of a given size. -/
def Sample.cachedWriter (chunkSize : Int) : Except Fault QingStorWriter :=
  QingStorWriter.make Sample.json (contextOf chunkSize).mConfiguration (lit "b") (lit "k") true
    (fun _ => Sample.answer [] 200 [Sample.initAnswer])

/-- The opening of an upload does not look at the chunk size. -/
theorem Sample.cachedWriter_ok (chunkSize : Int) (h : 0 ≤ chunkSize) : ∃ w₀, Sample.cachedWriter chunkSize = .ok w₀ := by
  have hids : ∃ ids, initMultipartUpload Sample.json (contextOf chunkSize).mConfiguration (lit "b") (lit "k")
      (fun _ => Sample.answer [] 200 [Sample.initAnswer]) = .ok ids := ⟨(lit "u", lit "k"), rfl⟩
  obtain ⟨ids, hok⟩ := hids
  unfold Sample.cachedWriter QingStorWriter.make
  rw [hok]
  dsimp only
  unfold QingStorWriter.opened newBuffer
  rw [if_pos rfl, if_neg (by exact not_lt.2 h)]
  exact ⟨_, rfl⟩

/-- A network that stores every part. -/
def Sample.storing : Network := fun _ _ => Sample.answer [(1, 16384)] 201 []

/-- The general statement for six bytes written in chunks of four. -/
theorem part_length_sample : ∃ w₀ w sends, Sample.cachedWriter 4 = .ok w₀ ∧
    Sends Sample.json Sample.storing w₀ [lit "abcdef"] w sends ∧ ∀ s ∈ sends ++ w.flushSends, s.Whole := by
  obtain ⟨w₀, hopen⟩ := Sample.cachedWriter_ok 4 (by decide)
  obtain ⟨hs, hc, -, hpos, hleft, -⟩ := QingStorWriter.opened_cached (by decide) hopen
  obtain ⟨w, sends, hrun⟩ := PartLengthAux.exists_sends Sample.json Sample.storing hs hc hpos hleft [lit "abcdef"] (by decide)
  exact ⟨w₀, w, sends, hopen, hrun, (part_length_iff _ _ _ _ _ 4 (contextOf 4) _ _ true _ w₀ w _ sends
    (initContext_contextOf 4) (by decide) hopen hrun).2 (Or.inr (Or.inl (by decide)))⟩

/-- Chunks of 2^31 bytes are accepted, and after two writes of 2^30 bytes the length of the part is not the one set up. -/
theorem part_length_false :
    ¬ ∀ (J : JsonC) (net : Network) (location accessKeyId secretAccessKey : Option Str) (chunkSize : Int) (ctx : Context)
      (bucket key : Str) (cache : Bool) (xs : Nat → Exchange) (w₀ w : QingStorWriter) (buffers : List (List Byte))
      (sends : List Send),
      qingstorInitContext location accessKeyId secretAccessKey chunkSize = .ok ⟨some ctx, none⟩ →
      1 ≤ chunkSize ∧ chunkSize ≤ int64Max → QingStorWriter.make J ctx.mConfiguration bucket key cache xs = .ok w₀ →
      Sends J net w₀ buffers w sends → ∀ s ∈ sends ++ w.flushSends, s.Whole := by
  intro h
  obtain ⟨w₀, hopen⟩ := Sample.cachedWriter_ok (2 ^ 31) (by decide)
  obtain ⟨hs, hc, hbuff, hpos, hleft, -⟩ := QingStorWriter.opened_cached (by decide) hopen
  have hsize : w₀.mBuffSize = 2 ^ 31 := hbuff
  have hlength : ∀ b ∈ [List.replicate (2 ^ 30) (0 : Byte), List.replicate (2 ^ 30) 0], b ≠ [] ∧ b.length < 2 ^ 31 := by
    intro b hb
    simp only [List.mem_cons, List.not_mem_nil, or_false, or_self] at hb
    rw [hb, ← List.length_pos_iff, List.length_replicate]
    decide
  obtain ⟨w, sends, hrun⟩ := PartLengthAux.exists_sends Sample.json Sample.storing hs hc hpos hleft _ hlength
  have hwhole := h _ _ _ _ _ (2 ^ 31) (contextOf (2 ^ 31)) _ _ true _ w₀ w _ sends (initContext_contextOf _) (by decide) hopen hrun
  rcases (PartLengthAux.cached_iff hs hc hpos hleft (by rw [hsize]; decide) hrun).1 hwhole with hlt | hlt
  · rw [hsize] at hlt
    exact absurd hlt (by decide)
  · rw [List.flatten_cons, List.flatten_cons, List.flatten_nil, List.append_nil, List.length_append, List.length_replicate] at hlt
    exact absurd hlt (by decide)

end QingStor
