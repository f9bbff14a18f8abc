import QingStor.Lemmas.Chunks
import QingStor.Lemmas.Writer
import QingStor.Lemmas.Requests
import QingStor.Api

/-!
# The two loops over chunks

`qingstorInitContext` takes any chunk size. The loop of `setupPipeline` ends for the sizes that move the offset on without leaving
the 64-bit range, and for the value -1, which it takes for the absence of chunks; for these sizes the loops of `transferData` end
too.
-/

namespace QingStor

/-- The loop of `setupPipeline` ends, with a fetcher for each chunk and no more chunks than bytes. -/
def ReadEnds (ctx : Context) (start stop : Int) : Prop :=
  ∀ (bucket key : Str) (size : Int), ∃ (fuel : Nat) (p : DownloadPipeline Byte),
    setupPipeline ctx.mConfiguration bucket ⟨key, size, ⟨start, stop⟩⟩ fuel = some (.ok p) ∧
      (p.created : Int) ≤ stop - start + 1

/-- The loops of `transferData` end, with no more parts than bytes, on every handle opened with the context and after every run
of successful writes. -/
def WriteEnds (ctx : Context) : Prop :=
  ∀ (J : JsonC) (net : Network) (bucket key : Str) (cache : Bool) (xs : Nat → Exchange) (w₀ w : QingStorWriter)
    (calls : List (List Byte × Bool)) (buffer : List Byte),
    QingStorWriter.make J ctx.mConfiguration bucket key cache xs = .ok w₀ → Writes J net w₀ calls w →
    (∀ c ∈ calls, c.2 = true) → buffer ≠ [] → buffer.length < 2 ^ 31 →
    ∃ fuel o, w.transferData J net fuel buffer = some o ∧ o.writer.calls.length ≤ w.calls.length + buffer.length

namespace ChunkingAux

/-- What `qingstorInitContext` makes of its parameters. -/
theorem initContext_cases {location accessKeyId secretAccessKey : Option Str} {chunkSize : Int} {ctx : Context}
    {e : Option Errno} (h : qingstorInitContext location accessKeyId secretAccessKey chunkSize = .ok ⟨some ctx, e⟩) :
    ctx.mConfiguration.mChunkSize = chunkSize ∧ ctx.mConfiguration.mNConnections = 3 := by
  unfold qingstorInitContext at h
  split at h
  · cases h
  · split at h
    · cases h
    · split at h
      · cases h
      · cases h
        exact ⟨rfl, rfl⟩

theorem created_addChunks {β : Type*} (cfg : Configuration) (bucket : Str) (object : ObjectInfo) (chunks : List (Int × Int))
    (p : DownloadPipeline β) : (addChunks cfg bucket object p chunks).created = p.created + chunks.length := by
  unfold addChunks
  induction chunks generalizing p with
  | nil => rfl
  | cons c cs ih =>
    rw [List.foldl_cons, ih, List.length_cons, DownloadPipeline.add]
    dsimp only
    omega

/-- When the loop of `setupPipeline` ends. -/
theorem readEnds_iff {ctx : Context} (hn : ctx.mConfiguration.mNConnections = 3) (start stop : Int) :
    ReadEnds ctx start stop ↔ ∃ fuel chunks, chunkLoop ctx.mConfiguration.mChunkSize stop fuel start = some (.ok chunks) ∧
      (chunks.length : Int) ≤ stop - start + 1 := by
  have hchunk : ctx.mConfiguration.chunking.1 = ctx.mConfiguration.mChunkSize := by
    rw [Configuration.chunking_fst, hn, if_pos (by decide)]
  unfold ReadEnds setupPipeline
  simp only [hchunk]
  constructor
  · intro h
    obtain ⟨fuel, p, hp, hcount⟩ := h [] [] 0
    rw [Option.map_eq_some_iff] at hp
    obtain ⟨r, hr, hmap⟩ := hp
    cases r with
    | error f => cases hmap
    | ok chunks =>
      cases hmap
      rw [created_addChunks, DownloadPipeline.make] at hcount
      exact ⟨fuel, chunks, hr, by simpa using hcount⟩
  · rintro ⟨fuel, chunks, hok, hcount⟩ bucket key size
    refine ⟨fuel, _, by rw [hok]; rfl, ?_⟩
    rw [created_addChunks, DownloadPipeline.make]
    simpa using hcount

/-- The loop with the value that stands for no chunks makes one turn. -/
theorem chunkLoop_whole {stop start : Int} (h0 : 0 ≤ start) (h1 : start ≤ stop) :
    (∃ fuel chunks, chunkLoop (-1) stop fuel start = some (.ok chunks) ∧ (chunks.length : Int) ≤ stop - start + 1) ↔
      stop < int64Max := by
  have hmin : int64Min ≤ 0 := by decide
  constructor
  · rintro ⟨fuel, chunks, hok, _⟩
    cases fuel with
    | zero => cases hok
    | succ fuel =>
      obtain ⟨len, hlen, _, hmax, _⟩ := chunkLoop_succ_ok hok
      have hwhole := chunkLen_whole hlen
      omega
  · intro h
    have hlen : chunkLen (-1) stop start = .ok (stop - start + 1) := chunkLen_last (Or.inl rfl) (by omega) (by omega) rfl
    refine ⟨1, _, chunkLoop_of_last hlen (by omega) (by omega) (by omega), ?_⟩
    rw [List.length_singleton]
    omega

/-- The chunk sizes for which the loop of `setupPipeline` ends. -/
theorem chunkLoop_iff {chunkSize start stop : Int} (h0 : 0 ≤ start) (h1 : start ≤ stop) :
    (∃ fuel chunks, chunkLoop chunkSize stop fuel start = some (.ok chunks) ∧ (chunks.length : Int) ≤ stop - start + 1) ↔
      chunkSize = -1 ∧ stop < int64Max ∨ 1 ≤ chunkSize ∧ planEnd chunkSize start stop ≤ int64Max := by
  by_cases hwhole : chunkSize = -1
  · subst hwhole
    rw [chunkLoop_whole h0 h1]
    constructor
    · exact fun h => Or.inl ⟨rfl, h⟩
    · rintro (h | h)
      · exact h.2
      · omega
  · by_cases hpos : 1 ≤ chunkSize
    · constructor
      · rintro ⟨fuel, chunks, hok, _⟩
        exact Or.inr ⟨hpos, (chunkLoop_ok hpos h1 hok).1⟩
      · rintro (h | h)
        · exact absurd h.1 hwhole
        · have hnn : 0 ≤ (stop - start) / chunkSize := Int.ediv_nonneg (by omega) (by omega)
          obtain ⟨chunks, hok⟩ := chunkLoop_ends hpos ((stop - start) / chunkSize).toNat h0 h1 (by omega) h.2
          refine ⟨_, chunks, hok, ?_⟩
          obtain ⟨_, hcount, _⟩ := chunkLoop_ok hpos h1 hok
          have hle : (stop - start) / chunkSize ≤ stop - start := Int.ediv_le_self _ (by omega)
          omega
    · constructor
      · rintro ⟨fuel, chunks, hok, _⟩
        exact absurd hok (chunkLoop_no_progress (by omega) hwhole fuel h1 chunks)
      · rintro (h | h)
        · exact absurd h.1 hwhole
        · exact absurd h.1 hpos

/-- What the loops of `transferData` need of a writer with a cache: a buffer, with room in it. -/
def HasRoom (w : QingStorWriter) : Prop := w.mCache = true → w.Sized ∧ w.left = 0

/-- A new handle has room when the chunk size is positive, or there is no cache to be had. -/
theorem hasRoom_make {J : JsonC} {cfg : Configuration} {bucket key : Str} {cache : Bool} {xs : Nat → Exchange}
    {w : QingStorWriter} (hchunk : cfg.mChunkSize ≠ 0) (h : QingStorWriter.make J cfg bucket key cache xs = .ok w) :
    HasRoom w := by
  unfold QingStorWriter.make at h
  split at h
  · cases h
  · unfold QingStorWriter.opened at h
    cases cache with
    | false =>
      cases h
      exact fun hc => by cases hc
    | true =>
      unfold newBuffer at h
      rw [if_pos rfl] at h
      by_cases hneg : cfg.mChunkSize < 0
      · rw [if_pos hneg] at h
        cases h
      · rw [if_neg hneg] at h
        cases h
        refine fun _ => ⟨⟨by dsimp only; omega, ⟨le_rfl, by dsimp only; omega⟩, _, rfl, ?_⟩, ?_⟩
        · rw [List.length_replicate]
          dsimp only
          omega
        · unfold QingStorWriter.left
          rw [if_neg (by dsimp only; omega)]

/-- A call of `transferData` on a writer with room ends, and leaves room when it does not throw. -/
theorem transferData_ends {w : QingStorWriter} (J : JsonC) (net : Network) {buffer : List Byte} (hw : HasRoom w)
    (hne : buffer ≠ []) :
    (∃ fuel o, w.transferData J net fuel buffer = some o ∧ o.writer.calls.length ≤ w.calls.length + buffer.length) ∧
      ∀ fuel o, w.transferData J net fuel buffer = some o → o.result = .ok () → HasRoom o.writer := by
  have hlen : 0 < buffer.length := List.length_pos_iff.2 hne
  unfold QingStorWriter.transferData
  cases hc : w.mCache with
  | false =>
    simp only [Bool.false_eq_true, not_false_eq_true, if_true]
    have hcases := doSend_cases J net w buffer buffer.length
    refine ⟨⟨0, _, rfl, ?_⟩, fun fuel o ho _ hcache => ?_⟩
    · rcases hcases with h | ⟨f, h⟩ <;> rw [h] <;> simp only [List.length_append, List.length_singleton] <;> omega
    · cases ho
      rcases hcases with h | ⟨f, h⟩ <;> rw [h] at hcache <;> rw [hc] at hcache <;> cases hcache
  | true =>
    simp only [not_true_eq_false, if_false]
    obtain ⟨hs, hleft⟩ := hw hc
    obtain ⟨hex, _⟩ := QingStorWriter.transferLoop_ends J net (buffer.length + 1) w buffer hs
    obtain ⟨o, ho⟩ := hex (by omega)
    refine ⟨⟨_, o, ho, ?_⟩, fun fuel o' ho' hok _ => ?_⟩
    · obtain ⟨_, _, hcount, _⟩ := (QingStorWriter.transferLoop_ends J net _ w buffer hs).2 o ho
      omega
    · obtain ⟨hs', _, _, hroom⟩ := (QingStorWriter.transferLoop_ends J net fuel w buffer hs).2 o' ho'
      exact ⟨hs', hroom hok hne⟩

/-- Every state a run of successful writes reaches has room. -/
theorem hasRoom_writes {J : JsonC} {net : Network} {w₀ w : QingStorWriter} {calls : List (List Byte × Bool)}
    (h₀ : HasRoom w₀) (h : Writes J net w₀ calls w) (hok : ∀ c ∈ calls, c.2 = true) : HasRoom w := by
  induction h with
  | start => exact h₀
  | write hrun hne _ hwrite ih =>
    have hroom := ih (fun c hc => hok c (List.mem_append_left _ hc))
    have hsucc := hok _ (List.mem_append_right _ (List.mem_singleton.2 rfl))
    obtain ⟨s, hs, hwriter, hsucceeded⟩ := QingStorWriter.qingstorWrite_step hne hwrite
    rw [hwriter]
    exact (transferData_ends J net hroom hne).2 _ s hs (hsucceeded.1 hsucc)

end ChunkingAux

/-- Exactly when the chunking loops end: for the chunk size that stands for none if the range ends below the largest 64-bit
number, and for a positive one if the end of a whole last chunk does not leave the 64-bit range. -/
theorem chunking_ends_iff (location accessKeyId secretAccessKey : Option Str) (chunkSize start stop : Int) (ctx : Context)
    (hctx : qingstorInitContext location accessKeyId secretAccessKey chunkSize = .ok ⟨some ctx, none⟩)
    (h0 : 0 ≤ start) (h1 : start ≤ stop) :
    ReadEnds ctx start stop ∧ WriteEnds ctx ↔
      chunkSize = -1 ∧ stop < int64Max ∨ 1 ≤ chunkSize ∧ planEnd chunkSize start stop ≤ int64Max := by
  obtain ⟨hchunk, hn⟩ := ChunkingAux.initContext_cases hctx
  rw [ChunkingAux.readEnds_iff hn, hchunk, ChunkingAux.chunkLoop_iff h0 h1]
  constructor
  · exact fun h => h.1
  · intro h
    refine ⟨h, ?_⟩
    intro J net bucket key cache xs w₀ w calls buffer hmake hrun hok hne _
    have hne0 : ctx.mConfiguration.mChunkSize ≠ 0 := by
      rw [hchunk]
      rcases h with h | h <;> omega
    exact (ChunkingAux.transferData_ends J net
      (ChunkingAux.hasRoom_writes (ChunkingAux.hasRoom_make hne0 hmake) hrun hok) hne).1

/-- A context made with a chunk size, and names for everything else. -/
def contextOf (chunkSize : Int) : Context := ⟨.ofArguments (lit "pek3a") (lit "id") (lit "secret") chunkSize⟩

theorem initContext_contextOf (chunkSize : Int) :
    qingstorInitContext (some (lit "pek3a")) (some (lit "id")) (some (lit "secret")) chunkSize =
      .ok ⟨some (contextOf chunkSize), none⟩ := rfl

/-- The general statement for chunks of four bytes and a range of ten. -/
theorem chunking_ends_four : ReadEnds (contextOf 4) 0 9 ∧ WriteEnds (contextOf 4) :=
  (chunking_ends_iff _ _ _ 4 0 9 (contextOf 4) (initContext_contextOf 4) (by decide) (by decide)).2 (by decide)

/-- The chunking loops do not end for every context: the chunk size 0 is accepted, and the read loop never moves on. -/
theorem chunking_ends_false :
    ¬ ∀ (location accessKeyId secretAccessKey : Option Str) (chunkSize start stop : Int) (ctx : Context),
      qingstorInitContext location accessKeyId secretAccessKey chunkSize = .ok ⟨some ctx, none⟩ → 0 ≤ start → start ≤ stop →
      ReadEnds ctx start stop ∧ WriteEnds ctx := by
  intro h
  obtain ⟨hread, _⟩ := h _ _ _ 0 0 9 (contextOf 0) (initContext_contextOf 0) (by decide) (by decide)
  obtain ⟨fuel, chunks, hok, _⟩ := (ChunkingAux.readEnds_iff rfl 0 9).1 hread
  exact chunkLoop_no_progress le_rfl (by decide) fuel (by decide) chunks hok

end QingStor
