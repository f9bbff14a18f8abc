import QingStor.Lemmas.Attempt
import QingStor.Lemmas.Opened
import QingStor.Theorems.Chunking
import QingStor.Theorems.Download

/-!
# The range of an opened object, and its chunks in the fetchers

The end of a range is taken as it was given, and the length of a chunk is an `int64_t` that the constructor of a fetcher takes as
an `int`.
-/

namespace QingStor

variable {β : Type*}

/-! ## Inside the object -/

/-- A range of an object: it is empty because the object is, or its ends are bytes of the object. -/
def RangeInfo.InObject (range : RangeInfo) (size : Int) : Prop :=
  range.stop < range.start ∧ size = 0 ∨ 0 ≤ range.start ∧ range.start ≤ range.stop ∧ range.stop ≤ size - 1

/-- A fetcher asks for bytes of the object only. Without a length it reads from its offset to the end of the object. -/
def HTTPFetcher.InObject (f : HTTPFetcher β) (size : Int) : Prop := 0 ≤ f.mOffset ∧ f.mOffset + f.mLen ≤ size

/-- The length of a fetcher is the length it was made with, or less. -/
theorem toInt32_le {n : Int} (h : 0 ≤ n) : toInt32 n ≤ n := by
  unfold toInt32 Int.bmod
  norm_num
  split <;> omega

/-- The fetchers of a range that is inside the object are inside it. -/
theorem fetchers_inObject {J : JsonC} {ctx : Context} {bucket key : Option Str} {rangeStart rangeEnd : Int} {xs : Nat → Exchange}
    {fuel : Nat} {reader : QingStorReader β} {e : Option Errno}
    (hopen : qingstorGetObject J ctx bucket key rangeStart rangeEnd xs fuel = some (.ok ⟨some reader, e⟩))
    {res : HeadObjectResult} (hres : ctx.headObject J (bucket.getD []) (key.getD []) xs = .ok res)
    (hsize : 0 ≤ res.contentLength) (hend : rangeEnd < res.contentLength) :
    ∀ f ∈ reader.mPipeline.mPendingFetchers, f.InObject res.contentLength := by
  intro f hf
  obtain ⟨hcheck, res', chunks, hres', hchunks, hpipeline⟩ := getObject_ok hopen
  rw [hres] at hres'
  cases hres'
  obtain ⟨h0, hle⟩ := openedRange_le hsize hcheck
  have hstop : (openedRange res.contentLength rangeStart rangeEnd).stop ≤ res.contentLength - 1 := by
    unfold openedRange
    dsimp only
    split <;> omega
  rw [hpipeline] at hf
  rcases made_addChunks hf with hf | ⟨this, c, hc, rfl⟩
  · cases hf
  · obtain ⟨h1, h2, h3, _⟩ := chunkLoop_inside hle hchunks c hc
    have hlen := toInt32_le h2
    refine ⟨?_, ?_⟩ <;> unfold HTTPFetcher.make <;> dsimp only <;> omega

/-- An opened range stays inside the object exactly when its end was given inside the object. -/
theorem opened_range_iff (J : JsonC) (ctx : Context) (bucket key : Option Str) (rangeStart rangeEnd : Int) (xs : Nat → Exchange)
    (res : HeadObjectResult) (hres : ctx.headObject J (bucket.getD []) (key.getD []) xs = .ok res)
    (hsize : 0 ≤ res.contentLength) (hcheck : rangeStart ≤ rangeEnd) :
    ((openedRange res.contentLength rangeStart rangeEnd).InObject res.contentLength ∧
        ∀ (fuel : Nat) (reader : QingStorReader β) (e : Option Errno),
          qingstorGetObject J ctx bucket key rangeStart rangeEnd xs fuel = some (.ok ⟨some reader, e⟩) →
            ∀ f ∈ reader.mPipeline.mPendingFetchers, f.InObject res.contentLength) ↔
      rangeEnd < res.contentLength := by
  constructor
  · rintro ⟨hin, _⟩
    unfold RangeInfo.InObject openedRange at hin
    dsimp only at hin
    split at hin <;> split at hin <;> omega
  · intro hend
    refine ⟨?_, fun fuel reader e hopen => fetchers_inObject hopen hres hsize hend⟩
    unfold RangeInfo.InObject openedRange
    dsimp only
    split <;> split <;> omega

namespace OpenedRangeAux

/-- A context with chunks of two bytes. -/
def context : Context := ⟨.ofArguments (lit "pek3a") (lit "id") (lit "secret") 2⟩

/-- The headers of an object of three bytes. -/
theorem three_bytes : ∃ res, context.headObject DownloadAux.headJson (lit "b") (lit "k") (fun _ => DownloadAux.headAnswer) =
    .ok res ∧ res.contentLength = 3 := by
  have h : (context.headObject DownloadAux.headJson (lit "b") (lit "k") (fun _ => DownloadAux.headAnswer)).map
      (·.contentLength) = .ok 3 := by decide +kernel
  cases hr : context.headObject DownloadAux.headJson (lit "b") (lit "k") (fun _ => DownloadAux.headAnswer) with
  | error f =>
    rw [hr] at h
    cases h
  | ok res =>
    rw [hr] at h
    exact ⟨res, rfl, by injection h⟩

end OpenedRangeAux

theorem opened_range_iff_three :
    ∃ res : HeadObjectResult, (openedRange res.contentLength 0 2).InObject res.contentLength ∧
      ∀ (fuel : Nat) (reader : QingStorReader Byte) (e : Option Errno),
        qingstorGetObject DownloadAux.headJson OpenedRangeAux.context (some (lit "b"))
            (some (lit "k")) 0 2 (fun _ => DownloadAux.headAnswer) fuel = some (.ok ⟨some reader, e⟩) →
          ∀ f ∈ reader.mPipeline.mPendingFetchers, f.InObject res.contentLength := by
  obtain ⟨res, hres, hsize⟩ := OpenedRangeAux.three_bytes
  exact ⟨res, (opened_range_iff DownloadAux.headJson OpenedRangeAux.context (some (lit "b"))
    (some (lit "k")) 0 2 (fun _ => DownloadAux.headAnswer) res hres (by rw [hsize]; decide) (by decide)).2
      (by rw [hsize]; decide)⟩

/-- An opened range does not stay inside the object: of three bytes, the bytes 0 to 5 are asked for. -/
theorem opened_range_false :
    ¬ ∀ (J : JsonC) (ctx : Context) (bucket key : Option Str) (rangeStart rangeEnd : Int) (xs : Nat → Exchange)
      (res : HeadObjectResult), ctx.headObject J (bucket.getD []) (key.getD []) xs = .ok res → 0 ≤ res.contentLength →
      rangeStart ≤ rangeEnd → (openedRange res.contentLength rangeStart rangeEnd).InObject res.contentLength := by
  intro h
  obtain ⟨res, hres, hsize⟩ := OpenedRangeAux.three_bytes
  have hin := h _ _ (some (lit "b")) (some (lit "k")) 0 5 _ res hres (by rw [hsize]; decide) (by decide)
  rw [hsize] at hin
  revert hin
  unfold RangeInfo.InObject
  decide

/-! ## The plan in the fetchers -/

/-- The bytes of a chunk. -/
def chunkBytes (c : Int × Int) : List Int := (List.range c.2.toNat).map (fun i : Nat => c.1 + i)

/-- A chunk followed by the chunk after it. -/
theorem chunkBytes_append (start : Int) {m n : Int} (hm : 0 ≤ m) (hn : 0 ≤ n) :
    chunkBytes (start, m) ++ chunkBytes (start + m, n) = chunkBytes (start, m + n) := by
  unfold chunkBytes
  dsimp only
  rw [show (m + n).toNat = m.toNat + n.toNat by omega, List.range_add, List.map_append, List.map_map]
  congr 1
  refine List.map_congr_left (fun i _ => ?_)
  simp only [Function.comp_apply]
  omega

/-- A plan asks for each byte of its range once, in order. -/
theorem Plan.bytes {most stop offset : Int} {chunks : List (Int × Int)} (h : Plan most stop offset chunks) :
    chunks.flatMap chunkBytes = chunkBytes (offset, stop + 1 - offset) := by
  induction h with
  | done => simp [chunkBytes]
  | @chunk offset len rest h1 _ hrest ih =>
    have hle := hrest.le
    rw [List.flatMap_cons, ih, chunkBytes_append offset (by omega) (by omega)]
    congr 2
    ring

/-- What the fields of a fetcher keep of a chunk: its length as an `int`. -/
def narrow (c : Int × Int) : Int × Int := (c.1, toInt32 c.2)

/-- Two plans of the same chunks, one of them narrowed, start at the same offset. -/
theorem Plan.narrow_start {most most' stop a b : Int} {chunks : List (Int × Int)} (h : Plan most stop a chunks)
    (h' : Plan most' stop b (chunks.map narrow)) : a = b := by
  cases h with
  | done =>
    cases h'
    rfl
  | chunk _ _ _ =>
    cases h'
    rfl

/-- A plan is still one in the fields of the fetchers exactly when its lengths are numbers of an `int`. -/
theorem Plan.narrow_iff {most stop offset : Int} {chunks : List (Int × Int)} (h : Plan most stop offset chunks) :
    Plan most stop offset (chunks.map narrow) ↔ ∀ c ∈ chunks, c.2 < 2 ^ 31 := by
  induction h with
  | done => exact ⟨(fun _ _ hc => by cases hc), fun _ => .done⟩
  | @chunk offset len rest h1 h2 hrest ih =>
    constructor
    · rintro (_ | ⟨_, _, hnarrow⟩)
      have hlen : offset + len = offset + toInt32 len := hrest.narrow_start hnarrow
      have hbound := (toInt32_bounds len).2
      replace hnarrow : Plan most stop (offset + len) (rest.map narrow) := by
        rw [hlen]
        exact hnarrow
      intro c hc
      rcases List.mem_cons.1 hc with rfl | hc
      · dsimp only
        omega
      · exact ih.1 hnarrow c hc
    · intro hall
      have hlen : toInt32 len = len := toInt32_of_bounds (by omega) (hall _ (List.mem_cons_self ..))
      rw [List.map_cons, narrow, hlen]
      exact .chunk h1 h2 (ih.2 (fun c hc => hall c (List.mem_cons_of_mem _ hc)))

theorem Plan.le_most {most stop offset : Int} {chunks : List (Int × Int)} (h : Plan most stop offset chunks) :
    ∀ c ∈ chunks, c.2 ≤ most := by
  induction h with
  | done => exact fun _ hc => by cases hc
  | chunk _ h2 _ ih =>
    intro c hc
    rcases List.mem_cons.1 hc with rfl | hc
    · exact h2
    · exact ih c hc

/-- The longest chunk a configuration plans for a range. -/
def Configuration.mostPlanned (cfg : Configuration) (start stop : Int) : Int :=
  if cfg.mNConnections > 1 then cfg.mChunkSize else stop - start + 1

/-- The chunks of a configuration are a plan, and the first is as long as the plan has them or is the whole range. -/
theorem chunkLoop_plan {cfg : Configuration} (hchunk : 1 ≤ cfg.mChunkSize) {start stop : Int} (hle : start ≤ stop) {fuel : Nat}
    {chunks : List (Int × Int)} (hok : chunkLoop cfg.chunking.1 stop fuel start = some (.ok chunks)) :
    Plan (cfg.mostPlanned start stop) stop start chunks ∧
      ∃ c ∈ chunks, c.2 = cfg.mostPlanned start stop ∨ c.2 = stop - start + 1 := by
  obtain ⟨fuel, rfl⟩ : ∃ n, fuel = n + 1 := by
    cases fuel with
    | zero => cases hok
    | succ n => exact ⟨n, rfl⟩
  unfold Configuration.mostPlanned
  rw [cfg.chunking_fst] at hok
  by_cases hn : cfg.mNConnections > 1
  · rw [if_pos hn] at hok ⊢
    refine ⟨(chunkLoop_ok hchunk hle hok).2.2, ?_⟩
    obtain ⟨len, hlen, _, _, hor⟩ := chunkLoop_succ_ok hok
    refine ⟨(start, len), ?_, ?_⟩
    · rcases hor with ⟨_, rfl⟩ | ⟨_, rest, rfl, _⟩ <;> simp
    · obtain ⟨_, _, ⟨_, rfl⟩ | ⟨_, rfl⟩⟩ := chunkLen_ok (by omega) hlen
      · exact Or.inl rfl
      · exact Or.inr rfl
  · rw [if_neg hn] at hok ⊢
    obtain ⟨len, hlen, _, _, hor⟩ := chunkLoop_succ_ok hok
    have hwhole : len = stop - start + 1 := chunkLen_whole hlen
    obtain ⟨_, rfl⟩ := hor.resolve_right (by omega)
    refine ⟨.chunk (by omega) (by omega) ?_, (start, len), by simp, Or.inr hwhole⟩
    rw [show start + len = stop + 1 by omega]
    exact .done

/-- The pairs of offset and length in the fetchers cut the range into chunks, and ask for each byte of it once, in order. -/
structure Partitions (most start stop : Int) (pairs : List (Int × Int)) : Prop where
  plan : Plan most stop start pairs
  bytes : pairs.flatMap chunkBytes = chunkBytes (start, stop + 1 - start)

/-- The fetchers of a configuration cut the range exactly when no chunk of it is longer than an `int`. -/
theorem setupPipeline_partitions {cfg : Configuration} (bucket key : Str) (size : Int) {start stop : Int}
    (hchunk : 1 ≤ cfg.mChunkSize) (hle : start ≤ stop) :
    (∃ (fuel : Nat) (p : DownloadPipeline β),
        setupPipeline cfg bucket ⟨key, size, ⟨start, stop⟩⟩ fuel = some (.ok p) ∧
          Partitions (cfg.mostPlanned start stop) start stop (p.mPendingFetchers.map (fun f => (f.mOffset, f.mLen)))) ↔
      ∃ fuel chunks, chunkLoop cfg.chunking.1 stop fuel start = some (.ok chunks) ∧ ∀ c ∈ chunks, c.2 < 2 ^ 31 := by
  constructor
  · rintro ⟨fuel, p, hp, hparts⟩
    unfold setupPipeline at hp
    rw [Option.map_eq_some_iff] at hp
    obtain ⟨r, hr, hp⟩ := hp
    cases r with
    | error f => cases hp
    | ok chunks =>
      cases hp
      have hplan := hparts.plan
      rw [pending_addChunks] at hplan
      exact ⟨fuel, chunks, hr, (chunkLoop_plan hchunk hle hr).1.narrow_iff.1 hplan⟩
  · rintro ⟨fuel, chunks, hok, hshort⟩
    refine ⟨fuel, addChunks cfg bucket ⟨key, size, ⟨start, stop⟩⟩ (.make cfg.mNConnections) chunks, ?_, ?_⟩
    · unfold setupPipeline
      dsimp only
      rw [hok]
      rfl
    · have hplan := (chunkLoop_plan hchunk hle hok).1.narrow_iff.2 hshort
      rw [pending_addChunks]
      exact ⟨hplan, hplan.bytes⟩

/-- No chunk is longer than an `int` when the longest that is planned or the whole range is not. -/
theorem chunks_short_iff {cfg : Configuration} (hchunk : 1 ≤ cfg.mChunkSize) {start stop : Int} (hle : start ≤ stop) {fuel : Nat}
    {chunks : List (Int × Int)} (hok : chunkLoop cfg.chunking.1 stop fuel start = some (.ok chunks)) :
    (∀ c ∈ chunks, c.2 < 2 ^ 31) ↔ cfg.mostPlanned start stop < 2 ^ 31 ∨ stop - start + 1 < 2 ^ 31 := by
  obtain ⟨hplan, c, hc, hlen⟩ := chunkLoop_plan hchunk hle hok
  constructor
  · intro hall
    have hlt := hall c hc
    omega
  · intro hor d hd
    have hin := chunkLoop_inside (by omega) hok d hd
    have hmost := hplan.le_most d hd
    omega

/-- The fetchers `setupPipeline` adds cut the range exactly when its sums are 64-bit numbers and no chunk is longer than an `int`:
with several connections the chunk size or the range is shorter than 2 GiB, with one the range is. -/
theorem chunk_plan_iff (cfg : Configuration) (bucket key : Str) (size start stop : Int) (hchunk : 1 ≤ cfg.mChunkSize)
    (h0 : 0 ≤ start) (hle : start ≤ stop) :
    (∃ (fuel : Nat) (p : DownloadPipeline β),
        setupPipeline cfg bucket ⟨key, size, ⟨start, stop⟩⟩ fuel = some (.ok p) ∧
          Partitions (cfg.mostPlanned start stop) start stop (p.mPendingFetchers.map (fun f => (f.mOffset, f.mLen)))) ↔
      if cfg.mNConnections > 1 then
        planEnd cfg.mChunkSize start stop ≤ int64Max ∧ (cfg.mChunkSize < 2 ^ 31 ∨ stop - start + 1 < 2 ^ 31)
      else stop < int64Max ∧ stop - start + 1 < 2 ^ 31 := by
  rw [setupPipeline_partitions bucket key size hchunk hle]
  have hends := @ChunkingAux.chunkLoop_iff cfg.chunking.1 start stop h0 hle
  rw [cfg.chunking_fst] at hends ⊢
  constructor
  · rintro ⟨fuel, chunks, hok, hall⟩
    rw [← cfg.chunking_fst] at hok
    have hlens := (chunks_short_iff hchunk hle hok).1 hall
    obtain ⟨_, c, hc, hlen⟩ := chunkLoop_plan hchunk hle hok
    obtain ⟨h1, _, _, h4⟩ := chunkLoop_inside (by omega) hok c hc
    rw [cfg.chunking_fst] at hok
    unfold Configuration.mostPlanned at hlens hlen
    by_cases hn : cfg.mNConnections > 1
    · rw [if_pos hn] at hok hlens ⊢
      exact ⟨(chunkLoop_ok hchunk hle hok).1, hlens⟩
    · rw [if_neg hn] at hlens hlen ⊢
      omega
  · intro hcond
    have hloop : ∃ fuel chunks, chunkLoop cfg.chunking.1 stop fuel start = some (.ok chunks) := by
      rw [cfg.chunking_fst]
      by_cases hn : cfg.mNConnections > 1
      · rw [if_pos hn] at hcond hends ⊢
        obtain ⟨fuel, chunks, hok, _⟩ := hends.2 (Or.inr ⟨hchunk, hcond.1⟩)
        exact ⟨fuel, chunks, hok⟩
      · rw [if_neg hn] at hcond hends ⊢
        obtain ⟨fuel, chunks, hok, _⟩ := hends.2 (Or.inl ⟨rfl, hcond.1⟩)
        exact ⟨fuel, chunks, hok⟩
    obtain ⟨fuel, chunks, hok⟩ := hloop
    have hiff := chunks_short_iff hchunk hle hok
    rw [cfg.chunking_fst] at hok
    refine ⟨fuel, chunks, hok, hiff.2 ?_⟩
    unfold Configuration.mostPlanned
    by_cases hn : cfg.mNConnections > 1
    · rw [if_pos hn] at hcond ⊢
      exact hcond.2
    · rw [if_neg hn] at hcond
      exact Or.inr hcond.2

theorem chunk_plan_iff_ten :
    ∃ (fuel : Nat) (p : DownloadPipeline Byte),
      setupPipeline (contextOf 4).mConfiguration (lit "b") ⟨lit "k", 10, ⟨0, 9⟩⟩ fuel = some (.ok p) ∧
        Partitions ((contextOf 4).mConfiguration.mostPlanned 0 9) 0 9 (p.mPendingFetchers.map (fun f => (f.mOffset, f.mLen))) :=
  (chunk_plan_iff (contextOf 4).mConfiguration (lit "b") (lit "k") 10 0 9 (by decide) (by decide) (by decide)).2 (by decide)

/-- The fetchers do not always cut the range: with one connection, a range of 2 GiB has a length that is negative as an `int`. -/
theorem chunk_plan_false :
    ¬ ∀ (cfg : Configuration) (bucket key : Str) (size start stop : Int), 1 ≤ cfg.mChunkSize → 1 ≤ cfg.mNConnections →
      cfg.mNConnections ≤ 8 → 0 ≤ start → start ≤ stop → stop ≤ int64Max →
      ∃ (fuel : Nat) (p : DownloadPipeline Byte), setupPipeline cfg bucket ⟨key, size, ⟨start, stop⟩⟩ fuel = some (.ok p) ∧
        Partitions (cfg.mostPlanned start stop) start stop (p.mPendingFetchers.map (fun f => (f.mOffset, f.mLen))) := by
  intro h
  have hparts := h { (contextOf 4).mConfiguration with mNConnections := 1 } (lit "b") (lit "k") (2 ^ 31) 0 (2 ^ 31 - 1)
    (by decide) (by decide) (by decide) (by decide) (by decide) (by decide)
  obtain ⟨fuel, chunks, hok, hall⟩ := (setupPipeline_partitions _ _ _ (by decide) (by decide)).1 hparts
  exact absurd ((chunks_short_iff (by decide) (by decide) hok).1 hall) (by decide)

end QingStor
