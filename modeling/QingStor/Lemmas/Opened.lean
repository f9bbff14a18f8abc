import QingStor.Api
import QingStor.Lemmas.Chunks

/-!
# An object opened for reading

What `qingstorGetObject` hands to the reader, and the offset and length of each fetcher the reader has afterwards.
-/

namespace QingStor

variable {β : Type*}

/-! ## Chunks -/

/-- Whatever the chunk size, the chunks of a loop that ends well stay inside the range, and their ends are 64-bit numbers. -/
theorem chunkLoop_inside {chunkSize stop : Int} {fuel : Nat} {offset : Int} {chunks : List (Int × Int)} (h : offset ≤ stop + 1)
    (hok : chunkLoop chunkSize stop fuel offset = some (.ok chunks)) :
    ∀ c ∈ chunks, offset ≤ c.1 ∧ 0 ≤ c.2 ∧ c.1 + c.2 ≤ stop + 1 ∧ c.1 + c.2 ≤ int64Max := by
  induction fuel generalizing offset chunks with
  | zero => cases hok
  | succ fuel ih =>
    obtain ⟨len, hlen, _, hmax, hor⟩ := chunkLoop_succ_ok hok
    have hcases : len = stop - offset + 1 ∨ len = chunkSize ∧ chunkSize ≠ -1 ∧ offset + chunkSize ≤ stop := by
      by_cases hone : chunkSize = -1
      · rw [hone] at hlen
        exact Or.inl (chunkLen_whole hlen)
      · obtain ⟨_, _, ⟨hle, heq⟩ | ⟨_, heq⟩⟩ := chunkLen_ok hone hlen
        · exact Or.inr ⟨heq, hone, hle⟩
        · exact Or.inl heq
    rcases hor with ⟨hgt, rfl⟩ | ⟨hle, rest, rfl, hrest⟩
    · simp only [List.mem_singleton, forall_eq]
      omega
    · obtain ⟨rfl, hone, _⟩ := hcases.resolve_left (by omega)
      have hpos : 1 ≤ len := by
        by_contra hneg
        exact chunkLoop_no_progress (by omega) hone fuel hle rest hrest
      intro c hc
      rcases List.mem_cons.1 hc with rfl | hc
      · exact ⟨le_rfl, by omega, by omega, hmax⟩
      · have hin := ih (by omega) hrest c hc
        exact ⟨by omega, hin.2⟩

/-! ## Fetchers -/

/-- The fetchers of chunks wait in the order of the chunks. -/
theorem pending_addChunks (cfg : Configuration) (bucket : Str) (object : ObjectInfo) (chunks : List (Int × Int))
    (p : DownloadPipeline β) :
    (addChunks cfg bucket object p chunks).mPendingFetchers.map (fun f => (f.mOffset, f.mLen)) =
      p.mPendingFetchers.map (fun f => (f.mOffset, f.mLen)) ++ chunks.map (fun c => (c.1, toInt32 c.2)) := by
  unfold addChunks
  induction chunks generalizing p with
  | nil => simp
  | cons c chunks ih =>
    rw [List.foldl_cons, ih, DownloadPipeline.add, List.map_append, List.append_assoc]
    rfl

/-- Each of them is as its constructor made it. -/
theorem made_addChunks {cfg : Configuration} {bucket : Str} {object : ObjectInfo} {chunks : List (Int × Int)}
    {p : DownloadPipeline β} {f : HTTPFetcher β} (hf : f ∈ (addChunks cfg bucket object p chunks).mPendingFetchers) :
    f ∈ p.mPendingFetchers ∨ ∃ this, ∃ c ∈ chunks, f = .make this (cfg.objectUrl bucket object.key) (cfg.bucketHost bucket) bucket
      cfg.credential cfg.chunking.2 c.1 c.2 := by
  unfold addChunks at hf
  induction chunks generalizing p with
  | nil => exact Or.inl hf
  | cons c chunks ih =>
    rcases ih hf with hp | ⟨this, d, hd, heq⟩
    · rcases List.mem_append.1 hp with hp | hp
      · exact Or.inl hp
      · exact Or.inr ⟨p.created, c, List.mem_cons_self .., List.mem_singleton.1 hp⟩
    · exact Or.inr ⟨this, d, List.mem_cons_of_mem _ hd, heq⟩

/-! ## `qingstorGetObject` -/

/-- The range of an opened object starts at a byte of it or right after its end, and the other end is not further before. -/
theorem openedRange_le {size rangeStart rangeEnd : Int} (hsize : 0 ≤ size) (hcheck : rangeStart ≤ rangeEnd) :
    0 ≤ (openedRange size rangeStart rangeEnd).start ∧
      (openedRange size rangeStart rangeEnd).start ≤ (openedRange size rangeStart rangeEnd).stop + 1 := by
  unfold openedRange
  dsimp only
  split <;> split <;> omega

/-- What an object that was opened for reading is: its range was checked, its size asked for, and its fetchers are those of the
chunks of the range. -/
theorem getObject_ok {J : JsonC} {ctx : Context} {bucket key : Option Str} {rangeStart rangeEnd : Int} {xs : Nat → Exchange}
    {fuel : Nat} {reader : QingStorReader β} {e : Option Errno}
    (h : qingstorGetObject J ctx bucket key rangeStart rangeEnd xs fuel = some (.ok ⟨some reader, e⟩)) :
    rangeStart ≤ rangeEnd ∧ ∃ res chunks, ctx.headObject J (bucket.getD []) (key.getD []) xs = .ok res ∧
      chunkLoop ctx.mConfiguration.chunking.1 (openedRange res.contentLength rangeStart rangeEnd).stop fuel
        (openedRange res.contentLength rangeStart rangeEnd).start = some (.ok chunks) ∧
      reader.mPipeline = addChunks ctx.mConfiguration (bucket.getD [])
        ⟨key.getD [], res.contentLength, openedRange res.contentLength rangeStart rangeEnd⟩
        (.make ctx.mConfiguration.mNConnections) chunks := by
  unfold qingstorGetObject at h
  split at h
  · cases h
  · split at h
    · cases h
    · split at h
      · cases h
      · rename_i hcheck
        refine ⟨not_not.1 hcheck, ?_⟩
        split at h
        · rename_i f _
          cases f <;> cases h
        · rename_i res hres
          unfold setupPipeline at h
          rw [Option.map_map, Option.map_eq_some_iff] at h
          obtain ⟨r, hr, h⟩ := h
          cases r with
          | error f => cases f <;> cases h
          | ok chunks =>
            cases h
            exact ⟨res, chunks, hres, hr, rfl⟩

end QingStor
