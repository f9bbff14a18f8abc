import QingStor.QingStorReader

/-!
# The chunks of a range

When the loop of `setupPipeline` ends, and what it leaves: the chunks follow each other from the start of the range to its end.
-/

namespace QingStor

variable {β : Type*}

/-- The chunk size of a configuration: -1 for one transfer of the whole range. -/
theorem Configuration.chunking_fst (cfg : Configuration) :
    cfg.chunking.1 = if cfg.mNConnections > 1 then cfg.mChunkSize else -1 := by
  unfold Configuration.chunking
  split
  · split <;> rfl
  · rfl

/-- Chunks that follow each other from `offset` up to `stop`, none of them empty or longer than `most`. -/
inductive Plan (most stop : Int) : Int → List (Int × Int) → Prop
  | done : Plan most stop (stop + 1) []
  | chunk {offset len : Int} {rest : List (Int × Int)} :
      1 ≤ len → len ≤ most → Plan most stop (offset + len) rest → Plan most stop offset ((offset, len) :: rest)

theorem addInt64_ok_iff {a b c : Int} : addInt64 a b = .ok c ↔ c = a + b ∧ int64Min ≤ a + b ∧ a + b ≤ int64Max := by
  unfold addInt64
  split
  · rename_i h
    simp [h, eq_comm]
  · rename_i h
    simp [h]

/-- The length of the last chunk. -/
theorem chunkLen_last {chunkSize stop offset len : Int}
    (h : chunkSize = -1 ∨ int64Min ≤ offset + chunkSize ∧ offset + chunkSize ≤ int64Max ∧ offset + chunkSize > stop)
    (h1 : int64Min ≤ stop - offset) (h2 : stop - offset + 1 ≤ int64Max) (hlen : len = stop - offset + 1) :
    chunkLen chunkSize stop offset = .ok len := by
  have hd : addInt64 stop (-offset) = .ok (stop - offset) := addInt64_ok_iff.2 ⟨by omega, by omega, by omega⟩
  have hl : addInt64 (stop - offset) 1 = .ok len := addInt64_ok_iff.2 ⟨hlen, by omega, by omega⟩
  unfold chunkLen
  rw [hd]
  dsimp only
  rw [hl]
  split
  · rfl
  · rename_i hc
    rcases h with h | ⟨h3, h4, h5⟩
    · exact absurd h hc
    · rw [addInt64_ok_iff.2 ⟨rfl, h3, h4⟩]
      dsimp only
      rw [if_pos h5]

/-- With the chunk size -1 the chunk is the rest of the range. -/
theorem chunkLen_whole {stop offset len : Int} (h : chunkLen (-1) stop offset = .ok len) : len = stop - offset + 1 := by
  unfold chunkLen at h
  rw [if_pos rfl] at h
  split at h
  · cases h
  · rename_i d hd
    obtain ⟨rfl, _, _⟩ := addInt64_ok_iff.1 hd
    obtain ⟨rfl, _, _⟩ := addInt64_ok_iff.1 h
    ring

/-- A chunk that is not the last has the chunk size. -/
theorem chunkLen_ok {chunkSize stop offset len : Int} (hc : chunkSize ≠ -1) (h : chunkLen chunkSize stop offset = .ok len) :
    int64Min ≤ offset + chunkSize ∧ offset + chunkSize ≤ int64Max ∧
      (offset + chunkSize ≤ stop ∧ len = chunkSize ∨ offset + chunkSize > stop ∧ len = stop - offset + 1) := by
  unfold chunkLen at h
  rw [if_neg hc] at h
  split at h
  · cases h
  · rename_i next hnext
    obtain ⟨rfl, h1, h2⟩ := addInt64_ok_iff.1 hnext
    refine ⟨h1, h2, ?_⟩
    split at h
    · rename_i hlast
      split at h
      · cases h
      · rename_i d hd
        obtain ⟨rfl, _, _⟩ := addInt64_ok_iff.1 hd
        obtain ⟨rfl, _, _⟩ := addInt64_ok_iff.1 h
        exact Or.inr ⟨hlast, by omega⟩
    · rename_i hlast
      cases h
      exact Or.inl ⟨by omega, rfl⟩

/-- A turn of the loop that ends it or goes on. -/
theorem chunkLoop_succ_ok {chunkSize stop : Int} {fuel : Nat} {offset : Int} {chunks : List (Int × Int)}
    (h : chunkLoop chunkSize stop (fuel + 1) offset = some (.ok chunks)) :
    ∃ len, chunkLen chunkSize stop offset = .ok len ∧ int64Min ≤ offset + len ∧ offset + len ≤ int64Max ∧
      (offset + len > stop ∧ chunks = [(offset, len)] ∨
        offset + len ≤ stop ∧ ∃ rest, chunks = (offset, len) :: rest ∧
          chunkLoop chunkSize stop fuel (offset + len) = some (.ok rest)) := by
  unfold chunkLoop at h
  split at h
  · simp at h
  · rename_i len hlen
    split at h
    · simp at h
    · rename_i next hnext
      obtain ⟨rfl, h1, h2⟩ := addInt64_ok_iff.1 hnext
      refine ⟨len, hlen, h1, h2, ?_⟩
      split at h
      · rename_i hle
        rw [Option.map_eq_some_iff] at h
        obtain ⟨r, hr, heq⟩ := h
        cases r with
        | error f => cases heq
        | ok rest =>
          cases heq
          exact Or.inr ⟨hle, rest, rfl, hr⟩
      · rename_i hle
        cases h
        exact Or.inl ⟨by omega, rfl⟩

theorem chunkLoop_of_last {chunkSize stop : Int} {fuel : Nat} {offset len : Int} (hlen : chunkLen chunkSize stop offset = .ok len)
    (h1 : int64Min ≤ offset + len) (h2 : offset + len ≤ int64Max) (h3 : offset + len > stop) :
    chunkLoop chunkSize stop (fuel + 1) offset = some (.ok [(offset, len)]) := by
  unfold chunkLoop
  rw [hlen]
  dsimp only
  rw [addInt64_ok_iff.2 ⟨rfl, h1, h2⟩]
  dsimp only
  rw [if_neg (by omega)]

theorem chunkLoop_of_next {chunkSize stop : Int} {fuel : Nat} {offset len : Int} {rest : List (Int × Int)}
    (hlen : chunkLen chunkSize stop offset = .ok len) (h1 : int64Min ≤ offset + len) (h2 : offset + len ≤ int64Max)
    (h3 : offset + len ≤ stop) (hrest : chunkLoop chunkSize stop fuel (offset + len) = some (.ok rest)) :
    chunkLoop chunkSize stop (fuel + 1) offset = some (.ok ((offset, len) :: rest)) := by
  unfold chunkLoop
  rw [hlen]
  dsimp only
  rw [addInt64_ok_iff.2 ⟨rfl, h1, h2⟩]
  dsimp only
  rw [if_pos h3, hrest]
  rfl

/-! ## When the loop ends -/

/-- The loop never ends well with a chunk size that makes no progress: the offset does not grow. -/
theorem chunkLoop_no_progress {chunkSize stop : Int} (hc : chunkSize ≤ 0) (hne : chunkSize ≠ -1) (fuel : Nat) {offset : Int}
    (h : offset ≤ stop) (chunks : List (Int × Int)) : chunkLoop chunkSize stop fuel offset ≠ some (.ok chunks) := by
  intro hok
  induction fuel generalizing offset chunks with
  | zero => cases hok
  | succ fuel ih =>
    obtain ⟨len, hlen, _, _, hor⟩ := chunkLoop_succ_ok hok
    obtain ⟨_, _, hcases⟩ := chunkLen_ok hne hlen
    rcases hcases with ⟨hle, rfl⟩ | ⟨hgt, _⟩
    · rcases hor with ⟨hgt, _⟩ | ⟨_, rest, _, hrest⟩
      · omega
      · exact ih hle rest hrest
    · omega

/-- Where the last chunk would end if it were as long as the others. -/
def planEnd (chunkSize start stop : Int) : Int := start + ((stop - start) / chunkSize + 1) * chunkSize

/-- The end does not change from one chunk to the next. -/
theorem planEnd_next {chunkSize : Int} (start stop : Int) (hc : 1 ≤ chunkSize) :
    planEnd chunkSize (start + chunkSize) stop = planEnd chunkSize start stop ∧
      (stop - (start + chunkSize)) / chunkSize = (stop - start) / chunkSize - 1 := by
  have h : (stop - (start + chunkSize)) / chunkSize = (stop - start) / chunkSize - 1 := by
    rw [show stop - (start + chunkSize) = stop - start + -1 * chunkSize by ring, Int.add_mul_ediv_right _ _ (by omega)]
    ring
  refine ⟨?_, h⟩
  unfold planEnd
  rw [h]
  ring

/-- Where the last chunk starts, there is no further whole chunk. -/
theorem planEnd_last {chunkSize start stop : Int} (h0 : start ≤ stop) (h : start + chunkSize > stop) :
    planEnd chunkSize start stop = start + chunkSize ∧ (stop - start) / chunkSize = 0 := by
  have hz : (stop - start) / chunkSize = 0 := Int.ediv_eq_zero_of_lt (by omega) (by omega)
  unfold planEnd
  rw [hz]
  exact ⟨by ring, rfl⟩

/-- A loop that ends well cut the range into as many chunks as it holds, without leaving the 64-bit range. -/
theorem chunkLoop_ok {chunkSize stop : Int} (hc : 1 ≤ chunkSize) {fuel : Nat} {offset : Int} {chunks : List (Int × Int)}
    (h : offset ≤ stop) (hok : chunkLoop chunkSize stop fuel offset = some (.ok chunks)) :
    planEnd chunkSize offset stop ≤ int64Max ∧ (chunks.length : Int) = (stop - offset) / chunkSize + 1 ∧
      Plan chunkSize stop offset chunks := by
  induction fuel generalizing offset chunks with
  | zero => cases hok
  | succ fuel ih =>
    obtain ⟨len, hlen, _, _, hor⟩ := chunkLoop_succ_ok hok
    obtain ⟨_, hmax, hcases⟩ := chunkLen_ok (by omega) hlen
    rcases hcases with ⟨hle, rfl⟩ | ⟨hgt, rfl⟩
    · rcases hor with ⟨hgt, _⟩ | ⟨_, rest, rfl, hrest⟩
      · omega
      · obtain ⟨h1, h2, h3⟩ := ih hle hrest
        obtain ⟨hend, hdiv⟩ := planEnd_next offset stop hc
        rw [hend] at h1
        rw [hdiv] at h2
        refine ⟨h1, ?_, .chunk hc le_rfl h3⟩
        rw [List.length_cons]
        omega
    · rcases hor with ⟨_, rfl⟩ | ⟨hle, _⟩
      · obtain ⟨hend, hdiv⟩ := planEnd_last h hgt
        refine ⟨by omega, by rw [hdiv]; rfl, .chunk (by omega) (by omega) ?_⟩
        rw [show offset + (stop - offset + 1) = stop + 1 by ring]
        exact .done
      · omega

/-- The loop ends when the last chunk would not leave the 64-bit range. -/
theorem chunkLoop_ends {chunkSize stop : Int} (hc : 1 ≤ chunkSize) (n : Nat) {offset : Int} (h0 : 0 ≤ offset) (h : offset ≤ stop)
    (hn : (stop - offset) / chunkSize = n) (hend : planEnd chunkSize offset stop ≤ int64Max) :
    ∃ chunks, chunkLoop chunkSize stop (n + 1) offset = some (.ok chunks) := by
  have hmin : int64Min ≤ 0 := by decide
  induction n generalizing offset with
  | zero =>
    have hgt : offset + chunkSize > stop := by
      by_contra hle
      obtain ⟨_, hdiv⟩ := planEnd_next offset stop hc
      have := Int.ediv_nonneg (a := stop - (offset + chunkSize)) (b := chunkSize) (by omega) (by omega)
      omega
    obtain ⟨heq, _⟩ := planEnd_last h hgt
    have hlen : chunkLen chunkSize stop offset = .ok (stop - offset + 1) :=
      chunkLen_last (Or.inr ⟨by omega, by omega, hgt⟩) (by omega) (by omega) rfl
    exact ⟨_, chunkLoop_of_last hlen (by omega) (by omega) (by omega)⟩
  | succ n ih =>
    have hle : offset + chunkSize ≤ stop := by
      by_contra hgt
      obtain ⟨_, hz⟩ := planEnd_last h (by omega : offset + chunkSize > stop)
      omega
    obtain ⟨hend', hdiv⟩ := planEnd_next offset stop hc
    obtain ⟨rest, hrest⟩ := ih (show 0 ≤ offset + chunkSize by omega) hle (by omega) (by omega)
    have hmax : offset + chunkSize ≤ int64Max := by
      have hmul : 0 ≤ ((stop - (offset + chunkSize)) / chunkSize + 1) * chunkSize := by
        have := Int.ediv_nonneg (a := stop - (offset + chunkSize)) (b := chunkSize) (by omega) (by omega)
        exact Int.mul_nonneg (by omega) (by omega)
      rw [← hend'] at hend
      unfold planEnd at hend
      omega
    have hlen : chunkLen chunkSize stop offset = .ok chunkSize := by
      unfold chunkLen
      rw [if_neg (by omega), addInt64_ok_iff.2 ⟨rfl, by omega, hmax⟩]
      dsimp only
      rw [if_neg (by omega)]
    exact ⟨_, chunkLoop_of_next hlen (by omega) hmax hle hrest⟩

end QingStor
