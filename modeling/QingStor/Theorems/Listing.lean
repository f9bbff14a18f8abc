import QingStor.Lemmas.Listing

/-!
# Listing a bucket is complete

When each request is answered with the next page of the bucket, `listObjects` ends, and its result has every key with the prefix
once, in the order of `strcmp`. The run goes page by page: after `k` keys the marker is the last of them, so that the next page is
the next part of the list, and each page that does not end the loop has a key.
-/

namespace QingStor

namespace ListingAux

/-- The loop from a state after `k` keys lists the others and ends. -/
theorem listLoop_complete {J : JsonC} {Q : Qsort} {ask : Ask} {cfg : Configuration} {bucket keyPrefix : Str}
    {size : Str → Int} {limit : Nat} {all : List Str} (hsorted : all.Pairwise (· < ·)) (hne : ∀ k ∈ all, k ≠ [])
    (hnul : ∀ k ∈ all, 0 ∉ k) (hlimit : 1 ≤ limit)
    (hask : ∀ st : ListState, ∃ respBody, ask st (cfg.listUrl bucket keyPrefix st.currentMarker) = .ok respBody ∧
      IsPage size limit (Lib.pageAfter all limit st.currentMarker) respBody) (n : Nat) {k : Nat} {st : ListState}
    (h : st.At size all k) (hn : all.length - k ≤ n) :
    ∃ st', listLoop J Q ask cfg bucket keyPrefix (n + 1) st = some ⟨.ok (), st'⟩ ∧
      st'.result.objects = all.map (listedInfo size) := by
  induction n generalizing k st with
  | zero =>
    obtain ⟨respBody, hok, hpage⟩ := hask st
    rw [h.marker, cString_markerAt hnul, pageAfter_markerAt hsorted hne] at hpage
    obtain ⟨st', hturn, ⟨hat, hpos⟩ | ⟨heof, hobjects⟩⟩ := h.turn J Q hsorted hnul hlimit hok hpage
    · have := hat.le
      omega
    · refine ⟨st', ?_, hobjects⟩
      unfold listLoop
      simp only [hturn, heof, if_true]
  | succ n ih =>
    obtain ⟨respBody, hok, hpage⟩ := hask st
    rw [h.marker, cString_markerAt hnul, pageAfter_markerAt hsorted hne] at hpage
    obtain ⟨st', hturn, ⟨hat, hpos⟩ | ⟨heof, hobjects⟩⟩ := h.turn J Q hsorted hnul hlimit hok hpage
    · obtain ⟨st'', hloop, hobjects⟩ := ih hat (by omega)
      refine ⟨st'', ?_, hobjects⟩
      unfold listLoop
      simp only [hturn, hat.going, Bool.false_eq_true, if_false]
      exact hloop
    · refine ⟨st', ?_, hobjects⟩
      unfold listLoop
      simp only [hturn, heof, if_true]

end ListingAux

/-- Every key of the bucket with the prefix is listed once, in order, with its size. -/
theorem listObjects_complete (ctx : Context) (J : JsonC) (Q : Qsort) (ask : Ask) (bucket keyPrefix : Str) (keys : Finset Str)
    (size : Str → Int) (limit : Nat) (hkeys : ∀ k ∈ keys, k ≠ [] ∧ 0 ∉ k) (hlimit : 1 ≤ limit ∧ limit ≤ 2 ^ 31 - 1)
    (hask : ∀ st : ListState, ∃ respBody,
      ask st (ctx.mConfiguration.listUrl bucket keyPrefix st.currentMarker) = .ok respBody ∧
      IsPage size limit (Lib.pageAfter (matching keys keyPrefix) limit st.currentMarker) respBody) :
    ∃ fuel result, ctx.listObjects J Q ask bucket keyPrefix fuel = some (.ok result) ∧
      (∀ o, o ∈ result.objects ↔ ∃ k ∈ keys, keyPrefix <+: k ∧ o = listedInfo size k) ∧
      result.objects.Pairwise (fun a b => strcmp a.key b.key < 0) := by
  have hall : ∀ k ∈ matching keys keyPrefix, k ≠ [] ∧ 0 ∉ k := fun k hk => hkeys k (mem_matching.1 hk).1
  obtain ⟨st, hloop, hobjects⟩ := ListingAux.listLoop_complete (J := J) (Q := Q) (matching_sorted keys keyPrefix)
    (fun k hk => (hall k hk).1) (fun k hk => (hall k hk).2) hlimit.1 hask _ (ListState.at_start size _) (Nat.le_refl _)
  refine ⟨(matching keys keyPrefix).length - 0 + 1, st.result, ?_, ?_, ?_⟩
  · unfold Context.listObjects
    rw [hloop]
    rfl
  · intro o
    rw [hobjects, List.mem_map]
    simp only [mem_matching, and_assoc, eq_comm]
  · rw [hobjects, List.pairwise_map]
    exact (matching_sorted keys keyPrefix).imp (fun h => (strcmp_lt_zero_iff _ _).2 h)

theorem listObjects_complete_three :
    ∃ fuel result, (Context.mk (.ofArguments (lit "pek3a") (lit "id") (lit "secret") 4)).listObjects Sample.json
        Sample.mergeSort (fun st _ => .ok (pageResponse (fun _ => 7) 2
          (Lib.pageAfter (matching {lit "a", lit "b", lit "c"} []) 2 st.currentMarker))) (lit "b") [] fuel = some (.ok result) ∧
      (∀ o, o ∈ result.objects ↔ ∃ k ∈ ({lit "a", lit "b", lit "c"} : Finset Str), [] <+: k ∧ o = listedInfo (fun _ => 7) k) ∧
      result.objects.Pairwise (fun a b => strcmp a.key b.key < 0) :=
  listObjects_complete _ _ _ _ _ _ _ _ 2 (by decide) (by decide) (fun _ => ⟨_, rfl, isPage_pageResponse ..⟩)

end QingStor
