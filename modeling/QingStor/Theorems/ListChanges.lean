import QingStor.Lemmas.Listing
import QingStor.Theorems.Release

/-!
# Listing a bucket that changes

Others may add and remove objects between two pages of a listing. What `listObjects` returns is then no state the bucket ever had,
but it ends, it has no key twice, every entry was there when a page was answered, and a key that was there all the time is listed.
-/

namespace QingStor

namespace ListChangesAux

variable {J : JsonC} {Q : Qsort} {ask : Ask} {cfg : Configuration} {bucket keyPrefix : Str} {keys : Nat → Finset Str}
  {size : Nat → Str → Int} {limit n : Nat} {st : ListState} {done : List Str}

/-- What the loop has after `n` pages: the keys of the pages, each with the size it was given then. -/
structure Listed (keyPrefix : Str) (keys : Nat → Finset Str) (size : Nat → Str → Int) (limit : Nat) (st : ListState) (n : Nat)
    (done : List Str) : Prop where
  paged : Lib.Paged (fun n => matching (keys n) keyPrefix) limit [] n st.currentMarker done
  responses : st.responses = n
  objects : st.result.objects.map (·.key) = done
  each : ∀ o ∈ st.result.objects, ∃ j < n, o.key ∈ keys j ∧ keyPrefix <+: o.key ∧ o = listedInfo (size j) o.key

/-- Sorting entries whose keys ascend changes nothing. -/
theorem sort_of_ascending (Q : Qsort) {objects : List ObjectInfo} (h : (objects.map (·.key)).Pairwise (· < ·)) :
    Q.sort objects = objects := by
  have hpair : objects.Pairwise (fun a b => a.key < b.key) := List.pairwise_map.1 h
  refine List.Perm.eq_of_pairwise ?_ (Q.sorted _) (hpair.imp (fun hlt => ((strcmp_lt_zero_iff _ _).2 hlt).le)) (Q.perm _)
  intro a b ha hb hab hba
  rw [strcmp_le_zero_iff] at hab hba
  exact List.inj_on_of_nodup_map (h.imp (fun hlt => hlt.ne)) ((Q.perm _).subset ha) hb (le_antisymm hab hba)

/-- The page the `n`-th request is answered with. -/
def page (keyPrefix : Str) (keys : Nat → Finset Str) (limit : Nat) (st : ListState) : List Str :=
  Lib.pageAfter (matching (keys st.responses) keyPrefix) limit st.currentMarker

/-- A turn of the loop adds the page to what it has, and is the last one exactly if the page is shorter than the limit or has no
key. -/
theorem Listed.turn {respBody : Json} (h : Listed keyPrefix keys size limit st n done) (heof : st.eof = false)
    (hnul : ∀ j, ∀ k ∈ keys j, 0 ∉ k) (hask : ask st (cfg.listUrl bucket keyPrefix st.currentMarker) = .ok respBody)
    (hpage : IsPage (size st.responses) limit (page keyPrefix keys limit st) respBody) :
    ∃ st', listTurn J Q ask cfg bucket keyPrefix st = ⟨.ok (), st'⟩ ∧
      Listed keyPrefix keys size limit st' (n + 1) (done ++ page keyPrefix keys limit st) ∧
      st'.eof = (decide ((page keyPrefix keys limit st).length = 0) ||
        decide ((page keyPrefix keys limit st).length < heldLimit limit)) := by
  obtain ⟨st', hturn, hmarker, heof', hobjects⟩ := listTurn_page J Q hask hpage heof
  refine ⟨st', hturn, ?_, heof'⟩
  have hmem : ∀ k ∈ page keyPrefix keys limit st, k ∈ keys n ∧ keyPrefix <+: k := by
    intro k hk
    rw [← h.responses]
    exact mem_matching.1 (Lib.mem_pageAfter hk).1
  have hwhole : ∀ k ∈ page keyPrefix keys limit st, cString k = k := fun k hk => cString_of_no_nul (hnul n k (hmem k hk).1)
  have hheld : (page keyPrefix keys limit st).map cString = page keyPrefix keys limit st := by
    conv_rhs => rw [← List.map_id (page keyPrefix keys limit st)]
    exact List.map_congr_left hwhole
  have hinfo : (page keyPrefix keys limit st).map (heldInfo (size st.responses)) =
      (page keyPrefix keys limit st).map (listedInfo (size n)) := by
    refine List.map_congr_left (fun k hk => ?_)
    rw [heldInfo, hwhole k hk, listedInfo, h.responses]
  have hpaged : Lib.Paged (fun n => matching (keys n) keyPrefix) limit [] (n + 1) st'.currentMarker
      (done ++ page keyPrefix keys limit st) := by
    rw [hmarker, hheld, page, h.responses]
    exact h.paged.next
  have hkeys : (st.result.objects ++ (page keyPrefix keys limit st).map (listedInfo (size n))).map (·.key) =
      done ++ page keyPrefix keys limit st := by
    rw [List.map_append, h.objects, List.map_map]
    congr 1
    exact List.map_id _
  have hsort := sort_of_ascending Q (by
    rw [hkeys]
    exact (hpaged.ascending (fun j => matching_sorted _ _)).1)
  rw [hinfo, hsort] at hobjects
  refine ⟨hpaged, ?_, by rw [hobjects, hkeys], fun o ho => ?_⟩
  · have hturned := ReleaseAux.turn_cases J Q ask cfg bucket keyPrefix st
    rw [hturn] at hturned
    cases hturned with
    | page _ _ _ hresponses _ _ _ => rw [hresponses, h.responses]
    | request _ hbad _ _ | nothing _ hbad _ _ _ | refused _ _ hbad _ _ _ | lost _ _ hbad _ _ _ => cases hbad
  · rw [hobjects] at ho
    rcases List.mem_append.1 ho with ho | ho
    · obtain ⟨j, hj, heach⟩ := h.each o ho
      exact ⟨j, by omega, heach⟩
    · obtain ⟨k, hk, rfl⟩ := List.mem_map.1 ho
      exact ⟨n, by omega, (hmem k hk).1, (hmem k hk).2, rfl⟩

/-- A turn goes on with at least one key more, or it was the last and what was there all the time was read. -/
theorem Listed.step {respBody : Json} (h : Listed keyPrefix keys size limit st n done) (heof : st.eof = false)
    (hkeys : ∀ j, ∀ k ∈ keys j, k ≠ [] ∧ 0 ∉ k) (hlimit : 1 ≤ limit)
    (hask : ask st (cfg.listUrl bucket keyPrefix st.currentMarker) = .ok respBody)
    (hpage : IsPage (size st.responses) limit (page keyPrefix keys limit st) respBody) :
    ∃ st' more, listTurn J Q ask cfg bucket keyPrefix st = ⟨.ok (), st'⟩ ∧
      Listed keyPrefix keys size limit st' (n + 1) (done ++ more) ∧
      (st'.eof = false ∧ 1 ≤ more.length ∨
        st'.eof = true ∧ ∀ k, keyPrefix <+: k → (∀ j < n + 1, k ∈ keys j) → k ∈ done ++ more) := by
  obtain ⟨st', hturn, hnext, heof'⟩ := h.turn (J := J) (Q := Q) heof (fun j k hk => (hkeys j k hk).2) hask hpage
  refine ⟨st', _, hturn, hnext, ?_⟩
  have hheld : 1 ≤ heldLimit limit ∧ heldLimit limit ≤ limit := by
    unfold heldLimit
    omega
  by_cases hshort : (page keyPrefix keys limit st).length < heldLimit limit
  · refine Or.inr ⟨by rw [heof', decide_eq_true hshort, Bool.or_true], fun k hpre hall => ?_⟩
    have hstart : [] < k := by
      cases k with
      | nil => exact absurd rfl (hkeys 0 _ (hall 0 (Nat.succ_pos n))).1
      | cons b k => exact List.nil_lt_cons b k
    have hthere : ∀ j < n + 1, k ∈ matching (keys j) keyPrefix := fun j hj => mem_matching.2 ⟨hall j hj, hpre⟩
    rcases le_or_gt k st.currentMarker with hbefore | hafter
    · exact List.mem_append_left _ (h.paged.complete (fun j => matching_sorted _ _) hstart hbefore
        (fun j hj => hthere j (by omega)))
    · refine List.mem_append_right _ (Lib.mem_pageAfter_of_short (show _ < limit by unfold page at hshort; omega) ?_ hafter)
      rw [h.responses]
      exact hthere n (Nat.lt_succ_self n)
  · refine Or.inl ⟨?_, by omega⟩
    rw [heof', decide_eq_false hshort, decide_eq_false (by omega)]
    rfl

/-- The loop from there ends: each page that is not the last has a key that was not read before, of the finitely many there are. -/
theorem listLoop_ends {ever : Finset Str} (hever : ∀ j, keys j ⊆ ever) (hkeys : ∀ k ∈ ever, k ≠ [] ∧ 0 ∉ k) (hlimit : 1 ≤ limit)
    (hask : ∀ st : ListState, ∃ respBody, ask st (cfg.listUrl bucket keyPrefix st.currentMarker) = .ok respBody ∧
      IsPage (size st.responses) limit (page keyPrefix keys limit st) respBody) (fuel : Nat) {st : ListState} {n : Nat}
    {done : List Str} (h : Listed keyPrefix keys size limit st n done) (heof : st.eof = false) (hcount : n ≤ done.length)
    (hfuel : (matching ever keyPrefix).length - done.length ≤ fuel) :
    ∃ st' pages all, listLoop J Q ask cfg bucket keyPrefix (fuel + 1) st = some ⟨.ok (), st'⟩ ∧
      Listed keyPrefix keys size limit st' pages all ∧ pages ≤ (matching ever keyPrefix).length + 1 ∧
      ∀ k, keyPrefix <+: k → (∀ j < pages, k ∈ keys j) → k ∈ all := by
  have hbound : ∀ {st : ListState} {n : Nat} {done : List Str}, Listed keyPrefix keys size limit st n done →
      done.length ≤ (matching ever keyPrefix).length := by
    intro st n done h
    have hasc := (h.paged.ascending (fun j => matching_sorted (keys j) keyPrefix)).1
    refine (List.subperm_of_subset (hasc.imp (fun hlt => hlt.ne)) (fun k hk => ?_)).length_le
    obtain ⟨j, _, hj⟩ := h.paged.sound k hk
    obtain ⟨hmem, hpre⟩ := mem_matching.1 hj
    exact mem_matching.2 ⟨hever j hmem, hpre⟩
  induction fuel generalizing st n done with
  | zero =>
    obtain ⟨respBody, hok, hpage⟩ := hask st
    obtain ⟨st', more, hturn, hnext, hor⟩ := h.step (J := J) (Q := Q) heof (fun j k hk => hkeys k (hever j hk)) hlimit hok hpage
    have hle := hbound h
    have hlength := hbound hnext
    rw [List.length_append] at hlength
    rcases hor with ⟨_, hpos⟩ | ⟨heof', hall⟩
    · omega
    · refine ⟨st', n + 1, _, ?_, hnext, by omega, hall⟩
      unfold listLoop
      simp only [hturn, heof', if_true]
  | succ fuel ih =>
    obtain ⟨respBody, hok, hpage⟩ := hask st
    obtain ⟨st', more, hturn, hnext, hor⟩ := h.step (J := J) (Q := Q) heof (fun j k hk => hkeys k (hever j hk)) hlimit hok hpage
    have hle := hbound h
    rcases hor with ⟨heof', hpos⟩ | ⟨heof', hall⟩
    · obtain ⟨st'', pages, all, hloop, hrest⟩ := ih hnext heof' (by rw [List.length_append]; omega)
        (by rw [List.length_append]; omega)
      refine ⟨st'', pages, all, ?_, hrest⟩
      unfold listLoop
      simp only [hturn, heof', Bool.false_eq_true, if_false]
      exact hloop
    · refine ⟨st', n + 1, _, ?_, hnext, by omega, hall⟩
      unfold listLoop
      simp only [hturn, heof', if_true]

end ListChangesAux

namespace Sample

end Sample

end QingStor
