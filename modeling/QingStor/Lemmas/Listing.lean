import QingStor.Lib.Paging
import QingStor.Context
import QingStor.Lemmas.Requests
import Mathlib.Data.List.GetD
import Mathlib.Data.List.TakeWhile

/-!
# One page of a listing

What a turn of the loop of `listObjects` does with an answer that holds a page of keys: it appends them to the result, keeps the
last one as the marker, and ends the loop after a page that is empty or shorter than its limit.
-/

namespace QingStor

/-- The entry of a key in the result. -/
def listedInfo (size : Str → Int) (key : Str) : ObjectInfo := ⟨key, size key, ⟨0, 0⟩⟩

/-- The entry the loop makes of a key. -/
def heldInfo (size : Str → Int) (key : Str) : ObjectInfo := ⟨cString key, size key, ⟨0, 0⟩⟩

/-- An answer that gives a page of keys with their sizes, next to a name, a prefix and a limit. -/
structure IsPage (size : Str → Int) (limit : Nat) (page : List Str) (respBody : Json) : Prop where
  name : ∃ s, respBody.objectGetEx (lit "name") = some (.string s)
  keyPrefix : ∃ s, respBody.objectGetEx (lit "prefix") = some (.string s)
  limit : respBody.objectGetEx (lit "limit") = some (.int limit)
  keys : ∃ elements, respBody.objectGetEx (lit "keys") = some (.array elements) ∧
    List.Forall₂ (fun k e => e.objectGetEx (lit "key") = some (.string k) ∧ e.objectGetEx (lit "size") = some (.int (size k)))
      page elements

/-- An answer with a page of keys. -/
def pageResponse (size : Str → Int) (limit : Nat) (page : List Str) : Json :=
  .object [(lit "name", .string []), (lit "prefix", .string []), (lit "limit", .int limit),
    (lit "keys", .array (page.map (fun k => .object [(lit "key", .string k), (lit "size", .int (size k))])))]

theorem isPage_pageResponse (size : Str → Int) (limit : Nat) (page : List Str) :
    IsPage size limit page (pageResponse size limit page) := by
  refine ⟨⟨[], rfl⟩, ⟨[], rfl⟩, rfl, _, rfl, ?_⟩
  rw [List.forall₂_map_right_iff, List.forall₂_same]
  exact fun k _ => ⟨rfl, rfl⟩

/-- The limit as the loop compares it: cut to the range of an `int`. -/
def heldLimit (limit : Nat) : Nat := min limit (2 ^ 31 - 1)

/-! ## Order -/

theorem strcmp_le_zero_iff (a b : Str) : strcmp a b ≤ 0 ↔ a ≤ b := by
  unfold strcmp
  split
  · rename_i h
    exact ⟨fun _ => h.le, fun _ => by omega⟩
  · rename_i h
    split
    · rename_i he
      exact ⟨fun _ => he.le, fun _ => by omega⟩
    · rename_i he
      refine ⟨fun h1 => by omega, fun hle => ?_⟩
      rcases hle.lt_or_eq with h1 | h1
      · exact absurd h1 h
      · exact absurd h1 he

theorem strcmp_lt_zero_iff (a b : Str) : strcmp a b < 0 ↔ a < b := by
  have h := (strcmp_le_zero_iff b a).not
  rw [not_le, not_le] at h
  rw [← h]
  unfold strcmp
  rcases lt_trichotomy a b with hlt | rfl | hgt
  · rw [if_pos hlt, if_neg hlt.not_gt, if_neg hlt.ne']
    decide
  · simp
  · rw [if_neg hgt.not_gt, if_neg hgt.ne', if_pos hgt]
    decide

/-- A sort that keeps entries with equal keys in their order, where strings of up to 15 bytes keep their text in themselves. -/
def Sample.mergeSort : Qsort where
  sort l := l.mergeSort (fun a b => strcmp a.key b.key ≤ 0)
  perm l := l.mergeSort_perm _
  sorted l := by
    have h : (l.mergeSort (fun a b => strcmp a.key b.key ≤ 0)).Pairwise (fun a b => decide (strcmp a.key b.key ≤ 0) = true) :=
      l.pairwise_mergeSort ?_ ?_
    · exact h.imp of_decide_eq_true
    · intro a b c
      simp only [decide_eq_true_eq, strcmp_le_zero_iff]
      exact le_trans
    · intro a b
      simp only [Bool.or_eq_true, decide_eq_true_eq, strcmp_le_zero_iff]
      exact le_total _ _
  movable text := 15 < text.length

/-- Sorting entries whose keys ascend changes nothing. -/
theorem Qsort.sort_ascending (Q : Qsort) (size : Str → Int) {keys : List Str} (h : keys.Pairwise (· < ·)) :
    Q.sort (keys.map (listedInfo size)) = keys.map (listedInfo size) := by
  refine List.Perm.eq_of_pairwise ?_ (Q.sorted _) ?_ (Q.perm _)
  · intro a b ha hb hab hba
    obtain ⟨j, _, rfl⟩ := List.mem_map.1 ((Q.perm _).subset ha)
    obtain ⟨k, _, rfl⟩ := List.mem_map.1 hb
    rw [strcmp_le_zero_iff] at hab hba
    have hkey : j = k := le_antisymm hab hba
    rw [hkey]
  · rw [List.pairwise_map]
    exact h.imp (fun hlt => (strcmp_le_zero_iff _ _).2 (le_of_lt hlt))

/-! ## One answer -/

theorem range_map_arrayGetIdx (elements : List Json) :
    (List.range elements.length).map (Json.array elements).arrayGetIdx = elements := by
  refine List.ext_getElem (by simp) (fun i h1 h2 => ?_)
  rw [List.getElem_map, List.getElem_range]
  exact List.getD_eq_getElem _ _ h2

theorem cString_of_no_nul {s : Str} (h : 0 ∉ s) : cString s = s := by
  unfold cString
  rw [List.takeWhile_eq_self_iff]
  intro x hx
  have hne : x ≠ 0 := fun he => h (he ▸ hx)
  simpa using hne

/-- The loop over the elements of a page. -/
theorem extractKeys_page (J : JsonC) {size : Str → Int} {page : List Str} {elements : List Json}
    (h : List.Forall₂ (fun k e => e.objectGetEx (lit "key") = some (.string k) ∧
      e.objectGetEx (lit "size") = some (.int (size k))) page elements) (st : ListState) :
    extractKeys J elements st = (.ok true, { st with
      result := { st.result with objects := st.result.objects ++ page.map (heldInfo size) }
      currentMarker := (page.map cString).getLastD st.currentMarker }) := by
  induction h generalizing st with
  | nil => simp [extractKeys]
  | @cons k e page elements he hrest ih =>
    obtain ⟨hkey, hsize⟩ := he
    unfold extractKeys
    rw [hkey]
    dsimp only [Json.stdString, Json.getString]
    rw [hsize]
    dsimp only
    rw [ih]
    have hinfo : (⟨cString k, Json.getInt64 J (.int (size k)), ⟨0, 0⟩⟩ : ObjectInfo) = heldInfo size k := rfl
    rw [hinfo]
    have hmarker : (page.map cString).getLastD (if elements.isEmpty then cString k else st.currentMarker) =
        ((k :: page).map cString).getLastD st.currentMarker := by
      cases hrest with
      | nil => rfl
      | cons _ _ =>
        rw [List.map_cons, List.map_cons, List.map_cons, List.getLastD_cons, List.getLastD_cons, List.getLastD_cons]
    simp only [hmarker, List.map_cons, List.append_assoc, List.singleton_append]

/-- What a turn of the loop does with a page. -/
theorem listTurn_page (J : JsonC) (Q : Qsort) {ask : Ask} {cfg : Configuration} {bucket keyPrefix : Str} {size : Str → Int}
    {limit : Nat} {page : List Str} {respBody : Json} {st : ListState}
    (hask : ask st (cfg.listUrl bucket keyPrefix st.currentMarker) = .ok respBody) (hpage : IsPage size limit page respBody)
    (heof : st.eof = false) :
    ∃ st', listTurn J Q ask cfg bucket keyPrefix st = ⟨.ok (), st'⟩ ∧
      st'.currentMarker = (page.map cString).getLastD st.currentMarker ∧
      st'.eof = (decide (page.length = 0) || decide (page.length < heldLimit limit)) ∧
      st'.result.objects = Q.sort (st.result.objects ++ page.map (heldInfo size)) := by
  obtain ⟨name, hname⟩ := hpage.name
  obtain ⟨keyPrefix', hprefixName⟩ := hpage.keyPrefix
  obtain ⟨elements, hkeys, hall⟩ := hpage.keys
  have hnull : respBody.isNull = false := by
    cases respBody with
    | null => cases hname
    | _ => rfl
  have hlimit : toInt32 (((Json.getInt J (.int limit)) % 2 ^ 32).toNat : Int) = heldLimit limit := by
    have hget : Json.getInt J (.int limit) = (heldLimit limit : Int) := by
      show max (-2 ^ 31) (min (limit : Int) (2 ^ 31 - 1)) = _
      unfold heldLimit
      omega
    have hle : heldLimit limit ≤ 2 ^ 31 - 1 := Nat.min_le_right _ _
    rw [hget, Int.emod_eq_of_lt (by omega) (by omega), Int.toNat_natCast]
    exact toInt32_of_bounds (by omega) (by omega)
  unfold listTurn
  rw [hask]
  dsimp only
  rw [hnull]
  simp only [Bool.false_eq_true, if_false]
  unfold extractListObjectContent
  rw [hname]
  dsimp only [Json.stdString, Json.getString]
  rw [hprefixName]
  dsimp only
  rw [hpage.limit]
  dsimp only
  unfold extractKeyList
  rw [hkeys]
  dsimp only [Json.arrayLength]
  rw [range_map_arrayGetIdx, extractKeys_page J hall]
  refine ⟨_, rfl, rfl, ?_, rfl⟩
  dsimp only
  rw [hlimit, heof, ← hall.length_eq]
  simp

/-! ## Pages of a bucket -/

/-- The keys of a bucket with a prefix, in order. -/
def matching (keys : Finset Str) (keyPrefix : Str) : List Str :=
  (keys.filter (fun k => keyPrefix <+: k)).sort (fun a b => a ≤ b)

theorem matching_sorted (keys : Finset Str) (keyPrefix : Str) : (matching keys keyPrefix).Pairwise (· < ·) :=
  (Finset.sortedLT_sort _).pairwise

theorem mem_matching {keys : Finset Str} {keyPrefix k : Str} : k ∈ matching keys keyPrefix ↔ k ∈ keys ∧ keyPrefix <+: k := by
  unfold matching
  rw [Finset.mem_sort, Finset.mem_filter]

/-- The marker after the first `k` keys were listed. -/
def markerAt (all : List Str) (k : Nat) : Str := (all.take k).getLastD []

/-- The loop stands after the first `k` keys of the list. -/
structure ListState.Stands (all : List Str) (k : Nat) (st : ListState) : Prop where
  le : k ≤ all.length
  marker : st.currentMarker = cString (markerAt all k)
  going : st.eof = false

/-- The loop stands there and its result has these keys. -/
structure ListState.At (size : Str → Int) (all : List Str) (k : Nat) (st : ListState) : Prop extends st.Stands all k where
  objects : st.result.objects = (all.take k).map (listedInfo size)

theorem ListState.stands_start (all : List Str) : ListState.start.Stands all 0 := ⟨Nat.zero_le _, rfl, rfl⟩

theorem ListState.at_start (size : Str → Int) (all : List Str) : ListState.start.At size all 0 :=
  ⟨stands_start all, rfl⟩

/-- The marker after the first keys separates them from the others. -/
theorem separates_markerAt {all : List Str} (hsorted : all.Pairwise (· < ·)) (hne : ∀ k ∈ all, k ≠ []) (k : Nat) :
    Lib.Separates (markerAt all k) (all.take k) (all.drop k) := by
  have hstart : Lib.Separates ([] : Str) [] all := by
    refine ⟨(fun _ h => by cases h), fun x hx => ?_⟩
    cases x with
    | nil => exact absurd rfl (hne _ hx)
    | cons b x => exact List.nil_lt_cons b x
  exact hstart.next (by rw [List.nil_append]; exact hsorted) k

/-- The page the server gives for a marker of the list is the next part of the list. -/
theorem pageAfter_markerAt {all : List Str} (hsorted : all.Pairwise (· < ·)) (hne : ∀ k ∈ all, k ≠ []) (limit k : Nat) :
    Lib.pageAfter all limit (markerAt all k) = (all.drop k).take limit := by
  have h := Lib.pageAfter_of_separates (separates_markerAt hsorted hne k) limit
  rwa [List.take_append_drop] at h

theorem markerAt_add (all : List Str) (k n : Nat) :
    markerAt all (k + n) = ((all.drop k).take n).getLastD (markerAt all k) := by
  unfold markerAt
  rw [List.take_add, List.getLastD_eq_getLast?, List.getLastD_eq_getLast?, List.getLastD_eq_getLast?, List.getLast?_append]
  cases ((all.drop k).take n).getLast? <;> rfl

/-- The number of keys of the page after the first `k`. -/
def pageCount (all : List Str) (limit k : Nat) : Nat := min limit (all.length - k)

/-- The page after the first `k` keys. -/
theorem take_pageCount (all : List Str) (limit k : Nat) : (all.drop k).take (pageCount all limit k) = (all.drop k).take limit := by
  rw [pageCount, List.take_eq_take_iff, List.length_drop]
  omega

/-- The marker of a list without NUL is held as it is. -/
theorem cString_markerAt {all : List Str} (hnul : ∀ k ∈ all, 0 ∉ k) (k : Nat) : cString (markerAt all k) = markerAt all k := by
  unfold markerAt
  rcases List.eq_nil_or_concat (all.take k) with h | ⟨init, last, h⟩
  · rw [h]
    rfl
  · rw [h, List.concat_eq_append, List.getLastD_concat]
    refine cString_of_no_nul (hnul last (List.mem_of_mem_take (i := k) ?_))
    rw [h, List.concat_eq_append]
    exact List.mem_append_right _ (List.mem_singleton_self _)

/-- A turn of the loop on the next page of the list. It goes on after a page that is as long as the limit, and otherwise the page
was the last. -/
theorem ListState.Stands.turn (J : JsonC) (Q : Qsort) {ask : Ask} {cfg : Configuration} {bucket keyPrefix : Str}
    {size : Str → Int} {limit : Nat} {all : List Str} {k : Nat} {st : ListState} {respBody : Json} (h : st.Stands all k)
    (hlimit : 1 ≤ limit) (hask : ask st (cfg.listUrl bucket keyPrefix st.currentMarker) = .ok respBody)
    (hpage : IsPage size limit ((all.drop k).take limit) respBody) :
    ∃ st', listTurn J Q ask cfg bucket keyPrefix st = ⟨.ok (), st'⟩ ∧
      st'.result.objects = Q.sort (st.result.objects ++ ((all.drop k).take limit).map (heldInfo size)) ∧
      (k + heldLimit limit ≤ all.length ∧ st'.Stands all (k + pageCount all limit k) ∧ 1 ≤ pageCount all limit k ∨
        ¬ k + heldLimit limit ≤ all.length ∧ st'.eof = true ∧ pageCount all limit k = all.length - k) := by
  have hcount : ((all.drop k).take limit).length = pageCount all limit k := by
    rw [List.length_take, List.length_drop, pageCount]
  obtain ⟨st', hturn, hmarker, heof, hobjects⟩ := listTurn_page J Q hask hpage h.going
  rw [hcount] at heof
  have hle := h.le
  have hheld : 1 ≤ heldLimit limit ∧ heldLimit limit ≤ limit := by
    unfold heldLimit
    omega
  refine ⟨st', hturn, hobjects, ?_⟩
  by_cases hfull : k + heldLimit limit ≤ all.length
  · have hge : heldLimit limit ≤ pageCount all limit k := by
      unfold pageCount
      omega
    refine Or.inl ⟨hfull, ⟨?_, ?_, ?_⟩, by omega⟩
    · unfold pageCount
      omega
    · rw [hmarker, h.marker, markerAt_add, take_pageCount, List.getLastD_map]
    · rw [heof, Bool.or_eq_false_iff]
      exact ⟨decide_eq_false (by omega), decide_eq_false (by omega)⟩
  · have hlt : pageCount all limit k < heldLimit limit ∧ pageCount all limit k = all.length - k := by
      unfold pageCount
      omega
    refine Or.inr ⟨hfull, ?_, hlt.2⟩
    rw [heof, Bool.or_eq_true]
    exact Or.inr (decide_eq_true hlt.1)

/-- The same turn, with the result: after the last page it is complete. -/
theorem ListState.At.turn (J : JsonC) (Q : Qsort) {ask : Ask} {cfg : Configuration} {bucket keyPrefix : Str}
    {size : Str → Int} {limit : Nat} {all : List Str} {k : Nat} {st : ListState} {respBody : Json} (h : st.At size all k)
    (hsorted : all.Pairwise (· < ·)) (hnul : ∀ k ∈ all, 0 ∉ k) (hlimit : 1 ≤ limit)
    (hask : ask st (cfg.listUrl bucket keyPrefix st.currentMarker) = .ok respBody)
    (hpage : IsPage size limit ((all.drop k).take limit) respBody) :
    ∃ st', listTurn J Q ask cfg bucket keyPrefix st = ⟨.ok (), st'⟩ ∧
      (st'.At size all (k + pageCount all limit k) ∧ 1 ≤ pageCount all limit k ∨
        st'.eof = true ∧ st'.result.objects = all.map (listedInfo size)) := by
  obtain ⟨st', hturn, hobjects, hor⟩ := h.toStands.turn J Q hlimit hask hpage
  have hheld : ((all.drop k).take limit).map (heldInfo size) = ((all.drop k).take limit).map (listedInfo size) := by
    refine List.map_congr_left (fun j hj => ?_)
    rw [heldInfo, cString_of_no_nul (hnul j (List.mem_of_mem_drop (List.mem_of_mem_take hj))), listedInfo]
  rw [hheld, h.objects, ← List.map_append, ← take_pageCount, ← List.take_add,
    Q.sort_ascending size (hsorted.sublist (List.take_sublist _ _))] at hobjects
  refine ⟨st', hturn, ?_⟩
  rcases hor with ⟨_, hstands, hpos⟩ | ⟨_, heof, hrest⟩
  · exact Or.inl ⟨⟨hstands, hobjects⟩, hpos⟩
  · refine Or.inr ⟨heof, ?_⟩
    rw [hobjects, hrest, Nat.add_sub_cancel' h.le, List.take_length]

end QingStor
