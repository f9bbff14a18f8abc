import QingStor.Lib.Query
import QingStor.Lemmas.Listing

/-!
# Listing through the URL

The server knows of a page only what it reads in the query of the URL, where prefix and marker stand as they are. Both come back
whole exactly when they have no `#`, no `&`, no escape and, for a key that is a marker, no NUL; then every page is the next part of
the list, the markers ascend and the loop ends.
-/

namespace QingStor

/-- A listing: the call, the bucket it is of, and what the outside does with its requests. -/
structure Listing where
  ctx : Context
  J : JsonC
  Q : Qsort
  bucket : Str
  keyPrefix : Str
  keys : Finset Str
  limit : Nat
  net : ListState → Str → Nat → Exchange

namespace Listing

/-- The prefix the server reads in a URL. -/
def readPrefix (url : Str) : Str := Lib.param (lit "prefix") url

/-- The marker the server reads in a URL. -/
def readMarker (url : Str) : Str := Lib.param (lit "marker") url

variable (l : Listing)

/-- The page the server answers a URL with. -/
def served (url : Str) : List Str := Lib.pageAfter (matching l.keys (readPrefix url)) l.limit (readMarker url)

/-- Every request is answered, within the attempts allowed, with the page its URL names. -/
def Serves (size : Str → Int) : Prop :=
  ∀ (st : ListState) (url : Str), ∃ n ≤ (l.ctx.mConfiguration.mConnectionRetries - 1).toNat, ∃ respBody,
    Unanswered l.J .listObject (l.net st url) n ∧ (l.net st url n).Answers l.J .listObject respBody ∧
    IsPage size l.limit (l.served url) respBody

/-- A turn of the loop. -/
def turn (st : ListState) : ListStep :=
  listTurn l.J l.Q (l.ctx.ask l.J l.bucket l.net) l.ctx.mConfiguration l.bucket l.keyPrefix st

/-- The URL of the request of a turn. -/
def urlFor (marker : Str) : Str := l.ctx.mConfiguration.listUrl l.bucket l.keyPrefix marker

/-- The URL can be split for signing; otherwise no request is sent. -/
def Sent (marker : Str) : Prop := (qsParseUrl (l.urlFor marker)).isOk = true

/-- The loop comes to a turn in the state `st`, and `page` is what the request before it was answered with. -/
inductive Asks : List Str → ListState → Prop
  | start : Asks [] .start
  | next {page : List Str} {st st' : ListState} :
      Asks page st → l.turn st = ⟨.ok (), st'⟩ → st'.eof = false → Asks (l.served (l.urlFor st.currentMarker)) st'

/-- The listing makes progress. -/
structure Progress : Prop where
  decoded : ∀ {page : List Str} {st : ListState}, l.Asks page st → l.Sent st.currentMarker →
    readPrefix (l.urlFor st.currentMarker) = l.keyPrefix ∧ readMarker (l.urlFor st.currentMarker) = page.getLastD []
  increases : ∀ {page : List Str} {st st' : ListState}, l.Asks page st → l.turn st = ⟨.ok (), st'⟩ → st'.eof = false →
    l.Sent st'.currentMarker → readMarker (l.urlFor st.currentMarker) < readMarker (l.urlFor st'.currentMarker)
  ends : ∃ fuel, (listLoop l.J l.Q (l.ctx.ask l.J l.bucket l.net) l.ctx.mConfiguration l.bucket l.keyPrefix fuel .start).isSome

/-- The keys to list. -/
def all : List Str := matching l.keys l.keyPrefix

/-- Where the loop asks for a page when each page before was the one meant: at the start, and after each page that is as long as
its limit. -/
inductive Asked : Nat → Prop
  | start : Asked 0
  | next {k : Nat} : Asked k → l.Sent (cString (markerAt l.all k)) → k + heldLimit l.limit ≤ l.all.length →
      Asked (k + pageCount l.all l.limit k)

/-- What stands before the query. -/
def base : Str := l.ctx.mConfiguration.mProtocol ++ lit "://" ++ l.ctx.mConfiguration.bucketHost l.bucket ++ lit "/"

/-- The prefix, and the last key of the page before, come back whole from the URL. Where the host has a `?` or a `#`, that is left
to the query the URL has then. -/
def Plain (key : Str) : Prop :=
  if Lib.questionMark ∉ l.base ∧ Lib.numberSign ∉ l.base then Lib.Clean l.keyPrefix ∧ Lib.Clean key ∧ 0 ∉ key
  else readPrefix (l.urlFor (cString key)) = l.keyPrefix ∧ readMarker (l.urlFor (cString key)) = key

end Listing

namespace ListProgressAux

open Listing

theorem prefix_plain : Lib.PlainName (lit "prefix") := by decide

theorem marker_plain : Lib.PlainName (lit "marker") := by decide

/-- A key that is cut at a NUL comes back shorter. -/
theorem readBack_cString_iff (key : Str) : Lib.readBack (cString key) = key ↔ Lib.Clean key ∧ 0 ∉ key := by
  constructor
  · intro h
    have hnul : 0 ∉ key := by
      intro hm
      have hlt : (cString key).length < key.length := Lib.length_before_lt hm
      have h1 := Lib.length_percentDecode_le (Lib.before Lib.ampersand (Lib.before Lib.numberSign (cString key)))
      have h2 := Lib.length_before_le Lib.ampersand (Lib.before Lib.numberSign (cString key))
      have h3 := Lib.length_before_le Lib.numberSign (cString key)
      have hlen := congrArg List.length h
      unfold Lib.readBack at hlen
      omega
    rw [cString_of_no_nul hnul] at h
    exact ⟨(Lib.readBack_eq_self_iff key).1 h, hnul⟩
  · rintro ⟨hclean, hnul⟩
    rw [cString_of_no_nul hnul]
    exact (Lib.readBack_eq_self_iff key).2 hclean

variable {l : Listing}

/-- The URLs the loop sends, in the pieces of their query. -/
theorem urlFor_eq (marker : Str) :
    l.urlFor marker =
      if l.keyPrefix = [] ∧ marker = [] then l.base
      else if marker = [] then l.base ++ Lib.questionMark :: (lit "prefix" ++ Lib.equalsSign :: l.keyPrefix)
      else if l.keyPrefix = [] then l.base ++ Lib.questionMark :: (lit "marker" ++ Lib.equalsSign :: marker)
      else l.base ++ Lib.questionMark :: (lit "marker" ++ Lib.equalsSign ::
        (marker ++ Lib.ampersand :: (lit "prefix" ++ Lib.equalsSign :: l.keyPrefix))) := by
  have hprefix : lit "/?prefix=" = lit "/" ++ Lib.questionMark :: (lit "prefix" ++ [Lib.equalsSign]) := rfl
  have hmarker : lit "/?marker=" = lit "/" ++ Lib.questionMark :: (lit "marker" ++ [Lib.equalsSign]) := rfl
  have hand : lit "&prefix=" = Lib.ampersand :: (lit "prefix" ++ [Lib.equalsSign]) := rfl
  unfold urlFor Configuration.listUrl base
  by_cases hp : l.keyPrefix = []
  · by_cases hm : marker = []
    · simp [hp, hm]
    · simp [hp, hm, hmarker]
  · by_cases hm : marker = []
    · simp [hp, hm, hprefix]
    · simp [hp, hm, hmarker, hand]

/-- When the server reads back what the loop means. -/
theorem read_iff_plain (key : Str) :
    (readPrefix (l.urlFor (cString key)) = l.keyPrefix ∧ readMarker (l.urlFor (cString key)) = key) ↔ l.Plain key := by
  unfold Plain
  split
  · rename_i hbase
    obtain ⟨hq, hn⟩ := hbase
    rw [and_comm, ← readBack_cString_iff key, and_comm (a := Lib.Clean l.keyPrefix)]
    have hne : lit "marker" ≠ lit "prefix" := by decide
    unfold readPrefix readMarker
    rw [urlFor_eq]
    by_cases hm : cString key = []
    · by_cases hp : l.keyPrefix = []
      · rw [if_pos ⟨hp, hm⟩, Lib.param_of_notMem hq (by decide), Lib.param_of_notMem hq (by decide), hm, hp]
        exact ⟨fun h => ⟨h.1, Lib.clean_nil⟩, fun h => ⟨h.1, rfl⟩⟩
      · have hfirst := Lib.param_first hq hn prefix_plain l.keyPrefix (Or.inl rfl)
        rw [List.append_nil] at hfirst
        rw [if_neg (fun h => hp h.1), if_pos hm, hfirst, Lib.readBack_eq_self_iff, hm]
        refine and_congr_left (fun hclean => ?_)
        rw [Lib.param_other hq hn prefix_plain hne.symm hclean]
        rfl
    · rw [if_neg (fun h => hm h.2), if_neg hm]
      by_cases hp : l.keyPrefix = []
      · have hfirst := Lib.param_first hq hn marker_plain (cString key) (Or.inl rfl)
        rw [List.append_nil] at hfirst
        rw [if_pos hp, hfirst, hp]
        refine and_congr_right (fun hkey => ?_)
        have hclean := ((readBack_cString_iff key).1 hkey)
        rw [cString_of_no_nul hclean.2, Lib.param_other hq hn marker_plain hne hclean.1]
        exact ⟨fun _ => Lib.clean_nil, fun _ => rfl⟩
      · rw [if_neg hp, Lib.param_first hq hn marker_plain _ (Or.inr ⟨_, rfl⟩)]
        refine and_congr_right (fun hkey => ?_)
        have hclean := ((readBack_cString_iff key).1 hkey)
        have hfirst := Lib.param_first hq hn prefix_plain l.keyPrefix (Or.inl rfl)
        rw [List.append_nil] at hfirst
        rw [cString_of_no_nul hclean.2, Lib.param_after hq hn marker_plain hne hclean.1, hfirst, Lib.readBack_eq_self_iff]
  · exact Iff.rfl

/-! ## Turns -/

theorem all_sorted : l.all.Pairwise (· < ·) := matching_sorted _ _

theorem all_ne_nil (hne : ∀ k ∈ l.keys, k ≠ []) : ∀ k ∈ l.all, k ≠ [] := fun k hk => hne k (mem_matching.1 hk).1

/-- A URL that is read back as meant names the next part of the list. -/
theorem served_of_plain (hne : ∀ k ∈ l.keys, k ≠ []) {k : Nat} (hplain : l.Plain (markerAt l.all k)) :
    l.served (l.urlFor (cString (markerAt l.all k))) = (l.all.drop k).take l.limit := by
  obtain ⟨hp, hm⟩ := (read_iff_plain _).2 hplain
  rw [served, hp, hm]
  exact pageAfter_markerAt all_sorted (all_ne_nil hne) l.limit k

/-- A request that is sent is answered with the page its URL names. -/
theorem ask_of_sent {size : Str → Int} (hserver : l.Serves size) {st : ListState} (hsent : l.Sent st.currentMarker) :
    ∃ respBody, l.ctx.ask l.J l.bucket l.net st (l.urlFor st.currentMarker) = .ok respBody ∧
      IsPage size l.limit (l.served (l.urlFor st.currentMarker)) respBody := by
  obtain ⟨n, hn, respBody, hbefore, hanswers, hpage⟩ := hserver st (l.urlFor st.currentMarker)
  refine ⟨respBody, ?_, hpage⟩
  have hsendable : (listArgs l.ctx.mConfiguration l.bucket (l.urlFor st.currentMarker)).Sendable :=
    ⟨(fun h => by cases h), hsent⟩
  rw [Context.ask, doGetJSON_of_first hsendable (fun h => by cases h) hn hbefore hanswers]

/-- A turn whose URL cannot be split goes wrong. -/
theorem turn_of_unsent {st : ListState} (hsent : ¬ l.Sent st.currentMarker) : ∃ f, (l.turn st).result = .error f := by
  unfold turn listTurn
  cases hask : l.ctx.ask l.J l.bucket l.net st (l.ctx.mConfiguration.listUrl l.bucket l.keyPrefix st.currentMarker) with
  | error f =>
    dsimp only
    unfold ListState.caught
    split <;> exact ⟨_, rfl⟩
  | ok respBody =>
    refine absurd ?_ hsent
    exact (doGetJSON_ok (a := listArgs l.ctx.mConfiguration l.bucket (l.urlFor st.currentMarker))
      (fun h => by cases h) hask).1.2

/-- A turn whose URL is read back as meant. -/
theorem turn_of_plain {size : Str → Int} (hne : ∀ k ∈ l.keys, k ≠ []) (hlimit : 1 ≤ l.limit) (hserver : l.Serves size) {k : Nat}
    {st : ListState} (hst : st.Stands l.all k) (hsent : l.Sent st.currentMarker) (hplain : l.Plain (markerAt l.all k)) :
    ∃ st', l.turn st = ⟨.ok (), st'⟩ ∧
      (k + heldLimit l.limit ≤ l.all.length ∧ st'.Stands l.all (k + pageCount l.all l.limit k) ∧ 1 ≤ pageCount l.all l.limit k ∨
        ¬ k + heldLimit l.limit ≤ l.all.length ∧ st'.eof = true) := by
  obtain ⟨respBody, hask, hpage⟩ := ask_of_sent hserver hsent
  rw [hst.marker, served_of_plain hne hplain] at hpage
  obtain ⟨st', hturn, _, hor⟩ := hst.turn l.J l.Q hlimit hask hpage
  refine ⟨st', hturn, ?_⟩
  exact hor.imp_right (fun h => ⟨h.1, h.2.1⟩)

/-- The last key of the page that was the next part of the list. -/
theorem getLastD_page {k : Nat} (hpos : 1 ≤ pageCount l.all l.limit k) :
    ((l.all.drop k).take l.limit).getLastD [] = markerAt l.all (k + pageCount l.all l.limit k) := by
  have hne : (l.all.drop k).take l.limit ≠ [] := by
    rw [← take_pageCount, ← List.length_pos_iff, List.length_take, List.length_drop]
    unfold pageCount at hpos ⊢
    omega
  rw [markerAt_add, take_pageCount, List.getLastD_eq_getLast?, List.getLastD_eq_getLast?, List.getLast?_eq_some_getLast hne]
  rfl

/-- The marker of the next page is greater. -/
theorem markerAt_lt (hne : ∀ k ∈ l.keys, k ≠ []) {k : Nat} (hpos : 1 ≤ pageCount l.all l.limit k) :
    markerAt l.all k < markerAt l.all (k + pageCount l.all l.limit k) := by
  rw [markerAt_add]
  refine (separates_markerAt all_sorted (all_ne_nil hne) k).lt_next ?_
  rw [← List.length_pos_iff, List.length_take, List.length_drop]
  unfold pageCount at hpos ⊢
  omega

/-! ## Runs -/

/-- Where the loop stands, in terms of the list: it has been given its first `k` keys. -/
structure Follows (l : Listing) (page : List Str) (st : ListState) (k : Nat) : Prop where
  asked : l.Asked k
  stands : st.Stands l.all k
  last : page.getLastD [] = markerAt l.all k

theorem follows_start : Follows l [] .start 0 := ⟨.start, ListState.stands_start _, rfl⟩

/-- A turn from there that goes on, when the URL is read back as meant. -/
theorem Follows.next {size : Str → Int} (hne : ∀ k ∈ l.keys, k ≠ []) (hlimit : 1 ≤ l.limit) (hserver : l.Serves size)
    {page : List Str} {st st' : ListState} {k : Nat} (h : Follows l page st k) (hsent : l.Sent st.currentMarker)
    (hplain : l.Plain (markerAt l.all k)) (hturn : l.turn st = ⟨.ok (), st'⟩) (heof : st'.eof = false) :
    Follows l (l.served (l.urlFor st.currentMarker)) st' (k + pageCount l.all l.limit k) ∧ 1 ≤ pageCount l.all l.limit k := by
  obtain ⟨st'', hturn', hor⟩ := turn_of_plain hne hlimit hserver h.stands hsent hplain
  rw [hturn] at hturn'
  cases hturn'
  rcases hor with ⟨hfull, hstands, hpos⟩ | ⟨_, heof'⟩
  · rw [h.stands.marker] at hsent
    refine ⟨⟨.next h.asked hsent hfull, hstands, ?_⟩, hpos⟩
    rw [h.stands.marker, served_of_plain hne hplain, getLastD_page hpos]
  · rw [heof] at heof'
    cases heof'

/-- A listing that makes progress asks only with URLs that are read back as meant. -/
theorem plain_of_progress {size : Str → Int} (hne : ∀ k ∈ l.keys, k ≠ []) (hlimit : 1 ≤ l.limit) (hserver : l.Serves size)
    (h : l.Progress) {k : Nat} (hk : l.Asked k) : l.Sent (cString (markerAt l.all k)) → l.Plain (markerAt l.all k) := by
  have hplain : ∀ {page st k}, l.Asks page st → Follows l page st k → l.Sent (cString (markerAt l.all k)) →
      l.Plain (markerAt l.all k) := by
    intro page st k hasks hf hsent
    rw [← hf.stands.marker] at hsent
    have hread := h.decoded hasks hsent
    rw [hf.last, hf.stands.marker] at hread
    exact (read_iff_plain _).1 hread
  have hreach : ∃ page st, l.Asks page st ∧ Follows l page st k := by
    induction hk with
    | start => exact ⟨_, _, .start, follows_start⟩
    | @next k hk hsent hfull ih =>
      obtain ⟨page, st, hasks, hf⟩ := ih
      have hpl := hplain hasks hf hsent
      rw [← hf.stands.marker] at hsent
      obtain ⟨st', hturn, ⟨_, hstands, _⟩ | ⟨hlast, _⟩⟩ := turn_of_plain hne hlimit hserver hf.stands hsent hpl
      · exact ⟨_, _, .next hasks hturn hstands.going, (hf.next hne hlimit hserver hsent hpl hturn hstands.going).1⟩
      · exact absurd hfull hlast
  obtain ⟨page, st, hasks, hf⟩ := hreach
  exact hplain hasks hf

section

variable {size : Str → Int} (hne : ∀ k ∈ l.keys, k ≠ []) (hlimit : 1 ≤ l.limit) (hserver : l.Serves size)
  (hplain : ∀ k, l.Asked k → l.Sent (cString (markerAt l.all k)) → l.Plain (markerAt l.all k))
include hne hlimit hserver hplain

/-- With such URLs the loop stands where the list says, at every turn. -/
theorem follows_of_asks {page : List Str} {st : ListState} (h : l.Asks page st) : ∃ k, Follows l page st k := by
  induction h with
  | start => exact ⟨0, follows_start⟩
  | @next page st st' hasks hturn heof ih =>
    obtain ⟨k, hf⟩ := ih
    have hsent : l.Sent st.currentMarker := by
      by_contra hunsent
      obtain ⟨f, hf⟩ := turn_of_unsent hunsent
      rw [hturn] at hf
      cases hf
    have hpl := hplain k hf.asked (hf.stands.marker ▸ hsent)
    exact ⟨_, (hf.next hne hlimit hserver hsent hpl hturn heof).1⟩

/-- From there the loop ends: each page that does not end it has a key. -/
theorem listLoop_ends (n : Nat) {page : List Str} {st : ListState} {k : Nat} (hf : Follows l page st k)
    (hn : l.all.length - k < n) :
    (listLoop l.J l.Q (l.ctx.ask l.J l.bucket l.net) l.ctx.mConfiguration l.bucket l.keyPrefix n st).isSome := by
  induction n generalizing page st k with
  | zero => exact absurd hn (Nat.not_lt_zero _)
  | succ n ih =>
    unfold listLoop
    rw [show listTurn l.J l.Q (l.ctx.ask l.J l.bucket l.net) l.ctx.mConfiguration l.bucket l.keyPrefix st = l.turn st from rfl]
    dsimp only
    by_cases hsent : l.Sent st.currentMarker
    · have hpl := hplain k hf.asked (hf.stands.marker ▸ hsent)
      obtain ⟨st', hturn, ⟨_, hstands, hpos⟩ | ⟨_, heof⟩⟩ := turn_of_plain hne hlimit hserver hf.stands hsent hpl
      · rw [hturn]
        simp only [hstands.going, Bool.false_eq_true, if_false]
        have hle := hstands.le
        exact ih (hf.next hne hlimit hserver hsent hpl hturn hstands.going).1 (by omega)
      · rw [hturn]
        simp only [heof, if_true]
        rfl
    · obtain ⟨f, herr⟩ := turn_of_unsent hsent
      rw [herr]
      rfl

/-- A listing whose URLs are all read back as meant makes progress. -/
theorem progress_of_plain : l.Progress where
  decoded := by
    intro page st hasks hsent
    obtain ⟨k, hf⟩ := follows_of_asks hne hlimit hserver hplain hasks
    rw [hf.stands.marker] at hsent ⊢
    rw [hf.last]
    exact (read_iff_plain _).2 (hplain k hf.asked hsent)
  increases := by
    intro page st st' hasks hturn heof hsent'
    obtain ⟨k, hf⟩ := follows_of_asks hne hlimit hserver hplain hasks
    have hsent : l.Sent st.currentMarker := by
      by_contra hunsent
      obtain ⟨f, herr⟩ := turn_of_unsent hunsent
      rw [hturn] at herr
      cases herr
    have hpl := hplain k hf.asked (hf.stands.marker ▸ hsent)
    obtain ⟨hf', hpos⟩ := hf.next hne hlimit hserver hsent hpl hturn heof
    rw [hf'.stands.marker] at hsent' ⊢
    rw [hf.stands.marker, ((read_iff_plain _).2 hpl).2, ((read_iff_plain _).2 (hplain _ hf'.asked hsent')).2]
    exact markerAt_lt hne hpos
  ends := ⟨l.all.length + 1, listLoop_ends hne hlimit hserver hplain _ follows_start (by omega)⟩

end

end ListProgressAux

/-- A listing makes progress exactly when each URL it sends has a prefix and a marker that come back whole. -/
theorem listing_progress_iff (l : Listing) (size : Str → Int) (hne : ∀ k ∈ l.keys, k ≠ []) (hlimit : 1 ≤ l.limit)
    (hserver : l.Serves size) :
    l.Progress ↔ ∀ k, l.Asked k → l.Sent (cString (markerAt l.all k)) → l.Plain (markerAt l.all k) :=
  ⟨fun h _ hk => ListProgressAux.plain_of_progress hne hlimit hserver h hk,
    ListProgressAux.progress_of_plain hne hlimit hserver⟩

namespace ListProgressAux

/-- The listing of a bucket with one key, in pages of `limit`: the server answers with a text for the empty page and another for
the page that has the key. -/
def oneKey (key : Str) (limit : Nat) : Listing where
  ctx := ⟨.ofArguments (lit "pek3a") (lit "id") (lit "secret") 4⟩
  J := ⟨fun text => pageResponse (fun _ => 7) limit (if text = lit "-" then [] else [key]), fun _ => [], fun _ => 0⟩
  Q := Sample.mergeSort
  bucket := lit "b"
  keyPrefix := []
  keys := {key}
  limit := limit
  net _ url _ := Sample.answer [] 200
    [if Lib.pageAfter (matching {key} (Listing.readPrefix url)) limit (Listing.readMarker url) = [] then lit "-" else lit "+"]

theorem pageAfter_oneKey (key keyPrefix : Str) (limit : Nat) (marker : Str) :
    Lib.pageAfter (matching {key} keyPrefix) limit marker = [] ∨ Lib.pageAfter (matching {key} keyPrefix) limit marker = [key] := by
  have hsub : (Lib.pageAfter (matching {key} keyPrefix) limit marker).Sublist (matching {key} keyPrefix) :=
    (List.take_sublist _ _).trans List.filter_sublist
  have hone : (matching {key} keyPrefix).Sublist [key] := by
    unfold matching
    rw [Finset.filter_singleton]
    split
    · rw [Finset.sort_singleton]
    · rw [Finset.sort_empty]
      exact List.nil_sublist _
  have h := hsub.trans hone
  rw [List.sublist_cons_iff] at h
  rcases h with h | ⟨r, heq, hr⟩
  · exact Or.inl (List.sublist_nil.1 h)
  · rw [List.sublist_nil.1 hr] at heq
    exact Or.inr heq

theorem serves_oneKey (key : Str) (limit : Nat) : (oneKey key limit).Serves (fun _ => 7) := by
  intro st url
  have hserved : (oneKey key limit).served url =
      Lib.pageAfter (matching {key} (Listing.readPrefix url)) limit (Listing.readMarker url) := rfl
  refine ⟨0, Nat.zero_le _, pageResponse (fun _ => 7) limit ((oneKey key limit).served url), fun k hk => absurd hk (Nat.not_lt_zero k),
    ⟨rfl, rfl, ?_⟩, isPage_pageResponse ..⟩
  rw [hserved]
  rcases pageAfter_oneKey key (Listing.readPrefix url) limit (Listing.readMarker url) with h | h
  · refine ⟨lit "-", ?_, ?_, rfl⟩
    · simp only [oneKey, h, if_true]
      rfl
    · simp only [oneKey, h, if_true]
  · refine ⟨lit "+", ?_, ?_, rfl⟩
    · simp only [oneKey, h, List.cons_ne_nil, if_false]
      rfl
    · simp only [oneKey, h]
      rfl

theorem all_oneKey (key : Str) (limit : Nat) : (oneKey key limit).all = [key] := by
  have hsort : (oneKey key limit).all = (({key} : Finset Str).filter (fun k => [] <+: k)).sort (fun a b => a ≤ b) := rfl
  rw [hsort, Finset.filter_singleton, if_pos List.nil_prefix, Finset.sort_singleton]

end ListProgressAux

/-- The general statement for a bucket with one key, in pages of one: the second page is asked for after the key, and the loop
ends. -/
theorem listing_progress_iff_short : (ListProgressAux.oneKey (lit "a") 1).Progress := by
  refine (listing_progress_iff (ListProgressAux.oneKey (lit "a") 1) _ (by decide) (by decide)
    (ListProgressAux.serves_oneKey _ _)).2 (fun k _ _ => ?_)
  rw [ListProgressAux.all_oneKey, Listing.Plain, if_pos (by decide)]
  have hempty : Lib.Clean ([] : Str) := Lib.clean_nil
  have hkey : Lib.Clean (lit "a") := (Lib.readBack_eq_self_iff _).1 (by decide)
  cases k with
  | zero => exact ⟨hempty, hempty, List.not_mem_nil⟩
  | succ k =>
    have hmarker : markerAt [lit "a"] (k + 1) = lit "a" := by simp [markerAt]
    rw [hmarker]
    exact ⟨hempty, hkey, (by decide : (0 : Byte) ∉ lit "a")⟩

/-- A listing does not always make progress: after the page with the key `a&x` the server is asked for what follows `a`. -/
theorem listing_progress_false :
    ¬ ∀ (l : Listing) (size : Str → Int), (∀ k ∈ l.keys, k ≠ []) → 1 ≤ l.limit → l.Serves size → l.Progress := by
  intro h
  have hne : ∀ k ∈ (ListProgressAux.oneKey (lit "a&x") 1).keys, k ≠ [] := by decide
  have hserves := ListProgressAux.serves_oneKey (lit "a&x") 1
  have hprogress := h (ListProgressAux.oneKey (lit "a&x") 1) _ hne (by decide) hserves
  have hall : (ListProgressAux.oneKey (lit "a&x") 1).all = [lit "a&x"] := ListProgressAux.all_oneKey _ _
  have hasked : (ListProgressAux.oneKey (lit "a&x") 1).Asked 1 := by
    have hstart : (ListProgressAux.oneKey (lit "a&x") 1).Asked (0 + pageCount (ListProgressAux.oneKey (lit "a&x") 1).all 1 0) := by
      refine .next .start ?_ ?_
      · show (qsParseUrl _).isOk = true
        rw [show cString (markerAt (ListProgressAux.oneKey (lit "a&x") 1).all 0) = [] from rfl]
        decide
      · rw [hall]
        decide
    rw [hall] at hstart
    exact hstart
  have hplain := ListProgressAux.plain_of_progress hne (by decide) hserves hprogress hasked
  rw [hall] at hplain
  have hmarker : markerAt [lit "a&x"] 1 = lit "a&x" := rfl
  have hclean := hplain (by rw [hmarker]; unfold Listing.Sent; decide)
  rw [hmarker, Listing.Plain, if_pos (by decide)] at hclean
  exact hclean.2.1.2.1 (by decide)

end QingStor
