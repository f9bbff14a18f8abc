import QingStor.Lemmas.Ledger

/-!
# A download in order

The server serves prefixes of the ranges it is asked for. Then what a pipeline has returned, followed by what its fetchers still
have to hand out, in their order, is the object's range; and no step of the pipeline goes wrong.
-/

namespace QingStor

variable {β : Type*}

/-- A response to the request for a range: it carries a prefix of the range, and all of it when it ends well with an accepted
status. Curl has a status when a transfer ends well. -/
structure Response.Serves (content : List β) (first last : Int) (resp : Response β) : Prop where
  part : resp.body <+: Lib.slice content first.toNat (last + 1 - first).toNat
  status : resp.res = .ok → resp.status ≠ 0
  whole : resp.res = .ok → AcceptedStatus resp.status → resp.body = Lib.slice content first.toNat (last + 1 - first).toNat

/-- An outside that has memory, handles and signatures to give, and a server of the object. -/
structure StartEnv.Honest (content : List β) (env : StartEnv β) : Prop where
  malloc : env.malloc = true
  easyInit : env.easyInit = true
  signs : env.signs = true
  serves : ∀ first last, 0 ≤ first → (env.respond (some (.fromTo first last))).Serves content first last

/-- What a fetcher still has to hand out. -/
def HTTPFetcher.todo (content : List β) (f : HTTPFetcher β) : List β :=
  Lib.slice content (f.mOffset + f.mBytesDone).toNat (f.mLen - f.mBytesDone).toNat

/-- What a fetcher still has to receive. -/
def HTTPFetcher.ahead (content : List β) (f : HTTPFetcher β) : List β := (f.todo content).drop f.unread.length

/-- A fetcher of a range of the object, with the right bytes in its buffer. -/
structure HTTPFetcher.Within (content : List β) (f : HTTPFetcher β) : Prop where
  url : (qsParseUrl f.mUrl).isOk = true
  offset : 0 ≤ f.mOffset
  fits : f.mOffset + f.mLen ≤ content.length
  done : 0 ≤ f.mBytesDone
  left : f.mBytesDone ≤ f.mLen
  here : f.unread <+: f.todo content

/-- The transfer of a fetcher: what it will still deliver is a prefix of what the fetcher has to receive. -/
structure Transfer.Feeds (content : List β) (f : HTTPFetcher β) (t : Transfer β) : Prop where
  userp : t.userp = f.this
  ended : t.ended = false
  part : t.rest <+: f.ahead content
  status : t.res = .ok → t.status ≠ 0
  whole : t.res = .ok → AcceptedStatus t.status → t.rest = f.ahead content

/-- How an active fetcher and the transfers belong together. -/
structure HTTPFetcher.Linked (content : List β) (m : Multi β) (f : HTTPFetcher β) : Prop where
  started : f.mState ≠ .init
  running : f.mState = .running → f.mParent = true ∧ ∃ t ∈ m.transfers, f.mCurl = .easy t.easy ∧ t.Feeds content f
  null : f.mState ≠ .running → f.mCurl = .null
  done : f.mState = .done → f.ahead content = []

/-- The invariant of a download of `whole`, a range of the object. -/
structure DownloadPipeline.Intact (content whole : List β) (p : DownloadPipeline β) : Prop where
  tidy : p.Tidy
  within : ∀ f ∈ p.fetchers, f.Within content
  linked : ∀ f ∈ p.mActiveFetchers, f.Linked content p.mCurlMHandle
  pending : ∀ f ∈ p.mPendingFetchers, f.mState = .init
  known : ∀ t ∈ p.mCurlMHandle.transfers, ∃ f ∈ p.mActiveFetchers, t.userp = f.this ∧ f.mState = .running ∧ f.mCurl = .easy t.easy
  easies : (p.mCurlMHandle.transfers.map (·.easy)).Nodup
  whole : p.returned ++ p.fetchers.flatMap (·.todo content) = whole

namespace HTTPFetcher

variable {content : List β} {f g : HTTPFetcher β}

theorem unread_append_ahead (h : f.Within content) : f.unread ++ f.ahead content = f.todo content :=
  (List.prefix_iff_eq_append.1 h.here)

/-- A piece of what is ahead goes into the buffer. -/
theorem Within.took (h : f.Within content) (hre : f.Rebuffered g) {bs : List β} (hu : g.unread = f.unread ++ bs)
    (hbs : bs <+: f.ahead content) : g.Within content ∧ g.todo content = f.todo content ∧
      g.ahead content = (f.ahead content).drop bs.length := by
  obtain ⟨_, _, _, _, hg⟩ := hre
  have htodo : g.todo content = f.todo content := by
    rw [hg]
    rfl
  refine ⟨⟨?_, ?_, ?_, ?_, ?_, ?_⟩, htodo, ?_⟩
  · rw [hg]
    exact h.url
  · rw [hg]
    exact h.offset
  · rw [hg]
    exact h.fits
  · rw [hg]
    exact h.done
  · rw [hg]
    exact h.left
  · rw [htodo, hu, ← unread_append_ahead h]
    exact (List.prefix_append_right_inj _).2 hbs
  · rw [ahead, ahead, htodo, hu, List.length_append, List.drop_drop]

/-- Bytes of the buffer go to the caller. -/
theorem Within.gave (h : f.Within content) (hb : f.Buffered) {bs : List β} (n : Nat) (hbs : (f.handOut n).1 = .bytes bs) :
    (f.handOut n).2.Within content ∧ f.todo content = bs ++ (f.handOut n).2.todo content ∧
      (f.handOut n).2.ahead content = f.ahead content := by
  obtain ⟨bs', heq, _, hu, _⟩ := handOut_spec hb n
  obtain rfl : bs' = bs := by
    rw [heq] at hbs
    exact Got.bytes.inj hbs
  have hlen : f.unread.length ≤ (f.mLen - f.mBytesDone).toNat := by
    have hle := h.here.length_le
    unfold todo at hle
    rw [Lib.length_slice] at hle
    exact hle.trans (Nat.min_le_left _ _)
  have hul : f.unread.length = bs'.length + (f.handOut n).2.unread.length := by
    rw [← List.length_append, ← hu]
  have htodo : (f.handOut n).2.todo content = (f.todo content).drop bs'.length := by
    rw [heq, todo, todo, Lib.drop_slice]
    have h1 := h.offset
    have h2 := h.done
    dsimp only
    congr 1 <;> omega
  have hpre : bs' <+: f.todo content := (List.prefix_append _ _).trans (hu ▸ h.here)
  have hsplit : f.todo content = bs' ++ (f.handOut n).2.todo content := by
    rw [htodo]
    exact (List.prefix_iff_eq_append.1 hpre).symm
  refine ⟨⟨?_, ?_, ?_, ?_, ?_, ?_⟩, hsplit, ?_⟩
  · rw [heq]
    exact h.url
  · rw [heq]
    exact h.offset
  · rw [heq]
    exact h.fits
  · have := h.done
    rw [heq]
    dsimp only
    omega
  · have := h.left
    rw [heq]
    dsimp only
    omega
  · have hhere := h.here
    rw [hu, hsplit] at hhere
    exact (List.prefix_append_right_inj _).1 hhere
  · rw [ahead, ahead, htodo, List.drop_drop, hul]

/-- The range `start` asks for is what the fetcher still has to receive. -/
theorem range_of_within (h : f.Within content) (hb : f.Buffered) (hsize : content.length ≤ 2 ^ 62) :
    ∃ first last, f.range = some (.fromTo first last) ∧ 0 ≤ first ∧
      Lib.slice content first.toNat (last + 1 - first).toNat = f.ahead content := by
  have hlen := length_unread hb
  have hc := hb.cursors
  have h1 := h.offset
  have h2 := h.fits
  have h3 := h.done
  have h4 := h.left
  have h5 : f.unread.length ≤ (f.mLen - f.mBytesDone).toNat := by
    have hle := h.here.length_le
    unfold todo at hle
    rw [Lib.length_slice] at hle
    exact hle.trans (Nat.min_le_left _ _)
  have hoff : f.resumeOffset = f.mOffset + f.unread.length + f.mBytesDone := by
    unfold resumeOffset
    rw [toInt64_of_bounds (by omega) (by omega)]
    omega
  have hrem : f.resumeLen = f.mLen - f.unread.length - f.mBytesDone := by
    unfold resumeLen
    rw [toInt64_of_bounds (by omega) (by omega)]
    omega
  refine ⟨f.resumeOffset, f.resumeOffset + f.resumeLen - 1, ?_, by omega, ?_⟩
  · unfold range
    rw [if_pos (Or.inr (by omega)), if_pos (by omega)]
  · rw [ahead, todo, Lib.drop_slice, hoff, hrem]
    congr 1 <;> omega

end HTTPFetcher

namespace DownloadPipeline

variable {content whole : List β} {p p' : DownloadPipeline β} {r : Except Fault Unit}

/-! ## Fetchers and transfers of an intact pipeline -/

theorem eq_of_this (hd : p.Distinct) {f k : HTTPFetcher β} (hf : f ∈ p.fetchers) (hk : k ∈ p.fetchers) (h : k.this = f.this) :
    k = f := List.inj_on_of_nodup_map hd hk hf h

theorem Intact.eq_of_easy (h : p.Intact content whole) {t t' : Transfer β} (ht : t ∈ p.mCurlMHandle.transfers)
    (ht' : t' ∈ p.mCurlMHandle.transfers) (he : t.easy = t'.easy) : t = t' :=
  List.inj_on_of_nodup_map h.easies ht ht' he

/-- A transfer's fetcher is active and runs with the transfer's handle. -/
theorem Intact.owner (h : p.Intact content whole) {f : HTTPFetcher β} {t : Transfer β} (hf : f ∈ p.fetchers)
    (ht : t ∈ p.mCurlMHandle.transfers) (hu : t.userp = f.this) :
    f ∈ p.mActiveFetchers ∧ f.mState = .running ∧ f.mCurl = .easy t.easy := by
  obtain ⟨k, hk, hku, hrun, hcurl⟩ := h.known t ht
  obtain rfl := eq_of_this h.tidy.distinct hf (List.mem_append_left _ hk) (hku.symm.trans hu)
  exact ⟨hk, hrun, hcurl⟩

/-- The transfer with the handle of an active fetcher feeds it. -/
theorem Intact.feeds (h : p.Intact content whole) {f : HTTPFetcher β} {t : Transfer β} (hf : f ∈ p.mActiveFetchers)
    (ht : t ∈ p.mCurlMHandle.transfers) (hcurl : f.mCurl = .easy t.easy) : f.mState = .running ∧ t.Feeds content f := by
  have hrun : f.mState = .running := by
    by_contra hne
    have hnull := (h.linked f hf).null hne
    rw [hcurl] at hnull
    cases hnull
  obtain ⟨_, t', ht', hcurl', hfeeds⟩ := (h.linked f hf).running hrun
  have heq : t = t' := by
    rw [hcurl] at hcurl'
    exact h.eq_of_easy ht ht' (CurlPtr.easy.inj hcurl')
  rw [heq]
  exact ⟨hrun, hfeeds⟩

/-- The active fetchers after one was replaced. -/
theorem mem_replaced (hd : p.Distinct) {pre post : List (HTTPFetcher β)} {f g : HTTPFetcher β}
    (ha : p.mActiveFetchers = pre ++ f :: post) (k : HTTPFetcher β) :
    k ∈ pre ++ g :: post ↔ k = g ∨ k ∈ p.mActiveFetchers ∧ k.this ≠ f.this := by
  have hda := distinct_active hd
  rw [ha, List.map_append, List.map_cons, List.nodup_append, List.nodup_cons] at hda
  obtain ⟨_, ⟨hpost, _⟩, hpre⟩ := hda
  have hne : ∀ k ∈ pre ++ post, k.this ≠ f.this := by
    intro k hk he
    rcases List.mem_append.1 hk with hk | hk
    · exact hpre _ (List.mem_map_of_mem hk) _ (List.mem_cons_self ..) he
    · exact hpost (he ▸ List.mem_map_of_mem hk)
  rw [ha]
  constructor
  · intro hk
    rcases List.mem_append.1 hk with hk | hk
    · exact Or.inr ⟨List.mem_append_left _ hk, hne k (List.mem_append_left _ hk)⟩
    · rcases List.mem_cons.1 hk with rfl | hk
      · exact Or.inl rfl
      · exact Or.inr ⟨List.mem_append_right _ (List.mem_cons_of_mem _ hk), hne k (List.mem_append_right _ hk)⟩
  · rintro (rfl | ⟨hk, hkne⟩)
    · exact List.mem_append_right _ (List.mem_cons_self ..)
    · rcases List.mem_append.1 hk with hk | hk
      · exact List.mem_append_left _ hk
      · rcases List.mem_cons.1 hk with rfl | hk
        · exact absurd rfl hkne
        · exact List.mem_append_right _ (List.mem_cons_of_mem _ hk)

/-- Replacing a fetcher together with its transfer keeps a pipeline intact. -/
theorem Intact.replace (h : p.Intact content whole) {pre post : List (HTTPFetcher β)} {f g : HTTPFetcher β}
    (hf : p.fetchers = pre ++ f :: post) (hf' : p'.fetchers = pre ++ g :: post) (htidy : p'.Tidy)
    (hh : p'.handed = p.handed) (hthis : g.this = f.this) (hwithin : g.Within content)
    (htodo : g.todo content = f.todo content)
    (hactive : ∀ k, k ∈ p'.mActiveFetchers ↔ k = g ∨ k ∈ p.mActiveFetchers ∧ k.this ≠ f.this)
    (hpending : ∀ k ∈ p'.mPendingFetchers, k ∈ p.mPendingFetchers) (hlink : g.Linked content p'.mCurlMHandle)
    (hstay : ∀ t ∈ p.mCurlMHandle.transfers, t.userp ≠ f.this → t ∈ p'.mCurlMHandle.transfers)
    (hcome : ∀ t ∈ p'.mCurlMHandle.transfers, t ∈ p.mCurlMHandle.transfers ∧ t.userp ≠ f.this ∨
      t.userp = g.this ∧ g.mState = .running ∧ g.mCurl = .easy t.easy)
    (heasies : (p'.mCurlMHandle.transfers.map (·.easy)).Nodup) : p'.Intact content whole := by
  refine ⟨htidy, ?_, ?_, ?_, ?_, heasies, ?_⟩
  · intro k hk
    rcases mem_changed hf hf' hk with rfl | hk
    · exact hwithin
    · exact h.within k hk
  · intro k hk
    rcases (hactive k).1 hk with rfl | ⟨hk, hne⟩
    · exact hlink
    · have hl := h.linked k hk
      refine ⟨hl.started, fun hrun => ?_, hl.null, hl.done⟩
      obtain ⟨hparent, t, ht, hcurl, hfeeds⟩ := hl.running hrun
      exact ⟨hparent, t, hstay t ht (by rw [hfeeds.userp]; exact hne), hcurl, hfeeds⟩
  · exact fun k hk => h.pending k (hpending k hk)
  · intro t ht
    rcases hcome t ht with ⟨ht, hne⟩ | hg
    · obtain ⟨k, hk, hku, hrun⟩ := h.known t ht
      exact ⟨k, (hactive k).2 (Or.inr ⟨hk, by rw [← hku]; exact hne⟩), hku, hrun⟩
    · exact ⟨g, (hactive g).2 (Or.inl rfl), hg⟩
  · have hw := h.whole
    rw [returned] at hw ⊢
    rw [hf, List.flatMap_append, List.flatMap_cons] at hw
    rw [hh, hf', List.flatMap_append, List.flatMap_cons, htodo]
    exact hw

/-- An event on the transfer of an active fetcher keeps a pipeline intact when the transfer still feeds the fetcher. -/
theorem Intact.event (h : p.Intact content whole) {pre post : List (HTTPFetcher β)} {f g : HTTPFetcher β} {t : Transfer β}
    {u : Transfer β → Transfer β} {m : Multi β} (ha : p.mActiveFetchers = pre ++ f :: post)
    (htidy : ({ p with mActiveFetchers := pre ++ g :: post, mCurlMHandle := m } : DownloadPipeline β).Tidy)
    (hm : m.transfers = (p.mCurlMHandle.update t.easy u).transfers) (ht : t ∈ p.mCurlMHandle.transfers)
    (htu : t.userp = f.this) (hu : ∀ t, (u t).easy = t.easy ∧ (u t).userp = t.userp)
    (hsame : g.this = f.this ∧ g.mState = f.mState ∧ g.mCurl = f.mCurl ∧ g.mParent = f.mParent)
    (hwithin : g.Within content) (htodo : g.todo content = f.todo content) (hfeeds : (u t).Feeds content g) :
    ({ p with mActiveFetchers := pre ++ g :: post, mCurlMHandle := m } : DownloadPipeline β).Intact content whole := by
  have hmem : f ∈ p.mActiveFetchers := by
    rw [ha]
    exact List.mem_append_right _ (List.mem_cons_self ..)
  have hmemf : f ∈ p.fetchers := active_subset_fetchers hmem
  obtain ⟨hthis, hstate, hcurl, hparent⟩ := hsame
  obtain ⟨_, hrun, hfcurl⟩ := h.owner hmemf ht htu
  have hf : p.fetchers = pre ++ f :: (post ++ p.mPendingFetchers) := fetchers_split ha
  refine h.replace (f := f) (g := g) hf (by simp [fetchers]) htidy rfl hthis hwithin htodo
    (mem_replaced h.tidy.distinct ha) (fun k hk => hk) ?_ ?_ ?_ ?_
  · refine ⟨?_, fun _ => ?_, ?_, ?_⟩
    · rw [hstate, hrun]
      exact FetcherState.noConfusion
    · refine ⟨?_, u t, ?_, ?_, hfeeds⟩
      · rw [hparent]
        exact ((h.linked f hmem).running hrun).1
      · rw [hm]
        refine List.mem_map.2 ⟨t, ht, ?_⟩
        rw [if_pos rfl]
      · rw [hcurl, hfcurl, (hu t).1]
    · intro hne
      rw [hstate] at hne
      exact absurd hrun hne
    · intro hdone
      rw [hstate, hrun] at hdone
      cases hdone
  · intro t' ht' hne
    rw [hm]
    refine List.mem_map.2 ⟨t', ht', ?_⟩
    rw [if_neg]
    intro he
    rw [h.eq_of_easy ht' ht he] at hne
    exact hne htu
  · rw [hm]
    intro t' ht'
    obtain ⟨t'', ht'', rfl⟩ := List.mem_map.1 ht'
    by_cases he : t''.easy = t.easy
    · obtain rfl := h.eq_of_easy ht'' ht he
      rw [if_pos rfl]
      right
      rw [(hu t'').1, (hu t'').2, hthis, hstate, hcurl]
      exact ⟨htu, hrun, hfcurl⟩
    · rw [if_neg he]
      left
      refine ⟨ht'', fun hu' => he ?_⟩
      obtain ⟨_, _, hcurl'⟩ := h.owner hmemf ht'' hu'
      rw [hfcurl] at hcurl'
      exact (CurlPtr.easy.inj hcurl').symm
  · rw [hm, Multi.map_easy_update _ _ (fun t => (hu t).1)]
    exact h.easies

/-- The transfers after a handle was registered and its request set up. -/
theorem started_transfers {m : Multi β} (hfresh : ∀ t ∈ m.transfers, t.easy < m.fresh) (u : Nat) (resp resp' : Response β) :
    ((m.addHandle u resp').setHeaders m.fresh resp).transfers =
      m.transfers ++ [⟨m.fresh, u, resp.status, resp.body, resp.res, false, false⟩] := by
  have hold : m.transfers.map (fun t => if t.easy = m.fresh then
      { t with status := resp.status, rest := resp.body, res := resp.res } else t) = m.transfers := by
    refine (List.map_congr_left (fun t ht => ?_)).trans (List.map_id _)
    exact if_neg (Nat.ne_of_lt (hfresh t ht))
  unfold Multi.setHeaders Multi.update Multi.addHandle
  rw [List.map_append, hold]
  simp

/-- A start goes well, and its transfer feeds the fetcher. -/
theorem Intact.start (h : p.Intact content whole) (hsize : content.length ≤ 2 ^ 62) {pre post : List (HTTPFetcher β)}
    {f : HTTPFetcher β} {env : StartEnv β} (hE : env.Honest content) (hstate : f.mState = .init ∨ f.mState = .failed)
    (hf : p.fetchers = pre ++ f :: post) (hf' : p'.fetchers = pre ++ (f.start env p.mCurlMHandle).fetcher :: post)
    (hm : p'.mCurlMHandle = (f.start env p.mCurlMHandle).multi) (htidy : p'.Tidy) (hh : p'.handed = p.handed)
    (hactive : ∀ k, k ∈ p'.mActiveFetchers ↔
      k = (f.start env p.mCurlMHandle).fetcher ∨ k ∈ p.mActiveFetchers ∧ k.this ≠ f.this)
    (hpending : ∀ k ∈ p'.mPendingFetchers, k ∈ p.mPendingFetchers) :
    p'.Intact content whole ∧ (f.start env p.mCurlMHandle).result = .ok () := by
  have hmem : f ∈ p.fetchers := by
    rw [hf]
    exact List.mem_append_right _ (List.mem_cons_self ..)
  have hw := h.within f hmem
  have hb := h.tidy.buffered f hmem
  have hok := HTTPFetcher.start_ok (Or.inr hE.malloc) hstate hE.easyInit hE.signs hw.url p.mCurlMHandle
  refine ⟨?_, hok⟩
  obtain ⟨first, last, hrange, h0, hslice⟩ := HTTPFetcher.range_of_within hw hb hsize
  have hserves := hE.serves first last h0
  have hnone : ∀ t ∈ p.mCurlMHandle.transfers, t.userp ≠ f.this := by
    intro t ht hu
    obtain ⟨_, hrun, _⟩ := h.owner hmem ht hu
    rcases hstate with hs | hs
    · rw [hs] at hrun
      cases hrun
    · rw [hs] at hrun
      cases hrun
  obtain ⟨hmulti, g, hg, hrun, hcurl, hparent, hunread, hthis, hurl, hoffset, hlen, hdone⟩ := HTTPFetcher.start_of_ok hb hok
  have htr := started_transfers (fun t ht => (h.tidy.userp t ht).2) f.this (env.respond f.range) (env.respond none)
  rw [← hmulti, ← hm, hrange] at htr
  rw [hg] at hf' hactive
  have htodo : g.todo content = f.todo content := by
    rw [HTTPFetcher.todo, HTTPFetcher.todo, hoffset, hlen, hdone]
  have hahead : g.ahead content = f.ahead content := by
    rw [HTTPFetcher.ahead, HTTPFetcher.ahead, htodo, hunread]
  have hwithin : g.Within content := by
    refine ⟨hurl ▸ hw.url, hoffset ▸ hw.offset, ?_, hdone ▸ hw.done, ?_, ?_⟩
    · rw [hoffset, hlen]
      exact hw.fits
    · rw [hdone, hlen]
      exact hw.left
    · rw [hunread, htodo]
      exact hw.here
  have hfeeds : (⟨p.mCurlMHandle.fresh, f.this, (env.respond (some (.fromTo first last))).status,
      (env.respond (some (.fromTo first last))).body, (env.respond (some (.fromTo first last))).res, false, false⟩ :
      Transfer β).Feeds content g := by
    refine ⟨hthis.symm, rfl, ?_, hserves.status, ?_⟩
    · rw [hahead, ← hslice]
      exact hserves.part
    · rw [hahead, ← hslice]
      exact hserves.whole
  refine h.replace hf hf' htidy hh hthis hwithin htodo hactive hpending ?_ ?_ ?_ ?_
  · refine ⟨?_, fun _ => ⟨hparent, _, ?_, hcurl, hfeeds⟩, fun hne => absurd hrun hne, fun hd => ?_⟩
    · rw [hrun]
      exact FetcherState.noConfusion
    · rw [htr]
      exact List.mem_append_right _ (List.mem_singleton_self _)
    · rw [hrun] at hd
      cases hd
  · intro t ht _
    rw [htr]
    exact List.mem_append_left _ ht
  · intro t ht
    rw [htr] at ht
    rcases List.mem_append.1 ht with ht | ht
    · exact Or.inl ⟨ht, hnone t ht⟩
    · rw [List.mem_singleton] at ht
      subst ht
      exact Or.inr ⟨hthis.symm, hrun, hcurl⟩
  · rw [htr, List.map_append, List.nodup_append]
    refine ⟨h.easies, by simp, ?_⟩
    intro a ha b hb
    obtain ⟨t, ht, rfl⟩ := List.mem_map.1 ha
    rw [List.map_singleton, List.mem_singleton] at hb
    have hlt := (h.tidy.userp t ht).2
    rw [hb]
    exact Nat.ne_of_lt hlt

/-- An end that is reported belongs to a registered transfer; without a failure it comes with the code and the status of the
response, which was taken whole. -/
theorem infoRead_some {m : Multi β} {e : EndEvent} {res : CURLcode} {respcode : Nat}
    (h : m.infoRead e = some (res, respcode)) :
    ∃ t ∈ m.transfers, t.easy = e.easy ∧ ((∃ c, res = .failure c) ∨ t.rest = [] ∧ res = t.res ∧ respcode = t.status) := by
  unfold Multi.infoRead at h
  cases hfind : m.find? e.easy with
  | none =>
    rw [hfind] at h
    cases h
  | some t =>
    obtain ⟨ht, heasy⟩ := Multi.mem_of_find? hfind
    refine ⟨t, ht, heasy, ?_⟩
    rw [hfind] at h
    dsimp only at h
    split at h
    · cases h
    · split at h
      · cases h
        exact Or.inl ⟨_, rfl⟩
      · split at h
        · rename_i hall
          cases h
          exact Or.inr ⟨List.isEmpty_iff.1 hall.1, rfl, rfl⟩
        · cases h

/-- The end of a fetcher's transfer keeps a pipeline intact. -/
theorem Intact.finish (h : p.Intact content whole) {pre post : List (HTTPFetcher β)} {f : HTTPFetcher β} {e : EndEvent}
    {res : CURLcode} {respcode : Nat} {s : FetcherStep β}
    (hs : s = f.handleResult res respcode (p.mCurlMHandle.update e.easy (fun t => { t with ended := true })))
    (hinfo : p.mCurlMHandle.infoRead e = some (res, respcode)) (ha : p.mActiveFetchers = pre ++ f :: post)
    (hcurl : f.mCurl = .easy e.easy)
    (htidy : ({ p with mActiveFetchers := pre ++ s.fetcher :: post, mCurlMHandle := s.multi } : DownloadPipeline β).Tidy) :
    ({ p with mActiveFetchers := pre ++ s.fetcher :: post, mCurlMHandle := s.multi } : DownloadPipeline β).Intact content whole ∧
      s.result = .ok () := by
  have hmem : f ∈ p.mActiveFetchers := by
    rw [ha]
    exact List.mem_append_right _ (List.mem_cons_self ..)
  have hmemf : f ∈ p.fetchers := active_subset_fetchers hmem
  have hw := h.within f hmemf
  obtain ⟨t, ht, heasy, hor⟩ := infoRead_some hinfo
  obtain ⟨hrun, hfeeds⟩ := h.feeds hmem ht (by rw [hcurl, heasy])
  have hparent := ((h.linked f hmem).running hrun).1
  rcases HTTPFetcher.handleResult_cases hcurl res respcode
      (p.mCurlMHandle.update e.easy (fun t => { t with ended := true })) with
    ⟨err, calls, hok, hzero, heq⟩ | ⟨state, failures, m', heq, hstate, _, _, htr⟩
  · rcases hor with ⟨c, hc⟩ | ⟨_, hres, hcode⟩
    · rw [hc] at hok
      cases hok
    · exact absurd (hcode.symm.trans hzero) (hfeeds.status (hres.symm.trans hok))
  · rw [heq] at hs
    subst hs
    refine ⟨?_, rfl⟩
    rw [if_pos hparent] at htr
    have hf : p.fetchers = pre ++ f :: (post ++ p.mPendingFetchers) := fetchers_split ha
    refine h.replace (f := f) (g := f.closed state failures) hf (by simp [fetchers]) htidy rfl rfl
      ⟨hw.url, hw.offset, hw.fits, hw.done, hw.left, hw.here⟩ rfl (mem_replaced h.tidy.distinct ha) (fun k hk => hk) ?_ ?_ ?_ ?_
    · refine ⟨?_, ?_, fun _ => rfl, ?_⟩
      · show state ≠ .init
        rcases hstate with rfl | ⟨rfl, _⟩ <;> exact FetcherState.noConfusion
      · show state = .running → _
        rcases hstate with rfl | ⟨rfl, _⟩ <;> exact fun h => by cases h
      · show state = .done → f.ahead content = []
        rintro rfl
        rcases hstate with hstate | ⟨_, hok, hcode⟩
        · cases hstate
        · rcases hor with ⟨c, hc⟩ | ⟨hrest, hres, hcode'⟩
          · rw [hc] at hok
            cases hok
          · rw [hcode'] at hcode
            rw [← hfeeds.whole (hres.symm.trans hok) hcode, hrest]
    · intro t' ht' hne
      have hother : t'.easy ≠ e.easy := by
        intro he
        rw [h.eq_of_easy ht' ht (he.trans heasy.symm)] at hne
        exact hne hfeeds.userp
      show t' ∈ m'.transfers
      rw [htr, List.mem_filter]
      refine ⟨List.mem_map.2 ⟨t', ht', if_neg hother⟩, decide_eq_true hother⟩
    · intro t' ht'
      replace ht' : t' ∈ m'.transfers := ht'
      rw [htr, List.mem_filter] at ht'
      obtain ⟨hmap, hother⟩ := ht'
      obtain ⟨t'', ht'', rfl⟩ := List.mem_map.1 hmap
      by_cases he : t''.easy = e.easy
      · rw [if_pos he] at hother
        exact absurd he (of_decide_eq_true hother)
      · rw [if_neg he]
        refine Or.inl ⟨ht'', fun hu => he ?_⟩
        obtain ⟨_, _, hcurl'⟩ := h.owner hmemf ht'' hu
        rw [hcurl] at hcurl'
        exact (CurlPtr.easy.inj hcurl').symm
    · show (m'.transfers.map (·.easy)).Nodup
      rw [htr]
      refine List.Nodup.sublist (List.Sublist.map _ List.filter_sublist) ?_
      have hmap := p.mCurlMHandle.map_easy_update e.easy (g := fun t => { t with ended := true }) (fun _ => rfl)
      rw [hmap]
      exact h.easies

/-- An offer of curl keeps a pipeline intact: the fetcher takes the piece that is next, or pauses and takes nothing. -/
theorem Intact.offer (h : p.Intact content whole) {pre post : List (HTTPFetcher β)} {f : HTTPFetcher β} {e n : Nat}
    (ha : p.mActiveFetchers = pre ++ f :: post)
    (hreach : f.mCurl = .easy e ∨ ∃ t, p.mCurlMHandle.find? e = some t ∧ t.userp = f.this)
    (htidy : ({ p with
      mActiveFetchers := pre ++ (f.offer p.mCurlMHandle e n).1 :: post
      mCurlMHandle := (f.offer p.mCurlMHandle e n).2 } : DownloadPipeline β).Tidy) :
    ({ p with
      mActiveFetchers := pre ++ (f.offer p.mCurlMHandle e n).1 :: post
      mCurlMHandle := (f.offer p.mCurlMHandle e n).2 } : DownloadPipeline β).Intact content whole := by
  have hmem : f ∈ p.mActiveFetchers := by
    rw [ha]
    exact List.mem_append_right _ (List.mem_cons_self ..)
  have hmemf : f ∈ p.fetchers := active_subset_fetchers hmem
  have hw := h.within f hmemf
  rcases HTTPFetcher.offer_cases (h.tidy.buffered f hmemf) (h.tidy.reached hmemf hreach) p.mCurlMHandle e n with
    hsame | ⟨t, g, hfind, _, hre, _, _, hor⟩
  · rw [hsame, ← ha]
    exact h
  · obtain ⟨ht, heasy⟩ := Multi.mem_of_find? hfind
    have htu : t.userp = f.this := by
      rcases hreach with hcurl | ⟨t', hfind', hu⟩
      · exact (h.feeds hmem ht (by rw [hcurl, heasy])).2.userp
      · rw [hfind] at hfind'
        rw [Option.some.inj hfind', hu]
    have hfeeds := (h.feeds hmem ht (h.owner hmemf ht htu).2.2).2
    have hsame : g.this = f.this ∧ g.mState = f.mState ∧ g.mCurl = f.mCurl ∧ g.mParent = f.mParent := by
      obtain ⟨_, _, _, _, hg⟩ := hre
      rw [hg]
      exact ⟨rfl, rfl, rfl, rfl⟩
    subst heasy
    rcases hor with ⟨_, hu, heq⟩ | ⟨hu, heq⟩
    · rw [heq] at htidy ⊢
      have hpart : t.rest.take n <+: f.ahead content := (List.take_prefix _ _).trans hfeeds.part
      obtain ⟨hgw, htodo, hahead⟩ := hw.took hre hu hpart
      have hdrop : t.rest.drop n = t.rest.drop (t.rest.take n).length := by
        rw [List.length_take]
        rcases Nat.le_total n t.rest.length with hle | hle
        · rw [Nat.min_eq_left hle]
        · rw [Nat.min_eq_right hle, List.drop_length, List.drop_eq_nil_of_le hle]
      refine h.event (u := fun t => { t with rest := t.rest.drop n }) ha htidy rfl ht htu (fun t => ⟨rfl, rfl⟩) hsame hgw htodo
        ⟨?_, hfeeds.ended, ?_, hfeeds.status, ?_⟩
      · exact htu.trans hsame.1.symm
      · show t.rest.drop n <+: g.ahead content
        rw [hahead, hdrop]
        exact hfeeds.part.drop _
      · intro hok hacc
        show t.rest.drop n = g.ahead content
        rw [hahead, hdrop, hfeeds.whole hok hacc]
    · rw [heq] at htidy ⊢
      obtain ⟨hgw, htodo, hahead⟩ := hw.took hre (show g.unread = f.unread ++ [] by rw [hu, List.append_nil]) List.nil_prefix
      rw [List.length_nil, List.drop_zero] at hahead
      refine h.event (u := fun t => { t with paused := true }) ha htidy rfl ht htu (fun t => ⟨rfl, rfl⟩) hsame hgw htodo
        ⟨htu.trans hsame.1.symm, hfeeds.ended, ?_, hfeeds.status, ?_⟩
      · rw [hahead]
        exact hfeeds.part
      · rw [hahead]
        exact hfeeds.whole

/-- So does taking the pause off the front fetcher. -/
theorem Intact.resume (h : p.Intact content whole) {f : HTTPFetcher β} {rest : List (HTTPFetcher β)}
    (ha : p.mActiveFetchers = f :: rest)
    (htidy : ({ p with
      mActiveFetchers := { f with mPaused := false } :: rest
      mCurlMHandle := p.mCurlMHandle.easyPause f.mCurl } : DownloadPipeline β).Tidy) :
    ({ p with
      mActiveFetchers := { f with mPaused := false } :: rest
      mCurlMHandle := p.mCurlMHandle.easyPause f.mCurl } : DownloadPipeline β).Intact content whole := by
  have hmem : f ∈ p.mActiveFetchers := by
    rw [ha]
    exact List.mem_cons_self ..
  have hw := h.within f (active_subset_fetchers hmem)
  have hgw : ({ f with mPaused := false } : HTTPFetcher β).Within content :=
    ⟨hw.url, hw.offset, hw.fits, hw.done, hw.left, hw.here⟩
  by_cases hrun : f.mState = .running
  · obtain ⟨_, t, ht, hcurl, hfeeds⟩ := (h.linked f hmem).running hrun
    refine h.event (u := fun t => { t with paused := false }) (show p.mActiveFetchers = [] ++ f :: rest from ha) htidy ?_ ht
      hfeeds.userp (fun t => ⟨rfl, rfl⟩) ⟨rfl, rfl, rfl, rfl⟩ hgw rfl
      ⟨hfeeds.userp, hfeeds.ended, hfeeds.part, hfeeds.status, hfeeds.whole⟩
    rw [hcurl]
    rfl
  · have hl := h.linked f hmem
    have hsame : (p.mCurlMHandle.easyPause f.mCurl).transfers = p.mCurlMHandle.transfers := by
      rw [hl.null hrun]
      rfl
    refine h.replace (g := { f with mPaused := false })
      (show p.fetchers = [] ++ f :: (rest ++ p.mPendingFetchers) from fetchers_split ha) rfl htidy rfl rfl hgw rfl
      (mem_replaced h.tidy.distinct (show p.mActiveFetchers = [] ++ f :: rest from ha)) (fun k hk => hk)
      ⟨hl.started, fun hr => absurd hr hrun, hl.null, hl.done⟩ ?_ ?_ ?_
    · intro t ht _
      show t ∈ (p.mCurlMHandle.easyPause f.mCurl).transfers
      rw [hsame]
      exact ht
    · intro t ht
      replace ht : t ∈ (p.mCurlMHandle.easyPause f.mCurl).transfers := ht
      rw [hsame] at ht
      refine Or.inl ⟨ht, fun hu => hrun ?_⟩
      exact (h.owner (active_subset_fetchers hmem) ht hu).2.1
    · show ((p.mCurlMHandle.easyPause f.mCurl).transfers.map (·.easy)).Nodup
      rw [hsame]
      exact h.easies

/-- So does the removal of a front fetcher that is done and empty: it has handed out its part. -/
theorem Intact.pop (h : p.Intact content whole) {f : HTTPFetcher β} {rest : List (HTTPFetcher β)}
    (ha : p.mActiveFetchers = f :: rest) (hzero : f.mNused - f.mReadOff = 0) (hdone : f.mState = .done)
    (htidy : ({ p with mActiveFetchers := rest, mCurlMHandle := f.destroy p.mCurlMHandle } : DownloadPipeline β).Tidy) :
    ({ p with mActiveFetchers := rest, mCurlMHandle := f.destroy p.mCurlMHandle } : DownloadPipeline β).Intact content whole := by
  have hmem : f ∈ p.mActiveFetchers := by
    rw [ha]
    exact List.mem_cons_self ..
  have hl := h.linked f hmem
  have hrun : f.mState ≠ .running := by
    rw [hdone]
    exact FetcherState.noConfusion
  have hmulti := HTTPFetcher.destroy_of_null (hl.null hrun) p.mCurlMHandle
  have hf : p.fetchers = f :: (rest ++ p.mPendingFetchers) := fetchers_front ha
  have hsub : ∀ k ∈ rest ++ p.mPendingFetchers, k ∈ p.fetchers := by
    intro k hk
    rw [hf]
    exact List.mem_cons_of_mem _ hk
  rw [hmulti] at htidy ⊢
  refine ⟨htidy, fun k hk => h.within k (hsub k hk), fun k hk => h.linked k ?_, h.pending, ?_, h.easies, ?_⟩
  · rw [ha]
    exact List.mem_cons_of_mem _ hk
  · intro t ht
    obtain ⟨k, hk, hu, hkrun, hcurl⟩ := h.known t ht
    rw [ha] at hk
    rcases List.mem_cons.1 hk with rfl | hk
    · exact absurd hkrun hrun
    · exact ⟨k, hk, hu, hkrun, hcurl⟩
  · have hempty : f.todo content = [] := by
      rw [← HTTPFetcher.unread_append_ahead (h.within f (active_subset_fetchers hmem)), hl.done hdone,
        (HTTPFetcher.unread_eq_nil_iff (h.tidy.buffered f (active_subset_fetchers hmem))).2 hzero]
      rfl
    have hw := h.whole
    rw [hf, List.flatMap_cons, hempty, List.nil_append] at hw
    exact hw

/-- Every step of a download with an honest server goes well and keeps the pipeline intact. -/
theorem Step.intact (hs : Step (StartEnv.Honest content) p r p') (hsize : content.length ≤ 2 ^ 62)
    (h : p.Intact content whole) : p'.Intact content whole ∧ r = .ok () := by
  have htidy := hs.tidy h.tidy
  have hd := h.tidy.distinct
  cases hs with
  | @launch f pending env hp hE =>
    have hf : p.fetchers = p.mActiveFetchers ++ f :: pending := by
      rw [fetchers, hp]
    have hmem : f ∈ p.mPendingFetchers := by
      rw [hp]
      exact List.mem_cons_self ..
    have hne : ∀ k ∈ p.mActiveFetchers, k.this ≠ f.this := by
      intro k hk he
      have hd' := hd
      unfold Distinct at hd'
      rw [hf, List.map_append, List.nodup_append] at hd'
      exact hd'.2.2 _ (List.mem_map_of_mem hk) _ (List.mem_cons_self ..) he
    refine h.start hsize hE (Or.inl (h.pending f hmem)) hf (by simp [fetchers]) rfl htidy rfl ?_ ?_
    · intro k
      rw [List.mem_append, List.mem_singleton]
      constructor
      · rintro (hk | hk)
        · exact Or.inr ⟨hk, hne k hk⟩
        · exact Or.inl hk
      · rintro (hk | ⟨hk, _⟩)
        · exact Or.inr hk
        · exact Or.inl hk
    · intro k hk
      rw [hp]
      exact List.mem_cons_of_mem _ hk
  | @restart f rest env ha hfailed hE =>
    have hf : p.fetchers = [] ++ f :: (rest ++ p.mPendingFetchers) := fetchers_split ha
    exact h.start hsize hE (Or.inr hfailed) hf (by simp [fetchers]) rfl htidy rfl
      (mem_replaced hd (show p.mActiveFetchers = [] ++ f :: rest from ha)) (fun k hk => hk)
  | offer ha hreach => exact ⟨h.offer ha hreach htidy, rfl⟩
  | resume ha => exact ⟨h.resume ha htidy, rfl⟩
  | @idle f rest n ha hnil =>
    have hmem : f ∈ p.fetchers := by
      rw [fetchers, ha]
      exact List.mem_cons_self ..
    obtain ⟨bs, heq, _⟩ := HTTPFetcher.handOut_spec (h.tidy.buffered f hmem) n
    obtain rfl : bs = [] := by
      rw [heq] at hnil
      exact Got.bytes.inj hnil
    have hsame : (f.handOut n).2 = f := by
      rw [heq]
      simp
    rw [hsame, ← ha]
    exact ⟨h, rfl⟩
  | pop ha hzero hdone => exact ⟨h.pop ha hzero hdone htidy, rfl⟩
  | @finish pre post f e res respcode hinfo ha hcurl => exact h.finish rfl hinfo ha hcurl htidy
  | @stray e res respcode err hinfo hnone =>
    obtain ⟨t, ht, heasy, _⟩ := infoRead_some hinfo
    obtain ⟨f, hf, _, _, hcurl⟩ := h.known t ht
    rw [heasy] at hcurl
    exact absurd hcurl (hnone f hf)
  | @dangle e t hfind hnone =>
    obtain ⟨f, hf, hu, _⟩ := h.known t (Multi.mem_of_find? hfind).1
    exact absurd hu.symm (hnone f hf)

/-- Handing out keeps a pipeline intact, and the bytes are among those the caller has room for. -/
theorem HandsOut.intact {n : Nat} {bs : List β} (ho : p.HandsOut n bs p') (h : p.Intact content whole) :
    p'.Intact content whole ∧ p'.returned = p.returned ++ bs ∧ 1 ≤ bs.length ∧ bs.length ≤ n := by
  have htidy := ho.tidy h.tidy
  obtain ⟨f, rest, ha, hne, hbs, rfl⟩ := ho
  have hmem : f ∈ p.mActiveFetchers := by
    rw [ha]
    exact List.mem_cons_self ..
  have hmemf : f ∈ p.fetchers := active_subset_fetchers hmem
  have hb := h.tidy.buffered f hmemf
  obtain ⟨hgw, htodo, hahead⟩ := (h.within f hmemf).gave hb n hbs
  have hl := h.linked f hmem
  obtain ⟨bs', heq, hlen, _, _⟩ := HTTPFetcher.handOut_spec hb n
  obtain rfl : bs' = bs := by
    rw [heq] at hbs
    exact Got.bytes.inj hbs
  have hret : ({ p with mActiveFetchers := (f.handOut n).2 :: rest, handed := p.handed ++ [(f.this, bs')] } :
      DownloadPipeline β).returned = p.returned ++ bs' := by
    simp [returned]
  refine ⟨⟨htidy, ?_, ?_, h.pending, ?_, h.easies, ?_⟩, hret, List.length_pos_iff.2 hne, ?_⟩
  · intro k hk
    rcases List.mem_cons.1 hk with rfl | hk
    · exact hgw
    · refine h.within k ?_
      rw [fetchers, ha]
      exact List.mem_cons_of_mem _ hk
  · intro k hk
    rcases List.mem_cons.1 hk with rfl | hk
    · refine ⟨hl.started, fun hrun => ?_, hl.null, fun hdone => ?_⟩
      · obtain ⟨hparent, t, ht, hcurl, hfeeds⟩ := hl.running hrun
        refine ⟨hparent, t, ht, hcurl, hfeeds.userp, hfeeds.ended, ?_, hfeeds.status, ?_⟩
        · rw [hahead]
          exact hfeeds.part
        · rw [hahead]
          exact hfeeds.whole
      · rw [hahead]
        exact hl.done hdone
    · refine h.linked k ?_
      rw [ha]
      exact List.mem_cons_of_mem _ hk
  · intro t ht
    obtain ⟨k, hk, hu, hrun, hcurl⟩ := h.known t ht
    rw [ha] at hk
    rcases List.mem_cons.1 hk with rfl | hk
    · exact ⟨(k.handOut n).2, List.mem_cons_self .., hu, hrun, hcurl⟩
    · exact ⟨k, List.mem_cons_of_mem _ hk, hu, hrun, hcurl⟩
  · have hw := h.whole
    rw [fetchers, ha, List.cons_append, List.flatMap_cons, htodo] at hw
    rw [hret, fetchers, List.cons_append, List.flatMap_cons, ← hw]
    simp only [List.append_assoc]
  · rw [hlen]
    exact Nat.min_le_right _ _

end DownloadPipeline

end QingStor
