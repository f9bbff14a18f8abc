import QingStor.Lemmas.Pauses

/-!
# Turns that get the front fetcher on

A turn of `read` that waits is served when curl gets the transfer of the front fetcher on. Then the next turn has bytes for the
caller or removes the front fetcher, so of the turns of a call that has not returned only a few are served.
-/

namespace QingStor

variable {β : Type*}

/-- A transfer gets on in a round: some of the bytes it has left are offered. When none is left it was answered well, and its end is
reported. -/
def Transfer.served (t : Transfer β) (r : Round β) : Bool :=
  if t.rest.isEmpty then
    t.res = .ok ∧ AcceptedStatus t.status ∧ r.ends.find? (fun e => e.easy = t.easy) = some ⟨t.easy, none⟩
  else r.events.any (fun e => e.easy = t.easy ∧ 0 < e.n)

/-- The transfer of the front fetcher. -/
def DownloadPipeline.frontTransfer (p : DownloadPipeline β) : Option (Transfer β) :=
  match p.mActiveFetchers with
  | [] => none
  | f :: _ =>
    match f.mCurl with
    | .easy e => p.mCurlMHandle.find? e
    | _ => none

/-- The turn does not wait, or the transfer of the front fetcher gets on in it. -/
def ReadTurn.served (t : ReadTurn β) : Bool :=
  match t.beforeRestart with
  | none => true
  | some p => (p.restart t.round.restart).pipeline.frontTransfer.any (fun k => k.served t.round)

/-- The next turn need not wait: the front fetcher has bytes to hand out, or it is done. -/
def DownloadPipeline.ready (p : DownloadPipeline β) : Bool :=
  p.mActiveFetchers.head?.any (fun f => !f.unread.isEmpty || f.mState = .done)

/-- The pieces curl offers in a round are no larger than curl makes them. -/
structure Round.Small (r : Round β) : Prop where
  events : ∀ e ∈ r.events, (e.n : Int) ≤ curlMaxWriteSize
  resume : ∀ ns ∈ r.resume, SmallPieces ns

namespace DownloadPipeline

variable {content whole : List β} {p p' : DownloadPipeline β} {f : HTTPFetcher β} {rest : List (HTTPFetcher β)}
  {r : Except Fault Unit}

theorem ready_iff (ha : p.mActiveFetchers = f :: rest) : p.ready = true ↔ f.unread ≠ [] ∨ f.mState = .done := by
  unfold ready
  rw [ha, List.head?_cons, Option.any_some]
  simp

/-- A download in order whose pauses are in step. -/
structure Runs (content whole : List β) (p : DownloadPipeline β) : Prop where
  intact : p.Intact content whole
  synced : Synced p

theorem Runs.steps (h : p.Runs content whole) (hsize : content.length ≤ 2 ^ 62)
    (hrun : Lib.Run (Step (StartEnv.Honest content)) p r p') : p'.Runs content whole ∧ r = .ok () := by
  refine hrun.ends_well (I := Runs content whole) (fun q _ _ hq hs => ?_) h
  obtain ⟨hintact, hok⟩ := hs.intact hsize hq.intact
  exact ⟨⟨hintact, hq.synced.step hs⟩, hok⟩

theorem Runs.distinct (h : p.Runs content whole) : p.Distinct := h.intact.tidy.distinct

/-- The front fetcher waits for curl with an empty buffer, on the handle of the transfer `t`. -/
structure Awaits (p : DownloadPipeline β) (f : HTTPFetcher β) (rest : List (HTTPFetcher β)) (t : Transfer β) : Prop where
  front : p.mActiveFetchers = f :: rest
  curl : f.mCurl = .easy t.easy
  empty : f.unread = []
  unpaused : f.mPaused = false
  transfer : t ∈ p.mCurlMHandle.transfers

theorem Intact.find? (h : p.Intact content whole) {t : Transfer β} (ht : t ∈ p.mCurlMHandle.transfers) :
    p.mCurlMHandle.find? t.easy = some t := by
  cases hfind : p.mCurlMHandle.find? t.easy with
  | none =>
    have hnone := List.find?_eq_none.1 hfind t ht
    exact absurd (decide_eq_true rfl) hnone
  | some k =>
    obtain ⟨hk, heasy⟩ := Multi.mem_of_find? hfind
    rw [h.eq_of_easy hk ht heasy]

namespace Awaits

variable {t : Transfer β}

theorem mem (h : p.Awaits f rest t) : f ∈ p.fetchers := by
  refine active_subset_fetchers ?_
  rw [h.front]
  exact List.mem_cons_self ..

theorem feeds (h : p.Awaits f rest t) (hp : p.Runs content whole) : f.mState = .running ∧ t.Feeds content f := by
  refine hp.intact.feeds ?_ h.transfer h.curl
  rw [h.front]
  exact List.mem_cons_self ..

/-- Curl may go on with the transfer. -/
theorem goes (h : p.Awaits f rest t) (hp : p.Runs content whole) : t.paused = false ∧ t.ended = false := by
  refine ⟨?_, (h.feeds hp).2.ended⟩
  by_contra hpaused
  have hf := hp.synced.paused f h.mem t h.transfer h.curl (by simpa using hpaused)
  rw [h.unpaused] at hf
  cases hf

theorem frontTransfer (h : p.Awaits f rest t) (hp : p.Runs content whole) : p.frontTransfer = some t := by
  unfold DownloadPipeline.frontTransfer
  rw [h.front]
  dsimp only
  rw [h.curl]
  exact hp.intact.find? h.transfer

end Awaits

/-! ## Deliveries -/

/-- The front fetcher stays in front in a delivery, and only an offer to it changes it. -/
theorem deliver_front (ha : p.mActiveFetchers = f :: rest) (e : NetEvent) :
    ∃ g rest', (p.deliver e).mActiveFetchers = g :: rest' ∧
      (g = f ∨ (∃ t, p.mCurlMHandle.find? e.easy = some t ∧ t.userp = f.this) ∧ g = (f.offer p.mCurlMHandle e.easy e.n).1) := by
  unfold deliver
  cases hfind : p.mCurlMHandle.find? e.easy with
  | none => exact ⟨f, rest, ha, Or.inl rfl⟩
  | some t =>
    dsimp only
    cases howner : p.mActiveFetchers.find? (fun k => k.this = t.userp) with
    | none => exact ⟨f, rest, ha, Or.inl rfl⟩
    | some k =>
      dsimp only
      rw [ha, List.map_cons]
      refine ⟨_, _, rfl, ?_⟩
      rw [ha, List.find?_cons] at howner
      split at howner
      · rename_i hthis
        obtain rfl := Option.some.inj howner
        rw [if_pos rfl]
        exact Or.inr ⟨⟨t, rfl, (of_decide_eq_true hthis).symm⟩, rfl⟩
      · rename_i hother
        have hk : k.this = t.userp := by simpa using List.find?_some howner
        rw [if_neg]
        · exact Or.inl rfl
        · rw [hk]
          exact of_decide_eq_false hother

/-- An offer changes the transfer on its handle only. -/
theorem offer_others (f : HTTPFetcher β) {m : Multi β} {t : Transfer β} (ht : t ∈ m.transfers) {e : Nat} (hne : t.easy ≠ e) (n : Nat) :
    t ∈ (f.offer m e n).2.transfers := by
  have hupdate : ∀ u, t ∈ (m.update e u).transfers := fun u => List.mem_map.2 ⟨t, ht, if_neg hne⟩
  unfold HTTPFetcher.offer
  split
  · exact ht
  · split
    · exact ht
    · split
      · exact hupdate _
      · exact hupdate _

theorem deliver_others {t : Transfer β} (ht : t ∈ p.mCurlMHandle.transfers) {e : NetEvent} (hne : t.easy ≠ e.easy) :
    t ∈ (p.deliver e).mCurlMHandle.transfers := by
  unfold deliver
  split
  · exact ht
  · split
    · exact ht
    · exact offer_others _ ht hne e.n

/-- A delivery on a transfer that has nothing to give does nothing. -/
theorem offer_nothing (f : HTTPFetcher β) {m : Multi β} {t : Transfer β} {e n : Nat} (hfind : m.find? e = some t)
    (hnil : t.rest.take n = []) : f.offer m e n = (f, m) := by
  unfold HTTPFetcher.offer
  rw [hfind]
  dsimp only
  rw [hnil]
  exact if_pos (Or.inr (Or.inr rfl))

/-- The front fetcher still waits after a delivery that has nothing for it. -/
theorem Awaits.deliver {t : Transfer β} (h : p.Awaits f rest t) (hp : p.Runs content whole) {e : NetEvent}
    (hnone : e.easy = t.easy → t.rest.take e.n = []) : ∃ rest', (p.deliver e).Awaits f rest' t := by
  have hfeeds := (h.feeds hp).2
  obtain ⟨g, rest', ha, hor⟩ := deliver_front h.front e
  by_cases heasy : e.easy = t.easy
  · have hfind := hp.intact.find? h.transfer
    rw [← heasy] at hfind
    have hsame : ∀ k : HTTPFetcher β, k.offer p.mCurlMHandle e.easy e.n = (k, p.mCurlMHandle) :=
      fun k => offer_nothing k hfind (hnone heasy)
    have hg : g = f := by
      rcases hor with hg | ⟨_, hg⟩
      · exact hg
      · rw [hg, hsame]
    subst hg
    refine ⟨rest', ha, h.curl, h.empty, h.unpaused, ?_⟩
    unfold DownloadPipeline.deliver
    rw [hfind]
    dsimp only
    split
    · exact h.transfer
    · rw [hsame]
      exact h.transfer
  · have hg : g = f := by
      refine hor.resolve_right ?_
      rintro ⟨⟨k, hfind, huserp⟩, _⟩
      obtain ⟨hk, hke⟩ := Multi.mem_of_find? hfind
      have hcurl := (hp.intact.owner h.mem hk huserp).2.2
      rw [h.curl, hke] at hcurl
      exact heasy (CurlPtr.easy.inj hcurl).symm
    subst hg
    exact ⟨rest', ha, h.curl, h.empty, h.unpaused, deliver_others h.transfer (fun he => heasy he.symm)⟩

/-- Bytes for a front fetcher that waits are there to be handed out. -/
theorem Awaits.delivered {t : Transfer β} (h : p.Awaits f rest t) (hp : p.Runs content whole) {e : NetEvent}
    (heasy : e.easy = t.easy) (hsome : t.rest.take e.n ≠ []) (hsmall : (e.n : Int) ≤ curlMaxWriteSize) :
    (p.deliver e).ready = true := by
  have hbuff : f.mReadBuff.isSome = true := hp.intact.tidy.held f h.mem _ h.curl
  have hable := hp.synced.able f h.mem
  obtain ⟨hopen, hgoes⟩ := h.goes hp
  have hfind := hp.intact.find? h.transfer
  rw [← heasy] at hfind
  have hlen : ((t.rest.take e.n).length : Int) ≤ curlMaxWriteSize := by
    rw [List.length_take]
    omega
  have hoffer : (f.offer p.mCurlMHandle e.easy e.n).1.unread ≠ [] := by
    obtain ⟨_, hu, _⟩ := hable.roomy.write hbuff (t.rest.take e.n)
    unfold HTTPFetcher.offer
    rw [hfind]
    dsimp only
    rw [if_neg (by simpa [hopen, hgoes] using hsome)]
    split
    · rename_i g hcall
      rw [hcall, h.empty] at hu
      rw [hu]
      simpa using hsome
    · rename_i g hcall
      exact (hable.unread_of_pause hbuff hlen (by rw [hcall]) h.empty).elim
  have hfront : p.mActiveFetchers.find? (fun k => k.this = t.userp) = some f := by
    rw [h.front, List.find?_cons, decide_eq_true (h.feeds hp).2.userp.symm]
  have ha : (p.deliver e).mActiveFetchers = (f.offer p.mCurlMHandle e.easy e.n).1 ::
      rest.map (fun k => if k.this = f.this then (f.offer p.mCurlMHandle e.easy e.n).1 else k) := by
    unfold DownloadPipeline.deliver
    rw [hfind]
    dsimp only
    rw [hfront]
    dsimp only
    rw [h.front, List.map_cons, if_pos rfl]
  exact (ready_iff ha).2 (Or.inl hoffer)

/-- A delivery takes nothing away from the front fetcher. -/
theorem deliver_ready (hp : p.Tidy) (hready : p.ready = true) (e : NetEvent) : (p.deliver e).ready = true := by
  cases ha : p.mActiveFetchers with
  | nil =>
    unfold ready at hready
    rw [ha] at hready
    cases hready
  | cons f rest =>
    have hmem : f ∈ p.fetchers := active_subset_fetchers (by rw [ha]; exact List.mem_cons_self ..)
    obtain ⟨g, rest', ha', hor⟩ := deliver_front ha e
    rw [ready_iff ha] at hready
    rw [ready_iff ha']
    rcases hor with rfl | ⟨hreach, rfl⟩
    · exact hready
    · rcases HTTPFetcher.offer_cases (hp.buffered f hmem) (hp.reached hmem (Or.inr hreach)) p.mCurlMHandle e.easy e.n with
        hsame | ⟨t, g, _, _, ⟨_, _, _, _, hg⟩, _, _, hor⟩
      · rw [hsame]
        exact hready
      · have hstate : g.mState = f.mState := by rw [hg]
        rcases hor with ⟨hne, hu, heq⟩ | ⟨hu, heq⟩
        · rw [heq, hu]
          exact Or.inl (fun happ => hne (List.append_eq_nil_iff.1 happ).2)
        · rw [heq, hu, hstate]
          exact hready

theorem Runs.deliver (h : p.Runs content whole) (hsize : content.length ≤ 2 ^ 62) (e : NetEvent) :
    (p.deliver e).Runs content whole := (h.steps hsize (deliver_run h.distinct e)).1

theorem deliverAll_ready (h : p.Runs content whole) (hsize : content.length ≤ 2 ^ 62) (hready : p.ready = true)
    (events : List NetEvent) : (events.foldl deliver p).ready = true := by
  induction events generalizing p with
  | nil => exact hready
  | cons e events ih => exact ih (h.deliver hsize e) (deliver_ready h.intact.tidy hready e)

/-- When bytes come for a front fetcher that waits, there are bytes to hand out. -/
theorem Awaits.deliverAll {t : Transfer β} (h : p.Awaits f rest t) (hp : p.Runs content whole) (hsize : content.length ≤ 2 ^ 62)
    (hleft : t.rest ≠ []) {events : List NetEvent} (hsmall : ∀ e ∈ events, (e.n : Int) ≤ curlMaxWriteSize)
    (hcome : ∃ e ∈ events, e.easy = t.easy ∧ 0 < e.n) : (events.foldl DownloadPipeline.deliver p).ready = true := by
  induction events generalizing p rest with
  | nil =>
    obtain ⟨e, he, _⟩ := hcome
    cases he
  | cons e events ih =>
    have hsmall' : ∀ k ∈ events, (k.n : Int) ≤ curlMaxWriteSize := fun k hk => hsmall k (List.mem_cons_of_mem _ hk)
    rw [List.foldl_cons]
    by_cases hthis : e.easy = t.easy ∧ 0 < e.n
    · have hsome : t.rest.take e.n ≠ [] := by
        rw [Ne, List.take_eq_nil_iff, not_or]
        exact ⟨Nat.ne_of_gt hthis.2, hleft⟩
      exact deliverAll_ready (hp.deliver hsize e) hsize
        (h.delivered hp hthis.1 hsome (hsmall e (List.mem_cons_self ..))) events
    · obtain ⟨rest', h'⟩ := h.deliver hp (e := e) (fun heasy => by
        have hzero : e.n = 0 := by
          by_contra hne
          exact hthis ⟨heasy, Nat.pos_of_ne_zero hne⟩
        rw [hzero, List.take_zero])
      refine ih h' (hp.deliver hsize e) hsmall' ?_
      obtain ⟨k, hk, hke⟩ := hcome
      rcases List.mem_cons.1 hk with rfl | hk
      · exact absurd hke hthis
      · exact ⟨k, hk, hke⟩

/-- Deliveries have nothing for a transfer that has nothing left. -/
theorem Awaits.deliverNone {t : Transfer β} (h : p.Awaits f rest t) (hp : p.Runs content whole) (hsize : content.length ≤ 2 ^ 62)
    (hnil : t.rest = []) (events : List NetEvent) : ∃ rest', (events.foldl DownloadPipeline.deliver p).Awaits f rest' t := by
  induction events generalizing p rest with
  | nil => exact ⟨rest, h⟩
  | cons e events ih =>
    obtain ⟨rest', h'⟩ := h.deliver hp (e := e) (fun _ => by rw [hnil, List.take_nil])
    exact ih h' (hp.deliver hsize e)

/-! ## Ends -/

/-- The front fetcher stays in front when an end is reported, and only the end of its own transfer changes it. -/
theorem handleEnd_front (ha : p.mActiveFetchers = f :: rest) (e : EndEvent) :
    ∃ g rest', (p.handleEnd e).pipeline.mActiveFetchers = g :: rest' ∧
      (g = f ∨ ∃ k ∈ p.mActiveFetchers, k.mCurl = .easy e.easy ∧ k.this = f.this ∧ ∃ res respcode,
        p.mCurlMHandle.infoRead e = some (res, respcode) ∧
          g = (k.handleResult res respcode (p.mCurlMHandle.update e.easy (fun t => { t with ended := true }))).fetcher) := by
  unfold handleEnd
  cases hinfo : p.mCurlMHandle.infoRead e with
  | none => exact ⟨f, rest, ha, Or.inl rfl⟩
  | some info =>
    obtain ⟨res, respcode⟩ := info
    dsimp only
    cases howner : p.mActiveFetchers.find? (fun k => k.mCurl = .easy e.easy) with
    | none => exact ⟨f, rest, ha, Or.inl rfl⟩
    | some k =>
      have hcurl : k.mCurl = .easy e.easy := by simpa using List.find?_some howner
      have hmem : k ∈ p.mActiveFetchers := List.mem_of_find?_eq_some howner
      dsimp only
      rw [ha, List.map_cons]
      refine ⟨_, _, rfl, ?_⟩
      by_cases hthis : f.this = k.this
      · rw [if_pos hthis]
        rw [ha] at hmem
        exact Or.inr ⟨k, hmem, hcurl, hthis.symm, res, respcode, rfl, rfl⟩
      · rw [if_neg hthis]
        exact Or.inl rfl

theorem handleEnd_others {t : Transfer β} (ht : t ∈ p.mCurlMHandle.transfers) {e : EndEvent} (hne : t.easy ≠ e.easy) :
    t ∈ (p.handleEnd e).pipeline.mCurlMHandle.transfers := by
  have hupdate : ∀ u, t ∈ (p.mCurlMHandle.update e.easy u).transfers := fun u => List.mem_map.2 ⟨t, ht, if_neg hne⟩
  unfold handleEnd
  split
  · exact ht
  · rename_i res respcode _
    dsimp only
    split
    · exact hupdate _
    · rename_i k howner
      have hcurl : k.mCurl = .easy e.easy := by simpa using List.find?_some howner
      rcases HTTPFetcher.handleResult_cases hcurl res respcode (p.mCurlMHandle.update e.easy (fun t => { t with ended := true })) with
        ⟨err, calls, _, _, heq⟩ | ⟨state, failures, m', heq, _, _, _, htr⟩
      · rw [heq]
        exact hupdate _
      · rw [heq]
        dsimp only
        rw [htr]
        split
        · exact List.mem_filter.2 ⟨hupdate _, decide_eq_true hne⟩
        · exact hupdate _

/-- The front fetcher still waits after the end of another transfer. -/
theorem Awaits.handleEnd {t : Transfer β} (h : p.Awaits f rest t) {e : EndEvent} (hne : e.easy ≠ t.easy) (hp : p.Runs content whole) :
    ∃ rest', (p.handleEnd e).pipeline.Awaits f rest' t := by
  obtain ⟨g, rest', ha, hor⟩ := handleEnd_front h.front e
  have hg : g = f := by
    refine hor.resolve_right ?_
    rintro ⟨k, hk, hcurl, hthis, _⟩
    obtain rfl := eq_of_this hp.distinct h.mem (active_subset_fetchers hk) hthis
    rw [h.curl] at hcurl
    exact hne (CurlPtr.easy.inj hcurl).symm
  subst hg
  exact ⟨rest', ha, h.curl, h.empty, h.unpaused, handleEnd_others h.transfer (fun he => hne he.symm)⟩

/-- An end takes nothing away from the front fetcher. -/
theorem handleEnd_ready (hp : p.Runs content whole) (hready : p.ready = true) (e : EndEvent) :
    (p.handleEnd e).pipeline.ready = true := by
  cases ha : p.mActiveFetchers with
  | nil =>
    unfold ready at hready
    rw [ha] at hready
    cases hready
  | cons f rest =>
    have hact : f ∈ p.mActiveFetchers := by
      rw [ha]
      exact List.mem_cons_self ..
    obtain ⟨g, rest', ha', hor⟩ := handleEnd_front ha e
    rw [ready_iff ha] at hready
    rw [ready_iff ha']
    rcases hor with rfl | ⟨k, hk, hcurl, hthis, res, respcode, _, rfl⟩
    · exact hready
    · obtain rfl := eq_of_this hp.distinct (active_subset_fetchers hact) (active_subset_fetchers hk) hthis
      obtain ⟨state, curl, parent, lines, failures, hsame⟩ :=
        k.handleResult_same res respcode (p.mCurlMHandle.update e.easy (fun t => { t with ended := true }))
      have hrun : k.mState = .running := by
        by_contra hne
        have hnull := (hp.intact.linked k hact).null hne
        rw [hcurl] at hnull
        cases hnull
      refine Or.inl ?_
      rw [hsame]
      exact hready.resolve_right (by rw [hrun]; exact FetcherState.noConfusion)

theorem Runs.handleEnd (h : p.Runs content whole) (hsize : content.length ≤ 2 ^ 62) (e : EndEvent) :
    (p.handleEnd e).pipeline.Runs content whole ∧ (p.handleEnd e).result = .ok () := h.steps hsize (handleEnd_run h.distinct e)

theorem handleEnds_ready (h : p.Runs content whole) (hsize : content.length ≤ 2 ^ 62) (hready : p.ready = true)
    (ends : List EndEvent) : (p.handleEnds ends).pipeline.ready = true := by
  induction ends generalizing p with
  | nil => exact hready
  | cons e ends ih =>
    obtain ⟨hp, hok⟩ := h.handleEnd hsize e
    unfold handleEnds
    rw [hok]
    exact ih hp (handleEnd_ready h hready e)

/-- A fetcher that took a response whole is done when its end is reported. -/
theorem Awaits.ended {t : Transfer β} (h : p.Awaits f rest t) (hp : p.Runs content whole) (hnil : t.rest = []) (hok : t.res = .ok)
    (hcode : AcceptedStatus t.status) : (p.handleEnd ⟨t.easy, none⟩).pipeline.ready = true := by
  obtain ⟨hopen, hgoes⟩ := h.goes hp
  have hinfo : p.mCurlMHandle.infoRead ⟨t.easy, none⟩ = some (.ok, t.status) := by
    unfold Multi.infoRead
    dsimp only
    rw [hp.intact.find? h.transfer]
    dsimp only
    rw [hgoes, hopen, hnil, hok]
    rfl
  have hfront : p.mActiveFetchers.find? (fun k => k.mCurl = .easy t.easy) = some f := by
    rw [h.front, List.find?_cons, decide_eq_true h.curl]
  have ha : (p.handleEnd ⟨t.easy, none⟩).pipeline.mActiveFetchers =
      (f.handleResult .ok t.status (p.mCurlMHandle.update t.easy (fun t => { t with ended := true }))).fetcher ::
        rest.map (fun k => if k.this = f.this then
          (f.handleResult .ok t.status (p.mCurlMHandle.update t.easy (fun t => { t with ended := true }))).fetcher else k) := by
    unfold DownloadPipeline.handleEnd
    rw [hinfo]
    dsimp only
    rw [hfront]
    dsimp only
    rw [h.front, List.map_cons, if_pos rfl]
  refine (ready_iff ha).2 (Or.inr ?_)
  rw [HTTPFetcher.handleResult, if_neg (by rw [h.curl]; exact CurlPtr.noConfusion)]
  dsimp only
  unfold AcceptedStatus at hcode
  rw [if_neg (by omega), if_neg (by omega)]
  rfl

/-- So it is when the first end reported for its handle is that one. -/
theorem Awaits.handleEnds {t : Transfer β} (h : p.Awaits f rest t) (hp : p.Runs content whole) (hsize : content.length ≤ 2 ^ 62)
    (hnil : t.rest = []) (hok : t.res = .ok) (hcode : AcceptedStatus t.status) {ends : List EndEvent}
    (hends : ends.find? (fun e => e.easy = t.easy) = some ⟨t.easy, none⟩) : (p.handleEnds ends).pipeline.ready = true := by
  induction ends generalizing p rest with
  | nil => cases hends
  | cons e ends ih =>
    obtain ⟨hp', hok'⟩ := hp.handleEnd hsize e
    unfold DownloadPipeline.handleEnds
    rw [hok']
    dsimp only
    rw [List.find?_cons] at hends
    split at hends
    · obtain rfl := Option.some.inj hends
      exact handleEnds_ready hp' hsize (h.ended hp hnil hok hcode) ends
    · rename_i hother
      obtain ⟨rest', h'⟩ := h.handleEnd (of_decide_eq_false hother) hp
      exact ih h' hp' hends

/-- When the transfer of a front fetcher that waits gets on in a round, the fetcher has bytes to hand out or is done after it. -/
theorem Awaits.wait {t : Transfer β} (h : p.Awaits f rest t) (hp : p.Runs content whole) (hsize : content.length ≤ 2 ^ 62)
    {r : Round β} (hwait : r.wait = true) (hperform : r.perform = true) (hsmall : r.Small) (hserved : t.served r = true) :
    (p.wait r).pipeline.ready = true := by
  have hruns : (r.events.foldl DownloadPipeline.deliver p).Runs content whole :=
    (hp.steps hsize (deliverAll_run hp.distinct r.events)).1
  unfold DownloadPipeline.wait
  rw [if_neg (not_not.2 hwait), if_neg (not_not.2 hperform)]
  unfold Transfer.served at hserved
  split at hserved
  · rename_i hnil
    have hnil := List.isEmpty_iff.1 hnil
    obtain ⟨hok, hcode, hends⟩ := of_decide_eq_true hserved
    obtain ⟨rest', h'⟩ := h.deliverNone hp hsize hnil r.events
    exact h'.handleEnds hruns hsize hnil hok hcode hends
  · rename_i hleft
    have hcome : ∃ e ∈ r.events, e.easy = t.easy ∧ 0 < e.n := by simpa using hserved
    exact handleEnds_ready hruns hsize
      (h.deliverAll hp hsize (fun hnil => hleft (by rw [hnil]; rfl)) hsmall.events hcome) r.ends

/-! ## Turns -/

/-- Launching puts nothing in front of the front fetcher. -/
theorem launchFrom_front (env : Nat → StartEnv β) (i : Nat) (pending : List (HTTPFetcher β))
    (ha : p.mActiveFetchers = f :: rest) : ∃ rest', (launchFrom env i pending p).pipeline.mActiveFetchers = f :: rest' := by
  induction pending generalizing p rest i with
  | nil => exact ⟨rest, ha⟩
  | cons g pending ih =>
    unfold launchFrom
    split
    · dsimp only
      split
      · have hnext : p.mActiveFetchers ++ [(g.start (env i) p.mCurlMHandle).fetcher] =
            f :: (rest ++ [(g.start (env i) p.mCurlMHandle).fetcher]) := by rw [ha, List.cons_append]
        exact ih (i + 1) hnext
      · exact ⟨rest ++ [(g.start (env i) p.mCurlMHandle).fetcher], by dsimp only; rw [ha]; rfl⟩
    · exact ⟨rest, ha⟩

/-- When `get` gives nothing and it is not the end, there was nothing to hand out, and the front fetcher is left empty, not paused
and not done. -/
theorem getFront_waits (hp : p.Runs content whole) (hsize : content.length ≤ 2 ^ 62) {n : Nat} (hn : 0 < n)
    {resume : List (List Nat)} (hsmall : ∀ ns ∈ resume, SmallPieces ns) {got : Got β} {q : DownloadPipeline β}
    (h : p.getFront n resume = some (got, q)) (hne : got ≠ .eof) (hnone : ∀ bs, got = .bytes bs → bs = []) :
    p.ready = false ∧ q.Runs content whole ∧
      ∃ f rest, q.mActiveFetchers = f :: rest ∧ f.unread = [] ∧ f.mPaused = false ∧ f.mState ≠ .done := by
  have hq : q.Runs content whole := (hp.steps hsize (getFront_nothing h hnone)).1
  unfold getFront at h
  cases ha : p.mActiveFetchers with
  | nil =>
    rw [ha] at h
    cases h
  | cons f rest =>
    rw [ha] at h
    obtain ⟨hgot, rfl⟩ := Prod.mk.inj (Option.some.inj h)
    have hable := hp.synced.able f (active_subset_fetchers (by rw [ha]; exact List.mem_cons_self ..))
    have hgiven : (f.get n resume p.mCurlMHandle).1.given = [] := by
      rw [hgot]
      cases got with
      | bytes bs => exact hnone bs rfl
      | eof | nothing => rfl
    obtain ⟨hempty, hopen⟩ := hable.nothing hn hsmall hgiven
    have hgets := hable.roomy.gets n resume p.mCurlMHandle
    have hundone : (f.get n resume p.mCurlMHandle).2.1.mState ≠ .done := by
      obtain ⟨g, m, hrun, ⟨havail, heq⟩ | ⟨_, heq⟩⟩ := get_run (E := StartEnv.Honest content) n resume ha
      · have hg := (hp.steps hsize hrun).1
        obtain ⟨bs, hbs, hlen, _⟩ := HTTPFetcher.handOut_spec
          (hg.intact.tidy.buffered g (active_subset_fetchers (List.mem_cons_self ..))) n
        rw [heq] at hgiven
        dsimp only at hgiven
        rw [hbs] at hgiven
        rw [show bs = [] from hgiven, List.length_nil] at hlen
        omega
      · rw [heq] at hgot ⊢
        intro hdone
        refine hne (hgot.symm.trans ?_)
        exact if_pos hdone
    refine ⟨?_, hq, _, rest, rfl, hempty, hopen, hundone⟩
    rw [← Bool.not_eq_true, ready_iff ha]
    rintro (hsome | hdone)
    · obtain ⟨pieces, _, hbytes⟩ := hgets.bytes
      rw [hgiven, hempty] at hbytes
      exact hsome (List.append_eq_nil_iff.1 hbytes.symm).1
    · obtain ⟨_, _, _, _, _, hmoved⟩ := hgets.moved
      refine hundone ?_
      rw [hmoved]
      exact hdone

/-- A start does not touch the pause. -/
theorem start_mPaused (f : HTTPFetcher β) (env : StartEnv β) (m : Multi β) : (f.start env m).fetcher.mPaused = f.mPaused := by
  obtain ⟨size, buff, hprimed⟩ := f.primed_same env
  rcases f.start_cases env m with ⟨e, he⟩ | ⟨_, _, headers, lines, ⟨e, he⟩ | ⟨_, he⟩⟩
  all_goals
    rw [he, hprimed]

/-- After the restart such a front fetcher waits for curl. -/
theorem restart_awaits (hp : p.Runs content whole) (hsize : content.length ≤ 2 ^ 62) {env : StartEnv β} (hE : env.Honest content)
    (ha : p.mActiveFetchers = f :: rest) (hempty : f.unread = []) (hopen : f.mPaused = false) (hundone : f.mState ≠ .done) :
    (p.restart env).result = .ok () ∧ (p.restart env).pipeline.Runs content whole ∧
      ∃ g rest' t, (p.restart env).pipeline.Awaits g rest' t := by
  obtain ⟨hq, hok⟩ := hp.steps hsize (restart_run hE)
  refine ⟨hok, hq, ?_⟩
  have hfront : ∃ g rest', (p.restart env).pipeline.mActiveFetchers = g :: rest' ∧ g.unread = [] ∧ g.mPaused = false ∧
      g.mState ≠ .done ∧ g.mState ≠ .failed := by
    have hb := hp.intact.tidy.buffered f (active_subset_fetchers (by rw [ha]; exact List.mem_cons_self ..))
    unfold DownloadPipeline.restart at hok ⊢
    rw [ha] at hok ⊢
    dsimp only at hok ⊢
    split
    · rename_i hfailed
      rw [if_pos hfailed] at hok
      obtain ⟨_, g, hg, hrun, _, _, hu, _⟩ := HTTPFetcher.start_of_ok hb hok
      refine ⟨_, rest, rfl, ?_, (start_mPaused f env _).trans hopen, ?_, ?_⟩
      · rw [hg, hu, hempty]
      · rw [hg, hrun]
        exact FetcherState.noConfusion
      · rw [hg, hrun]
        exact FetcherState.noConfusion
    · rename_i hgoes
      exact ⟨f, rest, ha, hempty, hopen, hundone, hgoes⟩
  obtain ⟨g, rest', ha', hempty', hopen', hundone', hgoes'⟩ := hfront
  have hl := hq.intact.linked g (by rw [ha']; exact List.mem_cons_self ..)
  have hrun : g.mState = .running := by
    have hstarted := hl.started
    cases hstate : g.mState <;> simp_all
  obtain ⟨_, t, ht, hcurl, _⟩ := hl.running hrun
  exact ⟨g, rest', t, ha', hcurl, hempty', hopen', ht⟩

end DownloadPipeline

end QingStor
