import QingStor.Lemmas.Kept

/-!
# What a later read can go on from

A fetcher is underway while curl has an unfinished transfer for it, with the headers of its request. A pipeline whose active
fetchers are done, failed or underway, and whose registered handles are those of the fetchers underway, stays so as long as the
starts of `launch` go well, no restart throws after it registered a handle, and no complete answer comes without a response code.
-/

namespace QingStor

variable {β : Type*}

/-- The registered handles, each with whether its end was reported. -/
def Multi.ends (m : Multi β) : List (Nat × Bool) := m.transfers.map (fun t => (t.easy, t.ended))

namespace HTTPFetcher

/-- The headers of a request of the fetcher: they sign it when there is something to sign with, and they ask for a range when the
fetcher is for a part of the object. -/
structure Headers (f : HTTPFetcher β) (lines : List Str) : Prop where
  authorization : f.mCred.keyid ≠ [] → f.mCred.secret ≠ [] → entriesOf .authorization lines ≠ []
  range : 0 < f.mOffset ∨ 0 ≤ f.mLen → entriesOf .range lines ≠ []

/-- The fetcher runs, and the handle it has is registered, has its headers, and has not ended. -/
structure Underway (f : HTTPFetcher β) (m : Multi β) : Prop where
  running : f.mState = .running
  headed : ∃ lines, f.mHttpHeaders = some lines ∧ f.Headers lines
  registered : ∃ e, f.mCurl = .easy e ∧ (e, false) ∈ m.ends

/-- Everything a start takes from outside is there. -/
structure CanStart (f : HTTPFetcher β) (env : StartEnv β) : Prop where
  malloc : f.mReadBuff.isSome = true ∨ env.malloc = true
  easyInit : env.easyInit = true
  url : (qsParseUrl f.mUrl).isOk = true
  signs : env.signs = true

end HTTPFetcher

namespace DownloadPipeline

/-- Every fetcher is pending, done, failed or underway, and every registered handle is that of a fetcher underway. -/
structure Usable (p : DownloadPipeline β) : Prop where
  pending : ∀ f ∈ p.mPendingFetchers, f.mState = .init
  active : ∀ f ∈ p.mActiveFetchers, f.mState = .done ∨ f.mState = .failed ∨ f.Underway p.mCurlMHandle
  registered : ∀ x ∈ p.mCurlMHandle.ends, ∃ f ∈ p.mActiveFetchers, f.mCurl = .easy x.1 ∧ f.Underway p.mCurlMHandle

/-- The fetchers `launch` starts can be started. -/
def LaunchSafe (p : DownloadPipeline β) (env : Nat → StartEnv β) : Prop :=
  ∀ (i : Nat) (f : HTTPFetcher β), p.mPendingFetchers[i]? = some f → (p.mActiveFetchers.length : Int) + i < p.mNConnections → f.CanStart (env i)

/-- What the loop over `curl_multi_info_read` is told: how each transfer ended, and with which response code. -/
def messages (p : DownloadPipeline β) : List EndEvent → List (CURLcode × Nat)
  | [] => []
  | e :: es => (p.mCurlMHandle.infoRead e).toList ++
      match (p.handleEnd e).result with
      | .ok () => (p.handleEnd e).pipeline.messages es
      | .error _ => []

end DownloadPipeline

/-- What a turn is told about the ends of transfers. -/
def ReadTurn.messages (t : ReadTurn β) : List (CURLcode × Nat) :=
  match t.beforeRestart with
  | none => []
  | some p =>
    match (p.restart t.round.restart).result with
    | .error _ => []
    | .ok () =>
      if t.round.wait ∧ t.round.perform then
        (t.round.events.foldl DownloadPipeline.deliver (p.restart t.round.restart).pipeline).messages t.round.ends
      else []

/-! ## Starts and ends of one fetcher -/

namespace Multi

variable {m : Multi β}

theorem ends_update (m : Multi β) (h : Nat) {g : Transfer β → Transfer β} (hg : ∀ t, (g t).easy = t.easy ∧ (g t).ended = t.ended) :
    (m.update h g).ends = m.ends := by
  unfold ends update
  rw [List.map_map]
  refine List.map_congr_left (fun t _ => ?_)
  rw [Function.comp_apply]
  split
  · rw [(hg t).1, (hg t).2]
  · rfl

theorem ends_easyPause (m : Multi β) (curl : CurlPtr) : (m.easyPause curl).ends = m.ends := by
  unfold easyPause
  cases curl with
  | easy h => exact ends_update _ h (fun _ => ⟨rfl, rfl⟩)
  | null | indeterminate => rfl

/-- An end is marked at its handle. -/
theorem mem_ends_ended {e : Nat} {x : Nat × Bool} (hx : x ∈ (m.update e (fun t => { t with ended := true })).ends) :
    x.1 = e ∧ x.2 = true ∨ x.1 ≠ e ∧ x ∈ m.ends := by
  unfold ends update at hx
  rw [List.map_map] at hx
  obtain ⟨t, ht, rfl⟩ := List.mem_map.1 hx
  rw [Function.comp_apply]
  split
  · rename_i heq
    exact Or.inl ⟨heq, rfl⟩
  · rename_i hne
    exact Or.inr ⟨hne, List.mem_map_of_mem ht⟩

/-- ... and the other handles stay as they are. -/
theorem mem_ended {e : Nat} {x : Nat × Bool} (hx : x ∈ m.ends) (hne : x.1 ≠ e) :
    x ∈ (m.update e (fun t => { t with ended := true })).ends := by
  obtain ⟨t, ht, rfl⟩ := List.mem_map.1 hx
  refine List.mem_map.2 ⟨t, List.mem_map.2 ⟨t, ht, if_neg hne⟩, rfl⟩

end Multi

namespace HTTPFetcher

variable {f g : HTTPFetcher β} {m m' : Multi β}

theorem Underway.moved (h : f.Underway m) (hm : f.Moved g) : g.Underway m := by
  obtain ⟨_, _, _, _, _, rfl⟩ := hm
  obtain ⟨lines, hlines, hhead⟩ := h.headed
  exact ⟨h.running, ⟨lines, hlines, hhead.authorization, hhead.range⟩, h.registered⟩

/-- A fetcher stays underway while its handle stays registered and does not end. -/
theorem Underway.keeps (h : f.Underway m) (hkeep : ∀ e, f.mCurl = .easy e → (e, false) ∈ m.ends → (e, false) ∈ m'.ends) :
    f.Underway m' := by
  obtain ⟨e, hcurl, hgo⟩ := h.registered
  exact ⟨h.running, h.headed, e, hcurl, hkeep e hcurl hgo⟩

theorem offer_ends (f : HTTPFetcher β) (m : Multi β) (e n : Nat) : (f.offer m e n).2.ends = m.ends := by
  unfold offer
  split
  · rfl
  · split
    · rfl
    · split
      · exact m.ends_update e (fun _ => ⟨rfl, rfl⟩)
      · exact m.ends_update e (fun _ => ⟨rfl, rfl⟩)

/-- A start that ends well registers a handle. -/
theorem start_ends (env : StartEnv β) (hok : (f.start env m).result = .ok ()) :
    (f.start env m).multi.ends = m.ends ++ [(m.fresh, false)] := by
  have hadd : (m.addHandle f.this (env.respond none)).ends = m.ends ++ [(m.fresh, false)] := by
    unfold Multi.ends Multi.addHandle
    simp
  rcases f.start_cases env m with ⟨e, he⟩ | ⟨_, _, headers, lines, ⟨e, he⟩ | ⟨_, he⟩⟩
  · rw [he] at hok
    cases hok
  · rw [he] at hok
    cases hok
  · rw [he, ← hadd]
    exact Multi.ends_update _ _ (fun _ => ⟨rfl, rfl⟩)

/-- ... and the fetcher has it. -/
theorem start_mCurl (env : StartEnv β) (hok : (f.start env m).result = .ok ()) :
    (f.start env m).fetcher.mCurl = .easy m.fresh := by
  rcases f.start_cases env m with ⟨e, he⟩ | ⟨_, _, headers, lines, ⟨e, he⟩ | ⟨_, he⟩⟩
  · rw [he] at hok
    cases hok
  · rw [he]
  · rw [he]

/-- A start goes well exactly if everything it takes from outside is there. -/
theorem start_ok_iff (hstate : f.mState = .init ∨ f.mState = .failed) (env : StartEnv β) (m : Multi β) :
    (f.start env m).result = .ok () ↔ f.CanStart env := by
  constructor
  · intro hok
    rcases f.start_books env m with ⟨⟨e, he⟩, _⟩ | ⟨_, _, hbuff, hinit, _⟩
    · rw [hok] at he
      cases he
    · have hgoes : (qsParseUrl f.mUrl).isOk = true ∧ env.signs = true := by
        by_contra hno
        obtain ⟨⟨e, he⟩, _⟩ := BookkeepingAux.start_registers hbuff hstate hinit hno m
        rw [hok] at he
        cases he
      exact ⟨hbuff, hinit, hgoes.1, hgoes.2⟩
  · intro h
    exact start_ok h.malloc hstate h.easyInit h.signs h.url m

/-- The headers of a start ask for its range, and sign it. -/
theorem ownHeaders_headers (hdone : 0 ≤ f.mBytesDone) (S : Signer) (split : Str × Option Str) :
    f.Headers (headerContentGetList (f.mHeaders ++ f.ownHeaders S split)) := by
  have hentries : ∀ field, entriesOf field (headerContentGetList (f.mHeaders ++ f.ownHeaders S split)) = [] →
      (f.ownHeaders S split).filter (fun p => p.1 = field) = [] := by
    intro field h
    rw [entriesOf_getList, headerContentGetList, List.map_eq_nil_iff, List.filter_append] at h
    exact (List.append_eq_nil_iff.1 h).2
  refine ⟨fun hkey hsecret hnil => ?_, fun hpart hnil => ?_⟩
  · have h := hentries _ hnil
    rw [filter_ownHeaders, if_pos ⟨hkey, hsecret⟩] at h
    cases h
  · have h := hentries _ hnil
    have hguard : f.SendsRange := by
      rcases hpart with h | h
      · exact Or.inl (by omega)
      · exact Or.inr h
    obtain ⟨r, hr⟩ : ∃ r, f.range = some r := by
      rw [range_of_guard hguard]
      split <;> exact ⟨_, rfl⟩
    rw [filter_ownHeaders, hr] at h
    cases h

/-- A fetcher that was started is underway. -/
theorem start_underway (env : StartEnv β) (hdone : 0 ≤ f.mBytesDone) (hok : (f.start env m).result = .ok ()) :
    (f.start env m).fetcher.Underway (f.start env m).multi := by
  obtain ⟨split, _, _, hlines⟩ := (f.headed env m).sent hok
  have hends := start_ends env hok
  have hhead := f.ownHeaders_headers hdone env.signer split
  rcases f.start_cases env m with ⟨e, he⟩ | ⟨_, _, headers, lines, ⟨e, he⟩ | ⟨_, he⟩⟩
  · rw [he] at hok
    cases hok
  · rw [he] at hok
    cases hok
  · obtain ⟨size, buff, hsame⟩ := f.primed_same env
    refine ⟨by rw [he], ⟨_, hlines, ?_, ?_⟩, m.fresh, by rw [he], ?_⟩
    · rw [he, hsame]
      exact hhead.authorization
    · rw [he, hsame]
      exact hhead.range
    · rw [hends]
      exact List.mem_append_right _ (List.mem_singleton_self _)

end HTTPFetcher

/-! ## The steps of a usable pipeline -/

namespace DownloadPipeline

open BookkeepingAux

variable {p p' q : DownloadPipeline β} {r : Except Fault Unit}

/-- An active fetcher that has a handle is underway. -/
theorem Usable.underway (h : p.Usable) (hs : p.books.Sound) {f : HTTPFetcher β} (hf : f ∈ p.mActiveFetchers) {e : Nat}
    (hcurl : f.mCurl = .easy e) : f.Underway p.mCurlMHandle := by
  have hclosed : f.mState = .done ∨ f.mState = .failed → f.mCurl = .null := hs.closed f.slot (List.mem_map_of_mem hf)
  rcases h.active f hf with hstate | hstate | hu
  · rw [hclosed (Or.inl hstate)] at hcurl
    cases hcurl
  · rw [hclosed (Or.inr hstate)] at hcurl
    cases hcurl
  · exact hu

/-- Some active fetchers are replaced by others, and the handles of the rest stay as they are. -/
theorem Usable.change (h : p.Usable) (hk : Kept p) {pre old new post pending : List (HTTPFetcher β)} {m : Multi β}
    (ha : p.mActiveFetchers = pre ++ old ++ post) (hpending : ∀ f ∈ pending, f.mState = .init)
    (hnew : ∀ g ∈ new, g.mState = .done ∨ g.mState = .failed ∨ g.Underway m)
    (hkeep : ∀ x ∈ p.mCurlMHandle.ends, (∀ f ∈ old, f.mCurl ≠ .easy x.1) → x ∈ m.ends)
    (hback : ∀ x ∈ m.ends, (∃ g ∈ new, g.mCurl = .easy x.1 ∧ g.Underway m) ∨
      x ∈ p.mCurlMHandle.ends ∧ ∀ f ∈ old, f.mCurl ≠ .easy x.1) :
    Usable { p with mActiveFetchers := pre ++ new ++ post, mPendingFetchers := pending, mCurlMHandle := m } := by
  have hd := distinct_active hk.tidy.distinct
  have hothers : ∀ k ∈ pre ++ post, k ∈ p.mActiveFetchers ∧ ∀ f ∈ old, ∀ e, k.mCurl = .easy e → f.mCurl ≠ .easy e := by
    intro k hmem
    have hka : k ∈ p.mActiveFetchers := by
      rw [ha]
      simp only [List.mem_append] at hmem ⊢
      tauto
    refine ⟨hka, fun f hf e hcurl hcurl' => ?_⟩
    have hfa : f ∈ p.mActiveFetchers := by
      rw [ha]
      simp [hf]
    have hthis : k.this = f.this := hk.sound.one _ (List.mem_map_of_mem hka) _ (List.mem_map_of_mem hfa) e hcurl hcurl'
    rw [ha, List.map_append, List.map_append, List.nodup_append, List.nodup_append] at hd
    rcases List.mem_append.1 hmem with hk' | hk'
    · exact hd.1.2.2 _ (List.mem_map_of_mem hk') _ (List.mem_map_of_mem hf) hthis
    · exact hd.2.2 _ (List.mem_append_right _ (List.mem_map_of_mem hf)) _ (List.mem_map_of_mem hk') hthis.symm
  have hstill : ∀ k ∈ pre ++ post, k.Underway p.mCurlMHandle → k.Underway m := by
    intro k hmem hu
    exact hu.keeps (fun e hcurl hgo => hkeep _ hgo (fun f hf => (hothers k hmem).2 f hf e hcurl))
  refine ⟨hpending, ?_, ?_⟩
  · intro k hmem
    have hor : k ∈ new ∨ k ∈ pre ++ post := by
      simp only [List.mem_append] at hmem ⊢
      tauto
    rcases hor with hk' | hk'
    · exact hnew k hk'
    · rcases h.active k (hothers k hk').1 with hstate | hstate | hu
      · exact Or.inl hstate
      · exact Or.inr (Or.inl hstate)
      · exact Or.inr (Or.inr (hstill k hk' hu))
  · intro x hx
    rcases hback x hx with ⟨g, hg, hcurl, hu⟩ | ⟨hold, hnone⟩
    · exact ⟨g, by simp [hg], hcurl, hu⟩
    · obtain ⟨k, hka, hcurl, hu⟩ := h.registered x hold
      have hk' : k ∈ pre ++ post := by
        rw [ha] at hka
        simp only [List.mem_append] at hka ⊢
        rcases hka with (hka | hka) | hka
        · exact Or.inl hka
        · exact (hnone k hka hcurl).elim
        · exact Or.inr hka
      refine ⟨k, ?_, hcurl, hstill k hk' hu⟩
      simp only [List.mem_append] at hk' ⊢
      tauto

/-- Bytes of one fetcher move, and the handles stay as they are. -/
theorem Usable.moved (h : p.Usable) (hk : Kept p) {pre post : List (HTTPFetcher β)} {f g : HTTPFetcher β} {m : Multi β}
    (ha : p.mActiveFetchers = pre ++ f :: post) (hm : f.Moved g) (hends : m.ends = p.mCurlMHandle.ends) :
    Usable { p with mActiveFetchers := pre ++ g :: post, mCurlMHandle := m } := by
  have hf : f ∈ p.mActiveFetchers := by
    rw [ha]
    exact List.mem_append_right _ (List.mem_cons_self ..)
  have hstate : g.mState = f.mState ∧ g.mCurl = f.mCurl := by
    obtain ⟨_, _, _, _, _, rfl⟩ := hm
    exact ⟨rfl, rfl⟩
  have hu : f.Underway p.mCurlMHandle → g.Underway m := by
    intro hu
    exact (hu.moved hm).keeps (fun e _ hgo => by rw [hends]; exact hgo)
  rw [show pre ++ g :: post = pre ++ [g] ++ post by simp]
  refine h.change hk (show p.mActiveFetchers = pre ++ [f] ++ post by simp [ha]) h.pending ?_ ?_ ?_
  · intro g' hg'
    obtain rfl := List.mem_singleton.1 hg'
    rw [hstate.1]
    rcases h.active f hf with hd | hd | hd
    · exact Or.inl hd
    · exact Or.inr (Or.inl hd)
    · exact Or.inr (Or.inr (hu hd))
  · intro x hx _
    rw [hends]
    exact hx
  · intro x hx
    rw [hends] at hx
    by_cases hcurl : f.mCurl = .easy x.1
    · exact Or.inl ⟨g, List.mem_singleton_self g, hstate.2.trans hcurl, hu (h.underway hk.sound hf hcurl)⟩
    · refine Or.inr ⟨hx, fun f' hf' => ?_⟩
      rw [List.mem_singleton.1 hf']
      exact hcurl

/-- The transfer of one fetcher ends, and the fetcher with it. -/
theorem Usable.finish (h : p.Usable) (hk : Kept p) {pre post : List (HTTPFetcher β)} {f : HTTPFetcher β} {e : EndEvent}
    {res : CURLcode} {respcode : Nat} {s : FetcherStep β} (ha : p.mActiveFetchers = pre ++ f :: post)
    (hcurl : f.mCurl = .easy e.easy)
    (hs : s = f.handleResult res respcode (p.mCurlMHandle.update e.easy (fun t => { t with ended := true })))
    (hok : s.result = .ok ()) :
    Usable { p with mActiveFetchers := pre ++ s.fetcher :: post, mCurlMHandle := s.multi } := by
  have hf : f ∈ p.mActiveFetchers := by
    rw [ha]
    exact List.mem_append_right _ (List.mem_cons_self ..)
  have hparent : f.mParent = true := (hk.sound.registered f.slot (List.mem_map_of_mem hf) _ hcurl).1
  rcases HTTPFetcher.handleResult_cases hcurl res respcode (p.mCurlMHandle.update e.easy (fun t => { t with ended := true })) with
    ⟨err, calls, _, _, heq⟩ | ⟨state, failures, m', heq, hstate, _, _, htr⟩
  · rw [hs, heq] at hok
    cases hok
  · rw [hs, heq]
    rw [if_pos hparent] at htr
    have hends : ∀ x, x ∈ m'.ends ↔ x.1 ≠ e.easy ∧ x ∈ p.mCurlMHandle.ends := by
      intro x
      have hfilter : m'.ends = (p.mCurlMHandle.update e.easy (fun t => { t with ended := true })).ends.filter (·.1 ≠ e.easy) := by
        unfold Multi.ends
        rw [htr, List.filter_map]
        rfl
      rw [hfilter, List.mem_filter, decide_eq_true_eq]
      constructor
      · rintro ⟨hx, hne⟩
        rcases Multi.mem_ends_ended hx with ⟨heq, _⟩ | hx
        · exact (hne heq).elim
        · exact hx
      · rintro ⟨hne, hx⟩
        exact ⟨Multi.mem_ended hx hne, hne⟩
    rw [show pre ++ f.closed state failures :: post = pre ++ [f.closed state failures] ++ post by simp]
    refine h.change hk (show p.mActiveFetchers = pre ++ [f] ++ post by simp [ha]) h.pending ?_ ?_ ?_
    · intro g hg
      obtain rfl := List.mem_singleton.1 hg
      rcases hstate with rfl | ⟨rfl, _⟩
      · exact Or.inr (Or.inl rfl)
      · exact Or.inl rfl
    · intro x hx hnone
      exact (hends x).2 ⟨fun heq => hnone f (List.mem_singleton_self f) (by rw [hcurl, heq]), hx⟩
    · intro x hx
      obtain ⟨hne, hx⟩ := (hends x).1 hx
      refine Or.inr ⟨hx, fun f' hf' hc => ?_⟩
      rw [List.mem_singleton.1 hf', hcurl] at hc
      exact hne (CurlPtr.easy.inj hc).symm

/-- Every step that starts nothing and ends well leaves a pipeline usable. -/
theorem Usable.step (h : p.Usable) (hk : Kept p) (hs : Step (fun _ => False) p r p') (hr : r = .ok ()) : p'.Usable := by
  cases hs with
  | launch _ hE => exact hE.elim
  | restart _ _ hE => exact hE.elim
  | @offer pre post f e n ha _ => exact h.moved hk ha (f.offer_rebuffered p.mCurlMHandle e n).moved (f.offer_ends _ e n)
  | @resume f rest ha =>
    exact h.moved hk (show p.mActiveFetchers = [] ++ f :: rest from ha) ⟨_, _, _, _, _, rfl⟩ (Multi.ends_easyPause _ _)
  | @idle f rest n ha _ => exact h.moved hk (show p.mActiveFetchers = [] ++ f :: rest from ha) ⟨_, _, _, _, _, rfl⟩ rfl
  | @pop f rest ha _ hdone =>
    have hmem : f ∈ p.mActiveFetchers := by
      rw [ha]
      exact List.mem_cons_self ..
    have hnull : f.mCurl = .null := hk.sound.closed f.slot (List.mem_map_of_mem hmem) (Or.inl hdone)
    rw [HTTPFetcher.destroy_of_null hnull p.mCurlMHandle]
    rw [show rest = [] ++ [] ++ rest by simp]
    refine h.change hk (show p.mActiveFetchers = [] ++ [f] ++ rest from ha) h.pending (fun _ hg => by cases hg) (fun x hx _ => hx) ?_
    intro x hx
    refine Or.inr ⟨hx, fun f' hf' => ?_⟩
    rw [List.mem_singleton.1 hf', hnull]
    exact fun hc => by cases hc
  | finish _ ha hcurl => exact h.finish hk ha hcurl rfl hr
  | stray _ _ => cases hr
  | dangle _ _ =>
    rw [show p.mActiveFetchers = [] ++ [] ++ p.mActiveFetchers by simp]
    exact h.change hk (show p.mActiveFetchers = [] ++ [] ++ p.mActiveFetchers by simp) h.pending (fun _ hg => by cases hg)
      (fun x hx _ => hx) (fun x hx => Or.inr ⟨hx, fun _ hg => by cases hg⟩)

/-- What is in order in a pipeline a later read can go on from. -/
structure Steady (p : DownloadPipeline β) : Prop where
  kept : Kept p
  usable : p.Usable

theorem Steady.run (h : Steady p) (hrun : Lib.Run (Step (fun _ => False)) p (.ok ()) p') : Steady p' := by
  refine hrun.keeps_ok (fun q q' hq hs => ⟨⟨hs.tidy hq.kept.tidy, ?_⟩, hq.usable.step hq.kept hs rfl⟩) h
  exact (run_sound (.one hs) hq.kept.sound).1

theorem Steady.handsOut (h : Steady p) {n : Nat} {bs : List β} (ho : p.HandsOut n bs p') : Steady p' := by
  have htidy := ho.tidy h.kept.tidy
  obtain ⟨f, rest, ha, _, _, rfl⟩ := ho
  have ha : p.mActiveFetchers = [] ++ f :: rest := ha
  refine ⟨⟨htidy, ?_⟩, ?_⟩
  · have hbooks := books_replace (m := p.mCurlMHandle) ha (f.handOut_slot n) rfl rfl
    have hs := h.kept.sound
    rw [← hbooks] at hs
    exact hs
  · have hm := h.usable.moved (m := p.mCurlMHandle) h.kept ha (g := (f.handOut n).2) ⟨_, _, _, _, _, rfl⟩ rfl
    exact ⟨hm.pending, hm.active, hm.registered⟩

/-! ### Starts -/

/-- A fetcher that is launched is underway. -/
theorem Steady.launched (h : Steady p) {f : HTTPFetcher β} {pending : List (HTTPFetcher β)} (hp : p.mPendingFetchers = f :: pending)
    (hroom : (p.mActiveFetchers.length : Int) < p.mNConnections) (env : StartEnv β)
    (hok : (f.start env p.mCurlMHandle).result = .ok ()) :
    Steady { p with
      mActiveFetchers := p.mActiveFetchers ++ [(f.start env p.mCurlMHandle).fetcher]
      mPendingFetchers := pending
      mCurlMHandle := (f.start env p.mCurlMHandle).multi } := by
  have hf : f ∈ p.fetchers := List.mem_append_right _ (by rw [hp]; exact List.mem_cons_self ..)
  have hdone : 0 ≤ f.mBytesDone := by
    rw [h.kept.tidy.done f hf]
    exact Int.natCast_nonneg _
  have hstep : Step (fun _ => True) p (f.start env p.mCurlMHandle).result _ := Step.launch hp trivial
  refine ⟨⟨hstep.tidy h.kept.tidy, launched_sound h.kept.sound hp hroom env⟩, ?_⟩
  have hu := f.start_underway env hdone hok
  have hends := HTTPFetcher.start_ends env hok
  rw [show p.mActiveFetchers ++ [(f.start env p.mCurlMHandle).fetcher] =
    p.mActiveFetchers ++ [(f.start env p.mCurlMHandle).fetcher] ++ [] by simp]
  refine h.usable.change h.kept (show p.mActiveFetchers = p.mActiveFetchers ++ [] ++ [] by simp) ?_ ?_ ?_ ?_
  · intro k hk
    exact h.usable.pending k (by rw [hp]; exact List.mem_cons_of_mem _ hk)
  · intro g hg
    rw [List.mem_singleton.1 hg]
    exact Or.inr (Or.inr hu)
  · intro x hx _
    rw [hends]
    exact List.mem_append_left _ hx
  · intro x hx
    rw [hends] at hx
    rcases List.mem_append.1 hx with hx | hx
    · exact Or.inr ⟨hx, fun _ hg => by cases hg⟩
    · rw [List.mem_singleton.1 hx]
      exact Or.inl ⟨_, List.mem_singleton_self _, HTTPFetcher.start_mCurl env hok, hu⟩

/-- `launch` goes well exactly if the fetchers it starts can be started. -/
theorem launchFrom_ok_iff (env : Nat → StartEnv β) (pending : List (HTTPFetcher β)) (i : Nat) {p : DownloadPipeline β}
    (hinit : ∀ f ∈ pending, f.mState = .init) :
    (launchFrom env i pending p).result = .ok () ↔ ∀ (j : Nat) (f : HTTPFetcher β), pending[j]? = some f →
      (p.mActiveFetchers.length : Int) + j < p.mNConnections → f.CanStart (env (i + j)) := by
  induction pending generalizing p i with
  | nil => simp [launchFrom]
  | cons f pending ih =>
    unfold launchFrom
    have hstart := HTTPFetcher.start_ok_iff (Or.inl (hinit f (List.mem_cons_self ..))) (env i) p.mCurlMHandle
    by_cases hroom : (p.mActiveFetchers.length : Int) < p.mNConnections
    · rw [if_pos hroom]
      dsimp only
      cases hr : (f.start (env i) p.mCurlMHandle).result with
      | error e =>
        refine iff_of_false (fun h => by cases h) (fun h => ?_)
        rw [hstart.2 (h 0 f rfl (by simpa using hroom))] at hr
        cases hr
      | ok u =>
        dsimp only
        rw [ih (i + 1) (fun k hk => hinit k (List.mem_cons_of_mem _ hk))]
        constructor
        · intro h j k hj hlt
          cases j with
          | zero =>
            obtain rfl := Option.some.inj hj
            exact hstart.1 hr
          | succ j =>
            rw [show i + (j + 1) = i + 1 + j by omega]
            refine h j k hj ?_
            rw [List.length_append, List.length_singleton]
            push_cast at hlt ⊢
            omega
        · intro h j k hj hlt
          rw [show i + 1 + j = i + (j + 1) by omega]
          refine h (j + 1) k hj ?_
          rw [List.length_append, List.length_singleton] at hlt
          push_cast at hlt ⊢
          omega
    · rw [if_neg hroom]
      refine iff_of_true rfl (fun j k _ hlt => ?_)
      omega

theorem launch_ok_iff (hinit : ∀ f ∈ p.mPendingFetchers, f.mState = .init) (env : Nat → StartEnv β) :
    (p.launch env).result = .ok () ↔ p.LaunchSafe env := by
  unfold launch LaunchSafe
  rw [launchFrom_ok_iff env p.mPendingFetchers 0 hinit]
  simp only [Nat.zero_add]

/-- A `launch` that goes well leaves a pipeline steady. -/
theorem Steady.launchFrom (env : Nat → StartEnv β) (pending : List (HTTPFetcher β)) (i : Nat) {p : DownloadPipeline β} (h : Steady p)
    (hp : p.mPendingFetchers = pending) (hok : (launchFrom env i pending p).result = .ok ()) :
    Steady (launchFrom env i pending p).pipeline := by
  induction pending generalizing p i with
  | nil => exact h
  | cons f pending ih =>
    unfold QingStor.launchFrom at hok ⊢
    split at hok
    · rename_i hroom
      rw [if_pos hroom]
      dsimp only at hok ⊢
      cases hr : (f.start (env i) p.mCurlMHandle).result with
      | error e =>
        rw [hr] at hok
        cases hok
      | ok u =>
        rw [hr] at hok
        exact ih (i + 1) (h.launched hp hroom (env i) hr) rfl hok
    · rename_i hfull
      rw [if_neg hfull]
      exact h

/-- A `launch` that throws leaves a fetcher active that is not started. -/
theorem launchFrom_stuck (env : Nat → StartEnv β) (pending : List (HTTPFetcher β)) (i : Nat) {p : DownloadPipeline β}
    (hinit : ∀ f ∈ pending, f.mState = .init) {e : Fault} (herr : (launchFrom env i pending p).result = .error e) :
    ∃ f ∈ (launchFrom env i pending p).pipeline.mActiveFetchers, f.mState = .init := by
  induction pending generalizing p i with
  | nil => cases herr
  | cons f pending ih =>
    unfold launchFrom at herr ⊢
    split at herr
    · rename_i hroom
      rw [if_pos hroom]
      dsimp only at herr ⊢
      cases hr : (f.start (env i) p.mCurlMHandle).result with
      | error e =>
        refine ⟨_, List.mem_append_right _ (List.mem_singleton_self _), ?_⟩
        have hstate := hinit f (List.mem_cons_self ..)
        obtain ⟨size, buff, hsame⟩ := f.primed_same (env i)
        rcases f.start_cases (env i) p.mCurlMHandle with ⟨_, he⟩ | ⟨_, _, headers, lines, ⟨_, he⟩ | ⟨_, he⟩⟩
        · rw [he, hsame]
          exact hstate
        · rw [he, hsame]
          exact hstate
        · rw [he] at hr
          cases hr
      | ok u =>
        rw [hr] at herr
        exact ih (i + 1) (fun k hk => hinit k (List.mem_cons_of_mem _ hk)) herr
    · cases herr

/-- A safe restart leaves a pipeline steady, also when it throws. -/
theorem Steady.restart (h : Steady p) {env : StartEnv β} (hsafe : p.RestartSafe env) : Steady (p.restart env).pipeline := by
  have hrun : Lib.Run (Step (fun _ => True)) p (p.restart env).result (p.restart env).pipeline := restart_run trivial
  refine ⟨⟨hrun.keeps (fun _ _ _ ht hs => hs.tidy ht) h.kept.tidy, (restart_sound h.kept.sound hsafe).1⟩, ?_⟩
  unfold DownloadPipeline.restart
  cases ha : p.mActiveFetchers with
  | nil => exact h.usable
  | cons f rest =>
    dsimp only
    split
    · rename_i hfailed
      have hf : f ∈ p.mActiveFetchers := by
        rw [ha]
        exact List.mem_cons_self ..
      have hnull : f.mCurl = .null := h.kept.sound.closed f.slot (List.mem_map_of_mem hf) (Or.inr hfailed)
      have hnone : ∀ x : Nat × Bool, ∀ k ∈ [f], k.mCurl ≠ .easy x.1 := by
        intro x k hk hc
        rw [List.mem_singleton.1 hk, hnull] at hc
        cases hc
      have hdone : 0 ≤ f.mBytesDone := by
        rw [h.kept.tidy.done f (active_subset_fetchers hf)]
        exact Int.natCast_nonneg _
      rw [show (f.start env p.mCurlMHandle).fetcher :: rest = [] ++ [(f.start env p.mCurlMHandle).fetcher] ++ rest by simp]
      have hor : (f.start env p.mCurlMHandle).fetcher.mState = .failed ∧ (f.start env p.mCurlMHandle).multi = p.mCurlMHandle ∨
          (f.start env p.mCurlMHandle).result = .ok () := by
        by_cases hok : (f.start env p.mCurlMHandle).result = .ok ()
        · exact Or.inr hok
        · left
          rcases f.start_books env p.mCurlMHandle with ⟨_, hslot, hm⟩ | ⟨_, _, hbuff, hinit, hstate, _⟩
          · exact ⟨(congrArg Slot.state hslot).trans hfailed, hm⟩
          · obtain ⟨hurl, hsigns⟩ := hsafe f (by rw [ha]; rfl) hfailed hinit hbuff
            exact (hok (HTTPFetcher.start_ok hbuff hstate hinit hsigns hurl p.mCurlMHandle)).elim
      rcases hor with ⟨hstate, hm⟩ | hok
      · rw [hm]
        refine h.usable.change h.kept (show p.mActiveFetchers = [] ++ [f] ++ rest from ha) h.usable.pending ?_ (fun x hx _ => hx)
          (fun x hx => Or.inr ⟨hx, hnone x⟩)
        intro g hg
        rw [List.mem_singleton.1 hg]
        exact Or.inr (Or.inl hstate)
      · have hu := f.start_underway env hdone hok
        have hends := HTTPFetcher.start_ends env hok
        refine h.usable.change h.kept (show p.mActiveFetchers = [] ++ [f] ++ rest from ha) h.usable.pending ?_ ?_ ?_
        · intro g hg
          rw [List.mem_singleton.1 hg]
          exact Or.inr (Or.inr hu)
        · intro x hx _
          rw [hends]
          exact List.mem_append_left _ hx
        · intro x hx
          rw [hends] at hx
          rcases List.mem_append.1 hx with hx | hx
          · exact Or.inr ⟨hx, hnone x⟩
          · rw [List.mem_singleton.1 hx]
            exact Or.inl ⟨_, List.mem_singleton_self _, HTTPFetcher.start_mCurl env hok, hu⟩
    · exact h.usable

/-! ### Ends -/

/-- Without a complete answer without a response code, a message is dealt with. -/
theorem handleEnd_ok (hs : p.books.Sound) {e : EndEvent} (hcode : p.mCurlMHandle.infoRead e ≠ some (.ok, 0)) :
    (p.handleEnd e).result = .ok () := by
  unfold handleEnd
  cases hinfo : p.mCurlMHandle.infoRead e with
  | none => rfl
  | some info =>
    obtain ⟨res, respcode⟩ := info
    dsimp only
    cases hf : p.mActiveFetchers.find? (fun f => f.mCurl = .easy e.easy) with
    | none =>
      rw [List.find?_eq_none] at hf
      have hstray : Step (fun _ => False) p (.error notActive) _ := .stray hinfo (fun f hmem => by simpa using hf f hmem)
      exact ((run_sound (.one hstray) hs).2 rfl).elim
    | some f =>
      have hcurl : f.mCurl = .easy e.easy := by simpa using List.find?_some hf
      dsimp only
      rcases HTTPFetcher.handleResult_cases hcurl res respcode
          (p.mCurlMHandle.update e.easy (fun t => { t with ended := true })) with
        ⟨err, calls, rfl, rfl, _⟩ | ⟨state, failures, m', heq, _⟩
      · exact (hcode hinfo).elim
      · rw [heq]

/-- ... and so are all of them. -/
theorem handleEnds_ok (hd : p.Distinct) (hs : p.books.Sound) {ends : List EndEvent} (hcodes : (.ok, 0) ∉ p.messages ends) :
    (p.handleEnds ends).result = .ok () := by
  induction ends generalizing p with
  | nil => rfl
  | cons e ends ih =>
    unfold messages at hcodes
    rw [List.mem_append, not_or] at hcodes
    have hok := handleEnd_ok hs (e := e) (fun h => hcodes.1 (by rw [h]; exact List.mem_singleton_self _))
    have hrun : Lib.Run (Step (fun _ => False)) p _ _ := handleEnd_run hd e
    rw [hok] at hrun hcodes
    unfold handleEnds
    rw [hok]
    exact ih (run_distinct hrun hd) (run_sound hrun hs).1 hcodes.2

/-- A complete answer without a response code leaves a registered handle that ended. -/
theorem handleEnd_stuck {e : EndEvent} (hcode : p.mCurlMHandle.infoRead e = some (.ok, 0)) :
    (∃ f, (p.handleEnd e).result = .error f) ∧ (e.easy, true) ∈ (p.handleEnd e).pipeline.mCurlMHandle.ends ∧
      (e.easy, false) ∉ (p.handleEnd e).pipeline.mCurlMHandle.ends := by
  have hended : (e.easy, true) ∈ (p.mCurlMHandle.update e.easy (fun t => { t with ended := true })).ends ∧
      (e.easy, false) ∉ (p.mCurlMHandle.update e.easy (fun t => { t with ended := true })).ends := by
    constructor
    · unfold Multi.infoRead at hcode
      cases ht : p.mCurlMHandle.find? e.easy with
      | none =>
        rw [ht] at hcode
        cases hcode
      | some t =>
        obtain ⟨hmem, heasy⟩ := Multi.mem_of_find? ht
        refine List.mem_map.2 ⟨_, List.mem_map_of_mem hmem, ?_⟩
        rw [if_pos heasy, heasy]
    · intro hmem
      rcases Multi.mem_ends_ended hmem with ⟨_, h⟩ | ⟨h, _⟩
      · cases h
      · exact h rfl
  unfold handleEnd
  rw [hcode]
  dsimp only
  cases hf : p.mActiveFetchers.find? (fun f => f.mCurl = .easy e.easy) with
  | none => exact ⟨⟨_, rfl⟩, hended⟩
  | some f =>
    have hcurl : f.mCurl = .easy e.easy := by simpa using List.find?_some hf
    have hne : f.mCurl ≠ .null := by
      rw [hcurl]
      exact CurlPtr.noConfusion
    dsimp only
    unfold HTTPFetcher.handleResult
    rw [if_neg hne]
    exact ⟨⟨_, rfl⟩, hended⟩

theorem handleEnds_stuck {ends : List EndEvent} (hcode : (.ok, 0) ∈ p.messages ends) :
    (∃ f, (p.handleEnds ends).result = .error f) ∧ ∃ e, (e, true) ∈ (p.handleEnds ends).pipeline.mCurlMHandle.ends ∧
      (e, false) ∉ (p.handleEnds ends).pipeline.mCurlMHandle.ends := by
  induction ends generalizing p with
  | nil => cases hcode
  | cons e ends ih =>
    unfold messages at hcode
    unfold handleEnds
    rcases List.mem_append.1 hcode with hcode | hcode
    · obtain ⟨⟨f, hf⟩, hends⟩ := handleEnd_stuck (Option.mem_toList.1 hcode)
      rw [hf]
      exact ⟨⟨f, rfl⟩, e.easy, hends⟩
    · cases hr : (p.handleEnd e).result with
      | error f =>
        rw [hr] at hcode
        cases hcode
      | ok u =>
        rw [hr] at hcode
        exact ih hcode

/-! ### Turns -/

/-- Where all goes well, waiting leaves a pipeline steady. -/
theorem Steady.wait (h : Steady p) {r : Round β}
    (hcodes : r.wait = true → r.perform = true → (.ok, 0) ∉ (r.events.foldl deliver p).messages r.ends) :
    Steady (p.wait r).pipeline := by
  unfold DownloadPipeline.wait
  split
  · exact h
  · rename_i hwait
    split
    · exact h
    · rename_i hperform
      have hd := h.kept.tidy.distinct
      have hdelivered : Lib.Run (Step (fun _ => False)) p (.ok ()) (r.events.foldl deliver p) := deliverAll_run hd r.events
      have hs := h.run hdelivered
      have hok := handleEnds_ok hs.kept.tidy.distinct hs.kept.sound (hcodes (not_not.1 hwait) (not_not.1 hperform))
      have hends : Lib.Run (Step (fun _ => False)) (r.events.foldl deliver p) _ _ := handleEnds_run hs.kept.tidy.distinct r.ends
      rw [hok] at hends
      exact hs.run hends

end DownloadPipeline

/-- Everything the outside does in this turn goes well enough: the starts of `launch` can be made, the restart is safe, and no
complete answer comes without a response code. -/
structure ReadTurn.GoesWell (t : ReadTurn β) : Prop where
  launch : t.before.LaunchSafe t.round.launch
  restart : t.Safe
  codes : (.ok, 0) ∉ t.messages

namespace DownloadPipeline

open BookkeepingAux

variable {p p' q : DownloadPipeline β}

/-- A turn in which all goes well leaves a pipeline steady, whether it throws or not. -/
theorem Steady.turn {t : ReadTurn β} (h : Steady t.before) (hw : t.GoesWell) : Steady t.after := by
  have hok := (launch_ok_iff h.usable.pending t.round.launch).2 hw.launch
  have hlaunched : Steady t.launched := h.launchFrom t.round.launch t.before.mPendingFetchers 0 rfl hok
  cases t.course with
  | thrown e he =>
    rw [hok] at he
    cases he
  | empty _ _ _ _ hafter =>
    rw [hafter]
    exact hlaunched
  | leaves q _ hfront _ _ hafter =>
    rw [hafter]
    rcases getFront_run hfront with ⟨_, _, hgot, _⟩ | ⟨_, ⟨_, hpop⟩ | ⟨hne, _⟩⟩
    · cases hgot
    · exact hlaunched.run hpop
    · exact (hne rfl).elim
  | bytes bs q _ hfront hpos _ _ hafter =>
    rw [hafter]
    rcases getFront_run hfront with ⟨_, p', hgot, _, hrun, hout⟩ | ⟨_, ⟨hgot, _⟩ | ⟨_, hnil⟩⟩
    · obtain rfl := Got.bytes.inj hgot
      exact (hlaunched.run hrun).handsOut hout
    · cases hgot
    · rw [hnil bs rfl] at hpos
      exact (Nat.lt_irrefl 0 hpos).elim
  | waits got q _ hfront hne hnone hq _ hafter =>
    rw [hafter]
    have hs : Steady q := hlaunched.run (getFront_nothing hfront hnone)
    have hrestarted := hs.restart (hw.restart q hq)
    have hcodes := hw.codes
    unfold ReadTurn.messages at hcodes
    rw [hq] at hcodes
    dsimp only at hcodes
    unfold waitMore
    cases hr : (q.restart t.round.restart).result with
    | error e => exact hrestarted
    | ok u =>
      rw [hr] at hcodes
      dsimp only at hcodes ⊢
      have hwaited := hrestarted.wait (r := t.round) (fun h h' => by rw [if_pos ⟨h, h'⟩] at hcodes; exact hcodes)
      split <;> exact hwaited

theorem Steady.add (h : Steady p) (url host bucket : Str) (cred : QSCredential) (buffsize offset len : Int) :
    Steady ((PipelineOp.add url host bucket cred buffsize offset len).run p) := by
  refine ⟨h.kept.add url host bucket cred buffsize offset len, ?_, h.usable.active, h.usable.registered⟩
  intro f hf
  rcases List.mem_append.1 hf with hf | hf
  · exact h.usable.pending f hf
  · rw [List.mem_singleton.1 hf]
    rfl

theorem steady_make (nconnections : Int) : Steady (DownloadPipeline.make (β := β) nconnections) := by
  refine ⟨kept_make nconnections, ?_, ?_, ?_⟩ <;>
  · intro _ h
    cases h

/-- In a run in which all goes well, every pipeline is steady. -/
theorem runTurns_steady (nconnections : Int) (ops : List (PipelineOp β))
    (hw : ∀ t ∈ runTurns (.make nconnections) ops, t.GoesWell) : ∀ t ∈ runTurns (.make nconnections) ops, Steady t.before :=
  (runTurns_keep (fun _ h hw => Steady.turn h hw) (fun _ url host bucket cred buffsize offset len h =>
    h.add url host bucket cred buffsize offset len) ops (steady_make nconnections) hw).2

end DownloadPipeline

end QingStor
