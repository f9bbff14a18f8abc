import QingStor.Lemmas.Ledger

/-!
# Who holds which handle

`Books` is what the bookkeeping of a pipeline is about: of each fetcher its address, its handle, its state and whether it has a
multi handle, and the handles registered there. A fetcher may join the active ones, register a new handle, close the one it
has, or leave; each of these keeps the books sound, and the code does nothing else to them, as long as no restart throws after
it registered a handle.
-/

namespace QingStor

variable {β : Type*}

/-- What the books say of a fetcher. -/
structure Slot where
  this : Nat
  curl : CurlPtr
  state : FetcherState
  parent : Bool

/-- The books of a pipeline. -/
structure Books where
  active : List Slot
  pending : List Slot
  limit : Int
  easies : List Nat
  fresh : Nat

namespace Books

variable {b b' : Books}

/-- What can happen to the books. -/
inductive Step : Books → Books → Prop
  | join {b : Books} {s : Slot} {rest : List Slot} :
      b.pending = s :: rest → (b.active.length : Int) < b.limit →
      Step b { b with active := b.active ++ [s], pending := rest }
  | register {b : Books} {pre post : List Slot} {s : Slot} {state : FetcherState} :
      b.active = pre ++ s :: post → (∀ h, s.curl ≠ .easy h) → state ≠ .done → state ≠ .failed →
      Step b { b with
        active := pre ++ { s with curl := .easy b.fresh, state := state, parent := true } :: post
        easies := b.easies ++ [b.fresh]
        fresh := b.fresh + 1 }
  | close {b : Books} {pre post : List Slot} {s : Slot} {state : FetcherState} {h : Nat} :
      b.active = pre ++ s :: post → s.curl = .easy h →
      Step b { b with
        active := pre ++ { s with curl := .null, state := state, parent := false } :: post
        easies := b.easies.filter (· ≠ h) }
  | leave {b : Books} {s : Slot} {rest : List Slot} :
      b.active = s :: rest → s.state = .done → Step b { b with active := rest }

/-- The invariant of the books. -/
structure Sound (b : Books) : Prop where
  few : b.active.length ≤ b.limit.toNat
  easies : b.easies.Nodup
  below : ∀ h ∈ b.easies, h < b.fresh
  owner : ∀ h ∈ b.easies, ∃ s ∈ b.active, s.curl = .easy h
  registered : ∀ s ∈ b.active, ∀ h, s.curl = .easy h → s.parent = true ∧ h < b.fresh
  one : ∀ s ∈ b.active, ∀ s' ∈ b.active, ∀ h, s.curl = .easy h → s'.curl = .easy h → s.this = s'.this
  closed : ∀ s ∈ b.active, s.state = .done ∨ s.state = .failed → s.curl = .null
  waiting : ∀ s ∈ b.pending, s.state = .init ∧ s.curl = .indeterminate

/-- A slot of the row in which `s` was replaced is the new one, or was there before. -/
theorem mem_replaced {pre post : List Slot} {s s' x : Slot} (h : x ∈ pre ++ s' :: post) : x = s' ∨ x ∈ pre ++ s :: post := by
  rcases List.mem_append.1 h with h | h
  · exact Or.inr (List.mem_append_left _ h)
  · rcases List.mem_cons.1 h with h | h
    · exact Or.inl h
    · exact Or.inr (List.mem_append_right _ (List.mem_cons_of_mem _ h))

/-- A slot other than the replaced one is still there. -/
theorem mem_kept {pre post : List Slot} {s s' x : Slot} (h : x ∈ pre ++ s :: post) (hne : x ≠ s) : x ∈ pre ++ s' :: post :=
  (mem_replaced h).resolve_left hne

/-- Joining the active fetchers. -/
theorem Sound.join (hs : b.Sound) {s : Slot} {rest : List Slot} (hp : b.pending = s :: rest)
    (hroom : (b.active.length : Int) < b.limit) : Sound { b with active := b.active ++ [s], pending := rest } := by
  obtain ⟨hstate, hcurl⟩ := hs.waiting s (by rw [hp]; exact List.mem_cons_self ..)
  have hnone : ∀ h, s.curl ≠ .easy h := by
    intro h he
    rw [hcurl] at he
    cases he
  have hmem : ∀ x ∈ b.active ++ [s], x ∈ b.active ∨ x = s := fun x hx => by simpa using hx
  refine ⟨?_, hs.easies, hs.below, ?_, ?_, ?_, ?_, ?_⟩
  · simp only [List.length_append, List.length_singleton]
    omega
  · intro h hh
    obtain ⟨x, hx, hc⟩ := hs.owner h hh
    exact ⟨x, List.mem_append_left _ hx, hc⟩
  · intro x hx h hc
    rcases hmem x hx with hx | rfl
    · exact hs.registered x hx h hc
    · exact absurd hc (hnone h)
  · intro x hx y hy h hc hc'
    rcases hmem x hx with hx | rfl
    · rcases hmem y hy with hy | rfl
      · exact hs.one x hx y hy h hc hc'
      · exact absurd hc' (hnone h)
    · exact absurd hc (hnone h)
  · intro x hx hor
    rcases hmem x hx with hx | rfl
    · exact hs.closed x hx hor
    · rw [hstate] at hor
      rcases hor with h | h <;> cases h
  · intro x hx
    exact hs.waiting x (by rw [hp]; exact List.mem_cons_of_mem _ hx)

/-- Registering a new handle for a fetcher without one. -/
theorem Sound.register (hs : b.Sound) {pre post : List Slot} {s : Slot} {state : FetcherState} (ha : b.active = pre ++ s :: post)
    (hnone : ∀ h, s.curl ≠ .easy h) (hdone : state ≠ .done) (hfailed : state ≠ .failed) :
    Sound { b with
      active := pre ++ { s with curl := .easy b.fresh, state := state, parent := true } :: post
      easies := b.easies ++ [b.fresh]
      fresh := b.fresh + 1 } := by
  have hold : ∀ x, x ∈ pre ++ { s with curl := .easy b.fresh, state := state, parent := true } :: post →
      x = { s with curl := .easy b.fresh, state := state, parent := true } ∨ x ∈ b.active := by
    intro x hx
    rw [ha]
    exact mem_replaced hx
  have hnew : ∀ x ∈ b.active, x.curl ≠ .easy b.fresh := by
    intro x hx hc
    exact Nat.lt_irrefl _ (hs.registered x hx _ hc).2
  refine ⟨?_, ?_, ?_, ?_, ?_, ?_, ?_, hs.waiting⟩
  · have hlen := hs.few
    rw [ha] at hlen
    simpa using hlen
  · rw [List.nodup_append]
    refine ⟨hs.easies, by simp, ?_⟩
    intro h hh h' hh' he
    rw [List.mem_singleton] at hh'
    have hlt := hs.below h hh
    omega
  · intro h hh
    rcases List.mem_append.1 hh with hh | hh
    · exact Nat.lt_succ_of_lt (hs.below h hh)
    · rw [List.mem_singleton] at hh
      rw [hh]
      exact Nat.lt_succ_self _
  · intro h hh
    rcases List.mem_append.1 hh with hh | hh
    · obtain ⟨x, hx, hc⟩ := hs.owner h hh
      refine ⟨x, mem_kept (ha ▸ hx) ?_, hc⟩
      rintro rfl
      exact hnone h hc
    · rw [List.mem_singleton] at hh
      rw [hh]
      exact ⟨_, List.mem_append_right _ (List.mem_cons_self ..), rfl⟩
  · intro x hx h hc
    rcases hold x hx with rfl | hx
    · obtain rfl := CurlPtr.easy.inj hc
      exact ⟨rfl, Nat.lt_succ_self _⟩
    · obtain ⟨hparent, hlt⟩ := hs.registered x hx h hc
      exact ⟨hparent, Nat.lt_succ_of_lt hlt⟩
  · intro x hx y hy h hc hc'
    rcases hold x hx with rfl | hx
    · obtain rfl := CurlPtr.easy.inj hc
      rcases hold y hy with rfl | hy
      · rfl
      · exact absurd hc' (hnew y hy)
    · rcases hold y hy with rfl | hy
      · obtain rfl := CurlPtr.easy.inj hc'
        exact absurd hc (hnew x hx)
      · exact hs.one x hx y hy h hc hc'
  · intro x hx hor
    rcases hold x hx with rfl | hx
    · rcases hor with h | h
      · exact absurd h hdone
      · exact absurd h hfailed
    · exact hs.closed x hx hor

/-- Closing a handle. -/
theorem Sound.close (hs : b.Sound) {pre post : List Slot} {s : Slot} {state : FetcherState} {h : Nat}
    (ha : b.active = pre ++ s :: post) (hcurl : s.curl = .easy h) :
    Sound { b with
      active := pre ++ { s with curl := .null, state := state, parent := false } :: post
      easies := b.easies.filter (· ≠ h) } := by
  have hold : ∀ x, x ∈ pre ++ { s with curl := .null, state := state, parent := false } :: post →
      x = { s with curl := .null, state := state, parent := false } ∨ x ∈ b.active := by
    intro x hx
    rw [ha]
    exact mem_replaced hx
  refine ⟨?_, hs.easies.filter _, ?_, ?_, ?_, ?_, ?_, hs.waiting⟩
  · have hlen := hs.few
    rw [ha] at hlen
    simpa using hlen
  · intro k hk
    exact hs.below k (List.mem_filter.1 hk).1
  · intro k hk
    obtain ⟨hmem, hne⟩ := List.mem_filter.1 hk
    obtain ⟨x, hx, hc⟩ := hs.owner k hmem
    refine ⟨x, mem_kept (ha ▸ hx) ?_, hc⟩
    rintro rfl
    rw [hcurl] at hc
    simp [CurlPtr.easy.inj hc] at hne
  · intro x hx k hc
    rcases hold x hx with rfl | hx
    · cases hc
    · exact hs.registered x hx k hc
  · intro x hx y hy k hc hc'
    rcases hold x hx with rfl | hx
    · cases hc
    · rcases hold y hy with rfl | hy
      · cases hc'
      · exact hs.one x hx y hy k hc hc'
  · intro x hx hor
    rcases hold x hx with rfl | hx
    · rfl
    · exact hs.closed x hx hor

/-- Leaving, when done. -/
theorem Sound.leave (hs : b.Sound) {s : Slot} {rest : List Slot} (ha : b.active = s :: rest) (hdone : s.state = .done) :
    Sound { b with active := rest } := by
  have hnull : s.curl = .null := hs.closed s (by rw [ha]; exact List.mem_cons_self ..) (Or.inl hdone)
  have hold : ∀ x ∈ rest, x ∈ b.active := by
    intro x hx
    rw [ha]
    exact List.mem_cons_of_mem _ hx
  refine ⟨?_, hs.easies, hs.below, ?_, ?_, ?_, ?_, hs.waiting⟩
  · have hlen := hs.few
    rw [ha] at hlen
    exact Nat.le_of_succ_le hlen
  · intro h hh
    obtain ⟨x, hx, hc⟩ := hs.owner h hh
    rw [ha] at hx
    rcases List.mem_cons.1 hx with rfl | hx
    · rw [hnull] at hc
      cases hc
    · exact ⟨x, hx, hc⟩
  · exact fun x hx => hs.registered x (hold x hx)
  · exact fun x hx y hy => hs.one x (hold x hx) y (hold y hy)
  · exact fun x hx => hs.closed x (hold x hx)

/-- Sound books stay sound. -/
theorem Step.sound (h : Step b b') (hs : b.Sound) : b'.Sound := by
  cases h with
  | join hp hroom => exact hs.join hp hroom
  | register ha hnone hdone hfailed => exact hs.register ha hnone hdone hfailed
  | close ha hcurl => exact hs.close ha hcurl
  | leave ha hdone => exact hs.leave ha hdone

end Books

/-! ## The books of the code -/

/-- What the books say of a fetcher. -/
def HTTPFetcher.slot (f : HTTPFetcher β) : Slot := ⟨f.this, f.mCurl, f.mState, f.mParent⟩

/-- The registered handles. -/
def Multi.easies (m : Multi β) : List Nat := m.transfers.map (·.easy)

/-- The books of a pipeline. -/
def DownloadPipeline.books (p : DownloadPipeline β) : Books where
  active := p.mActiveFetchers.map HTTPFetcher.slot
  pending := p.mPendingFetchers.map HTTPFetcher.slot
  limit := p.mNConnections
  easies := p.mCurlMHandle.easies
  fresh := p.mCurlMHandle.fresh

/-- The exception about a transfer whose fetcher is not active. -/
def notActive : Fault := throwing .qingStorNetworkException "got CURL result code for a fetcher that's not active"

theorem Multi.easies_update (m : Multi β) (h : Nat) {g : Transfer β → Transfer β} (hg : ∀ t, (g t).easy = t.easy) :
    (m.update h g).easies = m.easies := map_easy_update m h hg

namespace HTTPFetcher

variable {f g : HTTPFetcher β} {m : Multi β}

/-- A buffer is not in the books. -/
theorem Rebuffered.slot (h : f.Rebuffered g) : g.slot = f.slot := by
  obtain ⟨_, _, _, _, rfl⟩ := h
  rfl

theorem primed_slot (f : HTTPFetcher β) (env : StartEnv β) : (f.primed env).slot = f.slot := by
  obtain ⟨size, buff, h⟩ := f.primed_same env
  rw [h]
  rfl

/-- An offer of curl changes nothing in the books. -/
theorem offer_books (f : HTTPFetcher β) (m : Multi β) (e n : Nat) :
    (f.offer m e n).1.slot = f.slot ∧ (f.offer m e n).2.easies = m.easies ∧ (f.offer m e n).2.fresh = m.fresh := by
  refine ⟨(f.offer_rebuffered m e n).slot, ?_⟩
  unfold offer
  split
  · exact ⟨rfl, rfl⟩
  · split
    · exact ⟨rfl, rfl⟩
    · split
      · exact ⟨m.easies_update e (fun _ => rfl), rfl⟩
      · exact ⟨m.easies_update e (fun _ => rfl), rfl⟩

theorem handOut_slot (f : HTTPFetcher β) (n : Nat) : (f.handOut n).2.slot = f.slot := rfl

/-- Without a handle from curl, a start leaves the multi handle as it is. -/
theorem start_multi_of_no_handle (f : HTTPFetcher β) {env : StartEnv β} (hinit : env.easyInit = false) (m : Multi β) :
    (f.start env m).multi = m := by
  unfold start
  simp only [hinit, Bool.false_eq_true, not_false_eq_true, if_true]
  split_ifs <;> rfl

/-- A start either throws and changes nothing in the books, or registers a new handle; it may throw then, too. -/
theorem start_books (f : HTTPFetcher β) (env : StartEnv β) (m : Multi β) :
    ((∃ e, (f.start env m).result = .error e) ∧ (f.start env m).fetcher.slot = f.slot ∧ (f.start env m).multi = m) ∨
    ∃ state, ((∃ e, (f.start env m).result = .error e) ∧ state = f.mState ∨
        (f.start env m).result = .ok () ∧ state = .running) ∧
      (f.mReadBuff.isSome = true ∨ env.malloc = true) ∧ env.easyInit = true ∧ (f.mState = .init ∨ f.mState = .failed) ∧
      (f.start env m).fetcher.slot = { f.slot with curl := .easy m.fresh, state := state, parent := true } ∧
      (f.start env m).multi.easies = m.easies ++ [m.fresh] ∧ (f.start env m).multi.fresh = m.fresh + 1 := by
  have hslot := f.primed_slot env
  unfold slot at hslot
  simp only [Slot.mk.injEq] at hslot
  have heasies : (m.addHandle f.this (env.respond none)).easies = m.easies ++ [m.fresh] := by
    unfold Multi.easies Multi.addHandle
    simp
  have hset : ((m.addHandle f.this (env.respond none)).setHeaders m.fresh (env.respond f.range)).easies =
      m.easies ++ [m.fresh] := by
    rw [← heasies]
    exact Multi.easies_update _ _ (fun _ => rfl)
  have hinit : (f.start env m).multi.fresh = m.fresh + 1 → env.easyInit = true := by
    intro hfresh
    by_contra hno
    rw [f.start_multi_of_no_handle (by simpa using hno)] at hfresh
    omega
  rcases f.start_cases env m with ⟨e, he⟩ | ⟨hbuff, hstate, headers, lines, ⟨e, he⟩ | ⟨_, he⟩⟩
  · left
    rw [he]
    exact ⟨⟨e, rfl⟩, f.primed_slot env, rfl⟩
  · right
    rw [he] at hinit ⊢
    refine ⟨f.mState, Or.inl ⟨⟨e, rfl⟩, rfl⟩, hbuff, hinit rfl, hstate, ?_, heasies, rfl⟩
    simp only [slot, hslot]
  · right
    rw [he] at hinit ⊢
    refine ⟨.running, Or.inr ⟨rfl, rfl⟩, hbuff, hinit rfl, hstate, ?_, hset, rfl⟩
    simp only [slot, hslot]

/-- Splitting a URL throws an exception of its own, if any. -/
theorem qsParseUrl_ne_notActive {url : Str} {e : Fault} (h : qsParseUrl url = .error e) : e ≠ notActive := by
  rintro rfl
  unfold qsParseUrl notActive throwing at h
  split at h
  · cases h
  · split at h
    · simp at h
    · split at h <;> simp at h

/-- A start never throws the exception about a transfer whose fetcher is not active. -/
theorem start_ne_notActive (f : HTTPFetcher β) (env : StartEnv β) (m : Multi β) : (f.start env m).result ≠ .error notActive := by
  by_cases hbuff : f.mReadBuff.isSome = true ∨ env.malloc = true
  · rw [start_primed f hbuff]
    have hnone : (f.primed env).mReadBuff.isNone = false := by
      rw [← Option.not_isSome, primed_isSome hbuff]
      rfl
    generalize f.primed env = g at hnone
    unfold start
    simp only [hnone, Bool.false_eq_true, if_false, false_and]
    split
    · simp [notActive, throwing]
    · split
      · simp [notActive, throwing]
      · have hrange : ({ g with mCurl := .easy m.fresh, mParent := true, mHeaders := headerContentAdd g.mHeaders .host g.mHost } :
            HTTPFetcher β).range = g.range := rfl
        rw [hrange]
        cases g.range with
        | none | some r =>
          dsimp only
          cases hurl : qsParseUrl g.mUrl with
          | error e =>
            intro h
            exact qsParseUrl_ne_notActive hurl (Except.error.inj h)
          | ok split =>
            dsimp only
            split
            · simp [notActive, throwing]
            · obtain ⟨headers, hok⟩ := signature_ok env.signer _ (signedResource g.mBucket split.1 split.2) g.mCred
                (show QSRequestType.getData ≠ .none from fun h => by cases h)
                (show QSRequestType.getData.uploads = true → (none : Option MemoryData).isSome = true from fun h => by cases h)
              rw [hok]
              simp
  · rw [not_or, Bool.not_eq_true, Bool.not_eq_true] at hbuff
    have hnone : f.mReadBuff.isNone = true := by
      rw [← Option.not_isSome, hbuff.1]
      rfl
    simp [start, hnone, hbuff.2, notActive, throwing]

/-- The end of a transfer throws for a response without a status only. -/
theorem handleResult_ne_notActive (f : HTTPFetcher β) (res : CURLcode) (respcode : Nat) (m : Multi β) :
    (f.handleResult res respcode m).result ≠ .error notActive := by
  intro h
  unfold handleResult at h
  split at h
  · simp [notActive, throwing] at h
  · split at h
    · dsimp only at h
      split_ifs at h
      simp [notActive, throwing] at h
    · cases h

end HTTPFetcher

namespace DownloadPipeline

variable {p p' : DownloadPipeline β} {r : Except Fault Unit}

/-- The books stay the same when one fetcher keeps its slot and the handles stay registered. -/
theorem books_replace {pre post : List (HTTPFetcher β)} {f g : HTTPFetcher β} {m : Multi β}
    (ha : p.mActiveFetchers = pre ++ f :: post) (hslot : g.slot = f.slot) (heasies : m.easies = p.mCurlMHandle.easies)
    (hfresh : m.fresh = p.mCurlMHandle.fresh) :
    ({ p with mActiveFetchers := pre ++ g :: post, mCurlMHandle := m } : DownloadPipeline β).books = p.books := by
  simp only [books, ha, List.map_append, List.map_cons, hslot, heasies, hfresh]

/-- A step that starts nothing changes nothing in the books, or closes a handle, or is a fetcher's leaving. -/
theorem Step.books (h : Step (fun _ => False) p r p') (hs : p.books.Sound) :
    (p'.books = p.books ∨ p.books.Step p'.books) ∧ r ≠ .error notActive := by
  cases h with
  | launch _ hE => exact hE.elim
  | restart _ _ hE => exact hE.elim
  | @offer pre post f e n ha _ =>
    obtain ⟨hslot, heasies, hfresh⟩ := f.offer_books p.mCurlMHandle e n
    exact ⟨Or.inl (books_replace ha hslot heasies hfresh), by simp⟩
  | @resume f rest ha =>
    have hpause : (p.mCurlMHandle.easyPause f.mCurl).easies = p.mCurlMHandle.easies ∧
        (p.mCurlMHandle.easyPause f.mCurl).fresh = p.mCurlMHandle.fresh := by
      unfold Multi.easyPause
      cases f.mCurl with
      | easy h => exact ⟨Multi.easies_update _ h (fun _ => rfl), rfl⟩
      | null => exact ⟨rfl, rfl⟩
      | indeterminate => exact ⟨rfl, rfl⟩
    exact ⟨Or.inl (books_replace (show p.mActiveFetchers = [] ++ f :: rest from ha) rfl hpause.1 hpause.2), by simp⟩
  | @idle f rest n ha _ =>
    exact ⟨Or.inl (books_replace (show p.mActiveFetchers = [] ++ f :: rest from ha) (f.handOut_slot n) rfl rfl), by simp⟩
  | @pop f rest ha _ hdone =>
    have hbooks : p.books.active = f.slot :: rest.map HTTPFetcher.slot := by
      simp only [DownloadPipeline.books, ha, List.map_cons]
    have hnull : f.mCurl = .null := hs.closed f.slot (by rw [hbooks]; exact List.mem_cons_self ..) (Or.inl hdone)
    have hstep := Books.Step.leave hbooks hdone
    rw [HTTPFetcher.destroy_of_null hnull p.mCurlMHandle]
    exact ⟨Or.inr hstep, by simp⟩
  | @finish pre post f e res respcode hinfo ha hcurl =>
    have hresult := f.handleResult_ne_notActive res respcode (p.mCurlMHandle.update e.easy (fun t => { t with ended := true }))
    have hended : (p.mCurlMHandle.update e.easy (fun t => { t with ended := true })).easies = p.mCurlMHandle.easies :=
      Multi.easies_update _ _ (fun _ => rfl)
    have hbooks : p.books.active = pre.map HTTPFetcher.slot ++ f.slot :: post.map HTTPFetcher.slot := by
      simp only [DownloadPipeline.books, ha, List.map_append, List.map_cons]
    refine ⟨?_, hresult⟩
    rcases HTTPFetcher.handleResult_cases hcurl res respcode
        (p.mCurlMHandle.update e.easy (fun t => { t with ended := true })) with
      ⟨err, calls, _, _, heq⟩ | ⟨state, failures, m', heq, _, hfresh, _, htr⟩
    · rw [heq]
      exact Or.inl (books_replace ha rfl hended rfl)
    · rw [heq]
      right
      have hparent : f.mParent = true :=
        (hs.registered f.slot (by rw [hbooks]; exact List.mem_append_right _ (List.mem_cons_self ..)) _ hcurl).1
      have heasies : m'.easies = p.mCurlMHandle.easies.filter (· ≠ e.easy) := by
        unfold Multi.easies at hended ⊢
        rw [htr, if_pos hparent, ← hended, List.filter_map]
        rfl
      have hafter : ({ p with mActiveFetchers := pre ++ f.closed state failures :: post, mCurlMHandle := m' } :
          DownloadPipeline β).books = { p.books with
            active := pre.map HTTPFetcher.slot ++ { f.slot with curl := .null, state := state, parent := false } ::
              post.map HTTPFetcher.slot
            easies := p.books.easies.filter (· ≠ e.easy) } := by
        simp only [DownloadPipeline.books, List.map_append, List.map_cons, heasies, hfresh]
        rfl
      rw [hafter]
      exact Books.Step.close hbooks hcurl
  | @stray e res respcode err hinfo hno =>
    obtain ⟨t, ht⟩ : ∃ t, p.mCurlMHandle.find? e.easy = some t := by
      unfold Multi.infoRead at hinfo
      cases hf : p.mCurlMHandle.find? e.easy with
      | none =>
        rw [hf] at hinfo
        cases hinfo
      | some t => exact ⟨t, rfl⟩
    obtain ⟨hmem, heasy⟩ := Multi.mem_of_find? ht
    obtain ⟨s, hmem', hcurl⟩ := hs.owner t.easy (List.mem_map_of_mem hmem)
    obtain ⟨f, hf, rfl⟩ := List.mem_map.1 hmem'
    exact absurd (hcurl.trans (by rw [heasy])) (hno f hf)
  | dangle _ _ => exact ⟨Or.inl rfl, by simp⟩

/-- A fetcher being launched joins the active ones, perhaps with a new handle. -/
theorem launched_sound (hs : p.books.Sound) {f : HTTPFetcher β} {pending : List (HTTPFetcher β)}
    (hp : p.mPendingFetchers = f :: pending) (hroom : (p.mActiveFetchers.length : Int) < p.mNConnections) (env : StartEnv β) :
    ({ p with
      mActiveFetchers := p.mActiveFetchers ++ [(f.start env p.mCurlMHandle).fetcher]
      mPendingFetchers := pending
      mCurlMHandle := (f.start env p.mCurlMHandle).multi } : DownloadPipeline β).books.Sound := by
  have hpending : p.books.pending = f.slot :: pending.map HTTPFetcher.slot := by
    simp only [books, hp, List.map_cons]
  have hjoined := hs.join hpending (by simpa [books] using hroom)
  obtain ⟨hinit, hcurl⟩ := hs.waiting f.slot (by rw [hpending]; exact List.mem_cons_self ..)
  rcases f.start_books env p.mCurlMHandle with ⟨_, hslot, hm⟩ | ⟨state, hor, _, _, _, hslot, heasies, hfresh⟩
  · simp only [books, List.map_append, List.map_cons, List.map_nil, hslot, hm]
    exact hjoined
  · have hstate : state ≠ .done ∧ state ≠ .failed := by
      rcases hor with ⟨_, rfl⟩ | ⟨_, rfl⟩
      · rw [show f.mState = .init from hinit]
        exact ⟨by simp, by simp⟩
      · exact ⟨by simp, by simp⟩
    have hregistered := hjoined.register (show p.books.active ++ [f.slot] = p.books.active ++ f.slot :: [] from rfl)
      (fun h he => by rw [hcurl] at he; cases he) hstate.1 hstate.2
    simp only [books, List.map_append, List.map_cons, List.map_nil, hslot, heasies, hfresh]
    exact hregistered

/-- `launch` keeps the books sound, and the active fetchers stay in front. -/
theorem launchFrom_sound (env : Nat → StartEnv β) (pending : List (HTTPFetcher β)) (i : Nat) {p : DownloadPipeline β}
    (hp : p.mPendingFetchers = pending) (hs : p.books.Sound) :
    (launchFrom env i pending p).pipeline.books.Sound ∧ (launchFrom env i pending p).result ≠ .error notActive ∧
      p.mActiveFetchers <+: (launchFrom env i pending p).pipeline.mActiveFetchers := by
  induction pending generalizing p i with
  | nil => exact ⟨hs, (fun h => by cases h), List.prefix_refl _⟩
  | cons f pending ih =>
    unfold launchFrom
    split
    · rename_i hroom
      have hlaunched := launched_sound hs hp hroom (env i)
      have hne := f.start_ne_notActive (env i) p.mCurlMHandle
      have hstay : p.mActiveFetchers <+: p.mActiveFetchers ++ [(f.start (env i) p.mCurlMHandle).fetcher] :=
        List.prefix_append _ _
      dsimp only
      cases hr : (f.start (env i) p.mCurlMHandle).result with
      | ok u =>
        obtain ⟨hsound, hresult, hactive⟩ := ih (i + 1) (p := { p with
          mActiveFetchers := p.mActiveFetchers ++ [(f.start (env i) p.mCurlMHandle).fetcher]
          mPendingFetchers := pending
          mCurlMHandle := (f.start (env i) p.mCurlMHandle).multi }) rfl hlaunched
        exact ⟨hsound, hresult, hstay.trans hactive⟩
      | error e =>
        rw [hr] at hne
        exact ⟨hlaunched, hne, hstay⟩
    · exact ⟨hs, by simp, List.prefix_refl _⟩

/-- What starts nothing keeps the books sound. -/
theorem run_sound (h : Lib.Run (Step (fun _ => False)) p r p') (hs : p.books.Sound) :
    p'.books.Sound ∧ r ≠ .error notActive := by
  refine h.ends (I := fun p => p.books.Sound) (Q := fun r => r ≠ .error notActive) (by simp) ?_ hs
  intro q r q' hq hstep
  obtain ⟨hor, hr⟩ := hstep.books hq
  refine ⟨?_, hr⟩
  rcases hor with heq | hstep
  · rw [heq]
    exact hq
  · exact hstep.sound hq

end DownloadPipeline

end QingStor
