import QingStor.Lemmas.Turns
import QingStor.Lemmas.Ledger
import QingStor.Lemmas.FetcherRun
import QingStor.Lemmas.Opened

/-!
# Restarts of a fetcher that fails

A front fetcher that failed before it got a byte is restarted in the next turn, and its transfer can fail again in the same turn:
the pipeline is then as it was, with a new handle number. `Barren` is what such a pipeline has, from one turn to the next.
-/

namespace QingStor

variable {β : Type*}

/-- An outside in which every start goes well and the server answers with an empty body. -/
def StartEnv.willing : StartEnv β := ⟨true, true, Sample.signer, true, fun _ => ⟨500, [], .ok⟩⟩

/-- A round in which every start goes well, and the transfer on one handle cannot be made. -/
def Round.cutOff (easy : Nat) : Round β :=
  ⟨fun _ => .willing, [], .willing, true, true, [], [⟨easy, some (.other 6)⟩]⟩

/-- A fetcher with nothing in its buffer, whose URL can be split. -/
structure HTTPFetcher.Empty (f : HTTPFetcher β) : Prop where
  empty : f.mNused - f.mReadOff = 0
  unpaused : f.mPaused = false
  url : (qsParseUrl f.mUrl).isOk = true

namespace HTTPFetcher

variable {f : HTTPFetcher β} {m : Multi β}

/-- What a start in the willing outside comes to. -/
structure Started (f : HTTPFetcher β) (m : Multi β) (s : FetcherStep β) : Prop where
  ok : s.result = .ok ()
  this : s.fetcher.this = f.this
  running : s.fetcher.mState = .running
  mCurl : s.fetcher.mCurl = .easy m.fresh
  empty : s.fetcher.Empty
  fresh : s.multi.fresh = m.fresh + 1
  taken : s.multi.taken = m.taken
  below : ∀ t ∈ s.multi.transfers, t.easy < s.multi.fresh
  others : ∀ e, e ≠ m.fresh → s.multi.find? e = m.find? e
  registered : ∃ t, s.multi.find? m.fresh = some t ∧ t.ended = false

/-- A new handle, and its headers, leave the other handles as they are. -/
theorem find?_addHandle (u : Nat) (resp resp' : Response β) (e : Nat) :
    ((m.addHandle u resp).setHeaders m.fresh resp').find? e =
      ((m.find? e).map (fun t => if t.easy = m.fresh then
        { t with status := resp'.status, rest := resp'.body, res := resp'.res } else t)).or
      (if m.fresh = e then some ⟨m.fresh, u, resp'.status, resp'.body, resp'.res, false, false⟩ else none) := by
  unfold Multi.setHeaders Multi.addHandle Multi.update Multi.find?
  dsimp only
  rw [List.find?_map, List.find?_append, Option.map_or]
  congr 1
  · congr 2
    funext t
    simp only [Function.comp_apply]
    split <;> rfl
  · simp only [List.find?_cons, List.find?_nil, Function.comp_apply, if_true]
    by_cases he : m.fresh = e
    · simp [he]
    · simp [he]

theorem Empty.start_willing (h : f.Empty) (hstate : f.mState = .init ∨ f.mState = .failed)
    (hbelow : ∀ t ∈ m.transfers, t.easy < m.fresh) : f.Started m (f.start .willing m) := by
  have hok : (f.start .willing m).result = .ok () := start_ok (Or.inr rfl) hstate rfl rfl h.url m
  have hnew : m.find? m.fresh = none := by
    rw [Multi.find?, List.find?_eq_none]
    intro t ht he
    have hlt := hbelow t ht
    rw [of_decide_eq_true he] at hlt
    exact Nat.lt_irrefl _ hlt
  rcases f.start_cases .willing m with ⟨e, he⟩ | ⟨_, _, headers, lines, ⟨e, he⟩ | ⟨_, he⟩⟩
  · rw [he] at hok
    cases hok
  · rw [he] at hok
    cases hok
  · obtain ⟨size, buff, hsame⟩ := f.primed_same .willing
    rw [he, hsame]
    refine ⟨rfl, rfl, rfl, rfl, ⟨h.empty, h.unpaused, h.url⟩, rfl, rfl, ?_, ?_, ?_⟩
    · intro t' ht'
      obtain ⟨t, ht, rfl⟩ := List.mem_map.1 ht'
      have hlt : t.easy < m.fresh + 1 := by
        rcases List.mem_append.1 ht with ht | ht
        · exact Nat.lt_succ_of_lt (hbelow t ht)
        · rw [List.mem_singleton.1 ht]
          exact Nat.lt_succ_self _
      split <;> exact hlt
    · intro e hne
      rw [find?_addHandle, if_neg (Ne.symm hne), Option.or_none]
      cases ht : m.find? e with
      | none => rfl
      | some t =>
        have heasy := (Multi.mem_of_find? ht).2
        rw [Option.map_some, if_neg (by rw [heasy]; exact hne)]
    · rw [find?_addHandle, hnew, if_pos rfl]
      exact ⟨_, rfl, rfl⟩

end HTTPFetcher

namespace DownloadPipeline

variable {E : StartEnv β → Prop} {p p' : DownloadPipeline β} {r : Except Fault Unit} {u : Nat}

/-- The front fetcher, at the address `u`, is in the state `state` and got nothing; every other connection is in use or nothing
is pending. -/
structure Barren (p : DownloadPipeline β) (u : Nat) (f : HTTPFetcher β) (rest : List (HTTPFetcher β)) : Prop where
  front : p.mActiveFetchers = f :: rest
  this : f.this = u
  empty : f.Empty
  pending : ∀ g ∈ p.mPendingFetchers, g.mState = .init ∧ g.Empty
  below : ∀ t ∈ p.mCurlMHandle.transfers, t.easy < p.mCurlMHandle.fresh
  nothing : ∀ piece ∈ p.mCurlMHandle.taken, piece.userp ≠ u
  undone : ∀ g ∈ p.fetchers, g.this = u → g.mState ≠ .done

/-- `launch` has nothing to start. -/
def Launched (p : DownloadPipeline β) : Prop :=
  p.mPendingFetchers = [] ∨ p.mNConnections ≤ (p.mActiveFetchers.length : Int)

/-- The front fetcher runs on the handle `e`, whose transfer has not ended. -/
structure OnHandle (p : DownloadPipeline β) (f : HTTPFetcher β) (e : Nat) : Prop where
  running : f.mState = .running
  mCurl : f.mCurl = .easy e
  known : e < p.mCurlMHandle.fresh
  registered : ∃ t, p.mCurlMHandle.find? e = some t ∧ t.ended = false

/-- What moving bytes, the end of a transfer and a start cannot change of a fetcher, no step of a pipeline changes. -/
theorem Step.fetchers_keep {P : HTTPFetcher β → Prop} (hmoved : ∀ f g, f.Moved g → P f → P g)
    (hended : ∀ (f : HTTPFetcher β) state curl parent lines failures, P f → P { f with
      mState := state, mCurl := curl, mParent := parent, mHttpHeaders := lines, mNFailures := failures })
    (hstart : ∀ (f : HTTPFetcher β) env m, P f → P (f.start env m).fetcher) (hs : Step E p r p') (h : ∀ f ∈ p.fetchers, P f) :
    ∀ f ∈ p'.fetchers, P f := by
  have hactive : ∀ {pre post : List (HTTPFetcher β)} {f g : HTTPFetcher β} {m : Multi β}, p.mActiveFetchers = pre ++ f :: post →
      (P f → P g) →
      ∀ k ∈ ({ p with mActiveFetchers := pre ++ g :: post, mCurlMHandle := m } : DownloadPipeline β).fetchers, P k := by
    intro pre post f g m ha hg k hk
    have hf := fetchers_split ha
    have hf' := fetchers_split (p := { p with mActiveFetchers := pre ++ g :: post, mCurlMHandle := m }) rfl
    rcases mem_changed hf hf' hk with rfl | hk
    · exact hg (h f (by rw [hf]; exact List.mem_append_right _ (List.mem_cons_self ..)))
    · exact h k hk
  cases hs with
  | @launch f pending env hp _ =>
    intro k hk
    have hor : k = (f.start env p.mCurlMHandle).fetcher ∨ k ∈ p.fetchers := by
      simp only [fetchers, hp, List.mem_append, List.mem_cons] at hk ⊢
      tauto
    rcases hor with rfl | hk
    · exact hstart f env _ (h f (List.mem_append_right _ (by rw [hp]; exact List.mem_cons_self ..)))
    · exact h k hk
  | @restart f rest env ha _ _ =>
    exact hactive (show p.mActiveFetchers = [] ++ f :: rest from ha) (hstart f env _)
  | @offer pre post f e n ha _ => exact hactive ha (hmoved _ _ (f.offer_rebuffered p.mCurlMHandle e n).moved)
  | @resume f rest ha => exact hactive (show p.mActiveFetchers = [] ++ f :: rest from ha) (hmoved _ _ ⟨_, _, _, _, _, rfl⟩)
  | @idle f rest n ha _ => exact hactive (show p.mActiveFetchers = [] ++ f :: rest from ha) (hmoved _ _ ⟨_, _, _, _, _, rfl⟩)
  | @pop f rest ha _ _ =>
    intro k hk
    refine h k ?_
    rw [fetchers_front ha]
    exact List.mem_cons_of_mem _ hk
  | @finish pre post f e res respcode _ ha _ =>
    refine hactive ha (fun hf => ?_)
    obtain ⟨_, _, _, _, _, hsame⟩ :=
      f.handleResult_same res respcode (p.mCurlMHandle.update e.easy (fun t => { t with ended := true }))
    rw [hsame]
    exact hended f _ _ _ _ _ hf
  | stray _ _ | dangle _ _ => exact h

/-! ## Starts -/

variable {f : HTTPFetcher β} {rest : List (HTTPFetcher β)} {e n : Nat}

/-- One more fetcher is launched behind the front one. -/
theorem Barren.launch (h : p.Barren u f rest) (ho : p.OnHandle f e) {g : HTTPFetcher β} {pending : List (HTTPFetcher β)}
    (hp : p.mPendingFetchers = g :: pending) :
    (g.start .willing p.mCurlMHandle).result = .ok () ∧ ∃ rest',
      Barren { p with
        mActiveFetchers := p.mActiveFetchers ++ [(g.start .willing p.mCurlMHandle).fetcher]
        mPendingFetchers := pending
        mCurlMHandle := (g.start .willing p.mCurlMHandle).multi } u f rest' ∧
      OnHandle { p with
        mActiveFetchers := p.mActiveFetchers ++ [(g.start .willing p.mCurlMHandle).fetcher]
        mPendingFetchers := pending
        mCurlMHandle := (g.start .willing p.mCurlMHandle).multi } f e := by
  obtain ⟨hinit, hempty⟩ := h.pending g (by rw [hp]; exact List.mem_cons_self ..)
  have hs := hempty.start_willing (Or.inl hinit) h.below
  refine ⟨hs.ok, rest ++ [(g.start .willing p.mCurlMHandle).fetcher], ⟨?_, h.this, h.empty, ?_, hs.below, ?_, ?_⟩,
    ⟨ho.running, ho.mCurl, ?_, ?_⟩⟩
  · rw [h.front]
    rfl
  · intro k hk
    exact h.pending k (by rw [hp]; exact List.mem_cons_of_mem _ hk)
  · rw [hs.taken]
    exact h.nothing
  · intro k hk hthis
    have hor : k = (g.start .willing p.mCurlMHandle).fetcher ∨ k ∈ p.fetchers := by
      simp only [fetchers, hp, List.mem_append, List.mem_cons] at hk ⊢
      tauto
    rcases hor with rfl | hk
    · rw [hs.running]
      exact fun h => by cases h
    · exact h.undone k hk hthis
  · rw [hs.fresh]
    exact Nat.lt_succ_of_lt ho.known
  · rw [hs.others e (Nat.ne_of_lt ho.known)]
    exact ho.registered

/-- All that is launched is launched behind the front one. -/
theorem Barren.launchFrom (h : p.Barren u f rest) (ho : p.OnHandle f e) (pending : List (HTTPFetcher β)) (i : Nat)
    (hp : p.mPendingFetchers = pending) :
    (launchFrom (fun _ => .willing) i pending p).result = .ok () ∧
      (launchFrom (fun _ => .willing) i pending p).pipeline.Launched ∧
      (launchFrom (fun _ => .willing) i pending p).pipeline.OnHandle f e ∧
      ∃ rest', (launchFrom (fun _ => .willing) i pending p).pipeline.Barren u f rest' := by
  induction pending generalizing p rest i with
  | nil => exact ⟨rfl, Or.inl hp, ho, rest, h⟩
  | cons g pending ih =>
    unfold QingStor.launchFrom
    split
    · obtain ⟨hok, rest', hbarren, hon⟩ := h.launch ho hp
      dsimp only
      rw [hok]
      exact ih hbarren hon (i + 1) rfl
    · rename_i hfull
      exact ⟨rfl, Or.inr (not_lt.1 hfull), ho, rest, h⟩

/-- The first launch of a pipeline makes the first fetcher the front one. -/
theorem launch_first (hactive : p.mActiveFetchers = []) (hn : 0 < p.mNConnections) {g : HTTPFetcher β}
    {pending : List (HTTPFetcher β)} (hp : p.mPendingFetchers = g :: pending)
    (hpending : ∀ k ∈ p.mPendingFetchers, k.mState = .init ∧ k.Empty)
    (hbelow : ∀ t ∈ p.mCurlMHandle.transfers, t.easy < p.mCurlMHandle.fresh) (htaken : p.mCurlMHandle.taken = []) :
    (p.launch (fun _ => .willing)).result = .ok () ∧ (p.launch (fun _ => .willing)).pipeline.Launched ∧
      ∃ f rest, (p.launch (fun _ => .willing)).pipeline.OnHandle f p.mCurlMHandle.fresh ∧
        (p.launch (fun _ => .willing)).pipeline.Barren g.this f rest := by
  obtain ⟨hinit, hempty⟩ := hpending g (by rw [hp]; exact List.mem_cons_self ..)
  have hs := hempty.start_willing (Or.inl hinit) hbelow
  have hroom : (p.mActiveFetchers.length : Int) < p.mNConnections := by
    rw [hactive]
    exact hn
  unfold launch
  rw [hp]
  unfold QingStor.launchFrom
  rw [if_pos hroom]
  dsimp only
  rw [hs.ok]
  have hbarren : Barren { p with
      mActiveFetchers := p.mActiveFetchers ++ [(g.start .willing p.mCurlMHandle).fetcher]
      mPendingFetchers := pending
      mCurlMHandle := (g.start .willing p.mCurlMHandle).multi } g.this (g.start .willing p.mCurlMHandle).fetcher [] := by
    refine ⟨?_, hs.this, hs.empty, ?_, hs.below, ?_, ?_⟩
    · rw [hactive]
      rfl
    · intro k hk
      exact hpending k (by rw [hp]; exact List.mem_cons_of_mem _ hk)
    · intro piece hpiece
      rw [hs.taken, htaken] at hpiece
      cases hpiece
    · intro k hk _ hdone
      rw [fetchers, hactive] at hk
      rcases List.mem_cons.1 hk with rfl | hk
      · rw [hs.running] at hdone
        cases hdone
      · rw [(hpending k (by rw [hp]; exact List.mem_cons_of_mem _ hk)).1] at hdone
        cases hdone
  have hon : OnHandle { p with
      mActiveFetchers := p.mActiveFetchers ++ [(g.start .willing p.mCurlMHandle).fetcher]
      mPendingFetchers := pending
      mCurlMHandle := (g.start .willing p.mCurlMHandle).multi } (g.start .willing p.mCurlMHandle).fetcher p.mCurlMHandle.fresh := by
    refine ⟨hs.running, hs.mCurl, ?_, hs.registered⟩
    rw [hs.fresh]
    exact Nat.lt_succ_self _
  obtain ⟨hok, hlaunched, hon', rest', hbarren'⟩ := hbarren.launchFrom hon pending (0 + 1) rfl
  exact ⟨hok, hlaunched, _, rest', hon', hbarren'⟩

/-- A failed front fetcher is restarted on a new handle. -/
theorem Barren.restart (h : p.Barren u f rest) (hl : p.Launched) (hfailed : f.mState = .failed) :
    (p.restart .willing).result = .ok () ∧ (p.restart .willing).pipeline.Launched ∧
      ∃ g, (p.restart .willing).pipeline.OnHandle g p.mCurlMHandle.fresh ∧ (p.restart .willing).pipeline.Barren u g rest := by
  have hs := h.empty.start_willing (Or.inr hfailed) h.below
  unfold DownloadPipeline.restart
  rw [h.front]
  dsimp only
  rw [if_pos hfailed]
  refine ⟨hs.ok, ?_, (f.start .willing p.mCurlMHandle).fetcher, ⟨hs.running, hs.mCurl, ?_, hs.registered⟩,
    ⟨rfl, hs.this.trans h.this, hs.empty, h.pending, hs.below, ?_, ?_⟩⟩
  · unfold Launched at hl ⊢
    rw [h.front] at hl
    exact hl
  · rw [hs.fresh]
    exact Nat.lt_succ_self _
  · rw [hs.taken]
    exact h.nothing
  · intro k hk hthis
    rcases List.mem_cons.1 hk with rfl | hk
    · rw [hs.running]
      exact fun h => by cases h
    · refine h.undone k ?_ hthis
      rw [fetchers_front h.front]
      exact List.mem_cons_of_mem _ hk

/-! ## Turns -/

/-- The transfer of the front fetcher fails, and so does the fetcher. -/
theorem Barren.wait (h : p.Barren u f rest) (hl : p.Launched) (ho : p.OnHandle f e) :
    (p.wait (.cutOff e)).result = .ok () ∧ (p.wait (.cutOff e)).pipeline.Launched ∧
      ∃ g rest', g.mState = .failed ∧ (p.wait (.cutOff e)).pipeline.Barren u g rest' := by
  obtain ⟨t, ht, hgoes⟩ := ho.registered
  have hinfo : p.mCurlMHandle.infoRead ⟨e, some (.other 6)⟩ = some (.failure (.other 6), t.status) := by
    unfold Multi.infoRead
    rw [ht]
    dsimp only
    rw [hgoes]
    rfl
  have hfound : p.mActiveFetchers.find? (fun f => f.mCurl = .easy e) = some f := by
    rw [h.front, List.find?_cons, ho.mCurl, decide_eq_true rfl]
  rcases HTTPFetcher.handleResult_cases ho.mCurl (.failure (.other 6)) t.status
      (p.mCurlMHandle.update e (fun t => { t with ended := true })) with
    ⟨err, calls, hok, _⟩ | ⟨state, failures, m', heq, hstate, hfresh, htaken, htr⟩
  · cases hok
  · obtain rfl : state = .failed := by
      rcases hstate with hstate | ⟨_, hok, _⟩
      · exact hstate
      · cases hok
    have hwait : p.wait (.cutOff e) = ⟨.ok (), { p with
        mActiveFetchers := f.closed .failed failures ::
          rest.map (fun g => if g.this = f.this then f.closed .failed failures else g)
        mCurlMHandle := m' }⟩ := by
      rw [show p.wait (.cutOff e) = p.handleEnds [⟨e, some (.other 6)⟩] from rfl]
      unfold handleEnds handleEnd
      rw [hinfo]
      dsimp only
      rw [hfound]
      dsimp only
      rw [heq, h.front, List.map_cons, if_pos rfl]
      rfl
    rw [hwait]
    refine ⟨rfl, ?_, f.closed .failed failures, _, rfl, ⟨rfl, h.this, ⟨h.empty.empty, h.empty.unpaused, h.empty.url⟩, h.pending, ?_,
      ?_, ?_⟩⟩
    · unfold Launched at hl ⊢
      rw [h.front] at hl
      dsimp only
      rw [List.length_cons, List.length_map]
      exact hl
    · have hbelow : ∀ t ∈ (p.mCurlMHandle.update e (fun t => { t with ended := true })).transfers,
          t.easy < p.mCurlMHandle.fresh := by
        intro t' ht'
        obtain ⟨t, ht, rfl⟩ := List.mem_map.1 ht'
        have hlt := h.below t ht
        split <;> exact hlt
      intro t' ht'
      dsimp only at ht' ⊢
      rw [hfresh]
      rw [htr] at ht'
      split at ht'
      · exact hbelow t' (List.mem_filter.1 ht').1
      · exact hbelow t' ht'
    · rw [htaken]
      exact h.nothing
    · intro k hk hthis
      rcases List.mem_cons.1 hk with rfl | hk
      · exact fun h => by cases h
      · rcases List.mem_append.1 hk with hk | hk
        · obtain ⟨k', hk', rfl⟩ := List.mem_map.1 hk
          by_cases hsame : k'.this = f.this
          · rw [if_pos hsame]
            exact fun h => by cases h
          · rw [if_neg hsame] at hthis ⊢
            exact h.undone k' (active_subset_fetchers (by rw [h.front]; exact List.mem_cons_of_mem _ hk')) hthis
        · exact h.undone k (List.mem_append_right _ hk) hthis

/-- `get` on an empty front fetcher gives nothing. -/
theorem Barren.getFront (h : p.Barren u f rest) (n : Nat) : p.getFront n [] = some (.nothing, p) := by
  have hundone : f.mState ≠ .done := h.undone f (active_subset_fetchers (by rw [h.front]; exact List.mem_cons_self ..)) h.this
  have hget : f.get n [] p.mCurlMHandle = (.nothing, f, p.mCurlMHandle) := by
    unfold HTTPFetcher.get
    rw [h.empty.empty, if_neg (Nat.lt_irrefl 0), if_neg (by rw [h.empty.unpaused]; exact Bool.false_ne_true), HTTPFetcher.drained,
      if_neg hundone]
  unfold DownloadPipeline.getFront
  rw [h.front]
  dsimp only
  rw [hget, ← h.front]

end DownloadPipeline

/-- In this turn the front fetcher is the one at the address `u`, and it is restarted. -/
def ReadTurn.restarts (u : Nat) (t : ReadTurn β) : Bool :=
  match t.beforeRestart with
  | none => false
  | some p => p.mActiveFetchers.head?.any (fun f => f.this = u ∧ f.mState = .failed)

/-- Up to the end of this turn no byte came for the fetcher at the address `u`, and it is not done. -/
structure ReadTurn.Fruitless (u : Nat) (t : ReadTurn β) : Prop where
  nothing : ∀ piece ∈ t.after.mCurlMHandle.taken, piece.userp ≠ u
  undone : ∀ f ∈ t.after.fetchers, f.this = u → f.mState ≠ .done

namespace DownloadPipeline

variable {p : DownloadPipeline β} {u : Nat} {f : HTTPFetcher β} {rest : List (HTTPFetcher β)} {e n : Nat}

/-- A turn with a barren front fetcher, once `launch` is over, is a restart and a wait. -/
theorem Barren.turn {t : ReadTurn β} (hok : (t.before.launch t.round.launch).result = .ok ()) (h : t.launched.Barren u f rest)
    (hresume : t.round.resume = []) :
    t.beforeRestart = some t.launched ∧ t.result = (t.launched.waitMore t.round).1 ∧
      t.after = (t.launched.waitMore t.round).2 := by
  have hfront := h.getFront t.bufflen
  rw [← hresume] at hfront
  cases t.course with
  | thrown _ he =>
    rw [hok] at he
    cases he
  | empty _ hnone =>
    rw [hfront] at hnone
    cases hnone
  | leaves _ _ hsome =>
    rw [hfront] at hsome
    cases hsome
  | bytes _ _ _ hsome =>
    rw [hfront] at hsome
    cases hsome
  | waits got q _ hsome _ _ hq hres hafter =>
    rw [hfront] at hsome
    obtain ⟨_, rfl⟩ := Prod.mk.inj (Option.some.inj hsome)
    exact ⟨hq, hres, hafter⟩

/-- With nothing to start, `launch` leaves a pipeline as it is. -/
theorem Launched.launch (hl : p.Launched) (env : Nat → StartEnv β) : p.launch env = ⟨.ok (), p⟩ := by
  unfold DownloadPipeline.launch
  cases hp : p.mPendingFetchers with
  | nil => rfl
  | cons g pending =>
    unfold QingStor.launchFrom
    refine if_neg ?_
    rcases hl with hnil | hfull
    · rw [hp] at hnil
      cases hnil
    · omega

/-- A turn that waits for the failure of the front fetcher comes to a pipeline that restarts it next. -/
theorem Barren.fails {t : ReadTurn β} (h : t.launched.Barren u f rest) (hround : t.round = .cutOff e)
    (hok : (t.before.launch t.round.launch).result = .ok ())
    (hrestart : (t.launched.restart .willing).result = .ok () ∧ (t.launched.restart .willing).pipeline.Launched ∧
      ∃ g, (t.launched.restart .willing).pipeline.OnHandle g e ∧ ∃ rest', (t.launched.restart .willing).pipeline.Barren u g rest') :
    t.result = .again ∧ t.beforeRestart = some t.launched ∧ t.after.Launched ∧
      ∃ g rest', g.mState = .failed ∧ t.after.Barren u g rest' := by
  obtain ⟨hstarted, hl, g, hon, rest', hbarren⟩ := hrestart
  obtain ⟨hwaited, hl', g', rest'', hfailed, hbarren'⟩ := hbarren.wait hl hon
  obtain ⟨hq, hres, hafter⟩ := h.turn hok (by rw [hround]; rfl)
  have hmore : t.launched.waitMore t.round = (.again, ((t.launched.restart .willing).pipeline.wait (.cutOff e)).pipeline) := by
    rw [hround]
    unfold waitMore
    rw [show (Round.cutOff (β := β) e).restart = .willing from rfl, hstarted]
    dsimp only
    rw [hwaited]
  rw [hmore] at hres hafter
  rw [hafter]
  exact ⟨hres, hq, hl', g', rest'', hfailed, hbarren'⟩

/-- From a failed front fetcher, a turn comes back to a failed front fetcher, and restarts it. -/
theorem Barren.again (h : p.Barren u f rest) (hl : p.Launched) (hfailed : f.mState = .failed) {t : ReadTurn β}
    (hbefore : t.before = p) (hround : t.round = .cutOff p.mCurlMHandle.fresh) :
    t.result = .again ∧ t.restarts u = true ∧ t.after.Launched ∧ ∃ g rest', g.mState = .failed ∧ t.after.Barren u g rest' := by
  have hlaunch : t.before.launch t.round.launch = ⟨.ok (), p⟩ := by
    rw [hbefore]
    exact hl.launch _
  have hlaunched : t.launched = p := by
    rw [ReadTurn.launched, hlaunch]
  obtain ⟨hstarted, hl', g, hon, hbarren⟩ := h.restart hl hfailed
  rw [← hlaunched] at h
  obtain ⟨hres, hq, hafter⟩ := h.fails hround (by rw [hlaunch]) (by rw [hlaunched]; exact ⟨hstarted, hl', g, hon, rest, hbarren⟩)
  refine ⟨hres, ?_, hafter⟩
  unfold ReadTurn.restarts
  rw [hq]
  dsimp only
  rw [h.front, List.head?_cons, Option.any_some, decide_eq_true_eq]
  exact ⟨h.this, hfailed⟩

/-- A turn that comes to another turn is followed by it. -/
theorem turns_again {r : Round β} (h : (ReadTurn.mk p n r).result = .again) (rounds : List (Round β)) :
    p.turns n (r :: rounds) = ⟨p, n, r⟩ :: (ReadTurn.mk p n r).after.turns n rounds := by
  have hturn : p.readTurn n r = (.again, (ReadTurn.mk p n r).after) := Prod.ext h rfl
  rw [turns, hturn]

/-- Any other turn is the last. -/
theorem turns_ended {r : Round β} (h : (ReadTurn.mk p n r).result ≠ .again) (rounds : List (Round β)) :
    p.turns n (r :: rounds) = [⟨p, n, r⟩] := by
  unfold ReadTurn.result at h
  rw [turns]
  cases hturn : p.readTurn n r with
  | mk result q =>
    rw [hturn] at h
    cases result with
    | again => exact (h rfl).elim
    | bytes _ | eof | thrown _ => rfl

/-- A turn that goes on and gives nothing is one more of them. -/
theorem turns_fruitless {r : Round β} (h : (ReadTurn.mk p n r).result = .again)
    (hbarren : (ReadTurn.mk p n r).after.Barren u f rest) {rounds : List (Round β)}
    (hfruitless : ∀ t ∈ (ReadTurn.mk p n r).after.turns n rounds, t.Fruitless u) :
    ∀ t ∈ p.turns n (r :: rounds), t.Fruitless u := by
  rw [turns_again h]
  intro t ht
  rcases List.mem_cons.1 ht with rfl | ht
  · exact ⟨hbarren.nothing, hbarren.undone⟩
  · exact hfruitless t ht

/-- So a front fetcher that failed can be restarted as often as one likes in a call of `read`. -/
theorem Barren.restarts (h : p.Barren u f rest) (hl : p.Launched) (hfailed : f.mState = .failed) (n k : Nat) :
    ∃ rounds, (∀ t ∈ p.turns n rounds, t.Fruitless u) ∧ (p.turns n rounds).countP (·.restarts u) = k := by
  induction k generalizing p f rest with
  | zero => exact ⟨[], fun t ht => (by cases ht), rfl⟩
  | succ k ih =>
    obtain ⟨hres, hrestarts, hl', g, rest', hfailed', hbarren⟩ :=
      h.again hl hfailed (t := ⟨p, n, .cutOff p.mCurlMHandle.fresh⟩) rfl rfl
    obtain ⟨rounds, hfruitless, hcount⟩ := ih hbarren hl' hfailed'
    refine ⟨.cutOff p.mCurlMHandle.fresh :: rounds, turns_fruitless hres hbarren hfruitless, ?_⟩
    rw [turns_again hres, List.countP_cons, if_pos hrestarts, hcount]

/-- A new pipeline with something pending can be made to restart its first fetcher as often as one likes. -/
theorem restarts_unbounded (hactive : p.mActiveFetchers = []) (hn : 0 < p.mNConnections) {g : HTTPFetcher β}
    {pending : List (HTTPFetcher β)} (hp : p.mPendingFetchers = g :: pending)
    (hpending : ∀ k ∈ p.mPendingFetchers, k.mState = .init ∧ k.Empty)
    (hbelow : ∀ t ∈ p.mCurlMHandle.transfers, t.easy < p.mCurlMHandle.fresh) (htaken : p.mCurlMHandle.taken = []) (n k : Nat) :
    ∃ rounds, (∀ t ∈ p.turns n rounds, t.Fruitless g.this) ∧ k ≤ (p.turns n rounds).countP (·.restarts g.this) := by
  obtain ⟨hok, hl, f, rest, hon, hbarren⟩ := launch_first hactive hn hp hpending hbelow htaken
  have hrestart : (p.launch (fun _ => .willing)).pipeline.restart .willing = ⟨.ok (), (p.launch (fun _ => .willing)).pipeline⟩ := by
    unfold DownloadPipeline.restart
    rw [hbarren.front]
    dsimp only
    rw [if_neg (by rw [hon.running]; exact fun h => by cases h)]
  obtain ⟨hres, _, hl', g', rest', hfailed, hbarren'⟩ := Barren.fails (t := ⟨p, n, .cutOff p.mCurlMHandle.fresh⟩)
    (e := p.mCurlMHandle.fresh) hbarren rfl hok (by
      show ((p.launch (fun _ => .willing)).pipeline.restart .willing).result = .ok () ∧ _
      rw [ReadTurn.launched]
      dsimp only [Round.cutOff]
      rw [hrestart]
      exact ⟨rfl, hl, f, hon, rest, hbarren⟩)
  obtain ⟨rounds, hfruitless, hcount⟩ := hbarren'.restarts hl' hfailed n k
  refine ⟨.cutOff p.mCurlMHandle.fresh :: rounds, turns_fruitless hres hbarren' hfruitless, ?_⟩
  rw [turns_again hres, List.countP_cons, hcount]
  exact Nat.le_add_right _ _

end DownloadPipeline

end QingStor
