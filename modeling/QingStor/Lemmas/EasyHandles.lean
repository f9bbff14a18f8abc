import QingStor.Lemmas.HandleBook
import QingStor.Lemmas.FetcherRun
import QingStor.Lemmas.Bookkeeping
import QingStor.Lemmas.Turns

/-!
# The handles of a pipeline

What each function of a fetcher and of the pipeline does to the book of handles, and when it leaves the book in order: an
unpausing when the front fetcher has a handle, a restart when it has none.
-/

namespace QingStor

variable {β : Type*}

namespace HTTPFetcher

variable {f g : HTTPFetcher β} {rest : Multiset CurlPtr}

/-- The book of a fetcher, next to what the others hold. -/
def book (f : HTTPFetcher β) (rest : Multiset CurlPtr) (m : Multi β) : HandleBook := ⟨f.mCurl ::ₘ rest, m.calls, m.fresh⟩

/-- A start that gets as far as a new handle. -/
def GetsHandle (f : HTTPFetcher β) (env : StartEnv β) : Prop :=
  (f.mReadBuff.isSome = true ∨ env.malloc = true) ∧ (f.mState = .init ∨ f.mState = .failed) ∧ env.easyInit = true

/-! ## `start` -/

theorem start_fresh {env : StartEnv β} (h : f.GetsHandle env) (m : Multi β) : (f.start env m).multi.fresh = m.fresh + 1 := by
  obtain ⟨hbuff, hstate, hinit⟩ := h
  rw [start_primed f hbuff]
  obtain ⟨hnone, hgoes⟩ := primed_goes hbuff hstate
  generalize f.primed env = g at hnone hgoes
  unfold start
  simp only [hnone, Bool.false_eq_true, if_false, false_and, if_neg hgoes, hinit, not_true_eq_false]
  repeat' split
  all_goals rfl

/-- A start takes a new handle, or leaves the book as it is. -/
theorem start_leads (f : HTTPFetcher β) (env : StartEnv β) (m : Multi β) (rest : Multiset CurlPtr) :
    (f.book rest m).Leads ((f.start env m).fetcher.book rest (f.start env m).multi)
      (f.GetsHandle env → ∀ h, f.mCurl ≠ .easy h) := by
  obtain ⟨size, buff, hprimed⟩ := f.primed_same env
  have hregister : ∀ {g : HTTPFetcher β} {m' : Multi β}, g.mCurl = .easy m.fresh → m'.fresh = m.fresh + 1 →
      m'.calls = m.calls ++ [.easyInit m.fresh, .multiAdd m.fresh] →
      (f.book rest m).Leads (g.book rest m') (∀ h, f.mCurl ≠ .easy h) := by
    intro g m' hcurl hfresh hcalls
    have hinit := HandleBook.leads_init (b := f.book rest m) rfl
    have hadd := HandleBook.leads_call (x := .multiAdd m.fresh)
      ⟨.easy m.fresh ::ₘ rest, m.calls ++ [.easyInit m.fresh], m.fresh + 1⟩ (fun h he => by cases he) (fun h he => by cases he)
    have hboth := hinit.trans hadd
    unfold book
    rw [hcurl, hfresh, hcalls]
    rw [List.append_assoc] at hboth
    exact hboth.congr (fun _ => and_iff_left (fun p hp => by cases hp))
  by_cases hgets : f.GetsHandle env
  · have hcond : (∀ h, f.mCurl ≠ .easy h) ↔ (f.GetsHandle env → ∀ h, f.mCurl ≠ .easy h) := ⟨fun h _ => h, fun h => h hgets⟩
    rcases f.start_cases env m with ⟨e, he⟩ | ⟨_, _, headers, lines, ⟨e, he⟩ | ⟨_, he⟩⟩
    · have hfresh := start_fresh hgets m
      rw [he] at hfresh
      exact absurd hfresh (Nat.ne_of_lt (Nat.lt_succ_self _))
    · rw [he]
      exact (hregister rfl rfl rfl).congr (fun _ => hcond)
    · rw [he]
      exact (hregister rfl rfl rfl).congr (fun _ => hcond)
  · have hstay : (f.start env m).multi = m ∧ (f.start env m).fetcher.mCurl = f.mCurl := by
      rcases f.start_cases env m with ⟨e, he⟩ | ⟨hbuff, hstate, headers, lines, hor⟩
      · rw [he, hprimed]
        exact ⟨rfl, rfl⟩
      · have hinit : env.easyInit = false := by
          by_contra hinit
          exact hgets ⟨hbuff, hstate, by simpa using hinit⟩
        have hm := f.start_multi_of_no_handle hinit m
        rcases hor with ⟨e, he⟩ | ⟨_, he⟩
        all_goals
          rw [he] at hm
          exact absurd (congrArg Multi.fresh hm) (Nat.ne_of_gt (Nat.lt_succ_self _))
    unfold book
    rw [hstay.1, hstay.2]
    exact (HandleBook.Leads.refl _).congr (fun _ => ⟨fun _ h => (hgets h).elim, fun _ => trivial⟩)

/-! ## `get` -/

/-- An offer of curl is no call on a handle. -/
theorem offer_calls (f : HTTPFetcher β) (m : Multi β) (e n : Nat) :
    (f.offer m e n).2.calls = m.calls ∧ (f.offer m e n).2.fresh = m.fresh ∧ f.Moved (f.offer m e n).1 := by
  refine ⟨?_, (f.offer_books m e n).2.2, (f.offer_rebuffered m e n).moved⟩
  unfold offer
  split
  · rfl
  · split
    · rfl
    · split <;> rfl

theorem offers_calls (f : HTTPFetcher β) (m : Multi β) (e : Nat) (ns : List Nat) :
    (ns.foldl (fun s n => s.1.offer s.2 e n) (f, m)).2.calls = m.calls ∧
      (ns.foldl (fun s n => s.1.offer s.2 e n) (f, m)).2.fresh = m.fresh ∧
      f.Moved (ns.foldl (fun s n => s.1.offer s.2 e n) (f, m)).1 := by
  induction ns generalizing f m with
  | nil => exact ⟨rfl, rfl, Moved.refl f⟩
  | cons n ns ih =>
    obtain ⟨hcalls, hfresh, hmoved⟩ := f.offer_calls m e n
    obtain ⟨hcalls', hfresh', hmoved'⟩ := ih (f.offer m e n).1 (f.offer m e n).2
    exact ⟨hcalls'.trans hcalls, hfresh'.trans hfresh, hmoved.trans hmoved'⟩

/-- An unpausing is one call on the handle. -/
theorem unpause_calls (f : HTTPFetcher β) (m : Multi β) (ns : List Nat) :
    (f.unpause m ns).2.calls = m.calls ++ [.easyPause f.mCurl] ∧ (f.unpause m ns).2.fresh = m.fresh ∧
      f.Moved (f.unpause m ns).1 := by
  have hopen : f.Moved { f with mPaused := false } := ⟨_, _, _, _, _, rfl⟩
  unfold unpause
  dsimp only
  cases hcurl : f.mCurl with
  | easy h =>
    obtain ⟨hcalls, hfresh, hmoved⟩ := ({ f with mPaused := false } : HTTPFetcher β).offers_calls (m.easyPause (.easy h)) h ns
    rw [hcurl] at hopen hcalls hfresh hmoved
    exact ⟨hcalls, hfresh, hopen.trans hmoved⟩
  | null | indeterminate =>
    rw [hcurl] at hopen
    exact ⟨rfl, rfl, hopen⟩

/-- `get` calls nothing but `curl_easy_pause`, and that only when the buffer is empty and the fetcher is paused. -/
theorem get_calls (f : HTTPFetcher β) (n : Nat) (resumes : List (List Nat)) (m : Multi β) :
    ∃ k, (f.get n resumes m).2.2.calls = m.calls ++ List.replicate k (.easyPause f.mCurl) ∧
      (f.get n resumes m).2.2.fresh = m.fresh ∧ f.Moved (f.get n resumes m).2.1 ∧
      (k ≠ 0 ↔ f.mNused - f.mReadOff = 0 ∧ f.mPaused = true) := by
  have havail : ∀ {f : HTTPFetcher β}, f.mNused - f.mReadOff > 0 → ¬ (f.mNused - f.mReadOff = 0 ∧ f.mPaused = true) := by
    intro f hpos h
    omega
  have hopen : ∀ {f : HTTPFetcher β}, ¬ f.mPaused = true → ¬ (f.mNused - f.mReadOff = 0 ∧ f.mPaused = true) :=
    fun hp h => hp h.2
  induction resumes generalizing f m with
  | nil =>
    unfold get
    split
    · rename_i hpos
      exact ⟨0, by simp, rfl, ⟨_, _, _, _, _, rfl⟩, by simp [havail hpos]⟩
    · rename_i hempty
      split
      · rename_i hpaused
        obtain ⟨hcalls, hfresh, hmoved⟩ := f.unpause_calls m []
        exact ⟨1, hcalls, hfresh, hmoved, by simp [Nat.eq_zero_of_not_pos hempty, hpaused]⟩
      · rename_i hpaused
        exact ⟨0, by simp, rfl, Moved.refl f, by simp [hpaused]⟩
  | cons ns resumes ih =>
    unfold get
    split
    · rename_i hpos
      exact ⟨0, by simp, rfl, ⟨_, _, _, _, _, rfl⟩, by simp [havail hpos]⟩
    · rename_i hempty
      split
      · rename_i hpaused
        obtain ⟨hcalls, hfresh, hmoved⟩ := f.unpause_calls m ns
        obtain ⟨k, hcalls', hfresh', hmoved', _⟩ := ih (f.unpause m ns).1 (f.unpause m ns).2
        have hcurl : (f.unpause m ns).1.mCurl = f.mCurl := by
          obtain ⟨_, _, _, _, _, hsame⟩ := hmoved
          rw [hsame]
        refine ⟨k + 1, ?_, hfresh'.trans hfresh, hmoved.trans hmoved', by simp [Nat.eq_zero_of_not_pos hempty, hpaused]⟩
        rw [hcalls', hcalls, hcurl, List.append_assoc, List.singleton_append, List.replicate_succ]
      · rename_i hpaused
        exact ⟨0, by simp, rfl, Moved.refl f, by simp [hpaused]⟩

/-- Moving bytes keeps the handle. -/
theorem Moved.mCurl (h : f.Moved g) : g.mCurl = f.mCurl := by
  obtain ⟨_, _, _, _, _, rfl⟩ := h
  rfl

/-- `get` leaves the book in order when it has nothing to unpause, or a handle. -/
theorem get_leads (f : HTTPFetcher β) (n : Nat) (resumes : List (List Nat)) (m : Multi β) (rest : Multiset CurlPtr) :
    (f.book rest m).Leads ((f.get n resumes m).2.1.book rest (f.get n resumes m).2.2)
      (f.mNused - f.mReadOff = 0 → f.mPaused = true → ∃ h, f.mCurl = .easy h) := by
  obtain ⟨k, hcalls, hfresh, hmoved, hk⟩ := f.get_calls n resumes m
  have hpauses := HandleBook.leads_pauses (b := f.book rest m) (Multiset.mem_cons_self f.mCurl rest) k
  unfold book at hpauses ⊢
  rw [hcalls, hfresh, hmoved.mCurl]
  exact hpauses.congr (fun _ => by rw [hk, and_imp])

/-! ## Ends -/

/-- Giving up a handle that is held. -/
theorem cleanup_leads {e : Nat} (hcurl : f.mCurl = .easy e) (m : Multi β) (rest : Multiset CurlPtr) :
    (f.book rest m).Leads ((f.cleanup m).1.book rest (f.cleanup m).2) True := by
  have hne : f.mCurl ≠ .null := by
    rw [hcurl]
    exact CurlPtr.noConfusion
  have hheld : CurlPtr.easy e ∈ (f.book rest m).holders := by
    unfold book
    rw [hcurl]
    exact Multiset.mem_cons_self _ _
  have hclean : ∀ calls : List CurlCall, (⟨.easy e ::ₘ rest, calls, m.fresh⟩ : HandleBook).Leads
      ⟨.null ::ₘ rest, calls ++ [.easyCleanup (.easy e)], m.fresh⟩ True := fun _ => HandleBook.leads_cleanup rfl
  unfold cleanup
  rw [if_neg hne]
  cases f.mParent with
  | true =>
    have hremove := (f.book rest m).leads_call (x := .multiRemove (.easy e)) (fun h he => by cases he) (fun h he => by cases he)
    unfold book at hremove hheld ⊢
    rw [hcurl] at hremove hheld ⊢
    exact (hremove.trans (hclean _)).congr (fun hs => by simpa using hs.allowed hheld rfl)
  | false =>
    unfold book
    rw [hcurl]
    exact hclean m.calls

/-- The end of a transfer leaves the book in order. -/
theorem handleResult_leads {e : Nat} (hcurl : f.mCurl = .easy e) (res : CURLcode) (respcode : Nat) (m : Multi β)
    (rest : Multiset CurlPtr) :
    (f.book rest m).Leads ((f.handleResult res respcode m).fetcher.book rest (f.handleResult res respcode m).multi) True := by
  have hne : f.mCurl ≠ .null := by
    rw [hcurl]
    exact CurlPtr.noConfusion
  have hfail : ∀ m : Multi β, (f.book rest m).Leads ((f.fail m).1.book rest (f.fail m).2) True :=
    fun m => f.cleanup_leads hcurl m rest
  have hdone : ∀ m : Multi β, (f.book rest m).Leads ((f.done m).1.book rest (f.done m).2) True :=
    fun m => f.cleanup_leads hcurl m rest
  unfold handleResult
  rw [if_neg hne]
  cases res with
  | failure c => exact hfail m
  | ok =>
    have hheld : CurlPtr.easy e ∈ (f.book rest m).holders := by
      unfold book
      rw [hcurl]
      exact Multiset.mem_cons_self _ _
    have hinfo : (f.book rest m).Leads (f.book rest { m with calls := m.calls ++ [.easyGetinfo f.mCurl] }) True := by
      rw [hcurl]
      have hcall := (f.book rest m).leads_call (x := .easyGetinfo (.easy e)) (fun h he => by cases he) (fun h he => by cases he)
      refine hcall.congr ?_
      intro hs
      simpa using hs.allowed hheld rfl
    dsimp only
    split
    · exact hinfo
    · split
      · exact (hinfo.trans (hfail _)).congr (fun _ => and_self_iff)
      · exact (hinfo.trans (hdone _)).congr (fun _ => and_self_iff)

/-- A fetcher that is destroyed cleans up what it holds; without a handle it leaves the book as it is, unless it never had one. -/
theorem destroy_leads (f : HTTPFetcher β) (m : Multi β) (rest : Multiset CurlPtr) :
    (f.book rest m).Leads ⟨rest, (f.destroy m).calls, (f.destroy m).fresh⟩ (f.mCurl ≠ .indeterminate) := by
  cases hcurl : f.mCurl with
  | null =>
    have hstay := destroy_of_null hcurl m
    have hleave := HandleBook.leads_leave (b := f.book rest m) rfl (fun h he => by rw [hcurl] at he; cases he)
    rw [hstay]
    exact hleave.congr (fun _ => by simp)
  | easy e =>
    have hclean := f.cleanup_leads hcurl m rest
    have hnull := f.cleanup_mCurl m
    have hleave := HandleBook.leads_leave (b := (f.cleanup m).1.book rest (f.cleanup m).2) rfl
      (fun h he => by rw [hnull] at he; cases he)
    exact (hclean.trans hleave).congr (fun _ => by simp)
  | indeterminate =>
    have hleave := HandleBook.leads_leave (b := f.book rest m) rfl (fun h he => by rw [hcurl] at he; cases he)
    have hne : f.mCurl ≠ .null := by
      rw [hcurl]
      exact CurlPtr.noConfusion
    have hgarbage : ∀ calls : List CurlCall, (⟨rest, calls, m.fresh⟩ : HandleBook).Leads
        ⟨rest, calls ++ [.easyCleanup .indeterminate], m.fresh⟩ False := by
      intro calls
      refine (HandleBook.leads_call _ (fun h he => by cases he) (fun h he => by cases he)).congr (fun _ => ?_)
      refine iff_of_false (fun hallowed => ?_) id
      obtain ⟨h, he, _⟩ := hallowed .indeterminate rfl
      cases he
    unfold destroy cleanup
    rw [if_neg hne, hcurl]
    cases f.mParent with
    | true =>
      have hremove := HandleBook.leads_call (x := .multiRemove .indeterminate) ⟨rest, m.calls, m.fresh⟩ (fun h he => by cases he)
        (fun h he => by cases he)
      exact (hleave.trans (hremove.trans (hgarbage _))).congr (fun _ => by simp)
    | false => exact (hleave.trans (hgarbage m.calls)).congr (fun _ => by simp)

end HTTPFetcher

namespace DownloadPipeline

variable {p p' q : DownloadPipeline β} {c c' : Prop}

/-- The book of a pipeline: what its fetchers hold. -/
def handleBook (p : DownloadPipeline β) : HandleBook :=
  ⟨(p.fetchers.map (·.mCurl) : List CurlPtr), p.mCurlMHandle.calls, p.mCurlMHandle.fresh⟩

/-- What holds of every pipeline: a pending fetcher never had a handle, one that is done has none any more, and the book is
sound. -/
structure Held (p : DownloadPipeline β) : Prop where
  distinct : p.Distinct
  created : ∀ f ∈ p.fetchers, f.this < p.created
  waiting : ∀ f ∈ p.mPendingFetchers, f.mCurl = .indeterminate
  done : ∀ f ∈ p.fetchers, f.mState = .done → f.mCurl = .null
  sound : p.handleBook.Sound

/-- What leads from `p` to `p'` keeps what holds of every pipeline, and leaves the book in order exactly if it was and `c`
holds. -/
def Leads (p p' : DownloadPipeline β) (c : Prop) : Prop :=
  p.Held → p'.Held ∧ (p'.handleBook.InOrder ↔ p.handleBook.InOrder ∧ c)

theorem Leads.refl (p : DownloadPipeline β) : p.Leads p True := by
  intro h
  exact ⟨h, (and_iff_left trivial).symm⟩

theorem Leads.trans (h : p.Leads p' c) (h' : p'.Leads q c') : p.Leads q (c ∧ c') := by
  intro hp
  obtain ⟨hp', hiff⟩ := h hp
  obtain ⟨hq, hiff'⟩ := h' hp'
  exact ⟨hq, by rw [hiff', hiff, and_assoc]⟩

theorem Leads.congr (h : p.Leads p' c) (hc : p.Held → (c ↔ c')) : p.Leads p' c' := by
  intro hp
  obtain ⟨hp', hiff⟩ := h hp
  exact ⟨hp', by rw [hiff, hc hp]⟩

/-- Two that leave the book in order are one. -/
theorem Leads.andThen (h : p.Leads p' True) (h' : p'.Leads q c) : p.Leads q c :=
  (h.trans h').congr (fun _ => by rw [true_and])

/-! ## One fetcher -/

/-- The book of a pipeline is that of one of its fetchers, next to the others. -/
theorem handleBook_split {pre post : List (HTTPFetcher β)} {f : HTTPFetcher β} (hf : p.fetchers = pre ++ f :: post) :
    p.handleBook = f.book ((pre ++ post).map (·.mCurl) : List CurlPtr) p.mCurlMHandle := by
  have hperm : ((pre ++ f :: post).map (·.mCurl)).Perm ((f :: (pre ++ post)).map (·.mCurl)) :=
    List.perm_middle.map _
  unfold handleBook HTTPFetcher.book
  rw [hf, Multiset.cons_coe, Multiset.coe_eq_coe.2 hperm, List.map_cons]

/-- What changes one fetcher does to the pipeline what it does to the fetcher. -/
theorem leads_of_replace {pre post : List (HTTPFetcher β)} {f g : HTTPFetcher β} (hf : p.fetchers = pre ++ f :: post)
    (hf' : p'.fetchers = pre ++ g :: post) (hthis : g.this = f.this) (hpending : p'.mPendingFetchers ⊆ p.mPendingFetchers)
    (hcreated : p'.created = p.created) (hdone : (f.mState = .done → f.mCurl = .null) → g.mState = .done → g.mCurl = .null)
    (hbook : ∀ rest, (f.book rest p.mCurlMHandle).Leads (g.book rest p'.mCurlMHandle) c) : p.Leads p' c := by
  intro h
  have hmem : f ∈ p.fetchers := by
    rw [hf]
    exact List.mem_append_right _ (List.mem_cons_self ..)
  have hsound := h.sound
  rw [handleBook_split hf] at hsound
  obtain ⟨hsound', hiff⟩ := hbook _ hsound
  refine ⟨⟨?_, ?_, fun k hk => h.waiting k (hpending hk), ?_, ?_⟩, ?_⟩
  · have hd := h.distinct
    unfold Distinct at hd ⊢
    rw [hf, List.map_append, List.map_cons] at hd
    rw [hf', List.map_append, List.map_cons, hthis]
    exact hd
  · intro k hk
    rw [hcreated]
    rcases mem_changed hf hf' hk with rfl | hk
    · rw [hthis]
      exact h.created f hmem
    · exact h.created k hk
  · intro k hk
    rcases mem_changed hf hf' hk with rfl | hk
    · exact hdone (h.done f hmem)
    · exact h.done k hk
  · rw [handleBook_split hf']
    exact hsound'
  · rw [handleBook_split hf', handleBook_split hf]
    exact hiff

/-- A start of a fetcher that is done throws. -/
theorem start_done (f : HTTPFetcher β) (env : StartEnv β) (m : Multi β) (hdone : f.mState = .done → f.mCurl = .null)
    (h : (f.start env m).fetcher.mState = .done) : (f.start env m).fetcher.mCurl = .null := by
  obtain ⟨size, buff, hprimed⟩ := f.primed_same env
  rcases f.start_cases env m with ⟨e, he⟩ | ⟨_, hstate, headers, lines, ⟨e, he⟩ | ⟨_, he⟩⟩
  · rw [he, hprimed] at h ⊢
    exact hdone h
  · rw [he, hprimed] at h
    rw [show f.mState = .done from h] at hstate
    rcases hstate with hs | hs <;> cases hs
  · rw [he] at h
    cases h

/-! ## `launch` -/

/-- A fetcher that is launched gives no handle up: it never had one. -/
theorem launchFrom_leads (env : Nat → StartEnv β) (pending : List (HTTPFetcher β)) (i : Nat) {p : DownloadPipeline β}
    (hp : p.mPendingFetchers = pending) : p.Leads (launchFrom env i pending p).pipeline True := by
  induction pending generalizing p i with
  | nil => exact Leads.refl p
  | cons f pending ih =>
    unfold launchFrom
    split
    · dsimp only
      have hf : p.fetchers = p.mActiveFetchers ++ f :: pending := by
        rw [fetchers, hp]
      have hstart : p.Leads { p with
          mActiveFetchers := p.mActiveFetchers ++ [(f.start (env i) p.mCurlMHandle).fetcher]
          mPendingFetchers := pending
          mCurlMHandle := (f.start (env i) p.mCurlMHandle).multi } True := by
        refine (leads_of_replace hf (by simp [fetchers]) (start_this f _ _) ?_ ?_ (start_done f _ _)
          (f.start_leads (env i) p.mCurlMHandle)).congr (fun h => ?_)
        · rw [hp]
          exact List.subset_cons_self _ _
        · rfl
        · have hnone := h.waiting f (by rw [hp]; exact List.mem_cons_self ..)
          simp [hnone]
      split
      · exact hstart.andThen (ih (i + 1) rfl)
      · exact hstart
    · exact Leads.refl p

/-! ## Waiting -/

/-- What changes neither the fetchers nor the calls. -/
theorem leads_of_same (hactive : p'.mActiveFetchers = p.mActiveFetchers) (hpending : p'.mPendingFetchers = p.mPendingFetchers)
    (hcreated : p'.created = p.created) (hcalls : p'.mCurlMHandle.calls = p.mCurlMHandle.calls)
    (hfresh : p'.mCurlMHandle.fresh = p.mCurlMHandle.fresh) : p.Leads p' True := by
  intro h
  have hf : p'.fetchers = p.fetchers := by
    rw [fetchers, fetchers, hactive, hpending]
  have hbook : p'.handleBook = p.handleBook := by
    unfold handleBook
    rw [hf, hcalls, hfresh]
  refine ⟨⟨?_, by rw [hf, hcreated]; exact h.created, by rw [hpending]; exact h.waiting, by rw [hf]; exact h.done,
    by rw [hbook]; exact h.sound⟩, ?_⟩
  · have hd := h.distinct
    unfold Distinct at hd ⊢
    rw [hf]
    exact hd
  · rw [hbook]
    exact (and_iff_left trivial).symm

/-- Moving bytes into or out of one fetcher. -/
theorem leads_of_moved {pre post : List (HTTPFetcher β)} {f g : HTTPFetcher β} {m : Multi β}
    (ha : p.mActiveFetchers = pre ++ f :: post) (hmoved : f.Moved g)
    (hbook : ∀ rest, (f.book rest p.mCurlMHandle).Leads (g.book rest m) c) :
    p.Leads { p with mActiveFetchers := pre ++ g :: post, mCurlMHandle := m } c := by
  obtain ⟨hthis, hstate, hcurl⟩ : g.this = f.this ∧ g.mState = f.mState ∧ g.mCurl = f.mCurl := by
    obtain ⟨_, _, _, _, _, rfl⟩ := hmoved
    exact ⟨rfl, rfl, rfl⟩
  refine leads_of_replace (fetchers_split ha) (by simp [fetchers]) hthis (List.Subset.refl _) rfl ?_ hbook
  rw [hstate, hcurl]
  exact id

/-- A delivery of curl is no call on a handle. -/
theorem deliver_leads (p : DownloadPipeline β) (e : NetEvent) : p.Leads (p.deliver e) True := by
  intro h
  unfold deliver
  split
  · exact Leads.refl p h
  · rename_i t ht
    split
    · have hsame : p.Leads { p with mCurlMHandle := { p.mCurlMHandle with dangling := true } } True :=
        leads_of_same rfl rfl rfl rfl rfl
      exact hsame h
    · rename_i f hf
      obtain ⟨_, pre, post, ha, _⟩ := List.find?_eq_some_iff_append.1 hf
      have hda := distinct_active h.distinct
      rw [ha] at hda
      obtain ⟨hcalls, hfresh, hmoved⟩ := f.offer_calls p.mCurlMHandle e.easy e.n
      have hsame : p.Leads { p with
          mActiveFetchers := pre ++ (f.offer p.mCurlMHandle e.easy e.n).1 :: post
          mCurlMHandle := (f.offer p.mCurlMHandle e.easy e.n).2 } True := by
        refine leads_of_moved ha hmoved (fun rest => ?_)
        unfold HTTPFetcher.book
        rw [hcalls, hfresh, hmoved.mCurl]
        exact HandleBook.Leads.refl _
      dsimp only
      rw [ha, map_replace hda]
      exact hsame h

theorem deliverAll_leads (events : List NetEvent) (p : DownloadPipeline β) : p.Leads (events.foldl deliver p) True := by
  induction events generalizing p with
  | nil => exact Leads.refl p
  | cons e events ih => exact (p.deliver_leads e).andThen (ih (p.deliver e))

/-- The end of a transfer cleans up the handle of its fetcher. -/
theorem handleEnd_leads (p : DownloadPipeline β) (e : EndEvent) : p.Leads (p.handleEnd e).pipeline True := by
  intro h
  unfold handleEnd
  split
  · exact Leads.refl p h
  · rename_i res respcode _
    dsimp only
    split
    · have hsame : p.Leads { p with mCurlMHandle := p.mCurlMHandle.update e.easy (fun t => { t with ended := true }) } True :=
        leads_of_same rfl rfl rfl rfl rfl
      exact hsame h
    · rename_i f hf
      obtain ⟨hcurl, pre, post, ha, _⟩ := List.find?_eq_some_iff_append.1 hf
      have hcurl : f.mCurl = .easy e.easy := of_decide_eq_true hcurl
      have hda := distinct_active h.distinct
      rw [ha] at hda
      have hdone : ∀ m : Multi β, (f.mState = .done → f.mCurl = .null) → (f.handleResult res respcode m).fetcher.mState = .done →
          (f.handleResult res respcode m).fetcher.mCurl = .null := by
        intro m hold hstate
        rcases f.handleResult_state res respcode m with ⟨heq, _⟩ | ⟨_, hnull, _⟩ | ⟨_, hnull, _⟩
        · rw [heq] at hstate ⊢
          exact hold hstate
        · exact hnull
        · exact hnull
      have hend : p.Leads { p with
          mActiveFetchers := pre ++
            (f.handleResult res respcode (p.mCurlMHandle.update e.easy (fun t => { t with ended := true }))).fetcher :: post
          mCurlMHandle := (f.handleResult res respcode (p.mCurlMHandle.update e.easy (fun t => { t with ended := true }))).multi }
          True :=
        leads_of_replace (fetchers_split ha) (by simp [fetchers]) (handleResult_this hcurl _ _ _) (List.Subset.refl _) rfl
          (hdone _) (f.handleResult_leads hcurl res respcode (p.mCurlMHandle.update e.easy (fun t => { t with ended := true })))
      rw [ha, map_replace hda]
      exact hend h

theorem handleEnds_leads (ends : List EndEvent) (p : DownloadPipeline β) : p.Leads (p.handleEnds ends).pipeline True := by
  induction ends generalizing p with
  | nil => exact Leads.refl p
  | cons e ends ih =>
    unfold handleEnds
    split
    · exact (p.handleEnd_leads e).andThen (ih (p.handleEnd e).pipeline)
    · exact p.handleEnd_leads e

theorem wait_leads (p : DownloadPipeline β) (r : Round β) : p.Leads (p.wait r).pipeline True := by
  unfold wait
  split
  · exact Leads.refl p
  · split
    · exact Leads.refl p
    · exact (deliverAll_leads r.events p).andThen (handleEnds_leads r.ends _)

/-- A restart leaves the book in order if the front fetcher holds no handle when it gets another one. -/
theorem restart_leads (p : DownloadPipeline β) (env : StartEnv β) :
    p.Leads (p.restart env).pipeline
      (∀ f ∈ p.mActiveFetchers.head?, f.mState = .failed → f.GetsHandle env → ∀ h, f.mCurl ≠ .easy h) := by
  unfold restart
  split
  · rename_i ha
    exact (Leads.refl p).congr (fun _ => by simp [ha])
  · rename_i f rest ha
    split
    · rename_i hfailed
      have hf : p.fetchers = [] ++ f :: (rest ++ p.mPendingFetchers) := fetchers_split ha
      have hstart : p.Leads { p with
          mActiveFetchers := (f.start env p.mCurlMHandle).fetcher :: rest
          mCurlMHandle := (f.start env p.mCurlMHandle).multi } (f.GetsHandle env → ∀ h, f.mCurl ≠ .easy h) :=
        leads_of_replace hf (by simp [fetchers]) (start_this f _ _) (List.Subset.refl _) rfl (start_done f _ _)
          (f.start_leads env p.mCurlMHandle)
      exact hstart.congr (fun _ => by simp [ha, hfailed])
    · rename_i hfailed
      exact (Leads.refl p).congr (fun _ => by simp [ha, hfailed])

theorem waitMore_leads (p : DownloadPipeline β) (r : Round β) :
    p.Leads (p.waitMore r).2
      (∀ f ∈ p.mActiveFetchers.head?, f.mState = .failed → f.GetsHandle r.restart → ∀ h, f.mCurl ≠ .easy h) := by
  have hrestart := p.restart_leads r.restart
  have hboth := (hrestart.trans ((p.restart r.restart).pipeline.wait_leads r)).congr (fun _ => and_iff_left trivial)
  unfold waitMore
  split
  · exact hrestart
  · split <;> exact hboth

/-! ## A turn -/

/-- `get` on the front fetcher leaves the book in order when there is no pause to take off, or a handle to take it off. -/
theorem getFront_leads {n : Nat} {resume : List (List Nat)} {got : Got β} (h : p.getFront n resume = some (got, q)) :
    p.Leads q (∀ f ∈ p.mActiveFetchers.head?, f.mNused - f.mReadOff = 0 → f.mPaused = true → ∃ e, f.mCurl = .easy e) := by
  unfold getFront at h
  cases ha : p.mActiveFetchers with
  | nil =>
    rw [ha] at h
    cases h
  | cons f rest =>
    rw [ha] at h
    obtain ⟨rfl, rfl⟩ := Prod.mk.inj (Option.some.inj h)
    obtain ⟨_, _, _, hmoved, _⟩ := f.get_calls n resume p.mCurlMHandle
    have hsplit : p.mActiveFetchers = [] ++ f :: rest := ha
    have hget := leads_of_moved hsplit hmoved (f.get_leads n resume p.mCurlMHandle)
    exact hget.congr (fun _ => by simp)

/-- The fetcher whose end `get` reports is done. -/
theorem getFront_eof {n : Nat} {resume : List (List Nat)} (h : p.getFront n resume = some (.eof, q)) :
    ∀ f ∈ q.mActiveFetchers.head?, f.mState = .done := by
  unfold getFront at h
  split at h
  · cases h
  · rename_i f rest _
    obtain ⟨heof, rfl⟩ := Prod.mk.inj (Option.some.inj h)
    intro g hg
    obtain rfl := Option.some.inj hg
    exact (HTTPFetcher.get_eof heof).1

/-- The front fetcher leaves without a handle when it is done. -/
theorem popFront_leads (hfront : ∀ f ∈ p.mActiveFetchers.head?, f.mState = .done) : p.Leads p.popFront True := by
  intro h
  unfold popFront
  split
  · exact Leads.refl p h
  · rename_i f rest ha
    have hf : p.fetchers = f :: (rest ++ p.mPendingFetchers) := fetchers_front ha
    have hmem : f ∈ p.fetchers := by
      rw [hf]
      exact List.mem_cons_self ..
    have hnull : f.mCurl = .null := h.done f hmem (hfront f (by rw [ha]; rfl))
    have hstay := HTTPFetcher.destroy_of_null hnull p.mCurlMHandle
    have hbook : p.handleBook.holders = f.mCurl ::ₘ ((rest ++ p.mPendingFetchers).map (·.mCurl) : List CurlPtr) :=
      congrArg HandleBook.holders (handleBook_split (show p.fetchers = [] ++ f :: _ from hf))
    have hleave := HandleBook.leads_leave hbook (fun e he => by rw [hnull] at he; cases he)
    obtain ⟨hsound, hiff⟩ := hleave h.sound
    rw [hstay]
    have hmem : ∀ k ∈ rest ++ p.mPendingFetchers, k ∈ p.fetchers := by
      intro k hk
      rw [hf]
      exact List.mem_cons_of_mem _ hk
    refine ⟨⟨?_, fun k hk => h.created k (hmem k hk), h.waiting, fun k hk => h.done k (hmem k hk), hsound⟩, hiff⟩
    have hd := h.distinct
    unfold Distinct at hd ⊢
    rw [hf] at hd
    exact (List.nodup_cons.1 hd).2

end DownloadPipeline

namespace ReadTurn

/-- Where `get` finds the buffer of the front fetcher empty and takes its pause off, the fetcher has a handle. -/
def PausesHandle (t : ReadTurn β) : Prop :=
  (t.before.launch t.round.launch).result = .ok () → ∀ f ∈ t.launched.mActiveFetchers.head?,
    f.mNused - f.mReadOff = 0 → f.mPaused = true → ∃ h, f.mCurl = .easy h

/-- Where a restart of the front fetcher gets a handle, the fetcher has none. -/
def DropsNone (t : ReadTurn β) : Prop :=
  ∀ p ∈ t.beforeRestart, ∀ f ∈ p.mActiveFetchers.head?, f.mState = .failed → f.GetsHandle t.round.restart → ∀ h, f.mCurl ≠ .easy h

/-- A turn leaves the book in order when it takes no pause off a fetcher without a handle, and drops no handle. -/
theorem leads (t : ReadTurn β) : t.before.Leads t.after (t.PausesHandle ∧ t.DropsNone) := by
  have hlaunch : t.before.Leads t.launched True :=
    DownloadPipeline.launchFrom_leads t.round.launch t.before.mPendingFetchers 0 rfl
  unfold PausesHandle DropsNone
  cases t.course with
  | thrown e hl hnone _ hafter =>
    rw [hafter, hnone]
    exact hlaunch.congr (fun _ => by simp [hl])
  | empty hl hfront hnone _ hafter =>
    have hnil : t.launched.mActiveFetchers = [] := by
      unfold DownloadPipeline.getFront at hfront
      split at hfront
      · assumption
      · cases hfront
    rw [hafter, hnone]
    exact hlaunch.congr (fun _ => by simp [hnil])
  | leaves q hl hfront hnone _ hafter =>
    have hget := hlaunch.andThen (DownloadPipeline.getFront_leads hfront)
    have hpop := DownloadPipeline.popFront_leads (DownloadPipeline.getFront_eof hfront)
    rw [hafter, hnone]
    exact (hget.trans hpop).congr (fun _ => by simp [hl])
  | bytes bs q hl hfront hpos hnone _ hafter =>
    have hget := hlaunch.andThen (DownloadPipeline.getFront_leads hfront)
    have hover : q.Leads (q.handOver bs) True := by
      unfold DownloadPipeline.handOver
      split
      · exact DownloadPipeline.Leads.refl q
      · exact DownloadPipeline.leads_of_same rfl rfl rfl rfl rfl
    rw [hafter, hnone]
    exact (hget.trans hover).congr (fun _ => by simp [hl])
  | waits got q hl hfront _ _ hsome _ hafter =>
    have hget := hlaunch.andThen (DownloadPipeline.getFront_leads hfront)
    rw [hafter, hsome]
    exact (hget.trans (q.waitMore_leads t.round)).congr (fun _ => by simp [hl])

end ReadTurn

namespace DownloadPipeline

variable {p : DownloadPipeline β}

/-! ## Runs -/

theorem turns_lead (n : Nat) (rounds : List (Round β)) (p : DownloadPipeline β) :
    p.Leads (p.read n rounds).2 (∀ t ∈ p.turns n rounds, t.PausesHandle ∧ t.DropsNone) := by
  induction rounds generalizing p with
  | nil => exact (Leads.refl p).congr (fun _ => by simp [turns])
  | cons r rounds ih =>
    have hturn := ReadTurn.leads ⟨p, n, r⟩
    unfold ReadTurn.after at hturn
    dsimp only at hturn
    unfold turns read
    cases hres : p.readTurn n r with
    | mk result q =>
      rw [hres] at hturn
      cases result with
      | again => exact (hturn.trans (ih q)).congr (fun _ => by rw [List.forall_mem_cons])
      | bytes _ | eof | thrown _ => exact hturn.congr (fun _ => by rw [List.forall_mem_singleton])

/-- A fetcher that is added has no handle. -/
theorem add_leads (p : DownloadPipeline β) (url host bucket : Str) (cred : QSCredential) (buffsize offset len : Int) :
    p.Leads ((PipelineOp.add url host bucket cred buffsize offset len).run p) True := by
  intro h
  have hf : ((PipelineOp.add url host bucket cred buffsize offset len).run p).fetchers =
      p.fetchers ++ [.make p.created url host bucket cred buffsize offset len] := fetchers_add p _
  have hmem : ∀ k ∈ ((PipelineOp.add url host bucket cred buffsize offset len).run p).fetchers,
      k ∈ p.fetchers ∨ k = .make p.created url host bucket cred buffsize offset len := by
    intro k hk
    rw [hf] at hk
    simpa using hk
  have hbook : ((PipelineOp.add url host bucket cred buffsize offset len).run p).handleBook =
      { p.handleBook with holders := .indeterminate ::ₘ p.handleBook.holders } := by
    unfold handleBook
    rw [hf, List.map_append, Multiset.cons_coe]
    congr 1
    exact Multiset.coe_eq_coe.2 (List.perm_append_singleton _ _)
  obtain ⟨hsound, hiff⟩ := HandleBook.leads_join (b := p.handleBook) (p := .indeterminate) (fun h he => by cases he) h.sound
  rw [← hbook] at hsound hiff
  refine ⟨⟨?_, ?_, ?_, ?_, hsound⟩, hiff⟩
  · unfold Distinct
    rw [hf, List.map_append, List.nodup_append]
    refine ⟨h.distinct, List.nodup_singleton _, ?_⟩
    intro u hu v hv
    obtain ⟨f, hfm, rfl⟩ := List.mem_map.1 hu
    rw [List.map_singleton, List.mem_singleton] at hv
    rw [hv]
    exact Nat.ne_of_lt (h.created f hfm)
  · intro k hk
    rcases hmem k hk with hk | rfl
    · exact Nat.lt_succ_of_lt (h.created k hk)
    · exact Nat.lt_succ_self _
  · intro k hk
    rcases List.mem_append.1 hk with hk | hk
    · exact h.waiting k hk
    · rw [List.mem_singleton.1 hk]
      rfl
  · intro k hk hstate
    rcases hmem k hk with hk | rfl
    · exact h.done k hk hstate
    · cases hstate

/-- A run of operations leaves the book in order when each of its turns does. -/
theorem runTurns_lead (ops : List (PipelineOp β)) (p : DownloadPipeline β) :
    p.Leads (ops.foldl PipelineOp.run p) (∀ t ∈ p.runTurns ops, t.PausesHandle ∧ t.DropsNone) := by
  induction ops generalizing p with
  | nil => exact (Leads.refl p).congr (fun _ => by simp [runTurns])
  | cons op ops ih =>
    have hop : p.Leads (op.run p) (∀ t ∈ op.turns p, t.PausesHandle ∧ t.DropsNone) := by
      cases op with
      | add url host bucket cred buffsize offset len =>
        exact (p.add_leads url host bucket cred buffsize offset len).congr (fun _ => by simp [PipelineOp.turns])
      | read n rounds => exact turns_lead n rounds p
    unfold runTurns
    exact (hop.trans (ih (op.run p))).congr (fun _ => by rw [List.forall_mem_append])

/-- The fetchers that are destroyed one after another clean up what they hold. -/
theorem destroyAll_leads (fs : List (HTTPFetcher β)) (m : Multi β) :
    (⟨(fs.map (·.mCurl) : List CurlPtr), m.calls, m.fresh⟩ : HandleBook).Leads
      ⟨0, (fs.foldl (fun m f => f.destroy m) m).calls, (fs.foldl (fun m f => f.destroy m) m).fresh⟩
      (∀ f ∈ fs, f.mCurl ≠ .indeterminate) := by
  induction fs generalizing m with
  | nil => exact (HandleBook.Leads.refl _).congr (fun _ => by simp)
  | cons f fs ih =>
    have hfirst := f.destroy_leads m (fs.map (·.mCurl) : List CurlPtr)
    unfold HTTPFetcher.book at hfirst
    rw [Multiset.cons_coe] at hfirst
    exact (hfirst.trans (ih (f.destroy m))).congr (fun _ => by rw [List.forall_mem_cons])

end DownloadPipeline

end QingStor
