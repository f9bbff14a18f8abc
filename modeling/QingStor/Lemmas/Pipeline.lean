import QingStor.Lib.Steps
import QingStor.DownloadPipeline
import QingStor.Lemmas.Fetcher

/-!
# The steps of a pipeline

Everything `read` does to a pipeline, but the handing out of bytes, is a row of the steps below: starts, offers of curl, ends of
transfers, and the removal of a front fetcher that is done. An invariant of the pipeline is shown for each step once, and holds
for `read` by the rules of `Lib.Run`.
-/

namespace QingStor

variable {β : Type*}

/-- The fetchers that are not destroyed, in the order they were added. -/
def DownloadPipeline.fetchers (p : DownloadPipeline β) : List (HTTPFetcher β) := p.mActiveFetchers ++ p.mPendingFetchers

/-- No two fetchers have one address. -/
def DownloadPipeline.Distinct (p : DownloadPipeline β) : Prop := (p.fetchers.map (·.this)).Nodup

/-- One step of a pipeline, where `E` holds of what the outside does at a start. -/
inductive DownloadPipeline.Step (E : StartEnv β → Prop) : DownloadPipeline β → Except Fault Unit → DownloadPipeline β → Prop
  | launch {p : DownloadPipeline β} {f : HTTPFetcher β} {pending : List (HTTPFetcher β)} {env : StartEnv β} :
      p.mPendingFetchers = f :: pending → E env →
      Step E p (f.start env p.mCurlMHandle).result { p with
        mActiveFetchers := p.mActiveFetchers ++ [(f.start env p.mCurlMHandle).fetcher]
        mPendingFetchers := pending
        mCurlMHandle := (f.start env p.mCurlMHandle).multi }
  | restart {p : DownloadPipeline β} {f : HTTPFetcher β} {rest : List (HTTPFetcher β)} {env : StartEnv β} :
      p.mActiveFetchers = f :: rest → f.mState = .failed → E env →
      Step E p (f.start env p.mCurlMHandle).result { p with
        mActiveFetchers := (f.start env p.mCurlMHandle).fetcher :: rest
        mCurlMHandle := (f.start env p.mCurlMHandle).multi }
  | offer {p : DownloadPipeline β} {pre post : List (HTTPFetcher β)} {f : HTTPFetcher β} {e n : Nat} :
      p.mActiveFetchers = pre ++ f :: post →
      (f.mCurl = .easy e ∨ ∃ t, p.mCurlMHandle.find? e = some t ∧ t.userp = f.this) →
      Step E p (.ok ()) { p with
        mActiveFetchers := pre ++ (f.offer p.mCurlMHandle e n).1 :: post
        mCurlMHandle := (f.offer p.mCurlMHandle e n).2 }
  | resume {p : DownloadPipeline β} {f : HTTPFetcher β} {rest : List (HTTPFetcher β)} :
      p.mActiveFetchers = f :: rest →
      Step E p (.ok ()) { p with
        mActiveFetchers := { f with mPaused := false } :: rest
        mCurlMHandle := p.mCurlMHandle.easyPause f.mCurl }
  | idle {p : DownloadPipeline β} {f : HTTPFetcher β} {rest : List (HTTPFetcher β)} {n : Nat} :
      p.mActiveFetchers = f :: rest → (f.handOut n).1 = .bytes [] →
      Step E p (.ok ()) { p with mActiveFetchers := (f.handOut n).2 :: rest }
  | pop {p : DownloadPipeline β} {f : HTTPFetcher β} {rest : List (HTTPFetcher β)} :
      p.mActiveFetchers = f :: rest → f.mNused - f.mReadOff = 0 → f.mState = .done →
      Step E p (.ok ()) { p with mActiveFetchers := rest, mCurlMHandle := f.destroy p.mCurlMHandle }
  | finish {p : DownloadPipeline β} {pre post : List (HTTPFetcher β)} {f : HTTPFetcher β} {e : EndEvent} {res : CURLcode}
      {respcode : Nat} :
      p.mCurlMHandle.infoRead e = some (res, respcode) → p.mActiveFetchers = pre ++ f :: post → f.mCurl = .easy e.easy →
      Step E p (f.handleResult res respcode (p.mCurlMHandle.update e.easy (fun t => { t with ended := true }))).result { p with
        mActiveFetchers := pre ++
          (f.handleResult res respcode (p.mCurlMHandle.update e.easy (fun t => { t with ended := true }))).fetcher :: post
        mCurlMHandle := (f.handleResult res respcode (p.mCurlMHandle.update e.easy (fun t => { t with ended := true }))).multi }
  | stray {p : DownloadPipeline β} {e : EndEvent} {res : CURLcode} {respcode : Nat} {err : Fault} :
      p.mCurlMHandle.infoRead e = some (res, respcode) → (∀ f ∈ p.mActiveFetchers, f.mCurl ≠ .easy e.easy) →
      Step E p (.error err) { p with mCurlMHandle := p.mCurlMHandle.update e.easy (fun t => { t with ended := true }) }
  | dangle {p : DownloadPipeline β} {e : Nat} {t : Transfer β} :
      p.mCurlMHandle.find? e = some t → (∀ f ∈ p.mActiveFetchers, f.this ≠ t.userp) →
      Step E p (.ok ()) { p with mCurlMHandle := { p.mCurlMHandle with dangling := true } }

/-- The front fetcher hands bytes to the caller, who has room for `n`. -/
def DownloadPipeline.HandsOut (p : DownloadPipeline β) (n : Nat) (bs : List β) (p' : DownloadPipeline β) : Prop :=
  ∃ f rest, p.mActiveFetchers = f :: rest ∧ bs ≠ [] ∧ (f.handOut n).1 = .bytes bs ∧
    p' = { p with mActiveFetchers := (f.handOut n).2 :: rest, handed := p.handed ++ [(f.this, bs)] }

namespace DownloadPipeline

variable {E : StartEnv β → Prop} {p p' : DownloadPipeline β} {r : Except Fault Unit}

/-! ## The list of all fetchers -/

/-- The place of an active fetcher among all. -/
theorem fetchers_split {pre post : List (HTTPFetcher β)} {f : HTTPFetcher β} (ha : p.mActiveFetchers = pre ++ f :: post) :
    p.fetchers = pre ++ f :: (post ++ p.mPendingFetchers) := by
  rw [fetchers, ha, List.append_assoc]
  rfl

theorem fetchers_front {f : HTTPFetcher β} {rest : List (HTTPFetcher β)} (ha : p.mActiveFetchers = f :: rest) :
    p.fetchers = f :: (rest ++ p.mPendingFetchers) := by
  rw [fetchers, ha, List.cons_append]

theorem fetchers_add (p : DownloadPipeline β) (f : HTTPFetcher β) : (p.add f).fetchers = p.fetchers ++ [f] := by
  rw [fetchers, fetchers, List.append_assoc]
  rfl

theorem active_subset_fetchers {f : HTTPFetcher β} (h : f ∈ p.mActiveFetchers) : f ∈ p.fetchers := List.mem_append_left _ h

/-! ## What no step changes -/

theorem start_this (f : HTTPFetcher β) (env : StartEnv β) (m : Multi β) : (f.start env m).fetcher.this = f.this := by
  have hprimed : (f.primed env).this = f.this := by
    obtain ⟨size, buff, h⟩ := f.primed_same env
    rw [h]
  rcases f.start_cases env m with ⟨e, he⟩ | ⟨_, _, headers, lines, ⟨e, he⟩ | ⟨_, he⟩⟩
  · rw [he]
    exact hprimed
  · rw [he]
    exact hprimed
  · rw [he]
    exact hprimed

theorem handleResult_this {f : HTTPFetcher β} {h : Nat} (hcurl : f.mCurl = .easy h) (res : CURLcode) (respcode : Nat)
    (m : Multi β) : (f.handleResult res respcode m).fetcher.this = f.this := by
  rcases HTTPFetcher.handleResult_cases hcurl res respcode m with ⟨e, calls, _, _, he⟩ | ⟨state, failures, m', he, _⟩
  · rw [he]
  · rw [he]
    rfl

/-- A step keeps the fetchers in their order; only the front one may go. -/
theorem Step.fetchers_suffix (h : Step E p r p') : p'.fetchers.map (·.this) <:+ p.fetchers.map (·.this) := by
  cases h with
  | launch hp _ =>
    simp only [fetchers, hp, List.map_append, List.map_cons, start_this, List.append_assoc, List.singleton_append]
    exact List.suffix_refl _
  | restart ha _ _ =>
    simp only [fetchers, ha, List.map_append, List.map_cons, start_this]
    exact List.suffix_refl _
  | @offer pre post f e n ha _ =>
    obtain ⟨_, _, _, _, hg⟩ := f.offer_rebuffered p.mCurlMHandle e n
    simp only [fetchers, ha, hg, List.map_append, List.map_cons]
    exact List.suffix_refl _
  | resume ha =>
    simp only [fetchers, ha, List.map_append, List.map_cons]
    exact List.suffix_refl _
  | idle ha _ =>
    simp only [fetchers, ha, List.map_append, List.map_cons]
    exact List.suffix_refl _
  | pop ha _ _ =>
    simp only [fetchers, ha, List.map_append, List.map_cons, List.cons_append]
    exact List.suffix_cons _ _
  | finish _ ha hcurl =>
    simp only [fetchers, ha, List.map_append, List.map_cons, handleResult_this hcurl]
    exact List.suffix_refl _
  | stray _ _ => exact List.suffix_refl _
  | dangle _ _ => exact List.suffix_refl _

theorem Step.distinct (h : Step E p r p') (hd : p.Distinct) : p'.Distinct := hd.sublist h.fetchers_suffix.sublist

/-- A step hands nothing out and leaves the pipeline its number of connections and its count of fetchers. -/
theorem Step.handed (h : Step E p r p') :
    p'.handed = p.handed ∧ p'.mNConnections = p.mNConnections ∧ p'.created = p.created := by
  cases h <;> exact ⟨rfl, rfl, rfl⟩

theorem run_distinct (h : Lib.Run (Step E) p r p') (hd : p.Distinct) : p'.Distinct :=
  h.keeps (fun _ _ _ hd hs => hs.distinct hd) hd

theorem run_handed (h : Lib.Run (Step E) p r p') :
    p'.handed = p.handed ∧ p'.mNConnections = p.mNConnections ∧ p'.created = p.created := by
  refine h.keeps (I := fun q => q.handed = p.handed ∧ q.mNConnections = p.mNConnections ∧ q.created = p.created) ?_ ⟨rfl, rfl, rfl⟩
  intro q _ q' hq hs
  have hs' := hs.handed
  exact ⟨hs'.1.trans hq.1, hs'.2.1.trans hq.2.1, hs'.2.2.trans hq.2.2⟩

/-! ## What `read` is made of -/

/-- `launch` is a row of starts; it ends well with the connections in use or nothing pending. -/
theorem launchFrom_run {env : Nat → StartEnv β} (hE : ∀ i, E (env i)) (pending : List (HTTPFetcher β)) (i : Nat)
    {p : DownloadPipeline β} (hp : p.mPendingFetchers = pending) :
    Lib.Run (Step E) p (launchFrom env i pending p).result (launchFrom env i pending p).pipeline ∧
      ((launchFrom env i pending p).result = .ok () →
        (launchFrom env i pending p).pipeline.mPendingFetchers = [] ∨
        p.mNConnections ≤ ((launchFrom env i pending p).pipeline.mActiveFetchers.length : Int)) := by
  induction pending generalizing p i with
  | nil => exact ⟨.nil p, fun _ => Or.inl hp⟩
  | cons f pending ih =>
    unfold launchFrom
    split
    · have hstep := Step.launch hp (hE i)
      dsimp only
      cases hr : (f.start (env i) p.mCurlMHandle).result with
      | ok u =>
        rw [hr] at hstep
        obtain ⟨hrun, hend⟩ := ih (i + 1) (p := { p with
          mActiveFetchers := p.mActiveFetchers ++ [(f.start (env i) p.mCurlMHandle).fetcher]
          mPendingFetchers := pending
          mCurlMHandle := (f.start (env i) p.mCurlMHandle).multi }) rfl
        exact ⟨.step hstep hrun, hend⟩
      | error e =>
        rw [hr] at hstep
        exact ⟨.error hstep, fun h => by cases h⟩
    · rename_i hfull
      exact ⟨.nil p, fun _ => Or.inr (not_lt.1 hfull)⟩

/-- In a list of fetchers at different addresses, replacing the one at an address replaces just that one. -/
theorem map_replace {pre post : List (HTTPFetcher β)} {f g : HTTPFetcher β}
    (hd : ((pre ++ f :: post).map (·.this)).Nodup) :
    (pre ++ f :: post).map (fun k => if k.this = f.this then g else k) = pre ++ g :: post := by
  rw [List.map_append, List.map_cons, List.nodup_append] at hd
  obtain ⟨_, hpost, hdis⟩ := hd
  rw [List.nodup_cons] at hpost
  have hpre : pre.map (fun k => if k.this = f.this then g else k) = pre := by
    refine List.map_congr_left (fun k hk => ?_) |>.trans (List.map_id pre)
    exact if_neg (fun he => hdis _ (List.mem_map_of_mem hk) _ (List.mem_cons_self ..) he)
  have hrest : post.map (fun k => if k.this = f.this then g else k) = post := by
    refine List.map_congr_left (fun k hk => ?_) |>.trans (List.map_id post)
    refine if_neg (fun he => hpost.1 ?_)
    rw [← he]
    exact List.mem_map_of_mem hk
  rw [List.map_append, List.map_cons, if_pos rfl, hpre, hrest]

theorem distinct_active (hd : p.Distinct) : (p.mActiveFetchers.map (·.this)).Nodup := by
  unfold Distinct fetchers at hd
  rw [List.map_append] at hd
  exact hd.of_append_left

/-- A delivery of `curl_multi_perform` is an offer, or it has no fetcher to go to. -/
theorem deliver_run (hd : p.Distinct) (e : NetEvent) : Lib.Run (Step E) p (.ok ()) (p.deliver e) := by
  unfold deliver
  cases ht : p.mCurlMHandle.find? e.easy with
  | none => exact .nil p
  | some t =>
    dsimp only
    cases hf : p.mActiveFetchers.find? (fun f => f.this = t.userp) with
    | none =>
      rw [List.find?_eq_none] at hf
      exact .one (.dangle ht (fun f hmem => by simpa using hf f hmem))
    | some f =>
      obtain ⟨hthis, pre, post, ha, _⟩ := List.find?_eq_some_iff_append.1 hf
      have hda := distinct_active hd
      rw [ha] at hda
      dsimp only
      rw [ha, map_replace hda]
      exact .one (.offer ha (Or.inr ⟨t, ht, (of_decide_eq_true hthis).symm⟩))

theorem deliverAll_run (hd : p.Distinct) (events : List NetEvent) :
    Lib.Run (Step E) p (.ok ()) (events.foldl deliver p) := by
  induction events generalizing p with
  | nil => exact .nil p
  | cons e events ih =>
    have hrun : Lib.Run (Step E) p (.ok ()) (p.deliver e) := deliver_run hd e
    exact hrun.trans (ih (run_distinct hrun hd))

/-- A message of `curl_multi_info_read` is the end of an active fetcher's transfer, or of nobody's. -/
theorem handleEnd_run (hd : p.Distinct) (e : EndEvent) :
    Lib.Run (Step E) p (p.handleEnd e).result (p.handleEnd e).pipeline := by
  unfold handleEnd
  cases hinfo : p.mCurlMHandle.infoRead e with
  | none => exact .nil p
  | some info =>
    obtain ⟨res, respcode⟩ := info
    dsimp only
    cases hf : p.mActiveFetchers.find? (fun f => f.mCurl = .easy e.easy) with
    | none =>
      rw [List.find?_eq_none] at hf
      exact .one (.stray hinfo (fun f hmem => by simpa using hf f hmem))
    | some f =>
      obtain ⟨hcurl, pre, post, ha, _⟩ := List.find?_eq_some_iff_append.1 hf
      have hda := distinct_active hd
      rw [ha] at hda
      dsimp only
      rw [ha, map_replace hda]
      exact .one (.finish hinfo ha (of_decide_eq_true hcurl))

theorem handleEnds_run (hd : p.Distinct) (ends : List EndEvent) :
    Lib.Run (Step E) p (p.handleEnds ends).result (p.handleEnds ends).pipeline := by
  induction ends generalizing p with
  | nil => exact .nil p
  | cons e ends ih =>
    have hrun : Lib.Run (Step E) p _ _ := handleEnd_run hd e
    unfold handleEnds
    cases hr : (p.handleEnd e).result with
    | ok u =>
      rw [hr] at hrun
      exact hrun.trans (ih (run_distinct hrun hd))
    | error f =>
      rw [hr] at hrun
      exact hrun

theorem restart_run {env : StartEnv β} (hE : E env) : Lib.Run (Step E) p (p.restart env).result (p.restart env).pipeline := by
  unfold restart
  split
  · exact .nil p
  · rename_i f rest ha
    split
    · rename_i hfailed
      exact .one (.restart ha hfailed hE)
    · exact .nil p

/-- Waiting fails at once, or is a row of deliveries and ends. -/
theorem wait_run (hd : p.Distinct) (r : Round β) :
    ¬ (r.wait = true ∧ r.perform = true) ∧ (∃ e, p.wait r = ⟨.error e, p⟩) ∨
      Lib.Run (Step E) p (p.wait r).result (p.wait r).pipeline := by
  unfold wait
  split
  · rename_i hw
    exact Or.inl ⟨fun h => hw h.1, _, rfl⟩
  · split
    · rename_i hp
      exact Or.inl ⟨fun h => hp h.2, _, rfl⟩
    · right
      have hrun : Lib.Run (Step E) p (.ok ()) (r.events.foldl deliver p) := deliverAll_run hd r.events
      exact hrun.trans (handleEnds_run (run_distinct hrun hd) r.ends)

/-- The deliveries of one `curl_easy_pause` are offers to the front fetcher. -/
theorem offers_run {f : HTTPFetcher β} {rest : List (HTTPFetcher β)} {h : Nat} (ha : p.mActiveFetchers = f :: rest)
    (hcurl : f.mCurl = .easy h) (ns : List Nat) :
    Lib.Run (Step E) p (.ok ()) { p with
      mActiveFetchers := (ns.foldl (fun s n => s.1.offer s.2 h n) (f, p.mCurlMHandle)).1 :: rest
      mCurlMHandle := (ns.foldl (fun s n => s.1.offer s.2 h n) (f, p.mCurlMHandle)).2 } := by
  induction ns generalizing p f with
  | nil =>
    have hsame : p = { p with mActiveFetchers := f :: rest } := by
      rw [← ha]
    rw [hsame]
    exact .nil _
  | cons n ns ih =>
    obtain ⟨_, _, _, _, hg⟩ := f.offer_rebuffered p.mCurlMHandle h n
    have hcurl' : (f.offer p.mCurlMHandle h n).1.mCurl = .easy h := by
      rw [hg]
      exact hcurl
    have hstep : Step E p (.ok ()) _ := Step.offer (n := n) (show p.mActiveFetchers = [] ++ f :: rest from ha) (Or.inl hcurl)
    exact .step hstep (ih rfl hcurl')

theorem unpause_run {f : HTTPFetcher β} {rest : List (HTTPFetcher β)} (ha : p.mActiveFetchers = f :: rest) (ns : List Nat) :
    Lib.Run (Step E) p (.ok ()) { p with
      mActiveFetchers := (f.unpause p.mCurlMHandle ns).1 :: rest
      mCurlMHandle := (f.unpause p.mCurlMHandle ns).2 } := by
  have hresume : Step E p (.ok ()) _ := .resume ha
  unfold HTTPFetcher.unpause
  cases hcurl : f.mCurl with
  | easy h =>
    rw [hcurl] at hresume
    exact .step hresume (offers_run rfl rfl ns)
  | null | indeterminate =>
    rw [hcurl] at hresume
    exact .step hresume (.nil _)

/-- `get` is a row of offers, and then either something is handed out or nothing is there. -/
theorem get_run (n : Nat) (resumes : List (List Nat)) {f : HTTPFetcher β} {rest : List (HTTPFetcher β)}
    (ha : p.mActiveFetchers = f :: rest) :
    ∃ g m, Lib.Run (Step E) p (.ok ()) { p with mActiveFetchers := g :: rest, mCurlMHandle := m } ∧
      (0 < g.mNused - g.mReadOff ∧ f.get n resumes p.mCurlMHandle = ((g.handOut n).1, (g.handOut n).2, m) ∨
        g.mNused - g.mReadOff = 0 ∧ f.get n resumes p.mCurlMHandle = (g.drained, g, m)) := by
  have hstay : Lib.Run (Step E) p (.ok ()) { p with mActiveFetchers := f :: rest, mCurlMHandle := p.mCurlMHandle } := by
    rw [← ha]
    exact .nil p
  induction resumes generalizing p f with
  | nil =>
    unfold HTTPFetcher.get
    by_cases havail : f.mNused - f.mReadOff > 0
    · exact ⟨f, _, hstay, Or.inl ⟨havail, if_pos havail⟩⟩
    · rw [if_neg havail]
      by_cases hpaused : f.mPaused = true
      · refine ⟨_, _, unpause_run ha [], Or.inr ⟨?_, if_pos hpaused⟩⟩
        unfold HTTPFetcher.unpause
        dsimp only
        cases f.mCurl <;> exact Nat.eq_zero_of_not_pos havail
      · exact ⟨f, _, hstay, Or.inr ⟨Nat.eq_zero_of_not_pos havail, if_neg hpaused⟩⟩
  | cons ns resumes ih =>
    unfold HTTPFetcher.get
    by_cases havail : f.mNused - f.mReadOff > 0
    · exact ⟨f, _, hstay, Or.inl ⟨havail, if_pos havail⟩⟩
    · rw [if_neg havail]
      by_cases hpaused : f.mPaused = true
      · rw [if_pos hpaused]
        have hrun : Lib.Run (Step E) p _ _ := unpause_run ha ns
        obtain ⟨g, m, hg, hor⟩ := ih (p := { p with
          mActiveFetchers := (f.unpause p.mCurlMHandle ns).1 :: rest
          mCurlMHandle := (f.unpause p.mCurlMHandle ns).2 }) rfl (.nil _)
        exact ⟨g, m, hrun.trans hg, hor⟩
      · exact ⟨f, _, hstay, Or.inr ⟨Nat.eq_zero_of_not_pos havail, if_neg hpaused⟩⟩

/-- A turn in which `get` gave nothing goes on to a restart and a wait. -/
theorem afterGet_nothing {got : Got β} (hne : got ≠ .eof) (hnone : ∀ bs, got = .bytes bs → bs = []) (r : Round β) :
    p.afterGet r got = p.waitMore r := by
  unfold afterGet
  cases got with
  | eof => exact (hne rfl).elim
  | nothing => rfl
  | bytes bs =>
    rw [hnone bs rfl]
    rfl

/-- `get` on the front fetcher hands bytes out, or it is a row of offers, at the end of which the fetcher may go or has nothing to
give. -/
theorem getFront_run {n : Nat} {resume : List (List Nat)} {got : Got β} {q : DownloadPipeline β}
    (h : p.getFront n resume = some (got, q)) :
    (∃ bs p', got = .bytes bs ∧ 0 < bs.length ∧ Lib.Run (Step E) p (.ok ()) p' ∧ p'.HandsOut n bs (q.handOver bs)) ∨
      Lib.Run (Step E) p (.ok ()) q ∧
        (got = .eof ∧ Lib.Run (Step E) p (.ok ()) q.popFront ∨ got ≠ .eof ∧ ∀ bs, got = .bytes bs → bs = []) := by
  unfold getFront at h
  cases ha : p.mActiveFetchers with
  | nil =>
    rw [ha] at h
    cases h
  | cons f rest =>
    rw [ha] at h
    dsimp only at h
    obtain ⟨g, m, hrun, hor⟩ := get_run (E := E) n resume ha
    rcases hor with ⟨_, heq⟩ | ⟨hzero, heq⟩
    · rw [heq] at h
      obtain ⟨rfl, rfl⟩ := Prod.mk.inj (Option.some.inj h)
      obtain ⟨bs, hbs⟩ : ∃ bs, (g.handOut n).1 = .bytes bs := ⟨_, rfl⟩
      rw [hbs]
      by_cases hpos : 0 < bs.length
      · exact Or.inl ⟨bs, _, rfl, hpos, hrun, g, rest, rfl, List.ne_nil_of_length_pos hpos, hbs, rfl⟩
      · have hnil : bs = [] := List.length_eq_zero_iff.1 (Nat.eq_zero_of_not_pos hpos)
        rw [hnil] at hbs ⊢
        exact Or.inr ⟨hrun.trans (.one (.idle rfl hbs)), Or.inr ⟨fun h => (by cases h), fun _ h => (Got.bytes.inj h).symm⟩⟩
    · rw [heq] at h
      obtain ⟨rfl, rfl⟩ := Prod.mk.inj (Option.some.inj h)
      unfold HTTPFetcher.drained
      split
      · rename_i hdone
        exact Or.inr ⟨hrun, Or.inl ⟨rfl, hrun.trans (.one (.pop rfl hzero hdone))⟩⟩
      · exact Or.inr ⟨hrun, Or.inr ⟨fun h => (by cases h), fun _ h => by cases h⟩⟩

/-- A `get` that gives nothing is a row of offers. -/
theorem getFront_nothing {n : Nat} {resume : List (List Nat)} {got : Got β} {q : DownloadPipeline β}
    (h : p.getFront n resume = some (got, q)) (hnone : ∀ bs, got = .bytes bs → bs = []) : Lib.Run (Step E) p (.ok ()) q := by
  rcases getFront_run (E := E) h with ⟨bs, _, hgot, hpos, _⟩ | ⟨hrun, _⟩
  · rw [hnone bs hgot] at hpos
    exact (Nat.lt_irrefl 0 hpos).elim
  · exact hrun

/-- The rest of a turn that got nothing. -/
theorem waitMore_cases (hd : p.Distinct) {r : Round β} (hE : E r.restart) :
    ((p.waitMore r).1 = .again ∧ Lib.Run (Step E) p (.ok ()) (p.waitMore r).2) ∨
    ∃ e, (p.waitMore r).1 = .thrown e ∧ (Lib.Run (Step E) p (.error e) (p.waitMore r).2 ∨
      ¬ (r.wait = true ∧ r.perform = true) ∧ Lib.Run (Step E) p (.ok ()) (p.waitMore r).2) := by
  have hrestart : Lib.Run (Step E) p _ _ := restart_run hE
  unfold waitMore
  cases hr : (p.restart r.restart).result with
  | error e =>
    rw [hr] at hrestart
    exact Or.inr ⟨e, rfl, Or.inl hrestart⟩
  | ok u =>
    rw [hr] at hrestart
    dsimp only
    rcases wait_run (run_distinct hrestart hd) r with ⟨hno, e, he⟩ | hwait
    · rw [he]
      exact Or.inr ⟨e, rfl, Or.inr ⟨hno, hrestart⟩⟩
    · have hrun := hrestart.trans hwait
      cases hw : ((p.restart r.restart).pipeline.wait r).result with
      | error e =>
        rw [hw] at hrun
        exact Or.inr ⟨e, rfl, Or.inl hrun⟩
      | ok u =>
        rw [hw] at hrun
        exact Or.inl ⟨rfl, hrun⟩

/-- What one turn of `read` comes to. -/
theorem readTurn_cases (hd : p.Distinct) (n : Nat) {r : Round β} (hlaunch : ∀ i, E (r.launch i)) (hrestart : E r.restart) :
    (∃ e, (p.readTurn n r).1 = .thrown e ∧ (Lib.Run (Step E) p (.error e) (p.readTurn n r).2 ∨
      ¬ (r.wait = true ∧ r.perform = true) ∧ Lib.Run (Step E) p (.ok ()) (p.readTurn n r).2)) ∨
    ((p.readTurn n r).1 = .eof ∧ Lib.Run (Step E) p (.ok ()) (p.readTurn n r).2 ∧ (p.readTurn n r).2.mActiveFetchers = [] ∧
      ((p.readTurn n r).2.mPendingFetchers = [] ∨ p.mNConnections ≤ 0)) ∨
    ((p.readTurn n r).1 = .again ∧ Lib.Run (Step E) p (.ok ()) (p.readTurn n r).2) ∨
    ∃ bs p', (p.readTurn n r).1 = .bytes bs ∧ Lib.Run (Step E) p (.ok ()) p' ∧ p'.HandsOut n bs (p.readTurn n r).2 := by
  obtain ⟨hrun, hend⟩ := launchFrom_run hlaunch p.mPendingFetchers 0 (p := p) rfl
  unfold readTurn
  rw [show launchFrom r.launch 0 p.mPendingFetchers p = p.launch r.launch from rfl] at hrun hend
  cases hl : (p.launch r.launch).result with
  | error e =>
    rw [hl] at hrun
    exact Or.inl ⟨e, rfl, Or.inl hrun⟩
  | ok u =>
    rw [hl] at hrun
    dsimp only
    generalize (p.launch r.launch).pipeline = q at hrun hend
    cases hfront : q.getFront n r.resume with
    | none =>
      have ha : q.mActiveFetchers = [] := by
        unfold getFront at hfront
        split at hfront
        · assumption
        · cases hfront
      refine Or.inr (Or.inl ⟨rfl, hrun, ha, ?_⟩)
      have hend := hend hl
      rw [ha] at hend
      exact hend
    | some s =>
      obtain ⟨got, g⟩ := s
      dsimp only
      rcases getFront_run (E := E) hfront with ⟨bs, p', rfl, hpos, hget, hout⟩ | ⟨hget, ⟨rfl, hpop⟩ | ⟨hne, hnone⟩⟩
      · unfold afterGet
        dsimp only
        rw [if_pos hpos]
        exact Or.inr (Or.inr (Or.inr ⟨bs, p', rfl, hrun.trans hget, hout⟩))
      · exact Or.inr (Or.inr (Or.inl ⟨rfl, hrun.trans hpop⟩))
      · rw [afterGet_nothing hne hnone]
        have hrun := hrun.trans hget
        rcases waitMore_cases (run_distinct hrun hd) hrestart with ⟨hagain, hw⟩ | ⟨e, he, hw | ⟨hno, hw⟩⟩
        · exact Or.inr (Or.inr (Or.inl ⟨hagain, hrun.trans hw⟩))
        · exact Or.inl ⟨e, he, Or.inl (hrun.trans hw)⟩
        · exact Or.inl ⟨e, he, Or.inr ⟨hno, hrun.trans hw⟩⟩

/-- What every step and every handing out keeps, a turn of `read` keeps. -/
theorem readTurn_keeps {I : DownloadPipeline β → Prop} (hI : ∀ p, I p → p.Distinct)
    (hstep : ∀ p r p', I p → Step E p r p' → I p') (hout : ∀ p n bs p', I p → p.HandsOut n bs p' → I p')
    (n : Nat) {r : Round β} (hlaunch : ∀ i, E (r.launch i)) (hrestart : E r.restart) (h : I p) : I (p.readTurn n r).2 := by
  rcases readTurn_cases (hI p h) n hlaunch hrestart with
    ⟨e, _, hrun | ⟨_, hrun⟩⟩ | ⟨_, hrun, _⟩ | ⟨_, hrun⟩ | ⟨bs, p', _, hrun, hbs⟩
  · exact hrun.keeps hstep h
  · exact hrun.keeps hstep h
  · exact hrun.keeps hstep h
  · exact hrun.keeps hstep h
  · exact hout _ _ _ _ (hrun.keeps hstep h) hbs

/-- What every step and every handing out keeps, `read` keeps. -/
theorem read_keeps {I : DownloadPipeline β → Prop} (hI : ∀ p, I p → p.Distinct)
    (hstep : ∀ p r p', I p → Step E p r p' → I p') (hout : ∀ p n bs p', I p → p.HandsOut n bs p' → I p')
    (n : Nat) (rounds : List (Round β)) (hE : ∀ r ∈ rounds, (∀ i, E (r.launch i)) ∧ E r.restart) (h : I p) :
    I (p.read n rounds).2 := by
  induction rounds generalizing p with
  | nil => exact h
  | cons r rounds ih =>
    obtain ⟨hlaunch, hrestart⟩ := hE r (List.mem_cons_self ..)
    have hturn : I (p.readTurn n r).2 := readTurn_keeps hI hstep hout n hlaunch hrestart h
    unfold read
    split
    · rename_i q hq
      rw [hq] at hturn
      exact ih (fun r hr => hE r (List.mem_cons_of_mem _ hr)) hturn
    all_goals
      rename_i q hq
      rw [hq] at hturn
      exact hturn

/-- Where no step goes wrong and waiting does not fail, `read` waits, ends, or hands bytes out. -/
theorem read_ends_well {I : DownloadPipeline β → Prop} (hI : ∀ p, I p → p.Distinct)
    (hstep : ∀ p r p', I p → Step E p r p' → I p' ∧ r = .ok ()) (n : Nat) (rounds : List (Round β))
    (hE : ∀ r ∈ rounds, (∀ i, E (r.launch i)) ∧ E r.restart ∧ r.wait = true ∧ r.perform = true) (h : I p) :
    ((p.read n rounds).1 = .waiting ∧ I (p.read n rounds).2 ∧ (p.read n rounds).2.handed = p.handed ∧
      (p.read n rounds).2.mNConnections = p.mNConnections) ∨
    ((p.read n rounds).1 = .eof ∧ I (p.read n rounds).2 ∧ (p.read n rounds).2.handed = p.handed ∧
      (p.read n rounds).2.mNConnections = p.mNConnections ∧ (p.read n rounds).2.mActiveFetchers = [] ∧
      ((p.read n rounds).2.mPendingFetchers = [] ∨ p.mNConnections ≤ 0)) ∨
    ∃ bs p', (p.read n rounds).1 = .bytes bs ∧ I p' ∧ p'.handed = p.handed ∧ p'.mNConnections = p.mNConnections ∧
      p'.HandsOut n bs (p.read n rounds).2 := by
  induction rounds generalizing p with
  | nil => exact Or.inl ⟨rfl, h, rfl, rfl⟩
  | cons r rounds ih =>
    obtain ⟨hlaunch, hrestart, hwait, hperform⟩ := hE r (List.mem_cons_self ..)
    unfold read
    rcases readTurn_cases (hI p h) n hlaunch hrestart with
      ⟨e, _, hrun | ⟨hno, _⟩⟩ | ⟨hres, hrun, hnil⟩ | ⟨hres, hrun⟩ | ⟨bs, p', hres, hrun, hbs⟩
    · cases (hrun.ends_well hstep h).2
    · exact absurd ⟨hwait, hperform⟩ hno
    · obtain ⟨hh, hn, _⟩ := run_handed hrun
      have hI' := (hrun.ends_well hstep h).1
      generalize p.readTurn n r = t at *
      obtain ⟨t, q⟩ := t
      subst hres
      exact Or.inr (Or.inl ⟨rfl, hI', hh, hn, hnil⟩)
    · obtain ⟨hh, hn, _⟩ := run_handed hrun
      have hI' := (hrun.ends_well hstep h).1
      generalize p.readTurn n r = t at *
      obtain ⟨t, q⟩ := t
      subst hres
      have := ih (fun r hr => hE r (List.mem_cons_of_mem _ hr)) hI'
      rw [← hh, ← hn]
      exact this
    · obtain ⟨hh, hn, _⟩ := run_handed hrun
      have hI' := (hrun.ends_well hstep h).1
      generalize p.readTurn n r = t at *
      obtain ⟨t, q⟩ := t
      subst hres
      exact Or.inr (Or.inr ⟨bs, p', rfl, hI', hh, hn, hbs⟩)

end DownloadPipeline

end QingStor
