import QingStor.Lemmas.Turns
import QingStor.Lemmas.Bookkeeping
import QingStor.Lemmas.Attempt

/-!
# What a safe turn keeps

A restart is safe when it does not throw after it registered a handle. A turn whose restart is safe keeps the books of a pipeline
sound, and lets only a fetcher go that is done and empty.
-/

namespace QingStor

variable {β : Type*}

/-- The active fetchers stay in front when more are launched, and the one that leaves in this turn is the front one, done and
with nothing left to hand out. -/
def ReadTurn.LeavesDone (t : ReadTurn β) : Prop :=
  t.before.mActiveFetchers <+: t.launched.mActiveFetchers ∧
    ∀ f ∈ t.launched.mActiveFetchers, (∀ g ∈ t.after.mActiveFetchers, g.this ≠ f.this) →
      ∃ p g, t.launched.getFront t.bufflen t.round.resume = some (.eof, p) ∧
        p.mActiveFetchers = g :: t.after.mActiveFetchers ∧ g.this = f.this ∧ g.mState = .done ∧ g.unread = []

/-- If the front fetcher has failed, and curl has a handle for its restart, its URL can be split and signing gets its memory. -/
def DownloadPipeline.RestartSafe (p : DownloadPipeline β) (env : StartEnv β) : Prop :=
  ∀ f ∈ p.mActiveFetchers.head?, f.mState = .failed → env.easyInit = true → f.mReadBuff.isSome = true ∨ env.malloc = true →
    (qsParseUrl f.mUrl).isOk = true ∧ env.signs = true

/-- A restart in this turn, if there is one, is safe. -/
def ReadTurn.Safe (t : ReadTurn β) : Prop := ∀ p ∈ t.beforeRestart, p.RestartSafe t.round.restart

namespace BookkeepingAux

open DownloadPipeline

variable {p p' q : DownloadPipeline β}

/-- What holds of a pipeline whose restarts were safe. -/
structure Kept (p : DownloadPipeline β) : Prop where
  tidy : p.Tidy
  sound : p.books.Sound

/-! ## Restarts -/

/-- A start that gets a handle registers it; it runs only if its URL can be split and signing gets its memory. -/
theorem start_registers {f : HTTPFetcher β} {env : StartEnv β} (hbuff : f.mReadBuff.isSome = true ∨ env.malloc = true)
    (hstate : f.mState = .init ∨ f.mState = .failed) (hinit : env.easyInit = true)
    (hno : ¬ ((qsParseUrl f.mUrl).isOk = true ∧ env.signs = true)) (m : Multi β) :
    (∃ e, (f.start env m).result = .error e) ∧ (f.start env m).fetcher.mState = f.mState ∧
      (f.start env m).fetcher.mCurl = .easy m.fresh ∧ (f.start env m).multi.easies = m.easies ++ [m.fresh] := by
  rw [HTTPFetcher.start_primed f hbuff]
  obtain ⟨size, buff, hsame⟩ := f.primed_same env
  obtain ⟨hnone, hgoes⟩ := HTTPFetcher.primed_goes hbuff hstate
  replace hno : ¬ ((qsParseUrl (f.primed env).mUrl).isOk = true ∧ env.signs = true) := by
    rw [hsame]
    exact hno
  have hkeeps : (f.primed env).mState = f.mState := by rw [hsame]
  rw [← hkeeps]
  generalize f.primed env = g at hnone hgoes hno
  have heasies : ∀ resp, (m.addHandle g.this resp).easies = m.easies ++ [m.fresh] := by
    intro resp
    unfold Multi.easies Multi.addHandle
    simp
  unfold HTTPFetcher.start
  simp only [hnone, Bool.false_eq_true, if_false, false_and, if_neg hgoes, hinit, not_true_eq_false]
  have hrange : ({ g with mCurl := .easy m.fresh, mParent := true, mHeaders := headerContentAdd g.mHeaders .host g.mHost } :
      HTTPFetcher β).range = g.range := rfl
  rw [hrange]
  cases g.range with
  | none | some r =>
    dsimp only
    cases hurl : qsParseUrl g.mUrl with
    | error e => exact ⟨⟨e, rfl⟩, rfl, rfl, heasies _⟩
    | ok split =>
      dsimp only
      have hsigns : ¬ env.signs = true := by
        intro h
        rw [hurl] at hno
        exact hno ⟨rfl, h⟩
      rw [if_pos hsigns]
      exact ⟨⟨_, rfl⟩, rfl, rfl, heasies _⟩

/-- A safe restart keeps the books sound. -/
theorem restart_sound (hs : p.books.Sound) {env : StartEnv β} (hsafe : p.RestartSafe env) :
    (p.restart env).pipeline.books.Sound ∧ (p.restart env).result ≠ .error notActive := by
  unfold restart
  split
  · exact ⟨hs, by simp⟩
  · rename_i f rest ha
    split
    · rename_i hfailed
      have hbooks : p.books.active = [] ++ f.slot :: rest.map HTTPFetcher.slot := by
        simp only [books, ha, List.map_cons, List.nil_append]
      have hnull : f.slot.curl = .null := hs.closed f.slot (by rw [hbooks]; exact List.mem_cons_self ..) (Or.inr hfailed)
      refine ⟨?_, f.start_ne_notActive env p.mCurlMHandle⟩
      rcases f.start_books env p.mCurlMHandle with ⟨_, hslot, hm⟩ | ⟨state, hor, hbuff, hinit, hstate, hslot, heasies, hfresh⟩
      · simp only [books, List.map_cons, hslot, hm]
        simpa only [books, ha, List.map_cons] using hs
      · obtain ⟨hurl, hsigns⟩ := hsafe f (by rw [ha]; rfl) hfailed hinit hbuff
        have hok := HTTPFetcher.start_ok hbuff hstate hinit hsigns hurl p.mCurlMHandle
        obtain rfl : state = .running := by
          rcases hor with ⟨⟨e, he⟩, _⟩ | ⟨_, h⟩
          · rw [hok] at he
            cases he
          · exact h
        have hregistered := hs.register hbooks (fun h he => by rw [hnull] at he; cases he)
          (show FetcherState.running ≠ .done from by simp) (show FetcherState.running ≠ .failed from by simp)
        simp only [books, List.map_cons, hslot, heasies, hfresh]
        exact hregistered
    · exact ⟨hs, by simp⟩

/-! ## Addresses -/

theorem map_replace_this {l : List (HTTPFetcher β)} {f g : HTTPFetcher β} (h : g.this = f.this) :
    (l.map (fun k => if k.this = f.this then g else k)).map (·.this) = l.map (·.this) := by
  rw [List.map_map]
  refine List.map_congr_left (fun k _ => ?_)
  simp only [Function.comp_apply]
  split
  · rename_i hk
    rw [hk, h]
  · rfl

/-- The active fetchers stay the same while one waits. -/
theorem deliver_this (p : DownloadPipeline β) (e : NetEvent) :
    (p.deliver e).mActiveFetchers.map (·.this) = p.mActiveFetchers.map (·.this) := by
  unfold deliver
  split
  · rfl
  · split
    · rfl
    · rename_i f _
      obtain ⟨_, _, _, _, hg⟩ := f.offer_rebuffered p.mCurlMHandle e.easy e.n
      exact map_replace_this (by rw [hg])

theorem deliverAll_this (events : List NetEvent) (p : DownloadPipeline β) :
    (events.foldl deliver p).mActiveFetchers.map (·.this) = p.mActiveFetchers.map (·.this) := by
  induction events generalizing p with
  | nil => rfl
  | cons e events ih => exact (ih (p.deliver e)).trans (deliver_this p e)

theorem handleEnd_this (p : DownloadPipeline β) (e : EndEvent) :
    (p.handleEnd e).pipeline.mActiveFetchers.map (·.this) = p.mActiveFetchers.map (·.this) := by
  unfold handleEnd
  split
  · rfl
  · dsimp only
    split
    · rfl
    · rename_i f hf
      have hcurl : f.mCurl = .easy e.easy := by simpa using List.find?_some hf
      exact map_replace_this (handleResult_this hcurl _ _ _)

theorem handleEnds_this (ends : List EndEvent) (p : DownloadPipeline β) :
    (p.handleEnds ends).pipeline.mActiveFetchers.map (·.this) = p.mActiveFetchers.map (·.this) := by
  induction ends generalizing p with
  | nil => rfl
  | cons e ends ih =>
    unfold handleEnds
    split
    · exact (ih _).trans (handleEnd_this p e)
    · exact handleEnd_this p e

theorem wait_this (p : DownloadPipeline β) (r : Round β) :
    (p.wait r).pipeline.mActiveFetchers.map (·.this) = p.mActiveFetchers.map (·.this) := by
  unfold wait
  split
  · rfl
  · split
    · rfl
    · exact (handleEnds_this r.ends _).trans (deliverAll_this r.events p)

theorem restart_this (p : DownloadPipeline β) (env : StartEnv β) :
    (p.restart env).pipeline.mActiveFetchers.map (·.this) = p.mActiveFetchers.map (·.this) := by
  unfold restart
  split
  · rfl
  · rename_i f rest ha
    split
    · rw [ha]
      simp only [List.map_cons, start_this]
    · rfl

theorem waitMore_this (p : DownloadPipeline β) (r : Round β) :
    (p.waitMore r).2.mActiveFetchers.map (·.this) = p.mActiveFetchers.map (·.this) := by
  unfold waitMore
  split
  · exact restart_this p r.restart
  · split <;> exact (wait_this _ r).trans (restart_this p r.restart)

/-! ## One turn -/

/-- What `get` on the front fetcher comes to. -/
theorem getFront_sound (hs : p.books.Sound) {n : Nat} {resume : List (List Nat)} {got : Got β}
    (h : p.getFront n resume = some (got, q)) :
    q.books.Sound ∧ q.mActiveFetchers.map (·.this) = p.mActiveFetchers.map (·.this) ∧
      q.mPendingFetchers = p.mPendingFetchers ∧
      ∃ g rest, q.mActiveFetchers = g :: rest ∧ (got = .eof → g.mState = .done ∧ g.mNused - g.mReadOff = 0) := by
  unfold getFront at h
  cases ha : p.mActiveFetchers with
  | nil =>
    rw [ha] at h
    cases h
  | cons f rest =>
    rw [ha] at h
    obtain ⟨rfl, rfl⟩ := Prod.mk.inj (Option.some.inj h)
    obtain ⟨g, m, hrun, hor⟩ := get_run (E := fun _ => False) n resume ha
    have hsound := (run_sound hrun hs).1
    have hthis : g.this = f.this := by
      have hsuffix : ((g :: rest) ++ p.mPendingFetchers).map (·.this) <:+ p.fetchers.map (·.this) :=
        hrun.keeps (I := fun q => q.fetchers.map (·.this) <:+ p.fetchers.map (·.this))
          (fun _ _ _ hq hstep => hstep.fetchers_suffix.trans hq) (List.suffix_refl _)
      have heq := hsuffix.eq_of_length (by simp [fetchers, ha])
      simp only [fetchers, ha, List.cons_append, List.map_cons, List.cons.injEq] at heq
      exact heq.1
    rcases hor with ⟨_, heq⟩ | ⟨hzero, heq⟩
    · rw [heq]
      refine ⟨?_, by simp only [List.map_cons]; rw [← hthis]; rfl, rfl, _, _, rfl, fun h => by cases h⟩
      have hbooks := books_replace (p := { p with mActiveFetchers := g :: rest, mCurlMHandle := m })
        (show g :: rest = [] ++ g :: rest from rfl) (g.handOut_slot n) rfl rfl
      rw [← hbooks] at hsound
      exact hsound
    · rw [heq]
      refine ⟨hsound, by simp only [List.map_cons, hthis], rfl, g, rest, rfl, ?_⟩
      intro heof
      unfold HTTPFetcher.drained at heof
      split at heof
      · rename_i hdone
        exact ⟨hdone, hzero⟩
      · cases heof

/-- Waiting keeps the books sound. -/
theorem wait_sound (hd : p.Distinct) (hs : p.books.Sound) (r : Round β) :
    (p.wait r).pipeline.books.Sound ∧ (p.wait r).result ≠ .error notActive := by
  unfold wait
  split
  · exact ⟨hs, by simp [notActive, throwing]⟩
  · split
    · exact ⟨hs, by simp [notActive, throwing]⟩
    · have hrun : Lib.Run (Step (fun _ => False)) p (.ok ()) (r.events.foldl deliver p) := deliverAll_run hd r.events
      exact run_sound (hrun.trans (handleEnds_run (run_distinct hrun hd) r.ends)) hs

/-- The rest of a turn that got nothing, with a safe restart. -/
theorem waitMore_sound (hd : p.Distinct) (hs : p.books.Sound) {r : Round β} (hsafe : p.RestartSafe r.restart) :
    (p.waitMore r).2.books.Sound ∧ (p.waitMore r).1 ≠ .thrown notActive := by
  have hd' : (p.restart r.restart).pipeline.Distinct := run_distinct (restart_run (E := fun _ => True) trivial) hd
  obtain ⟨hrestarted, hne⟩ := restart_sound hs hsafe
  unfold waitMore
  cases hr : (p.restart r.restart).result with
  | error e =>
    rw [hr] at hne
    exact ⟨hrestarted, fun h => hne (by rw [Turn.thrown.inj h])⟩
  | ok u =>
    dsimp only
    obtain ⟨hwaited, hne'⟩ := wait_sound hd' hrestarted r
    split
    · rename_i e he
      rw [he] at hne'
      exact ⟨hwaited, fun h => hne' (by rw [Turn.thrown.inj h])⟩
    · exact ⟨hwaited, by simp⟩

/-- Where all active fetchers are still there, none left. -/
theorem leavesDone_of_same {t : ReadTurn β} (hstay : t.before.mActiveFetchers <+: t.launched.mActiveFetchers)
    (hsame : t.after.mActiveFetchers.map (·.this) = t.launched.mActiveFetchers.map (·.this)) : t.LeavesDone := by
  refine ⟨hstay, fun f hf hgone => ?_⟩
  have hmem : f.this ∈ t.after.mActiveFetchers.map (·.this) := hsame ▸ List.mem_map_of_mem hf
  obtain ⟨g, hg, heq⟩ := List.mem_map.1 hmem
  exact (hgone g hg heq).elim

/-- The front fetcher that leaves is done and empty. -/
theorem leavesDone_of_pop {t : ReadTurn β} {q : DownloadPipeline β} {g : HTTPFetcher β}
    (hstay : t.before.mActiveFetchers <+: t.launched.mActiveFetchers)
    (hfront : t.launched.getFront t.bufflen t.round.resume = some (.eof, q))
    (ha : q.mActiveFetchers = g :: t.after.mActiveFetchers)
    (hsame : q.mActiveFetchers.map (·.this) = t.launched.mActiveFetchers.map (·.this)) (hdone : g.mState = .done)
    (hzero : g.mNused - g.mReadOff = 0) : t.LeavesDone := by
  refine ⟨hstay, fun f hf hgone => ⟨q, g, hfront, ha, ?_, hdone, ?_⟩⟩
  · have hmem : f.this ∈ q.mActiveFetchers.map (·.this) := hsame ▸ List.mem_map_of_mem hf
    rw [ha] at hmem
    rcases List.mem_cons.1 hmem with heq | hmem
    · exact heq.symm
    · obtain ⟨k, hk, heq⟩ := List.mem_map.1 hmem
      exact (hgone k hk heq).elim
  · unfold HTTPFetcher.unread
    rw [hzero]
    exact Lib.slice_zero_length _ _

/-- With a safe restart, a turn keeps the books sound; only a fetcher that is done and empty leaves, and no transfer ends whose
fetcher is not active. -/
theorem turn_sound {t : ReadTurn β} (hd : t.before.Distinct) (hs : t.before.books.Sound) (hsafe : t.Safe) :
    t.after.books.Sound ∧ t.LeavesDone ∧ t.result ≠ .thrown notActive := by
  obtain ⟨hlaunched, hne, hstay⟩ : t.launched.books.Sound ∧ (t.before.launch t.round.launch).result ≠ .error notActive ∧
      t.before.mActiveFetchers <+: t.launched.mActiveFetchers :=
    launchFrom_sound t.round.launch t.before.mPendingFetchers 0 rfl hs
  have hd' : t.launched.Distinct :=
    run_distinct (launchFrom_run (E := fun _ => True) (fun _ => trivial) t.before.mPendingFetchers 0 rfl).1 hd
  cases t.course with
  | thrown e hl _ hres hafter =>
    refine ⟨by rw [hafter]; exact hlaunched, leavesDone_of_same hstay (by rw [hafter]), ?_⟩
    rw [hres]
    intro h
    exact hne (by rw [← Turn.thrown.inj h]; exact hl)
  | empty _ _ _ hres hafter =>
    refine ⟨by rw [hafter]; exact hlaunched, leavesDone_of_same hstay (by rw [hafter]), ?_⟩
    rw [hres]
    simp
  | leaves q _ hfront _ hres hafter =>
    obtain ⟨hsound, hsame, _, g, rest, ha, heof⟩ := getFront_sound hlaunched hfront
    obtain ⟨hdone, hzero⟩ := heof rfl
    have hpop : t.after = { q with mActiveFetchers := rest, mCurlMHandle := g.destroy q.mCurlMHandle } := by
      rw [hafter, popFront, ha]
    refine ⟨?_, leavesDone_of_pop hstay hfront (by rw [hpop]; exact ha) hsame hdone hzero, ?_⟩
    · rw [hpop]
      exact (run_sound (.one (.pop ha hzero hdone)) hsound).1
    · rw [hres]
      simp
  | bytes bs q _ hfront _ _ hres hafter =>
    obtain ⟨hsound, hsame, _⟩ := getFront_sound hlaunched hfront
    have hover : t.after.books = q.books ∧ t.after.mActiveFetchers = q.mActiveFetchers := by
      rw [hafter]
      unfold handOver
      split <;> exact ⟨rfl, rfl⟩
    refine ⟨by rw [hover.1]; exact hsound, leavesDone_of_same hstay (by rw [hover.2]; exact hsame), ?_⟩
    rw [hres]
    simp
  | waits got q _ hfront _ hnone hsome hres hafter =>
    obtain ⟨hsound, hsame, _⟩ := getFront_sound hlaunched hfront
    have hdq : q.Distinct := run_distinct (getFront_nothing (E := fun _ => True) hfront hnone) hd'
    obtain ⟨hwaited, hne'⟩ := waitMore_sound hdq hsound (hsafe q hsome)
    refine ⟨by rw [hafter]; exact hwaited, leavesDone_of_same hstay ?_, by rw [hres]; exact hne'⟩
    rw [hafter]
    exact (waitMore_this q t.round).trans hsame

/-! ## What is kept -/

/-- With a safe restart, a turn keeps what is in order. -/
theorem turn_kept {t : ReadTurn β} (hk : Kept t.before) (hsafe : t.Safe) :
    Kept t.after ∧ t.LeavesDone ∧ t.result ≠ .thrown notActive := by
  obtain ⟨hsound, hleaves, hne⟩ := turn_sound hk.tidy.distinct hk.sound hsafe
  refine ⟨⟨?_, hsound⟩, hleaves, hne⟩
  exact readTurn_keeps (E := fun _ => True) (fun _ h => h.distinct) (fun _ _ _ h hstep => hstep.tidy h)
    (fun _ _ _ _ h hout => hout.tidy h) t.bufflen (fun _ => trivial) trivial hk.tidy

/-- An added fetcher waits without a handle. -/
theorem Kept.add (hk : Kept p) (url host bucket : Str) (cred : QSCredential) (buffsize offset len : Int) :
    Kept ((PipelineOp.add url host bucket cred buffsize offset len).run p) := by
  refine ⟨hk.tidy.add url host bucket cred buffsize offset len, ?_⟩
  have hs := hk.sound
  refine ⟨hs.few, hs.easies, hs.below, hs.owner, hs.registered, hs.one, hs.closed, ?_⟩
  intro s hmem
  obtain ⟨f, hf, rfl⟩ := List.mem_map.1 hmem
  rcases List.mem_append.1 hf with hf | hf
  · exact hs.waiting _ (List.mem_map_of_mem hf)
  · rw [List.mem_singleton.1 hf]
    exact ⟨rfl, rfl⟩

theorem kept_make (nconnections : Int) : Kept (DownloadPipeline.make (β := β) nconnections) := by
  refine ⟨tidy_make nconnections, Nat.zero_le _, List.nodup_nil, ?_, ?_, ?_, ?_, ?_, ?_⟩ <;>
    simp [DownloadPipeline.make, DownloadPipeline.books, Multi.empty, Multi.easies]

end BookkeepingAux

end QingStor
