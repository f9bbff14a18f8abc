import QingStor.Lemmas.Usable
import QingStor.Lemmas.Pauses

/-!
# What an exception out of the pipeline leaves

`launch` makes a fetcher active before it is started, `start` registers a handle before it sets the headers and the state, and
`handleResult` throws for a response code 0 before it gives the handle up. Exactly these exceptions leave a pipeline no later read
can go on from.
-/

namespace QingStor

variable {β : Type*}

/-- The turn loses no fetcher, and leaves a pipeline a later read can go on from. -/
structure ReadTurn.LeavesUsable (t : ReadTurn β) : Prop where
  kept : t.after.fetchers.map (·.this) = t.before.fetchers.map (·.this)
  usable : t.after.Usable

namespace RecoveryAux

open DownloadPipeline BookkeepingAux

variable {p p' : DownloadPipeline β} {r : Except Fault Unit}

/-! ## No fetcher is lost -/

/-- What is launched stays among the fetchers. -/
theorem launchFrom_this (env : Nat → StartEnv β) (pending : List (HTTPFetcher β)) (i : Nat) {p : DownloadPipeline β}
    (hp : p.mPendingFetchers = pending) :
    (launchFrom env i pending p).pipeline.fetchers.map (·.this) = p.fetchers.map (·.this) := by
  induction pending generalizing p i with
  | nil => rfl
  | cons f pending ih =>
    have hmoved : ({ p with
        mActiveFetchers := p.mActiveFetchers ++ [(f.start (env i) p.mCurlMHandle).fetcher]
        mPendingFetchers := pending
        mCurlMHandle := (f.start (env i) p.mCurlMHandle).multi } : DownloadPipeline β).fetchers.map (·.this) =
        p.fetchers.map (·.this) := by
      simp only [fetchers, hp, List.map_append, List.map_cons, start_this, List.append_assoc, List.singleton_append]
    unfold launchFrom
    split
    · dsimp only
      split
      · exact (ih (i + 1) rfl).trans hmoved
      · exact hmoved
    · rfl

/-- No step adds a pending fetcher. -/
theorem pending_subset (h : Step (fun _ => True) p r p') : p'.mPendingFetchers ⊆ p.mPendingFetchers := by
  cases h with
  | launch hp _ =>
    rw [hp]
    exact List.subset_cons_self _ _
  | _ => exact List.Subset.refl _

/-- A step that starts nothing leaves them. -/
theorem pending_of_step (h : Step (fun _ => False) p r p') : p'.mPendingFetchers = p.mPendingFetchers := by
  cases h with
  | launch _ hE => exact hE.elim
  | _ => rfl

/-- Waiting keeps all fetchers. -/
theorem waitMore_fetchers (hd : p.Distinct) (r : Round β) :
    (p.waitMore r).2.fetchers.map (·.this) = p.fetchers.map (·.this) := by
  have hrestart : (p.restart r.restart).pipeline.mPendingFetchers = p.mPendingFetchers := by
    unfold restart
    split
    · rfl
    · split <;> rfl
  have hd' : (p.restart r.restart).pipeline.Distinct := run_distinct (restart_run (E := fun _ => True) trivial) hd
  have hwait : ((p.restart r.restart).pipeline.wait r).pipeline.mPendingFetchers = p.mPendingFetchers := by
    rcases wait_run (E := fun _ => False) hd' r with ⟨_, e, he⟩ | hrun
    · rw [he]
      exact hrestart
    · exact hrun.keeps (I := fun q => q.mPendingFetchers = p.mPendingFetchers)
        (fun _ _ _ hq hs => (pending_of_step hs).trans hq) hrestart
  have hpending : (p.waitMore r).2.mPendingFetchers = p.mPendingFetchers := by
    unfold waitMore
    split
    · exact hrestart
    · split <;> exact hwait
  rw [fetchers, fetchers, List.map_append, List.map_append, waitMore_this, hpending]

/-- A turn that throws loses no fetcher. -/
theorem fetchers_of_thrown {t : ReadTurn β} (h : Steady t.before) (hw : t.GoesWell) {e : Fault} (he : t.result = .thrown e) :
    t.after.fetchers.map (·.this) = t.before.fetchers.map (·.this) := by
  have hlaunch : t.launched.fetchers.map (·.this) = t.before.fetchers.map (·.this) := launchFrom_this _ _ 0 rfl
  have hok := (launch_ok_iff h.usable.pending t.round.launch).2 hw.launch
  have hlaunched : Steady t.launched := h.launchFrom t.round.launch t.before.mPendingFetchers 0 rfl hok
  cases t.course with
  | thrown _ _ _ _ hafter =>
    rw [hafter]
    exact hlaunch
  | empty _ _ _ hres _ | leaves _ _ _ _ hres _ | bytes _ _ _ _ _ _ hres _ =>
    rw [hres] at he
    cases he
  | waits got q _ hfront hne hnone _ _ hafter =>
    have hd : q.Distinct :=
      run_distinct (getFront_nothing (E := fun _ => False) hfront hnone) hlaunched.kept.tidy.distinct
    obtain ⟨_, hsame, hpending, _⟩ := getFront_sound hlaunched.kept.sound hfront
    rw [hafter, waitMore_fetchers hd, ← hlaunch, fetchers, fetchers, List.map_append, List.map_append, hsame, hpending]

/-! ## What goes wrong -/

/-- In every run the pending fetchers are at rest, whatever goes wrong. -/
theorem runTurns_resting (nconnections : Int) (ops : List (PipelineOp β)) :
    ∀ t ∈ runTurns (.make nconnections) ops, Synced t.before ∧ ∀ f ∈ t.before.mPendingFetchers, f.mState = .init := by
  have hstart : Synced (DownloadPipeline.make (β := β) nconnections) ∧
      ∀ f ∈ (DownloadPipeline.make (β := β) nconnections).mPendingFetchers, f.mState = .init :=
    ⟨synced_make nconnections, fun _ hf => by cases hf⟩
  refine (runTurns_keep (I := fun q => Synced q ∧ ∀ f ∈ q.mPendingFetchers, f.mState = .init) (C := fun _ => True) ?_ ?_ ops
    hstart (fun _ _ => trivial)).2
  · intro t h _
    refine readTurn_keeps (E := fun _ => True) (I := fun q => Synced q ∧ ∀ f ∈ q.mPendingFetchers, f.mState = .init)
      (fun _ h => h.1.tidy.distinct) ?_ ?_ t.bufflen (fun _ => trivial) trivial h
    · rintro q _ q' ⟨hsynced, hinit⟩ hs
      exact ⟨Synced.step hsynced hs, fun f hf => hinit f (pending_subset hs hf)⟩
    · rintro q _ _ q' ⟨hsynced, hinit⟩ ho
      refine ⟨hsynced.handsOut ho, ?_⟩
      obtain ⟨_, _, _, _, _, rfl⟩ := ho
      exact hinit
  · rintro q url host bucket cred buffsize offset len ⟨hsynced, hinit⟩
    refine ⟨hsynced.add url host bucket cred buffsize offset len, fun f hf => ?_⟩
    rcases List.mem_append.1 hf with hf | hf
    · exact hinit f hf
    · rw [List.mem_singleton.1 hf]
      rfl

/-- A `launch` that throws leaves a fetcher at rest. -/
theorem unusable_of_launch {t : ReadTurn β} (hinit : ∀ f ∈ t.before.mPendingFetchers, f.mState = .init)
    (hno : ¬ t.before.LaunchSafe t.round.launch) : (∃ e, t.result = .thrown e) ∧ ¬ t.after.Usable := by
  rw [← launch_ok_iff hinit] at hno
  cases t.course with
  | thrown e he _ hres hafter =>
    refine ⟨⟨e, hres⟩, fun hu => ?_⟩
    obtain ⟨f, hf, hstate⟩ := launchFrom_stuck t.round.launch t.before.mPendingFetchers 0 hinit he
    rw [hafter] at hu
    rcases hu.active f hf with h | h | h
    · rw [hstate] at h
      cases h
    · rw [hstate] at h
      cases h
    · have hrunning := h.running
      rw [hstate] at hrunning
      cases hrunning
  | empty hok | leaves _ hok | bytes _ _ hok | waits _ _ hok => exact (hno hok).elim

/-- Where a turn comes to a restart, its pipeline is in step with curl. -/
theorem synced_beforeRestart {t : ReadTurn β} (h : Synced t.before) {q : DownloadPipeline β} (hq : t.beforeRestart = some q) :
    Synced q ∧ t.result = (q.waitMore t.round).1 ∧ t.after = (q.waitMore t.round).2 := by
  obtain ⟨⟨got, hfront, hnone⟩, hres, hafter⟩ := t.of_beforeRestart hq
  exact ⟨h.launched.steps (getFront_nothing (E := fun _ => True) hfront hnone), hres, hafter⟩

/-- A restart that throws after it registered a handle leaves the handle, and nobody is underway with it. -/
theorem unusable_of_restart {t : ReadTurn β} (h : Synced t.before) (hno : ¬ t.Safe) :
    (∃ e, t.result = .thrown e) ∧ ¬ t.after.Usable := by
  unfold ReadTurn.Safe at hno
  push Not at hno
  obtain ⟨q, hq, hrestart⟩ := hno
  obtain ⟨hsynced, hres, hafter⟩ := synced_beforeRestart h hq
  unfold RestartSafe at hrestart
  push Not at hrestart
  obtain ⟨f, hhead, hfailed, hinit, hbuff, hnot⟩ := hrestart
  obtain ⟨rest, ha⟩ := List.head?_eq_some_iff.1 hhead
  obtain ⟨⟨e, he⟩, hstate, hcurl, heasies⟩ :=
    start_registers hbuff (Or.inr hfailed) hinit (fun h => hnot h.1 h.2) q.mCurlMHandle
  have hwaits : q.waitMore t.round = (.thrown e, { q with
      mActiveFetchers := (f.start t.round.restart q.mCurlMHandle).fetcher :: rest
      mCurlMHandle := (f.start t.round.restart q.mCurlMHandle).multi }) := by
    unfold waitMore restart
    rw [ha]
    dsimp only
    rw [if_pos hfailed, he]
  rw [hres, hafter, hwaits]
  refine ⟨⟨e, rfl⟩, fun hu => ?_⟩
  have hends : ∃ x ∈ (f.start t.round.restart q.mCurlMHandle).multi.ends, x.1 = q.mCurlMHandle.fresh := by
    have hmem : q.mCurlMHandle.fresh ∈ (f.start t.round.restart q.mCurlMHandle).multi.easies := by
      rw [heasies]
      exact List.mem_append_right _ (List.mem_singleton_self _)
    obtain ⟨tr, htr, heasy⟩ := List.mem_map.1 hmem
    exact ⟨_, List.mem_map_of_mem htr, heasy⟩
  obtain ⟨x, hx, hfresh⟩ := hends
  obtain ⟨k, hk, hcurl', hunder⟩ := hu.registered x hx
  rcases List.mem_cons.1 hk with rfl | hk
  · have hrunning := hunder.running
    rw [hstate, hfailed] at hrunning
    cases hrunning
  · have hlt := hsynced.known k (active_subset_fetchers (by rw [ha]; exact List.mem_cons_of_mem _ hk)) x.1 hcurl'
    omega

/-- A complete answer without a response code leaves a handle that ended. -/
theorem unusable_of_code {t : ReadTurn β} (h : Synced t.before) (hcode : (.ok, 0) ∈ t.messages) :
    (∃ e, t.result = .thrown e) ∧ ¬ t.after.Usable := by
  unfold ReadTurn.messages at hcode
  cases hq : t.beforeRestart with
  | none =>
    rw [hq] at hcode
    cases hcode
  | some q =>
    rw [hq] at hcode
    obtain ⟨_, hres, hafter⟩ := synced_beforeRestart h hq
    dsimp only at hcode
    cases hr : (q.restart t.round.restart).result with
    | error e =>
      rw [hr] at hcode
      cases hcode
    | ok u =>
      rw [hr] at hcode
      dsimp only at hcode
      split at hcode
      · rename_i hgo
        obtain ⟨⟨e, he⟩, h, hended, hno⟩ := handleEnds_stuck hcode
        have hwaits : q.waitMore t.round = (.thrown e,
            ((t.round.events.foldl deliver (q.restart t.round.restart).pipeline).handleEnds t.round.ends).pipeline) := by
          unfold waitMore
          rw [hr]
          dsimp only
          unfold wait
          rw [if_neg (not_not.2 hgo.1), if_neg (not_not.2 hgo.2), he]
        rw [hres, hafter, hwaits]
        refine ⟨⟨e, rfl⟩, fun hu => ?_⟩
        obtain ⟨k, _, hcurl, hunder⟩ := hu.registered _ hended
        obtain ⟨h', hcurl', hgoes⟩ := hunder.registered
        obtain rfl := CurlPtr.easy.inj (hcurl.symm.trans hcurl')
        exact hno hgoes
      · cases hcode

end RecoveryAux

/-- In every turn of a run that throws, no fetcher is lost, each is left pending, done, failed or underway, and no handle without
headers stays registered, exactly if in every turn the starts of `launch` can be made, no restart throws after it registered a
handle, and no complete answer comes without a response code. -/
theorem usable_after_throw_iff (nconnections : Int) (ops : List (PipelineOp β)) :
    (∀ t ∈ DownloadPipeline.runTurns (.make nconnections) ops, ∀ e, t.result = .thrown e → t.LeavesUsable) ↔
      ∀ t ∈ DownloadPipeline.runTurns (.make nconnections) ops, t.GoesWell := by
  constructor
  · intro h t ht
    obtain ⟨hsynced, hinit⟩ := RecoveryAux.runTurns_resting nconnections ops t ht
    have hstuck : ¬ ((∃ e, t.result = .thrown e) ∧ ¬ t.after.Usable) := by
      rintro ⟨⟨e, he⟩, hno⟩
      exact hno (h t ht e he).usable
    refine ⟨?_, ?_, ?_⟩
    · by_contra hno
      exact hstuck (RecoveryAux.unusable_of_launch hinit hno)
    · by_contra hno
      exact hstuck (RecoveryAux.unusable_of_restart hsynced hno)
    · intro hcode
      exact hstuck (RecoveryAux.unusable_of_code hsynced hcode)
  · intro hw t ht e he
    have hbefore := DownloadPipeline.runTurns_steady nconnections ops hw t ht
    exact ⟨RecoveryAux.fetchers_of_thrown hbefore (hw t ht) he, (hbefore.turn (hw t ht)).usable⟩

/-- One fetcher, and a call of `read` in which `launch` finds no memory to sign with. -/
def Sample.unsignedOps : List (PipelineOp Byte) :=
  [.add (lit "https://b.pek3a.qingstor.com/k") (lit "b.pek3a.qingstor.com") (lit "b") ⟨lit "id", lit "secret"⟩ 4 0 (-1),
    .read 1 [⟨fun _ => { Sample.willing with signs := false }, [], Sample.willing, true, true, [], []⟩]]

/-- The `read` throws and leaves the fetcher active and not started. -/
theorem usable_after_throw_false : ¬ ∀ (nconnections : Int) (ops : List (PipelineOp Byte)),
    ∀ t ∈ DownloadPipeline.runTurns (.make nconnections) ops, ∀ e, t.result = .thrown e → t.LeavesUsable := by
  intro h
  have hturn : ∃ t ∈ DownloadPipeline.runTurns (.make 1) Sample.unsignedOps,
      (match t.result with | .thrown _ => true | _ => false) = true ∧ ∃ f ∈ t.after.mActiveFetchers, f.mState = .init := by
    decide +kernel
  obtain ⟨t, ht, hthrown, f, hf, hstate⟩ := hturn
  cases hres : t.result with
  | thrown e =>
    rcases (h 1 Sample.unsignedOps t ht e hres).usable.active f hf with hdone | hfailed | hunder
    · rw [hstate] at hdone
      cases hdone
    · rw [hstate] at hfailed
      cases hfailed
    · have hrunning := hunder.running
      rw [hstate] at hrunning
      cases hrunning
  | again | bytes _ | eof =>
    rw [hres] at hthrown
    cases hthrown

end QingStor
