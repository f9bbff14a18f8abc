import QingStor.Lemmas.Kept

/-!
# The bookkeeping of a pipeline

At most as many fetchers are active as there are connections, the registered handles are those the active fetchers hold, and a
fetcher leaves only when it is done and empty. Exactly the restarts that throw after they registered a handle break it.
-/

namespace QingStor

variable {β : Type*}

/-- What is in order in the books of a pipeline. -/
structure DownloadPipeline.Bookkept (p : DownloadPipeline β) : Prop where
  few : p.mActiveFetchers.length ≤ p.mNConnections.toNat
  apart : ∀ f ∈ p.mActiveFetchers, ∀ g ∈ p.mPendingFetchers, f.this ≠ g.this
  easies : p.mCurlMHandle.easies.Nodup
  owner : ∀ h ∈ p.mCurlMHandle.easies, ∃! f, f ∈ p.mActiveFetchers ∧ f.mCurl = .easy h
  closed : ∀ f ∈ p.fetchers, f.mState = .done ∨ f.mState = .failed → ∀ h ∈ p.mCurlMHandle.easies, f.mCurl ≠ .easy h

/-- The books are in order between the operations of a run, and before and after each turn of its reads. -/
structure Bookkeeping (nconnections : Int) (ops : List (PipelineOp β)) : Prop where
  between : ∀ done, done <+: ops → (runPipeline nconnections done).Bookkept
  turns : ∀ t ∈ DownloadPipeline.runTurns (.make nconnections) ops,
    t.before.Bookkept ∧ t.after.Bookkept ∧ t.LeavesDone ∧ t.result ≠ .thrown notActive

namespace BookkeepingAux

open DownloadPipeline

variable {p p' q : DownloadPipeline β}

theorem Kept.bookkept (h : Kept p) : p.Bookkept := by
  have hs := h.sound
  have hd := h.tidy.distinct
  have hactive : ∀ f ∈ p.mActiveFetchers, f.slot ∈ p.books.active := fun f hf => List.mem_map_of_mem hf
  refine ⟨?_, ?_, hs.easies, ?_, ?_⟩
  · have hfew := hs.few
    unfold books at hfew
    rw [List.length_map] at hfew
    exact hfew
  · intro f hf g hg
    unfold Distinct fetchers at hd
    rw [List.map_append, List.nodup_append] at hd
    exact hd.2.2 _ (List.mem_map_of_mem hf) _ (List.mem_map_of_mem hg)
  · intro h hh
    obtain ⟨s, hmem, hcurl⟩ := hs.owner h hh
    obtain ⟨f, hf, rfl⟩ := List.mem_map.1 hmem
    refine ⟨f, ⟨hf, hcurl⟩, ?_⟩
    rintro g ⟨hg, hcurl'⟩
    exact List.inj_on_of_nodup_map (distinct_active hd) hg hf (hs.one _ (hactive g hg) _ (hactive f hf) h hcurl' hcurl)
  · intro f hf hor h _ hcurl
    rcases List.mem_append.1 hf with hf | hf
    · have hnull : f.mCurl = .null := hs.closed _ (hactive f hf) hor
      rw [hnull] at hcurl
      cases hcurl
    · have hnone : f.mCurl = .indeterminate := (hs.waiting f.slot (List.mem_map_of_mem hf)).2
      rw [hnone] at hcurl
      cases hcurl

/-- A restart that is not safe leaves a failed fetcher with a registered handle. -/
theorem restart_unsafe {env : StartEnv β} (hno : ¬ p.RestartSafe env) :
    (∃ e, (p.restart env).result = .error e) ∧ ¬ (p.restart env).pipeline.Bookkept := by
  unfold RestartSafe at hno
  push Not at hno
  obtain ⟨f, hhead, hfailed, hinit, hbuff, hnot⟩ := hno
  obtain ⟨rest, ha⟩ : ∃ rest, p.mActiveFetchers = f :: rest := by
    cases hl : p.mActiveFetchers with
    | nil =>
      rw [hl] at hhead
      cases hhead
    | cons g rest =>
      rw [hl] at hhead
      exact ⟨rest, by rw [Option.some.inj hhead]⟩
  obtain ⟨herr, hstate, hcurl, heasies⟩ := start_registers hbuff (Or.inr hfailed) hinit (fun h => hnot h.1 h.2) p.mCurlMHandle
  unfold restart
  rw [ha]
  dsimp only
  rw [if_pos hfailed]
  refine ⟨herr, fun hb => ?_⟩
  have hregistered : p.mCurlMHandle.fresh ∈ (f.start env p.mCurlMHandle).multi.easies := by
    rw [heasies]
    exact List.mem_append_right _ (List.mem_singleton_self _)
  exact hb.closed _ (List.mem_append_left _ (List.mem_cons_self ..)) (Or.inr (hstate.trans hfailed)) _ hregistered hcurl

/-! ## Runs -/

/-- After a turn whose restart is not safe, the books are not in order. -/
theorem not_bookkept_of_unsafe {t : ReadTurn β} (hno : ¬ t.Safe) : ¬ t.after.Bookkept := by
  unfold ReadTurn.Safe at hno
  push Not at hno
  obtain ⟨p, hp, hrestart⟩ := hno
  obtain ⟨⟨e, he⟩, hbad⟩ := restart_unsafe hrestart
  have hwait : (p.waitMore t.round).2 = (p.restart t.round.restart).pipeline := by
    unfold waitMore
    rw [he]
  obtain ⟨-, -, hafter⟩ := t.of_beforeRestart hp
  rw [hafter, hwait]
  exact hbad

/-- A row of operations whose restarts are safe. -/
theorem ops_kept (ops : List (PipelineOp β)) (hk : Kept p) (hsafe : ∀ t ∈ p.runTurns ops, t.Safe) :
    (∀ done, done <+: ops → Kept (done.foldl PipelineOp.run p)) ∧ ∀ t ∈ p.runTurns ops, Kept t.before :=
  runTurns_keep (fun _ h hs => (turn_kept h hs).1) (fun _ url host bucket cred buffsize offset len h =>
    h.add url host bucket cred buffsize offset len) ops hk hsafe

end BookkeepingAux

/-- The books of a pipeline are in order in a run, and no transfer ends whose fetcher is not active, exactly if each restart of
a failed front fetcher for which curl has a handle finds a URL that can be split and memory to sign with. -/
theorem bookkeeping_iff (nconnections : Int) (ops : List (PipelineOp β)) :
    Bookkeeping nconnections ops ↔ ∀ t ∈ DownloadPipeline.runTurns (.make nconnections) ops, t.Safe := by
  constructor
  · intro h t ht
    by_contra hno
    exact BookkeepingAux.not_bookkept_of_unsafe hno (h.turns t ht).2.1
  · intro hsafe
    obtain ⟨hbetween, hturns⟩ := BookkeepingAux.ops_kept ops (BookkeepingAux.kept_make nconnections) hsafe
    refine ⟨fun done hdone => (hbetween done hdone).bookkept, fun t ht => ?_⟩
    have hbefore := hturns t ht
    obtain ⟨hafter, hleaves, hne⟩ := BookkeepingAux.turn_kept hbefore (hsafe t ht)
    exact ⟨hbefore.bookkept, hafter.bookkept, hleaves, hne⟩

/-- A start that finds no memory to sign with. -/
def Sample.unsigned : StartEnv Byte := { Sample.willing with signs := false }

/-- A round in which no start can sign, and the transfer on a handle, if it is there, cannot be made. -/
def Sample.cutOffRound (easy : Nat) : Round Byte :=
  ⟨fun _ => Sample.unsigned, [], Sample.unsigned, true, true, [], [⟨easy, some (.other 6)⟩]⟩

/-- One fetcher, and three calls of `read` in which it is never signed for. -/
def Sample.unsignedReads : List (PipelineOp Byte) :=
  [.add (lit "https://b.pek3a.qingstor.com/k") (lit "b.pek3a.qingstor.com") (lit "b") ⟨lit "id", lit "secret"⟩ 4 0 (-1),
    .read 1 [Sample.cutOffRound 0], .read 1 [Sample.cutOffRound 0, Sample.cutOffRound 0], .read 1 [Sample.cutOffRound 1]]

/-- The first `read` throws with a handle registered, its transfer fails, and each restart throws and leaves one handle more. -/
theorem bookkeeping_false : ¬ ∀ (nconnections : Int) (ops : List (PipelineOp Byte)), Bookkeeping nconnections ops := by
  intro h
  have hkept := (h 1 Sample.unsignedReads).between _ (List.prefix_refl _)
  have hleft : ∃ f ∈ (runPipeline 1 Sample.unsignedReads).fetchers, f.mState = .failed ∧
      ∃ h ∈ (runPipeline 1 Sample.unsignedReads).mCurlMHandle.easies, f.mCurl = .easy h := by decide +kernel
  obtain ⟨f, hf, hfailed, e, he, hcurl⟩ := hleft
  exact hkept.closed f hf (Or.inr hfailed) e he hcurl

end QingStor
