import QingStor.Lemmas.Pauses

/-!
# A paused fetcher makes progress

The buffer holds any piece curl may offer, so the write callback pauses a transfer only while bytes are unread, and `get` takes
the pause off when the last of them are handed out.
-/

namespace QingStor

variable {β : Type*}

/-- A fetcher that is not stuck: its callback pauses only with unread bytes in the buffer, so the loop of `get` ends after one
unpausing at most, and when `get` returns 0 without the end, the buffer is empty and no pause is left. -/
structure HTTPFetcher.MakesProgress (f : HTTPFetcher β) : Prop where
  pauses : ∀ h contents, f.mCurl = .easy h → (contents.length : Int) ≤ curlMaxWriteSize →
    (f.writerCallback contents).1 = false → f.unread ≠ []
  ends : ∀ n deliver m, (∀ i, SmallPieces (deliver i)) →
    f.retry n deliver 2 0 m = some (f.get n [deliver 0] m)
  empty : ∀ n deliver m, 0 < n → (∀ i, SmallPieces (deliver i)) →
    ∀ o, f.retry n deliver 2 0 m = some o → o.1 ≠ .eof → o.1.given = [] → o.2.1.unread = [] ∧ o.2.1.mPaused = false

/-- When `get` on the front fetcher returns 0 without the end, the buffer of the fetcher is empty, and neither it nor its transfer
is left paused. -/
def ReadTurn.LeavesNoPause (t : ReadTurn β) : Prop :=
  0 < t.bufflen → (∀ ns ∈ t.round.resume, SmallPieces ns) →
    ∀ got p, t.launched.getFront t.bufflen t.round.resume = some (got, p) → got ≠ .eof → got.given = [] →
      ∀ g ∈ p.mActiveFetchers.head?, g.unread = [] ∧ g.mPaused = false ∧
        ∀ transfer ∈ p.mCurlMHandle.transfers, g.mCurl = .easy transfer.easy → transfer.paused = false

/-- An able fetcher makes progress. -/
theorem HTTPFetcher.Able.makesProgress {f : HTTPFetcher β} (h : f.Able) : f.MakesProgress := by
  refine ⟨?_, ?_, ?_⟩
  · intro e contents hcurl hsmall hpause
    exact h.unread_of_pause (h.held e hcurl) hsmall hpause
  · intro n deliver m hsmall
    exact h.retry n hsmall m
  · intro n deliver m hn hsmall o ho _ hgiven
    rw [h.retry n hsmall m] at ho
    obtain rfl := Option.some.inj ho
    exact h.nothing hn (fun ns hns => by rw [List.mem_singleton.1 hns]; exact hsmall 0) hgiven

namespace DownloadPipeline

/-- When `get` gives nothing in a turn, no pause is left. -/
theorem Synced.leavesNoPause {t : ReadTurn β} (h : Synced t.before) : t.LeavesNoPause := by
  intro hn hsmall got p hfront _ hgiven g hg
  have hlaunched := h.launched
  unfold getFront at hfront
  cases ha : t.launched.mActiveFetchers with
  | nil =>
    rw [ha] at hfront
    cases hfront
  | cons f rest =>
    rw [ha] at hfront
    obtain ⟨rfl, rfl⟩ := Prod.mk.inj (Option.some.inj hfront)
    have hable : f.Able := hlaunched.able f (active_subset_fetchers (by rw [ha]; exact List.mem_cons_self ..))
    obtain ⟨hempty, hopen⟩ := hable.nothing hn hsmall hgiven
    obtain ⟨k, m, hrun, hor⟩ := get_run (E := fun _ => True) t.bufflen t.round.resume ha
    obtain rfl := Option.some.inj hg
    refine ⟨hempty, hopen, fun transfer htr hcurl => ?_⟩
    have hsynced := hlaunched.steps hrun
    rcases hor with ⟨havail, heq⟩ | ⟨_, heq⟩
    · have hk := hsynced.able k (active_subset_fetchers (List.mem_cons_self ..))
      obtain ⟨bs, hbs, hlen, _⟩ := HTTPFetcher.handOut_spec hk.roomy.buffered t.bufflen
      rw [heq, hbs] at hgiven
      rw [show bs = [] from hgiven, List.length_nil] at hlen
      omega
    · rw [heq] at hopen htr hcurl
      by_contra hp
      have hpaused := hsynced.paused k (active_subset_fetchers (List.mem_cons_self ..)) transfer htr hcurl (by simpa using hp)
      rw [hopen] at hpaused
      cases hpaused

end DownloadPipeline

/-- Whatever calls a fetcher got, its write callback pauses only while bytes are unread, and the loop of `get` ends after one
unpausing at most; and in every turn of every run, no pause is left when `get` returns 0 without the end. -/
theorem paused_makes_progress (this : Nat) (url host bucket : Str) (cred : QSCredential) (buffsize offset len : Int)
    (calls : List (FetcherOp β)) (nconnections : Int) (ops : List (PipelineOp β)) :
    ((HTTPFetcher.make this url host bucket cred buffsize offset len).after calls).fetcher.MakesProgress ∧
      ∀ t ∈ DownloadPipeline.runTurns (.make nconnections) ops, t.LeavesNoPause :=
  ⟨((HTTPFetcher.able_make this url host bucket cred buffsize offset len).after calls).makesProgress,
    fun t ht => (DownloadPipeline.runTurns_synced nconnections ops t ht).leavesNoPause⟩

end QingStor
