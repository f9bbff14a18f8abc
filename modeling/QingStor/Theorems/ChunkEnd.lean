import QingStor.Lib.Steps
import QingStor.Lemmas.Attempt

/-!
# The end of a chunk

A fetcher is done when curl reports a transfer complete and the status is accepted; the number of bytes it took is not compared
with the number it was to read.
-/

namespace QingStor

variable {β : Type*}

/-- Curl calls the write callback for a handle it was given, so while the fetcher has one. -/
def HTTPFetcher.CurlWrites (f : HTTPFetcher β) (ops : List (FetcherOp β)) : Prop :=
  ∀ done contents, done ++ [.write contents] <+: ops → ∃ h, (f.after done).fetcher.mCurl = .easy h

/-- The end of a fetcher is the end of its range, and a complete answer that does not end there is a failure. -/
structure HTTPFetcher.ChunkEnds (f : HTTPFetcher β) (ops : List (FetcherOp β)) : Prop where
  whole : ∀ done n resumes m, done ++ [.get n resumes m] <+: ops → ((f.after done).fetcher.get n resumes m).1 = .eof →
    ((f.after (done ++ [.get n resumes m])).returned.length : Int) = f.mLen
  fails : ∀ done status m, done ++ [.handleResult .ok status m] <+: ops → AcceptedStatus status →
    (f.after done).fetcher.mCurl ≠ .null → ((f.after done).accepted.length : Int) ≠ f.mLen →
    (f.after (done ++ [.handleResult .ok status m])).fetcher.mState = .failed

/-- When an answer with an accepted status is complete, the fetcher took as many bytes as it is to read. -/
def HTTPFetcher.ExactAnswers (f : HTTPFetcher β) (ops : List (FetcherOp β)) : Prop :=
  ∀ done status m, done ++ [.handleResult .ok status m] <+: ops → AcceptedStatus status →
    (f.after done).fetcher.mCurl ≠ .null → ((f.after done).accepted.length : Int) = f.mLen

namespace HTTPFetcher

variable {f : HTTPFetcher β}

theorem after_append (f : HTTPFetcher β) (done : List (FetcherOp β)) (op : FetcherOp β) :
    f.after (done ++ [op]) = op.run (f.after done) := by
  unfold after
  rw [List.foldl_append]
  rfl

/-- Without a handle, curl has nothing to deliver. -/
theorem unpause_of_null (hnull : f.mCurl = .null) (m : Multi β) (ns : List Nat) :
    f.unpause m ns = ({ f with mPaused := false }, m.easyPause .null) := by
  unfold unpause
  dsimp only
  rw [hnull]

/-- Without a handle, `get` takes nothing from curl. -/
theorem taken_get_of_null (hnull : f.mCurl = .null) (n : Nat) (resumes : List (List Nat)) (m : Multi β) :
    (f.get n resumes m).2.2.taken = m.taken := by
  induction resumes generalizing f m with
  | nil =>
    unfold get
    rw [unpause_of_null hnull]
    split_ifs <;> rfl
  | cons ns resumes ih =>
    unfold get
    rw [unpause_of_null hnull]
    split_ifs
    · rfl
    · exact ih (f := { f with mPaused := false }) hnull (m.easyPause .null)
    · rfl

end HTTPFetcher

namespace ChunkEndAux

/-- A fetcher is done without a handle, and has its range. -/
structure Complete (len : Int) (s : FetcherRun β) : Prop where
  sound : s.Sound
  done : s.fetcher.mState = .done → s.fetcher.mCurl = .null ∧ (s.accepted.length : Int) = len

variable {s : FetcherRun β} {len : Int}

/-- A fetcher that is done is not started, and a started one runs. -/
theorem Complete.start (h : Complete len s) (env : StartEnv β) (m : Multi β) :
    Complete len ((FetcherOp.start env m).run s) := by
  refine ⟨(h.sound.run _).1, ?_⟩
  obtain ⟨size, buff, hprimed⟩ := s.fetcher.primed_same env
  rw [FetcherOp.run_start]
  rcases s.fetcher.start_cases env m with ⟨e, he⟩ | ⟨_, hstate, headers, lines, ⟨e, he⟩ | ⟨_, he⟩⟩
  · rw [he, hprimed]
    exact h.done
  · rw [he, hprimed]
    intro hdone
    rw [show s.fetcher.mState = .done from hdone] at hstate
    rcases hstate with h | h <;> cases h
  · rw [he]
    intro hdone
    cases hdone

/-- A piece comes only to a fetcher that is not done. -/
theorem Complete.write (h : Complete len s) {e : Nat} (hcurl : s.fetcher.mCurl = .easy e) (contents : List β) :
    Complete len ((FetcherOp.write contents).run s) := by
  refine ⟨(h.sound.run _).1, fun hdone => ?_⟩
  obtain ⟨_, _, _, _, hsame⟩ := s.fetcher.writerCallback_rebuffered contents
  have hstate : s.fetcher.mState = .done := by
    rw [FetcherOp.run_write] at hdone
    split at hdone
    · dsimp only at hdone
      rw [hsame] at hdone
      exact hdone
    · exact hdone
  rw [(h.done hstate).1] at hcurl
  cases hcurl

theorem Complete.get (h : Complete len s) (n : Nat) (resumes : List (List Nat)) (m : Multi β) :
    Complete len ((FetcherOp.get n resumes m).run s) := by
  refine ⟨(h.sound.run _).1, fun hdone => ?_⟩
  obtain ⟨_, _, _, _, _, hsame⟩ := (h.sound.roomy.gets n resumes m).moved
  rw [FetcherOp.run_get] at hdone ⊢
  dsimp only at hdone ⊢
  rw [hsame] at hdone
  obtain ⟨hnull, hlen⟩ := h.done hdone
  rw [hsame]
  refine ⟨hnull, ?_⟩
  rw [Multi.takenSince, HTTPFetcher.taken_get_of_null hnull, List.drop_length]
  simpa using hlen

/-- A fetcher becomes done by an answer that is complete. -/
theorem Complete.handleResult (h : Complete len s) {res : CURLcode} {status : Nat}
    (hexact : res = .ok → AcceptedStatus status → s.fetcher.mCurl ≠ .null → (s.accepted.length : Int) = len) (m : Multi β) :
    Complete len ((FetcherOp.handleResult res status m).run s) := by
  refine ⟨(h.sound.run _).1, ?_⟩
  rw [FetcherOp.run_handleResult]
  rcases s.fetcher.handleResult_state res status m with ⟨hsame, _⟩ | ⟨hfailed, _, _⟩ | ⟨_, hnull, hok, hstatus, hcurl⟩
  · rw [hsame]
    exact h.done
  · intro hdone
    rw [hfailed] at hdone
    cases hdone
  · exact fun _ => ⟨hnull, hexact hok hstatus hcurl⟩

/-- After any of its calls, a fetcher that is done has its range, as long as the complete answers were exact. -/
theorem complete_after {f : HTTPFetcher β} (hmade : f.Made) {ops : List (FetcherOp β)} (hcurl : f.CurlWrites ops)
    (hexact : f.ExactAnswers ops) : ∀ done, done <+: ops → Complete f.mLen (f.after done) := by
  have h0 : Complete f.mLen ⟨f, [], []⟩ := by
    obtain ⟨this, url, host, bucket, cred, buffsize, offset, len, rfl⟩ := hmade
    exact ⟨FetcherRun.sound_make this url host bucket cred buffsize offset len, fun h => by cases h⟩
  refine Lib.foldl_keeps h0 (fun done op hop h => ?_)
  cases op with
  | start env m => exact h.start env m
  | write contents =>
    obtain ⟨e, he⟩ := hcurl done contents hop
    exact h.write he contents
  | get n resumes m => exact h.get n resumes m
  | handleResult res status m =>
    refine h.handleResult (fun hok => ?_) m
    subst hok
    exact hexact done status m hop

end ChunkEndAux

/-- A fetcher ends with its range, and a complete answer that is too short or too long fails, exactly if there is no such answer. -/
theorem chunk_end_iff (f : HTTPFetcher β) (hmade : f.Made) (ops : List (FetcherOp β)) (hcurl : f.CurlWrites ops) :
    f.ChunkEnds ops ↔ f.ExactAnswers ops := by
  constructor
  · intro h done status m hop hstatus hne
    by_contra hlen
    have hfailed := h.fails done status m hop hstatus hne hlen
    rw [HTTPFetcher.after_append, FetcherOp.run_handleResult] at hfailed
    rcases (f.after done).fetcher.handleResult_state .ok status m with ⟨_, hno⟩ | ⟨_, _, hno⟩ | ⟨hdone, _⟩
    · exact hno ⟨rfl, hstatus, hne⟩
    · exact hno ⟨rfl, hstatus⟩
    · rw [hdone] at hfailed
      cases hfailed
  · intro hexact
    have hcomplete := ChunkEndAux.complete_after hmade hcurl hexact
    refine ⟨fun done n resumes m hop heof => ?_, fun done status m hop hstatus hne hlen => ?_⟩
    · have hafter := hcomplete _ hop
      obtain ⟨hstate, hempty⟩ := HTTPFetcher.get_eof heof
      rw [HTTPFetcher.after_append] at hafter ⊢
      have hunread : ((FetcherOp.get n resumes m).run (f.after done)).fetcher.unread = [] :=
        (HTTPFetcher.unread_eq_nil_iff hafter.sound.roomy.buffered).2 hempty
      have hfifo := hafter.sound.fifo
      rw [hunread, List.append_nil] at hfifo
      rw [hfifo]
      exact (hafter.done hstate).2
    · exact (hlen (hexact done status m hop hstatus hne)).elim

namespace Sample

/-- The fetcher of four bytes, whose request is answered with a 206 and `body`, and two calls of `get`. -/
def answered (body : Str) : List (FetcherOp Byte) :=
  [.start willing .empty, .write body, .handleResult .ok 206 .empty, .get 4 [] .empty, .get 4 [] .empty]

theorem answered_writes (body : Str) : (fetcher 0 4).CurlWrites (answered body) := by
  intro done contents hop
  rcases done with _ | ⟨op, _ | ⟨op', done⟩⟩
  · obtain ⟨h, _⟩ := List.cons_prefix_cons.1 hop
    cases h
  · obtain ⟨rfl, _⟩ := List.cons_prefix_cons.1 hop
    exact ⟨0, by decide +kernel⟩
  · have hmem := (List.cons_prefix_cons.1 (List.cons_prefix_cons.1 hop).2).2.subset
      (List.mem_append_right done (List.mem_singleton_self (FetcherOp.write contents)))
    simp at hmem

theorem answered_exact : (fetcher 0 4).ExactAnswers (answered (lit "data")) := by
  intro done status m hop _ _
  rcases done with _ | ⟨op, _ | ⟨op', _ | ⟨op'', done⟩⟩⟩
  · obtain ⟨h, _⟩ := List.cons_prefix_cons.1 hop
    cases h
  · obtain ⟨h, _⟩ := List.cons_prefix_cons.1 (List.cons_prefix_cons.1 hop).2
    cases h
  · obtain ⟨rfl, hrest⟩ := List.cons_prefix_cons.1 hop
    obtain ⟨rfl, _⟩ := List.cons_prefix_cons.1 hrest
    decide +kernel
  · have hmem := (List.cons_prefix_cons.1 (List.cons_prefix_cons.1 (List.cons_prefix_cons.1 hop).2).2).2.subset
      (List.mem_append_right done (List.mem_singleton_self (FetcherOp.handleResult .ok status m)))
    simp at hmem

end Sample

theorem chunk_end_data : (Sample.fetcher 0 4).ChunkEnds (Sample.answered (lit "data")) :=
  (chunk_end_iff (Sample.fetcher 0 4) (Sample.fetcher_made 0 4) (Sample.answered (lit "data"))
    (Sample.answered_writes (lit "data"))).2 Sample.answered_exact

/-- A 206 with two of the four bytes ends the fetcher, and `get` reports its end after two bytes. -/
theorem chunk_end_false :
    ¬ ∀ (f : HTTPFetcher Byte), f.Made → 0 ≤ f.mLen → ∀ ops : List (FetcherOp Byte), f.CurlWrites ops → f.ChunkEnds ops := by
  intro h
  have hends := h (Sample.fetcher 0 4) (Sample.fetcher_made 0 4) (by decide) (Sample.answered (lit "da"))
    (Sample.answered_writes (lit "da"))
  have heof : (((Sample.fetcher 0 4).after ((Sample.answered (lit "da")).take 4)).fetcher.get 4 [] .empty).1 = .eof := by
    rfl
  have hwhole := hends.whole ((Sample.answered (lit "da")).take 4) 4 [] .empty (List.prefix_refl _) heof
  exact absurd hwhole (by decide +kernel)

end QingStor
