import QingStor.FetcherRun
import QingStor.Lemmas.Fetcher

/-!
# The run of a fetcher

The invariant of all runs: the two cursors stay inside the buffer, what was returned followed by what is in the buffer is what was
accepted, and the bytes done are counted. No call changes what the fetcher was made with.
-/

namespace QingStor

variable {β : Type*}

/-- `g` was made with the same arguments as `f`. -/
structure HTTPFetcher.SameTask (f g : HTTPFetcher β) : Prop where
  this : g.this = f.this
  mUrl : g.mUrl = f.mUrl
  mBucket : g.mBucket = f.mBucket
  mHost : g.mHost = f.mHost
  mCred : g.mCred = f.mCred
  mConfBuffSize : g.mConfBuffSize = f.mConfBuffSize
  mOffset : g.mOffset = f.mOffset
  mLen : g.mLen = f.mLen

/-- `g` is `f` after calls that moved bytes: another buffer, other cursors, perhaps paused, and more bytes done. -/
def HTTPFetcher.Moved (f g : HTTPFetcher β) : Prop :=
  ∃ buff nused readOff paused done,
    g = { f with mReadBuff := buff, mNused := nused, mReadOff := readOff, mPaused := paused, mBytesDone := done }

/-- The state of the buffer: its cursors are in order and inside it, and only a fetcher with a buffer is paused. -/
structure HTTPFetcher.Roomy (f : HTTPFetcher β) : Prop where
  buffered : f.Buffered
  used : f.mNused ≤ f.mBuffSize
  paused : f.mPaused = true → f.mReadBuff.isSome = true

/-- The invariant of a run. -/
structure FetcherRun.Sound (s : FetcherRun β) : Prop where
  roomy : s.fetcher.Roomy
  fifo : s.returned ++ s.fetcher.unread = s.accepted
  done : s.fetcher.mBytesDone = s.returned.length

namespace HTTPFetcher

variable {f g h : HTTPFetcher β} {m : Multi β}

theorem SameTask.refl (f : HTTPFetcher β) : f.SameTask f := ⟨rfl, rfl, rfl, rfl, rfl, rfl, rfl, rfl⟩

theorem SameTask.trans (h1 : f.SameTask g) (h2 : g.SameTask h) : f.SameTask h :=
  ⟨h2.this.trans h1.this, h2.mUrl.trans h1.mUrl, h2.mBucket.trans h1.mBucket, h2.mHost.trans h1.mHost,
    h2.mCred.trans h1.mCred, h2.mConfBuffSize.trans h1.mConfBuffSize, h2.mOffset.trans h1.mOffset, h2.mLen.trans h1.mLen⟩

theorem Moved.refl (f : HTTPFetcher β) : f.Moved f := ⟨_, _, _, _, _, rfl⟩

theorem Moved.trans (h1 : f.Moved g) (h2 : g.Moved h) : f.Moved h := by
  obtain ⟨_, _, _, _, _, rfl⟩ := h1
  obtain ⟨_, _, _, _, _, rfl⟩ := h2
  exact ⟨_, _, _, _, _, rfl⟩

theorem Rebuffered.trans (h1 : f.Rebuffered g) (h2 : g.Rebuffered h) : f.Rebuffered h := by
  obtain ⟨_, _, _, _, rfl⟩ := h1
  obtain ⟨_, _, _, _, rfl⟩ := h2
  exact ⟨_, _, _, _, rfl⟩

theorem Rebuffered.moved (h : f.Rebuffered g) : f.Moved g := by
  obtain ⟨_, _, _, _, rfl⟩ := h
  exact ⟨_, _, _, _, _, rfl⟩

theorem Moved.sameTask (h : f.Moved g) : f.SameTask g := by
  obtain ⟨_, _, _, _, _, rfl⟩ := h
  exact ⟨rfl, rfl, rfl, rfl, rfl, rfl, rfl, rfl⟩

/-! ## The write callback -/

/-- The write callback stays inside the buffer. -/
theorem writerCallback_used (h : f.mNused ≤ f.mBuffSize) (contents : List β) :
    (f.writerCallback contents).2.mNused ≤ (f.writerCallback contents).2.mBuffSize := by
  unfold writerCallback rewind shift store
  dsimp only
  split_ifs <;> dsimp only at * <;> omega

/-- One call of the write callback. -/
theorem Roomy.write (h : f.Roomy) (hsome : f.mReadBuff.isSome = true) (contents : List β) :
    (f.writerCallback contents).2.Roomy ∧
      (f.writerCallback contents).2.unread = f.unread ++ (if (f.writerCallback contents).1 then contents else []) ∧
      (f.writerCallback contents).2.mReadBuff.isSome = true := by
  obtain ⟨hb, hu, hs⟩ := writerCallback_spec h.buffered hsome contents
  exact ⟨⟨hb, writerCallback_used h.used contents, fun _ => hs⟩, hu, hs⟩

/-- What an offer of curl does to the buffer and to the record of pieces. -/
theorem Roomy.offer (h : f.Roomy) (hsome : f.mReadBuff.isSome = true) (m : Multi β) (e n : Nat) :
    (f.offer m e n).1.Roomy ∧ (f.offer m e n).1.mReadBuff.isSome = true ∧
      ∃ pieces, (f.offer m e n).2.taken = m.taken ++ pieces ∧
        (f.offer m e n).1.unread = f.unread ++ pieces.flatMap (·.bytes) := by
  have hstay : f.Roomy ∧ f.mReadBuff.isSome = true ∧ ∃ pieces, m.taken = m.taken ++ pieces ∧
      f.unread = f.unread ++ pieces.flatMap (·.bytes) := ⟨h, hsome, [], by simp, by simp⟩
  unfold HTTPFetcher.offer
  cases ht : m.find? e with
  | none => exact hstay
  | some t =>
    dsimp only
    split
    · exact hstay
    · obtain ⟨hr, hu, hs⟩ := h.write hsome (t.rest.take n)
      split
      · rename_i g hcall
        rw [hcall] at hr hu hs
        refine ⟨hr, hs, [⟨t.userp, t.status, t.rest.take n⟩], rfl, ?_⟩
        rw [hu]
        simp
      · rename_i g hcall
        rw [hcall] at hr hu hs
        refine ⟨hr, hs, [], by simp [Multi.update], ?_⟩
        rw [hu]
        simp

/-! ## `get` -/

/-- The deliveries of one `curl_easy_pause`. -/
theorem Roomy.offers (h : f.Roomy) (hsome : f.mReadBuff.isSome = true) (m : Multi β) (e : Nat) (ns : List Nat) :
    (ns.foldl (fun s n => s.1.offer s.2 e n) (f, m)).1.Roomy ∧
      f.Rebuffered (ns.foldl (fun s n => s.1.offer s.2 e n) (f, m)).1 ∧
      (ns.foldl (fun s n => s.1.offer s.2 e n) (f, m)).1.mReadBuff.isSome = true ∧
      ∃ pieces, (ns.foldl (fun s n => s.1.offer s.2 e n) (f, m)).2.taken = m.taken ++ pieces ∧
        (ns.foldl (fun s n => s.1.offer s.2 e n) (f, m)).1.unread = f.unread ++ pieces.flatMap (·.bytes) := by
  induction ns generalizing f m with
  | nil => exact ⟨h, Rebuffered.refl f, hsome, [], by simp, by simp⟩
  | cons n ns ih =>
    obtain ⟨hr, hs, pieces, htaken, hu⟩ := h.offer hsome m e n
    obtain ⟨hr', hre', hs', pieces', htaken', hu'⟩ := ih hr hs (f.offer m e n).2
    rw [List.foldl_cons]
    refine ⟨hr', (f.offer_rebuffered m e n).trans hre', hs', pieces ++ pieces', ?_, ?_⟩
    · rw [htaken', htaken, List.append_assoc]
    · rw [hu', hu, List.flatMap_append, List.append_assoc]

/-- Unpausing a paused fetcher. -/
theorem Roomy.unpause (h : f.Roomy) (hpaused : f.mPaused = true) (m : Multi β) (ns : List Nat) :
    (f.unpause m ns).1.Roomy ∧ f.Rebuffered (f.unpause m ns).1 ∧ (f.unpause m ns).1.mReadBuff.isSome = true ∧
      ∃ pieces, (f.unpause m ns).2.taken = m.taken ++ pieces ∧
        (f.unpause m ns).1.unread = f.unread ++ pieces.flatMap (·.bytes) := by
  have hopen : ({ f with mPaused := false } : HTTPFetcher β).Roomy :=
    ⟨⟨h.buffered.cursors, h.buffered.written⟩, h.used, fun hp => by cases hp⟩
  have hre : f.Rebuffered { f with mPaused := false } := ⟨_, _, _, _, rfl⟩
  have htaken : (m.easyPause f.mCurl).taken = m.taken := by
    unfold Multi.easyPause
    cases f.mCurl <;> rfl
  unfold HTTPFetcher.unpause
  dsimp only
  split
  · rename_i e _
    obtain ⟨hr, hre', hs, pieces, hp, hu⟩ := hopen.offers (h.paused hpaused) (m.easyPause f.mCurl) e ns
    rw [htaken] at hp
    exact ⟨hr, hre.trans hre', hs, pieces, hp, hu⟩
  · exact ⟨hopen, hre, h.paused hpaused, [], by simp [htaken], by simp [unread]⟩

/-- What `get` comes to, for the bytes: what it gives and what it leaves is what was there and what was taken meanwhile. -/
structure Gets (f : HTTPFetcher β) (m : Multi β) (o : Got β × HTTPFetcher β × Multi β) : Prop where
  roomy : o.2.1.Roomy
  moved : f.Moved o.2.1
  buff : f.mReadBuff.isSome = true → o.2.1.mReadBuff.isSome = true
  bytes : ∃ pieces, o.2.2.taken = m.taken ++ pieces ∧ o.1.given ++ o.2.1.unread = f.unread ++ pieces.flatMap (·.bytes)
  done : o.2.1.mBytesDone = f.mBytesDone + o.1.given.length

theorem Roomy.gets_handOut (h : f.Roomy) (n : Nat) (m : Multi β) : Gets f m ((f.handOut n).1, (f.handOut n).2, m) := by
  obtain ⟨bs, heq, _, hu, hb⟩ := handOut_spec h.buffered n
  rw [heq] at hu hb ⊢
  refine ⟨⟨hb, h.used, h.paused⟩, ⟨_, _, _, _, _, rfl⟩, fun hs => hs, ⟨[], by simp, ?_⟩, rfl⟩
  rw [List.flatMap_nil, List.append_nil]
  exact hu.symm

theorem Roomy.gets_drained (h : f.Roomy) (m : Multi β) : Gets f m (f.drained, f, m) := by
  have hgiven : f.drained.given = [] := by
    unfold drained
    split <;> rfl
  exact ⟨h, Moved.refl f, fun hs => hs, ⟨[], by simp, by simp [hgiven]⟩, by simp [hgiven]⟩

/-- After an unpausing, `get` goes on with what curl delivered meanwhile. -/
theorem Roomy.gets_unpause (h : f.Roomy) (hpaused : f.mPaused = true) (m : Multi β) (ns : List Nat)
    {o : Got β × HTTPFetcher β × Multi β} (ho : Gets (f.unpause m ns).1 (f.unpause m ns).2 o) : Gets f m o := by
  obtain ⟨_, hre, hs, pieces, htaken, hu⟩ := h.unpause hpaused m ns
  obtain ⟨pieces', htaken', hbytes'⟩ := ho.bytes
  refine ⟨ho.roomy, hre.moved.trans ho.moved, fun _ => ho.buff hs, ⟨pieces ++ pieces', ?_, ?_⟩, ?_⟩
  · rw [htaken', htaken, List.append_assoc]
  · rw [hbytes', hu, List.flatMap_append, List.append_assoc]
  · obtain ⟨_, _, _, _, hsame⟩ := hre
    rw [ho.done, hsame]

theorem Roomy.gets (h : f.Roomy) (n : Nat) (resumes : List (List Nat)) (m : Multi β) : Gets f m (f.get n resumes m) := by
  induction resumes generalizing f m with
  | nil =>
    unfold get
    split
    · exact h.gets_handOut n m
    · split
      · rename_i hpaused
        exact h.gets_unpause hpaused m [] ((h.unpause hpaused m []).1.gets_drained _)
      · exact h.gets_drained m
  | cons ns resumes ih =>
    unfold get
    split
    · exact h.gets_handOut n m
    · split
      · rename_i hpaused
        exact h.gets_unpause hpaused m ns (ih (h.unpause hpaused m ns).1 _)
      · exact h.gets_drained m

/-- `get` reports the end of a fetcher that is done, when its buffer is empty. -/
theorem get_eof {n : Nat} {resumes : List (List Nat)} {m : Multi β} (h : (f.get n resumes m).1 = .eof) :
    (f.get n resumes m).2.1.mState = .done ∧
      (f.get n resumes m).2.1.mNused - (f.get n resumes m).2.1.mReadOff = 0 := by
  have hstate : ∀ {g : HTTPFetcher β}, g.drained = .eof → g.mState = .done := by
    intro g hg
    unfold drained at hg
    split at hg
    · assumption
    · cases hg
  induction resumes generalizing f m with
  | nil =>
    unfold get at h ⊢
    split at h
    · cases h
    · rename_i hempty
      rw [if_neg hempty]
      split at h
      · rename_i hpaused
        rw [if_pos hpaused]
        refine ⟨hstate h, ?_⟩
        unfold unpause
        dsimp only
        cases f.mCurl <;> exact Nat.eq_zero_of_not_pos hempty
      · rename_i hpaused
        rw [if_neg hpaused]
        exact ⟨hstate h, Nat.eq_zero_of_not_pos hempty⟩
  | cons ns resumes ih =>
    unfold get at h ⊢
    split at h
    · cases h
    · rename_i hempty
      rw [if_neg hempty]
      split at h
      · rename_i hpaused
        rw [if_pos hpaused]
        exact ih h
      · rename_i hpaused
        rw [if_neg hpaused]
        exact ⟨hstate h, Nat.eq_zero_of_not_pos hempty⟩

/-! ## `start` and `handleResult` -/

/-- Seeing to the buffer keeps its cursors inside. -/
theorem Roomy.primed (h : f.Roomy) (env : StartEnv β) : (f.primed env).Roomy := by
  obtain ⟨size, buff, hsame⟩ := f.primed_same env
  refine ⟨(primed_spec h.buffered env).1, ?_, fun hp => ?_⟩
  · unfold HTTPFetcher.primed
    split
    · rename_i hnone
      have hw := h.buffered.written
      rw [Option.isNone_iff_eq_none.1 hnone] at hw
      exact hw.trans (Nat.zero_le _)
    · exact h.used
  · rw [hsame] at hp
    exact primed_isSome (Or.inl (h.paused hp))

/-- A start keeps the bytes of the buffer, and what the fetcher was made with. -/
theorem Roomy.start (h : f.Roomy) (env : StartEnv β) (m : Multi β) :
    (f.start env m).fetcher.Roomy ∧ f.SameTask (f.start env m).fetcher ∧
      (f.start env m).fetcher.unread = f.unread ∧ (f.start env m).fetcher.mBytesDone = f.mBytesDone := by
  have hprimed := h.primed env
  have hu := (primed_spec h.buffered env).2
  obtain ⟨size, buff, hsame⟩ := f.primed_same env
  have htask : f.SameTask (f.primed env) := by
    rw [hsame]
    exact ⟨rfl, rfl, rfl, rfl, rfl, rfl, rfl, rfl⟩
  have hdone : (f.primed env).mBytesDone = f.mBytesDone := by
    rw [hsame]
  have hall : ∀ (curl : CurlPtr) (parent : Bool) (headers : HeaderContent) (lines : Option (List Str)) (state : FetcherState),
      ({ f.primed env with mCurl := curl, mParent := parent, mHeaders := headers, mHttpHeaders := lines, mState := state } :
        HTTPFetcher β).Roomy :=
    fun _ _ _ _ _ => ⟨⟨hprimed.buffered.cursors, hprimed.buffered.written⟩, hprimed.used, hprimed.paused⟩
  rcases f.start_cases env m with ⟨e, he⟩ | ⟨_, _, headers, lines, ⟨e, he⟩ | ⟨_, he⟩⟩
  · rw [he]
    exact ⟨hprimed, htask, hu, hdone⟩
  · rw [he]
    exact ⟨hall .., ⟨htask.1, htask.2, htask.3, htask.4, htask.5, htask.6, htask.7, htask.8⟩, hu, hdone⟩
  · rw [he]
    exact ⟨hall .., ⟨htask.1, htask.2, htask.3, htask.4, htask.5, htask.6, htask.7, htask.8⟩, hu, hdone⟩

/-- The end of a transfer changes the handle and the state of a fetcher, and its headers are dropped. -/
theorem handleResult_same (f : HTTPFetcher β) (res : CURLcode) (respcode : Nat) (m : Multi β) :
    ∃ state curl parent lines failures, (f.handleResult res respcode m).fetcher =
      { f with mState := state, mCurl := curl, mParent := parent, mHttpHeaders := lines, mNFailures := failures } := by
  have hclean : ∀ m : Multi β, ∃ curl parent,
      (f.cleanup m).1 = { f with mCurl := curl, mParent := parent, mHttpHeaders := none } := by
    intro m
    unfold cleanup
    dsimp only
    split_ifs <;> exact ⟨_, _, rfl⟩
  have hfail : ∀ m : Multi β, ∃ curl parent, (f.fail m).1 =
      { f with mState := .failed, mCurl := curl, mParent := parent, mHttpHeaders := none, mNFailures := f.mNFailures + 1 } := by
    intro m
    obtain ⟨curl, parent, h⟩ := hclean m
    exact ⟨curl, parent, by rw [fail, h]⟩
  have hdone : ∀ m : Multi β, ∃ curl parent,
      (f.done m).1 = { f with mState := .done, mCurl := curl, mParent := parent, mHttpHeaders := none } := by
    intro m
    obtain ⟨curl, parent, h⟩ := hclean m
    exact ⟨curl, parent, by rw [done, h]⟩
  unfold handleResult
  split
  · exact ⟨_, _, _, _, _, rfl⟩
  · cases res with
    | failure c =>
      obtain ⟨curl, parent, h⟩ := hfail m
      exact ⟨_, _, _, _, _, h⟩
    | ok =>
      dsimp only
      split
      · exact ⟨_, _, _, _, _, rfl⟩
      · split
        · obtain ⟨curl, parent, h⟩ := hfail { m with calls := m.calls ++ [.easyGetinfo f.mCurl] }
          exact ⟨_, _, _, _, _, h⟩
        · obtain ⟨curl, parent, h⟩ := hdone { m with calls := m.calls ++ [.easyGetinfo f.mCurl] }
          exact ⟨_, _, _, _, _, h⟩

/-- Closing leaves no handle. -/
theorem cleanup_mCurl (f : HTTPFetcher β) (m : Multi β) : (f.cleanup m).1.mCurl = .null := by
  unfold cleanup
  dsimp only
  split
  · assumption
  · split <;> rfl

/-- What a result comes to for the state of a fetcher: nothing when it throws, a failure, or the end. -/
theorem handleResult_state (f : HTTPFetcher β) (res : CURLcode) (status : Nat) (m : Multi β) :
    (f.handleResult res status m).fetcher = f ∧ ¬ (res = .ok ∧ AcceptedStatus status ∧ f.mCurl ≠ .null) ∨
    (f.handleResult res status m).fetcher.mState = .failed ∧ (f.handleResult res status m).fetcher.mCurl = .null ∧
      ¬ (res = .ok ∧ AcceptedStatus status) ∨
    (f.handleResult res status m).fetcher.mState = .done ∧ (f.handleResult res status m).fetcher.mCurl = .null ∧
      res = .ok ∧ AcceptedStatus status ∧ f.mCurl ≠ .null := by
  unfold handleResult
  split
  · rename_i hnull
    exact Or.inl ⟨rfl, fun h => h.2.2 hnull⟩
  · rename_i hcurl
    cases res with
    | failure c => exact Or.inr (Or.inl ⟨rfl, cleanup_mCurl f m, fun h => by cases h.1⟩)
    | ok =>
      dsimp only
      split
      · rename_i hzero
        refine Or.inl ⟨rfl, fun h => ?_⟩
        have hstatus := h.2.1
        unfold AcceptedStatus at hstatus
        omega
      · split
        · rename_i hother
          refine Or.inr (Or.inl ⟨rfl, cleanup_mCurl _ _, fun h => ?_⟩)
          have hstatus := h.2
          unfold AcceptedStatus at hstatus
          omega
        · refine Or.inr (Or.inr ⟨rfl, cleanup_mCurl _ _, rfl, ?_, hcurl⟩)
          unfold AcceptedStatus
          omega

end HTTPFetcher

/-! ## Runs -/

namespace FetcherRun

variable {s : FetcherRun β}

/-- Each call keeps the invariant, and what the fetcher was made with. -/
theorem Sound.run (h : s.Sound) (op : FetcherOp β) : (op.run s).Sound ∧ s.fetcher.SameTask (op.run s).fetcher := by
  cases op with
  | start env m =>
    obtain ⟨hr, htask, hu, hd⟩ := h.roomy.start env m
    rw [FetcherOp.run_start]
    exact ⟨⟨hr, (congrArg (s.returned ++ ·) hu).trans h.fifo, hd.trans h.done⟩, htask⟩
  | write contents =>
    rw [FetcherOp.run_write]
    split
    · rename_i hsome
      obtain ⟨hr, hu, _⟩ := h.roomy.write hsome contents
      have hre := s.fetcher.writerCallback_rebuffered contents
      have hd : (s.fetcher.writerCallback contents).2.mBytesDone = s.fetcher.mBytesDone := by
        obtain ⟨_, _, _, _, hsame⟩ := hre
        rw [hsame]
      refine ⟨⟨hr, ?_, hd.trans h.done⟩, hre.moved.sameTask⟩
      dsimp only
      rw [hu, ← h.fifo, List.append_assoc]
    · exact ⟨h, HTTPFetcher.SameTask.refl _⟩
  | get n resumes m =>
    have hg := h.roomy.gets n resumes m
    obtain ⟨pieces, htaken, hbytes⟩ := hg.bytes
    rw [FetcherOp.run_get]
    refine ⟨⟨hg.roomy, ?_, ?_⟩, hg.moved.sameTask⟩
    · dsimp only
      rw [Multi.takenSince, htaken, List.drop_left, List.append_assoc, hbytes, ← h.fifo, List.append_assoc]
    · dsimp only
      rw [hg.done, h.done, List.length_append]
      push_cast
      rfl
  | handleResult res respcode m =>
    obtain ⟨_, _, _, _, _, hsame⟩ := s.fetcher.handleResult_same res respcode m
    rw [FetcherOp.run_handleResult, hsame]
    exact ⟨⟨⟨⟨h.roomy.buffered.cursors, h.roomy.buffered.written⟩, h.roomy.used, h.roomy.paused⟩, h.fifo, h.done⟩,
      ⟨rfl, rfl, rfl, rfl, rfl, rfl, rfl, rfl⟩⟩

/-- A run of calls keeps the invariant. -/
theorem Sound.runs (h : s.Sound) (ops : List (FetcherOp β)) :
    (ops.foldl FetcherOp.run s).Sound ∧ s.fetcher.SameTask (ops.foldl FetcherOp.run s).fetcher := by
  induction ops generalizing s with
  | nil => exact ⟨h, HTTPFetcher.SameTask.refl _⟩
  | cons op ops ih =>
    obtain ⟨h1, htask1⟩ := h.run op
    obtain ⟨h2, htask2⟩ := ih h1
    exact ⟨h2, htask1.trans htask2⟩

/-- The invariant holds of a fetcher with an empty buffer of any size. -/
theorem sound_withBuffer (this : Nat) (url host bucket : Str) (cred : QSCredential) (buffsize offset len : Int) (size : Nat) :
    (⟨(HTTPFetcher.make this url host bucket cred buffsize offset len).withBuffer size, [], []⟩ : FetcherRun β).Sound :=
  ⟨⟨⟨le_rfl, Nat.zero_le _⟩, Nat.zero_le _, fun h => by cases h⟩, rfl, rfl⟩

/-- The invariant holds of a new fetcher. -/
theorem sound_make (this : Nat) (url host bucket : Str) (cred : QSCredential) (buffsize offset len : Int) :
    (⟨.make this url host bucket cred buffsize offset len, [], []⟩ : FetcherRun β).Sound :=
  ⟨⟨⟨le_rfl, Nat.zero_le _⟩, le_rfl, fun h => by cases h⟩, rfl, rfl⟩

/-- A buffer that was allocated keeps its size. -/
theorem Sound.run_size (h : s.Sound) (hsome : s.fetcher.mReadBuff.isSome = true) (op : FetcherOp β) :
    (op.run s).fetcher.mReadBuff.isSome = true ∧ (op.run s).fetcher.mBuffSize = s.fetcher.mBuffSize := by
  cases op with
  | start env m =>
    have hprimed : s.fetcher.primed env = s.fetcher := by
      unfold HTTPFetcher.primed
      rw [if_neg]
      rw [← Option.not_isSome, hsome]
      exact Bool.false_ne_true
    rw [FetcherOp.run_start]
    rcases s.fetcher.start_cases env m with ⟨e, he⟩ | ⟨_, _, headers, lines, ⟨e, he⟩ | ⟨_, he⟩⟩ <;>
      rw [he, hprimed] <;> exact ⟨hsome, rfl⟩
  | write contents =>
    obtain ⟨_, _, hs⟩ := h.roomy.write hsome contents
    obtain ⟨_, _, _, _, hsame⟩ := s.fetcher.writerCallback_rebuffered contents
    rw [FetcherOp.run_write, if_pos hsome]
    exact ⟨hs, by dsimp only; rw [hsame]⟩
  | get n resumes m =>
    have hg := h.roomy.gets n resumes m
    obtain ⟨_, _, _, _, _, hsame⟩ := hg.moved
    exact ⟨hg.buff hsome, by rw [FetcherOp.run_get]; dsimp only; rw [hsame]⟩
  | handleResult res respcode m =>
    obtain ⟨_, _, _, _, _, hsame⟩ := s.fetcher.handleResult_same res respcode m
    rw [FetcherOp.run_handleResult, hsame]
    exact ⟨hsome, rfl⟩

theorem Sound.runs_size (h : s.Sound) (hsome : s.fetcher.mReadBuff.isSome = true) (ops : List (FetcherOp β)) :
    (ops.foldl FetcherOp.run s).fetcher.mBuffSize = s.fetcher.mBuffSize := by
  induction ops generalizing s with
  | nil => rfl
  | cons op ops ih =>
    obtain ⟨hs, hsize⟩ := h.run_size hsome op
    exact (ih (h.run op).1 hs).trans hsize

/-- What moving bytes and the end of a transfer cannot change of a fetcher, and a start keeps, a run keeps. -/
theorem Sound.runs_keep {P : HTTPFetcher β → Prop} (hmoved : ∀ f g, f.Moved g → P f → P g)
    (hended : ∀ (f : HTTPFetcher β) state curl parent lines failures, P f → P { f with
      mState := state, mCurl := curl, mParent := parent, mHttpHeaders := lines, mNFailures := failures })
    (hstart : ∀ (f : HTTPFetcher β) env m, f.Roomy → P f → P (f.start env m).fetcher)
    (hs : s.Sound) (h : P s.fetcher) (ops : List (FetcherOp β)) : P (ops.foldl FetcherOp.run s).fetcher := by
  induction ops generalizing s with
  | nil => exact h
  | cons op ops ih =>
    refine ih (hs.run op).1 ?_
    cases op with
    | start env m => exact hstart s.fetcher env m hs.roomy h
    | write contents =>
      rw [FetcherOp.run_write]
      split
      · exact hmoved _ _ (s.fetcher.writerCallback_rebuffered contents).moved h
      · exact h
    | get n resumes m => exact hmoved _ _ (hs.roomy.gets n resumes m).moved h
    | handleResult res respcode m =>
      obtain ⟨state, curl, parent, lines, failures, hsame⟩ := s.fetcher.handleResult_same res respcode m
      rw [FetcherOp.run_handleResult, hsame]
      exact hended s.fetcher state curl parent lines failures h

/-- The bytes accepted are counted by the bytes done and the bytes in the buffer. -/
theorem Sound.length_accepted (h : s.Sound) :
    (s.accepted.length : Int) = s.fetcher.mBytesDone + ((s.fetcher.mNused : Int) - s.fetcher.mReadOff) := by
  have hlen := HTTPFetcher.length_unread h.roomy.buffered
  have hc := h.roomy.buffered.cursors
  rw [← h.fifo, List.length_append, h.done, hlen]
  omega

end FetcherRun

end QingStor
