import QingStor.HTTPFetcher
import QingStor.Lemmas.Requests

/-!
# What a fetcher does

Each member function of a fetcher, by what it does to the bytes that are not handed out yet: the write callback adds to their
end, `get` takes from their front, and nothing else changes them.
-/

namespace QingStor

variable {β : Type*}

/-- The statuses `handleResult` accepts. -/
def AcceptedStatus (status : Nat) : Prop := status = 200 ∨ status = 206

instance (status : Nat) : Decidable (AcceptedStatus status) := inferInstanceAs (Decidable (status = 200 ∨ status = 206))

/-- The two cursors of the buffer are in order, and all cells below the upper one were written. -/
structure HTTPFetcher.Buffered (f : HTTPFetcher β) : Prop where
  cursors : f.mReadOff ≤ f.mNused
  written : f.mNused ≤ (f.mReadBuff.getD []).length

/-- `g` is `f` with another buffer, other cursors and perhaps paused. -/
def HTTPFetcher.Rebuffered (f g : HTTPFetcher β) : Prop :=
  ∃ buff nused readOff paused, g = { f with mReadBuff := buff, mNused := nused, mReadOff := readOff, mPaused := paused }

namespace HTTPFetcher

variable {f g : HTTPFetcher β} {m : Multi β}

theorem Rebuffered.refl (f : HTTPFetcher β) : f.Rebuffered f := ⟨_, _, _, _, rfl⟩

/-- The write callback changes nothing but the buffer. -/
theorem writerCallback_rebuffered (f : HTTPFetcher β) (contents : List β) : f.Rebuffered (f.writerCallback contents).2 := by
  unfold writerCallback rewind shift store
  dsimp only
  split_ifs <;> exact ⟨_, _, _, _, rfl⟩

theorem offer_rebuffered (f : HTTPFetcher β) (m : Multi β) (e n : Nat) : f.Rebuffered (f.offer m e n).1 := by
  unfold offer
  split
  · exact Rebuffered.refl f
  · rename_i t ht
    split
    · exact Rebuffered.refl f
    · have h := writerCallback_rebuffered f (t.rest.take n)
      split <;> (rename_i hcall; rw [hcall] at h; exact h)

/-! ## The buffer -/

theorem length_unread (h : f.Buffered) : f.unread.length = f.mNused - f.mReadOff := by
  have hc := h.cursors
  have hw := h.written
  exact Lib.length_slice_of_le (by omega)

theorem unread_eq_nil_iff (h : f.Buffered) : f.unread = [] ↔ f.mNused - f.mReadOff = 0 := by
  rw [← List.length_eq_zero_iff, length_unread h]

/-- Setting both cursors of an empty buffer to its start leaves it empty. -/
theorem rewind_spec (h : f.Buffered) :
    f.rewind.Buffered ∧ f.rewind.unread = f.unread ∧ f.rewind.mReadBuff = f.mReadBuff := by
  unfold rewind
  split
  · rename_i heq
    refine ⟨⟨le_rfl, Nat.zero_le _⟩, ?_, rfl⟩
    simp [unread, heq]
  · exact ⟨h, rfl, rfl⟩

/-- Shifting the buffer moves the bytes that are not handed out to its start. -/
theorem shift_spec (h : f.Buffered) (hsome : f.mReadBuff.isSome = true) :
    f.shift.Buffered ∧ f.shift.unread = f.unread ∧ f.shift.mReadBuff.isSome = true := by
  unfold shift
  split
  · obtain ⟨b, hb⟩ := Option.isSome_iff_exists.1 hsome
    have hc := h.cursors
    have hw := h.written
    rw [hb, Option.getD_some] at hw
    have hlen : (Lib.slice b f.mReadOff (f.mNused - f.mReadOff)).length = f.mNused - f.mReadOff :=
      Lib.length_slice_of_le (by omega)
    have hfits : 0 + (Lib.slice b f.mReadOff (f.mNused - f.mReadOff)).length ≤ (Lib.blit b 0 _).length :=
      Lib.le_length_blit (Nat.zero_le _)
    have hblit : Lib.slice (Lib.blit b 0 (Lib.slice b f.mReadOff (f.mNused - f.mReadOff))) 0 _ = _ :=
      Lib.slice_blit le_rfl (Nat.zero_le _)
    refine ⟨⟨Nat.zero_le _, ?_⟩, ?_, by simp [hb]⟩
    · rw [hb, Option.map_some, Option.getD_some]
      rw [hlen, Nat.zero_add] at hfits
      exact hfits
    · rw [hlen, Nat.zero_add, Nat.sub_zero, Nat.sub_self, Lib.slice_zero_length, List.nil_append] at hblit
      simp only [unread, hb, Option.map_some, Option.getD_some, Nat.sub_zero]
      exact hblit
  · exact ⟨h, rfl, hsome⟩

/-- Storing a piece adds it to the bytes that are not handed out. -/
theorem store_spec (h : f.Buffered) (hsome : f.mReadBuff.isSome = true) (contents : List β) :
    (f.store contents).Buffered ∧ (f.store contents).unread = f.unread ++ contents ∧
      (f.store contents).mReadBuff.isSome = true := by
  obtain ⟨b, hb⟩ := Option.isSome_iff_exists.1 hsome
  have hc := h.cursors
  have hw := h.written
  rw [hb, Option.getD_some] at hw
  unfold store
  refine ⟨⟨Nat.le_add_right_of_le hc, ?_⟩, ?_, by simp [hb]⟩
  · rw [hb, Option.map_some, Option.getD_some]
    exact Lib.le_length_blit hw
  · simp only [unread, hb, Option.map_some, Option.getD_some]
    exact Lib.slice_blit hc hw

/-- The write callback takes the piece whole or not at all. -/
theorem writerCallback_spec (h : f.Buffered) (hsome : f.mReadBuff.isSome = true) (contents : List β) :
    (f.writerCallback contents).2.Buffered ∧
      (f.writerCallback contents).2.unread = f.unread ++ (if (f.writerCallback contents).1 then contents else []) ∧
      (f.writerCallback contents).2.mReadBuff.isSome = true := by
  obtain ⟨hb1, hu1, hs1⟩ := rewind_spec h
  rw [← hs1] at hsome
  unfold writerCallback
  dsimp only
  split
  · obtain ⟨hb2, hu2, hs2⟩ := shift_spec hb1 hsome
    split
    · refine ⟨⟨hb2.cursors, hb2.written⟩, ?_, hs2⟩
      simp only [Bool.false_eq_true, if_false, List.append_nil]
      exact hu2.trans hu1
    · obtain ⟨hb3, hu3, hs3⟩ := store_spec hb2 hs2 contents
      refine ⟨hb3, ?_, hs3⟩
      rw [hu3, hu2, hu1]
      rfl
  · obtain ⟨hb3, hu3, hs3⟩ := store_spec hb1 hsome contents
    refine ⟨hb3, ?_, hs3⟩
    rw [hu3, hu1]
    rfl

/-- What an offer of curl comes to: nothing, a piece taken, or a pause. -/
theorem offer_cases (h : f.Buffered) (hsome : f.mReadBuff.isSome = true) (m : Multi β) (e n : Nat) :
    f.offer m e n = (f, m) ∨
    ∃ t g, m.find? e = some t ∧ t.ended = false ∧ f.Rebuffered g ∧ g.Buffered ∧ g.mReadBuff.isSome = true ∧
      (t.rest.take n ≠ [] ∧ g.unread = f.unread ++ t.rest.take n ∧
          f.offer m e n = (g, { m.update e (fun t => { t with rest := t.rest.drop n }) with
            taken := m.taken ++ [⟨t.userp, t.status, t.rest.take n⟩] }) ∨
        g.unread = f.unread ∧ f.offer m e n = (g, m.update e (fun t => { t with paused := true }))) := by
  unfold offer
  cases ht : m.find? e with
  | none => exact Or.inl rfl
  | some t =>
    dsimp only
    split
    · exact Or.inl rfl
    · rename_i hgo
      simp only [not_or, Bool.not_eq_true, List.isEmpty_eq_false_iff] at hgo
      have hr := writerCallback_rebuffered f (t.rest.take n)
      obtain ⟨hb, hu, hs⟩ := writerCallback_spec h hsome (t.rest.take n)
      right
      refine ⟨t, (f.writerCallback (t.rest.take n)).2, rfl, hgo.2.1, hr, hb, hs, ?_⟩
      split
      · rename_i g hcall
        rw [hcall] at hu ⊢
        exact Or.inl ⟨hgo.2.2, hu, rfl⟩
      · rename_i g hcall
        rw [hcall] at hu ⊢
        refine Or.inr ⟨?_, rfl⟩
        rw [hu]
        exact List.append_nil _

/-! ## `start` -/

/-- The fetcher once `start` has seen to its buffer. -/
def primed (f : HTTPFetcher β) (env : StartEnv β) : HTTPFetcher β :=
  if f.mReadBuff.isNone then
    { f with mBuffSize := f.confBuffSize, mReadBuff := if env.malloc then some [] else none }
  else f

/-- With memory for it, there is a buffer. -/
theorem primed_isSome {env : StartEnv β} (h : f.mReadBuff.isSome = true ∨ env.malloc = true) :
    (f.primed env).mReadBuff.isSome = true := by
  unfold primed
  split
  · rename_i hnone
    rcases h with h | h
    · rw [← Option.not_isSome, h] at hnone
      cases hnone
    · simp [h]
  · rename_i hnone
    rw [← Option.not_isSome, Bool.not_eq_true, Bool.not_eq_false'] at hnone
    exact hnone

/-- Nothing else of a fetcher changes when its buffer is seen to. -/
theorem primed_same (f : HTTPFetcher β) (env : StartEnv β) :
    ∃ size buff, f.primed env = { f with mBuffSize := size, mReadBuff := buff } := by
  unfold primed
  split <;> exact ⟨_, _, rfl⟩

theorem primed_spec (h : f.Buffered) (env : StartEnv β) :
    (f.primed env).Buffered ∧ (f.primed env).unread = f.unread := by
  unfold primed
  split
  · rename_i hnone
    rw [Option.isNone_iff_eq_none] at hnone
    have hw := h.written
    have hc := h.cursors
    have hn : f.mNused = 0 := by
      rw [hnone] at hw
      exact Nat.le_zero.1 hw
    refine ⟨⟨hc, ?_⟩, ?_⟩
    · rw [show ({ f with mBuffSize := f.confBuffSize, mReadBuff := if env.malloc then some [] else none } :
        HTTPFetcher β).mNused = 0 from hn]
      exact Nat.zero_le _
    · simp [unread, hn]
  · exact ⟨h, rfl⟩

/-- `start` on a fetcher that has its buffer. -/
theorem start_of_buffer (hsome : f.mReadBuff.isSome = true) (env : StartEnv β) (m : Multi β) :
    (∃ e, f.start env m = ⟨.error e, f, m⟩) ∨
    (f.mState = .init ∨ f.mState = .failed) ∧ ∃ headers lines,
      ((∃ e, f.start env m = ⟨.error e, { f with mCurl := .easy m.fresh, mParent := true, mHeaders := headers },
          m.addHandle f.this (env.respond none)⟩) ∨
        (qsParseUrl f.mUrl).isOk = true ∧
        f.start env m = ⟨.ok (), { f with
            mCurl := .easy m.fresh, mParent := true, mHeaders := headers, mHttpHeaders := lines, mState := .running },
          (m.addHandle f.this (env.respond none)).setHeaders m.fresh (env.respond f.range)⟩) := by
  have hnone : f.mReadBuff.isNone = false := by
    rw [← Option.not_isSome, hsome]
    rfl
  unfold start
  simp only [hnone, Bool.false_eq_true, if_false, false_and]
  by_cases hstate : f.mState ≠ .init ∧ f.mState ≠ .failed
  · exact Or.inl ⟨_, if_pos hstate⟩
  · have hor : f.mState = .init ∨ f.mState = .failed := by
      by_contra hne
      exact hstate (not_or.1 hne)
    rw [if_neg hstate]
    by_cases hinit : env.easyInit = true
    · simp only [hinit, not_true_eq_false, if_false]
      right
      refine ⟨hor, ?_⟩
      have hrange : ({ f with mCurl := .easy m.fresh, mParent := true, mHeaders := headerContentAdd f.mHeaders .host f.mHost } :
          HTTPFetcher β).range = f.range := rfl
      rw [hrange]
      cases hr : f.range with
      | none | some r =>
        dsimp only
        cases hurl : qsParseUrl f.mUrl with
        | error e => exact ⟨_, none, Or.inl ⟨e, rfl⟩⟩
        | ok split =>
          dsimp only
          by_cases hsigns : env.signs = true
          · rw [if_neg (not_not.2 hsigns)]
            split
            · exact ⟨_, none, Or.inl ⟨_, rfl⟩⟩
            · exact ⟨_, _, Or.inr ⟨rfl, by rw [← hr]; rfl⟩⟩
          · rw [if_pos hsigns]
            exact ⟨_, none, Or.inl ⟨_, rfl⟩⟩
    · exact Or.inl ⟨_, if_pos hinit⟩

/-- With memory for its buffer a fetcher starts as if it had the buffer already. -/
theorem start_primed (f : HTTPFetcher β) {env : StartEnv β} (hok : f.mReadBuff.isSome = true ∨ env.malloc = true) (m : Multi β) :
    f.start env m = (f.primed env).start env m := by
  by_cases hnone : f.mReadBuff.isNone = true
  · have hmalloc : env.malloc = true := by
      rcases hok with h | h
      · rw [← Option.not_isSome, h] at hnone
        cases hnone
      · exact h
    simp [start, primed, hnone, hmalloc, range, resumeLen, resumeOffset]
  · rw [primed, if_neg hnone]

/-- With its buffer, a fetcher that is at rest or has failed gets past the tests of `start`. -/
theorem primed_goes {env : StartEnv β} (hbuff : f.mReadBuff.isSome = true ∨ env.malloc = true)
    (hstate : f.mState = .init ∨ f.mState = .failed) :
    (f.primed env).mReadBuff.isNone = false ∧ ¬ ((f.primed env).mState ≠ .init ∧ (f.primed env).mState ≠ .failed) := by
  obtain ⟨size, buff, hsame⟩ := f.primed_same env
  constructor
  · rw [← Option.not_isSome, primed_isSome hbuff]
    rfl
  · rw [hsame]
    rintro ⟨h1, h2⟩
    exact hstate.elim h1 h2

/-- A fetcher without a handle is destroyed without a call. -/
theorem destroy_of_null (h : f.mCurl = .null) (m : Multi β) : f.destroy m = m := by
  unfold destroy cleanup
  rw [if_pos h]

/-- What `start` comes to. It may throw before it has a handle, throw with a handle registered, or set the request up. -/
theorem start_cases (f : HTTPFetcher β) (env : StartEnv β) (m : Multi β) :
    (∃ e, f.start env m = ⟨.error e, f.primed env, m⟩) ∨
    (f.mReadBuff.isSome = true ∨ env.malloc = true) ∧ (f.mState = .init ∨ f.mState = .failed) ∧ ∃ headers lines,
      ((∃ e, f.start env m = ⟨.error e, { f.primed env with mCurl := .easy m.fresh, mParent := true, mHeaders := headers },
          m.addHandle f.this (env.respond none)⟩) ∨
        (qsParseUrl f.mUrl).isOk = true ∧
        f.start env m = ⟨.ok (), { f.primed env with
            mCurl := .easy m.fresh, mParent := true, mHeaders := headers, mHttpHeaders := lines, mState := .running },
          (m.addHandle f.this (env.respond none)).setHeaders m.fresh (env.respond f.range)⟩) := by
  by_cases hok : f.mReadBuff.isSome = true ∨ env.malloc = true
  · have hsome := primed_isSome hok
    rw [start_primed f hok]
    obtain ⟨size, buff, hsame⟩ := f.primed_same env
    rw [hsame] at hsome ⊢
    rcases start_of_buffer hsome env m with h | ⟨h, hreq⟩
    · exact Or.inl h
    · exact Or.inr ⟨hok, h, hreq⟩
  · have hnone : f.mReadBuff.isNone = true ∧ env.malloc = false := by
      rw [not_or, Bool.not_eq_true, Bool.not_eq_true] at hok
      exact ⟨by rw [← Option.not_isSome, hok.1]; rfl, hok.2⟩
    left
    refine ⟨throwing .outOfMemoryException "could not allocate enough memory for HTTPFetcher read buff", ?_⟩
    simp [start, primed, hnone.1, hnone.2]
    exact (Option.isNone_iff_eq_none.1 hnone.1)

/-- A start goes well when memory, a handle and a signature are to be had and the URL can be split. -/
theorem start_ok {env : StartEnv β} (hbuff : f.mReadBuff.isSome = true ∨ env.malloc = true)
    (hstate : f.mState = .init ∨ f.mState = .failed) (hinit : env.easyInit = true) (hsigns : env.signs = true)
    (hurl : (qsParseUrl f.mUrl).isOk = true) (m : Multi β) : (f.start env m).result = .ok () := by
  obtain ⟨split, hsplit⟩ := isOk_iff.1 hurl
  rw [start_primed f hbuff]
  obtain ⟨size, buff, hsame⟩ := f.primed_same env
  obtain ⟨hnone, hnot⟩ := primed_goes hbuff hstate
  replace hsplit : qsParseUrl (f.primed env).mUrl = .ok split := by
    rw [hsame]
    exact hsplit
  generalize f.primed env = g at hsplit hnone hnot
  unfold start
  simp only [hnone, Bool.false_eq_true, if_false, false_and, if_neg hnot, hinit, not_true_eq_false, hsigns]
  have hrange : ({ g with mCurl := .easy m.fresh, mParent := true, mHeaders := headerContentAdd g.mHeaders .host g.mHost } :
      HTTPFetcher β).range = g.range := rfl
  rw [hrange]
  cases g.range with
  | none | some r =>
    dsimp only
    rw [hsplit]
    dsimp only
    split
    · rename_i e he
      obtain ⟨headers, hheaders⟩ := signature_ok env.signer _ (signedResource g.mBucket split.1 split.2) g.mCred
        (show QSRequestType.getData ≠ .none from fun h => by cases h)
        (show QSRequestType.getData.uploads = true → (none : Option MemoryData).isSome = true from fun h => by cases h)
      rw [hheaders] at he
      cases he
    · rfl

/-- A start that went well: the request is set up, and the fetcher runs with the bytes it had. -/
theorem start_of_ok (hb : f.Buffered) {env : StartEnv β} {m : Multi β} (hok : (f.start env m).result = .ok ()) :
    (f.start env m).multi = (m.addHandle f.this (env.respond none)).setHeaders m.fresh (env.respond f.range) ∧
      ∃ g, (f.start env m).fetcher = g ∧ g.mState = .running ∧ g.mCurl = .easy m.fresh ∧ g.mParent = true ∧
        g.unread = f.unread ∧ g.this = f.this ∧ g.mUrl = f.mUrl ∧ g.mOffset = f.mOffset ∧ g.mLen = f.mLen ∧
        g.mBytesDone = f.mBytesDone := by
  obtain ⟨size, buff, hprimed⟩ := f.primed_same env
  have hu := (primed_spec hb env).2
  rcases f.start_cases env m with ⟨e, he⟩ | ⟨_, _, headers, lines, ⟨e, he⟩ | ⟨_, he⟩⟩
  · rw [he] at hok
    cases hok
  · rw [he] at hok
    cases hok
  · rw [he]
    refine ⟨rfl, _, rfl, rfl, rfl, rfl, hu, ?_⟩
    rw [hprimed]
    exact ⟨rfl, rfl, rfl, rfl, rfl⟩

/-! ## `get` and `handleResult` -/

/-- Handing out takes from the front of the bytes that are not handed out, as many as the caller has room for. -/
theorem handOut_spec (h : f.Buffered) (bufflen : Nat) :
    ∃ bs, f.handOut bufflen = (.bytes bs, { f with
        mReadOff := f.mReadOff + bs.length, mBytesDone := f.mBytesDone + bs.length }) ∧
      bs.length = min (f.mNused - f.mReadOff) bufflen ∧
      f.unread = bs ++ (f.handOut bufflen).2.unread ∧ (f.handOut bufflen).2.Buffered := by
  have hc := h.cursors
  have hw := h.written
  have hlen : (Lib.slice (f.mReadBuff.getD []) f.mReadOff (min (f.mNused - f.mReadOff) bufflen)).length =
      min (f.mNused - f.mReadOff) bufflen := Lib.length_slice_of_le (by omega)
  refine ⟨Lib.slice (f.mReadBuff.getD []) f.mReadOff (min (f.mNused - f.mReadOff) bufflen), ?_, hlen, ?_, ?_⟩
  · rw [hlen]
    rfl
  · unfold unread handOut
    dsimp only
    rw [← Nat.sub_sub, Lib.slice_append_slice]
    congr 1
    omega
  · unfold handOut
    exact ⟨by dsimp only; omega, hw⟩

/-- A fetcher that gave its handle up. -/
def closed (f : HTTPFetcher β) (state : FetcherState) (failures : Nat) : HTTPFetcher β :=
  { f with mHttpHeaders := none, mCurl := .null, mParent := false, mState := state, mNFailures := failures }

/-- A transfer's end either throws, or closes the fetcher as failed or done; done it is for status 200 and 206 only. -/
theorem handleResult_cases {h : Nat} (hcurl : f.mCurl = .easy h) (res : CURLcode) (respcode : Nat) (m : Multi β) :
    (∃ e calls, res = .ok ∧ respcode = 0 ∧ f.handleResult res respcode m = ⟨.error e, f, { m with calls := calls }⟩) ∨
    ∃ state failures m', f.handleResult res respcode m = ⟨.ok (), f.closed state failures, m'⟩ ∧
      (state = .failed ∨ state = .done ∧ res = .ok ∧ AcceptedStatus respcode) ∧
      m'.fresh = m.fresh ∧ m'.taken = m.taken ∧
      m'.transfers = if f.mParent then m.transfers.filter (fun t => t.easy ≠ h) else m.transfers := by
  have hne : f.mCurl ≠ .null := by
    rw [hcurl]
    exact CurlPtr.noConfusion
  have hclose : ∀ m : Multi β, (f.cleanup m).1 = { f with mHttpHeaders := none, mCurl := .null, mParent := false } ∧
      (f.cleanup m).2.fresh = m.fresh ∧ (f.cleanup m).2.taken = m.taken ∧
      (f.cleanup m).2.transfers = if f.mParent then m.transfers.filter (fun t => t.easy ≠ h) else m.transfers := by
    intro m
    unfold cleanup
    rw [if_neg hne]
    cases hp : f.mParent with
    | true =>
      refine ⟨rfl, rfl, rfl, ?_⟩
      rw [if_pos rfl, if_pos rfl, hcurl]
      rfl
    | false =>
      refine ⟨?_, rfl, rfl, rfl⟩
      rw [if_neg Bool.false_ne_true, ← hp]
  have hfail : ∀ m : Multi β, f.fail m = (f.closed .failed (f.mNFailures + 1), (f.cleanup m).2) := by
    intro m
    rw [fail, (hclose m).1]
    rfl
  have hdone : ∀ m : Multi β, f.done m = (f.closed .done f.mNFailures, (f.cleanup m).2) := by
    intro m
    rw [done, (hclose m).1]
    rfl
  unfold handleResult
  rw [if_neg hne]
  cases res with
  | failure c =>
    right
    exact ⟨.failed, _, _, by rw [hfail], Or.inl rfl, (hclose m).2⟩
  | ok =>
    dsimp only
    split
    · rename_i hzero
      exact Or.inl ⟨_, _, rfl, hzero, rfl⟩
    · right
      split
      · exact ⟨.failed, _, _, by rw [hfail], Or.inl rfl, (hclose { m with calls := m.calls ++ [.easyGetinfo f.mCurl] }).2⟩
      · rename_i hcode
        refine ⟨.done, _, _, by rw [hdone], Or.inr ⟨rfl, rfl, ?_⟩, (hclose { m with calls := m.calls ++ [.easyGetinfo f.mCurl] }).2⟩
        unfold AcceptedStatus
        omega

end HTTPFetcher

end QingStor
