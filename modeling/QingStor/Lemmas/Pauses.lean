import QingStor.Lemmas.FetcherRun
import QingStor.Lemmas.Turns
import QingStor.Lemmas.Download

/-!
# Pauses

The buffer of a fetcher holds any piece curl may offer, so a piece is refused only while bytes are unread. Curl has a transfer
paused only while the fetcher knows it, and so takes the pause off in its next `get` that finds nothing.
-/

namespace QingStor

variable {β : Type*}

/-- The sizes curl may offer pieces of. -/
def SmallPieces (ns : List Nat) : Prop := ∀ n ∈ ns, (n : Int) ≤ curlMaxWriteSize

/-- The buffer of a fetcher, once it is there, has room for the largest piece, and a fetcher with a handle has its buffer. -/
structure HTTPFetcher.Able (f : HTTPFetcher β) : Prop where
  roomy : f.Roomy
  ample : f.mReadBuff.isSome = true → curlMaxWriteSize ≤ f.mBuffSize
  held : ∀ h, f.mCurl = .easy h → f.mReadBuff.isSome = true

/-- There are bytes to hand out, or there is no pause to take off. -/
def HTTPFetcher.Settled (f : HTTPFetcher β) : Prop := f.unread ≠ [] ∨ f.mPaused = false

namespace HTTPFetcher

variable {f g : HTTPFetcher β}

/-! ## The write callback -/

/-- The callback pauses only with unread bytes. -/
theorem Able.unread_of_pause (h : f.Able) (hsome : f.mReadBuff.isSome = true) {contents : List β}
    (hsmall : (contents.length : Int) ≤ curlMaxWriteSize) (hpause : (f.writerCallback contents).1 = false) : f.unread ≠ [] := by
  intro hnil
  have hzero := (unread_eq_nil_iff h.roomy.buffered).1 hnil
  have hcursors := h.roomy.buffered.cursors
  have hroom := h.ample hsome
  have heq : f.mNused = f.mReadOff := by omega
  have hfits : ¬ contents.length > f.mBuffSize - 0 := by omega
  have hrewind : f.rewind = { f with mNused := 0, mReadOff := 0 } := if_pos heq
  unfold writerCallback at hpause
  dsimp only at hpause
  rw [hrewind, if_neg hfits] at hpause
  cases hpause

/-- A fetcher is paused by the callback only. -/
theorem writerCallback_mPaused (f : HTTPFetcher β) (contents : List β) :
    (f.writerCallback contents).2.mPaused = (f.mPaused || !(f.writerCallback contents).1) := by
  unfold writerCallback rewind shift store
  dsimp only
  split_ifs <;> simp

/-- An offer changes the cursors and the bytes of a buffer, not its size. -/
theorem Able.offer (h : f.Able) (hsome : f.mReadBuff.isSome = true) (m : Multi β) (e n : Nat) :
    (f.offer m e n).1.Able ∧ (f.offer m e n).1.mReadBuff.isSome = true := by
  obtain ⟨hr, hs, _⟩ := h.roomy.offer hsome m e n
  obtain ⟨_, _, _, _, hsame⟩ := f.offer_rebuffered m e n
  refine ⟨⟨hr, fun _ => ?_, fun _ _ => hs⟩, hs⟩
  rw [hsame]
  exact h.ample hsome

/-- An offer leaves a fetcher settled: the piece is there to be handed out, or it paused for the bytes that are. -/
theorem Settled.offer (hs : f.Settled) (h : f.Able) (hsome : f.mReadBuff.isSome = true) (m : Multi β) (e : Nat) {n : Nat}
    (hsmall : (n : Int) ≤ curlMaxWriteSize) : (f.offer m e n).1.Settled := by
  by_cases hnil : f.unread = []
  · have hopen : f.mPaused = false := hs.resolve_left (not_not.2 hnil)
    unfold HTTPFetcher.offer
    cases ht : m.find? e with
    | none => exact hs
    | some t =>
      dsimp only
      split
      · exact hs
      · rename_i hgo
        simp only [not_or, Bool.not_eq_true, List.isEmpty_eq_false_iff] at hgo
        obtain ⟨_, hu, _⟩ := h.roomy.write hsome (t.rest.take n)
        have hlen : ((t.rest.take n).length : Int) ≤ curlMaxWriteSize := by
          rw [List.length_take]
          omega
        split
        · rename_i g hcall
          rw [hcall, hnil] at hu
          left
          rw [hu]
          simpa using hgo.2.2
        · rename_i g hcall
          exact (h.unread_of_pause hsome hlen (by rw [hcall]) hnil).elim
  · obtain ⟨_, _, pieces, _, hu⟩ := h.roomy.offer hsome m e n
    left
    rw [hu]
    intro happ
    exact hnil (List.append_eq_nil_iff.1 happ).1

/-! ## `get` -/

/-- All that curl delivers at one unpausing. -/
theorem Settled.offers (hs : f.Settled) (h : f.Able) (hsome : f.mReadBuff.isSome = true) (m : Multi β) (e : Nat)
    {ns : List Nat} (hsmall : SmallPieces ns) :
    (ns.foldl (fun s n => s.1.offer s.2 e n) (f, m)).1.Settled ∧
      (ns.foldl (fun s n => s.1.offer s.2 e n) (f, m)).1.Able := by
  induction ns generalizing f m with
  | nil => exact ⟨hs, h⟩
  | cons n ns ih =>
    obtain ⟨hable, hsome'⟩ := h.offer hsome m e n
    have hsettled := hs.offer h hsome m e (hsmall n (List.mem_cons_self ..))
    exact ih hsettled hable hsome' (f.offer m e n).2 (fun k hk => hsmall k (List.mem_cons_of_mem _ hk))

/-- Unpausing settles a fetcher. -/
theorem Able.unpause (h : f.Able) (m : Multi β) {ns : List Nat} (hsmall : SmallPieces ns) :
    (f.unpause m ns).1.Settled ∧ (f.unpause m ns).1.Able := by
  have hopen : ({ f with mPaused := false } : HTTPFetcher β).Able :=
    ⟨⟨⟨h.roomy.buffered.cursors, h.roomy.buffered.written⟩, h.roomy.used, fun hp => by cases hp⟩, h.ample, h.held⟩
  have hsettled : ({ f with mPaused := false } : HTTPFetcher β).Settled := Or.inr rfl
  unfold HTTPFetcher.unpause
  cases hcurl : f.mCurl with
  | easy e =>
    rw [hcurl] at hopen hsettled
    exact hsettled.offers hopen (h.held e hcurl) (m.easyPause (.easy e)) e hsmall
  | null | indeterminate =>
    rw [hcurl] at hopen hsettled
    exact ⟨hsettled, hopen⟩

/-- A settled fetcher with an empty buffer is not paused. -/
theorem Settled.not_paused (hs : f.Settled) (hb : f.Buffered) (hempty : ¬ f.mNused - f.mReadOff > 0) : ¬ f.mPaused = true := by
  have hnil : f.unread = [] := (unread_eq_nil_iff hb).2 (Nat.eq_zero_of_not_pos hempty)
  rw [hs.resolve_left (not_not.2 hnil)]
  exact Bool.false_ne_true

/-- `get` on a settled fetcher hands out, or has nothing to hand out; it takes no pause off. -/
theorem Settled.get (hs : f.Settled) (hb : f.Buffered) (n : Nat) (resumes : List (List Nat)) (m : Multi β) :
    f.get n resumes m = if f.mNused - f.mReadOff > 0 then ((f.handOut n).1, (f.handOut n).2, m) else (f.drained, f, m) := by
  cases resumes <;>
  · unfold HTTPFetcher.get
    split
    · rfl
    · rename_i hempty
      rw [if_neg (hs.not_paused hb hempty)]

/-- ... and so does its loop. -/
theorem Settled.retry (hs : f.Settled) (hb : f.Buffered) (n : Nat) (deliver : Nat → List Nat) (fuel i : Nat) (m : Multi β) :
    f.retry n deliver (fuel + 1) i m = some (f.get n [] m) := by
  rw [hs.get hb]
  unfold HTTPFetcher.retry
  split
  · rfl
  · rename_i hempty
    rw [if_neg (hs.not_paused hb hempty)]

/-- The loop of `get` ends after at most one unpausing. -/
theorem Able.retry (h : f.Able) (n : Nat) {deliver : Nat → List Nat}
    (hsmall : ∀ i, SmallPieces (deliver i)) (m : Multi β) :
    f.retry n deliver 2 0 m = some (f.get n [deliver 0] m) := by
  unfold HTTPFetcher.retry HTTPFetcher.get
  split
  · rfl
  · split
    · obtain ⟨hsettled, hable⟩ := h.unpause m (hsmall 0)
      exact hsettled.retry hable.roomy.buffered n deliver 0 1 _
    · rfl

/-- When a settled fetcher gives nothing and is not at its end, its buffer is empty and it is not paused. -/
theorem Settled.nothing (hs : f.Settled) (hb : f.Buffered) {n : Nat} (hn : 0 < n) {resumes : List (List Nat)} {m : Multi β}
    (hgiven : (f.get n resumes m).1.given = []) :
    (f.get n resumes m).2.1.unread = [] ∧ (f.get n resumes m).2.1.mPaused = false := by
  rw [hs.get hb] at hgiven ⊢
  split at hgiven
  · rename_i havail
    obtain ⟨bs, hbs, hlen, _⟩ := handOut_spec hb n
    rw [hbs] at hgiven
    rw [show bs = [] from hgiven, List.length_nil] at hlen
    omega
  · rename_i hempty
    rw [if_neg hempty]
    exact ⟨(unread_eq_nil_iff hb).2 (Nat.eq_zero_of_not_pos hempty), by simpa using hs.not_paused hb hempty⟩

/-- When `get` gives nothing and is not at the end, the buffer is empty and the fetcher is not paused. -/
theorem Able.nothing (h : f.Able) {n : Nat} (hn : 0 < n) {resumes : List (List Nat)}
    (hsmall : ∀ ns ∈ resumes, SmallPieces ns) {m : Multi β}
    (hgiven : (f.get n resumes m).1.given = []) :
    (f.get n resumes m).2.1.unread = [] ∧ (f.get n resumes m).2.1.mPaused = false := by
  by_cases hs : f.Settled
  · exact hs.nothing h.roomy.buffered hn hgiven
  · obtain ⟨hnil, hpaused⟩ : f.unread = [] ∧ f.mPaused = true := by
      unfold Settled at hs
      simpa using hs
    have hempty : ¬ f.mNused - f.mReadOff > 0 := by
      rw [(unread_eq_nil_iff h.roomy.buffered).1 hnil]
      exact Nat.lt_irrefl 0
    cases resumes with
    | nil =>
      unfold HTTPFetcher.get
      rw [if_neg hempty, if_pos hpaused]
      unfold HTTPFetcher.unpause
      cases f.mCurl <;> exact ⟨hnil, rfl⟩
    | cons ns resumes =>
      obtain ⟨hsettled, hable⟩ := h.unpause m (hsmall ns (List.mem_cons_self ..))
      unfold HTTPFetcher.get at hgiven ⊢
      rw [if_neg hempty, if_pos hpaused] at hgiven ⊢
      exact hsettled.nothing hable.roomy.buffered hn hgiven

/-! ## The calls of a run -/

/-- Without a buffer there is nothing to hand out and no pause. -/
theorem Able.settled_of_none (h : f.Able) (hnone : f.mReadBuff.isSome = false) : f.Settled := by
  right
  by_contra hp
  rw [h.roomy.paused (by simpa using hp)] at hnone
  cases hnone

/-- A fetcher that gets its buffer gets one with room for the largest piece. -/
theorem Able.primed (h : f.Able) (env : StartEnv β) : (f.primed env).Able := by
  have hsize : curlMaxWriteSize ≤ f.confBuffSize := by
    unfold confBuffSize
    split <;> omega
  refine ⟨h.roomy.primed env, ?_, ?_⟩
  · unfold HTTPFetcher.primed
    split
    · exact fun _ => hsize
    · exact h.ample
  · intro e he
    obtain ⟨_, _, hsame⟩ := f.primed_same env
    rw [hsame] at he
    exact primed_isSome (Or.inl (h.held e he))

theorem Able.start (h : f.Able) (env : StartEnv β) (m : Multi β) : (f.start env m).fetcher.Able := by
  have hp := h.primed env
  rcases f.start_cases env m with ⟨e, he⟩ | ⟨hbuff, _, headers, lines, ⟨e, he⟩ | ⟨_, he⟩⟩
  · rw [he]
    exact hp
  all_goals
    rw [he]
    exact ⟨⟨⟨hp.roomy.buffered.cursors, hp.roomy.buffered.written⟩, hp.roomy.used, hp.roomy.paused⟩, hp.ample,
      fun _ _ => primed_isSome hbuff⟩

/-- A fetcher without a buffer stays as it is in `get`. -/
theorem Able.get (h : f.Able) (n : Nat) (resumes : List (List Nat)) (m : Multi β) : (f.get n resumes m).2.1.Able := by
  have hg := h.roomy.gets n resumes m
  cases hbuff : f.mReadBuff.isSome with
  | true =>
    obtain ⟨_, _, _, _, _, hsame⟩ := hg.moved
    have hs := hg.buff hbuff
    refine ⟨hg.roomy, fun _ => ?_, fun _ _ => hs⟩
    rw [hsame]
    exact h.ample hbuff
  | false =>
    have hempty : ¬ f.mNused - f.mReadOff > 0 := by
      have hw := h.roomy.buffered.written
      rw [Option.isSome_eq_false_iff, Option.isNone_iff_eq_none] at hbuff
      rw [hbuff] at hw
      have hzero : f.mNused = 0 := Nat.le_zero.1 hw
      omega
    rw [(h.settled_of_none hbuff).get h.roomy.buffered, if_neg hempty]
    exact h

/-- The end of a transfer leaves the buffer as it is, and leaves no new handle. -/
theorem Able.handleResult (h : f.Able) (res : CURLcode) (respcode : Nat) (m : Multi β) :
    (f.handleResult res respcode m).fetcher.Able := by
  obtain ⟨state, curl, parent, lines, failures, hsame⟩ := f.handleResult_same res respcode m
  have hcurl : ∀ e, (f.handleResult res respcode m).fetcher.mCurl = .easy e → f.mCurl = .easy e := by
    intro e he
    rcases f.handleResult_state res respcode m with ⟨heq, _⟩ | ⟨_, hnull, _⟩ | ⟨_, hnull, _⟩
    · rw [heq] at he
      exact he
    all_goals
      rw [hnull] at he
      cases he
  refine ⟨?_, ?_, fun e he => ?_⟩
  · rw [hsame]
    exact ⟨⟨h.roomy.buffered.cursors, h.roomy.buffered.written⟩, h.roomy.used, h.roomy.paused⟩
  · rw [hsame]
    exact h.ample
  · have hbuff := h.held e (hcurl e he)
    rw [hsame]
    exact hbuff

/-- Every call leaves a fetcher able. -/
theorem Able.run {s : FetcherRun β} (h : s.fetcher.Able) (op : FetcherOp β) : (op.run s).fetcher.Able := by
  cases op with
  | start env m => exact h.start env m
  | write contents =>
    rw [FetcherOp.run_write]
    split
    · rename_i hsome
      obtain ⟨hr, _, hs⟩ := h.roomy.write hsome contents
      obtain ⟨_, _, _, _, hsame⟩ := s.fetcher.writerCallback_rebuffered contents
      refine ⟨hr, fun _ => ?_, fun _ _ => hs⟩
      dsimp only
      rw [hsame]
      exact h.ample hsome
    · exact h
  | get n resumes m => exact h.get n resumes m
  | handleResult res respcode m => exact h.handleResult res respcode m

theorem able_make (this : Nat) (url host bucket : Str) (cred : QSCredential) (buffsize offset len : Int) :
    (make this url host bucket cred buffsize offset len : HTTPFetcher β).Able := by
  refine ⟨(FetcherRun.sound_make this url host bucket cred buffsize offset len).roomy, ?_, ?_⟩
  · intro hsome
    cases hsome
  · intro e he
    cases he

/-- A fetcher is able after any calls. -/
theorem Able.after (h : f.Able) (ops : List (FetcherOp β)) : (f.after ops).fetcher.Able := by
  refine Lib.foldl_keeps (P := fun s : FetcherRun β => s.fetcher.Able) h ?_ ops (List.prefix_refl ops)
  intro _ op _ hs
  exact hs.run op

end HTTPFetcher

/-! ## The transfers of a pipeline -/

namespace DownloadPipeline

variable {E : StartEnv β → Prop} {p p' : DownloadPipeline β} {r : Except Fault Unit}

/-- Curl has a transfer paused only while its fetcher knows. -/
structure Synced (p : DownloadPipeline β) : Prop where
  tidy : p.Tidy
  able : ∀ f ∈ p.fetchers, f.Able
  known : ∀ f ∈ p.fetchers, ∀ h, f.mCurl = .easy h → h < p.mCurlMHandle.fresh
  own : ∀ f ∈ p.fetchers, ∀ t ∈ p.mCurlMHandle.transfers, f.mCurl = .easy t.easy → t.userp = f.this
  paused : ∀ f ∈ p.fetchers, ∀ t ∈ p.mCurlMHandle.transfers, f.mCurl = .easy t.easy → t.paused = true → f.mPaused = true

/-- A step that changes one fetcher and its transfer. -/
theorem Synced.replace (h : Synced p) (htidy : p'.Tidy) {pre post : List (HTTPFetcher β)} {f g : HTTPFetcher β}
    (hf : p.fetchers = pre ++ f :: post) (hf' : p'.fetchers = pre ++ g :: post) (hthis : g.this = f.this) (hable : g.Able)
    (hfresh : p.mCurlMHandle.fresh ≤ p'.mCurlMHandle.fresh) (hknown : ∀ e, g.mCurl = .easy e → e < p'.mCurlMHandle.fresh)
    (hown : ∀ t ∈ p'.mCurlMHandle.transfers, g.mCurl = .easy t.easy → t.userp = g.this)
    (hpaused : ∀ t ∈ p'.mCurlMHandle.transfers, g.mCurl = .easy t.easy → t.paused = true → g.mPaused = true)
    (hothers : ∀ t' ∈ p'.mCurlMHandle.transfers, t'.easy = p.mCurlMHandle.fresh ∨
      ∃ t ∈ p.mCurlMHandle.transfers, t.easy = t'.easy ∧ t.userp = t'.userp ∧
        (t'.paused = true → t.paused = true ∨ ∃ o ∈ p.mCurlMHandle.transfers, o.easy = t'.easy ∧ o.userp = f.this)) :
    Synced p' := by
  have hg : g ∈ p'.fetchers := by
    rw [hf']
    exact List.mem_append_right _ (List.mem_cons_self ..)
  have hmem : ∀ k ∈ p'.fetchers, k = g ∨ k ∈ p.fetchers ∧ k.this ≠ f.this := by
    intro k hk
    by_cases hkt : k.this = g.this
    · exact Or.inl (eq_of_this htidy.distinct hg hk hkt)
    · rcases mem_changed hf hf' hk with rfl | hk'
      · exact (hkt rfl).elim
      · exact Or.inr ⟨hk', hthis ▸ hkt⟩
  refine ⟨htidy, ?_, ?_, ?_, ?_⟩
  · intro k hk
    rcases hmem k hk with rfl | ⟨hk, _⟩
    · exact hable
    · exact h.able k hk
  · intro k hk e he
    rcases hmem k hk with rfl | ⟨hk, _⟩
    · exact hknown e he
    · exact (h.known k hk e he).trans_le hfresh
  · intro k hk t' ht' he
    rcases hmem k hk with rfl | ⟨hk, _⟩
    · exact hown t' ht' he
    · rcases hothers t' ht' with hnew | ⟨t, ht, heasy, hu, _⟩
      · exact absurd (h.known k hk _ he) (by rw [hnew]; exact Nat.lt_irrefl _)
      · rw [← hu]
        exact h.own k hk t ht (by rw [heasy]; exact he)
  · intro k hk t' ht' he hp
    rcases hmem k hk with rfl | ⟨hk, hne⟩
    · exact hpaused t' ht' he hp
    · rcases hothers t' ht' with hnew | ⟨t, ht, heasy, _, hor⟩
      · exact absurd (h.known k hk _ he) (by rw [hnew]; exact Nat.lt_irrefl _)
      · rcases hor hp with htp | ⟨o, ho, hoe, hou⟩
        · exact h.paused k hk t ht (by rw [heasy]; exact he) htp
        · have howner := h.own k hk o ho (by rw [hoe]; exact he)
          exact (hne (howner.symm.trans hou)).elim

/-- A step that changes no fetcher, and perhaps removes one, pauses nothing. -/
theorem Synced.fewer (h : Synced p) (htidy : p'.Tidy) (hf : ∀ k ∈ p'.fetchers, k ∈ p.fetchers)
    (hfresh : p'.mCurlMHandle.fresh = p.mCurlMHandle.fresh)
    (hm : ∀ t' ∈ p'.mCurlMHandle.transfers, ∃ t ∈ p.mCurlMHandle.transfers, t.easy = t'.easy ∧ t.userp = t'.userp ∧
      t.paused = t'.paused) : Synced p' := by
  refine ⟨htidy, ?_, ?_, ?_, ?_⟩
  · exact fun k hk => h.able k (hf k hk)
  · intro k hk e he
    rw [hfresh]
    exact h.known k (hf k hk) e he
  · intro k hk t' ht' he
    obtain ⟨t, ht, heasy, hu, _⟩ := hm t' ht'
    rw [← hu]
    exact h.own k (hf k hk) t ht (by rw [heasy]; exact he)
  · intro k hk t' ht' he hp
    obtain ⟨t, ht, heasy, _, hpause⟩ := hm t' ht'
    exact h.paused k (hf k hk) t ht (by rw [heasy]; exact he) (by rw [hpause]; exact hp)

/-- The start of a fetcher. Its new transfer is not paused. -/
theorem Synced.start (h : Synced p) (htidy : p'.Tidy) {pre post : List (HTTPFetcher β)} {f : HTTPFetcher β} {env : StartEnv β}
    (hf : p.fetchers = pre ++ f :: post) (hf' : p'.fetchers = pre ++ (f.start env p.mCurlMHandle).fetcher :: post)
    (hm : p'.mCurlMHandle = (f.start env p.mCurlMHandle).multi) : Synced p' := by
  have hmem : f ∈ p.fetchers := by
    rw [hf]
    exact List.mem_append_right _ (List.mem_cons_self ..)
  have hable := (h.able f hmem).start env p.mCurlMHandle
  have hbelow : ∀ t ∈ p.mCurlMHandle.transfers, t.easy < p.mCurlMHandle.fresh := fun t ht => (h.tidy.userp t ht).2
  obtain ⟨size, buff, hprimed⟩ := f.primed_same env
  have hnew : ∀ {g : HTTPFetcher β} {resp : Response β}, p'.fetchers = pre ++ g :: post → g.this = f.this → g.Able →
      g.mCurl = .easy p.mCurlMHandle.fresh → p'.mCurlMHandle.fresh = p.mCurlMHandle.fresh + 1 →
      p'.mCurlMHandle.transfers = p.mCurlMHandle.transfers ++
        [⟨p.mCurlMHandle.fresh, f.this, resp.status, resp.body, resp.res, false, false⟩] → Synced p' := by
    intro g resp hg hthis hga hcurl hfresh htr
    have hmine : ∀ t ∈ p'.mCurlMHandle.transfers, g.mCurl = .easy t.easy →
        t = ⟨p.mCurlMHandle.fresh, f.this, resp.status, resp.body, resp.res, false, false⟩ := by
      intro t ht he
      rw [htr] at ht
      rw [hcurl] at he
      rcases List.mem_append.1 ht with ht | ht
      · have hlt := hbelow t ht
        rw [← CurlPtr.easy.inj he] at hlt
        exact absurd hlt (Nat.lt_irrefl _)
      · exact List.mem_singleton.1 ht
    refine h.replace htidy hf hg hthis hga (by omega) ?_ ?_ ?_ ?_
    · intro e he
      rw [hcurl] at he
      rw [← CurlPtr.easy.inj he, hfresh]
      exact Nat.lt_succ_self _
    · intro t ht he
      rw [hmine t ht he, hthis]
    · intro t ht he hp
      rw [hmine t ht he] at hp
      cases hp
    · intro t' ht'
      rw [htr] at ht'
      rcases List.mem_append.1 ht' with ht | ht
      · exact Or.inr ⟨t', ht, rfl, rfl, fun hp => Or.inl hp⟩
      · rw [List.mem_singleton.1 ht]
        exact Or.inl rfl
  rcases f.start_cases env p.mCurlMHandle with ⟨e, he⟩ | ⟨_, _, headers, lines, ⟨e, he⟩ | ⟨_, he⟩⟩
  · rw [he] at hf' hm hable
    rw [hprimed] at hf' hable
    refine h.replace htidy hf hf' rfl hable (by rw [hm]) ?_ ?_ ?_ ?_
    · intro e he
      rw [hm]
      exact h.known f hmem e he
    · rw [hm]
      exact h.own f hmem
    · rw [hm]
      exact h.paused f hmem
    · rw [hm]
      exact fun t ht => Or.inr ⟨t, ht, rfl, rfl, fun hp => Or.inl hp⟩
  · rw [he] at hf' hm hable
    exact hnew hf' (by rw [hprimed]) hable rfl (by rw [hm]; rfl) (by rw [hm]; rfl)
  · rw [he] at hf' hm hable
    exact hnew hf' (by rw [hprimed]) hable rfl (by rw [hm]; rfl) (by rw [hm]; exact started_transfers hbelow _ _ _)

/-- An offer pauses a transfer only together with the fetcher it goes to. -/
theorem offer_pauses (f : HTTPFetcher β) (m : Multi β) (e n : Nat) :
    (f.mPaused = true → (f.offer m e n).1.mPaused = true) ∧ (f.offer m e n).2.fresh = m.fresh ∧
      ∀ t' ∈ (f.offer m e n).2.transfers, ∃ t ∈ m.transfers, t.easy = t'.easy ∧ t.userp = t'.userp ∧
        (t'.paused = true → t.paused = true ∨ t'.easy = e ∧ (f.offer m e n).1.mPaused = true) := by
  have hstay : (f.mPaused = true → f.mPaused = true) ∧ m.fresh = m.fresh ∧
      ∀ t' ∈ m.transfers, ∃ t ∈ m.transfers, t.easy = t'.easy ∧ t.userp = t'.userp ∧
        (t'.paused = true → t.paused = true ∨ t'.easy = e ∧ f.mPaused = true) :=
    ⟨id, rfl, fun t ht => ⟨t, ht, rfl, rfl, fun hp => Or.inl hp⟩⟩
  unfold HTTPFetcher.offer
  cases ht : m.find? e with
  | none => exact hstay
  | some t =>
    dsimp only
    split
    · exact hstay
    · have hpaused := f.writerCallback_mPaused (t.rest.take n)
      split
      · rename_i g hcall
        rw [hcall] at hpaused
        refine ⟨fun hp => by rw [hpaused, hp]; rfl, rfl, fun t' ht' => ?_⟩
        obtain ⟨t₀, ht₀, rfl⟩ := List.mem_map.1 ht'
        refine ⟨t₀, ht₀, ?_⟩
        split <;> exact ⟨rfl, rfl, fun hp => Or.inl hp⟩
      · rename_i g hcall
        rw [hcall] at hpaused
        have hg : g.mPaused = true := by simpa using hpaused
        refine ⟨fun _ => hg, rfl, fun t' ht' => ?_⟩
        obtain ⟨t₀, ht₀, rfl⟩ := List.mem_map.1 ht'
        refine ⟨t₀, ht₀, ?_⟩
        split
        · rename_i he
          exact ⟨rfl, rfl, fun _ => Or.inr ⟨he, hg⟩⟩
        · exact ⟨rfl, rfl, fun hp => Or.inl hp⟩

/-- An offer to the fetcher of a transfer. -/
theorem Synced.offer (h : Synced p) {pre post : List (HTTPFetcher β)} {f : HTTPFetcher β} {e n : Nat}
    (ha : p.mActiveFetchers = pre ++ f :: post)
    (hreach : f.mCurl = .easy e ∨ ∃ t, p.mCurlMHandle.find? e = some t ∧ t.userp = f.this)
    (htidy : ({ p with
      mActiveFetchers := pre ++ (f.offer p.mCurlMHandle e n).1 :: post
      mCurlMHandle := (f.offer p.mCurlMHandle e n).2 } : DownloadPipeline β).Tidy) :
    Synced { p with
      mActiveFetchers := pre ++ (f.offer p.mCurlMHandle e n).1 :: post
      mCurlMHandle := (f.offer p.mCurlMHandle e n).2 } := by
  have hf : p.fetchers = pre ++ f :: (post ++ p.mPendingFetchers) := fetchers_split ha
  have hmem : f ∈ p.fetchers := by
    rw [hf]
    exact List.mem_append_right _ (List.mem_cons_self ..)
  obtain ⟨hkeep, hfresh, hm⟩ := offer_pauses f p.mCurlMHandle e n
  obtain ⟨hable, _⟩ := (h.able f hmem).offer (h.tidy.reached hmem hreach) p.mCurlMHandle e n
  obtain ⟨hthis, hcurl⟩ : (f.offer p.mCurlMHandle e n).1.this = f.this ∧ (f.offer p.mCurlMHandle e n).1.mCurl = f.mCurl := by
    obtain ⟨_, _, _, _, hsame⟩ := f.offer_rebuffered p.mCurlMHandle e n
    rw [hsame]
    exact ⟨rfl, rfl⟩
  refine h.replace (f := f) (g := (f.offer p.mCurlMHandle e n).1) htidy hf (by simp [fetchers]) hthis hable hfresh.ge ?_ ?_ ?_ ?_
  · intro k hk
    rw [hcurl] at hk
    rw [hfresh]
    exact h.known f hmem k hk
  · intro t' ht' he
    obtain ⟨t, ht, heasy, hu, _⟩ := hm t' ht'
    rw [hcurl, ← heasy] at he
    rw [hthis, ← hu]
    exact h.own f hmem t ht he
  · intro t' ht' he hp
    obtain ⟨t, ht, heasy, _, hor⟩ := hm t' ht'
    rw [hcurl, ← heasy] at he
    rcases hor hp with htp | ⟨_, hg⟩
    · exact hkeep (h.paused f hmem t ht he htp)
    · exact hg
  · intro t' ht'
    obtain ⟨t, ht, heasy, hu, hor⟩ := hm t' ht'
    refine Or.inr ⟨t, ht, heasy, hu, fun hp => ?_⟩
    rcases hor hp with htp | ⟨he, _⟩
    · exact Or.inl htp
    · right
      rcases hreach with hcurl | ⟨o, ho, hou⟩
      · refine ⟨t, ht, heasy, h.own f hmem t ht ?_⟩
        rw [hcurl, heasy, he]
      · obtain ⟨hmo, hoe⟩ := Multi.mem_of_find? ho
        exact ⟨o, hmo, hoe.trans he.symm, hou⟩

/-- The end of a transfer pauses nothing. -/
theorem ended_same {m : Multi β} {e : Nat} :
    ∀ t' ∈ (m.update e (fun t => { t with ended := true })).transfers, ∃ t ∈ m.transfers, t.easy = t'.easy ∧ t.userp = t'.userp ∧
      t.paused = t'.paused := by
  intro t' ht'
  obtain ⟨t, ht, rfl⟩ := List.mem_map.1 ht'
  refine ⟨t, ht, ?_⟩
  split <;> exact ⟨rfl, rfl, rfl⟩

/-- Unpausing the front fetcher takes the pause off its transfer, too. -/
theorem Synced.resume (h : Synced p) {f : HTTPFetcher β} {rest : List (HTTPFetcher β)} (ha : p.mActiveFetchers = f :: rest)
    (htidy : ({ p with mActiveFetchers := { f with mPaused := false } :: rest, mCurlMHandle := p.mCurlMHandle.easyPause f.mCurl } :
      DownloadPipeline β).Tidy) :
    Synced { p with mActiveFetchers := { f with mPaused := false } :: rest, mCurlMHandle := p.mCurlMHandle.easyPause f.mCurl } := by
  have hf : p.fetchers = [] ++ f :: (rest ++ p.mPendingFetchers) := fetchers_split ha
  have hmem : f ∈ p.fetchers := active_subset_fetchers (by rw [ha]; exact List.mem_cons_self ..)
  have hable := h.able f hmem
  have hopen : ({ f with mPaused := false } : HTTPFetcher β).Able :=
    ⟨⟨⟨hable.roomy.buffered.cursors, hable.roomy.buffered.written⟩, hable.roomy.used, fun hp => by cases hp⟩, hable.ample,
      hable.held⟩
  have hm : ∀ t' ∈ (p.mCurlMHandle.easyPause f.mCurl).transfers, ∃ t ∈ p.mCurlMHandle.transfers, t.easy = t'.easy ∧
      t.userp = t'.userp ∧ (t'.paused = true → t.paused = true ∧ f.mCurl ≠ .easy t'.easy) := by
    intro t' ht'
    unfold Multi.easyPause at ht'
    cases hcurl : f.mCurl with
    | easy e =>
      rw [hcurl] at ht'
      obtain ⟨t, ht, rfl⟩ := List.mem_map.1 ht'
      refine ⟨t, ht, ?_⟩
      split
      · exact ⟨rfl, rfl, fun hp => by cases hp⟩
      · rename_i hne
        exact ⟨rfl, rfl, fun hp => ⟨hp, fun he => hne (CurlPtr.easy.inj he).symm⟩⟩
    | null | indeterminate =>
      rw [hcurl] at ht'
      exact ⟨t', ht', rfl, rfl, fun hp => ⟨hp, fun he => by cases he⟩⟩
  have hfresh : (p.mCurlMHandle.easyPause f.mCurl).fresh = p.mCurlMHandle.fresh := by
    unfold Multi.easyPause
    cases f.mCurl <;> rfl
  refine h.replace (g := { f with mPaused := false }) htidy hf (by simp [fetchers]) rfl hopen hfresh.ge ?_ ?_ ?_ ?_
  · intro e he
    rw [hfresh]
    exact h.known f hmem e he
  · intro t' ht' he
    obtain ⟨t, ht, heasy, hu, _⟩ := hm t' ht'
    rw [← hu]
    exact h.own f hmem t ht (by rw [heasy]; exact he)
  · intro t' ht' he hp
    obtain ⟨t, _, _, _, hor⟩ := hm t' ht'
    exact ((hor hp).2 he).elim
  · intro t' ht'
    obtain ⟨t, ht, heasy, hu, hor⟩ := hm t' ht'
    exact Or.inr ⟨t, ht, heasy, hu, fun hp => Or.inl (hor hp).1⟩

/-- The end of a transfer leaves its fetcher without a handle, or as it is. -/
theorem Synced.finish (h : Synced p) {pre post : List (HTTPFetcher β)} {f : HTTPFetcher β} {e : Nat} {res : CURLcode}
    {respcode : Nat} {s : FetcherStep β} (ha : p.mActiveFetchers = pre ++ f :: post) (hcurl : f.mCurl = .easy e)
    (hs : s = f.handleResult res respcode (p.mCurlMHandle.update e (fun t => { t with ended := true })))
    (htidy : ({ p with mActiveFetchers := pre ++ s.fetcher :: post, mCurlMHandle := s.multi } : DownloadPipeline β).Tidy) :
    Synced { p with mActiveFetchers := pre ++ s.fetcher :: post, mCurlMHandle := s.multi } := by
  have hf : p.fetchers = pre ++ f :: (post ++ p.mPendingFetchers) := fetchers_split ha
  have hmem : f ∈ p.fetchers := active_subset_fetchers (by rw [ha]; exact List.mem_append_right _ (List.mem_cons_self ..))
  have hable := (h.able f hmem).handleResult res respcode (p.mCurlMHandle.update e (fun t => { t with ended := true }))
  rcases HTTPFetcher.handleResult_cases hcurl res respcode (p.mCurlMHandle.update e (fun t => { t with ended := true })) with
    ⟨err, calls, _, _, heq⟩ | ⟨state, failures, m', heq, _, hfresh, _, htr⟩
  · rw [hs, heq] at htidy ⊢
    refine h.fewer htidy ?_ rfl ended_same
    intro k hk
    rw [fetchers, ha]
    exact hk
  · rw [hs, heq] at htidy ⊢
    rw [heq] at hable
    refine h.replace (g := f.closed state failures) htidy hf (by simp [fetchers]) rfl hable hfresh.ge ?_ ?_ ?_ ?_
    · intro k hk
      cases hk
    · intro t _ he
      cases he
    · intro t _ he
      cases he
    · intro t' ht'
      have ht' : t' ∈ (p.mCurlMHandle.update e (fun t => { t with ended := true })).transfers := by
        dsimp only at ht'
        rw [htr] at ht'
        split at ht'
        · exact (List.mem_filter.1 ht').1
        · exact ht'
      obtain ⟨t, ht, heasy, hu, hpause⟩ := ended_same t' ht'
      exact Or.inr ⟨t, ht, heasy, hu, fun hp => Or.inl (by rw [hpause]; exact hp)⟩

/-- Every step keeps the pauses in step. -/
theorem Synced.step (h : Synced p) (hs : Step E p r p') : Synced p' := by
  have htidy := hs.tidy h.tidy
  cases hs with
  | @launch f pending env hp _ =>
    have hf : p.fetchers = p.mActiveFetchers ++ f :: pending := by
      rw [fetchers, hp]
    exact h.start htidy hf (by simp [fetchers]) rfl
  | @restart f rest env ha _ _ =>
    have hf : p.fetchers = [] ++ f :: (rest ++ p.mPendingFetchers) := fetchers_split ha
    exact h.start htidy hf (by simp [fetchers]) rfl
  | offer ha hreach => exact h.offer ha hreach htidy
  | resume ha => exact h.resume ha htidy
  | @idle f rest n ha hnil =>
    have hmem : f ∈ p.fetchers := active_subset_fetchers (by rw [ha]; exact List.mem_cons_self ..)
    obtain ⟨bs, heq, _⟩ := HTTPFetcher.handOut_spec (h.tidy.buffered f hmem) n
    have hbs : bs = [] := by
      rw [heq] at hnil
      exact Got.bytes.inj hnil
    rw [heq, hbs] at htidy ⊢
    refine h.fewer htidy ?_ rfl (fun t ht => ⟨t, ht, rfl, rfl, rfl⟩)
    intro k hk
    rw [fetchers, ha]
    simpa [fetchers] using hk
  | @pop f rest ha _ _ =>
    obtain ⟨hsub, hfresh, _⟩ := Multi.cleanup_subset f p.mCurlMHandle
    refine h.fewer htidy ?_ hfresh (fun t ht => ⟨t, hsub ht, rfl, rfl, rfl⟩)
    intro k hk
    rw [fetchers_front ha]
    exact List.mem_cons_of_mem _ hk
  | finish _ ha hcurl => exact h.finish ha hcurl rfl htidy
  | stray _ _ => exact h.fewer htidy (fun k hk => hk) rfl ended_same
  | dangle _ _ => exact h.fewer htidy (fun k hk => hk) rfl (fun t ht => ⟨t, ht, rfl, rfl, rfl⟩)

theorem Synced.steps (h : Synced p) (hrun : Lib.Run (Step E) p r p') : Synced p' :=
  hrun.keeps (fun _ _ _ hq hs => Synced.step hq hs) h

/-- Handing out moves a cursor. -/
theorem Synced.handsOut (h : Synced p) {n : Nat} {bs : List β} (ho : p.HandsOut n bs p') : Synced p' := by
  have htidy := ho.tidy h.tidy
  obtain ⟨f, rest, ha, _, hbs, rfl⟩ := ho
  have hf : p.fetchers = [] ++ f :: (rest ++ p.mPendingFetchers) := fetchers_split ha
  have hmem : f ∈ p.fetchers := active_subset_fetchers (by rw [ha]; exact List.mem_cons_self ..)
  have hable : (f.handOut n).2.Able := by
    obtain ⟨_, heq, _, _, hb⟩ := HTTPFetcher.handOut_spec (h.able f hmem).roomy.buffered n
    have hf0 := h.able f hmem
    rw [heq] at hb ⊢
    exact ⟨⟨hb, hf0.roomy.used, hf0.roomy.paused⟩, hf0.ample, hf0.held⟩
  exact h.replace (g := (f.handOut n).2) htidy hf (by simp [fetchers]) rfl hable le_rfl (h.known f hmem) (h.own f hmem)
    (h.paused f hmem) (fun t ht => Or.inr ⟨t, ht, rfl, rfl, fun hp => Or.inl hp⟩)

/-- A fetcher that is added has no handle. -/
theorem Synced.add (h : Synced p) (url host bucket : Str) (cred : QSCredential) (buffsize offset len : Int) :
    Synced ((PipelineOp.add url host bucket cred buffsize offset len).run p) := by
  have hmem : ∀ k ∈ ((PipelineOp.add url host bucket cred buffsize offset len).run p).fetchers,
      k ∈ p.fetchers ∨ k = .make p.created url host bucket cred buffsize offset len := by
    intro k hk
    unfold PipelineOp.run at hk
    rw [fetchers_add] at hk
    simpa using hk
  refine ⟨h.tidy.add url host bucket cred buffsize offset len, ?_, ?_, ?_, ?_⟩
  · intro k hk
    rcases hmem k hk with hk | rfl
    · exact h.able k hk
    · exact HTTPFetcher.able_make ..
  · intro k hk e he
    rcases hmem k hk with hk | rfl
    · exact h.known k hk e he
    · cases he
  · intro k hk t ht he
    rcases hmem k hk with hk | rfl
    · exact h.own k hk t ht he
    · cases he
  · intro k hk t ht he
    rcases hmem k hk with hk | rfl
    · exact h.paused k hk t ht he
    · cases he

theorem synced_make (nconnections : Int) : Synced (DownloadPipeline.make (β := β) nconnections) := by
  refine ⟨tidy_make nconnections, ?_, ?_, ?_, ?_⟩ <;>
  · intro f hf
    cases hf

/-- The launch of a turn, and the whole turn. -/
theorem Synced.launched {t : ReadTurn β} (h : Synced t.before) : Synced t.launched :=
  h.steps (launchFrom_run (E := fun _ => True) (fun _ => trivial) t.before.mPendingFetchers 0 rfl).1

theorem Synced.turn {t : ReadTurn β} (h : Synced t.before) : Synced t.after :=
  readTurn_keeps (E := fun _ => True) (fun _ h => h.tidy.distinct) (fun _ _ _ h hs => Synced.step h hs)
    (fun _ _ _ _ h ho => Synced.handsOut h ho) t.bufflen (fun _ => trivial) trivial h

/-- At each turn of a run the pauses are in step. -/
theorem runTurns_synced (nconnections : Int) (ops : List (PipelineOp β)) :
    ∀ t ∈ runTurns (.make nconnections) ops, Synced t.before :=
  (runTurns_keep (C := fun _ => True) (fun _ h _ => Synced.turn h) (fun _ url host bucket cred buffsize offset len h =>
    h.add url host bucket cred buffsize offset len) ops (synced_make nconnections) (fun _ _ => trivial)).2

end DownloadPipeline

end QingStor
