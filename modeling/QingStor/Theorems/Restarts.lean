import QingStor.Lemmas.Restarts

/-!
# How often a chunk that fails is restarted

`fail` counts the failures of a fetcher, and nothing reads the count. So a reader that can start its fetchers at all restarts a
chunk that keeps failing as often as the server likes, within one call of `read`.
-/

namespace QingStor

variable {β : Type*}

/-- The operations of calls of `read`, each with the length of its buffer and its rounds. -/
def readOps (reads : List (Nat × List (Round β))) : List (PipelineOp β) := reads.map (fun c => .read c.1 c.2)

/-- There is a bound on the restarts of one fetcher in a call of `read`, whatever calls came before, when no attempt of the fetcher
brings a byte or ends well. -/
def DownloadPipeline.RestartsBounded (p : DownloadPipeline β) : Prop :=
  ∃ bound, ∀ (reads : List (Nat × List (Round β))) (n : Nat) (rounds : List (Round β)) (u : Nat),
    (∀ t ∈ p.runTurns (readOps reads ++ [.read n rounds]), t.Fruitless u) →
      (((readOps reads).foldl PipelineOp.run p).turns n rounds).countP (·.restarts u) ≤ bound

namespace RestartsAux

open DownloadPipeline

variable {p : DownloadPipeline β}

/-- What each turn keeps holds after any calls of `read`, and at each turn of the next one. -/
theorem reads_keep {I : DownloadPipeline β → Prop} (hturn : ∀ t : ReadTurn β, I t.before → I t.after) (h : I p)
    (reads : List (Nat × List (Round β))) : I ((readOps reads).foldl PipelineOp.run p) := by
  induction reads generalizing p with
  | nil => exact h
  | cons c reads ih =>
    exact ih (turns_keep (C := fun _ => True) (fun t ht _ => hturn t ht) c.1 c.2 h (fun _ _ => trivial)).1

/-! ## Readers that start nothing -/

/-- Without connections no turn comes to a restart. -/
theorem turn_of_no_connections {t : ReadTurn β} (h : t.before.mActiveFetchers = [] ∧ t.before.mNConnections ≤ 0) :
    t.beforeRestart = none ∧ t.after.mActiveFetchers = [] ∧ t.after.mNConnections ≤ 0 := by
  have hl : t.before.Launched := by
    right
    rw [h.1]
    exact h.2
  have hlaunch := hl.launch t.round.launch
  have hlaunched : t.launched = t.before := by rw [ReadTurn.launched, hlaunch]
  have hfront : t.launched.getFront t.bufflen t.round.resume = none := by
    unfold getFront
    rw [hlaunched, h.1]
  cases t.course with
  | thrown _ he =>
    rw [hlaunch] at he
    cases he
  | empty _ _ hnone _ hafter =>
    rw [hafter, hlaunched]
    exact ⟨hnone, h⟩
  | leaves _ _ hsome | bytes _ _ _ hsome | waits _ _ _ hsome =>
    rw [hfront] at hsome
    cases hsome

theorem bounded_of_no_connections (hactive : p.mActiveFetchers = []) (hn : p.mNConnections ≤ 0) : p.RestartsBounded := by
  refine ⟨0, fun reads n rounds u _ => ?_⟩
  have hI := reads_keep (I := fun q => q.mActiveFetchers = [] ∧ q.mNConnections ≤ 0) (fun t ht => (turn_of_no_connections ht).2)
    ⟨hactive, hn⟩ reads
  have hturns := (turns_keep (I := fun q => q.mActiveFetchers = [] ∧ q.mNConnections ≤ 0) (C := fun _ => True)
    (fun t ht _ => (turn_of_no_connections ht).2) n rounds hI (fun _ _ => trivial)).2
  rw [Nat.le_zero, List.countP_eq_zero]
  intro t ht hrestarts
  unfold ReadTurn.restarts at hrestarts
  rw [(turn_of_no_connections (hturns t ht)).1] at hrestarts
  cases hrestarts

/-- A fetcher whose URL cannot be split is not started. -/
theorem restart_error {f : HTTPFetcher β} {rest : List (HTTPFetcher β)} (ha : p.mActiveFetchers = f :: rest)
    (hfailed : f.mState = .failed) (hurl : ¬ (qsParseUrl f.mUrl).isOk = true) (env : StartEnv β) :
    ∃ e, (p.restart env).result = .error e := by
  unfold restart
  rw [ha]
  dsimp only
  rw [if_pos hfailed]
  rcases f.start_cases env p.mCurlMHandle with ⟨e, he⟩ | ⟨_, _, headers, lines, ⟨e, he⟩ | ⟨hok, _⟩⟩
  · exact ⟨e, by rw [he]⟩
  · exact ⟨e, by rw [he]⟩
  · exact (hurl hok).elim

/-- The fetchers of a pipeline are at different addresses and are all for one URL. -/
def OneUrl (url : Str) (p : DownloadPipeline β) : Prop := p.Distinct ∧ ∀ f ∈ p.fetchers, f.mUrl = url

theorem oneUrl_step {E : StartEnv β → Prop} {url : Str} {p' : DownloadPipeline β} {r : Except Fault Unit} (h : OneUrl url p)
    (hs : Step E p r p') : OneUrl url p' := by
  refine ⟨hs.distinct h.1, hs.fetchers_keep (P := fun f => f.mUrl = url) ?_ ?_ ?_ h.2⟩
  · rintro f g ⟨_, _, _, _, _, rfl⟩ hf
    exact hf
  · intro f _ _ _ _ _ hf
    exact hf
  · intro f env m hf
    obtain ⟨size, buff, hsame⟩ := f.primed_same env
    rcases f.start_cases env m with ⟨e, he⟩ | ⟨_, _, headers, lines, ⟨e, he⟩ | ⟨_, he⟩⟩ <;>
    · rw [he, hsame]
      exact hf

theorem oneUrl_turn {url : Str} {t : ReadTurn β} (h : OneUrl url t.before) : OneUrl url t.after := by
  refine readTurn_keeps (E := fun _ => True) (fun _ h => h.1) (fun _ _ _ h hs => oneUrl_step h hs) ?_ t.bufflen (fun _ => trivial)
    trivial h
  rintro q n bs q' ⟨hd, hurl⟩ ⟨f, rest, ha, _, _, rfl⟩
  have hf := fetchers_front ha
  refine ⟨?_, ?_⟩
  · unfold Distinct at hd ⊢
    rw [hf] at hd
    exact hd
  · intro k hk
    rw [hf] at hurl
    rcases List.mem_cons.1 hk with rfl | hk
    · exact hurl f (List.mem_cons_self ..)
    · exact hurl k (List.mem_cons_of_mem _ hk)

/-- If the URL cannot be split, a turn that restarts its front fetcher throws. -/
theorem thrown_of_restarts {url : Str} (hbad : ¬ (qsParseUrl url).isOk = true) {t : ReadTurn β} (h : OneUrl url t.before) {u : Nat}
    (hrestarts : t.restarts u = true) : ∃ e, t.result = .thrown e := by
  unfold ReadTurn.restarts at hrestarts
  cases t.course with
  | thrown _ _ hnone | empty _ _ hnone | leaves _ _ _ hnone | bytes _ _ _ _ _ hnone =>
    rw [hnone] at hrestarts
    cases hrestarts
  | waits got q _ hfront _ hnone hq hres _ =>
    rw [hq] at hrestarts
    dsimp only at hrestarts
    cases ha : q.mActiveFetchers with
    | nil =>
      rw [ha] at hrestarts
      cases hrestarts
    | cons f rest =>
      rw [ha, List.head?_cons, Option.any_some, decide_eq_true_eq] at hrestarts
      have hlaunched : OneUrl url t.launched := by
        refine (launchFrom_run (E := fun _ => True) (fun _ => trivial) t.before.mPendingFetchers 0 rfl).1.keeps ?_ h
        exact fun _ _ _ h hs => oneUrl_step h hs
      have hurl : OneUrl url q :=
        (getFront_nothing (E := fun _ => True) hfront hnone).keeps (fun _ _ _ h hs => oneUrl_step h hs) hlaunched
      have hf := hurl.2 f (active_subset_fetchers (by rw [ha]; exact List.mem_cons_self ..))
      obtain ⟨e, he⟩ := restart_error ha hrestarts.2 (by rw [hf]; exact hbad) t.round.restart
      refine ⟨e, ?_⟩
      rw [hres]
      unfold waitMore
      rw [he]

/-- If only the last turn of a call can restart, a call has at most one restart. -/
theorem countP_le_one {n : Nat} {u : Nat} (rounds : List (Round β))
    (h : ∀ t ∈ p.turns n rounds, t.restarts u = true → ∃ e, t.result = .thrown e) :
    (p.turns n rounds).countP (·.restarts u) ≤ 1 := by
  induction rounds generalizing p with
  | nil => exact Nat.zero_le _
  | cons r rounds ih =>
    have hfirst := h ⟨p, n, r⟩ (List.mem_cons_self ..)
    cases hres : (ReadTurn.mk p n r).result with
    | again =>
      rw [turns_again hres] at h ⊢
      rw [List.countP_cons, if_neg]
      · exact ih (fun t ht => h t (List.mem_cons_of_mem _ ht))
      · intro hrestarts
        obtain ⟨e, he⟩ := hfirst hrestarts
        rw [hres] at he
        cases he
    | bytes _ | eof | thrown _ =>
      rw [turns_ended (by rw [hres]; exact fun h => by cases h)]
      exact List.countP_le_length

theorem bounded_of_url {url : Str} (hbad : ¬ (qsParseUrl url).isOk = true) (h : OneUrl url p) : p.RestartsBounded := by
  refine ⟨1, fun reads n rounds u _ => countP_le_one rounds (fun t ht => ?_)⟩
  have hI := reads_keep (I := OneUrl url) (fun t ht => oneUrl_turn ht) h reads
  obtain ⟨-, hturns⟩ :=
    turns_keep (I := OneUrl url) (C := fun _ => True) (fun t ht _ => oneUrl_turn ht) n rounds hI (fun _ _ => trivial)
  exact thrown_of_restarts hbad (hturns t ht)

/-! ## The reader -/

/-- What the constructor of a reader leaves: fetchers for one URL, all pending, and a multi handle without a transfer. -/
structure Fresh (cfg : Configuration) (url : Str) (p : DownloadPipeline β) : Prop where
  active : p.mActiveFetchers = []
  connections : p.mNConnections = cfg.mNConnections
  multi : p.mCurlMHandle = .empty
  pending : ∀ f ∈ p.mPendingFetchers, f.mState = .init ∧ f.mNused - f.mReadOff = 0 ∧ f.mPaused = false ∧ f.mUrl = url
  tidy : p.Tidy

theorem fresh_addChunks {cfg : Configuration} {bucket : Str} {object : ObjectInfo} (chunks : List (Int × Int))
    (h : Fresh cfg (cfg.objectUrl bucket object.key) p) :
    Fresh cfg (cfg.objectUrl bucket object.key) (addChunks cfg bucket object p chunks) := by
  unfold addChunks
  induction chunks generalizing p with
  | nil => exact h
  | cons c chunks ih =>
    refine ih ⟨h.active, h.connections, h.multi, ?_, h.tidy.add ..⟩
    intro f hf
    rcases List.mem_append.1 hf with hf | hf
    · exact h.pending f hf
    · rw [List.mem_singleton.1 hf]
      exact ⟨rfl, rfl, rfl, rfl⟩

/-- The constructor adds at least one fetcher. -/
theorem fresh_of_setup {cfg : Configuration} {bucket : Str} {object : ObjectInfo} {fuel : Nat}
    (hp : setupPipeline cfg bucket object fuel = some (.ok p)) :
    Fresh cfg (cfg.objectUrl bucket object.key) p ∧ p.mPendingFetchers ≠ [] := by
  unfold setupPipeline at hp
  rw [Option.map_eq_some_iff] at hp
  obtain ⟨r, hr, hp⟩ := hp
  cases r with
  | error f => cases hp
  | ok chunks =>
    obtain rfl := Except.ok.inj hp
    refine ⟨fresh_addChunks chunks ⟨rfl, rfl, rfl, fun _ hf => (by cases hf), tidy_make _⟩, ?_⟩
    have hne : chunks ≠ [] := by
      cases fuel with
      | zero => cases hr
      | succ fuel =>
        obtain ⟨len, _, _, _, ⟨_, rfl⟩ | ⟨_, rest, rfl, _⟩⟩ := chunkLoop_succ_ok hr <;> exact List.cons_ne_nil _ _
    intro hnil
    have hlen := congrArg List.length (pending_addChunks cfg bucket object chunks (.make (β := β) cfg.mNConnections))
    rw [hnil] at hlen
    simp only [DownloadPipeline.make, List.length_append, List.length_map, List.length_nil] at hlen
    exact hne (List.length_eq_zero_iff.1 (by omega))

/-- With a connection and a URL that can be split there is no bound. -/
theorem not_bounded {cfg : Configuration} {url : Str} (h : Fresh cfg url p) (hsome : p.mPendingFetchers ≠ [])
    (hn : 0 < cfg.mNConnections) (hurl : (qsParseUrl url).isOk = true) : ¬ p.RestartsBounded := by
  rintro ⟨bound, hbound⟩
  obtain ⟨g, pending, hp⟩ := List.exists_cons_of_ne_nil hsome
  obtain ⟨rounds, hfruitless, hcount⟩ := restarts_unbounded h.active (by rw [h.connections]; exact hn) hp
    (fun k hk => by
      obtain ⟨hinit, hempty, hunpaused, heq⟩ := h.pending k hk
      exact ⟨hinit, hempty, hunpaused, by rw [heq]; exact hurl⟩)
    (by rw [h.multi]; exact fun _ ht => by cases ht) (by rw [h.multi]; rfl) 1 (bound + 1)
  have hle := hbound [] 1 rounds g.this (fun t ht => hfruitless t (by simpa [readOps, runTurns, PipelineOp.turns] using ht))
  exact Nat.not_succ_le_self _ (hcount.trans hle)

end RestartsAux

/-- The restarts of a chunk that keeps failing are bounded exactly if nothing can be started: there is no connection, or the URL of
the object cannot be split. -/
theorem restarts_bounded_iff (cfg : Configuration) (bucket : Str) (object : ObjectInfo) (fuel : Nat) {p : DownloadPipeline β}
    (hp : setupPipeline cfg bucket object fuel = some (.ok p)) :
    p.RestartsBounded ↔ cfg.mNConnections ≤ 0 ∨ ¬ (qsParseUrl (cfg.objectUrl bucket object.key)).isOk = true := by
  obtain ⟨hfresh, hsome⟩ := RestartsAux.fresh_of_setup hp
  constructor
  · intro h
    by_contra hno
    rw [not_or, not_not] at hno
    exact RestartsAux.not_bounded hfresh hsome (by omega) hno.2 h
  · rintro (hn | hbad)
    · exact RestartsAux.bounded_of_no_connections hfresh.active (by rw [hfresh.connections]; exact hn)
    · refine RestartsAux.bounded_of_url hbad ⟨hfresh.tidy.distinct, fun f hf => ?_⟩
      rw [DownloadPipeline.fetchers, hfresh.active] at hf
      exact (hfresh.pending f hf).2.2.2

/-- A configuration without connections, and an object of four bytes. -/
def Sample.unconnected : Configuration := { Configuration.ofArguments (lit "pek3a") (lit "id") (lit "secret") 4 with mNConnections := 0 }

def Sample.object : ObjectInfo := ⟨lit "k", 4, ⟨0, 3⟩⟩

theorem restarts_bounded_unconnected : ∃ p : DownloadPipeline Byte,
    setupPipeline Sample.unconnected (lit "b") Sample.object 1 = some (.ok p) ∧ p.RestartsBounded :=
  ⟨_, rfl, (restarts_bounded_iff Sample.unconnected (lit "b") Sample.object 1 rfl).2 (Or.inl (by decide))⟩

/-- With the default configuration a chunk that keeps failing is restarted without limit. -/
theorem restarts_bounded_false : ¬ ∀ (cfg : Configuration) (bucket : Str) (object : ObjectInfo) (fuel : Nat)
    (p : DownloadPipeline Byte), setupPipeline cfg bucket object fuel = some (.ok p) → p.RestartsBounded := by
  intro h
  have hp : ∃ p : DownloadPipeline Byte,
      setupPipeline (.ofArguments (lit "pek3a") (lit "id") (lit "secret") 4) (lit "b") Sample.object 1 = some (.ok p) := ⟨_, rfl⟩
  obtain ⟨p, hp⟩ := hp
  obtain ⟨hfresh, hsome⟩ := RestartsAux.fresh_of_setup hp
  exact RestartsAux.not_bounded hfresh hsome (by decide) (by decide +kernel) (h _ _ _ _ p hp)

end QingStor
