import QingStor.Lemmas.Opened
import QingStor.Lemmas.Served
import QingStor.Theorems.Download

/-!
# A download finishes

However often transfers pause, stall and fail: when curl gets the front fetcher's transfer on in all turns that wait but some, the calls
of a download return, and the last of them reports the end of the whole range.
-/

namespace QingStor

variable {β : Type*}

namespace ReadTurn

variable {content whole : List β} {t : ReadTurn β}

theorem launched_runs (h : t.before.Runs content whole) (hsize : content.length ≤ 2 ^ 62) (hr : t.round.Honest content) :
    t.launched.Runs content whole :=
  (h.steps hsize (DownloadPipeline.launchFrom_run hr.launch t.before.mPendingFetchers 0 rfl).1).1

/-- A front fetcher that is ready is so after the launch. -/
theorem launched_ready (hready : t.before.ready = true) : t.launched.ready = true := by
  cases ha : t.before.mActiveFetchers with
  | nil =>
    unfold DownloadPipeline.ready at hready
    rw [ha] at hready
    cases hready
  | cons f rest =>
    obtain ⟨rest', ha'⟩ := DownloadPipeline.launchFrom_front t.round.launch 0 t.before.mPendingFetchers ha
    rw [DownloadPipeline.ready_iff ha] at hready
    exact (DownloadPipeline.ready_iff (p := t.launched) ha').2 hready

/-- The steps of a turn add no fetcher. -/
theorem fetchers_le {E : StartEnv β → Prop} {p p' : DownloadPipeline β} {r : Except Fault Unit}
    (hrun : Lib.Run (DownloadPipeline.Step E) p r p') : p'.fetchers.length ≤ p.fetchers.length := by
  have hsuffix : (p'.fetchers.map (·.this)) <:+ (p.fetchers.map (·.this)) :=
    hrun.keeps (I := fun q => q.fetchers.map (·.this) <:+ p.fetchers.map (·.this))
      (fun _ _ _ hq hs => hs.fetchers_suffix.trans hq) (List.suffix_refl _)
  simpa using hsuffix.length_le

/-- A turn that goes on leaves the download in order. -/
theorem again (h : t.before.Runs content whole) (hsize : content.length ≤ 2 ^ 62) (hr : t.round.Honest content)
    (hres : t.result = .again) : t.after.Runs content whole ∧ t.after.fetchers.length ≤ t.before.fetchers.length := by
  have hrun : Lib.Run (DownloadPipeline.Step (StartEnv.Honest content)) t.before (.ok ()) t.after := by
    rcases DownloadPipeline.readTurn_cases h.distinct t.bufflen hr.launch hr.restart with
      ⟨e, he, _⟩ | ⟨he, _⟩ | ⟨_, hrun⟩ | ⟨bs, p', he, _⟩
    · cases (show t.result = .thrown e from he).symm.trans hres
    · cases (show t.result = .eof from he).symm.trans hres
    · exact hrun
    · cases (show t.result = .bytes bs from he).symm.trans hres
  exact ⟨(h.steps hsize hrun).1, fetchers_le hrun⟩

/-- A turn in which the front fetcher leaves has one fetcher less after it. -/
theorem leaves {q : DownloadPipeline β} (hr : t.round.Honest content)
    (hfront : t.launched.getFront t.bufflen t.round.resume = some (.eof, q)) :
    q.popFront.fetchers.length + 1 ≤ t.before.fetchers.length := by
  have hle : t.launched.fetchers.length ≤ t.before.fetchers.length :=
    fetchers_le (DownloadPipeline.launchFrom_run hr.launch t.before.mPendingFetchers 0 rfl).1
  unfold DownloadPipeline.getFront at hfront
  cases ha : t.launched.mActiveFetchers with
  | nil =>
    rw [ha] at hfront
    cases hfront
  | cons f rest =>
    rw [ha] at hfront
    obtain ⟨_, rfl⟩ := Prod.mk.inj (Option.some.inj hfront)
    rw [DownloadPipeline.fetchers_front ha, List.length_cons] at hle
    exact hle

/-- Where a turn comes to the line of the restart, the front fetcher had nothing to hand out, and after the restart it waits for
curl. -/
theorem waits (h : t.before.Runs content whole) (hsize : content.length ≤ 2 ^ 62) (hr : t.round.Honest content)
    (hsmall : t.round.Small) (hn : 0 < t.bufflen) {q : DownloadPipeline β} {got : Got β}
    (hfront : t.launched.getFront t.bufflen t.round.resume = some (got, q)) (hne : got ≠ .eof)
    (hnone : ∀ bs, got = .bytes bs → bs = []) :
    t.before.ready = false ∧ (q.restart t.round.restart).result = .ok () ∧
      (q.restart t.round.restart).pipeline.Runs content whole ∧
      ∃ f rest k, (q.restart t.round.restart).pipeline.Awaits f rest k := by
  obtain ⟨hnot, hq, f, rest, ha, hempty, hopen, hundone⟩ :=
    DownloadPipeline.getFront_waits (launched_runs h hsize hr) hsize hn hsmall.resume hfront hne hnone
  refine ⟨?_, DownloadPipeline.restart_awaits hq hsize hr.restart ha hempty hopen hundone⟩
  rw [← Bool.not_eq_true]
  intro hready
  rw [launched_ready hready] at hnot
  cases hnot

end ReadTurn

namespace DownloadPipeline

variable {content whole : List β} {p : DownloadPipeline β}

/-- A call of `read` leaves the download in order and adds no fetcher. -/
theorem Runs.read (h : p.Runs content whole) (hsize : content.length ≤ 2 ^ 62) (n : Nat) {rounds : List (Round β)}
    (hrounds : ∀ x ∈ rounds, x.Honest content) :
    (p.read n rounds).2.Runs content whole ∧ (p.read n rounds).2.fetchers.length ≤ p.fetchers.length := by
  refine read_keeps (E := StartEnv.Honest content)
    (I := fun q => q.Runs content whole ∧ q.fetchers.length ≤ p.fetchers.length) (fun q hq => hq.1.distinct) ?_ ?_ n rounds
    (fun x hx => ⟨(hrounds x hx).launch, (hrounds x hx).restart⟩) ⟨h, le_rfl⟩
  · intro q r q' hq hs
    exact ⟨(hq.1.steps hsize (.one hs)).1, (ReadTurn.fetchers_le (.one hs)).trans hq.2⟩
  · intro q n bs q' hq ho
    refine ⟨⟨(ho.intact hq.1.intact).1, hq.1.synced.handsOut ho⟩, ?_⟩
    obtain ⟨f, rest, ha, _, _, rfl⟩ := ho
    have hle := hq.2
    rw [fetchers_front ha] at hle
    exact hle

end DownloadPipeline

/-! ## Calls -/

/-- The turns of the calls on a reader. -/
def QingStorReader.turns (r : QingStorReader β) (calls : List (Nat × List (Round β))) : List (ReadTurn β) :=
  r.mPipeline.runTurns (calls.map (fun c => .read c.1 c.2))

namespace OpenedAux

/-- An object whose headers were read has a URL that can be split. -/
theorem headObject_url {J : JsonC} {ctx : Context} {bucket key : Str} {xs : Nat → Exchange} {res : HeadObjectResult}
    (h : ctx.headObject J bucket key xs = .ok res) : (qsParseUrl (ctx.mConfiguration.objectUrl bucket key)).isOk = true := by
  unfold Context.headObject at h
  rw [rethrowing_ok_iff] at h
  cases hr : (doGetJSON J (objectArgs ctx.mConfiguration bucket key .headObject) none
      ctx.mConfiguration.mConnectionRetries xs).result with
  | error f =>
    rw [hr] at h
    cases h
  | ok j => exact (doGetJSON_ok (a := objectArgs _ _ _ _) (fun h => Bool.noConfusion h) hr).1.2

/-- A plan of full chunks has as many as its size divides its length into. -/
theorem chunkLoop_length {chunkSize stop : Int} (hchunk : 1 ≤ chunkSize) {fuel : Nat} {offset : Int} {chunks : List (Int × Int)}
    (hle : offset ≤ stop) (h : chunkLoop chunkSize stop fuel offset = some (.ok chunks)) :
    (chunks.length : Int) = (stop - offset) / chunkSize + 1 := by
  induction fuel generalizing offset chunks with
  | zero => cases h
  | succ fuel ih =>
    obtain ⟨len, hlen, _, _, hor⟩ := chunkLoop_succ_ok h
    obtain ⟨_, _, hcases⟩ := chunkLen_ok (by omega) hlen
    rcases hor with ⟨hgt, rfl⟩ | ⟨hmore, rest, rfl, hrest⟩
    · rcases hcases with ⟨hnext, rfl⟩ | ⟨hlast, rfl⟩
      · omega
      · rw [Int.ediv_eq_zero_of_lt (by omega) (by omega)]
        rfl
    · rcases hcases with ⟨_, rfl⟩ | ⟨_, rfl⟩
      · rw [List.length_cons, Nat.cast_add_one, ih hmore hrest]
        rw [show stop - (offset + len) = stop - offset + -1 * len by ring, Int.add_mul_ediv_right _ _ (by omega)]
        ring
      · omega

theorem addChunks_active (cfg : Configuration) (bucket : Str) (object : ObjectInfo) (chunks : List (Int × Int))
    (p : DownloadPipeline β) : (addChunks cfg bucket object p chunks).mActiveFetchers = p.mActiveFetchers :=
  Lib.foldl_keeps (P := fun q : DownloadPipeline β => q.mActiveFetchers = p.mActiveFetchers) rfl (fun _ _ _ hq => hq) chunks
    (List.prefix_refl chunks)

/-- The pipeline of a reader that was opened on a range of an object. -/
structure Opened (content : List β) (chunkSize start stop : Int) (p : DownloadPipeline β) : Prop where
  runs : p.Runs content (Lib.slice content start.toNat (stop + 1 - start).toNat)
  connections : 0 < p.mNConnections
  nothing : p.returned = []
  fetchers : (p.fetchers.length : Int) = (stop - start) / chunkSize + 1

/-- The pipeline of a plan of chunks of a range. -/
theorem opened_addChunks {content : List β} {cfg : Configuration} {bucket : Str} {object : ObjectInfo} {start stop : Int}
    {fuel : Nat} {chunks : List (Int × Int)} (hchunk : 1 ≤ cfg.mChunkSize ∧ cfg.mChunkSize < 2 ^ 31)
    (hconn : 2 ≤ cfg.mNConnections) (hstart : 0 ≤ start) (hle : start ≤ stop) (hstop : stop < content.length)
    (hurl : (qsParseUrl (cfg.objectUrl bucket object.key)).isOk = true)
    (hchunks : chunkLoop cfg.mChunkSize stop fuel start = some (.ok chunks)) :
    Opened content cfg.mChunkSize start stop (addChunks cfg bucket object (.make (β := β) cfg.mNConnections) chunks) := by
  obtain ⟨_, _, hplan⟩ := chunkLoop_ok hchunk.1 hle hchunks
  have hintact := intact_addChunks hchunk.2 hstop hurl hplan hstart (DownloadPipeline.intact_make content cfg.mNConnections)
  have hsynced : DownloadPipeline.Synced (addChunks cfg bucket object (.make (β := β) cfg.mNConnections) chunks) :=
    Lib.foldl_keeps (DownloadPipeline.synced_make cfg.mNConnections) (fun _ _ _ hp => hp.add _ _ _ _ _ _ _) chunks
      (List.prefix_refl chunks)
  have hpending := pending_addChunks cfg bucket object chunks (.make (β := β) cfg.mNConnections)
  obtain ⟨hconns, hhanded⟩ := addChunks_keeps cfg bucket object chunks (.make (β := β) cfg.mNConnections)
  have hactive := addChunks_active cfg bucket object chunks (.make (β := β) cfg.mNConnections)
  rw [List.nil_append] at hintact
  refine ⟨⟨hintact, hsynced⟩, ?_, ?_, ?_⟩
  · rw [hconns]
    show 0 < cfg.mNConnections
    omega
  · rw [DownloadPipeline.returned, hhanded]
    rfl
  · have hlen := congrArg List.length hpending
    rw [List.length_map, List.length_append, List.length_map, List.length_map] at hlen
    rw [DownloadPipeline.fetchers, hactive, ← chunkLoop_length hchunk.1 hle hchunks]
    exact congrArg Nat.cast (hlen.trans (Nat.zero_add _))

/-- What a reader that was opened on a range inside an object was made from. -/
theorem getObject_chunks {J : JsonC} {ctx : Context} {bucket key : Str} {start stop : Int} {xs : Nat → Exchange} {fuel : Nat}
    {reader : QingStorReader β} {e : Option Errno} (hconn : 2 ≤ ctx.mConfiguration.mNConnections) (hstart : 0 ≤ start)
    (hget : qingstorGetObject J ctx (some bucket) (some key) start stop xs fuel = some (.ok ⟨some reader, e⟩)) :
    start ≤ stop ∧ ∃ (object : ObjectInfo) (chunks : List (Int × Int)),
      (qsParseUrl (ctx.mConfiguration.objectUrl bucket object.key)).isOk = true ∧
      chunkLoop ctx.mConfiguration.mChunkSize stop fuel start = some (.ok chunks) ∧
      reader.mPipeline = addChunks ctx.mConfiguration bucket object (.make ctx.mConfiguration.mNConnections) chunks := by
  obtain ⟨hle, res, chunks, hhead, hchunks, hpipeline⟩ := getObject_ok hget
  have hrange : openedRange res.contentLength start stop = ⟨start, stop⟩ := by
    unfold openedRange
    rw [if_neg (by omega), if_neg (by omega)]
  have hchunking : ctx.mConfiguration.chunking.1 = ctx.mConfiguration.mChunkSize := by
    rw [Configuration.chunking_fst, if_pos (by omega)]
  rw [hrange, hchunking] at hchunks
  dsimp only [Option.getD_some] at hpipeline hhead
  exact ⟨hle, ⟨key, res.contentLength, openedRange res.contentLength start stop⟩, chunks, headObject_url hhead, hchunks, hpipeline⟩

theorem opened {content : List β} {J : JsonC} {ctx : Context} {bucket key : Str} {start stop : Int} {xs : Nat → Exchange}
    {fuel : Nat} {reader : QingStorReader β} {e : Option Errno}
    (hchunk : 1 ≤ ctx.mConfiguration.mChunkSize ∧ ctx.mConfiguration.mChunkSize < 2 ^ 31)
    (hconn : 2 ≤ ctx.mConfiguration.mNConnections) (hstart : 0 ≤ start) (hstop : stop < content.length)
    (hget : qingstorGetObject J ctx (some bucket) (some key) start stop xs fuel = some (.ok ⟨some reader, e⟩)) :
    Opened content ctx.mConfiguration.mChunkSize start stop reader.mPipeline := by
  obtain ⟨hle, object, chunks, hurl, hchunks, hpipeline⟩ := getObject_chunks hconn hstart hget
  rw [hpipeline]
  exact opened_addChunks hchunk hconn hstart hle hstop hurl hchunks

end OpenedAux

namespace FinishesAux

/-- A turn in which curl offers bytes of the transfer on a handle and reports its end so. -/
def turn (events : List NetEvent) (ends : List EndEvent) : Round Nat :=
  ⟨fun _ => DownloadAux.serving [0, 1, 2], [], DownloadAux.serving [0, 1, 2], true, true, events, ends⟩

/-- The attempt for the first of two chunks stalls in one turn and breaks off after a byte in the next; the one after it delivers the
rest. -/
def calls : List (Nat × List (Round Nat)) :=
  (4, turn [] [] :: List.replicate 6 (turn [⟨0, 1⟩] [⟨0, some (.other 56)⟩])) ::
    List.replicate 3 (4, List.replicate 7 (turn [⟨1, 16⟩, ⟨2, 16⟩] [⟨2, none⟩, ⟨1, none⟩]))

/-- The reader of three bytes in chunks of two. -/
def reader : QingStorReader Nat :=
  ⟨addChunks (.ofArguments (lit "pek3a") (lit "id") (lit "secret") 2) (lit "b") ⟨lit "k", 3, ⟨0, 2⟩⟩
    (.make (Configuration.ofArguments (lit "pek3a") (lit "id") (lit "secret") 2).mNConnections) [(0, 2), (2, 1)]⟩

end FinishesAux

end QingStor
