import QingStor.Api
import QingStor.Lemmas.Chunks
import QingStor.Lemmas.Download

/-!
# A download is the range asked for

From the opening of an object for reading on: what the calls of `transferData` return, one after another, is a prefix of the
range, and the end of the stream is reported when the prefix is the range, and ever after.
-/

namespace QingStor

variable {β : Type*}

/-- What the outside does during a turn of `read`, when the server serves the object and curl can be waited for. -/
structure Round.Honest (content : List β) (r : Round β) : Prop where
  launch : ∀ i, (r.launch i).Honest content
  restart : r.restart.Honest content
  wait : r.wait = true
  perform : r.perform = true

namespace DownloadPipeline

variable {content whole : List β} {p : DownloadPipeline β}

/-! ## The pipeline a reader is made with -/

theorem intact_make (content : List β) (nconnections : Int) : (make (β := β) nconnections).Intact content [] := by
  refine ⟨tidy_make nconnections, ?_, ?_, ?_, ?_, List.nodup_nil, rfl⟩
  · exact fun _ h => by cases h
  · exact fun _ h => by cases h
  · exact fun _ h => by cases h
  · exact fun _ h => by cases h

/-- A fetcher for the next bytes of the object extends what is downloaded by them. -/
theorem Intact.add (h : p.Intact content whole) {url : Str} (hurl : (qsParseUrl url).isOk = true) (host bucket : Str)
    (cred : QSCredential) (buffsize : Int) {offset len : Int} (h0 : 0 ≤ offset) (hlen : 0 ≤ len) (hmax : len < 2 ^ 31)
    (hfits : offset + len ≤ content.length) :
    (p.add (.make p.created url host bucket cred buffsize offset len)).Intact content
      (whole ++ Lib.slice content offset.toNat len.toNat) := by
  have hf : (p.add (.make p.created url host bucket cred buffsize offset len)).fetchers =
      p.fetchers ++ [.make p.created url host bucket cred buffsize offset len] := fetchers_add _ _
  have hlen32 : toInt32 len = len := toInt32_of_bounds (by omega) hmax
  have htodo : (HTTPFetcher.make (β := β) p.created url host bucket cred buffsize offset len).todo content =
      Lib.slice content offset.toNat len.toNat := by
    unfold HTTPFetcher.todo HTTPFetcher.make
    dsimp only
    rw [hlen32, Int.add_zero, Int.sub_zero]
  refine ⟨h.tidy.add url host bucket cred buffsize offset len, ?_, h.linked, ?_, h.known, h.easies, ?_⟩
  · rw [hf]
    intro k hk
    rcases List.mem_append.1 hk with hk | hk
    · exact h.within k hk
    · rw [List.mem_singleton] at hk
      subst hk
      refine ⟨hurl, h0, ?_, le_rfl, ?_, List.nil_prefix⟩
      · show offset + toInt32 len ≤ content.length
        rw [hlen32]
        exact hfits
      · show 0 ≤ toInt32 len
        rw [hlen32]
        exact hlen
  · intro k hk
    rcases List.mem_append.1 hk with hk | hk
    · exact h.pending k hk
    · rw [List.mem_singleton] at hk
      subst hk
      rfl
  · have hw := h.whole
    rw [hf, List.flatMap_append, List.flatMap_singleton, htodo, ← List.append_assoc]
    rw [← hw]
    rfl

end DownloadPipeline

theorem Plan.le {most stop offset : Int} {chunks : List (Int × Int)} (h : Plan most stop offset chunks) : offset ≤ stop + 1 := by
  induction h with
  | done => exact le_rfl
  | chunk h1 _ _ ih => omega

/-- The fetchers of a plan have the range of the plan to hand out. -/
theorem intact_addChunks {content whole : List β} {cfg : Configuration} {bucket : Str} {object : ObjectInfo} {most stop : Int}
    (hmost : most < 2 ^ 31) (hstop : stop < content.length) (hurl : (qsParseUrl (cfg.objectUrl bucket object.key)).isOk = true)
    {offset : Int} {chunks : List (Int × Int)} (hplan : Plan most stop offset chunks) (h0 : 0 ≤ offset)
    {p : DownloadPipeline β} (h : p.Intact content whole) :
    (addChunks cfg bucket object p chunks).Intact content
      (whole ++ Lib.slice content offset.toNat (stop + 1 - offset).toNat) := by
  induction hplan generalizing p whole with
  | done =>
    rw [Int.sub_self, Int.toNat_zero, Lib.slice_zero_length, List.append_nil]
    exact h
  | @chunk offset len rest h1 h2 hrest ih =>
    have hle := hrest.le
    have hadd := h.add hurl (cfg.bucketHost bucket) bucket cfg.credential cfg.chunking.2 h0 (show 0 ≤ len by omega)
      (by omega) (by omega)
    have hsplit : Lib.slice content offset.toNat (stop + 1 - offset).toNat =
        Lib.slice content offset.toNat len.toNat ++
          Lib.slice content (offset + len).toNat (stop + 1 - (offset + len)).toNat := by
      rw [show (offset + len).toNat = offset.toNat + len.toNat by omega, Lib.slice_append_slice]
      congr 1
      omega
    rw [hsplit, ← List.append_assoc]
    exact ih (by omega) hadd

theorem addChunks_keeps (cfg : Configuration) (bucket : Str) (object : ObjectInfo) (chunks : List (Int × Int))
    (p : DownloadPipeline β) :
    (addChunks cfg bucket object p chunks).mNConnections = p.mNConnections ∧
      (addChunks cfg bucket object p chunks).handed = p.handed := by
  induction chunks generalizing p with
  | nil => exact ⟨rfl, rfl⟩
  | cons c chunks ih => exact ih _

/-! ## Calls -/

/-- What one call of `transferData` comes to. -/
theorem transferData_cases {content whole : List β} (hsize : content.length ≤ 2 ^ 62) {r : QingStorReader β}
    (h : r.mPipeline.Intact content whole) (hn : 0 < r.mPipeline.mNConnections) (n : Nat) {rounds : List (Round β)}
    (hrounds : ∀ x ∈ rounds, x.Honest content) :
    ((r.transferData n rounds).1 = .thrown endOfStream ∧ r.mPipeline.returned = whole ∧
      (r.transferData n rounds).2.mPipeline.fetchers = []) ∨
    ((r.transferData n rounds).2.mPipeline.Intact content whole ∧
      (r.transferData n rounds).2.mPipeline.mNConnections = r.mPipeline.mNConnections ∧
      (r.transferData n rounds).2.mPipeline.returned = r.mPipeline.returned ++ (r.transferData n rounds).1.given ∧
      ((r.transferData n rounds).1 = .waiting ∨
        ∃ bs, (r.transferData n rounds).1 = .bytes bs ∧ 1 ≤ bs.length ∧ bs.length ≤ n)) := by
  have hread := DownloadPipeline.read_ends_well (E := StartEnv.Honest content)
    (I := DownloadPipeline.Intact content whole) (fun p hp => hp.tidy.distinct) (fun p r p' hp hs => hs.intact hsize hp) n rounds
    (fun x hx => ⟨(hrounds x hx).launch, (hrounds x hx).restart, (hrounds x hx).wait, (hrounds x hx).perform⟩) h
  unfold QingStorReader.transferData
  generalize r.mPipeline.read n rounds = out at hread
  obtain ⟨res, q⟩ := out
  rcases hread with ⟨rfl, hI, hh, hc⟩ | ⟨rfl, hI, hh, hc, hactive, hpending⟩ | ⟨bs, p', rfl, hI, hh, hc, hout⟩
  · right
    refine ⟨hI, hc, ?_, Or.inl rfl⟩
    show q.returned = r.mPipeline.returned ++ []
    rw [List.append_nil, DownloadPipeline.returned, DownloadPipeline.returned, hh]
  · left
    have hnone : q.fetchers = [] := by
      dsimp only at hactive hpending
      rw [DownloadPipeline.fetchers, hactive]
      rcases hpending with hp | hp
      · rw [hp]
        rfl
      · omega
    refine ⟨rfl, ?_, hnone⟩
    have hw := hI.whole
    dsimp only at hw
    rw [hnone, List.flatMap_nil, List.append_nil, DownloadPipeline.returned, hh] at hw
    exact hw
  · right
    obtain ⟨hI', hret, h1, hle⟩ := hout.intact hI
    refine ⟨hI', ?_, ?_, Or.inr ⟨bs, rfl, h1, hle⟩⟩
    · obtain ⟨f, rest, _, _, _, hq⟩ := hout
      dsimp only at hq ⊢
      rw [hq]
      exact hc
    · show q.returned = r.mPipeline.returned ++ bs
      dsimp only at hret
      rw [hret, DownloadPipeline.returned, DownloadPipeline.returned, hh]

/-- What the calls on a reader whose stream has ended come to: each reports the end again as soon as the outside lets it run. -/
def endedResults (calls : List (Nat × List (Round β))) : List (TransferResult β) :=
  calls.map (fun c => if c.2.isEmpty then .waiting else .thrown endOfStream)

/-- What calls may come to when `before` was returned by the calls before them: a call that returns gives from 1 to as many bytes
as it has room for, what was returned is a prefix of `whole`, the stream ends only when it is `whole`, and stays ended. -/
inductive Delivers (whole : List β) : List β → List (Nat × List (Round β)) → List (TransferResult β) → Prop
  | none {before : List β} : before <+: whole → Delivers whole before [] []
  | waiting {before : List β} {c : Nat × List (Round β)} {calls : List (Nat × List (Round β))}
      {results : List (TransferResult β)} :
      Delivers whole before calls results → Delivers whole before (c :: calls) (.waiting :: results)
  | bytes {before bs : List β} {c : Nat × List (Round β)} {calls : List (Nat × List (Round β))}
      {results : List (TransferResult β)} :
      1 ≤ bs.length → bs.length ≤ c.1 → Delivers whole (before ++ bs) calls results →
      Delivers whole before (c :: calls) (.bytes bs :: results)
  | ended {before : List β} {c : Nat × List (Round β)} {calls : List (Nat × List (Round β))} :
      before = whole → Delivers whole before (c :: calls) (.thrown endOfStream :: endedResults calls)

/-- Once a stream has ended, every call finds it ended. -/
theorem transferAll_ended {r : QingStorReader β} (h : r.mPipeline.fetchers = []) (calls : List (Nat × List (Round β))) :
    r.transferAll calls = endedResults calls := by
  have hcall : ∀ (n : Nat) (rounds : List (Round β)),
      r.transferData n rounds = (if rounds.isEmpty then .waiting else .thrown endOfStream, r) := by
    intro n rounds
    obtain ⟨hactive, hpending⟩ := List.append_eq_nil_iff.1 h
    cases rounds with
    | nil => rfl
    | cons x rounds =>
      have hread : r.mPipeline.read n (x :: rounds) = (.eof, r.mPipeline) := by
        unfold DownloadPipeline.read DownloadPipeline.readTurn DownloadPipeline.launch
        rw [hpending]
        unfold launchFrom DownloadPipeline.getFront
        dsimp only
        rw [hactive]
      unfold QingStorReader.transferData
      rw [hread]
      rfl
  induction calls with
  | nil => rfl
  | cons c calls ih =>
    unfold QingStorReader.transferAll
    rw [hcall, ih]
    rfl

/-- The calls on a reader of an intact pipeline. -/
theorem delivers_transferAll {content whole : List β} (hsize : content.length ≤ 2 ^ 62) {r : QingStorReader β}
    (h : r.mPipeline.Intact content whole) (hn : 0 < r.mPipeline.mNConnections) (calls : List (Nat × List (Round β)))
    (hcalls : ∀ c ∈ calls, ∀ x ∈ c.2, x.Honest content) :
    Delivers whole r.mPipeline.returned calls (r.transferAll calls) := by
  induction calls generalizing r with
  | nil =>
    refine .none ?_
    rw [← h.whole]
    exact List.prefix_append _ _
  | cons c calls ih =>
    have hrest : ∀ d ∈ calls, ∀ x ∈ d.2, x.Honest content := fun d hd => hcalls d (List.mem_cons_of_mem _ hd)
    unfold QingStorReader.transferAll
    rcases transferData_cases hsize h hn c.1 (hcalls c (List.mem_cons_self ..)) with
      ⟨hres, hwhole, hnone⟩ | ⟨hI, hc, hret, hwait | ⟨bs, hbs, h1, hle⟩⟩
    · rw [hres, transferAll_ended hnone]
      exact .ended hwhole
    · have hnext := ih hI (by rw [hc]; exact hn) hrest
      rw [hret, hwait] at hnext
      rw [hwait]
      refine .waiting ?_
      rw [show (TransferResult.waiting : TransferResult β).given = [] from rfl, List.append_nil] at hnext
      exact hnext
    · have hnext := ih hI (by rw [hc]; exact hn) hrest
      rw [hret, hbs] at hnext
      rw [hbs]
      exact .bytes h1 hle hnext

/-- Every download of a range delivers the range. -/
theorem download_intact (content : List β) (hsize : content.length ≤ 2 ^ 62) (J : JsonC) (ctx : Context) (bucket key : Str)
    (start stop : Int) (xs : Nat → Exchange) (res : HeadObjectResult) (hchunk : 1 ≤ ctx.mConfiguration.mChunkSize)
    (hmax : ctx.mConfiguration.mChunkSize < 2 ^ 31) (hconn : 2 ≤ ctx.mConfiguration.mNConnections) (h0 : 0 ≤ start)
    (h1 : start ≤ stop) (h2 : stop < content.length) (hbucket : bucket ≠ []) (hkey : key ≠ [])
    (hhead : ctx.headObject J bucket key xs = .ok res) :
    ∃ fuel reader, qingstorGetObject J ctx (some bucket) (some key) start stop xs fuel = some (.ok ⟨some reader, none⟩) ∧
      ∀ calls : List (Nat × List (Round β)), (∀ c ∈ calls, ∀ x ∈ c.2, x.Honest content) →
        Delivers (Lib.slice content start.toNat (stop + 1 - start).toNat) [] calls (reader.transferAll calls) := by
  have hurl : (qsParseUrl (ctx.mConfiguration.objectUrl bucket key)).isOk = true := by
    unfold Context.headObject at hhead
    rw [rethrowing_ok_iff] at hhead
    cases hr : (doGetJSON J (objectArgs ctx.mConfiguration bucket key .headObject) none
        ctx.mConfiguration.mConnectionRetries xs).result with
    | error f =>
      rw [hr] at hhead
      cases hhead
    | ok j => exact (doGetJSON_ok (a := objectArgs _ _ _ _) (fun h => Bool.noConfusion h) hr).1.2
  have hchunking : ctx.mConfiguration.chunking.1 = ctx.mConfiguration.mChunkSize := by
    rw [Configuration.chunking_fst, if_pos (show ctx.mConfiguration.mNConnections > 1 by omega)]
  have hdiv := Int.ediv_nonneg (a := stop - start) (b := ctx.mConfiguration.mChunkSize) (by omega) (by omega)
  have hend : planEnd ctx.mConfiguration.mChunkSize start stop ≤ int64Max := by
    have hmul := Int.ediv_mul_le (stop - start) (show ctx.mConfiguration.mChunkSize ≠ 0 by omega)
    unfold planEnd int64Max
    rw [Int.add_mul, Int.one_mul]
    omega
  obtain ⟨chunks, hchunks⟩ := chunkLoop_ends hchunk ((stop - start) / ctx.mConfiguration.mChunkSize).toNat h0 h1
    (Int.toNat_of_nonneg hdiv).symm hend
  obtain ⟨_, _, hplan⟩ := chunkLoop_ok hchunk h1 hchunks
  obtain ⟨p, hp⟩ : ∃ p : DownloadPipeline β, addChunks ctx.mConfiguration bucket ⟨key, res.contentLength, ⟨start, stop⟩⟩
      (.make ctx.mConfiguration.mNConnections) chunks = p := ⟨_, rfl⟩
  refine ⟨((stop - start) / ctx.mConfiguration.mChunkSize).toNat + 1, ⟨p⟩, ?_, ?_⟩
  · have hrange : openedRange res.contentLength start stop = ⟨start, stop⟩ := by
      unfold openedRange
      rw [if_neg (by omega), if_neg (by omega)]
    unfold qingstorGetObject
    rw [if_neg (by simp [given, hbucket]), if_neg (by simp [given, hkey]), if_neg (by omega)]
    dsimp only [Option.getD_some]
    rw [hhead]
    dsimp only
    unfold setupPipeline
    dsimp only
    rw [hrange, hchunking, hchunks, ← hp]
    rfl
  · intro calls hcalls
    have hI : (addChunks ctx.mConfiguration bucket ⟨key, res.contentLength, ⟨start, stop⟩⟩
        (.make ctx.mConfiguration.mNConnections) chunks).Intact content _ :=
      intact_addChunks hmax h2 hurl hplan h0 (DownloadPipeline.intact_make content _)
    obtain ⟨hnc, hhanded⟩ := addChunks_keeps ctx.mConfiguration bucket ⟨key, res.contentLength, ⟨start, stop⟩⟩ chunks
      (.make (β := β) ctx.mConfiguration.mNConnections)
    rw [hp] at hI hnc hhanded
    rw [List.nil_append] at hI
    have hpos : 0 < p.mNConnections := by
      rw [hnc]
      show 0 < ctx.mConfiguration.mNConnections
      omega
    have hdel := delivers_transferAll hsize (r := ⟨p⟩) hI hpos calls hcalls
    rw [DownloadPipeline.returned, hhanded] at hdel
    exact hdel

namespace DownloadAux

/-- A server that answers with the bytes of the range, and curl with all it needs. -/
def serving (content : List Nat) : StartEnv Nat where
  malloc := true
  easyInit := true
  signer := Sample.signer
  signs := true
  respond
    | some (.fromTo first last) => ⟨206, Lib.slice content first.toNat (last + 1 - first).toNat, .ok⟩
    | _ => ⟨200, content, .ok⟩

theorem serving_honest (content : List Nat) : (serving content).Honest content :=
  ⟨rfl, rfl, rfl, fun _ _ _ => ⟨List.prefix_refl _, fun _ => (by decide : 206 ≠ 0), fun _ _ => rfl⟩⟩

/-- A turn in which the first transfer is delivered whole and ends. -/
def turn : Round Nat := ⟨fun _ => serving [0, 1, 2], [], serving [0, 1, 2], true, true, [⟨0, 16⟩], [⟨0, none⟩]⟩

/-- json-c on the headers of an object. -/
def headJson : JsonC where
  tokenerParse _ := .object [(lit "Content-Type", .string (lit "text/plain")), (lit "Content-Length", .int 3),
    (lit "Last-Modified", .string (lit "Mon, 02 Jan 2017 15:04:05 GMT"))]
  toJsonString _ := []
  parseInt64 _ := 0

/-- The answer to a request for the headers of an object. -/
def headAnswer : Exchange := ⟨true, Sample.signer, [], [lit "Content-Length: 3\r\n"], [], 200, .ok⟩

end DownloadAux

theorem download_intact_three :
    ∃ fuel reader, qingstorGetObject DownloadAux.headJson ⟨.ofArguments (lit "pek3a") (lit "id") (lit "secret") 2⟩
        (some (lit "b")) (some (lit "k")) 0 2 (fun _ => DownloadAux.headAnswer) fuel = some (.ok ⟨some reader, none⟩) ∧
      Delivers [0, 1, 2] [] [(4, [DownloadAux.turn, DownloadAux.turn])]
        (reader.transferAll [(4, [DownloadAux.turn, DownloadAux.turn])]) := by
  obtain ⟨res, hhead⟩ := isOk_iff.1 (show ((Context.mk (.ofArguments (lit "pek3a") (lit "id") (lit "secret") 2)).headObject
    DownloadAux.headJson (lit "b") (lit "k") (fun _ => DownloadAux.headAnswer)).isOk = true by decide +kernel)
  obtain ⟨fuel, reader, hopen, hall⟩ := download_intact [0, 1, 2] (by decide) DownloadAux.headJson
    ⟨.ofArguments (lit "pek3a") (lit "id") (lit "secret") 2⟩ (lit "b") (lit "k") 0 2 (fun _ => DownloadAux.headAnswer)
    res (by decide) (by decide) (by decide) (by decide) (by decide) (by decide) (by decide) (by decide) hhead
  refine ⟨fuel, reader, hopen, hall _ ?_⟩
  intro c hc x hx
  rw [List.mem_singleton] at hc
  subst hc
  have hturn : x = DownloadAux.turn := by
    simpa using hx
  rw [hturn]
  exact ⟨fun _ => DownloadAux.serving_honest _, DownloadAux.serving_honest _, rfl, rfl⟩

end QingStor
