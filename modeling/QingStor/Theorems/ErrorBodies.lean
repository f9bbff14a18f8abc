import QingStor.Lemmas.Ledger
import QingStor.Lemmas.Offers

/-!
# Error bodies and object data

The write callback stores what it is given before any status is known, and `read` hands it out. Bytes carry the status of the
response they are part of (`origin`), so that it can be said of every byte returned, and of every byte the offset of a restart
counts, which response it came from.
-/

namespace QingStor

variable {β : Type*}

/-- The bytes of every response carry its status. -/
def StartEnv.Labelled (origin : β → Nat) (env : StartEnv β) : Prop :=
  ∀ range, ∀ b ∈ (env.respond range).body, origin b = (env.respond range).status

def PipelineOp.Labelled (origin : β → Nat) : PipelineOp β → Prop
  | .add .. => True
  | .read _ rounds => ∀ r ∈ rounds, (∀ i, (r.launch i).Labelled origin) ∧ r.restart.Labelled origin

/-- The bytes of a fetcher that its resume offset counts: those handed out, and those in its buffer. -/
def DownloadPipeline.counted (p : DownloadPipeline β) (f : HTTPFetcher β) : List β := p.handedOf f.this ++ f.unread

/-- No byte of a response with another status was returned by `read`, and none is counted in the offset a fetcher resumes from. -/
structure DownloadPipeline.Clean (origin : β → Nat) (p : DownloadPipeline β) : Prop where
  returned : ∀ b ∈ p.returned, AcceptedStatus (origin b)
  counted : ∀ f ∈ p.fetchers, ∀ b ∈ p.counted f, AcceptedStatus (origin b)

namespace DownloadPipeline

variable {E : StartEnv β → Prop} {origin : β → Nat} {p p' : DownloadPipeline β} {r : Except Fault Unit}

/-- What the pieces and transfers of a pipeline carry. Each byte that was taken is returned or in a buffer, once. -/
structure Traced (origin : β → Nat) (p : DownloadPipeline β) : Prop where
  transfers : ∀ t ∈ p.mCurlMHandle.transfers, ∀ b ∈ t.rest, origin b = t.status
  taken : ∀ piece ∈ p.mCurlMHandle.taken, piece.bytes ≠ [] ∧ ∀ b ∈ piece.bytes, origin b = piece.status
  kept : p.takenBytes.Perm (p.returned ++ p.fetchers.flatMap (·.unread))

/-- A change keeps the trace. -/
theorem Change.traced (hc : Change (StartEnv.Labelled origin) p p') (hh : p'.handed = p.handed) (ht : p.Traced origin) :
    p'.Traced origin := by
  have hret : p'.returned = p.returned := by
    rw [returned, returned, hh]
  have hgo : ∀ t t' : Transfer β, t ∈ p.mCurlMHandle.transfers → t.GoesOn t' → ∀ b ∈ t'.rest, origin b = t'.status := by
    rintro t t' hmt ⟨_, _, hstatus, hrest⟩ b hb
    rw [hstatus]
    exact ht.transfers t hmt b (hrest.subset hb)
  cases hc with
  | fetcher pre post f g hf hf' _ _ _ _ _ _ htr htaken =>
    refine ⟨?_, ?_, ?_⟩
    · intro t' ht' b hb
      rcases htr t' ht' with ⟨t, hmt, h⟩ | ⟨_, _, _, env, range, hE, hstatus, hrest⟩
      · exact hgo t t' hmt h b hb
      · rw [hstatus]
        rw [hrest] at hb
        exact hE range b hb
    · rcases htaken with ⟨_, htk⟩ | ⟨t, hmt, n, hne, _, htk⟩
      · rw [htk]
        exact ht.taken
      · rw [htk]
        intro piece hpiece
        rcases List.mem_append.1 hpiece with hpiece | hpiece
        · exact ht.taken piece hpiece
        · rw [List.mem_singleton] at hpiece
          subst hpiece
          exact ⟨hne, fun b hb => ht.transfers t hmt b (List.mem_of_mem_take hb)⟩
    · have hkept := ht.kept
      unfold takenBytes at hkept ⊢
      rw [hf, List.flatMap_append, List.flatMap_cons] at hkept
      rw [hf', List.flatMap_append, List.flatMap_cons, hret]
      rcases htaken with ⟨hu, htk⟩ | ⟨t, _, n, _, hu, htk⟩
      · rw [hu, htk]
        exact hkept
      · rw [hu, htk, List.flatMap_append, List.flatMap_singleton]
        simp only [← Multiset.coe_eq_coe, ← Multiset.coe_add] at hkept ⊢
        rw [hkept]
        abel
  | front f hf hu hgo' htk =>
    refine ⟨?_, ?_, ?_⟩
    · intro t' ht'
      obtain ⟨t, hmt, h⟩ := hgo'.2 t' ht'
      exact hgo t t' hmt h
    · rw [htk]
      exact ht.taken
    · have hkept := ht.kept
      unfold takenBytes at hkept ⊢
      rw [hf, List.flatMap_cons, hu, List.nil_append] at hkept
      rw [htk, hret]
      exact hkept
  | multi hf hgo' htk =>
    refine ⟨?_, ?_, ?_⟩
    · intro t' ht'
      obtain ⟨t, hmt, h⟩ := hgo'.2 t' ht'
      exact hgo t t' hmt h
    · rw [htk]
      exact ht.taken
    · have hkept := ht.kept
      unfold takenBytes at hkept ⊢
      rw [htk, hret, hf]
      exact hkept

/-- Handing out moves bytes from the front fetcher's buffer to the caller. -/
theorem HandsOut.traced {n : Nat} {bs : List β} (h : p.HandsOut n bs p') (hp : p.Tidy) (ht : p.Traced origin) :
    p'.Traced origin := by
  obtain ⟨f, rest, ha, _, hbs, rfl⟩ := h
  have hmem : f ∈ p.fetchers := by
    rw [fetchers, ha]
    exact List.mem_cons_self ..
  obtain ⟨bs', heq, _, hu, _⟩ := HTTPFetcher.handOut_spec (hp.buffered f hmem) n
  obtain rfl : bs' = bs := by
    rw [heq] at hbs
    exact Got.bytes.inj hbs
  refine ⟨ht.transfers, ht.taken, ?_⟩
  have hkept := ht.kept
  rw [fetchers, ha, List.cons_append, List.flatMap_cons, hu] at hkept
  simp only [returned, fetchers, List.cons_append, List.flatMap_cons, List.flatMap_append, List.flatMap_nil,
    List.append_nil, List.append_assoc] at hkept ⊢
  exact hkept

/-- What a run keeps: the pipeline is tidy and traced, and the record of pieces grows. -/
structure Ledger (origin : β → Nat) (taken : List (Piece β)) (p : DownloadPipeline β) : Prop where
  tidy : p.Tidy
  traced : p.Traced origin
  grows : taken <+: p.mCurlMHandle.taken

theorem Change.grows (hc : Change E p p') : p.mCurlMHandle.taken <+: p'.mCurlMHandle.taken := by
  cases hc with
  | fetcher pre post f g _ _ _ _ _ _ _ _ _ htaken =>
    rcases htaken with ⟨_, htk⟩ | ⟨t, _, n, _, _, htk⟩
    · rw [htk]
    · rw [htk]
      exact List.prefix_append _ _
  | front f _ _ _ htk => rw [htk]
  | multi _ _ htk => rw [htk]

theorem ledger_op {taken : List (Piece β)} (h : p.Ledger origin taken) {op : PipelineOp β} (hop : op.Labelled origin) :
    (op.run p).Ledger origin taken := by
  cases op with
  | add url host bucket cred buffsize offset len =>
    refine ⟨h.tidy.add url host bucket cred buffsize offset len, ⟨h.traced.transfers, h.traced.taken, ?_⟩, h.grows⟩
    have hf : (PipelineOp.run p (.add url host bucket cred buffsize offset len)).fetchers =
        p.fetchers ++ [.make p.created url host bucket cred buffsize offset len] := by
      rw [fetchers, fetchers, List.append_assoc]
      rfl
    rw [hf, List.flatMap_append, List.flatMap_singleton,
      show (HTTPFetcher.make (β := β) p.created url host bucket cred buffsize offset len).unread = [] from rfl, List.append_nil]
    exact h.traced.kept
  | read n rounds =>
    refine read_keeps (E := StartEnv.Labelled origin) (I := Ledger origin taken) (fun q hq => hq.tidy.distinct) ?_ ?_ n rounds hop h
    · intro q r q' hq hs
      have hc := hs.change hq.tidy
      exact ⟨hs.tidy hq.tidy, hc.traced hs.handed.1 hq.traced, hq.grows.trans hc.grows⟩
    · intro q n bs q' hq hout
      refine ⟨hout.tidy hq.tidy, hout.traced hq.tidy hq.traced, ?_⟩
      obtain ⟨f, rest, _, _, _, rfl⟩ := hout
      exact hq.grows

/-- What holds of a pipeline's record holds after further operations. -/
theorem ledger_foldl {taken : List (Piece β)} (ops : List (PipelineOp β)) (h : p.Ledger origin taken)
    (hops : ∀ op ∈ ops, op.Labelled origin) : (ops.foldl PipelineOp.run p).Ledger origin taken := by
  induction ops generalizing p with
  | nil => exact h
  | cons op ops ih =>
    exact ih (ledger_op h (hops op (List.mem_cons_self ..))) (fun op hop => hops op (List.mem_cons_of_mem _ hop))

theorem ledger_run (nconnections : Int) {ops : List (PipelineOp β)} (hops : ∀ op ∈ ops, op.Labelled origin) :
    (runPipeline nconnections ops).Ledger origin [] := by
  refine ledger_foldl ops ⟨tidy_make nconnections, ⟨?_, ?_, List.Perm.nil⟩, List.prefix_refl _⟩ hops
  · exact fun _ h => by cases h
  · exact fun _ h => by cases h

/-- The pieces taken in the first part of a run are among those taken in the whole. -/
theorem taken_take (nconnections : Int) {ops : List (PipelineOp β)} (hops : ∀ op ∈ ops, op.Labelled origin) (k : Nat) :
    (runPipeline nconnections (ops.take k)).mCurlMHandle.taken <+: (runPipeline nconnections ops).mCurlMHandle.taken := by
  have hl : (runPipeline nconnections (ops.take k)).Ledger origin [] :=
    ledger_run nconnections (fun op hop => hops op (List.mem_of_mem_take hop))
  have hsplit : runPipeline nconnections ops = (ops.drop k).foldl PipelineOp.run (runPipeline nconnections (ops.take k)) := by
    unfold runPipeline
    rw [← List.foldl_append, List.take_append_drop]
  rw [hsplit]
  exact (ledger_foldl (ops.drop k) ⟨hl.tidy, hl.traced, List.prefix_refl _⟩ (fun op hop => hops op (List.mem_of_mem_drop hop))).grows

/-- A pipeline is clean when no piece with another status was taken, and only then. -/
theorem Ledger.clean_iff {taken : List (Piece β)} (h : p.Ledger origin taken) :
    p.Clean origin ↔ ∀ piece ∈ p.mCurlMHandle.taken, AcceptedStatus piece.status := by
  have hmem : ∀ b, b ∈ p.takenBytes ↔ b ∈ p.returned ∨ ∃ f ∈ p.fetchers, b ∈ f.unread := by
    intro b
    rw [h.traced.kept.mem_iff, List.mem_append, List.mem_flatMap]
  constructor
  · intro hclean piece hpiece
    obtain ⟨hne, hlabel⟩ := h.traced.taken piece hpiece
    obtain ⟨b, hb⟩ := List.exists_mem_of_ne_nil _ hne
    rw [← hlabel b hb]
    rcases (hmem b).1 (List.mem_flatMap.2 ⟨piece, hpiece, hb⟩) with hret | ⟨f, hf, hu⟩
    · exact hclean.returned b hret
    · exact hclean.counted f hf b (List.mem_append_right _ hu)
  · intro hall
    have htaken : ∀ b ∈ p.takenBytes, AcceptedStatus (origin b) := by
      intro b hb
      obtain ⟨piece, hpiece, hb⟩ := List.mem_flatMap.1 hb
      rw [(h.traced.taken piece hpiece).2 b hb]
      exact hall piece hpiece
    refine ⟨fun b hb => htaken b ((hmem b).2 (Or.inl hb)), fun f hf b hb => htaken b ?_⟩
    rcases List.mem_append.1 hb with hb | hb
    · refine (hmem b).2 (Or.inl ?_)
      obtain ⟨e, he, hb⟩ := List.mem_flatMap.1 hb
      exact List.mem_flatMap.2 ⟨e, (List.mem_filter.1 he).1, hb⟩
    · exact (hmem b).2 (Or.inr ⟨f, hf, hb⟩)

end DownloadPipeline

namespace DownloadPipeline

/-- A run of a pipeline is clean all along when no piece with another status was taken in it. -/
theorem clean_run_iff (origin : β → Nat) (nconnections : Int) (ops : List (PipelineOp β))
    (hlabel : ∀ op ∈ ops, op.Labelled origin) :
    (∀ k, (runPipeline nconnections (ops.take k)).Clean origin) ↔
      (runPipeline nconnections ops).mCurlMHandle.AllTaken AcceptedStatus := by
  have hledger : ∀ k, (runPipeline nconnections (ops.take k)).Ledger origin [] :=
    fun k => ledger_run nconnections (fun op hop => hlabel op (List.mem_of_mem_take hop))
  constructor
  · intro h
    have hall := (hledger ops.length).clean_iff.1 (h ops.length)
    rwa [List.take_length] at hall
  · intro h k
    refine (hledger k).clean_iff.2 (fun piece hpiece => h piece ?_)
    exact (taken_take nconnections hlabel k).subset hpiece

end DownloadPipeline

/-- Exactly when a run of a pipeline is clean all along: when, at each call of the write callback, the response is a good one, or
there are no bytes in the offer, or there is no room for them in the buffer as it is before the call. -/
theorem error_bodies_iff (origin : β → Nat) (nconnections : Int) (ops : List (PipelineOp β))
    (hlabel : ∀ op ∈ ops, op.Labelled origin) :
    (∀ k, (runPipeline nconnections (ops.take k)).Clean origin) ↔
      ∀ t ∈ (DownloadPipeline.make nconnections).runTurns ops, ∀ o ∈ t.offers,
        AcceptedStatus o.status ∨ o.bytes = [] ∨ o.room < o.bytes.length := by
  have htaken := DownloadPipeline.run_allTaken (P := AcceptedStatus) ops (.make nconnections)
  rw [DownloadPipeline.clean_run_iff origin nconnections ops hlabel, runPipeline, htaken]
  constructor
  · rintro ⟨-, h⟩ t ht o ho
    by_cases hfits : o.Fits
    · exact Or.inl (h t ht o ho hfits)
    · unfold Offer.Fits at hfits
      rw [not_and_or, not_not, not_le] at hfits
      exact Or.inr hfits
  · intro h
    refine ⟨fun _ hpiece => absurd hpiece List.not_mem_nil, fun t ht o ho hfits => ?_⟩
    rcases h t ht o ho with hgood | hnil | hfull
    · exact hgood
    · exact absurd hnil hfits.1
    · exact absurd hfits.2 hfull.not_ge

namespace ErrorBodiesAux

/-- A response whose bytes carry its status. -/
def response (status : Nat) (body : Str) : Response (Nat × Byte) := ⟨status, body.map (fun b => (status, b)), .ok⟩

/-- An outside that gives what is asked for and answers every request in one way. -/
def answering (status : Nat) (body : Str) : StartEnv (Nat × Byte) :=
  ⟨true, true, Sample.signer, true, fun _ => response status body⟩

/-- A fetcher is added and read from: its request is answered, the whole body is delivered, and the transfer ends. -/
def oneFetcher (status : Nat) (body : Str) : List (PipelineOp (Nat × Byte)) :=
  [.add (lit "https://b.pek3a.qingstor.com/k") (lit "b.pek3a.qingstor.com") (lit "b") ⟨lit "id", lit "secret"⟩ 4 0 4,
    .read 16 [⟨fun _ => answering status body, [], answering status body, true, true, [⟨0, 16⟩], [⟨0, none⟩]⟩,
      ⟨fun _ => answering status body, [], answering status body, true, true, [], []⟩]]

theorem oneFetcher_labelled (status : Nat) (body : Str) : ∀ op ∈ oneFetcher status body, op.Labelled Prod.fst := by
  have hlabel : (answering status body).Labelled Prod.fst := by
    intro _ b hb
    obtain ⟨x, _, rfl⟩ := List.mem_map.1 hb
    rfl
  intro op hop
  unfold oneFetcher at hop
  simp only [List.mem_cons, List.not_mem_nil, or_false] at hop
  rcases hop with rfl | rfl
  · trivial
  · intro r hr
    simp only [List.mem_cons, List.not_mem_nil, or_false] at hr
    rcases hr with rfl | rfl
    · exact ⟨fun _ => hlabel, hlabel⟩
    · exact ⟨fun _ => hlabel, hlabel⟩

end ErrorBodiesAux

/-- The one call of the callback in this run is offered four bytes of a good response. -/
theorem error_bodies_iff_partial :
    (runPipeline 3 ((ErrorBodiesAux.oneFetcher 206 (lit "data")).take 2)).Clean Prod.fst :=
  (error_bodies_iff Prod.fst 3 (ErrorBodiesAux.oneFetcher 206 (lit "data")) (ErrorBodiesAux.oneFetcher_labelled 206 (lit "data"))).2
    (by decide +kernel) 2

/-- Error bodies do become object data: the text of a 404 answer is returned by `read`. -/
theorem error_bodies_false :
    ¬ ∀ (origin : Nat × Byte → Nat) (nconnections : Int) (ops : List (PipelineOp (Nat × Byte))),
      (∀ op ∈ ops, op.Labelled origin) → (runPipeline nconnections ops).Clean origin := by
  intro h
  have hclean := h Prod.fst 3 (ErrorBodiesAux.oneFetcher 404 (lit "none")) (ErrorBodiesAux.oneFetcher_labelled 404 (lit "none"))
  have hret : (runPipeline 3 (ErrorBodiesAux.oneFetcher 404 (lit "none"))).returned = (lit "none").map (fun b => (404, b)) := by
    decide +kernel
  have hbad := hclean.returned (404, 110)
  rw [hret] at hbad
  exact absurd (hbad (by decide)) (by decide)

end QingStor
