import QingStor.Lemmas.Turns

/-!
# What the write callback takes

The record of the pieces taken grows at the offers of a turn and nowhere else. An offer is taken when there are bytes in it and
the buffer has room for them, whatever response they are part of.
-/

namespace QingStor

variable {β : Type*} {P : Nat → Prop}

/-- There are bytes in the offer, and room for them. -/
def Offer.Fits (o : Offer β) : Prop := o.bytes ≠ [] ∧ o.bytes.length ≤ o.room

/-- Every piece taken so far is of a response with a status in `P`. -/
def Multi.AllTaken (P : Nat → Prop) (m : Multi β) : Prop := ∀ piece ∈ m.taken, P piece.status

/-- Nothing more was taken. -/
theorem Multi.allTaken_congr {m m' : Multi β} (h : m'.taken = m.taken) : m'.AllTaken P ↔ m.AllTaken P := by
  unfold Multi.AllTaken
  rw [h]

namespace HTTPFetcher

/-! ## The callback -/

/-- The callback takes a piece when it fits in behind the unread bytes. -/
theorem writerCallback_takes (f : HTTPFetcher β) (contents : List β) :
    (f.writerCallback contents).1 = true ↔ contents.length ≤ f.mBuffSize - (f.mNused - f.mReadOff) := by
  unfold writerCallback rewind shift
  dsimp only
  split_ifs <;> simp_all
  omega

/-- An offer is taken if it fits, and then the piece is that of the offer. -/
theorem offer_taken (f : HTTPFetcher β) (m : Multi β) (h n : Nat) :
    (Offer.Fits ⟨f, m, h, n⟩ ∧ ∃ u, (f.offer m h n).2.taken =
        m.taken ++ [⟨u, Offer.status ⟨f, m, h, n⟩, Offer.bytes ⟨f, m, h, n⟩⟩]) ∨
      ¬ Offer.Fits ⟨f, m, h, n⟩ ∧ (f.offer m h n).2.taken = m.taken := by
  unfold Offer.Fits Offer.bytes Offer.status Offer.room HTTPFetcher.offer
  dsimp only
  cases m.find? h with
  | none => exact Or.inr ⟨fun hfits => hfits.1 rfl, rfl⟩
  | some t =>
    dsimp only [Option.map_some, Option.getD_some]
    by_cases hstill : t.paused = true ∨ t.ended = true
    · rw [if_pos hstill, if_pos (hstill.elim Or.inl (fun h => Or.inr (Or.inl h)))]
      exact Or.inr ⟨fun hfits => hfits.1 rfl, rfl⟩
    · rw [if_neg hstill]
      by_cases hnil : t.rest.take n = []
      · rw [if_pos (Or.inr (Or.inr (List.isEmpty_iff.2 hnil)))]
        exact Or.inr ⟨fun hfits => hfits.1 hnil, rfl⟩
      · have hgo : ¬ (t.paused = true ∨ t.ended = true ∨ (t.rest.take n).isEmpty = true) := by
          rintro (h | h | h)
          · exact hstill (Or.inl h)
          · exact hstill (Or.inr h)
          · exact hnil (List.isEmpty_iff.1 h)
        rw [if_neg hgo]
        have htakes := f.writerCallback_takes (t.rest.take n)
        cases hw : f.writerCallback (t.rest.take n) with
        | mk took f' =>
          rw [hw] at htakes
          cases took with
          | true => exact Or.inl ⟨⟨hnil, htakes.1 rfl⟩, t.userp, rfl⟩
          | false => exact Or.inr ⟨fun hfits => Bool.false_ne_true (htakes.2 hfits.2), rfl⟩

/-- What was taken with one more offer. -/
theorem offer_allTaken (f : HTTPFetcher β) (m : Multi β) (h n : Nat) :
    (f.offer m h n).2.AllTaken P ↔ m.AllTaken P ∧ (Offer.Fits ⟨f, m, h, n⟩ → P (Offer.status ⟨f, m, h, n⟩)) := by
  rcases f.offer_taken m h n with ⟨hfits, u, htaken⟩ | ⟨hfits, htaken⟩
  · unfold Multi.AllTaken
    rw [htaken, List.forall_mem_append, List.forall_mem_singleton]
    exact and_congr_right (fun _ => ⟨fun hp _ => hp, fun hp => hp hfits⟩)
  · rw [Multi.allTaken_congr htaken]
    exact ⟨fun hall => ⟨hall, fun h => absurd h hfits⟩, And.left⟩

/-- What was taken with a row of offers. -/
theorem offers_allTaken (h : Nat) (ns : List Nat) (f : HTTPFetcher β) (m : Multi β) :
    (ns.foldl (fun s n => s.1.offer s.2 h n) (f, m)).2.AllTaken P ↔
      m.AllTaken P ∧ ∀ o ∈ offers h ns f m, o.Fits → P o.status := by
  induction ns generalizing f m with
  | nil => simp [offers]
  | cons n ns ih =>
    rw [List.foldl_cons, offers, List.forall_mem_cons, ← and_assoc, ← offer_allTaken]
    exact ih (f.offer m h n).1 (f.offer m h n).2

theorem easyPause_taken (m : Multi β) (c : CurlPtr) : (m.easyPause c).taken = m.taken := by
  cases c <;> rfl

/-- What was taken once a pause is taken off. -/
theorem unpause_allTaken (f : HTTPFetcher β) (m : Multi β) (ns : List Nat) :
    (f.unpause m ns).2.AllTaken P ↔ m.AllTaken P ∧ ∀ o ∈ f.unpauseOffers m ns, o.Fits → P o.status := by
  unfold unpause unpauseOffers
  dsimp only
  rw [← Multi.allTaken_congr (easyPause_taken m f.mCurl)]
  cases hcurl : f.mCurl with
  | easy h => exact offers_allTaken h ns _ _
  | indeterminate | null => simp

/-- What was taken once `get` returns. -/
theorem get_allTaken (bufflen : Nat) (resumes : List (List Nat)) (f : HTTPFetcher β) (m : Multi β) :
    (f.get bufflen resumes m).2.2.AllTaken P ↔ m.AllTaken P ∧ ∀ o ∈ getOffers resumes f m, o.Fits → P o.status := by
  induction resumes generalizing f m with
  | nil =>
    unfold get getOffers
    split
    · simp
    · split
      · have hnone : f.unpauseOffers m [] = [] := by
          unfold unpauseOffers
          cases f.mCurl <;> rfl
        rw [unpause_allTaken, hnone]
      · simp
  | cons ns resumes ih =>
    unfold get getOffers
    split
    · simp
    · split
      · rw [ih, unpause_allTaken, List.forall_mem_append, and_assoc]
      · simp

/-! ## What takes nothing -/

theorem start_taken (f : HTTPFetcher β) (env : StartEnv β) (m : Multi β) : (f.start env m).multi.taken = m.taken := by
  unfold start
  dsimp only
  repeat' split
  all_goals rfl

theorem cleanup_taken (f : HTTPFetcher β) (m : Multi β) : (f.cleanup m).2.taken = m.taken := by
  unfold cleanup
  dsimp only
  split_ifs <;> rfl

theorem handleResult_taken (f : HTTPFetcher β) (res : CURLcode) (respcode : Nat) (m : Multi β) :
    (f.handleResult res respcode m).multi.taken = m.taken := by
  unfold handleResult fail done
  split
  · rfl
  · cases res with
    | failure c => exact f.cleanup_taken m
    | ok =>
      dsimp only
      split_ifs
      · rfl
      · exact f.cleanup_taken _
      · exact f.cleanup_taken _

end HTTPFetcher

namespace DownloadPipeline

variable {p : DownloadPipeline β}

theorem launch_taken (p : DownloadPipeline β) (env : Nat → StartEnv β) :
    (p.launch env).pipeline.mCurlMHandle.taken = p.mCurlMHandle.taken := by
  unfold launch
  generalize p.mPendingFetchers = pending
  generalize 0 = i
  induction pending generalizing i p with
  | nil => rfl
  | cons f pending ih =>
    unfold launchFrom
    dsimp only
    split
    · split
      · rw [ih]
        exact f.start_taken (env i) p.mCurlMHandle
      · exact f.start_taken (env i) p.mCurlMHandle
    · rfl

theorem restart_taken (p : DownloadPipeline β) (env : StartEnv β) :
    (p.restart env).pipeline.mCurlMHandle.taken = p.mCurlMHandle.taken := by
  unfold restart
  split
  · rfl
  · split
    · rename_i f rest _ _
      exact f.start_taken env p.mCurlMHandle
    · rfl

theorem handleEnd_taken (p : DownloadPipeline β) (e : EndEvent) :
    (p.handleEnd e).pipeline.mCurlMHandle.taken = p.mCurlMHandle.taken := by
  unfold handleEnd
  split
  · rfl
  · dsimp only
    split
    · rfl
    · rename_i f _
      exact (f.handleResult_taken _ _ _).trans rfl

theorem handleEnds_taken (es : List EndEvent) (p : DownloadPipeline β) :
    (p.handleEnds es).pipeline.mCurlMHandle.taken = p.mCurlMHandle.taken := by
  induction es generalizing p with
  | nil => rfl
  | cons e es ih =>
    unfold handleEnds
    split
    · rw [ih, handleEnd_taken]
    · exact p.handleEnd_taken e

theorem popFront_taken (p : DownloadPipeline β) : p.popFront.mCurlMHandle.taken = p.mCurlMHandle.taken := by
  unfold popFront
  split
  · rfl
  · rename_i f rest _
    exact f.cleanup_taken p.mCurlMHandle

theorem handOver_taken (p : DownloadPipeline β) (bs : List β) : (p.handOver bs).mCurlMHandle.taken = p.mCurlMHandle.taken := by
  unfold handOver
  split <;> rfl

/-! ## Turns and runs -/

/-- What was taken with one more delivery. -/
theorem deliver_allTaken (p : DownloadPipeline β) (e : NetEvent) :
    (p.deliver e).mCurlMHandle.AllTaken P ↔
      p.mCurlMHandle.AllTaken P ∧ ∀ o ∈ p.deliverOffer e, o.Fits → P o.status := by
  unfold deliver deliverOffer
  cases p.mCurlMHandle.find? e.easy with
  | none => simp
  | some t =>
    dsimp only
    cases p.mActiveFetchers.find? (fun f => f.this = t.userp) with
    | none =>
      simp only [List.not_mem_nil, false_implies, implies_true, and_true]
      exact Multi.allTaken_congr rfl
    | some f =>
      rw [List.forall_mem_singleton]
      exact f.offer_allTaken p.mCurlMHandle e.easy e.n

theorem deliverOffers_allTaken (es : List NetEvent) (p : DownloadPipeline β) :
    (es.foldl deliver p).mCurlMHandle.AllTaken P ↔
      p.mCurlMHandle.AllTaken P ∧ ∀ o ∈ p.deliverOffers es, o.Fits → P o.status := by
  induction es generalizing p with
  | nil => simp [deliverOffers]
  | cons e es ih => rw [List.foldl_cons, ih, deliver_allTaken, deliverOffers, List.forall_mem_append, and_assoc]

/-- What was taken once the front fetcher was asked for bytes. -/
theorem getFront_allTaken {bufflen : Nat} {resume : List (List Nat)} {got : Got β} {q : DownloadPipeline β}
    (h : p.getFront bufflen resume = some (got, q)) :
    q.mCurlMHandle.AllTaken P ↔ p.mCurlMHandle.AllTaken P ∧ ∀ o ∈ p.frontOffers resume, o.Fits → P o.status := by
  unfold getFront at h
  unfold frontOffers
  cases hactive : p.mActiveFetchers with
  | nil =>
    rw [hactive] at h
    cases h
  | cons f rest =>
    rw [hactive] at h
    cases h
    exact HTTPFetcher.get_allTaken bufflen resume f p.mCurlMHandle

/-- What was taken when the wait of a turn is over. -/
theorem waitMore_allTaken (p : DownloadPipeline β) (r : Round β) :
    (p.waitMore r).2.mCurlMHandle.AllTaken P ↔
      p.mCurlMHandle.AllTaken P ∧ ∀ o ∈ p.waitOffers r, o.Fits → P o.status := by
  have hrestart : (p.restart r.restart).pipeline.mCurlMHandle.AllTaken P ↔ p.mCurlMHandle.AllTaken P :=
    Multi.allTaken_congr (p.restart_taken r.restart)
  unfold waitMore waitOffers
  cases (p.restart r.restart).result with
  | error e => simpa using hrestart
  | ok u =>
    have hwait : ((p.restart r.restart).pipeline.wait r).pipeline.mCurlMHandle.AllTaken P ↔
        p.mCurlMHandle.AllTaken P ∧ ∀ o ∈ (if r.wait ∧ r.perform then
          (p.restart r.restart).pipeline.deliverOffers r.events else []), o.Fits → P o.status := by
      unfold wait
      by_cases hw : r.wait = true
      · by_cases hp : r.perform = true
        · rw [if_neg (not_not.2 hw), if_neg (not_not.2 hp), if_pos ⟨hw, hp⟩, Multi.allTaken_congr (handleEnds_taken _ _),
            deliverOffers_allTaken, hrestart]
        · rw [if_neg (not_not.2 hw), if_pos hp, if_neg (fun h => hp h.2)]
          simpa using hrestart
      · rw [if_pos hw, if_neg (fun h => hw h.1)]
        simpa using hrestart
    dsimp only
    cases ((p.restart r.restart).pipeline.wait r).result with
    | error e => exact hwait
    | ok u => exact hwait

end DownloadPipeline

/-- What was taken after a turn: what was taken before, and those of its offers that fit. -/
theorem ReadTurn.allTaken (t : ReadTurn β) :
    t.after.mCurlMHandle.AllTaken P ↔ t.before.mCurlMHandle.AllTaken P ∧ ∀ o ∈ t.offers, o.Fits → P o.status := by
  have hlaunch : t.launched.mCurlMHandle.AllTaken P ↔ t.before.mCurlMHandle.AllTaken P :=
    Multi.allTaken_congr (t.before.launch_taken t.round.launch)
  unfold ReadTurn.offers ReadTurn.getOffers ReadTurn.waitOffers
  cases t.course with
  | thrown e hl hnone hres hafter =>
    rw [hl, hnone, hafter, hlaunch]
    simp
  | empty hl hfront hnone hres hafter =>
    have hoffers : t.launched.frontOffers t.round.resume = [] := by
      unfold DownloadPipeline.getFront at hfront
      unfold DownloadPipeline.frontOffers
      cases hactive : t.launched.mActiveFetchers with
      | nil => rfl
      | cons f rest =>
        rw [hactive] at hfront
        cases hfront
    rw [hl, hnone, hafter, hlaunch]
    simp [hoffers]
  | leaves q hl hfront hnone hres hafter =>
    rw [hl, hnone, hafter, Multi.allTaken_congr q.popFront_taken, DownloadPipeline.getFront_allTaken hfront, hlaunch,
      List.append_nil]
  | bytes bs q hl hfront hsome hnone hres hafter =>
    rw [hl, hnone, hafter, Multi.allTaken_congr (q.handOver_taken bs), DownloadPipeline.getFront_allTaken hfront, hlaunch,
      List.append_nil]
  | waits got q hl hfront heof hnil hsome hres hafter =>
    rw [hl, hsome, hafter, DownloadPipeline.waitMore_allTaken, DownloadPipeline.getFront_allTaken hfront, hlaunch,
      List.forall_mem_append, and_assoc]

namespace DownloadPipeline

/-- What was taken after a call of `read`. -/
theorem read_allTaken (bufflen : Nat) (rounds : List (Round β)) (p : DownloadPipeline β) :
    (p.read bufflen rounds).2.mCurlMHandle.AllTaken P ↔
      p.mCurlMHandle.AllTaken P ∧ ∀ t ∈ p.turns bufflen rounds, ∀ o ∈ t.offers, o.Fits → P o.status := by
  induction rounds generalizing p with
  | nil => simp [read, turns]
  | cons r rounds ih =>
    have hturn := ReadTurn.allTaken (P := P) ⟨p, bufflen, r⟩
    unfold ReadTurn.after at hturn
    unfold read turns
    rw [List.forall_mem_cons, ← and_assoc, ← hturn]
    cases hres : p.readTurn bufflen r with
    | mk result q =>
      cases result with
      | again => exact ih q
      | bytes _ | eof | thrown _ => simp

/-- What was taken after a run: what was taken before it, and those of its offers that fit. -/
theorem run_allTaken (ops : List (PipelineOp β)) (p : DownloadPipeline β) :
    (ops.foldl PipelineOp.run p).mCurlMHandle.AllTaken P ↔
      p.mCurlMHandle.AllTaken P ∧ ∀ t ∈ p.runTurns ops, ∀ o ∈ t.offers, o.Fits → P o.status := by
  induction ops generalizing p with
  | nil => simp [runTurns]
  | cons op ops ih =>
    have hop : (op.run p).mCurlMHandle.AllTaken P ↔
        p.mCurlMHandle.AllTaken P ∧ ∀ t ∈ op.turns p, ∀ o ∈ t.offers, o.Fits → P o.status := by
      cases op with
      | add url host bucket cred buffsize offset len => simp [PipelineOp.turns, PipelineOp.run, add]
      | read bufflen rounds => exact read_allTaken bufflen rounds p
    rw [List.foldl_cons, ih, hop, runTurns, List.forall_mem_append, and_assoc]

end DownloadPipeline

end QingStor
