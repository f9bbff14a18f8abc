import QingStor.Lemmas.Kept
import QingStor.Lemmas.Opened
import QingStor.Lemmas.Restarts
import QingStor.Theorems.DownloadFinishes

/-!
# How far a download reads ahead

The chunks that are asked for are a window of the plan that only moves on. It is as wide as there are connections, or reaches the end
of the plan, whenever the launch of a turn does not throw, and never wider. A call of `read` keeps the fetcher it took off the list
while it launches the next one; so the buffers of a reader take no more memory than one for each connection and one besides, however
long the range is and whatever curl does.
-/

namespace QingStor

variable {β : Type*}

/-- The chunk of a fetcher: its offset and its length. -/
def HTTPFetcher.span (f : HTTPFetcher β) : Int × Int := (f.mOffset, f.mLen)

/-- The memory of a fetcher's buffer. -/
def HTTPFetcher.buffer (f : HTTPFetcher β) : Nat := if f.mReadBuff.isSome then f.mBuffSize else 0

/-- The memory of the buffers of the fetchers in the lists. -/
def DownloadPipeline.allocated (p : DownloadPipeline β) : Nat := (p.fetchers.map HTTPFetcher.buffer).sum

/-- The fetcher a turn takes off the list. `current_fetcher` keeps it until the next turn of the call is behind its launch, or the call
is over. -/
def ReadTurn.popped (t : ReadTurn β) : Option (HTTPFetcher β) :=
  match (t.before.launch t.round.launch).result with
  | .error _ => none
  | .ok () =>
    match t.launched.getFront t.bufflen t.round.resume with
    | some (.eof, q) => q.mActiveFetchers.head?
    | _ => none

/-- The turns of a call of `read`, each with the fetcher that `current_fetcher` alone still holds when it begins. -/
def DownloadPipeline.heldTurns (bufflen : Nat) (held : Option (HTTPFetcher β)) (p : DownloadPipeline β) :
    List (Round β) → List (Option (HTTPFetcher β) × ReadTurn β)
  | [] => []
  | r :: rounds =>
    (held, ⟨p, bufflen, r⟩) :: match p.readTurn bufflen r with
      | (.again, q) => q.heldTurns bufflen (ReadTurn.popped ⟨p, bufflen, r⟩) rounds
      | _ => []

/-- The turns of the calls on a reader in the same way. -/
def QingStorReader.heldTurns (r : QingStorReader β) : List (Nat × List (Round β)) → List (Option (HTTPFetcher β) × ReadTurn β)
  | [] => []
  | c :: calls => r.mPipeline.heldTurns c.1 none c.2 ++ (QingStorReader.mk (r.mPipeline.read c.1 c.2).2).heldTurns calls

namespace ReadAheadAux

open DownloadPipeline

variable {E : StartEnv β → Prop} {p₀ p p' : DownloadPipeline β} {r : Except Fault Unit} {size : Nat}

/-- What stays of the fetchers of a pipeline: those left are the last ones, for their chunks, those waiting are as they were, and no
buffer is larger than `size`. -/
structure Ahead (p₀ p : DownloadPipeline β) (size : Nat) : Prop where
  distinct : p.Distinct
  waiting : p.mPendingFetchers <:+ p₀.mPendingFetchers
  last : p.fetchers.map (·.this) <:+ p₀.fetchers.map (·.this)
  span : ∀ f ∈ p.fetchers, ∃ f₀ ∈ p₀.fetchers, f₀.this = f.this ∧ f₀.span = f.span
  sized : ∀ f ∈ p.fetchers, f.confBuffSize ≤ size ∧ f.mBuffSize ≤ size
  connections : p.mNConnections = p₀.mNConnections

/-! ## Steps -/

/-- A start gives the buffer the size asked for, or leaves it as it is. -/
theorem start_buffer (f : HTTPFetcher β) (env : StartEnv β) (m : Multi β) :
    (f.start env m).fetcher.span = f.span ∧ (f.start env m).fetcher.confBuffSize = f.confBuffSize ∧
      ((f.start env m).fetcher.mBuffSize = f.mBuffSize ∨ (f.start env m).fetcher.mBuffSize = f.confBuffSize) := by
  have hprimed : (f.primed env).span = f.span ∧ (f.primed env).confBuffSize = f.confBuffSize ∧
      ((f.primed env).mBuffSize = f.mBuffSize ∨ (f.primed env).mBuffSize = f.confBuffSize) := by
    unfold HTTPFetcher.primed
    split
    · exact ⟨rfl, rfl, Or.inr rfl⟩
    · exact ⟨rfl, rfl, Or.inl rfl⟩
  rcases f.start_cases env m with ⟨e, he⟩ | ⟨_, _, headers, lines, ⟨e, he⟩ | ⟨_, he⟩⟩ <;>
  · rw [he]
    exact hprimed

/-- A step starts the first fetcher that waits, or none of them. -/
theorem step_waiting (hs : Step E p r p') : p'.mPendingFetchers <:+ p.mPendingFetchers := by
  cases hs with
  | launch hp _ =>
    rw [hp]
    exact List.suffix_cons _ _
  | restart _ _ _ | offer _ _ | resume _ | idle _ _ | pop _ _ _ | finish _ _ _ | stray _ _ | dangle _ _ => exact List.suffix_refl _

theorem step_ahead (h : Ahead p₀ p size) (hs : Step E p r p') : Ahead p₀ p' size := by
  refine ⟨hs.distinct h.distinct, (step_waiting hs).trans h.waiting, hs.fetchers_suffix.trans h.last, ?_, ?_,
    hs.handed.2.1.trans h.connections⟩
  · refine hs.fetchers_keep (P := fun f => ∃ f₀ ∈ p₀.fetchers, f₀.this = f.this ∧ f₀.span = f.span) ?_ ?_ ?_ h.span
    · rintro f g ⟨_, _, _, _, _, rfl⟩ hf
      exact hf
    · intro f _ _ _ _ _ hf
      exact hf
    · intro f env m hf
      rw [start_this, (start_buffer f env m).1]
      exact hf
  · refine hs.fetchers_keep (P := fun f => f.confBuffSize ≤ size ∧ f.mBuffSize ≤ size) ?_ ?_ ?_ h.sized
    · rintro f g ⟨_, _, _, _, _, rfl⟩ hf
      exact hf
    · intro f _ _ _ _ _ hf
      exact hf
    · intro f env m hf
      obtain ⟨_, hconf, hsize | hsize⟩ := start_buffer f env m <;> rw [hconf, hsize]
      · exact hf
      · exact ⟨hf.1, hf.1⟩

theorem handsOut_ahead {n : Nat} {bs : List β} (h : Ahead p₀ p size) (ho : p.HandsOut n bs p') : Ahead p₀ p' size := by
  obtain ⟨f, rest, ha, _, _, rfl⟩ := ho
  have hf := fetchers_front ha
  have hthis : ({ p with mActiveFetchers := (f.handOut n).2 :: rest, handed := p.handed ++ [(f.this, bs)] } :
      DownloadPipeline β).fetchers.map (·.this) = p.fetchers.map (·.this) := by
    rw [hf]
    rfl
  have hmem : ∀ {P : HTTPFetcher β → Prop}, (P f → P (f.handOut n).2) → (∀ k ∈ p.fetchers, P k) →
      ∀ k ∈ ({ p with mActiveFetchers := (f.handOut n).2 :: rest, handed := p.handed ++ [(f.this, bs)] } :
        DownloadPipeline β).fetchers, P k := by
    intro P hP hall k hk
    rw [hf] at hall
    rcases List.mem_cons.1 hk with rfl | hk
    · exact hP (hall f (List.mem_cons_self ..))
    · exact hall k (List.mem_cons_of_mem _ hk)
  refine ⟨?_, h.waiting, hthis ▸ h.last, hmem (fun hk => hk) h.span, hmem (fun hk => hk) h.sized, h.connections⟩
  unfold Distinct
  rw [hthis]
  exact h.distinct

/-! ## Connections -/

/-- A launch goes on only while there is a connection. -/
theorem launchFrom_few (env : Nat → StartEnv β) (i : Nat) (pending : List (HTTPFetcher β)) {p : DownloadPipeline β}
    (h : p.mActiveFetchers.length ≤ p.mNConnections.toNat) :
    (launchFrom env i pending p).pipeline.mActiveFetchers.length ≤ p.mNConnections.toNat := by
  induction pending generalizing p i with
  | nil => exact h
  | cons f pending ih =>
    unfold launchFrom
    split
    · rename_i hroom
      have hjoined : (p.mActiveFetchers ++ [(f.start (env i) p.mCurlMHandle).fetcher]).length ≤ p.mNConnections.toNat := by
        rw [List.length_append, List.length_singleton]
        omega
      dsimp only
      split
      · exact ih (i + 1) (p := { p with
          mActiveFetchers := p.mActiveFetchers ++ [(f.start (env i) p.mCurlMHandle).fetcher]
          mPendingFetchers := pending
          mCurlMHandle := (f.start (env i) p.mCurlMHandle).multi }) hjoined
      · exact hjoined
    · exact h

theorem length_of_this {l l' : List (HTTPFetcher β)} (h : l.map (·.this) = l'.map (·.this)) : l.length = l'.length := by
  have hlen := congrArg List.length h
  rwa [List.length_map, List.length_map] at hlen

/-- After its launch a turn starts no further fetcher. -/
theorem turn_few (t : ReadTurn β) : t.after.mActiveFetchers.length ≤ t.launched.mActiveFetchers.length := by
  have hfront : ∀ {got : Got β} {q : DownloadPipeline β}, t.launched.getFront t.bufflen t.round.resume = some (got, q) →
      q.mActiveFetchers.length = t.launched.mActiveFetchers.length := by
    intro got q h
    unfold getFront at h
    split at h
    · cases h
    · rename_i f rest ha
      cases h
      rw [ha]
      rfl
  cases t.course with
  | thrown _ _ _ _ hafter | empty _ _ _ _ hafter => rw [hafter]
  | leaves q _ hq _ _ hafter =>
    rw [hafter, ← hfront hq]
    unfold popFront
    split
    · exact le_rfl
    · rename_i f rest ha
      rw [ha]
      exact Nat.le_succ _
  | bytes bs q _ hq _ _ _ hafter =>
    rw [hafter, ← hfront hq]
    unfold handOver
    split <;> exact le_rfl
  | waits got q _ hq _ _ _ _ hafter => rw [hafter, ← hfront hq, length_of_this (BookkeepingAux.waitMore_this q t.round)]

/-! ## Turns -/

theorem ahead_launched {t : ReadTurn β} (h : Ahead p₀ t.before size) : Ahead p₀ t.launched size := by
  have hrun : Lib.Run (Step fun _ => True) t.before (t.before.launch t.round.launch).result t.launched :=
    (launchFrom_run (fun _ => trivial) t.before.mPendingFetchers 0 rfl).1
  exact hrun.keeps (I := fun p => Ahead p₀ p size) (fun _ _ _ h hs => step_ahead h hs) h

theorem ahead_after {t : ReadTurn β} (h : Ahead p₀ t.before size) : Ahead p₀ t.after size :=
  readTurn_keeps (E := fun _ => True) (fun _ h => h.distinct) (fun _ _ _ h hs => step_ahead h hs) (fun _ _ _ _ h ho => handsOut_ahead h ho)
    t.bufflen (fun _ => trivial) trivial h

/-- What holds between the turns of a reader. -/
def Between (p₀ p : DownloadPipeline β) (size : Nat) : Prop :=
  Ahead p₀ p size ∧ p.mActiveFetchers.length ≤ p₀.mNConnections.toNat

theorem few_launched {t : ReadTurn β} (h : Between p₀ t.before size) :
    t.launched.mActiveFetchers.length ≤ p₀.mNConnections.toNat := by
  have hfew := h.2
  rw [← h.1.connections] at hfew ⊢
  exact launchFrom_few t.round.launch 0 t.before.mPendingFetchers hfew

theorem between_after {t : ReadTurn β} (h : Between p₀ t.before size) : Between p₀ t.after size :=
  ⟨ahead_after h.1, (turn_few t).trans (few_launched h)⟩

/-- It holds at every turn of calls of `read`. -/
theorem turns_between (h : Between p₀ p size) (calls : List (Nat × List (Round β))) :
    ∀ t ∈ (QingStorReader.mk p).turns calls, Between p₀ t.before size := by
  induction calls generalizing p with
  | nil =>
    intro t ht
    cases ht
  | cons c calls ih =>
    obtain ⟨hread, hturns⟩ := turns_keep (C := fun _ => True) (I := fun q => Between p₀ q size) (fun _ h _ => between_after h) c.1 c.2 h
      (fun _ _ => trivial)
    intro t ht
    rcases List.mem_append.1 (show t ∈ p.turns c.1 c.2 ++ (QingStorReader.mk (p.read c.1 c.2).2).turns calls from ht) with ht | ht
    · exact hturns t ht
    · exact ih hread t ht

/-! ## The fetcher a call still holds -/

/-- The held fetcher was taken off by the turn before, if there is one. -/
theorem mem_heldTurns_read {n : Nat} {rounds : List (Round β)} {held : Option (HTTPFetcher β)}
    {e : Option (HTTPFetcher β) × ReadTurn β} (he : e ∈ p.heldTurns n held rounds) :
    e.2 ∈ p.turns n rounds ∧ (e.1 = held ∨ ∃ t ∈ p.turns n rounds, e.1 = t.popped) := by
  induction rounds generalizing p held with
  | nil => cases he
  | cons r rounds ih =>
    unfold DownloadPipeline.heldTurns at he
    unfold turns
    rcases List.mem_cons.1 he with rfl | he
    · exact ⟨List.mem_cons_self, Or.inl rfl⟩
    · cases hres : p.readTurn n r with
      | mk result q =>
        rw [hres] at he
        cases result with
        | again =>
          obtain ⟨hmem, hheld⟩ := ih he
          refine ⟨List.mem_cons_of_mem _ hmem, Or.inr ?_⟩
          rcases hheld with hheld | ⟨t, ht, hheld⟩
          · exact ⟨_, List.mem_cons_self, hheld⟩
          · exact ⟨t, List.mem_cons_of_mem _ ht, hheld⟩
        | bytes _ | eof | thrown _ => cases he

theorem mem_heldTurns {calls : List (Nat × List (Round β))} {e : Option (HTTPFetcher β) × ReadTurn β}
    (he : e ∈ (QingStorReader.mk p).heldTurns calls) :
    e.2 ∈ (QingStorReader.mk p).turns calls ∧ (e.1 = none ∨ ∃ t ∈ (QingStorReader.mk p).turns calls, e.1 = t.popped) := by
  induction calls generalizing p with
  | nil => cases he
  | cons c calls ih =>
    have hturns : (QingStorReader.mk p).turns (c :: calls) =
        p.turns c.1 c.2 ++ (QingStorReader.mk (p.read c.1 c.2).2).turns calls := rfl
    rw [hturns]
    rcases List.mem_append.1 he with he | he
    · obtain ⟨hmem, hheld⟩ := mem_heldTurns_read he
      refine ⟨List.mem_append_left _ hmem, ?_⟩
      rcases hheld with hnone | ⟨t, ht, hheld⟩
      · exact Or.inl hnone
      · exact Or.inr ⟨t, List.mem_append_left _ ht, hheld⟩
    · obtain ⟨hmem, hheld⟩ := ih he
      refine ⟨List.mem_append_right _ hmem, ?_⟩
      rcases hheld with hnone | ⟨t, ht, hheld⟩
      · exact Or.inl hnone
      · exact Or.inr ⟨t, List.mem_append_right _ ht, hheld⟩

/-- A turn takes the front fetcher off at its end, or none. -/
theorem popped_cases (t : ReadTurn β) :
    t.popped = none ∨ ∃ q f rest, t.launched.getFront t.bufflen t.round.resume = some (.eof, q) ∧ q.mActiveFetchers = f :: rest ∧
      t.popped = some f ∧ t.after = q.popFront := by
  unfold ReadTurn.popped
  cases t.course with
  | thrown e hl _ _ _ =>
    rw [hl]
    exact Or.inl rfl
  | empty hl hfront _ _ _ =>
    rw [hl, hfront]
    exact Or.inl rfl
  | leaves q hl hfront _ _ hafter =>
    rw [hl, hfront]
    cases ha : q.mActiveFetchers with
    | nil => exact Or.inl (by simp [ha])
    | cons f rest => exact Or.inr ⟨q, f, rest, rfl, ha, by simp [ha], hafter⟩
  | bytes bs q hl hfront _ _ _ _ =>
    rw [hl, hfront]
    exact Or.inl rfl
  | waits got q hl hfront heof _ _ _ _ =>
    rw [hl, hfront]
    cases got with
    | eof => exact absurd rfl heof
    | bytes _ | nothing => exact Or.inl rfl

/-! ## What it comes to -/

/-- Fetchers at the addresses of others are for the chunks of these. -/
theorem span_of_this {l l₀ all : List (HTTPFetcher β)} (hall : (all.map (·.this)).Nodup) (hsub : ∀ f ∈ l₀, f ∈ all)
    (hthis : l.map (·.this) = l₀.map (·.this)) (hspan : ∀ f ∈ l, ∃ f₀ ∈ all, f₀.this = f.this ∧ f₀.span = f.span) :
    l.map HTTPFetcher.span = l₀.map HTTPFetcher.span := by
  induction l generalizing l₀ with
  | nil => rw [List.map_eq_nil_iff.1 hthis.symm]
  | cons f l ih =>
    cases l₀ with
    | nil => cases hthis
    | cons g l₀ =>
      rw [List.map_cons, List.map_cons, List.cons_eq_cons] at hthis
      obtain ⟨f₀, hf₀, hsame, heq⟩ := hspan f (List.mem_cons_self ..)
      obtain rfl : f₀ = g :=
        List.inj_on_of_nodup_map hall hf₀ (hsub g (List.mem_cons_self ..)) (hsame.trans hthis.1)
      rw [List.map_cons, List.map_cons, heq,
        ih (fun k hk => hsub k (List.mem_cons_of_mem _ hk)) hthis.2 (fun k hk => hspan k (List.mem_cons_of_mem _ hk))]

/-- The fetchers that are left are for the last chunks of the plan. -/
theorem Ahead.window (h : Ahead p₀ p size) (hd : p₀.Distinct) :
    ∃ i, (p₀.fetchers.map HTTPFetcher.span).drop i =
      p.mActiveFetchers.map HTTPFetcher.span ++ p.mPendingFetchers.map HTTPFetcher.span := by
  obtain ⟨gone, hgone⟩ := h.last
  refine ⟨gone.length, ?_⟩
  have hthis : p.fetchers.map (·.this) = (p₀.fetchers.drop gone.length).map (·.this) := by
    rw [List.map_drop, ← hgone, List.drop_left]
  rw [← List.map_drop, ← span_of_this hd (fun f hf => List.mem_of_mem_drop hf) hthis h.span]
  exact List.map_append

theorem Ahead.buffer_le (h : Ahead p₀ p size) {f : HTTPFetcher β} (hf : f ∈ p.fetchers) : f.buffer ≤ size := by
  unfold HTTPFetcher.buffer
  split
  · exact (h.sized f hf).2
  · exact Nat.zero_le _

/-- Only the active fetchers have a buffer. -/
theorem Ahead.allocated_le (h : Ahead p₀ p size) (hnone : ∀ f ∈ p₀.mPendingFetchers, f.mReadBuff = none) :
    p.allocated ≤ p.mActiveFetchers.length * size := by
  have hactive : ∀ n ∈ p.mActiveFetchers.map HTTPFetcher.buffer, n ≤ size := by
    intro n hn
    obtain ⟨f, hf, rfl⟩ := List.mem_map.1 hn
    exact h.buffer_le (active_subset_fetchers hf)
  have hpending : ∀ n ∈ p.mPendingFetchers.map HTTPFetcher.buffer, n = 0 := by
    intro n hn
    obtain ⟨f, hf, rfl⟩ := List.mem_map.1 hn
    rw [HTTPFetcher.buffer, hnone f (h.waiting.subset hf)]
    rfl
  have hle := List.sum_le_card_nsmul _ _ hactive
  rw [List.length_map, smul_eq_mul] at hle
  unfold allocated fetchers
  rw [List.map_append, List.sum_append, List.sum_eq_zero hpending]
  exact hle

/-- What a turn leaves, with the fetcher it took off: no more than what was active in it. -/
theorem after_allocated_le {t : ReadTurn β} (h : Between p₀ t.before size) (hnone : ∀ f ∈ p₀.mPendingFetchers, f.mReadBuff = none) :
    t.after.allocated + t.popped.elim 0 HTTPFetcher.buffer ≤ p₀.mNConnections.toNat * size := by
  rcases popped_cases t with hpop | ⟨q, f, rest, hfront, ha, hpop, hafter⟩
  · obtain ⟨hahead, hfew⟩ := between_after h
    rw [hpop, Option.elim_none, Nat.add_zero]
    exact (hahead.allocated_le hnone).trans (Nat.mul_le_mul_right _ hfew)
  · have hq : Ahead p₀ q size :=
      (getFront_nothing (E := fun _ => True) hfront (fun _ hgot => by cases hgot)).keeps (I := fun p => Ahead p₀ p size)
        (fun _ _ _ h hs => step_ahead h hs) (ahead_launched h.1)
    have hactive : q.mActiveFetchers.length = t.launched.mActiveFetchers.length := by
      unfold getFront at hfront
      split at hfront
      · cases hfront
      · rename_i g tail hl
        obtain ⟨-, rfl⟩ := Prod.mk.inj (Option.some.inj hfront)
        rw [hl]
        rfl
    have hsum : t.after.allocated + f.buffer = q.allocated := by
      have hafter' : t.after.fetchers = rest ++ q.mPendingFetchers := by
        rw [hafter]
        unfold popFront
        rw [ha]
        rfl
      rw [allocated, allocated, hafter', fetchers, ha, List.cons_append, List.map_cons, List.sum_cons, Nat.add_comm]
    rw [hpop, Option.elim_some, hsum]
    refine (hq.allocated_le hnone).trans (Nat.mul_le_mul_right _ ?_)
    rw [hactive]
    exact few_launched h

/-- The buffer of the fetcher a turn takes off. -/
theorem popped_buffer_le {t : ReadTurn β} (h : Between p₀ t.before size) : t.popped.elim 0 HTTPFetcher.buffer ≤ size := by
  rcases popped_cases t with hpop | ⟨q, f, rest, hfront, ha, hpop, -⟩
  · rw [hpop]
    exact Nat.zero_le _
  · have hq : Ahead p₀ q size :=
      (getFront_nothing (E := fun _ => True) hfront (fun _ hgot => by cases hgot)).keeps (I := fun p => Ahead p₀ p size)
        (fun _ _ _ h hs => step_ahead h hs) (ahead_launched h.1)
    rw [hpop, Option.elim_some]
    refine hq.buffer_le (active_subset_fetchers ?_)
    rw [ha]
    exact List.mem_cons_self

/-! ## Readers -/

/-- A pipeline that was set up has done nothing yet. -/
theorem ahead_setup {cfg : Configuration} {bucket : Str} {object : ObjectInfo} {fuel : Nat}
    (hopen : setupPipeline cfg bucket object fuel = some (.ok p)) :
    Between p p (max 16384 cfg.chunking.2).toNat ∧ p.mActiveFetchers = [] ∧ p.mNConnections = cfg.mNConnections ∧
      ∀ f ∈ p.mPendingFetchers, f.mReadBuff = none := by
  unfold setupPipeline at hopen
  obtain ⟨chunked, _, hmap⟩ := Option.map_eq_some_iff.1 hopen
  cases chunked with
  | error f => cases hmap
  | ok chunks =>
    obtain rfl := Except.ok.inj hmap
    have hactive := OpenedAux.addChunks_active cfg bucket object chunks (.make (β := β) cfg.mNConnections)
    obtain ⟨hconns, _⟩ := addChunks_keeps cfg bucket object chunks (.make (β := β) cfg.mNConnections)
    have htidy : (addChunks cfg bucket object (.make (β := β) cfg.mNConnections) chunks).Tidy :=
      Lib.foldl_keeps (tidy_make cfg.mNConnections) (fun _ _ _ hp => hp.add _ _ _ _ _ _ _) chunks (List.prefix_refl chunks)
    have hmade : ∀ f ∈ (addChunks cfg bucket object (.make (β := β) cfg.mNConnections) chunks).mPendingFetchers,
        f.mConfBuffSize = cfg.chunking.2 ∧ f.mBuffSize = 0 ∧ f.mReadBuff = none := by
      intro f hf
      rcases made_addChunks hf with hf | ⟨this, c, _, rfl⟩
      · cases hf
      · exact ⟨rfl, rfl, rfl⟩
    refine ⟨⟨⟨htidy.distinct, List.suffix_refl _, List.suffix_refl _, fun f hf => ⟨f, hf, rfl, rfl⟩, fun f hf => ?_, rfl⟩, ?_⟩, hactive,
      hconns, fun f hf => (hmade f hf).2.2⟩
    · rw [fetchers, hactive] at hf
      obtain ⟨hconf, hsize, _⟩ := hmade f hf
      unfold HTTPFetcher.confBuffSize curlMaxWriteSize
      rw [hconf, hsize]
      refine ⟨?_, Nat.zero_le _⟩
      split <;> omega
    · rw [hactive]
      exact Nat.zero_le _

end ReadAheadAux

/-- In each turn of the calls on a reader: the chunks being asked for and the chunks waiting are what is left of the plan; no more are
asked for than there are connections, and no fewer while any wait, unless a start throws. While the turn launches, the buffers take
no more memory than one for each connection and that of the fetcher the turn before took off; at its end, one for each connection. -/
theorem reads_ahead (cfg : Configuration) (bucket : Str) (object : ObjectInfo) (fuel : Nat) (p : DownloadPipeline β)
    (hopen : setupPipeline cfg bucket object fuel = some (.ok p)) (calls : List (Nat × List (Round β))) :
    ∀ e ∈ (QingStorReader.mk p).heldTurns calls,
      (∃ i, (p.mPendingFetchers.map HTTPFetcher.span).drop i =
        e.2.launched.mActiveFetchers.map HTTPFetcher.span ++ e.2.launched.mPendingFetchers.map HTTPFetcher.span) ∧
      e.2.launched.mActiveFetchers.length ≤ cfg.mNConnections.toNat ∧
      ((e.2.before.launch e.2.round.launch).result = .ok () →
        e.2.launched.mActiveFetchers.length = cfg.mNConnections.toNat ∨ e.2.launched.mPendingFetchers = []) ∧
      e.2.launched.allocated + e.1.elim 0 HTTPFetcher.buffer ≤
        (cfg.mNConnections.toNat + 1) * (max 16384 cfg.chunking.2).toNat ∧
      e.2.after.allocated + e.2.popped.elim 0 HTTPFetcher.buffer ≤
        cfg.mNConnections.toNat * (max 16384 cfg.chunking.2).toNat := by
  intro e he
  obtain ⟨hbetween, hactive, hconns, hnone⟩ := ReadAheadAux.ahead_setup hopen
  obtain ⟨ht, hheld⟩ := ReadAheadAux.mem_heldTurns he
  have hbefore := ReadAheadAux.turns_between hbetween calls e.2 ht
  have hfew := ReadAheadAux.few_launched hbefore
  have hlaunched := ReadAheadAux.ahead_launched hbefore.1
  have hafter := ReadAheadAux.after_allocated_le hbefore hnone
  rw [hconns] at hfew hafter
  refine ⟨?_, hfew, fun hok => ?_, ?_, hafter⟩
  · obtain ⟨i, hi⟩ := hlaunched.window hbetween.1.distinct
    refine ⟨i, ?_⟩
    rw [← hi, DownloadPipeline.fetchers, hactive, List.nil_append]
  · have hor := (DownloadPipeline.launchFrom_run (E := fun _ => True) (fun _ => trivial) e.2.before.mPendingFetchers 0 rfl).2 hok
    rw [hbefore.1.connections, hconns] at hor
    exact hor.symm.imp_left (fun hfull => le_antisymm hfew (Int.toNat_le.2 hfull))
  · have hlists := (hlaunched.allocated_le hnone).trans (Nat.mul_le_mul_right _ hfew)
    have hone : e.1.elim 0 HTTPFetcher.buffer ≤ (max 16384 cfg.chunking.2).toNat := by
      rcases hheld with hnil | ⟨t, htmem, hpop⟩
      · rw [hnil]
        exact Nat.zero_le _
      · rw [hpop]
        exact ReadAheadAux.popped_buffer_le (ReadAheadAux.turns_between hbetween calls t htmem)
    rw [Nat.add_mul, Nat.one_mul]
    exact Nat.add_le_add hlists hone

/-- The general statement for ten bytes in chunks of four, over three connections: whatever happens, the chunks being asked for and
those waiting are the last of the three, and the buffers take no more than four times what curl delivers at once. -/
theorem reads_ahead_ten :
    ∃ p : DownloadPipeline Byte,
      setupPipeline (.ofArguments (lit "pek3a") (lit "id") (lit "secret") 4) (lit "b") ⟨lit "k", 10, ⟨0, 9⟩⟩ 3 = some (.ok p) ∧
      ∀ calls, ∀ e ∈ (QingStorReader.mk p).heldTurns calls,
        (∃ i, [((0 : Int), (4 : Int)), (4, 4), (8, 2)].drop i =
          e.2.launched.mActiveFetchers.map HTTPFetcher.span ++ e.2.launched.mPendingFetchers.map HTTPFetcher.span) ∧
        e.2.launched.allocated + e.1.elim 0 HTTPFetcher.buffer ≤ 4 * 16384 := by
  refine ⟨_, rfl, fun calls e he => ?_⟩
  obtain ⟨hwindow, _, _, hlaunched, _⟩ := reads_ahead (.ofArguments (lit "pek3a") (lit "id") (lit "secret") 4) (lit "b")
    ⟨lit "k", 10, ⟨0, 9⟩⟩ 3 _ rfl calls e he
  exact ⟨hwindow, hlaunched⟩

end QingStor
