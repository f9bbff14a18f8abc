import QingStor.TurnRun

/-!
# What the turns of a run keep

`Course` says what one turn may come to. An invariant of the pipeline that each turn keeps, perhaps only under a condition on the
turn, holds at every turn of a run whose turns meet the condition, and between its operations.
-/

namespace QingStor

variable {β : Type*}

/-- What a turn comes to: its launch throws, there is nothing to read from, the front fetcher leaves, bytes are handed over, or the
front fetcher gave nothing, and the turn goes on to a restart and a wait. -/
inductive ReadTurn.Course (t : ReadTurn β) : Prop
  | thrown (e : Fault) : (t.before.launch t.round.launch).result = .error e → t.beforeRestart = none → t.result = .thrown e →
      t.after = t.launched → Course t
  | empty : (t.before.launch t.round.launch).result = .ok () → t.launched.getFront t.bufflen t.round.resume = none →
      t.beforeRestart = none → t.result = .eof → t.after = t.launched → Course t
  | leaves (q : DownloadPipeline β) : (t.before.launch t.round.launch).result = .ok () →
      t.launched.getFront t.bufflen t.round.resume = some (.eof, q) → t.beforeRestart = none → t.result = .again →
      t.after = q.popFront → Course t
  | bytes (bs : List β) (q : DownloadPipeline β) : (t.before.launch t.round.launch).result = .ok () →
      t.launched.getFront t.bufflen t.round.resume = some (.bytes bs, q) → 0 < bs.length → t.beforeRestart = none →
      t.result = .bytes bs → t.after = q.handOver bs → Course t
  | waits (got : Got β) (q : DownloadPipeline β) : (t.before.launch t.round.launch).result = .ok () →
      t.launched.getFront t.bufflen t.round.resume = some (got, q) → got ≠ .eof → (∀ bs, got = .bytes bs → bs = []) →
      t.beforeRestart = some q → t.result = (q.waitMore t.round).1 → t.after = (q.waitMore t.round).2 → Course t

theorem ReadTurn.course (t : ReadTurn β) : t.Course := by
  have hres : t.result = (t.before.readTurn t.bufflen t.round).1 := rfl
  have hafter : t.after = (t.before.readTurn t.bufflen t.round).2 := rfl
  have hwaits : t.beforeRestart = t.beforeRestart := rfl
  unfold DownloadPipeline.readTurn at hres hafter
  conv at hwaits =>
    rhs
    unfold ReadTurn.beforeRestart
  rw [show (t.before.launch t.round.launch).pipeline = t.launched from rfl] at hres hafter
  cases hl : (t.before.launch t.round.launch).result with
  | error e =>
    rw [hl] at hres hafter hwaits
    exact .thrown e hl hwaits hres hafter
  | ok u =>
    rw [hl] at hres hafter hwaits
    cases hfront : t.launched.getFront t.bufflen t.round.resume with
    | none =>
      rw [hfront] at hres hafter hwaits
      exact .empty hl hfront hwaits hres hafter
    | some s =>
      obtain ⟨got, q⟩ := s
      rw [hfront] at hres hafter hwaits
      dsimp only at hres hafter hwaits
      cases got with
      | eof => exact .leaves q hl hfront hwaits hres hafter
      | nothing => exact .waits _ q hl hfront (fun h => by cases h) (fun _ h => by cases h) hwaits hres hafter
      | bytes bs =>
        unfold DownloadPipeline.afterGet at hres hafter
        dsimp only at hres hafter hwaits
        by_cases hsome : bs.length > 0
        · rw [if_pos hsome] at hres hafter hwaits
          exact .bytes bs q hl hfront hsome hwaits hres hafter
        · rw [if_neg hsome] at hres hafter hwaits
          have hnil : bs = [] := List.length_eq_zero_iff.1 (Nat.eq_zero_of_not_pos hsome)
          exact .waits _ q hl hfront (fun h => by cases h) (fun _ h => (Got.bytes.inj h) ▸ hnil) hwaits hres hafter

/-- A turn that comes to the line of the restart got nothing from the front fetcher, and goes on to wait. -/
theorem ReadTurn.of_beforeRestart {t : ReadTurn β} {q : DownloadPipeline β} (hq : t.beforeRestart = some q) :
    (∃ got, t.launched.getFront t.bufflen t.round.resume = some (got, q) ∧ ∀ bs, got = .bytes bs → bs = []) ∧
      t.result = (q.waitMore t.round).1 ∧ t.after = (q.waitMore t.round).2 := by
  cases t.course with
  | thrown _ _ hnone | empty _ _ hnone | leaves _ _ _ hnone | bytes _ _ _ _ _ hnone =>
    rw [hnone] at hq
    cases hq
  | waits got p _ hfront _ hnone hsome hres hafter =>
    obtain rfl := Option.some.inj (hsome.symm.trans hq)
    exact ⟨⟨got, hfront, hnone⟩, hres, hafter⟩

namespace DownloadPipeline

variable {p : DownloadPipeline β} {I : DownloadPipeline β → Prop} {C : ReadTurn β → Prop}

/-- What each turn keeps, a call of `read` keeps. -/
theorem turns_keep (hturn : ∀ t : ReadTurn β, I t.before → C t → I t.after) (n : Nat) (rounds : List (Round β)) (h : I p)
    (hC : ∀ t ∈ p.turns n rounds, C t) : I (p.read n rounds).2 ∧ ∀ t ∈ p.turns n rounds, I t.before := by
  induction rounds generalizing p with
  | nil => exact ⟨h, fun t ht => by cases ht⟩
  | cons r rounds ih =>
    unfold turns at hC ⊢
    unfold DownloadPipeline.read
    have hafter : I (p.readTurn n r).2 := hturn ⟨p, n, r⟩ h (hC _ (List.mem_cons_self ..))
    cases hres : p.readTurn n r with
    | mk result q =>
      rw [hres] at hC hafter
      cases result with
      | again =>
        obtain ⟨hend, hturns⟩ := ih hafter (fun t ht => hC t (List.mem_cons_of_mem _ ht))
        refine ⟨hend, fun t ht => ?_⟩
        rcases List.mem_cons.1 ht with rfl | ht
        · exact h
        · exact hturns t ht
      | bytes _ | eof | thrown _ =>
        refine ⟨hafter, fun t ht => ?_⟩
        obtain rfl := List.mem_singleton.1 ht
        exact h

/-- What each turn and each added fetcher keep, a run of operations keeps. -/
theorem runTurns_keep (hturn : ∀ t : ReadTurn β, I t.before → C t → I t.after)
    (hadd : ∀ (p : DownloadPipeline β) url host bucket cred buffsize offset len, I p →
      I ((PipelineOp.add url host bucket cred buffsize offset len).run p)) (ops : List (PipelineOp β)) (h : I p)
    (hC : ∀ t ∈ p.runTurns ops, C t) :
    (∀ done, done <+: ops → I (done.foldl PipelineOp.run p)) ∧ ∀ t ∈ p.runTurns ops, I t.before := by
  induction ops generalizing p with
  | nil =>
    refine ⟨fun done hdone => ?_, fun t ht => by cases ht⟩
    rw [List.prefix_nil.1 hdone]
    exact h
  | cons op ops ih =>
    unfold runTurns at hC ⊢
    have hop : I (op.run p) ∧ ∀ t ∈ op.turns p, I t.before := by
      cases op with
      | add url host bucket cred buffsize offset len =>
        exact ⟨hadd p url host bucket cred buffsize offset len h, fun t ht => by cases ht⟩
      | read n rounds => exact turns_keep hturn n rounds h (fun t ht => hC t (List.mem_append_left _ ht))
    obtain ⟨hbetween, hturns⟩ := ih hop.1 (fun t ht => hC t (List.mem_append_right _ ht))
    refine ⟨fun done hdone => ?_, fun t ht => ?_⟩
    · rcases List.prefix_cons_iff.1 hdone with rfl | ⟨rest, rfl, hrest⟩
      · exact h
      · exact hbetween rest hrest
    · rcases List.mem_append.1 ht with ht | ht
      · exact hop.2 t ht
      · exact hturns t ht

end DownloadPipeline

end QingStor
