import QingStor.Lemmas.EasyHandles
import QingStor.Lemmas.Pauses

/-!
# Curl handles are used while they are alive

The constructor of a fetcher does not set its handle, `cleanup` sets it to null but leaves the fetcher paused, and `start` writes
over it. Where none of this shows, every call is on a live handle, and each handle is cleaned up once.
-/

namespace QingStor

variable {β : Type*}

/-- A fetcher's handle is one of its own: the transfer on it was registered by its own start. -/
def DownloadPipeline.OwnHandles (p : DownloadPipeline β) : Prop :=
  ∀ f ∈ p.fetchers, ∀ t ∈ p.mCurlMHandle.transfers, f.mCurl = .easy t.easy → t.userp = f.this

/-- In a run at whose end the pipeline is destroyed, each handle that is used was created before and was not cleaned up since, each
handle that was created is cleaned up once, and fetchers use their own handles. -/
structure HandlesAlive (nconnections : Int) (ops : List (PipelineOp β)) : Prop where
  used : ∀ before call after, (runPipeline nconnections ops).destroy.calls = before ++ call :: after →
    ∀ p ∈ call.operand, ∃ h, p = .easy h ∧ .easyInit h ∈ before ∧ .easyCleanup (.easy h) ∉ before
  once : ∀ h, .easyInit h ∈ (runPipeline nconnections ops).destroy.calls →
    (runPipeline nconnections ops).destroy.calls.count (.easyCleanup (.easy h)) = 1
  own : ∀ t ∈ DownloadPipeline.runTurns (.make nconnections) ops,
    t.before.OwnHandles ∧ t.launched.OwnHandles ∧ t.after.OwnHandles

namespace HandleLifeAux

open DownloadPipeline

/-- A sound book of no holders is in order when each handle was cleaned up once. -/
theorem inOrder_iff {calls : List CurlCall} {fresh : Nat} (hs : (⟨0, calls, fresh⟩ : HandleBook).Sound) :
    (⟨0, calls, fresh⟩ : HandleBook).InOrder ↔
      Lib.Each Allowed calls ∧ ∀ h, .easyInit h ∈ calls → calls.count (.easyCleanup (.easy h)) = 1 := by
  constructor
  · intro ho
    refine ⟨ho.used, fun h hinit => ?_⟩
    have hcleaned : CurlCall.easyCleanup (.easy h) ∈ calls := by
      by_contra hno
      exact absurd (ho.kept h ⟨hinit, hno⟩) (Multiset.notMem_zero _)
    have hpos := List.count_pos_iff.2 hcleaned
    have hone := hs.once h
    dsimp only at hone
    omega
  · rintro ⟨hused, honce⟩
    refine ⟨hused, fun h halive => ?_⟩
    have hcount := honce h halive.1
    rw [List.count_eq_zero.2 halive.2] at hcount
    cases hcount

theorem held_make (nconnections : Int) : (DownloadPipeline.make (β := β) nconnections).Held := by
  refine ⟨List.nodup_nil, ?_, ?_, ?_, ?_⟩
  · intro f hf
    cases hf
  · intro f hf
    cases hf
  · intro f hf
    cases hf
  · refine ⟨?_, ?_, ?_, ?_, ?_⟩ <;> simp [handleBook, DownloadPipeline.make, DownloadPipeline.fetchers, Multi.empty]

theorem inOrder_make (nconnections : Int) : (DownloadPipeline.make (β := β) nconnections).handleBook.InOrder := by
  refine ⟨Lib.each_nil, ?_⟩
  intro h halive
  exact absurd halive.1 (List.not_mem_nil)

/-- The calls of a run and of the destruction at its end. -/
theorem destroyed_iff (nconnections : Int) (ops : List (PipelineOp β)) :
    (Lib.Each Allowed (runPipeline nconnections ops).destroy.calls ∧
      ∀ h, .easyInit h ∈ (runPipeline nconnections ops).destroy.calls →
        (runPipeline nconnections ops).destroy.calls.count (.easyCleanup (.easy h)) = 1) ↔
    (∀ t ∈ DownloadPipeline.runTurns (.make nconnections) ops, t.PausesHandle ∧ t.DropsNone) ∧
      ∀ f ∈ (runPipeline nconnections ops).fetchers, f.mCurl ≠ .indeterminate := by
  obtain ⟨hheld, hrun⟩ := runTurns_lead ops (.make nconnections) (held_make nconnections)
  obtain ⟨hsound, hdestroyed⟩ :=
    destroyAll_leads (runPipeline nconnections ops).fetchers (runPipeline nconnections ops).mCurlMHandle hheld.sound
  have hdestroy :
      (runPipeline nconnections ops).fetchers.foldl (fun m f => f.destroy m) (runPipeline nconnections ops).mCurlMHandle =
      (runPipeline nconnections ops).destroy := by
    unfold DownloadPipeline.destroy fetchers
    rw [List.foldl_append]
  rw [hdestroy] at hsound hdestroyed
  have hinit : (DownloadPipeline.make (β := β) nconnections).handleBook.InOrder := inOrder_make nconnections
  rw [← inOrder_iff hsound, hdestroyed]
  exact and_congr_left' (hrun.trans (and_iff_right hinit))

end HandleLifeAux

/-- A run uses its handles while they are alive and cleans up each once, exactly if `get` takes no pause off a fetcher without a
handle, no restart with a new handle drops one, and every fetcher that is destroyed at the end had a handle once. -/
theorem handles_alive_iff (nconnections : Int) (ops : List (PipelineOp β)) :
    HandlesAlive nconnections ops ↔
      (∀ t ∈ DownloadPipeline.runTurns (.make nconnections) ops, t.PausesHandle ∧ t.DropsNone) ∧
        ∀ f ∈ (runPipeline nconnections ops).fetchers, f.mCurl ≠ .indeterminate := by
  rw [← HandleLifeAux.destroyed_iff]
  constructor
  · intro h
    exact ⟨h.used, h.once⟩
  · rintro ⟨hused, honce⟩
    refine ⟨hused, honce, fun t ht => ?_⟩
    have hbefore := DownloadPipeline.runTurns_synced nconnections ops t ht
    exact ⟨hbefore.own, hbefore.launched.own, hbefore.turn.own⟩

/-- A pipeline that is destroyed before the first read cleans up the handle its fetcher never had. -/
theorem handles_alive_false : ¬ ∀ (nconnections : Int) (ops : List (PipelineOp Byte)), HandlesAlive nconnections ops := by
  intro h
  have halive := h 1 [.add (lit "https://b.pek3a.qingstor.com/k") (lit "b.pek3a.qingstor.com") (lit "b") ⟨lit "id", lit "secret"⟩ 4 0 4]
  obtain ⟨e, he, _⟩ := halive.used [] (.easyCleanup .indeterminate) [] rfl .indeterminate rfl
  cases he

end QingStor
