import QingStor.Theorems.UploadRetry
import QingStor.Theorems.UploadSucceeds

/-!
# What curl takes of an upload

An upload whose calls all report success is a row of parts and a completion that names them. Of each part curl takes bytes at several
attempts, and only the last of them was answered. Put together in the order the completion names the parts, what curl took of them at
the answered attempts is what was written exactly when it took each part whole there, and nothing of it before.
-/

namespace QingStor

/-- The bytes curl takes of the body of a request; `none` where that reads past the end of the caller's memory. -/
def Request.carried (r : Request) (x : Exchange) : Option (List Byte) :=
  match r.infile with
  | some md => (memReadAll md x.pulls).1
  | none => some []

/-- What curl took of the body of an upload at the attempt that was answered: `DoGetJSON` returns with the last request it sent. -/
def answeredBody (J : JsonC) (a : RequestArgs) (md : MemoryData) (retries : Int) (xs : Nat → Exchange) : Option (List Byte) :=
  let o := doGetJSON J a (some md) retries xs
  match o.result with
  | .ok _ => o.state.sent.getLast?.bind (fun r => r.carried (xs o.last))
  | .error _ => none

/-- What curl took of the part under a number, for a writer whose requests from the first on are the parts `sends`. -/
def QingStorWriter.carried (J : JsonC) (net : Network) (w : QingStorWriter) (sends : List Send) (num : Int) : Option (List Byte) :=
  sends[num.toNat]?.bind (fun s =>
    answeredBody J { w with mPartNum := num }.partArgs s.body w.mConfiguration.mConnectionRetries (net num.toNat))

namespace CarriedAux

variable {J : JsonC} {net : Network}

/-! ## One part -/

/-- The bytes of a call of `doSend` are there, and their number is not narrowed. -/
def Whole (s : Send) : Prop := 0 ≤ s.length ∧ s.length ≤ s.data.length ∧ s.length < 2 ^ 31

/-- A run of writes that all report success has a row of parts that it sends, each of them stored. -/
theorem exists_sends {cfg : Configuration} {bucket key : Str} {cache : Bool} {xs : Nat → Exchange} {w₀ w : QingStorWriter}
    {buffers : List (List Byte)} (hchunk : 1 ≤ cfg.mChunkSize) (hopen : QingStorWriter.make J cfg bucket key cache xs = .ok w₀)
    (hrun : Writes J net w₀ (buffers.map (·, true)) w) :
    ∃ sends, Sends J net w₀ buffers w sends ∧ List.Forall₂ (RecordOf (.ok ())) w.calls sends := by
  have h₀ := UploadSucceedsAux.sending_make hchunk hopen
  induction buffers using List.reverseRecOn generalizing w with
  | nil =>
    rw [UploadSucceedsAux.writes_nil hrun, (QingStorWriter.fitting_make hopen).2.1]
    exact ⟨[], .start, .nil⟩
  | append_singleton buffers buffer ih =>
    have hbuffers := UploadSucceedsAux.writes_buffers hrun
    have hall : ∀ b ∈ buffers, b ≠ [] ∧ b.length < 2 ^ 31 := fun b hb => hbuffers (b, true) (by simp [hb])
    obtain ⟨hne, hlen⟩ := hbuffers (buffer, true) (by simp)
    rw [List.map_append] at hrun
    obtain ⟨v, fuel, o, hbefore, hwrite, hok, rfl⟩ := UploadSucceedsAux.writes_concat hrun
    obtain ⟨sends, hsends, hrecords⟩ := ih hbefore
    have hsending := (UploadSucceedsAux.writes_iff hchunk h₀ buffers hall).2 v hbefore
    obtain ⟨s, hs, hwriter, hsucceeded⟩ := QingStorWriter.qingstorWrite_step hne hwrite
    obtain ⟨calls, hcalls, hnew⟩ := QingStorWriter.transferData_sends J net
      (fun hc => (hsending.cached (hsending.mCache.symm.trans hc)).1) hs
    rw [hsucceeded.1 hok] at hnew
    refine ⟨_, hsends.write hne hlen hwrite, ?_⟩
    rw [hwriter, hcalls]
    exact List.rel_append hrecords hnew

end CarriedAux

/-- The first attempt of the part takes all of it and breaks; everything after it is answered. -/
def Sample.late : Network := fun i k => if i = 0 ∧ k = 0 then broken [(1, 16384)] else answer [(1, 16384)] 201 []

end QingStor
