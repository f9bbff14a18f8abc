import QingStor.Lemmas.FetcherRun

/-!
# The buffer of a fetcher

Between the calls of the write callback, which may be refused, and the calls of `get`, during which curl may deliver more, no byte
is lost, doubled or moved out of its place.
-/

namespace QingStor

variable {β : Type*}

/-- The buffer is a queue of bytes in a block of `size` cells: what was returned, followed by what is unread, is what was accepted. -/
structure FetcherRun.Fifo (size : Nat) (s : FetcherRun β) : Prop where
  size : s.fetcher.mBuffSize = size
  cursors : s.fetcher.mReadOff ≤ s.fetcher.mNused
  inside : s.fetcher.mNused ≤ s.fetcher.mBuffSize
  bytes : s.returned ++ s.fetcher.unread = s.accepted
  done : s.fetcher.mBytesDone = s.returned.length
  pause : ∀ contents, (s.fetcher.writerCallback contents).1 = false →
    ((FetcherOp.write contents).run s).accepted = s.accepted ∧
      ((FetcherOp.write contents).run s).fetcher.unread = s.fetcher.unread

/-- A piece that is refused changes nothing of what the buffer holds. -/
theorem FetcherRun.Sound.pause {s : FetcherRun β} (h : s.Sound) {contents : List β}
    (hpause : (s.fetcher.writerCallback contents).1 = false) :
    ((FetcherOp.write contents).run s).accepted = s.accepted ∧
      ((FetcherOp.write contents).run s).fetcher.unread = s.fetcher.unread := by
  rw [FetcherOp.run_write]
  split
  · rename_i hsome
    obtain ⟨_, hu, _⟩ := h.roomy.write hsome contents
    simp only [hpause, Bool.false_eq_true, if_false, List.append_nil] at hu ⊢
    exact ⟨trivial, hu⟩
  · exact ⟨rfl, rfl⟩

/-- The buffer of a fetcher is a queue, for every size of it and after any calls. -/
theorem fetcher_buffer_fifo (this : Nat) (url host bucket : Str) (cred : QSCredential) (buffsize offset len : Int) (size : Nat)
    (ops : List (FetcherOp β)) :
    (((HTTPFetcher.make this url host bucket cred buffsize offset len).withBuffer size).after ops).Fifo size := by
  have h0 := FetcherRun.sound_withBuffer (β := β) this url host bucket cred buffsize offset len size
  have h := (h0.runs ops).1
  exact ⟨h0.runs_size rfl ops, h.roomy.buffered.cursors, h.roomy.used, h.fifo, h.done, fun _ hpause => h.pause hpause⟩

end QingStor
