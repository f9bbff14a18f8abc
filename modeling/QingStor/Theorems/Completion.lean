import QingStor.Lib.History
import QingStor.Lemmas.Moves
import QingStor.Theorems.Upload

/-!
# What a completion names

Whatever the caller of a write handle does, in any order, and whatever the network does: a completion is asked for only while no
abort was answered, and names exactly the parts that were acknowledged before it, each once and in the order they were sent. A close
that reports success on a writer that was not canceled ends with such a completion, and it was answered.
-/

namespace QingStor

/-- A completion names all parts acknowledged before it and nothing else, and there was no abort that was answered. -/
def NamesAll (before : List WriterCall) (c : WriterCall) : Prop :=
  ∀ body ok, c = .complete body ok → .abort true ∉ before ∧ namedParts body = (acknowledged before).map (·.1) ∧
    assembled (acknowledged before) (namedParts body) = (acknowledged before).flatMap (·.2)

namespace CompletionAux

variable {J : JsonC} {net : Network} {w w' : QingStorWriter}

/-- What holds of a writer at every time. -/
structure Named (w : QingStorWriter) : Prop where
  uncanceled : w.mCanceled = false → .abort true ∉ w.calls ∧ w.Numbered
  each : Lib.Each NamesAll w.calls

/-- The completion of a writer that was not canceled names what was acknowledged. -/
theorem Named.complete (h : Named w) (hw : w.mCanceled = false) (ok : Bool) : NamesAll w.calls (.complete w.completeBody ok) := by
  obtain ⟨hnone, n, hn, hnumbers⟩ := h.uncanceled hw
  have hnamed : namedParts w.completeBody = (acknowledged w.calls).map (·.1) := by
    rw [UploadAux.namedParts_completeBody, hn, Int.toNat_natCast, hnumbers]
  intro body ok' heq
  cases heq
  refine ⟨hnone, hnamed, ?_⟩
  rw [hnamed]
  refine UploadAux.assembled_self ?_
  rw [hnumbers]
  exact UploadAux.nodup_partNumbers n

end CompletionAux

end QingStor
