import QingStor.Api

/-!
# What a caller does to an object open for writing

The calls of `qingstorWrite` and `qingstorCancelObject` in any order, and at most one of `qingstorCloseObject`, after which the
object is gone.
-/

namespace QingStor

/-- A call on an object open for writing. `fuel` is enough for the loops of the write. -/
inductive HandleOp where
  | write (fuel : Nat) (buffer : List Byte)
  | cancel
  | close
  deriving DecidableEq, Repr

/-- One call; `none` when it does not return. -/
def HandleOp.step (J : JsonC) (net : Network) (w : QingStorWriter) : HandleOp → Option ObjectStep
  | .write fuel buffer => qingstorWrite J net fuel w buffer
  | .cancel => some (qingstorCancelObject J net w)
  | .close => some (qingstorCloseObject J net w)

/-- The calls one after another; `none` when one of them does not return, or follows a close. -/
def runHandle (J : JsonC) (net : Network) : List HandleOp → QingStorWriter → Option QingStorWriter
  | [], w => some w
  | op :: ops, w =>
    if op = .close ∧ ops ≠ [] then none
    else (op.step J net w).bind (fun o => runHandle J net ops o.writer)

/-- A run of calls keeps what each call but a close keeps. -/
theorem runHandle_keeps {J : JsonC} {net : Network} {P : QingStorWriter → Prop}
    (hstep : ∀ (w : QingStorWriter) (op : HandleOp) (o : ObjectStep), op ≠ .close → P w → op.step J net w = some o → P o.writer)
    {ops : List HandleOp} {w₀ w : QingStorWriter}
    (hopen : HandleOp.close ∉ ops) (h₀ : P w₀) (hrun : runHandle J net ops w₀ = some w) : P w := by
  induction ops generalizing w₀ with
  | nil =>
    cases hrun
    exact h₀
  | cons op ops ih =>
    have hne : op ≠ .close := by
      rintro rfl
      exact hopen (List.mem_cons_self ..)
    unfold runHandle at hrun
    rw [if_neg (not_and_of_not_left _ hne), Option.bind_eq_some_iff] at hrun
    obtain ⟨o, ho, hrest⟩ := hrun
    exact ih (fun h => hopen (List.mem_cons_of_mem _ h)) (hstep w₀ op o hne h₀ ho) hrest

end QingStor
