import Mathlib.Tactic

/-!
# Steps that may go wrong

A computation made of steps, each of which ends well or with an error; the first error ends the row. What every step keeps, the
row keeps, and where no step can go wrong the row does not.
-/

namespace Lib

variable {σ ε : Type*}

/-- Steps one after another, up to the first that goes wrong. -/
inductive Run (Step : σ → Except ε Unit → σ → Prop) : σ → Except ε Unit → σ → Prop
  | nil (s : σ) : Run Step s (.ok ()) s
  | step {s s' s'' : σ} {r : Except ε Unit} : Step s (.ok ()) s' → Run Step s' r s'' → Run Step s r s''
  | error {s s' : σ} {e : ε} : Step s (.error e) s' → Run Step s (.error e) s'

namespace Run

variable {Step : σ → Except ε Unit → σ → Prop} {s s' s'' : σ} {r : Except ε Unit}

/-- One step is a run. -/
theorem one (h : Step s r s') : Run Step s r s' := by
  cases r with
  | ok u => exact .step h (.nil s')
  | error e => exact .error h

/-- A run goes on where one that ended well left off. -/
theorem trans (h : Run Step s (.ok ()) s') (h' : Run Step s' r s'') : Run Step s r s'' := by
  generalize hr : (Except.ok () : Except ε Unit) = r₀ at h
  induction h with
  | nil s => exact h'
  | step hs _ ih => exact .step hs (ih h' hr)
  | error _ => cases hr

/-- What every step keeps, a run keeps; and what every step's end satisfies, the run's does. -/
theorem ends {I : σ → Prop} {Q : Except ε Unit → Prop} (hok : Q (.ok ()))
    (hstep : ∀ s r s', I s → Step s r s' → I s' ∧ Q r) (h : Run Step s r s') (hs : I s) : I s' ∧ Q r := by
  induction h with
  | nil s => exact ⟨hs, hok⟩
  | step h _ ih => exact ih (hstep _ _ _ hs h).1
  | error h => exact hstep _ _ _ hs h

/-- What every step keeps, a run keeps. -/
theorem keeps {I : σ → Prop} (hstep : ∀ s r s', I s → Step s r s' → I s') (h : Run Step s r s') (hs : I s) : I s' :=
  (h.ends (Q := fun _ => True) trivial (fun s r s' hs h => ⟨hstep s r s' hs h, trivial⟩) hs).1

/-- What every step that ends well keeps, a run that ends well keeps. -/
theorem keeps_ok {I : σ → Prop} (hstep : ∀ s s', I s → Step s (.ok ()) s' → I s') (h : Run Step s (.ok ()) s') (hs : I s) :
    I s' := by
  generalize hr : (Except.ok () : Except ε Unit) = r at h
  induction h with
  | nil s => exact hs
  | step h _ ih => exact ih (hstep _ _ hs h) hr
  | error _ => cases hr

/-- Where no step goes wrong, a run does not. -/
theorem ends_well {I : σ → Prop} (hstep : ∀ s r s', I s → Step s r s' → I s' ∧ r = .ok ()) (h : Run Step s r s') (hs : I s) :
    I s' ∧ r = .ok () :=
  h.ends (Q := fun r => r = .ok ()) rfl hstep hs

end Run

/-- What each step keeps, given what was done before it, holds after every beginning of a row. -/
theorem foldl_keeps {α : Type*} {f : σ → α → σ} {s : σ} {row : List α} {P : σ → Prop} (hs : P s)
    (hstep : ∀ done x, done ++ [x] <+: row → P (done.foldl f s) → P (f (done.foldl f s) x)) :
    ∀ done, done <+: row → P (done.foldl f s) := by
  intro done
  induction done using List.reverseRecOn with
  | nil => exact fun _ => hs
  | append_singleton done x ih =>
    intro hdone
    rw [List.foldl_append]
    exact hstep done x hdone (ih ((List.prefix_append done [x]).trans hdone))

end Lib
