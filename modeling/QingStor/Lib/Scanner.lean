import Mathlib.Data.List.Basic

/-!
# Scanners

A scanner reads a text from left to right and may refuse an item. A scanner whose states say what was read of a grammar simulates
one whose states say less; what it has read is the text of its state, and a text of the grammar takes it to the state of that text.
-/

namespace Lib

variable {σ τ α : Type*} {step : τ → α → Option τ} {next : σ → α → Option σ}

/-- What every step keeps, a scan keeps. -/
theorem scan_keeps {P : σ → Prop} (h : ∀ p c q, P p → next p c = some q → P q) {p q : σ} {s : List α} (hp : P p)
    (hq : s.foldlM next p = some q) : P q := by
  induction s generalizing p with
  | nil =>
    cases hq
    exact hp
  | cons c s ih =>
    rw [List.foldlM_cons] at hq
    obtain ⟨p', hstep, hrest⟩ := Option.bind_eq_some_iff.1 hq
    exact ih (h p c p' hp hstep) hrest

/-- A map that commutes with the steps from the states that are kept commutes with a scan. -/
theorem scan_simulates {f : σ → τ} {P : σ → Prop} (hkeeps : ∀ p c q, P p → next p c = some q → P q)
    (h : ∀ p c, P p → step (f p) c = (next p c).map f) {p : σ} (hp : P p) (s : List α) :
    s.foldlM step (f p) = (s.foldlM next p).map f := by
  induction s generalizing p with
  | nil => rfl
  | cons c s ih =>
    rw [List.foldlM_cons, List.foldlM_cons, h p c hp]
    cases hstep : next p c with
    | none => rfl
    | some q => exact ih (hkeeps p c q hp hstep)

/-- The text of a state, when each step adds the item it reads. -/
theorem scan_text {text : σ → List α} (h : ∀ p c q, next p c = some q → text q = text p ++ [c]) {p q : σ} {s : List α}
    (hq : s.foldlM next p = some q) : text q = text p ++ s := by
  induction s generalizing p with
  | nil =>
    cases hq
    exact (List.append_nil _).symm
  | cons c s ih =>
    rw [List.foldlM_cons] at hq
    obtain ⟨p', hstep, hrest⟩ := Option.bind_eq_some_iff.1 hq
    rw [ih hrest, h p c p' hstep, List.append_assoc]
    rfl

/-- A scan of a text all of whose items are added to one part of the state. -/
theorem scan_part {g : List α → σ} (s₀ : List α) {s : List α}
    (h : ∀ a c b, s = a ++ c :: b → next (g (s₀ ++ a)) c = some (g (s₀ ++ a ++ [c]))) :
    s.foldlM next (g s₀) = some (g (s₀ ++ s)) := by
  induction s generalizing s₀ with
  | nil =>
    rw [List.append_nil]
    rfl
  | cons c s ih =>
    have hfirst := h [] c s rfl
    rw [List.append_nil] at hfirst
    have hrest := ih (s₀ ++ [c]) (fun a d b hs => by
      have hd := h (c :: a) d b (by rw [hs]; rfl)
      rw [List.append_cons s₀ c a] at hd
      exact hd)
    rw [List.foldlM_cons, hfirst, List.append_cons s₀ c s]
    exact hrest

/-- A scan goes on where it was. -/
theorem scan_append {p q : σ} {s t : List α} (h : s.foldlM next p = some q) : (s ++ t).foldlM next p = t.foldlM next q := by
  rw [List.foldlM_append, h]
  rfl

end Lib
