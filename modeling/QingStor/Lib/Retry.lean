import Mathlib.Tactic

/-!
# Retry loops

An operation is tried until it succeeds, fails in a way that is not retried, or the allowance is used up. Every attempt starts
from the state the one before it left. `after` is that state, attempt by attempt. The rules say what a loop that ends well has
gone through, that a loop whose first success is in reach ends well, and that what every attempt keeps the loop keeps.
-/

namespace Lib

variable {σ ε α : Type*}

/-- What one attempt comes to. -/
structure Tried (σ ε α : Type*) where
  result : Except ε α
  state : σ

/-- What the loop comes to: also the number of the attempt it ended with. -/
structure Retried (σ ε α : Type*) extends Tried σ ε α where
  last : Nat

/-- The loop: attempt number `i`, with `left` further attempts allowed after it for the errors `again` accepts. -/
def retry (attempt : Nat → σ → Tried σ ε α) (again : ε → Bool) : Nat → Nat → σ → Retried σ ε α
  | 0, i, s => ⟨⟨(attempt i s).result, (attempt i s).state⟩, i⟩
  | left + 1, i, s =>
    match (attempt i s).result with
    | .ok a => ⟨⟨.ok a, (attempt i s).state⟩, i⟩
    | .error e =>
      if again e then retry attempt again left (i + 1) (attempt i s).state else ⟨⟨.error e, (attempt i s).state⟩, i⟩

/-- The state before the attempt numbered `i + n`, when attempts `i`, ..., `i + n - 1` were made from `s`. -/
def after (attempt : Nat → σ → Tried σ ε α) (i : Nat) (s : σ) : Nat → σ
  | 0 => s
  | n + 1 => (attempt (i + n) (after attempt i s n)).state

/-- The first attempt may be taken off the front of a run of attempts. -/
theorem after_succ (attempt : Nat → σ → Tried σ ε α) (i : Nat) (s : σ) (n : Nat) :
    after attempt i s (n + 1) = after attempt (i + 1) (attempt i s).state n := by
  induction n with
  | zero => rfl
  | succ n ih =>
    rw [after, ih, after]
    congr 2
    omega

/-- A loop that ends well ended with its first successful attempt, and every attempt before it failed and was retried. -/
theorem retry_ok {attempt : Nat → σ → Tried σ ε α} {again : ε → Bool} {left i : Nat} {s : σ} {a : α}
    (h : (retry attempt again left i s).result = .ok a) :
    ∃ n ≤ left, (∀ k < n, ∃ e, (attempt (i + k) (after attempt i s k)).result = .error e ∧ again e = true) ∧
      (attempt (i + n) (after attempt i s n)).result = .ok a ∧
      retry attempt again left i s = ⟨⟨.ok a, after attempt i s (n + 1)⟩, i + n⟩ := by
  induction left generalizing i s with
  | zero =>
    refine ⟨0, Nat.le_refl 0, fun k hk => absurd hk (Nat.not_lt_zero k), h, ?_⟩
    have h' : (attempt i s).result = .ok a := h
    simp [retry, after, h']
  | succ left ih =>
    rw [retry] at h ⊢
    cases hr : (attempt i s).result with
    | ok b =>
      simp only [hr, Except.ok.injEq] at h ⊢
      subst h
      exact ⟨0, Nat.zero_le _, fun k hk => absurd hk (Nat.not_lt_zero k), hr, rfl⟩
    | error e =>
      simp only [hr] at h ⊢
      by_cases hag : again e = true
      · rw [if_pos hag] at h ⊢
        obtain ⟨n, hn, hfail, hok, heq⟩ := ih h
        refine ⟨n + 1, by omega, ?_, ?_, ?_⟩
        · intro k hk
          cases k with
          | zero => exact ⟨e, hr, hag⟩
          | succ k =>
            rw [after_succ, show i + (k + 1) = i + 1 + k by omega]
            exact hfail k (by omega)
        · rw [after_succ, show i + (n + 1) = i + 1 + n by omega]
          exact hok
        · rw [heq, after_succ attempt i s (n + 1), show i + (n + 1) = i + 1 + n by omega]
      · rw [if_neg hag] at h
        cases h

/-- A loop whose first success is within its allowance ends well, with it. -/
theorem retry_of_first (attempt : Nat → σ → Tried σ ε α) (again : ε → Bool) {left : Nat} (i : Nat) {n : Nat} (s : σ) {a : α}
    (hn : n ≤ left)
    (hfail : ∀ k < n, ∃ e, (attempt (i + k) (after attempt i s k)).result = .error e ∧ again e = true)
    (hok : (attempt (i + n) (after attempt i s n)).result = .ok a) :
    retry attempt again left i s = ⟨⟨.ok a, after attempt i s (n + 1)⟩, i + n⟩ := by
  induction n generalizing left i s with
  | zero =>
    have h' : (attempt i s).result = .ok a := hok
    cases left <;> simp [retry, after, h']
  | succ n ih =>
    obtain ⟨left, rfl⟩ : ∃ l, left = l + 1 := ⟨left - 1, by omega⟩
    obtain ⟨e, he, hag⟩ := hfail 0 (Nat.succ_pos n)
    have he' : (attempt i s).result = .error e := he
    rw [retry]
    simp only [he', if_pos hag]
    rw [ih (i + 1) (attempt i s).state (by omega) ?_ ?_]
    · rw [after_succ attempt i s (n + 1), show i + (n + 1) = i + 1 + n by omega]
    · intro k hk
      have := hfail (k + 1) (by omega)
      rw [after_succ, show i + (k + 1) = i + 1 + k by omega] at this
      exact this
    · rw [after_succ, show i + (n + 1) = i + 1 + n by omega] at hok
      exact hok

/-- A loop ends as its last attempt does. -/
theorem retry_last (attempt : Nat → σ → Tried σ ε α) (again : ε → Bool) (left i : Nat) (s : σ) :
    ∃ n, (retry attempt again left i s).last = i + n ∧
      (retry attempt again left i s).result = (attempt (i + n) (after attempt i s n)).result := by
  induction left generalizing i s with
  | zero => exact ⟨0, rfl, rfl⟩
  | succ left ih =>
    rw [retry]
    cases hr : (attempt i s).result with
    | ok a => exact ⟨0, rfl, hr.symm⟩
    | error e =>
      dsimp only
      split
      · obtain ⟨n, hlast, hresult⟩ := ih (i + 1) (attempt i s).state
        refine ⟨n + 1, by omega, ?_⟩
        rw [after_succ, show i + (n + 1) = i + 1 + n by omega]
        exact hresult
      · exact ⟨0, rfl, hr.symm⟩

/-- What every attempt keeps, the loop keeps. -/
theorem retry_invariant {attempt : Nat → σ → Tried σ ε α} {again : ε → Bool} {P : σ → Prop}
    (hstep : ∀ i s, P s → P (attempt i s).state) (left i : Nat) {s : σ} (h : P s) :
    P (retry attempt again left i s).state := by
  induction left generalizing i s with
  | zero => exact hstep i s h
  | succ left ih =>
    rw [retry]
    cases (attempt i s).result with
    | ok a => exact hstep i s h
    | error e =>
      dsimp only
      split
      · exact ih (i + 1) (hstep i s h)
      · exact hstep i s h

end Lib
