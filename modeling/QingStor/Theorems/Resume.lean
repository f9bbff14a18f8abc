import QingStor.Lemmas.Attempt

/-!
# Where a restart reads on

The guard of the `Range` header looks at the bytes handed out, its offset counts those in the buffer too.
-/

namespace QingStor

variable {β : Type*}

/-- The first byte a request asks for: without a range it is the first of the object. -/
def firstByte : Option RangeHeader → Int
  | none => 0
  | some (.fromTo first _) => first
  | some (.fromOn first) => first

/-- The request of a start reads on after `accepted` bytes: its range header, if it has one, begins at the next missing byte, and
ends at the last byte of the fetcher when it has a length and bytes of it are missing. -/
structure HTTPFetcher.ReadsOn (f : HTTPFetcher β) (accepted : Nat) (o : FetcherStep β) : Prop where
  header : (o.fetcher.mHeaders.drop f.mHeaders.length).filter (fun p => p.1 = .range) =
    f.range.toList.map (fun r => (.range, r.text))
  fits : f.SumsFit
  first : firstByte f.range = f.mOffset + accepted
  last : 0 ≤ f.mLen → accepted < f.mLen → ∃ a, f.range = some (.fromTo a (f.mOffset + f.mLen - 1))

namespace HTTPFetcher

variable {f : HTTPFetcher β} {a : Nat}

/-- Without a range, the request reads on only when nothing was accepted. -/
theorem Took.readsOn_of_not_guard (h : f.Took a) (hguard : ¬ f.SendsRange) :
    f.SumsFit ∧ firstByte f.range = 0 ∧ f.mOffset = 0 ∧ f.mBytesDone = 0 ∧ f.mLen < 0 := by
  have hoff := h.offset
  have hdone := h.done
  have hne := hguard
  unfold SendsRange at hne
  have hmin : int64Min ≤ 0 := by decide
  have hmax : 0 ≤ int64Max := by decide
  refine ⟨⟨by omega, fun hg => (hguard hg).elim⟩, ?_, by omega, by omega, by omega⟩
  rw [range_of_not_guard hguard]
  rfl

/-- With a range, the request reads on when its sums fit. -/
theorem Took.readsOn_of_guard (h : f.Took a) (hlen : -2 ^ 31 ≤ f.mLen) (hlen' : f.mLen < 2 ^ 31) (hguard : f.SendsRange) :
    (f.SumsFit ∧ firstByte f.range = f.mOffset + a ∧
        (0 ≤ f.mLen → a < f.mLen → ∃ b, f.range = some (.fromTo b (f.mOffset + f.mLen - 1)))) ↔
      f.mOffset + a ≤ int64Max ∧ (a ≤ f.mLen → f.mOffset + f.mLen ≤ int64Max) ∧ int64Min ≤ f.mLen - a := by
  have hoff := h.offset
  have hdone := h.done
  have hcount := h.count
  have hcursors := h.cursors
  have hmin : int64Min = -2 ^ 63 := rfl
  have hmax : int64Max = 2 ^ 63 - 1 := rfl
  by_cases hA : f.mOffset + a ≤ int64Max
  · have hro : f.resumeOffset = f.mOffset + a := h.resumeOffset.trans (toInt64_eq_iff.2 ⟨by omega, hA⟩)
    by_cases hL : int64Min ≤ f.mLen - a
    · have hrl : f.resumeLen = f.mLen - a := h.resumeLen.trans (toInt64_eq_iff.2 ⟨hL, by omega⟩)
      rw [range_of_guard hguard, hro, hrl]
      by_cases hmissing : a ≤ f.mLen
      · rw [if_pos (by omega)]
        constructor
        · rintro ⟨hfits, _, _⟩
          have hlast := hfits.last hguard (by omega)
          rw [hro, hrl] at hlast
          exact ⟨hA, fun _ => by omega, hL⟩
        · rintro ⟨_, hend, _⟩
          have hle := hend hmissing
          refine ⟨⟨by omega, fun _ _ => by omega⟩, rfl, fun _ _ => ⟨f.mOffset + a, ?_⟩⟩
          rw [show f.mOffset + (a : Int) + (f.mLen - a) - 1 = f.mOffset + f.mLen - 1 by ring]
      · rw [if_neg (by omega)]
        constructor
        · exact fun _ => ⟨hA, fun hle => (hmissing hle).elim, hL⟩
        · exact fun _ => ⟨⟨by omega, fun _ _ => by omega⟩, rfl, fun _ hlt => by omega⟩
    · have hrl : f.resumeLen = f.mLen - a + 2 ^ 64 := h.resumeLen.trans (toInt64_of_below (by omega) (by omega))
      constructor
      · rintro ⟨hfits, _, _⟩
        have hlast := hfits.last hguard (by omega)
        omega
      · exact fun hcond => (hL hcond.2.2).elim
  · have hfirst : firstByte f.range ≤ int64Max := by
      have hle := (toInt64_bounds (f.mOffset + a)).2
      rw [← h.resumeOffset] at hle
      rw [range_of_guard hguard]
      split <;> exact hle
    exact ⟨fun hreads => by omega, fun hcond => (hA hcond.1).elim⟩

/-- What a run comes to, for the range: the counts of the bytes accepted. -/
theorem took_after (hmade : f.Made) (h0 : 0 ≤ f.mOffset) (ops : List (FetcherOp β)) :
    (f.after ops).fetcher.Took (f.after ops).accepted.length ∧ f.SameTask (f.after ops).fetcher ∧
      -2 ^ 31 ≤ f.mLen ∧ f.mLen < 2 ^ 31 := by
  obtain ⟨this, url, host, bucket, cred, buffsize, offset, len, rfl⟩ := hmade
  obtain ⟨hsound, htask⟩ := (FetcherRun.sound_make (β := β) this url host bucket cred buffsize offset len).runs ops
  refine ⟨⟨?_, ?_, hsound.roomy.buffered.cursors, hsound.length_accepted⟩, htask, toInt32_bounds len⟩
  · rw [show (HTTPFetcher.after _ ops).fetcher.mOffset = _ from htask.mOffset]
    exact h0
  · rw [show (HTTPFetcher.after _ ops).fetcher.mBytesDone = _ from hsound.done]
    exact Int.natCast_nonneg _

end HTTPFetcher

/-- The next start of a fetcher reads on after the accepted bytes exactly when the offset of the next byte and the end are 64-bit
numbers, the number of missing bytes is one, and a fetcher that reads from the first byte to the end of the object has handed out a
byte if it accepted one. -/
theorem resume_iff (f : HTTPFetcher β) (hmade : f.Made) (h0 : 0 ≤ f.mOffset) (ops : List (FetcherOp β)) (env : StartEnv β)
    (m : Multi β) (hok : ((f.after ops).fetcher.start env m).result = .ok ()) :
    (f.after ops).fetcher.ReadsOn (f.after ops).accepted.length ((f.after ops).fetcher.start env m) ↔
      f.mOffset + (f.after ops).accepted.length ≤ int64Max ∧
      ((f.after ops).accepted.length ≤ f.mLen → f.mOffset + f.mLen ≤ int64Max) ∧
      int64Min ≤ f.mLen - (f.after ops).accepted.length ∧
      (f.mLen < 0 → f.mOffset = 0 → (f.after ops).returned = [] → (f.after ops).accepted = []) := by
  obtain ⟨htook, htask, hlen, hlen'⟩ := HTTPFetcher.took_after hmade h0 ops
  have hempty : (f.after ops).fetcher.mBytesDone = 0 ↔ (f.after ops).returned = [] := by
    obtain ⟨this, url, host, bucket, cred, buffsize, offset, len, rfl⟩ := hmade
    have hdone := ((FetcherRun.sound_make (β := β) this url host bucket cred buffsize offset len).runs ops).1.done
    rw [show (HTTPFetcher.after _ ops).fetcher.mBytesDone = _ from hdone, ← List.length_eq_zero_iff]
    exact Int.natCast_eq_zero
  rw [← hempty, ← List.length_eq_zero_iff]
  rw [← htask.mLen] at hlen hlen' ⊢
  rw [← htask.mOffset]
  generalize (f.after ops).accepted.length = a at htook ⊢
  generalize (f.after ops).fetcher = g at hok htook hlen hlen' ⊢
  have hheader : ((g.start env m).fetcher.mHeaders.drop g.mHeaders.length).filter (fun p => p.1 = .range) =
      g.range.toList.map (fun r => (.range, r.text)) := by
    obtain ⟨split, _, hheaders, _⟩ := (g.headed env m).sent hok
    rw [hheaders, List.drop_left, HTTPFetcher.filter_ownHeaders]
  by_cases hguard : g.SendsRange
  · have hiff := htook.readsOn_of_guard hlen hlen' hguard
    constructor
    · rintro ⟨_, hfits, hfirst, hlast⟩
      obtain ⟨h1, h2, h3⟩ := hiff.1 ⟨hfits, hfirst, hlast⟩
      refine ⟨h1, h2, h3, fun hneg hzero hdone => ?_⟩
      unfold HTTPFetcher.SendsRange at hguard
      omega
    · rintro ⟨h1, h2, h3, _⟩
      obtain ⟨hfits, hfirst, hlast⟩ := hiff.2 ⟨h1, h2, h3⟩
      exact ⟨hheader, hfits, hfirst, hlast⟩
  · obtain ⟨hfits, hfirst, hoff, hdone, hneg⟩ := htook.readsOn_of_not_guard hguard
    constructor
    · rintro ⟨_, _, hreads, _⟩
      have hzero : a = 0 := by omega
      subst hzero
      have hmin : int64Min ≤ -2 ^ 31 := by decide
      have hmax : 0 ≤ int64Max := by decide
      exact ⟨by omega, fun _ => by omega, by omega, fun _ _ _ => rfl⟩
    · rintro ⟨_, _, _, hzero⟩
      refine ⟨hheader, hfits, ?_, fun _ => by omega⟩
      rw [hfirst, hoff, hzero hneg hoff hdone]
      rfl

/-- A fetcher of four bytes that failed after its first two reads on at the third. -/
theorem resume_iff_half :
    ((Sample.fetcher 0 4).after [.start Sample.willing .empty, .write (lit "da"),
        .handleResult (.failure .operationTimedout) 0 .empty]).fetcher.ReadsOn 2
      (((Sample.fetcher 0 4).after [.start Sample.willing .empty, .write (lit "da"),
        .handleResult (.failure .operationTimedout) 0 .empty]).fetcher.start Sample.willing .empty) :=
  (resume_iff (Sample.fetcher 0 4) (Sample.fetcher_made 0 4) (by decide) [.start Sample.willing .empty, .write (lit "da"),
    .handleResult (.failure .operationTimedout) 0 .empty] Sample.willing .empty (by decide +kernel)).2 (by decide +kernel)

/-- A fetcher of a whole object that failed with bytes in its buffer does not read on: it asks for the object from its start. -/
theorem resume_false :
    ¬ ∀ (f : HTTPFetcher Byte), f.Made → 0 ≤ f.mOffset → ∀ (ops : List (FetcherOp Byte)) (env : StartEnv Byte) (m : Multi Byte),
      ((f.after ops).fetcher.start env m).result = .ok () →
      (f.after ops).fetcher.ReadsOn (f.after ops).accepted.length ((f.after ops).fetcher.start env m) := by
  intro h
  have hreads := h (Sample.fetcher 0 (-1)) (Sample.fetcher_made 0 (-1)) (by decide) [.start Sample.willing .empty,
    .write (lit "da"), .handleResult (.failure .operationTimedout) 0 .empty] Sample.willing .empty (by decide +kernel)
  exact absurd hreads.first (by decide +kernel)

end QingStor
