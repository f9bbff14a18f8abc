import QingStor.Lemmas.Requests

/-!
# The body of a retried upload

The attempts of `DoGetJSON` share one body, and the read callback moves its cursor. A retry starts from where the attempts
before it left the cursor, so the answered attempt has the whole body exactly when those before it took nothing of it.
-/

namespace QingStor

/-- An exchange in which curl takes nothing of a body: it had no handle, there is nothing to take, or it asks for nothing. -/
def Exchange.PullsNothing (x : Exchange) (body : List Byte) : Prop :=
  x.easyInit = false ∨ body = [] ∨ ∀ p ∈ x.pulls, askedFor p = 0

/-- The last request could hand out the whole body, and declared its length. -/
def Wire.SentWhole (w : Wire) (body : List Byte) : Prop :=
  ∃ r, w.sent.getLast? = some r ∧ r.infile.map MemoryData.bytes = some body ∧
    contentLengths r.headers = [decimal body.length]

namespace RetryAux

/-- A body set up whole. -/
theorem whole_bytes (body : List Byte) : (⟨body, body.length⟩ : MemoryData).bytes = body := List.take_length

/-- An exchange takes nothing of a body exactly when it asks for nothing of one, or there is nothing to take. -/
theorem pullsNothing_iff {x : Exchange} {body : List Byte} :
    x.PullsNothing body ↔ min (if x.easyInit then askedAll x.pulls else 0) body.length = 0 := by
  unfold Exchange.PullsNothing
  rw [← askedAll_eq_zero, ← List.length_eq_zero_iff]
  cases x.easyInit with
  | true =>
    rw [if_pos rfl]
    simp only [Bool.true_eq_false, false_or]
    omega
  | false => simp

/-- The attempts before the `n`-th take nothing of a body exactly when they ask for nothing, or there is nothing. -/
theorem untaken_iff (xs : Nat → Exchange) (body : List Byte) (n : Nat) :
    (∀ k < n, (xs k).PullsNothing body) ↔ min (askedBefore xs n) body.length = 0 := by
  induction n with
  | zero => exact iff_of_true (fun k hk => absurd hk (Nat.not_lt_zero k)) (Nat.zero_min _)
  | succ n ih =>
    rw [Nat.forall_lt_succ_right, ih, pullsNothing_iff, askedBefore_succ]
    omega

/-- The request of the answered attempt is the last one sent, with the body as it was before that attempt. -/
theorem answered_request {J : JsonC} {a : RequestArgs} {md : Option MemoryData} {xs : Nat → Exchange} {n : Nat} {j : Json}
    {m : MemoryData} (hq : a.qsrt.uploads = true) (hs : a.Sendable) (hx : (xs n).Answers J a.qsrt j)
    (hm : (wireBefore J a md xs n).md = some m) :
    ∃ r, (wireBefore J a md xs (n + 1)).sent.getLast? = some r ∧ r.infile = some m ∧
      contentLengths r.headers = [decimal m.sizeleft] := by
  obtain ⟨headers, heq, hlen⟩ := doGetJSONInternal_sent J (wireBefore J a md xs n).md hs
    (fun _ => by rw [hm]; rfl) hx.1
  rw [wireBefore_succ, heq]
  refine ⟨_, List.getLast?_concat .., ?_, hlen m hq hm⟩
  rw [if_pos hq, hm]

end RetryAux

/-- Exactly when a retried upload keeps its body whole: if no attempt before the answered one takes a byte of the body. -/
theorem upload_whole_iff (J : JsonC) (a : RequestArgs) (body : List Byte) (retries : Int) (xs : Nat → Exchange)
    (hq : a.qsrt.uploads = true) :
    (∀ j, (doGetJSON J a (some ⟨body, body.length⟩) retries xs).result = .ok j →
      (doGetJSON J a (some ⟨body, body.length⟩) retries xs).state.SentWhole body) ↔
    ∀ n : Nat, (n : Int) < max 1 retries → a.Sendable → Unanswered J a.qsrt xs n → (∃ j, (xs n).Answers J a.qsrt j) →
      ∀ k < n, (xs k).PullsNothing body := by
  have hmd : a.qsrt.uploads = true → (some (⟨body, body.length⟩ : MemoryData)).isSome = true := fun _ => rfl
  constructor
  · rintro h n hn hs hfail ⟨j, hx⟩
    have heq := doGetJSON_of_first hs hmd (show n ≤ (retries - 1).toNat by omega) hfail hx
    rw [heq] at h
    obtain ⟨r, hr, hbody, _⟩ := h j rfl
    have hm := wireBefore_md J ⟨body, body.length⟩ xs hq hs n
    obtain ⟨r', hr', hin, _⟩ := RetryAux.answered_request hq hs hx hm
    have hsame : r' = r := Option.some.inj (hr'.symm.trans hr)
    rw [← hsame, hin, Option.map_some, Option.some.injEq, MemoryData.moved_bytes] at hbody
    have hlength := congrArg List.length hbody
    rw [List.length_drop, RetryAux.whole_bytes] at hlength
    rw [RetryAux.untaken_iff]
    dsimp only at hlength
    omega
  · intro h j hok
    obtain ⟨hs, n, hn, hfail, hx, heq⟩ := doGetJSON_ok hmd hok
    have hnone := h n (by omega) hs hfail ⟨j, hx⟩
    have hm := wireBefore_md J ⟨body, body.length⟩ xs hq hs n
    rw [(RetryAux.untaken_iff xs body n).1 hnone, MemoryData.moved_zero] at hm
    obtain ⟨r, hr, hin, hlen⟩ := RetryAux.answered_request hq hs hx hm
    rw [heq]
    refine ⟨r, hr, ?_, hlen⟩
    rw [hin, Option.map_some, RetryAux.whole_bytes]

/-- The first attempt breaks before it takes anything, the second is answered. -/
def brokenEarly : Nat → Exchange
  | 0 => Sample.broken []
  | _ => Sample.answer [(1, 16384)] 201 []

/-- The first attempt takes the whole part and breaks, the second is answered. -/
def brokenLate : Nat → Exchange
  | 0 => Sample.broken [(1, 16384)]
  | _ => Sample.answer [(1, 16384)] 201 []

/-- The general statement for a part whose first attempt breaks early: the second one has the whole part. -/
theorem upload_whole_brokenEarly :
    (doGetJSON Sample.json Sample.partArgs (some ⟨lit "part", (lit "part").length⟩) 3 brokenEarly).state.SentWhole
      (lit "part") := by
  refine (upload_whole_iff Sample.json Sample.partArgs (lit "part") 3 brokenEarly rfl).2 ?_ .null rfl
  intro n _ _ hfail _ k hk
  cases k with
  | zero => exact Or.inr (Or.inr (fun p hp => by cases hp))
  | succ k => exact absurd ⟨rfl, rfl, rfl, rfl⟩ (hfail 1 (by omega) .null)

/-- A retried upload does not always keep its body whole: the second attempt of a part whose first attempt breaks late has
nothing left to send, and is answered. -/
theorem upload_whole_false :
    ¬ ∀ (J : JsonC) (a : RequestArgs) (body : List Byte) (retries : Int) (xs : Nat → Exchange),
      a.qsrt.uploads = true → 1 ≤ retries → ∀ j,
      (doGetJSON J a (some ⟨body, body.length⟩) retries xs).result = .ok j →
      (doGetJSON J a (some ⟨body, body.length⟩) retries xs).state.SentWhole body := by
  intro h
  obtain ⟨r, hr, hbody, _⟩ := h Sample.json Sample.partArgs (lit "part") 3 brokenLate rfl (by decide) .null rfl
  have hlast : (((doGetJSON Sample.json Sample.partArgs (some ⟨lit "part", (lit "part").length⟩) 3 brokenLate).state.sent.getLast?).map
      (fun r => r.infile.map MemoryData.bytes)) = some (some []) := by decide
  rw [hr, Option.map_some, hbody] at hlast
  exact absurd hlast (by decide)

end QingStor
