import QingStor.Lemmas.Attempt
import QingStor.Lemmas.Opened
import QingStor.Theorems.Resume
import QingStor.Theorems.OpenedRange

/-!
# The form of a range header

The last byte of a header is computed from the number of bytes that are missing, also when none is.
-/

namespace QingStor

variable {β : Type*}

/-- The buffer has the size that is configured for it, once it is allocated. -/
theorem FetcherRun.Sound.buffSize_runs {s : FetcherRun β} (hs : s.Sound) (h : s.fetcher.mBuffSize ≤ s.fetcher.confBuffSize)
    (ops : List (FetcherOp β)) : (ops.foldl FetcherOp.run s).fetcher.mBuffSize ≤ (ops.foldl FetcherOp.run s).fetcher.confBuffSize := by
  refine hs.runs_keep (P := fun f => f.mBuffSize ≤ f.confBuffSize) ?_ ?_ ?_ h ops
  · rintro f g ⟨_, _, _, _, _, rfl⟩ hf
    exact hf
  · intro f _ _ _ _ _ hf
    exact hf
  · intro f env m _ hf
    have hprimed : (f.primed env).mBuffSize ≤ (f.primed env).confBuffSize := by
      unfold HTTPFetcher.primed
      split
      · exact le_rfl
      · exact hf
    rcases f.start_cases env m with ⟨e, he⟩ | ⟨_, _, headers, lines, ⟨e, he⟩ | ⟨_, he⟩⟩ <;>
      (rw [he]; exact hprimed)

/-! ## The form of a header -/

/-- The bounds of a range are computed within 64 bits, and are in order. -/
def HTTPFetcher.WellFormed (f : HTTPFetcher β) : Prop :=
  f.SumsFit ∧ ∀ a b, f.range = some (.fromTo a b) → 0 ≤ a ∧ a ≤ b

/-- The range header a start sends, if it sends one, can be satisfied in form. -/
structure HTTPFetcher.SendsWellFormed (f : HTTPFetcher β) (o : FetcherStep β) : Prop where
  header : (o.fetcher.mHeaders.drop f.mHeaders.length).filter (fun p => p.1 = .range) =
    f.range.toList.map (fun r => (.range, r.text))
  form : f.WellFormed

namespace HTTPFetcher

variable {f : HTTPFetcher β} {a : Nat}

/-- A header is well formed exactly when bytes are missing or too many came, as long as the counts are 64-bit numbers. -/
theorem Took.wellFormed_iff (h : f.Took a) (hlen : -2 ^ 31 ≤ f.mLen) (hlen' : f.mLen < 2 ^ 31)
    (hend : f.mOffset + f.mLen ≤ int64Max) (hroom : f.mNused < 2 ^ 32) :
    f.WellFormed ↔ (f.SendsRange → (a : Int) ≠ f.mLen ∧ int64Min ≤ f.mLen - a ∧ f.mOffset + f.mBytesDone ≤ int64Max) := by
  have hoff := h.offset
  have hdone := h.done
  have hcount := h.count
  have hcursors := h.cursors
  have hmin : int64Min = -2 ^ 63 := rfl
  have hmax : int64Max = 2 ^ 63 - 1 := rfl
  unfold WellFormed
  by_cases hguard : f.SendsRange
  · simp only [hguard, forall_true_left]
    by_cases hsum : f.mOffset + f.mBytesDone ≤ int64Max
    · by_cases hL : int64Min ≤ f.mLen - a
      · have hrl : f.resumeLen = f.mLen - a := h.resumeLen.trans (toInt64_eq_iff.2 ⟨hL, by omega⟩)
        rw [range_of_guard hguard, hrl]
        by_cases hmissing : a ≤ f.mLen
        · have hro : f.resumeOffset = f.mOffset + a := h.resumeOffset.trans (toInt64_eq_iff.2 ⟨by omega, by omega⟩)
          rw [if_pos (by omega), hro]
          constructor
          · rintro ⟨_, hform⟩
            obtain ⟨_, hle⟩ := hform _ _ rfl
            exact ⟨by omega, hL, hsum⟩
          · rintro ⟨hne, _, _⟩
            refine ⟨⟨by omega, fun _ _ => by omega⟩, ?_⟩
            rintro x y ⟨⟩
            omega
        · rw [if_neg (by omega)]
          constructor
          · exact fun _ => ⟨by omega, hL, hsum⟩
          · exact fun _ => ⟨⟨by omega, fun _ _ => by omega⟩, fun x y hxy => by cases hxy⟩
      · have hrl : f.resumeLen = f.mLen - a + 2 ^ 64 := h.resumeLen.trans (toInt64_of_below (by omega) (by omega))
        constructor
        · rintro ⟨hfits, hform⟩
          have hlast := hfits.last hguard (by omega)
          rw [range_of_guard hguard, if_pos (by omega)] at hform
          obtain ⟨hfirst, _⟩ := hform _ _ rfl
          have hro : f.resumeOffset = f.mOffset + a ∨ f.resumeOffset = f.mOffset + a - 2 ^ 64 := by
            rw [h.resumeOffset]
            by_cases hA : f.mOffset + a ≤ int64Max
            · exact Or.inl (toInt64_eq_iff.2 ⟨by omega, hA⟩)
            · exact Or.inr (toInt64_of_above (by omega) (by omega))
          omega
        · exact fun hcond => (hL hcond.2.1).elim
    · exact ⟨fun hform => (hsum hform.1.done.2).elim, fun hcond => (hsum hcond.2.2).elim⟩
  · obtain ⟨hfits, _⟩ := h.readsOn_of_not_guard hguard
    rw [range_of_not_guard hguard]
    exact ⟨fun _ hg => (hguard hg).elim, fun _ => ⟨hfits, fun x y hxy => by cases hxy⟩⟩

/-- The fetchers of an opened object, as far as their ranges go. -/
theorem opened_task {J : JsonC} {ctx : Context} {bucket key : Option Str} {rangeStart rangeEnd : Int} {xs : Nat → Exchange}
    {fuel : Nat} {reader : QingStorReader β} {e : Option Errno}
    (hopen : qingstorGetObject J ctx bucket key rangeStart rangeEnd xs fuel = some (.ok ⟨some reader, e⟩))
    (hsize : ∀ res, ctx.headObject J (bucket.getD []) (key.getD []) xs = .ok res → 0 ≤ res.contentLength)
    {f : HTTPFetcher β} (hf : f ∈ reader.mPipeline.mPendingFetchers) :
    f.Made ∧ 0 ≤ f.mOffset ∧ f.mOffset + f.mLen ≤ int64Max ∧ f.confBuffSize < 2 ^ 32 ∧ f.mBuffSize ≤ f.confBuffSize := by
  obtain ⟨hcheck, res, chunks, hres, hchunks, hpipeline⟩ := getObject_ok hopen
  obtain ⟨h0, hle⟩ := openedRange_le (hsize res hres) hcheck
  rw [hpipeline] at hf
  rcases made_addChunks hf with hf | ⟨this, c, hc, rfl⟩
  · cases hf
  · obtain ⟨h1, h2, _, h4⟩ := chunkLoop_inside hle hchunks c hc
    have hlen := toInt32_le h2
    have hconf : ctx.mConfiguration.chunking.2 < 2 ^ 31 := by
      unfold Configuration.chunking
      split
      · split
        · norm_num
        · exact (toInt32_bounds _).2
      · norm_num
    refine ⟨⟨_, _, _, _, _, _, _, _, rfl⟩, h0.trans h1, ?_, ?_, Nat.zero_le _⟩
    · unfold HTTPFetcher.make
      dsimp only
      omega
    · unfold confBuffSize HTTPFetcher.make curlMaxWriteSize
      dsimp only
      split <;> omega

end HTTPFetcher

/-- Every range header of an opened object is well formed exactly when the bytes accepted before the start are not as many as the
fetcher is to read: when the object is not empty and no transfer failed after its last byte. -/
theorem range_form_iff (J : JsonC) (ctx : Context) (bucket key : Option Str) (rangeStart rangeEnd : Int) (xs : Nat → Exchange)
    (fuel : Nat) (reader : QingStorReader β) (e : Option Errno)
    (hopen : qingstorGetObject J ctx bucket key rangeStart rangeEnd xs fuel = some (.ok ⟨some reader, e⟩))
    (hsize : ∀ res, ctx.headObject J (bucket.getD []) (key.getD []) xs = .ok res → 0 ≤ res.contentLength)
    (f : HTTPFetcher β) (hf : f ∈ reader.mPipeline.mPendingFetchers) (ops : List (FetcherOp β)) (env : StartEnv β) (m : Multi β)
    (hok : ((f.after ops).fetcher.start env m).result = .ok ()) :
    (f.after ops).fetcher.SendsWellFormed ((f.after ops).fetcher.start env m) ↔
      ((f.after ops).fetcher.SendsRange →
        ((f.after ops).accepted.length : Int) ≠ f.mLen ∧ int64Min ≤ f.mLen - (f.after ops).accepted.length ∧
          f.mOffset + (f.after ops).fetcher.mBytesDone ≤ int64Max) := by
  obtain ⟨hmade, h0, hend, hconf, hbuff⟩ := HTTPFetcher.opened_task hopen hsize hf
  obtain ⟨htook, htask, hlen, hlen'⟩ := HTTPFetcher.took_after hmade h0 ops
  have hroom : (f.after ops).fetcher.mNused < 2 ^ 32 := by
    obtain ⟨this, url, host, bucket, cred, buffsize, offset, len, rfl⟩ := hmade
    have hs := FetcherRun.sound_make (β := β) this url host bucket cred buffsize offset len
    have hused := (hs.runs ops).1.roomy.used
    have hsame := (hs.runs ops).2.mConfBuffSize
    have hle := hs.buffSize_runs hbuff ops
    unfold HTTPFetcher.confBuffSize at hconf hle
    rw [hsame] at hle
    exact hused.trans_lt (hle.trans_lt hconf)
  rw [← htask.mLen] at hlen hlen' hend ⊢
  rw [← htask.mOffset] at hend ⊢
  have hiff := htook.wellFormed_iff hlen hlen' hend hroom
  obtain ⟨split, _, hheaders, _⟩ := ((f.after ops).fetcher.headed env m).sent hok
  constructor
  · exact fun hsent => hiff.1 hsent.form
  · intro hcond
    refine ⟨?_, hiff.2 hcond⟩
    rw [hheaders, List.drop_left, HTTPFetcher.filter_ownHeaders]

namespace RangeFormAux

open OpenedRangeAux

/-- The reader of the three bytes, in two chunks. -/
def reader : QingStorReader Byte :=
  ⟨addChunks context.mConfiguration (lit "b") ⟨lit "k", 3, ⟨0, 2⟩⟩ (.make context.mConfiguration.mNConnections) [(0, 2), (2, 1)]⟩

theorem opened : qingstorGetObject DownloadAux.headJson context (some (lit "b")) (some (lit "k")) 0 2
    (fun _ => DownloadAux.headAnswer) 2 = some (.ok ⟨some reader, none⟩) := by
  obtain ⟨res, hres, hsize⟩ := three_bytes
  have hrange : openedRange res.contentLength 0 2 = ⟨0, 2⟩ := by
    rw [hsize]
    decide
  have hloop : chunkLoop context.mConfiguration.chunking.1 2 2 0 = some (.ok [(0, 2), (2, 1)]) := by decide
  unfold qingstorGetObject
  rw [if_neg (by decide), if_neg (by decide), if_neg (by decide)]
  dsimp only [Option.getD_some]
  rw [hres]
  dsimp only
  unfold setupPipeline
  rw [hrange, hloop, hsize]
  rfl

theorem size_nonneg (res : HeadObjectResult) (hres : context.headObject DownloadAux.headJson (lit "b") (lit "k")
    (fun _ => DownloadAux.headAnswer) = .ok res) : 0 ≤ res.contentLength := by
  obtain ⟨res', hres', hsize⟩ := three_bytes
  rw [hres] at hres'
  cases hres'
  rw [hsize]
  decide

/-- The fetcher of the first two bytes. -/
def first : HTTPFetcher Byte :=
  .make 0 (context.mConfiguration.objectUrl (lit "b") (lit "k")) (context.mConfiguration.bucketHost (lit "b")) (lit "b")
    context.mConfiguration.credential context.mConfiguration.chunking.2 0 2

theorem first_mem : first ∈ reader.mPipeline.mPendingFetchers :=
  List.mem_append_left _ (List.mem_append_right _ (List.mem_singleton.2 rfl))

/-- Its request fails after `taken` was accepted. -/
def failing (taken : Str) : List (FetcherOp Byte) :=
  [.start Sample.willing .empty, .write taken, .handleResult (.failure .operationTimedout) 0 .empty]

end RangeFormAux

open RangeFormAux

theorem range_form_iff_half :
    (first.after (failing (lit "d"))).fetcher.SendsWellFormed
      ((first.after (failing (lit "d"))).fetcher.start Sample.willing .empty) :=
  (range_form_iff DownloadAux.headJson OpenedRangeAux.context (some (lit "b")) (some (lit "k")) 0 2
    (fun _ => DownloadAux.headAnswer) 2 reader none opened size_nonneg first first_mem (failing (lit "d")) Sample.willing .empty
    (by decide +kernel)).2 (fun _ => by decide +kernel)

/-- A range header can be out of order: a transfer that failed after its last byte is asked for again from behind it. -/
theorem range_form_false :
    ¬ ∀ (J : JsonC) (ctx : Context) (bucket key : Option Str) (rangeStart rangeEnd : Int) (xs : Nat → Exchange) (fuel : Nat)
      (reader : QingStorReader Byte) (e : Option Errno),
      qingstorGetObject J ctx bucket key rangeStart rangeEnd xs fuel = some (.ok ⟨some reader, e⟩) →
      (∀ res, ctx.headObject J (bucket.getD []) (key.getD []) xs = .ok res → 0 ≤ res.contentLength) →
      1 ≤ ctx.mConfiguration.mChunkSize → ctx.mConfiguration.mChunkSize < 2 ^ 31 →
      ∀ f ∈ reader.mPipeline.mPendingFetchers, ∀ (ops : List (FetcherOp Byte)) (env : StartEnv Byte) (m : Multi Byte),
        ((f.after ops).fetcher.start env m).result = .ok () →
        (f.after ops).fetcher.SendsWellFormed ((f.after ops).fetcher.start env m) := by
  intro h
  have hsent := h _ _ (some (lit "b")) (some (lit "k")) 0 2 _ 2 reader none opened size_nonneg (by decide) (by decide) first
    first_mem (failing (lit "da")) Sample.willing .empty (by decide +kernel)
  have hrange : (first.after (failing (lit "da"))).fetcher.range = some (.fromTo 2 1) := by decide +kernel
  exact absurd (hsent.form.2 2 1 hrange).2 (by decide)

end QingStor
