import QingStor.Lemmas.Extractors

/-!
# Releasing the responses

`listObjects` releases the response of each page after it was read, and its handler releases the response the pointer holds, which
may be one of an earlier page; `initMultipartUpload` releases its response in the handler only. As long as all goes well in a
listing, `puts` is the row of the responses so far, each once; the turn that ends it decides.
-/

namespace QingStor

/-- The states in which the turns of the loop of `listObjects` start. -/
def listStates (J : JsonC) (Q : Qsort) (ask : Ask) (cfg : Configuration) (bucket keyPrefix : Str) :
    Nat → ListState → List ListState
  | 0, _ => []
  | fuel + 1, st =>
    st :: match (listTurn J Q ask cfg bucket keyPrefix st).result with
      | .error _ => []
      | .ok () =>
        if (listTurn J Q ask cfg bucket keyPrefix st).state.eof then []
        else listStates J Q ask cfg bucket keyPrefix fuel (listTurn J Q ask cfg bucket keyPrefix st).state

/-- `DoGetJSON` returns the response `v`, which is no null pointer, to the request of a turn. -/
def ListState.Gets (ask : Ask) (cfg : Configuration) (bucket keyPrefix : Str) (st : ListState) (v : Json) : Prop :=
  ask st (cfg.listUrl bucket keyPrefix st.currentMarker) = .ok v ∧ v.isNull = false

/-- In a run of at most `fuel` turns no response is released twice, and when the run has returned or thrown each response it was
given was released. -/
structure ListReleased (J : JsonC) (Q : Qsort) (ask : Ask) (cfg : Configuration) (bucket keyPrefix : Str) (fuel : Nat) : Prop where
  once : ∀ st ∈ listStates J Q ask cfg bucket keyPrefix fuel .start, ∀ n,
    (listTurn J Q ask cfg bucket keyPrefix st).state.puts.count n ≤ 1
  all : ∀ o, listLoop J Q ask cfg bucket keyPrefix fuel .start = some o →
    ∀ st ∈ listStates J Q ask cfg bucket keyPrefix fuel .start, ∀ v, st.Gets ask cfg bucket keyPrefix v →
      st.responses ∈ o.state.puts

/-- The response that `DoGetJSON` gives `initMultipartUpload` is released once. -/
def InitReleased (J : JsonC) (r : Except Fault Json) : Prop :=
  ∀ v, r = .ok v → v.isNull = false → (initBlocks J r).puts = 1

/-- A response that is refused, with an error code that is no null. -/
def RefusedWithCode (ls : List Lookup) (v : Json) : Prop := Refused ls ∧ v.objectGetEx (lit "code") ≠ some .null

/-- What a turn needs: a request that throws an exception of the SDK is the first one, and a response is a page that can be used
or is refused with its code. -/
structure ListState.Orderly (ask : Ask) (cfg : Configuration) (bucket keyPrefix : Str) (st : ListState) : Prop where
  first : ∀ e, ask st (cfg.listUrl bucket keyPrefix st.currentMarker) = .error (.thrown e) →
    e.cls.isQingStorException = true → st.responses = 0
  legible : ∀ v, st.Gets ask cfg bucket keyPrefix v →
    RefusedWithCode (listLookups v) v ∨ ∀ l ∈ listLookups v, l.Bears

namespace ReleaseAux

variable {J : JsonC} {Q : Qsort} {ask : Ask} {cfg : Configuration} {bucket keyPrefix : Str} {st : ListState}

/-! ## One turn -/

/-- The responses, the pointer and the record of releases are the same. -/
def SameRecord (st st' : ListState) : Prop :=
  st'.responses = st.responses ∧ st'.respBody = st.respBody ∧ st'.puts = st.puts

theorem extractKeys_keeps (elements : List Json) (st : ListState) : SameRecord st (extractKeys J elements st).2 := by
  induction elements generalizing st with
  | nil => exact ⟨rfl, rfl, rfl⟩
  | cons e elements ih =>
    unfold extractKeys
    split
    · exact ⟨rfl, rfl, rfl⟩
    · split
      · exact ⟨rfl, rfl, rfl⟩
      · split
        · exact ⟨rfl, rfl, rfl⟩
        · exact ih _

theorem extractKeyList_keeps (respBody : Json) (st : ListState) : SameRecord st (extractKeyList J Q respBody st).2 := by
  unfold extractKeyList
  split
  · exact ⟨rfl, rfl, rfl⟩
  · split
    · exact ⟨rfl, rfl, rfl⟩
    · rename_i v _ _ n _
      dsimp only
      have hkeys := extractKeys_keeps (J := J) ((List.range n).map v.arrayGetIdx)
        { st with eof := st.eof || n = 0 || (n : Int) < toInt32 st.result.limit }
      split
      · rename_i st' heq
        rw [heq] at hkeys
        exact hkeys
      · exact hkeys

/-- The extraction leaves the record alone. -/
theorem extractListObjectContent_keeps (respBody : Json) (st : ListState) :
    SameRecord st (extractListObjectContent J Q respBody st).2 := by
  unfold extractListObjectContent
  split
  · exact ⟨rfl, rfl, rfl⟩
  · split
    · exact ⟨rfl, rfl, rfl⟩
    · dsimp only
      split
      · exact ⟨rfl, rfl, rfl⟩
      · split
        · exact ⟨rfl, rfl, rfl⟩
        · split
          · exact ⟨rfl, rfl, rfl⟩
          · exact extractKeyList_keeps _ _

theorem getString_some (J : JsonC) {code : Json} (h : code ≠ .null) : ∃ text, code.getString J = some text := by
  cases code with
  | null => exact absurd rfl h
  | _ => exact ⟨_, rfl⟩

/-- The fault a refused response is thrown as: an exception of the SDK, unless its code is null. -/
def ThrownByCode (v : Json) (f : Fault) : Prop :=
  v.objectGetEx (lit "code") ≠ some .null ∧ (∃ e : Exception, f = .thrown e ∧ e.cls.isQingStorException = true) ∨
    v.objectGetEx (lit "code") = some .null ∧ ∃ what, f = .undefined what

theorem listRefused_thrown (J : JsonC) (v : Json) : ThrownByCode v (listRefused J v) := by
  unfold ThrownByCode listRefused
  cases hcode : v.objectGetEx (lit "code") with
  | none => exact Or.inl ⟨by simp, _, rfl, rfl⟩
  | some code =>
    by_cases hnull : code = .null
    · rw [hnull]
      exact Or.inr ⟨rfl, _, rfl⟩
    · refine Or.inl ⟨by simpa using hnull, ?_⟩
      obtain ⟨text, htext⟩ := getString_some J hnull
      dsimp only
      rw [htext]
      dsimp only
      split
      · exact ⟨_, rfl, rfl⟩
      · split
        · exact ⟨_, rfl, rfl⟩
        · split <;> exact ⟨_, rfl, rfl⟩

theorem initRefused_thrown (J : JsonC) (v : Json) : ThrownByCode v (initRefused J v) := by
  unfold ThrownByCode initRefused
  cases hcode : v.objectGetEx (lit "code") with
  | none => exact Or.inl ⟨by simp, _, rfl, rfl⟩
  | some code =>
    by_cases hnull : code = .null
    · rw [hnull]
      exact Or.inr ⟨rfl, _, rfl⟩
    · refine Or.inl ⟨by simpa using hnull, ?_⟩
      obtain ⟨text, htext⟩ := getString_some J hnull
      dsimp only
      rw [htext]
      dsimp only
      split <;> exact ⟨_, rfl, rfl⟩

/-- What a turn does with the record of releases. -/
inductive Turned (ask : Ask) (cfg : Configuration) (bucket keyPrefix : Str) (st : ListState) (o : ListStep) : Prop
  /-- the request threw: the handler releases what the pointer holds -/
  | request (f : Fault) (hresult : o.result = .error f) (hputs : o.state.puts = st.puts ++ st.respBody.toList)
      (hthrew : ∃ e, ask st (cfg.listUrl bucket keyPrefix st.currentMarker) = .error (.thrown e) ∧ e.cls.isQingStorException = true)
  /-- there was no response, and the handler had nothing to release -/
  | nothing (f : Fault) (hresult : o.result = .error f) (hputs : o.state.puts = st.puts)
      (hnone : ∀ v, ¬ st.Gets ask cfg bucket keyPrefix v)
      (hnot : ∀ e, ask st (cfg.listUrl bucket keyPrefix st.currentMarker) = .error (.thrown e) → e.cls.isQingStorException ≠ true)
  /-- the response was refused and released in the handler -/
  | refused (v : Json) (f : Fault) (hresult : o.result = .error f) (hputs : o.state.puts = st.puts ++ [st.responses])
      (hgets : st.Gets ask cfg bucket keyPrefix v) (hwith : RefusedWithCode (listLookups v) v)
  /-- the page was read and released -/
  | page (v : Json) (hresult : o.result = .ok ()) (hputs : o.state.puts = st.puts ++ [st.responses])
      (hresponses : o.state.responses = st.responses + 1) (hbody : o.state.respBody = some st.responses)
      (hgets : st.Gets ask cfg bucket keyPrefix v) (hbears : ∀ l ∈ listLookups v, l.Bears)
  /-- the response made the code leave the language -/
  | lost (v : Json) (f : Fault) (hresult : o.result = .error f) (hputs : o.state.puts = st.puts)
      (hgets : st.Gets ask cfg bucket keyPrefix v)
      (hneither : ¬ (RefusedWithCode (listLookups v) v ∨ ∀ l ∈ listLookups v, l.Bears))

theorem turn_cases (J : JsonC) (Q : Qsort) (ask : Ask) (cfg : Configuration) (bucket keyPrefix : Str) (st : ListState) :
    Turned ask cfg bucket keyPrefix st (listTurn J Q ask cfg bucket keyPrefix st) := by
  unfold listTurn
  cases hask : ask st (cfg.listUrl bucket keyPrefix st.currentMarker) with
  | error f =>
    have hnone : ∀ v, ¬ st.Gets ask cfg bucket keyPrefix v := fun v h => by
      rw [ListState.Gets, hask] at h
      cases h.1
    cases f with
    | undefined what => exact .nothing _ rfl rfl hnone (fun e he => by rw [hask] at he; cases he)
    | thrown e =>
      by_cases hq : e.cls.isQingStorException = true
      · exact .request _ rfl (by simp only [ListState.caught, hq, if_true]) ⟨e, hask, hq⟩
      · refine .nothing _ rfl (by simp only [ListState.caught, hq]; rfl) hnone (fun e' he => ?_)
        rw [hask] at he
        cases he
        exact hq
  | ok v =>
    dsimp only
    cases hnull : v.isNull with
    | true =>
      refine .nothing _ rfl (by simp [ListState.caught, throwing, ExceptionClass.isQingStorException]) (fun w h => ?_)
        (fun e he => by rw [hask] at he; cases he)
      obtain rfl : v = w := Except.ok.inj (hask.symm.trans h.1)
      exact absurd h.2 (by rw [hnull]; simp)
    | false =>
      have hgets : st.Gets ask cfg bucket keyPrefix v := ⟨hask, hnull⟩
      simp only [Bool.false_eq_true, if_false]
      generalize hst : ({ st with responses := _, respBody := _ } : ListState) = st₁
      obtain ⟨hans, -⟩ := extractListObjectContent_walk J Q v st₁
      obtain ⟨hresponses, hbody, hputs⟩ := extractListObjectContent_keeps (J := J) (Q := Q) v st₁
      have hone : st₁.responses = st.responses + 1 ∧ st₁.respBody = some st.responses ∧ st₁.puts = st.puts := by
        rw [← hst]
        exact ⟨rfl, rfl, rfl⟩
      rw [hone.1] at hresponses
      rw [hone.2.1] at hbody
      rw [hone.2.2] at hputs
      generalize extractListObjectContent J Q v st₁ = o at hans hresponses hbody hputs ⊢
      obtain ⟨r, st'⟩ := o
      dsimp only at hans hresponses hbody hputs ⊢
      cases hwalk : walk (listLookups v) with
      | none =>
        rw [hwalk] at hans
        obtain ⟨what, rfl⟩ := hans
        refine .lost v _ rfl hputs hgets ?_
        rw [RefusedWithCode, ← walk_eq_false_iff, ← walk_eq_true_iff, hwalk]
        simp
      | some b =>
        rw [hwalk] at hans
        obtain rfl : r = .ok b := hans
        cases b with
        | true =>
          refine .page v rfl ?_ hresponses hbody hgets ((walk_eq_true_iff _).1 hwalk)
          dsimp only
          rw [hputs, hbody]
          rfl
        | false =>
          have hrefused := (walk_eq_false_iff _).1 hwalk
          dsimp only
          rcases listRefused_thrown J v with ⟨hcode, e, he, hq⟩ | ⟨hcode, what, he⟩
          · rw [he]
            refine .refused v _ rfl ?_ hgets ⟨hrefused, hcode⟩
            simp only [ListState.caught, hq, if_true, hputs, hbody, Option.toList_some]
          · rw [he]
            refine .lost v _ rfl hputs hgets ?_
            rw [RefusedWithCode, ← walk_eq_true_iff, hwalk]
            simp [hcode]

/-! ## A run -/

/-- All is well so far: each response was released, once and in its turn, and the pointer still holds the last one. -/
def Clean (st : ListState) : Prop := st.puts = List.range st.responses ∧ st.respBody = (List.range st.responses).getLast?

theorem count_range_le (k n : Nat) : (List.range k).count n ≤ 1 := List.nodup_iff_count_le_one.1 List.nodup_range n

/-- An orderly turn releases what it was given, once, and leaves all well if it does not end the loop. -/
theorem turn_clean (hclean : Clean st) (h : st.Orderly ask cfg bucket keyPrefix) {o : ListStep}
    (ho : Turned ask cfg bucket keyPrefix st o) :
    (∀ n, o.state.puts.count n ≤ 1) ∧ (∀ v, st.Gets ask cfg bucket keyPrefix v → st.responses ∈ o.state.puts) ∧
      (∀ n < st.responses, n ∈ o.state.puts) ∧
      (o.result = .ok () → Clean o.state ∧ o.state.responses = st.responses + 1) := by
  obtain ⟨hputs, hbody⟩ := hclean
  have hsame : o.state.puts = st.puts → (∀ n, o.state.puts.count n ≤ 1) ∧ ∀ n < st.responses, n ∈ o.state.puts := by
    intro heq
    rw [heq, hputs]
    exact ⟨count_range_le _, fun n hn => List.mem_range.2 hn⟩
  have hmore : o.state.puts = st.puts ++ [st.responses] →
      o.state.puts = List.range (st.responses + 1) ∧ (∀ n, o.state.puts.count n ≤ 1) ∧
        st.responses ∈ o.state.puts ∧ ∀ n < st.responses, n ∈ o.state.puts := by
    intro heq
    have hrange : o.state.puts = List.range (st.responses + 1) := by rw [heq, hputs, List.range_succ]
    rw [hrange]
    exact ⟨rfl, count_range_le _, List.mem_range.2 (Nat.lt_succ_self _), fun n hn => List.mem_range.2 (by omega)⟩
  cases ho with
  | request f hresult heq hthrew =>
    obtain ⟨e, he, hq⟩ := hthrew
    have hfirst : st.respBody = none := by rw [hbody, h.first e he hq]; rfl
    rw [hfirst, Option.toList_none, List.append_nil] at heq
    refine ⟨(hsame heq).1, fun v hv => ?_, (hsame heq).2, fun hok => by rw [hresult] at hok; cases hok⟩
    rw [ListState.Gets, he] at hv
    cases hv.1
  | nothing f hresult heq hnone hnot =>
    exact ⟨(hsame heq).1, fun v hv => (hnone v hv).elim, (hsame heq).2, fun hok => by rw [hresult] at hok; cases hok⟩
  | refused v f hresult heq hgets hwith =>
    obtain ⟨_, hcount, hmem, hbefore⟩ := hmore heq
    exact ⟨hcount, fun _ _ => hmem, hbefore, fun hok => by rw [hresult] at hok; cases hok⟩
  | page v hresult heq hresponses hbody' hgets hbears =>
    obtain ⟨hrange, hcount, hmem, hbefore⟩ := hmore heq
    refine ⟨hcount, fun _ _ => hmem, hbefore, fun _ => ⟨⟨?_, ?_⟩, hresponses⟩⟩
    · rw [hrange, hresponses]
    · rw [hbody', hresponses, List.range_succ, List.getLast?_concat]
  | lost v f hresult heq hgets hneither => exact (hneither (h.legible v hgets)).elim

/-- A turn that is not orderly ends the loop with a response that was released twice, or with one that was not released. -/
theorem turn_disorderly (hclean : Clean st) (h : ¬ st.Orderly ask cfg bucket keyPrefix) {o : ListStep}
    (ho : Turned ask cfg bucket keyPrefix st o) :
    (∃ f, o.result = .error f) ∧ ((∃ n, 1 < o.state.puts.count n) ∨
      ∃ v, st.Gets ask cfg bucket keyPrefix v ∧ st.responses ∉ o.state.puts) := by
  obtain ⟨hputs, hbody⟩ := hclean
  cases ho with
  | request f hresult heq hthrew =>
    obtain ⟨e, he, hq⟩ := hthrew
    refine ⟨⟨f, hresult⟩, Or.inl ?_⟩
    have hlater : st.responses ≠ 0 := by
      intro hzero
      refine h ⟨fun _ _ _ => hzero, fun v hv => ?_⟩
      rw [ListState.Gets, he] at hv
      cases hv.1
    obtain ⟨k, hk⟩ := Nat.exists_eq_succ_of_ne_zero hlater
    refine ⟨k, ?_⟩
    rw [heq, hbody, hputs, hk, Nat.succ_eq_add_one, List.range_succ, List.getLast?_concat, Option.toList_some,
      List.count_append, List.count_append]
    simp
  | nothing f hresult heq hnone hnot =>
    exact (h ⟨fun e he hq => (hnot e he hq).elim, fun v hv => (hnone v hv).elim⟩).elim
  | refused v f hresult heq hgets hwith =>
    refine (h ⟨fun e he _ => ?_, fun w hw => ?_⟩).elim
    · rw [hgets.1] at he
      cases he
    · obtain rfl : v = w := Except.ok.inj (hgets.1.symm.trans hw.1)
      exact Or.inl hwith
  | page v hresult heq hresponses hbody' hgets hbears =>
    refine (h ⟨fun e he _ => ?_, fun w hw => ?_⟩).elim
    · rw [hgets.1] at he
      cases he
    · obtain rfl : v = w := Except.ok.inj (hgets.1.symm.trans hw.1)
      exact Or.inr hbears
  | lost v f hresult heq hgets hneither =>
    refine ⟨⟨f, hresult⟩, Or.inr ⟨v, hgets, ?_⟩⟩
    rw [heq, hputs]
    simp

/-- The states of the turns of a run: the first, and those of the rest of the run when a turn does not end the loop. -/
theorem listStates_succ (J : JsonC) (Q : Qsort) (ask : Ask) (cfg : Configuration) (bucket keyPrefix : Str) (fuel : Nat)
    (st : ListState) :
    (∃ f, (listTurn J Q ask cfg bucket keyPrefix st).result = .error f) ∧
        listStates J Q ask cfg bucket keyPrefix (fuel + 1) st = [st] ∧
        listLoop J Q ask cfg bucket keyPrefix (fuel + 1) st = some (listTurn J Q ask cfg bucket keyPrefix st) ∨
      (listTurn J Q ask cfg bucket keyPrefix st).result = .ok () ∧
        (listStates J Q ask cfg bucket keyPrefix (fuel + 1) st = [st] ∧
          listLoop J Q ask cfg bucket keyPrefix (fuel + 1) st = some (listTurn J Q ask cfg bucket keyPrefix st) ∨
        listStates J Q ask cfg bucket keyPrefix (fuel + 1) st =
            st :: listStates J Q ask cfg bucket keyPrefix fuel (listTurn J Q ask cfg bucket keyPrefix st).state ∧
          listLoop J Q ask cfg bucket keyPrefix (fuel + 1) st =
            listLoop J Q ask cfg bucket keyPrefix fuel (listTurn J Q ask cfg bucket keyPrefix st).state) := by
  cases hr : (listTurn J Q ask cfg bucket keyPrefix st).result with
  | error f => exact Or.inl ⟨⟨f, rfl⟩, by simp only [listStates, hr], by simp only [listLoop, hr]⟩
  | ok u =>
    refine Or.inr ⟨rfl, ?_⟩
    by_cases heof : (listTurn J Q ask cfg bucket keyPrefix st).state.eof = true
    · exact Or.inl ⟨by simp only [listStates, hr, heof, if_true], by simp only [listLoop, hr, heof, if_true]⟩
    · exact Or.inr ⟨by simp only [listStates, hr, if_neg heof], by simp only [listLoop, hr, if_neg heof]⟩

/-- A run of orderly turns releases everything once. -/
theorem run_released (fuel : Nat) (hclean : Clean st)
    (h : ∀ s ∈ listStates J Q ask cfg bucket keyPrefix fuel st, s.Orderly ask cfg bucket keyPrefix) :
    (∀ s ∈ listStates J Q ask cfg bucket keyPrefix fuel st, ∀ n,
        (listTurn J Q ask cfg bucket keyPrefix s).state.puts.count n ≤ 1) ∧
      ∀ o, listLoop J Q ask cfg bucket keyPrefix fuel st = some o → (∀ n < st.responses, n ∈ o.state.puts) ∧
        ∀ s ∈ listStates J Q ask cfg bucket keyPrefix fuel st, ∀ v, s.Gets ask cfg bucket keyPrefix v →
          s.responses ∈ o.state.puts := by
  induction fuel generalizing st with
  | zero => exact ⟨(fun s hs => by cases hs), (fun o ho => by cases ho)⟩
  | succ fuel ih =>
    have hfirst : st ∈ listStates J Q ask cfg bucket keyPrefix (fuel + 1) st := List.mem_cons_self ..
    obtain ⟨hcount, hmem, hbefore, hnext⟩ := turn_clean hclean (h st hfirst) (turn_cases J Q ask cfg bucket keyPrefix st)
    have hlast : listStates J Q ask cfg bucket keyPrefix (fuel + 1) st = [st] ∧
        listLoop J Q ask cfg bucket keyPrefix (fuel + 1) st = some (listTurn J Q ask cfg bucket keyPrefix st) →
        (∀ s ∈ listStates J Q ask cfg bucket keyPrefix (fuel + 1) st, ∀ n,
            (listTurn J Q ask cfg bucket keyPrefix s).state.puts.count n ≤ 1) ∧
          ∀ o, listLoop J Q ask cfg bucket keyPrefix (fuel + 1) st = some o → (∀ n < st.responses, n ∈ o.state.puts) ∧
            ∀ s ∈ listStates J Q ask cfg bucket keyPrefix (fuel + 1) st, ∀ v, s.Gets ask cfg bucket keyPrefix v →
              s.responses ∈ o.state.puts := by
      rintro ⟨hstates, hloop⟩
      rw [hstates, hloop]
      refine ⟨fun s hs => ?_, fun o ho => ?_⟩
      · rw [List.mem_singleton.1 hs]
        exact hcount
      · obtain rfl := Option.some.inj ho
        refine ⟨hbefore, fun s hs => ?_⟩
        rw [List.mem_singleton.1 hs]
        exact hmem
    rcases listStates_succ J Q ask cfg bucket keyPrefix fuel st with ⟨_, hend⟩ | ⟨hok, hend | ⟨hstates, hloop⟩⟩
    · exact hlast hend
    · exact hlast hend
    · obtain ⟨hclean', hresponses⟩ := hnext hok
      rw [hstates] at h
      obtain ⟨hcounts, hall⟩ := ih hclean' (fun s hs => h s (List.mem_cons_of_mem _ hs))
      rw [hstates, hloop]
      refine ⟨fun s hs => ?_, fun o ho => ?_⟩
      · rcases List.mem_cons.1 hs with rfl | hs
        · exact hcount
        · exact hcounts s hs
      · obtain ⟨hearlier, hrest⟩ := hall o ho
        rw [hresponses] at hearlier
        refine ⟨fun n hn => hearlier n (by omega), fun s hs v hv => ?_⟩
        rcases List.mem_cons.1 hs with rfl | hs
        · exact hearlier _ (Nat.lt_succ_self _)
        · exact hrest s hs v hv

/-- A run that releases everything once has orderly turns. -/
theorem run_orderly (fuel : Nat) (hclean : Clean st)
    (hcount : ∀ s ∈ listStates J Q ask cfg bucket keyPrefix fuel st, ∀ n,
      (listTurn J Q ask cfg bucket keyPrefix s).state.puts.count n ≤ 1)
    (hall : ∀ o, listLoop J Q ask cfg bucket keyPrefix fuel st = some o →
      ∀ s ∈ listStates J Q ask cfg bucket keyPrefix fuel st, ∀ v, s.Gets ask cfg bucket keyPrefix v →
        s.responses ∈ o.state.puts) :
    ∀ s ∈ listStates J Q ask cfg bucket keyPrefix fuel st, s.Orderly ask cfg bucket keyPrefix := by
  induction fuel generalizing st with
  | zero => exact fun s hs => by cases hs
  | succ fuel ih =>
    have hfirst : st ∈ listStates J Q ask cfg bucket keyPrefix (fuel + 1) st := List.mem_cons_self ..
    have hturn := turn_cases J Q ask cfg bucket keyPrefix st
    have horderly : st.Orderly ask cfg bucket keyPrefix := by
      by_contra hno
      obtain ⟨⟨f, hresult⟩, ⟨n, hn⟩ | ⟨v, hv, hmem⟩⟩ := turn_disorderly hclean hno hturn
      · have hle := hcount st hfirst n
        omega
      · rcases listStates_succ J Q ask cfg bucket keyPrefix fuel st with
          ⟨_, _, hloop⟩ | ⟨hok, _⟩
        · exact hmem (hall _ hloop st hfirst v hv)
        · rw [hresult] at hok
          cases hok
    rcases listStates_succ J Q ask cfg bucket keyPrefix fuel st with
      ⟨_, hstates, _⟩ | ⟨hok, ⟨hstates, _⟩ | ⟨hstates, hloop⟩⟩
    · rw [hstates]
      exact fun s hs => (List.mem_singleton.1 hs) ▸ horderly
    · rw [hstates]
      exact fun s hs => (List.mem_singleton.1 hs) ▸ horderly
    · rw [hstates] at hcount hall ⊢
      rw [hloop] at hall
      obtain ⟨hclean', -⟩ := (turn_clean hclean horderly hturn).2.2.2 hok
      have hrest := ih hclean' (fun s hs => hcount s (List.mem_cons_of_mem _ hs))
        (fun o ho s hs => hall o ho s (List.mem_cons_of_mem _ hs))
      intro s hs
      rcases List.mem_cons.1 hs with rfl | hs
      · exact horderly
      · exact hrest s hs

/-! ## Opening an upload -/

/-- The two blocks come to what `initMultipartUpload` does. -/
theorem initBlocks_result (J : JsonC) (r : Except Fault Json) : (initBlocks J r).result = rethrowing (initResponse J r) := by
  unfold initBlocks
  dsimp only
  cases initResponse J r with
  | ok ids => rfl
  | error f => cases f <;> rfl

/-- The response that opens an upload is released exactly if it is refused with its code. -/
theorem initBlocks_puts_iff (J : JsonC) {v : Json} (hnull : v.isNull = false) :
    (initBlocks J (.ok v)).puts = 1 ↔ RefusedWithCode (uploadLookups v) v := by
  have hfollows := extractUploadIDContent_follows J v
  unfold RefusedWithCode initBlocks initResponse
  simp only [hnull, Bool.false_eq_true, if_false]
  cases hr : extractUploadIDContent J v with
  | error f =>
    have hans := hfollows.answers
    rw [hr] at hans
    cases hwalk : walk (uploadLookups v) with
    | some b =>
      rw [hwalk] at hans
      cases hans
    | none =>
      rw [hwalk] at hans
      obtain ⟨what, hwhat⟩ := hans
      obtain rfl : f = .undefined what := Except.error.inj hwhat
      rw [← walk_eq_false_iff, hwalk]
      simp
  | ok o =>
    cases o with
    | some ids =>
      have hnot : ¬ Refused (uploadLookups v) := by
        rw [← hfollows.refused_iff, hr]
        simp
      simp [hnot]
    | none =>
      have hrefused : Refused (uploadLookups v) := hfollows.refused_iff.1 hr
      dsimp only
      rcases initRefused_thrown J v with ⟨hcode, e, he, hq⟩ | ⟨hcode, what, he⟩
      · rw [he]
        simp [hrefused, hcode, hq]
      · rw [he]
        simp [hcode]

end ReleaseAux

/-- In a listing every response is released once, and none is left, exactly if a request that throws comes before any page and
each response is a page that can be used or is refused with its code; the response that opens an upload is released once exactly
if it is refused with its code, so that a successful opening leaves it. -/
theorem released_iff (J : JsonC) (Q : Qsort) (ask : Ask) (cfg : Configuration) (bucket keyPrefix key : Str) (fuel : Nat)
    (xs : Nat → Exchange) :
    (ListReleased J Q ask cfg bucket keyPrefix fuel ↔
      ∀ st ∈ listStates J Q ask cfg bucket keyPrefix fuel .start, st.Orderly ask cfg bucket keyPrefix) ∧
    (InitReleased J (doGetJSON J (initArgs cfg bucket key) none cfg.mConnectionRetries xs).result ↔
      ∀ v, (doGetJSON J (initArgs cfg bucket key) none cfg.mConnectionRetries xs).result = .ok v → v.isNull = false →
        RefusedWithCode (uploadLookups v) v) := by
  have hclean : ReleaseAux.Clean .start := ⟨rfl, rfl⟩
  refine ⟨⟨fun h => ReleaseAux.run_orderly fuel hclean h.once h.all, fun h => ?_⟩, ?_⟩
  · obtain ⟨honce, hall⟩ := ReleaseAux.run_released fuel hclean h
    exact ⟨honce, fun o ho => (hall o ho).2⟩
  · generalize (doGetJSON J (initArgs cfg bucket key) none cfg.mConnectionRetries xs).result = r
    unfold InitReleased
    refine forall_congr' (fun v => forall_congr' (fun hr => forall_congr' (fun hnull => ?_)))
    rw [hr]
    exact ReleaseAux.initBlocks_puts_iff J hnull

/-- A first page with one key of one, and a request for the second that throws. -/
def Sample.secondFails : Ask := fun st _ =>
  if st.responses = 0 then .ok (pageResponse (fun _ => 7) 1 [lit "a"])
  else .error (throwing .qingStorNetworkException "could not connect")

/-- A configuration with chunks of four bytes. -/
def Sample.listed : Configuration := .ofArguments (lit "pek3a") (lit "id") (lit "secret") 4

/-- The handler releases the first page a second time, and the response of a successful opening is left. -/
theorem released_false :
    ¬ ListReleased Sample.json Sample.mergeSort Sample.secondFails Sample.listed (lit "b") [] 2 ∧
      ¬ InitReleased Sample.json (doGetJSON Sample.json (initArgs Sample.listed (lit "b") (lit "k")) none
        Sample.listed.mConnectionRetries (fun _ => Sample.answer [] 200 [Sample.initAnswer])).result := by
  constructor
  · intro h
    have htwice : ∃ st ∈ listStates Sample.json Sample.mergeSort Sample.secondFails Sample.listed (lit "b") [] 2 .start,
        (listTurn Sample.json Sample.mergeSort Sample.secondFails Sample.listed (lit "b") [] st).state.puts.count 0 = 2 :=
      ⟨_, List.mem_cons_of_mem _ (List.mem_cons_self ..), rfl⟩
    obtain ⟨st, hst, htwo⟩ := htwice
    have hle := h.once st hst 0
    omega
  · intro h
    have hleft := h _ rfl rfl
    exact absurd hleft (by decide +kernel)

end QingStor
