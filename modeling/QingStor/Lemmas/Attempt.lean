import QingStor.Lemmas.FetcherRun

/-!
# The request of one attempt

`start` adds the headers of its request to those the fetcher has from earlier attempts, and hands curl all of them. The range
among them is computed from five fields in 64-bit arithmetic.
-/

namespace QingStor

variable {β : Type*}

/-! ## Headers -/

theorem headerContentAdd_append (h h' : HeaderContent) (f : HeaderField) (v : Str) :
    headerContentAdd (h ++ h') f v = h ++ headerContentAdd h' f v := by
  unfold headerContentAdd
  split
  · rfl
  · rw [List.append_assoc]

/-- What stood before is before what a signature adds. -/
theorem signature_append (S : Signer) (h h' : HeaderContent) (resource : Str) (cred : QSCredential) (qsrt : QSRequestType)
    (md : Option MemoryData) :
    signature S (h ++ h') resource cred qsrt md = (signature S h' resource cred qsrt md).map (h ++ ·) := by
  cases qsrt with
  | uploadMp | compMpUpload =>
    cases md with
    | none => rfl
    | some md =>
      simp only [signature, QSRequestType.signedHead, headerContentAdd_append]
      split <;> rfl
  | _ =>
    simp only [signature, QSRequestType.signedHead, headerContentAdd_append]
    first
      | rfl
      | (split <;> rfl)

/-- Adding a header adds to the entries of its field. -/
theorem filter_add (h : HeaderContent) (field : HeaderField) (v : Str) :
    (headerContentAdd h field v).filter (fun p => p.1 = field) = headerContentAdd (h.filter (fun p => p.1 = field)) field v := by
  unfold headerContentAdd
  split
  · rfl
  · simp

/-- Adding a header leaves the entries of the other fields. -/
theorem filter_add_of_ne (h : HeaderContent) {field other : HeaderField} (hne : other ≠ field) (v : Str) :
    (headerContentAdd h other v).filter (fun p => p.1 = field) = h.filter (fun p => p.1 = field) := by
  unfold headerContentAdd
  split
  · rfl
  · simp [hne]

/-! ### Lines -/

/-- The line of a header. -/
def headerLineOf (field : HeaderField) (value : Str) : Str := getFieldString field ++ lit ": " ++ value

/-- The lines of one field: those whose text before the colon is its name. -/
def entriesOf (field : HeaderField) (lines : List Str) : List Str :=
  lines.filter (fun line => line.takeWhile (· ≠ ':'.toUInt8) = getFieldString field)

/-- The text before the colon of a header line is the name of its field. -/
theorem takeWhile_line (field : HeaderField) (value : Str) :
    (getFieldString field ++ lit ": " ++ value).takeWhile (· ≠ ':'.toUInt8) = getFieldString field := by
  have hcolon : (lit ": " ++ value).takeWhile (· ≠ ':'.toUInt8) = [] := rfl
  have hname : ∀ c ∈ getFieldString field, decide (c ≠ ':'.toUInt8) = true := by
    cases field <;> decide +kernel
  rw [List.append_assoc, List.takeWhile_append_of_pos hname, hcolon, List.append_nil]

theorem getFieldString_inj {a b : HeaderField} (h : getFieldString a = getFieldString b) : a = b := by
  revert h
  cases a <;> cases b <;> decide

/-- The lines of one field are the lines its entries make. -/
theorem entriesOf_getList (field : HeaderField) (h : HeaderContent) :
    entriesOf field (headerContentGetList h) = headerContentGetList (h.filter (fun p => p.1 = field)) := by
  unfold entriesOf headerContentGetList
  rw [List.filter_map]
  congr 1
  refine List.filter_congr (fun p _ => ?_)
  rw [Function.comp_apply, takeWhile_line, decide_eq_decide]
  exact ⟨getFieldString_inj, fun heq => congrArg getFieldString heq⟩

/-! ### The headers of a start -/

/-- The headers `start` makes for its own request before it is signed. -/
def HTTPFetcher.ownHeader (f : HTTPFetcher β) : HeaderContent :=
  match f.range with
  | some r => headerContentAdd (headerContentAdd [] .host f.mHost) .range r.text
  | none => headerContentAdd [] .host f.mHost

/-- The value of the `Authorization` header `start` computes. -/
def HTTPFetcher.authorization (f : HTTPFetcher β) (S : Signer) (split : Str × Option Str) : Str :=
  lit "QS-HMAC-SHA256 " ++ f.mCred.keyid ++ lit ":" ++
    S.sha256hmac (lit "GET\n\n" ++ lit "\n" ++ S.timebuf ++ lit "\n" ++ signedResource f.mBucket split.1 split.2) f.mCred.secret

/-- The headers `start` makes for its own request. -/
def HTTPFetcher.ownHeaders (f : HTTPFetcher β) (S : Signer) (split : Str × Option Str) : HeaderContent :=
  headerContentAdd (headerContentAdd f.ownHeader .contentLength (lit "0")) .date S.timebuf ++
    if f.mCred.keyid ≠ [] ∧ f.mCred.secret ≠ [] then [(.authorization, f.authorization S split)] else []

/-! ## The range -/

theorem toInt64_bounds (n : Int) : int64Min ≤ toInt64 n ∧ toInt64 n ≤ int64Max := by
  have h1 := @Int.le_bmod n (2 ^ 64) (by decide)
  have h2 := @Int.bmod_lt n (2 ^ 64) (by decide)
  unfold toInt64 int64Min int64Max
  omega

theorem toInt64_eq_iff {n : Int} : toInt64 n = n ↔ int64Min ≤ n ∧ n ≤ int64Max := by
  constructor
  · intro h
    rw [← h]
    exact toInt64_bounds n
  · rintro ⟨h1, h2⟩
    exact toInt64_of_bounds h1 (by unfold int64Max at h2; omega)

/-- A number that is below the type by less than its width comes out above it by as much. -/
theorem toInt64_of_below {n : Int} (h1 : -2 ^ 64 ≤ n) (h2 : n < int64Min) : toInt64 n = n + 2 ^ 64 := by
  unfold int64Min at h2
  unfold toInt64 Int.bmod
  norm_num
  split <;> omega

/-- A number that is above the type by less than its width comes out below it by as much. -/
theorem toInt64_of_above {n : Int} (h1 : int64Max < n) (h2 : n < 2 ^ 64) : toInt64 n = n - 2 ^ 64 := by
  unfold int64Max at h1
  unfold toInt64 Int.bmod
  norm_num
  split <;> omega

theorem toInt32_bounds (n : Int) : -2 ^ 31 ≤ toInt32 n ∧ toInt32 n < 2 ^ 31 := by
  have h1 := @Int.le_bmod n (2 ^ 32) (by decide)
  have h2 := @Int.bmod_lt n (2 ^ 32) (by decide)
  unfold toInt32
  omega

namespace HTTPFetcher

variable {f : HTTPFetcher β} {env : StartEnv β} {m : Multi β}

theorem signature_own (f : HTTPFetcher β) (S : Signer) (h : HeaderContent) (split : Str × Option Str) :
    signature S (h ++ f.ownHeader) (signedResource f.mBucket split.1 split.2) f.mCred .getData none =
      .ok (h ++ f.ownHeaders S split) := by
  rw [signature_append]
  have hown : signature S f.ownHeader (signedResource f.mBucket split.1 split.2) f.mCred .getData none =
      .ok (f.ownHeaders S split) := by
    unfold ownHeaders
    simp only [signature, QSRequestType.signedHead]
    split
    · rw [headerContentAdd, if_neg (by simp [lit]), headerContentAdd, if_pos rfl]
      rfl
    · rw [headerContentAdd, if_pos rfl, List.append_nil]
  rw [hown]
  rfl

/-- The entries of the headers before the signature: a host, and a range where there is one. -/
theorem filter_ownHeader (f : HTTPFetcher β) (field : HeaderField) :
    f.ownHeader.filter (fun p => p.1 = field) =
      match field with
      | .host => headerContentAdd [] .host f.mHost
      | .range => f.range.toList.map (fun r => (.range, r.text))
      | _ => [] := by
  have hhost : (headerContentAdd [] .host f.mHost).filter (fun p => p.1 = field) =
      if field = .host then headerContentAdd [] .host f.mHost else [] := by
    split
    · rename_i h
      rw [h, filter_add, List.filter_nil]
    · rename_i h
      rw [filter_add_of_ne _ (Ne.symm h), List.filter_nil]
  unfold ownHeader
  cases f.range with
  | none =>
    dsimp only
    rw [hhost]
    cases field <;> rfl
  | some r =>
    have htext : r.text ≠ [] := by
      cases r <;> simp [RangeHeader.text, lit]
    dsimp only
    by_cases hr : HeaderField.range = field
    · subst hr
      rw [filter_add, hhost, headerContentAdd, if_neg htext]
      rfl
    · rw [filter_add_of_ne _ hr, hhost]
      cases field <;> first | rfl | exact (hr rfl).elim

/-- The entries of the headers a start makes: each of its fields once. -/
theorem filter_ownHeaders (f : HTTPFetcher β) (S : Signer) (split : Str × Option Str) (field : HeaderField) :
    (f.ownHeaders S split).filter (fun p => p.1 = field) =
      match field with
      | .host => headerContentAdd [] .host f.mHost
      | .range => f.range.toList.map (fun r => (.range, r.text))
      | .contentLength => [(.contentLength, lit "0")]
      | .date => headerContentAdd [] .date S.timebuf
      | .authorization =>
        if f.mCred.keyid ≠ [] ∧ f.mCred.secret ≠ [] then [(.authorization, f.authorization S split)] else []
      | _ => [] := by
  have hsigned : (if f.mCred.keyid ≠ [] ∧ f.mCred.secret ≠ [] then
      [(HeaderField.authorization, f.authorization S split)] else []).filter (fun p => p.1 = field) =
      if field = .authorization ∧ f.mCred.keyid ≠ [] ∧ f.mCred.secret ≠ [] then
        [(.authorization, f.authorization S split)] else [] := by
    by_cases hkeys : f.mCred.keyid ≠ [] ∧ f.mCred.secret ≠ []
    · by_cases hfield : HeaderField.authorization = field
      · rw [if_pos hkeys, if_pos ⟨hfield.symm, hkeys⟩, List.filter_singleton, decide_eq_true hfield]
        rfl
      · rw [if_pos hkeys, if_neg (fun h => hfield h.1.symm), List.filter_singleton, decide_eq_false hfield]
        rfl
    · rw [if_neg hkeys, if_neg (fun h => hkeys h.2), List.filter_nil]
  have hown := f.filter_ownHeader field
  unfold ownHeaders
  rw [List.filter_append, hsigned]
  cases field with
  | contentLength =>
    rw [filter_add_of_ne _ (by decide), filter_add, hown]
    rfl
  | date =>
    rw [filter_add, filter_add_of_ne _ (by decide), hown, if_neg (fun h => by cases h.1), List.append_nil]
  | authorization =>
    rw [filter_add_of_ne _ (by decide), filter_add_of_ne _ (by decide), hown, List.nil_append]
    simp only [true_and]
  | _ =>
    rw [filter_add_of_ne _ (by decide), filter_add_of_ne _ (by decide), hown, if_neg (fun h => by cases h.1), List.append_nil]

/-- What `start` makes of the headers: it leaves them, or it adds those of its own request, and hands curl all of them. -/
structure Headed (f : HTTPFetcher β) (S : Signer) (o : FetcherStep β) : Prop where
  grown : o.fetcher.mHeaders = f.mHeaders ∨ o.fetcher.mHeaders = f.mHeaders ++ f.ownHeader ∨
    ∃ split, o.fetcher.mHeaders = f.mHeaders ++ f.ownHeaders S split
  sent : o.result = .ok () → ∃ split, qsParseUrl f.mUrl = .ok split ∧
    o.fetcher.mHeaders = f.mHeaders ++ f.ownHeaders S split ∧
    o.fetcher.mHttpHeaders = some (headerContentGetList (f.mHeaders ++ f.ownHeaders S split))

theorem add_own_of_none (h : f.range = none) : headerContentAdd f.mHeaders .host f.mHost = f.mHeaders ++ f.ownHeader := by
  rw [ownHeader, h, ← headerContentAdd_append, List.append_nil]

theorem add_own_of_some {r : RangeHeader} (h : f.range = some r) :
    headerContentAdd (headerContentAdd f.mHeaders .host f.mHost) .range r.text = f.mHeaders ++ f.ownHeader := by
  rw [ownHeader, h]
  dsimp only
  rw [← headerContentAdd_append, ← headerContentAdd_append, List.append_nil]

/-- The headers of a start on a fetcher that has its buffer. -/
theorem headed_of_buffer (hsome : f.mReadBuff.isSome = true) (env : StartEnv β) (m : Multi β) :
    Headed f env.signer (f.start env m) := by
  have hnone : f.mReadBuff.isNone = false := by
    rw [← Option.not_isSome, hsome]
    rfl
  unfold start
  simp only [hnone, Bool.false_eq_true, if_false, false_and]
  split
  · exact ⟨Or.inl rfl, fun h => by cases h⟩
  · split
    · exact ⟨Or.inl rfl, fun h => by cases h⟩
    · have hrange : ({ f with mCurl := .easy m.fresh, mParent := true, mHeaders := headerContentAdd f.mHeaders .host f.mHost } :
          HTTPFetcher β).range = f.range := rfl
      rw [hrange]
      cases hr : f.range with
      | none | some r =>
        dsimp only
        first
          | rw [add_own_of_none hr]
          | rw [add_own_of_some hr]
        cases hurl : qsParseUrl f.mUrl with
        | error e => exact ⟨Or.inr (Or.inl rfl), fun h => by cases h⟩
        | ok split =>
          dsimp only
          split
          · exact ⟨Or.inr (Or.inl rfl), fun h => by cases h⟩
          · rw [signature_own]
            exact ⟨Or.inr (Or.inr ⟨split, rfl⟩), fun _ => ⟨split, hurl, rfl, rfl⟩⟩

/-- The headers of a start. -/
theorem headed (f : HTTPFetcher β) (env : StartEnv β) (m : Multi β) : Headed f env.signer (f.start env m) := by
  by_cases hok : f.mReadBuff.isSome = true ∨ env.malloc = true
  · have h := headed_of_buffer (primed_isSome hok) env m
    rw [start_primed f hok]
    obtain ⟨size, buff, hsame⟩ := f.primed_same env
    rw [hsame] at h ⊢
    exact ⟨h.grown, h.sent⟩
  · obtain ⟨size, buff, hsame⟩ := f.primed_same env
    rcases f.start_cases env m with ⟨e, he⟩ | ⟨hor, _⟩
    · rw [he, hsame]
      exact ⟨Or.inl rfl, fun h => by cases h⟩
    · exact (hok hor).elim

/-! ## The range of a start -/

/-- The guard of the `Range` header. -/
def SendsRange (f : HTTPFetcher β) : Prop := f.mOffset + f.mBytesDone > 0 ∨ f.mLen ≥ 0

/-- The signed sums of `start` stay in 64 bits, the one of its guard and the one of the last byte. -/
structure SumsFit (f : HTTPFetcher β) : Prop where
  done : int64Min ≤ f.mOffset + f.mBytesDone ∧ f.mOffset + f.mBytesDone ≤ int64Max
  last : f.SendsRange → 0 ≤ f.resumeLen →
    int64Min < f.resumeOffset + f.resumeLen ∧ f.resumeOffset + f.resumeLen ≤ int64Max

/-- `a` is the number of bytes that were accepted, handed out or not. -/
structure Took (f : HTTPFetcher β) (a : Nat) : Prop where
  offset : 0 ≤ f.mOffset
  done : 0 ≤ f.mBytesDone
  cursors : f.mReadOff ≤ f.mNused
  count : (a : Int) = f.mBytesDone + ((f.mNused : Int) - f.mReadOff)

theorem range_of_guard (h : f.SendsRange) :
    f.range = if f.resumeLen ≥ 0 then some (.fromTo f.resumeOffset (f.resumeOffset + f.resumeLen - 1))
      else some (.fromOn f.resumeOffset) := if_pos h

theorem range_of_not_guard (h : ¬ f.SendsRange) : f.range = none := if_neg h

/-- The offset of a request is that of the next byte, as far as it is a 64-bit number. -/
theorem Took.resumeOffset {a : Nat} (h : f.Took a) : f.resumeOffset = toInt64 (f.mOffset + a) := by
  rw [HTTPFetcher.resumeOffset, h.count]
  congr 1
  ring

/-- The length of a request is that of what is missing. -/
theorem Took.resumeLen {a : Nat} (h : f.Took a) : f.resumeLen = toInt64 (f.mLen - a) := by
  rw [HTTPFetcher.resumeLen, h.count]
  congr 1
  ring

end HTTPFetcher

namespace Sample

/-- An outside in which every start goes well. -/
def willing : StartEnv Byte := ⟨true, true, signer, true, fun _ => ⟨206, [], .ok⟩⟩

/-- A new fetcher for bytes of an object. -/
def fetcher (offset len : Int) : HTTPFetcher Byte :=
  .make 0 (lit "https://b.pek3a.qingstor.com/k") (lit "b.pek3a.qingstor.com") (lit "b") ⟨lit "id", lit "secret"⟩ 4 offset len

theorem fetcher_made (offset len : Int) : (fetcher offset len).Made := ⟨_, _, _, _, _, _, _, _, rfl⟩

end Sample

end QingStor
