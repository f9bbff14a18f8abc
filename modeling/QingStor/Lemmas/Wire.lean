import QingStor.Wire
import QingStor.Lib.Query
import QingStor.Lemmas.Decimal
import QingStor.Lemmas.Requests

/-!
# What signing puts on the wire

The fields `Signature` adds, and what a server reads of them. Each request of `DoGetJSON` has headers of its own; a fetcher adds
those of a new attempt behind those it has.
-/

namespace QingStor

/-! ## The fields of a line -/

theorem drop_headerLine (field : HeaderField) (value : Str) :
    (getFieldString field ++ lit ": " ++ value).drop ((getFieldString field).length + 2) = value := by
  have hlen : (getFieldString field).length + 2 = (getFieldString field ++ lit ": ").length := by
    rw [List.length_append]
    rfl
  rw [hlen, List.drop_left]

/-- The value of the first entry of a field; it is empty when there is none. -/
def fieldValue (field : HeaderField) (h : HeaderContent) : Str := ((h.filter (fun p => p.1 = field)).head?.map (·.2)).getD []

/-- A server reads the entry from its line. -/
theorem lineValue_getList (field : HeaderField) (h : HeaderContent) :
    lineValue field (headerContentGetList h) = fieldValue field h := by
  unfold lineValue fieldValue
  rw [entriesOf_getList]
  unfold headerContentGetList
  cases hfilter : h.filter (fun p => p.1 = field) with
  | nil => rfl
  | cons p rest =>
    have hp : p.1 = field := by
      have hmem : p ∈ h.filter (fun p => p.1 = field) := by
        rw [hfilter]
        exact List.mem_cons_self ..
      exact of_decide_eq_true (List.mem_filter.1 hmem).2
    show (getFieldString p.1 ++ lit ": " ++ p.2).drop ((getFieldString field).length + 2) = p.2
    rw [hp, drop_headerLine]

theorem fieldValue_append_of_nil {field : HeaderField} {h : HeaderContent} (hnone : h.filter (fun p => p.1 = field) = [])
    (own : HeaderContent) : fieldValue field (h ++ own) = fieldValue field own := by
  rw [fieldValue, List.filter_append, hnone, List.nil_append]
  rfl

theorem fieldValue_append_of_ne {field : HeaderField} {h : HeaderContent} (hsome : h.filter (fun p => p.1 = field) ≠ [])
    (own : HeaderContent) : fieldValue field (h ++ own) = fieldValue field h := by
  obtain ⟨p, rest, hp⟩ := List.exists_cons_of_ne_nil hsome
  rw [fieldValue, fieldValue, List.filter_append, hp]
  rfl

/-! ## What `Signature` adds -/

/-- The content type a request is signed for. -/
def QSRequestType.contentType (qsrt : QSRequestType) : Str := (qsrt.signedHead.map (·.2)).getD []

/-- The text `Signature` signs. -/
def QSRequestType.signedText (qsrt : QSRequestType) (timebuf resource : Str) : Str :=
  qsrt.easyOptions.method ++ lit "\n\n" ++ qsrt.contentType ++ lit "\n" ++ timebuf ++ lit "\n" ++ resource

/-- What `Signature` adds: a length it may declare, and the date, the type and the authorization of the request. -/
theorem signature_own {S : Signer} {own : HeaderContent} {resource : Str} {cred : QSCredential} {qsrt : QSRequestType}
    {md : Option MemoryData} (hs : signature S [] resource cred qsrt md = .ok own) :
    ∃ length, (∀ c ∈ length, isNum c = true) ∧
      own = headerContentAdd [] .contentLength length ++ headerContentAdd [] .date S.timebuf ++
        headerContentAdd [] .contentType qsrt.contentType ++
        headerContentAdd [] .authorization (expectedAuthorization S.sha256hmac cred (qsrt.signedText S.timebuf resource)) := by
  have hauthorization : ∀ (h : HeaderContent) (text : Str),
      (if cred.keyid ≠ [] ∧ cred.secret ≠ [] then
        (.ok (headerContentAdd h .authorization (lit "QS-HMAC-SHA256 " ++ cred.keyid ++ lit ":" ++ S.sha256hmac text cred.secret)) :
          Except Fault HeaderContent)
      else .ok h) = .ok (h ++ headerContentAdd [] .authorization (expectedAuthorization S.sha256hmac cred text)) := by
    intro h text
    unfold expectedAuthorization
    split
    · rw [← headerContentAdd_append, List.append_nil]
    · exact congrArg Except.ok (List.append_nil h).symm
  have hadd : ∀ (h : HeaderContent) (f : HeaderField) (v : Str), headerContentAdd h f v = h ++ headerContentAdd [] f v := by
    intro h f v
    rw [← headerContentAdd_append, List.append_nil]
  cases qsrt with
  | none => cases hs
  | uploadMp | compMpUpload =>
    cases md with
    | none => cases hs
    | some md =>
      refine ⟨decimal md.sizeleft, decimal_isNum md.sizeleft, ?_⟩
      simp only [signature, QSRequestType.signedHead, hauthorization] at hs
      rw [← Except.ok.inj hs, hadd (headerContentAdd _ _ _) .contentType, hadd (headerContentAdd _ _ _) .date]
      rfl
  | createBucket | deleteBucket =>
    refine ⟨[], by simp, ?_⟩
    simp only [signature, QSRequestType.signedHead, hauthorization] at hs
    rw [← Except.ok.inj hs, hadd (headerContentAdd _ _ _) .contentType]
    rfl
  | _ =>
    have hnum : (lit "0").all isNum = true := by decide
    refine ⟨lit "0", List.all_eq_true.1 hnum, ?_⟩
    simp only [signature, QSRequestType.signedHead, hauthorization] at hs
    rw [← Except.ok.inj hs, hadd (headerContentAdd _ _ _) .contentType, hadd (headerContentAdd _ _ _) .date]
    rfl

/-- What a server reads of the headers of a signed request. -/
structure Signed (S : Signer) (resource : Str) (cred : QSCredential) (qsrt : QSRequestType) (h : HeaderContent) : Prop where
  date : fieldValue .date h = S.timebuf
  contentType : fieldValue .contentType h = qsrt.contentType
  contentMd5 : fieldValue .contentMd5 h = []
  authorization : fieldValue .authorization h = expectedAuthorization S.sha256hmac cred (qsrt.signedText S.timebuf resource)

theorem fieldValue_of_filter {h : HeaderContent} {field : HeaderField} {v : Str}
    (hfilter : h.filter (fun p => p.1 = field) = headerContentAdd [] field v) : fieldValue field h = v := by
  rw [fieldValue, hfilter, headerContentAdd]
  split
  · rename_i hv
    exact hv.symm
  · rfl

theorem filter_add_nil (field other : HeaderField) (v : Str) :
    (headerContentAdd [] other v).filter (fun p => p.1 = field) = if other = field then headerContentAdd [] other v else [] := by
  by_cases hne : other = field
  · rw [if_pos hne, hne, filter_add, List.filter_nil]
  · rw [if_neg hne, filter_add_of_ne _ hne, List.filter_nil]

/-- The headers `Signature` adds, behind headers without any of its fields. -/
theorem signature_signed {S : Signer} {h h' : HeaderContent} {resource : Str} {cred : QSCredential} {qsrt : QSRequestType}
    {md : Option MemoryData} (hs : signature S h resource cred qsrt md = .ok h')
    (hnone : ∀ p ∈ h, p.1 = .host ∨ p.1 = .location ∨ p.1 = .range) : Signed S resource cred qsrt h' := by
  have happend := signature_append S h [] resource cred qsrt md
  rw [List.append_nil, hs] at happend
  cases hnew : signature S [] resource cred qsrt md with
  | error f =>
    rw [hnew] at happend
    cases happend
  | ok own =>
    rw [hnew] at happend
    obtain rfl := Except.ok.inj happend
    obtain ⟨length, _, rfl⟩ := signature_own hnew
    have hbefore : ∀ field : HeaderField, field ≠ .host → field ≠ .location → field ≠ .range →
        h.filter (fun p => p.1 = field) = [] := by
      intro field h1 h2 h3
      refine List.filter_eq_nil_iff.2 (fun p hp hfield => ?_)
      have hsame : p.1 = field := of_decide_eq_true hfield
      rcases hnone p hp with hp | hp | hp
      · exact h1 (hsame.symm.trans hp)
      · exact h2 (hsame.symm.trans hp)
      · exact h3 (hsame.symm.trans hp)
    refine ⟨fieldValue_of_filter ?_, fieldValue_of_filter ?_, fieldValue_of_filter ?_, fieldValue_of_filter ?_⟩
    all_goals rw [List.filter_append, hbefore _ (by decide) (by decide) (by decide), List.nil_append]
    all_goals simp only [List.filter_append, filter_add_nil, reduceCtorEq, if_true, if_false, List.nil_append, List.append_nil]
    rfl

/-! ## A server checks what was signed -/

/-- A method has no line feed in it. -/
theorem method_clean (qsrt : QSRequestType) : '\n'.toUInt8 ∉ qsrt.easyOptions.method := by
  cases qsrt <;> decide

theorem contentType_clean (qsrt : QSRequestType) : '\n'.toUInt8 ∉ qsrt.contentType := by
  cases qsrt <;> decide

/-- The text a server computes of what it reads is the text that was signed. -/
theorem Signed.text {S : Signer} {resource : Str} {cred : QSCredential} {qsrt : QSRequestType} {h : HeaderContent}
    (hs : Signed S resource cred qsrt h) :
    receivedText qsrt.easyOptions.method (headerContentGetList h) resource = qsrt.signedText S.timebuf resource := by
  unfold receivedText QSRequestType.signedText
  rw [lineValue_getList, lineValue_getList, lineValue_getList, hs.date, hs.contentType, hs.contentMd5,
    show lit "\n\n" = lit "\n" ++ [] ++ lit "\n" from rfl]
  simp only [List.append_assoc]

/-- A text that was signed says what it was signed for. -/
theorem signedText_inj {q q' : QSRequestType} {t t' r r' : Str} (ht : '\n'.toUInt8 ∉ t) (ht' : '\n'.toUInt8 ∉ t')
    (h : q.signedText t r = q'.signedText t' r') :
    q.easyOptions.method = q'.easyOptions.method ∧ q.contentType = q'.contentType ∧ t = t' ∧ r = r' := by
  have hsplit : ∀ (q : QSRequestType) (t r : Str), q.signedText t r =
      q.easyOptions.method ++ '\n'.toUInt8 :: '\n'.toUInt8 :: (q.contentType ++ '\n'.toUInt8 :: (t ++ '\n'.toUInt8 :: r)) := by
    intro q t r
    rw [QSRequestType.signedText, show lit "\n\n" = ['\n'.toUInt8, '\n'.toUInt8] from rfl, show lit "\n" = ['\n'.toUInt8] from rfl]
    simp
  rw [hsplit, hsplit] at h
  obtain ⟨hmethod, h⟩ := Lib.append_cons_inj (method_clean q) (method_clean q') h
  obtain ⟨htype, h⟩ := Lib.append_cons_inj (contentType_clean q) (contentType_clean q') (List.cons.inj h).2
  obtain ⟨hdate, hresource⟩ := Lib.append_cons_inj ht ht' h
  exact ⟨hmethod, htype, hdate, hresource⟩

/-! ## The headers of a fetcher -/

namespace HTTPFetcher

variable {β : Type*} {f : HTTPFetcher β}

theorem unsigned_of_buffer (hsome : f.mReadBuff.isSome = true) {env : StartEnv β} {m : Multi β}
    (h : (f.start env m).result ≠ .ok ()) :
    (f.start env m).fetcher.mHeaders = f.mHeaders ∨ (f.start env m).fetcher.mHeaders = f.mHeaders ++ f.ownHeader := by
  have hnone : f.mReadBuff.isNone = false := by
    rw [← Option.not_isSome, hsome]
    rfl
  unfold start at h ⊢
  simp only [hnone, Bool.false_eq_true, if_false, false_and] at h ⊢
  split
  · exact Or.inl rfl
  · rename_i hstate
    rw [if_neg hstate] at h
    split
    · exact Or.inl rfl
    · rename_i hinit
      rw [if_neg hinit] at h
      have hrange : ({ f with mCurl := .easy m.fresh, mParent := true, mHeaders := headerContentAdd f.mHeaders .host f.mHost } :
          HTTPFetcher β).range = f.range := rfl
      rw [hrange] at h ⊢
      cases hr : f.range with
      | none | some r =>
        rw [hr] at h
        dsimp only at h ⊢
        first
          | rw [add_own_of_none hr] at h ⊢
          | rw [add_own_of_some hr] at h ⊢
        cases hurl : qsParseUrl f.mUrl with
        | error e => exact Or.inr rfl
        | ok split =>
          rw [hurl] at h
          dsimp only at h ⊢
          split
          · exact Or.inr rfl
          · rename_i hsigns
            rw [if_neg hsigns, signature_own] at h
            exact absurd rfl h

/-- A start that throws leaves the headers without a signature of its own. -/
theorem start_unsigned {env : StartEnv β} {m : Multi β} (h : (f.start env m).result ≠ .ok ()) :
    (f.start env m).fetcher.mHeaders = f.mHeaders ∨ (f.start env m).fetcher.mHeaders = f.mHeaders ++ f.ownHeader := by
  by_cases hok : f.mReadBuff.isSome = true ∨ env.malloc = true
  · rw [start_primed f hok] at h ⊢
    have hsome := primed_isSome hok
    obtain ⟨size, buff, hsame⟩ := f.primed_same env
    rw [hsame] at h hsome ⊢
    exact unsigned_of_buffer hsome h
  · obtain ⟨size, buff, hsame⟩ := f.primed_same env
    rcases f.start_cases env m with ⟨e, he⟩ | ⟨hor, _⟩
    · rw [he, hsame]
      exact Or.inl rfl
    · exact (hok hor).elim

/-- What a server reads of the headers of a fetcher: nothing that is signed, or the fields of its first signature. -/
inductive Verifies (hmac : Str → Str → Str) (f : HTTPFetcher β) : Prop
  | unsigned (h : ∀ p ∈ f.mHeaders, p.1 = .host ∨ p.1 = .location ∨ p.1 = .range)
  | signed (S : Signer) (split : Str × Option Str) (hhmac : S.sha256hmac = hmac) (hurl : qsParseUrl f.mUrl = .ok split)
      (hkeys : f.mCred.keyid ≠ [] ∧ f.mCred.secret ≠ [] → f.mHeaders.filter (fun p => p.1 = .authorization) ≠ [])
      (hdate : f.mHeaders.filter (fun p => p.1 = .date) ≠ [])
      (h : Signed S (signedResource f.mBucket split.1 split.2) f.mCred .getData f.mHeaders)

theorem ownHeader_fields (f : HTTPFetcher β) : ∀ p ∈ f.ownHeader, p.1 = .host ∨ p.1 = .location ∨ p.1 = .range := by
  intro p hp
  have hmem : p ∈ f.ownHeader.filter (fun q => q.1 = p.1) := List.mem_filter.2 ⟨hp, decide_eq_true rfl⟩
  rw [filter_ownHeader] at hmem
  cases hfield : p.1 with
  | host => exact Or.inl rfl
  | range => exact Or.inr (Or.inr rfl)
  | _ =>
    rw [hfield] at hmem
    cases hmem

/-- The first entry of a field decides. -/
theorem fieldValue_append_same {field : HeaderField} {h own : HeaderContent} {v : Str} (hh : fieldValue field h = v)
    (hown : h.filter (fun p => p.1 = field) = [] → fieldValue field own = v) : fieldValue field (h ++ own) = v := by
  by_cases hnil : h.filter (fun p => p.1 = field) = []
  · rw [fieldValue_append_of_nil hnil, hown hnil]
  · rw [fieldValue_append_of_ne hnil, hh]

theorem Verifies.moved {hmac : Str → Str → Str} {f g : HTTPFetcher β} (h : f.Verifies hmac) (hheaders : g.mHeaders = f.mHeaders)
    (hurl : g.mUrl = f.mUrl) (hcred : g.mCred = f.mCred) (hbucket : g.mBucket = f.mBucket) : g.Verifies hmac := by
  cases h with
  | unsigned h =>
    rw [← hheaders] at h
    exact .unsigned h
  | signed S split hhmac hsplit hkeys hdate h =>
    rw [← hurl] at hsplit
    rw [← hheaders] at hkeys hdate h
    rw [← hcred] at hkeys h
    rw [← hbucket] at h
    exact .signed S split hhmac hsplit hkeys hdate h

/-- The first signature of a fetcher stays the first. -/
theorem Verifies.sign {hmac : Str → Str → Str} {f g : HTTPFetcher β} (h : f.Verifies hmac) {S : Signer} {split : Str × Option Str}
    (hhmac : S.sha256hmac = hmac) (hdate : S.timebuf ≠ []) (hurl : qsParseUrl f.mUrl = .ok split)
    (hheaders : g.mHeaders = f.mHeaders ++ f.ownHeaders S split) (htask : f.SameTask g) :
    ∃ S', S'.sha256hmac = hmac ∧ g.Verifies hmac ∧
      Signed S' (signedResource f.mBucket split.1 split.2) f.mCred .getData g.mHeaders := by
  have hauthorization : f.mCred.keyid ≠ [] ∧ f.mCred.secret ≠ [] →
      (f.ownHeaders S split).filter (fun p => p.1 = .authorization) ≠ [] := by
    intro hkeys
    rw [filter_ownHeaders]
    simp [hkeys.1, hkeys.2]
  have hdated : (f.ownHeaders S split).filter (fun p => p.1 = .date) ≠ [] := by
    rw [filter_ownHeaders]
    show headerContentAdd [] .date S.timebuf ≠ []
    rw [headerContentAdd, if_neg hdate]
    simp
  have hsigns := signature_own f S f.mHeaders split
  have hurl' : qsParseUrl g.mUrl = .ok split := by
    rw [htask.mUrl, hurl]
  cases h with
  | unsigned h =>
    have hsigned := signature_signed hsigns (fun p hp => by
      rcases List.mem_append.1 hp with hp | hp
      · exact h p hp
      · exact f.ownHeader_fields p hp)
    rw [← hheaders] at hsigned
    refine ⟨S, hhmac, .signed S split hhmac hurl' (fun hkeys => ?_) ?_ ?_, hsigned⟩
    · rw [htask.mCred] at hkeys
      rw [hheaders, List.filter_append]
      exact List.append_ne_nil_of_right_ne_nil _ (hauthorization hkeys)
    · rw [hheaders, List.filter_append]
      exact List.append_ne_nil_of_right_ne_nil _ hdated
    · rw [htask.mBucket, htask.mCred]
      exact hsigned
  | signed S' split' hhmac' hsplit' hkeys' hdate' h =>
    obtain rfl : split' = split := Except.ok.inj (hsplit'.symm.trans hurl)
    have hsigned : Signed S' (signedResource f.mBucket split'.1 split'.2) f.mCred .getData g.mHeaders := by
      rw [hheaders]
      refine ⟨?_, fieldValue_append_same h.contentType (fun _ => ?_), fieldValue_append_same h.contentMd5 (fun _ => ?_),
        fieldValue_append_same h.authorization (fun hnil => ?_)⟩
      · rw [fieldValue_append_of_ne hdate', h.date]
      · rw [fieldValue, filter_ownHeaders]
        rfl
      · rw [fieldValue, filter_ownHeaders]
        rfl
      · have hno : ¬ (f.mCred.keyid ≠ [] ∧ f.mCred.secret ≠ []) := fun hkeys => hkeys' hkeys hnil
        rw [fieldValue, filter_ownHeaders, expectedAuthorization, if_neg hno]
        dsimp only
        rw [if_neg hno]
        rfl
    refine ⟨S', hhmac', .signed S' split' hhmac' hurl' (fun hkeys => ?_) ?_ ?_, hsigned⟩
    · rw [htask.mCred] at hkeys
      rw [hheaders, List.filter_append]
      exact List.append_ne_nil_of_left_ne_nil (hkeys' hkeys) _
    · rw [hheaders, List.filter_append]
      exact List.append_ne_nil_of_left_ne_nil hdate' _
    · rw [htask.mBucket, htask.mCred]
      exact hsigned

/-- A start keeps it, whether it throws or not. -/
theorem Verifies.start {hmac : Str → Str → Str} {f : HTTPFetcher β} (h : f.Verifies hmac) {env : StartEnv β} (m : Multi β)
    (hroomy : f.Roomy) (hhmac : env.signer.sha256hmac = hmac) (hdate : env.signer.timebuf ≠ []) :
    (f.start env m).fetcher.Verifies hmac := by
  have htask := (hroomy.start env m).2.1
  by_cases hok : (f.start env m).result = .ok ()
  · obtain ⟨split, hurl, hheaders, _⟩ := (f.headed env m).sent hok
    obtain ⟨_, _, hkept, _⟩ := h.sign hhmac hdate hurl hheaders htask
    exact hkept
  · rcases start_unsigned hok with hsame | hown
    · exact h.moved hsame htask.mUrl htask.mCred htask.mBucket
    · cases h with
      | unsigned h =>
        refine .unsigned (fun p hp => ?_)
        rw [hown] at hp
        rcases List.mem_append.1 hp with hp | hp
        · exact h p hp
        · exact f.ownHeader_fields p hp
      | signed S split hhmac' hsplit hkeys hdate' h =>
        have hnone : ∀ field : HeaderField, field ≠ .host → field ≠ .range → f.ownHeader.filter (fun p => p.1 = field) = [] := by
          intro field h1 h2
          rw [filter_ownHeader]
          cases field <;> first | rfl | exact absurd rfl h1 | exact absurd rfl h2
        have hsame : ∀ field : HeaderField, field ≠ .host → field ≠ .range →
            (f.start env m).fetcher.mHeaders.filter (fun p => p.1 = field) = f.mHeaders.filter (fun p => p.1 = field) := by
          intro field h1 h2
          rw [hown, List.filter_append, hnone field h1 h2, List.append_nil]
        refine .signed S split hhmac' (htask.mUrl ▸ hsplit) (fun hk => ?_) ?_ ?_
        · rw [htask.mCred] at hk
          rw [hsame _ (by decide) (by decide)]
          exact hkeys hk
        · rw [hsame _ (by decide) (by decide)]
          exact hdate'
        · rw [htask.mCred, htask.mBucket]
          refine ⟨?_, ?_, ?_, ?_⟩
          all_goals rw [fieldValue, hsame _ (by decide) (by decide)]
          · exact h.date
          · exact h.contentType
          · exact h.contentMd5
          · exact h.authorization

/-- The headers of a fetcher that was signed, by the date and the authorization a server reads of them. -/
structure Dated (date authorization : Str) (f : HTTPFetcher β) : Prop where
  date : fieldValue .date f.mHeaders = date
  hasDate : f.mHeaders.filter (fun p => p.1 = .date) ≠ []
  authorization : fieldValue .authorization f.mHeaders = authorization
  hasAuthorization : f.mCred.keyid ≠ [] ∧ f.mCred.secret ≠ [] → f.mHeaders.filter (fun p => p.1 = .authorization) ≠ []

/-- A start that was signed leaves a date, and an authorization where there are keys. -/
theorem dated_of_sent {f : HTTPFetcher β} {env : StartEnv β} {m : Multi β} (hroomy : f.Roomy) (hdate : env.signer.timebuf ≠ [])
    (hok : (f.start env m).result = .ok ()) :
    (f.start env m).fetcher.Dated (fieldValue .date (f.start env m).fetcher.mHeaders)
      (fieldValue .authorization (f.start env m).fetcher.mHeaders) := by
  obtain ⟨split, -, hheaders, -⟩ := (f.headed env m).sent hok
  refine ⟨rfl, ?_, rfl, fun hkeys => ?_⟩
  · rw [hheaders, List.filter_append, filter_ownHeaders]
    refine List.append_ne_nil_of_right_ne_nil _ ?_
    show headerContentAdd [] .date env.signer.timebuf ≠ []
    rw [headerContentAdd, if_neg hdate]
    exact List.cons_ne_nil _ _
  · rw [(hroomy.start env m).2.1.mCred] at hkeys
    rw [hheaders, List.filter_append, filter_ownHeaders]
    refine List.append_ne_nil_of_right_ne_nil _ ?_
    dsimp only
    rw [if_pos hkeys]
    exact List.cons_ne_nil _ _

/-- Entries behind those of a signed fetcher do not change what a server reads first. -/
theorem Dated.append {date authorization : Str} {f g : HTTPFetcher β} (h : f.Dated date authorization) {own : HeaderContent}
    (hheaders : g.mHeaders = f.mHeaders ++ own) (hcred : g.mCred = f.mCred)
    (hown : ¬ (f.mCred.keyid ≠ [] ∧ f.mCred.secret ≠ []) → own.filter (fun p => p.1 = .authorization) = []) :
    g.Dated date authorization := by
  refine ⟨?_, ?_, ?_, fun hkeys => ?_⟩
  · rw [hheaders, fieldValue_append_of_ne h.hasDate, h.date]
  · rw [hheaders, List.filter_append]
    exact List.append_ne_nil_of_left_ne_nil h.hasDate _
  · rw [hheaders]
    refine fieldValue_append_same h.authorization (fun hnil => ?_)
    have hnone := hown (fun hkeys => h.hasAuthorization hkeys hnil)
    have hempty : fieldValue .authorization f.mHeaders = [] := by
      rw [fieldValue, hnil]
      rfl
    rw [fieldValue, hnone, ← h.authorization, hempty]
    rfl
  · rw [hcred] at hkeys
    rw [hheaders, List.filter_append]
    exact List.append_ne_nil_of_left_ne_nil (h.hasAuthorization hkeys) _

/-- A start keeps the date and the authorization that are read, whether it throws or not. -/
theorem Dated.start {date authorization : Str} {f : HTTPFetcher β} (h : f.Dated date authorization) (env : StartEnv β) (m : Multi β)
    (hroomy : f.Roomy) : (f.start env m).fetcher.Dated date authorization := by
  have hcred := (hroomy.start env m).2.1.mCred
  rcases (f.headed env m).grown with hsame | hown | ⟨split, hown⟩
  · have hheaders : (f.start env m).fetcher.mHeaders = f.mHeaders ++ [] := hsame.trans (List.append_nil _).symm
    exact h.append hheaders hcred (fun _ => rfl)
  · refine h.append hown hcred (fun _ => ?_)
    rw [filter_ownHeader]
  · refine h.append hown hcred (fun hkeys => ?_)
    rw [filter_ownHeaders]
    exact if_neg hkeys

end HTTPFetcher

namespace FetcherRun

variable {β : Type*}

/-- What moving bytes and the end of a transfer cannot change of a fetcher, and the starts of a run keep, the run keeps. -/
theorem Sound.starts_keep {P : HTTPFetcher β → Prop} {E : StartEnv β → Prop} (hmoved : ∀ f g, f.Moved g → P f → P g)
    (hended : ∀ (f : HTTPFetcher β) state curl parent lines failures, P f → P { f with
      mState := state, mCurl := curl, mParent := parent, mHttpHeaders := lines, mNFailures := failures })
    (hstart : ∀ (f : HTTPFetcher β) env m, E env → f.Roomy → P f → P (f.start env m).fetcher)
    {s : FetcherRun β} (hs : s.Sound) (h : P s.fetcher) {ops : List (FetcherOp β)}
    (hops : ∀ env m, FetcherOp.start env m ∈ ops → E env) : P (ops.foldl FetcherOp.run s).fetcher := by
  induction ops generalizing s with
  | nil => exact h
  | cons op ops ih =>
    refine ih (hs.run op).1 ?_ (fun env m hm => hops env m (List.mem_cons_of_mem _ hm))
    cases op with
    | start env m => exact hstart s.fetcher env m (hops env m (List.mem_cons_self ..)) hs.roomy h
    | write contents =>
      rw [FetcherOp.run_write]
      split
      · exact hmoved _ _ (s.fetcher.writerCallback_rebuffered contents).moved h
      · exact h
    | get n resumes m => exact hmoved _ _ (hs.roomy.gets n resumes m).moved h
    | handleResult res respcode m =>
      obtain ⟨state, curl, parent, lines, failures, hsame⟩ := s.fetcher.handleResult_same res respcode m
      rw [FetcherOp.run_handleResult, hsame]
      exact hended s.fetcher state curl parent lines failures h

/-- A run keeps what a server reads of the headers. -/
theorem Sound.verifies {hmac : Str → Str → Str} {s : FetcherRun β} (hs : s.Sound) (h : s.fetcher.Verifies hmac)
    {ops : List (FetcherOp β)}
    (hops : ∀ env m, FetcherOp.start env m ∈ ops → env.signer.sha256hmac = hmac ∧ env.signer.timebuf ≠ []) :
    (ops.foldl FetcherOp.run s).fetcher.Verifies hmac := by
  refine hs.starts_keep (P := fun f => f.Verifies hmac) ?_ ?_ ?_ h hops
  · rintro f g ⟨_, _, _, _, _, rfl⟩ hf
    exact hf.moved rfl rfl rfl rfl
  · intro f _ _ _ _ _ hf
    exact hf.moved rfl rfl rfl rfl
  · intro f env m henv hroomy hf
    exact hf.start m hroomy henv.1 henv.2

/-- A run keeps the date and the authorization a server reads of a signed fetcher. -/
theorem Sound.dated {date authorization : Str} {s : FetcherRun β} (hs : s.Sound) (h : s.fetcher.Dated date authorization)
    (ops : List (FetcherOp β)) : (ops.foldl FetcherOp.run s).fetcher.Dated date authorization := by
  refine hs.starts_keep (P := fun f => f.Dated date authorization) (E := fun _ => True) ?_ ?_ ?_ h (fun _ _ _ => trivial)
  · rintro f g ⟨_, _, _, _, _, rfl⟩ hf
    exact ⟨hf.date, hf.hasDate, hf.authorization, hf.hasAuthorization⟩
  · intro f _ _ _ _ _ hf
    exact ⟨hf.date, hf.hasDate, hf.authorization, hf.hasAuthorization⟩
  · intro f env m _ hroomy hf
    exact hf.start env m hroomy

end FetcherRun

end QingStor
