import QingStor.Theorems.Signed
import QingStor.Theorems.UrlPath

/-!
# Header lines

The texts a caller gives go into header lines as they are. A URL with a line break in it is refused, and with it a bucket or a
location that is part of the host; what is left are the location of a listing of buckets and the key id.
-/

namespace QingStor

/-- A text without a line break. -/
def OneLine (s : Str) : Prop := '\r'.toUInt8 ∉ s ∧ '\n'.toUInt8 ∉ s

instance (s : Str) : Decidable (OneLine s) := inferInstanceAs (Decidable (_ ∧ _))

namespace HeaderLinesAux

theorem oneLine_append {s t : Str} : OneLine (s ++ t) ↔ OneLine s ∧ OneLine t := by
  unfold OneLine
  simp only [List.mem_append, not_or]
  constructor
  · rintro ⟨⟨h1, h2⟩, h3, h4⟩
    exact ⟨⟨h1, h3⟩, h2, h4⟩
  · rintro ⟨⟨h1, h3⟩, h2, h4⟩
    exact ⟨⟨h1, h2⟩, h3, h4⟩

/-! ## URLs -/

/-- A URL that can be scanned is one line. -/
theorem oneLine_of_scan {url : Str} {z : UrlScan} (h : scanUrl url = some z) : OneLine url := by
  have hstep : ∀ (z z' : UrlScan) (c : Byte), urlStep z c = some z' → c ≠ '\r'.toUInt8 ∧ c ≠ '\n'.toUInt8 := by
    intro z z' c hz
    have hdead : parseUrlChar z.s c ≠ .dead := by
      intro hd
      rw [urlStep_dead hd] at hz
      cases hz
    constructor <;> rintro rfl <;> exact hdead (if_pos (by decide))
  have hall : ∀ (s : Str) (z z' : UrlScan), s.foldlM urlStep z = some z' → ∀ c ∈ s, c ≠ '\r'.toUInt8 ∧ c ≠ '\n'.toUInt8 := by
    intro s
    induction s with
    | nil => exact fun _ _ _ c hc => by cases hc
    | cons d s ih =>
      intro z z' hz c hc
      rw [List.foldlM_cons] at hz
      obtain ⟨z₁, h1, h2⟩ := Option.bind_eq_some_iff.1 hz
      rcases List.mem_cons.1 hc with rfl | hc
      · exact hstep z z₁ c h1
      · exact ih z₁ z' h2 c hc
  exact ⟨fun hm => (hall url .start z h _ hm).1 rfl, fun hm => (hall url .start z h _ hm).2 rfl⟩

theorem oneLine_of_split {url : Str} (h : (qsParseUrl url).isOk = true) : OneLine url := by
  obtain ⟨split, hsplit⟩ := isOk_iff.1 h
  unfold qsParseUrl at hsplit
  split at hsplit
  · cases hsplit
  · cases hu : httpParserParseUrl url with
    | none =>
      rw [hu] at hsplit
      cases hsplit
    | some u =>
      obtain ⟨z, hz, _⟩ := httpParserParseUrl_some hu
      exact oneLine_of_scan hz

/-! ## Header content -/

/-- The lines of a header content are single lines when its values are. -/
theorem oneLine_lines (h : HeaderContent) : (∀ line ∈ headerContentGetList h, OneLine line) ↔ ∀ p ∈ h, OneLine p.2 := by
  have hname : ∀ f : HeaderField, OneLine (getFieldString f ++ lit ": ") := by
    intro f
    cases f <;> decide
  unfold headerContentGetList
  rw [List.forall_mem_map]
  refine forall₂_congr (fun p _ => ?_)
  rw [oneLine_append]
  exact and_iff_right (hname p.1)

theorem forall_add {P : Str → Prop} (h : HeaderContent) (f : HeaderField) {v : Str} (hempty : P []) :
    (∀ p ∈ headerContentAdd h f v, P p.2) ↔ (∀ p ∈ h, P p.2) ∧ P v := by
  unfold headerContentAdd
  split
  · rename_i hv
    subst hv
    exact (and_iff_left hempty).symm
  · simp [or_imp, forall_and]

theorem oneLine_nil : OneLine [] := ⟨List.not_mem_nil, List.not_mem_nil⟩

theorem oneLine_of_num {s : Str} (h : ∀ c ∈ s, isNum c = true) : OneLine s :=
  ⟨fun hm => absurd (h _ hm) (by decide), fun hm => absurd (h _ hm) (by decide)⟩

theorem oneLine_decimal (n : Int) : OneLine (decimal n) := by
  cases n with
  | ofNat n => exact oneLine_of_num (decimal_isNum n)
  | negSucc m =>
    rw [decimal_negSucc, show '-'.toUInt8 :: decimal (m + 1 : Nat) = lit "-" ++ decimal (m + 1 : Nat) from rfl, oneLine_append]
    exact ⟨by decide, oneLine_of_num (decimal_isNum (m + 1))⟩

/-- The authorization is one line when the key id is, or when nothing is signed. -/
theorem oneLine_authorization {hmac : Str → Str → Str} {cred : QSCredential} {text : Str} (hdigest : OneLine (hmac text cred.secret)) :
    OneLine (expectedAuthorization hmac cred text) ↔ (cred.keyid ≠ [] ∧ cred.secret ≠ [] → OneLine cred.keyid) := by
  unfold expectedAuthorization
  split
  · rename_i hkeys
    rw [oneLine_append, oneLine_append, oneLine_append]
    constructor
    · intro h _
      exact h.1.1.2
    · intro h
      exact ⟨⟨⟨by decide, h hkeys⟩, by decide⟩, hdigest⟩
  · rename_i hkeys
    exact iff_of_true oneLine_nil (fun h => absurd h hkeys)

/-- The headers of a signed request are single lines when those before it and its key id are. -/
theorem oneLine_signature {S : Signer} {h h' : HeaderContent} {resource : Str} {cred : QSCredential} {qsrt : QSRequestType}
    {md : Option MemoryData} (hs : signature S h resource cred qsrt md = .ok h') (hdate : OneLine S.timebuf)
    (hdigest : ∀ text, OneLine (S.sha256hmac text cred.secret)) :
    (∀ p ∈ h', OneLine p.2) ↔ (∀ p ∈ h, OneLine p.2) ∧ (cred.keyid ≠ [] ∧ cred.secret ≠ [] → OneLine cred.keyid) := by
  have happend := signature_append S h [] resource cred qsrt md
  rw [List.append_nil, hs] at happend
  cases hnew : signature S [] resource cred qsrt md with
  | error f =>
    rw [hnew] at happend
    cases happend
  | ok own =>
    rw [hnew] at happend
    obtain rfl := Except.ok.inj happend
    obtain ⟨length, hlength, rfl⟩ := signature_own hnew
    have htype : OneLine qsrt.contentType := by
      cases qsrt <;> decide
    have hmem : ∀ (h h' : HeaderContent), (∀ p ∈ h ++ h', OneLine p.2) ↔ (∀ p ∈ h, OneLine p.2) ∧ ∀ p ∈ h', OneLine p.2 := by
      intro h h'
      exact List.forall_mem_append
    rw [hmem, hmem, hmem, hmem, forall_add [] _ oneLine_nil, forall_add [] _ oneLine_nil, forall_add [] _ oneLine_nil,
      forall_add [] _ oneLine_nil, oneLine_authorization (hdigest _)]
    simp [oneLine_of_num hlength, hdate, htype]

/-! ## The headers of a fetcher -/

variable {β : Type*}

/-- The texts `start` has from outside are single lines. -/
def Tidy (env : StartEnv β) : Prop := OneLine env.signer.timebuf ∧ ∀ text key, OneLine (env.signer.sha256hmac text key)

theorem oneLine_range (r : RangeHeader) : OneLine r.text := by
  cases r with
  | fromTo first last =>
    rw [RangeHeader.text, oneLine_append, oneLine_append, oneLine_append]
    exact ⟨⟨⟨by decide, oneLine_decimal first⟩, by decide⟩, oneLine_decimal last⟩
  | fromOn first =>
    rw [RangeHeader.text, oneLine_append, oneLine_append]
    exact ⟨⟨by decide, oneLine_decimal first⟩, by decide⟩

theorem oneLine_ownHeader (f : HTTPFetcher β) (hhost : OneLine f.mHost) : ∀ p ∈ f.ownHeader, OneLine p.2 := by
  unfold HTTPFetcher.ownHeader
  cases f.range with
  | none =>
    dsimp only
    rw [forall_add [] _ oneLine_nil]
    exact ⟨by simp, hhost⟩
  | some r =>
    dsimp only
    rw [forall_add _ _ oneLine_nil, forall_add [] _ oneLine_nil]
    exact ⟨⟨by simp, hhost⟩, oneLine_range r⟩

/-- The headers a start adds are single lines when the host and the key id are. -/
theorem oneLine_ownHeaders (f : HTTPFetcher β) {env : StartEnv β} (henv : Tidy env) (split : Str × Option Str)
    (hhost : OneLine f.mHost) :
    (∀ p ∈ f.ownHeaders env.signer split, OneLine p.2) ↔
      (f.mCred.keyid ≠ [] ∧ f.mCred.secret ≠ [] → OneLine f.mCred.keyid) := by
  have hsigns := HTTPFetcher.signature_own f env.signer [] split
  rw [List.nil_append, List.nil_append] at hsigns
  rw [oneLine_signature hsigns henv.1 (fun text => henv.2 text _)]
  exact and_iff_right (oneLine_ownHeader f hhost)

/-- A run keeps the headers single lines, when the host and the key id are. -/
theorem oneLine_runs {s : FetcherRun β} (hs : s.Sound) (h : ∀ p ∈ s.fetcher.mHeaders, OneLine p.2) {ops : List (FetcherOp β)}
    (hops : ∀ env m, FetcherOp.start env m ∈ ops → Tidy env) (hhost : OneLine s.fetcher.mHost)
    (hkeyid : s.fetcher.mCred.keyid ≠ [] ∧ s.fetcher.mCred.secret ≠ [] → OneLine s.fetcher.mCred.keyid) :
    ∀ p ∈ (ops.foldl FetcherOp.run s).fetcher.mHeaders, OneLine p.2 := by
  have hkept := hs.starts_keep (E := Tidy)
    (P := fun f => (f.mHost = s.fetcher.mHost ∧ f.mCred = s.fetcher.mCred) ∧ ∀ p ∈ f.mHeaders, OneLine p.2) ?_ ?_ ?_
    ⟨⟨rfl, rfl⟩, h⟩ hops
  · exact hkept.2
  · rintro f g ⟨_, _, _, _, _, rfl⟩ hf
    exact hf
  · intro f _ _ _ _ _ hf
    exact hf
  · rintro f env m henv hroomy ⟨⟨hsame, hcred⟩, hf⟩
    have htask := (hroomy.start env m).2.1
    refine ⟨⟨htask.mHost.trans hsame, htask.mCred.trans hcred⟩, fun p hp => ?_⟩
    rw [← hsame] at hhost
    rw [← hcred] at hkeyid
    rcases (f.headed env m).grown with hgrown | hgrown | ⟨split, hgrown⟩
    · rw [hgrown] at hp
      exact hf p hp
    · rw [hgrown] at hp
      rcases List.mem_append.1 hp with hp | hp
      · exact hf p hp
      · exact oneLine_ownHeader f hhost p hp
    · rw [hgrown] at hp
      rcases List.mem_append.1 hp with hp | hp
      · exact hf p hp
      · exact (oneLine_ownHeaders f henv split hhost).2 hkeyid p hp

end HeaderLinesAux

open HeaderLinesAux SignedAux

/-- A request of the API is sent with single lines for headers exactly when the location it names, if it names one, is one line,
and the key id it is signed with is. -/
theorem request_lines {ctx : Context} (hctx : ctx.Made) (r : UrlRequest) (J : JsonC) (md : Option MemoryData) (retries : Int)
    (xs : Nat → Exchange) (hdate : ∀ i, OneLine (xs i).signer.timebuf)
    (hdigest : ∀ i text key, OneLine ((xs i).signer.sha256hmac text key)) :
    ∀ q ∈ (doGetJSON J (r.args ctx) md retries xs).state.sent, (∀ line ∈ q.lines, OneLine line) ↔
      OneLine ((r.args ctx).location.getD []) ∧
        ((r.args ctx).cred.keyid ≠ [] ∧ (r.args ctx).cred.secret ≠ [] → OneLine (r.args ctx).cred.keyid) := by
  intro q hq
  obtain ⟨_, _, i, path, query, _, hsplit, hsig⟩ := sent_signed J (r.args ctx) md retries xs q hq
  obtain ⟨t, hurl⟩ := UrlPathAux.args_url hctx r
  have hhost : OneLine (r.args ctx).host := by
    have hline := oneLine_of_split (isOk_iff.2 ⟨_, hsplit⟩)
    rw [hurl, oneLine_append, oneLine_append] at hline
    exact hline.2.1
  unfold Request.lines
  rw [oneLine_lines, oneLine_signature hsig (hdate i) (hdigest i · _)]
  refine and_congr_left' ?_
  unfold RequestArgs.header
  cases (r.args ctx).location with
  | none =>
    dsimp only
    rw [forall_add [] _ oneLine_nil]
    simp [hhost, oneLine_nil]
  | some location =>
    dsimp only
    rw [forall_add _ _ oneLine_nil, forall_add [] _ oneLine_nil]
    simp [hhost]

namespace Sample

/-- A context as `qingstorInitContext` makes it. -/
def madeContext : Context := ⟨.ofArguments (lit "pek3a") (lit "id") (lit "secret") 4⟩

theorem madeContext_made : madeContext.Made := Or.inl ⟨some (lit "pek3a"), some (lit "id"), some (lit "secret"), 4, none, rfl⟩

/-- A location with a header of its own behind a line break. -/
def brokenLocation : Str := lit "pek3a\r\nX-Other: 1"

end Sample

/-- The header behind the line break is sent. -/
theorem request_lines_broken :
    ∃ q ∈ (doGetJSON Sample.json (UrlRequest.args Sample.madeContext (.listBuckets Sample.brokenLocation)) none 1
      (fun _ => Sample.broken [])).state.sent, ¬ ∀ line ∈ q.lines, OneLine line := by
  have hlines := request_lines Sample.madeContext_made (.listBuckets Sample.brokenLocation) Sample.json none 1
    (fun _ => Sample.broken []) (fun _ => by decide) (fun _ _ _ => (by decide : OneLine (lit "c2lnbmF0dXJl")))
  have hsent : (doGetJSON Sample.json (UrlRequest.args Sample.madeContext (.listBuckets Sample.brokenLocation)) none 1
      (fun _ => Sample.broken [])).state.sent.length = 1 := by
    decide +kernel
  obtain ⟨q, hq⟩ := List.exists_mem_of_length_pos (hsent ▸ (by decide : 0 < 1))
  refine ⟨q, hq, fun h => ?_⟩
  have hlocation : OneLine Sample.brokenLocation := ((hlines q hq).1 h).1
  exact absurd hlocation (by decide)

variable {β : Type*}

/-- The requests of a fetcher whose host is part of its URL, as a reader makes it, are sent with single lines for headers exactly when
the key id they are signed with is one line, at the first start and at every restart. -/
theorem fetcher_lines (f : HTTPFetcher β) (hmade : f.Made) (hhost : f.mHost <:+: f.mUrl) (ops : List (FetcherOp β))
    (hops : ∀ env m, FetcherOp.start env m ∈ ops → Tidy env) (env : StartEnv β) (henv : Tidy env) (m : Multi β) (lines : List Str)
    (hok : ((f.after ops).fetcher.start env m).result = .ok ())
    (hlines : ((f.after ops).fetcher.start env m).fetcher.mHttpHeaders = some lines) :
    (∀ line ∈ lines, OneLine line) ↔ (f.mCred.keyid ≠ [] ∧ f.mCred.secret ≠ [] → OneLine f.mCred.keyid) := by
  obtain ⟨this, url, host, bucket, cred, buffsize, offset, len, rfl⟩ := hmade
  have hsound := FetcherRun.sound_make (β := β) this url host bucket cred buffsize offset len
  have hrun := hsound.runs ops
  have hkept := oneLine_runs hsound (fun p hp => by cases hp) hops
  unfold HTTPFetcher.after at hok hlines
  generalize hs : (ops.foldl FetcherOp.run _ : FetcherRun β) = s at hok hlines hrun hkept
  obtain ⟨split, hurl, _, hsent⟩ := (s.fetcher.headed env m).sent hok
  obtain rfl := Option.some.inj (hlines.symm.trans hsent)
  have hmUrl : s.fetcher.mUrl = url := hrun.2.mUrl
  have hmHost : s.fetcher.mHost = host := hrun.2.mHost
  have hmCred : s.fetcher.mCred = cred := hrun.2.mCred
  have hone : OneLine host := by
    obtain ⟨before, behind, hsplit⟩ : host <:+: url := hhost
    have hline := oneLine_of_split (isOk_iff.2 ⟨_, hurl⟩)
    rw [hmUrl, ← hsplit, oneLine_append, oneLine_append] at hline
    exact hline.1.2
  have hown := oneLine_ownHeaders s.fetcher henv split (hmHost ▸ hone)
  rw [hmCred] at hown
  rw [oneLine_lines, List.forall_mem_append, hown]
  exact and_iff_right_of_imp (fun hkeyid => hkept hone hkeyid)

namespace Sample

theorem willing_tidy : Tidy willing := ⟨by decide, fun _ _ => (by decide : OneLine (lit "c2lnbmF0dXJl"))⟩

end Sample

theorem fetcher_lines_restart :
    ∃ lines, (((Sample.fetcher 0 4).after [.start Sample.willing .empty, .handleResult (.failure .operationTimedout) 0 .empty]).fetcher.start
        Sample.willing .empty).fetcher.mHttpHeaders = some lines ∧ ∀ line ∈ lines, OneLine line := by
  have hops : ∀ env m, FetcherOp.start env m ∈
      [FetcherOp.start Sample.willing .empty, .handleResult (.failure .operationTimedout) 0 .empty] → Tidy env := by
    intro env m hm
    have hstart : FetcherOp.start env m = .start Sample.willing .empty := by simpa using hm
    cases hstart
    exact Sample.willing_tidy
  have hok : (((Sample.fetcher 0 4).after [.start Sample.willing .empty, .handleResult (.failure .operationTimedout) 0
      .empty]).fetcher.start Sample.willing .empty).result = .ok () := by
    decide +kernel
  obtain ⟨_, _, _, hlines⟩ := (HTTPFetcher.headed _ Sample.willing _).sent hok
  exact ⟨_, hlines, (fetcher_lines (Sample.fetcher 0 4) (Sample.fetcher_made 0 4) ⟨lit "https://", lit "/k", rfl⟩ _ hops
    Sample.willing Sample.willing_tidy .empty _ hok hlines).2 (fun _ => by decide)⟩

end QingStor
