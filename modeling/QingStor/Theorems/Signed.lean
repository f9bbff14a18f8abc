import QingStor.Lemmas.Wire
import QingStor.Theorems.UrlGrammar

/-!
# Signatures

A server that reads the headers of a request and computes the signature of what it reads finds the one that was sent, whichever
attempt of the request it is. What is signed for one request is signed for no other.
-/

namespace QingStor

/-- What the URLs and buckets of the API are like: a bucket has no `/` and no `?`, and a URL fits the fields of the parser and does
not begin with a `*`. -/
structure RequestArgs.Plain (a : RequestArgs) (bucket : Str) : Prop where
  named : a.bucket = some bucket
  clean : '/'.toUInt8 ∉ bucket ∧ '?'.toUInt8 ∉ bucket
  url : a.url.length < 2 ^ 16 ∧ a.url.head? ≠ some '*'.toUInt8

namespace SignedAux

/-! ## The requests of `DoGetJSON` -/

/-- A request that was signed for the URL it is sent to. -/
def SignedFor (a : RequestArgs) (xs : Nat → Exchange) (q : Request) : Prop :=
  q.qsrt = a.qsrt ∧ q.url = a.url ∧ ∃ i path query md, qsParseUrl a.url = .ok (path, query) ∧
    signature (xs i).signer a.header (a.resource path query) a.cred a.qsrt md = .ok q.headers

theorem header_fields (a : RequestArgs) : ∀ p ∈ a.header, p.1 = .host ∨ p.1 = .location ∨ p.1 = .range := by
  have hadd : ∀ (h : HeaderContent) (f : HeaderField) (v : Str), ∀ p ∈ headerContentAdd h f v, p ∈ h ∨ p.1 = f := by
    intro h f v p hp
    unfold headerContentAdd at hp
    split at hp
    · exact Or.inl hp
    · rcases List.mem_append.1 hp with hp | hp
      · exact Or.inl hp
      · rw [List.mem_singleton.1 hp]
        exact Or.inr rfl
  intro p hp
  unfold RequestArgs.header at hp
  split at hp
  · rcases hadd _ _ _ p hp with hp | hp
    · rcases hadd _ _ _ p hp with hp | hp
      · cases hp
      · exact Or.inl hp
    · exact Or.inr (Or.inl hp)
  · rcases hadd _ _ _ p hp with hp | hp
    · cases hp
    · exact Or.inl hp

theorem attempt_signed {J : JsonC} {a : RequestArgs} {md : Option MemoryData} {xs : Nat → Exchange} {i : Nat} {q : Request}
    (h : (doGetJSONInternal J a md (xs i)).request = some q) : SignedFor a xs q := by
  unfold doGetJSONInternal doGetJSONTry at h
  dsimp only at h
  split at h
  · cases h
  · split at h
    · cases h
    · split at h
      · cases h
      · rename_i path query hsplit
        split at h
        · cases h
        · rename_i headers hsig
          cases h
          exact ⟨rfl, rfl, i, path, query, md, hsplit, hsig⟩

/-- Every attempt signs anew. -/
theorem sent_signed (J : JsonC) (a : RequestArgs) (md : Option MemoryData) (retries : Int) (xs : Nat → Exchange) :
    ∀ q ∈ (doGetJSON J a md retries xs).state.sent, SignedFor a xs q := by
  refine Lib.retry_invariant (P := fun w : Wire => ∀ q ∈ w.sent, SignedFor a xs q) ?_ _ 0 ?_
  · intro i w hw q hq
    unfold tryGetJSON at hq
    dsimp only at hq
    rcases List.mem_append.1 hq with hq | hq
    · exact hw q hq
    · exact attempt_signed (Option.mem_toList.1 hq)
  · intro q hq
    cases hq

/-! ## The resource of a request -/

/-- A path with its query is determined by its text, where the path has no `?`. -/
theorem queryText_inj {s s' : Str} {q q' : Option Str} (hs : '?'.toUInt8 ∉ s) (hs' : '?'.toUInt8 ∉ s')
    (h : s ++ queryText q = s' ++ queryText q') : s = s' ∧ q = q' := by
  cases q with
  | none =>
    rw [queryText, List.append_nil] at h
    cases q' with
    | none =>
      rw [queryText, List.append_nil] at h
      exact ⟨h, rfl⟩
    | some q' =>
      refine absurd ?_ hs
      rw [h, queryText]
      simp
  | some q =>
    cases q' with
    | none =>
      rw [show queryText none = [] from rfl, List.append_nil] at h
      refine absurd ?_ hs'
      rw [← h, queryText]
      simp
    | some q' =>
      obtain ⟨rfl, rfl⟩ := Lib.append_cons_inj hs hs' h
      exact ⟨rfl, rfl⟩

/-- What a path that is signed looks like: it is empty or begins with a `/`, and has no `?`. -/
structure Rooted (path : Str) : Prop where
  first : path = [] ∨ path.head? = some '/'.toUInt8
  mark : '?'.toUInt8 ∉ path

theorem rooted_inj {b b' p p' : Str} (hb : '/'.toUInt8 ∉ b) (hb' : '/'.toUInt8 ∉ b') (hp : Rooted p) (hp' : Rooted p')
    (h : b ++ p = b' ++ p') : b = b' ∧ p = p' := by
  rcases hp.first with rfl | hroot
  · rcases hp'.first with rfl | hroot'
    · rw [List.append_nil, List.append_nil] at h
      exact ⟨h, rfl⟩
    · obtain ⟨rest', rfl⟩ := List.head?_eq_some_iff.1 hroot'
      refine absurd ?_ hb
      rw [List.append_nil] at h
      rw [h]
      simp
  · obtain ⟨rest, rfl⟩ := List.head?_eq_some_iff.1 hroot
    rcases hp'.first with rfl | hroot'
    · refine absurd ?_ hb'
      rw [List.append_nil] at h
      rw [← h]
      simp
    · obtain ⟨rest', rfl⟩ := List.head?_eq_some_iff.1 hroot'
      obtain ⟨rfl, rfl⟩ := Lib.append_cons_inj hb hb' h
      exact ⟨rfl, rfl⟩

theorem signedResource_eq (bucket path : Str) (query : Option Str) :
    signedResource bucket path query = '/'.toUInt8 :: (bucket ++ path ++ queryText query) := by
  cases query with
  | none =>
    rw [signedResource, queryText, List.append_nil]
    rfl
  | some q =>
    rw [signedResource, queryText, show lit "?" = ['?'.toUInt8] from rfl, show lit "/" = ['/'.toUInt8] from rfl]
    simp

/-- The path that is signed for a URL. -/
theorem rooted_of_split {url path : Str} {query : Option Str} (hlen : url.length < 2 ^ 16) (hstar : url.head? ≠ some '*'.toUInt8)
    (h : qsParseUrl url = .ok (path, query)) : Rooted path := by
  unfold qsParseUrl at h
  rw [if_neg (by omega)] at h
  cases hu : httpParserParseUrl url with
  | none =>
    rw [hu] at h
    cases h
  | some u =>
    rw [hu] at h
    obtain ⟨p, hp, rfl, rfl⟩ := (UrlGrammarAux.taken_iff hlen u).1 hu
    dsimp only at h
    cases hfield : extractField p.text p.fields.path with
    | none =>
      rw [hfield] at h
      cases h
    | some field =>
      rw [hfield] at h
      obtain ⟨rfl, hne⟩ := UrlGrammarAux.extract_path hlen hfield
      obtain rfl := (Prod.mk.inj (Except.ok.inj h)).1
      have hmark : '?'.toUInt8 ∉ p.tail.path := fun hm => absurd (hp.tail.path _ hm) (by decide)
      obtain ⟨c, rest, hpath⟩ := List.exists_cons_of_ne_nil hne
      have hfirst : c = '/'.toUInt8 := by
        rcases hp.tail.first c (by rw [hpath]; rfl) with hc | ⟨rfl, hsite⟩
        · exact hc
        · refine absurd ?_ hstar
          have hnone : p.site = none := Option.isSome_eq_false_iff.1 hsite |> Option.isNone_iff_eq_none.1
          rw [UrlParts.text, UrlParts.siteText, hnone, UrlTail.text, hpath]
          rfl
      split
      · exact ⟨Or.inl rfl, List.not_mem_nil⟩
      · refine ⟨Or.inr ?_, hmark⟩
        rw [hpath, hfirst]
        rfl

/-- A resource is of one bucket, one path and one query. -/
theorem signedResource_inj {b b' p p' : Str} {q q' : Option Str} (hb : '/'.toUInt8 ∉ b ∧ '?'.toUInt8 ∉ b)
    (hb' : '/'.toUInt8 ∉ b' ∧ '?'.toUInt8 ∉ b') (hp : Rooted p) (hp' : Rooted p')
    (h : signedResource b p q = signedResource b' p' q') : b = b' ∧ p = p' ∧ q = q' := by
  rw [signedResource_eq, signedResource_eq] at h
  have hmark : ∀ {b p : Str}, '?'.toUInt8 ∉ b → Rooted p → '?'.toUInt8 ∉ b ++ p := by
    intro b p hb hp hm
    rcases List.mem_append.1 hm with hm | hm
    · exact hb hm
    · exact hp.mark hm
  obtain ⟨hpath, rfl⟩ := queryText_inj (hmark hb.2 hp) (hmark hb'.2 hp') (List.cons.inj h).2
  obtain ⟨rfl, rfl⟩ := rooted_inj hb.1 hb'.1 hp hp' hpath
  exact ⟨rfl, rfl, rfl⟩

end SignedAux

open SignedAux

/-- Every attempt of every request carries the authorization a server computes of what it reads, for the method curl sends and the
resource of the URL. -/
theorem requests_verify (J : JsonC) (a : RequestArgs) (md : Option MemoryData) (retries : Int) (xs : Nat → Exchange)
    (hmac : Str → Str → Str) (hhmac : ∀ i, (xs i).signer.sha256hmac = hmac) :
    ∀ q ∈ (doGetJSON J a md retries xs).state.sent, ∃ path query, qsParseUrl q.url = .ok (path, query) ∧
      lineValue .authorization q.lines = expectedAuthorization hmac a.cred (q.text (a.resource path query)) := by
  intro q hq
  obtain ⟨hqsrt, hurl, i, path, query, _, hsplit, hsig⟩ := sent_signed J a md retries xs q hq
  have hsigned := signature_signed hsig (header_fields a)
  refine ⟨path, query, hurl ▸ hsplit, ?_⟩
  unfold Request.text Request.lines
  rw [hqsrt, hsigned.text, lineValue_getList, hsigned.authorization, hhmac i]

theorem requests_verify_part :
    ∃ q ∈ (doGetJSON Sample.json Sample.partArgs (some ⟨lit "abc", 3⟩) 3 (fun _ => Sample.broken [])).state.sent,
      ∃ path query, qsParseUrl q.url = .ok (path, query) ∧
        lineValue .authorization q.lines = expectedAuthorization (fun _ _ => lit "c2lnbmF0dXJl") ⟨lit "id", lit "secret"⟩
          (q.text (Sample.partArgs.resource path query)) := by
  have hall := requests_verify Sample.json Sample.partArgs (some ⟨lit "abc", 3⟩) 3 (fun _ => Sample.broken [])
    (fun _ _ => lit "c2lnbmF0dXJl") (fun _ => rfl)
  have hthree : (doGetJSON Sample.json Sample.partArgs (some ⟨lit "abc", 3⟩) 3 (fun _ => Sample.broken [])).state.sent.length = 3 := by
    decide +kernel
  obtain ⟨q, hq⟩ := List.exists_mem_of_length_pos (hthree ▸ (by decide : 0 < 3))
  exact ⟨q, hq, hall q hq⟩

/-- The text that is signed for a request says its method, its type, its date, and its bucket, path and query. -/
theorem signature_binds {J J' : JsonC} {a a' : RequestArgs} {md md' : Option MemoryData} {retries retries' : Int}
    {xs xs' : Nat → Exchange} {bucket bucket' : Str} {q q' : Request} {path path' : Str} {query query' : Option Str}
    (ha : a.Plain bucket) (ha' : a'.Plain bucket')
    (hdate : ∀ i, '\n'.toUInt8 ∉ (xs i).signer.timebuf) (hdate' : ∀ i, '\n'.toUInt8 ∉ (xs' i).signer.timebuf)
    (hq : q ∈ (doGetJSON J a md retries xs).state.sent) (hq' : q' ∈ (doGetJSON J' a' md' retries' xs').state.sent)
    (hsplit : qsParseUrl q.url = .ok (path, query)) (hsplit' : qsParseUrl q'.url = .ok (path', query'))
    (h : q.text (a.resource path query) = q'.text (a'.resource path' query')) :
    q.qsrt.easyOptions.method = q'.qsrt.easyOptions.method ∧
      lineValue .contentType q.lines = lineValue .contentType q'.lines ∧ lineValue .date q.lines = lineValue .date q'.lines ∧
      bucket = bucket' ∧ path = path' ∧ query = query' := by
  obtain ⟨hqsrt, hurl, i, p, r, _, hp, hsig⟩ := sent_signed J a md retries xs q hq
  obtain ⟨hqsrt', hurl', i', p', r', _, hp', hsig'⟩ := sent_signed J' a' md' retries' xs' q' hq'
  have hsigned := signature_signed hsig (header_fields a)
  have hsigned' := signature_signed hsig' (header_fields a')
  have hsame : p = path ∧ r = query := Prod.mk.inj (Except.ok.inj (hp.symm.trans (hurl ▸ hsplit)))
  have hsame' : p' = path' ∧ r' = query' := Prod.mk.inj (Except.ok.inj (hp'.symm.trans (hurl' ▸ hsplit')))
  obtain ⟨rfl, rfl⟩ := hsame
  obtain ⟨rfl, rfl⟩ := hsame'
  unfold Request.text Request.lines at h
  rw [hqsrt, hqsrt', hsigned.text, hsigned'.text] at h
  obtain ⟨hmethod, htype, htime, hresource⟩ := signedText_inj (hdate i) (hdate' i') h
  unfold RequestArgs.resource at hresource
  rw [ha.named, ha'.named] at hresource
  have hparts := signedResource_inj ha.clean ha'.clean (rooted_of_split ha.url.1 ha.url.2 hp) (rooted_of_split ha'.url.1 ha'.url.2 hp')
    hresource
  unfold Request.lines
  rw [hqsrt, hqsrt', lineValue_getList, lineValue_getList, lineValue_getList, lineValue_getList, hsigned.contentType,
    hsigned'.contentType, hsigned.date, hsigned'.date]
  exact ⟨hmethod, htype, htime, hparts⟩

namespace Sample

/-- A part as `DoGetJSON` sends it. -/
def partRequest (body : Str) : Request where
  qsrt := .uploadMp
  url := partArgs.url
  headers := [(.host, partArgs.host), (.contentLength, lit "3"), (.date, signer.timebuf), (.contentType, lit "plain/text"),
    (.authorization, lit "QS-HMAC-SHA256 id:c2lnbmF0dXJl")]
  infile := some ⟨body, 3⟩

theorem part_plain : partArgs.Plain (lit "b") := ⟨rfl, by decide, by decide⟩

end Sample

/-- A body is not signed. -/
theorem signature_binds_bodies :
    (Sample.partRequest (lit "abc")).qsrt.easyOptions.method = (Sample.partRequest (lit "xyz")).qsrt.easyOptions.method ∧
      lineValue .contentType (Sample.partRequest (lit "abc")).lines = lineValue .contentType (Sample.partRequest (lit "xyz")).lines ∧
      lineValue .date (Sample.partRequest (lit "abc")).lines = lineValue .date (Sample.partRequest (lit "xyz")).lines ∧
      lit "b" = lit "b" ∧ lit "/k" = lit "/k" ∧ some (lit "part_number=0&upload_id=u") = some (lit "part_number=0&upload_id=u") :=
  @signature_binds Sample.json Sample.json Sample.partArgs Sample.partArgs (some ⟨lit "abc", 3⟩) (some ⟨lit "xyz", 3⟩) 1 1
    (fun _ => Sample.broken []) (fun _ => Sample.broken []) _ _ _ _ _ _ _ _ Sample.part_plain Sample.part_plain
    (fun _ => by decide) (fun _ => by decide) (by decide +kernel) (by decide +kernel) (by decide +kernel) (by decide +kernel)
    (by decide +kernel)

/-! ## The requests of a fetcher -/

variable {β : Type*}

/-- The starts of a run sign with one function, and print a date. -/
def StartsSign (hmac : Str → Str → Str) (ops : List (FetcherOp β)) : Prop :=
  ∀ env m, FetcherOp.start env m ∈ ops → env.signer.sha256hmac = hmac ∧ env.signer.timebuf ≠ []

/-- What a start that returns hands to curl, after any calls before it: lines with the authorization a server computes of what it
reads, where it reads the first line of a field; and the date and the authorization it reads are those of every start that returned
before. -/
theorem restarts_verify (f : HTTPFetcher β) (hmade : f.Made) (hmac : Str → Str → Str) (ops : List (FetcherOp β))
    (hops : StartsSign hmac ops) (env : StartEnv β) (m : Multi β) (hhmac : env.signer.sha256hmac = hmac)
    (hdate : env.signer.timebuf ≠ []) (hok : ((f.after ops).fetcher.start env m).result = .ok ()) :
    ∃ path query lines, qsParseUrl f.mUrl = .ok (path, query) ∧
      ((f.after ops).fetcher.start env m).fetcher.mHttpHeaders = some lines ∧
      lineValue .authorization lines = expectedAuthorization hmac f.mCred
        (receivedText (lit "GET") lines (signedResource f.mBucket path query)) ∧
      ∀ before env₁ m₁ between, ops = before ++ .start env₁ m₁ :: between →
        ((f.after before).fetcher.start env₁ m₁).result = .ok () →
        ∃ lines₁, ((f.after before).fetcher.start env₁ m₁).fetcher.mHttpHeaders = some lines₁ ∧
          lineValue .date lines = lineValue .date lines₁ ∧ lineValue .authorization lines = lineValue .authorization lines₁ := by
  obtain ⟨this, url, host, bucket, cred, buffsize, offset, len, rfl⟩ := hmade
  have hsound := FetcherRun.sound_make (β := β) this url host bucket cred buffsize offset len
  have hfirst : (HTTPFetcher.make (β := β) this url host bucket cred buffsize offset len).Verifies hmac :=
    .unsigned (fun p hp => by cases hp)
  have hverifies := hsound.verifies hfirst hops
  have hrun := hsound.runs ops
  unfold HTTPFetcher.after at hok ⊢
  obtain ⟨split, hurl, hheaders, hlines⟩ := (((ops.foldl FetcherOp.run _ : FetcherRun β).fetcher).headed env m).sent hok
  obtain ⟨S, hS, _, hsigned⟩ := hverifies.sign hhmac hdate hurl hheaders (hrun.1.roomy.start env m).2.1
  refine ⟨split.1, split.2, _, hrun.2.mUrl ▸ hurl, hlines, ?_, ?_⟩
  · have htext := hsigned.text
    rw [hheaders] at htext hsigned
    rw [lineValue_getList, hsigned.authorization, hS, ← htext, hrun.2.mCred, hrun.2.mBucket]
    rfl
  · rintro before env₁ m₁ between rfl hok₁
    have hdate₁ : env₁.signer.timebuf ≠ [] := (hops env₁ m₁ (by simp)).2
    have hbefore := hsound.runs before
    obtain ⟨split₁, -, hheaders₁, hlines₁⟩ := (((before.foldl FetcherOp.run _ : FetcherRun β).fetcher).headed env₁ m₁).sent hok₁
    have hdated := ((hbefore.1.run (.start env₁ m₁)).1.dated (HTTPFetcher.dated_of_sent hbefore.1.roomy hdate₁ hok₁) between).start
      env m
    rw [← List.foldl_cons, ← List.foldl_append] at hdated
    have hkept := hdated hrun.1.roomy
    refine ⟨_, hlines₁, ?_, ?_⟩
    · rw [← hheaders, ← hheaders₁, lineValue_getList, lineValue_getList, hkept.date]
    · rw [← hheaders, ← hheaders₁, lineValue_getList, lineValue_getList, hkept.authorization]

/-- After a failure the second request is sent with what the first one was signed with. -/
theorem restarts_verify_twice :
    ∃ path query lines, qsParseUrl (Sample.fetcher 0 4).mUrl = .ok (path, query) ∧
      (((Sample.fetcher 0 4).after [.start Sample.willing .empty, .handleResult (.failure .operationTimedout) 0 .empty]).fetcher.start
        Sample.willing .empty).fetcher.mHttpHeaders = some lines ∧
      lineValue .authorization lines = expectedAuthorization (fun _ _ => lit "c2lnbmF0dXJl") ⟨lit "id", lit "secret"⟩
        (receivedText (lit "GET") lines (signedResource (lit "b") path query)) ∧
      ∃ lines₁, ((Sample.fetcher 0 4).start Sample.willing .empty).fetcher.mHttpHeaders = some lines₁ ∧
        lineValue .date lines = lineValue .date lines₁ ∧ lineValue .authorization lines = lineValue .authorization lines₁ := by
  have hops : StartsSign (fun _ _ => lit "c2lnbmF0dXJl")
      [.start Sample.willing .empty, .handleResult (.failure .operationTimedout) 0 .empty] := by
    intro env m hm
    have hstart : FetcherOp.start env m = .start Sample.willing .empty := by simpa using hm
    cases hstart
    exact ⟨rfl, by decide⟩
  obtain ⟨path, query, lines, hurl, hlines, hauthorization, hfirst⟩ := restarts_verify (Sample.fetcher 0 4) (Sample.fetcher_made 0 4) _ _
    hops Sample.willing .empty rfl (by decide) (by decide +kernel)
  exact ⟨path, query, lines, hurl, hlines, hauthorization, hfirst [] Sample.willing .empty _ rfl (by decide +kernel)⟩

end QingStor
