import QingStor.Lib.Percent
import QingStor.Lemmas.Fetcher
import QingStor.Lemmas.Url
import QingStor.Theorems.ConfigFile
import QingStor.Api
import Mathlib.Data.List.TakeWhile

/-!
# Which object a request names

A key is put into the URL as it is. A request names the object of the key when the parser finds `/` and the key as the path, once
percent-decoded, and nothing of the key beyond the path. For a URL the 16-bit fields of the parser can hold, this is so exactly
when the host has no `/` and the key no `?`, no `#` and no escape; a longer URL is cut where the fields wrap.
-/

namespace QingStor

/-- The requests that name an object in their URL. -/
inductive ObjectRequest where
  | delete | head | get | put
  deriving DecidableEq

namespace ObjectRequest

/-- The URL of the request. -/
def url (ctx : Context) (bucket key : Str) : ObjectRequest → Str
  | put => ctx.mConfiguration.initUrl bucket key
  | _ => ctx.mConfiguration.objectUrl bucket key

/-- The query an operation has of its own. -/
def ownQuery : ObjectRequest → Str
  | put => lit "?uploads"
  | _ => []

/-- The operation sends a request: through `DoGetJSON`, or as a fetcher of the reader that could be started. -/
def Sent (ctx : Context) (bucket key : Str) : ObjectRequest → Prop
  | delete => ∃ J xs, (doGetJSON J (objectArgs ctx.mConfiguration bucket key .deleteObject) none
      ctx.mConfiguration.mConnectionRetries xs).state.sent ≠ []
  | head => ∃ J xs, (doGetJSON J (objectArgs ctx.mConfiguration bucket key .headObject) none
      ctx.mConfiguration.mConnectionRetries xs).state.sent ≠ []
  | put => ∃ J xs, (doGetJSON J (initArgs ctx.mConfiguration bucket key) none
      ctx.mConfiguration.mConnectionRetries xs).state.sent ≠ []
  | get => ∃ (size : Int) (range : RangeInfo) (fuel : Nat) (p : DownloadPipeline Byte), ∃ f ∈ p.mPendingFetchers,
      ∃ (env : StartEnv Byte) (m : Multi Byte),
        setupPipeline ctx.mConfiguration bucket ⟨key, size, range⟩ fuel = some (.ok p) ∧ (f.start env m).result = .ok ()

/-- The request names the object of the key: the path that is found decodes to `/` and the key, the parser is still in the path
after the last byte of the key, and what is signed is the bucket with this path and the operation's own query. -/
def Names (ctx : Context) (bucket key : Str) (op : ObjectRequest) : Prop :=
  ∃ (u : HttpParserUrl) (path : Str) (z : UrlScan) (split : Str × Option Str),
    httpParserParseUrl (op.url ctx bucket key) = some u ∧ extractField (op.url ctx bucket key) u.path = some path ∧
    Lib.percentDecode path = lit "/" ++ key ∧
    scanUrl (ctx.mConfiguration.objectUrl bucket key) = some z ∧ z.s = .path ∧
    qsParseUrl (op.url ctx bucket key) = .ok split ∧
    signedResource bucket split.1 split.2 = lit "/" ++ bucket ++ path ++ op.ownQuery

end ObjectRequest

/-- What a 16-bit offset and a 16-bit length find in a URL. -/
def urlWindow (url : Str) (off len : Nat) : Str := (url.drop (off % 2 ^ 16)).take (len % 2 ^ 16)

/-- The part of the host before its first `/`. -/
def hostBeforePath (ctx : Context) (bucket : Str) : Str :=
  (ctx.mConfiguration.bucketHost bucket).takeWhile (· ≠ '/'.toUInt8)

/-- What stands from the first `/` after `https://` to the end of the key. -/
def pathToKey (ctx : Context) (bucket key : Str) : Str :=
  (ctx.mConfiguration.bucketHost bucket).drop (hostBeforePath ctx bucket).length ++ lit "/" ++ key

/-- The condition for a URL of any length: no byte ends the path early, the wrapped fields still find `/` and the key, and the
operation's own query. -/
def ObjectRequest.FoundWrapped (ctx : Context) (bucket key : Str) (op : ObjectRequest) : Prop :=
  (pathToKey ctx bucket key).all (fun c => !endsPath c) = true ∧
  Lib.percentDecode (urlWindow (op.url ctx bucket key) (8 + (hostBeforePath ctx bucket).length) (pathToKey ctx bucket key).length) =
    lit "/" ++ key ∧
  (op = .put →
    escapeQuery (urlWindow (op.url ctx bucket key)
      (8 + (hostBeforePath ctx bucket).length + (pathToKey ctx bucket key).length + 1) 7) = lit "uploads")

/-- The condition for a URL that 16-bit fields can hold: a host without `/`, and a key without `?`, `#` and escapes. -/
def ObjectRequest.Plain (ctx : Context) (bucket key : Str) : Prop :=
  '/'.toUInt8 ∉ ctx.mConfiguration.bucketHost bucket ∧ key.all (fun c => !endsPath c) = true ∧ ¬ Lib.Escaped key

/-- A context the interface made. -/
def Context.Made (ctx : Context) : Prop :=
  (∃ location accessKeyId secretAccessKey chunkSize e,
    qingstorInitContext location accessKeyId secretAccessKey chunkSize = .ok ⟨some ctx, e⟩) ∨
  ∃ configFile file e, qingstorInitContextFromFile configFile file = .ok ⟨some ctx, e⟩

namespace ObjectUrlAux

/-- Every context speaks `https`: none was ever made from a file. -/
theorem made_https {ctx : Context} (h : ctx.Made) : ctx.mConfiguration.mProtocol = lit "https" := by
  rcases h with ⟨location, accessKeyId, secretAccessKey, chunkSize, e, h⟩ | ⟨configFile, file, e, h⟩
  · unfold qingstorInitContext at h
    split at h
    · cases h
    · split at h
      · cases h
      · split at h
        · cases h
        · cases h
          rfl
  · unfold qingstorInitContextFromFile at h
    split at h
    · cases h
    · cases hf : Configuration.ofFile file with
      | error f =>
        rw [hf] at h
        cases f <;> cases h
      | ok cfg => exact absurd hf (ofFile_ne_ok file cfg)

/-- The bytes before the first occurrence of a byte. -/
theorem takeWhile_of_split {c : Byte} {host : Str} (t : Str) (h : c ∉ host) : (host ++ c :: t).takeWhile (· ≠ c) = host := by
  have hall : ∀ x ∈ host, decide (x ≠ c) = true := by
    intro x hx
    exact decide_eq_true (fun he => h (he ▸ hx))
  rw [List.takeWhile_append_of_pos hall, List.takeWhile_cons_of_neg (by simp), List.append_nil]

/-- A byte that is in what was appended does not change what is before it. -/
theorem takeWhile_append_cons (c : Byte) (s t : Str) : (s ++ c :: t).takeWhile (· ≠ c) = s.takeWhile (· ≠ c) := by
  induction s with
  | nil => simp
  | cons x s ih =>
    rw [List.cons_append, List.takeWhile_cons, List.takeWhile_cons, ih]

theorem takeWhile_eq_self {c : Byte} {s : Str} (h : c ∉ s) : s.takeWhile (· ≠ c) = s := by
  rw [List.takeWhile_eq_self_iff]
  intro x hx
  have hne : x ≠ c := fun he => h (he ▸ hx)
  simpa using hne

/-! ### The requests that are sent -/

/-- A request sent by `DoGetJSON` had a URL that could be split. -/
theorem isOk_of_sent {J : JsonC} {a : RequestArgs} {md : Option MemoryData} {retries : Int} {xs : Nat → Exchange}
    (h : (doGetJSON J a md retries xs).state.sent ≠ []) : (qsParseUrl a.url).isOk = true := by
  obtain ⟨r, hr⟩ := List.exists_mem_of_ne_nil _ h
  exact (doGetJSON_sent J a md retries xs r hr).2

/-- The fetchers a reader adds are for the object and are signed for its bucket. -/
theorem addChunks_url {cfg : Configuration} {bucket : Str} {object : ObjectInfo} (chunks : List (Int × Int))
    {p : DownloadPipeline Byte}
    (h : ∀ f ∈ p.mPendingFetchers, f.mUrl = cfg.objectUrl bucket object.key ∧ f.mBucket = bucket) :
    ∀ f ∈ (addChunks cfg bucket object p chunks).mPendingFetchers,
      f.mUrl = cfg.objectUrl bucket object.key ∧ f.mBucket = bucket := by
  unfold addChunks
  induction chunks generalizing p with
  | nil => exact h
  | cons c chunks ih =>
    rw [List.foldl_cons]
    apply ih
    intro f hf
    rcases List.mem_append.1 hf with hf | hf
    · exact h f hf
    · rw [List.mem_singleton] at hf
      subst hf
      exact ⟨rfl, rfl⟩

/-- A fetcher that could be started had a URL that could be split. -/
theorem isOk_of_start {f : HTTPFetcher Byte} {env : StartEnv Byte} {m : Multi Byte} (h : (f.start env m).result = .ok ()) :
    (qsParseUrl f.mUrl).isOk = true := by
  rcases f.start_cases env m with ⟨e, he⟩ | ⟨_, _, headers, lines, ⟨e, he⟩ | ⟨hurl, _⟩⟩
  · rw [he] at h
    cases h
  · rw [he] at h
    cases h
  · exact hurl

/-- A request that is sent is for a URL that could be split. -/
theorem isOk_of_op_sent {ctx : Context} {bucket key : Str} {op : ObjectRequest} (h : op.Sent ctx bucket key) :
    (qsParseUrl (op.url ctx bucket key)).isOk = true := by
  cases op with
  | delete | head | put =>
    obtain ⟨J, xs, h⟩ := h
    exact isOk_of_sent h
  | get =>
    obtain ⟨size, range, fuel, p, f, hf, env, m, hp, hstart⟩ := h
    have hurl : f.mUrl = ctx.mConfiguration.objectUrl bucket key := by
      unfold setupPipeline at hp
      rw [Option.map_eq_some_iff] at hp
      obtain ⟨r, _, hp⟩ := hp
      cases r with
      | error e => cases hp
      | ok chunks =>
        cases hp
        refine (addChunks_url chunks ?_ f hf).1
        intro g hg
        cases hg
    have := isOk_of_start hstart
    rwa [hurl] at this

/-! ### The scan of an object's URL -/

/-- The URL of an object, in the pieces the scan goes over. -/
theorem objectUrl_eq {ctx : Context} (h : ctx.Made) (bucket key : Str) :
    ctx.mConfiguration.objectUrl bucket key =
      lit "https://" ++ (ctx.mConfiguration.bucketHost bucket ++ '/'.toUInt8 :: key) := by
  unfold Configuration.objectUrl
  rw [made_https h, show lit "https://" = lit "https" ++ lit "://" from rfl, show lit "/" = ['/'.toUInt8] from rfl]
  simp

/-- The host and the key are cut at the first `/`. -/
theorem hostBeforePath_append (ctx : Context) (bucket key : Str) :
    hostBeforePath ctx bucket ++ pathToKey ctx bucket key =
      ctx.mConfiguration.bucketHost bucket ++ '/'.toUInt8 :: key := by
  obtain ⟨r, hr⟩ : ∃ r, hostBeforePath ctx bucket ++ r = ctx.mConfiguration.bucketHost bucket := List.takeWhile_prefix _
  unfold pathToKey
  rw [← hr, List.drop_left' rfl]
  simp [show lit "/" = ['/'.toUInt8] from rfl]

/-- Where the scan of an object's URL is after the key. -/
theorem scan_objectUrl {ctx : Context} (h : ctx.Made) {bucket key : Str} {z : UrlScan}
    (hz : scanUrl (ctx.mConfiguration.objectUrl bucket key) = some z) :
    z.s.late = true ∧ z.u.path = none ∨
    (pathToKey ctx bucket key).all (fun c => !endsPath c) = true ∧
      z.InPath (8 + (hostBeforePath ctx bucket).length) (pathToKey ctx bucket key).length ∨
    (pathToKey ctx bucket key).all (fun c => !endsPath c) = false ∧ z.s.late = true := by
  have hz' : UrlScan.start.over (lit "https://" ++ (ctx.mConfiguration.bucketHost bucket ++ '/'.toUInt8 :: key)) = some z := by
    rw [← objectUrl_eq h]
    exact hz
  obtain ⟨z₀, h0, hover⟩ := UrlScan.over_append_some hz'
  obtain ⟨z₀', h0', hserver⟩ := over_https
  obtain rfl : z₀ = z₀' := Option.some.inj (h0.symm.trans h0')
  rcases over_server hserver hover with h | ⟨hs, _⟩ | ⟨host, t, z₁, heq, hhost, hin, hpath⟩
  · exact Or.inl h
  · exact absurd (List.mem_append_right _ (List.mem_cons_self ..)) hs
  · right
    have hbefore : hostBeforePath ctx bucket = host := by
      rw [hostBeforePath, ← takeWhile_append_cons '/'.toUInt8 _ key, heq]
      exact takeWhile_of_split t hhost
    have hrest : pathToKey ctx bucket key = '/'.toUInt8 :: t := by
      have := hostBeforePath_append ctx bucket key
      rw [heq, hbefore] at this
      exact List.append_cancel_left this
    have hall : (pathToKey ctx bucket key).all (fun c => !endsPath c) = t.all (fun c => !endsPath c) := by
      rw [hrest, List.all_cons, show endsPath '/'.toUInt8 = false by decide]
      rfl
    rw [hall, hrest, hbefore, List.length_cons, Nat.add_comm t.length 1]
    exact (over_path hin hpath).2

/-- What the parser finds in the URL of a request that is sent, as far as the key is concerned. -/
theorem parsed_url {ctx : Context} (h : ctx.Made) {bucket key : Str} {op : ObjectRequest} {split : Str × Option Str}
    (hsent : qsParseUrl (op.url ctx bucket key) = .ok split) :
    ∃ u z path, httpParserParseUrl (op.url ctx bucket key) = some u ∧
      scanUrl (ctx.mConfiguration.objectUrl bucket key) = some z ∧
      extractField (op.url ctx bucket key) u.path = some path ∧
      split = (if path = lit "/" then [] else path, (extractField (op.url ctx bucket key) u.query).map escapeQuery) ∧
      ((pathToKey ctx bucket key).all (fun c => !endsPath c) = true ∧ z.s = .path ∧
          path = urlWindow (op.url ctx bucket key) (8 + (hostBeforePath ctx bucket).length) (pathToKey ctx bucket key).length ∧
          extractField (op.url ctx bucket key) u.query = (if op = .put then some (urlWindow (op.url ctx bucket key)
            (8 + (hostBeforePath ctx bucket).length + (pathToKey ctx bucket key).length + 1) 7) else none) ∨
        (pathToKey ctx bucket key).all (fun c => !endsPath c) = false ∧ z.s ≠ .path) := by
  unfold qsParseUrl at hsent
  split at hsent
  · cases hsent
  · split at hsent
    · cases hsent
    · rename_i u hu
      split at hsent
      · cases hsent
      · rename_i path hpath
        cases hsent
        obtain ⟨z', hz', hup, huq, _⟩ := httpParserParseUrl_some hu
        have hown : op.url ctx bucket key = ctx.mConfiguration.objectUrl bucket key ++ op.ownQuery := by
          cases op <;> first | rfl | exact (List.append_nil _).symm
        have hz : UrlScan.start.over (ctx.mConfiguration.objectUrl bucket key ++ op.ownQuery) = some z' := by
          rw [← hown]
          exact hz'
        obtain ⟨z, hobj, hover⟩ := UrlScan.over_append_some hz
        refine ⟨u, z, path, hu, hobj, hpath, rfl, ?_⟩
        rcases scan_objectUrl h hobj with ⟨hl, hnone⟩ | ⟨hall, hin⟩ | ⟨hall, hl⟩
        · obtain ⟨_, hp'⟩ := over_late hl hover
          rw [hup, hp', hnone] at hpath
          cases hpath
        · have huploads : ∀ c ∈ lit "ploads", parseUrlChar .queryString c = .queryString := by decide +kernel
          refine Or.inl ⟨hall, hin.s, ?_, ?_⟩
          · have hsame : z'.u.path = z.u.path := by
              cases op with
              | put => exact (over_own_query hin (by decide) huploads hover).1
              | delete | head | get =>
                cases hover
                rfl
            rw [hup, hsame, hin.path] at hpath
            exact (Option.some.inj hpath).symm
          · rw [huq]
            cases op with
            | put =>
              rw [(over_own_query hin (by decide) huploads hover).2]
              rfl
            | delete | head | get =>
              cases hover
              rw [hin.query]
              rfl
        · refine Or.inr ⟨hall, fun hs => ?_⟩
          rw [hs] at hl
          cases hl

/-- The condition for a URL of any length is exact. -/
theorem names_iff_foundWrapped {ctx : Context} (h : ctx.Made) {bucket key : Str} {op : ObjectRequest} (hkey : key ≠ [])
    (hsent : (qsParseUrl (op.url ctx bucket key)).isOk = true) :
    op.Names ctx bucket key ↔ op.FoundWrapped ctx bucket key := by
  obtain ⟨split, hsplit⟩ := isOk_iff.1 hsent
  obtain ⟨u, z, path, hu, hz, hpath, rfl, hor⟩ := parsed_url h hsplit
  have hnot : Lib.percentDecode path = lit "/" ++ key → path ≠ lit "/" := by
    rintro hd rfl
    have hlen := congrArg List.length hd
    have hpos := List.length_pos_iff.2 hkey
    simp only [List.length_append, show (Lib.percentDecode (lit "/")).length = (lit "/").length from rfl] at hlen
    omega
  constructor
  · rintro ⟨u', path', z', split', hu', hpath', hdec, hz', hs, hsplit', hres⟩
    obtain rfl : u = u' := Option.some.inj (hu.symm.trans hu')
    obtain rfl : path = path' := Option.some.inj (hpath.symm.trans hpath')
    obtain rfl : z = z' := Option.some.inj (hz.symm.trans hz')
    rw [hsplit] at hsplit'
    cases hsplit'
    rcases hor with ⟨hall, _, rfl, hq⟩ | ⟨_, hne⟩
    · refine ⟨hall, hdec, ?_⟩
      rintro rfl
      rw [hq, if_pos rfl, if_neg (hnot hdec)] at hres
      simp only [signedResource, Option.map_some, ObjectRequest.ownQuery, show lit "?uploads" = lit "?" ++ lit "uploads" from rfl,
        List.append_assoc, List.append_cancel_left_eq] at hres
      exact hres
    · exact absurd hs hne
  · rintro ⟨hall, hdec, hown⟩
    rcases hor with ⟨_, hs, rfl, hq⟩ | ⟨hall', _⟩
    · refine ⟨u, _, z, _, hu, hpath, hdec, hz, hs, hsplit, ?_⟩
      rw [hq, if_neg (hnot hdec)]
      by_cases hput : op = .put
      · subst hput
        rw [if_pos rfl, Option.map_some, hown rfl, signedResource]
        simp [ObjectRequest.ownQuery, show lit "?uploads" = lit "?" ++ lit "uploads" from rfl]
      · rw [if_neg hput, Option.map_none, signedResource]
        cases op <;> first | exact absurd rfl hput | simp [ObjectRequest.ownQuery]
    · rw [hall] at hall'
      cases hall'

/-- In a URL that 16-bit fields can hold, nothing wraps. -/
theorem foundWrapped_iff_plain {ctx : Context} (h : ctx.Made) {bucket key : Str} {op : ObjectRequest}
    (hlen : (op.url ctx bucket key).length < 2 ^ 16) :
    op.FoundWrapped ctx bucket key ↔ ObjectRequest.Plain ctx bucket key := by
  have hslash : ('/'.toUInt8 : Byte) ≠ Lib.percent ∧ Lib.isHexDigit '/'.toUInt8 = false := by decide
  have hurl : op.url ctx bucket key =
      lit "https://" ++ hostBeforePath ctx bucket ++ (pathToKey ctx bucket key ++ op.ownQuery) := by
    have hown : op.url ctx bucket key = ctx.mConfiguration.objectUrl bucket key ++ op.ownQuery := by
      cases op <;> first | rfl | exact (List.append_nil _).symm
    rw [hown, objectUrl_eq h, ← hostBeforePath_append]
    simp
  have height : (lit "https://").length = 8 := by decide
  have htotal := congrArg List.length hurl
  simp only [List.length_append, height] at htotal
  have hwindow : urlWindow (op.url ctx bucket key) (8 + (hostBeforePath ctx bucket).length) (pathToKey ctx bucket key).length =
      pathToKey ctx bucket key := by
    rw [urlWindow, Nat.mod_eq_of_lt (by omega), Nat.mod_eq_of_lt (by omega), hurl,
      List.drop_left' (by rw [List.length_append, height]), List.take_left' rfl]
  have hquery : op = .put → escapeQuery (urlWindow (op.url ctx bucket key)
      (8 + (hostBeforePath ctx bucket).length + (pathToKey ctx bucket key).length + 1) 7) = lit "uploads" := by
    rintro rfl
    have hseven : (ObjectRequest.put.ownQuery).length = 8 := by decide
    have hcut : ObjectRequest.put.url ctx bucket key =
        lit "https://" ++ hostBeforePath ctx bucket ++ pathToKey ctx bucket key ++ lit "?" ++ lit "uploads" := by
      rw [hurl]
      simp [ObjectRequest.ownQuery, show lit "?uploads" = lit "?" ++ lit "uploads" from rfl]
    have hfound : urlWindow (ObjectRequest.put.url ctx bucket key)
        (8 + (hostBeforePath ctx bucket).length + (pathToKey ctx bucket key).length + 1) 7 = lit "uploads" := by
      rw [urlWindow, Nat.mod_eq_of_lt (by omega), Nat.mod_eq_of_lt (by omega), hcut,
        List.drop_left' (by simp only [List.length_append, height]; rfl)]
      rfl
    rw [hfound]
    decide
  unfold ObjectRequest.FoundWrapped ObjectRequest.Plain
  rw [hwindow]
  by_cases hhost : '/'.toUInt8 ∈ ctx.mConfiguration.bucketHost bucket
  · refine iff_of_false (fun hw => ?_) (fun hp => hp.1 hhost)
    obtain ⟨host, t, hsplit, hnot⟩ : ∃ host t, ctx.mConfiguration.bucketHost bucket = host ++ '/'.toUInt8 :: t ∧
        '/'.toUInt8 ∉ host := by
      obtain ⟨host, t, hsplit, hnot⟩ := List.eq_append_cons_of_mem hhost
      exact ⟨host, t, hsplit, hnot⟩
    have hbefore : hostBeforePath ctx bucket = host := by
      rw [hostBeforePath, hsplit]
      exact takeWhile_of_split t hnot
    have hrest : pathToKey ctx bucket key = '/'.toUInt8 :: (t ++ '/'.toUInt8 :: key) := by
      have := hostBeforePath_append ctx bucket key
      rw [hsplit, hbefore, List.append_assoc] at this
      exact List.append_cancel_left this
    have hdec := hw.2.1
    rw [hrest, Lib.percentDecode_cons hslash.1] at hdec
    injection hdec with _ hdec
    exact Lib.percentDecode_ne_ending hslash.1 hslash.2 t key hdec
  · have hbefore : hostBeforePath ctx bucket = ctx.mConfiguration.bucketHost bucket := takeWhile_eq_self hhost
    have hrest : pathToKey ctx bucket key = '/'.toUInt8 :: key := by
      have := hostBeforePath_append ctx bucket key
      rw [hbefore] at this
      exact List.append_cancel_left this
    have hall : (pathToKey ctx bucket key).all (fun c => !endsPath c) = key.all (fun c => !endsPath c) := by
      rw [hrest, List.all_cons, show endsPath '/'.toUInt8 = false by decide]
      rfl
    have hdec : Lib.percentDecode (pathToKey ctx bucket key) = lit "/" ++ key ↔ ¬ Lib.Escaped key := by
      rw [hrest, Lib.percentDecode_cons hslash.1, ← Lib.percentDecode_eq_self_iff]
      exact ⟨fun h => by injection h, fun h => by rw [h]; rfl⟩
    rw [hall, hdec]
    exact ⟨fun hw => ⟨hhost, hw.1, hw.2.1⟩, fun hp => ⟨hp.2.1, hp.2.2, hquery⟩⟩

end ObjectUrlAux

/-- Two requests that find the same path, and each name the object of their key, have the same key. -/
theorem ObjectRequest.Names.key_eq {ctx : Context} {op op' : ObjectRequest} {bucket key key' : Str}
    (h : op.Names ctx bucket key) (h' : op'.Names ctx bucket key')
    (hpath : ∀ u u' : HttpParserUrl, httpParserParseUrl (op.url ctx bucket key) = some u →
      httpParserParseUrl (op'.url ctx bucket key') = some u' →
      extractField (op.url ctx bucket key) u.path = extractField (op'.url ctx bucket key') u'.path) : key = key' := by
  obtain ⟨u, path, _, _, hu, hp, hdec, _⟩ := h
  obtain ⟨u', path', _, _, hu', hp', hdec', _⟩ := h'
  have hsame : path = path' := by
    have := hpath u u' hu hu'
    rw [hp, hp'] at this
    exact Option.some.inj this
  rw [hsame, hdec'] at hdec
  exact (List.append_cancel_left hdec).symm

/-- Exactly when a request that is sent names the object of its key. -/
theorem request_names_object_iff (ctx : Context) (op : ObjectRequest) (bucket key : Str) (hmade : ctx.Made) (hkey : key ≠ [])
    (hsent : op.Sent ctx bucket key) :
    op.Names ctx bucket key ↔
      if (op.url ctx bucket key).length < 2 ^ 16 then ObjectRequest.Plain ctx bucket key else op.FoundWrapped ctx bucket key := by
  rw [ObjectUrlAux.names_iff_foundWrapped hmade hkey (ObjectUrlAux.isOk_of_op_sent hsent)]
  split
  · rename_i hlen
    exact ObjectUrlAux.foundWrapped_iff_plain hmade hlen
  · exact Iff.rfl

namespace ObjectUrlAux

def pek3a : Context := ⟨.ofArguments (lit "pek3a") (lit "id") (lit "secret") 4⟩

theorem pek3a_made : pek3a.Made :=
  Or.inl ⟨some (lit "pek3a"), some (lit "id"), some (lit "secret"), 4, none, rfl⟩

theorem pek3a_sent {key : Str}
    (h : (doGetJSON Sample.json (objectArgs pek3a.mConfiguration (lit "b") key .deleteObject) none 3
      (fun _ => Sample.answer [] 204 [])).state.sent ≠ []) : ObjectRequest.Sent pek3a (lit "b") key .delete :=
  ⟨_, _, h⟩

end ObjectUrlAux

theorem request_names_object_iff_plain :
    ObjectRequest.Names ObjectUrlAux.pek3a (lit "b") (lit "a/b") .delete ↔
      if (ObjectRequest.url ObjectUrlAux.pek3a (lit "b") (lit "a/b") .delete).length < 2 ^ 16 then
        ObjectRequest.Plain ObjectUrlAux.pek3a (lit "b") (lit "a/b")
      else ObjectRequest.FoundWrapped ObjectUrlAux.pek3a (lit "b") (lit "a/b") .delete :=
  request_names_object_iff ObjectUrlAux.pek3a .delete (lit "b") (lit "a/b") ObjectUrlAux.pek3a_made (by decide)
    (ObjectUrlAux.pek3a_sent (by decide))

/-- A request that is sent does not always name the object of its key: the deletion of `a?b` is for the path `/a`. -/
theorem request_names_object_false :
    ¬ ∀ (ctx : Context) (op : ObjectRequest) (bucket key : Str), ctx.Made → key ≠ [] → op.Sent ctx bucket key →
      op.Names ctx bucket key := by
  intro h
  obtain ⟨u, path, _, _, hu, hpath, hdec, _⟩ := h ObjectUrlAux.pek3a .delete (lit "b") (lit "a?b")
    ObjectUrlAux.pek3a_made (by decide) (ObjectUrlAux.pek3a_sent (by decide))
  have hfound : (httpParserParseUrl (ObjectRequest.url ObjectUrlAux.pek3a (lit "b") (lit "a?b") .delete)).bind
      (fun u => extractField (ObjectRequest.url ObjectUrlAux.pek3a (lit "b") (lit "a?b") .delete) u.path) =
      some (lit "/a") := by
    decide
  rw [hu, Option.bind_some, hpath] at hfound
  rw [Option.some.inj hfound] at hdec
  exact absurd hdec (by decide)

end QingStor
