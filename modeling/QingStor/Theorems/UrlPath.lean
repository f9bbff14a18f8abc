import QingStor.Lemmas.UrlHost
import QingStor.Theorems.ObjectUrl

/-!
# Whether a URL has a path

Bucket and location are put into the host of a URL as they are. `qs_parse_url` takes the length of the path it is given without
asking whether there is one. There is none exactly when a `?` in the host comes before any `/`.
-/

namespace QingStor

/-- The requests, with the texts their URLs are built from. A writer has its key and its upload id from the server. -/
inductive UrlRequest where
  | listBuckets (location : Str)
  | listObjects (bucket keyPrefix currentMarker : Str)
  | createBucket (location bucket : Str)
  | deleteBucket (location bucket : Str)
  | deleteObject (bucket key : Str)
  | headObject (bucket key : Str)
  | getObject (bucket key : Str)
  | initMultipartUpload (bucket key : Str)
  | uploadMultipart (w : QingStorWriter)
  | completeMultipartUpload (w : QingStorWriter)
  | abortMultipartUpload (w : QingStorWriter)

/-- The host and the URL that go with a request of a context. -/
def UrlRequest.args (ctx : Context) : UrlRequest → RequestArgs
  | listBuckets location =>
    ⟨ctx.mConfiguration.mHost, ctx.mConfiguration.mProtocol ++ lit "://" ++ ctx.mConfiguration.mHost ++ lit "/", none,
      if location = [] then none else some location, ctx.mConfiguration.credential, .listBucket⟩
  | listObjects bucket keyPrefix currentMarker =>
    listArgs ctx.mConfiguration bucket (ctx.mConfiguration.listUrl bucket keyPrefix currentMarker)
  | createBucket location bucket => bucketArgs ctx.mConfiguration location bucket .createBucket
  | deleteBucket location bucket => bucketArgs ctx.mConfiguration location bucket .deleteBucket
  | deleteObject bucket key => objectArgs ctx.mConfiguration bucket key .deleteObject
  | headObject bucket key => objectArgs ctx.mConfiguration bucket key .headObject
  | getObject bucket key => objectArgs ctx.mConfiguration bucket key .getData
  | initMultipartUpload bucket key => initArgs ctx.mConfiguration bucket key
  | uploadMultipart w => ({ w with mConfiguration := ctx.mConfiguration }).partArgs
  | completeMultipartUpload w => ({ w with mConfiguration := ctx.mConfiguration }).uploadArgs .compMpUpload
  | abortMultipartUpload w => ({ w with mConfiguration := ctx.mConfiguration }).uploadArgs .abortMpUpload

/-- The URL is refused, or it has a path and can be split at it. -/
def SplitSafely (url : Str) : Prop :=
  (httpParserParseUrl url = none ∧ ∃ msg, qsParseUrl url = .error (throwing .invalidParameter msg)) ∨
  ∃ u path query, httpParserParseUrl url = some u ∧ extractField url u.path = some path ∧
    qsParseUrl url = .ok (if path = lit "/" then [] else path, query)

/-- A `?` in the host comes before any `/`, what stands before it is a host, and a URL may have the bytes from it on. -/
structure UrlRequest.RunsIntoQuery (ctx : Context) (r : UrlRequest) : Prop where
  mark : '?'.toUInt8 ∈ (r.args ctx).host.takeWhile (· ≠ '/'.toUInt8)
  host : (httpParserParseUrl (lit "https://" ++ (r.args ctx).host.takeWhile (· ≠ '?'.toUInt8))).isSome = true
  rest : ((r.args ctx).url.dropWhile (· ≠ '?'.toUInt8)).all inUrl = true

namespace UrlPathAux

open ObjectUrlAux

/-- A URL that fits an `int` is split safely when the parser refuses it or finds a path. -/
theorem splitSafely_iff (url : Str) :
    SplitSafely url ↔ url.length < 2 ^ 31 ∧ ∀ u, httpParserParseUrl url = some u → u.path.isSome = true := by
  unfold SplitSafely qsParseUrl
  by_cases hlen : 2 ^ 31 ≤ url.length
  · refine iff_of_false ?_ (fun h => by omega)
    rw [if_pos hlen]
    rintro (⟨_, msg, h⟩ | ⟨u, path, query, _, _, h⟩) <;> cases h
  · rw [if_neg hlen]
    cases hparse : httpParserParseUrl url with
    | none =>
      refine iff_of_true (Or.inl ⟨rfl, _, rfl⟩) ⟨by omega, ?_⟩
      intro u hu
      cases hu
    | some u =>
      dsimp only
      cases hpath : u.path with
      | none =>
        refine iff_of_false ?_ (fun h => ?_)
        · rintro (⟨h, _⟩ | ⟨u', path, query, hu', hfield, _⟩)
          · cases h
          · cases hu'
            rw [hpath] at hfield
            cases hfield
        · have := h.2 u rfl
          rw [hpath] at this
          cases this
      | some s =>
        refine iff_of_true (Or.inr ⟨u, _, _, rfl, by rw [hpath]; rfl, rfl⟩) ⟨by omega, ?_⟩
        intro u' hu'
        cases hu'
        rw [hpath]
        rfl

/-- Every URL is a host, a `/` and more. -/
theorem args_url {ctx : Context} (h : ctx.Made) (r : UrlRequest) :
    ∃ t, (r.args ctx).url = lit "https://" ++ ((r.args ctx).host ++ '/'.toUInt8 :: t) := by
  have hbase : ctx.mConfiguration.mProtocol ++ lit "://" = lit "https://" := by
    rw [made_https h]
    rfl
  have hslash : lit "/" = ['/'.toUInt8] := rfl
  cases r with
  | listBuckets location =>
    refine ⟨[], ?_⟩
    simp [UrlRequest.args, hbase, hslash]
  | listObjects bucket keyPrefix currentMarker =>
    have hkeys : lit "/?prefix=" = '/'.toUInt8 :: lit "?prefix=" := rfl
    have hmarker : lit "/?marker=" = '/'.toUInt8 :: lit "?marker=" := rfl
    simp only [UrlRequest.args, listArgs, Configuration.listUrl, hbase]
    split
    · split
      · exact ⟨lit "?prefix=" ++ keyPrefix, by simp [hkeys]⟩
      · exact ⟨lit "?marker=" ++ currentMarker ++ lit "&prefix=" ++ keyPrefix, by simp [hmarker]⟩
    · split
      · exact ⟨[], by simp [hslash]⟩
      · exact ⟨lit "?marker=" ++ currentMarker, by simp [hmarker]⟩
  | createBucket location bucket | deleteBucket location bucket =>
    refine ⟨[], ?_⟩
    simp [UrlRequest.args, bucketArgs, hbase, hslash]
  | deleteObject bucket key | headObject bucket key | getObject bucket key =>
    exact ⟨key, objectUrl_eq h bucket key⟩
  | initMultipartUpload bucket key =>
    refine ⟨key ++ lit "?uploads", ?_⟩
    simp only [UrlRequest.args, initArgs, Configuration.initUrl, objectUrl_eq h]
    simp
  | uploadMultipart w | completeMultipartUpload w | abortMultipartUpload w =>
    simp only [UrlRequest.args, QingStorWriter.partArgs, QingStorWriter.uploadArgs, QingStorWriter.url, objectUrl_eq h]
    exact ⟨_, by simp; rfl⟩

/-! ### A `?` before any `/` -/

/-- The parser on a host that runs into a `?`. -/
theorem parse_runsIntoQuery {host : Str} (t : Str) (hslash : '/'.toUInt8 ∉ host) (hmark : '?'.toUInt8 ∉ host) :
    (httpParserParseUrl (lit "https://" ++ host ++ '?'.toUInt8 :: t)).isSome =
        ((httpParserParseUrl (lit "https://" ++ host)).isSome && t.all inUrl) ∧
      ∀ u, httpParserParseUrl (lit "https://" ++ host ++ '?'.toUInt8 :: t) = some u → u.path = none := by
  obtain ⟨z₀, hstart, hserver⟩ := over_https
  have hscan : ∀ s : Str, scanUrl (lit "https://" ++ s) = z₀.over s := by
    intro s
    have happend := UrlScan.over_append .start (lit "https://") s
    rw [hstart, Option.bind_some] at happend
    exact happend
  cases hover : z₀.over host with
  | none =>
    have hshort : scanUrl (lit "https://" ++ host) = none := (hscan host).trans hover
    have hwhole : scanUrl (lit "https://" ++ host ++ '?'.toUInt8 :: t) = none := by
      rw [List.append_assoc, hscan, UrlScan.over_append, hover]
      rfl
    refine ⟨by rw [httpParserParseUrl_eq, httpParserParseUrl_eq, hshort, hwhole]; rfl, ?_⟩
    intro u hu
    rw [httpParserParseUrl_eq, hwhole] at hu
    cases hu
  | some z =>
    have hin := over_host hserver hslash hmark hover
    have hshort : scanUrl (lit "https://" ++ host) = some z := (hscan host).trans hover
    refine ⟨httpParserParseUrl_mark t hshort hin, ?_⟩
    intro u hu
    obtain ⟨z', hz', hpath, -⟩ := httpParserParseUrl_some hu
    rw [List.append_assoc, hscan, UrlScan.over_append, hover, Option.bind_some, UrlScan.over_cons, server_mark hin,
      Option.bind_some] at hz'
    rw [hpath, (over_late rfl hz').2]
    exact hin.path

/-- The parser on a host that runs into a `/`. -/
theorem parse_path {host : Str} {t : Str} {u : HttpParserUrl} (hslash : '/'.toUInt8 ∉ host) (hmark : '?'.toUInt8 ∉ host)
    (hu : httpParserParseUrl (lit "https://" ++ (host ++ '/'.toUInt8 :: t)) = some u) : u.path.isSome = true := by
  obtain ⟨z', hz', hpath, -⟩ := httpParserParseUrl_some hu
  obtain ⟨z₀, h0, hover⟩ := UrlScan.over_append_some hz'
  obtain ⟨z₀', h0', hserver⟩ := over_https
  obtain rfl : z₀ = z₀' := Option.some.inj (h0.symm.trans h0')
  obtain ⟨z₁, h1, hrest⟩ := UrlScan.over_append_some hover
  have hin := over_host hserver hslash hmark h1
  rw [UrlScan.over_cons, Option.bind_eq_some_iff] at hrest
  obtain ⟨z₂, h2, hrest⟩ := hrest
  rcases server_step hin h2 with ⟨_, hstart⟩ | ⟨hne, _⟩ | ⟨hne, _⟩
  · rw [hpath, (over_path hstart hrest).1]
    rfl
  · exact absurd hne (by decide)
  · exact absurd rfl hne

/-- Where a byte comes before any of another one. -/
theorem first_of_mem_takeWhile {c d : Byte} {s : Str} (h : d ∈ s.takeWhile (· ≠ c)) :
    ∃ before behind, s = before ++ d :: behind ∧ c ∉ before ∧ d ∉ before := by
  obtain ⟨rest, hrest⟩ : ∃ rest, s.takeWhile (· ≠ c) ++ rest = s := List.takeWhile_prefix _
  obtain ⟨before, behind, hsplit, hnot⟩ := List.eq_append_cons_of_mem h
  refine ⟨before, behind ++ rest, ?_, ?_, hnot⟩
  · rw [← hrest, hsplit, List.append_assoc, List.cons_append]
  · intro hmem
    have hc : c ∈ s.takeWhile (· ≠ c) := by
      rw [hsplit]
      exact List.mem_append_left _ hmem
    simpa using List.mem_takeWhile_imp hc

/-- A URL from its first `?` on. -/
theorem dropWhile_mark {host : Str} (t : Str) (hmark : '?'.toUInt8 ∉ host) :
    (lit "https://" ++ host ++ '?'.toUInt8 :: t).dropWhile (· ≠ '?'.toUInt8) = '?'.toUInt8 :: t := by
  have hall : ∀ c ∈ lit "https://" ++ host, decide (c ≠ '?'.toUInt8) = true := by
    intro c hc
    rw [decide_eq_true_eq]
    rintro rfl
    rcases List.mem_append.1 hc with hc | hc
    · exact absurd hc (by decide)
    · exact hmark hc
  rw [List.dropWhile_append_of_pos hall, List.dropWhile_cons_of_neg (by simp)]

/-- Where the `?` comes first, a path is found only if nothing is. -/
theorem path_isSome_iff_of_mark {host t : Str} (hslash : '/'.toUInt8 ∉ host) (hmark : '?'.toUInt8 ∉ host) :
    (∀ u, httpParserParseUrl (lit "https://" ++ host ++ '?'.toUInt8 :: t) = some u → u.path.isSome = true) ↔
      ¬ ((httpParserParseUrl (lit "https://" ++ host)).isSome = true ∧ ('?'.toUInt8 :: t).all inUrl = true) := by
  obtain ⟨hiff, hnone⟩ := parse_runsIntoQuery t hslash hmark
  have hbytes : ('?'.toUInt8 :: t).all inUrl = t.all inUrl := by
    rw [List.all_cons, show inUrl '?'.toUInt8 = true by decide, Bool.true_and]
  rw [hbytes, ← Bool.and_eq_true_iff, ← hiff]
  constructor
  · intro hall hsome
    obtain ⟨u, hu⟩ := Option.isSome_iff_exists.1 hsome
    have hpath := hall u hu
    rw [hnone u hu] at hpath
    cases hpath
  · intro hno u hu
    rw [hu] at hno
    exact absurd rfl hno

/-- The URL of a request, by what comes first in its host. -/
theorem path_isSome_iff {ctx : Context} (h : ctx.Made) (r : UrlRequest) :
    (∀ u, httpParserParseUrl (r.args ctx).url = some u → u.path.isSome = true) ↔ ¬ r.RunsIntoQuery ctx := by
  obtain ⟨t, hurl⟩ := args_url h r
  by_cases hmark : '?'.toUInt8 ∈ (r.args ctx).host.takeWhile (· ≠ '/'.toUInt8)
  · obtain ⟨host, query, hhost, hslash, hnot⟩ := first_of_mem_takeWhile hmark
    have hbefore : (r.args ctx).host.takeWhile (· ≠ '?'.toUInt8) = host := by
      rw [hhost]
      exact takeWhile_of_split query hnot
    have hwhole : (r.args ctx).url = lit "https://" ++ host ++ '?'.toUInt8 :: (query ++ '/'.toUInt8 :: t) := by
      rw [hurl, hhost]
      simp
    have hbehind : (r.args ctx).url.dropWhile (· ≠ '?'.toUInt8) = '?'.toUInt8 :: (query ++ '/'.toUInt8 :: t) := by
      rw [hwhole]
      exact dropWhile_mark _ hnot
    rw [hwhole, path_isSome_iff_of_mark hslash hnot, ← hbehind, ← hbefore]
    exact not_congr ⟨fun hruns => ⟨hmark, hruns.1, hruns.2⟩, fun hruns => ⟨hruns.host, hruns.rest⟩⟩
  · refine iff_of_true ?_ (fun hruns => hmark hruns.mark)
    intro u hu
    obtain ⟨host, path, hsplit, hno⟩ :=
      List.eq_append_cons_of_mem (List.mem_append_right (r.args ctx).host (List.mem_cons_self (a := '/'.toUInt8) (l := t)))
    have hbefore : (r.args ctx).host.takeWhile (· ≠ '/'.toUInt8) = host := by
      rw [← takeWhile_append_cons '/'.toUInt8 (r.args ctx).host t, hsplit]
      exact takeWhile_of_split path hno
    rw [hbefore] at hmark
    rw [hurl, hsplit] at hu
    exact parse_path hno hmark hu

end UrlPathAux

open UrlPathAux

/-- Exactly when the URL of a request is split safely. -/
theorem url_path_iff (ctx : Context) (r : UrlRequest) (hmade : ctx.Made) :
    SplitSafely (r.args ctx).url ↔ (r.args ctx).url.length < 2 ^ 31 ∧ ¬ r.RunsIntoQuery ctx := by
  rw [splitSafely_iff, path_isSome_iff hmade]

/-- A host that begins with letters, digits, `.` and `-` and has a `?` behind them is enough, with bytes a URL may have. -/
theorem runsIntoQuery_of_plain {ctx : Context} {r : UrlRequest} {host rest : Str}
    (hsplit : (r.args ctx).host = host ++ '?'.toUInt8 :: rest) (hne : host ≠ []) (hhost : ∀ c ∈ host, isHostChar c = true)
    (hlen : host.length < 2 ^ 16) (hbytes : ((r.args ctx).url.dropWhile (· ≠ '?'.toUInt8)).all inUrl = true) :
    r.RunsIntoQuery ctx := by
  have hslash : ∀ c ∈ host, decide (c ≠ '/'.toUInt8) = true :=
    fun c hc => decide_eq_true (ne_of_isHostChar (hhost c hc) (by decide))
  have hmark : '?'.toUInt8 ∉ host := fun hmem => ne_of_isHostChar (hhost _ hmem) (by decide) rfl
  refine ⟨?_, ?_, hbytes⟩
  · rw [hsplit, List.takeWhile_append_of_pos hslash, List.takeWhile_cons_of_pos (by decide)]
    simp
  · rw [hsplit, ObjectUrlAux.takeWhile_of_split rest hmark]
    exact httpParserParseUrl_hostChars hne hhost hlen

/-- The general statement for a bucket whose name is a host label. -/
theorem url_path_iff_bucket : SplitSafely ((UrlRequest.createBucket [] (lit "b")).args ObjectUrlAux.pek3a).url :=
  (url_path_iff ObjectUrlAux.pek3a (.createBucket [] (lit "b")) ObjectUrlAux.pek3a_made).2
    ⟨by decide, fun h => absurd h.mark (by decide)⟩

/-- The bucket `a?b` has the URL `https://a?b.pek3a.qingstor.com/`, which is a query after a host. -/
theorem url_path_false : ¬ ∀ (ctx : Context) (r : UrlRequest), ctx.Made → SplitSafely (r.args ctx).url := by
  intro h
  have hsafe := h ObjectUrlAux.pek3a (.createBucket [] (lit "a?b")) ObjectUrlAux.pek3a_made
  have hfound : qsParseUrl ((UrlRequest.createBucket [] (lit "a?b")).args ObjectUrlAux.pek3a).url =
      .error (.undefined "strlen of a null path") := by
    decide
  rcases hsafe with ⟨_, msg, hrefused⟩ | ⟨u, path, query, _, _, hok⟩
  · rw [hfound] at hrefused
    cases hrefused
  · rw [hfound] at hok
    cases hok

end QingStor
