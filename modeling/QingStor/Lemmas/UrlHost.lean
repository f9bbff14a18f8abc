import QingStor.Lemmas.Url

/-!
# A host with a query behind it

A URL whose host runs into a `?` has no path. The parser takes it exactly when it takes what stands before the `?` and the bytes
behind it are bytes of a query: `http_parse_host` and the port read nothing beyond the host.
-/

namespace QingStor

/-! ## What every field satisfies -/

/-- A property of a field and of the position the scan is at, which the scan keeps. -/
structure SpanInvariant (P : Nat → Span → Prop) : Prop where
  opened : ∀ pos, P (pos + 1) ⟨pos % 2 ^ 16, 1⟩
  bumped : ∀ pos s, P pos s → P (pos + 1) { s with len := (s.len + 1) % 2 ^ 16 }
  kept : ∀ pos s, P pos s → P (pos + 1) s

/-- Every field that is set has the property. -/
def HttpParserUrl.Fields (u : HttpParserUrl) (p : Span → Prop) : Prop := ∀ f s, u.get f = some s → p s

/-- A field that was set, among the others. -/
theorem get_set (u : HttpParserUrl) (f g : UrlField) (s : Span) : (u.set f s).get g = if g = f then some s else u.get g := by
  cases f <;> cases g <;> rfl

/-- What holds of all fields holds when one of them is set to something it holds of. -/
theorem fields_set {u : HttpParserUrl} {p : Span → Prop} (hu : u.Fields p) (f : UrlField) {s : Span} (hs : p s) :
    (u.set f s).Fields p := by
  intro g t hg
  rw [get_set] at hg
  split at hg
  · cases hg
    exact hs
  · exact hu g t hg

/-- An invariant of the fields goes through a step of the scan. -/
theorem fields_step {P : Nat → Span → Prop} (hP : SpanInvariant P) {z z' : UrlScan} {c : Byte} (hz : z.u.Fields (P z.pos))
    (h : urlStep z c = some z') : z'.u.Fields (P z'.pos) := by
  have hkept : z.u.Fields (P (z.pos + 1)) := fun f s hs => hP.kept z.pos s (hz f s hs)
  unfold urlStep at h
  dsimp only at h
  split at h
  · cases h
  · split at h
    · cases h
      exact hkept
    · split at h <;> cases h
      · dsimp only
        unfold HttpParserUrl.bump
        split
        · rename_i s hs
          exact fields_set hkept _ (hP.bumped z.pos s (hz _ s hs))
        · exact hkept
      · exact fields_set hkept _ (hP.opened z.pos)

/-- So it goes through the scan of a text. -/
theorem fields_over {P : Nat → Span → Prop} (hP : SpanInvariant P) {z z' : UrlScan} {s : Str} (hz : z.u.Fields (P z.pos))
    (h : z.over s = some z') : z'.u.Fields (P z'.pos) := by
  induction s generalizing z with
  | nil =>
    cases h
    exact hz
  | cons c s ih =>
    rw [UrlScan.over_cons, Option.bind_eq_some_iff] at h
    obtain ⟨z₁, h1, h2⟩ := h
    exact ih (fields_step hP hz h1) h2

/-- The fields of a whole scan. -/
theorem fields_scanUrl {P : Nat → Span → Prop} (hP : SpanInvariant P) {url : Str} {z : UrlScan} (h : scanUrl url = some z) :
    z.u.Fields (P z.pos) := by
  refine fields_over hP (fun f s hs => ?_) h
  cases f <;> cases hs

/-- A field lies in what was scanned. -/
theorem span_within : SpanInvariant (fun pos s => s.off + s.len ≤ pos) where
  opened pos := Nat.add_le_add_right (Nat.mod_le _ _) 1
  bumped pos s h := by
    have := Nat.mod_le (s.len + 1) (2 ^ 16)
    show s.off + (s.len + 1) % 2 ^ 16 ≤ pos + 1
    omega
  kept pos s h := Nat.le_succ_of_le h

/-! ## Up to the delimiter -/

/-- Over bytes that are no delimiter the scan stays in the host. -/
theorem over_host {z z' : UrlScan} {pos : Nat} {s : Str} (hz : z.InServer pos) (hslash : '/'.toUInt8 ∉ s)
    (hmark : '?'.toUInt8 ∉ s) (h : z.over s = some z') : z'.InServer (pos + s.length) := by
  induction s generalizing z pos with
  | nil =>
    cases h
    exact hz
  | cons c s ih =>
    rw [UrlScan.over_cons, Option.bind_eq_some_iff] at h
    obtain ⟨z₁, h1, h2⟩ := h
    rcases server_step hz h1 with ⟨rfl, _⟩ | ⟨rfl, _⟩ | ⟨_, hin⟩
    · exact absurd (List.mem_cons_self ..) hslash
    · exact absurd (List.mem_cons_self ..) hmark
    · rw [List.length_cons, Nat.add_comm s.length 1, ← Nat.add_assoc]
      exact ih hin (fun hm => hslash (List.mem_cons_of_mem _ hm)) (fun hm => hmark (List.mem_cons_of_mem _ hm)) h2

/-- The `?` behind a host. -/
theorem server_mark {z : UrlScan} {pos : Nat} (hz : z.InServer pos) :
    urlStep z '?'.toUInt8 = some { z with s := .queryStringStart, pos := z.pos + 1 } := by
  have hc : parseUrlChar z.s '?'.toUInt8 = .queryStringStart := by
    rcases hz.s with hs | hs | hs <;> rw [hs] <;> decide
  unfold urlStep
  rw [hc]
  simp [UrlState.field]

/-! ## `http_parse_host`, whatever the query and the fragment are -/

/-- A field in front of the query grows whatever the query and the fragment are. -/
theorem withRest_bump (u : HttpParserUrl) (q r : Option Span) {f : UrlField} (hq : f ≠ .query) (hr : f ≠ .fragment) :
    (u.withRest q r).bump f = (u.bump f).withRest q r := by
  have hget : (u.withRest q r).get f = u.get f := by
    cases f <;> first | rfl | exact absurd rfl hq | exact absurd rfl hr
  unfold HttpParserUrl.bump
  rw [hget]
  cases u.get f with
  | none => rfl
  | some s => cases f <;> first | rfl | exact absurd rfl hq | exact absurd rfl hr

/-- So it is opened. -/
theorem withRest_open (u : HttpParserUrl) (q r : Option Span) {f : UrlField} (pos : Nat) (hq : f ≠ .query) (hr : f ≠ .fragment) :
    (u.withRest q r).open f pos = (u.open f pos).withRest q r := by
  cases f <;> first | rfl | exact absurd rfl hq | exact absurd rfl hr

/-- The scan of a host with another query and fragment. -/
def HostScan.withRest (z : HostScan) (q r : Option Span) : HostScan := { z with u := z.u.withRest q r }

/-- The scan of a host does not look at the query and the fragment. -/
theorem hostStep_withRest (z : HostScan) (q r : Option Span) (c : Byte) :
    hostStep (z.withRest q r) c = (hostStep z c).map (fun z => z.withRest q r) := by
  have hbump : ∀ {f : UrlField}, f ≠ .query → f ≠ .fragment → (z.u.withRest q r).bump f = (z.u.bump f).withRest q r :=
    fun hq hr => withRest_bump z.u q r hq hr
  have hopen : ∀ {f : UrlField}, f ≠ .query → f ≠ .fragment →
      (z.u.withRest q r).open f z.pos = (z.u.open f z.pos).withRest q r :=
    fun hq hr => withRest_open z.u q r z.pos hq hr
  unfold hostStep HostScan.withRest
  dsimp only
  cases httpParseHostChar z.s c with
  | dead => rfl
  | host | hostV6 =>
    dsimp only
    split
    · rw [hbump (by decide) (by decide)]
      rfl
    · rfl
  | hostV6ZoneStart | hostV6Zone =>
    dsimp only
    rw [hbump (by decide) (by decide)]
    rfl
  | hostPort | userinfo =>
    dsimp only
    split
    · rw [hbump (by decide) (by decide)]
      rfl
    · rw [hopen (by decide) (by decide)]
      rfl
  | userinfoStart | hostStart | hostV6Start | hostV6End | hostPortStart => rfl

/-- Nor does the scan of a whole authority. -/
theorem foldlM_hostStep_withRest (z : HostScan) (q r : Option Span) (s : Str) :
    s.foldlM hostStep (z.withRest q r) = (s.foldlM hostStep z).map (fun z => z.withRest q r) := by
  induction s generalizing z with
  | nil => rfl
  | cons c s ih =>
    rw [List.foldlM_cons, List.foldlM_cons, hostStep_withRest]
    cases hostStep z c with
    | none => rfl
    | some z₁ => exact ih z₁

/-- Nor does `http_parse_host`. -/
theorem httpParseHost_withRest (buf : Str) (u : HttpParserUrl) (q r : Option Span) (h : Span) (foundAt : Bool) :
    httpParseHost buf (u.withRest q r) h foundAt = (httpParseHost buf u h foundAt).map (fun u => u.withRest q r) := by
  unfold httpParseHost
  dsimp only
  generalize hstart : (⟨if foundAt then .userinfoStart else .hostStart, h.off, { u with host := some { h with len := 0 } }⟩ :
    HostScan) = start
  have hrest : (⟨if foundAt then .userinfoStart else .hostStart, h.off,
      { u.withRest q r with host := some { h with len := 0 } }⟩ : HostScan) = start.withRest q r := by
    rw [← hstart]
    rfl
  rw [hrest, foldlM_hostStep_withRest]
  cases ((buf.drop h.off).take h.len).foldlM hostStep start with
  | none => rfl
  | some z =>
    dsimp only [Option.map_some]
    cases hs : z.s.unfinished with
    | true => simp [HostScan.withRest, hs]
    | false => simp [HostScan.withRest, hs]

/-! ## What is read lies before the delimiter -/

/-- A host in the front part of a text is parsed as in the front part alone. -/
theorem httpParseHost_append (s t : Str) (u : HttpParserUrl) {h : Span} (foundAt : Bool) (hin : h.off + h.len ≤ s.length) :
    httpParseHost (s ++ t) u h foundAt = httpParseHost s u h foundAt := by
  have hwindow : ((s ++ t).drop h.off).take h.len = (s.drop h.off).take h.len := by
    rw [List.drop_append_of_le_length (by omega), List.take_append_of_le_length (by rw [List.length_drop]; omega)]
  unfold httpParseHost
  rw [hwindow]

/-- The port, if there is one, begins before `n`. -/
def HttpParserUrl.PortBefore (u : HttpParserUrl) (n : Nat) : Prop := ∀ p, u.port = some p → p.off ≤ n

/-- A field that grows does not move the start of the port. -/
theorem portBefore_bump {u : HttpParserUrl} {n : Nat} (f : UrlField) (h : u.PortBefore n) : (u.bump f).PortBefore n := by
  unfold HttpParserUrl.bump
  split
  · rename_i s hs
    cases f with
    | port =>
      intro p hp
      cases hp
      exact h s hs
    | _ => exact h
  · exact h

/-- A field that is opened in front of an end starts in front of it. -/
theorem portBefore_open {u : HttpParserUrl} {n pos : Nat} (f : UrlField) (h : u.PortBefore n) (hpos : pos ≤ n) :
    (u.open f pos).PortBefore n := by
  cases f with
  | port =>
    intro p hp
    cases hp
    exact (Nat.mod_le _ _).trans hpos
  | _ => exact h

/-- A step of the scan of a host keeps the start of the port in front of the end. -/
theorem hostStep_port {z z' : HostScan} {n : Nat} {c : Byte} (hz : z.u.PortBefore n) (hpos : z.pos ≤ n)
    (h : hostStep z c = some z') : z'.u.PortBefore n ∧ z'.pos = z.pos + 1 := by
  unfold hostStep at h
  dsimp only at h
  split at h
  · cases h
  all_goals cases h
  all_goals refine ⟨?_, rfl⟩
  all_goals dsimp only
  all_goals first
    | exact hz
    | exact portBefore_bump _ hz
    | (split <;> first | exact portBefore_bump _ hz | exact portBefore_open _ hz hpos | exact hz)

/-- So does the scan of an authority. -/
theorem foldlM_hostStep_port {z z' : HostScan} {n : Nat} {s : Str} (hz : z.u.PortBefore n) (hpos : z.pos + s.length ≤ n)
    (h : s.foldlM hostStep z = some z') : z'.u.PortBefore n := by
  induction s generalizing z with
  | nil =>
    cases h
    exact hz
  | cons c s ih =>
    rw [List.foldlM_cons] at h
    obtain ⟨z₁, h1, h2⟩ := Option.bind_eq_some_iff.1 h
    rw [List.length_cons] at hpos
    obtain ⟨hport, hnext⟩ := hostStep_port hz (by omega) h1
    exact ih hport (by omega) h2

/-- So does `http_parse_host`. -/
theorem httpParseHost_port {buf : Str} {u u' : HttpParserUrl} {h : Span} {foundAt : Bool} {n : Nat} (hu : u.PortBefore n)
    (hin : h.off + h.len ≤ n) (heq : httpParseHost buf u h foundAt = some u') : u'.PortBefore n := by
  unfold httpParseHost at heq
  dsimp only at heq
  split at heq
  · cases heq
  · rename_i z hz
    split at heq
    · cases heq
    · cases heq
      refine foldlM_hostStep_port hu ?_ hz
      have := List.length_take_le h.len (buf.drop h.off)
      dsimp only
      omega

/-- `strtoul` stops at a `?`. -/
theorem strtoulDigits_mark (acc : Nat) (s t : Str) : strtoulDigits acc (s ++ '?'.toUInt8 :: t) = strtoulDigits acc s := by
  have hmark : isNum '?'.toUInt8 = false := by decide
  induction s generalizing acc with
  | nil => simp [strtoulDigits, hmark]
  | cons c s ih =>
    rw [List.cons_append, strtoulDigits, strtoulDigits]
    split
    · exact ih _
    · rfl

/-- `strtoul` stops at a `?`. -/
theorem strtoul_mark (s t : Str) : strtoul (s ++ '?'.toUInt8 :: t) = strtoul s := by
  cases s with
  | nil =>
    have hfirst := strtoulDigits_mark 0 [] t
    rw [List.nil_append] at hfirst ⊢
    show strtoul ('?'.toUInt8 :: t) = 0
    rw [strtoul, if_neg (by decide), if_neg (by decide), hfirst]
    rfl
  | cons c s =>
    have hfirst := strtoulDigits_mark 0 (c :: s) t
    rw [List.cons_append] at hfirst ⊢
    rw [strtoul, strtoul, strtoulDigits_mark]
    split
    · rfl
    · split
      · rw [strtoulDigits_mark]
      · rw [hfirst]

/-! ## The parser on such a URL -/

/-- The last test of `http_parser_parse_url`. -/
def HttpParserUrl.checkPort (u : HttpParserUrl) (buf : Str) : Option HttpParserUrl :=
  match u.port with
  | some p => if strtoul (buf.drop p.off) > 0xffff then none else some u
  | none => some u

/-- `http_parse_host`, for a URL with a host. -/
def UrlScan.parseHost (z : UrlScan) (buf : Str) : Option HttpParserUrl :=
  match z.u.host with
  | some h => httpParseHost buf z.u h z.foundAt
  | none => some z.u

/-- `http_parser_parse_url` after its loop. -/
def UrlScan.finish (z : UrlScan) (buf : Str) : Option HttpParserUrl :=
  if z.u.schema.isSome ∧ z.u.host.isNone then none else (z.parseHost buf).bind (fun u => u.checkPort buf)

/-- `http_parser_parse_url` is a scan, and what is made of it at the end. -/
theorem httpParserParseUrl_eq (buf : Str) : httpParserParseUrl buf = (scanUrl buf).bind (fun z => z.finish buf) := by
  unfold httpParserParseUrl
  cases scanUrl buf with
  | none => rfl
  | some z =>
    unfold UrlScan.finish UrlScan.parseHost
    dsimp only [Option.bind_some]
    split
    · rfl
    · cases z.u.host with
      | none => rfl
      | some h =>
        dsimp only
        cases httpParseHost buf z.u h z.foundAt <;> rfl

/-- The port is read from a place before the `?`. -/
theorem checkPort_mark (u : HttpParserUrl) (q r : Option Span) {s : Str} (t : Str) (hu : u.PortBefore s.length) :
    ((u.withRest q r).checkPort (s ++ '?'.toUInt8 :: t)).isSome = (u.checkPort s).isSome := by
  have hsame : (u.withRest q r).port = u.port := rfl
  unfold HttpParserUrl.checkPort
  rw [hsame]
  cases hp : u.port with
  | none => rfl
  | some p =>
    dsimp only
    rw [List.drop_append_of_le_length (hu p hp), strtoul_mark]
    split <;> rfl

/-- The host is read from a place before the `?`. -/
theorem parseHost_mark {z z' : UrlScan} {q r : Option Span} {s : Str} (t : Str) (hu : z'.u = z.u.withRest q r)
    (hat : z'.foundAt = z.foundAt) (hin : z.u.Fields (fun f => f.off + f.len ≤ s.length)) :
    z'.parseHost (s ++ '?'.toUInt8 :: t) = (z.parseHost s).map (fun u => u.withRest q r) ∧
      ∀ u, z.parseHost s = some u → u.PortBefore s.length := by
  have hbefore : z.u.PortBefore s.length := by
    intro p hp
    exact (Nat.le_add_right _ _).trans (hin .port p hp)
  have hsame : z'.u.host = z.u.host := by
    rw [hu]
    rfl
  unfold UrlScan.parseHost
  rw [hsame]
  cases hhost : z.u.host with
  | none =>
    refine ⟨congrArg some hu, ?_⟩
    intro u hsome
    cases hsome
    exact hbefore
  | some h =>
    have hwithin := hin .host h hhost
    dsimp only
    rw [httpParseHost_append s _ _ _ hwithin, hu, hat, httpParseHost_withRest]
    exact ⟨rfl, fun u hsome => httpParseHost_port hbefore hwithin hsome⟩

/-- What comes after the loop is the same for the text before a `?`. -/
theorem finish_mark {z z' : UrlScan} {s : Str} (t : Str) (hpast : z.Past z')
    (hin : z.u.Fields (fun f => f.off + f.len ≤ s.length)) :
    (z'.finish (s ++ '?'.toUInt8 :: t)).isSome = (z.finish s).isSome := by
  obtain ⟨q, r, hu⟩ := hpast.u
  obtain ⟨hparsed, hport⟩ := parseHost_mark t hu hpast.foundAt hin
  have hschema : z'.u.schema = z.u.schema := by
    rw [hu]
    rfl
  have hhost : z'.u.host = z.u.host := by
    rw [hu]
    rfl
  unfold UrlScan.finish
  rw [hschema, hhost, hparsed]
  split
  · rfl
  · cases hsome : z.parseHost s with
    | none => rfl
    | some u => exact checkPort_mark u q r t (hport u hsome)

/-- The scan of a text moves on by its length. -/
theorem pos_over {z z' : UrlScan} {s : Str} (h : z.over s = some z') : z'.pos = z.pos + s.length := by
  induction s generalizing z with
  | nil =>
    cases h
    rfl
  | cons c s ih =>
    rw [UrlScan.over_cons, Option.bind_eq_some_iff] at h
    obtain ⟨z₁, h1, h2⟩ := h
    have hnext : z₁.pos = z.pos + 1 := by
      unfold urlStep at h1
      dsimp only at h1
      split at h1
      · cases h1
      · split at h1
        · cases h1
          rfl
        · split at h1 <;> cases h1 <;> rfl
    rw [ih h2, hnext, List.length_cons]
    omega

/-- The parser takes a URL whose host runs into a `?` exactly when it takes what stands before, and a URL may have the bytes
behind. -/
theorem httpParserParseUrl_mark {s : Str} (t : Str) {z : UrlScan} {pos : Nat} (hz : scanUrl s = some z)
    (hserver : z.InServer pos) :
    (httpParserParseUrl (s ++ '?'.toUInt8 :: t)).isSome = ((httpParserParseUrl s).isSome && t.all inUrl) := by
  have hin : z.u.Fields (fun f => f.off + f.len ≤ s.length) := by
    have hpos := pos_over hz
    rw [show UrlScan.start.pos = 0 from rfl, Nat.zero_add] at hpos
    have hall := fields_scanUrl span_within hz
    rwa [hpos] at hall
  have hscan : scanUrl (s ++ '?'.toUInt8 :: t) =
      ({ z with s := .queryStringStart, pos := z.pos + 1 } : UrlScan).over t := by
    have happend := UrlScan.over_append .start s ('?'.toUInt8 :: t)
    rw [show UrlScan.start.over s = some z from hz, Option.bind_some, UrlScan.over_cons, server_mark hserver,
      Option.bind_some] at happend
    exact happend
  have hlate : ({ z with s := .queryStringStart, pos := z.pos + 1 } : UrlScan).s.late = true := rfl
  have hbytes := over_late_isSome hlate t
  rw [httpParserParseUrl_eq, httpParserParseUrl_eq, hscan, hz, Option.bind_some, ← hbytes]
  cases hover : ({ z with s := .queryStringStart, pos := z.pos + 1 } : UrlScan).over t with
  | none => simp
  | some z' =>
    have hpast := over_past hlate hover
    have hpast' : z.Past z' := ⟨hpast.late, hpast.foundAt, hpast.u⟩
    rw [Option.bind_some, finish_mark t hpast' hin]
    simp

/-! ## Hosts that are taken -/

/-- A letter, a digit, a `.` or a `-` is none of the bytes that the two machines treat on their own. -/
theorem ne_of_isHostChar {c d : Byte} (hc : isHostChar c = true) (hd : isHostChar d = false) : c ≠ d := by
  rintro rfl
  rw [hc] at hd
  cases hd

/-- The bytes of a host stay in the server part. -/
theorem parseUrlChar_hostChar {s : UrlState} {c : Byte} (hs : s = .serverStart ∨ s = .server) (hc : isHostChar c = true) :
    parseUrlChar s c = .server := by
  have hne : ∀ d, isHostChar d = false → c ≠ d := fun d hd => ne_of_isHostChar hc hd
  have huser : isUserinfoChar c = true := by
    unfold isHostChar at hc
    simp only [Bool.or_eq_true, decide_eq_true_eq] at hc
    rcases hc with (hc | rfl) | rfl
    · simp [isUserinfoChar, hc]
    · decide
    · decide
  have hserver : parseServerChar c = .server := by
    have hslash := hne '/'.toUInt8 (by decide)
    have hmark := hne '?'.toUInt8 (by decide)
    have hat := hne '@'.toUInt8 (by decide)
    simp [parseServerChar, hslash, hmark, hat, huser]
  unfold parseUrlChar
  have hblank := hne ' '.toUInt8 (by decide)
  have hreturn := hne '\r'.toUInt8 (by decide)
  have hline := hne '\n'.toUInt8 (by decide)
  have htab := hne '\t'.toUInt8 (by decide)
  have hpage := hne 12 (by decide)
  rw [if_neg (by simp [hblank, hreturn, hline]), if_neg (by simp [htab, hpage])]
  rcases hs with rfl | rfl <;> exact hserver

/-- The scan in a host without `@`, after `n` bytes of it. -/
structure UrlScan.InHost (z : UrlScan) (n : Nat) : Prop where
  s : z.s = .server
  oldUf : z.oldUf = some .host
  foundAt : z.foundAt = false
  host : z.u.host = some ⟨8, n⟩
  port : z.u.port = none

/-- They are scanned, and the field of the host grows with them. -/
theorem over_hostChars {z : UrlScan} {n : Nat} {s : Str} (hz : z.InHost n) (hs : ∀ c ∈ s, isHostChar c = true)
    (hlen : n + s.length < 2 ^ 16) : ∃ z', z.over s = some z' ∧ z'.InHost (n + s.length) := by
  induction s generalizing z n with
  | nil => exact ⟨z, rfl, hz⟩
  | cons c s ih =>
    rw [List.length_cons] at hlen
    have hc := parseUrlChar_hostChar (Or.inr hz.s) (hs c (List.mem_cons_self ..))
    have hstep : urlStep z c = some ⟨.server, z.pos + 1, some .host, false, z.u.bump .host⟩ := by
      unfold urlStep
      rw [hc]
      simp [UrlState.field, hz.oldUf, hz.foundAt]
    have hnext : (⟨.server, z.pos + 1, some .host, false, z.u.bump .host⟩ : UrlScan).InHost (n + 1) := by
      refine ⟨rfl, rfl, rfl, ?_, ?_⟩
      · simp only [HttpParserUrl.bump, HttpParserUrl.get, HttpParserUrl.set, hz.host]
        rw [Nat.mod_eq_of_lt (by omega)]
      · simp [HttpParserUrl.bump, HttpParserUrl.get, HttpParserUrl.set, hz.host, hz.port]
    obtain ⟨z', hover, hin⟩ := ih hnext (fun c hc => hs c (List.mem_cons_of_mem _ hc)) (by omega)
    refine ⟨z', ?_, ?_⟩
    · rw [UrlScan.over_cons, hstep]
      exact hover
    · rw [List.length_cons, Nat.add_comm s.length 1, ← Nat.add_assoc]
      exact hin

/-- The scan of a host takes them too, and opens no port. -/
theorem hostStep_hostChar {z : HostScan} {c : Byte} (hz : z.s = .hostStart ∨ z.s = .host) (hc : isHostChar c = true) :
    ∃ z', hostStep z c = some z' ∧ z'.s = .host ∧ z'.u.port = z.u.port := by
  have hchar : httpParseHostChar z.s c = .host := by
    rcases hz with hz | hz <;> rw [hz]
    · simp [httpParseHostChar, hc, ne_of_isHostChar hc (show isHostChar '['.toUInt8 = false by decide)]
    · simp [httpParseHostChar, hc]
  unfold hostStep
  rw [hchar]
  refine ⟨_, rfl, rfl, ?_⟩
  dsimp only
  split
  · unfold HttpParserUrl.bump
    split <;> rfl
  · rfl

/-- So it does one after another. -/
theorem foldlM_hostStep_hostChars {z : HostScan} {s : Str} (hz : z.s = .host) (hs : ∀ c ∈ s, isHostChar c = true) :
    ∃ z', s.foldlM hostStep z = some z' ∧ z'.s = .host ∧ z'.u.port = z.u.port := by
  induction s generalizing z with
  | nil => exact ⟨z, rfl, hz, rfl⟩
  | cons c s ih =>
    obtain ⟨z₁, hstep, hs₁, hport₁⟩ := hostStep_hostChar (Or.inr hz) (hs c (List.mem_cons_self ..))
    obtain ⟨z', hrest, hs', hport'⟩ := ih hs₁ (fun c hc => hs c (List.mem_cons_of_mem _ hc))
    refine ⟨z', ?_, hs', hport'.trans hport₁⟩
    rw [List.foldlM_cons, hstep]
    exact hrest

/-- A host of letters, digits, `.` and `-` is taken. -/
theorem httpParserParseUrl_hostChars {host : Str} (hne : host ≠ []) (hs : ∀ c ∈ host, isHostChar c = true)
    (hlen : host.length < 2 ^ 16) : (httpParserParseUrl (lit "https://" ++ host)).isSome = true := by
  obtain ⟨c, s, rfl⟩ := List.exists_cons_of_ne_nil hne
  rw [List.length_cons] at hlen
  have hc := parseUrlChar_hostChar (Or.inl rfl) (hs c (List.mem_cons_self ..))
  have hrest : ∀ c ∈ s, isHostChar c = true := fun c hc => hs c (List.mem_cons_of_mem _ hc)
  obtain ⟨z₀, hstart, hz₀⟩ : ∃ z, UrlScan.start.over (lit "https://") = some z ∧
      z = ⟨.serverStart, 8, some .schema, false, { schema := some ⟨0, 5⟩ }⟩ := ⟨_, rfl, by decide⟩
  obtain ⟨z₁, hfirst, hin₁⟩ : ∃ z, urlStep z₀ c = some z ∧ z.InHost 1 := by
    refine ⟨⟨.server, 9, some .host, false, { schema := some ⟨0, 5⟩, host := some ⟨8, 1⟩ }⟩, ?_, rfl, rfl, rfl, rfl, rfl⟩
    rw [hz₀]
    unfold urlStep
    rw [hc]
    rfl
  obtain ⟨z, hover, hin⟩ := over_hostChars hin₁ hrest (by omega)
  have hscan : scanUrl (lit "https://" ++ c :: s) = some z := by
    have happend := UrlScan.over_append .start (lit "https://") (c :: s)
    rw [hstart, Option.bind_some, UrlScan.over_cons, hfirst, Option.bind_some, hover] at happend
    exact happend
  have hwindow : ((lit "https://" ++ c :: s).drop 8).take (1 + s.length) = c :: s := by
    rw [List.drop_left' (by decide), List.take_of_length_le (by rw [List.length_cons]; omega)]
  obtain ⟨u, hparsed, hport⟩ : ∃ u, z.parseHost (lit "https://" ++ c :: s) = some u ∧ u.port = none := by
    obtain ⟨z₁, hstep, hs₁, hport₁⟩ := hostStep_hostChar
      (z := ⟨.hostStart, 8, { z.u with host := some ⟨8, 0⟩ }⟩) (Or.inl rfl) (hs c (List.mem_cons_self ..))
    obtain ⟨z', hwhole, hs', hport'⟩ := foldlM_hostStep_hostChars hs₁ hrest
    refine ⟨z'.u, ?_, hport'.trans (hport₁.trans hin.port)⟩
    unfold UrlScan.parseHost httpParseHost
    rw [hin.host, hin.foundAt]
    dsimp only
    rw [hwindow, List.foldlM_cons, if_neg (by decide), hstep]
    dsimp only [Option.bind_eq_bind, Option.bind_some]
    rw [hwhole]
    dsimp only
    rw [hs']
    rfl
  rw [httpParserParseUrl_eq, hscan, Option.bind_some, UrlScan.finish, if_neg (by simp [hin.host]), hparsed, Option.bind_some,
    HttpParserUrl.checkPort, hport]
  rfl

end QingStor
