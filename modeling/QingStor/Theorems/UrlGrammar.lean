import QingStor.Lemmas.HostGrammar

/-!
# Which URLs there are

`http_parser_parse_url` takes the URLs of the grammar and no others, gives each field as the place of its part, and a URL has
one reading only.
-/

namespace QingStor

namespace UrlGrammarAux

open UrlPrefix

/-! ## The bytes of an authority -/

/-- The bytes of the parts of an authority, an `@` apart. -/
def inPart (c : Byte) : Bool := isUserinfoChar c || c = '['.toUInt8 || c = ']'.toUInt8

/-- The bytes of a userinfo, a host name, an address, a zone and a port have no `@`. -/
theorem inPart_userinfo {c : Byte} (h : isUserinfoChar c = true) : inPart c = true := by
  simp [inPart, h]

theorem inPart_alphanum {c : Byte} (h : isAlphanum c = true) : inPart c = true :=
  inPart_userinfo (by simp [isUserinfoChar, h])

theorem inPart_host {c : Byte} (h : isHostChar c = true) : inPart c = true := by
  simp only [isHostChar, Bool.or_eq_true, decide_eq_true_eq] at h
  rcases h with (h | rfl) | rfl
  · exact inPart_alphanum h
  · decide
  · decide

theorem isAlphanum_of_hex {c : Byte} (h : isHex c = true) : isAlphanum c = true := by
  unfold isHex at h
  unfold isAlphanum isAlpha
  rcases Bool.or_eq_true_iff.1 h with h | h
  · rw [h, Bool.or_true]
  · rw [Bool.and_eq_true, decide_eq_true_eq, decide_eq_true_eq] at h
    have hz : lower c ≤ 'z'.toUInt8 := UInt8.le_trans h.2 (by decide)
    simp [h.1, hz]

theorem inPart_v6 {c : Byte} (h : isV6Char c = true) : inPart c = true := by
  simp only [isV6Char, Bool.or_eq_true, decide_eq_true_eq] at h
  rcases h with (h | rfl) | rfl
  · exact inPart_alphanum (isAlphanum_of_hex h)
  · decide
  · decide

theorem inPart_zone {c : Byte} (h : isZoneChar c = true) : inPart c = true := by
  rcases Bool.or_eq_true_iff.1 h with h | h
  · exact inPart_alphanum h
  · have hall : (lit "%.-_~").all inPart = true := by decide
    exact List.all_eq_true.1 hall c (of_decide_eq_true h)

theorem inPart_num {c : Byte} (h : isNum c = true) : inPart c = true := inPart_alphanum (by simp [isAlphanum, h])

/-- Nor has a host. -/
theorem inPart_text {h : HostText} (hw : h.WellFormed) : ∀ c ∈ h.text, inPart c = true := by
  cases h with
  | name n => exact fun c hc => inPart_host (hw.2 c hc)
  | v6 a z =>
    intro c hc
    have hcases : c = '['.toUInt8 ∨ c ∈ a ∨ c ∈ zoneText z ∨ c ∈ lit "]" := by
      simpa [HostText.text, or_assoc] using hc
    rcases hcases with rfl | hc | hc | hc
    · decide
    · exact inPart_v6 (hw.1.2 c hc)
    · cases z with
      | none => cases hc
      | some z =>
        rcases List.mem_cons.1 hc with rfl | hc
        · decide
        · exact inPart_zone ((hw.2 z rfl).2 c hc)
    · have hall : (lit "]").all inPart = true := by decide
      exact List.all_eq_true.1 hall c hc

/-- Nor has a port with its colon. -/
theorem inPart_port {p : Option Str} (hp : ∀ s, p = some s → s ≠ [] ∧ ∀ c ∈ s, isNum c = true) : ∀ c ∈ portText p, inPart c = true := by
  cases p with
  | none => simp [portText]
  | some s =>
    intro c hc
    rcases List.mem_cons.1 hc with rfl | hc
    · decide
    · exact inPart_num ((hp s rfl).2 c hc)

theorem count_at {s : Str} (h : ∀ c ∈ s, inPart c = true) : s.count '@'.toUInt8 = 0 :=
  List.count_eq_zero.2 (fun hm => absurd (h _ hm) (by decide))

/-- An authority has one `@` at most, and has one with its user information. -/
theorem count_text {a : Authority} (ha : a.Read) : a.text.count '@'.toUInt8 = if a.userinfo.isSome then 1 else 0 := by
  have huserinfo : (userinfoText a.userinfo).count '@'.toUInt8 = if a.userinfo.isSome then 1 else 0 := by
    cases hu : a.userinfo with
    | none => rfl
    | some u =>
      have hnone := count_at (fun c hc => inPart_userinfo (ha.userinfo u hu c hc))
      rw [userinfoText, List.count_append, hnone]
      rfl
  rw [Authority.text, List.count_append, List.count_append, count_at (inPart_text ha.host), count_at (inPart_port ha.port), huserinfo]
  rfl

/-- An authority has an `@` exactly when it has a userinfo. -/
theorem contains_at {a : Authority} (ha : a.Read) : a.text.contains '@'.toUInt8 = a.userinfo.isSome := by
  have hcount := count_text ha
  cases hu : a.userinfo.isSome with
  | true =>
    rw [hu] at hcount
    have hpos : 0 < a.text.count '@'.toUInt8 := by
      rw [hcount]
      decide
    simpa using List.count_pos_iff.1 hpos
  | false =>
    rw [hu] at hcount
    have hnot := List.count_eq_zero.1 hcount
    simpa using hnot

/-- An authority has bytes. -/
theorem text_ne {a : Authority} (ha : a.Read) : a.text ≠ [] := by
  have hhost : a.host.text ≠ [] := by
    cases hh : a.host with
    | name n =>
      have hw := ha.host
      rw [hh] at hw
      exact hw.1
    | v6 => simp [HostText.text]
  exact List.append_ne_nil_of_left_ne_nil (List.append_ne_nil_of_right_ne_nil _ hhost) _

/-- The scan of a URL stays in its authority. -/
theorem enclosed_text {a : Authority} (ha : a.Read) : Enclosed a.text := by
  intro x c y hsplit
  have hmem : c ∈ a.text := by
    rw [hsplit]
    simp
  have hin : c = '@'.toUInt8 ∨ inPart c = true := by
    rcases List.mem_append.1 hmem with hm | hm
    · rcases List.mem_append.1 hm with hm | hm
      · cases hu : a.userinfo with
        | none =>
          rw [hu] at hm
          cases hm
        | some u =>
          rw [hu] at hm
          rcases List.mem_append.1 hm with hm | hm
          · exact Or.inr (inPart_userinfo (ha.userinfo u hu c hm))
          · exact Or.inl (List.mem_singleton.1 hm)
      · exact Or.inr (inPart_text ha.host c hm)
    · exact Or.inr (inPart_port ha.port c hm)
  rcases hin with rfl | hin
  · refine ⟨?_, by decide, by decide⟩
    have hcount := count_text ha
    rw [hsplit, List.count_append, List.count_cons_self] at hcount
    have hx : x.count '@'.toUInt8 = 0 := by
      split at hcount <;> omega
    have hlast : x.getLast? ≠ some '@'.toUInt8 := fun hl => List.count_eq_zero.1 hx (List.mem_of_getLast? hl)
    unfold inServer
    rw [if_pos rfl]
    simpa using hlast
  · have hne : ∀ d : Byte, inPart d = false → c ≠ d := by
      rintro d hd rfl
      rw [hin] at hd
      cases hd
    refine ⟨?_, hne _ (by decide), hne _ (by decide)⟩
    unfold inServer
    rw [if_neg (hne _ (by decide))]
    exact hin

/-! ## The port -/

/-- `strtoul` stops where the digits end. -/
theorem strtoulDigits_stop (acc : Nat) (s : Str) {t : Str} (ht : ∀ c, t.head? = some c → isNum c = false) :
    strtoulDigits acc (s ++ t) = strtoulDigits acc s := by
  induction s generalizing acc with
  | nil =>
    cases t with
    | nil => rfl
    | cons c t =>
      rw [List.nil_append, strtoulDigits, if_neg (by rw [ht c rfl]; decide)]
      rfl
  | cons c s ih =>
    rw [List.cons_append, strtoulDigits, strtoulDigits, ih]

/-- `strtoul` reads a number up to what is no digit. -/
theorem strtoul_stop {s t : Str} (hne : s ≠ []) (hs : ∀ c ∈ s, isNum c = true) (ht : ∀ c, t.head? = some c → isNum c = false) :
    strtoul (s ++ t) = strtoul s := by
  obtain ⟨c, rest, rfl⟩ := List.exists_cons_of_ne_nil hne
  have hc := hs c (List.mem_cons_self ..)
  have hminus : c ≠ '-'.toUInt8 := by
    rintro rfl
    exact absurd hc (by decide)
  have hplus : c ≠ '+'.toUInt8 := by
    rintro rfl
    exact absurd hc (by decide)
  have hdigits := strtoulDigits_stop 0 (c :: rest) ht
  rw [List.cons_append] at hdigits ⊢
  rw [strtoul, strtoul, if_neg hminus, if_neg hminus, if_neg hplus, if_neg hplus, hdigits]

/-- What follows a site does not begin with a digit. -/
theorem tail_head {t : UrlTail} (ht : t.WellFormed true) : ∀ c, t.text.head? = some c → isNum c = false := by
  intro c hc
  obtain ⟨path, query, fragment⟩ := t
  cases path with
  | cons d path =>
    obtain rfl : d = c := by simpa [UrlTail.text] using hc
    rcases ht.first d rfl with rfl | ⟨_, h⟩
    · decide
    · cases h
  | nil =>
    cases query with
    | some q =>
      obtain rfl : '?'.toUInt8 = c := by simpa [UrlTail.text, queryText] using hc
      decide
    | none =>
      cases fragment with
      | none => cases hc
      | some f => simpa using (ht.fragment f rfl).1

/-- The last test of the parser, on the fields of an authority. -/
theorem checkPort_iff {s : Str} {a : Authority} {t : UrlTail} (b u : HttpParserUrl) (ha : a.Read) (ht : t.WellFormed true)
    (hlen : (s ++ a.text ++ t.text).length < 2 ^ 16) (hport : b.port = (a.fields s.length {}).port) :
    b.checkPort (s ++ a.text ++ t.text) = some u ↔ (∀ p, a.port = some p → strtoul p ≤ 0xffff) ∧ b = u := by
  unfold HttpParserUrl.checkPort
  rw [hport]
  cases hp : a.port with
  | none =>
    have hno : (a.fields s.length {}).port = none := by
      rw [Authority.fields, hp]
      rfl
    rw [hno]
    simp
  | some p =>
    obtain ⟨hne, hnum⟩ := ha.port p hp
    have hsplit : s ++ a.text ++ t.text = (s ++ userinfoText a.userinfo ++ a.host.text ++ lit ":") ++ (p ++ t.text) := by
      rw [Authority.text, hp, portText, show lit ":" = [':'.toUInt8] from rfl]
      simp
    have hoff : (s ++ userinfoText a.userinfo ++ a.host.text ++ lit ":").length =
        s.length + (userinfoText a.userinfo).length + a.host.text.length + 1 := by
      rw [List.length_append, List.length_append, List.length_append]
      rfl
    have hsome : (a.fields s.length {}).port =
        some ⟨(s ++ userinfoText a.userinfo ++ a.host.text ++ lit ":").length % 2 ^ 16, p.length % 2 ^ 16⟩ := by
      rw [Authority.fields, hp, hoff]
      exact if_neg hne
    have hmod : (s ++ userinfoText a.userinfo ++ a.host.text ++ lit ":").length % 2 ^ 16 =
        (s ++ userinfoText a.userinfo ++ a.host.text ++ lit ":").length := by
      rw [hsplit, List.length_append] at hlen
      exact Nat.mod_eq_of_lt (by omega)
    rw [hsome]
    dsimp only
    rw [hmod, hsplit, List.drop_left, strtoul_stop hne hnum (tail_head ht)]
    split
    · rename_i hbig
      constructor
      · intro h
        cases h
      · rintro ⟨hall, _⟩
        have hle := hall p rfl
        omega
    · rename_i hsmall
      rw [Option.some.injEq]
      constructor
      · intro h
        refine ⟨fun q hq => ?_, h⟩
        obtain rfl := Option.some.inj hq
        omega
      · exact And.right

/-! ## After the scan -/

theorem fieldAt_of_ne {off : Nat} {s : Str} (h : s ≠ []) : fieldAt off s = some ⟨off % 2 ^ 16, s.length % 2 ^ 16⟩ := if_neg h

/-- What comes after the scan of a site and a tail. -/
theorem finish_site {s a : Str} {t : UrlTail} {u : HttpParserUrl} {z : UrlScan} (hs : s ≠ []) (ht : t.WellFormed true)
    (hlen : (schemaText s ++ a ++ t.text).length < 2 ^ 16)
    (hu : z.u = t.fields (schemaText s ++ a).length (siteFields (some (s, a)))) (hat : z.foundAt = siteAt (some (s, a))) :
    z.finish (schemaText s ++ a ++ t.text) = some u ↔
      ∃ b : Authority, b.WellFormed ∧ b.text = a ∧
        t.fields (schemaText s ++ a).length (b.fields (schemaText s).length { schema := fieldAt 0 s }) = u := by
  have hschema : z.u.schema.isSome = true := by
    rw [hu]
    exact (fieldAt_isSome 0 s).2 hs
  have hhost : z.u.host = fieldAt (schemaText s).length a := by
    rw [hu]
    rfl
  by_cases ha : a = []
  · subst ha
    have hnone : z.u.host.isNone = true := by
      rw [hhost]
      rfl
    unfold UrlScan.finish
    rw [if_pos ⟨hschema, hnone⟩]
    constructor
    · intro h
      cases h
    · rintro ⟨b, hb, htext, _⟩
      exact absurd htext (text_ne ⟨hb.userinfo, hb.host, fun p hp => (hb.port p hp).1⟩)
  · have hshort : (schemaText s).length < 2 ^ 16 ∧ a.length < 2 ^ 16 := by
      rw [List.length_append, List.length_append] at hlen
      omega
    have hsome : z.u.host = some ⟨(schemaText s).length, a.length⟩ := by
      rw [hhost, fieldAt_of_ne ha, Nat.mod_eq_of_lt hshort.1, Nat.mod_eq_of_lt hshort.2]
    have hwindow : ((schemaText s ++ a ++ t.text).drop (schemaText s).length).take a.length = a := by
      rw [List.append_assoc, List.drop_left, List.take_left]
    have hparsed : ∀ v, z.parseHost (schemaText s ++ a ++ t.text) = some v ↔
        ∃ b : Authority, b.Read ∧ b.text = a ∧
          t.fields (schemaText s ++ a).length (b.fields (schemaText s).length { schema := fieldAt 0 s }) = v := by
      intro v
      unfold UrlScan.parseHost
      rw [hsome]
      dsimp only
      have hbase : z.u.port = none ∧ z.u.userinfo = none := by
        rw [hu]
        exact ⟨rfl, rfl⟩
      rw [HostPrefix.httpParseHost_iff hbase.1 hbase.2, hwindow, hat, hu]
      constructor
      · rintro ⟨b, hb, htext, _, hfields⟩
        exact ⟨b, hb, htext, hfields⟩
      · rintro ⟨b, hb, htext, hfields⟩
        refine ⟨b, hb, htext, ?_, hfields⟩
        rw [← contains_at hb, htext]
        rfl
    have hfinish : z.finish (schemaText s ++ a ++ t.text) =
        (z.parseHost (schemaText s ++ a ++ t.text)).bind (fun v => v.checkPort (schemaText s ++ a ++ t.text)) := by
      unfold UrlScan.finish
      rw [if_neg]
      rintro ⟨_, h⟩
      rw [hsome] at h
      cases h
    have hcheck : ∀ b : Authority, b.Read → b.text = a →
        ((t.fields (schemaText s ++ a).length (b.fields (schemaText s).length { schema := fieldAt 0 s })).checkPort
            (schemaText s ++ a ++ t.text) = some u ↔
          (∀ p, b.port = some p → strtoul p ≤ 0xffff) ∧
            t.fields (schemaText s ++ a).length (b.fields (schemaText s).length { schema := fieldAt 0 s }) = u) := by
      rintro b hb rfl
      exact checkPort_iff _ u hb ht hlen rfl
    rw [hfinish, Option.bind_eq_some_iff]
    constructor
    · rintro ⟨v, hv, hsome⟩
      obtain ⟨b, hb, htext, rfl⟩ := (hparsed v).1 hv
      obtain ⟨hport, hfields⟩ := (hcheck b hb htext).1 hsome
      exact ⟨b, ⟨hb.userinfo, hb.host, fun p hp => ⟨hb.port p hp, hport p hp⟩⟩, htext, hfields⟩
    · rintro ⟨b, hb, htext, hfields⟩
      have hread : b.Read := ⟨hb.userinfo, hb.host, fun p hp => (hb.port p hp).1⟩
      exact ⟨_, (hparsed _).2 ⟨b, hread, htext, rfl⟩, (hcheck b hread htext).2 ⟨fun p hp => (hb.port p hp).2, hfields⟩⟩

/-- The site of a URL as it is read. -/
def readSite (p : UrlParts) : Option (Str × Str) := p.site.map (fun s => (s.1, s.2.text))

/-- A site is read with the text it has. -/
theorem siteText_read (p : UrlParts) : siteText (readSite p) = p.siteText := by
  unfold readSite UrlParts.siteText
  cases p.site <;> rfl

/-- Well-formed authorities are among those the scan reads. -/
theorem read_of_wellFormed {a : Authority} (ha : a.WellFormed) : a.Read := ⟨ha.userinfo, ha.host, fun p hp => (ha.port p hp).1⟩

/-- A URL is read as its parts are. -/
theorem read_parts {p : UrlParts} (hp : p.WellFormed) : p.text.foldlM next empty = some (whole (readSite p) p.tail) := by
  have htail : p.tail.WellFormed (readSite p).isSome := by
    unfold readSite
    rw [Option.isSome_map]
    exact hp.tail
  rw [UrlParts.text, ← siteText_read]
  refine read_whole (fun s a hsite => ?_) htail
  obtain ⟨⟨s', b⟩, hs, heq⟩ := Option.map_eq_some_iff.1 hsite
  obtain ⟨rfl, rfl⟩ := Prod.mk.inj heq
  exact ⟨hp.schema s' b hs, enclosed_text (read_of_wellFormed (hp.authority s' b hs))⟩

/-- What was read has one site and one tail. -/
theorem whole_inj {site site' : Option (Str × Str)} {t t' : UrlTail} (h : whole site t = whole site' t') : site = site' ∧ t = t' := by
  by_cases ht : t = ⟨[], none, none⟩
  · by_cases ht' : t' = ⟨[], none, none⟩
    · subst ht ht'
      rcases site with _ | ⟨s, a⟩ <;> rcases site' with _ | ⟨s', a'⟩ <;> cases h <;> exact ⟨rfl, rfl⟩
    · subst ht
      rw [whole_of_ne ht'] at h
      cases site <;> cases h
  · rw [whole_of_ne ht] at h
    by_cases ht' : t' = ⟨[], none, none⟩
    · subst ht'
      cases site' <;> cases h
    · rw [whole_of_ne ht'] at h
      cases h
      exact ⟨rfl, rfl⟩

/-- A text has one reading. -/
theorem parts_unique {p q : UrlParts} (hp : p.WellFormed) (hq : q.WellFormed) (h : p.text = q.text) : p = q := by
  have hread := read_parts hp
  rw [h, read_parts hq] at hread
  obtain ⟨hsite, htail⟩ := whole_inj (Option.some.inj hread)
  obtain ⟨site, tail⟩ := p
  obtain ⟨site', tail'⟩ := q
  cases site with
  | none =>
    cases site' with
    | none => exact congrArg (UrlParts.mk none) htail.symm
    | some s => cases hsite
  | some s =>
    cases site' with
    | none => cases hsite
    | some s' =>
      obtain ⟨s, a⟩ := s
      obtain ⟨s', a'⟩ := s'
      have ha := read_of_wellFormed (hp.authority s a rfl)
      have ha' := read_of_wellFormed (hq.authority s' a' rfl)
      have hsame : s' = s ∧ a'.text = a.text := by
        simpa [readSite] using hsite
      have hat : a.userinfo.isSome = a'.userinfo.isSome := by
        rw [← contains_at ha, ← contains_at ha', hsame.2]
      have hauthority := HostPrefix.authority_unique ha ha' hat hsame.2.symm
      dsimp only at htail
      rw [hsame.1, hauthority, htail]

/-- What was read is a schema with a part of its `://`, which is no URL, or a site and a tail. -/
theorem whole_of_ok {p : UrlPrefix} (hp : p.Ok) :
    p.fields.schema.isSome = true ∧ p.fields.host = none ∨
      ∃ site t, p = whole site t ∧ t.WellFormed site.isSome ∧ ∀ s a, site = some (s, a) → s ≠ [] ∧ ∀ c ∈ s, isAlpha c = true := by
  cases p with
  | empty => exact Or.inr ⟨none, ⟨[], none, none⟩, rfl, ⟨by simp, by simp, by simp, by simp⟩, by simp⟩
  | schema s => exact Or.inl ⟨(fieldAt_isSome 0 s).2 hp.1, rfl⟩
  | colon s => exact Or.inl ⟨(fieldAt_isSome 0 s).2 hp.1, rfl⟩
  | slash s => exact Or.inl ⟨(fieldAt_isSome 0 s).2 hp.1, rfl⟩
  | server s a =>
    refine Or.inr ⟨some (s, a), ⟨[], none, none⟩, rfl, ⟨by simp, by simp, by simp, by simp⟩, fun s' a' h => ?_⟩
    cases h
    exact hp
  | tail site t =>
    have hne : t ≠ ⟨[], none, none⟩ := by
      rintro rfl
      simpa using hp.2.2
    exact Or.inr ⟨site, t, (whole_of_ne hne).symm, hp.2.1, hp.1⟩

/-- The bytes of what was read. -/
theorem text_whole (site : Option (Str × Str)) (t : UrlTail) : (whole site t).text = siteText site ++ t.text := by
  by_cases ht : t = ⟨[], none, none⟩
  · subst ht
    rcases site with _ | ⟨s, a⟩
    · rfl
    · exact (List.append_nil _).symm
  · rw [whole_of_ne ht]
    rfl

/-- What the parser makes of a site and a tail that were read. -/
theorem finish_whole {site : Option (Str × Str)} {t : UrlTail} {u : HttpParserUrl} (ht : t.WellFormed site.isSome)
    (hsite : ∀ s a, site = some (s, a) → s ≠ [] ∧ ∀ c ∈ s, isAlpha c = true) (hlen : (siteText site ++ t.text).length < 2 ^ 16) :
    (whole site t).scan.finish (siteText site ++ t.text) = some u ↔
      ∃ p : UrlParts, p.WellFormed ∧ readSite p = site ∧ p.tail = t ∧ p.fields = u := by
  obtain ⟨hfields, hat⟩ := scan_whole site t
  rcases site with _ | ⟨s, a⟩
  · have hu : (whole none t).scan.u = t.fields 0 {} := hfields
    have hfinish : (whole none t).scan.finish (siteText none ++ t.text) = some (t.fields 0 {}) := by
      unfold UrlScan.finish UrlScan.parseHost
      rw [hu]
      rfl
    rw [hfinish, Option.some.injEq]
    constructor
    · intro h
      exact ⟨⟨none, t⟩, ⟨by simp, by simp, ht⟩, rfl, rfl, h⟩
    · rintro ⟨⟨site, t'⟩, _, hnone, rfl, rfl⟩
      obtain rfl : site = none := Option.map_eq_none_iff.1 hnone
      rfl
  · rw [siteText, finish_site (hsite s a rfl).1 ht hlen hfields hat]
    constructor
    · rintro ⟨b, hb, rfl, rfl⟩
      refine ⟨⟨some (s, b), t⟩, ⟨fun s' b' h => ?_, fun s' b' h => ?_, ht⟩, rfl, rfl, rfl⟩
      · cases h
        exact hsite s b.text rfl
      · cases h
        exact hb
    · rintro ⟨⟨site, t'⟩, hp, hread, rfl, rfl⟩
      obtain ⟨⟨s', b⟩, rfl, hsame⟩ := Option.map_eq_some_iff.1 hread
      obtain ⟨rfl, rfl⟩ := Prod.mk.inj hsame
      exact ⟨b, hp.authority s' b rfl, rfl, rfl⟩

/-- The URLs that are taken are those of the grammar, each with the fields of its parts. -/
theorem taken_iff {url : Str} (hlen : url.length < 2 ^ 16) (u : HttpParserUrl) :
    httpParserParseUrl url = some u ↔ ∃ p : UrlParts, p.WellFormed ∧ p.text = url ∧ p.fields = u := by
  rw [httpParserParseUrl_eq, scanUrl_eq, Option.bind_eq_some_iff]
  constructor
  · rintro ⟨z, hz, hfinish⟩
    obtain ⟨p, hp, rfl⟩ := Option.map_eq_some_iff.1 hz
    obtain ⟨hok, rfl⟩ := UrlPrefix.read hp
    rcases whole_of_ok hok with ⟨hschema, hhost⟩ | ⟨site, t, rfl, ht, hsite⟩
    · unfold UrlScan.finish at hfinish
      rw [if_pos ⟨hschema, by
        show p.fields.host.isNone = true
        rw [hhost]
        rfl⟩] at hfinish
      cases hfinish
    · rw [text_whole] at hlen hfinish ⊢
      obtain ⟨q, hq, rfl, rfl, hfields⟩ := (finish_whole ht hsite hlen).1 hfinish
      refine ⟨q, hq, ?_, hfields⟩
      rw [siteText_read]
      rfl
  · rintro ⟨p, hp, rfl, rfl⟩
    have hread := read_parts hp
    obtain ⟨hok, htext⟩ := UrlPrefix.read hread
    rw [text_whole] at htext
    have htail : p.tail.WellFormed (readSite p).isSome := by
      unfold readSite
      rw [Option.isSome_map]
      exact hp.tail
    refine ⟨_, Option.map_eq_some_iff.2 ⟨_, hread, rfl⟩, ?_⟩
    rw [← htext] at hlen ⊢
    refine (finish_whole htail (fun s a hsite => ?_) hlen).2 ⟨p, hp, rfl, rfl, rfl⟩
    obtain ⟨⟨s', b⟩, hs, heq⟩ := Option.map_eq_some_iff.1 hsite
    obtain ⟨rfl, rfl⟩ := Prod.mk.inj heq
    exact hp.schema s' b hs

/-- The path that is cut out of a URL is the one of its parts. -/
theorem extract_path {p : UrlParts} {path : Str} (hlen : p.text.length < 2 ^ 16) (h : extractField p.text p.fields.path = some path) :
    path = p.tail.path ∧ path ≠ [] := by
  have htext : p.text = p.siteText ++ (p.tail.path ++ (queryText p.tail.query ++ fragmentText p.tail.fragment)) := by
    rw [UrlParts.text, UrlTail.text, List.append_assoc]
  obtain ⟨s, hs, hpath⟩ := Option.map_eq_some_iff.1 h
  have hfield : fieldAt p.siteText.length p.tail.path = some s := hs
  have hne : p.tail.path ≠ [] := by
    rw [← fieldAt_isSome p.siteText.length, hfield]
    rfl
  rw [htext, List.length_append, List.length_append] at hlen
  rw [fieldAt_of_ne hne, Nat.mod_eq_of_lt (by omega), Nat.mod_eq_of_lt (by omega)] at hfield
  obtain rfl := Option.some.inj hfield
  rw [htext, List.drop_left, List.take_left] at hpath
  exact ⟨hpath.symm, by rw [← hpath]; exact hne⟩

end UrlGrammarAux

open UrlGrammarAux

/-- The URLs that are taken are those of the grammar, each with the fields of its parts, and the parts are determined by the URL. -/
theorem url_grammar (url : Str) (hlen : url.length < 2 ^ 16) :
    (∀ u, httpParserParseUrl url = some u ↔ ∃ p : UrlParts, p.WellFormed ∧ p.text = url ∧ p.fields = u) ∧
      ∀ p q : UrlParts, p.WellFormed → q.WellFormed → p.text = url → q.text = url → p = q :=
  ⟨taken_iff hlen, fun _ _ hp hq hpt hqt => parts_unique hp hq (hpt.trans hqt.symm)⟩

/-- A URL with all its parts. -/
def fullParts : UrlParts :=
  ⟨some (lit "https", ⟨some (lit "me"), .v6 (lit "fe80::1") (some (lit "eth0")), some (lit "443")⟩),
    ⟨lit "/b/k", some (lit "x=1"), some (lit "#top")⟩⟩

/-- The general statement for a URL with every part, and a zone in its host. -/
theorem url_grammar_full :
    (lit "https://me@[fe80::1%eth0]:443/b/k?x=1##top").length < 2 ^ 16 ∧
      httpParserParseUrl (lit "https://me@[fe80::1%eth0]:443/b/k?x=1##top") =
        some ⟨some ⟨0, 5⟩, some ⟨12, 12⟩, some ⟨26, 3⟩, some ⟨29, 4⟩, some ⟨34, 3⟩, some ⟨39, 3⟩, some ⟨8, 2⟩⟩ := by
  have hlen : (lit "https://me@[fe80::1%eth0]:443/b/k?x=1##top").length < 2 ^ 16 := by decide
  have hwell : fullParts.WellFormed := by
    refine ⟨?_, ?_, ?_⟩
    · intro s a h
      cases h
      decide +kernel
    · intro s a h
      cases h
      refine ⟨?_, ?_, ?_⟩
      · intro u hu
        cases hu
        decide +kernel
      · refine ⟨by decide +kernel, fun z hz => ?_⟩
        cases hz
        decide +kernel
      · intro p hp
        cases hp
        decide +kernel
    · refine ⟨?_, by decide +kernel, ?_, ?_⟩
      · intro c hc
        cases hc
        decide +kernel
      · intro q hq
        cases hq
        decide +kernel
      · intro f hf
        cases hf
        decide +kernel
  refine ⟨hlen, ((url_grammar _ hlen).1 _).2 ⟨fullParts, hwell, rfl, ?_⟩⟩
  decide

end QingStor
