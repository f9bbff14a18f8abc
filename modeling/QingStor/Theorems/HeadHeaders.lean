import QingStor.Lemmas.Extractors
import QingStor.Lemmas.HeadAnswer

/-!
# What the headers of a HEAD answer are taken for

The JSON text of an answer has a line for each header, with nothing escaped in it. What its members are follows from how JSON is
read: an answer is taken for what it says if the lines read as members, and the last ones of the three names say what the three
headers do. Where each line reads by itself and no name comes twice, that is a matter of the three values alone.
-/

namespace QingStor

open JsonText

/-- `ParseHttpHeader` gives a value, from which `extractHeadObjectContent` takes what the three headers say. -/
def HeadAnswer.Faithful (J : JsonC) (a : HeadAnswer) : Prop :=
  (parseHttpHeader J a.text).isNull = false ∧
    ∃ r, extractHeadObjectContent J (parseHttpHeader J a.text) = .ok (some r) ∧
      r.contentType = a.contentType ∧ r.contentLength = natOf a.contentLength ∧ r.lastModified = a.lastModified

/-- The lines of the JSON text. -/
def HeadAnswer.memberLines (a : HeadAnswer) : Str := (a.fields.map fieldLine).flatten

/-- What a value is as a text: what a string holds, or how a boolean, an integer or a fraction is written. -/
def Json.scalarText : Json → Option Str
  | .string s => some s
  | v => v.wordText

/-- What a value is as an `int64_t`. -/
def Json.int64 : Json → Int
  | .boolean b => if b then 1 else 0
  | .int n => n
  | .double _ whole => whole
  | .string s => leadingInt64 s
  | _ => 0

/-- The answers whose headers can be written into a JSON text as they are. -/
structure HeadAnswer.Clean (a : HeadAnswer) : Prop where
  /-- something stands behind the first colon of the status line, if there is one -/
  status : a.status.dropWhile (· ≠ ':'.toUInt8) ≠ [':'.toUInt8]
  /-- the lines read as members of an object, and the last ones of the three names say what the headers do -/
  members : ∃ ms, readMembers a.memberLines = some ms ∧
    ((lastValue ms (lit "Content-Type")).bind Json.scalarText).map cString = some a.contentType ∧
    (lastValue ms (lit "Content-Length")).map Json.int64 = some (natOf a.contentLength : Int) ∧
    ((lastValue ms (lit "Last-Modified")).bind Json.scalarText).map cString = some a.lastModified

/-- An answer is clean or not by what its lines read as. -/
theorem HeadAnswer.clean_iff (a : HeadAnswer) :
    (a.status.dropWhile (· ≠ ':'.toUInt8) ≠ [':'.toUInt8] ∧
      ((readMembers a.memberLines).bind fun ms => (lastValue ms (lit "Content-Type")).bind Json.scalarText).map cString =
        some a.contentType ∧
      ((readMembers a.memberLines).bind fun ms => lastValue ms (lit "Content-Length")).map Json.int64 =
        some (natOf a.contentLength : Int) ∧
      ((readMembers a.memberLines).bind fun ms => (lastValue ms (lit "Last-Modified")).bind Json.scalarText).map cString =
        some a.lastModified) ↔ a.Clean := by
  constructor
  · rintro ⟨hs, hct, hcl, hlm⟩
    cases hms : readMembers a.memberLines with
    | none =>
      rw [hms] at hct
      cases hct
    | some ms =>
      rw [hms] at hct hcl hlm
      exact ⟨hs, ms, hms, hct, hcl, hlm⟩
  · rintro ⟨hs, ms, hms, h⟩
    rw [hms]
    exact ⟨hs, h⟩

instance (a : HeadAnswer) : Decidable a.Clean := decidable_of_iff _ a.clean_iff

/-- A json-c that reads objects alone reads JSON. -/
theorem objectsOnly_readsJson (container : Str) : (JsonC.objectsOnly container).ReadsJson where
  object text ms h := by
    unfold JsonC.objectsOnly
    dsimp only
    rw [h]
  int64 _ := rfl
  word v s h := by
    unfold JsonC.objectsOnly
    dsimp only
    rw [h]
    rfl

namespace HeadHeadersAux

/-- `json_object_get_int64` of a json-c that reads JSON. -/
theorem getInt64_eq {J : JsonC} (hJ : J.ReadsJson) (v : Json) : v.getInt64 J = v.int64 := by
  cases v with
  | string s => exact hJ.int64 s
  | null | boolean _ | int _ | double _ _ | array _ | object _ => rfl

/-- A value with a text makes a `std::string` of it. -/
theorem stdString_of_scalarText {J : JsonC} (hJ : J.ReadsJson) {v : Json} {s : Str} (h : v.scalarText = some s) :
    v.stdString J = .ok (cString s) := by
  cases v with
  | string t =>
    cases h
    rfl
  | boolean _ | int _ | double _ _ => exact congrArg (fun t => Except.ok (cString t)) (hJ.word _ s h)
  | null | array _ | object _ => cases h

/-- A `std::string` is made of a text, or of a null pointer, an array or an object. -/
theorem scalarText_of_stdString {container : Str} {v : Json} {text : Str}
    (h : v.stdString (.objectsOnly container) = .ok text) :
    v.scalarText.map cString = some text ∨ text = cString container := by
  cases v with
  | null => cases h
  | string s | boolean s | int s =>
    cases h
    exact Or.inl rfl
  | double s whole =>
    cases h
    exact Or.inl rfl
  | array elements | object members =>
    cases h
    exact Or.inr rfl

theorem cString_of_isLine {s : Str} (h : IsLine s) : cString s = s := by
  rw [cString, List.takeWhile_eq_self_iff]
  intro b hb
  simpa using (h b hb).1

/-- A header is one of the fields. -/
theorem mem_fields {a : HeadAnswer} {name value : Str} (h : ∃ h ∈ a.headers, h.name = name ∧ h.value = value) :
    (name, value) ∈ a.fields ∧ IsLine value := by
  obtain ⟨h, hh, rfl, rfl⟩ := h
  exact ⟨List.mem_append_right _ (List.mem_map_of_mem hh), h.isValue⟩

/-- The last line of a text of lines ends it. -/
theorem flatten_ends {lines : List Str} (hne : lines ≠ []) (hlines : ∀ l ∈ lines, ∃ u, l = u ++ [','.toUInt8, '\n'.toUInt8]) :
    ∃ u, lines.flatten = u ++ [','.toUInt8, '\n'.toUInt8] := by
  obtain ⟨u, hu⟩ := hlines _ (List.getLast_mem hne)
  refine ⟨lines.dropLast.flatten ++ u, ?_⟩
  rw [List.append_assoc, ← hu, ← List.flatten_concat, List.dropLast_append_getLast hne]

/-- The JSON text of an answer is an object if and only if its lines are members. -/
theorem readObject_fields (a : HeadAnswer) {ms : Members} :
    readObject (['{'.toUInt8, '\n'.toUInt8] ++ (a.fields.map fieldLine).flatten ++ ['}'.toUInt8]) = some ms ↔
      readMembers a.memberLines = some ms := by
  refine readObject_lines (flatten_ends ?_ ?_)
  · have hmem := List.mem_map_of_mem (f := fieldLine) (mem_fields a.hasContentType).1
    exact List.ne_nil_of_mem hmem
  · intro l hl
    obtain ⟨f, -, rfl⟩ := List.mem_map.1 hl
    exact fieldLine_ends f

theorem parse_of_members {J : JsonC} (hJ : J.ReadsJson) {a : HeadAnswer} {ms : Members}
    (hs : a.status.dropWhile (· ≠ ':'.toUInt8) ≠ [':'.toUInt8]) (hms : readMembers a.memberLines = some ms) :
    parseHttpHeader J a.text = objectOf ms := by
  simp only [parseHttpHeader, a.httpHeaderJson_text, if_neg hs]
  exact hJ.object _ _ ((readObject_fields a).2 hms)

/-- What a value read by a reader of objects alone tells of the lines. -/
theorem members_of_parse {container : Str} {a : HeadAnswer}
    (h : (parseHttpHeader (.objectsOnly container) a.text).isNull = false) :
    a.status.dropWhile (· ≠ ':'.toUInt8) ≠ [':'.toUInt8] ∧ ∃ ms, readMembers a.memberLines = some ms := by
  simp only [parseHttpHeader, a.httpHeaderJson_text] at h
  by_cases hs : a.status.dropWhile (· ≠ ':'.toUInt8) = [':'.toUInt8]
  · rw [if_pos hs] at h
    cases h
  · refine ⟨hs, ?_⟩
    rw [if_neg hs] at h
    simp only [JsonC.objectsOnly] at h
    split at h
    · cases h
    · rename_i ms hread
      exact ⟨ms, (readObject_fields a).1 hread⟩

/-- What `extractHeadObjectContent` takes from an object whose members have what it needs. -/
theorem extract_object {J : JsonC} (hJ : J.ReadsJson) {ms : Members} {ct lm : Str} {n : Int}
    (hct : ((lastValue ms (lit "Content-Type")).bind Json.scalarText).map cString = some ct)
    (hcl : (lastValue ms (lit "Content-Length")).map Json.int64 = some n)
    (hlm : ((lastValue ms (lit "Last-Modified")).bind Json.scalarText).map cString = some lm) :
    extractHeadObjectContent J (objectOf ms) = .ok (some ⟨ct, n, lm, []⟩) := by
  obtain ⟨s, hs, rfl⟩ := Option.map_eq_some_iff.1 hct
  obtain ⟨v, hv, hvs⟩ := Option.bind_eq_some_iff.1 hs
  obtain ⟨w, hw, rfl⟩ := Option.map_eq_some_iff.1 hcl
  obtain ⟨t, ht, rfl⟩ := Option.map_eq_some_iff.1 hlm
  obtain ⟨x, hx, hxt⟩ := Option.bind_eq_some_iff.1 ht
  simp only [extractHeadObjectContent, objectGetEx_objectOf, hv, hw, hx, stdString_of_scalarText hJ hvs,
    stdString_of_scalarText hJ hxt, getInt64_eq hJ]

/-- A text taken by name from an object that a reader of objects alone gave, when it is not that of a container. -/
theorem lastText_of_reads {container : Str} {ms : Members} {key text : Str}
    (h : ReadsText (.objectsOnly container) (objectOf ms) key text) (hne : text ≠ cString container) :
    ((lastValue ms key).bind Json.scalarText).map cString = some text := by
  obtain ⟨v, hv, hok⟩ := h
  rw [objectGetEx_objectOf] at hv
  rw [hv, Option.bind_some]
  exact (scalarText_of_stdString hok).resolve_right hne

/-- A container may be written longer than two texts. -/
theorem exists_container (s t : Str) (hs : IsLine s) (ht : IsLine t) :
    ∃ container, s ≠ cString container ∧ t ≠ cString container := by
  have hwhole : cString (s ++ t ++ lit "x") = s ++ t ++ lit "x" := by
    rw [cString, List.takeWhile_eq_self_iff]
    intro b hb
    rcases List.mem_append.1 hb with hb | hb
    · rcases List.mem_append.1 hb with hb | hb
      · simpa using (hs b hb).1
      · simpa using (ht b hb).1
    · obtain rfl := List.mem_singleton.1 hb
      decide
  refine ⟨s ++ t ++ lit "x", fun h => ?_, fun h => ?_⟩
  · have hlen := congrArg List.length (h.trans hwhole)
    simp [lit] at hlen
  · have hlen := congrArg List.length (h.trans hwhole)
    simp [lit] at hlen
    omega

end HeadHeadersAux

open HeadHeadersAux

/-- The three headers are read back with every json-c that reads JSON if and only if the headers can be written into a JSON text
as they are. -/
theorem head_headers_faithful_iff (a : HeadAnswer) : (∀ J : JsonC, J.ReadsJson → a.Faithful J) ↔ a.Clean := by
  constructor
  · intro h
    obtain ⟨container, htypeNe, hmodifiedNe⟩ := exists_container a.contentType a.lastModified (mem_fields a.hasContentType).2
      (mem_fields a.hasLastModified).2
    obtain ⟨hnull, r, hr, hct, hcl, hlm⟩ := h _ (objectsOnly_readsJson container)
    obtain ⟨hs, ms, hms⟩ := members_of_parse hnull
    rw [parse_of_members (objectsOnly_readsJson container) hs hms] at hr
    have hholds := (extractHeadObjectContent_follows _ _).value r hr
    refine ⟨hs, ms, hms, ?_, ?_, ?_⟩
    · rw [← hct]
      exact lastText_of_reads hholds.contentType (hct ▸ htypeNe)
    · obtain ⟨v, hv, hn⟩ := hholds.contentLength
      rw [objectGetEx_objectOf] at hv
      rw [hv, Option.map_some, ← hcl, hn, getInt64_eq (objectsOnly_readsJson container)]
    · rw [← hlm]
      exact lastText_of_reads hholds.lastModified (hlm ▸ hmodifiedNe)
  · rintro ⟨hs, ms, hms, hct, hcl, hlm⟩ J hJ
    rw [HeadAnswer.Faithful, parse_of_members hJ hs hms]
    exact ⟨rfl, _, extract_object hJ hct hcl hlm, rfl, rfl, rfl⟩

/-! ## Lines that read by themselves -/

namespace HeadHeadersAux

/-- Each field has its members among those of all lines. -/
theorem exists_members {fields : List (Str × Str)} {mss : List Members} {f : Str × Str}
    (h : List.Forall₂ (fun f ms => readMembers (fieldLine f) = some ms) fields mss) (hf : f ∈ fields) :
    ∃ ms, readMembers (fieldLine f) = some ms ∧ ∀ m ∈ ms, m ∈ mss.flatten := by
  induction h with
  | nil => cases hf
  | cons hread _ ih =>
    rcases List.mem_cons.1 hf with rfl | htail
    · exact ⟨_, hread, fun m hm => by simp [hm]⟩
    · obtain ⟨ms, hms, hsub⟩ := ih htail
      exact ⟨ms, hms, fun m hm => by
        rw [List.flatten_cons]
        exact List.mem_append_right _ (hsub m hm)⟩

/-- A string that is read back whole was plain. -/
theorem plain_of_cString {s v : Str} (h : cString s = v) (hs : Plain v ∧ s = v ∨ s.length < v.length) : Plain v := by
  rcases hs with ⟨hplain, -⟩ | hlt
  · exact hplain
  · have hle : (cString s).length ≤ s.length := (List.takeWhile_sublist _).length_le
    rw [h] at hle
    omega

/-- A value in quotes is read back if and only if it is plain. -/
theorem text_iff {name value : Str} {ms all : Members} (hname : Plain name) (hvalue : IsLine value)
    (hread : readMembers (memberLine name (quote value)) = some ms) (hsub : ∀ m ∈ ms, m ∈ all)
    (hnd : (all.map Prod.fst).Nodup) :
    ((lastValue all name).bind Json.scalarText).map cString = some value ↔ Plain value := by
  obtain ⟨s, ms', rfl, hs⟩ := readMembers_quoted hname hread
  rw [lastValue_of_mem hnd (hsub _ List.mem_cons_self), Option.bind_some]
  constructor
  · exact fun h => plain_of_cString (Option.some.inj h) hs
  · intro hplain
    have hquote := Option.some.inj (hread.symm.trans (readMembers_quote hname hplain))
    rw [List.cons.injEq, Prod.mk.injEq, Json.string.injEq] at hquote
    rw [hquote.1.2]
    exact congrArg some (cString_of_isLine hvalue)

/-- Headers that are read as one member each have their names for member names. -/
theorem exists_members_of_headers {headers : List HeaderLine}
    (h : ∀ h ∈ headers, ∃ v, readMembers (fieldLine (h.name, h.value)) = some [(h.name, v)]) :
    ∃ mss, List.Forall₂ (fun f ms => readMembers (fieldLine f) = some ms) (headers.map (fun h => (h.name, h.value))) mss ∧
      mss.flatten.map Prod.fst = headers.map (·.name) := by
  induction headers with
  | nil => exact ⟨[], .nil, rfl⟩
  | cons l headers ih =>
    obtain ⟨v, hv⟩ := h l List.mem_cons_self
    obtain ⟨mss, hmss, hnames⟩ := ih (fun h' hh' => h h' (List.mem_cons_of_mem _ hh'))
    exact ⟨[(l.name, v)] :: mss, .cons hv hmss, by simp [hnames]⟩

end HeadHeadersAux

/-- Where each line reads by itself and no name comes twice, the answer is clean if and only if the two texts have no quote,
backslash or control character and the length fits 64 bits. -/
theorem clean_iff_of_lines {a : HeadAnswer} {mss : List Members} (hs : a.status.dropWhile (· ≠ ':'.toUInt8) ≠ [':'.toUInt8])
    (hmss : List.Forall₂ (fun f ms => readMembers (fieldLine f) = some ms) a.fields mss)
    (hnd : (mss.flatten.map Prod.fst).Nodup) :
    a.Clean ↔ Plain a.contentType ∧ (natOf a.contentLength : Int) ≤ int64Max ∧ Plain a.lastModified := by
  obtain ⟨htypeMem, htypeLine⟩ := mem_fields a.hasContentType
  obtain ⟨hlengthMem, -⟩ := mem_fields a.hasContentLength
  obtain ⟨hmodifiedMem, hmodifiedLine⟩ := mem_fields a.hasLastModified
  obtain ⟨ms₁, htype, hsub₁⟩ := exists_members hmss htypeMem
  obtain ⟨ms₂, hlength, hsub₂⟩ := exists_members hmss hlengthMem
  obtain ⟨ms₃, hmodified, hsub₃⟩ := exists_members hmss hmodifiedMem
  have hall : readMembers a.memberLines = some mss.flatten :=
    readMembers_flatten (List.forall₂_map_left_iff.2 hmss)
  have htypeName : Plain (lit "Content-Type") := by decide
  have hmodifiedName : Plain (lit "Last-Modified") := by decide
  have hct := text_iff htypeName htypeLine htype hsub₁ hnd
  have hlm := text_iff hmodifiedName hmodifiedLine hmodified hsub₃ hnd
  have hcl : (lastValue mss.flatten (lit "Content-Length")).map Json.int64 = some (natOf a.contentLength : Int) ↔
      (natOf a.contentLength : Int) ≤ int64Max := by
    have hdigits := readMembers_digits (by decide : Plain (lit "Content-Length")) a.isDecimal.1 a.isDecimal.2
    have hline : readMembers (memberLine (lit "Content-Length") a.contentLength) = some ms₂ := hlength
    rw [hline] at hdigits
    split at hdigits
    · obtain rfl := Option.some.inj hdigits
      rw [lastValue_of_mem hnd (hsub₂ _ List.mem_cons_self), Option.map_some, Option.some.injEq]
      have hmin : int64Min ≤ 0 := by decide
      have hmax : (0 : Int) ≤ int64Max := by decide
      rw [Json.int64, clamped]
      omega
    · cases hdigits
  rw [← hct, ← hcl, ← hlm]
  constructor
  · rintro ⟨-, ms, hms, h⟩
    obtain rfl := Option.some.inj (hall.symm.trans hms)
    exact h
  · exact fun h => ⟨hs, _, hall, h⟩

/-- A status line without a colon, values without quotes, backslashes and control characters, entity tags in quotes and a length
of 64 bits are enough. -/
theorem clean_of_plain {a : HeadAnswer} (hs : ':'.toUInt8 ∉ a.status)
    (hplain : ∀ h ∈ a.headers, h.name ≠ lit "Content-Length" → h.name ≠ lit "ETag" → Plain h.value)
    (hetag : ∀ h ∈ a.headers, h.name = lit "ETag" → ∃ s, h.value = quote s ∧ Plain s)
    (hlength : isNumber a.contentLength = true ∧ (natOf a.contentLength : Int) ≤ int64Max) : a.Clean := by
  have hread : ∀ h ∈ a.headers, ∃ v, readMembers (fieldLine (h.name, h.value)) = some [(h.name, v)] := by
    intro h hh
    have hname : Plain h.name := fun b hb => (h.isName.2 b hb).1
    by_cases hcl : h.name = lit "Content-Length"
    · obtain ⟨h', hh', hname', hvalue'⟩ := a.hasContentLength
      have heq : h = h' := List.inj_on_of_nodup_map a.distinct hh hh' (hcl.trans hname'.symm)
      rw [← heq] at hvalue'
      refine ⟨.int (clamped (natOf a.contentLength)), ?_⟩
      rw [fieldLine, if_pos (Or.inl hcl), hvalue', readMembers_digits hname a.isDecimal.1 a.isDecimal.2, if_pos hlength.1]
    · by_cases hetagName : h.name = lit "ETag"
      · obtain ⟨s, hvalue, hs⟩ := hetag h hh hetagName
        refine ⟨.string s, ?_⟩
        rw [fieldLine, if_pos (Or.inr hetagName), hvalue, readMembers_quote hname hs]
      · refine ⟨.string h.value, ?_⟩
        rw [fieldLine, if_neg (not_or.2 ⟨hcl, hetagName⟩), readMembers_quote hname (hplain h hh hcl hetagName)]
  obtain ⟨mss, hmss, hnames⟩ := exists_members_of_headers hread
  have hfields : a.fields = a.headers.map (fun h => (h.name, h.value)) := by
    rw [HeadAnswer.fields, HeadAnswer.statusField, if_neg hs, List.nil_append]
  have hstatus : a.status.dropWhile (· ≠ ':'.toUInt8) ≠ [':'.toUInt8] := by
    intro heq
    refine hs ((List.dropWhile_sublist (· ≠ ':'.toUInt8)).subset ?_)
    rw [heq]
    exact List.mem_singleton_self _
  obtain ⟨h₁, hh₁, hname₁, hvalue₁⟩ := a.hasContentType
  obtain ⟨h₂, hh₂, hname₂, hvalue₂⟩ := a.hasLastModified
  refine (clean_iff_of_lines hstatus (hfields ▸ hmss) (hnames ▸ a.distinct)).2 ⟨?_, hlength.2, ?_⟩
  · rw [← hvalue₁]
    exact hplain h₁ hh₁ (hname₁ ▸ by decide) (hname₁ ▸ by decide)
  · rw [← hvalue₂]
    exact hplain h₂ hh₂ (hname₂ ▸ by decide) (hname₂ ▸ by decide)

namespace Sample

/-- An answer with the three headers and another one. -/
def headAnswer (other : HeaderLine) (h : other.name ∉ [lit "Content-Type", lit "Content-Length", lit "Last-Modified"]) : HeadAnswer where
  status := lit "HTTP/1.1 200 OK"
  headers := [other, ⟨lit "Content-Type", lit "text/plain", by decide, by decide⟩,
    ⟨lit "Content-Length", lit "3", by decide, by decide⟩,
    ⟨lit "Last-Modified", lit "Mon, 01 Jan 2018 00:00:00 GMT", by decide, by decide⟩]
  ended := true
  contentType := lit "text/plain"
  contentLength := lit "3"
  lastModified := lit "Mon, 01 Jan 2018 00:00:00 GMT"
  isStatus := by decide
  distinct := List.nodup_cons.2 ⟨h, by decide⟩
  hasContentType := ⟨_, List.mem_cons_of_mem _ List.mem_cons_self, rfl, rfl⟩
  hasContentLength := ⟨_, List.mem_cons_of_mem _ (List.mem_cons_of_mem _ List.mem_cons_self), rfl, rfl⟩
  hasLastModified :=
    ⟨_, List.mem_cons_of_mem _ (List.mem_cons_of_mem _ (List.mem_cons_of_mem _ List.mem_cons_self)), rfl, rfl⟩
  isDecimal := by decide

/-- An answer for an object that was stored with a `Content-Disposition`. -/
def attachment : HeadAnswer :=
  headAnswer ⟨lit "Content-Disposition", lit "attachment; filename=\"a.txt\"", by decide, by decide⟩ (by decide)

/-- An answer with an entity tag. -/
def tagged : HeadAnswer := headAnswer ⟨lit "ETag", lit "\"d41d8cd98f\"", by decide, by decide⟩ (by decide)

end Sample

example : Sample.tagged.Clean := by
  refine clean_of_plain (by decide) (by decide) ?_ (by decide)
  intro h hh hname
  rcases List.mem_cons.1 hh with rfl | htail
  · exact ⟨lit "d41d8cd98f", by decide, by decide⟩
  · exact absurd hname ((by decide : ∀ h ∈ Sample.tagged.headers.tail, h.name ≠ lit "ETag") h htail)

/-- Escapes, fractions and arrays in other headers do no harm. -/
example : (Sample.headAnswer ⟨lit "X-Note", lit "\\u0041\\ud83d\\ude00", by decide, by decide⟩ (by decide)).Clean := by
  decide +kernel

example : (Sample.headAnswer ⟨lit "ETag", lit "[1e5, \x7b\"a\": -0.5e-3,\x7d]", by decide, by decide⟩ (by decide)).Clean := by
  decide +kernel

/-- A quoted file name in another header is enough: `ParseHttpHeader` gives a null pointer. -/
theorem head_headers_faithful_false : ¬ ∀ J : JsonC, J.ReadsJson → ∀ a : HeadAnswer, a.Faithful J := by
  intro h
  have hnull := (h _ (objectsOnly_readsJson []) Sample.attachment).1
  have hparse : (parseHttpHeader (.objectsOnly []) Sample.attachment.text).isNull = true := by decide +kernel
  rw [hparse] at hnull
  cases hnull

end QingStor
