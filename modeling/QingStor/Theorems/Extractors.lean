import QingStor.Lemmas.Extractors

/-!
# The response extractors on any JSON value

An extractor is safe on a response if it answers `false`, or answers `true` and took every field it fills from a member of the
expected type. They look at whether a member is there and never at its type, so each is safe exactly on the responses where it
meets a missing member before a value it cannot use, or where every member it uses is of its type. That of a listing sorts what
it has read besides, and is safe only on a page whose short keys need not be moved.
-/

namespace QingStor

/-- A member of type string gives the text, as far as a C string goes. -/
def Json.GivesText (v : Json) (key text : Str) : Prop := ∃ s, v.objectGetEx key = some (.string s) ∧ text = cString s

/-- An element with a string for its key and a number for its size. -/
structure GivesItem (element : Json) (item : ObjectInfo) : Prop where
  key : element.GivesText (lit "key") item.key
  size : element.objectGetEx (lit "size") = some (.int item.size)
  range : item.range = ⟨0, 0⟩

/-- Every field that a page of a listing fills is taken from a member of its type, and the objects, sorted, are still whole. -/
structure ListFilled (J : JsonC) (Q : Qsort) (respBody : Json) (st st' : ListState) : Prop where
  name : respBody.GivesText (lit "name") st'.result.name
  keyPrefix : respBody.GivesText (lit "prefix") st'.result.keyPrefix
  limit : ∃ n, respBody.objectGetEx (lit "limit") = some (.int n) ∧
    st'.result.limit = ((Json.int n).getInt J % 2 ^ 32).toNat
  keys : ∃ elements items, respBody.objectGetEx (lit "keys") = some (.array elements) ∧
    List.Forall₂ GivesItem elements items ∧ Q.Keeps (st.result.objects ++ items) ∧
    st'.result.objects = Q.sort (st.result.objects ++ items) ∧
    st'.currentMarker = (items.map (·.key)).getLastD st.currentMarker

/-- `extractListObjectContent` answers `false`, or `true` with every field from a member of its type. -/
def ListSafe (J : JsonC) (Q : Qsort) (respBody : Json) (st : ListState) : Prop :=
  (extractListObjectContent J Q respBody st).1 = .ok false ∨
    (extractListObjectContent J Q respBody st).1 = .ok true ∧
      ListFilled J Q respBody st (extractListObjectContent J Q respBody st).2

/-- An element whose four members are strings. -/
structure GivesBucket (element : Json) (b : BucketInfo) : Prop where
  name : element.GivesText (lit "name") b.name
  location : element.GivesText (lit "location") b.location
  url : element.GivesText (lit "url") b.url
  created : element.GivesText (lit "created") b.created

/-- `extractListBucketContent` answers `false`, or `true` with every field from a member of its type. -/
def BucketsSafe (J : JsonC) (respBody : Json) : Prop :=
  extractListBucketContent J respBody = .ok none ∨
    ∃ buckets, extractListBucketContent J respBody = .ok (some buckets) ∧
      ∃ elements, respBody.objectGetEx (lit "buckets") = some (.array elements) ∧ List.Forall₂ GivesBucket elements buckets

/-- `extractHeadObjectContent` answers `false`, or `true` with every field from a member of its type. -/
def HeadSafe (J : JsonC) (respBody : Json) : Prop :=
  extractHeadObjectContent J respBody = .ok none ∨
    ∃ r, extractHeadObjectContent J respBody = .ok (some r) ∧
      respBody.GivesText (lit "Content-Type") r.contentType ∧
      respBody.objectGetEx (lit "Content-Length") = some (.int r.contentLength) ∧
      respBody.GivesText (lit "Last-Modified") r.lastModified

/-- `extractUploadIDContent` answers `false`, or `true` with both ids from members of their type. -/
def UploadIdSafe (J : JsonC) (respBody : Json) : Prop :=
  extractUploadIDContent J respBody = .ok none ∨
    ∃ ids, extractUploadIDContent J respBody = .ok (some ids) ∧
      respBody.GivesText (lit "upload_id") ids.1 ∧ respBody.GivesText (lit "key") ids.2

/-- A member is missing before one that cannot be used, or every member is of the type it is used at. -/
def Proper (ls : List Lookup) : Prop := Refused ls ∨ ∀ l ∈ ls, l.Fits

/-- The object an element of a page stands for, when its members are of their types. -/
def Json.item (element : Json) : ObjectInfo :=
  ⟨match element.objectGetEx (lit "key") with
    | some (.string s) => cString s
    | _ => [],
   match element.objectGetEx (lit "size") with
    | some (.int n) => n
    | _ => 0,
   ⟨0, 0⟩⟩

/-- The objects of a page. -/
def pageItems (respBody : Json) : List ObjectInfo := ((respBody.objectGetEx (lit "keys")).getD .null).elements.map Json.item

/-- A page of a listing is proper if a member is missing before one that cannot be used, or every member is of its type and
`qsort` keeps the objects, behind those the listing has. -/
def ProperPage (Q : Qsort) (respBody : Json) (st : ListState) : Prop :=
  Refused (listLookups respBody) ∨
    (∀ l ∈ listLookups respBody, l.Fits) ∧ Q.Keeps (st.result.objects ++ pageItems respBody)

namespace ExtractorsAux

theorem GivesText.fits {v : Json} {key text : Str} (h : v.GivesText key text) :
    (⟨v.objectGetEx key, .string⟩ : Lookup).Fits := by
  obtain ⟨s, hs, -⟩ := h
  exact ⟨.string s, hs, rfl⟩

/-- A text made of a member of type string. -/
theorem givesText {J : JsonC} {v : Json} {key text : Str} (h : ReadsText J v key text)
    (hfits : (⟨v.objectGetEx key, .string⟩ : Lookup).Fits) : v.GivesText key text := by
  obtain ⟨w, hw, hok⟩ := h
  obtain ⟨w', hw', his⟩ := hfits
  obtain rfl : w = w' := Option.some.inj (hw.symm.trans hw')
  obtain ⟨s, rfl⟩ := Json.is_string_iff.1 his
  exact ⟨s, hw, (Except.ok.inj hok).symm⟩

/-- A member of type int. -/
theorem givesInt {v w : Json} {key : Str} (h : v.objectGetEx key = some w)
    (hfits : (⟨v.objectGetEx key, .int⟩ : Lookup).Fits) : ∃ n, w = .int n := by
  obtain ⟨w', hw', his⟩ := hfits
  obtain rfl : w = w' := Option.some.inj (h.symm.trans hw')
  exact Json.is_int_iff.1 his

/-- A member of type array. -/
theorem givesArray {v w : Json} {key : Str} (h : v.objectGetEx key = some w)
    (hfits : (⟨v.objectGetEx key, .array⟩ : Lookup).Fits) : w = .array w.elements := by
  obtain ⟨w', hw', his⟩ := hfits
  obtain rfl : w = w' := Option.some.inj (h.symm.trans hw')
  obtain ⟨elements, rfl⟩ := Json.is_array_iff.1 his
  rfl

/-- The values of a function that follows its lookups are typed exactly if the members are, and it is safe exactly on a proper
row. -/
theorem safe_iff {α : Type} {r : Except Fault (Option α)} {ls : List Lookup} {P Q : α → Prop} (h : Follows r ls P)
    (htyped : (∀ l ∈ ls, l.Fits) → ∀ a, P a → Q a) (hfits : ∀ a, r = .ok (some a) → Q a → ∀ l ∈ ls, l.Fits) :
    (r = .ok none ∨ ∃ a, r = .ok (some a) ∧ Q a) ↔ Proper ls := by
  unfold Proper
  rw [h.refused_iff]
  refine or_congr_right ⟨?_, fun hall => ?_⟩
  · rintro ⟨a, ha, hq⟩
    exact hfits a ha hq
  · obtain ⟨a, ha⟩ := h.value_iff.2 (fun l hl => (hall l hl).bears)
    exact ⟨a, ha, htyped hall a (h.value a ha)⟩

theorem headSafe_iff (J : JsonC) (respBody : Json) : HeadSafe J respBody ↔ Proper (headLookups respBody) := by
  refine safe_iff (extractHeadObjectContent_follows J respBody) (fun hall r hr => ?_) ?_
  · simp only [headLookups, List.forall_mem_cons] at hall
    obtain ⟨htype, hlength, hmodified, -⟩ := hall
    obtain ⟨v, hv, hn⟩ := hr.contentLength
    obtain ⟨n, rfl⟩ := givesInt hv hlength
    refine ⟨givesText hr.contentType htype, ?_, givesText hr.lastModified hmodified⟩
    rw [hv, hn]
    rfl
  · rintro r - ⟨htype, hlength, hmodified⟩
    simp only [headLookups, List.forall_mem_cons]
    exact ⟨GivesText.fits htype, ⟨_, hlength, rfl⟩, GivesText.fits hmodified, fun l hl => by cases hl⟩

theorem uploadIdSafe_iff (J : JsonC) (respBody : Json) : UploadIdSafe J respBody ↔ Proper (uploadLookups respBody) := by
  refine safe_iff (extractUploadIDContent_follows J respBody) (fun hall ids hids => ?_) ?_
  · simp only [uploadLookups, List.forall_mem_cons] at hall
    exact ⟨givesText hids.1 hall.1, givesText hids.2 hall.2.1⟩
  · rintro ids - ⟨hid, hkey⟩
    simp only [uploadLookups, List.forall_mem_cons]
    exact ⟨GivesText.fits hid, GivesText.fits hkey, fun l hl => by cases hl⟩

/-- The elements of a list fit if each has what was made of it. -/
theorem forall₂_fits {γ : Type} {R : Json → γ → Prop} {lookups : Json → List Lookup} {elements : List Json} {items : List γ}
    (h : List.Forall₂ R elements items) (hfits : ∀ e i, R e i → ∀ l ∈ lookups e, l.Fits) :
    ∀ l ∈ elements.flatMap lookups, l.Fits := by
  intro l hl
  obtain ⟨e, he, hmem⟩ := List.mem_flatMap.1 hl
  obtain ⟨n, hn, rfl⟩ := List.getElem_of_mem he
  exact hfits _ _ (h.get hn (h.length_eq ▸ hn)) l hmem

/-- What was made of the elements of a list is typed if the elements fit. -/
theorem forall₂_typed {γ : Type} {R S : Json → γ → Prop} {lookups : Json → List Lookup} {elements : List Json} {items : List γ}
    (h : List.Forall₂ R elements items) (hfits : ∀ l ∈ elements.flatMap lookups, l.Fits)
    (htyped : ∀ e i, (∀ l ∈ lookups e, l.Fits) → R e i → S e i) : List.Forall₂ S elements items := by
  induction h with
  | nil => exact .nil
  | cons hr _ ih =>
    rw [List.flatMap_cons, List.forall_mem_append] at hfits
    exact .cons (htyped _ _ hfits.1 hr) (ih hfits.2)

theorem bucketsSafe_iff (J : JsonC) (respBody : Json) : BucketsSafe J respBody ↔ Proper (listBucketLookups J respBody) := by
  refine safe_iff (extractListBucketContent_follows J respBody) (fun hall buckets hbuckets => ?_) ?_
  · obtain ⟨v, hv, hrest⟩ := hbuckets
    simp only [listBucketLookups, List.forall_mem_append, List.forall_mem_cons, hv, Option.getD_some] at hall
    obtain ⟨⟨-, harray, -⟩, helements⟩ := hall
    have hv' := givesArray hv (by rw [hv]; exact harray)
    refine ⟨v.elements, by rw [hv, ← hv'], forall₂_typed hrest helements (fun e b hfits hb => ?_)⟩
    simp only [bucketLookups, List.forall_mem_cons] at hfits
    exact ⟨givesText hb.name hfits.1, givesText hb.location hfits.2.1, givesText hb.url hfits.2.2.1,
      givesText hb.created hfits.2.2.2.1⟩
  · rintro buckets hok ⟨elements, helements, hrest⟩
    have hbears := (extractListBucketContent_follows J respBody).value_iff.1 ⟨buckets, hok⟩
    simp only [listBucketLookups, List.forall_mem_append, List.forall_mem_cons, helements, Option.getD_some] at hbears ⊢
    obtain ⟨⟨⟨c, hc, -⟩, -, ⟨d, hd, -⟩, -⟩, -⟩ := hbears
    have hany : ∀ v : Json, v.is .any = true := fun v => by cases v <;> rfl
    refine ⟨⟨⟨c, hc, hany c⟩, ⟨_, rfl, rfl⟩, ⟨d, hd, hany d⟩, fun l hl => by cases hl⟩, forall₂_fits hrest (fun e b hb => ?_)⟩
    simp only [bucketLookups, List.forall_mem_cons]
    exact ⟨GivesText.fits hb.name, GivesText.fits hb.location, GivesText.fits hb.url, GivesText.fits hb.created,
      fun l hl => by cases hl⟩

/-- An element gives the object it stands for. -/
theorem GivesItem.eq_item {element : Json} {item : ObjectInfo} (h : GivesItem element item) : item = element.item := by
  obtain ⟨key, size, range⟩ := item
  obtain ⟨⟨s, hs, rfl⟩, hsize, rfl⟩ := h
  unfold Json.item
  rw [hs, hsize]

theorem map_item {elements : List Json} {items : List ObjectInfo} (h : List.Forall₂ GivesItem elements items) :
    elements.map Json.item = items := by
  induction h with
  | nil => rfl
  | cons hitem _ ih => rw [List.map_cons, ih, ← GivesItem.eq_item hitem]

/-- The objects of a page are those its elements give. -/
theorem pageItems_eq {respBody : Json} {elements : List Json} {items : List ObjectInfo}
    (hkeys : respBody.objectGetEx (lit "keys") = some (.array elements)) (h : List.Forall₂ GivesItem elements items) :
    pageItems respBody = items := by
  unfold pageItems
  rw [hkeys]
  exact map_item h

theorem listSafe_iff (J : JsonC) (Q : Qsort) (respBody : Json) (st : ListState) :
    ListSafe J Q respBody st ↔ ProperPage Q respBody st := by
  obtain ⟨hans, hholds⟩ := extractListObjectContent_walk J Q respBody st
  unfold ListSafe ProperPage
  rw [hans.ok_iff, walk_eq_false_iff]
  refine or_congr_right ⟨?_, ?_⟩
  · rintro ⟨-, hfilled⟩
    obtain ⟨n, hn, -⟩ := hfilled.limit
    obtain ⟨elements, items, hkeys, hrest, hkeeps, -⟩ := hfilled.keys
    rw [pageItems_eq hkeys hrest]
    refine ⟨?_, hkeeps⟩
    simp only [listLookups, List.forall_mem_append, List.forall_mem_cons, hkeys, Option.getD_some]
    refine ⟨⟨GivesText.fits hfilled.name, GivesText.fits hfilled.keyPrefix, ⟨_, hn, rfl⟩, ⟨_, rfl, rfl⟩,
      fun l hl => by cases hl⟩, forall₂_fits hrest (fun e i hi => ?_)⟩
    simp only [keyLookups, List.forall_mem_cons]
    exact ⟨GivesText.fits hi.key, ⟨_, hi.size, rfl⟩, fun l hl => by cases hl⟩
  · rintro ⟨hall, hkeeps⟩
    have hok := (hans.ok_iff true).2 ((walk_eq_true_iff _).2 (fun l hl => (hall l hl).bears))
    obtain ⟨hname, hprefix, ⟨limit, hlimit, hlimit'⟩, v, items, hkeys, hrest, hobjects, hmarker⟩ := hholds hok
    simp only [listLookups, List.forall_mem_append, List.forall_mem_cons, hkeys, Option.getD_some] at hall
    obtain ⟨⟨hfname, hfprefix, hflimit, hfkeys, -⟩, helements⟩ := hall
    have hv := givesArray hkeys (by rw [hkeys]; exact hfkeys)
    obtain ⟨n, rfl⟩ := givesInt hlimit hflimit
    have hitems : List.Forall₂ GivesItem v.elements items := by
      refine forall₂_typed hrest helements (fun e i hfits hi => ?_)
      simp only [keyLookups, List.forall_mem_cons] at hfits
      obtain ⟨hkey, ⟨w, hw, hsize⟩, hrange⟩ := hi
      obtain ⟨k, rfl⟩ := givesInt hw hfits.2.1
      exact ⟨givesText hkey hfits.1, by rw [hw, hsize]; rfl, hrange⟩
    have harray : respBody.objectGetEx (lit "keys") = some (.array v.elements) := by rw [hkeys, ← hv]
    rw [pageItems_eq harray hitems] at hkeeps
    exact ⟨hok, givesText hname hfname, givesText hprefix hfprefix, ⟨n, hlimit, hlimit'⟩, v.elements, items, harray, hitems,
      hkeeps, hobjects, hmarker⟩

end ExtractorsAux

/-- Each extractor is safe exactly on the responses whose members are proper for it, and that of a listing on those whose objects
`qsort` keeps besides. -/
theorem extractors_safe_iff (J : JsonC) (Q : Qsort) (respBody : Json) (st : ListState) :
    (ListSafe J Q respBody st ↔ ProperPage Q respBody st) ∧
      (BucketsSafe J respBody ↔ Proper (listBucketLookups J respBody)) ∧
      (HeadSafe J respBody ↔ Proper (headLookups respBody)) ∧
      (UploadIdSafe J respBody ↔ Proper (uploadLookups respBody)) :=
  ⟨ExtractorsAux.listSafe_iff J Q respBody st, ExtractorsAux.bucketsSafe_iff J respBody,
    ExtractorsAux.headSafe_iff J respBody, ExtractorsAux.uploadIdSafe_iff J respBody⟩

/-- Answers of a server that keeps the names of the members and not their types. -/
def Sample.keysObject : Json :=
  .object [(lit "name", .string (lit "b")), (lit "prefix", .string []), (lit "limit", .int 200), (lit "keys", .object [])]

def Sample.bucketNull : Json := .object [(lit "count", .int 1), (lit "buckets", .array [.object [(lit "name", .null)]])]

def Sample.typeNull : Json := .object [(lit "Content-Type", .null)]

def Sample.numberId : Json := .object [(lit "upload_id", .int 7), (lit "key", .string (lit "k"))]

/-- A page whose two keys are not in order. -/
def Sample.unordered : Json :=
  .object [(lit "name", .string (lit "b")), (lit "prefix", .string []), (lit "limit", .int 200),
    (lit "keys", .array [.object [(lit "key", .string (lit "b")), (lit "size", .int 1)],
      .object [(lit "key", .string (lit "a")), (lit "size", .int 2)]])]

theorem Sample.sort_unordered : Sample.mergeSort.sort (ListState.start.result.objects ++ pageItems Sample.unordered) =
    [⟨lit "a", 2, ⟨0, 0⟩⟩, ⟨lit "b", 1, ⟨0, 0⟩⟩] := by
  have hitems : ListState.start.result.objects ++ pageItems Sample.unordered =
      [⟨lit "b", 1, ⟨0, 0⟩⟩, ⟨lit "a", 2, ⟨0, 0⟩⟩] := by decide
  have hle : ¬ strcmp (lit "b") (lit "a") ≤ 0 := by decide
  rw [hitems]
  simp [Sample.mergeSort, List.mergeSort, List.MergeSort.Internal.splitInTwo, hle]

/-- The length of an object is taken, strings are moved by their bytes and made of null pointers, and a number is read as an upload
id. -/
theorem extractors_safe_false :
    (¬ ListSafe Sample.json Sample.mergeSort Sample.keysObject .start ∧
      ¬ ListSafe Sample.json Sample.mergeSort Sample.unordered .start) ∧ ¬ BucketsSafe Sample.json Sample.bucketNull ∧
      ¬ HeadSafe Sample.json Sample.typeNull ∧ ¬ UploadIdSafe Sample.json Sample.numberId := by
  refine ⟨⟨?_, ?_⟩, ?_, ?_, ?_⟩
  · rintro (h | ⟨h, -⟩) <;> cases h
  · rw [ExtractorsAux.listSafe_iff]
    rintro (h | ⟨-, h⟩)
    · have hwalk := (walk_eq_false_iff _).2 h
      cases hwalk
    · rcases h 0 ⟨lit "b", 1, ⟨0, 0⟩⟩ ⟨lit "a", 2, ⟨0, 0⟩⟩ rfl (by rw [Sample.sort_unordered]; rfl) with h | h
      · exact absurd h (by decide)
      · exact absurd h (by decide)
  · rintro (h | ⟨_, h, -⟩) <;> cases h
  · rintro (h | ⟨_, h, -⟩) <;> cases h
  · rintro (h | ⟨_, -, ⟨s, h, -⟩, -⟩) <;> cases h

end QingStor
