import Mathlib.Data.List.TakeWhile
import QingStor.Lib.Scanner
import QingStor.UrlGrammar

/-!
# What was read of a URL

A scanner that keeps what it has read of each part of a URL. The state machine over the URL is this scanner with the parts
forgotten but for their places.
-/

namespace QingStor

/-- What was read of a URL: nothing, a schema, a schema with a part of its `://`, a site, or a part of what follows it. -/
inductive UrlPrefix where
  | empty
  | schema (s : Str)
  | colon (s : Str)
  | slash (s : Str)
  | server (s a : Str)
  | tail (site : Option (Str × Str)) (t : UrlTail)

/-- The bytes of an authority, as the scan of the whole URL sees it; two `@` may not stand together. -/
def inServer (a : Str) (c : Byte) : Bool :=
  if c = '@'.toUInt8 then a.getLast? ≠ some '@'.toUInt8 else isUserinfoChar c || c = '['.toUInt8 || c = ']'.toUInt8

namespace UrlTail

/-- The state in a tail. -/
def state (t : UrlTail) : UrlState :=
  match t.query, t.fragment with
  | _, some f => if f.dropWhile (· = '#'.toUInt8) = [] then .fragmentStart else .fragment
  | some q, none => if q = [] then .queryStringStart else .queryString
  | none, none => .path

/-- One more byte of a tail. -/
def next (t : UrlTail) (c : Byte) : Option UrlTail :=
  match t.query, t.fragment with
  | _, some f => if inUrl c then some { t with fragment := some (f ++ [c]) } else none
  | some q, none =>
    if isQueryChar c then some { t with query := some (q ++ [c]) }
    else if c = '#'.toUInt8 then some { t with fragment := some [] } else none
  | none, none =>
    if isUrlChar c then some { t with path := t.path ++ [c] }
    else if c = '?'.toUInt8 then some { t with query := some [] }
    else if c = '#'.toUInt8 then some { t with fragment := some [] } else none

end UrlTail

namespace UrlPrefix

/-- A site as it was read. -/
def siteText : Option (Str × Str) → Str
  | none => []
  | some (s, a) => schemaText s ++ a

/-- The bytes that were read. -/
def text : UrlPrefix → Str
  | empty => []
  | schema s => s
  | colon s => s ++ lit ":"
  | slash s => s ++ lit ":/"
  | server s a => schemaText s ++ a
  | tail site t => siteText site ++ t.text

/-- One more byte of a URL. -/
def next : UrlPrefix → Byte → Option UrlPrefix
  | empty, c =>
    if c = '/'.toUInt8 ∨ c = '*'.toUInt8 then some (tail none ⟨[c], none, none⟩)
    else if isAlpha c then some (schema [c]) else none
  | schema s, c => if isAlpha c then some (schema (s ++ [c])) else if c = ':'.toUInt8 then some (colon s) else none
  | colon s, c => if c = '/'.toUInt8 then some (slash s) else none
  | slash s, c => if c = '/'.toUInt8 then some (server s []) else none
  | server s a, c =>
    if c = '/'.toUInt8 then some (tail (some (s, a)) ⟨[c], none, none⟩)
    else if c = '?'.toUInt8 then some (tail (some (s, a)) ⟨[], some [], none⟩)
    else if inServer a c then some (server s (a ++ [c])) else none
  | tail site t, c => (t.next c).map (fun t => tail site t)

/-- The state of the machine. -/
def state : UrlPrefix → UrlState
  | empty => .spacesBeforeUrl
  | schema _ => .schema
  | colon _ => .schemaSlash
  | slash _ => .schemaSlashSlash
  | server _ a => if a = [] then .serverStart else if a.getLast? = some '@'.toUInt8 then .serverWithAt else .server
  | tail _ t => t.state

/-- The fields of a site as it was read. -/
def siteFields : Option (Str × Str) → HttpParserUrl
  | none => {}
  | some (s, a) => { schema := fieldAt 0 s, host := fieldAt (schemaText s).length a }

/-- The fields of what was read. -/
def fields : UrlPrefix → HttpParserUrl
  | empty => {}
  | schema s | colon s | slash s => { schema := fieldAt 0 s }
  | server s a => siteFields (some (s, a))
  | tail site t => t.fields (siteText site).length (siteFields site)

/-- Whether a site as it was read has an `@`. -/
def siteAt : Option (Str × Str) → Bool
  | none => false
  | some (_, a) => a.contains '@'.toUInt8

/-- Whether an `@` was read in the server part. -/
def foundAt : UrlPrefix → Bool
  | server s a => siteAt (some (s, a))
  | tail site _ => siteAt site
  | _ => false

end UrlPrefix

/-- The field that was opened last: fields are opened in one order. -/
def HttpParserUrl.last (u : HttpParserUrl) : Option UrlField :=
  if u.fragment.isSome then some .fragment
  else if u.query.isSome then some .query
  else if u.path.isSome then some .path
  else if u.host.isSome then some .host
  else if u.schema.isSome then some .schema
  else none

/-- The scan that has read it. -/
def UrlPrefix.scan (p : UrlPrefix) : UrlScan := ⟨p.state, p.text.length, p.fields.last, p.foundAt, p.fields⟩

/-! ## The steps of the machine -/

/-- A step of the machine for a byte that is no blank. -/
def stepUrl (s : UrlState) (c : Byte) : UrlState :=
  match s with
  | .spacesBeforeUrl => if c = '/'.toUInt8 ∨ c = '*'.toUInt8 then .path else if isAlpha c then .schema else .dead
  | .schema => if isAlpha c then .schema else if c = ':'.toUInt8 then .schemaSlash else .dead
  | .schemaSlash => if c = '/'.toUInt8 then .schemaSlashSlash else .dead
  | .schemaSlashSlash => if c = '/'.toUInt8 then .serverStart else .dead
  | .serverWithAt => if c = '@'.toUInt8 then .dead else parseServerChar c
  | .serverStart | .server => parseServerChar c
  | .path =>
    if isUrlChar c then .path
    else if c = '?'.toUInt8 then .queryStringStart else if c = '#'.toUInt8 then .fragmentStart else .dead
  | .queryStringStart | .queryString =>
    if isQueryChar c then .queryString else if c = '#'.toUInt8 then .fragmentStart else .dead
  | .fragmentStart => if c = '#'.toUInt8 then .fragmentStart else if inUrl c then .fragment else .dead
  | .fragment => if inUrl c then .fragment else .dead
  | .dead => .dead

/-- A blank is in no class, so it need not be asked for first. -/
theorem parseUrlChar_eq (s : UrlState) (c : Byte) : parseUrlChar s c = stepUrl s c := by
  by_cases hblank : (c = ' '.toUInt8 ∨ c = '\r'.toUInt8 ∨ c = '\n'.toUInt8) ∨ c = '\t'.toUInt8 ∨ c = 12
  · rcases hblank with (rfl | rfl | rfl) | rfl | rfl <;> cases s <;> decide
  · rw [not_or] at hblank
    unfold parseUrlChar stepUrl
    rw [if_neg hblank.1, if_neg hblank.2]
    cases s with
    | queryStringStart | queryString =>
      dsimp only
      by_cases hu : isUrlChar c = true
      · simp [isQueryChar, hu]
      · by_cases hq : c = '?'.toUInt8
        · simp [isQueryChar, hq]
        · simp [isQueryChar, hu, hq]
    | fragmentStart =>
      dsimp only
      by_cases hh : c = '#'.toUInt8
      · subst hh
        decide
      · by_cases hu : isUrlChar c = true
        · simp [inUrl, hu, hh]
        · by_cases hq : c = '?'.toUInt8
          · subst hq
            decide
          · simp [inUrl, hu, hq, hh]
    | fragment =>
      dsimp only
      by_cases hu : isUrlChar c = true
      · simp [inUrl, hu]
      · by_cases hq : c = '?'.toUInt8
        · simp [inUrl, hq]
        · simp [inUrl, hu, hq]
    | _ => rfl

/-- The scan stops at a byte the state does not take. -/
theorem urlStep_dead {z : UrlScan} {c : Byte} (h : parseUrlChar z.s c = .dead) : urlStep z c = none := by
  unfold urlStep
  rw [h]
  rfl

/-- A step over a delimiter. -/
theorem urlStep_delimiter {z : UrlScan} {c : Byte} {s : UrlState} (h : parseUrlChar z.s c = s) (hd : s ≠ .dead) (hf : s.field = none) :
    urlStep z c = some { z with s := s, pos := z.pos + 1 } := by
  unfold urlStep
  rw [h]
  dsimp only
  rw [if_neg hd, hf]

/-- A step that adds a byte to a field with the text `t`. -/
theorem urlStep_push {z : UrlScan} {c : Byte} {s : UrlState} {f : UrlField} {off : Nat} {t : Str} (h : parseUrlChar z.s c = s)
    (hd : s ≠ .dead) (hf : s.field = some f) (hget : z.u.get f = fieldAt off t) (hold : z.oldUf = some f ↔ t ≠ [])
    (hpos : z.pos = off + t.length) :
    urlStep z c = some ⟨s, z.pos + 1, some f, z.foundAt || s = .serverWithAt,
      z.u.set f ⟨off % 2 ^ 16, (t.length + 1) % 2 ^ 16⟩⟩ := by
  unfold urlStep
  rw [h]
  dsimp only
  rw [if_neg hd, hf]
  dsimp only
  by_cases ht : t = []
  · have hopen : z.u.open f z.pos = z.u.set f ⟨off % 2 ^ 16, (t.length + 1) % 2 ^ 16⟩ := by
      rw [HttpParserUrl.open, hpos, ht]
      rfl
    rw [if_neg (fun ho => hold.1 ho ht), hopen]
  · have hbump : z.u.bump f = z.u.set f ⟨off % 2 ^ 16, (t.length + 1) % 2 ^ 16⟩ := by
      rw [HttpParserUrl.bump, hget, fieldAt, if_neg ht]
      dsimp only
      rw [Nat.mod_add_mod]
    rw [if_pos (hold.2 ht), hbump, hold.2 ht]

/-- The field of a text with one more byte. -/
theorem fieldAt_concat (off : Nat) (t : Str) (c : Byte) :
    fieldAt off (t ++ [c]) = some ⟨off % 2 ^ 16, (t.length + 1) % 2 ^ 16⟩ := by
  rw [fieldAt, if_neg (by simp), List.length_append]
  rfl

/-- A field is there when its text is. -/
theorem fieldAt_isSome (off : Nat) (t : Str) : (fieldAt off t).isSome = true ↔ t ≠ [] := by
  unfold fieldAt
  split <;> simp_all

namespace HttpParserUrl

variable {u : HttpParserUrl}

/-- The field that was read last: a fragment, if there is one. -/
theorem last_fragment (u : HttpParserUrl) : u.last = some .fragment ↔ u.fragment.isSome = true := by
  unfold last
  repeat' split
  all_goals simp_all

/-- Without it a query, if there is one. -/
theorem last_query (hf : u.fragment = none) : u.last = some .query ↔ u.query.isSome = true := by
  unfold last
  rw [hf, if_neg (by simp)]
  repeat' split
  all_goals simp_all

/-- Without these a path, if there is one. -/
theorem last_path (hf : u.fragment = none) (hq : u.query = none) : u.last = some .path ↔ u.path.isSome = true := by
  unfold last
  rw [hf, hq, if_neg (by simp), if_neg (by simp)]
  repeat' split
  all_goals simp_all

/-- Without these a host, if there is one. -/
theorem last_host (hf : u.fragment = none) (hq : u.query = none) (hp : u.path = none) :
    u.last = some .host ↔ u.host.isSome = true := by
  unfold last
  rw [hf, hq, hp, if_neg (by simp), if_neg (by simp), if_neg (by simp)]
  repeat' split
  all_goals simp_all

end HttpParserUrl

namespace UrlPrefix

theorem eq_scan {p : UrlPrefix} {z : UrlScan} (hs : z.s = p.state) (hpos : z.pos = p.text.length) (hold : z.oldUf = p.fields.last)
    (hat : z.foundAt = p.foundAt) (hu : z.u = p.fields) : z = p.scan := by
  obtain ⟨s, pos, oldUf, foundAt, u⟩ := z
  obtain ⟨rfl, rfl, rfl, rfl, rfl⟩ : s = p.state ∧ pos = p.text.length ∧ oldUf = p.fields.last ∧ foundAt = p.foundAt ∧ u = p.fields :=
    ⟨hs, hpos, hold, hat, hu⟩
  rfl

/-- The scan after a byte was added to a field, the last one there is. -/
theorem push_scan {p : UrlPrefix} {s : UrlState} {pos : Nat} {f : UrlField} {foundAt : Bool} {u : HttpParserUrl}
    (hs : s = p.state) (hpos : pos = p.text.length) (hold : p.fields.last = some f) (hat : foundAt = p.foundAt) (hu : u = p.fields) :
    some ⟨s, pos, some f, foundAt, u⟩ = some p.scan :=
  congrArg some (eq_scan hs hpos hold.symm hat hu)

/-! ### The tail -/

/-- The scan reads a path as the grammar does. -/
theorem scan_path (site : Option (Str × Str)) (path : Str) (c : Byte) :
    urlStep (tail site ⟨path, none, none⟩).scan c = ((tail site ⟨path, none, none⟩).next c).map scan := by
  have hstate : parseUrlChar (tail site ⟨path, none, none⟩).scan.s c = stepUrl .path c := parseUrlChar_eq _ c
  have hold : (tail site ⟨path, none, none⟩).scan.oldUf = some .path ↔ path ≠ [] := by
    rw [← fieldAt_isSome (siteText site).length path]
    exact HttpParserUrl.last_path (u := (tail site ⟨path, none, none⟩).fields) rfl rfl
  unfold stepUrl at hstate
  unfold next UrlTail.next
  dsimp only at hstate ⊢
  by_cases hu : isUrlChar c = true
  · rw [if_pos hu] at hstate ⊢
    rw [urlStep_push hstate (by decide) rfl rfl hold (by simp [scan, text, UrlTail.text, queryText, fragmentText])]
    refine push_scan rfl ?_ ?_ ?_ ?_
    · simp [scan, text, UrlTail.text, queryText, fragmentText]
      omega
    · simp [fields, UrlTail.fields, HttpParserUrl.last, fieldAt_concat]
    · simp [scan, foundAt]
    · simp [scan, fields, UrlTail.fields, HttpParserUrl.set, fieldAt_concat]
  · rw [if_neg hu] at hstate ⊢
    by_cases hq : c = '?'.toUInt8
    · rw [if_pos hq] at hstate ⊢
      rw [urlStep_delimiter hstate (by decide) rfl]
      refine congrArg some (eq_scan rfl ?_ rfl rfl rfl)
      simp [scan, text, UrlTail.text, queryText, fragmentText]
      omega
    · rw [if_neg hq] at hstate ⊢
      by_cases hh : c = '#'.toUInt8
      · rw [if_pos hh] at hstate ⊢
        rw [urlStep_delimiter hstate (by decide) rfl]
        refine congrArg some (eq_scan rfl ?_ rfl rfl rfl)
        simp [scan, text, UrlTail.text, queryText, fragmentText]
        omega
      · rw [if_neg hh] at hstate ⊢
        rw [urlStep_dead hstate]
        rfl

/-- So it does a query. -/
theorem scan_query (site : Option (Str × Str)) (path q : Str) (c : Byte) :
    urlStep (tail site ⟨path, some q, none⟩).scan c = ((tail site ⟨path, some q, none⟩).next c).map scan := by
  have hstate : parseUrlChar (tail site ⟨path, some q, none⟩).scan.s c = stepUrl .queryString c := by
    rw [parseUrlChar_eq]
    show stepUrl (if q = [] then .queryStringStart else .queryString) c = stepUrl .queryString c
    split <;> rfl
  have hold : (tail site ⟨path, some q, none⟩).scan.oldUf = some .query ↔ q ≠ [] := by
    rw [← fieldAt_isSome ((siteText site).length + path.length + 1) q]
    exact HttpParserUrl.last_query (u := (tail site ⟨path, some q, none⟩).fields) rfl
  unfold stepUrl at hstate
  unfold next UrlTail.next
  dsimp only at hstate ⊢
  by_cases hu : isQueryChar c = true
  · rw [if_pos hu] at hstate ⊢
    rw [urlStep_push hstate (by decide) rfl rfl hold (by
      simp [scan, text, UrlTail.text, queryText, fragmentText]
      omega)]
    refine push_scan ?_ ?_ ?_ ?_ ?_
    · simp [state, UrlTail.state]
    · simp [scan, text, UrlTail.text, queryText, fragmentText]
      omega
    · simp [fields, UrlTail.fields, HttpParserUrl.last, fieldAt_concat]
    · simp [scan, foundAt]
    · simp [scan, fields, UrlTail.fields, HttpParserUrl.set, fieldAt_concat]
  · rw [if_neg hu] at hstate ⊢
    by_cases hh : c = '#'.toUInt8
    · rw [if_pos hh] at hstate ⊢
      rw [urlStep_delimiter hstate (by decide) rfl]
      refine congrArg some (eq_scan rfl ?_ rfl rfl rfl)
      simp [scan, text, UrlTail.text, queryText, fragmentText]
      omega
    · rw [if_neg hh] at hstate ⊢
      rw [urlStep_dead hstate]
      rfl

/-- A further `#` in front of a fragment. -/
theorem dropWhile_hash {f : Str} (h : f.dropWhile (· = '#'.toUInt8) = []) :
    (f ++ ['#'.toUInt8]).dropWhile (· = '#'.toUInt8) = [] := by
  rw [List.dropWhile_append_of_pos (List.dropWhile_eq_nil_iff.1 h)]
  rfl

/-- A byte of a fragment that is none of the `#` in front of it. -/
theorem dropWhile_concat {f : Str} {c : Byte} (h : ¬ (f.dropWhile (· = '#'.toUInt8) = [] ∧ c = '#'.toUInt8)) :
    (f ++ [c]).dropWhile (· = '#'.toUInt8) = f.dropWhile (· = '#'.toUInt8) ++ [c] ∧
      (f ++ [c]).takeWhile (· = '#'.toUInt8) = f.takeWhile (· = '#'.toUInt8) := by
  have hsplit := List.takeWhile_append_dropWhile (p := fun b => decide (b = '#'.toUInt8)) (l := f)
  by_cases hd : f.dropWhile (· = '#'.toUInt8) = []
  · have hc : c ≠ '#'.toUInt8 := fun hc => h ⟨hd, hc⟩
    have hall := List.dropWhile_eq_nil_iff.1 hd
    rw [List.dropWhile_append_of_pos hall, List.takeWhile_append_of_pos hall, hd]
    rw [hd, List.append_nil] at hsplit
    rw [hsplit, List.dropWhile_cons_of_neg (by simpa using hc), List.takeWhile_cons_of_neg (by simpa using hc)]
    exact ⟨rfl, List.append_nil f⟩
  · constructor
    · rw [List.dropWhile_append, if_neg (by simpa using hd)]
    · rw [List.takeWhile_append, if_neg]
      intro hlen
      have hwhole := congrArg List.length hsplit
      rw [List.length_append, hlen] at hwhole
      exact hd (List.length_eq_zero_iff.1 (by omega))

/-- The step in a fragment: further `#` in front are no part of it. -/
theorem scan_fragment (site : Option (Str × Str)) (path : Str) (query : Option Str) (f : Str) (c : Byte) :
    urlStep (tail site ⟨path, query, some f⟩).scan c = ((tail site ⟨path, query, some f⟩).next c).map scan := by
  have hnext : (tail site ⟨path, query, some f⟩).next c = if inUrl c then some (tail site ⟨path, query, some (f ++ [c])⟩) else none := by
    unfold next UrlTail.next
    cases query <;> dsimp only <;> split <;> rfl
  have hs : ∀ f, (tail site ⟨path, query, some f⟩).state = if f.dropWhile (· = '#'.toUInt8) = [] then .fragmentStart else .fragment := by
    intro f
    cases query <;> rfl
  have hstate : parseUrlChar (tail site ⟨path, query, some f⟩).scan.s c = stepUrl (tail site ⟨path, query, some f⟩).state c :=
    parseUrlChar_eq _ c
  rw [hs] at hstate
  have hlast : ∀ f, (tail site ⟨path, query, some f⟩).fields.last = some .fragment ↔ f.dropWhile (· = '#'.toUInt8) ≠ [] := by
    intro f
    rw [HttpParserUrl.last_fragment]
    exact fieldAt_isSome _ _
  rw [hnext]
  by_cases hstart : f.dropWhile (· = '#'.toUInt8) = [] ∧ c = '#'.toUInt8
  · obtain ⟨hd, rfl⟩ := hstart
    rw [if_pos hd] at hstate
    rw [if_pos (by decide), urlStep_delimiter (s := .fragmentStart) (hstate.trans rfl) (by decide) rfl]
    have hfields : (tail site ⟨path, query, some f⟩).fields = (tail site ⟨path, query, some (f ++ ['#'.toUInt8])⟩).fields := by
      unfold fields UrlTail.fields
      dsimp only [Option.bind_some]
      rw [hd, dropWhile_hash hd]
      rfl
    refine congrArg some (eq_scan ?_ ?_ (congrArg HttpParserUrl.last hfields) rfl hfields)
    · rw [hs, if_pos (dropWhile_hash hd)]
    · simp [scan, text, UrlTail.text, fragmentText]
      omega
  · have hstep : parseUrlChar (tail site ⟨path, query, some f⟩).scan.s c = if inUrl c then .fragment else .dead := by
      rw [hstate]
      split
      · rename_i hd
        exact if_neg (fun hc => hstart ⟨hd, hc⟩)
      · rfl
    by_cases hu : inUrl c = true
    · rw [if_pos hu] at hstep ⊢
      obtain ⟨hdrop, htake⟩ := dropWhile_concat hstart
      have hsplit := congrArg List.length (List.takeWhile_append_dropWhile (p := fun b => decide (b = '#'.toUInt8)) (l := f))
      rw [List.length_append] at hsplit
      rw [urlStep_push (f := .fragment) hstep (by decide) rfl rfl (hlast f) (by
        simp [scan, text, UrlTail.text, fragmentText]
        omega)]
      refine push_scan ?_ ?_ ?_ ?_ ?_
      · rw [hs, if_neg (by rw [hdrop]; simp)]
      · simp [scan, text, UrlTail.text, fragmentText]
        omega
      · rw [hlast, hdrop]
        simp
      · simp [scan, foundAt]
      · unfold scan fields UrlTail.fields
        dsimp only [Option.bind_some]
        rw [hdrop, htake, fieldAt_concat]
        rfl
    · rw [if_neg hu] at hstep ⊢
      rw [urlStep_dead hstep]
      rfl

/-! ### The site -/

/-- So it does the first byte. -/
theorem scan_empty (c : Byte) : urlStep empty.scan c = (empty.next c).map scan := by
  have hstate : parseUrlChar empty.scan.s c = stepUrl .spacesBeforeUrl c := parseUrlChar_eq _ c
  unfold stepUrl at hstate
  unfold next
  dsimp only at hstate ⊢
  by_cases h1 : c = '/'.toUInt8 ∨ c = '*'.toUInt8
  · rw [if_pos h1] at hstate ⊢
    rw [urlStep_push (t := []) hstate (by decide) rfl rfl (by decide) rfl]
    exact push_scan rfl rfl rfl rfl rfl
  · rw [if_neg h1] at hstate ⊢
    by_cases h2 : isAlpha c = true
    · rw [if_pos h2] at hstate ⊢
      rw [urlStep_push (t := []) hstate (by decide) rfl rfl (by decide) rfl]
      exact push_scan rfl rfl rfl rfl rfl
    · rw [if_neg h2] at hstate ⊢
      rw [urlStep_dead hstate]
      rfl

/-- In a schema the field that was read last is the schema. -/
theorem last_schema (s : Str) : (schema s).fields.last = some .schema ↔ s ≠ [] := by
  rw [← fieldAt_isSome 0 s]
  unfold fields HttpParserUrl.last
  dsimp only
  cases (fieldAt 0 s).isSome <;> simp

/-- The scan reads a schema as the grammar does. -/
theorem scan_schema (s : Str) (c : Byte) : urlStep (schema s).scan c = ((schema s).next c).map scan := by
  have hstate : parseUrlChar (schema s).scan.s c = stepUrl .schema c := parseUrlChar_eq _ c
  unfold stepUrl at hstate
  unfold next
  dsimp only at hstate ⊢
  by_cases h1 : isAlpha c = true
  · rw [if_pos h1] at hstate ⊢
    rw [urlStep_push (f := .schema) hstate (by decide) rfl rfl (last_schema s) (Nat.zero_add _).symm]
    refine push_scan rfl ?_ ?_ rfl ?_
    · simp [scan, text]
    · rw [last_schema]
      simp
    · simp [scan, fields, HttpParserUrl.set, fieldAt_concat]
  · rw [if_neg h1] at hstate ⊢
    by_cases h2 : c = ':'.toUInt8
    · rw [if_pos h2] at hstate ⊢
      rw [urlStep_delimiter hstate (by decide) rfl]
      refine congrArg some (eq_scan rfl ?_ rfl rfl rfl)
      simp [scan, text, lit]
    · rw [if_neg h2] at hstate ⊢
      rw [urlStep_dead hstate]
      rfl

/-- The two slashes behind a schema. -/
theorem scan_slashes (s : Str) (c : Byte) :
    urlStep (colon s).scan c = ((colon s).next c).map scan ∧ urlStep (slash s).scan c = ((slash s).next c).map scan := by
  have hcolon : parseUrlChar (colon s).scan.s c = stepUrl .schemaSlash c := parseUrlChar_eq _ c
  have hslash : parseUrlChar (slash s).scan.s c = stepUrl .schemaSlashSlash c := parseUrlChar_eq _ c
  unfold stepUrl at hcolon hslash
  unfold next
  dsimp only at hcolon hslash ⊢
  by_cases h : c = '/'.toUInt8
  · rw [if_pos h] at hcolon hslash
    rw [urlStep_delimiter hcolon (by decide) rfl, urlStep_delimiter hslash (by decide) rfl, if_pos h, if_pos h]
    refine ⟨congrArg some (eq_scan rfl ?_ rfl rfl rfl), congrArg some (eq_scan rfl ?_ ?_ rfl ?_)⟩
    · simp [scan, text, lit]
    · simp [scan, text, schemaText, lit]
    · simp [scan, fields, siteFields, fieldAt]
    · simp [scan, fields, siteFields, fieldAt]
  · rw [if_neg h] at hcolon hslash
    rw [urlStep_dead hcolon, urlStep_dead hslash, if_neg h, if_neg h]
    exact ⟨rfl, rfl⟩

/-- The state of the machine after the byte `c` of an authority. -/
def serverStep (a : Str) (c : Byte) : UrlState :=
  if c = '/'.toUInt8 then .path
  else if c = '?'.toUInt8 then .queryStringStart
  else if inServer a c then (if c = '@'.toUInt8 then .serverWithAt else .server)
  else .dead

/-- The steps in an authority are the same in its states but for a second `@`. -/
theorem step_server (s a : Str) (c : Byte) : parseUrlChar (server s a).scan.s c = serverStep a c := by
  have hs : (server s a).scan.s = if a = [] then .serverStart else if a.getLast? = some '@'.toUInt8 then .serverWithAt else .server := rfl
  have hlast : a = [] → a.getLast? ≠ some '@'.toUInt8 := by
    rintro rfl
    simp
  rw [parseUrlChar_eq, hs]
  by_cases hc : c = '@'.toUInt8
  · subst hc
    unfold serverStep inServer
    by_cases ha : a.getLast? = some '@'.toUInt8
    · rw [if_neg (fun h => hlast h ha), if_pos ha]
      simp [ha]
      decide
    · rw [if_neg ha]
      have hstep : stepUrl (if a = [] then .serverStart else .server) '@'.toUInt8 = .serverWithAt := by
        split <;> decide
      rw [hstep]
      simp [ha]
      decide
  · have hstep : stepUrl (if a = [] then .serverStart else if a.getLast? = some '@'.toUInt8 then .serverWithAt else .server) c =
        parseServerChar c := by
      split
      · rfl
      · split
        · exact if_neg hc
        · rfl
    rw [hstep]
    unfold parseServerChar serverStep inServer
    simp only [hc, if_false, Bool.or_eq_true, decide_eq_true_eq, or_assoc]

/-- In the server part the field that was read last is the host. -/
theorem last_server (s a : Str) : (server s a).fields.last = some .host ↔ a ≠ [] := by
  rw [← fieldAt_isSome (schemaText s).length a]
  exact HttpParserUrl.last_host (u := (server s a).fields) rfl rfl rfl

/-- The scan reads the server part as the grammar does. -/
theorem scan_server (s a : Str) (c : Byte) : urlStep (server s a).scan c = ((server s a).next c).map scan := by
  have hstate := step_server s a c
  unfold serverStep at hstate
  unfold next
  dsimp only
  by_cases h1 : c = '/'.toUInt8
  · rw [if_pos h1] at hstate ⊢
    have hold : (server s a).scan.oldUf = some .path ↔ ([] : Str) ≠ [] := by
      refine iff_of_false ?_ (fun h => h rfl)
      show (server s a).fields.last ≠ some .path
      rw [Ne, HttpParserUrl.last_path rfl rfl]
      simp [fields, siteFields]
    have hpos : (server s a).scan.pos = (siteText (some (s, a))).length + ([] : Str).length := rfl
    rw [urlStep_push hstate (by decide) rfl rfl hold hpos]
    refine push_scan rfl ?_ ?_ ?_ ?_
    · simp [scan, text, siteText, UrlTail.text, queryText, fragmentText]
      omega
    · rw [HttpParserUrl.last_path rfl rfl]
      rfl
    · simp [scan, foundAt]
    · simp [scan, fields, UrlTail.fields, HttpParserUrl.set, fieldAt, siteFields]
  · rw [if_neg h1] at hstate ⊢
    by_cases h2 : c = '?'.toUInt8
    · rw [if_pos h2] at hstate ⊢
      rw [urlStep_delimiter hstate (by decide) rfl]
      refine congrArg some (eq_scan rfl ?_ rfl rfl rfl)
      simp [scan, text, siteText, UrlTail.text, queryText, fragmentText]
      omega
    · rw [if_neg h2] at hstate ⊢
      by_cases h3 : inServer a c = true
      · rw [if_pos h3] at hstate ⊢
        have hhost : (if c = '@'.toUInt8 then UrlState.serverWithAt else .server) ≠ .dead ∧
            (if c = '@'.toUInt8 then UrlState.serverWithAt else .server).field = some .host := by
          split <;> decide
        rw [urlStep_push hstate hhost.1 hhost.2 rfl (last_server s a) (by simp [scan, text])]
        refine push_scan ?_ ?_ ?_ ?_ ?_
        · simp [state]
        · simp [scan, text]
          omega
        · rw [last_server]
          simp
        · simp only [scan, foundAt, siteAt, List.contains_append]
          by_cases hc : c = '@'.toUInt8
          · simp [hc]
          · have hne : '@'.toUInt8 ≠ c := fun h => hc h.symm
            simp [hc, hne]
        · simp [scan, fields, siteFields, HttpParserUrl.set, fieldAt_concat]
      · rw [if_neg h3] at hstate ⊢
        rw [urlStep_dead hstate]
        rfl

/-! ### The machine -/

/-- The machine over the URL is the scanner with the parts forgotten. -/
theorem scan_next (p : UrlPrefix) (c : Byte) : urlStep p.scan c = (p.next c).map scan := by
  cases p with
  | empty => exact scan_empty c
  | schema s => exact scan_schema s c
  | colon s => exact (scan_slashes s c).1
  | slash s => exact (scan_slashes s c).2
  | server s a => exact scan_server s a c
  | tail site t =>
    obtain ⟨path, query, fragment⟩ := t
    cases fragment with
    | some f => exact scan_fragment site path query f c
    | none =>
      cases query with
      | some q => exact scan_query site path q c
      | none => exact scan_path site path c

/-- The scanner keeps what it reads. -/
theorem text_next (p : UrlPrefix) (c : Byte) (q : UrlPrefix) (h : p.next c = some q) : q.text = p.text ++ [c] := by
  have htail : ∀ t t' : UrlTail, t.next c = some t' → t'.text = t.text ++ [c] := by
    intro t t' ht
    obtain ⟨path, query, fragment⟩ := t
    unfold UrlTail.next at ht
    cases fragment with
    | some f =>
      cases query <;> dsimp only at ht <;> split at ht <;> cases ht <;> simp [UrlTail.text, fragmentText, queryText]
    | none =>
      cases query with
      | some q =>
        dsimp only at ht
        split at ht
        · cases ht
          simp [UrlTail.text, fragmentText, queryText]
        · split at ht <;> cases ht
          rename_i hc
          simp [UrlTail.text, fragmentText, queryText, hc]
      | none =>
        dsimp only at ht
        split at ht
        · cases ht
          simp [UrlTail.text, fragmentText, queryText]
        · split at ht
          · cases ht
            rename_i hc
            simp [UrlTail.text, fragmentText, queryText, hc]
          · split at ht <;> cases ht
            rename_i hc
            simp [UrlTail.text, fragmentText, queryText, hc]
  cases p with
  | tail site t =>
    obtain ⟨t', ht, rfl⟩ := Option.map_eq_some_iff.1 h
    simp [text, htail t t' ht]
  | empty =>
    unfold next at h
    dsimp only at h
    split at h
    · cases h
      simp [text, siteText, UrlTail.text, queryText, fragmentText]
    · split at h <;> cases h
      rfl
  | schema s =>
    unfold next at h
    dsimp only at h
    split at h
    · cases h
      rfl
    · split at h <;> cases h
      rename_i hc
      rw [hc]
      rfl
  | colon s =>
    unfold next at h
    dsimp only at h
    split at h <;> cases h
    rename_i hc
    simp [text, hc, lit]
    decide
  | slash s =>
    unfold next at h
    dsimp only at h
    split at h <;> cases h
    rename_i hc
    simp [text, hc, lit, schemaText]
    decide
  | server s a =>
    unfold next at h
    dsimp only at h
    split at h
    · cases h
      simp [text, siteText, UrlTail.text, queryText, fragmentText]
    · split at h
      · cases h
        rename_i hc
        simp [text, siteText, UrlTail.text, queryText, fragmentText, hc]
      · split at h <;> cases h
        simp [text]

/-- The scan of a URL. -/
theorem scanUrl_eq (url : Str) : scanUrl url = (url.foldlM next empty).map scan :=
  Lib.scan_simulates (P := fun _ => True) (fun _ _ _ _ _ => trivial) (fun p c _ => scan_next p c) (p := empty) trivial url

/-! ### What was read is a part of a URL -/

/-- The parts that were read follow the grammar. -/
def Ok : UrlPrefix → Prop
  | empty => True
  | schema s => s ≠ [] ∧ ∀ c ∈ s, isAlpha c = true
  | colon s => s ≠ [] ∧ ∀ c ∈ s, isAlpha c = true
  | slash s => s ≠ [] ∧ ∀ c ∈ s, isAlpha c = true
  | server s _ => s ≠ [] ∧ ∀ c ∈ s, isAlpha c = true
  | tail site t =>
    (∀ s a, site = some (s, a) → s ≠ [] ∧ ∀ c ∈ s, isAlpha c = true) ∧ t.WellFormed site.isSome ∧
      (t.path ≠ [] ∨ t.query.isSome = true)

theorem forall_concat {p : Byte → Bool} {s : Str} {c : Byte} (h : ∀ d ∈ s, p d = true) (hc : p c = true) :
    ∀ d ∈ s ++ [c], p d = true := by
  intro d hd
  rcases List.mem_append.1 hd with hd | hd
  · exact h d hd
  · rw [List.mem_singleton.1 hd]
    exact hc

/-- A tail that was begun stays well formed. -/
theorem wellFormed_next {t t' : UrlTail} {sited : Bool} {c : Byte} (ht : t.WellFormed sited)
    (hbegun : t.path ≠ [] ∨ t.query.isSome = true) (h : t.next c = some t') :
    t'.WellFormed sited ∧ (t'.path ≠ [] ∨ t'.query.isSome = true) := by
  obtain ⟨path, query, fragment⟩ := t
  obtain ⟨hfirst, hpath, hquery, hfragment⟩ := ht
  unfold UrlTail.next at h
  cases fragment with
  | some f =>
    have hadd : inUrl c = true ∧ t' = ⟨path, query, some (f ++ [c])⟩ := by
      cases query <;> dsimp only at h <;> split at h <;> cases h <;> exact ⟨by assumption, rfl⟩
    obtain ⟨hc, rfl⟩ := hadd
    refine ⟨⟨hfirst, hpath, hquery, fun g hg => ?_⟩, hbegun⟩
    obtain rfl := Option.some.inj hg
    exact ⟨hbegun, forall_concat (hfragment f rfl).2 hc⟩
  | none =>
    cases query with
    | some q =>
      dsimp only at h
      split at h
      · rename_i hc
        cases h
        refine ⟨⟨hfirst, hpath, fun g hg => ?_, fun g hg => by cases hg⟩, Or.inr rfl⟩
        obtain rfl := Option.some.inj hg
        exact ⟨(hquery q rfl).1, forall_concat (hquery q rfl).2 hc⟩
      · split at h <;> cases h
        refine ⟨⟨hfirst, hpath, hquery, fun g hg => ?_⟩, Or.inr rfl⟩
        obtain rfl := Option.some.inj hg
        exact ⟨Or.inr rfl, by simp⟩
    | none =>
      have hne : path ≠ [] := hbegun.resolve_right (by simp)
      dsimp only at h
      split at h
      · rename_i hc
        cases h
        refine ⟨⟨fun d hd => hfirst d ?_, forall_concat hpath hc, (fun g hg => by cases hg), fun g hg => by cases hg⟩, Or.inl (by simp)⟩
        obtain ⟨e, rest, rfl⟩ := List.exists_cons_of_ne_nil hne
        exact hd
      · split at h
        · cases h
          refine ⟨⟨hfirst, hpath, fun g hg => ?_, fun g hg => by cases hg⟩, Or.inl hne⟩
          obtain rfl := Option.some.inj hg
          exact ⟨Or.inl hne, by simp⟩
        · split at h <;> cases h
          refine ⟨⟨hfirst, hpath, hquery, fun g hg => ?_⟩, Or.inl hne⟩
          obtain rfl := Option.some.inj hg
          exact ⟨Or.inl hne, by simp⟩

/-- A tail of one byte, or of a `?`. -/
theorem wellFormed_first (sited : Bool) {c : Byte} (hc : c = '/'.toUInt8 ∨ c = '*'.toUInt8 ∧ sited = false) :
    (⟨[c], none, none⟩ : UrlTail).WellFormed sited := by
  have hpath : isUrlChar c = true := by
    rcases hc with rfl | ⟨rfl, _⟩ <;> decide
  refine ⟨fun d hd => ?_, fun d hd => ?_, (fun g hg => by cases hg), fun g hg => by cases hg⟩
  · obtain rfl : c = d := by simpa using hd
    exact hc
  · rw [List.mem_singleton.1 hd]
    exact hpath

/-- A byte that is read keeps the parts in the grammar. -/
theorem ok_next (p : UrlPrefix) (c : Byte) (q : UrlPrefix) (hp : p.Ok) (h : p.next c = some q) : q.Ok := by
  cases p with
  | tail site t =>
    obtain ⟨t', ht, rfl⟩ := Option.map_eq_some_iff.1 h
    exact ⟨hp.1, wellFormed_next hp.2.1 hp.2.2 ht⟩
  | empty =>
    unfold next at h
    dsimp only at h
    split at h
    · rename_i hc
      cases h
      exact ⟨(fun _ _ hsite => by cases hsite), wellFormed_first false (hc.imp_right (fun h => ⟨h, rfl⟩)), Or.inl (by simp)⟩
    · split at h <;> cases h
      rename_i hc
      exact ⟨by simp, forall_concat (s := []) (by simp) hc⟩
  | schema s =>
    unfold next at h
    dsimp only at h
    split at h
    · rename_i hc
      cases h
      exact ⟨by simp, forall_concat hp.2 hc⟩
    · split at h <;> cases h
      exact hp
  | colon s =>
    unfold next at h
    dsimp only at h
    split at h <;> cases h
    exact hp
  | slash s =>
    unfold next at h
    dsimp only at h
    split at h <;> cases h
    exact hp
  | server s a =>
    have hsite : ∀ s' a', some (s, a) = some (s', a') → s' ≠ [] ∧ ∀ c ∈ s', isAlpha c = true := by
      intro s' a' hsame
      cases hsame
      exact hp
    unfold next at h
    dsimp only at h
    split at h
    · rename_i hc
      cases h
      exact ⟨hsite, wellFormed_first true (Or.inl hc), Or.inl (by simp)⟩
    · split at h
      · cases h
        refine ⟨hsite, ⟨(fun _ hd => by cases hd), by simp, fun g hg => ?_, fun g hg => by cases hg⟩, Or.inr rfl⟩
        obtain rfl := Option.some.inj hg
        exact ⟨Or.inr rfl, by simp⟩
      · split at h <;> cases h
        exact hp

/-- What was read of a whole URL. -/
theorem read {url : Str} {p : UrlPrefix} (h : url.foldlM next empty = some p) : p.Ok ∧ p.text = url :=
  ⟨Lib.scan_keeps (P := Ok) (p := empty) ok_next trivial h, Lib.scan_text text_next h⟩

/-! ### A URL is read part by part -/

/-- What is read of a site and a tail. -/
def whole (site : Option (Str × Str)) (t : UrlTail) : UrlPrefix :=
  if t = ⟨[], none, none⟩ then
    match site with
    | none => empty
    | some (s, a) => server s a
  else tail site t

theorem whole_of_ne {site : Option (Str × Str)} {t : UrlTail} (h : t ≠ ⟨[], none, none⟩) : whole site t = tail site t := if_neg h

/-- The bytes of an authority that the scan of the URL stays in. -/
def Enclosed (a : Str) : Prop := ∀ x c y, a = x ++ c :: y → inServer x c = true ∧ c ≠ '/'.toUInt8 ∧ c ≠ '?'.toUInt8

/-- A schema and an authority are read. -/
theorem read_site {s a : Str} (hs : s ≠ []) (halpha : ∀ c ∈ s, isAlpha c = true) (ha : Enclosed a) :
    (siteText (some (s, a))).foldlM next empty = some (server s a) := by
  obtain ⟨c, rest, rfl⟩ := List.exists_cons_of_ne_nil hs
  have hc := halpha c (List.mem_cons_self ..)
  have hfirst : empty.next c = some (schema [c]) := by
    have hno : ¬ (c = '/'.toUInt8 ∨ c = '*'.toUInt8) := by
      rintro (rfl | rfl) <;> exact absurd hc (by decide)
    unfold next
    dsimp only
    rw [if_neg hno, if_pos hc]
  have hschema : (c :: rest).foldlM next empty = some (schema (c :: rest)) := by
    rw [List.foldlM_cons, hfirst]
    refine Lib.scan_part (g := schema) [c] (fun x d y hsplit => ?_)
    exact if_pos (halpha d (by rw [hsplit]; simp))
  have hslashes : (lit "://").foldlM next (schema (c :: rest)) = some (server (c :: rest) []) := by
    have hcolon : (schema (c :: rest)).next ':'.toUInt8 = some (colon (c :: rest)) := rfl
    rw [show lit "://" = [':'.toUInt8, '/'.toUInt8, '/'.toUInt8] from rfl, List.foldlM_cons, hcolon]
    rfl
  have hauthority : a.foldlM next (server (c :: rest) []) = some (server (c :: rest) a) := by
    refine Lib.scan_part (g := server (c :: rest)) [] (fun x d y hsplit => ?_)
    obtain ⟨hin, hslash, hmark⟩ := ha x d y hsplit
    unfold next
    dsimp only
    rw [List.nil_append, if_neg hslash, if_neg hmark, if_pos hin]
  rw [siteText, schemaText, Lib.scan_append (Lib.scan_append hschema |>.trans hslashes), hauthority]

/-- A path is read, behind a site or at the start. -/
theorem read_path (site : Option (Str × Str)) {path : Str}
    (hfirst : ∀ c, path.head? = some c → c = '/'.toUInt8 ∨ c = '*'.toUInt8 ∧ site.isSome = false)
    (hpath : ∀ c ∈ path, isUrlChar c = true) :
    path.foldlM next (whole site ⟨[], none, none⟩) = some (whole site ⟨path, none, none⟩) := by
  cases path with
  | nil => rfl
  | cons c rest =>
    have hstart : (whole site ⟨[], none, none⟩).next c = some (tail site ⟨[c], none, none⟩) := by
      have hc := hfirst c rfl
      unfold whole
      rw [if_pos rfl]
      cases site with
      | none => exact if_pos (hc.imp_right And.left)
      | some s => exact if_pos (hc.resolve_right (fun h => by cases h.2))
    rw [List.foldlM_cons, hstart, whole_of_ne (by simp)]
    refine Lib.scan_part (g := fun path => tail site ⟨path, none, none⟩) [c] (fun x d y hsplit => ?_)
    have hd := hpath d (by rw [hsplit]; simp)
    unfold next UrlTail.next
    dsimp only
    rw [if_pos hd]
    rfl

/-- A query is read, if there is one. -/
theorem read_query (site : Option (Str × Str)) (path : Str) {query : Option Str}
    (h : ∀ q, query = some q → (path ≠ [] ∨ site.isSome = true) ∧ ∀ c ∈ q, isQueryChar c = true) :
    (queryText query).foldlM next (whole site ⟨path, none, none⟩) = some (whole site ⟨path, query, none⟩) := by
  cases query with
  | none => rfl
  | some q =>
    obtain ⟨hbefore, hq⟩ := h q rfl
    have hstart : (whole site ⟨path, none, none⟩).next '?'.toUInt8 = some (tail site ⟨path, some [], none⟩) := by
      unfold whole
      split
      · rename_i hempty
        obtain rfl : path = [] := congrArg UrlTail.path hempty
        obtain ⟨s, rfl⟩ := Option.isSome_iff_exists.1 (hbefore.resolve_left (fun h => h rfl))
        rfl
      · rfl
    rw [queryText, List.foldlM_cons, hstart, whole_of_ne (by simp)]
    refine Lib.scan_part (g := fun q => tail site ⟨path, some q, none⟩) [] (fun x d y hsplit => ?_)
    have hd := hq d (by rw [hsplit]; simp)
    unfold next UrlTail.next
    dsimp only
    rw [if_pos hd]
    rfl

/-- A fragment is read, if there is one. -/
theorem read_fragment (site : Option (Str × Str)) (path : Str) {query fragment : Option Str}
    (h : ∀ f, fragment = some f → (path ≠ [] ∨ query.isSome = true) ∧ ∀ c ∈ f, inUrl c = true) :
    (fragmentText fragment).foldlM next (whole site ⟨path, query, none⟩) = some (whole site ⟨path, query, fragment⟩) := by
  cases fragment with
  | none => rfl
  | some f =>
    obtain ⟨hbefore, hf⟩ := h f rfl
    have hne : (⟨path, query, none⟩ : UrlTail) ≠ ⟨[], none, none⟩ := by
      rintro hempty
      obtain ⟨rfl, rfl⟩ : path = [] ∧ query = none := ⟨congrArg UrlTail.path hempty, congrArg UrlTail.query hempty⟩
      simp at hbefore
    have hstart : (tail site ⟨path, query, none⟩).next '#'.toUInt8 = some (tail site ⟨path, query, some []⟩) := by
      cases query <;> rfl
    rw [fragmentText, List.foldlM_cons, whole_of_ne hne, hstart, whole_of_ne (by simp)]
    refine Lib.scan_part (g := fun f => tail site ⟨path, query, some f⟩) [] (fun x d y hsplit => ?_)
    have hd := hf d (by rw [hsplit]; simp)
    unfold next UrlTail.next
    cases query <;> dsimp only <;> rw [if_pos hd] <;> rfl

/-- A site and a tail are read as what they are. -/
theorem read_whole {site : Option (Str × Str)} {t : UrlTail}
    (hsite : ∀ s a, site = some (s, a) → (s ≠ [] ∧ ∀ c ∈ s, isAlpha c = true) ∧ Enclosed a) (ht : t.WellFormed site.isSome) :
    (siteText site ++ t.text).foldlM next empty = some (whole site t) := by
  have hstart : (siteText site).foldlM next empty = some (whole site ⟨[], none, none⟩) := by
    cases site with
    | none => rfl
    | some s => exact read_site (hsite s.1 s.2 rfl).1.1 (hsite s.1 s.2 rfl).1.2 (hsite s.1 s.2 rfl).2
  rw [UrlTail.text, Lib.scan_append hstart,
    Lib.scan_append (Lib.scan_append (read_path site ht.first ht.path) |>.trans (read_query site t.path ht.query)),
    read_fragment site t.path ht.fragment]

/-- The scan of them. -/
theorem scan_whole (site : Option (Str × Str)) (t : UrlTail) :
    (whole site t).fields = t.fields (siteText site).length (siteFields site) ∧ (whole site t).foundAt = siteAt site := by
  unfold whole
  split
  · rename_i hempty
    subst hempty
    cases site <;> exact ⟨rfl, rfl⟩
  · exact ⟨rfl, rfl⟩

end UrlPrefix

end QingStor
