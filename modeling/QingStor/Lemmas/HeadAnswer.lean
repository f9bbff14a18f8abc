import Mathlib.Data.List.TakeWhile
import QingStor.Context
import QingStor.Lemmas.JsonText

/-!
# The headers of a HEAD answer

The header block of an answer, and the JSON text `ParseHttpHeader` makes of it: a line for each header, which holds the value as
it is, in quotes or, for `Content-Length` and `ETag`, without.
-/

namespace QingStor

open JsonText

/-- The bytes a header can have in a line: no NUL, no line break. -/
def IsLine (s : Str) : Prop := ∀ b ∈ s, b ≠ 0 ∧ b ≠ '\r'.toUInt8 ∧ b ≠ '\n'.toUInt8

instance (s : Str) : Decidable (IsLine s) := List.decidableBAll _ s

/-- The bytes a name can have: visible ones, no colons, quotes and backslashes. -/
def IsName (s : Str) : Prop := ∀ b ∈ s, isPlain b = true ∧ b ≠ ' '.toUInt8 ∧ b ≠ ':'.toUInt8

instance (s : Str) : Decidable (IsName s) := List.decidableBAll _ s

/-- A header: a name, and any value. -/
structure HeaderLine where
  name : Str
  value : Str
  isName : name ≠ [] ∧ IsName name
  isValue : IsLine value

def HeaderLine.text (h : HeaderLine) : Str := h.name ++ lit ": " ++ h.value

/-- The header block of an answer to a HEAD request: a status line and headers of different names, the three that the SDK reads
among them, with or without the empty line behind them. -/
structure HeadAnswer where
  status : Str
  headers : List HeaderLine
  ended : Bool
  contentType : Str
  contentLength : Str
  lastModified : Str
  isStatus : lit "HTTP/" <+: status ∧ IsLine status
  distinct : (headers.map (·.name)).Nodup
  hasContentType : ∃ h ∈ headers, h.name = lit "Content-Type" ∧ h.value = contentType
  hasContentLength : ∃ h ∈ headers, h.name = lit "Content-Length" ∧ h.value = contentLength
  hasLastModified : ∃ h ∈ headers, h.name = lit "Last-Modified" ∧ h.value = lastModified
  isDecimal : contentLength ≠ [] ∧ Digits contentLength

namespace HeadAnswer

def lines (a : HeadAnswer) : List Str := a.status :: a.headers.map HeaderLine.text ++ (if a.ended then [[]] else [])

def text (a : HeadAnswer) : Str := a.lines.flatMap (· ++ ['\r'.toUInt8, '\n'.toUInt8])

/-- A status line with a colon is taken for a header as well. -/
def statusField (status : Str) : List (Str × Str) :=
  if ':'.toUInt8 ∈ status then [(status.takeWhile (· ≠ ':'.toUInt8), (status.dropWhile (· ≠ ':'.toUInt8)).drop 2)] else []

/-- The names and values `ParseHttpHeader` finds. -/
def fields (a : HeadAnswer) : List (Str × Str) := statusField a.status ++ a.headers.map (fun h => (h.name, h.value))

end HeadAnswer

/-- What a header adds to the JSON text. -/
def fieldLine (f : Str × Str) : Str :=
  memberLine f.1 (if f.1 = lit "Content-Length" ∨ f.1 = lit "ETag" then f.2 else quote f.2)

theorem fieldLine_ends (f : Str × Str) : ∃ u, fieldLine f = u ++ [','.toUInt8, '\n'.toUInt8] := ⟨_, rfl⟩

/-! ## Lines of a text -/

theorem splitOn_crlf {lines : List Str} (h : ∀ l ∈ lines, '\n'.toUInt8 ∉ l) :
    (lines.flatMap (· ++ ['\r'.toUInt8, '\n'.toUInt8])).splitOn '\n'.toUInt8 = lines.map (· ++ ['\r'.toUInt8]) ++ [[]] := by
  induction lines with
  | nil => rfl
  | cons l lines ih =>
    have hl : '\n'.toUInt8 ∉ l ++ ['\r'.toUInt8] := by
      rw [List.mem_append, not_or]
      exact ⟨h l List.mem_cons_self, by decide⟩
    have htext : (l :: lines).flatMap (· ++ ['\r'.toUInt8, '\n'.toUInt8]) =
        (l ++ ['\r'.toUInt8]) ++ '\n'.toUInt8 :: lines.flatMap (· ++ ['\r'.toUInt8, '\n'.toUInt8]) := by
      simp
    rw [htext, List.splitOn_append_cons_self_of_not_mem hl, ih (fun l' hl' => h l' (List.mem_cons_of_mem _ hl'))]
    rfl

/-- The lines `getline` gives of a text with CRLF line ends keep the carriage return. -/
theorem getlines_crlf {lines : List Str} (h : ∀ l ∈ lines, '\n'.toUInt8 ∉ l) :
    getlines (lines.flatMap (· ++ ['\r'.toUInt8, '\n'.toUInt8])) = lines.map (· ++ ['\r'.toUInt8]) := by
  unfold getlines
  rw [splitOn_crlf h]
  simp

/-! ## One line -/

theorem headerLine_of_no_colon {line : Str} (h : ':'.toUInt8 ∉ line) : headerLine line = some [] := by
  have hfind : line.findIdx? (· = ':'.toUInt8) = none := by
    rw [List.findIdx?_eq_none_iff]
    intro b hb
    simp only [decide_eq_false_iff_not]
    rintro rfl
    exact h hb
  simp only [headerLine, hfind]

theorem findIdx?_colon {name : Str} (h : ':'.toUInt8 ∉ name) (t : Str) :
    (name ++ ':'.toUInt8 :: t).findIdx? (· = ':'.toUInt8) = some name.length := by
  induction name with
  | nil => simp [List.findIdx?_cons]
  | cons b name ih =>
    have hb : b ≠ ':'.toUInt8 := fun heq => h (heq ▸ List.mem_cons_self)
    rw [List.cons_append, List.findIdx?_cons, ih (fun hmem => h (List.mem_cons_of_mem _ hmem))]
    simp [hb]

/-- A line that ends with its only colon makes `ParseHttpHeader` give up. -/
theorem headerLine_of_bare {name : Str} (h : ':'.toUInt8 ∉ name) : headerLine (name ++ [':'.toUInt8, '\r'.toUInt8]) = none := by
  simp [headerLine, findIdx?_colon h]

/-- The line of a header, whatever byte stands behind the colon. -/
theorem headerLine_field {name value : Str} (hname : ':'.toUInt8 ∉ name) (hvalue : IsLine value) (c : Byte) :
    headerLine (name ++ ':'.toUInt8 :: c :: (value ++ ['\r'.toUInt8])) = some (fieldLine (name, value)) := by
  have hlong : ¬ (name ++ ':'.toUInt8 :: c :: (value ++ ['\r'.toUInt8])).length ≤ name.length + 2 := by
    simp
  have hdrop : (name ++ ':'.toUInt8 :: c :: (value ++ ['\r'.toUInt8])).drop (name.length + 2) = value ++ ['\r'.toUInt8] := by
    rw [← List.drop_drop, List.drop_left]
    rfl
  have htake : (value ++ ['\r'.toUInt8]).takeWhile (· ≠ '\r'.toUInt8) = value := by
    rw [List.takeWhile_append_of_pos (fun b hb => by simpa using (hvalue b hb).2.1)]
    simp
  simp only [headerLine, findIdx?_colon hname]
  rw [if_neg hlong, List.take_left, hdrop, htake]
  have hopen : lit "\"" = ['"'.toUInt8] := rfl
  have hcolon : lit "\": " = ['"'.toUInt8, ':'.toUInt8, ' '.toUInt8] := rfl
  have hclose : lit "\",\n" = ['"'.toUInt8, ','.toUInt8, '\n'.toUInt8] := rfl
  have hcomma : lit ",\n" = [','.toUInt8, '\n'.toUInt8] := rfl
  simp only [fieldLine, memberLine, quote, hopen, hcolon, hclose, hcomma]
  by_cases hraw : name = lit "Content-Length" ∨ name = lit "ETag"
  · rw [if_neg (by tauto), if_pos hraw]
    simp
  · rw [if_pos (by tauto), if_neg hraw]
    simp

/-! ## The JSON text -/

/-- The text before the first colon of a line, and what is behind. -/
theorem takeWhile_colon {name : Str} (h : ':'.toUInt8 ∉ name) (t : Str) :
    (name ++ ':'.toUInt8 :: t).takeWhile (· ≠ ':'.toUInt8) = name ∧
      (name ++ ':'.toUInt8 :: t).dropWhile (· ≠ ':'.toUInt8) = ':'.toUInt8 :: t := by
  have hname : ∀ b ∈ name, decide (b ≠ ':'.toUInt8) = true := by
    intro b hb
    simp only [decide_eq_true_eq]
    rintro rfl
    exact h hb
  rw [List.takeWhile_append_of_pos hname, List.dropWhile_append_of_pos hname]
  simp

namespace HeadAnswer

/-- What the status line adds to the JSON text. -/
theorem headerLine_status {status : Str} (hs : IsLine status) :
    headerLine (status ++ ['\r'.toUInt8]) =
      if status.dropWhile (· ≠ ':'.toUInt8) = [':'.toUInt8] then none else some ((statusField status).map fieldLine).flatten := by
  by_cases hcolon : ':'.toUInt8 ∈ status
  · obtain ⟨name, t, rfl, hname⟩ := List.eq_append_cons_of_mem hcolon
    rw [statusField, if_pos hcolon, (takeWhile_colon hname t).1, (takeWhile_colon hname t).2]
    cases t with
    | nil =>
      rw [if_pos rfl, List.append_assoc]
      exact headerLine_of_bare hname
    | cons c value =>
      have hvalue : IsLine value := fun b hb => hs b (by simp [hb])
      rw [if_neg (by simp), List.append_assoc]
      refine (headerLine_field hname hvalue c).trans ?_
      simp
  · have hdrop : status.dropWhile (· ≠ ':'.toUInt8) = [] := by
      rw [List.dropWhile_eq_nil_iff]
      intro b hb
      simp only [decide_eq_true_eq]
      rintro rfl
      exact hcolon hb
    rw [hdrop, if_neg (by simp), statusField, if_neg hcolon]
    refine headerLine_of_no_colon ?_
    rw [List.mem_append, not_or]
    exact ⟨hcolon, by decide⟩

theorem lines_no_feed (a : HeadAnswer) : ∀ l ∈ a.lines, '\n'.toUInt8 ∉ l := by
  intro l hl hfeed
  simp only [lines, List.cons_append, List.mem_cons, List.mem_append, List.mem_map] at hl
  rcases hl with rfl | ⟨h, -, rfl⟩ | hend
  · exact (a.isStatus.2 _ hfeed).2.2 rfl
  · rw [HeaderLine.text, List.mem_append, List.mem_append] at hfeed
    rcases hfeed with (hname | hcolon) | hvalue
    · exact absurd (h.isName.2 _ hname).1 (by decide)
    · exact absurd hcolon (by decide)
    · exact (h.isValue _ hvalue).2.2 rfl
  · split at hend
    · rw [List.mem_singleton.1 hend] at hfeed
      cases hfeed
    · cases hend

theorem mapM_headers (headers : List HeaderLine) :
    (headers.map (fun h => h.text ++ ['\r'.toUInt8])).mapM headerLine =
      some (headers.map (fun h => fieldLine (h.name, h.value))) := by
  induction headers with
  | nil => rfl
  | cons h headers ih =>
    have hname : ':'.toUInt8 ∉ h.name := fun hmem => (h.isName.2 _ hmem).2.2 rfl
    have hline : headerLine (h.text ++ ['\r'.toUInt8]) = some (fieldLine (h.name, h.value)) := by
      rw [← headerLine_field hname h.isValue ' '.toUInt8]
      congr 1
      rw [HeaderLine.text, show lit ": " = [':'.toUInt8, ' '.toUInt8] from rfl]
      simp
    simp [List.mapM_cons, hline, ih]

/-- The JSON text of an answer: none when the status line ends with its first colon. -/
theorem httpHeaderJson_text (a : HeadAnswer) :
    httpHeaderJson a.text =
      if a.status.dropWhile (· ≠ ':'.toUInt8) = [':'.toUInt8] then none
      else some (['{'.toUInt8, '\n'.toUInt8] ++ (a.fields.map fieldLine).flatten ++ ['}'.toUInt8]) := by
  have hend : ((if a.ended then [[]] else [] : List Str).map (· ++ ['\r'.toUInt8])).mapM headerLine =
      some (if a.ended then [[]] else []) := by
    cases a.ended <;> rfl
  rw [httpHeaderJson, text, getlines_crlf a.lines_no_feed, lines]
  simp only [List.cons_append, List.map_cons, List.map_append, List.map_map, List.mapM_cons, List.mapM_append]
  rw [headerLine_status a.isStatus.2]
  by_cases hbare : a.status.dropWhile (· ≠ ':'.toUInt8) = [':'.toUInt8]
  · rw [if_pos hbare, if_pos hbare]
    rfl
  · rw [if_neg hbare, if_neg hbare]
    have hheaders := mapM_headers a.headers
    have hopen : lit "\x7b\n" = ['{'.toUInt8, '\n'.toUInt8] := rfl
    have hclose : lit "\x7d" = ['}'.toUInt8] := rfl
    have hflat : (if a.ended then [[]] else [] : List Str).flatten = [] := by
      cases a.ended <;> rfl
    simp only [Function.comp_def, hheaders, hend, hopen, hclose]
    simp [fields, Function.comp_def, hflat]

end HeadAnswer

end QingStor
