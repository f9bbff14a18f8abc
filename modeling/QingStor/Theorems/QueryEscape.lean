import QingStor.Lemmas.UrlHost

/-!
# Escaping the query of a URL

`qs_parse_url` counts the slashes of the query, makes a buffer for the query and two bytes more for each of them, and writes the
query into it with `%2F` for each slash. The two passes agree after every byte that is read.
-/

namespace QingStor

/-- What a byte of a query is written as. -/
def escaped (c : Byte) : Str := if c = '/'.toUInt8 then lit "%2F" else [c]

/-- The size of the buffer without the terminator. -/
def escapedSize (query : Str) : Nat := query.length + 2 * countSlashes query

/-- The buffer and the write cursor after the rewriting pass has read the bytes `done`. -/
def escapePass (query done : Str) : List Byte × Nat := done.foldl escapeStep (List.replicate (escapedSize query) 0 ++ [0], 0)

/-- The rewriting pass after the bytes `done` of the query: the cursor has moved by one byte for each of them and by two more for
each slash, what they are written as is in front of it, and the buffer has its length and its terminator. -/
structure EscapedSoFar (query done : Str) : Prop where
  cursor : (escapePass query done).2 = done.length + 2 * done.count '/'.toUInt8
  inside : (escapePass query done).2 ≤ escapedSize query
  written : (escapePass query done).1.take (escapePass query done).2 = done.flatMap escaped
  terminated : (escapePass query done).1.drop (escapedSize query) = [0]

/-- The two passes over a query agree. -/
structure EscapesExactly (query : Str) : Prop where
  size : escapedSize query = query.length + 2 * query.count '/'.toUInt8
  passes : ∀ done, done <+: query → EscapedSoFar query done
  early : ∀ done, done <+: query → done ≠ query → (escapePass query done).2 < escapedSize query
  filled : (escapePass query query).2 = escapedSize query
  result : (escapePass query query).1 = query.flatMap escaped ++ [0] ∧ escapeQuery query = query.flatMap escaped

namespace QueryEscapeAux

/-- The counting pass counts the slashes. -/
theorem countSlashes_eq (query : Str) : countSlashes query = query.count '/'.toUInt8 := by
  have h : ∀ (query : Str) (n : Nat),
      query.foldl (fun num c => if c = '/'.toUInt8 then num + 1 else num) n = n + query.count '/'.toUInt8 := by
    intro query
    induction query with
    | nil => exact fun n => rfl
    | cons c query ih =>
      intro n
      rw [List.foldl_cons, ih, List.count_cons]
      by_cases hc : c = '/'.toUInt8
      · simp only [hc, if_true, beq_self_eq_true]
        omega
      · simp only [hc, if_false, beq_iff_eq, Nat.add_zero]
  rw [countSlashes, h, Nat.zero_add]

/-- A turn of the rewriting pass writes a byte escaped, and moves on by what it wrote. -/
theorem escapeStep_eq (w : List Byte × Nat) (c : Byte) :
    escapeStep w c = (Lib.blit w.1 w.2 (escaped c), w.2 + (escaped c).length) := by
  unfold escapeStep escaped
  split <;> rfl

/-- An escaped byte takes two bytes more if it is a slash. -/
theorem length_escaped (c : Byte) : (escaped c).length = 1 + 2 * [c].count '/'.toUInt8 := by
  unfold escaped
  split
  · rename_i hc
    rw [hc]
    rfl
  · rename_i hc
    rw [List.count_singleton, if_neg (by simpa using hc)]
    rfl

/-- So the escaped query takes two bytes more for each slash. -/
theorem length_flatMap_escaped (s : Str) : (s.flatMap escaped).length = s.length + 2 * s.count '/'.toUInt8 := by
  induction s with
  | nil => rfl
  | cons c s ih =>
    have hcount : (c :: s).count '/'.toUInt8 = [c].count '/'.toUInt8 + s.count '/'.toUInt8 := by
      rw [← List.count_append]
      rfl
    rw [List.flatMap_cons, List.length_append, ih, length_escaped, hcount, List.length_cons]
    omega

/-- What a beginning of the query is written as fits. -/
theorem length_flatMap_le {query done : Str} (h : done <+: query) : (done.flatMap escaped).length ≤ escapedSize query := by
  have hcount := h.sublist.count_le '/'.toUInt8
  have hlen := h.length_le
  rw [length_flatMap_escaped, escapedSize, countSlashes_eq]
  omega

/-- Before the rewriting pass nothing is written. -/
theorem soFar_start (query : Str) : EscapedSoFar query [] where
  cursor := rfl
  inside := Nat.zero_le _
  written := rfl
  terminated := by
    have hbuffer : (escapePass query []).1 = List.replicate (escapedSize query) 0 ++ [0] := rfl
    rw [hbuffer, List.drop_left' List.length_replicate]

/-- Reading one more byte. -/
theorem soFar_step {query done : Str} {c : Byte} (hdone : done ++ [c] <+: query) (h : EscapedSoFar query done) :
    EscapedSoFar query (done ++ [c]) := by
  have hpass : escapePass query (done ++ [c]) =
      (Lib.blit (escapePass query done).1 (escapePass query done).2 (escaped c),
        (escapePass query done).2 + (escaped c).length) := by
    rw [escapePass, List.foldl_append]
    exact escapeStep_eq _ c
  have hlen : (escapePass query done).2 ≤ (escapePass query done).1.length := by
    have hdrop := congrArg List.length h.terminated
    rw [List.length_drop, List.length_singleton] at hdrop
    have hinside := h.inside
    omega
  have hcursor : (escapePass query done).2 + (escaped c).length = (done ++ [c]).length + 2 * (done ++ [c]).count '/'.toUInt8 := by
    rw [h.cursor, length_escaped, List.length_append, List.count_append, List.length_singleton]
    omega
  have hinside : (escapePass query done).2 + (escaped c).length ≤ escapedSize query := by
    rw [hcursor, ← length_flatMap_escaped]
    exact length_flatMap_le hdone
  refine ⟨?_, ?_, ?_, ?_⟩ <;> rw [hpass]
  · exact hcursor
  · exact hinside
  · rw [Lib.take_blit hlen, h.written]
    simp
  · rw [Lib.drop_blit hlen hinside, h.terminated]

/-- The invariant holds after every turn of the rewriting pass. -/
theorem soFar (query : Str) : ∀ done, done <+: query → EscapedSoFar query done := by
  intro done
  induction done using List.reverseRecOn with
  | nil => exact fun _ => soFar_start query
  | append_singleton done c ih => exact fun hdone => soFar_step hdone (ih ((List.prefix_append done [c]).trans hdone))

/-- Escaping brings in no NUL. -/
theorem escaped_no_nul {s : Str} (h : 0 ∉ s) : 0 ∉ s.flatMap escaped := by
  intro hmem
  obtain ⟨c, hc, hz⟩ := List.mem_flatMap.1 hmem
  unfold escaped at hz
  split at hz
  · exact absurd hz (by decide)
  · exact h (List.mem_singleton.1 hz ▸ hc)

/-- A query without NUL is escaped exactly. -/
theorem exact_of_no_nul {query : Str} (h : 0 ∉ query) : EscapesExactly query := by
  have hall := soFar query query (List.prefix_refl query)
  have hsize : escapedSize query = query.length + 2 * query.count '/'.toUInt8 := by
    rw [escapedSize, countSlashes_eq]
  have hfilled : (escapePass query query).2 = escapedSize query := by
    rw [hall.cursor, hsize]
  have hbuffer : (escapePass query query).1 = query.flatMap escaped ++ [0] := by
    rw [← List.take_append_drop (escapedSize query) (escapePass query query).1, hall.terminated, ← hfilled, hall.written]
  refine ⟨hsize, soFar query, ?_, hfilled, hbuffer, ?_⟩
  · intro done hdone hne
    obtain ⟨rest, rfl⟩ := hdone
    have hlen : 0 < rest.length := List.length_pos_iff.2 (fun hrest => hne (by rw [hrest, List.append_nil]))
    rw [(soFar (done ++ rest) done (List.prefix_append done rest)).cursor, hsize, List.length_append, List.count_append]
    omega
  · have hquery : escapeQuery query = cString (escapePass query query).1 := rfl
    have hbytes : ∀ b ∈ query.flatMap escaped, decide (b ≠ 0) = true := by
      intro b hb
      simp only [decide_eq_true_eq]
      rintro rfl
      exact escaped_no_nul h hb
    rw [hquery, hbuffer, cString, List.takeWhile_append_of_pos hbytes]
    simp

/-! ## The queries that come -/

/-- The lengths of the fields are 16-bit numbers. -/
theorem span_short : SpanInvariant (fun _ s => s.len < 2 ^ 16) where
  opened pos := show 1 < 2 ^ 16 by decide
  bumped pos s h := Nat.mod_lt _ (by decide)
  kept pos s h := h

/-- The query taken from a URL is a C string of less than 2^16 bytes. -/
theorem query_short {url query : Str} {u : HttpParserUrl} (hurl : 0 ∉ url) (hu : httpParserParseUrl url = some u)
    (hquery : extractField url u.query = some query) : 0 ∉ query ∧ query.length < 2 ^ 16 := by
  obtain ⟨z, hz, -, hq, -⟩ := httpParserParseUrl_some hu
  obtain ⟨s, hs, rfl⟩ := Option.map_eq_some_iff.1 hquery
  have hshort := fields_scanUrl span_short hz .query s (hq.symm.trans hs)
  refine ⟨fun hmem => hurl ((List.drop_sublist _ _).subset ((List.take_sublist _ _).subset hmem)), ?_⟩
  rw [List.length_take]
  omega

end QueryEscapeAux

open QueryEscapeAux

/-- The passes agree for every query, and the counts of the queries `qs_parse_url` is given fit the `int` they are made in. -/
theorem query_escape_exact :
    (∀ query : Str, 0 ∉ query → EscapesExactly query) ∧
    ∀ (url query : Str) (u : HttpParserUrl), 0 ∉ url → httpParserParseUrl url = some u →
      extractField url u.query = some query →
        0 ∉ query ∧ 2 * countSlashes query < 2 ^ 31 ∧
        ∀ path signed, qsParseUrl url = .ok (path, signed) → signed = some (query.flatMap escaped) := by
  refine ⟨fun query h => exact_of_no_nul h, ?_⟩
  intro url query u hurl hu hquery
  obtain ⟨hnul, hlen⟩ := query_short hurl hu hquery
  refine ⟨hnul, ?_, ?_⟩
  · have hcount := List.count_le_length (a := '/'.toUInt8) (l := query)
    rw [countSlashes_eq]
    omega
  · intro path signed hsigned
    unfold qsParseUrl at hsigned
    split at hsigned
    · cases hsigned
    · rw [hu] at hsigned
      simp only at hsigned
      split at hsigned
      · cases hsigned
      · cases hsigned
        rw [hquery, Option.map_some, (exact_of_no_nul hnul).result.2]

/-- The general statement for a prefix with a slash. -/
theorem query_escape_exact_prefix :
    EscapesExactly (lit "prefix=a/b") ∧ 2 * countSlashes (lit "prefix=a/b") < 2 ^ 31 :=
  ⟨query_escape_exact.1 _ (by decide),
    (query_escape_exact.2 (lit "https://b.pek3a.qingstor.com/?prefix=a/b") (lit "prefix=a/b") _ (by decide) rfl (by decide)).2.1⟩

end QingStor
