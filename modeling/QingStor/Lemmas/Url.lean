import QingStor.Common

/-!
# Where the parser finds the path

The scan of `https://` + host + `/` + the rest, phase by phase: over the host it stays before the path, the first `/` opens the
path, and the path goes on up to the first `?` or `#` and is never entered again.
-/

namespace QingStor

/-- The scan goes on over a text. -/
def UrlScan.over (z : UrlScan) (s : Str) : Option UrlScan := s.foldlM urlStep z

theorem UrlScan.over_cons (z : UrlScan) (c : Byte) (s : Str) : z.over (c :: s) = (urlStep z c).bind (fun z => z.over s) := rfl

theorem UrlScan.over_append (z : UrlScan) (s t : Str) : z.over (s ++ t) = (z.over s).bind (fun z => z.over t) := by
  unfold UrlScan.over
  rw [List.foldlM_append]
  rfl

/-- A scan over two texts is one over the first and then one over the second. -/
theorem UrlScan.over_append_some {z z' : UrlScan} {s t : Str} (h : z.over (s ++ t) = some z') :
    ∃ z₁, z.over s = some z₁ ∧ z₁.over t = some z' := by
  rw [over_append, Option.bind_eq_some_iff] at h
  exact h

/-! ## The path, and what comes after it -/

/-- The bytes that end a path. -/
def endsPath (c : Byte) : Bool := c = '?'.toUInt8 || c = '#'.toUInt8

/-- The scan is in a path that began at `off`, after `n` bytes of it. -/
structure UrlScan.InPath (z : UrlScan) (off n : Nat) : Prop where
  s : z.s = .path
  pos : z.pos = off + n
  oldUf : z.oldUf = some .path
  path : z.u.path = some ⟨off % 2 ^ 16, n % 2 ^ 16⟩
  query : z.u.query = none
  fragment : z.u.fragment = none

/-- The states after a path, or after a host without one. -/
def UrlState.late : UrlState → Bool
  | .queryStringStart | .queryString | .fragmentStart | .fragment => true
  | _ => false

/-- The field that the states after the path fill. -/
theorem late_field {s : UrlState} (h : s.late = true) : s.field = none ∨ s.field = some .query ∨ s.field = some .fragment := by
  cases s with
  | queryString => exact Or.inr (Or.inl rfl)
  | fragment => exact Or.inr (Or.inr rfl)
  | queryStringStart | fragmentStart => exact Or.inl rfl
  | _ => cases h

/-- No byte leads back into the path. -/
theorem late_parseUrlChar {s : UrlState} (c : Byte) (h : s.late = true) (hd : parseUrlChar s c ≠ .dead) :
    (parseUrlChar s c).late = true := by
  cases s with
  | queryStringStart | queryString | fragmentStart | fragment =>
    unfold parseUrlChar at hd ⊢
    dsimp only at hd ⊢
    repeat' split
    all_goals first | rfl | simp_all
  | _ => cases h

/-- The bytes a query or a fragment may have. -/
def inUrl (c : Byte) : Bool := isUrlChar c || c = '?'.toUInt8 || c = '#'.toUInt8

/-- The bytes that end the scan after the path are the same in each state. -/
theorem late_ne_dead_iff {s : UrlState} (c : Byte) (h : s.late = true) : parseUrlChar s c ≠ .dead ↔ inUrl c = true := by
  have hblank : ∀ c : Byte, (c = ' '.toUInt8 ∨ c = '\r'.toUInt8 ∨ c = '\n'.toUInt8) ∨ c = '\t'.toUInt8 ∨ c = 12 →
      inUrl c = false := by
    rintro c ((rfl | rfl | rfl) | rfl | rfl) <;> decide
  unfold parseUrlChar
  by_cases h1 : c = ' '.toUInt8 ∨ c = '\r'.toUInt8 ∨ c = '\n'.toUInt8
  · rw [if_pos h1]
    simp [hblank c (Or.inl h1)]
  · by_cases h2 : c = '\t'.toUInt8 ∨ c = 12
    · rw [if_neg h1, if_pos h2]
      simp [hblank c (Or.inr h2)]
    · rw [if_neg h1, if_neg h2]
      unfold inUrl
      cases s with
      | queryStringStart | queryString | fragmentStart | fragment =>
        dsimp only
        by_cases hu : isUrlChar c = true
        · simp [hu]
        · by_cases hq : c = '?'.toUInt8
          · subst hq
            decide
          · by_cases hh : c = '#'.toUInt8
            · subst hh
              decide
            · simp [hu, hq, hh]
      | _ => cases h

theorem path_bump (u : HttpParserUrl) {f : UrlField} (hf : f ≠ .path) : (u.bump f).path = u.path := by
  unfold HttpParserUrl.bump
  split
  · cases f <;> first | rfl | exact absurd rfl hf
  · rfl

theorem path_open (u : HttpParserUrl) {f : UrlField} (pos : Nat) (hf : f ≠ .path) : (u.open f pos).path = u.path := by
  cases f <;> first | rfl | exact absurd rfl hf

/-- The query and the fragment in place of those of a URL. -/
def HttpParserUrl.withRest (u : HttpParserUrl) (query fragment : Option Span) : HttpParserUrl :=
  { u with query := query, fragment := fragment }

/-- The scan `z'` is past the path, and differs from `z` in the query and the fragment only. -/
structure UrlScan.Past (z z' : UrlScan) : Prop where
  late : z'.s.late = true
  foundAt : z'.foundAt = z.foundAt
  u : ∃ query fragment, z'.u = z.u.withRest query fragment

theorem UrlScan.Past.trans {z z₁ z₂ : UrlScan} (h : z.Past z₁) (h' : z₁.Past z₂) : z.Past z₂ := by
  obtain ⟨q, f, hu⟩ := h.u
  obtain ⟨q', f', hu'⟩ := h'.u
  refine ⟨h'.late, h'.foundAt.trans h.foundAt, q', f', ?_⟩
  rw [hu', hu]
  rfl

/-- What a late field does to a URL. -/
theorem withRest_of_late (u : HttpParserUrl) (f : UrlField) (pos : Nat) (hf : f = .query ∨ f = .fragment) :
    (∃ query fragment, u.bump f = u.withRest query fragment) ∧ ∃ query fragment, u.open f pos = u.withRest query fragment := by
  constructor
  · unfold HttpParserUrl.bump
    split
    · rcases hf with rfl | rfl
      · exact ⟨_, u.fragment, rfl⟩
      · exact ⟨u.query, _, rfl⟩
    · exact ⟨u.query, u.fragment, rfl⟩
  · rcases hf with rfl | rfl
    · exact ⟨_, u.fragment, rfl⟩
    · exact ⟨u.query, _, rfl⟩

/-- After the path only the query and the fragment change. -/
theorem late_step {z z' : UrlScan} {c : Byte} (hz : z.s.late = true) (h : urlStep z c = some z') : z.Past z' := by
  unfold urlStep at h
  dsimp only at h
  split at h
  · cases h
  · rename_i hd
    have hl := late_parseUrlChar c hz hd
    have hat : (parseUrlChar z.s c = .serverWithAt) = False := by
      rw [eq_iff_iff, iff_false]
      intro hs
      rw [hs] at hl
      cases hl
    rcases late_field hl with hf | hf
    · rw [hf] at h
      cases h
      exact ⟨hl, rfl, z.u.query, z.u.fragment, rfl⟩
    · obtain ⟨f, hfield, hor⟩ : ∃ f, (parseUrlChar z.s c).field = some f ∧ (f = .query ∨ f = .fragment) := by
        rcases hf with hf | hf
        · exact ⟨_, hf, Or.inl rfl⟩
        · exact ⟨_, hf, Or.inr rfl⟩
      rw [hfield] at h
      dsimp only at h
      split at h <;> cases h
      · exact ⟨hl, by simp [hat], (withRest_of_late z.u f z.pos hor).1⟩
      · exact ⟨hl, by simp [hat], (withRest_of_late z.u f z.pos hor).2⟩

theorem over_past {z z' : UrlScan} {s : Str} (hz : z.s.late = true) (h : z.over s = some z') : z.Past z' := by
  induction s generalizing z with
  | nil =>
    cases h
    exact ⟨hz, rfl, z'.u.query, z'.u.fragment, rfl⟩
  | cons c s ih =>
    rw [UrlScan.over_cons, Option.bind_eq_some_iff] at h
    obtain ⟨z₁, h1, h2⟩ := h
    have hpast := late_step hz h1
    exact hpast.trans (ih hpast.late h2)

/-- After the path its field stays as it is. -/
theorem over_late {z z' : UrlScan} {s : Str} (hz : z.s.late = true) (h : z.over s = some z') :
    z'.s.late = true ∧ z'.u.path = z.u.path := by
  have hpast := over_past hz h
  obtain ⟨q, f, hu⟩ := hpast.u
  exact ⟨hpast.late, by rw [hu]; rfl⟩

/-- After the path the scan ends well exactly over bytes a URL may have. -/
theorem over_late_isSome {z : UrlScan} (hz : z.s.late = true) (s : Str) : (z.over s).isSome = s.all inUrl := by
  induction s generalizing z with
  | nil => rfl
  | cons c s ih =>
    rw [UrlScan.over_cons, List.all_cons]
    cases hstep : urlStep z c with
    | none =>
      have hdead : parseUrlChar z.s c = .dead := by
        by_contra hd
        unfold urlStep at hstep
        rw [if_neg hd] at hstep
        dsimp only at hstep
        split at hstep
        · cases hstep
        · split at hstep <;> cases hstep
      have hc : inUrl c = false := by
        rw [← Bool.not_eq_true, ← late_ne_dead_iff c hz]
        simp [hdead]
      simp [hc]
    | some z₁ =>
      have hne : parseUrlChar z.s c ≠ .dead := by
        intro hd
        simp [urlStep, hd] at hstep
      rw [Option.bind_some, ih (late_step hz hstep).late, (late_ne_dead_iff c hz).1 hne, Bool.true_and]

/-- The bytes of a path: any that ends it leads out of it. -/
theorem parseUrlChar_path {c : Byte} (hd : parseUrlChar .path c ≠ .dead) :
    endsPath c = false ∧ parseUrlChar .path c = .path ∨
    endsPath c = true ∧ (parseUrlChar .path c).late = true ∧ (parseUrlChar .path c).field = none := by
  have hq : isUrlChar '?'.toUInt8 = false := by decide
  have hh : isUrlChar '#'.toUInt8 = false := by decide
  unfold endsPath
  unfold parseUrlChar at hd ⊢
  split at hd
  · exact absurd rfl hd
  · rename_i h1
    rw [if_neg h1]
    split at hd
    · exact absurd rfl hd
    · rename_i h2
      rw [if_neg h2]
      dsimp only at hd ⊢
      by_cases hc : isUrlChar c = true
      · have hne : c ≠ '?'.toUInt8 ∧ c ≠ '#'.toUInt8 := by
          constructor
          · rintro rfl
            rw [hq] at hc
            cases hc
          · rintro rfl
            rw [hh] at hc
            cases hc
        rw [if_pos hc]
        exact Or.inl ⟨by simp [hne.1, hne.2], rfl⟩
      · rw [if_neg hc] at hd ⊢
        split at hd
        · rename_i hc'
          rw [if_pos hc']
          exact Or.inr ⟨by simp [hc'], rfl, rfl⟩
        · rename_i hc'
          rw [if_neg hc']
          split at hd
          · rename_i hc''
            rw [if_pos hc'']
            exact Or.inr ⟨by simp [hc''], rfl, rfl⟩
          · exact absurd rfl hd

theorem path_step {z z' : UrlScan} {off n : Nat} {c : Byte} (hz : z.InPath off n) (h : urlStep z c = some z') :
    endsPath c = false ∧ z'.InPath off (n + 1) ∨ endsPath c = true ∧ z'.s.late = true ∧ z'.u.path = z.u.path := by
  unfold urlStep at h
  rw [hz.s] at h
  dsimp only at h
  split at h
  · cases h
  · rename_i hd
    rcases parseUrlChar_path hd with ⟨hc, hp⟩ | ⟨hc, hl, hf⟩
    · rw [hp] at h
      dsimp only [UrlState.field] at h
      rw [if_pos hz.oldUf] at h
      cases h
      refine Or.inl ⟨hc, rfl, ?_, hz.oldUf, ?_, ?_, ?_⟩
      · dsimp only
        rw [hz.pos, Nat.add_assoc]
      · simp [HttpParserUrl.bump, HttpParserUrl.get, HttpParserUrl.set, hz.path]
      · simp [HttpParserUrl.bump, HttpParserUrl.get, HttpParserUrl.set, hz.path, hz.query]
      · simp [HttpParserUrl.bump, HttpParserUrl.get, HttpParserUrl.set, hz.path, hz.fragment]
    · rw [hf] at h
      cases h
      exact Or.inr ⟨hc, hl, rfl⟩

/-- What a scan that is in the path makes of the rest. -/
theorem over_path {z z' : UrlScan} {off n : Nat} {t : Str} (hz : z.InPath off n) (h : z.over t = some z') :
    z'.u.path = some ⟨off % 2 ^ 16, (n + (t.takeWhile (fun c => !endsPath c)).length) % 2 ^ 16⟩ ∧
      (t.all (fun c => !endsPath c) = true ∧ z'.InPath off (n + t.length) ∨
        t.all (fun c => !endsPath c) = false ∧ z'.s.late = true) := by
  induction t generalizing z n with
  | nil =>
    cases h
    exact ⟨by simpa using hz.path, Or.inl ⟨rfl, hz⟩⟩
  | cons c t ih =>
    rw [UrlScan.over_cons, Option.bind_eq_some_iff] at h
    obtain ⟨z₁, h1, h2⟩ := h
    rcases path_step hz h1 with ⟨hc, hin⟩ | ⟨hc, hl, hp⟩
    · obtain ⟨hpath, hor⟩ := ih hin h2
      have htake : (c :: t).takeWhile (fun c => !endsPath c) = c :: t.takeWhile (fun c => !endsPath c) := by
        rw [List.takeWhile_cons, hc]
        rfl
      have hall : (c :: t).all (fun c => !endsPath c) = t.all (fun c => !endsPath c) := by
        rw [List.all_cons, hc]
        rfl
      rw [htake, hall, List.length_cons, List.length_cons, Nat.add_comm _ 1, Nat.add_comm _ 1, ← Nat.add_assoc, ← Nat.add_assoc]
      exact ⟨hpath, hor⟩
    · obtain ⟨hl', hp'⟩ := over_late hl h2
      have htake : (c :: t).takeWhile (fun c => !endsPath c) = [] := by
        rw [List.takeWhile_cons, hc]
        rfl
      have hall : (c :: t).all (fun c => !endsPath c) = false := by
        rw [List.all_cons, hc]
        rfl
      rw [htake, hall]
      exact ⟨by rw [hp', hp]; exact hz.path, Or.inr ⟨rfl, hl'⟩⟩

/-- The scan is in a query that began at `off`, after `n` bytes of it, and has a path. -/
structure UrlScan.InQuery (z : UrlScan) (path : Option Span) (off n : Nat) : Prop where
  s : z.s = .queryString
  oldUf : z.oldUf = some .query
  path : z.u.path = path
  query : z.u.query = some ⟨off % 2 ^ 16, n % 2 ^ 16⟩

theorem over_query {z z' : UrlScan} {path : Option Span} {off n : Nat} {t : Str} (hz : z.InQuery path off n)
    (ht : ∀ c ∈ t, parseUrlChar .queryString c = .queryString) (h : z.over t = some z') :
    z'.InQuery path off (n + t.length) := by
  induction t generalizing z n with
  | nil =>
    cases h
    exact hz
  | cons c t ih =>
    rw [UrlScan.over_cons, Option.bind_eq_some_iff] at h
    obtain ⟨z₁, h1, h2⟩ := h
    have hc := ht c (List.mem_cons_self ..)
    unfold urlStep at h1
    rw [hz.s, hc] at h1
    dsimp only [UrlState.field] at h1
    rw [if_neg (by decide), if_pos hz.oldUf] at h1
    have hin : z₁.InQuery path off (n + 1) := by
      rw [← Option.some.inj h1]
      refine ⟨rfl, hz.oldUf, (path_bump _ (by decide)).trans hz.path, ?_⟩
      simp [HttpParserUrl.bump, HttpParserUrl.get, HttpParserUrl.set, hz.query]
    rw [List.length_cons, Nat.add_comm t.length 1, ← Nat.add_assoc]
    exact ih hin (fun c hc => ht c (List.mem_cons_of_mem _ hc)) h2

/-- The scan goes from the path over a query of its own: the path stays, and the query is found behind it. -/
theorem over_own_query {z z' : UrlScan} {off n : Nat} {c : Byte} {t : Str} (hz : z.InPath off n)
    (hc : parseUrlChar .queryStringStart c = .queryString) (ht : ∀ c ∈ t, parseUrlChar .queryString c = .queryString)
    (h : z.over ('?'.toUInt8 :: c :: t) = some z') :
    z'.u.path = z.u.path ∧ z'.u.query = some ⟨(off + n + 1) % 2 ^ 16, (1 + t.length) % 2 ^ 16⟩ := by
  rw [UrlScan.over_cons, Option.bind_eq_some_iff] at h
  obtain ⟨z₁, h1, h⟩ := h
  rw [UrlScan.over_cons, Option.bind_eq_some_iff] at h
  obtain ⟨z₂, h2, h3⟩ := h
  have hmark : parseUrlChar .path '?'.toUInt8 = .queryStringStart := by decide
  unfold urlStep at h1
  rw [hz.s, hmark] at h1
  dsimp only [UrlState.field] at h1
  rw [if_neg (by decide)] at h1
  cases h1
  unfold urlStep at h2
  rw [hc] at h2
  dsimp only [UrlState.field] at h2
  rw [if_neg (by decide), if_neg (by rw [hz.oldUf]; decide)] at h2
  have hopened : z₂.InQuery z.u.path (off + n + 1) 1 := by
    rw [← Option.some.inj h2, ← hz.pos]
    exact ⟨rfl, rfl, path_open _ _ (by decide), rfl⟩
  have hin := over_query hopened ht h3
  exact ⟨hin.path, hin.query⟩

/-! ## The host -/

/-- The scan is in the host, before any path. -/
structure UrlScan.InServer (z : UrlScan) (pos : Nat) : Prop where
  s : z.s = .serverStart ∨ z.s = .server ∨ z.s = .serverWithAt
  pos : z.pos = pos
  oldUf : z.oldUf ≠ some .path
  path : z.u.path = none
  query : z.u.query = none
  fragment : z.u.fragment = none

/-- The bytes of a host: `/` opens the path, `?` a query, and the others stay in the host. -/
theorem parseUrlChar_server {s : UrlState} {c : Byte} (hs : s = .serverStart ∨ s = .server ∨ s = .serverWithAt)
    (hd : parseUrlChar s c ≠ .dead) :
    c = '/'.toUInt8 ∧ parseUrlChar s c = .path ∨
    c ≠ '/'.toUInt8 ∧ c = '?'.toUInt8 ∧ parseUrlChar s c = .queryStringStart ∨
    c ≠ '/'.toUInt8 ∧ c ≠ '?'.toUInt8 ∧ (parseUrlChar s c = .server ∨ parseUrlChar s c = .serverWithAt) := by
  have hserver : parseServerChar c ≠ .dead →
      c = '/'.toUInt8 ∧ parseServerChar c = .path ∨
      c ≠ '/'.toUInt8 ∧ c = '?'.toUInt8 ∧ parseServerChar c = .queryStringStart ∨
      c ≠ '/'.toUInt8 ∧ c ≠ '?'.toUInt8 ∧ (parseServerChar c = .server ∨ parseServerChar c = .serverWithAt) := by
    intro hd
    unfold parseServerChar at hd ⊢
    by_cases h1 : c = '/'.toUInt8
    · rw [if_pos h1]
      exact Or.inl ⟨h1, rfl⟩
    · rw [if_neg h1] at hd ⊢
      by_cases h2 : c = '?'.toUInt8
      · rw [if_pos h2]
        exact Or.inr (Or.inl ⟨h1, h2, rfl⟩)
      · rw [if_neg h2] at hd ⊢
        refine Or.inr (Or.inr ⟨h1, h2, ?_⟩)
        split
        · exact Or.inr rfl
        · rename_i h3
          rw [if_neg h3] at hd
          split
          · exact Or.inl rfl
          · rename_i h4
            rw [if_neg h4] at hd
            exact absurd rfl hd
  have hstep : parseUrlChar s c = .dead ∨ parseUrlChar s c = parseServerChar c := by
    unfold parseUrlChar
    split
    · exact Or.inl rfl
    · split
      · exact Or.inl rfl
      · rcases hs with rfl | rfl | rfl <;> dsimp only
        · exact Or.inr rfl
        · exact Or.inr rfl
        · split
          · exact Or.inl rfl
          · exact Or.inr rfl
  rcases hstep with h | h
  · exact absurd h hd
  · rw [h] at hd ⊢
    exact hserver hd

theorem server_step {z z' : UrlScan} {pos : Nat} {c : Byte} (hz : z.InServer pos) (h : urlStep z c = some z') :
    c = '/'.toUInt8 ∧ z'.InPath pos 1 ∨
    c = '?'.toUInt8 ∧ z'.s.late = true ∧ z'.u.path = none ∨
    c ≠ '/'.toUInt8 ∧ z'.InServer (pos + 1) := by
  unfold urlStep at h
  dsimp only at h
  split at h
  · cases h
  · rename_i hd
    rcases parseUrlChar_server hz.s hd with ⟨hc, hp⟩ | ⟨_, hc, hp⟩ | ⟨hc, _, hp⟩
    · rw [hp] at h
      dsimp only [UrlState.field] at h
      rw [if_neg hz.oldUf] at h
      cases h
      exact Or.inl ⟨hc, rfl, by rw [← hz.pos], rfl, by rw [← hz.pos]; rfl, hz.query, hz.fragment⟩
    · rw [hp] at h
      cases h
      exact Or.inr (Or.inl ⟨hc, rfl, hz.path⟩)
    · have hhost : (parseUrlChar z.s c).field = some .host := by
        rcases hp with hp | hp <;> rw [hp] <;> rfl
      have hstate : parseUrlChar z.s c = .serverStart ∨ parseUrlChar z.s c = .server ∨ parseUrlChar z.s c = .serverWithAt :=
        Or.inr hp
      rw [hhost] at h
      dsimp only at h
      refine Or.inr (Or.inr ⟨hc, ?_⟩)
      split at h
      · rename_i hold
        cases h
        refine ⟨hstate, by rw [← hz.pos], hz.oldUf, ?_, ?_, ?_⟩
        · rw [path_bump _ (by decide)]
          exact hz.path
        · unfold HttpParserUrl.bump
          split
          · exact hz.query
          · exact hz.query
        · unfold HttpParserUrl.bump
          split
          · exact hz.fragment
          · exact hz.fragment
      · cases h
        have hold : (some UrlField.host) ≠ some .path := by decide
        exact ⟨hstate, by rw [← hz.pos], hold, hz.path, hz.query, hz.fragment⟩

/-- What a scan that is in the host makes of the rest: it goes past the path without one, finds no `/`, or the path begins at
the first `/`. -/
theorem over_server {z z' : UrlScan} {pos : Nat} {s : Str} (hz : z.InServer pos) (h : z.over s = some z') :
    z'.s.late = true ∧ z'.u.path = none ∨ '/'.toUInt8 ∉ s ∧ z'.InServer (pos + s.length) ∨
    ∃ (host t : Str) (z₁ : UrlScan), s = host ++ '/'.toUInt8 :: t ∧ '/'.toUInt8 ∉ host ∧ z₁.InPath (pos + host.length) 1 ∧
      z₁.over t = some z' := by
  induction s generalizing z pos with
  | nil =>
    cases h
    exact Or.inr (Or.inl ⟨by simp, hz⟩)
  | cons c s ih =>
    rw [UrlScan.over_cons, Option.bind_eq_some_iff] at h
    obtain ⟨z₁, h1, h2⟩ := h
    have hmem : ∀ l : Str, c ≠ '/'.toUInt8 → '/'.toUInt8 ∉ l → '/'.toUInt8 ∉ c :: l := by
      intro l hc hl hm
      rcases List.mem_cons.1 hm with hm | hm
      · exact hc hm.symm
      · exact hl hm
    rcases server_step hz h1 with ⟨rfl, hin⟩ | ⟨_, hl, hp⟩ | ⟨hc, hin⟩
    · exact Or.inr (Or.inr ⟨[], s, z₁, rfl, by simp, hin, h2⟩)
    · obtain ⟨hl', hp'⟩ := over_late hl h2
      exact Or.inl ⟨hl', hp'.trans hp⟩
    · have hcount : ∀ l : Str, pos + 1 + l.length = pos + (c :: l).length := by
        intro l
        rw [List.length_cons]
        omega
      rcases ih hin h2 with h | ⟨hs, hin'⟩ | ⟨host, t, z₂, rfl, hhost, hin', hover⟩
      · exact Or.inl h
      · exact Or.inr (Or.inl ⟨hmem s hc hs, hcount s ▸ hin'⟩)
      · exact Or.inr (Or.inr ⟨c :: host, t, z₂, rfl, hmem host hc hhost, hcount host ▸ hin', hover⟩)

/-- Where a scan of `https://` leaves the machine. -/
theorem over_https : ∃ z, UrlScan.start.over (lit "https://") = some z ∧ z.InServer 8 := by
  refine ⟨_, rfl, Or.inl rfl, rfl, by decide, rfl, rfl, rfl⟩

/-! ## The host once more -/

/-- `http_parse_host` does not touch the path and what follows it. -/
theorem httpParseHost_path {buf : Str} {u u' : HttpParserUrl} {h : Span} {foundAt : Bool}
    (heq : httpParseHost buf u h foundAt = some u') :
    u'.path = u.path ∧ u'.query = u.query ∧ u'.fragment = u.fragment := by
  have hbump : ∀ (u : HttpParserUrl) (f : UrlField), f ≠ .path → f ≠ .query → f ≠ .fragment →
      (u.bump f).path = u.path ∧ (u.bump f).query = u.query ∧ (u.bump f).fragment = u.fragment := by
    intro u f h1 h2 h3
    unfold HttpParserUrl.bump
    split
    · cases f <;> first | exact ⟨rfl, rfl, rfl⟩ | exact absurd rfl h1 | exact absurd rfl h2 | exact absurd rfl h3
    · exact ⟨rfl, rfl, rfl⟩
  have hstep : ∀ (z z' : HostScan) (c : Byte), hostStep z c = some z' →
      z'.u.path = z.u.path ∧ z'.u.query = z.u.query ∧ z'.u.fragment = z.u.fragment := by
    intro z z' c hz
    unfold hostStep at hz
    dsimp only at hz
    split at hz
    · cases hz
    all_goals cases hz
    all_goals dsimp only
    all_goals first
      | exact ⟨rfl, rfl, rfl⟩
      | exact hbump _ _ (by decide) (by decide) (by decide)
      | (split <;> first | exact hbump _ _ (by decide) (by decide) (by decide) | exact ⟨rfl, rfl, rfl⟩)
  have hrun : ∀ (s : Str) (z z' : HostScan), s.foldlM hostStep z = some z' →
      z'.u.path = z.u.path ∧ z'.u.query = z.u.query ∧ z'.u.fragment = z.u.fragment := by
    intro s
    induction s with
    | nil =>
      intro z z' hz
      cases hz
      exact ⟨rfl, rfl, rfl⟩
    | cons c s ih =>
      intro z z' hz
      rw [List.foldlM_cons] at hz
      obtain ⟨z₁, h1, h2⟩ := Option.bind_eq_some_iff.1 hz
      obtain ⟨a1, a2, a3⟩ := hstep _ _ _ h1
      obtain ⟨b1, b2, b3⟩ := ih _ _ h2
      exact ⟨b1.trans a1, b2.trans a2, b3.trans a3⟩
  unfold httpParseHost at heq
  dsimp only at heq
  split at heq
  · cases heq
  · rename_i z hz
    split at heq
    · cases heq
    · cases heq
      exact hrun _ _ _ hz

/-- What is parsed of a URL comes from the scan, but for the parts of the host. -/
theorem httpParserParseUrl_some {url : Str} {u : HttpParserUrl} (h : httpParserParseUrl url = some u) :
    ∃ z, scanUrl url = some z ∧ u.path = z.u.path ∧ u.query = z.u.query ∧ u.fragment = z.u.fragment := by
  unfold httpParserParseUrl at h
  split at h
  · cases h
  · rename_i z hz
    refine ⟨z, hz, ?_⟩
    split at h
    · cases h
    · dsimp only at h
      split at h
      · cases h
      · rename_i u₁ hu
        have hpath : u₁.path = z.u.path ∧ u₁.query = z.u.query ∧ u₁.fragment = z.u.fragment := by
          split at hu
          · exact httpParseHost_path hu
          · cases hu
            exact ⟨rfl, rfl, rfl⟩
        split at h
        · split at h
          · cases h
          · cases h
            exact hpath
        · cases h
          exact hpath

end QingStor
