import Mathlib.Data.List.TakeWhile
import QingStor.JsonText

/-!
# Reading objects

Reading is compositional: a text behind another is read from where the first one leaves the reader. A comma and a line feed
leave it before a member or an element whatever comes in front of them, since no string goes on over a line feed, so lines that
read by themselves read together.
-/

namespace QingStor

namespace JsonText

/-- A text in quotes. -/
def quote (s : Str) : Str := '"'.toUInt8 :: s ++ ['"'.toUInt8]

/-- The line of a member. -/
def memberLine (name value : Str) : Str :=
  quote name ++ [':'.toUInt8, ' '.toUInt8] ++ value ++ [','.toUInt8, '\n'.toUInt8]

theorem read_append (p : Place) (s t : Str) :
    p.read (s ++ t) = (p.read s).bind (fun q => (q.1.read t).map (fun r => (r.1, q.2 ++ r.2))) := by
  induction s generalizing p with
  | nil => simp [Place.read]
  | cons b s ih =>
    simp only [List.cons_append, Place.read]
    cases p.next b with
    | none => rfl
    | some q =>
      simp only [Option.bind_some, ih]
      cases q.1.read s with
      | none => rfl
      | some r => cases h : r.1.read t <;> simp [h]

/-- A text behind one that ended without a member. -/
theorem read_append_of_nil {p q : Place} {s : Str} (h : p.read s = some (q, [])) (t : Str) : p.read (s ++ t) = q.read t := by
  rw [read_append, h]
  cases hq : q.read t <;> simp [hq]

/-- A text read to a place goes through the places its parts are read to. -/
theorem read_append_eq_some {p r : Place} {s t : Str} {ms : Members} (h : p.read (s ++ t) = some (r, ms)) :
    ∃ q l m, p.read s = some (q, l) ∧ q.read t = some (r, m) ∧ ms = l ++ m := by
  rw [read_append] at h
  obtain ⟨⟨q, l⟩, hs, ht⟩ := Option.bind_eq_some_iff.1 h
  obtain ⟨⟨r', m⟩, hm, heq⟩ := Option.map_eq_some_iff.1 ht
  cases heq
  exact ⟨q, l, m, hs, hm, rfl⟩

theorem read_cons_eq_some {p r : Place} {b : Byte} {t : Str} {ms : Members} (h : p.read (b :: t) = some (r, ms)) :
    ∃ q l m, p.next b = some (q, l) ∧ q.read t = some (r, m) ∧ ms = l ++ m := by
  rw [Place.read] at h
  obtain ⟨⟨q, l⟩, hb, ht⟩ := Option.bind_eq_some_iff.1 h
  obtain ⟨⟨r', m⟩, hm, heq⟩ := Option.map_eq_some_iff.1 ht
  cases heq
  exact ⟨q, l, m, hb, hm, rfl⟩

/-! ## Strings -/

/-- Bytes decode to themselves. -/
theorem decode_bytes (s : Str) : decode (s.map .byte) = s := by
  unfold decode
  induction s with
  | nil => rfl
  | cons b s ih => simp [decodeFrom, ih]

/-- How long a piece of a string may be once it is decoded. -/
def Unit16.weight : Unit16 → Nat
  | .byte _ => 1
  | .unit _ => 4

theorem utf8_length (n : Nat) : (utf8 n).length ≤ 4 := by
  unfold utf8
  split_ifs <;> simp

theorem soleUnit_length (n : Nat) : (soleUnit n).length ≤ 4 := utf8_length _

/-- A string decodes to no more bytes than its pieces may have. -/
theorem decodeFrom_length (high : Option Nat) (us : List Unit16) :
    (decodeFrom high us).length ≤ (high.elim 0 fun _ => 4) + (us.map Unit16.weight).sum := by
  have hhigh : ∀ high : Option Nat, (high.elim [] soleUnit).length ≤ high.elim 0 fun _ => 4 := by
    intro high
    cases high with
    | none => exact le_refl 0
    | some h => exact soleUnit_length h
  induction us generalizing high with
  | nil => simpa [decodeFrom] using hhigh high
  | cons u us ih =>
    have hflush := hhigh high
    have hnone := ih none
    rw [List.map_cons, List.sum_cons]
    cases u with
    | byte b =>
      simp only [decodeFrom, List.length_append, List.length_cons, Unit16.weight, Option.elim_none] at hnone ⊢
      omega
    | unit n =>
      have hsole := soleUnit_length n
      have hpair := utf8_length (0x10000 + (high.getD 0 - 0xD800) * 0x400 + (n - 0xDC00))
      have hsome := ih (some n)
      simp only [decodeFrom, Unit16.weight, Option.elim_none, Option.elim_some] at hnone hsome ⊢
      split_ifs with hjoin hh
      · obtain ⟨h, rfl⟩ := Option.isSome_iff_exists.1 hjoin.1
        simp only [List.length_append, Option.elim_some] at hpair ⊢
        omega
      · rw [List.length_append]
        omega
      · rw [List.length_append, List.length_append]
        omega

theorem decode_length (us : List Unit16) : (decode us).length ≤ (us.map Unit16.weight).sum := by
  have h := decodeFrom_length none us
  rwa [Option.elim_none, Nat.zero_add] at h

/-- A plain byte in a string stands for itself. -/
theorem next_plain (r : Role) (us : List Unit16) {b : Byte} (hb : isPlain b = true) :
    (Place.string r us).next b = some (.string r (us ++ [.byte b]), []) := by
  simp only [isPlain, Bool.and_eq_true, decide_eq_true_eq] at hb
  obtain ⟨⟨hquote, hslash⟩, hspace⟩ := hb
  simp only [Place.next]
  rw [if_neg hquote, if_neg hslash, if_neg (not_lt.2 hspace)]

theorem read_plain (r : Role) (us : List Unit16) {t : Str} (ht : Plain t) :
    (Place.string r us).read t = some (.string r (us ++ t.map .byte), []) := by
  induction t generalizing us with
  | nil => simp [Place.read]
  | cons b t ih =>
    have hb : isPlain b = true := ht b List.mem_cons_self
    have htail : Plain t := fun c hc => ht c (List.mem_cons_of_mem _ hc)
    rw [Place.read, next_plain r us hb]
    simp [ih (us ++ [.byte b]) htail]

/-- A plain text up to its closing quote. -/
theorem read_quoted (r : Role) {s : Str} (hs : Plain s) (t : Str) :
    (Place.string r []).read (s ++ '"'.toUInt8 :: t) = (r.ended s).read t := by
  have hclose : (Place.string r (s.map .byte)).read ['"'.toUInt8] = some (r.ended s, []) := by
    rw [Place.read, Place.next, if_pos rfl, decode_bytes]
    rfl
  have hread := read_plain r [] hs
  rw [List.nil_append] at hread
  refine (read_append_of_nil hread _).trans ?_
  exact read_append_of_nil (s := ['"'.toUInt8]) hclose t

/-- The line of a member up to its value. -/
theorem read_name {name : Str} (hname : Plain name) (t : Str) :
    (Place.member .top).read (quote name ++ [':'.toUInt8, ' '.toUInt8] ++ t) = (Place.value (.top name)).read t := by
  refine read_append_of_nil ?_ t
  rw [quote, List.cons_append, List.cons_append, List.append_assoc]
  refine (read_append_of_nil (s := ['"'.toUInt8]) (q := .string (.name .top) []) rfl _).trans ?_
  exact (read_quoted (.name .top) hname [':'.toUInt8, ' '.toUInt8]).trans rfl

/-- A member whose value is a string without escapes. -/
theorem readMembers_quote {name s : Str} (hname : Plain name) (hs : Plain s) :
    readMembers (memberLine name (quote s)) = some [(name, .string s)] := by
  rw [readMembers, memberLine, List.append_assoc, read_name hname]
  have hvalue : (Place.value (.top name)).read (quote s ++ [','.toUInt8, '\n'.toUInt8]) =
      some (.member .top, [(name, .string s)]) := by
    rw [quote, List.cons_append, List.cons_append, List.append_assoc]
    refine (read_append_of_nil (s := ['"'.toUInt8]) (q := .string (.value (.top name)) []) rfl _).trans ?_
    exact (read_quoted (.value (.top name)) hs [','.toUInt8, '\n'.toUInt8]).trans rfl
  rw [hvalue]

/-- A value that ended is the first member read. -/
theorem read_comma {k : Str} {v : Json} {t : Str} {ms : Members}
    (h : (Place.comma (.top k) v).read t = some (.member .top, ms)) : ∃ ms', ms = (k, v) :: ms' := by
  induction t generalizing ms with
  | nil => cases h
  | cons b t ih =>
    obtain ⟨q, l, m, hb, hm, rfl⟩ := read_cons_eq_some h
    simp only [Place.next, Place.behind] at hb
    split at hb
    · cases hb
      exact ih hm
    · split at hb
      · cases hb
        exact ⟨m, rfl⟩
      · split at hb
        · cases hb
          exact ⟨m, rfl⟩
        · split at hb <;> cases hb

/-- The value of the member `k` is a string whose pieces are `us` and then others, and what is known of these. -/
def StringOf (k : Str) (us : List Unit16) (ms : Members) (known : List Unit16 → Prop) : Prop :=
  ∃ us' ms', ms = (k, .string (decode (us ++ us'))) :: ms' ∧ known us'

theorem StringOf.cons {k : Str} {us : List Unit16} {u : Unit16} {ms : Members} {known known' : List Unit16 → Prop}
    (h : StringOf k (us ++ [u]) ms known) (hknown : ∀ us', known us' → known' (u :: us')) : StringOf k us ms known' := by
  obtain ⟨us', ms', rfl, h⟩ := h
  exact ⟨u :: us', ms', by simp, hknown us' h⟩

theorem StringOf.imp {k : Str} {us : List Unit16} {ms : Members} {known known' : List Unit16 → Prop}
    (h : StringOf k us ms known) (hknown : ∀ us', known us' → known' us') : StringOf k us ms known' := by
  obtain ⟨us', ms', rfl, h⟩ := h
  exact ⟨us', ms', rfl, hknown us' h⟩

/-- What a string is read as, written between quotes with nothing escaped: the bytes themselves if they are plain, and otherwise
less than them. In the same way from the inside of an escape, whose bytes so far count. -/
theorem read_string (k : Str) (u : Str) :
    (∀ us ms, (Place.string (.value (.top k)) us).read (u ++ ['"'.toUInt8, ','.toUInt8, '\n'.toUInt8]) = some (.member .top, ms) →
        StringOf k us ms fun us' => Plain u ∧ us' = u.map .byte ∨ (us'.map Unit16.weight).sum < u.length) ∧
      (∀ us ms, (Place.escape (.value (.top k)) us).read (u ++ ['"'.toUInt8, ','.toUInt8, '\n'.toUInt8]) =
        some (.member .top, ms) → StringOf k us ms fun us' => (us'.map Unit16.weight).sum < u.length + 1) ∧
      ∀ us n digits ms, (Place.hex (.value (.top k)) us n digits).read (u ++ ['"'.toUInt8, ','.toUInt8, '\n'.toUInt8]) =
        some (.member .top, ms) → StringOf k us ms fun us' => (us'.map Unit16.weight).sum < u.length + 2 + digits := by
  induction u with
  | nil =>
    refine ⟨fun us ms h => ?_, ?_, ?_⟩
    rotate_left
    · intro us ms h
      cases h
    · intro us n digits ms h
      cases h
    have hclose := read_append_of_nil (p := .string (.value (.top k)) us) (s := ['"'.toUInt8])
      (q := .comma (.top k) (.string (decode us))) rfl [','.toUInt8, '\n'.toUInt8]
    obtain ⟨ms', hms⟩ := read_comma (hclose.symm.trans h)
    exact ⟨[], ms', by simpa using hms, Or.inl ⟨fun b hb => absurd hb List.not_mem_nil, rfl⟩⟩
  | cons b u ih =>
    obtain ⟨ihs, ihe, ihh⟩ := ih
    have hbound : ∀ us' : List Unit16, (Plain u ∧ us' = u.map .byte ∨ (us'.map Unit16.weight).sum < u.length) →
        (us'.map Unit16.weight).sum ≤ u.length := by
      rintro us' (⟨-, rfl⟩ | hlt)
      · have hone : Unit16.weight ∘ Unit16.byte = fun _ => 1 := rfl
        simp [hone]
      · exact hlt.le
    refine ⟨fun us ms h => ?_, fun us ms h => ?_, fun us n digits ms h => ?_⟩
    · obtain ⟨q, l, m, hb, hm, rfl⟩ := read_cons_eq_some h
      simp only [Place.next] at hb
      by_cases hquote : b = '"'.toUInt8
      · rw [if_pos hquote] at hb
        cases hb
        obtain ⟨ms', hms⟩ := read_comma hm
        exact ⟨[], ms', by simpa using hms, Or.inr (by simp)⟩
      · rw [if_neg hquote] at hb
        by_cases hslash : b = '\\'.toUInt8
        · rw [if_pos hslash] at hb
          cases hb
          exact (ihe us m hm).imp fun us' hlt => Or.inr (by simpa using hlt)
        · rw [if_neg hslash] at hb
          by_cases hspace : b < ' '.toUInt8
          · rw [if_pos hspace] at hb
            cases hb
          · rw [if_neg hspace] at hb
            cases hb
            refine (ihs _ m hm).cons fun us' hus' => ?_
            rcases hus' with ⟨hu, rfl⟩ | hlt
            · refine Or.inl ⟨?_, rfl⟩
              intro c hc
              rcases List.mem_cons.1 hc with rfl | hc
              · simp only [isPlain, Bool.and_eq_true, decide_eq_true_eq]
                exact ⟨⟨hquote, hslash⟩, not_lt.1 hspace⟩
              · exact hu c hc
            · refine Or.inr ?_
              simp only [List.map_cons, List.sum_cons, List.length_cons, Unit16.weight]
              omega
    · obtain ⟨q, l, m, hb, hm, rfl⟩ := read_cons_eq_some h
      simp only [Place.next] at hb
      by_cases hu : b = 'u'.toUInt8
      · rw [if_pos hu] at hb
        cases hb
        refine (ihh us 0 0 m hm).imp fun us' hlt => ?_
        simp only [List.length_cons]
        omega
      · rw [if_neg hu] at hb
        obtain ⟨c, -, heq⟩ := Option.map_eq_some_iff.1 hb
        cases heq
        refine (ihs _ m hm).cons fun us' hus' => ?_
        have hle := hbound us' hus'
        simp only [List.map_cons, List.sum_cons, List.length_cons, Unit16.weight]
        omega
    · obtain ⟨q, l, m, hb, hm, rfl⟩ := read_cons_eq_some h
      obtain ⟨d, -, heq⟩ := Option.map_eq_some_iff.1 hb
      by_cases hdigits : digits = 3
      · rw [if_pos hdigits] at heq
        cases heq
        refine (ihs _ m hm).cons fun us' hus' => ?_
        have hle := hbound us' hus'
        simp only [List.map_cons, List.sum_cons, List.length_cons, Unit16.weight]
        omega
      · rw [if_neg hdigits] at heq
        cases heq
        refine (ihh us _ _ m hm).imp fun us' hlt => ?_
        simp only [List.length_cons]
        omega

/-- What a value in quotes with nothing escaped is read as. -/
theorem readMembers_quoted {name value : Str} {ms : Members} (hname : Plain name)
    (h : readMembers (memberLine name (quote value)) = some ms) :
    ∃ s ms', ms = (name, .string s) :: ms' ∧ (Plain value ∧ s = value ∨ s.length < value.length) := by
  simp only [readMembers] at h
  split at h
  · rename_i ms' hread
    cases h
    rw [memberLine, List.append_assoc, read_name hname, quote, List.cons_append, List.cons_append, List.append_assoc] at hread
    have hopen := read_append_of_nil (p := .value (.top name)) (s := ['"'.toUInt8]) (q := .string (.value (.top name)) []) rfl
      (value ++ ['"'.toUInt8, ','.toUInt8, '\n'.toUInt8])
    obtain ⟨us', ms', hms, hus'⟩ := (read_string name value).1 [] _ (hopen.symm.trans hread)
    refine ⟨_, ms', hms, ?_⟩
    rcases hus' with ⟨hplain, rfl⟩ | hlt
    · exact Or.inl ⟨hplain, decode_bytes value⟩
    · exact Or.inr ((decode_length us').trans_lt hlt)
  · cases h

/-! ## Numbers -/

theorem next_digit (g : Goal) (w : Str) {b : Byte} (hb : isDigit b = true) :
    (Place.word g w).next b = some (.word g (w ++ [b]), []) := by
  have hword : ¬ (isSpace b = true ∨ b = ','.toUInt8 ∨ b = '}'.toUInt8 ∨ b = ']'.toUInt8) := by
    simp only [isSpace, Bool.or_eq_true, decide_eq_true_eq]
    rintro ((((rfl | rfl) | rfl) | rfl) | rfl | rfl | rfl) <;> exact absurd hb (by decide)
  simp only [Place.next]
  rw [if_neg hword]

theorem read_digits (g : Goal) (w : Str) {ds : Str} (hds : Digits ds) :
    (Place.word g w).read ds = some (.word g (w ++ ds), []) := by
  induction ds generalizing w with
  | nil => simp [Place.read]
  | cons b ds ih =>
    rw [Place.read, next_digit g w (hds b List.mem_cons_self)]
    simp [ih (w ++ [b]) (fun c hc => hds c (List.mem_cons_of_mem _ hc))]

/-- A value that is digits is an integer or none. -/
theorem wordValue_digits {ds : Str} (hne : ds ≠ []) (hds : Digits ds) :
    wordValue ds = if isNumber ds = true then some (.int (clamped (natOf ds))) else none := by
  obtain ⟨b, t, rfl⟩ := List.exists_cons_of_ne_nil hne
  have hb : isDigit b = true := hds b List.mem_cons_self
  have hword : ∀ w : Str, w.head?.any isDigit = false → b :: t ≠ w := by
    rintro w hw rfl
    rw [List.head?_cons, Option.any_some, hb] at hw
    cases hw
  have hminus : (b :: t).head? ≠ some '-'.toUInt8 := by
    rw [List.head?_cons]
    rintro heq
    rw [Option.some.inj heq] at hb
    exact absurd hb (by decide)
  have htake : (b :: t).takeWhile isDigit = b :: t := List.takeWhile_eq_self_iff.2 hds
  have hdrop : (b :: t).dropWhile isDigit = [] := List.dropWhile_eq_nil_iff.2 hds
  rw [wordValue, if_neg (hword _ (by decide)), if_neg (hword _ (by decide)), if_neg (hword _ (by decide)), if_neg hminus,
    unsignedValue, htake, hdrop, if_pos rfl, one_mul]
  by_cases hnumber : isNumber (b :: t) = true
  · rw [if_neg (not_not.2 hnumber), if_pos hnumber]
  · rw [if_pos hnumber, if_neg hnumber]

/-- A member whose value is digits. -/
theorem readMembers_digits {name ds : Str} (hname : Plain name) (hne : ds ≠ []) (hds : Digits ds) :
    readMembers (memberLine name ds) = if isNumber ds = true then some [(name, .int (clamped (natOf ds)))] else none := by
  rw [readMembers, memberLine, List.append_assoc, read_name hname]
  have hvalue := wordValue_digits hne hds
  cases ds with
  | nil => exact absurd rfl hne
  | cons b ds =>
    have hb : isDigit b = true := hds b List.mem_cons_self
    have hfirst : (Place.value (.top name)).read [b] = some (.word (.top name) [b], []) := by
      have hspace : ¬ isSpace b = true := by
        simp only [isSpace, Bool.or_eq_true, decide_eq_true_eq]
        rintro (((rfl | rfl) | rfl) | rfl) <;> exact absurd hb (by decide)
      have hdepth : ¬ tokenerDepth ≤ (Goal.top name).depth := by
        simp [tokenerDepth, Goal.depth]
      have hopen : b ≠ '"'.toUInt8 ∧ b ≠ '['.toUInt8 ∧ b ≠ '{'.toUInt8 := by
        refine ⟨?_, ?_, ?_⟩ <;> (rintro rfl; exact absurd hb (by decide))
      simp only [Place.read, Place.next, Place.first]
      rw [if_neg hspace, if_neg hdepth, if_neg hopen.1, if_neg hopen.2.1, if_neg hopen.2.2]
      rfl
    have hdigits := read_digits (.top name) [b] (fun c hc => hds c (List.mem_cons_of_mem _ hc))
    have hword : (Place.value (.top name)).read (b :: ds ++ [','.toUInt8, '\n'.toUInt8]) =
        (Place.word (.top name) (b :: ds)).read [','.toUInt8, '\n'.toUInt8] :=
      (read_append_of_nil hfirst _).trans (read_append_of_nil hdigits _)
    have hend : (Place.word (.top name) (b :: ds)).read [','.toUInt8, '\n'.toUInt8] =
        (wordValue (b :: ds)).map (fun v => (.member .top, [(name, v)])) := by
      cases h : wordValue (b :: ds) with
      | none => simp [Place.read, Place.next, h]
      | some v =>
        have hcomma : (Place.word (.top name) (b :: ds)).next ','.toUInt8 = some (.member .top, [(name, v)]) := by
          simp only [Place.next, h]
          rfl
        rw [Place.read, hcomma]
        rfl
    rw [hword, hend, hvalue]
    by_cases hnumber : isNumber (b :: ds) = true
    · rw [if_pos hnumber, if_pos hnumber]
      rfl
    · rw [if_neg hnumber, if_neg hnumber]
      rfl

/-! ## Lines -/

/-- A value that begins with a comma has no end. -/
theorem read_first_comma {g : Goal} {q r : Place} {l m : Members} (hcomma : Place.first g ','.toUInt8 = some (q, l))
    (hfeed : q.next '\n'.toUInt8 = some (r, m)) : False := by
  unfold Place.first at hcomma
  split at hcomma
  · cases hcomma
  · cases hcomma
    cases hfeed

/-- After a comma and a line feed the reader is before a member or an element. -/
theorem read_lineEnd {p r : Place} {ms : Members} (h : p.read [','.toUInt8, '\n'.toUInt8] = some (r, ms)) :
    (∃ o, r = .member o) ∨ ∃ vs g, r = .element vs g := by
  obtain ⟨q, l, m, hcomma, hfeed, -⟩ := read_cons_eq_some h
  obtain ⟨q', l', m', hnext, hend, -⟩ := read_cons_eq_some hfeed
  cases hend
  have hbehind : ∀ {g : Goal} {v : Json}, Place.behind g v ','.toUInt8 = some (q, l) →
      (∃ o, r = .member o) ∨ ∃ vs g, r = .element vs g := by
    intro g v hg
    cases g with
    | top k =>
      cases hg
      cases hnext
      exact Or.inl ⟨_, rfl⟩
    | element vs g =>
      cases hg
      cases hnext
      exact Or.inr ⟨_, _, rfl⟩
    | member ms k g =>
      cases hg
      cases hnext
      exact Or.inl ⟨_, rfl⟩
  cases p with
  | member o => cases hcomma
  | element vs g => exact (read_first_comma hcomma hnext).elim
  | string r us =>
    cases hcomma
    cases hnext
  | escape r us => cases hcomma
  | hex r us n digits => cases hcomma
  | colon o k => cases hcomma
  | value g => exact (read_first_comma hcomma hnext).elim
  | word g w =>
    obtain ⟨v, -, hv⟩ := Option.bind_eq_some_iff.1 hcomma
    exact hbehind hv
  | comma g v => exact hbehind hcomma
  | closed => cases hcomma

theorem readMembers_eq_some {t : Str} {ms : Members} :
    readMembers t = some ms ↔ (Place.member .top).read t = some (.member .top, ms) := by
  unfold readMembers
  constructor
  · intro h
    split at h
    · rename_i hread
      cases h
      exact hread
    · cases h
  · intro h
    rw [h]

/-- Lines that read by themselves read together. -/
theorem readMembers_flatten {lines : List Str} {mss : List Members}
    (h : List.Forall₂ (fun l ms => readMembers l = some ms) lines mss) : readMembers lines.flatten = some mss.flatten := by
  induction h with
  | nil => rfl
  | cons hl _ ih =>
    rw [readMembers_eq_some] at hl ih ⊢
    rw [List.flatten_cons, read_append, hl]
    simp [ih]

/-- An object that opens with a line feed, and whose text inside ends with a comma and another, is what that text is. -/
theorem readObject_lines {t : Str} (ht : ∃ u, t = u ++ [','.toUInt8, '\n'.toUInt8]) {ms : Members} :
    readObject (['{'.toUInt8, '\n'.toUInt8] ++ t ++ ['}'.toUInt8]) = some ms ↔ readMembers t = some ms := by
  have hfeed := read_append_of_nil (p := .member .top) (q := .member .top) (s := ['\n'.toUInt8]) rfl (t ++ ['}'.toUInt8])
  have hopen : readObject (['{'.toUInt8, '\n'.toUInt8] ++ t ++ ['}'.toUInt8]) = some ms ↔
      (Place.member .top).read (t ++ ['}'.toUInt8]) = some (.closed, ms) := by
    rw [← hfeed, List.append_assoc, List.cons_append, readObject, if_pos rfl]
    constructor
    · intro h
      split at h
      · rename_i hread
        cases h
        exact hread
      · cases h
    · intro h
      rw [List.singleton_append] at h
      rw [List.singleton_append, h]
  rw [hopen, readMembers_eq_some]
  constructor
  · intro h
    obtain ⟨q, l, m, hl, hclose, rfl⟩ := read_append_eq_some h
    obtain ⟨u, rfl⟩ := ht
    obtain ⟨q', l', m', -, hend, -⟩ := read_append_eq_some hl
    obtain ⟨q₂, l₂, m₂, hbrace, hnil, rfl⟩ := read_cons_eq_some hclose
    cases hnil
    rcases read_lineEnd hend with ⟨o, rfl⟩ | ⟨vs, g, rfl⟩
    · cases o with
      | top =>
        cases hbrace
        simpa using hl
      | nested ms g => cases hbrace
    · have hfirst : Place.first (.element vs g) '}'.toUInt8 = some (.closed, l₂) := hbrace
      unfold Place.first at hfirst
      split at hfirst <;> cases hfirst
  · intro h
    rw [read_append, h]
    simp only [Option.bind_some]
    rw [show (Place.member .top).read ['}'.toUInt8] = some (.closed, []) from rfl]
    simp

/-! ## The members of an object -/

/-- A name that is added has its new value, and the others keep theirs. -/
theorem objectGetEx_addMember (ms : Members) (m : Str × Json) (k : Str) :
    (Json.object (addMember ms m)).objectGetEx k = if m.1 = k then some m.2 else (Json.object ms).objectGetEx k := by
  have hmap : ∀ ms : Members, ((ms.map (fun e => if e.1 = m.1 then m else e)).find? (fun e => e.1 = k)).map (·.2) =
      if m.1 = k ∧ ms.any (fun e => e.1 = m.1) then some m.2 else (ms.find? (fun e => e.1 = k)).map (·.2) := by
    intro ms
    induction ms with
    | nil => simp
    | cons e ms ih =>
      rw [List.map_cons, List.any_cons]
      by_cases he : e.1 = m.1
      · rw [if_pos he]
        by_cases hk : m.1 = k
        · rw [List.find?_cons_of_pos (by simpa using hk), if_pos ⟨hk, by rw [decide_eq_true he, Bool.true_or]⟩]
          rfl
        · have hke : e.1 ≠ k := fun h => hk (he.symm.trans h)
          rw [List.find?_cons_of_neg (by simpa using hk), List.find?_cons_of_neg (by simpa using hke), ih,
            if_neg (fun h => hk h.1), if_neg (fun h => hk h.1)]
      · rw [if_neg he, decide_eq_false he, Bool.false_or]
        by_cases hk : e.1 = k
        · have hne : m.1 ≠ k := fun h => he (hk.trans h.symm)
          rw [List.find?_cons_of_pos (by simpa using hk), List.find?_cons_of_pos (by simpa using hk), if_neg (fun h => hne h.1)]
        · rw [List.find?_cons_of_neg (by simpa using hk), List.find?_cons_of_neg (by simpa using hk), ih]
  simp only [Json.objectGetEx, addMember]
  by_cases hany : ms.any (fun e => e.1 = m.1) = true
  · rw [if_pos hany, hmap, hany]
    simp
  · rw [if_neg hany, List.find?_append, Option.map_or]
    by_cases hk : m.1 = k
    · have hnone : ms.find? (fun e => e.1 = k) = none := by
        rw [List.find?_eq_none]
        intro e he heq
        refine hany (List.any_eq_true.2 ⟨e, he, ?_⟩)
        simpa [hk] using heq
      simp [hnone, hk]
    · cases ms.find? (fun e => e.1 = k) <;> simp [hk]

/-- The member of a name in an object is the last one read with it. -/
theorem objectGetEx_objectOf (ms : Members) (k : Str) : (objectOf ms).objectGetEx k = lastValue ms k := by
  have hfold : ∀ ms acc : Members, (Json.object (ms.foldl addMember acc)).objectGetEx k =
      (lastValue ms k).or ((Json.object acc).objectGetEx k) := by
    intro ms
    induction ms with
    | nil => exact fun acc => rfl
    | cons m ms ih =>
      intro acc
      rw [List.foldl_cons, ih, objectGetEx_addMember, lastValue, lastValue, List.reverse_cons, List.find?_append, Option.map_or,
        Option.or_assoc]
      by_cases hk : m.1 = k <;> simp [hk]
  rw [objectOf, hfold]
  simp [Json.objectGetEx]

/-- A name that comes once has the value it comes with. -/
theorem lastValue_of_mem {ms : Members} {k : Str} {v : Json} (hnd : (ms.map Prod.fst).Nodup) (h : (k, v) ∈ ms) :
    lastValue ms k = some v := by
  obtain ⟨m, hm⟩ : ∃ m, ms.reverse.find? (fun m => m.1 = k) = some m := by
    refine Option.isSome_iff_exists.1 (List.find?_isSome.2 ⟨(k, v), List.mem_reverse.2 h, ?_⟩)
    exact decide_eq_true rfl
  have hmem : m ∈ ms := List.mem_reverse.1 (List.mem_of_find?_eq_some hm)
  have hkey : m.1 = k := by simpa using List.find?_some hm
  have heq : m = (k, v) := List.inj_on_of_nodup_map hnd hmem h hkey
  rw [lastValue, hm, heq]
  rfl

end JsonText

end QingStor
