import QingStor.Lemmas.Listing
import QingStor.QingStorWriter

/-!
# The lookups of the response extractors

An extractor asks the response for one member after another, gives up at the first that is missing, and uses the others at a type
it does not look at. `Lookup` is one such question with its answer, and `walk` is what a row of them comes to. Each extractor does
what `walk` says of its own row.
-/

namespace QingStor

/-- The types the extractors use members at; the value of a member used at `any` is put into no field. -/
inductive JsonType where
  | string | int | array | any
  deriving DecidableEq, Repr

namespace Json

/-- The value is of the type. -/
def is : Json → JsonType → Bool
  | .string _, .string => true
  | .int _, .int => true
  | .array _, .array => true
  | _, .any => true
  | _, _ => false

/-- The value can be used at the type without leaving the language: a string is not made from a null pointer, and a length is
taken of an array only. -/
def bears : Json → JsonType → Bool
  | .null, .string => false
  | .array _, .array => true
  | _, .array => false
  | _, _ => true

/-- The elements of an array. -/
def elements : Json → List Json
  | .array elements => elements
  | _ => []

theorem bears_of_is {v : Json} {t : JsonType} (h : v.is t = true) : v.bears t = true := by
  cases v <;> cases t <;> first | rfl | cases h

theorem is_string_iff {v : Json} : v.is .string = true ↔ ∃ s, v = .string s := by
  cases v <;> simp [is]

theorem is_int_iff {v : Json} : v.is .int = true ↔ ∃ n, v = .int n := by
  cases v <;> simp [is]

theorem is_array_iff {v : Json} : v.is .array = true ↔ ∃ elements, v = .array elements := by
  cases v <;> simp [is]

/-- A string is made of every value but a null pointer. -/
theorem stdString_cases (J : JsonC) (v : Json) :
    v.bears .string = true ∧ (∃ s, v.stdString J = .ok s) ∨
      v.bears .string = false ∧ ∃ what, v.stdString J = .error (.undefined what) := by
  cases v <;> simp [bears, stdString, getString]

/-- The length is that of an array. -/
theorem arrayLength_cases (v : Json) :
    v.bears .array = true ∧ v.arrayLength = .ok v.elements.length ∧ (List.range v.elements.length).map v.arrayGetIdx = v.elements ∨
      v.bears .array = false ∧ ∃ what, v.arrayLength = .error (.undefined what) := by
  cases v with
  | array elements => exact Or.inl ⟨rfl, rfl, range_map_arrayGetIdx elements⟩
  | _ => exact Or.inr ⟨rfl, _, rfl⟩

end Json

/-- A question of an extractor: what is found, nothing when the answer makes it give up, and the type it is used at. -/
structure Lookup where
  found : Option Json
  expects : JsonType

/-- Something is found, and it is of the type. -/
def Lookup.Fits (l : Lookup) : Prop := ∃ v, l.found = some v ∧ v.is l.expects = true

/-- Something is found that can be used at the type. -/
def Lookup.Bears (l : Lookup) : Prop := ∃ v, l.found = some v ∧ v.bears l.expects = true

theorem Lookup.Fits.bears {l : Lookup} (h : l.Fits) : l.Bears := by
  obtain ⟨v, hv, his⟩ := h
  exact ⟨v, hv, Json.bears_of_is his⟩

/-- What the lookups come to: `false` at the first that finds nothing, and no result at the first whose value cannot be used. -/
def walk : List Lookup → Option Bool
  | [] => some true
  | l :: ls =>
    match l.found with
    | none => some false
    | some v => if v.bears l.expects then walk ls else none

/-- One of the lookups finds nothing, and all before it find what can be used. -/
def Refused (ls : List Lookup) : Prop :=
  ∃ before l after, ls = before ++ l :: after ∧ l.found = none ∧ ∀ k ∈ before, k.Bears

theorem walk_cons_missing {l : Lookup} (h : l.found = none) (ls : List Lookup) : walk (l :: ls) = some false := by
  simp only [walk, h]

theorem walk_cons_bears {l : Lookup} (h : l.Bears) (ls : List Lookup) : walk (l :: ls) = walk ls := by
  obtain ⟨v, hv, hb⟩ := h
  simp only [walk, hv, hb, if_true]

theorem walk_cons_breaks {l : Lookup} {v : Json} (hv : l.found = some v) (h : v.bears l.expects = false) (ls : List Lookup) :
    walk (l :: ls) = none := by
  simp [walk, hv, h]

/-- Lookups that all find what can be used are as good as none. -/
theorem walk_append_bears {ls : List Lookup} (h : ∀ l ∈ ls, l.Bears) (ks : List Lookup) : walk (ls ++ ks) = walk ks := by
  induction ls with
  | nil => rfl
  | cons l ls ih =>
    rw [List.cons_append, walk_cons_bears (h l (List.mem_cons_self ..))]
    exact ih (fun k hk => h k (List.mem_cons_of_mem _ hk))

theorem walk_eq_false_iff (ls : List Lookup) : walk ls = some false ↔ Refused ls := by
  constructor
  · intro h
    induction ls with
    | nil => cases h
    | cons l ls ih =>
      cases hv : l.found with
      | none => exact ⟨[], l, ls, rfl, hv, fun k hk => by cases hk⟩
      | some v =>
        cases hb : v.bears l.expects with
        | false =>
          rw [walk_cons_breaks hv hb] at h
          cases h
        | true =>
          have hl : l.Bears := ⟨v, hv, hb⟩
          rw [walk_cons_bears hl] at h
          obtain ⟨before, k, after, rfl, hk, hbefore⟩ := ih h
          refine ⟨l :: before, k, after, rfl, hk, fun j hj => ?_⟩
          rcases List.mem_cons.1 hj with rfl | hj
          · exact hl
          · exact hbefore j hj
  · rintro ⟨before, l, after, rfl, hl, hbefore⟩
    rw [walk_append_bears hbefore, walk_cons_missing hl]

theorem walk_eq_true_iff (ls : List Lookup) : walk ls = some true ↔ ∀ l ∈ ls, l.Bears := by
  constructor
  · intro h
    induction ls with
    | nil => exact fun l hl => by cases hl
    | cons l ls ih =>
      cases hv : l.found with
      | none =>
        rw [walk_cons_missing hv] at h
        cases h
      | some v =>
        cases hb : v.bears l.expects with
        | false =>
          rw [walk_cons_breaks hv hb] at h
          cases h
        | true =>
          have hl : l.Bears := ⟨v, hv, hb⟩
          rw [walk_cons_bears hl] at h
          intro k hk
          rcases List.mem_cons.1 hk with rfl | hk
          · exact hl
          · exact ih h k hk
  · intro h
    have hall := walk_append_bears h []
    rwa [List.append_nil] at hall

/-- Lookups that stop are not followed by others. -/
theorem walk_append_stops {ls : List Lookup} (h : walk ls ≠ some true) (ks : List Lookup) : walk (ls ++ ks) = walk ls := by
  induction ls with
  | nil => exact absurd rfl h
  | cons l ls ih =>
    rw [List.cons_append]
    cases hv : l.found with
    | none => rw [walk_cons_missing hv, walk_cons_missing hv]
    | some v =>
      cases hb : v.bears l.expects with
      | false => rw [walk_cons_breaks hv hb, walk_cons_breaks hv hb]
      | true =>
        have hl : l.Bears := ⟨v, hv, hb⟩
        rw [walk_cons_bears hl] at h
        rw [walk_cons_bears hl, walk_cons_bears hl, ih h]

/-- A function that answers with a boolean does what a row of lookups comes to: `none` is a use outside the language. -/
def Answers (r : Except Fault Bool) : Option Bool → Prop
  | some b => r = .ok b
  | none => ∃ what, r = .error (.undefined what)

theorem Answers.ok_iff {r : Except Fault Bool} {o : Option Bool} (h : Answers r o) (b : Bool) : r = .ok b ↔ o = some b := by
  cases o with
  | some c =>
    have hr : r = .ok c := h
    rw [hr, Except.ok.injEq, Option.some.injEq]
  | none =>
    obtain ⟨what, hr⟩ := h
    rw [hr]
    simp

/-! ## A page of a listing -/

/-- The lookups for one element of `keys`. -/
def keyLookups (element : Json) : List Lookup :=
  [⟨element.objectGetEx (lit "key"), .string⟩, ⟨element.objectGetEx (lit "size"), .int⟩]

/-- The lookups of `extractListObjectContent`. -/
def listLookups (respBody : Json) : List Lookup :=
  [⟨respBody.objectGetEx (lit "name"), .string⟩, ⟨respBody.objectGetEx (lit "prefix"), .string⟩,
    ⟨respBody.objectGetEx (lit "limit"), .int⟩, ⟨respBody.objectGetEx (lit "keys"), .array⟩] ++
    ((respBody.objectGetEx (lit "keys")).getD .null).elements.flatMap keyLookups

/-- What the loop makes of one element. -/
def HoldsKey (J : JsonC) (element : Json) (item : ObjectInfo) : Prop :=
  (∃ v, element.objectGetEx (lit "key") = some v ∧ v.stdString J = .ok item.key) ∧
    (∃ v, element.objectGetEx (lit "size") = some v ∧ item.size = v.getInt64 J) ∧ item.range = ⟨0, 0⟩

/-- The loop over the elements: it ends when each has its members, with one entry for each, and the last key as the marker. -/
theorem extractKeys_walk (J : JsonC) (elements : List Json) (st : ListState) :
    Answers (extractKeys J elements st).1 (walk (elements.flatMap keyLookups)) ∧
      ((extractKeys J elements st).1 = .ok true → ∃ items, List.Forall₂ (HoldsKey J) elements items ∧
        (extractKeys J elements st).2 = { st with
          result := { st.result with objects := st.result.objects ++ items }
          currentMarker := (items.map (·.key)).getLastD st.currentMarker }) := by
  induction elements generalizing st with
  | nil => exact ⟨rfl, fun _ => ⟨[], .nil, by simp [extractKeys]⟩⟩
  | cons e elements ih =>
    rw [List.flatMap_cons]
    unfold extractKeys keyLookups
    cases hkey : e.objectGetEx (lit "key") with
    | none => exact ⟨rfl, fun h => by simp at h⟩
    | some v =>
      dsimp only
      rcases v.stdString_cases J with ⟨hb, key, hok⟩ | ⟨hb, what, herr⟩
      · rw [hok, List.cons_append, walk_cons_bears ⟨v, rfl, hb⟩]
        cases hsize : e.objectGetEx (lit "size") with
        | none => exact ⟨rfl, fun h => by simp at h⟩
        | some w =>
          dsimp only
          rw [List.cons_append, walk_cons_bears ⟨w, rfl, by cases w <;> rfl⟩, List.nil_append]
          obtain ⟨hans, hitems⟩ := ih { st with
            result := { st.result with objects := st.result.objects ++ [⟨key, w.getInt64 J, ⟨0, 0⟩⟩] }
            currentMarker := if elements.isEmpty then key else st.currentMarker }
          refine ⟨hans, fun h => ?_⟩
          obtain ⟨items, hall, heq⟩ := hitems h
          refine ⟨⟨key, w.getInt64 J, ⟨0, 0⟩⟩ :: items, .cons ⟨⟨v, hkey, hok⟩, ⟨w, hsize, rfl⟩, rfl⟩ hall, ?_⟩
          rw [heq]
          have hmarker : (items.map (·.key)).getLastD (if elements.isEmpty then key else st.currentMarker) =
              (key :: items.map (·.key)).getLastD st.currentMarker := by
            cases hall with
            | nil => rfl
            | cons _ _ =>
              rw [List.map_cons, List.getLastD_cons, List.getLastD_cons, List.getLastD_cons]
          simp only [hmarker, List.map_cons, List.append_assoc, List.singleton_append]
      · rw [herr, List.cons_append, walk_cons_breaks rfl hb]
        exact ⟨⟨what, rfl⟩, fun h => by cases h⟩

/-- The array of keys and its elements. -/
theorem extractKeyList_walk (J : JsonC) (Q : Qsort) (respBody : Json) (st : ListState) :
    Answers (extractKeyList J Q respBody st).1 (walk (⟨respBody.objectGetEx (lit "keys"), .array⟩ ::
        ((respBody.objectGetEx (lit "keys")).getD .null).elements.flatMap keyLookups)) ∧
      ((extractKeyList J Q respBody st).1 = .ok true → ∃ v items, respBody.objectGetEx (lit "keys") = some v ∧
        List.Forall₂ (HoldsKey J) v.elements items ∧
        (extractKeyList J Q respBody st).2.result = { st.result with objects := Q.sort (st.result.objects ++ items) } ∧
        (extractKeyList J Q respBody st).2.currentMarker = (items.map (·.key)).getLastD st.currentMarker) := by
  unfold extractKeyList
  cases hkeys : respBody.objectGetEx (lit "keys") with
  | none => exact ⟨rfl, fun h => by simp at h⟩
  | some keys =>
    dsimp only
    rcases keys.arrayLength_cases with ⟨hb, hlength, hget⟩ | ⟨hb, what, herr⟩
    · rw [hlength, walk_cons_bears ⟨keys, rfl, hb⟩, Option.getD_some]
      dsimp only
      rw [hget]
      generalize hst : ({ st with eof := _ } : ListState) = st₁
      have hsame : st₁.result = st.result ∧ st₁.currentMarker = st.currentMarker := by
        rw [← hst]
        exact ⟨rfl, rfl⟩
      obtain ⟨hans, hitems⟩ := extractKeys_walk J keys.elements st₁
      generalize extractKeys J keys.elements st₁ = o at hans hitems ⊢
      obtain ⟨r, st'⟩ := o
      dsimp only at hans hitems
      rcases r with f | b
      · exact ⟨hans, fun h => by cases h⟩
      · cases b with
        | false => exact ⟨hans, fun h => by simp at h⟩
        | true =>
          obtain ⟨items, hall, rfl⟩ := hitems rfl
          refine ⟨hans, fun _ => ⟨keys, items, rfl, hall, ?_, ?_⟩⟩
          · dsimp only
            rw [hsame.1]
          · dsimp only
            rw [hsame.2]
    · rw [herr, walk_cons_breaks rfl hb]
      exact ⟨⟨what, rfl⟩, fun h => by cases h⟩

/-- What a page leaves in the state of the listing. -/
structure HoldsPage (J : JsonC) (Q : Qsort) (respBody : Json) (st st' : ListState) : Prop where
  name : ∃ v, respBody.objectGetEx (lit "name") = some v ∧ v.stdString J = .ok st'.result.name
  keyPrefix : ∃ v, respBody.objectGetEx (lit "prefix") = some v ∧ v.stdString J = .ok st'.result.keyPrefix
  limit : ∃ v, respBody.objectGetEx (lit "limit") = some v ∧ st'.result.limit = (v.getInt J % 2 ^ 32).toNat
  keys : ∃ v items, respBody.objectGetEx (lit "keys") = some v ∧ List.Forall₂ (HoldsKey J) v.elements items ∧
    st'.result.objects = Q.sort (st.result.objects ++ items) ∧
    st'.currentMarker = (items.map (·.key)).getLastD st.currentMarker

/-- `extractListObjectContent` does what its lookups come to. -/
theorem extractListObjectContent_walk (J : JsonC) (Q : Qsort) (respBody : Json) (st : ListState) :
    Answers (extractListObjectContent J Q respBody st).1 (walk (listLookups respBody)) ∧
      ((extractListObjectContent J Q respBody st).1 = .ok true →
        HoldsPage J Q respBody st (extractListObjectContent J Q respBody st).2) := by
  unfold extractListObjectContent listLookups
  simp only [List.cons_append, List.nil_append]
  cases hname : respBody.objectGetEx (lit "name") with
  | none => exact ⟨rfl, fun h => by simp at h⟩
  | some name =>
    dsimp only
    rcases name.stdString_cases J with ⟨hb, text, hok⟩ | ⟨hb, what, herr⟩
    · rw [hok, walk_cons_bears ⟨name, rfl, hb⟩]
      cases hprefix : respBody.objectGetEx (lit "prefix") with
      | none => exact ⟨rfl, fun h => by simp at h⟩
      | some keyPrefix =>
        dsimp only
        rcases keyPrefix.stdString_cases J with ⟨hb', text', hok'⟩ | ⟨hb', what, herr⟩
        · rw [hok', walk_cons_bears ⟨keyPrefix, rfl, hb'⟩]
          cases hlimit : respBody.objectGetEx (lit "limit") with
          | none => exact ⟨rfl, fun h => by simp at h⟩
          | some limit =>
            rw [walk_cons_bears ⟨limit, rfl, by cases limit <;> rfl⟩]
            dsimp only
            obtain ⟨hans, hpage⟩ := extractKeyList_walk J Q respBody { st with
              result := { st.result with name := text, keyPrefix := text', limit := (limit.getInt J % 2 ^ 32).toNat } }
            refine ⟨hans, fun h => ?_⟩
            obtain ⟨keys, items, hkeys, hall, hresult, hmarker⟩ := hpage h
            refine ⟨⟨name, hname, ?_⟩, ⟨keyPrefix, hprefix, ?_⟩, ⟨limit, hlimit, ?_⟩, keys, items, hkeys, hall, ?_, hmarker⟩
            all_goals rw [hresult]
            · exact hok
            · exact hok'
        · rw [herr, walk_cons_breaks rfl hb']
          exact ⟨⟨what, rfl⟩, fun h => by cases h⟩
    · rw [herr, walk_cons_breaks rfl hb]
      exact ⟨⟨what, rfl⟩, fun h => by cases h⟩

/-! ## Values with nothing for `false` -/

/-- A function that answers with a value, or with nothing for `false`, does what a row of lookups comes to, and its value is as
stated. -/
structure Follows {α : Type} (r : Except Fault (Option α)) (ls : List Lookup) (P : α → Prop) : Prop where
  answers : Answers (r.map Option.isSome) (walk ls)
  value : ∀ a, r = .ok (some a) → P a

theorem Follows.refused_iff {α : Type} {r : Except Fault (Option α)} {ls : List Lookup} {P : α → Prop} (h : Follows r ls P) :
    r = .ok none ↔ Refused ls := by
  rw [← walk_eq_false_iff, ← h.answers.ok_iff]
  rcases r with f | a
  · simp [Except.map]
  · cases a <;> simp [Except.map]

theorem Follows.value_iff {α : Type} {r : Except Fault (Option α)} {ls : List Lookup} {P : α → Prop} (h : Follows r ls P) :
    (∃ a, r = .ok (some a)) ↔ ∀ l ∈ ls, l.Bears := by
  rw [← walk_eq_true_iff, ← h.answers.ok_iff]
  rcases r with f | a
  · simp [Except.map]
  · cases a <;> simp [Except.map]

theorem Follows.pure {α : Type} {a : α} {P : α → Prop} (h : P a) : Follows (.ok (some a)) [] P :=
  ⟨rfl, fun _ hb => (Option.some.inj (Except.ok.inj hb)) ▸ h⟩

/-- One function after another makes the lookups of both. -/
theorem Follows.bind {α γ : Type} {x : OptionT (Except Fault) α} {k : α → OptionT (Except Fault) γ} {ls m : List Lookup}
    {P : α → Prop} {Q : γ → Prop} (hx : Follows x.run ls P) (hk : ∀ a, P a → Follows (k a).run m Q) :
    Follows (x >>= k).run (ls ++ m) Q := by
  obtain ⟨hans, hvalue⟩ := hx
  rw [OptionT.run_bind]
  cases hr : x.run with
  | error f =>
    rw [hr] at hans
    have hstop : walk ls ≠ some true := fun h => by
      rw [h] at hans
      cases hans
    refine ⟨?_, fun a h => by cases h⟩
    rw [walk_append_stops hstop]
    exact hans
  | ok o =>
    rw [hr] at hans
    cases o with
    | none =>
      have hstop : walk ls = some false := (hans.ok_iff false).1 rfl
      refine ⟨?_, fun a h => by cases h⟩
      rw [walk_append_stops (by rw [hstop]; simp), hstop]
      rfl
    | some a =>
      have hgoes : walk ls = some true := (hans.ok_iff true).1 rfl
      obtain ⟨hans', hvalue'⟩ := hk a (hvalue a hr)
      refine ⟨?_, fun c h => hvalue' c h⟩
      rw [walk_append_bears ((walk_eq_true_iff ls).1 hgoes)]
      exact hans'

/-- A loop over elements makes the lookups of each. -/
theorem Follows.mapM {γ : Type} {body : Json → OptionT (Except Fault) γ} {lookups : Json → List Lookup} {R : Json → γ → Prop}
    (h : ∀ e, Follows (body e).run (lookups e) (R e)) (elements : List Json) :
    Follows (elements.mapM body).run (elements.flatMap lookups) (List.Forall₂ R elements) := by
  induction elements with
  | nil => exact .pure .nil
  | cons e elements ih =>
    rw [List.mapM_cons, List.flatMap_cons]
    refine (h e).bind (fun a ha => ?_)
    have hrest := ih.bind (k := fun rest => Pure.pure (a :: rest)) (m := []) (Q := List.Forall₂ R (e :: elements))
      (fun rest hrest => .pure (.cons ha hrest))
    rwa [List.append_nil] at hrest

/-! ## A list of buckets -/

/-- A text is made of the member with that name. -/
def ReadsText (J : JsonC) (v : Json) (key text : Str) : Prop := ∃ w, v.objectGetEx key = some w ∧ w.stdString J = .ok text

theorem bucketMember_follows (J : JsonC) (element : Json) (key : Str) :
    Follows (bucketMember J element key).run [⟨element.objectGetEx key, .string⟩] (ReadsText J element key) := by
  unfold bucketMember ReadsText
  cases hkey : element.objectGetEx key with
  | none => exact ⟨rfl, fun a h => by cases h⟩
  | some v =>
    dsimp only
    rw [OptionT.run_lift]
    rcases v.stdString_cases J with ⟨hb, text, hok⟩ | ⟨hb, what, herr⟩
    · rw [hok]
      refine ⟨by rw [walk_cons_bears ⟨v, rfl, hb⟩]; rfl, fun a h => ?_⟩
      obtain rfl : text = a := by simpa using h
      exact ⟨v, rfl, hok⟩
    · rw [herr]
      refine ⟨by rw [walk_cons_breaks rfl hb]; exact ⟨what, rfl⟩, fun a h => by cases h⟩

/-- The lookups for one element of `buckets`. -/
def bucketLookups (element : Json) : List Lookup :=
  [⟨element.objectGetEx (lit "name"), .string⟩, ⟨element.objectGetEx (lit "location"), .string⟩,
    ⟨element.objectGetEx (lit "url"), .string⟩, ⟨element.objectGetEx (lit "created"), .string⟩]

/-- What the loop makes of one element. -/
structure HoldsBucket (J : JsonC) (element : Json) (b : BucketInfo) : Prop where
  name : ReadsText J element (lit "name") b.name
  location : ReadsText J element (lit "location") b.location
  url : ReadsText J element (lit "url") b.url
  created : ReadsText J element (lit "created") b.created

theorem extractBucket_follows (J : JsonC) (element : Json) :
    Follows (extractBucket J element).run (bucketLookups element) (HoldsBucket J element) := by
  unfold extractBucket bucketLookups
  refine (bucketMember_follows J element (lit "name")).bind (m := [_, _, _]) (fun name hname => ?_)
  refine (bucketMember_follows J element (lit "location")).bind (m := [_, _]) (fun location hlocation => ?_)
  refine (bucketMember_follows J element (lit "url")).bind (m := [_]) (fun url hurl => ?_)
  exact (bucketMember_follows J element (lit "created")).bind (m := [])
    (fun created hcreated => .pure ⟨hname, hlocation, hurl, hcreated⟩)

/-- The lookups of `extractListBucketContent`: the count is asked for, and once the array is there it must be its length. -/
def listBucketLookups (J : JsonC) (respBody : Json) : List Lookup :=
  let elements := ((respBody.objectGetEx (lit "buckets")).getD .null).elements
  [⟨respBody.objectGetEx (lit "count"), .any⟩, ⟨respBody.objectGetEx (lit "buckets"), .array⟩,
    ⟨(respBody.objectGetEx (lit "count")).filter (fun c => (elements.length : Int) = c.getInt J), .any⟩] ++
    elements.flatMap bucketLookups

/-- `extractListBucketContent` does what its lookups come to. -/
theorem extractListBucketContent_follows (J : JsonC) (respBody : Json) :
    Follows (extractListBucketContent J respBody) (listBucketLookups J respBody) (fun buckets =>
      ∃ v, respBody.objectGetEx (lit "buckets") = some v ∧ List.Forall₂ (HoldsBucket J) v.elements buckets) := by
  have hany : ∀ v : Json, v.bears .any = true := fun v => by cases v <;> rfl
  unfold extractListBucketContent listBucketLookups
  simp only [List.cons_append, List.nil_append]
  cases hcount : respBody.objectGetEx (lit "count") with
  | none => exact ⟨rfl, fun a h => by cases h⟩
  | some count =>
    dsimp only
    cases hbuckets : respBody.objectGetEx (lit "buckets") with
    | none =>
      refine ⟨by rw [walk_cons_bears ⟨count, rfl, hany count⟩]; rfl, fun a h => by cases h⟩
    | some buckets =>
      dsimp only
      rcases buckets.arrayLength_cases with ⟨hb, hlength, hget⟩ | ⟨hb, what, herr⟩
      · rw [hlength, Option.getD_some]
        dsimp only
        rw [hget]
        split
        · rename_i hne
          refine ⟨?_, fun a h => by cases h⟩
          rw [walk_cons_bears ⟨count, rfl, hany count⟩, walk_cons_bears ⟨buckets, rfl, hb⟩,
            walk_cons_missing (by simpa using hne)]
          rfl
        · rename_i heq
          rw [not_not] at heq
          obtain ⟨hans, hvalue⟩ := Follows.mapM (extractBucket_follows J) buckets.elements
          refine ⟨?_, fun a h => ⟨buckets, rfl, hvalue a h⟩⟩
          rw [walk_cons_bears ⟨count, rfl, hany count⟩, walk_cons_bears ⟨buckets, rfl, hb⟩,
            walk_cons_bears ⟨count, by simpa using heq, hany count⟩]
          exact hans
      · rw [herr]
        refine ⟨?_, fun a h => by cases h⟩
        rw [walk_cons_bears ⟨count, rfl, hany count⟩, walk_cons_breaks rfl hb]
        exact ⟨what, rfl⟩

/-! ## Head and the upload id -/

/-- The lookups of `extractHeadObjectContent`. -/
def headLookups (respBody : Json) : List Lookup :=
  [⟨respBody.objectGetEx (lit "Content-Type"), .string⟩, ⟨respBody.objectGetEx (lit "Content-Length"), .int⟩,
    ⟨respBody.objectGetEx (lit "Last-Modified"), .string⟩]

/-- What is made of the headers. -/
structure HoldsHead (J : JsonC) (respBody : Json) (r : HeadObjectResult) : Prop where
  contentType : ReadsText J respBody (lit "Content-Type") r.contentType
  contentLength : ∃ v, respBody.objectGetEx (lit "Content-Length") = some v ∧ r.contentLength = v.getInt64 J
  lastModified : ReadsText J respBody (lit "Last-Modified") r.lastModified

/-- `extractHeadObjectContent` does what its lookups come to. -/
theorem extractHeadObjectContent_follows (J : JsonC) (respBody : Json) :
    Follows (extractHeadObjectContent J respBody) (headLookups respBody) (HoldsHead J respBody) := by
  unfold extractHeadObjectContent headLookups
  cases htype : respBody.objectGetEx (lit "Content-Type") with
  | none => exact ⟨rfl, fun a h => by cases h⟩
  | some v =>
    dsimp only
    rcases v.stdString_cases J with ⟨hb, text, hok⟩ | ⟨hb, what, herr⟩
    · rw [hok]
      cases hlength : respBody.objectGetEx (lit "Content-Length") with
      | none => exact ⟨by rw [walk_cons_bears ⟨v, rfl, hb⟩]; rfl, fun a h => by cases h⟩
      | some n =>
        have hn : (⟨some n, .int⟩ : Lookup).Bears := ⟨n, rfl, by cases n <;> rfl⟩
        dsimp only
        cases hmodified : respBody.objectGetEx (lit "Last-Modified") with
        | none => exact ⟨by rw [walk_cons_bears ⟨v, rfl, hb⟩, walk_cons_bears hn]; rfl, fun a h => by cases h⟩
        | some w =>
          dsimp only
          rcases w.stdString_cases J with ⟨hb', text', hok'⟩ | ⟨hb', what, herr⟩
          · rw [hok']
            refine ⟨?_, fun a h => ?_⟩
            · rw [walk_cons_bears ⟨v, rfl, hb⟩, walk_cons_bears hn, walk_cons_bears ⟨w, rfl, hb'⟩]
              rfl
            · obtain rfl := Option.some.inj (Except.ok.inj h)
              exact ⟨⟨v, htype, hok⟩, ⟨n, hlength, rfl⟩, ⟨w, hmodified, hok'⟩⟩
          · rw [herr]
            refine ⟨?_, fun a h => by cases h⟩
            rw [walk_cons_bears ⟨v, rfl, hb⟩, walk_cons_bears hn, walk_cons_breaks rfl hb']
            exact ⟨what, rfl⟩
    · rw [herr]
      exact ⟨by rw [walk_cons_breaks rfl hb]; exact ⟨what, rfl⟩, fun a h => by cases h⟩

/-- The lookups of `extractUploadIDContent`. -/
def uploadLookups (respBody : Json) : List Lookup :=
  [⟨respBody.objectGetEx (lit "upload_id"), .string⟩, ⟨respBody.objectGetEx (lit "key"), .string⟩]

/-- `extractUploadIDContent` does what its lookups come to. -/
theorem extractUploadIDContent_follows (J : JsonC) (respBody : Json) :
    Follows (extractUploadIDContent J respBody) (uploadLookups respBody)
      (fun ids => ReadsText J respBody (lit "upload_id") ids.1 ∧ ReadsText J respBody (lit "key") ids.2) := by
  unfold extractUploadIDContent uploadLookups
  cases hid : respBody.objectGetEx (lit "upload_id") with
  | none => exact ⟨rfl, fun a h => by cases h⟩
  | some v =>
    dsimp only
    rcases v.stdString_cases J with ⟨hb, text, hok⟩ | ⟨hb, what, herr⟩
    · rw [hok]
      cases hkey : respBody.objectGetEx (lit "key") with
      | none => exact ⟨by rw [walk_cons_bears ⟨v, rfl, hb⟩]; rfl, fun a h => by cases h⟩
      | some w =>
        dsimp only
        rcases w.stdString_cases J with ⟨hb', text', hok'⟩ | ⟨hb', what, herr⟩
        · rw [hok']
          refine ⟨?_, fun a h => ?_⟩
          · rw [walk_cons_bears ⟨v, rfl, hb⟩, walk_cons_bears ⟨w, rfl, hb'⟩]
            rfl
          · obtain rfl := Option.some.inj (Except.ok.inj h)
            exact ⟨⟨v, hid, hok⟩, ⟨w, hkey, hok'⟩⟩
        · rw [herr]
          refine ⟨?_, fun a h => by cases h⟩
          rw [walk_cons_bears ⟨v, rfl, hb⟩, walk_cons_breaks rfl hb']
          exact ⟨what, rfl⟩
    · rw [herr]
      exact ⟨by rw [walk_cons_breaks rfl hb]; exact ⟨what, rfl⟩, fun a h => by cases h⟩

end QingStor
