import QingStor.Lib.Percent
import Mathlib.Data.List.TakeWhile

/-!
# The query of a URL

What stands after the first `?` of a URL, without the fragment, is split at each `&` into fields, and each field at its first `=`
into a name and a value, which are percent-decoded. A value that is put into a URL as it is comes back whole exactly when it has
no `#`, no `&` and no escape.
-/

namespace Lib

def ampersand : UInt8 := 38

def equalsSign : UInt8 := 61

def questionMark : UInt8 := 63

def numberSign : UInt8 := 35

/-- What stands before the first occurrence of a byte. -/
def before (c : UInt8) (s : List UInt8) : List UInt8 := s.takeWhile (· ≠ c)

/-- What stands after the first occurrence of a byte. -/
def beyond (c : UInt8) (s : List UInt8) : List UInt8 := (s.dropWhile (· ≠ c)).drop 1

/-- A field of a query: its name and its value. -/
def field (piece : List UInt8) : List UInt8 × List UInt8 :=
  (percentDecode (before equalsSign piece), percentDecode (beyond equalsSign piece))

/-- The fields of the query of a URL. -/
def fields (url : List UInt8) : List (List UInt8 × List UInt8) :=
  ((beyond questionMark (before numberSign url)).splitOn ampersand).map field

/-- The value of the first field with a name, empty when there is none. -/
def param (name url : List UInt8) : List UInt8 := (((fields url).find? (fun f => f.1 = name)).map (·.2)).getD []

/-- A text that comes back whole from a query it was put into as it is. -/
def Clean (s : List UInt8) : Prop := numberSign ∉ s ∧ ampersand ∉ s ∧ ¬ Escaped s

theorem clean_nil : Clean [] := by
  refine ⟨List.not_mem_nil, List.not_mem_nil, ?_⟩
  rintro ⟨a, h, l, b, heq, _⟩
  simp at heq

/-- A name that is written as it is. -/
def PlainName (s : List UInt8) : Prop := ∀ c ∈ s, c ≠ numberSign ∧ c ≠ ampersand ∧ c ≠ equalsSign ∧ c ≠ percent

instance (s : List UInt8) : Decidable (PlainName s) := 
  List.decidableBAll (fun c => c ≠ numberSign ∧ c ≠ ampersand ∧ c ≠ equalsSign ∧ c ≠ percent) s

/-! ## Cutting at a byte -/

theorem before_append_of_notMem {c : UInt8} {s : List UInt8} (h : c ∉ s) (t : List UInt8) :
    before c (s ++ t) = s ++ before c t := by
  refine List.takeWhile_append_of_pos (fun x hx => ?_)
  have hne : x ≠ c := fun he => h (he ▸ hx)
  simpa using hne

theorem before_of_notMem {c : UInt8} {s : List UInt8} (h : c ∉ s) : before c s = s := by
  have := before_append_of_notMem h []
  simpa [before] using this

theorem before_cons_self (c : UInt8) (s : List UInt8) : before c (c :: s) = [] := by
  simp [before]

theorem before_cons_of_ne {c d : UInt8} (h : d ≠ c) (s : List UInt8) : before c (d :: s) = d :: before c s := by
  simp [before, h]

/-- What follows an occurrence does not matter. -/
theorem before_append_cons (c : UInt8) (s t : List UInt8) : before c (s ++ c :: t) = before c s := by
  induction s with
  | nil => rw [List.nil_append, before_cons_self]; rfl
  | cons d s ih =>
    by_cases h : d = c
    · rw [List.cons_append, h, before_cons_self, before_cons_self]
    · rw [List.cons_append, before_cons_of_ne h, before_cons_of_ne h, ih]

/-- What stands before and after a first occurrence is determined by the text. -/
theorem append_cons_inj {c : UInt8} {a b x y : List UInt8} (ha : c ∉ a) (hb : c ∉ b) (h : a ++ c :: x = b ++ c :: y) :
    a = b ∧ x = y := by
  have hbefore := congrArg (before c) h
  rw [before_append_cons, before_append_cons, before_of_notMem ha, before_of_notMem hb] at hbefore
  subst hbefore
  exact ⟨rfl, (List.cons.inj (List.append_cancel_left h)).2⟩

theorem length_before_le (c : UInt8) (s : List UInt8) : (before c s).length ≤ s.length :=
  (List.takeWhile_prefix _).length_le

theorem length_before_lt {c : UInt8} {s : List UInt8} (h : c ∈ s) : (before c s).length < s.length := by
  obtain ⟨a, b, rfl⟩ := List.append_of_mem h
  have := length_before_le c a
  rw [before_append_cons, List.length_append, List.length_cons]
  omega

theorem decide_ne_of_notMem {c : UInt8} {s : List UInt8} (h : c ∉ s) : ∀ x ∈ s, decide (x ≠ c) = true := by
  intro x hx
  exact decide_eq_true (fun he => h (he ▸ hx))

theorem beyond_append_cons {c : UInt8} {s : List UInt8} (h : c ∉ s) (t : List UInt8) : beyond c (s ++ c :: t) = t := by
  unfold beyond
  rw [List.dropWhile_append_of_pos (decide_ne_of_notMem h)]
  simp

theorem beyond_of_notMem {c : UInt8} {s : List UInt8} (h : c ∉ s) : beyond c s = [] := by
  unfold beyond
  rw [List.dropWhile_eq_nil_iff.2 (decide_ne_of_notMem h)]
  rfl

/-! ## Values -/

/-- What comes back of a value. -/
def readBack (v : List UInt8) : List UInt8 := percentDecode (before ampersand (before numberSign v))

/-- A value comes back whole when it is clean, and only then: whatever cuts or decodes it makes it shorter. -/
theorem readBack_eq_self_iff (v : List UInt8) : readBack v = v ↔ Clean v := by
  have h1 := length_percentDecode_le (before ampersand (before numberSign v))
  have h2 := length_before_le ampersand (before numberSign v)
  constructor
  · intro h
    have hlen := congrArg List.length h
    unfold readBack at hlen
    have hnum : numberSign ∉ v := by
      intro hm
      have := length_before_lt hm
      omega
    have hv : before numberSign v = v := before_of_notMem hnum
    rw [hv] at h1 h2
    have hamp : ampersand ∉ v := by
      intro hm
      have := length_before_lt hm
      rw [hv] at hlen
      omega
    refine ⟨hnum, hamp, ?_⟩
    rw [readBack, hv, before_of_notMem hamp] at h
    exact (percentDecode_eq_self_iff v).1 h
  · rintro ⟨hnum, hamp, hesc⟩
    rw [readBack, before_of_notMem hnum, before_of_notMem hamp]
    exact (percentDecode_eq_self_iff v).2 hesc

theorem PlainName.notMem {s : List UInt8} (h : PlainName s) :
    numberSign ∉ s ∧ ampersand ∉ s ∧ equalsSign ∉ s ∧ percent ∉ s :=
  ⟨fun hm => (h _ hm).1 rfl, fun hm => (h _ hm).2.1 rfl, fun hm => (h _ hm).2.2.1 rfl, fun hm => (h _ hm).2.2.2 rfl⟩

theorem PlainName.percentDecode {s : List UInt8} (h : PlainName s) : percentDecode s = s := by
  refine percentDecode_of_not_escaped ?_
  rintro ⟨a, x, y, b, rfl, _⟩
  exact h.notMem.2.2.2 (List.mem_append_right _ (List.mem_cons_self ..))

/-- A field that is written as it is. -/
theorem field_of_plainName {name : List UInt8} (h : PlainName name) (v : List UInt8) :
    field (name ++ equalsSign :: v) = (name, Lib.percentDecode v) := by
  have hbefore : before equalsSign (name ++ equalsSign :: v) = name := by
    rw [before_append_cons, before_of_notMem h.notMem.2.2.1]
  rw [field, hbefore, beyond_append_cons h.notMem.2.2.1, h.percentDecode]

/-- The first field of a query. -/
theorem splitOn_eq_cons (c : UInt8) (s : List UInt8) : ∃ l, s.splitOn c = before c s :: l := by
  by_cases h : c ∈ s
  · obtain ⟨a, b, rfl, ha⟩ := List.eq_append_cons_of_mem h
    rw [List.splitOn_append_cons_self_of_not_mem ha, before_append_cons, before_of_notMem ha]
    exact ⟨_, rfl⟩
  · rw [List.splitOn_eq_singleton h, before_of_notMem h]
    exact ⟨[], rfl⟩

/-! ## URLs that are put together -/

variable {base name other : List UInt8}

/-- The fields of a query that follows a text without `?` and `#`. -/
theorem fields_append (hq : questionMark ∉ base) (hn : numberSign ∉ base) (q : List UInt8) :
    fields (base ++ questionMark :: q) = ((before numberSign q).splitOn ampersand).map field := by
  have hne : questionMark ≠ numberSign := by decide
  rw [fields, before_append_of_notMem hn, before_cons_of_ne hne, beyond_append_cons hq]

/-- Without a query there is no field to find. -/
theorem param_of_notMem (hq : questionMark ∉ base) (hname : name ≠ []) : param name base = [] := by
  have hbefore : questionMark ∉ before numberSign base := fun h => hq ((List.takeWhile_prefix _).subset h)
  have hfields : fields base = [([], [])] := by
    rw [fields, beyond_of_notMem hbefore]
    rfl
  rw [param, hfields, List.find?_cons_of_neg (by simpa using hname.symm)]
  rfl

/-- The value of the first field comes back as far as it can, whatever follows. -/
theorem param_first (hq : questionMark ∉ base) (hn : numberSign ∉ base) (hname : PlainName name) (v : List UInt8)
    {rest : List UInt8} (hrest : rest = [] ∨ ∃ t, rest = ampersand :: t) :
    param name (base ++ questionMark :: (name ++ equalsSign :: (v ++ rest))) = readBack v := by
  have hnum : equalsSign ≠ numberSign := by decide
  have hamp : equalsSign ≠ ampersand := by decide
  have hcut : before ampersand (before numberSign (v ++ rest)) = before ampersand (before numberSign v) := by
    by_cases hv : numberSign ∈ v
    · obtain ⟨a, b, rfl⟩ := List.append_of_mem hv
      rw [List.append_assoc, List.cons_append, before_append_cons, before_append_cons]
    · rcases hrest with rfl | ⟨t, rfl⟩
      · rw [List.append_nil]
      · have hne : ampersand ≠ numberSign := by decide
        rw [before_append_of_notMem hv, before_cons_of_ne hne, before_append_cons, before_of_notMem hv]
  obtain ⟨l, hl⟩ := splitOn_eq_cons ampersand (before numberSign (name ++ equalsSign :: (v ++ rest)))
  have hhead : before ampersand (before numberSign (name ++ equalsSign :: (v ++ rest))) =
      name ++ equalsSign :: before ampersand (before numberSign v) := by
    rw [before_append_of_notMem hname.notMem.1, before_cons_of_ne hnum, before_append_of_notMem hname.notMem.2.1,
      before_cons_of_ne hamp, hcut]
  rw [param, fields_append hq hn, hl, hhead, List.map_cons, field_of_plainName hname,
    List.find?_cons_of_pos (by simp)]
  rfl

/-- What is in neither the name nor the value of a field, nor between them, is not in the field. -/
theorem notMem_field {c : UInt8} {s v : List UInt8} (hc : c ≠ equalsSign) (hs : c ∉ s) (hv : c ∉ v) :
    c ∉ s ++ equalsSign :: v := by
  rw [List.mem_append, List.mem_cons]
  rintro (h | h | h)
  · exact hs h
  · exact hc h
  · exact hv h

/-- A field with a clean value does not hide what follows it from a search for another name. -/
theorem param_after (hq : questionMark ∉ base) (hn : numberSign ∉ base) (hother : PlainName other) (hne : other ≠ name)
    {v : List UInt8} (hv : Clean v) (t : List UInt8) :
    param name (base ++ questionMark :: (other ++ equalsSign :: (v ++ ampersand :: t))) =
      param name (base ++ questionMark :: t) := by
  have hnum : numberSign ∉ other ++ equalsSign :: v := notMem_field (by decide) hother.notMem.1 hv.1
  have hamp : ampersand ∉ other ++ equalsSign :: v := notMem_field (by decide) hother.notMem.2.1 hv.2.1
  have hsplit : other ++ equalsSign :: (v ++ ampersand :: t) = (other ++ equalsSign :: v) ++ ampersand :: t := by
    simp
  have hc : ampersand ≠ numberSign := by decide
  rw [param, param, fields_append hq hn, fields_append hq hn, hsplit, before_append_of_notMem hnum, before_cons_of_ne hc,
    List.splitOn_append_cons_self_of_not_mem hamp, List.map_cons, field_of_plainName hother,
    List.find?_cons_of_neg (by simpa using hne)]

/-- A single field with a clean value has one name. -/
theorem param_other (hq : questionMark ∉ base) (hn : numberSign ∉ base) (hother : PlainName other) (hne : other ≠ name)
    {v : List UInt8} (hv : Clean v) : param name (base ++ questionMark :: (other ++ equalsSign :: v)) = [] := by
  have hnum : equalsSign ≠ numberSign := by decide
  have hamp : ampersand ∉ other ++ equalsSign :: v := notMem_field (by decide) hother.notMem.2.1 hv.2.1
  rw [param, fields_append hq hn, before_append_of_notMem hother.notMem.1, before_cons_of_ne hnum, before_of_notMem hv.1,
    List.splitOn_eq_singleton hamp, List.map_cons, field_of_plainName hother, List.find?_cons_of_neg (by simpa using hne)]
  rfl

end Lib
