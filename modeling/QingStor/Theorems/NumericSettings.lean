import Mathlib.Data.List.TakeWhile
import QingStor.Theorems.ConfigFile

/-!
# The settings that are numbers

No number of a file reaches a field: the token loop keeps no value, and the constructor throws. Behind that, the number of an
entry would be read with `atoi`, which reports no error, and the default taken only for a result outside the range of the
setting: what `atoi` makes of a text is the number the text begins with, cut to 64 bits and then narrowed to 32.
-/

namespace QingStor

inductive NumericSetting where
  | port | connectionRetries | numConnections | chunkSize
  deriving DecidableEq

namespace NumericSetting

def key : NumericSetting → Str
  | port => lit "port"
  | connectionRetries => lit "connection_retries"
  | numConnections => lit "num_connections"
  | chunkSize => lit "chunk_size"

/-- The largest value admitted; the smallest is 1. -/
def most : NumericSetting → Int
  | port => 65535
  | connectionRetries => 16
  | numConnections => 8
  | chunkSize => 2 ^ 31 - 1

def default : NumericSetting → Int
  | port => 443
  | connectionRetries => 3
  | numConnections => 3
  | chunkSize => 32 * 1024 * 1024

def field (cfg : Configuration) : NumericSetting → Int
  | port => cfg.mPort
  | connectionRetries => cfg.mConnectionRetries
  | numConnections => cfg.mNConnections
  | chunkSize => cfg.mChunkSize

end NumericSetting

/-- The integer that digits denote, if there are digits and nothing else. -/
def wholeNumber (ds : Str) : Option Int := if ds ≠ [] ∧ ds.all isDecimalDigit = true then some (digitsValue ds) else none

/-- The integer that a whole text denotes in decimal: digits, with or without a sign. -/
def wholeInteger : Str → Option Int
  | [] => none
  | c :: ds =>
    if c = '-'.toUInt8 then (wholeNumber ds).map (fun n => -n)
    else if c = '+'.toUInt8 then wholeNumber ds
    else wholeNumber (c :: ds)

/-- An integer cut to 64 bits and then narrowed to 32. -/
def narrowed (n : Int) : Int := toInt32 (max int64Min (min int64Max n))

namespace NumericSetting

/-- What a setting should be: the integer its whole text denotes when this is in the range, and the default otherwise. -/
def expected (x : NumericSetting) (text : Str) : Int :=
  match wholeInteger text with
  | some n => if 1 ≤ n ∧ n ≤ x.most then n else x.default
  | none => x.default

/-- The texts a setting is read from as it should be: a decimal integer in the range, or a text that begins with a number that is
outside the range, or is the default, once it is narrowed. -/
def ReadsExactly (x : NumericSetting) (text : Str) : Prop :=
  (∃ n, wholeInteger text = some n ∧ 1 ≤ n ∧ n ≤ x.most) ∨
    ¬ (1 ≤ narrowed (leadingInteger text) ∧ narrowed (leadingInteger text) ≤ x.most) ∨
    narrowed (leadingInteger text) = x.default

/-- The constructor made a configuration, and the setting in it is what it should be for this text. -/
def ReadFrom (x : NumericSetting) (text : Str) (r : Except Fault Configuration) : Prop :=
  ∃ cfg, r = .ok cfg ∧ x.field cfg = x.expected text

/-- A mapping with the two keys that must be there, no key twice, that gives the setting this text. -/
structure Given (x : NumericSetting) (text : Str) (entries : List (Str × Str)) : Prop where
  nodup : (entries.map (·.1)).Nodup
  accessKeyId : ∃ id, id ≠ [] ∧ (lit "access_key_id", id) ∈ entries
  secretAccessKey : ∃ secret, secret ≠ [] ∧ (lit "secret_access_key", secret) ∈ entries
  setting : (x.key, text) ∈ entries

end NumericSetting

namespace NumericAux

theorem digitsValue_nonneg {ds : Str} (h : ds.all isDecimalDigit = true) : 0 ≤ digitsValue ds := by
  have hfold : ∀ (ds : Str) (acc : Int), 0 ≤ acc → ds.all isDecimalDigit = true →
      0 ≤ ds.foldl (fun acc c => acc * 10 + (c.toNat - 48 : Int)) acc := by
    intro ds
    induction ds with
    | nil => exact fun acc hacc _ => hacc
    | cons c ds ih =>
      intro acc hacc hall
      rw [List.all_cons, Bool.and_eq_true] at hall
      have hdigit : 48 ≤ c.toNat := by
        have hc := hall.1
        simp only [isDecimalDigit, Bool.and_eq_true, decide_eq_true_eq, UInt8.le_iff_toNat_le] at hc
        exact hc.1
      have hacc' : 0 ≤ acc * 10 + (c.toNat - 48 : Int) := by omega
      exact ih _ hacc' hall.2
  exact hfold ds 0 (le_refl 0) h

/-- `atoi`, by the number its text begins with. -/
theorem atoi_eq (text : Str) : atoi text = narrowed (leadingInteger text) := by
  have hcut : ∀ n : Int, 0 ≤ n → max int64Min (min int64Max n) = min int64Max n := by
    intro n hn
    have hmin : int64Min ≤ 0 := by decide
    have hmax : (0 : Int) ≤ int64Max := by decide
    omega
  have hneg : ∀ n : Int, 0 ≤ n → max int64Min (min int64Max (-n)) = max int64Min (-n) := by
    intro n hn
    have hmax : (0 : Int) ≤ int64Max := by decide
    omega
  have hvalue : ∀ s : Str, 0 ≤ digitsValue (s.takeWhile isDecimalDigit) := fun s => digitsValue_nonneg List.all_takeWhile
  unfold atoi
  dsimp only
  cases hs : text.dropWhile isBlank with
  | nil =>
    have hs' : text.dropWhile (fun c => decide (c = ' '.toUInt8) || (decide (9 ≤ c) && decide (c ≤ 13))) = [] := hs
    rw [hs', leadingInteger, hs]
    decide
  | cons c rest =>
    have hs' : text.dropWhile (fun c => decide (c = ' '.toUInt8) || (decide (9 ≤ c) && decide (c ≤ 13))) = c :: rest := hs
    rw [hs', leadingInteger, hs]
    dsimp only
    by_cases hminus : c = '-'.toUInt8
    · rw [if_pos hminus, if_pos hminus, narrowed, hneg _ (hvalue rest)]
      rfl
    · rw [if_neg hminus, if_neg hminus]
      by_cases hplus : c = '+'.toUInt8
      · rw [if_pos hplus, if_pos hplus, narrowed, hcut _ (hvalue rest)]
        rfl
      · rw [if_neg hplus, if_neg hplus, narrowed, hcut _ (hvalue (c :: rest))]
        rfl

/-- A number that 32 bits hold stays as it is. -/
theorem narrowed_of_bounds {n : Int} (h1 : -2 ^ 31 ≤ n) (h2 : n < 2 ^ 31) : narrowed n = n := by
  have hmin : int64Min ≤ n := by
    rw [int64Min]
    omega
  have hmax : n ≤ int64Max := by
    rw [int64Max]
    omega
  rw [narrowed, min_eq_right hmax, max_eq_right hmin, toInt32_of_bounds h1 h2]

theorem takeWhile_of_wholeNumber {ds : Str} {n : Int} (h : wholeNumber ds = some n) :
    digitsValue (ds.takeWhile isDecimalDigit) = n := by
  unfold wholeNumber at h
  split at h
  · rename_i hds
    cases h
    rw [List.takeWhile_eq_self_iff.2 (List.all_eq_true.1 hds.2)]
  · cases h

/-- A text that is a decimal integer begins with it. -/
theorem leadingInteger_of_whole {text : Str} {n : Int} (h : wholeInteger text = some n) : leadingInteger text = n := by
  cases text with
  | nil => cases h
  | cons c ds =>
    have hblank : isBlank c = false := by
      by_contra hb
      rw [Bool.not_eq_false] at hb
      have hminus : c ≠ '-'.toUInt8 := by
        rintro rfl
        exact absurd hb (by decide)
      have hplus : c ≠ '+'.toUInt8 := by
        rintro rfl
        exact absurd hb (by decide)
      rw [wholeInteger, if_neg hminus, if_neg hplus, wholeNumber] at h
      split at h
      · rename_i hds
        have hdigit : isDecimalDigit c = true := by
          have hall := hds.2
          rw [List.all_cons, Bool.and_eq_true] at hall
          exact hall.1
        simp only [isBlank, isDecimalDigit, Bool.or_eq_true, Bool.and_eq_true, decide_eq_true_eq] at hb hdigit
        rcases hb with rfl | ⟨-, hle⟩
        · exact absurd hdigit.1 (by decide)
        · exact absurd (hdigit.1.trans hle) (by decide)
      · cases h
    rw [leadingInteger, List.dropWhile_cons_of_neg (by simp [hblank])]
    dsimp only
    rw [wholeInteger] at h
    by_cases hminus : c = '-'.toUInt8
    · rw [if_pos hminus] at h ⊢
      obtain ⟨m, hm, rfl⟩ := Option.map_eq_some_iff.1 h
      rw [takeWhile_of_wholeNumber hm]
    · rw [if_neg hminus] at h ⊢
      by_cases hplus : c = '+'.toUInt8
      · rw [if_pos hplus] at h ⊢
        exact takeWhile_of_wholeNumber h
      · rw [if_neg hplus] at h ⊢
        exact takeWhile_of_wholeNumber h

theorem most_lt (x : NumericSetting) : x.most < 2 ^ 31 := by
  cases x <;> decide

/-- The value the constructor gives a setting, by the number its text begins with. -/
theorem number_eq (x : NumericSetting) (kvs : KeyValues) :
    kvs.number x.key x.most x.default =
      if 1 ≤ narrowed (leadingInteger (kvs.get x.key)) ∧ narrowed (leadingInteger (kvs.get x.key)) ≤ x.most then
        narrowed (leadingInteger (kvs.get x.key))
      else x.default := by
  rw [KeyValues.number]
  by_cases hempty : kvs.get x.key = []
  · have hzero : narrowed (leadingInteger []) = 0 := by decide
    rw [if_pos hempty, hempty, hzero, if_neg (by omega)]
  · rw [if_neg hempty]
    simp only [atoi_eq]
    by_cases hrange : 1 ≤ narrowed (leadingInteger (kvs.get x.key)) ∧ narrowed (leadingInteger (kvs.get x.key)) ≤ x.most
    · rw [if_neg (by omega), if_pos hrange]
    · rw [if_pos (by omega), if_neg hrange]

/-- The entry of a key that is there once is the one the map gives for it. -/
theorem get_of_mem {kvs : KeyValues} (hnodup : (kvs.map (·.1)).Nodup) {k v : Str} (h : (k, v) ∈ kvs) : kvs.get k = v := by
  obtain ⟨e, he⟩ : ∃ e, kvs.find? (fun e => e.1 = k) = some e := by
    refine Option.isSome_iff_exists.1 (List.find?_isSome.2 ⟨(k, v), h, ?_⟩)
    exact decide_eq_true rfl
  have hmem : e ∈ kvs := List.mem_of_find?_eq_some he
  have hkey : e.1 = k := by simpa using List.find?_some he
  have heq : e = (k, v) := List.inj_on_of_nodup_map hnodup hmem h hkey
  rw [KeyValues.get, he, heq]
  rfl

theorem field_eq {kvs : KeyValues} {cfg : Configuration} (h : Configuration.ofKeyValues kvs = .ok cfg) (x : NumericSetting) :
    x.field cfg = kvs.number x.key x.most x.default := by
  unfold Configuration.ofKeyValues at h
  split at h
  · cases h
  · split at h
    · cases h
    · cases h
      cases x <;> rfl

end NumericAux

open NumericAux

/-- Exactly which texts of a map the constructor's conversion makes a setting from as it should be. -/
theorem number_exact_iff (kvs : KeyValues) (cfg : Configuration) (h : Configuration.ofKeyValues kvs = .ok cfg)
    (x : NumericSetting) : x.field cfg = x.expected (kvs.get x.key) ↔ x.ReadsExactly (kvs.get x.key) := by
  rw [field_eq h, number_eq]
  generalize kvs.get x.key = text
  have hwhole : ∀ n, wholeInteger text = some n → 1 ≤ n → n ≤ x.most → narrowed (leadingInteger text) = n := by
    intro n hn h1 h2
    have hmost := most_lt x
    rw [leadingInteger_of_whole hn]
    exact narrowed_of_bounds (by omega) (by omega)
  by_cases hin : ∃ n, wholeInteger text = some n ∧ 1 ≤ n ∧ n ≤ x.most
  · obtain ⟨n, hn, h1, h2⟩ := hin
    have hexpected : x.expected text = n := by
      simp only [NumericSetting.expected, hn]
      rw [if_pos ⟨h1, h2⟩]
    rw [hwhole n hn h1 h2, if_pos ⟨h1, h2⟩, hexpected]
    exact iff_of_true rfl (Or.inl ⟨n, hn, h1, h2⟩)
  · have hexpected : x.expected text = x.default := by
      unfold NumericSetting.expected
      split
      · rename_i n hn
        rw [if_neg (fun hr => hin ⟨n, hn, hr⟩)]
      · rfl
    rw [hexpected]
    unfold NumericSetting.ReadsExactly
    by_cases hrange : 1 ≤ narrowed (leadingInteger text) ∧ narrowed (leadingInteger text) ≤ x.most
    · rw [if_pos hrange]
      constructor
      · exact fun heq => Or.inr (Or.inr heq)
      · rintro (hw | hout | heq)
        · exact absurd hw hin
        · exact absurd hrange hout
        · exact heq
    · rw [if_neg hrange]
      exact iff_of_true rfl (Or.inr (Or.inl hrange))

/-- A map with the two keys makes a configuration, and a setting is read from its entry. -/
theorem readFrom_ofKeyValues_iff {x : NumericSetting} {text : Str} {entries : List (Str × Str)} (h : x.Given text entries) :
    x.ReadFrom text (Configuration.ofKeyValues entries) ↔ x.ReadsExactly text := by
  obtain ⟨id, hid, hidMem⟩ := h.accessKeyId
  obtain ⟨secret, hsecret, hsecretMem⟩ := h.secretAccessKey
  obtain ⟨cfg, hcfg⟩ : ∃ cfg, Configuration.ofKeyValues entries = .ok cfg := by
    rw [Configuration.ofKeyValues, get_of_mem h.nodup hidMem, get_of_mem h.nodup hsecretMem, if_neg hid, if_neg hsecret]
    exact ⟨_, rfl⟩
  have hexact := number_exact_iff entries cfg hcfg x
  rw [get_of_mem h.nodup h.setting] at hexact
  constructor
  · rintro ⟨cfg', hcfg', hfield⟩
    cases hcfg.symm.trans hcfg'
    exact hexact.1 hfield
  · exact fun htext => ⟨cfg, hcfg, hexact.2 htext⟩

/-- No setting of a file is read, whatever its text: the token loop loses the value, and the constructor throws. The conversion
behind it, given the map as it is in the file, would read the texts of `ReadsExactly` and no others. -/
theorem numeric_settings_never (documentStart documentEnd : Bool) (x : NumericSetting) (text : Str) (entries : List (Str × Str))
    (h : x.Given text entries) :
    ¬ x.ReadFrom text (Configuration.ofFile (mappingFile documentStart documentEnd entries)) ∧
      (x.ReadFrom text (Configuration.ofKeyValues entries) ↔ x.ReadsExactly text) := by
  refine ⟨?_, readFrom_ofKeyValues_iff h⟩
  rintro ⟨cfg, hcfg, -⟩
  exact ofFile_ne_ok _ cfg hcfg

namespace Sample

/-- A mapping with the two keys that must be there and one number. -/
def settings (key value : Str) : List (Str × Str) :=
  [(lit "access_key_id", lit "id"), (lit "secret_access_key", lit "secret"), (key, value)]

theorem chunkSize_given (text : Str) : NumericSetting.chunkSize.Given text (settings (lit "chunk_size") text) where
  nodup := by
    change [lit "access_key_id", lit "secret_access_key", lit "chunk_size"].Nodup
    decide
  accessKeyId := ⟨lit "id", by decide, List.mem_cons_self⟩
  secretAccessKey := ⟨lit "secret", by decide, List.mem_cons_of_mem _ List.mem_cons_self⟩
  setting := List.mem_cons_of_mem _ (List.mem_cons_of_mem _ List.mem_cons_self)

end Sample

/-- A chunk size of 64 bytes is lost with the file; the conversion would read it. -/
theorem numeric_settings_never_64 :
    ¬ NumericSetting.chunkSize.ReadFrom (lit "64")
        (Configuration.ofFile (mappingFile false false (Sample.settings (lit "chunk_size") (lit "64")))) ∧
      NumericSetting.chunkSize.ReadFrom (lit "64") (Configuration.ofKeyValues (Sample.settings (lit "chunk_size") (lit "64"))) := by
  have h := numeric_settings_never false false .chunkSize (lit "64") _ (Sample.chunkSize_given (lit "64"))
  exact ⟨h.1, h.2.2 (Or.inl ⟨64, by decide, by decide, by decide⟩)⟩

/-- A chunk size of `64MB` would be read as 64. -/
example : ¬ NumericSetting.chunkSize.ReadsExactly (lit "64MB") := by
  rintro (⟨n, hn, -, -⟩ | hout | heq)
  · have hwhole : wholeInteger (lit "64MB") = none := by decide
    rw [hwhole] at hn
    cases hn
  · exact hout (by decide)
  · exact absurd heq (by decide)

/-- Not every setting of a file is read: a chunk size of 64 is not. -/
theorem numeric_settings_false :
    ¬ ∀ (x : NumericSetting) (text : Str) (entries : List (Str × Str)), x.Given text entries →
      x.ReadFrom text (Configuration.ofFile (mappingFile false false entries)) := by
  intro h
  obtain ⟨cfg, hcfg, -⟩ := h .chunkSize (lit "64") _ (Sample.chunkSize_given (lit "64"))
  exact ofFile_ne_ok _ cfg hcfg

end QingStor
