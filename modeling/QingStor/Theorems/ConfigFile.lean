import QingStor.Configuration

/-!
# Reading the configuration file

The token loop stores an entry at every scalar: at a key with the value empty, and then clears the key, so that the value of
the entry meets an empty key and is refused. `Blank` is what follows for the locals of the loop.
-/

namespace QingStor

namespace ConfigAux

/-- What the locals of the token loop are between two tokens: no key is carried, and every entry stored has an empty value. -/
structure Blank (z : TokenLoop) : Prop where
  tokenKey : z.tokenKey = []
  tokenValue : z.tokenValue = []
  kvs : ∀ e ∈ z.kvs, e.2 = []

theorem blank_start : Blank .start := ⟨rfl, rfl, by simp [TokenLoop.start]⟩

/-- An entry inserted is one that was there, or the one given. -/
theorem mem_insert {kvs : KeyValues} {k v : Str} {e : Str × Str} (h : e ∈ kvs.insert k v) : e ∈ kvs ∨ e = (k, v) := by
  unfold KeyValues.insert at h
  split at h
  · exact Or.inl h
  · simpa using h

/-- Storing with an empty value keeps the entries empty, and clears the key. -/
theorem blank_store {z : TokenLoop} (hv : z.tokenValue = []) (hk : ∀ e ∈ z.kvs, e.2 = []) : Blank z.store := by
  refine ⟨rfl, rfl, fun e he => ?_⟩
  rcases mem_insert he with h | h
  · exact hk e h
  · rw [h]
    exact hv

/-- A scalar that passes is a key: one in the place of a value meets an empty key. -/
theorem blank_scalar {z z' : TokenLoop} {text : Str} (hz : Blank z) (h : z.scalar text = .ok z') : Blank z' := by
  unfold TokenLoop.scalar at h
  split at h
  · cases h
    exact blank_store hz.tokenValue hz.kvs
  · split at h
    · rw [if_pos (Or.inl hz.tokenKey)] at h
      cases h
    · cases h

/-- No token changes more than the flags, except a scalar. -/
theorem step_cases {z z' : TokenLoop} {t : YamlToken} (h : z.step t = .ok z') :
    (∃ text, z.scalar text = .ok z') ∨ z'.kvs = z.kvs ∧ z'.tokenKey = z.tokenKey ∧ z'.tokenValue = z.tokenValue := by
  cases t with
  | scalar text => exact Or.inl ⟨cString text, h⟩
  | _ =>
    right
    first
    | (cases h; done)
    | (cases h; exact ⟨rfl, rfl, rfl⟩)

theorem blank_step {z z' : TokenLoop} {t : YamlToken} (hz : Blank z) (h : z.step t = .ok z') : Blank z' := by
  rcases step_cases h with ⟨text, hs⟩ | ⟨hk, hkey, hvalue⟩
  · exact blank_scalar hz hs
  · exact ⟨hkey ▸ hz.tokenKey, hvalue ▸ hz.tokenValue, hk ▸ hz.kvs⟩

/-- Every run of the token loop ends with entries whose values are empty. -/
theorem blank_run {z z' : TokenLoop} {ts : List YamlToken} (hz : Blank z) (h : z.run ts = .ok z') : Blank z' := by
  induction ts generalizing z with
  | nil => exact blank_step hz h
  | cons t ts ih =>
    unfold TokenLoop.run at h
    split at h
    · rename_i heq
      cases heq
    · cases h
      exact hz
    · rename_i heq
      cases heq
      split at h
      · cases h
      · rename_i hs
        exact ih (blank_step hz hs) h

/-- A key reads as the empty string when all values are empty. -/
theorem get_of_blank {kvs : KeyValues} (h : ∀ e ∈ kvs, e.2 = []) (k : Str) : kvs.get k = [] := by
  unfold KeyValues.get
  cases hf : kvs.find? (fun e => e.1 = k) with
  | none => rfl
  | some e => exact h e (List.mem_of_find?_eq_some hf)

end ConfigAux

/-- No file is ever read: whatever its tokens are, the constructor throws. -/
theorem ofFile_ne_ok (file : ConfigFile) (cfg : Configuration) : Configuration.ofFile file ≠ .ok cfg := by
  intro h
  unfold Configuration.ofFile at h
  split at h
  · cases h
  split at h
  · cases h
  split at h
  · cases h
  · rename_i z hz
    unfold Configuration.ofKeyValues at h
    rw [if_pos (ConfigAux.get_of_blank (ConfigAux.blank_run ConfigAux.blank_start hz).kvs _)] at h
    cases h

/-! ## Flat mappings -/

/-- The tokens of one entry of a block mapping. -/
def entryTokens (e : Str × Str) : List YamlToken := [.key, .scalar e.1, .value, .scalar e.2]

/-- The file libyaml reads as one block mapping, with or without the marks of a document start and end. -/
def mappingFile (documentStart documentEnd : Bool) (entries : List (Str × Str)) : ConfigFile where
  parserInit := true
  opens := true
  tokens := [.streamStart] ++ (if documentStart then [.documentStart] else []) ++ [.blockMappingStart] ++
    entries.flatMap entryTokens ++ [.blockEnd] ++ (if documentEnd then [.documentEnd] else []) ++ [.streamEnd]

/-- The setting a mapping gives: the value of its key, or the default. -/
def settingOf (entries : List (Str × Str)) (key default : Str) : Str := (entries.lookup key).getD default

/-- A mapping the configuration may be read from: its keys and values are strings that are not empty, no key is there twice,
and the two keys without a default are there. -/
structure FlatMapping (entries : List (Str × Str)) : Prop where
  keys : ∀ e ∈ entries, e.1 ≠ [] ∧ 0 ∉ e.1
  values : ∀ e ∈ entries, e.2 ≠ [] ∧ 0 ∉ e.2
  nodup : (entries.map (·.1)).Nodup
  accessKeyId : lit "access_key_id" ∈ entries.map (·.1)
  secretAccessKey : lit "secret_access_key" ∈ entries.map (·.1)

/-- The constructor did not throw, and each text setting is the value the mapping gives for it or its default. -/
def ReadFaithfully (entries : List (Str × Str)) (r : Except Fault Configuration) : Prop :=
  ∃ cfg, r = .ok cfg ∧
    cfg.mAccessKeyId = settingOf entries (lit "access_key_id") [] ∧
    cfg.mSecretAccessKey = settingOf entries (lit "secret_access_key") [] ∧
    cfg.mHost = settingOf entries (lit "host") (lit "qingstor.com") ∧
    cfg.mLocation = settingOf entries (lit "location") (lit "pek3a") ∧
    cfg.mProtocol = settingOf entries (lit "protocol") (lit "https") ∧
    cfg.mLogLevel = settingOf entries (lit "log_level") (lit "debug")

/-- No flat mapping is read faithfully: for each of them the constructor throws `QingStorConfigInvalid`. -/
theorem mapping_never_read (documentStart documentEnd : Bool) (entries : List (Str × Str)) (h : FlatMapping entries) :
    ¬ ReadFaithfully entries (Configuration.ofFile (mappingFile documentStart documentEnd entries)) ∧
    ∃ what, Configuration.ofFile (mappingFile documentStart documentEnd entries) =
      .error (throwing .qingStorConfigInvalid what) := by
  refine ⟨fun ⟨cfg, hcfg, _⟩ => ofFile_ne_ok _ cfg hcfg, ?_⟩
  cases entries with
  | nil => exact absurd h.accessKeyId (by simp)
  | cons e rest =>
    cases documentStart
    · exact ⟨"YAML configuration is invalid", rfl⟩
    · exact ⟨"YAML configuration is invalid with token type %d\n", rfl⟩

/-- The smallest mapping a configuration may be read from. -/
def twoKeys : List (Str × Str) := [(lit "access_key_id", lit "id"), (lit "secret_access_key", lit "secret")]

theorem flatMapping_twoKeys : FlatMapping twoKeys :=
  ⟨by decide, by decide, by decide, by decide, by decide⟩

/-- The general statement at the smallest mapping, without marks. -/
theorem mapping_never_read_twoKeys :
    ¬ ReadFaithfully twoKeys (Configuration.ofFile (mappingFile false false twoKeys)) :=
  (mapping_never_read false false twoKeys flatMapping_twoKeys).1

/-- Not every flat mapping is read faithfully: the smallest one is refused. -/
theorem mapping_read_false :
    ¬ ∀ entries, FlatMapping entries → ReadFaithfully entries (Configuration.ofFile (mappingFile false false entries)) := by
  intro h
  obtain ⟨cfg, hcfg, _⟩ := h twoKeys flatMapping_twoKeys
  exact ofFile_ne_ok _ cfg hcfg

end QingStor
