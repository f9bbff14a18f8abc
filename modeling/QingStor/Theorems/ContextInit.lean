import QingStor.ContextInit
import QingStor.Theorems.ConfigFile

/-!
# A context that cannot be made
-/

namespace QingStor

/-- A call ends as it should: with a context, or with a null pointer and `errno`, and it deleted only contexts that it had and
that nothing else owns. -/
structure InitRun.Clean (r : InitRun) : Prop where
  returns : ∃ ret, r.returned = .ok ret ∧ (ret.value.isSome = true ∨ ret.value.isNone = true ∧ ret.errno.isSome = true)
  deletes : ∀ p ∈ r.deleted, p = .assigned

/-- Nothing fails before the local has its value: the parameters are refused, or there is a location, and memory for the texts
and for the context. No configuration file gets that far. -/
def InitCall.Assigns (mem : InitMemory) : InitCall → Prop
  | initContext location accessKeyId secretAccessKey _ =>
    given accessKeyId = false ∨ given secretAccessKey = false ∨
      location.isSome = true ∧ mem.arguments = true ∧ mem.location = true ∧ mem.context = true
  | initContextFromFile configFile _ => given configFile = false

namespace ContextInitAux

/-- With memory for everything a call does what the interface does. -/
theorem run_initContext (location accessKeyId secretAccessKey : Option Str) (chunkSize : Int) :
    ((InitCall.initContext location accessKeyId secretAccessKey chunkSize).run ⟨true, true, true, true⟩).returned =
      qingstorInitContext location accessKeyId secretAccessKey chunkSize := by
  simp only [InitCall.run, qingstorInitContext]
  by_cases hid : given accessKeyId = true
  · by_cases hsecret : given secretAccessKey = true
    · simp only [hid, hsecret, not_true_eq_false, if_false]
      cases location <;> rfl
    · simp [hid, hsecret, parameterRefused]
  · simp [hid, parameterRefused]

theorem run_initContextFromFile (configFile : Option Str) (file : ConfigFile) :
    ((InitCall.initContextFromFile configFile file).run ⟨true, true, true, true⟩).returned =
      qingstorInitContextFromFile configFile file := by
  simp only [InitCall.run, qingstorInitContextFromFile]
  by_cases hfile : given configFile = true
  · simp only [hfile, not_true_eq_false, if_false]
    cases Configuration.ofFile file with
    | ok cfg => rfl
    | error f => cases f <;> rfl
  · simp [hfile, parameterRefused]

theorem clean_refused : parameterRefused.Clean := by
  refine ⟨⟨_, rfl, Or.inr ⟨rfl, rfl⟩⟩, ?_⟩
  intro p hp
  cases hp

theorem not_clean_indeterminate (e : Exception) : ¬ (initHandlers .indeterminate e).Clean := by
  intro h
  exact absurd (h.deletes _ List.mem_cons_self) (by decide)

/-- A context that is made is returned, or deleted when there is no memory for its wrapper. -/
theorem clean_assign (mem : InitMemory) (ctx : Context) (hmem : mem.context = true) : (initAssign mem (.ok ctx)).Clean := by
  unfold initAssign
  rw [if_neg (by simp [hmem])]
  dsimp only
  split
  · refine ⟨⟨_, rfl, Or.inr ⟨rfl, rfl⟩⟩, ?_⟩
    intro p hp
    exact List.mem_singleton.1 hp
  · refine ⟨⟨_, rfl, Or.inl rfl⟩, ?_⟩
    intro p hp
    cases hp

/-- A context that cannot be made leaves the local without a value. -/
theorem not_clean_assign (mem : InitMemory) {made : Except Fault Context} (h : mem.context = false ∨ ∀ ctx, made ≠ .ok ctx) :
    ¬ (initAssign mem made).Clean := by
  unfold initAssign
  split
  · exact not_clean_indeterminate _
  · rename_i hmem
    split
    · exact not_clean_indeterminate _
    · intro hclean
      obtain ⟨ret, hret, -⟩ := hclean.returns
      cases hret
    · rename_i ctx
      rcases h with hno | hne
      · simp [hno] at hmem
      · exact absurd rfl (hne ctx)

/-- The call with its parameters. -/
theorem clean_initContext_iff (mem : InitMemory) (location accessKeyId secretAccessKey : Option Str) (chunkSize : Int) :
    ((InitCall.initContext location accessKeyId secretAccessKey chunkSize).run mem).Clean ↔
      (InitCall.initContext location accessKeyId secretAccessKey chunkSize).Assigns mem := by
  simp only [InitCall.run, InitCall.Assigns]
  by_cases hid : given accessKeyId = true
  · by_cases hsecret : given secretAccessKey = true
    · rw [if_neg (by simp [hid]), if_neg (by simp [hsecret])]
      by_cases hargs : mem.arguments = true
      · rw [if_neg (by simp [hargs])]
        cases location with
        | none =>
          refine iff_of_false ?_ (by simp [hid, hsecret])
          intro h
          obtain ⟨ret, hret, -⟩ := h.returns
          cases hret
        | some location =>
          dsimp only
          by_cases hloc : mem.location = true
          · rw [if_neg (by simp [hloc])]
            by_cases hctx : mem.context = true
            · exact iff_of_true (clean_assign mem _ hctx) (by simp [hargs, hloc, hctx])
            · rw [Bool.not_eq_true] at hctx
              exact iff_of_false (not_clean_assign mem (Or.inl hctx)) (by simp [hid, hsecret, hctx])
          · rw [if_pos (by simp [hloc])]
            exact iff_of_false (not_clean_indeterminate _) (by simp [hid, hsecret, hloc])
      · rw [if_pos (by simp [hargs])]
        exact iff_of_false (not_clean_indeterminate _) (by simp [hid, hsecret, hargs])
    · rw [if_neg (by simp [hid]), if_pos (by simp [hsecret])]
      exact iff_of_true clean_refused (by simp [hsecret])
  · rw [if_pos (by simp [hid])]
    exact iff_of_true clean_refused (by simp [hid])

/-- The call with a file: no file gets as far as the local. -/
theorem clean_initContextFromFile_iff (mem : InitMemory) (configFile : Option Str) (file : ConfigFile) :
    ((InitCall.initContextFromFile configFile file).run mem).Clean ↔
      (InitCall.initContextFromFile configFile file).Assigns mem := by
  simp only [InitCall.run, InitCall.Assigns]
  by_cases hfile : given configFile = true
  · rw [if_neg (by simp [hfile])]
    refine iff_of_false ?_ (by simp [hfile])
    split
    · exact not_clean_indeterminate _
    · refine not_clean_assign mem (Or.inr ?_)
      intro ctx hctx
      cases hread : Configuration.ofFile file with
      | error f =>
        rw [hread] at hctx
        cases hctx
      | ok cfg => exact ofFile_ne_ok file cfg hread
  · rw [if_pos (by simp [hfile])]
    exact iff_of_true clean_refused (by simp [hfile])

end ContextInitAux

open ContextInitAux

/-- Exactly when making a context is clean, whatever fails. -/
theorem context_init_clean_iff (call : InitCall) (mem : InitMemory) : (call.run mem).Clean ↔ call.Assigns mem := by
  cases call with
  | initContext location accessKeyId secretAccessKey chunkSize =>
    exact clean_initContext_iff mem location accessKeyId secretAccessKey chunkSize
  | initContextFromFile configFile file => exact clean_initContextFromFile_iff mem configFile file

/-- A configuration file that is not there is enough. -/
theorem context_init_clean_false : ¬ ∀ (call : InitCall) (mem : InitMemory), (call.run mem).Clean := by
  intro h
  have hclean := h (.initContextFromFile (some (lit "qingstor.yaml")) ⟨true, false, []⟩) ⟨true, true, true, true⟩
  exact absurd (hclean.deletes .indeterminate (by decide)) (by decide)

end QingStor
