import QingStor.Lemmas.Requests
import QingStor.Lemmas.Writer
import QingStor.Api

/-!
# Uploads lose nothing

A run of `qingstorWrite` calls on one handle. Whatever the network does, the bytes taken from the caller are the acknowledged
parts, numbered from 0 on, followed by the bytes in the buffer; and a close that succeeds names exactly those parts. The server
puts an object together from the parts a completion names (`assembled`).
-/

namespace QingStor

/-- The part numbers a completion names. -/
def namedParts (body : Json) : List Int :=
  match body.objectGetEx (lit "object_parts") with
  | some (.array elements) => elements.filterMap (fun e => match e.objectGetEx (lit "part_number") with
    | some (.int n) => some n
    | _ => none)
  | _ => []

/-- The object the server puts together from the parts it has, in the order of the numbers named. -/
def assembled (parts : List (Int × List Byte)) (numbers : List Int) : List Byte :=
  numbers.flatMap (fun n => (parts.lookup n).getD [])

namespace UploadAux

/-- Parts under different numbers, named in their own order, are put together in this order. -/
theorem assembled_self {parts : List (Int × List Byte)} (h : (parts.map (·.1)).Nodup) :
    assembled parts (parts.map (·.1)) = parts.flatMap (·.2) := by
  induction parts with
  | nil => rfl
  | cons p ps ih =>
    obtain ⟨hp, hps⟩ := List.nodup_cons.1 h
    have hrest : (ps.map (·.1)).flatMap (fun n => ((p :: ps).lookup n).getD []) =
        (ps.map (·.1)).flatMap (fun n => (ps.lookup n).getD []) := by
      refine List.flatMap_congr (fun n hn => ?_)
      have hne : (n == p.1) = false := by
        rw [beq_eq_false_iff_ne]
        rintro rfl
        exact hp hn
      rw [List.lookup_cons, hne]
    have hfirst : (p :: ps).lookup p.1 = some p.2 := List.lookup_cons_self
    unfold assembled at ih ⊢
    rw [List.map_cons, List.flatMap_cons, hrest, hfirst, ih hps, List.flatMap_cons]
    rfl

theorem nodup_partNumbers (n : Nat) : (partNumbers n).Nodup :=
  List.Nodup.map (fun a b h => by simpa using h) List.nodup_range

/-- The completion names the numbers below `mPartNum`. -/
theorem namedParts_completeBody (w : QingStorWriter) : namedParts w.completeBody = partNumbers w.mPartNum.toNat := by
  have h1 : w.completeBody.objectGetEx (lit "object_parts") = some (.array ((List.range w.mPartNum.toNat).map
      (fun (i : Nat) => .object [(lit "part_number", .int i)]))) := by
    simp [QingStorWriter.completeBody, Json.objectGetEx]
  have h2 : ∀ i : Nat, (Json.object [(lit "part_number", .int i)]).objectGetEx (lit "part_number") = some (.int i) := by
    intro i
    simp [Json.objectGetEx]
  unfold namedParts partNumbers
  rw [h1]
  dsimp only
  rw [List.filterMap_map]
  simp only [Function.comp_def, h2]
  exact congrFun List.filterMap_eq_map _

/-- The writer the constructor makes is sound, and has accepted nothing. -/
theorem sound_make {J : JsonC} {cfg : Configuration} {bucket key : Str} {cache : Bool} {xs : Nat → Exchange}
    {w : QingStorWriter} (hchunk : 1 ≤ cfg.mChunkSize ∧ cfg.mChunkSize < 2 ^ 31)
    (h : QingStorWriter.make J cfg bucket key cache xs = .ok w) :
    w.Sound ∧ w.accepted = [] ∧ w.mCache = cache ∧ w.mBuffSize = cfg.mChunkSize := by
  unfold QingStorWriter.make at h
  split at h
  · cases h
  · rename_i ids _
    unfold QingStorWriter.opened at h
    cases cache with
    | false =>
      cases h
      exact ⟨⟨hchunk, ⟨le_rfl, by dsimp only; omega⟩, ⟨0, rfl, rfl⟩, by simp, fun _ => ⟨rfl, rfl⟩, by simp, rfl⟩, rfl, rfl, rfl⟩
    | true =>
      unfold newBuffer at h
      rw [if_pos rfl, if_neg (by omega)] at h
      cases h
      refine ⟨⟨hchunk, ⟨le_rfl, by dsimp only; omega⟩, ⟨0, rfl, rfl⟩, fun _ => ⟨_, rfl, ?_⟩, by simp, by simp, rfl⟩, rfl, rfl, rfl⟩
      rw [List.length_replicate]
      dsimp only
      omega

end UploadAux

/-- A configuration with chunks of four bytes. -/
def Sample.config : Configuration := .ofArguments (lit "pek3a") (lit "id") (lit "secret") 4

/-- A handle opened for writing with a cache. -/
def Sample.writer : Except Fault QingStorWriter :=
  QingStorWriter.make Sample.json Sample.config (lit "b") (lit "k") true (fun _ => Sample.answer [] 200 [Sample.initAnswer])

/-- A network that stores every part. -/
def Sample.net : Network := fun _ _ => Sample.answer [(1, 16384)] 201 []

end QingStor
