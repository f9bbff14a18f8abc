import QingStor.Lemmas.Requests

/-!
# The accumulator of a response

`ParserCallback` with its arithmetic done in `size_t`, each copy checked against the blocks it reads and writes, and the doublings it
may make counted. For responses of less than 2^62 bytes the loop ends, nothing wraps and no copy leaves its block, so the accumulator
is the one of `parserCallback`.
-/

namespace QingStor

/-- The accumulator holds the bytes of a response in front of its position, and the terminator written there is inside. -/
structure BufferInfo.Exact (b : BufferInfo) (text : List Byte) : Prop where
  position : b.position = text.length
  room : b.position < b.size
  size : b.size < 2 ^ 64
  data : ∃ d, b.data = some d ∧ d.length = b.size ∧ d.take b.position = text

namespace AccumulatorAux

/-- For needs below 2^62 the loop ends as the growth loop over unbounded sizes does, and the size stays below the width. -/
theorem growBufferChecked_eq (fuel m : Nat) {need position : Nat} {data : List Byte} {size : Nat} (hneed : need < 2 ^ 62)
    (hpos : position ≤ size) (h0 : 0 < size) (hsize : size ≤ 2 ^ 63) (hfuel : need < size * 2 ^ fuel) (hm : need < m + size) :
    growBufferChecked need position (fuel + 1) (data, size) = some (growBuffer m need data size position) ∧
      (growBuffer m need data size position).2 ≤ 2 ^ 63 := by
  induction fuel generalizing m data size with
  | zero =>
    have hlt : ¬ need ≥ size := by omega
    have hgrow : growBuffer m need data size position = (data, size) := by
      cases m with
      | zero => rfl
      | succ m => rw [growBuffer, if_neg (by omega)]
    rw [growBufferChecked, if_neg hlt, hgrow]
    exact ⟨rfl, hsize⟩
  | succ fuel ih =>
    by_cases hge : need ≥ size
    · have hdouble : size * 2 % 2 ^ 64 = size * 2 := Nat.mod_eq_of_lt (by omega)
      have hcopy : position ≤ size ∧ position ≤ size * 2 := ⟨hpos, by omega⟩
      have hfuel' : need < size * 2 * 2 ^ fuel := by
        rw [Nat.mul_assoc, ← Nat.pow_succ']
        exact hfuel
      obtain ⟨m, rfl⟩ : ∃ n, m = n + 1 := Nat.exists_eq_succ_of_ne_zero (by omega)
      rw [growBufferChecked, if_pos hge, growBuffer, if_pos hge]
      simp only [hdouble]
      rw [if_pos hcopy]
      exact ih m (by omega) (by omega) (by omega) hfuel' (by omega)
    · have hgrow : growBuffer m need data size position = (data, size) := by
        cases m with
        | zero => rfl
        | succ m => rw [growBuffer, if_neg (by omega)]
      rw [growBufferChecked, if_neg hge, hgrow]
      exact ⟨rfl, hsize⟩

/-- One delivery to an accumulator that holds a text. -/
theorem parserCallbackChecked_holds {b : BufferInfo} {text : List Byte} (contents : List Byte) {fuel : Nat} (hfuel : 64 ≤ fuel)
    (h : BufferAux.Holds b text) (hsize : b.size ≤ 2 ^ 63) (htotal : text.length + contents.length < 2 ^ 62) :
    parserCallbackChecked fuel b contents = some (parserCallback b contents) ∧ (parserCallback b contents).size ≤ 2 ^ 63 := by
  obtain ⟨d, hd, hlen, -⟩ := h.data
  have hpos := h.position
  have hroom := h.room
  have hreal : contents.length % 2 ^ 64 = contents.length := Nat.mod_eq_of_lt (by omega)
  have hneed : (b.position + contents.length) % 2 ^ 64 = b.position + contents.length := Nat.mod_eq_of_lt (by omega)
  obtain ⟨turns, rfl⟩ : ∃ n, fuel = n + 1 := Nat.exists_eq_succ_of_ne_zero (by omega)
  have hturns : b.position + contents.length < b.size * 2 ^ turns := by
    have hpow : 2 ^ 63 ≤ 2 ^ turns := Nat.pow_le_pow_right (by decide) (by omega)
    have hmul : 1 * 2 ^ 63 ≤ b.size * 2 ^ turns := Nat.mul_le_mul (by omega) hpow
    omega
  obtain ⟨hloop, hle⟩ :
      growBufferChecked (b.position + contents.length) b.position (turns + 1) (d, b.size) =
        some (growBuffer (b.position + contents.length + 1) (b.position + contents.length) d b.size b.position) ∧
      (growBuffer (b.position + contents.length + 1) (b.position + contents.length) d b.size b.position).2 ≤ 2 ^ 63 :=
    growBufferChecked_eq turns _ (by omega) (Nat.le_of_lt hroom) (by omega) hsize hturns (by omega)
  obtain ⟨-, hfits, -⟩ := BufferAux.growBuffer_spec (b.position + contents.length + 1) (b.position + contents.length)
    (by omega) hlen (Nat.le_of_lt hroom) (by omega)
  unfold parserCallbackChecked parserCallback
  simp only [hd, Option.getD_some, hreal, hneed, hloop]
  rw [if_pos (Nat.le_of_lt hfits)]
  exact ⟨rfl, hle⟩

/-- Deliveries to an accumulator that holds a text. -/
theorem parserCallbackChecked_all {b : BufferInfo} {text : List Byte} (pieces : List (List Byte)) {fuel : Nat} (hfuel : 64 ≤ fuel)
    (h : BufferAux.Holds b text) (hsize : b.size ≤ 2 ^ 63) (htotal : text.length + pieces.flatten.length < 2 ^ 62) :
    pieces.foldlM (parserCallbackChecked fuel) b = some (pieces.foldl parserCallback b) ∧
      (pieces.foldl parserCallback b).size ≤ 2 ^ 63 := by
  induction pieces generalizing b text with
  | nil => exact ⟨rfl, hsize⟩
  | cons p pieces ih =>
    rw [List.flatten_cons, List.length_append] at htotal
    obtain ⟨hfirst, hle⟩ := parserCallbackChecked_holds p hfuel h hsize (by omega)
    have hrest := ih (BufferAux.holds_parserCallback p h) hle (by rw [List.length_append]; omega)
    rw [List.foldlM_cons, hfirst]
    exact hrest

/-- The accumulator as the first delivery allocates it. -/
def allocated : BufferInfo := ⟨some (List.replicate 1024 0), 1024, 0⟩

theorem holds_allocated : BufferAux.Holds allocated [] := by
  have h : ∀ n, 0 < n → BufferAux.Holds ⟨some (List.replicate n 0), n, 0⟩ [] :=
    fun n hn => ⟨rfl, hn, _, rfl, List.length_replicate, List.take_zero⟩
  exact h 1024 (by decide)

end AccumulatorAux

open AccumulatorAux

/-- After every delivery of a response of less than 2^62 bytes, the loop has ended, and the accumulator holds the bytes delivered
so far with room for the terminator. -/
theorem accumulator_exact (pieces : List (List Byte)) (htotal : pieces.flatten.length < 2 ^ 62) (fuel : Nat)
    (hfuel : 64 ≤ fuel) :
    ∀ done, done ≠ [] → done <+: pieces →
      done.foldlM (parserCallbackChecked fuel) .empty = some (done.foldl parserCallback .empty) ∧
        (done.foldl parserCallback .empty).Exact done.flatten := by
  intro done hne hdone
  obtain ⟨rest, rfl⟩ := hdone
  rw [List.flatten_append, List.length_append] at htotal
  cases done with
  | nil => exact absurd rfl hne
  | cons p done =>
    have hsize : allocated.size ≤ 2 ^ 63 := by
      rw [allocated]
      decide
    obtain ⟨hrun, hle⟩ := parserCallbackChecked_all (p :: done) hfuel holds_allocated hsize (by rw [List.length_nil]; omega)
    have hholds := BufferAux.holds_foldl (p :: done) holds_allocated
    have hstart : (p :: done).foldlM (parserCallbackChecked fuel) .empty = (p :: done).foldlM (parserCallbackChecked fuel) allocated := rfl
    have hstart' : (p :: done).foldl parserCallback .empty = (p :: done).foldl parserCallback allocated := rfl
    rw [hstart, hstart']
    exact ⟨hrun, hholds.position, hholds.room, by omega, hholds.data⟩

/-- The general statement for two deliveries that do not fit the first block together. -/
theorem accumulator_exact_abc :
    ([List.replicate 700 97, List.replicate 700 98].foldl parserCallback .empty).Exact
        (List.replicate 700 97 ++ List.replicate 700 98) ∧
      ([List.replicate 700 97, List.replicate 700 98].foldl parserCallback .empty).size = 2048 := by
  have hflat : [List.replicate 700 (97 : Byte), List.replicate 700 98].flatten = List.replicate 700 97 ++ List.replicate 700 98 := by
    rw [List.flatten_cons, List.flatten_cons, List.flatten_nil, List.append_nil]
  have hlength : [List.replicate 700 (97 : Byte), List.replicate 700 98].flatten.length < 2 ^ 62 := by
    rw [hflat, List.length_append, List.length_replicate, List.length_replicate]
    decide
  have hexact := (accumulator_exact _ hlength 64 (by decide) _ (List.cons_ne_nil _ _) (List.prefix_refl _)).2
  rw [hflat] at hexact
  exact ⟨hexact, by decide +kernel⟩

end QingStor
