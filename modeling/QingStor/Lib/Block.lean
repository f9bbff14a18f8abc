import Mathlib.Data.List.Basic

/-!
# Blocks of memory

A block is the list of its cells. `blit` is what `memcpy` and `memmove` do to the target block, `slice` is what they read.
The laws are the ones a proof about a buffer with two cursors uses: what a prefix holds after a write, and how neighbouring
slices join.
-/

namespace Lib

variable {α : Type*}

/-- The `n` cells of a block from cell `i` on. -/
def slice (l : List α) (i n : Nat) : List α := (l.drop i).take n

/-- A block after the cells of `src` were written over it from cell `i` on. -/
def blit (dst : List α) (i : Nat) (src : List α) : List α := dst.take i ++ src ++ dst.drop (i + src.length)

@[simp] theorem slice_zero_length (l : List α) (i : Nat) : slice l i 0 = [] := by
  simp [slice]

@[simp] theorem length_slice (l : List α) (i n : Nat) : (slice l i n).length = min n (l.length - i) := by
  simp [slice]

/-- A slice inside the block has the length asked for. -/
theorem length_slice_of_le {l : List α} {i n : Nat} (h : i + n ≤ l.length) : (slice l i n).length = n := by
  rw [length_slice]
  omega

/-- Two slices that meet are one slice. -/
theorem slice_append_slice (l : List α) (i m n : Nat) : slice l i m ++ slice l (i + m) n = slice l i (m + n) := by
  unfold slice
  rw [List.take_add, List.drop_drop]

/-- What is left of a slice after its first cells. -/
theorem drop_slice (l : List α) (i m n : Nat) : (slice l i n).drop m = slice l (i + m) (n - m) := by
  simp [slice, List.drop_take]

/-- A write inside the block keeps its length. -/
theorem length_blit {dst src : List α} {i : Nat} (h : i + src.length ≤ dst.length) :
    (blit dst i src).length = dst.length := by
  simp only [blit, List.length_append, List.length_take, List.length_drop]
  omega

/-- A block written from cell `i` on holds, up to the end of the write, what it held below `i` and then what was written. -/
theorem take_blit {dst src : List α} {i : Nat} (h : i ≤ dst.length) :
    (blit dst i src).take (i + src.length) = dst.take i ++ src := by
  unfold blit
  have hl : (dst.take i ++ src).length = i + src.length := by
    rw [List.length_append, List.length_take, Nat.min_eq_left h]
  rw [← hl, List.take_left]

/-- The cells a write leaves up to its end are all there. -/
theorem le_length_blit {dst src : List α} {i : Nat} (h : i ≤ dst.length) : i + src.length ≤ (blit dst i src).length := by
  simp only [blit, List.length_append, List.length_take, List.length_drop]
  omega

/-- A write leaves what is behind it. -/
theorem drop_blit {dst src : List α} {i n : Nat} (hi : i ≤ dst.length) (hn : i + src.length ≤ n) :
    (blit dst i src).drop n = dst.drop n := by
  have hl : (dst.take i ++ src).length = i + src.length := by
    rw [List.length_append, List.length_take, Nat.min_eq_left hi]
  obtain ⟨k, rfl⟩ := Nat.exists_eq_add_of_le hn
  unfold blit
  rw [← hl, List.drop_append, List.drop_eq_nil_of_le (by omega), List.nil_append, hl, List.drop_drop]
  congr 1
  omega

/-- What a two-cursor buffer holds between its cursors after a write at the upper one: what it held, then what was written. -/
theorem slice_blit {dst src : List α} {lo hi : Nat} (hlo : lo ≤ hi) (hhi : hi ≤ dst.length) :
    slice (blit dst hi src) lo (hi + src.length - lo) = slice dst lo (hi - lo) ++ src := by
  have h : slice (blit dst hi src) lo (hi + src.length - lo) = ((blit dst hi src).take (hi + src.length)).drop lo := by
    rw [List.drop_take, slice]
  rw [h, take_blit hhi, List.drop_append_of_le_length (by rw [List.length_take]; omega), List.drop_take, slice]

end Lib
