import Mathlib.Data.List.Basic
import Mathlib.Tactic

/-!
# Percent-encoding

Decoding replaces each `%` that two hexadecimal digits follow, with them, by the byte they name; a `%` that none follow stands
for itself. What a text loses by being decoded is in its escapes: a text without any decodes to itself, and no text decodes to a
proper ending of itself that starts after a byte that is no part of an escape.
-/

namespace Lib

/-- The byte `%`. -/
def percent : UInt8 := 37

/-- A hexadecimal digit, of either case. -/
def isHexDigit (c : UInt8) : Bool := (48 ≤ c && c ≤ 57) || (65 ≤ c && c ≤ 70) || (97 ≤ c && c ≤ 102)

/-- The value of a hexadecimal digit. -/
def hexDigitValue (c : UInt8) : UInt8 := if c ≤ 57 then c - 48 else if c ≤ 70 then c - 55 else c - 87

/-- The text a percent-encoded text stands for. -/
def percentDecode : List UInt8 → List UInt8
  | [] => []
  | [c] => [c]
  | [c, d] => [c, d]
  | c :: h :: l :: rest =>
    if c = percent ∧ isHexDigit h ∧ isHexDigit l then (16 * hexDigitValue h + hexDigitValue l) :: percentDecode rest
    else c :: percentDecode (h :: l :: rest)

/-- A text that has an escape somewhere. -/
def Escaped (s : List UInt8) : Prop :=
  ∃ a h l b, s = a ++ percent :: h :: l :: b ∧ isHexDigit h = true ∧ isHexDigit l = true

/-- A `%` that two hexadecimal digits do not follow stands for itself. -/
theorem percentDecode_plain {c h l : UInt8} (rest : List UInt8) (hx : isHexDigit h = false ∨ isHexDigit l = false) :
    percentDecode (c :: h :: l :: rest) = c :: percentDecode (h :: l :: rest) := by
  rw [percentDecode, if_neg]
  rintro ⟨_, hh, hl⟩
  rcases hx with hx | hx
  · rw [hx] at hh
    cases hh
  · rw [hx] at hl
    cases hl

/-- A byte that is not `%` is decoded to itself. -/
theorem percentDecode_cons {c : UInt8} (hc : c ≠ percent) (s : List UInt8) : percentDecode (c :: s) = c :: percentDecode s := by
  match s with
  | [] => rfl
  | [d] => rfl
  | h :: l :: rest =>
    rw [percentDecode, if_neg (fun hh => hc hh.1)]

theorem length_percentDecode_le (s : List UInt8) : (percentDecode s).length ≤ s.length := by
  induction s using percentDecode.induct with
  | case1 => exact Nat.le_refl _
  | case2 c => exact Nat.le_refl _
  | case3 c d => exact Nat.le_refl _
  | case4 c h l rest hesc ih =>
    rw [percentDecode, if_pos hesc]
    simp only [List.length_cons]
    omega
  | case5 c h l rest hesc ih =>
    rw [percentDecode, if_neg hesc]
    simpa using ih

/-- Without an escape nothing changes. -/
theorem percentDecode_of_not_escaped {s : List UInt8} (hs : ¬ Escaped s) : percentDecode s = s := by
  induction s using percentDecode.induct with
  | case1 => rfl
  | case2 c => rfl
  | case3 c d => rfl
  | case4 c h l rest hesc ih => exact absurd ⟨[], h, l, rest, by rw [hesc.1]; rfl, hesc.2.1, hesc.2.2⟩ hs
  | case5 c h l rest hesc ih =>
    rw [percentDecode, if_neg hesc, ih]
    rintro ⟨a, h', l', b, heq, hh, hl⟩
    exact hs ⟨c :: a, h', l', b, by rw [heq]; rfl, hh, hl⟩

/-- With an escape the text gets shorter. -/
theorem length_percentDecode_lt {s : List UInt8} (hs : Escaped s) : (percentDecode s).length < s.length := by
  induction s using percentDecode.induct with
  | case1 =>
    obtain ⟨a, h, l, b, heq, _⟩ := hs
    simp at heq
  | case2 c =>
    obtain ⟨a, h, l, b, heq, _⟩ := hs
    have := congrArg List.length heq
    simp at this
    omega
  | case3 c d =>
    obtain ⟨a, h, l, b, heq, _⟩ := hs
    have := congrArg List.length heq
    simp at this
    omega
  | case4 c h l rest hesc ih =>
    rw [percentDecode, if_pos hesc]
    have := length_percentDecode_le rest
    simp only [List.length_cons]
    omega
  | case5 c h l rest hesc ih =>
    rw [percentDecode, if_neg hesc]
    have hrest : Escaped (h :: l :: rest) := by
      obtain ⟨a, h', l', b, heq, hh, hl⟩ := hs
      cases a with
      | nil =>
        injection heq with hc heq
        injection heq with h1 heq
        injection heq with h2 heq
        exact absurd ⟨hc, h1 ▸ hh, h2 ▸ hl⟩ hesc
      | cons x a =>
        injection heq with _ heq
        exact ⟨a, h', l', b, heq, hh, hl⟩
    have := ih hrest
    simp only [List.length_cons] at this ⊢
    omega

/-- A text decodes to itself when it has no escape, and only then. -/
theorem percentDecode_eq_self_iff (s : List UInt8) : percentDecode s = s ↔ ¬ Escaped s := by
  constructor
  · intro h hs
    have := length_percentDecode_lt hs
    rw [h] at this
    exact absurd this (Nat.lt_irrefl _)
  · exact percentDecode_of_not_escaped

/-- Decoding treats what is before and after a byte that cannot be part of an escape apart. -/
theorem percentDecode_append {c : UInt8} (hc : c ≠ percent) (hx : isHexDigit c = false) (a b : List UInt8) :
    percentDecode (a ++ c :: b) = percentDecode a ++ c :: percentDecode b := by
  induction a using percentDecode.induct with
  | case1 => exact percentDecode_cons hc b
  | case2 d =>
    by_cases hd : d = percent
    · cases b with
      | nil => rfl
      | cons e b =>
        rw [List.singleton_append, percentDecode_plain b (Or.inl hx), percentDecode_cons hc]
        rfl
    · rw [List.singleton_append, percentDecode_cons hd, percentDecode_cons hc]
      rfl
  | case3 d e =>
    have he : percentDecode (e :: c :: b) = e :: c :: percentDecode b := by
      cases b with
      | nil => rfl
      | cons x b =>
        rw [percentDecode_plain b (Or.inl hx), percentDecode_cons hc]
    rw [show [d, e] ++ c :: b = d :: e :: c :: b from rfl, percentDecode_plain b (Or.inr hx), he]
    rfl
  | case4 d h l rest hesc ih =>
    rw [show (d :: h :: l :: rest) ++ c :: b = d :: h :: l :: (rest ++ c :: b) from rfl, percentDecode, if_pos hesc, ih,
      percentDecode, if_pos hesc]
    rfl
  | case5 d h l rest hesc ih =>
    rw [show (d :: h :: l :: rest) ++ c :: b = d :: h :: l :: (rest ++ c :: b) from rfl, percentDecode, if_neg hesc,
      show h :: l :: (rest ++ c :: b) = (h :: l :: rest) ++ c :: b from rfl, ih, percentDecode, if_neg hesc]
    rfl

/-- No text decodes to what follows a byte of it that cannot be part of an escape: if one did, what follows in the decoded text
would do so again, and be shorter. -/
theorem percentDecode_ne_ending {c : UInt8} (hc : c ≠ percent) (hx : isHexDigit c = false) (a k : List UInt8) :
    percentDecode (a ++ c :: k) ≠ k := by
  intro h
  induction hn : k.length using Nat.strong_induction_on generalizing a k with
  | _ n ih =>
    rw [percentDecode_append hc hx] at h
    have hnext : percentDecode (percentDecode a ++ c :: percentDecode k) = percentDecode k := by rw [h]
    have hlen := congrArg List.length h
    rw [List.length_append, List.length_cons] at hlen
    exact ih (percentDecode k).length (by omega) _ _ hnext rfl

end Lib
