import QingStor.HttpParser

/-!
# Numbers in decimal

What a number is printed as: its digits, with a minus before them if it is below zero.
-/

namespace QingStor

/-- A number prints as its digits. -/
theorem decimal_eq (n : Nat) : decimal n = (Nat.toDigits 10 n).map (fun c => c.toNat.toUInt8) := by
  have h : toString (n : Int) = Nat.repr n := rfl
  rw [decimal, h, lit, Nat.repr_eq_ofList_toDigits, String.toList_ofList]

/-- A digit as a byte. -/
theorem toUInt8_of_isDigit {c : Char} (h : c.isDigit = true) : isNum c.toNat.toUInt8 = true := by
  simp only [Char.isDigit, Bool.and_eq_true, decide_eq_true_eq, ge_iff_le] at h
  have h1 : 48 ≤ c.toNat := h.1
  have h2 : c.toNat ≤ 57 := h.2
  have hnat : c.toNat.toUInt8.toNat = c.toNat := by
    rw [Nat.toUInt8_eq, UInt8.toNat_ofNat']
    omega
  simp only [isNum, Bool.and_eq_true, decide_eq_true_eq, UInt8.le_iff_toNat_le, hnat]
  exact ⟨h1, h2⟩

theorem decimal_isNum (n : Nat) : ∀ c ∈ decimal n, isNum c = true := by
  rw [decimal_eq]
  intro c hc
  obtain ⟨d, hd, rfl⟩ := List.mem_map.1 hc
  exact toUInt8_of_isDigit (Nat.isDigit_of_mem_toDigits (by decide) (by decide) hd)

/-- A number below zero prints as a minus and its digits. -/
theorem decimal_negSucc (m : Nat) : decimal (Int.negSucc m) = '-'.toUInt8 :: decimal (m + 1 : Nat) := by
  have h : toString (Int.negSucc m) = "-" ++ Nat.repr (m + 1) := rfl
  have h' : toString ((m + 1 : Nat) : Int) = Nat.repr (m + 1) := rfl
  rw [decimal, decimal, h, h', lit, lit, String.toList_append, List.map_append]
  rfl

end QingStor
