import Mathlib.Data.List.Basic

/-!
# What each entry of a history finds

A property of an entry and of the entries before it, for every entry of a list that grows at its end.
-/

namespace Lib

variable {α : Type*} {P : List α → α → Prop} {l l' : List α} {x : α}

/-- `P` holds of every entry and the entries before it. -/
def Each (P : List α → α → Prop) (l : List α) : Prop := ∀ before x after, l = before ++ x :: after → P before x

theorem each_nil : Each P [] := by
  intro before x after h
  simp at h

/-- The property of a longer history is the property of the shorter one, and that of its last entry. -/
theorem each_concat : Each P (l ++ [x]) ↔ Each P l ∧ P l x := by
  constructor
  · intro h
    refine ⟨fun before y after hl => ?_, h l x [] rfl⟩
    exact h before y (after ++ [x]) (by rw [hl, List.append_assoc, List.cons_append])
  · rintro ⟨hl, hx⟩ before y after h
    rcases List.eq_nil_or_concat after with rfl | ⟨after, z, rfl⟩
    · obtain ⟨rfl, hxy⟩ := List.append_inj' h rfl
      rw [← List.singleton_inj.1 hxy]
      exact hx
    · have hsplit : l ++ [x] = (before ++ y :: after) ++ [z] := by
        rw [h, List.concat_eq_append, List.append_assoc, List.cons_append]
      exact hl before y after (List.append_inj' hsplit rfl).1

end Lib
