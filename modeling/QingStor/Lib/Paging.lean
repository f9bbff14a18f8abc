import Mathlib.Data.List.Sort
import Mathlib.Order.Basic

/-!
# Paging through a sorted list

A source gives, for a marker, the first entries after it; a reader takes the last entry of each page for its next marker. As
long as the marker stands between what was read and what was not, the page continues what was read.
-/

namespace Lib

variable {α : Type*} [LinearOrder α]

/-- The first entries after a marker, `limit` at most. -/
def pageAfter (all : List α) (limit : Nat) (marker : α) : List α := (all.filter (fun x => marker < x)).take limit

/-- The marker stands between what was read and what was not. -/
structure Separates (marker : α) (done rest : List α) : Prop where
  below : ∀ x ∈ done, x ≤ marker
  above : ∀ x ∈ rest, marker < x

/-- The page after such a marker is the next part of what was not read. -/
theorem pageAfter_of_separates {marker : α} {done rest : List α} (h : Separates marker done rest) (limit : Nat) :
    pageAfter (done ++ rest) limit marker = rest.take limit := by
  have hdone : done.filter (fun x => marker < x) = [] := by
    rw [List.filter_eq_nil_iff]
    intro x hx
    simpa using h.below x hx
  have hrest : rest.filter (fun x => marker < x) = rest := by
    rw [List.filter_eq_self]
    intro x hx
    simpa using h.above x hx
  rw [pageAfter, List.filter_append, hdone, hrest, List.nil_append]

/-- The last entry of a page stands between what is read then and what is not. -/
theorem Separates.next {marker : α} {done rest : List α} (h : Separates marker done rest)
    (hsorted : (done ++ rest).Pairwise (· < ·)) (n : Nat) :
    Separates ((rest.take n).getLastD marker) (done ++ rest.take n) (rest.drop n) := by
  rcases List.eq_nil_or_concat (rest.take n) with hpage | ⟨init, last, hpage⟩
  · have hrest : rest.drop n = rest := by
      have := List.take_append_drop n rest
      rw [hpage] at this
      exact this
    rw [hpage, List.append_nil, hrest]
    exact h
  · rw [List.concat_eq_append] at hpage
    have hsplit : done ++ rest = (done ++ init ++ [last]) ++ rest.drop n := by
      conv_lhs => rw [← List.take_append_drop n rest, hpage]
      simp
    rw [hsplit, List.pairwise_append] at hsorted
    obtain ⟨hleft, _, hcross⟩ := hsorted
    rw [List.pairwise_append] at hleft
    have hlast : (init ++ [last]).getLastD marker = last := by simp
    rw [hpage, hlast, ← List.append_assoc]
    constructor
    · intro x hx
      rcases List.mem_append.1 hx with hx | hx
      · exact (hleft.2.2 x hx last (List.mem_singleton_self _)).le
      · exact (List.mem_singleton.1 hx).le
    · intro x hx
      exact hcross last (List.mem_append_right _ (List.mem_singleton_self _)) x hx

/-- A page that is not empty moves the marker on. -/
theorem Separates.lt_next {marker : α} {done rest : List α} (h : Separates marker done rest) {n : Nat}
    (hne : rest.take n ≠ []) : marker < (rest.take n).getLastD marker := by
  have hmem : (rest.take n).getLastD marker ∈ rest.take n := by
    rw [List.getLastD_eq_getLast?, List.getLast?_eq_some_getLast hne, Option.getD_some]
    exact List.getLast_mem hne
  exact h.above _ (List.mem_of_mem_take hmem)

/-! ## A source that changes between the pages -/

/-- Entries in order have the page after a marker in front of what else is after it. -/
theorem separates_page {all : List α} (hsorted : all.Pairwise (· < ·)) (limit : Nat) (marker : α) :
    Separates ((pageAfter all limit marker).getLastD marker) (pageAfter all limit marker)
      ((all.filter (fun x => marker < x)).drop limit) := by
  have hstart : Separates marker [] (all.filter (fun x => marker < x)) :=
    ⟨(fun x hx => by cases hx), fun x hx => by simpa using (List.mem_filter.1 hx).2⟩
  exact hstart.next (by rw [List.nil_append]; exact hsorted.filter _) limit

/-- What a page has was after the marker. -/
theorem mem_pageAfter {all : List α} {limit : Nat} {marker x : α} (h : x ∈ pageAfter all limit marker) : x ∈ all ∧ marker < x := by
  have hmem := List.mem_filter.1 (List.mem_of_mem_take h)
  exact ⟨hmem.1, by simpa using hmem.2⟩

/-- A page has all there was up to its last entry. -/
theorem mem_pageAfter_of_le {all : List α} (hsorted : all.Pairwise (· < ·)) {limit : Nat} {marker x : α} (hx : x ∈ all)
    (hlt : marker < x) (hle : x ≤ (pageAfter all limit marker).getLastD marker) : x ∈ pageAfter all limit marker := by
  have hmem : x ∈ pageAfter all limit marker ++ (all.filter (fun x => marker < x)).drop limit := by
    rw [pageAfter, List.take_append_drop, List.mem_filter]
    exact ⟨hx, by simpa using hlt⟩
  rcases List.mem_append.1 hmem with h | h
  · exact h
  · exact absurd ((separates_page hsorted limit marker).above x h) (not_lt.2 hle)

/-- A page shorter than its limit has all there was after the marker. -/
theorem mem_pageAfter_of_short {all : List α} {limit : Nat} {marker x : α} (hshort : (pageAfter all limit marker).length < limit)
    (hx : x ∈ all) (hlt : marker < x) : x ∈ pageAfter all limit marker := by
  unfold pageAfter at hshort ⊢
  rw [List.length_take] at hshort
  rw [List.take_of_length_le (by omega), List.mem_filter]
  exact ⟨hx, by simpa using hlt⟩

/-- Pages taken one after another, each of what the source has at the time, after the last entry of the page before. -/
inductive Paged (source : Nat → List α) (limit : Nat) (start : α) : Nat → α → List α → Prop
  | start : Paged source limit start 0 start []
  | next {n : Nat} {marker : α} {done : List α} : Paged source limit start n marker done →
      Paged source limit start (n + 1) ((pageAfter (source n) limit marker).getLastD marker)
        (done ++ pageAfter (source n) limit marker)

namespace Paged

variable {source : Nat → List α} {limit : Nat} {start : α} {n : Nat} {marker : α} {done : List α}

/-- What was read ascends up to the marker. -/
theorem ascending (h : Paged source limit start n marker done) (hsorted : ∀ n, (source n).Pairwise (· < ·)) :
    done.Pairwise (· < ·) ∧ (∀ x ∈ done, x ≤ marker) ∧ start ≤ marker := by
  induction h with
  | start => exact ⟨.nil, (fun x hx => by cases hx), le_rfl⟩
  | @next n marker done _ ih =>
    obtain ⟨hasc, hbelow, hstart⟩ := ih
    have hsep := separates_page (hsorted n) limit marker
    have hmove : marker ≤ (pageAfter (source n) limit marker).getLastD marker := by
      rcases List.eq_nil_or_concat (pageAfter (source n) limit marker) with hnil | ⟨init, last, hpage⟩
      · rw [hnil]
        exact le_rfl
      · have hlast : last ∈ pageAfter (source n) limit marker := by
          rw [hpage]
          simp
        exact (mem_pageAfter hlast).2.le.trans (hsep.below last hlast)
    refine ⟨List.pairwise_append.2 ⟨hasc, ?_, fun x hx y hy => ?_⟩, fun x hx => ?_, hstart.trans hmove⟩
    · exact ((hsorted n).filter _).sublist (List.take_sublist _ _)
    · exact (hbelow x hx).trans_lt (mem_pageAfter hy).2
    · rcases List.mem_append.1 hx with hx | hx
      · exact (hbelow x hx).trans hmove
      · exact hsep.below x hx

/-- What was read was there when a page was taken. -/
theorem sound (h : Paged source limit start n marker done) : ∀ x ∈ done, ∃ j < n, x ∈ source j := by
  induction h with
  | start => exact fun x hx => by cases hx
  | @next n marker done _ ih =>
    intro x hx
    rcases List.mem_append.1 hx with hx | hx
    · obtain ⟨j, hj, hmem⟩ := ih x hx
      exact ⟨j, by omega, hmem⟩
    · exact ⟨n, by omega, (mem_pageAfter hx).1⟩

/-- What was there all the time was read, up to the marker. -/
theorem complete (h : Paged source limit start n marker done) (hsorted : ∀ n, (source n).Pairwise (· < ·)) {x : α}
    (hstart : start < x) (hle : x ≤ marker) (hall : ∀ j < n, x ∈ source j) : x ∈ done := by
  induction h with
  | start => exact absurd hle (not_le.2 hstart)
  | @next n marker done _ ih =>
    rcases le_or_gt x marker with hbefore | hafter
    · exact List.mem_append_left _ (ih hbefore (fun j hj => hall j (by omega)))
    · exact List.mem_append_right _ (mem_pageAfter_of_le (hsorted n) (hall n (Nat.lt_succ_self n)) hafter hle)

end Paged

end Lib
