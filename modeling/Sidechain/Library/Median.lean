import Mathlib.Data.List.Sort
import Mathlib.Data.Nat.Basic

/-! The median of the newest entries of a growing list: it never falls when every new entry is
larger than the median before it. -/
namespace Median

/-- The upper of the two middle entries, if there are two. -/
def median (xs : List ℕ) : ℕ :=
  let sorted := xs.insertionSort (· ≤ ·)
  sorted.getD (sorted.length / 2) 0

/-- How many entries are smaller. -/
def below (m : ℕ) (xs : List ℕ) : ℕ := xs.countP fun x => decide (x < m)

@[simp] theorem below_cons (m x : ℕ) (xs : List ℕ) :
    below m (x::xs) = below m xs + if x < m then 1 else 0 := by
  simp [below,List.countP_cons]

/-- In a sorted list the entries below a bound come first. -/
theorem le_getElem_iff {xs : List ℕ} (hsorted : xs.Pairwise (· ≤ ·)) {m i : ℕ}
    (hi : i < xs.length) : m ≤ xs[i] ↔ below m xs ≤ i := by
  induction xs generalizing i with
  | nil => simp at hi
  | cons x xs ih =>
    obtain ⟨hx,hxs⟩ := List.pairwise_cons.mp hsorted
    rw [below_cons]
    by_cases hlt : x < m
    · rw [if_pos hlt]
      cases i with
      | zero => simpa using hlt
      | succ i =>
        rw [List.getElem_cons_succ,ih hxs (by simpa using hi)]
        omega
    · rw [if_neg hlt]
      have hnone : below m xs = 0 := by
        unfold below
        rw [List.countP_eq_zero]
        intro y hy
        have := hx y hy
        simp only [decide_eq_true_eq]
        omega
      have hle : m ≤ (x::xs)[i] := by
        cases i with
        | zero => exact Nat.not_lt.mp hlt
        | succ i =>
          rw [List.getElem_cons_succ]
          exact (Nat.not_lt.mp hlt).trans (hx _ (List.getElem_mem _))
      rw [hnone]
      exact iff_of_true hle (Nat.zero_le i)

/-- The median is at least `m` when at most half of the entries are below it. -/
theorem le_median_iff {xs : List ℕ} (hne : xs ≠ []) {m : ℕ} :
    m ≤ median xs ↔ below m xs ≤ xs.length / 2 := by
  have hpos := List.length_pos_iff.mpr hne
  have hi : xs.length / 2 < (xs.insertionSort (· ≤ ·)).length := by
    rw [List.length_insertionSort]
    omega
  have hcount : below m (xs.insertionSort (· ≤ ·)) = below m xs :=
    (List.perm_insertionSort (· ≤ ·) xs).countP_eq _
  rw [median,List.length_insertionSort,List.getD_eq_getElem?_getD,List.getElem?_eq_getElem hi,Option.getD_some,
    le_getElem_iff (List.pairwise_insertionSort (· ≤ ·) xs) hi,hcount]

/-- A new entry that is not below the median of the newest ones leaves it at least as large. -/
theorem median_take_mono {x : ℕ} {xs : List ℕ} (hne : xs ≠ []) {span : ℕ} (hspan : 0 < span)
    (hx : median (xs.take span) ≤ x) :
    median (xs.take span) ≤ median ((x::xs).take span) := by
  obtain ⟨k,rfl⟩ := Nat.exists_eq_succ_of_ne_zero hspan.ne'
  have hold : xs.take (k+1) ≠ [] := by simpa using hne
  have hhalf := (le_median_iff hold).mp le_rfl
  rw [Nat.succ_eq_add_one] at hx ⊢
  rw [List.take_succ_cons,le_median_iff (List.cons_ne_nil _ _),below_cons,
    if_neg (Nat.not_lt.mpr hx)]
  have hsub : below (median (xs.take (k+1))) (xs.take k) ≤
      below (median (xs.take (k+1))) (xs.take (k+1)) :=
    (List.take_sublist_take_left (Nat.le_succ k)).countP_le
  have hlen : (xs.take (k+1)).length ≤ (xs.take k).length + 1 := by
    simp only [List.length_take]
    omega
  rw [List.length_cons]
  omega

end Median
