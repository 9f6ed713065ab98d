import Mathlib.Data.List.Lex
import Mathlib.Data.List.Perm.Basic
import Mathlib.Data.Prod.Lex
import Mathlib.Order.RelClasses

/-! Greatest elements of a list by a sort that may break ties in any way, and the class of a list
with the most members. -/
namespace Selection

variable {α κ : Type}

/-- A comparison that a sort may be given. -/
abbrev Comparison (less : α → α → Bool) : Prop := IsStrictWeakOrder α fun a b => less a b = true

/-- A sort by a comparison: what is greater stands behind. -/
structure UnstableSort (α : Type) where
  sort : (α → α → Bool) → List α → List α
  perm : ∀ less l, Comparison less → (sort less l).Perm l
  ordered : ∀ less l, Comparison less → (sort less l).Pairwise fun a b => less b a = false

theorem comparison_of_key [LinearOrder κ] {less : α → α → Bool} (key : α → κ)
    (h : ∀ a b, less a b = true ↔ key a < key b) : Comparison less := by
  simp only [Comparison,h]
  exact {
    irrefl := fun a => lt_irrefl _
    trans := fun a b c => lt_trans
    incomp_trans := by
      rintro a b c ⟨hab,hba⟩ ⟨hbc,hcb⟩
      have heq : key a = key b := le_antisymm (not_lt.mp hba) (not_lt.mp hab)
      rw [heq]
      exact ⟨hbc,hcb⟩ }

theorem not_less_trans {less : α → α → Bool} (hless : Comparison less) {a b c : α}
    (hba : less b a = false) (hcb : less c b = false) : less c a = false := by
  by_contra hca
  rw [Bool.not_eq_false] at hca
  have hab : ¬less a b = true := fun hab =>
    absurd (hless.trans c a b hca hab) (Bool.eq_false_iff.mp hcb)
  have hbc : ¬less b c = true := fun hbc =>
    absurd (hless.trans b c a hbc hca) (Bool.eq_false_iff.mp hba)
  exact (hless.incomp_trans a b c ⟨hab,Bool.eq_false_iff.mp hba⟩
    ⟨hbc,Bool.eq_false_iff.mp hcb⟩).2 hca

/-- A merge sort is such a sort. -/
def UnstableSort.merge (α : Type) : UnstableSort α where
  sort less l := l.mergeSort fun a b => !less b a
  perm less l _ := List.mergeSort_perm l _
  ordered less l hless := by
    have hsorted : (l.mergeSort fun a b => !less b a).Pairwise fun a b => (!less b a) = true := by
      refine List.pairwise_mergeSort (fun a b c hab hbc => ?_) (fun a b => ?_) l
      · rw [Bool.not_eq_true'] at hab hbc ⊢
        exact not_less_trans hless hab hbc
      · rw [Bool.or_eq_true,Bool.not_eq_true',Bool.not_eq_true']
        by_contra hboth
        obtain ⟨hba,hab⟩ := not_or.mp hboth
        rw [Bool.not_eq_false] at hba hab
        exact hless.irrefl a (hless.trans a b a hab hba)
    refine hsorted.imp fun {a b} h => ?_
    rwa [Bool.not_eq_true'] at h

/-- A choice of `k` elements, or of all if there are fewer, such that none that is kept exceeds a
chosen one. -/
structure Greatest (less : α → α → Bool) (k : ℕ) (all kept chosen : List α) : Prop where
  perm : (kept ++ chosen).Perm all
  length : chosen.length = min k all.length
  above : ∀ a ∈ chosen, ∀ b ∈ kept, less a b = false

/-- The list without its last `k` elements. -/
def eraseBack (k : ℕ) (l : List α) : List α := l.take (l.length - k)

variable {less : α → α → Bool} {k : ℕ} {all kept chosen all' kept' l : List α}

theorem Greatest.congr (h : Greatest less k all kept chosen) (hkept : kept'.Perm kept)
    (hall : all.Perm all') : Greatest less k all' kept' chosen where
  perm := ((hkept.append_right chosen).trans h.perm).trans hall
  length := by rw [h.length,hall.length_eq]
  above a ha b hb := h.above a ha b (hkept.mem_iff.mp hb)

theorem eraseBack_min (k : ℕ) (l : List α) : eraseBack (min k l.length) l = eraseBack k l := by
  rw [eraseBack,eraseBack]
  congr 1
  omega

theorem greatest_eraseBack (S : UnstableSort α) (hless : Comparison less) (k : ℕ) (l : List α) :
    ∃ chosen, Greatest less k l (eraseBack k (S.sort less l)) chosen := by
  have hperm := S.perm less l hless
  have hordered := S.ordered less l hless
  generalize S.sort less l = sorted at hperm hordered
  have hsplit := List.take_append_drop (sorted.length - k) sorted
  refine ⟨sorted.drop (sorted.length - k),?_,?_,?_⟩
  · rw [eraseBack,hsplit]
    exact hperm
  · rw [List.length_drop,hperm.length_eq]
    omega
  · intro a ha b hb
    rw [← hsplit,List.pairwise_append] at hordered
    exact hordered.2.2 b hb a ha

variable [DecidableEq κ]

/-- The elements of a class. -/
def members (group : α → κ) (g : κ) (l : List α) : List α := l.filter fun a => group a = g

/-- How many members a class has and, for classes of the same size, the value of its first one. -/
def standing (group : α → κ) (value : α → ℤ) (g : κ) (l : List α) : ℕ ×ₗ ℤ :=
  toLex ((members group g l).length,((members group g l).head?.map value).getD 0)

variable {group : α → κ} {value : α → ℤ} {g : κ} {a : α}

theorem members_snoc (h : group a = g) : members group g (l ++ [a]) = members group g l ++ [a] := by
  rw [members,members,List.filter_append,List.filter_singleton,decide_eq_true h]
  rfl

theorem members_snoc_of_ne (h : group a ≠ g) : members group g (l ++ [a]) = members group g l := by
  rw [members,members,List.filter_append,List.filter_singleton,decide_eq_false h]
  exact List.append_nil _

theorem standing_snoc_of_ne (h : group a ≠ g) :
    standing group value g (l ++ [a]) = standing group value g l := by
  rw [standing,members_snoc_of_ne h,standing]

theorem standing_lt_snoc (h : group a = g) :
    standing group value g l < standing group value g (l ++ [a]) := by
  rw [standing,standing,members_snoc h,Prod.Lex.toLex_lt_toLex,List.length_append]
  exact .inl (Nat.lt_succ_self _)

theorem mem_members {b : α} : b ∈ members group g l ↔ b ∈ l ∧ group b = g := by
  rw [members,List.mem_filter,decide_eq_true_eq]

/-- In a list with greater values in front, a class of the greatest standing has the most members,
and its first one is not below any member of a class of the same size. -/
theorem first_of_top (hordered : l.Pairwise fun a b => value b ≤ value a)
    (htop : ∀ g', standing group value g' l ≤ standing group value g l)
    (hfirst : (members group g l).head? = some a) : a ∈ l ∧ group a = g ∧ ∀ b ∈ l,
      (members group (group b) l).length < (members group g l).length ∨
      (members group (group b) l).length = (members group g l).length ∧ value b ≤ value a := by
  obtain ⟨ha,hgroup⟩ := mem_members.mp (List.mem_of_head? hfirst)
  refine ⟨ha,hgroup,fun b hb => ?_⟩
  have hle := htop (group b)
  rw [standing,standing,Prod.Lex.toLex_le_toLex,hfirst] at hle
  obtain hlt | ⟨heq,hle⟩ := hle
  · exact .inl hlt
  refine .inr ⟨heq,?_⟩
  have hmem : b ∈ members group (group b) l := mem_members.mpr ⟨hb,rfl⟩
  have hsorted : (members group (group b) l).Pairwise fun a b => value b ≤ value a :=
    hordered.filter _
  cases hlist : members group (group b) l with
  | nil =>
    rw [hlist] at hmem
    exact nomatch hmem
  | cons c rest =>
    rw [hlist] at hmem hle hsorted
    obtain rfl | hbehind := List.mem_cons.mp hmem
    · exact hle
    · exact (List.rel_of_pairwise_cons hsorted hbehind).trans hle

end Selection
