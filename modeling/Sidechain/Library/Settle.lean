import Mathlib.Algebra.BigOperators.Group.List.Basic
import Mathlib.Algebra.Order.Ring.Int
import Mathlib.Data.List.Infix
import Mathlib.Order.Bounds.Basic

/-! Settling a debt from payments that come in groups. A payment beyond what is owed is change.
Groups are taken as long as something is owed, and a group is taken whole. -/
namespace Sidechain.Settle

variable {α : Type} (val : α → ℤ)

/-- What is still owed after a payment. -/
def owed (debt c : ℤ) : ℤ := max 0 (debt - c)

def owedAfter (debt : ℤ) : List α → ℤ
  | [] => debt
  | a::as => owedAfter (owed debt (val a)) as

/-- The change of every payment that is more than what is owed at its turn. -/
def changes (debt : ℤ) : List α → List ℤ
  | [] => []
  | a::as => (if debt < val a then [val a - debt] else []) ++ changes (owed debt (val a)) as

/-- The groups that are taken. -/
def taken (debt : ℤ) : List (List α) → List (List α)
  | [] => []
  | g::gs => if 0 < debt then g :: taken (owedAfter val debt g) gs else []

@[simp] theorem owedAfter_append (debt : ℤ) (as bs : List α) :
    owedAfter val debt (as ++ bs) = owedAfter val (owedAfter val debt as) bs := by
  induction as generalizing debt with
  | nil => rfl
  | cons a as ih => exact ih _

@[simp] theorem changes_append (debt : ℤ) (as bs : List α) :
    changes val debt (as ++ bs) = changes val debt as ++ changes val (owedAfter val debt as) bs := by
  induction as generalizing debt with
  | nil => rfl
  | cons a as ih => simp only [List.cons_append,changes,owedAfter,ih,List.append_assoc]

/-- The debt itself, and what the first payments sum up to each time. -/
def levels (debt : ℤ) (as : List α) : Set ℤ :=
  {x | x = debt ∨ ∃ p, p ≠ [] ∧ p <+: as ∧ (p.map val).sum = x}

theorem levels_concat (debt : ℤ) (as : List α) (a : α) : levels val debt (as ++ [a]) =
    insert ((as ++ [a]).map val).sum (levels val debt as) := by
  ext x
  constructor
  · rintro (rfl|⟨p,hp,hpre,rfl⟩)
    · exact .inr (.inl rfl)
    · rcases List.prefix_concat_iff.mp hpre with rfl|hpre
      · exact .inl rfl
      · exact .inr (.inr ⟨p,hp,hpre,rfl⟩)
  · rintro (rfl|rfl|⟨p,hp,hpre,rfl⟩)
    · exact .inr ⟨as ++ [a],by simp,List.prefix_rfl,rfl⟩
    · exact .inl rfl
    · exact .inr ⟨p,hp,hpre.trans (List.prefix_append _ _),rfl⟩

theorem isGreatest_levels (debt : ℤ) (as : List α) :
    IsGreatest (levels val debt as) (owedAfter val debt as + (as.map val).sum) := by
  induction as using List.reverseRecOn with
  | nil =>
    refine ⟨.inl (by simp [owedAfter]),?_⟩
    rintro x (rfl|⟨p,hp,hpre,_⟩)
    · simp [owedAfter]
    · exact absurd (List.prefix_nil.mp hpre) hp
  | append_singleton as a ih =>
    have hmax := ih.insert ((as ++ [a]).map val).sum
    have howed : owedAfter val debt (as ++ [a]) = max 0 (owedAfter val debt as - val a) :=
      owedAfter_append val debt as [a]
    have hsum : ((as ++ [a]).map val).sum = (as.map val).sum + val a := by simp
    have hnext : owedAfter val debt (as ++ [a]) + ((as ++ [a]).map val).sum =
        max ((as ++ [a]).map val).sum (owedAfter val debt as + (as.map val).sum) := by
      rw [howed,hsum]
      omega
    rwa [levels_concat,hnext]

theorem owedAfter_pos_iff {debt : ℤ} {as : List α} :
    0 < owedAfter val debt as ↔ ∃ x ∈ levels val debt as, (as.map val).sum < x := by
  obtain ⟨hmem,hle⟩ := isGreatest_levels val debt as
  constructor
  · intro h
    exact ⟨_,hmem,by omega⟩
  · rintro ⟨x,hx,hlt⟩
    have hx := hle hx
    omega

theorem owedAfter_lt_iff {debt : ℤ} {as : List α} {a : α} : owedAfter val debt as < val a ↔
    ∀ x ∈ levels val debt as, x < ((as ++ [a]).map val).sum := by
  have hsum : ((as ++ [a]).map val).sum = (as.map val).sum + val a := by simp
  rw [← (isGreatest_levels val debt as).lt_iff,hsum]
  omega

theorem mem_changes_iff {debt c : ℤ} {as : List α} : c ∈ changes val debt as ↔
    ∃ p a, p ++ [a] <+: as ∧ owedAfter val debt p < val a ∧ c = val a - owedAfter val debt p := by
  induction as using List.reverseRecOn with
  | nil => simp [changes]
  | append_singleton as a ih =>
    rw [changes_append,List.mem_append,ih]
    constructor
    · rintro (⟨p,b,hpre,hlt,rfl⟩|hc)
      · exact ⟨p,b,hpre.trans (List.prefix_append _ _),hlt,rfl⟩
      · by_cases hlt : owedAfter val debt as < val a
        · exact ⟨as,a,List.prefix_rfl,hlt,by simpa [changes,hlt] using hc⟩
        · simp [changes,hlt] at hc
    · rintro ⟨p,b,hpre,hlt,rfl⟩
      rcases List.prefix_concat_iff.mp hpre with heq|hpre
      · obtain ⟨rfl,rfl⟩ := List.append_singleton_inj.mp heq
        exact .inr (by simp [changes,hlt])
      · exact .inl ⟨p,b,hpre,hlt,rfl⟩

theorem forall_changes_iff {debt lo hi : ℤ} {as : List α} :
    (∀ c ∈ changes val debt as, lo ≤ c ∧ c ≤ hi) ↔
      ∀ p a, p ++ [a] <+: as → (∀ x ∈ levels val debt p, x < ((p ++ [a]).map val).sum) →
        (∀ x ∈ levels val debt p, x + lo ≤ ((p ++ [a]).map val).sum) ∧
          ∃ x ∈ levels val debt p, ((p ++ [a]).map val).sum ≤ x + hi := by
  have hbounds : ∀ (p : List α) a, (lo ≤ val a - owedAfter val debt p ∧
      val a - owedAfter val debt p ≤ hi) ↔
      (∀ x ∈ levels val debt p, x + lo ≤ ((p ++ [a]).map val).sum) ∧
        ∃ x ∈ levels val debt p, ((p ++ [a]).map val).sum ≤ x + hi := by
    intro p a
    obtain ⟨hmem,hle⟩ := isGreatest_levels val debt p
    have hsum : ((p ++ [a]).map val).sum = (p.map val).sum + val a := by simp
    rw [hsum]
    constructor
    · rintro ⟨hlo,hhi⟩
      refine ⟨fun x hx => ?_,_,hmem,by omega⟩
      have hx := hle hx
      omega
    · rintro ⟨hlo,x,hx,hhi⟩
      have hlo := hlo _ hmem
      have hx := hle hx
      omega
  constructor
  · intro h p a hpre hover
    exact (hbounds p a).mp (h _ (mem_changes_iff val |>.mpr
      ⟨p,a,hpre,(owedAfter_lt_iff val).mpr hover,rfl⟩))
  · intro h c hc
    obtain ⟨p,a,hpre,hlt,rfl⟩ := (mem_changes_iff val).mp hc
    exact (hbounds p a).mpr (h p a hpre ((owedAfter_lt_iff val).mp hlt))

/-- There is change exactly if some first payments sum up to more than the debt. -/
theorem changes_ne_nil_iff {debt : ℤ} {as : List α} : changes val debt as ≠ [] ↔
    ∃ p, p ≠ [] ∧ p <+: as ∧ debt < (p.map val).sum := by
  induction as using List.reverseRecOn with
  | nil => simp [changes]
  | append_singleton as a ih =>
    have hlast : changes val debt (as ++ [a]) ≠ [] ↔
        changes val debt as ≠ [] ∨ owedAfter val debt as < val a := by
      rw [changes_append]
      by_cases hlt : owedAfter val debt as < val a <;> simp [changes,hlt]
    rw [hlast,ih]
    constructor
    · rintro (⟨p,hp,hpre,hlt⟩|hlt)
      · exact ⟨p,hp,hpre.trans (List.prefix_append _ _),hlt⟩
      · exact ⟨as ++ [a],by simp,List.prefix_rfl,(owedAfter_lt_iff val).mp hlt _ (.inl rfl)⟩
    · rintro ⟨p,hp,hpre,hlt⟩
      rcases List.prefix_concat_iff.mp hpre with rfl|hpre
      · rw [or_iff_not_imp_right,owedAfter_lt_iff]
        intro hnot
        simp only [not_forall,not_lt,exists_prop] at hnot
        -- the sum is at most some level, which then is a sum above the debt itself
        obtain ⟨x,rfl|⟨p,hp,hpre,rfl⟩,hle⟩ := hnot
        · omega
        · exact ⟨p,hp,hpre,by omega⟩
      · exact .inl ⟨p,hp,hpre,hlt⟩

theorem owedAfter_nonneg {debt : ℤ} (h : 0 ≤ debt) (as : List α) : 0 ≤ owedAfter val debt as := by
  induction as generalizing debt with
  | nil => exact h
  | cons a as ih => exact ih (le_max_left 0 _)

theorem sum_eq (debt : ℤ) (h : 0 ≤ debt) (as : List α) :
    (as.map val).sum = debt - owedAfter val debt as + (changes val debt as).sum := by
  induction as generalizing debt with
  | nil => simp [owedAfter,changes]
  | cons a as ih =>
    have hrest := ih (owed debt (val a)) (le_max_left 0 _)
    have hstep : debt - val a = owed debt (val a) - (if debt < val a then [val a - debt] else []).sum := by
      unfold owed
      split_ifs with hlt
      · rw [max_eq_left (by omega),List.sum_singleton]
        omega
      · rw [max_eq_right (by omega),List.sum_nil]
        omega
    simp only [List.map_cons,List.sum_cons,owedAfter,changes,List.sum_append]
    omega

theorem taken_prefix (debt : ℤ) (gs : List (List α)) : taken val debt gs <+: gs := by
  induction gs generalizing debt with
  | nil => exact List.prefix_rfl
  | cons g gs ih =>
    unfold taken
    split_ifs
    · exact List.prefix_cons_inj g |>.mpr (ih _)
    · exact List.nil_prefix

/-- A group is taken as long as something is owed before it and before all groups ahead of it. -/
theorem lt_length_taken_iff {debt : ℤ} {gs : List (List α)} {i : ℕ} :
    i < (taken val debt gs).length ↔
      i < gs.length ∧ ∀ j ≤ i, 0 < owedAfter val debt (gs.take j).flatten := by
  induction gs generalizing debt i with
  | nil => simp [taken]
  | cons g gs ih =>
    unfold taken
    split_ifs with hdebt
    · cases i with
      | zero => simpa [owedAfter] using hdebt
      | succ i =>
        rw [List.length_cons,Nat.add_lt_add_iff_right,ih,List.length_cons,Nat.add_lt_add_iff_right]
        refine and_congr_right fun _ => ?_
        constructor
        · intro h j hj
          cases j with
          | zero => exact hdebt
          | succ j =>
            rw [List.take_succ_cons,List.flatten_cons,owedAfter_append]
            exact h j (by omega)
        · intro h j hj
          have hnext := h (j + 1) (by omega)
          rwa [List.take_succ_cons,List.flatten_cons,owedAfter_append] at hnext
    · refine iff_of_false (Nat.not_lt_zero i) fun h => hdebt ?_
      exact h.2 0 (Nat.zero_le i)

theorem le_length_taken_iff {debt : ℤ} {gs : List (List α)} {k : ℕ} :
    k ≤ (taken val debt gs).length ↔ k ≤ gs.length ∧ ∀ j < k,
      ∃ x ∈ levels val debt (gs.take j).flatten, ((gs.take j).flatten.map val).sum < x := by
  cases k with
  | zero => simp
  | succ k =>
    rw [Nat.succ_le_iff,lt_length_taken_iff,Nat.succ_le_iff]
    exact and_congr_right fun _ => forall_congr' fun j =>
      imp_congr Nat.lt_succ_iff.symm (owedAfter_pos_iff val)

end Sidechain.Settle
