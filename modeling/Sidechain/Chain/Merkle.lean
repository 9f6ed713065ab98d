import Sidechain.Chain.BlockIndex
import Sidechain.Library.MerkleTree
import Mathlib.Tactic.Linarith

/-! `MerkleComputation`: the root of a list of leaves and the branch of one of them, in constant
space, with one hash for each bit of a 32-bit counter. -/
namespace Sidechain
open MerkleTree

section
variable {α : Type} [DecidableEq α] [Inhabited α] (node : α → α → α)

/-- A hash on its way up, and whether it depends on the wanted leaf. -/
structure Climbed (α : Type) where
  h : α
  matchh : Bool
  branch : List α
  mutated : Bool

/-- Combine a hash with the inner value of a level. -/
def combineLevel (inner : ℕ → α) (matchlevel : Option ℕ) (level : ℕ) (c : Climbed α) : Climbed α where
  h := node (inner level) c.h
  matchh := c.matchh || matchlevel == some level
  branch := if c.matchh then c.branch ++ [inner level]
    else if matchlevel = some level then c.branch ++ [c.h] else c.branch
  mutated := c.mutated || inner level == c.h

/-- Combine on all levels whose bit in `count` is not set; there are 32 of them. -/
def combineUp (inner : ℕ → α) (matchlevel : Option ℕ) (count : ℕ) :
    ℕ → ℕ → Climbed α → Option (ℕ × Climbed α)
  | 0,_,_ => none
  | fuel+1,level,c =>
    if count.testBit level then some (level,c)
    else combineUp inner matchlevel count fuel (level + 1)
      (combineLevel node inner matchlevel level c)

/-- What the leaves counted so far leave behind. -/
structure MerkleProgress (α : Type) [Inhabited α] where
  count : ℕ := 0
  inner : ℕ → α := fun _ => default
  matchlevel : Option ℕ := none
  branch : List α := []
  mutated : Bool := false

def addLeaf (branchpos : ℕ) (s : MerkleProgress α) (leaf : α) : Option (MerkleProgress α) :=
  let count := (s.count + 1) % 2^32
  match combineUp node s.inner s.matchlevel count 32 0
    ⟨leaf,s.count == branchpos,s.branch,s.mutated⟩ with
  | none => none
  | some (level,c) => some
    { count
      inner := Function.update s.inner level c.h
      matchlevel := if c.matchh then some level else s.matchlevel
      branch := c.branch
      mutated := c.mutated }

/-- A hash that is not the top is combined with itself. -/
def doubleLevel (c : Climbed α) : Climbed α :=
  { c with h := node c.h c.h, branch := if c.matchh then c.branch ++ [c.h] else c.branch }

/-- The sweep over the rightmost branch, as if there were two entries at each level. -/
def sweepUp (inner : ℕ → α) (matchlevel : Option ℕ) : ℕ → ℕ → ℕ → Climbed α → Option (Climbed α)
  | 0,_,_,_ => none
  | fuel+1,count,level,c =>
    if count = 2^level then some c
    else
      let count := (count + 2^level) % 2^32
      match combineUp node inner matchlevel count (32 - (level + 1)) (level + 1)
        (doubleLevel node c) with
      | none => none
      | some (level,c) => sweepUp inner matchlevel fuel count level c

/-- The root, the mutation flag and the branch; nothing if the counter does not hold the leaves. -/
def merkleComputation (leaves : List α) (branchpos : ℕ) : Option (α × Bool × List α) :=
  if leaves.isEmpty then some (default,false,[])
  else
    match leaves.foldlM (addLeaf node branchpos) {} with
    | none => none
    | some s =>
      let level := lowestLevel s.count 32 0
      match sweepUp node s.inner s.matchlevel 32 s.count level
        ⟨s.inner level,s.matchlevel == some level,s.branch,false⟩ with
      | none => none
      | some c => some (c.h,s.mutated,c.branch)

/-- `ComputeMerkleRoot`, with its mutation flag; the position -1 is no leaf. -/
def computeRoot (leaves : List α) : Option (α × Bool) :=
  (merkleComputation node leaves (2^32 - 1)).map fun r => (r.1,r.2.1)

def computeMerkleBranch (leaves : List α) (position : ℕ) : Option (List α) :=
  (merkleComputation node leaves position).map fun r => r.2.2

/-- Bit `i` of the position tells on which side the `i`-th hash of the branch is. -/
def computeMerkleRootFromBranch (leaf : α) (vMerkleBranch : List α) (nIndex : ℕ) : α :=
  (vMerkleBranch.foldl (fun (hash,nIndex) it =>
    (if nIndex % 2 = 1 then node it hash else node hash it,nIndex / 2)) (leaf,nIndex)).1

variable {node}

theorem testBit_eq_false {count level : ℕ} (h : 2^level ∣ count) :
    count.testBit level = false ↔ 2^(level + 1) ∣ count := by
  obtain ⟨q,rfl⟩ := h
  rw [Nat.testBit_eq_decide_div_mod_eq,Nat.mul_div_cancel_left q (Nat.two_pow_pos level),pow_succ,
    Nat.mul_dvd_mul_iff_left (Nat.two_pow_pos level),decide_eq_false_iff_not]
  omega

omit [Inhabited α] in
/-- Going up through the levels below the lowest bit of the counter. -/
theorem combineUp_induct (inner : ℕ → α) (matchlevel : Option ℕ) (P : ℕ → Climbed α → Prop)
    {count level : ℕ} {c : Climbed α} (hpos : 0 < count) (hlt : count < 2^32)
    (hlevel : 2^level ∣ count) (hP : P level c)
    (hstep : ∀ j c, 2^(j + 1) ∣ count → P j c →
      P (j + 1) (combineLevel node inner matchlevel j c)) :
    ∃ t c', combineUp node inner matchlevel count (32 - level) level c = some (t,c') ∧ level ≤ t ∧
      2^t ∣ count ∧ ¬ 2^(t + 1) ∣ count ∧ P t c' := by
  obtain ⟨fuel,hfuel⟩ : ∃ fuel, fuel = 32 - level := ⟨_,rfl⟩
  rw [← hfuel]
  have hlt32 : ∀ {j}, 2^j ∣ count → j < 32 := by
    intro j hj
    have hle := Nat.le_of_dvd hpos hj
    exact (Nat.pow_lt_pow_iff_right (by decide)).mp (hle.trans_lt hlt)
  induction fuel generalizing level c with
  | zero =>
    have := hlt32 hlevel
    omega
  | succ fuel ih =>
    rw [combineUp]
    cases hbit : count.testBit level with
    | true =>
      rw [if_pos rfl]
      refine ⟨level,c,rfl,le_rfl,hlevel,fun hdvd => ?_,hP⟩
      rw [(testBit_eq_false hlevel).mpr hdvd] at hbit
      cases hbit
    | false =>
      have hdvd := (testBit_eq_false hlevel).mp hbit
      obtain ⟨t,c',heq,hle,hrest⟩ := ih hdvd (hstep level c hdvd hP) (by omega)
      rw [if_neg (by simp)]
      exact ⟨t,c',heq,by omega,hrest⟩

theorem lowestLevel_spec {count level : ℕ} (hpos : 0 < count) (hlt : count < 2^32)
    (hlevel : 2^level ∣ count) : 2^lowestLevel count (32 - level) level ∣ count ∧
      ¬ 2^(lowestLevel count (32 - level) level + 1) ∣ count := by
  obtain ⟨fuel,hfuel⟩ : ∃ fuel, fuel = 32 - level := ⟨_,rfl⟩
  rw [← hfuel]
  induction fuel generalizing level with
  | zero =>
    have hle := Nat.le_of_dvd hpos hlevel
    have := (Nat.pow_lt_pow_iff_right (by decide)).mp (hle.trans_lt hlt)
    omega
  | succ fuel ih =>
    rw [lowestLevel]
    cases hbit : count.testBit level with
    | true =>
      rw [if_pos rfl]
      refine ⟨hlevel,fun hdvd => ?_⟩
      rw [(testBit_eq_false hlevel).mpr hdvd] at hbit
      cases hbit
    | false =>
      rw [if_neg (by simp)]
      exact ih ((testBit_eq_false hlevel).mp hbit) (by omega)

end

end Sidechain
