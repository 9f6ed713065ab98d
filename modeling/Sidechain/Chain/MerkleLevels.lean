import Sidechain.Chain.MerkleRoot
import Mathlib.Data.List.Range
import Mathlib.Data.Nat.Bitwise

/-! The tree that is built level by level, as the block did before: all levels one after the other in
a list. The constant-space computation gives the same roots and branches. -/
namespace Sidechain
open MerkleTree

section
variable {α : Type} [DecidableEq α] [Inhabited α] (node : α → α → α)

/-- Append the hash of a pair of the `nSize` nodes from `j` on. -/
def buildPair (nSize j : ℕ) (built : Bool × List α) (p : ℕ) : Bool × List α :=
  let (mutated,vMerkleTree) := built
  let i := 2 * p
  let i2 := min (i + 1) (nSize - 1)
  let left := vMerkleTree.getD (j + i) default
  let right := vMerkleTree.getD (j + i2) default
  (mutated || (i2 == i + 1 && i2 + 1 == nSize && left == right),vMerkleTree ++ [node left right])

def buildLevel (nSize j : ℕ) (built : Bool × List α) : Bool × List α :=
  (List.range ((nSize + 1) / 2)).foldl (buildPair node nSize j) built

def buildLevels (nSize j : ℕ) (built : Bool × List α) : Bool × List α :=
  if 1 < nSize then buildLevels ((nSize + 1) / 2) (j + nSize) (buildLevel node nSize j built)
  else built
termination_by nSize
decreasing_by omega

/-- The root, the mutation flag and the tree. -/
def blockBuildMerkleTree (leaves : List α) : α × Bool × List α :=
  let (mutated,vMerkleTree) := buildLevels node leaves.length 0 (false,leaves)
  (vMerkleTree.getLastD default,mutated,vMerkleTree)

omit [DecidableEq α] in
def branchLevels (vMerkleTree : List α) (nSize j nIndex : ℕ) : List α :=
  if 1 < nSize then
    vMerkleTree.getD (j + min (nIndex ^^^ 1) (nSize - 1)) default ::
      branchLevels vMerkleTree ((nSize + 1) / 2) (j + nSize) (nIndex / 2)
  else []
termination_by nSize
decreasing_by omega

omit [DecidableEq α] in
def blockGetMerkleBranch (leaves vMerkleTree : List α) (nIndex : ℕ) : List α :=
  branchLevels vMerkleTree leaves.length 0 nIndex

end

section
variable {α : Type} [DecidableEq α] [Inhabited α] {node : α → α → α} {xs : List α}

def levelAt (node : α → α → α) (xs : List α) (k : ℕ) : List α :=
  (List.range (width xs.length k)).map (nodeAt node xs k)

/-- The lowest `k` levels. -/
def levelsBelow (node : α → α → α) (xs : List α) (k : ℕ) : List α :=
  (List.range k).flatMap (levelAt node xs)

/-- Where level `k` begins. -/
def levelStart (xs : List α) (k : ℕ) : ℕ := ((List.range k).map (width xs.length)).sum

omit [DecidableEq α] in
theorem levelsBelow_succ (k : ℕ) :
    levelsBelow node xs (k + 1) = levelsBelow node xs k ++ levelAt node xs k := by
  unfold levelsBelow
  rw [List.range_succ,List.flatMap_append,List.flatMap_singleton]

omit [DecidableEq α] [Inhabited α] in
theorem levelStart_succ (k : ℕ) :
    levelStart xs (k + 1) = levelStart xs k + width xs.length k := by
  unfold levelStart
  rw [List.range_succ,List.map_append,List.sum_append,List.map_singleton,List.sum_singleton]

omit [DecidableEq α] in
theorem length_levelsBelow (node : α → α → α) (k : ℕ) : (levelsBelow node xs k).length = levelStart xs k := by
  induction k with
  | zero => rfl
  | succ k ih =>
    rw [levelsBelow_succ,List.length_append,ih,levelStart_succ,levelAt,List.length_map,
      List.length_range]

omit [DecidableEq α] in
theorem levelsBelow_one : levelsBelow node xs 1 = xs := by
  rw [levelsBelow_succ]
  refine List.ext_getElem ?_ fun i h₁ h₂ => ?_
  · simp [levelsBelow,levelAt,width_zero]
  · simp [levelsBelow,levelAt,nodeAt_zero node xs h₂]

omit [DecidableEq α] in
/-- A node is read where its level begins, whatever comes after the levels. -/
theorem getD_levelsBelow (node : α → α → α) (xs : List α) {j k p : ℕ} (rest : List α) (hj : j < k) (hp : p < width xs.length j) :
    (levelsBelow node xs k ++ rest).getD (levelStart xs j + p) default = nodeAt node xs j p := by
  induction k generalizing rest with
  | zero => exact absurd hj (Nat.not_lt_zero j)
  | succ k ih =>
    rw [levelsBelow_succ,List.append_assoc]
    rcases Nat.lt_succ_iff_lt_or_eq.mp hj with hlt | rfl
    · exact ih _ hlt
    · rw [← length_levelsBelow node,List.getD_append_right _ _ _ _ (Nat.le_add_right _ _),
        Nat.add_sub_cancel_left,List.getD_append _ _ _ _ (by simpa [levelAt] using hp)]
      simp [levelAt,hp]

theorem buildPair_levels {k p : ℕ} {built : Bool × List α} {rest : List α}
    (hbuilt : built.2 = levelsBelow node xs (k + 1) ++ rest) (hp : p < width xs.length (k + 1)) :
    (buildPair node (width xs.length k) (levelStart xs k) built p).2 =
      built.2 ++ [nodeAt node xs (k + 1) p] := by
  have hnext := width_succ xs.length k
  unfold buildPair
  dsimp only
  rw [hbuilt,getD_levelsBelow node xs _ (Nat.lt_succ_self k) (by omega),
    getD_levelsBelow node xs _ (Nat.lt_succ_self k) (by omega),nodeAt_succ xs hp]
  congr 4
  split_ifs <;> omega

theorem buildLevel_levels (k : ℕ) (mutated : Bool) :
    (buildLevel node (width xs.length k) (levelStart xs k)
      (mutated,levelsBelow node xs (k + 1))).2 = levelsBelow node xs (k + 2) := by
  have hpairs : ∀ m ≤ width xs.length (k + 1),
      ((List.range m).foldl (buildPair node (width xs.length k) (levelStart xs k))
        (mutated,levelsBelow node xs (k + 1))).2 =
      levelsBelow node xs (k + 1) ++ (List.range m).map (nodeAt node xs (k + 1)) := by
    intro m
    induction m with
    | zero => simp
    | succ m ih =>
      intro hle
      have hbuilt := ih (by omega)
      rw [List.range_succ,List.foldl_append,List.foldl_cons,List.foldl_nil,
        buildPair_levels hbuilt (by omega),hbuilt,List.map_append,List.append_assoc]
      rfl
  unfold buildLevel
  rw [levelsBelow_succ (k + 1),levelAt,← width_succ]
  exact hpairs _ le_rfl

theorem buildLevels_levels (node : α → α → α) {k : ℕ} (hk : k ≤ Nat.clog 2 xs.length) (mutated : Bool) :
    (buildLevels node (width xs.length k) (levelStart xs k)
      (mutated,levelsBelow node xs (k + 1))).2 = levelsBelow node xs (Nat.clog 2 xs.length + 1) := by
  induction hk using Nat.decreasingInduction generalizing mutated with
  | self =>
    rw [buildLevels,if_neg]
    exact Nat.not_lt.mpr (width_le_one.mpr (Nat.le_pow_clog (by decide) _))
  | of_succ k hlt ih =>
    have hmore : 1 < width xs.length k := by
      rw [← Nat.not_le,width_le_one,Nat.not_le]
      exact (Nat.lt_clog_iff_pow_lt (by decide)).mp hlt
    rw [buildLevels,if_pos hmore,← width_succ,← levelStart_succ,
      ← Prod.mk.eta (p := buildLevel _ _ _ _),buildLevel_levels]
    exact ih _

theorem blockBuildMerkleTree_tree (node : α → α → α) (xs : List α) :
    (blockBuildMerkleTree node xs).2.2 = levelsBelow node xs (Nat.clog 2 xs.length + 1) := by
  have h := buildLevels_levels node (Nat.zero_le (Nat.clog 2 xs.length)) false
  rwa [width_zero,levelsBelow_one] at h

theorem blockBuildMerkleTree_root : (blockBuildMerkleTree node xs).1 = root node xs := by
  have htree := blockBuildMerkleTree_tree node xs
  change (blockBuildMerkleTree node xs).2.2.getLastD default = _
  rw [htree,levelsBelow_succ,root_eq_nodeAt]
  rcases Nat.eq_zero_or_pos xs.length with hzero | hpos
  · obtain rfl := List.eq_nil_of_length_eq_zero hzero
    simp [levelsBelow,levelAt,width_zero,nodeAt,slice,treeHash]
  · have hone : width xs.length (Nat.clog 2 xs.length) = 1 :=
      Nat.le_antisymm (width_le_one.mpr (Nat.le_pow_clog (by decide) _)) (width_pos _ hpos)
    rw [levelAt,hone]
    simp

theorem sibling_eq_min {n k p : ℕ} (hp : p < width n k) :
    min (p ^^^ 1) (width n k - 1) = sibling n k p := by
  unfold sibling
  rcases Nat.even_or_odd p with heven | hodd
  · rw [Nat.xor_one_of_even heven,if_neg (by rw [Nat.even_iff] at heven; omega)]
    split_ifs <;> omega
  · rw [Nat.xor_one_of_odd hodd,if_pos (Nat.odd_iff.mp hodd)]
    omega

omit [DecidableEq α] in
theorem branchLevels_eq (node : α → α → α) {leaf k : ℕ} (hleaf : leaf < xs.length) (hk : k ≤ Nat.clog 2 xs.length) :
    branch node xs leaf k ++ branchLevels (levelsBelow node xs (Nat.clog 2 xs.length + 1))
      (width xs.length k) (levelStart xs k) (leaf / 2^k) =
    branch node xs leaf (Nat.clog 2 xs.length) := by
  induction hk using Nat.decreasingInduction with
  | self =>
    rw [branchLevels,if_neg,List.append_nil]
    exact Nat.not_lt.mpr (width_le_one.mpr (Nat.le_pow_clog (by decide) _))
  | of_succ k hlt ih =>
    have hmore : 1 < width xs.length k := by
      rw [← Nat.not_le,width_le_one,Nat.not_le]
      exact (Nat.lt_clog_iff_pow_lt (by decide)).mp hlt
    have hinside : leaf / 2^k < width xs.length k :=
      lt_width.mpr ((Nat.div_mul_le_self leaf _).trans_lt hleaf)
    have hread := @getD_levelsBelow _ _ node xs _ _ (sibling xs.length k (leaf / 2^k)) [] (Nat.lt_succ_of_lt hlt) (by unfold sibling; split_ifs <;> omega)
    rw [List.append_nil] at hread
    rw [branchLevels,if_pos hmore,sibling_eq_min hinside,hread,← width_succ,← levelStart_succ,
      Nat.div_div_eq_div_mul,← pow_succ,← ih,branch_succ,List.append_assoc,List.singleton_append]

theorem blockGetMerkleBranch_eq {leaf : ℕ} (hleaf : leaf < xs.length) :
    blockGetMerkleBranch xs (blockBuildMerkleTree node xs).2.2 leaf =
      branch node xs leaf (Nat.clog 2 xs.length) := by
  have h := branchLevels_eq node hleaf (Nat.zero_le _)
  rw [width_zero,pow_zero,Nat.div_one] at h
  rw [blockBuildMerkleTree_tree]
  exact h

/-- For every list that the counter holds, the constant-space computation gives the root and the
branches of the tree built level by level, and the branches lead to the root. -/
theorem merkleComputation_eq_tree (node : α → α → α) (xs : List α) (hlen : xs.length ≤ 2^31) :
    (∃ mutated, computeRoot node xs = some ((blockBuildMerkleTree node xs).1,mutated)) ∧
    ∀ position (h : position < xs.length),
      computeMerkleBranch node xs position =
        some (blockGetMerkleBranch xs (blockBuildMerkleTree node xs).2.2 position) ∧
      ∀ vMerkleBranch, computeMerkleBranch node xs position = some vMerkleBranch →
        computeMerkleRootFromBranch node xs[position] vMerkleBranch position =
          (blockBuildMerkleTree node xs).1 := by
  refine ⟨?_,fun position h => ⟨?_,fun vMerkleBranch hbranch => ?_⟩⟩
  · obtain ⟨mutated,heq,_⟩ := computeRoot_eq node hlen
    rw [blockBuildMerkleTree_root]
    exact ⟨mutated,heq⟩
  · rw [blockGetMerkleBranch_eq h]
    exact computeMerkleBranch_eq hlen h
  · rw [computeMerkleBranch_eq hlen h,Option.some.injEq] at hbranch
    rw [blockBuildMerkleTree_root,← hbranch]
    exact computeMerkleRootFromBranch_branch h

/-- Five leaves, the last of which is doubled on two levels. -/
theorem five_leaves_eq_tree :
    (∃ mutated, computeRoot (fun a b : ℕ => 2 * a + 3 * b) [1,2,3,4,5] =
      some ((blockBuildMerkleTree (fun a b : ℕ => 2 * a + 3 * b) [1,2,3,4,5]).1,mutated)) ∧
    ∀ position (h : position < [1,2,3,4,5].length),
      computeMerkleBranch (fun a b : ℕ => 2 * a + 3 * b) [1,2,3,4,5] position =
        some (blockGetMerkleBranch [1,2,3,4,5]
          (blockBuildMerkleTree (fun a b : ℕ => 2 * a + 3 * b) [1,2,3,4,5]).2.2 position) ∧
      ∀ vMerkleBranch,
        computeMerkleBranch (fun a b : ℕ => 2 * a + 3 * b) [1,2,3,4,5] position =
          some vMerkleBranch →
        computeMerkleRootFromBranch (fun a b : ℕ => 2 * a + 3 * b) [1,2,3,4,5][position]
          vMerkleBranch position =
            (blockBuildMerkleTree (fun a b : ℕ => 2 * a + 3 * b) [1,2,3,4,5]).1 :=
  merkleComputation_eq_tree _ _ (by simp)

/-- One leaf more, and the sweep carries out of the counter. -/
theorem counter_overflows : ¬ ∃ mutated,
    computeRoot (fun a b : ℕ => 2 * a + 3 * b) (List.replicate (2^31 + 1) 0) =
      some ((blockBuildMerkleTree (fun a b : ℕ => 2 * a + 3 * b)
        (List.replicate (2^31 + 1) 0)).1,mutated) := by
  rintro ⟨mutated,h⟩
  rw [computeRoot_none (by rw [List.length_replicate]; exact Nat.lt_succ_self _)] at h
  cases h

end

end Sidechain
