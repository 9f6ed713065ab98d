import Sidechain.Library.MerkleTree
import Mathlib.Data.List.Nodup

/-! Hash trees of which only the parts above some leaves are unfolded: their flags and hashes in
depth-first order, and what the unfolded leaves have to do with a list of leaves of the same hash. -/
namespace Sidechain.MerkleTree

/-- A tree that is unfolded down to the leaves that are wanted. -/
inductive PartialTree (α : Type) where
  | stub (h : α)
  | hit (h : α)
  | single (l : PartialTree α)
  | pair (l r : PartialTree α)

namespace PartialTree

variable {α : Type}

/-- The wanted leaves. -/
def matched : PartialTree α → List α
  | stub _ => []
  | hit h => [h]
  | single l => l.matched
  | pair l r => l.matched ++ r.matched

def bits : PartialTree α → List Bool
  | stub _ => [false]
  | hit _ => [true]
  | single l => true :: l.bits
  | pair l r => true :: (l.bits ++ r.bits)

def hashes : PartialTree α → List α
  | stub h => [h]
  | hit h => [h]
  | single l => l.hashes
  | pair l r => l.hashes ++ r.hashes

section
variable (node : α → α → α)

def hash : PartialTree α → α
  | stub h => h
  | hit h => h
  | single l => node l.hash l.hash
  | pair l r => node l.hash r.hash

/-- The pairs that are hashed. -/
def pairs : PartialTree α → Set (α × α)
  | stub _ => ∅
  | hit _ => ∅
  | single l => insert (l.hash node,l.hash node) l.pairs
  | pair l r => insert (l.hash node,r.hash node) (l.pairs ∪ r.pairs)

/-- No two neighbours have the same hash. -/
def Apart : PartialTree α → Prop
  | stub _ => True
  | hit _ => True
  | single l => l.Apart
  | pair l r => l.Apart ∧ r.Apart ∧ l.hash node ≠ r.hash node

end

/-- The tree has the shape of a tree over `n` leaves, at a position of a level. -/
def Fits (n : ℕ) : PartialTree α → ℕ → ℕ → Prop
  | stub _,_,_ => True
  | hit _,k,_ => k = 0
  | single _,0,_ => False
  | single l,k+1,p => width n k ≤ 2 * p + 1 ∧ l.Fits n k (2 * p)
  | pair _ _,0,_ => False
  | pair l r,k+1,p => 2 * p + 1 < width n k ∧ l.Fits n k (2 * p) ∧ r.Fits n k (2 * p + 1)

theorem hashes_le_bits (t : PartialTree α) : t.hashes.length ≤ t.bits.length := by
  induction t with
  | stub => exact le_rfl
  | hit => exact le_rfl
  | single l ih => exact Nat.le_succ_of_le ih
  | pair l r ihl ihr =>
    simp only [hashes,bits,List.length_append,List.length_cons]
    omega

theorem Fits.unique {n k p : ℕ} {t t' : PartialTree α} {bs bs' : List Bool} {hs hs' : List α}
    (hfits : t.Fits n k p) (hfits' : t'.Fits n k p) (hbits : t.bits ++ bs = t'.bits ++ bs')
    (hhashes : t.hashes ++ hs = t'.hashes ++ hs') : t = t' ∧ bs = bs' ∧ hs = hs' := by
  induction t generalizing t' k p bs bs' hs hs' with
  | stub h =>
    cases t' with
    | stub h' =>
      obtain ⟨rfl,rfl⟩ := List.cons.inj hhashes
      exact ⟨rfl,(List.cons.inj hbits).2,rfl⟩
    | _ => exact absurd (List.cons.inj hbits).1 Bool.false_ne_true
  | hit h =>
    obtain rfl := hfits
    cases t' with
    | stub h' => exact absurd (List.cons.inj hbits).1.symm Bool.false_ne_true
    | hit h' =>
      obtain ⟨rfl,rfl⟩ := List.cons.inj hhashes
      exact ⟨rfl,(List.cons.inj hbits).2,rfl⟩
    | single l' => exact hfits'.elim
    | pair l' r' => exact hfits'.elim
  | single l ih =>
    cases k with
    | zero => exact hfits.elim
    | succ k =>
      cases t' with
      | stub h' => exact absurd (List.cons.inj hbits).1.symm Bool.false_ne_true
      | hit h' => exact absurd hfits' (Nat.succ_ne_zero k)
      | single l' =>
        obtain ⟨rfl,hrest⟩ := ih hfits.2 hfits'.2 (List.cons.inj hbits).2 hhashes
        exact ⟨rfl,hrest⟩
      | pair l' r' => exact absurd hfits'.1 (Nat.not_lt.mpr hfits.1)
  | pair l r ihl ihr =>
    cases k with
    | zero => exact hfits.elim
    | succ k =>
      cases t' with
      | stub h' => exact absurd (List.cons.inj hbits).1.symm Bool.false_ne_true
      | hit h' => exact absurd hfits' (Nat.succ_ne_zero k)
      | single l' => exact absurd hfits.1 (Nat.not_lt.mpr hfits'.1)
      | pair l' r' =>
        obtain ⟨_,hfitl,hfitr⟩ := hfits
        obtain ⟨_,hfitl',hfitr'⟩ := hfits'
        simp only [bits,hashes,List.cons_append,List.append_assoc] at hbits hhashes
        obtain ⟨rfl,hbits',hhashes'⟩ := ihl hfitl hfitl' (List.cons.inj hbits).2 hhashes
        obtain ⟨rfl,hrest⟩ := ihr hfitr hfitr' hbits' hhashes'
        exact ⟨rfl,hrest⟩

end PartialTree

section
variable {α : Type} [Inhabited α] {node : α → α → α} {xs : List α} {k p : ℕ}

omit [Inhabited α] in
theorem slice_succ (xs : List α) (k p : ℕ) :
    slice xs (k + 1) p = slice xs k (2 * p) ++ slice xs k (2 * p + 1) := by
  rw [← slice_left,← slice_right,List.take_append_drop]

omit [Inhabited α] in
theorem length_slice_pos (h : p < width xs.length k) : 1 ≤ (slice xs k p).length := by
  have hpos := Nat.two_pow_pos k
  rw [lt_width] at h
  rw [length_slice]
  omega

omit [Inhabited α] in
theorem slice_past (h : width xs.length k ≤ p) : slice xs k p = [] := by
  rw [← Nat.not_lt,lt_width,Nat.not_lt] at h
  unfold slice
  rw [List.drop_of_length_le h,List.take_nil]

theorem slice_zero_eq (node : α → α → α) (hp : p < xs.length) : slice xs 0 p = [nodeAt node xs 0 p] := by
  unfold nodeAt slice
  rw [pow_zero,Nat.mul_one,List.drop_eq_getElem_cons hp]
  rfl

/-- The pairs that the tree over a list hashes, by level and position. -/
def levelPairs (node : α → α → α) (xs : List α) : Set (α × α) :=
  {q | ∃ k < Nat.clog 2 xs.length, ∃ p < width xs.length (k + 1),
    q = (nodeAt node xs k (2 * p),
      nodeAt node xs k (if 2 * p + 1 < width xs.length k then 2 * p + 1 else 2 * p))}

theorem mem_levelPairs (node : α → α → α) (hk : k < Nat.clog 2 xs.length) (hp : p < width xs.length (k + 1)) :
    (nodeAt node xs k (2 * p),
      nodeAt node xs k (if 2 * p + 1 < width xs.length k then 2 * p + 1 else 2 * p)) ∈
    levelPairs node xs := ⟨k,hk,p,hp,rfl⟩

theorem PartialTree.matched_sublist {t : PartialTree α}
    (hinj : Set.InjOn (fun q => node q.1 q.2) (t.pairs node ∪ levelPairs node xs))
    (hfits : t.Fits xs.length k p) (hk : k ≤ Nat.clog 2 xs.length) (hp : p < width xs.length k)
    (heq : t.hash node = nodeAt node xs k p) : t.matched.Sublist (slice xs k p) := by
  induction t generalizing k p with
  | stub h => exact List.nil_sublist _
  | hit h =>
    obtain rfl := hfits
    rw [width_zero] at hp
    rw [slice_zero_eq node hp,← heq]
    exact List.Sublist.refl _
  | single l ih =>
    cases k with
    | zero => exact hfits.elim
    | succ k =>
      obtain ⟨hend,hfit⟩ := hfits
      rw [nodeAt_succ xs hp] at heq
      have hmem := mem_levelPairs node hk hp
      have hpair := hinj (Or.inl (Set.mem_insert _ _)) (Or.inr hmem) heq
      have hsub := ih (hinj.mono (Set.union_subset_union_left _ (Set.subset_insert _ _))) hfit
        (Nat.le_of_succ_le hk) (by rw [width_succ] at hp; omega) (congrArg Prod.fst hpair)
      rw [slice_succ,slice_past hend,List.append_nil]
      exact hsub
  | pair l r ihl ihr =>
    cases k with
    | zero => exact hfits.elim
    | succ k =>
      obtain ⟨hright,hfitl,hfitr⟩ := hfits
      rw [nodeAt_succ xs hp] at heq
      have hmem := mem_levelPairs node hk hp
      have hpair := hinj (Or.inl (Set.mem_insert _ _)) (Or.inr hmem) heq
      rw [if_pos hright] at hpair
      have hmono : ∀ {q : Set (α × α)}, q ⊆ l.pairs node ∪ r.pairs node →
          Set.InjOn (fun q => node q.1 q.2) (q ∪ levelPairs node xs) := fun hq =>
        hinj.mono (Set.union_subset_union_left _ (hq.trans (Set.subset_insert _ _)))
      rw [slice_succ]
      refine List.Sublist.append ?_ ?_
      · exact ihl (hmono Set.subset_union_left) hfitl (Nat.le_of_succ_le hk) (by omega)
          (congrArg Prod.fst hpair)
      · exact ihr (hmono Set.subset_union_right) hfitr (Nat.le_of_succ_le hk) hright
          (congrArg Prod.snd hpair)

end

section
variable {α : Type} [Inhabited α] (node : α → α → α) (xs : List α) (want : ℕ → Bool)

/-- The wanted leaves below a node, by position. -/
def wantedBelow (n k p : ℕ) : List ℕ :=
  (List.range' (p * 2^k) (2^k)).filter fun i => decide (i < n) && want i

def prune : ℕ → ℕ → PartialTree α
  | 0,p =>
    if wantedBelow want xs.length 0 p = [] then .stub (nodeAt node xs 0 p)
    else .hit (nodeAt node xs 0 p)
  | k+1,p =>
    if wantedBelow want xs.length (k + 1) p = [] then .stub (nodeAt node xs (k + 1) p)
    else if 2 * p + 1 < width xs.length k then .pair (prune k (2 * p)) (prune k (2 * p + 1))
    else .single (prune k (2 * p))

variable {node xs want}

theorem wantedBelow_succ (n k p : ℕ) : wantedBelow want n (k + 1) p =
    wantedBelow want n k (2 * p) ++ wantedBelow want n k (2 * p + 1) := by
  have hstart : p * 2^(k + 1) = 2 * p * 2^k := by
    rw [pow_succ]
    ring
  have hnext : (2 * p + 1) * 2^k = 2 * p * 2^k + 2^k := by ring
  unfold wantedBelow
  rw [← List.filter_append,hstart,hnext,pow_succ,Nat.mul_two,List.range'_append_1]

theorem wantedBelow_past {n k p : ℕ} (h : width n k ≤ p) : wantedBelow want n k p = [] := by
  rw [← Nat.not_lt,lt_width,Nat.not_lt] at h
  unfold wantedBelow
  rw [List.filter_eq_nil_iff]
  intro i hi
  have := List.left_le_of_mem_range' hi
  simp only [Bool.and_eq_true,decide_eq_true_eq]
  omega

variable {k p : ℕ}

theorem prune_hash (hp : p < width xs.length k) :
    (prune node xs want k p).hash node = nodeAt node xs k p := by
  induction k generalizing p with
  | zero =>
    unfold prune
    split_ifs <;> rfl
  | succ k ih =>
    have hleft : 2 * p < width xs.length k := by
      rw [width_succ] at hp
      omega
    unfold prune
    split_ifs with hnone hright
    · rfl
    · rw [PartialTree.hash,ih hleft,ih hright,nodeAt_succ xs hp,if_pos hright]
    · rw [PartialTree.hash,ih hleft,nodeAt_succ xs hp,if_neg hright]

theorem prune_fits : (prune node xs want k p).Fits xs.length k p := by
  induction k generalizing p with
  | zero =>
    unfold prune
    split_ifs
    · trivial
    · rfl
  | succ k ih =>
    unfold prune
    split_ifs with hnone hright
    · trivial
    · exact ⟨hright,ih,ih⟩
    · exact ⟨Nat.not_lt.mp hright,ih⟩

theorem prune_matched : (prune node xs want k p).matched =
    (wantedBelow want xs.length k p).map fun i => xs.getD i default := by
  induction k generalizing p with
  | zero =>
    unfold prune
    split_ifs with hnone
    · rw [hnone]
      rfl
    · unfold wantedBelow at hnone ⊢
      simp only [pow_zero,Nat.mul_one,List.range'_one,List.filter_singleton] at hnone ⊢
      cases hp : decide (p < xs.length) && want p with
      | false => simp [hp] at hnone
      | true =>
        have hlt := of_decide_eq_true (Bool.and_eq_true_iff.mp hp).1
        rw [PartialTree.matched,nodeAt_zero node xs hlt]
        simp [hlt]
  | succ k ih =>
    rw [wantedBelow_succ,List.map_append]
    unfold prune
    split_ifs with hnone hright
    · rw [wantedBelow_succ,List.append_eq_nil_iff] at hnone
      rw [hnone.1,hnone.2]
      rfl
    · rw [PartialTree.matched,ih,ih]
    · rw [PartialTree.matched,ih,wantedBelow_past (Nat.not_lt.mp hright),
        List.map_nil,List.append_nil]

theorem nodeAt_ne (hnodup : xs.Nodup)
    (hinj : Set.InjOn (fun q => node q.1 q.2) (levelPairs node xs)) {q : ℕ}
    (hk : k ≤ Nat.clog 2 xs.length) (hp : p < width xs.length k) (hq : q < width xs.length k)
    (hne : p ≠ q) : nodeAt node xs k p ≠ nodeAt node xs k q := by
  induction k generalizing p q with
  | zero =>
    rw [width_zero] at hp hq
    rw [nodeAt_zero node xs hp,nodeAt_zero node xs hq]
    exact fun heq => hne (hnodup.getElem_inj_iff.mp heq)
  | succ k ih =>
    intro heq
    rw [nodeAt_succ xs hp,nodeAt_succ xs hq] at heq
    have hpair := hinj (mem_levelPairs node hk hp) (mem_levelPairs node hk hq) heq
    rw [width_succ] at hp hq
    exact ih (Nat.le_of_succ_le hk) (by omega) (by omega) (by omega) (congrArg Prod.fst hpair)

theorem prune_apart (hnodup : xs.Nodup)
    (hinj : Set.InjOn (fun q => node q.1 q.2) (levelPairs node xs))
    (hk : k ≤ Nat.clog 2 xs.length) (hp : p < width xs.length k) :
    (prune node xs want k p).Apart node := by
  induction k generalizing p with
  | zero =>
    unfold prune
    split_ifs <;> trivial
  | succ k ih =>
    have hleft : 2 * p < width xs.length k := by
      rw [width_succ] at hp
      omega
    have hk' := Nat.le_of_succ_le hk
    unfold prune
    split_ifs with hnone hright
    · trivial
    · refine ⟨ih hk' hleft,ih hk' hright,?_⟩
      rw [prune_hash hleft,prune_hash hright]
      exact nodeAt_ne hnodup hinj hk' hleft hright (by omega)
    · exact ih hk' hleft

theorem prune_hashes_length (hp : p < width xs.length k) :
    (prune node xs want k p).hashes.length ≤ (slice xs k p).length := by
  induction k generalizing p with
  | zero =>
    unfold prune
    split_ifs <;> exact length_slice_pos hp
  | succ k ih =>
    have hleft : 2 * p < width xs.length k := by
      rw [width_succ] at hp
      omega
    unfold prune
    split_ifs with hnone hright
    · exact length_slice_pos hp
    · rw [PartialTree.hashes,List.length_append,slice_succ,List.length_append]
      exact Nat.add_le_add (ih hleft) (ih hright)
    · rw [PartialTree.hashes,slice_succ,List.length_append]
      exact (ih hleft).trans (Nat.le_add_right _ _)

theorem prune_bits_length (hp : p < width xs.length k) :
    (prune node xs want k p).bits.length ≤ (slice xs k p).length * (k + 1) := by
  have hone := length_slice_pos hp
  induction k generalizing p with
  | zero =>
    unfold prune
    split_ifs <;> exact hone.trans_eq (Nat.mul_one _).symm
  | succ k ih =>
    have hleft : 2 * p < width xs.length k := by
      rw [width_succ] at hp
      omega
    have hbits := ih hleft (length_slice_pos hleft)
    unfold prune
    split_ifs with hnone hright
    · exact hone.trans (Nat.le_mul_of_pos_right _ (Nat.succ_pos _))
    · have hbits' := ih hright (length_slice_pos hright)
      rw [slice_succ,List.length_append] at hone ⊢
      rw [PartialTree.bits,List.length_cons,List.length_append,Nat.mul_succ,Nat.add_mul]
      omega
    · rw [slice_succ,slice_past (Nat.not_lt.mp hright),List.append_nil] at hone ⊢
      rw [PartialTree.bits,List.length_cons,Nat.mul_succ]
      omega

end

end Sidechain.MerkleTree
