import Mathlib.Data.List.Basic
import Mathlib.Data.Nat.Log
import Mathlib.Data.Set.Function
import Mathlib.Tactic.Ring

/-! Binary hash trees over a list of leaves in which a node without a right child takes the left one
twice: the hash of a slice of the leaves, the way from a leaf to the root, and when two lists of
leaves have the same hash. -/
namespace Sidechain.MerkleTree

variable {α : Type}

section
variable [Inhabited α] (node : α → α → α)

/-- The hash of up to `2^k` leaves. -/
def treeHash : ℕ → List α → α
  | 0,xs => xs.headD default
  | k+1,xs =>
    if xs.length ≤ 2^k then node (treeHash k xs) (treeHash k xs)
    else node (treeHash k (xs.take (2^k))) (treeHash k (xs.drop (2^k)))

/-- The hash over the lowest tree that holds all leaves. -/
def root (xs : List α) : α := treeHash node (Nat.clog 2 xs.length) xs

/-- The leaves below the `p`-th node of a level. -/
def slice (xs : List α) (k p : ℕ) : List α := (xs.drop (p * 2^k)).take (2^k)

/-- The number of nodes of a level. -/
def width (n k : ℕ) : ℕ := (n + 2^k - 1) / 2^k

def nodeAt (xs : List α) (k p : ℕ) : α := treeHash node k (slice xs k p)

variable {node}

theorem treeHash_of_le {k : ℕ} {xs : List α} (h : xs.length ≤ 2^k) :
    treeHash node (k + 1) xs = node (treeHash node k xs) (treeHash node k xs) := if_pos h

theorem treeHash_of_lt {k : ℕ} {xs : List α} (h : 2^k < xs.length) :
    treeHash node (k + 1) xs =
      node (treeHash node k (xs.take (2^k))) (treeHash node k (xs.drop (2^k))) :=
  if_neg (Nat.not_le.mpr h)

end

@[simp] theorem length_slice (xs : List α) (k p : ℕ) :
    (slice xs k p).length = min (2^k) (xs.length - p * 2^k) := by
  unfold slice
  rw [List.length_take,List.length_drop]

theorem slice_zero {xs : List α} {k : ℕ} (h : xs.length ≤ 2^k) : slice xs k 0 = xs := by
  unfold slice
  rw [Nat.zero_mul,List.drop_zero,List.take_of_length_le h]

theorem slice_left (xs : List α) (k p : ℕ) :
    (slice xs (k + 1) p).take (2^k) = slice xs k (2 * p) := by
  unfold slice
  rw [List.take_take,pow_succ,min_eq_left (by omega),Nat.mul_comm 2 p,Nat.mul_assoc,
    Nat.mul_comm (2^k) 2]

theorem slice_right (xs : List α) (k p : ℕ) :
    (slice xs (k + 1) p).drop (2^k) = slice xs k (2 * p + 1) := by
  unfold slice
  rw [List.drop_take,List.drop_drop,pow_succ]
  congr 1
  · omega
  · congr 1
    rw [Nat.add_mul,Nat.mul_comm 2 p,Nat.mul_assoc,Nat.mul_comm (2^k) 2]
    omega

theorem lt_width {n k p : ℕ} : p < width n k ↔ p * 2^k < n := by
  have hpos : 0 < 2^k := Nat.two_pow_pos k
  unfold width
  rw [Nat.lt_div_iff_mul_lt hpos]
  omega

@[simp] theorem width_zero (n : ℕ) : width n 0 = n := by simp [width]

theorem width_of_dvd {n k : ℕ} (h : 2^k ∣ n) : width n k = n / 2^k := by
  obtain ⟨q,rfl⟩ := h
  have hpos := Nat.two_pow_pos k
  unfold width
  rw [Nat.mul_div_cancel_left q hpos]
  refine Nat.div_eq_of_lt_le ?_ ?_
  · rw [Nat.mul_comm]
    omega
  · rw [Nat.succ_mul,Nat.mul_comm]
    omega

theorem width_succ (n k : ℕ) : width n (k + 1) = (width n k + 1) / 2 := by
  have h : ∀ p, p < width n (k + 1) ↔ p < (width n k + 1) / 2 := by
    intro p
    rw [lt_width,Nat.lt_div_iff_mul_lt (by decide),pow_succ]
    have hlt := lt_width (n := n) (k := k) (p := 2 * p)
    rw [Nat.mul_comm 2 p,Nat.mul_assoc,Nat.mul_comm 2 (2^k)] at hlt
    rw [← hlt]
    omega
  exact Nat.le_antisymm (Nat.le_of_not_lt fun hlt => lt_irrefl _ ((h _).mp hlt))
    (Nat.le_of_not_lt fun hlt => lt_irrefl _ ((h _).mpr hlt))

theorem width_pos {n : ℕ} (k : ℕ) (hn : 0 < n) : 0 < width n k := by
  rw [lt_width]
  omega

theorem last_lt {n : ℕ} (k : ℕ) (hn : 0 < n) : (width n k - 1) * 2^k < n :=
  lt_width.mp (Nat.sub_lt (width_pos k hn) Nat.one_pos)

theorem width_le_one {n k : ℕ} : width n k ≤ 1 ↔ n ≤ 2^k := by
  rw [← Nat.not_lt,← Nat.not_lt,lt_width,Nat.one_mul]

section
variable [Inhabited α] {node : α → α → α}

theorem nodeAt_zero (node : α → α → α) (xs : List α) {i : ℕ} (hi : i < xs.length) :
    nodeAt node xs 0 i = xs[i] := by
  unfold nodeAt slice treeHash
  rw [pow_zero,Nat.mul_one,List.drop_eq_getElem_cons hi]
  rfl

/-- A node hashes its children, the left one twice if there is no right one. -/
theorem nodeAt_succ (xs : List α) {k p : ℕ} (hp : p < width xs.length (k + 1)) :
    nodeAt node xs (k + 1) p = node (nodeAt node xs k (2 * p))
      (nodeAt node xs k (if 2 * p + 1 < width xs.length k then 2 * p + 1 else 2 * p)) := by
  have hlen := length_slice xs (k + 1) p
  have hleft := lt_width.mp hp
  have hpow : p * 2^(k + 1) = 2 * p * 2^k := by
    rw [pow_succ]
    ring
  have hnext : (2 * p + 1) * 2^k = 2 * p * 2^k + 2^k := by ring
  have htwo : 2^(k + 1) = 2^k + 2^k := by ring
  have hpos := Nat.two_pow_pos k
  rw [hpow,htwo] at hlen
  unfold nodeAt
  split_ifs with hright
  · have hlt := lt_width.mp hright
    rw [treeHash_of_lt (by omega),slice_left,slice_right]
  · rw [lt_width] at hright
    have hshort : (slice xs (k + 1) p).length ≤ 2^k := by
      rw [hlen]
      omega
    rw [treeHash_of_le hshort,← slice_left,List.take_of_length_le hshort]

theorem root_eq_nodeAt (xs : List α) : root node xs = nodeAt node xs (Nat.clog 2 xs.length) 0 := by
  unfold root nodeAt
  rw [slice_zero (Nat.le_pow_clog (by decide) _)]

end

section
variable [Inhabited α] (node : α → α → α)

/-- The sibling of a node, or the node itself if it has none. -/
def sibling (n k p : ℕ) : ℕ :=
  if p % 2 = 1 then p - 1 else if p + 1 < width n k then p + 1 else p

/-- The siblings on the way from a leaf up to a level. -/
def branch (xs : List α) (leaf height : ℕ) : List α :=
  (List.range height).map fun k => nodeAt node xs k (sibling xs.length k (leaf / 2^k))

/-- One step up from a node with its sibling; the bit tells which one is on the right. -/
def climb (up : α × ℕ) (other : α) : α × ℕ :=
  (if up.2 % 2 = 1 then node other up.1 else node up.1 other,up.2 / 2)

variable {node}

theorem branch_succ (xs : List α) (leaf height : ℕ) : branch node xs leaf (height + 1) =
    branch node xs leaf height ++
      [nodeAt node xs height (sibling xs.length height (leaf / 2^height))] := by
  unfold branch
  rw [List.range_succ,List.map_append,List.map_singleton]

theorem climb_nodeAt (xs : List α) {k p : ℕ} (hp : p < width xs.length k) :
    climb node (nodeAt node xs k p,p) (nodeAt node xs k (sibling xs.length k p)) =
      (nodeAt node xs (k + 1) (p / 2),p / 2) := by
  have hup : p / 2 < width xs.length (k + 1) := by
    rw [width_succ]
    omega
  unfold climb sibling
  dsimp only
  rw [nodeAt_succ xs hup]
  by_cases hodd : p % 2 = 1
  · rw [if_pos hodd,if_pos hodd,if_pos (by omega)]
    congr 3 <;> omega
  · rw [if_neg hodd,if_neg hodd]
    have heven : 2 * (p / 2) = p := by omega
    rw [heven]

theorem climb_branch (xs : List α) {leaf : ℕ} (hleaf : leaf < xs.length) (height : ℕ) :
    (branch node xs leaf height).foldl (climb node) (nodeAt node xs 0 leaf,leaf) =
      (nodeAt node xs height (leaf / 2^height),leaf / 2^height) := by
  induction height with
  | zero => simp [branch]
  | succ k ih =>
    have hp : leaf / 2^k < width xs.length k := by
      rw [lt_width]
      exact (Nat.div_mul_le_self leaf (2^k)).trans_lt hleaf
    rw [branch_succ,List.foldl_append,ih,List.foldl_cons,List.foldl_nil,climb_nodeAt xs hp,
      Nat.div_div_eq_div_mul,← pow_succ]

theorem climb_branch_root (xs : List α) {leaf : ℕ} (hleaf : leaf < xs.length) :
    ((branch node xs leaf (Nat.clog 2 xs.length)).foldl (climb node)
      (nodeAt node xs 0 leaf,leaf)).1 = root node xs := by
  have hlt := hleaf.trans_le (Nat.le_pow_clog (by decide : 1 < 2) xs.length)
  rw [climb_branch xs hleaf,Nat.div_eq_of_lt hlt,root_eq_nodeAt]

end

theorem injOn_three {β γ : Type} {f : β → γ} {x y z : β} (hxy : f x ≠ f y) (hxz : f x ≠ f z)
    (hyz : f y ≠ f z) : Set.InjOn f {x,y,z} := by
  rintro p (rfl | rfl | rfl) q (rfl | rfl | rfl) heq
  all_goals first
    | rfl
    | exact absurd heq (by assumption)
    | exact absurd heq.symm (by assumption)

section
variable [Inhabited α] (node : α → α → α)

/-- The pairs hashed on the way to the hash of up to `2^k` leaves. -/
def hashed : ℕ → List α → Set (α × α)
  | 0,_ => ∅
  | k+1,xs =>
    if xs.length ≤ 2^k then insert (treeHash node k xs,treeHash node k xs) (hashed k xs)
    else insert (treeHash node k (xs.take (2^k)),treeHash node k (xs.drop (2^k)))
      (hashed k (xs.take (2^k)) ∪ hashed k (xs.drop (2^k)))

/-- Two nodes next to each other that are both complete have the same hash. -/
def Repeats : ℕ → List α → Prop
  | 0,_ => False
  | k+1,xs =>
    if xs.length ≤ 2^k then Repeats k xs
    else Repeats k (xs.take (2^k)) ∨ Repeats k (xs.drop (2^k)) ∨
      xs.length = 2^(k + 1) ∧ treeHash node k (xs.take (2^k)) = treeHash node k (xs.drop (2^k))

variable {node}

theorem hashed_of_le {k : ℕ} {xs : List α} (h : xs.length ≤ 2^k) : hashed node (k + 1) xs =
    insert (treeHash node k xs,treeHash node k xs) (hashed node k xs) := if_pos h

theorem hashed_of_lt {k : ℕ} {xs : List α} (h : 2^k < xs.length) : hashed node (k + 1) xs =
    insert (treeHash node k (xs.take (2^k)),treeHash node k (xs.drop (2^k)))
      (hashed node k (xs.take (2^k)) ∪ hashed node k (xs.drop (2^k))) :=
  if_neg (Nat.not_le.mpr h)

theorem repeats_of_le {k : ℕ} {xs : List α} (h : xs.length ≤ 2^k) :
    Repeats node (k + 1) xs ↔ Repeats node k xs := by
  rw [Repeats,if_pos h]

theorem repeats_of_lt {k : ℕ} {xs : List α} (h : 2^k < xs.length) : Repeats node (k + 1) xs ↔
    Repeats node k (xs.take (2^k)) ∨ Repeats node k (xs.drop (2^k)) ∨
      xs.length = 2^(k + 1) ∧
        treeHash node k (xs.take (2^k)) = treeHash node k (xs.drop (2^k)) := by
  rw [Repeats,if_neg (Nat.not_le.mpr h)]

/-- If no two of the pairs collide, different lists have different hashes unless one of them repeats
itself where it is complete. -/
theorem eq_or_repeats {S : Set (α × α)} (hinj : Set.InjOn (fun p => node p.1 p.2) S) {k : ℕ}
    {xs ys : List α} (hx : xs ≠ []) (hy : ys ≠ []) (hxk : xs.length ≤ 2^k)
    (hyk : ys.length ≤ 2^k) (hxS : hashed node k xs ⊆ S) (hyS : hashed node k ys ⊆ S)
    (heq : treeHash node k xs = treeHash node k ys) :
    xs = ys ∨ Repeats node k xs ∨ Repeats node k ys := by
  induction k generalizing xs ys with
  | zero =>
    obtain ⟨x,rfl⟩ := List.length_eq_one_iff.mp
      (Nat.le_antisymm hxk (List.length_pos_iff.mpr hx))
    obtain ⟨y,rfl⟩ := List.length_eq_one_iff.mp
      (Nat.le_antisymm hyk (List.length_pos_iff.mpr hy))
    exact Or.inl (congrArg (fun z => [z]) heq)
  | succ k ih =>
    have htwo : 2^(k + 1) = 2^k + 2^k := by ring
    have hhalves : ∀ {zs : List α}, 2^k < zs.length → zs.length ≤ 2^(k + 1) →
        zs.take (2^k) ≠ [] ∧ zs.drop (2^k) ≠ [] ∧ (zs.take (2^k)).length = 2^k ∧
          (zs.drop (2^k)).length ≤ 2^k := by
      intro zs hlt hle
      have hpos := Nat.two_pow_pos k
      rw [← List.length_pos_iff,← List.length_pos_iff,List.length_take,List.length_drop]
      omega
    -- a list whose halves have the same hash repeats itself, here or further down
    have hsame : ∀ {zs : List α}, 2^k < zs.length → zs.length ≤ 2^(k + 1) →
        hashed node (k + 1) zs ⊆ S →
        treeHash node k (zs.take (2^k)) = treeHash node k (zs.drop (2^k)) →
        Repeats node (k + 1) zs := by
      intro zs hlt hle hS hz
      obtain ⟨hl,hr,hlen,hlen'⟩ := hhalves hlt hle
      rw [hashed_of_lt hlt] at hS
      have hS' := (Set.subset_insert _ _).trans hS
      rw [repeats_of_lt hlt]
      rcases ih hl hr hlen.le hlen' (Set.subset_union_left.trans hS')
        (Set.subset_union_right.trans hS') hz with hz' | hrep | hrep
      · refine Or.inr (Or.inr ⟨?_,hz⟩)
        have := congrArg List.length hz'
        rw [hlen,List.length_drop] at this
        omega
      · exact Or.inl hrep
      · exact Or.inr (Or.inl hrep)
    rcases Nat.lt_or_ge (2^k) xs.length with hxlt | hxle
    · have hxpair := hxS (by rw [hashed_of_lt hxlt]; exact Set.mem_insert _ _)
      rw [treeHash_of_lt hxlt] at heq
      rcases Nat.lt_or_ge (2^k) ys.length with hylt | hyle
      · obtain ⟨hxl,hxr,hxlen,hxlen'⟩ := hhalves hxlt hxk
        obtain ⟨hyl,hyr,hylen,hylen'⟩ := hhalves hylt hyk
        have hypair := hyS (by rw [hashed_of_lt hylt]; exact Set.mem_insert _ _)
        rw [treeHash_of_lt hylt] at heq
        obtain ⟨hl,hr⟩ := Prod.mk.inj (hinj hxpair hypair heq)
        rw [hashed_of_lt hxlt] at hxS
        rw [hashed_of_lt hylt] at hyS
        have hxS' := (Set.subset_insert _ _).trans hxS
        have hyS' := (Set.subset_insert _ _).trans hyS
        rw [repeats_of_lt hxlt,repeats_of_lt hylt]
        rcases ih hxl hyl hxlen.le hylen.le (Set.subset_union_left.trans hxS')
          (Set.subset_union_left.trans hyS') hl with htake | hrep | hrep
        · rcases ih hxr hyr hxlen' hylen' (Set.subset_union_right.trans hxS')
            (Set.subset_union_right.trans hyS') hr with hdrop | hrep | hrep
          · refine Or.inl ?_
            rw [← List.take_append_drop (2^k) xs,htake,hdrop,List.take_append_drop]
          · exact Or.inr (Or.inl (Or.inr (Or.inl hrep)))
          · exact Or.inr (Or.inr (Or.inr (Or.inl hrep)))
        · exact Or.inr (Or.inl (Or.inl hrep))
        · exact Or.inr (Or.inr (Or.inl hrep))
      · have hypair := hyS (by rw [hashed_of_le hyle]; exact Set.mem_insert _ _)
        rw [treeHash_of_le hyle] at heq
        obtain ⟨hl,hr⟩ := Prod.mk.inj (hinj hxpair hypair heq)
        exact Or.inr (Or.inl (hsame hxlt hxk hxS (hl.trans hr.symm)))
    · have hxpair := hxS (by rw [hashed_of_le hxle]; exact Set.mem_insert _ _)
      rw [treeHash_of_le hxle] at heq
      rcases Nat.lt_or_ge (2^k) ys.length with hylt | hyle
      · have hypair := hyS (by rw [hashed_of_lt hylt]; exact Set.mem_insert _ _)
        rw [treeHash_of_lt hylt] at heq
        obtain ⟨hl,hr⟩ := Prod.mk.inj (hinj hxpair hypair heq)
        exact Or.inr (Or.inr (hsame hylt hyk hyS (hl.symm.trans hr)))
      · have hypair := hyS (by rw [hashed_of_le hyle]; exact Set.mem_insert _ _)
        rw [treeHash_of_le hyle] at heq
        rw [hashed_of_le hxle] at hxS
        rw [hashed_of_le hyle] at hyS
        rw [repeats_of_le hxle,repeats_of_le hyle]
        exact ih hx hy hxle hyle ((Set.subset_insert _ _).trans hxS)
          ((Set.subset_insert _ _).trans hyS) (Prod.mk.inj (hinj hxpair hypair heq)).1

/-- A list that repeats itself has two neighbours with the same hash, both complete. -/
theorem Repeats.equal_neighbours {k : ℕ} {xs : List α} (h : Repeats node k xs) :
    ∃ j < k, ∃ p, (2 * p + 2) * 2^j ≤ xs.length ∧
      nodeAt node xs j (2 * p) = nodeAt node xs j (2 * p + 1) := by
  induction k generalizing xs with
  | zero => exact absurd h id
  | succ k ih =>
    rcases Nat.lt_or_ge (2^k) xs.length with hlt | hle
    · rcases (repeats_of_lt hlt).mp h with htake | hdrop | ⟨hlen,heq⟩
      · obtain ⟨j,hj,p,hp,heq⟩ := ih htake
        rw [List.length_take] at hp
        have hin : ∀ {q}, q < 2 * p + 2 →
            nodeAt node (xs.take (2^k)) j q = nodeAt node xs j q := by
          intro q hq
          have hmul := Nat.mul_le_mul_right (2^j) (Nat.succ_le_of_lt hq)
          rw [Nat.succ_mul] at hmul
          unfold nodeAt slice
          rw [List.drop_take,List.take_take,min_eq_left (by omega)]
        rw [hin (by omega),hin (by omega)] at heq
        exact ⟨j,by omega,p,by omega,heq⟩
      · obtain ⟨j,hj,p,hp,heq⟩ := ih hdrop
        have hsplit : 2^k = 2 * 2^(k - (j + 1)) * 2^j := by
          rw [← pow_succ',← pow_add]
          congr 1
          omega
        have hin : ∀ q, nodeAt node (xs.drop (2^k)) j q =
            nodeAt node xs j (2 * 2^(k - (j + 1)) + q) := by
          intro q
          unfold nodeAt slice
          rw [List.drop_drop,Nat.add_mul,← hsplit]
        rw [hin,hin,← Nat.add_assoc,← Nat.mul_add] at heq
        rw [List.length_drop] at hp
        refine ⟨j,by omega,2^(k - (j + 1)) + p,?_,heq⟩
        rw [Nat.mul_add,Nat.add_assoc,Nat.add_mul,← hsplit]
        omega
      · refine ⟨k,Nat.lt_succ_self k,0,by rw [hlen,pow_succ]; omega,?_⟩
        unfold nodeAt slice
        rw [Nat.mul_zero,Nat.zero_mul,List.drop_zero,Nat.zero_add,Nat.one_mul,heq]
        congr 1
        rw [List.take_of_length_le]
        rw [List.length_drop,hlen,pow_succ]
        omega
    · obtain ⟨j,hj,hrest⟩ := ih ((repeats_of_le hle).mp h)
      exact ⟨j,by omega,hrest⟩

end

end Sidechain.MerkleTree
