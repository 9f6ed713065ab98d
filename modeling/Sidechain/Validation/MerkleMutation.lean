import Sidechain.Chain.BlockIndex
import Sidechain.Chain.MerkleRoot
import Sidechain.Validation.CheckBlock

/-! Lists of transactions with the same merkle root: at most one of them is not flagged as mutated,
so that a block with repeated transactions is rejected without a word against its header. -/
namespace Sidechain
open Run MerkleTree

section
variable {α : Type} [DecidableEq α] [Inhabited α] {node : α → α → α} {xs ys : List α}

/-- The pairs that the trees over two lists hash. -/
def hashedPairs (node : α → α → α) (xs ys : List α) : Set (α × α) :=
  hashed node (Nat.clog 2 xs.length) xs ∪ hashed node (Nat.clog 2 ys.length) ys

theorem mutated_or_mutated {r : α} {m m' : Bool} (hx : xs ≠ []) (hy : ys ≠ []) (hne : xs ≠ ys)
    (hheight : Nat.clog 2 xs.length = Nat.clog 2 ys.length)
    (hinj : Set.InjOn (fun p => node p.1 p.2) (hashedPairs node xs ys))
    (hr : computeRoot node xs = some (r,m)) (hr' : computeRoot node ys = some (r,m')) :
    m = true ∨ m' = true := by
  obtain ⟨_,heq,hm⟩ := computeRoot_eq node (length_le_of_computeRoot hr)
  obtain ⟨hroot,rfl⟩ := Prod.mk.inj (Option.some.inj (heq.symm.trans hr))
  obtain ⟨_,heq',hm'⟩ := computeRoot_eq node (length_le_of_computeRoot hr')
  obtain ⟨hroot',rfl⟩ := Prod.mk.inj (Option.some.inj (heq'.symm.trans hr'))
  rw [hm,hm']
  have hflag : ∀ {zs : List α}, Repeats node (Nat.clog 2 zs.length) zs → EqualNeighbours node zs :=
    fun h => by
      obtain ⟨k,_,p,hrest⟩ := h.equal_neighbours
      exact ⟨k,p,hrest⟩
  have hle := Nat.le_pow_clog (by decide : 1 < 2) ys.length
  unfold root at hroot hroot'
  rcases eq_or_repeats hinj hx hy (Nat.le_pow_clog (by decide) _) (hheight ▸ hle)
    Set.subset_union_left (hheight ▸ Set.subset_union_right) (by rw [hroot,hheight,hroot'])
    with h | h | h
  · exact absurd h hne
  · exact Or.inl (hflag h)
  · exact Or.inr (hflag (hheight ▸ h))

end

section
variable [Crypto]

theorem combineLevels_eq {inner : ℕ → Uint256} {matchlevel : Option ℕ} {count fuel level l : ℕ}
    {c c' : Climbed Uint256} {mutated : Bool} {fuel' : ℕ}
    (h : combineUp hashPair inner matchlevel count fuel level c = some (l,c'))
    (hfuel : fuel ≤ fuel') :
    ∃ m, combineLevels inner count fuel' level c.h mutated = (l,c'.h,m) ∧
      (mutated = c.mutated → m = c'.mutated) := by
  induction fuel generalizing level c mutated fuel' with
  | zero => cases h
  | succ fuel ih =>
    obtain ⟨fuel',rfl⟩ : ∃ n, fuel' = n + 1 := ⟨fuel' - 1,by omega⟩
    rw [combineUp] at h
    rw [combineLevels]
    split_ifs at h ⊢ with hbit
    · cases h
      exact ⟨mutated,rfl,id⟩
    · have hrest : ∃ m, combineLevels inner count fuel' (level + 1) (hashPair (inner level) c.h)
          (mutated || inner level == c.h) = (l,c'.h,m) ∧
          ((mutated || inner level == c.h) = (c.mutated || inner level == c.h) →
            m = c'.mutated) := ih h (Nat.le_of_succ_le_succ hfuel)
      obtain ⟨m,heq,hm⟩ := hrest
      exact ⟨m,heq,fun hmut => hm (by rw [hmut])⟩

omit [Crypto] in
def MerkleProgress.state (s : MerkleProgress Uint256) : MerkleState := ⟨s.inner,s.count,s.mutated⟩

theorem merkleLeaf_eq {branchpos : ℕ} {s s' : MerkleProgress Uint256} {leaf : Uint256}
    (h : addLeaf hashPair branchpos s leaf = some s') (hlt : s.count + 1 < 2^32) :
    s'.count = s.count + 1 ∧ merkleLeaf s.state leaf = s'.state := by
  unfold addLeaf at h
  simp only [Nat.mod_eq_of_lt hlt] at h
  split at h
  · cases h
  · rename_i level c heq
    cases h
    have hleaf : ∃ m, combineLevels s.inner (s.count + 1) 32 0 leaf s.mutated = (level,c.h,m) ∧
        (s.mutated = s.mutated → m = c.mutated) := combineLevels_eq heq le_rfl
    obtain ⟨m,hcombine,hm⟩ := hleaf
    refine ⟨rfl,?_⟩
    unfold merkleLeaf MerkleProgress.state
    dsimp only
    rw [hcombine,hm rfl]

theorem foldl_merkleLeaf_eq {branchpos : ℕ} {leaves : List Uint256}
    {s s' : MerkleProgress Uint256} (h : leaves.foldlM (addLeaf hashPair branchpos) s = some s')
    (hlt : s.count + leaves.length < 2^32) : leaves.foldl merkleLeaf s.state = s'.state := by
  induction leaves generalizing s with
  | nil =>
    cases h
    rfl
  | cons leaf leaves ih =>
    rw [List.foldlM_cons] at h
    obtain ⟨s1,hleaf,hrest⟩ := Option.bind_eq_some_iff.mp h
    rw [List.length_cons] at hlt
    obtain ⟨hcount,heq⟩ := merkleLeaf_eq hleaf (by omega)
    rw [List.foldl_cons,heq]
    exact ih hrest (by omega)

theorem merkleSweep_eq {inner : ℕ → Uint256} {matchlevel : Option ℕ} {fuel count level : ℕ}
    {c c' : Climbed Uint256} (h : sweepUp hashPair inner matchlevel fuel count level c = some c')
    (hpos : 0 < count) (hlt : count < 2^32) (hdvd : 2^level ∣ count)
    (hnot : ¬ 2^(level + 1) ∣ count) : merkleSweep inner fuel count level c.h = c'.h := by
  induction fuel generalizing count level c with
  | zero => cases h
  | succ fuel ih =>
    rw [sweepUp] at h
    rw [merkleSweep]
    split_ifs at h ⊢ with hone
    · cases h
      rfl
    · dsimp only at h ⊢
      rcases combineUp_double hashPair inner matchlevel c hpos hlt hdvd hnot with
        ⟨hsum,t,c1,heq,htdvd,htnot⟩ | hnone
      · rw [heq,Nat.mod_eq_of_lt hsum] at h
        rw [Nat.mod_eq_of_lt hsum] at heq
        have hround : ∃ m, combineLevels inner (count + 2^level) 32 (level + 1) (hashPair c.h c.h)
            false = (t,c1.h,m) ∧ (false = c.mutated → m = c1.mutated) :=
          combineLevels_eq heq (by omega)
        obtain ⟨m,hcombine,_⟩ := hround
        rw [hcombine]
        exact ih h (Nat.add_pos_left hpos _) hsum htdvd htnot
      · rw [hnone] at h
        cases h

/-- The root that `CheckBlock` compares is the one of `MerkleComputation`. -/
theorem computeMerkleRoot_eq {leaves : List Uint256} {r : Uint256 × Bool}
    (h : computeRoot hashPair leaves = some r) : computeMerkleRoot leaves = r := by
  have hlen := length_le_of_computeRoot h
  unfold computeRoot merkleComputation at h
  unfold computeMerkleRoot
  split_ifs at h ⊢ with hempty
  · cases h
    rfl
  · have hlt : leaves.length < 2^32 := hlen.trans_lt (by decide)
    have hpos : 0 < leaves.length := by
      rw [List.length_pos_iff]
      simpa using hempty
    obtain ⟨s,hfold,hs⟩ := Counted.foldlM hashPair (2^32 - 1) (le_refl leaves.length) hlt
    obtain ⟨hdvd,hnot⟩ := @lowestLevel_spec _ 0 hpos hlt (by rw [pow_zero]; exact one_dvd _)
    rw [List.take_length] at hfold
    have hstate := foldl_merkleLeaf_eq hfold (by simpa using hlt)
    rw [hfold] at h
    change leaves.foldl merkleLeaf {} = _ at hstate
    dsimp only at h ⊢
    rw [hs.count] at h
    rw [hstate]
    unfold MerkleProgress.state
    dsimp only
    rw [hs.count]
    cases hsweep : sweepUp hashPair s.inner s.matchlevel 32 leaves.length
      (lowestLevel leaves.length 32 0) ⟨s.inner (lowestLevel leaves.length 32 0),
        s.matchlevel == some (lowestLevel leaves.length 32 0),s.branch,false⟩ with
    | none =>
      rw [hsweep] at h
      cases h
    | some c =>
      rw [hsweep] at h
      cases h
      exact congrArg (·,s.mutated) (merkleSweep_eq hsweep hpos hlt hdvd hnot)

omit [Crypto] in
/-- Whether `AcceptBlock` marks the index entry of a block that fails a check. -/
def marksFailed : Outcome Unit → Bool
  | .error (.rejected state) => state.mode == .invalid && !state.corruptionPossible
  | _ => false

def CBlock.txids (block : CBlock) : List Uint256 := block.vtx.map CTransaction.getHash

theorem checkBlock_ok_root {consensus : Params} {adjustedTime : ℤ} {block : CBlock}
    {fCheckPOW : Bool} (h : checkBlock consensus adjustedTime block fCheckPOW true = .ok ()) :
    checkBlockHeader consensus adjustedTime block.toCBlockHeader fCheckPOW = .ok () ∧
      blockMerkleRoot block = (block.hashMerkleRoot,false) ∧ block.vtx ≠ [] ∧
        block.vtx.length ≤ MAX_BLOCK_SIZE := by
  simp only [checkBlock,checkMerkleRoot,bind_ok,require_dos_ok] at h
  obtain ⟨_,hheader,_,hroot,_,hlen,_⟩ := h
  rw [not_or,not_or,not_lt,not_lt] at hlen
  refine ⟨hheader,?_,hlen.1,hlen.2.1⟩
  simp only [Bool.not_true,Bool.false_eq_true,if_false,bind_ok,require_dos_ok] at hroot
  obtain ⟨_,heq,hmut⟩ := hroot
  exact Prod.ext heq.symm (Bool.eq_false_iff.mpr hmut)

theorem checkBlock_of_root {consensus : Params} {adjustedTime : ℤ} {block : CBlock}
    {fCheckPOW : Bool}
    (hheader : checkBlockHeader consensus adjustedTime block.toCBlockHeader fCheckPOW = .ok ())
    (hroot : blockMerkleRoot block ≠ (block.hashMerkleRoot,false)) :
    checkBlock consensus adjustedTime block fCheckPOW true ≠ .ok () ∧
      marksFailed (checkBlock consensus adjustedTime block fCheckPOW true) = false := by
  refine ⟨fun h => hroot (checkBlock_ok_root h).2.1,?_⟩
  unfold checkBlock checkMerkleRoot
  rw [hheader]
  by_cases heq : block.hashMerkleRoot = (blockMerkleRoot block).1
  · have hmut : (blockMerkleRoot block).2 = true := by
      by_contra hmut
      exact hroot (Prod.ext heq.symm (Bool.eq_false_iff.mpr hmut))
    simp [bind,Except.bind,require,heq,hmut,dos,marksFailed]
  · simp [bind,Except.bind,require,heq,dos,marksFailed]

/-- Another list of transactions of the same height below the header of a good block. -/
theorem checkBlock_variant {consensus : Params} {adjustedTime : ℤ} {fCheckPOW : Bool}
    {block variant : CBlock}
    (hok : checkBlock consensus adjustedTime block fCheckPOW true = .ok ())
    (hheader : variant.toCBlockHeader = block.toCBlockHeader) (hempty : variant.vtx ≠ [])
    (hne : variant.txids ≠ block.txids)
    (hheight : Nat.clog 2 variant.vtx.length = Nat.clog 2 block.vtx.length)
    (hinj : Set.InjOn (fun p => hashPair p.1 p.2)
      (hashedPairs hashPair variant.txids block.txids)) :
    checkBlock consensus adjustedTime variant fCheckPOW true ≠ .ok () ∧
      marksFailed (checkBlock consensus adjustedTime variant fCheckPOW true) = false := by
  obtain ⟨hgood,hroot,hblock,hsize⟩ := checkBlock_ok_root hok
  refine checkBlock_of_root (hheader ▸ hgood) fun hvariant => ?_
  have hlen : ∀ b : CBlock, b.txids.length = b.vtx.length := fun b => List.length_map _
  have hblocklen : block.txids.length ≤ 2^31 :=
    ((hlen block).trans_le hsize).trans (by decide)
  have hvariantlen : variant.txids.length ≤ 2^31 := by
    rw [hlen]
    refine (Nat.le_pow_clog (by decide : 1 < 2) _).trans ?_
    rw [hheight]
    refine Nat.pow_le_pow_right (by decide) (Nat.clog_le_of_le_pow ?_)
    exact hsize.trans (by decide)
  obtain ⟨m,heq,_⟩ := computeRoot_eq hashPair hblocklen
  obtain ⟨m',heq',_⟩ := computeRoot_eq hashPair hvariantlen
  have hold : (root hashPair block.txids,m) = (block.hashMerkleRoot,false) :=
    (computeMerkleRoot_eq heq).symm.trans hroot
  have hnew : (root hashPair variant.txids,m') = (variant.hashMerkleRoot,false) :=
    (computeMerkleRoot_eq heq').symm.trans hvariant
  have hsame : variant.hashMerkleRoot = block.hashMerkleRoot :=
    congrArg CBlockHeader.hashMerkleRoot hheader
  obtain ⟨hr,rfl⟩ := Prod.mk.inj hold
  obtain ⟨hr',rfl⟩ := Prod.mk.inj hnew
  rw [hr] at heq
  rw [hr',hsame] at heq'
  have hflag := mutated_or_mutated (by simpa [CBlock.txids] using hempty)
    (by simpa [CBlock.txids] using hblock) hne (by rwa [hlen,hlen]) hinj heq' heq
  simp at hflag

/-- Of two lists of the same height and root at least one is flagged, and a good block is not marked
for a list of transactions that is not its own. -/
theorem mutation_detected :
    (∀ {α : Type} [DecidableEq α] [Inhabited α] (node : α → α → α) (xs ys : List α) (r : α)
      (m m' : Bool), xs ≠ [] → ys ≠ [] → xs ≠ ys →
      Nat.clog 2 xs.length = Nat.clog 2 ys.length →
      Set.InjOn (fun p => node p.1 p.2) (hashedPairs node xs ys) →
      computeRoot node xs = some (r,m) → computeRoot node ys = some (r,m') →
      m = true ∨ m' = true) ∧
    ∀ (consensus : Params) (adjustedTime : ℤ) (fCheckPOW : Bool) (block variant : CBlock),
      checkBlock consensus adjustedTime block fCheckPOW true = .ok () →
      variant.toCBlockHeader = block.toCBlockHeader → variant.vtx ≠ [] →
      variant.txids ≠ block.txids →
      Nat.clog 2 variant.vtx.length = Nat.clog 2 block.vtx.length →
      Set.InjOn (fun p => hashPair p.1 p.2)
        (hashedPairs hashPair variant.txids block.txids) →
      checkBlock consensus adjustedTime variant fCheckPOW true ≠ .ok () ∧
        marksFailed (checkBlock consensus adjustedTime variant fCheckPOW true) = false :=
  ⟨fun _ _ _ _ _ _ hx hy hne hheight hinj hr hr' =>
    mutated_or_mutated hx hy hne hheight hinj hr hr',
    fun _ _ _ _ _ hok hheader hempty hne hheight hinj =>
      checkBlock_variant hok hheader hempty hne hheight hinj⟩

end

theorem hashedPairs_three {α : Type} [Inhabited α] (node : α → α → α) (a b c : α) :
    hashedPairs node [a,b,c,c] [a,b,c] ⊆ {(a,b),(c,c),(node a b,node c c)} := by
  have hclog : Nat.clog 2 4 = 2 ∧ Nat.clog 2 3 = 2 := by decide
  intro p hp
  simp [hashedPairs,hashed,treeHash,hclog.1,hclog.2] at hp
  simp
  tauto

local instance lengthCrypto : Crypto := digitCrypto

def threeTxs : List CTransaction :=
  [{ vin := [{ prevout := .null, scriptSig := [0,0] }], vout := [⟨0,[]⟩] },
    { vin := [{ prevout := ⟨0,1⟩ }], vout := [⟨0,[]⟩] },
    { vin := [{ prevout := ⟨0,2⟩ }], vout := [⟨0,[]⟩] }]

def threeTxBlock : CBlock :=
  { hashMerkleRoot := (computeMerkleRoot (threeTxs.map CTransaction.getHash)).1, vtx := threeTxs }

def repeatedTxBlock : CBlock :=
  { threeTxBlock with vtx := threeTxs ++ threeTxs.drop 2 }

theorem repeated_detected :
    (∃ r m m', computeRoot Nat.pair [1,2,3,3] = some (r,m) ∧
      computeRoot Nat.pair [1,2,3] = some (r,m') ∧ (m = true ∨ m' = true)) ∧
    checkBlock regTestParams 0 repeatedTxBlock false true ≠ .ok () ∧
      marksFailed (checkBlock regTestParams 0 repeatedTxBlock false true) = false := by
  have hok : checkBlock regTestParams 0 threeTxBlock false true = .ok () := by decide +kernel
  have hroot : computeRoot Nat.pair [1,2,3,3] =
      some (Nat.pair (Nat.pair 1 2) (Nat.pair 3 3),true) := by decide +kernel
  have hroot' : computeRoot Nat.pair [1,2,3] =
      some (Nat.pair (Nat.pair 1 2) (Nat.pair 3 3),false) := by decide +kernel
  refine ⟨⟨_,true,false,hroot,hroot',mutation_detected.1 Nat.pair [1,2,3,3] [1,2,3] _ true false
    (by decide) (by decide) (by decide) (by decide +kernel) Nat.pairEquiv.injective.injOn hroot hroot'⟩,
    mutation_detected.2 regTestParams 0 false threeTxBlock repeatedTxBlock hok rfl
      (by decide) (by decide +kernel) (by decide +kernel) ?_⟩
  have hpairs : hashedPairs hashPair repeatedTxBlock.txids threeTxBlock.txids ⊆ _ :=
    hashedPairs_three hashPair _ _ _
  refine Set.InjOn.mono hpairs ?_
  exact injOn_three (by decide +kernel) (by decide +kernel) (by decide +kernel)

end Sidechain
