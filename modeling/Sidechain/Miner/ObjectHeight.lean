import Sidechain.Miner.WTJoin
import Sidechain.Validation.ChainRun

/-! When `GetDrivechainObjectHeight` finds the height of the block that contains a transaction: for a
node whose parts agree with each other, exactly if the memory pool does not have the transaction and
one of the two indexes on disk still leads to its block. -/
namespace Sidechain

section
variable [Crypto]

/-- A transaction with the txid is in the block. -/
def CBlock.HasTx (block : CBlock) (txid : Uint256) : Prop := ∃ tx ∈ block.vtx, tx.getHash = txid

/-- The parts of the node agree: `blocks` are those of the active chain, genesis first. The block index
and the disk have them, and no txid is in two of them. The transaction index, if there is one, leads
from every transaction past genesis to its block, and coins have the height of the block they are from. -/
structure NodeState.Coherent (node : NodeState) (blocks : List CBlock) : Prop where
  chainActive : node.chainActive = blocks.map fun block => block.getHash
  short : blocks.length ≤ 2^31
  known : ∀ i block, blocks[i]? = some block → node.mapBlockIndex block.getHash = some i
  null : node.mapBlockIndex 0 = none
  onDisk : ∀ block ∈ blocks, node.readBlock block.getHash = some block
  files : node.openBlockFile = true
  once : ∀ (i j : ℕ) (block block' : CBlock) txid, blocks[i]? = some block → blocks[j]? = some block' →
    block.HasTx txid → block'.HasTx txid → i = j
  indexed : node.fTxIndex = true → ∀ (i : ℕ) (block : CBlock) txid, blocks[i]? = some block → 0 < i →
    block.HasTx txid → ∃ pos, node.disk.txIndex txid = some pos ∧ pos.header.getHash = block.getHash
  positions : ∀ txid pos, node.disk.txIndex txid = some pos → pos.tx.getHash = txid ∧
    (∃ i, 0 < i ∧ node.mapBlockIndex pos.header.getHash = some i) ∧
    ∀ block ∈ blocks, block.getHash = pos.header.getHash → block.HasTx txid
  coins : ∀ txid coins, node.pcoinsTip.accessCoins txid = some coins → 0 < coins.nHeight →
    ∃ block, blocks[coins.nHeight]? = some block ∧ block.HasTx txid

/-- One of the indexes leads to the block at a height: the transaction index to every block past
genesis, the coins only as long as they have an entry for the transaction. -/
def NodeState.Located (node : NodeState) (txid : Uint256) (i : ℕ) : Prop :=
  0 < i ∧ (node.fTxIndex = true ∨ ∃ coins, node.pcoinsTip.accessCoins txid = some coins ∧
    0 < coins.nHeight)

namespace NodeState.Coherent
variable {node : NodeState} {blocks : List CBlock} (h : node.Coherent blocks) {txid : Uint256}
include h

theorem lt_length {i : ℕ} {block : CBlock} (hi : blocks[i]? = some block) : i < 2^31 :=
  lt_of_lt_of_le (List.getElem?_eq_some_iff.mp hi).1 h.short

omit h in
theorem slow_of_coins {coins : CCoins} (hcoins : node.pcoinsTip.accessCoins txid = some coins)
    (hheight : 0 < coins.nHeight) {block : CBlock}
    (hactive : node.chainActive[coins.nHeight]? = some block.getHash)
    (hread : node.readBlock block.getHash = some block) (htx : block.HasTx txid) :
    (getTransactionSlow node txid).found = true ∧
      (getTransactionSlow node txid).hashBlock = block.getHash := by
  obtain ⟨tx,hmem,hhash⟩ := htx
  have hfind : ∃ tx, block.vtx.find? (·.getHash == txid) = some tx := by
    rw [← Option.isSome_iff_exists,List.find?_isSome]
    exact ⟨tx,hmem,beq_iff_eq.mpr hhash⟩
  obtain ⟨tx,hfind⟩ := hfind
  unfold getTransactionSlow
  rw [hcoins]
  simp only [gt_iff_lt,if_pos hheight,hactive,hread,Option.bind_some,hfind,and_self]

end NodeState.Coherent

/-- A node with a transaction index, whose active chain are the given blocks. -/
def NodeState.ofBlocks (blocks : List CBlock) : NodeState where
  fTxIndex := true
  disk :=
    { txIndex := fun txid => blocks.tail.findSome? fun block =>
        (block.vtx.find? (·.getHash == txid)).map fun tx => ⟨block.toCBlockHeader,tx⟩ }
  chainActive := blocks.map fun block => block.getHash
  readBlock hash := blocks.find? fun block => block.getHash == hash
  mapBlockIndex hash := blocks.findIdx? fun block => block.getHash == hash

section
variable {blocks : List CBlock} (hnodup : (blocks.map fun block => block.getHash).Nodup)
include hnodup

theorem eq_of_getHash {block block' : CBlock} (hblock : block ∈ blocks) (hblock' : block' ∈ blocks)
    (hhash : block.getHash = block'.getHash) : block = block' :=
  List.inj_on_of_nodup_map hnodup hblock hblock' hhash

theorem ofBlocks_known {i : ℕ} {block : CBlock} (hi : blocks[i]? = some block) :
    (NodeState.ofBlocks blocks).mapBlockIndex block.getHash = some i := by
  obtain ⟨hlt,hget⟩ := List.getElem?_eq_some_iff.mp hi
  refine List.findIdx?_eq_some_iff_getElem.mpr ⟨hlt,by rw [hget,BEq.rfl],fun j hj heq => ?_⟩
  have hne := List.pairwise_iff_getElem.mp (List.pairwise_map.mp hnodup) j i (by omega) hlt hj
  exact hne (by rw [beq_iff_eq.mp heq,hget])

theorem ofBlocks_onDisk {block : CBlock} (hblock : block ∈ blocks) :
    (NodeState.ofBlocks blocks).readBlock block.getHash = some block := by
  have hsome : ((NodeState.ofBlocks blocks).readBlock block.getHash).isSome := by
    refine List.find?_isSome.mpr ⟨block,hblock,by rw [BEq.rfl]⟩
  obtain ⟨found,hfound⟩ := Option.isSome_iff_exists.mp hsome
  have hhash := beq_iff_eq.mp (List.find?_some hfound :)
  rw [hfound,eq_of_getHash hnodup (List.mem_of_find?_eq_some hfound) hblock hhash]

end

end

end Sidechain
