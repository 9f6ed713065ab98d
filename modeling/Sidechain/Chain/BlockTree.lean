import Sidechain.Chain.BlockIndex
import Mathlib.Data.Finset.Basic

/-! The block index in memory: a tree of entries that headers build and blocks fill in, with the
blocks that wait for an ancestor and the candidates for the tip of the active chain. A pointer to
an entry is the hash it is stored under. -/
namespace Sidechain

/-- `nStatus`: how far the block is validated, whether its data is on disk, how it failed. -/
structure BlockStatus where
  valid : ℕ := 0
  haveData : Bool := false
  failedValid : Bool := false
  failedChild : Bool := false
  deriving DecidableEq, Repr

def BLOCK_VALID_TREE : ℕ := 2
def BLOCK_VALID_TRANSACTIONS : ℕ := 3

namespace BlockStatus

/-- A flag of `BLOCK_FAILED_MASK` is set. -/
def failed (nStatus : BlockStatus) : Bool := nStatus.failedValid || nStatus.failedChild

def isValid (nStatus : BlockStatus) (nUpTo : ℕ) : Bool :=
  !nStatus.failed && decide (nUpTo ≤ nStatus.valid)

def raiseValidity (nStatus : BlockStatus) (nUpTo : ℕ) : BlockStatus :=
  if nStatus.failed then nStatus else { nStatus with valid := max nStatus.valid nUpTo }

@[simp] theorem raiseValidity_haveData (nStatus : BlockStatus) (nUpTo : ℕ) :
    (nStatus.raiseValidity nUpTo).haveData = nStatus.haveData := by
  unfold raiseValidity
  split_ifs <;> rfl

@[simp] theorem raiseValidity_failed (nStatus : BlockStatus) (nUpTo : ℕ) :
    (nStatus.raiseValidity nUpTo).failed = nStatus.failed := by
  unfold raiseValidity
  split_ifs <;> rfl

theorem isValid_raiseValidity {nStatus : BlockStatus} {level : ℕ}
    (hvalid : nStatus.isValid level = true) (nUpTo : ℕ) :
    (nStatus.raiseValidity nUpTo).isValid level = true := by
  unfold isValid at *
  rw [Bool.and_eq_true,Bool.not_eq_true',decide_eq_true_eq] at *
  refine ⟨(raiseValidity_failed nStatus nUpTo).trans hvalid.1,?_⟩
  unfold raiseValidity
  rw [hvalid.1]
  exact le_max_of_le_left hvalid.2

end BlockStatus

/-- The fields of a `CBlockIndex` that change after its header is stored, and those the choice of
the active chain reads. -/
structure BlockTreeEntry where
  pprev : Option Uint256 := none
  nHeight : ℕ := 0
  nChainWork : Uint256 := 0
  nTx : UInt32 := 0
  nChainTx : UInt32 := 0
  nStatus : BlockStatus := {}
  nSequenceId : UInt32 := 0
  deriving DecidableEq, Repr

/-- The block index with the globals beside it; `vChain` is the active chain, genesis first. -/
structure BlockTree where
  mapBlockIndex : List Uint256 := []
  entry : Uint256 → BlockTreeEntry := fun _ => {}
  nBlockSequenceId : UInt32 := 1
  mapBlocksUnlinked : List (Uint256 × Uint256) := []
  vChain : List Uint256 := []
  setBlockIndexCandidates : Finset Uint256 := ∅
  pindexBestHeader : Option Uint256 := none

/-- The expected number of hashes behind a block. -/
def getBlockProof (nBits : UInt32) : Uint256 :=
  let (bnTarget,fNegative,fOverflow) := setCompact nBits
  if fNegative || fOverflow || bnTarget == 0 then 0 else ~~~bnTarget / (bnTarget + 1) + 1

namespace BlockTree

def tip (t : BlockTree) : Option Uint256 := t.vChain.getLast?

def modify (t : BlockTree) (pindex : Uint256) (f : BlockTreeEntry → BlockTreeEntry) : BlockTree :=
  { t with entry := Function.update t.entry pindex (f (t.entry pindex)) }

@[simp] theorem modify_same (t : BlockTree) (pindex : Uint256)
    (f : BlockTreeEntry → BlockTreeEntry) : (t.modify pindex f).entry pindex = f (t.entry pindex) :=
  Function.update_self ..

theorem modify_of_ne (t : BlockTree) {pindex h : Uint256} (f : BlockTreeEntry → BlockTreeEntry)
    (hne : h ≠ pindex) : (t.modify pindex f).entry h = t.entry h :=
  Function.update_of_ne hne ..

/-- An entry and its ancestors, up to the given number of them. -/
def pathFrom (t : BlockTree) : ℕ → Uint256 → List Uint256
  | 0,_ => []
  | fuel+1,h => h :: match (t.entry h).pprev with
    | none => []
    | some p => t.pathFrom fuel p

/-- An entry and its ancestors, nearest first; its height bounds their number. -/
def path (t : BlockTree) (h : Uint256) : List Uint256 := t.pathFrom ((t.entry h).nHeight + 1) h

theorem path_eq (t : BlockTree) (h : Uint256) : t.path h = h :: match (t.entry h).pprev with
    | none => []
    | some p => t.pathFrom (t.entry h).nHeight p := rfl

/-- `CBlockIndexWorkComparator`: less work, or received later; entries lie at the addresses
`addr`. -/
def workLess (t : BlockTree) (addr : Uint256 → ℕ) (pa pb : Uint256) : Bool :=
  let a := t.entry pa
  let b := t.entry pb
  if a.nChainWork > b.nChainWork then false
  else if a.nChainWork < b.nChainWork then true
  else if a.nSequenceId < b.nSequenceId then false
  else if a.nSequenceId > b.nSequenceId then true
  else if addr pa < addr pb then false
  else decide (addr pa > addr pb)

/-- An entry that is no worse than the tip is a candidate. -/
def insertCandidate (t : BlockTree) (addr : Uint256 → ℕ) (pindex : Uint256) : BlockTree :=
  match t.tip with
  | none => { t with setBlockIndexCandidates := insert pindex t.setBlockIndexCandidates }
  | some tip =>
    if t.workLess addr pindex tip then t
    else { t with setBlockIndexCandidates := insert pindex t.setBlockIndexCandidates }

section
variable [Crypto]

def addToBlockIndex (t : BlockTree) (block : CBlockHeader) : BlockTree :=
  let hash := block.getHash
  if hash ∈ t.mapBlockIndex then t
  else
    let pprev := if block.hashPrevBlock ∈ hash :: t.mapBlockIndex then some block.hashPrevBlock
      else none
    let pindexNew : BlockTreeEntry :=
      { pprev
        nHeight := match pprev with
          | none => 0
          | some p => (t.entry p).nHeight + 1
        nChainWork := (match pprev with
          | none => 0
          | some p => (t.entry p).nChainWork) + getBlockProof block.nBits
        nStatus := ({} : BlockStatus).raiseValidity BLOCK_VALID_TREE }
    { t with
      mapBlockIndex := hash :: t.mapBlockIndex
      entry := Function.update t.entry hash pindexNew
      pindexBestHeader := match t.pindexBestHeader with
        | none => some hash
        | some best =>
          if (t.entry best).nChainWork < pindexNew.nChainWork then some hash else some best }

end

/-- `nChainTx` of the parent, or zero for a root. -/
def parentChainTx (t : BlockTree) (pindex : Uint256) : UInt32 :=
  match (t.entry pindex).pprev with
  | none => 0
  | some p => (t.entry p).nChainTx

/-- `mapBlocksUnlinked.equal_range(pindex)`, in the order of insertion. -/
def unlinkedChildren (t : BlockTree) (pindex : Uint256) : List Uint256 :=
  (t.mapBlocksUnlinked.filter fun pair => pair.1 == pindex).map Prod.snd

/-- One round of the queue: the block in front is linked to its parent, and its children stop
waiting. -/
def linkBlock (t : BlockTree) (addr : Uint256 → ℕ) (pindex : Uint256) : BlockTree :=
  let t' := t.modify pindex fun e =>
    { e with nChainTx := t.parentChainTx pindex + e.nTx, nSequenceId := t.nBlockSequenceId }
  { ({ t' with nBlockSequenceId := t.nBlockSequenceId + 1 } : BlockTree).insertCandidate addr pindex
    with mapBlocksUnlinked := t.mapBlocksUnlinked.filter fun pair => pair.1 != pindex }

/-- Every round takes one block out of the queue, and each it puts there had been waiting. -/
def linkQueue (addr : Uint256 → ℕ) : ℕ → List Uint256 → BlockTree → BlockTree
  | 0,_,t => t
  | _+1,[],t => t
  | fuel+1,pindex::queue,t =>
    linkQueue addr fuel (queue ++ t.unlinkedChildren pindex) (t.linkBlock addr pindex)

/-- The data of a block has arrived. -/
def setReceived (t : BlockTree) (pindexNew : Uint256) (nTx : ℕ) : BlockTree :=
  t.modify pindexNew fun e =>
    { e with
      nTx := UInt32.ofNat nTx
      nChainTx := 0
      nStatus := ({ e.nStatus with haveData := true } : BlockStatus).raiseValidity
        BLOCK_VALID_TRANSACTIONS }

def receivedBlockTransactions (t : BlockTree) (addr : Uint256 → ℕ) (block : CBlock)
    (pindexNew : Uint256) : BlockTree :=
  let t := t.setReceived pindexNew block.vtx.length
  match (t.entry pindexNew).pprev with
  | none => linkQueue addr (t.mapBlocksUnlinked.length + 1) [pindexNew] t
  | some p =>
    if (t.entry p).nChainTx ≠ 0 then
      linkQueue addr (t.mapBlocksUnlinked.length + 1) [pindexNew] t
    else if (t.entry p).nStatus.isValid BLOCK_VALID_TREE then
      { t with mapBlocksUnlinked := t.mapBlocksUnlinked ++ [(p,pindexNew)] }
    else t

/-- What `AcceptBlock` does with a block that passes its checks: a block it has is left alone. -/
def acceptBlock [Crypto] (t : BlockTree) (addr : Uint256 → ℕ) (block : CBlock) : BlockTree :=
  let t := t.addToBlockIndex block.toCBlockHeader
  let pindex := block.toCBlockHeader.getHash
  if (t.entry pindex).nStatus.haveData then t else t.receivedBlockTransactions addr block pindex

end BlockTree
end Sidechain
