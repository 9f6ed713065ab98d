import Sidechain.Chain.ActiveChain
import Sidechain.Chain.BlockFiles

/-! Blocks in their files: where each entry of the block index has its data and its undo data, and
how old files are pruned. The index itself is that of `BlockTree`. -/
namespace Sidechain

def MIN_BLOCKS_TO_KEEP : ℕ := 288

/-- `BLOCK_HAVE_UNDO` and the positions of an entry; `BLOCK_HAVE_DATA` is a flag of the tree's. -/
structure DiskPosition where
  haveUndo : Bool := false
  nFile : ℕ := 0
  nDataPos : ℕ := 0
  nUndoPos : ℕ := 0
  deriving DecidableEq, Repr

/-- `nStatus &= ~BLOCK_HAVE_DATA`. -/
def BlockTreeEntry.withoutData (e : BlockTreeEntry) : BlockTreeEntry :=
  {e with nStatus := {e.nStatus with haveData := false}}

structure BlockStore where
  tree : BlockTree := {}
  position : Uint256 → DiskPosition := fun _ => {}
  files : BlockFiles := {}

namespace BlockStore

def haveData (s : BlockStore) (pindex : Uint256) : Bool := (s.tree.entry pindex).nStatus.haveData

def nHeight (s : BlockStore) (pindex : Uint256) : ℕ := (s.tree.entry pindex).nHeight

section
variable [Crypto]

/-- `AcceptBlock` behind its checks. There is no result where the search for a file does not end;
where there is no space on the disk the block is not received. -/
def acceptBlock (s : BlockStore) (addr : Uint256 → ℕ) (block : CBlock) (dbp : Option CDiskBlockPos)
    (fPruneMode : Bool) (checkDiskSpace : ℕ → Bool) : Option BlockStore :=
  let tree := s.tree.addToBlockIndex block.toCBlockHeader
  let pindex := block.toCBlockHeader.getHash
  if (tree.entry pindex).nStatus.haveData then some {s with tree}
  else
    (findBlockPos s.files (dbp.getD ⟨0,0⟩) (wrap32 (block.getSerializeSize + 8))
      (tree.entry pindex).nHeight block.nTime.toNat dbp.isSome fPruneMode checkDiskSpace).map
    fun res => match res.result with
      | .error _ => {s with tree,files := res.files}
      | .ok () =>
        { tree := tree.receivedBlockTransactions addr block pindex
          position := Function.update s.position pindex
            { s.position pindex with
              nFile := res.pos.nFile
              -- behind the start characters and the size, which `WriteBlockToDisk` writes
              nDataPos := if dbp.isSome then res.pos.nPos else wrap32 (res.pos.nPos + 8)
              nUndoPos := 0 }
          files := res.files }

end

/-- `ConnectBlock` writes the undo data of a block that has been read, once. -/
def writeUndo (s : BlockStore) (pindex : Uint256) (nAddSize : ℕ) (fPruneMode : Bool)
    (checkDiskSpace : ℕ → Bool) : Option BlockStore :=
  if s.haveData pindex = false ∨ (s.position pindex).haveUndo then some s
  else
    (findUndoPos s.files (s.position pindex).nFile nAddSize fPruneMode checkDiskSpace).map
    fun res => match res.result with
      | .error _ => {s with files := res.files}
      | .ok () =>
        { s with
          position := Function.update s.position pindex
            {s.position pindex with haveUndo := true,nUndoPos := wrap32 (res.pos.nPos + 8)}
          files := res.files }

/-- The sizes are added as 32-bit numbers. -/
def fileBytes (info : CBlockFileInfo) : ℕ := wrap32 (info.nSize + info.nUndoSize)

def calculateCurrentUsage (s : BlockStore) : ℕ :=
  s.files.vinfoBlockFile.foldl (fun retval info => (retval + fileBytes info) % 2^64) 0

/-- An entry of the file that is pruned; `equal_range` is that of its parent. -/
def pruneEntry (s : BlockStore) (pindex : Uint256) : BlockStore :=
  { s with
    tree :=
      { s.tree.modify pindex BlockTreeEntry.withoutData with
        mapBlocksUnlinked := s.tree.mapBlocksUnlinked.filter fun pair =>
          !(some pair.1 == (s.tree.entry pindex).pprev && pair.2 == pindex) }
    position := Function.update s.position pindex {} }

/-- The loop over the block index. -/
def pruneEntries (fileNumber : ℕ) (hs : List Uint256) (s : BlockStore) : BlockStore :=
  hs.foldl (fun s pindex =>
    if (s.position pindex).nFile = fileNumber then s.pruneEntry pindex else s) s

def pruneOneBlockFile (s : BlockStore) (fileNumber : ℕ) : BlockStore :=
  let s := s.pruneEntries fileNumber s.tree.mapBlockIndex
  { s with files :=
    { s.files with
      vinfoBlockFile := s.files.vinfoBlockFile.set fileNumber {}
      setDirtyFileInfo := insert fileNumber s.files.setDirtyFileInfo } }

/-- The loop over the files, with the current usage and the files to prune so far. -/
def pruneFiles (nPruneTarget nLastBlockWeCanPrune : ℕ) :
    List ℕ → BlockStore → ℕ → Finset ℕ → BlockStore × Finset ℕ
  | [],s,_,setFilesToPrune => (s,setFilesToPrune)
  | fileNumber :: rest,s,nCurrentUsage,setFilesToPrune =>
    let info := infoAt s.files.vinfoBlockFile fileNumber
    if info.nSize = 0 then
      pruneFiles nPruneTarget nLastBlockWeCanPrune rest s nCurrentUsage setFilesToPrune
    else if (nCurrentUsage + (BLOCKFILE_CHUNK_SIZE + UNDOFILE_CHUNK_SIZE)) % 2^64 < nPruneTarget then
      (s,setFilesToPrune)
    else if info.nHeightLast > nLastBlockWeCanPrune then
      pruneFiles nPruneTarget nLastBlockWeCanPrune rest s nCurrentUsage setFilesToPrune
    else
      pruneFiles nPruneTarget nLastBlockWeCanPrune rest (s.pruneOneBlockFile fileNumber)
        ((nCurrentUsage + 2^64 - fileBytes info) % 2^64) (insert fileNumber setFilesToPrune)

/-- The height of the tip is that of the active chain, if there is one. -/
def findFilesToPrune (s : BlockStore) (nPruneTarget : ℕ) (tip : Option ℕ)
    (nPruneAfterHeight : ℕ) : BlockStore × Finset ℕ :=
  match tip with
  | none => (s,∅)
  | some nHeight =>
    if nPruneTarget = 0 ∨ nHeight ≤ nPruneAfterHeight then (s,∅)
    else
      let nLastBlockWeCanPrune := wrap32 (nHeight + 2^32 - MIN_BLOCKS_TO_KEEP)
      let nCurrentUsage := s.calculateCurrentUsage
      if (nCurrentUsage + (BLOCKFILE_CHUNK_SIZE + UNDOFILE_CHUNK_SIZE)) % 2^64 ≥ nPruneTarget then
        pruneFiles nPruneTarget nLastBlockWeCanPrune (List.range s.files.nLastBlockFile) s
          nCurrentUsage ∅
      else (s,∅)

section
variable [Crypto]

/-- What happens to the store: a header or a block is accepted, at a position that is known if it
comes from a block file, undo data is written, a chain with missing blocks is given up, files are
pruned; the active chain, its candidates and the flags of failure may become any others. -/
inductive StoreCall where
  | header (block : CBlockHeader)
  | block (block : CBlock) (dbp : Option CDiskBlockPos) (fPruneMode : Bool)
      (checkDiskSpace : ℕ → Bool)
  | undo (pindex : Uint256) (nAddSize : ℕ) (fPruneMode : Bool) (checkDiskSpace : ℕ → Bool)
  | findMostWorkChain (fuel : ℕ)
  | activate (vChain : List Uint256) (candidates : Finset Uint256)
  | failures (failedValid failedChild : Uint256 → Bool)
  | prune (nPruneTarget : ℕ) (tip : Option ℕ) (nPruneAfterHeight : ℕ)

/-- The flags of failure of all entries are set anew. -/
def setFailures (t : BlockTree) (failedValid failedChild : Uint256 → Bool) : BlockTree :=
  { t with entry := fun h =>
      { t.entry h with nStatus :=
        {(t.entry h).nStatus with failedValid := failedValid h,failedChild := failedChild h} } }

def step (addr : Uint256 → ℕ) (s : BlockStore) : StoreCall → Option BlockStore
  | .header block => some {s with tree := s.tree.addToBlockIndex block}
  | .block block dbp fPruneMode checkDiskSpace =>
    s.acceptBlock addr block dbp fPruneMode checkDiskSpace
  | .undo pindex nAddSize fPruneMode checkDiskSpace =>
    s.writeUndo pindex nAddSize fPruneMode checkDiskSpace
  | .findMostWorkChain fuel => some {s with tree := (BlockTree.findMostWorkChain addr fuel s.tree).2}
  | .activate vChain candidates =>
    some {s with tree := {s.tree with vChain,setBlockIndexCandidates := candidates}}
  | .failures failedValid failedChild =>
    some {s with tree := setFailures s.tree failedValid failedChild}
  | .prune nPruneTarget tip nPruneAfterHeight =>
    some (s.findFilesToPrune nPruneTarget tip nPruneAfterHeight).1

/-- The states after a history. -/
inductive Reached (addr : Uint256 → ℕ) : BlockStore → Prop
  | start : Reached addr {}
  | step {s s' : BlockStore} {call : StoreCall} (h : Reached addr s)
      (hstep : s.step addr call = some s') : Reached addr s'

end

end BlockStore
end Sidechain
