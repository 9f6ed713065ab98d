import Sidechain.Chain.BlockTree

/-! The active chain: its tip is connected and disconnected block by block, the best candidate
decides where it goes, and a block can be marked as failed or forgiven by hand. Blocks are never
pruned, and reading them from disk does not fail. -/
namespace Sidechain

def BlockStatus.clearFailed (nStatus : BlockStatus) : BlockStatus :=
  { nStatus with failedValid := false, failedChild := false }

namespace BlockTree

/-- `chainActive.Contains(pindex)`. -/
def contains (t : BlockTree) (pindex : Uint256) : Bool :=
  t.vChain[(t.entry pindex).nHeight]? == some pindex

/-- `chainActive.SetTip(pindex)`, which stops where the chain already agrees. -/
def setTip (t : BlockTree) (pindex : Uint256) : BlockTree :=
  { t with vChain := (t.path pindex).reverse }

/-- `chainActive.FindFork(pindex)`; nothing above the height of the chain is contained. -/
def findFork (t : BlockTree) (pindex : Uint256) : Option Uint256 := (t.path pindex).find? t.contains

def eraseCandidates (t : BlockTree) (hs : List Uint256) : BlockTree :=
  { t with setBlockIndexCandidates := t.setBlockIndexCandidates \ hs.toFinset }

/-- `nStatus |= BLOCK_FAILED_VALID`. -/
def setFailedValid (t : BlockTree) (pindex : Uint256) : BlockTree :=
  t.modify pindex fun e => { e with nStatus := { e.nStatus with failedValid := true } }

/-- `nStatus |= BLOCK_FAILED_CHILD` for a list of entries. -/
def setFailedChild (t : BlockTree) (hs : List Uint256) : BlockTree :=
  { t with entry := fun h =>
      if h ∈ hs then { t.entry h with nStatus := { (t.entry h).nStatus with failedChild := true } }
      else t.entry h }

/-- The better of two candidates, if there was one before. -/
def betterCandidate (t : BlockTree) (addr : Uint256 → ℕ) (best : Option Uint256) (h : Uint256) :
    Option Uint256 :=
  match best with
  | none => some h
  | some b => if t.workLess addr b h then some h else some b

/-- `*setBlockIndexCandidates.rbegin()`. -/
def bestCandidate (t : BlockTree) (addr : Uint256 → ℕ) : Option Uint256 :=
  (t.mapBlockIndex.filter (· ∈ t.setBlockIndexCandidates)).foldl (t.betterCandidate addr) none

/-- An entry on the way to a candidate cannot be used. -/
def unusable (t : BlockTree) (pindexTest : Uint256) : Bool :=
  (t.entry pindexTest).nStatus.failed || !(t.entry pindexTest).nStatus.haveData

/-- `pindexTest` cannot be used, so the entries above it up to the candidate cannot either. -/
def dropCandidate (t : BlockTree) (pindexTest : Uint256) (above : List Uint256) : BlockTree :=
  let t := if (t.entry pindexTest).nStatus.failed then t.setFailedChild above
    else { t with mapBlocksUnlinked := t.mapBlocksUnlinked ++
            above.filterMap fun h => (t.entry h).pprev.map fun p => (p,h) }
  t.eraseCandidates (pindexTest::above)

/-- Every round but the last erases a candidate, so one more than there are is fuel enough. -/
def findMostWorkChain (addr : Uint256 → ℕ) : ℕ → BlockTree → Option Uint256 × BlockTree
  | 0,t => (none,t)
  | fuel+1,t =>
    match t.bestCandidate addr with
    | none => (none,t)
    | some pindexNew =>
      let way := (t.path pindexNew).takeWhile fun h => !t.contains h
      match way.dropWhile fun h => !t.unusable h with
      | [] => (some pindexNew,t)
      | pindexTest::_ =>
        findMostWorkChain addr fuel
          (t.dropCandidate pindexTest (way.takeWhile fun h => !t.unusable h))

def pruneBlockIndexCandidates (t : BlockTree) (addr : Uint256 → ℕ) : BlockTree :=
  match t.tip with
  | none => t
  | some tip =>
    { t with setBlockIndexCandidates :=
        t.setBlockIndexCandidates.filter fun h => ¬ t.workLess addr h tip }

/-- The genesis block has no undo data and cannot be disconnected. -/
def disconnectTip (t : BlockTree) : Option BlockTree :=
  match t.tip with
  | none => none
  | some pindexDelete =>
    match (t.entry pindexDelete).pprev with
    | none => none
    | some p => some (t.setTip p)

/-- Disconnect until the tip is the fork. -/
def disconnectTo (pindexFork : Option Uint256) : ℕ → BlockTree → Option BlockTree
  | 0,_ => none
  | fuel+1,t =>
    if t.tip = none ∨ t.tip = pindexFork then some t
    else
      match t.disconnectTip with
      | none => none
      | some t => disconnectTo pindexFork fuel t

def invalidBlockFound (t : BlockTree) (pindex : Uint256) : BlockTree :=
  (t.setFailedValid pindex).eraseCandidates [pindex]

/-- There is no tip yet, or the new one has more work than the old one. -/
def betterThan (t : BlockTree) (pindexOldTip : Option Uint256) (pindex : Uint256) : Bool :=
  match pindexOldTip with
  | none => true
  | some old => decide ((t.entry old).nChainWork < (t.entry pindex).nChainWork)

/-- Connect blocks until one fails or the chain is better than it was; `connects` stands for
`ConnectBlock`, which always connects the genesis block. -/
def connectBlocks (addr : Uint256 → ℕ) (hashGenesisBlock : Uint256)
    (connects : BlockTree → Uint256 → Bool) (pindexOldTip : Option Uint256) :
    List Uint256 → BlockTree → BlockTree
  | [],t => t
  | pindexConnect::vpindexToConnect,t =>
    if pindexConnect = hashGenesisBlock ∨ connects t pindexConnect then
      let t := (t.setTip pindexConnect).pruneBlockIndexCandidates addr
      if t.betterThan pindexOldTip pindexConnect then t
      else connectBlocks addr hashGenesisBlock connects pindexOldTip vpindexToConnect t
    else t.invalidBlockFound pindexConnect

/-- The blocks above the fork are connected lowest first; the source takes them in groups. -/
def activateBestChainStep (addr : Uint256 → ℕ) (hashGenesisBlock : Uint256)
    (connects : BlockTree → Uint256 → Bool) (pindexMostWork : Uint256) (t : BlockTree) :
    Option BlockTree :=
  let pindexFork := t.findFork pindexMostWork
  match disconnectTo pindexFork (t.vChain.length + 1) t with
  | none => none
  | some t' =>
    let vpindexToConnect := ((t.path pindexMostWork).takeWhile fun h => some h ≠ pindexFork).reverse
    some (connectBlocks addr hashGenesisBlock connects t.tip vpindexToConnect t')

/-- The loop of `ActivateBestChain`. -/
def activateLoop (addr : Uint256 → ℕ) (hashGenesisBlock : Uint256)
    (connects : BlockTree → Uint256 → Bool) : ℕ → BlockTree → Option BlockTree
  | 0,_ => none
  | fuel+1,t =>
    match findMostWorkChain addr (t.setBlockIndexCandidates.card + 1) t with
    | (none,t) => some t
    | (some pindexMostWork,t) =>
      if t.tip = some pindexMostWork then some t
      else
        match activateBestChainStep addr hashGenesisBlock connects pindexMostWork t with
        | none => none
        | some t =>
          if t.tip = some pindexMostWork then some t
          else activateLoop addr hashGenesisBlock connects fuel t

/-- A round that does not reach the best candidate marks a block as failed, which happens once for
each block, or finds a tip with more work, of which there are finitely many in between. -/
def activateBestChain (addr : Uint256 → ℕ) (hashGenesisBlock : Uint256)
    (connects : BlockTree → Uint256 → Bool) (t : BlockTree) : Option BlockTree :=
  let n := t.mapBlockIndex.length
  activateLoop addr hashGenesisBlock connects ((n + 1) * (n + 2)) t

/-- Disconnect until a block is off the active chain; false if that fails. -/
def disconnectOff (pindex : Uint256) : ℕ → BlockTree → BlockTree × Bool
  | 0,t => (t,false)
  | fuel+1,t =>
    if t.contains pindex then
      match t.tip with
      | none => (t,false)
      | some pindexWalk =>
        let t := (t.setFailedChild [pindexWalk]).eraseCandidates [pindexWalk]
        match t.disconnectTip with
        | none => (t,false)
        | some t => disconnectOff pindex fuel t
    else (t,true)

/-- What can become the tip, whatever its ancestors are. -/
def ready (t : BlockTree) (h : Uint256) : Bool :=
  (t.entry h).nStatus.isValid BLOCK_VALID_TRANSACTIONS && (t.entry h).nChainTx != 0

/-- Without a tip the source follows a null pointer. -/
def invalidateBlock (t : BlockTree) (addr : Uint256 → ℕ) (pindex : Uint256) : Option BlockTree :=
  let t := (t.setFailedValid pindex).eraseCandidates [pindex]
  match disconnectOff pindex (t.vChain.length + 1) t with
  | (t,false) => some t
  | (t,true) =>
    match t.tip with
    | none => none
    | some tip =>
      some { t with setBlockIndexCandidates := t.setBlockIndexCandidates ∪
        (t.mapBlockIndex.filter fun h => t.ready h && !t.workLess addr h tip).toFinset }

/-- The entries `ReconsiderBlock` looks at: `pindex` and its descendants that are not valid. -/
def reconsidered (t : BlockTree) (pindex h : Uint256) : Bool :=
  decide (h ∈ t.mapBlockIndex) && !(t.entry h).nStatus.isValid BLOCK_VALID_TRANSACTIONS &&
    decide (pindex ∈ t.path h)

/-- `nStatus &= ~BLOCK_FAILED_MASK` for the entries that are looked at, and for all ancestors. -/
def clearFailed (t : BlockTree) (pindex : Uint256) : BlockTree :=
  { t with entry := fun h =>
      if t.reconsidered pindex h || decide (h ∈ t.path pindex) then
        { t.entry h with nStatus := (t.entry h).nStatus.clearFailed }
      else t.entry h }

def reconsiderBlock (t : BlockTree) (addr : Uint256 → ℕ) (pindex : Uint256) : Option BlockTree :=
  match t.tip with
  | none => none
  | some tip =>
    let t' := t.clearFailed pindex
    some { t' with setBlockIndexCandidates := t.setBlockIndexCandidates ∪
      (t.mapBlockIndex.filter fun h =>
        t.reconsidered pindex h && t'.ready h && t.workLess addr tip h).toFinset }

section
variable [Crypto]

/-- `passes` is the verdict of the checks that need no index entry but the parent's. -/
def acceptBlockHeader (t : BlockTree) (hashGenesisBlock : Uint256) (block : CBlockHeader)
    (passes : Bool) : Option BlockTree :=
  let hash := block.getHash
  if hash = hashGenesisBlock then some (t.addToBlockIndex block)
  else if hash ∈ t.mapBlockIndex then
    if (t.entry hash).nStatus.failed then none else some t
  else if !passes then none
  else if block.hashPrevBlock ∉ t.mapBlockIndex then none
  else if (t.entry block.hashPrevBlock).nStatus.failed then none
  else some (t.addToBlockIndex block)

/-- A requested block: it is stored if its own checks pass as well, and marked if they do not. -/
def processBlock (t : BlockTree) (addr : Uint256 → ℕ) (hashGenesisBlock : Uint256) (block : CBlock)
    (headerPasses passes : Bool) : BlockTree :=
  match t.acceptBlockHeader hashGenesisBlock block.toCBlockHeader headerPasses with
  | none => t
  | some t =>
    let pindex := block.toCBlockHeader.getHash
    if (t.entry pindex).nStatus.haveData then t
    else if passes then t.receivedBlockTransactions addr block pindex
    else t.setFailedValid pindex

end

end BlockTree
end Sidechain
