import Sidechain.Library.Scheduling
import Sidechain.Mempool.TxMemPool
import Sidechain.Validation.ConnectBlock

/-! How a miner selects transactions of the pool: by priority first, then by score, where an entry
waits until all its parents are in the block. Priorities and scores are floating-point numbers, so
their comparisons are given. -/
namespace Sidechain
open Worklist Scheduling

/-- The size options of the miner, as unsigned numbers. -/
structure MinerArgs where
  blockmaxsize : UInt32 := 750000
  blockprioritysize : UInt32 := 0
  blockminsize : UInt32 := 0

namespace MinerArgs

/-- Between 1000 bytes and 1000 bytes less than a block may have. -/
def nBlockMaxSize (args : MinerArgs) : ℕ :=
  max 1000 (min (MAX_BLOCK_SIZE - 1000) args.blockmaxsize.toNat)

def nBlockPrioritySize (args : MinerArgs) : ℕ := min args.nBlockMaxSize args.blockprioritysize.toNat

def nBlockMinSize (args : MinerArgs) : ℕ := min args.nBlockMaxSize args.blockminsize.toNat

end MinerArgs

/-- What the selection reads besides the pool. A priority includes the delta of its entry. -/
structure MinerContext (Priority : Type) where
  args : MinerArgs := {}
  nHeight : ℤ
  nLockTimeCutoff : ℤ
  minRelayTxFee : CFeeRate := ⟨1000⟩
  actualPriority : Priority
  priority : Uint256 → Priority
  lowerPriority : Priority → Priority → Bool
  samePriority : Priority → Priority → Bool
  allowFree : Priority → Bool
  higherScore : CTxMemPoolEntry → CTxMemPoolEntry → Bool

/-- The containers that hand entries to each other, and the block so far without its coinbase. -/
structure SelectState (Priority : Type) where
  vecPriority : List (Priority × Uint256)
  mi : List Uint256
  clearedTxs : List Uint256 := []
  waitSet : Finset Uint256 := ∅
  waitPriMap : Finmap fun _ : Uint256 => Priority := ∅
  actualPriority : Priority
  fPriorityBlock : Bool
  inBlock : Finset Uint256 := ∅
  vtx : List CTransaction := []
  vTxFees : List ℤ := []
  vTxSigOps : List ℕ := []
  nBlockSize : ℕ := 1000
  nBlockSigOps : ℕ := 100
  lastFewTxs : ℕ := 0
  nFees : ℤ := 0

/-- The entry a round looks at, and whether it comes from the priority queue. -/
structure Picked (Priority : Type) where
  iter : Uint256
  priorityTx : Bool
  s : SelectState Priority

variable {Priority : Type}

namespace MinerContext

/-- `CompareTxMemPoolEntryByScore` of two iterators. -/
def byScore (ctx : MinerContext Priority) (pool : CTxMemPool) (a b : Uint256) : Bool :=
  match pool.mapTx.lookup a,pool.mapTx.lookup b with
  | some a,some b => ctx.higherScore a b
  | _,_ => false

/-- `TxCoinAgePriorityCompare`: equal priorities are ordered by score. -/
def lessPriority (ctx : MinerContext Priority) (pool : CTxMemPool) (a b : Priority × Uint256) :
    Bool :=
  if ctx.samePriority a.1 b.1 then ctx.byScore pool b.2 a.2 else ctx.lowerPriority a.1 b.1

def pick (ctx : MinerContext Priority) (pool : CTxMemPool) (s : SelectState Priority) :
    Outcome (Picked Priority) :=
  match s.fPriorityBlock,s.vecPriority with
  | true,p::ps =>
    let top := popTop (ctx.lessPriority pool) p ps
    .ok ⟨top.1.2,true,{ s with vecPriority := top.2, actualPriority := top.1.1 }⟩
  | _,_ =>
    match s.clearedTxs,s.mi with
    | [],[] => .error (.undefined "*mi")
    | [],iter::mi => .ok ⟨iter,false,{ s with mi }⟩
    | c::cs,_ =>
      let top := popTop (fun a b => ctx.byScore pool b a) c cs
      .ok ⟨top.1,false,{ s with clearedTxs := top.2 }⟩

end MinerContext

namespace SelectState

/-- An entry waits for its parents. -/
def postpone (s : SelectState Priority) (iter : Uint256) (priorityTx : Bool) :
    SelectState Priority :=
  if priorityTx then { s with waitPriMap := insertNew s.waitPriMap iter s.actualPriority }
  else { s with waitSet := insert iter s.waitSet }

/-- The part of the block for high priorities ends when it is full or priorities are low. -/
def endPriority (ctx : MinerContext Priority) (nTxSize : ℕ) (s : SelectState Priority) :
    SelectState Priority :=
  if s.fPriorityBlock && (decide (s.nBlockSize + nTxSize ≥ ctx.args.nBlockPrioritySize) ||
      !ctx.allowFree s.actualPriority) then { s with fPriorityBlock := false, waitPriMap := ∅ }
  else s

def add (s : SelectState Priority) (iter : Uint256) (e : CTxMemPoolEntry) : SelectState Priority :=
  { s with vtx := s.vtx ++ [e.tx]
           vTxFees := s.vTxFees ++ [e.nFee]
           vTxSigOps := s.vTxSigOps ++ [e.sigOpCount]
           nBlockSize := s.nBlockSize + e.getTxSize
           nBlockSigOps := s.nBlockSigOps + e.sigOpCount
           nFees := s.nFees + e.nFee
           inBlock := insert iter s.inBlock }

/-- A child that waited goes back into the queue of the current phase. -/
def release (s : SelectState Priority) (child : Uint256) : SelectState Priority :=
  if s.fPriorityBlock then
    match s.waitPriMap.lookup child with
    | none => s
    | some dPriority =>
      { s with vecPriority := (dPriority,child)::s.vecPriority
               waitPriMap := s.waitPriMap.erase child }
  else if child ∈ s.waitSet then
    { s with clearedTxs := child::s.clearedTxs, waitSet := s.waitSet.erase child }
  else s

end SelectState

namespace MinerContext

/-- An entry whose parents are all in the block. The answer is whether the loop goes on. -/
def tryAdd (ctx : MinerContext Priority) (pool : CTxMemPool) (iter : Uint256) (e : CTxMemPoolEntry)
    (priorityTx : Bool) (s : SelectState Priority) : Outcome (SelectState Priority × Bool) :=
  let nTxSize := e.getTxSize
  let s := s.endPriority ctx nTxSize
  if !priorityTx && (decide (e.getModifiedFee < ctx.minRelayTxFee.getFee nTxSize) &&
      decide (s.nBlockSize ≥ ctx.args.nBlockMinSize)) then .ok (s,false)
  else if s.nBlockSize + nTxSize ≥ ctx.args.nBlockMaxSize then
    if s.nBlockSize > ctx.args.nBlockMaxSize - 100 ∨ s.lastFewTxs > 50 then .ok (s,false)
    else if s.nBlockSize > ctx.args.nBlockMaxSize - 1000 then
      .ok ({ s with lastFewTxs := s.lastFewTxs + 1 },true)
    else .ok (s,true)
  else if !isFinalTx e.tx ctx.nHeight ctx.nLockTimeCutoff then .ok (s,true)
  else if s.nBlockSigOps + e.sigOpCount ≥ MAX_BLOCK_SIGOPS then
    .ok (s,!decide (s.nBlockSigOps > MAX_BLOCK_SIGOPS - 2))
  else do
    let children ← pool.getMemPoolChildren iter
    pure ((hashOrder.list children).foldl SelectState.release (s.add iter e),true)

/-- What is done with the entry that was picked. -/
def consider (ctx : MinerContext Priority) (pool : CTxMemPool) (p : Picked Priority) :
    Outcome (SelectState Priority × Bool) :=
  if p.iter ∈ p.s.inBlock then .ok (p.s,true)
  else do
    let e ← pool.entry p.iter
    let parents ← pool.getMemPoolParents p.iter
    if parents ⊆ p.s.inBlock then ctx.tryAdd pool p.iter e p.priorityTx p.s
    else pure (p.s.postpone p.iter p.priorityTx,true)

/-- There is no answer if the rounds do not suffice. -/
def selectLoop (ctx : MinerContext Priority) (pool : CTxMemPool) :
    ℕ → SelectState Priority → Outcome (Option (SelectState Priority))
  | 0,_ => .ok none
  | fuel + 1,s =>
    if s.mi = [] ∧ s.clearedTxs = [] then .ok (some s)
    else do
      let p ← ctx.pick pool s
      let (s,again) ← ctx.consider pool p
      if again then selectLoop ctx pool fuel s else pure (some s)

def selectStart (ctx : MinerContext Priority) (pool : CTxMemPool) : SelectState Priority :=
  let its := hashOrder.list pool.mapTx.keys
  let fPriorityBlock := decide (ctx.args.nBlockPrioritySize > 0)
  { vecPriority := if fPriorityBlock then its.map fun it => (ctx.priority it,it) else []
    mi := its.insertionSort fun a b => ctx.byScore pool a b
    actualPriority := ctx.actualPriority
    fPriorityBlock }

/-- More rounds than the loop can make. -/
def selectRounds (pool : CTxMemPool) : ℕ :=
  (pool.mapTx.keys.card + 1) * (pool.mapTx.keys.card + 2)

def selectTxs (ctx : MinerContext Priority) (pool : CTxMemPool) :
    Outcome (Option (SelectState Priority)) :=
  ctx.selectLoop pool (selectRounds pool) (ctx.selectStart pool)

end MinerContext
end Sidechain
