import Sidechain.Chain.BlockIndex
import Sidechain.Coins.View
import Sidechain.Library.Worklist
import Mathlib.Data.Finmap
import Mathlib.Data.List.Lex

/-! Relative lock times of a transaction that is to go into the next block, computed from the coins of
the tip and of the pool and kept as lock points, and the entries of the memory pool with what they
record of their descendants. Sums of amounts are integers: where an `int64_t` overflows the source is
undefined. -/
namespace Sidechain

/-- The entries of the active chain, the tip first. -/
structure CChain where
  entries : List BlockEntry
  deriving DecidableEq, Repr

namespace CChain

def tip (chain : CChain) : Option CBlockIndex := CBlockIndex.ofPath chain.entries

/-- `chainActive[nHeight]`. -/
def get (chain : CChain) (nHeight : ℤ) : Option CBlockIndex :=
  chain.tip.bind fun tip => tip.getAncestor nHeight

def contains (chain : CChain) (pindex : CBlockIndex) : Bool :=
  chain.get pindex.nHeight == some pindex

/-- The entry `CheckSequenceLocks` makes up for the next block; only its ancestors are set. -/
def nextIndex (chain : CChain) : CBlockIndex := ⟨none,0,0,chain.entries⟩

end CChain

/-- The height of coins that are only in the pool. -/
def MEMPOOL_HEIGHT : ℕ := 0x7FFFFFFF

/-- The pool, as far as it is looked up, over a view of confirmed coins. -/
structure CCoinsViewMemPool where
  base : CCoinsViewCache
  lookup : Uint256 → Option CTransaction

def CCoinsViewMemPool.getCoins (view : CCoinsViewMemPool) (txid : Uint256) : Option CCoins :=
  match view.lookup txid with
  | some tx => some (CCoins.fromTx tx MEMPOOL_HEIGHT)
  | none => (view.base.getCoins txid).filter fun coins => !coins.isPruned

structure LockPoints where
  height : ℤ := 0
  time : ℤ := 0
  maxInputBlock : Option CBlockIndex := none
  deriving DecidableEq, Repr

def testLockPointValidity (chain : CChain) (lp : LockPoints) : Bool :=
  match lp.maxInputBlock with
  | none => true
  | some maxInputBlock => chain.contains maxInputBlock

def CTxIn.lockDisabled (txin : CTxIn) : Bool :=
  decide (txin.nSequence.toNat &&& SEQUENCE_LOCKTIME_DISABLE_FLAG ≠ 0)

def CTransaction.enforceBIP68 (tx : CTransaction) (fVerifySequence : Bool) : Bool :=
  decide (2 ≤ tx.nVersion.toBitVec.toNat) && fVerifySequence

/-- The heights as `CalculateSequenceLocks` leaves them: zero for an input without a lock. -/
def lockedHeights (tx : CTransaction) (fVerifySequence : Bool) (prevHeights : List ℕ) : List ℕ :=
  if tx.enforceBIP68 fVerifySequence then
    (tx.vin.zip prevHeights).map fun input => if input.1.lockDisabled then 0 else input.2
  else prevHeights

/-- The highest of the inputs that are in a block. -/
def maxInputHeight (tip : CBlockIndex) (prevheights : List ℕ) : ℕ :=
  prevheights.foldl (fun maxInputHeight height =>
    if height ≠ tip.nHeight + 1 then max maxInputHeight height else maxInputHeight) 0

/-- A transaction of the pool is taken to be confirmed by the next block. -/
def inputHeight (view : CCoinsViewMemPool) (tip : CBlockIndex) (txin : CTxIn) : Option ℕ :=
  (view.getCoins txin.prevout.hash).map fun coins =>
    if coins.nHeight = MEMPOOL_HEIGHT then tip.nHeight + 1 else coins.nHeight

/-- The verdict, and the lock points if they are asked for. -/
def checkSequenceLocks (chain : CChain) (view : CCoinsViewMemPool) (tx : CTransaction)
    (fVerifySequence : Bool) (lp : Option LockPoints) (useExistingLockPoints : Bool) :
    Outcome (Bool × Option LockPoints) :=
  match chain.tip with
  | none => .error (.undefined "tip->nHeight")
  | some tip =>
    if useExistingLockPoints then
      match lp with
      | none => .error (.assertion "lp")
      | some points => do
        let fFinal ← evaluateSequenceLocks chain.nextIndex ⟨points.height,points.time⟩
        pure (fFinal,lp)
    else
      match tx.vin.mapM (inputHeight view tip) with
      | none => .ok (false,lp)
      | some prevheights => do
        let lockPair ← calculateSequenceLocks tx fVerifySequence prevheights chain.nextIndex
        let height := maxInputHeight tip (lockedHeights tx fVerifySequence prevheights)
        let fFinal ← evaluateSequenceLocks chain.nextIndex lockPair
        pure (fFinal,lp.map fun _ => ⟨lockPair.height,lockPair.time,tip.getAncestor height⟩)

/-- What `removeForReorg` asks of the locks of an entry: its lock points are used while they are
valid, and computed anew if not. -/
def reorgSequenceLocks (chain : CChain) (view : CCoinsViewMemPool) (tx : CTransaction)
    (fVerifySequence : Bool) (lp : LockPoints) : Outcome (Bool × Option LockPoints) :=
  checkSequenceLocks chain view tx fVerifySequence (some lp) (testLockPointValidity chain lp)

open Codec Worklist

/-- The value of an `int64_t` where it is converted to `uint64_t`. -/
def asUInt64 (n : ℤ) : ℕ := (n % 2^64).toNat

structure CFeeRate where
  nSatoshisPerK : ℤ := 0
  deriving DecidableEq, Repr

namespace CFeeRate

/-- The size is unsigned, so the fee is divided as an unsigned number. -/
def ofFee (nFeePaid : ℤ) (nSize : ℕ) : CFeeRate :=
  if nSize > 0 then ⟨((asUInt64 (nFeePaid * 1000) / nSize : ℕ) : ℤ).bmod (2^64)⟩ else ⟨0⟩

def getFee (rate : CFeeRate) (nSize : ℕ) : ℤ :=
  let nFee : ℤ := (asUInt64 (rate.nSatoshisPerK * nSize) / 1000 : ℕ)
  if nFee = 0 ∧ rate.nSatoshisPerK > 0 then rate.nSatoshisPerK else nFee

end CFeeRate

structure CTxMemPoolEntry where
  tx : CTransaction
  nFee : ℤ
  nTime : ℤ
  spendsCoinbase : Bool
  sigOpCount : ℕ
  lockPoints : LockPoints
  feeDelta : ℤ := 0
  nCountWithDescendants : ℤ := 1
  nSizeWithDescendants : ℤ
  nModFeesWithDescendants : ℤ
  deriving DecidableEq, Repr

namespace CTxMemPoolEntry

def create (tx : CTransaction) (nFee nTime : ℤ) (spendsCoinbase : Bool) (sigOpCount : ℕ)
    (lockPoints : LockPoints) : CTxMemPoolEntry :=
  { tx, nFee, nTime, spendsCoinbase, sigOpCount, lockPoints,
    nSizeWithDescendants := tx.getSerializeSize, nModFeesWithDescendants := nFee }

def getTxSize (e : CTxMemPoolEntry) : ℕ := e.tx.getSerializeSize

def getModifiedFee (e : CTxMemPoolEntry) : ℤ := e.nFee + e.feeDelta

def updateFeeDelta (e : CTxMemPoolEntry) (newFeeDelta : ℤ) : CTxMemPoolEntry :=
  { e with nModFeesWithDescendants := e.nModFeesWithDescendants + (newFeeDelta - e.feeDelta)
           feeDelta := newFeeDelta }

/-- An entry without descendant state. -/
def isDirty (e : CTxMemPoolEntry) : Bool := e.nCountWithDescendants == 0

def updateState (e : CTxMemPoolEntry) (modifySize modifyFee modifyCount : ℤ) :
    Outcome CTxMemPoolEntry :=
  if e.isDirty then .ok e
  else do
    let nSizeWithDescendants := e.nSizeWithDescendants + modifySize
    require (nSizeWithDescendants > 0) (.error (.assertion "int64_t(nSizeWithDescendants) > 0"))
    let nCountWithDescendants := e.nCountWithDescendants + modifyCount
    require (nCountWithDescendants > 0) (.error (.assertion "int64_t(nCountWithDescendants) > 0"))
    pure { e with nSizeWithDescendants, nCountWithDescendants
                  nModFeesWithDescendants := e.nModFeesWithDescendants + modifyFee }

end CTxMemPoolEntry

/-- Hashes are compared byte by byte, as they lie in memory. -/
def hashLe (a b : Uint256) : Prop := digitsLE 256 32 a.toNat ≤ digitsLE 256 32 b.toNat

instance hashLe_decidable : DecidableRel hashLe := fun a b =>
  inferInstanceAs (Decidable (digitsLE 256 32 a.toNat ≤ digitsLE 256 32 b.toNat))

instance hashLe_trans : IsTrans Uint256 hashLe := ⟨fun _ _ _ h k => le_trans (α := List ℕ) h k⟩

instance hashLe_total : Std.Total hashLe := ⟨fun _ _ => le_total (α := List ℕ) _ _⟩

instance hashLe_antisymm : Std.Antisymm hashLe where
  antisymm a b hab hba := by
    have h := congrArg (Nat.ofDigits 256) (le_antisymm (α := List ℕ) hab hba)
    have hpow : 256^32 = 2^256 := by norm_num
    rw [ofDigits_digitsLE,ofDigits_digitsLE,hpow,Nat.mod_eq_of_lt a.isLt,
      Nat.mod_eq_of_lt b.isLt] at h
    exact BitVec.eq_of_toNat_eq h

/-- The order of a set of hashes, and of entries by their hash. -/
def hashOrder : Enumeration Uint256 := .ofOrder hashLe

end Sidechain
