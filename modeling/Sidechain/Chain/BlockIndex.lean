import Sidechain.Primitives.Transaction
import Sidechain.Primitives.Outcome
import Sidechain.Script.Interpreter
import Mathlib.Logic.Function.Basic
import Mathlib.Data.List.Sort

/-! Blocks with their wire format, hash, merkle root and proof of work; the entries of the block index
with their ancestors, and what block validation reads from them; the chain for regression tests. -/
namespace Sidechain

structure CBlockHeader where
  nVersion : Int32 := 0
  hashPrevBlock : Uint256 := 0
  hashMerkleRoot : Uint256 := 0
  nTime : UInt32 := 0
  nBits : UInt32 := 0
  nNonce : UInt32 := 0
  deriving DecidableEq, Repr

structure CBlock extends CBlockHeader where
  vtx : List CTransaction := []
  deriving DecidableEq, Repr

def CBlockHeader.serialize (h : CBlockHeader) : Bytes :=
  serializeBits 4 h.nVersion.toBitVec ++ (serializeBits 32 h.hashPrevBlock ++
    (serializeBits 32 h.hashMerkleRoot ++ (serializeBits 4 h.nTime.toBitVec ++
      (serializeBits 4 h.nBits.toBitVec ++ serializeBits 4 h.nNonce.toBitVec))))

def CBlock.serialize (block : CBlock) : Bytes :=
  block.toCBlockHeader.serialize ++ serializeVector CTransaction.serialize block.vtx

def CBlock.getSerializeSize (block : CBlock) : ℕ := block.serialize.length

def CBlockHeader.getHash [Crypto] (h : CBlockHeader) : Uint256 := Crypto.hash256 h.serialize

def CBlockHeader.getBlockTime (h : CBlockHeader) : ℤ := h.nTime.toNat

theorem CBlock.size_of_mem {block : CBlock} {tx : CTransaction} (h : tx ∈ block.vtx) :
    tx.getSerializeSize ≤ block.getSerializeSize := by
  have htx := length_le_flatMap_of_mem CTransaction.serialize h
  simp only [CBlock.getSerializeSize,CBlock.serialize,serializeVector,List.length_append,
    CTransaction.getSerializeSize]
  omega

section
variable [Crypto]

/-- The hash of two adjacent nodes. -/
def hashPair (l r : Uint256) : Uint256 := Crypto.hash256 (serializeBits 32 l ++ serializeBits 32 r)

/-- From a level up, combine a hash with the inner values of the levels whose bit in `count` is
not set, and note whether two equal hashes were combined. -/
def combineLevels (inner : ℕ → Uint256) (count : ℕ) : ℕ → ℕ → Uint256 → Bool → ℕ × Uint256 × Bool
  | 0,level,h,mutated => (level,h,mutated)
  | fuel+1,level,h,mutated =>
    if count.testBit level then (level,h,mutated)
    else combineLevels inner count fuel (level + 1) (hashPair (inner level) h)
      (mutated || inner level == h)

/-- The eagerly computed subtree hashes, by tree level, of the leaves counted so far. -/
structure MerkleState where
  inner : ℕ → Uint256 := fun _ => 0
  count : ℕ := 0
  mutated : Bool := false

/-- There are 32 levels. -/
def merkleLeaf (s : MerkleState) (leaf : Uint256) : MerkleState :=
  let count := s.count + 1
  let (level,h,mutated) := combineLevels s.inner count 32 0 leaf s.mutated
  ⟨Function.update s.inner level h,count,mutated⟩

def lowestLevel (count : ℕ) : ℕ → ℕ → ℕ
  | 0,level => level
  | fuel+1,level => if count.testBit level then level else lowestLevel count fuel (level + 1)

/-- The final sweep over the rightmost branch; an inner value that is not the top is combined
with itself. -/
def merkleSweep (inner : ℕ → Uint256) : ℕ → ℕ → ℕ → Uint256 → Uint256
  | 0,_,_,h => h
  | fuel+1,count,level,h =>
    if count = 2^level then h
    else
      let count := count + 2^level
      let (level,h,_) := combineLevels inner count 32 (level + 1) (hashPair h h) false
      merkleSweep inner fuel count level h

/-- `MerkleComputation` without a branch: the root, and whether the list was mutated. -/
def computeMerkleRoot (leaves : List Uint256) : Uint256 × Bool :=
  if leaves.isEmpty then (0,false)
  else
    let s := leaves.foldl merkleLeaf {}
    let level := lowestLevel s.count 32 0
    (merkleSweep s.inner 32 s.count level (s.inner level),s.mutated)

def blockMerkleRoot (block : CBlock) : Uint256 × Bool :=
  computeMerkleRoot (block.vtx.map CTransaction.getHash)

end

/-- The value a compact number stands for, whether it is negative and whether it overflows. -/
def setCompact (nCompact : UInt32) : Uint256 × Bool × Bool :=
  let nSize := (nCompact >>> 24).toNat
  let nMantissa := (nCompact &&& 0x007fffff).toNat
  let nWord := if nSize ≤ 3 then nMantissa >>> (8 * (3 - nSize)) else nMantissa
  let value : Uint256 := if nSize ≤ 3 then BitVec.ofNat 256 nWord
    else BitVec.ofNat 256 nWord <<< (8 * (nSize - 3))
  (value,nWord != 0 && nCompact &&& 0x00800000 != 0,
    nWord != 0 && (decide (nSize > 34) || (decide (nWord > 0xff) && decide (nSize > 33)) ||
      (decide (nWord > 0xffff) && decide (nSize > 32))))

def checkProofOfWork (hash : Uint256) (nBits : UInt32) (powLimit : Uint256) : Bool :=
  let (bnTarget,fNegative,fOverflow) := setCompact nBits
  !(fNegative || bnTarget == 0 || fOverflow || decide (powLimit < bnTarget)) &&
    !decide (bnTarget < hash)

/-- The part of an ancestor's index entry that descendants read. -/
structure BlockEntry where
  hash : Uint256
  nVersion : Int32
  nTime : UInt32
  deriving DecidableEq, Repr

/-- An index entry and its ancestors, nearest first. Only an entry made for a test of validity has
no hash, so an ancestor always has one. -/
structure CBlockIndex where
  phashBlock : Option Uint256
  nVersion : Int32
  nTime : UInt32
  ancestors : List BlockEntry
  deriving DecidableEq, Repr

namespace CBlockIndex

def nHeight (pindex : CBlockIndex) : ℕ := pindex.ancestors.length

/-- The entry that a path to genesis starts with. -/
def ofPath : List BlockEntry → Option CBlockIndex
  | [] => none
  | e::ancestors => some ⟨some e.hash,e.nVersion,e.nTime,ancestors⟩

def pprev (pindex : CBlockIndex) : Option CBlockIndex := ofPath pindex.ancestors

def getBlockHash (pindex : CBlockIndex) : Outcome Uint256 :=
  match pindex.phashBlock with
  | some hash => .ok hash
  | none => .error (.undefined "*phashBlock")

@[simp] theorem getBlockHash_ok {pindex : CBlockIndex} {hash : Uint256} :
    pindex.getBlockHash = .ok hash ↔ pindex.phashBlock = some hash := by
  unfold getBlockHash
  cases pindex.phashBlock <;> simp

def getBlockTime (pindex : CBlockIndex) : ℤ := pindex.nTime.toNat

def getAncestor (pindex : CBlockIndex) (height : ℤ) : Option CBlockIndex :=
  if height > pindex.nHeight ∨ height < 0 then none
  else if height = pindex.nHeight then some pindex
  else ofPath (pindex.ancestors.drop (pindex.nHeight - 1 - height.toNat))

def nMedianTimeSpan : ℕ := 11

def getMedianTimePast (pindex : CBlockIndex) : ℤ :=
  let times := (pindex.nTime.toNat :: pindex.ancestors.map fun e => e.nTime.toNat).take
    nMedianTimeSpan
  let sorted := times.insertionSort (· ≤ ·)
  (sorted.getD (sorted.length / 2) 0 : ℕ)

/-- The entry a new block gets on top of this one. -/
def child (prev : CBlockIndex) (prevHash : Uint256) (block : CBlockHeader)
    (phashBlock : Option Uint256) : CBlockIndex :=
  ⟨phashBlock,block.nVersion,block.nTime,⟨prevHash,prev.nVersion,prev.nTime⟩ :: prev.ancestors⟩

end CBlockIndex

/-- The fields of `Consensus::Params` that block validation reads. -/
structure Params where
  hashGenesisBlock : Uint256
  nMajorityEnforceBlockUpgrade : ℕ
  nMajorityWindow : ℕ
  BIP34Height : ℤ
  BIP34Hash : Uint256
  powLimit : Uint256
  deriving DecidableEq, Repr

/-- Of the last blocks before the new one, enough have at least a given version. -/
def isSuperMajority (minVersion : Int32) (pstart : Option CBlockIndex) (nRequired : ℕ)
    (consensusParams : Params) : Bool :=
  match pstart with
  | none => nRequired == 0
  | some pstart =>
    let versions := (pstart.nVersion :: pstart.ancestors.map BlockEntry.nVersion).take
      consensusParams.nMajorityWindow
    decide (nRequired ≤ versions.countP fun nVersion => decide (minVersion ≤ nVersion))

/-- The `-1` of both means that any height and time will do. -/
structure LockPair where
  height : ℤ := -1
  time : ℤ := -1
  deriving DecidableEq, Repr

def SEQUENCE_LOCKTIME_GRANULARITY : ℕ := 9

/-- One round of the loop over the inputs. -/
def sequenceLock (block : CBlockIndex) (lock : LockPair) (input : CTxIn × ℕ) : Outcome LockPair :=
  let nSequence := input.1.nSequence.toNat
  let nCoinHeight := input.2
  let masked := nSequence &&& SEQUENCE_LOCKTIME_MASK
  if nSequence &&& SEQUENCE_LOCKTIME_DISABLE_FLAG ≠ 0 then .ok lock
  else if nSequence &&& SEQUENCE_LOCKTIME_TYPE_FLAG ≠ 0 then
    match block.getAncestor (nCoinHeight - 1 : ℕ) with
    | none => .error (.undefined "block.GetAncestor(...)->GetMedianTimePast()")
    | some ancestor =>
      let nMinTime := ancestor.getMedianTimePast +
        ((masked <<< SEQUENCE_LOCKTIME_GRANULARITY : ℕ) : ℤ) - 1
      .ok { lock with time := max lock.time nMinTime }
  else .ok { lock with height := max lock.height (nCoinHeight + masked - 1) }

def calculateSequenceLocks (tx : CTransaction) (fVerifySequence : Bool) (prevHeights : List ℕ)
    (block : CBlockIndex) : Outcome LockPair :=
  if decide (2 ≤ tx.nVersion.toBitVec.toNat) && fVerifySequence then
    (tx.vin.zip prevHeights).foldlM (sequenceLock block) {}
  else .ok {}

def evaluateSequenceLocks (block : CBlockIndex) (lockPair : LockPair) : Outcome Bool :=
  match block.pprev with
  | none => .error (.assertion "block.pprev")
  | some pprev =>
    .ok (!(decide (lockPair.height ≥ block.nHeight) ||
      decide (lockPair.time ≥ pprev.getMedianTimePast)))

def sequenceLocks (tx : CTransaction) (fVerifySequence : Bool) (prevHeights : List ℕ)
    (block : CBlockIndex) : Outcome Bool := do
  let lockPair ← calculateSequenceLocks tx fVerifySequence prevHeights block
  evaluateSequenceLocks block lockPair

/-- The headline that dates the genesis block. -/
def pszTimestamp : Bytes :=
  [0x54,0x68,0x65,0x20,0x54,0x69,0x6d,0x65,0x73,0x20,0x30,0x33,0x2f,0x4a,0x61,0x6e,
   0x2f,0x32,0x30,0x30,0x39,0x20,0x43,0x68,0x61,0x6e,0x63,0x65,0x6c,0x6c,0x6f,0x72,
   0x20,0x6f,0x6e,0x20,0x62,0x72,0x69,0x6e,0x6b,0x20,0x6f,0x66,0x20,0x73,0x65,0x63,
   0x6f,0x6e,0x64,0x20,0x62,0x61,0x69,0x6c,0x6f,0x75,0x74,0x20,0x66,0x6f,0x72,0x20,
   0x62,0x61,0x6e,0x6b,0x73]

def genesisOutputScript : CScript :=
  pushData [0x04,0x67,0x8a,0xfd,0xb0,0xfe,0x55,0x48,0x27,0x19,0x67,0xf1,0xa6,0x71,0x30,0xb7,
    0x10,0x5c,0xd6,0xa8,0x28,0xe0,0x39,0x09,0xa6,0x79,0x62,0xe0,0xea,0x1f,0x61,0xde,
    0xb6,0x49,0xf6,0xbc,0x3f,0x4c,0xef,0x38,0xc4,0xf3,0x55,0x04,0xe5,0x1e,0xc1,0x12,
    0xde,0x5c,0x38,0x4d,0xf7,0xba,0x0b,0x8d,0x57,0x8a,0x4c,0x70,0x2b,0x6b,0xf1,0x1d,
    0x5f]
    ++ [OP_CHECKSIG]

/-- The only transaction of the genesis block. Its output is never added to the coins. -/
def genesisTx (genesisReward : CAmount) : CTransaction :=
  { vin := [{ prevout := .null
              scriptSig := pushInt64 486604799 ++ pushData (CScriptNum.serialize 4) ++
                pushData pszTimestamp }]
    vout := [⟨genesisReward,genesisOutputScript⟩] }

def createGenesisBlock [Crypto] (nTime nNonce nBits : UInt32) (nVersion : Int32)
    (genesisReward : CAmount) : CBlock :=
  let genesis : CBlock := { nTime, nBits, nNonce, nVersion, vtx := [genesisTx genesisReward] }
  { genesis with hashMerkleRoot := (blockMerkleRoot genesis).1 }

def regTestParams : Params where
  hashGenesisBlock := 0x0f9188f13cb7b2c71f2a335e3a4fc328bf5beb436012afca590b1a11466e2206
  nMajorityEnforceBlockUpgrade := 750
  nMajorityWindow := 1000
  BIP34Height := -1
  BIP34Hash := 0
  powLimit := 0x7fffffffffffffffffffffffffffffffffffffffffffffffffffffffffffffff

def regTestGenesis [Crypto] : CBlock := createGenesisBlock 1296688602 2 0x207fffff 1 (50 * COIN)

/-- The header of that block. -/
def regTestHeader : CBlockHeader where
  nVersion := 1
  hashMerkleRoot := 0x4a5e1e4baab89f3a32518a88c31bc87f618f76673e2cc77ab2127b7afdeda33b
  nTime := 1296688602
  nBits := 0x207fffff
  nNonce := 2

/-- Hash functions that also know the genesis block. -/
@[reducible] def regTestCrypto (table : List (Bytes × Uint256)) : Crypto := tableCrypto
  (((genesisTx (50 * COIN)).serialize,regTestHeader.hashMerkleRoot) ::
    (regTestHeader.serialize,regTestParams.hashGenesisBlock) :: table)

/-- A later block of a chain for regression tests. -/
def regTestBlock (hashPrevBlock hashMerkleRoot : Uint256) (nTime nNonce : UInt32)
    (vtx : List CTransaction) : CBlock :=
  { nVersion := 0x20000000, hashPrevBlock, hashMerkleRoot, nTime, nBits := 0x207fffff, nNonce, vtx }

end Sidechain
