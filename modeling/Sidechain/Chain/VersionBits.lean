import Sidechain.Chain.BlockIndex
import Mathlib.Data.Finmap

/-! The state of a soft fork deployment as `GetStateFor` computes it with a cache: back to a block
whose state is known, then forward again. Entries are keys by their value, heights are naturals. -/
namespace Sidechain

inductive ThresholdState where
  | DEFINED
  | STARTED
  | LOCKED_IN
  | ACTIVE
  | FAILED
  deriving DecidableEq, Repr

abbrev ThresholdConditionCache := Finmap fun _ : Option CBlockIndex => ThresholdState

structure AbstractThresholdConditionChecker where
  condition : CBlockIndex → Bool
  beginTime : ℤ
  endTime : ℤ
  period : ℕ
  threshold : ℤ

namespace AbstractThresholdConditionChecker

variable (checker : AbstractThresholdConditionChecker)

/-- The blocks left to look at, the next of them and the number that met the condition. -/
def countLoop : ℕ → Option CBlockIndex → ℤ → Outcome ℤ
  | 0,_,count => .ok count
  | _ + 1,none,_ => .error (.undefined "Condition(NULL)")
  | n + 1,some pindexCount,count =>
    countLoop n pindexCount.pprev (if checker.condition pindexCount then count + 1 else count)

def stateNext (state : ThresholdState) (pindexPrev : CBlockIndex) : Outcome ThresholdState :=
  match state with
  | .DEFINED =>
    if pindexPrev.getMedianTimePast ≥ checker.endTime then .ok .FAILED
    else if pindexPrev.getMedianTimePast ≥ checker.beginTime then .ok .STARTED
    else .ok state
  | .STARTED =>
    if pindexPrev.getMedianTimePast ≥ checker.endTime then .ok .FAILED
    else do
      let count ← checker.countLoop checker.period (some pindexPrev) 0
      pure (if count ≥ checker.threshold then .LOCKED_IN else state)
  | .LOCKED_IN => .ok .ACTIVE
  | .FAILED => .ok state
  | .ACTIVE => .ok state

/-- The walk in steps of a period; `vToCompute` has the block pushed last in front. -/
def walkBack : ℕ → ThresholdConditionCache → Option CBlockIndex → List CBlockIndex →
    ThresholdConditionCache × Option CBlockIndex × List CBlockIndex
  | 0,cache,pindexPrev,vToCompute => (cache,pindexPrev,vToCompute)
  | fuel + 1,cache,pindexPrev,vToCompute =>
    if pindexPrev ∈ cache then (cache,pindexPrev,vToCompute)
    else match pindexPrev with
      | none => (cache.insert none .DEFINED,none,vToCompute)
      | some pindex =>
        if pindex.getMedianTimePast < checker.beginTime then
          (cache.insert (some pindex) .DEFINED,some pindex,vToCompute)
        else walkBack fuel cache (pindex.getAncestor (pindex.nHeight - checker.period))
          (pindex::vToCompute)

def walkForward : List CBlockIndex → ThresholdState → ThresholdConditionCache →
    Outcome (ThresholdState × ThresholdConditionCache)
  | [],state,cache => .ok (state,cache)
  | pindexPrev::vToCompute,state,cache => do
    let state ← checker.stateNext state pindexPrev
    walkForward vToCompute state (cache.insert (some pindexPrev) state)

/-- From where the walk back has ended. -/
def computeStates : ThresholdConditionCache × Option CBlockIndex × List CBlockIndex →
    Outcome (ThresholdState × ThresholdConditionCache)
  | (cache,pindexPrev,vToCompute) =>
    match cache.lookup pindexPrev with
    | none => .error (.assertion "cache.count(pindexPrev)")
    | some state => checker.walkForward vToCompute state cache

/-- The last block whose height is a multiple of the period less one. -/
def periodEnd : Option CBlockIndex → Outcome (Option CBlockIndex)
  | none => .ok none
  | some pindexPrev =>
    if checker.period = 0 then .error (.undefined "% nPeriod")
    else .ok (pindexPrev.getAncestor
      ((pindexPrev.nHeight : ℤ) - ((pindexPrev.nHeight + 1) % checker.period : ℕ)))

/-- Rounds enough for a walk back over every ancestor. -/
def rounds : Option CBlockIndex → ℕ
  | none => 1
  | some pindexPrev => pindexPrev.nHeight + 2

def getStateFor (pindexPrev : Option CBlockIndex) (cache : ThresholdConditionCache) :
    Outcome (ThresholdState × ThresholdConditionCache) := do
  let pindexPrev ← checker.periodEnd pindexPrev
  checker.computeStates (checker.walkBack (rounds pindexPrev) cache pindexPrev [])

/-- Queries one after another that share a cache. -/
def getStatesFor : List (Option CBlockIndex) → ThresholdConditionCache →
    Outcome (List ThresholdState × ThresholdConditionCache)
  | [],cache => .ok ([],cache)
  | pindexPrev::queries,cache => do
    let (state,cache) ← checker.getStateFor pindexPrev cache
    let (states,cache) ← getStatesFor queries cache
    pure (state::states,cache)

end AbstractThresholdConditionChecker

def VERSIONBITS_TOP_BITS : BitVec 32 := 0x20000000
def VERSIONBITS_TOP_MASK : BitVec 32 := 0xE0000000

/-- `Consensus::BIP9Deployment`. -/
structure BIP9Deployment where
  bit : ℕ
  nStartTime : ℤ
  nTimeout : ℤ
  deriving DecidableEq, Repr

namespace BIP9Deployment

def mask (deployment : BIP9Deployment) : BitVec 32 := 1#32 <<< deployment.bit

def condition (deployment : BIP9Deployment) (pindex : CBlockIndex) : Bool :=
  pindex.nVersion.toBitVec &&& VERSIONBITS_TOP_MASK == VERSIONBITS_TOP_BITS &&
    pindex.nVersion.toBitVec &&& deployment.mask != 0

/-- `VersionBitsConditionChecker`. -/
def checker (deployment : BIP9Deployment) (nMinerConfirmationWindow : ℕ)
    (nRuleChangeActivationThreshold : ℤ) : AbstractThresholdConditionChecker where
  condition := deployment.condition
  beginTime := deployment.nStartTime
  endTime := deployment.nTimeout
  period := nMinerConfirmationWindow
  threshold := nRuleChangeActivationThreshold

end BIP9Deployment

end Sidechain
