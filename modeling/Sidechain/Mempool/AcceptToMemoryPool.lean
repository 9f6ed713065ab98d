import Sidechain.Mempool.TxMemPool
import Sidechain.Validation.ConnectBlock
import Sidechain.Validation.ScriptFlags

/-! Accepting a loose transaction into the pool, with the transactions it replaces. Policy code and
answers that depend on clocks, memory and floating-point priorities are given. -/
namespace Sidechain
open Run

def REJECT_DUPLICATE : ℕ := 0x12
def REJECT_INSUFFICIENTFEE : ℕ := 0x42
def REJECT_HIGHFEE : ℕ := 0x100
def REJECT_ALREADY_KNOWN : ℕ := 0x101
def REJECT_CONFLICT : ℕ := 0x102

def MAX_STANDARD_TX_SIGOPS : ℕ := MAX_BLOCK_SIGOPS / 5

/-- How many descendants the replaced transactions may have together. -/
def maxDescendantsToVisit : ℤ := 100

/-- The options of the node and the answers of its policy code. -/
structure MempoolPolicy where
  fRequireStandard : Bool := true
  isStandardTx : CTransaction → Except String Unit := fun _ => .ok ()
  areInputsStandard : CTransaction → CCoinsViewCache → Bool := fun _ _ => true
  csvActive : Bool := true
  fEnableReplacement : Bool := true
  nBytesPerSigOp : ℕ := 20
  minRelayTxFee : CFeeRate := ⟨1000⟩
  getMinFee : CTxMemPool → ℕ → CFeeRate := fun _ _ => ⟨0⟩
  relaypriority : Bool := true
  allowFree : CTransaction → CCoinsViewCache → Bool := fun _ _ => false
  rateLimited : Bool := false
  limits : CTxMemPool.AncestorLimits := ⟨some 25,some 101000,some 25,some 101000⟩
  maxmempool : ℕ := 300000000
  mempoolexpiry : ℤ := 72 * 60 * 60
  dynamicMemoryUsage : CTxMemPool → ℕ := fun _ => 0
  lowest : CTxMemPool → Option Uint256 := fun _ => none

/-- The chain a transaction is to extend, and the time. -/
structure ChainTip where
  chainActive : CChain
  pcoinsTip : CCoinsViewCache
  mapBlockIndex : Uint256 → Option ℕ
  time : ℤ

structure AcceptArgs where
  fLimitFree : Bool := true
  fOverrideMempoolLimit : Bool := false
  fRejectAbsurdFee : Bool := false

/-- In the next block, by the median time past. -/
def checkFinalTx (chain : CChain) (tx : CTransaction) : Outcome Bool :=
  match chain.tip with
  | none => .error (.undefined "chainActive.Tip()->GetMedianTimePast()")
  | some tip => .ok (isFinalTx tx chain.entries.length tip.getMedianTimePast)

namespace CTxMemPool

def coins (pool : CTxMemPool) (tip : ChainTip) : CCoinsViewMemPool := ⟨tip.pcoinsTip,pool.lookup⟩

/-- The cache that is made for one transaction. -/
def view (pool : CTxMemPool) (tip : ChainTip) : CCoinsViewCache :=
  { base := ⟨(pool.coins tip).getCoins,tip.pcoinsTip.getBestBlock⟩ }

/-- The delta of `ApplyDeltas`. -/
def feeDelta (pool : CTxMemPool) (hash : Uint256) : ℤ := (pool.mapDeltas.lookup hash).getD 0

end CTxMemPool

section
variable [Crypto] (policy : MempoolPolicy) (tip : ChainTip) (pool : CTxMemPool) (tx : CTransaction)

/-- Nonstandard transactions are not relayed, and new versions only when they can be mined. -/
def checkStandard : Outcome Unit :=
  if policy.fRequireStandard then
    match policy.isStandardTx tx with
    | .error reason => dos 0 REJECT_NONSTANDARD reason
    | .ok () => require (¬ (tx.nVersion ≥ 2 ∧ policy.csvActive = false))
        (dos 0 REJECT_NONSTANDARD "premature-version2-tx")
  else .ok ()

/-- The checks before the inputs are looked at. -/
def checkLoose : Outcome Unit := do
  checkTransaction tx
  require (¬ tx.isCoinBase) (dos 100 REJECT_INVALID "coinbase")
  checkStandard policy tx
  let fFinal ← checkFinalTx tip.chainActive tx
  require fFinal (dos 0 REJECT_NONSTANDARD "non-final")
  require (tx.getHash ∉ pool.mapTx) (invalid REJECT_ALREADY_KNOWN "txn-already-in-mempool")

/-- A transaction can be replaced if one of its inputs says so. -/
def replacementOptOut (conflicting : CTransaction) : Bool :=
  !(policy.fEnableReplacement && conflicting.vin.any fun txin => decide (txin.nSequence < 0xfffffffe))

def collectConflict (setConflicts : Finset Uint256) (txin : CTxIn) : Outcome (Finset Uint256) :=
  match pool.mapNextTx.lookup txin.prevout with
  | none => .ok setConflicts
  | some next =>
    if next.ptx.getHash ∈ setConflicts then .ok setConflicts
    else do
      require (¬ replacementOptOut policy next.ptx) (invalid REJECT_CONFLICT "txn-mempool-conflict")
      pure (insert next.ptx.getHash setConflicts)

/-- The value of the inputs and the lock points; without a result if an input is missing. -/
def readInputs : Outcome (Option (CAmount × LockPoints)) := do
  let view := pool.view tip
  require (¬ view.haveCoins tx.getHash) (invalid REJECT_ALREADY_KNOWN "txn-already-known")
  if tx.vin.any fun txin => !view.haveCoins txin.prevout.hash then pure none
  else do
    require (view.haveInputs tx) (invalid REJECT_DUPLICATE "bad-txns-inputs-spent")
    let nValueIn ← view.getValueIn tx
    let (fFinal,lp) ← checkSequenceLocks tip.chainActive (pool.coins tip) tx true (some {}) false
    require fFinal (dos 0 REJECT_NONSTANDARD "non-BIP68-final")
    pure (some (nValueIn,lp.getD {}))

def spendsCoinbase : Outcome Bool :=
  tx.vin.foldlM (fun found txin =>
    if found then .ok true
    else match (pool.view tip).accessCoins txin.prevout.hash with
      | none => .error (.undefined "coins->IsCoinBase()")
      | some coins => .ok coins.fCoinBase) false

/-- The fees a transaction has to pay whatever it replaces. -/
def checkFees (args : AcceptArgs) (nFees nModifiedFees : ℤ) (nSize : ℕ) : Outcome Unit := do
  let mempoolRejectFee := (policy.getMinFee pool policy.maxmempool).getFee nSize
  let minRelayFee := policy.minRelayTxFee.getFee nSize
  if mempoolRejectFee > 0 ∧ nModifiedFees < mempoolRejectFee then
    dos 0 REJECT_INSUFFICIENTFEE "mempool min fee not met"
  else
    require (¬ (policy.relaypriority ∧ nModifiedFees < minRelayFee ∧
      ¬ policy.allowFree tx (pool.view tip))) (dos 0 REJECT_INSUFFICIENTFEE "insufficient priority")
  require (¬ (args.fLimitFree ∧ nModifiedFees < minRelayFee ∧ policy.rateLimited))
    (dos 0 REJECT_INSUFFICIENTFEE "rate limited free transaction")
  require (¬ (args.fRejectAbsurdFee ∧ nFees > minRelayFee * 10000))
    (invalid REJECT_HIGHFEE "absurdly-high-fee")

/-- The entry of the transaction, which passed all checks of its own. -/
def makeEntry (args : AcceptArgs) (nValueIn : CAmount) (lp : LockPoints) :
    Outcome CTxMemPoolEntry := do
  let view := pool.view tip
  require (¬ (policy.fRequireStandard ∧ ¬ policy.areInputsStandard tx view))
    (invalid REJECT_NONSTANDARD "bad-txns-nonstandard-inputs")
  let nP2SHSigOps ← getP2SHSigOpCount tx view
  let nSigOps := getLegacySigOpCount tx + nP2SHSigOps
  let nValueOut ← tx.getValueOut
  let nFees ← subAmount nValueIn nValueOut
  let fSpendsCoinbase ← spendsCoinbase tip pool tx
  let entry := CTxMemPoolEntry.create tx nFees.toInt tip.time fSpendsCoinbase nSigOps lp
  let nSize := entry.getTxSize
  require (¬ (nSigOps > MAX_STANDARD_TX_SIGOPS ∨
      (policy.nBytesPerSigOp ≠ 0 ∧ nSigOps > nSize / policy.nBytesPerSigOp)))
    (dos 0 REJECT_NONSTANDARD "bad-txns-too-many-sigops")
  checkFees policy tip pool tx args nFees.toInt (nFees.toInt + pool.feeDelta tx.getHash) nSize
  pure entry

/-- The ancestors in the pool, none of which may be replaced. -/
def findAncestors (setConflicts : Finset Uint256) : Outcome (Finset Uint256) := do
  let answer ← pool.searchMemPoolAncestors tx policy.limits
  require (answer.error = none) (dos 0 REJECT_NONSTANDARD "too-long-mempool-chain")
  require (Disjoint answer.setAncestors setConflicts)
    (dos 10 REJECT_INVALID "bad-txns-spends-conflicting-tx")
  pure answer.setAncestors

/-- What the loop over the conflicts collects. -/
structure ConflictState where
  setIterConflicting : Finset Uint256 := ∅
  setConflictsParents : Finset Uint256 := ∅
  nConflictingCount : ℤ := 0

omit [Crypto] in
def checkConflict (newFeeRate : CFeeRate) (s : ConflictState) (hashConflicting : Uint256) :
    Outcome ConflictState :=
  match pool.mapTx.lookup hashConflicting with
  | none => .ok s
  | some mi => do
    require (¬ mi.isDirty) (dos 0 REJECT_NONSTANDARD "too many potential replacements")
    let oldFeeRate := CFeeRate.ofFee mi.getModifiedFee mi.getTxSize
    require (¬ newFeeRate.nSatoshisPerK ≤ oldFeeRate.nSatoshisPerK)
      (dos 0 REJECT_INSUFFICIENTFEE "insufficient fee")
    pure { setIterConflicting := insert hashConflicting s.setIterConflicting
           setConflictsParents := s.setConflictsParents ∪
             (mi.tx.vin.map fun txin => txin.prevout.hash).toFinset
           nConflictingCount := s.nConflictingCount + mi.nCountWithDescendants }

/-- The modified fees of the transactions that would go. -/
def conflictingFees (allConflicting : Finset Uint256) : Outcome ℤ :=
  (hashOrder.list allConflicting).foldlM (fun nConflictingFees it => do
    let e ← pool.entry it
    pure (nConflictingFees + e.getModifiedFee)) 0

/-- All transactions that are replaced: the conflicts with their descendants. -/
def checkReplacement (nModifiedFees : ℤ) (nSize : ℕ) (setConflicts : Finset Uint256) :
    Outcome (Finset Uint256) :=
  if setConflicts = ∅ then .ok ∅
  else do
    let newFeeRate := CFeeRate.ofFee nModifiedFees nSize
    let s ← (hashOrder.list setConflicts).foldlM (checkConflict pool newFeeRate) {}
    require (s.nConflictingCount ≤ maxDescendantsToVisit)
      (dos 0 REJECT_NONSTANDARD "too many potential replacements")
    let allConflicting ← pool.allDescendants s.setIterConflicting
    let nConflictingFees ← conflictingFees pool allConflicting
    require (∀ txin ∈ tx.vin, txin.prevout.hash ∈ s.setConflictsParents ∨
        txin.prevout.hash ∉ pool.mapTx)
      (dos 0 REJECT_NONSTANDARD "replacement-adds-unconfirmed")
    require (¬ nModifiedFees < nConflictingFees) (dos 0 REJECT_INSUFFICIENTFEE "insufficient fee")
    let nDeltaFees := nModifiedFees - nConflictingFees
    require (¬ nDeltaFees < policy.minRelayTxFee.getFee nSize)
      (dos 0 REJECT_INSUFFICIENTFEE "insufficient fee")
    pure allConflicting

def checkScripts : Outcome Unit :=
  match acceptScripts tip.mapBlockIndex tx (pool.view tip) with
  | .passed => .ok ()
  | .failed h => .error h
  | .bug h => .error h

/-- A transaction that passed every check, ready to be stored. -/
structure Candidate where
  entry : CTxMemPoolEntry
  setAncestors : Finset Uint256
  allConflicting : Finset Uint256

/-- All checks, none of which changes the pool. There is no candidate if an input is missing. -/
def checkCandidate (args : AcceptArgs) : Outcome (Option Candidate) := do
  checkLoose policy tip pool tx
  let setConflicts ← tx.vin.foldlM (collectConflict policy pool) ∅
  match ← readInputs tip pool tx with
  | none => pure none
  | some (nValueIn,lp) => do
    let entry ← makeEntry policy tip pool tx args nValueIn lp
    let setAncestors ← findAncestors policy pool tx setConflicts
    let nModifiedFees := entry.nFee + pool.feeDelta tx.getHash
    let allConflicting ← checkReplacement policy pool tx nModifiedFees entry.getTxSize setConflicts
    checkScripts tip pool tx
    pure (some ⟨entry,setAncestors,allConflicting⟩)

variable {policy tip pool tx}

theorem checkCandidate_made {args : AcceptArgs} {c : Candidate}
    (h : checkCandidate policy tip pool tx args = .ok (some c)) :
    ∃ nValueIn lp nP2SHSigOps nValueOut nFees fSpendsCoinbase, checkTransaction tx = .ok () ∧
      (pool.view tip).getValueIn tx = .ok nValueIn ∧
      getP2SHSigOpCount tx (pool.view tip) = .ok nP2SHSigOps ∧ tx.getValueOut = .ok nValueOut ∧
      subAmount nValueIn nValueOut = .ok nFees ∧ c.entry = CTxMemPoolEntry.create tx nFees.toInt
        tip.time fSpendsCoinbase (getLegacySigOpCount tx + nP2SHSigOps) lp := by
  obtain ⟨_,hloose,h⟩ := bind_ok.mp h
  obtain ⟨_,hchecked,_⟩ := bind_ok.mp hloose
  obtain ⟨_,_,h⟩ := bind_ok.mp h
  obtain ⟨inputs,hinputs,h⟩ := bind_ok.mp h
  cases inputs with
  | none => cases h
  | some inputs =>
    obtain ⟨nValueIn,lp⟩ := inputs
    obtain ⟨entry,hentry,h⟩ := bind_ok.mp h
    iterate 3 obtain ⟨_,_,h⟩ := bind_ok.mp h
    cases h
    have hin : (pool.view tip).getValueIn tx = .ok nValueIn := by
      obtain ⟨_,_,hinputs⟩ := bind_ok.mp hinputs
      split_ifs at hinputs
      · cases hinputs
      · obtain ⟨_,_,hinputs⟩ := bind_ok.mp hinputs
        obtain ⟨value,hvalue,hinputs⟩ := bind_ok.mp hinputs
        iterate 2 obtain ⟨_,_,hinputs⟩ := bind_ok.mp hinputs
        cases hinputs
        exact hvalue
    obtain ⟨_,_,hentry⟩ := bind_ok.mp hentry
    obtain ⟨nP2SHSigOps,hcount,hentry⟩ := bind_ok.mp hentry
    obtain ⟨nValueOut,hout,hentry⟩ := bind_ok.mp hentry
    obtain ⟨nFees,hfees,hentry⟩ := bind_ok.mp hentry
    iterate 3 obtain ⟨_,_,hentry⟩ := bind_ok.mp hentry
    cases hentry
    exact ⟨_,_,_,_,_,_,hchecked,hin,hcount,hout,hfees,rfl⟩

end

def limitMempoolSize (policy : MempoolPolicy) (time : ℤ) (pool : CTxMemPool) :
    Outcome CTxMemPool := do
  let pool ← pool.expire (time - policy.mempoolexpiry)
  pool.trimToSize policy.dynamicMemoryUsage policy.lowest policy.maxmempool

variable [Crypto]

def storeCandidate (pool : CTxMemPool) (c : Candidate) : Outcome CTxMemPool := do
  let pool ← pool.removeStaged c.allConflicting
  pool.addUnchecked c.entry.tx.getHash c.entry c.setAncestors

/-- What is returned, and the pool that is left: false with a state that was not touched stands for
missing inputs. -/
structure AcceptAnswer where
  verdict : Outcome Bool
  pool : CTxMemPool

omit [Crypto] in
theorem AcceptAnswer.eq_of_verdict {answer : AcceptAnswer} {verdict : Outcome Bool}
    (h : answer.verdict = verdict) : answer = ⟨verdict,answer.pool⟩ := by
  rw [← h]

def acceptToMemoryPoolWorker (policy : MempoolPolicy) (tip : ChainTip) (pool : CTxMemPool)
    (tx : CTransaction) (args : AcceptArgs) : AcceptAnswer :=
  match checkCandidate policy tip pool tx args with
  | .error h => ⟨.error h,pool⟩
  | .ok none => ⟨.ok false,pool⟩
  | .ok (some c) =>
    match storeCandidate pool c with
    | .error h => ⟨.error h,pool⟩
    | .ok stored =>
      if args.fOverrideMempoolLimit then ⟨.ok true,stored⟩
      else
        match limitMempoolSize policy tip.time stored with
        | .error h => ⟨.error h,stored⟩
        | .ok limited =>
          if tx.getHash ∈ limited.mapTx then ⟨.ok true,limited⟩
          else ⟨dos 0 REJECT_INSUFFICIENTFEE "mempool full",limited⟩

end Sidechain
