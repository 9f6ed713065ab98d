import Sidechain.Validation.CheckInputs
import Sidechain.Index.DrivechainDB
import Sidechain.Chain.BlockIndex

/-! Connecting a block to a view of the coins at its parent, with everything it leaves behind: the
new view, the undo data, the transaction index and the drivechain index. The test of validity of a
block that has no index entry yet makes all checks of a connection, on a dummy entry and without
effects. -/
namespace Sidechain
open Run

/-- What a read through a position of the transaction index finds in a block file. -/
structure CDiskTxPos where
  header : CBlockHeader
  tx : CTransaction
  deriving DecidableEq, Repr

/-- What is kept on disk besides the coins. Undo data is found through the index entry of its
block. -/
structure Disk where
  undo : CBlockIndex → Option CBlockUndo := fun _ => none
  txIndex : Uint256 → Option CDiskTxPos := fun _ => none
  pdrivechaintree : Option CDrivechainTreeDB := some ∅

/-- Whether the operations on disk succeed. -/
structure DiskAnswers where
  findUndoPos : Bool := true
  undoWriteToDisk : Bool := true
  undoReadFromDisk : Bool := true
  writeTxIndex : Bool := true
  writeDrivechainIndex : Bool := true

/-- What validation reads of the node besides its arguments. The last checkpoint is absent when
checkpoints are disabled. -/
structure Node where
  consensus : Params
  adjustedTime : ℤ := 0
  lastCheckpoint : Option CBlockIndex := none
  csvActive : Option CBlockIndex → Bool := fun _ => false
  mapBlockIndex : Uint256 → Option ℕ := fun _ => none
  nScriptCheckThreads : ℕ := 0
  fTxIndex : Bool := false
  disk : DiskAnswers := {}

def fDrivechainIndex : Bool := true

/-- An ancestor of the last checkpoint is connected without script checks. -/
def isCheckpointed (node : Node) (pindex : CBlockIndex) : Bool :=
  match node.lastCheckpoint with
  | none => false
  | some pindexLastCheckpoint => pindexLastCheckpoint.getAncestor pindex.nHeight == some pindex

/-- The two blocks whose coinbases overwrite older ones. -/
def isBIP30Exception (pindex : CBlockIndex) : Bool :=
  match pindex.phashBlock with
  | none => false
  | some hash =>
    (pindex.nHeight == 91842 &&
      hash == 0x00000000000a4d0a398161ffc163c503763b1f4360639393e0e4c8e300e0caec) ||
    (pindex.nHeight == 91880 &&
      hash == 0x00000000000743f190a18c5577a3c2d2a1f610ae9601ac046a38084ccb7cd721)

/-- BIP30 is enforced unless the chain is the known one past the activation of BIP34. -/
def enforceBIP30 (node : Node) (pindex pprev : CBlockIndex) : Bool :=
  !isBIP30Exception pindex &&
    match pprev.getAncestor node.consensus.BIP34Height with
    | none => true
    | some pindexBIP34height => pindexBIP34height.phashBlock != some node.consensus.BIP34Hash

def nBIP16SwitchTime : ℤ := 1333238400

def strictPayToScriptHash (pindex : CBlockIndex) : Bool :=
  decide (pindex.getBlockTime ≥ nBIP16SwitchTime)

def blockScriptFlags (node : Node) (block : CBlockHeader) (pindex : CBlockIndex) : ScriptFlags :=
  let majority (nVersion : Int32) : Bool := decide (block.nVersion ≥ nVersion) &&
    isSuperMajority nVersion pindex.pprev node.consensus.nMajorityEnforceBlockUpgrade node.consensus
  (if strictPayToScriptHash pindex then SCRIPT_VERIFY_P2SH else SCRIPT_VERIFY_NONE) |||
    (if majority 3 then SCRIPT_VERIFY_DERSIG else 0) |||
    (if majority 4 then SCRIPT_VERIFY_CHECKLOCKTIMEVERIFY else 0) |||
    (if node.csvActive pindex.pprev then SCRIPT_VERIFY_CHECKSEQUENCEVERIFY else 0)

/-- The variables of the loop over the transactions; `i` counts them. -/
structure ConnectState where
  view : CCoinsViewCache
  i : ℕ := 0
  vtxundo : List CTxUndo := []
  nSigOps : ℕ := 0
  nFees : CAmount := 0
  vChecks : List CScriptCheck := []

def prevHeight (view : CCoinsViewCache) (txin : CTxIn) : Outcome ℕ :=
  match view.accessCoins txin.prevout.hash with
  | none => .error (.undefined "view.AccessCoins(...)->nHeight")
  | some coins => .ok coins.nHeight

def getP2SHSigOpCount (tx : CTransaction) (inputs : CCoinsViewCache) : Outcome ℕ :=
  if tx.isCoinBase then .ok 0
  else tx.vin.foldlM (fun nSigOps txin => do
    let prevout ← inputs.getOutputFor txin
    if prevout.scriptPubKey.isPayToScriptHash then
      pure (nSigOps + prevout.scriptPubKey.getP2SHSigOpCount txin.scriptSig)
    else pure nSigOps) 0

/-- Redeem scripts count only under the strict rules. -/
def addP2SHSigOps (pindex : CBlockIndex) (tx : CTransaction) (inputs : CCoinsViewCache)
    (nSigOps : ℕ) : Outcome ℕ :=
  if !strictPayToScriptHash pindex then .ok nSigOps
  else do
    let nP2SHSigOps ← getP2SHSigOpCount tx inputs
    require (¬ nSigOps + nP2SHSigOps > MAX_BLOCK_SIGOPS) (dos 100 REJECT_INVALID "bad-blk-sigops")
    pure (nSigOps + nP2SHSigOps)

/-- The objects in the outputs of one transaction. -/
def scanOutputs (txid : Uint256) : List CTxOut → Outcome (List DrivechainObj)
  | [] => .ok []
  | txout::vout => do
    let obj ← scanScript txout.scriptPubKey
    let objs ← scanOutputs txid vout
    pure ((obj.map (DrivechainObj.setTxid txid)).toList ++ objs)

/-- Undo data is written once for an index entry. -/
def writeUndo (node : Node) (pindex : CBlockIndex) (blockundo : CBlockUndo) (disk : Disk) :
    Outcome Disk :=
  match disk.undo pindex with
  | some _ => .ok disk
  | none => do
    require node.disk.findUndoPos (stateError "out of disk space")
    require node.disk.undoWriteToDisk (stateError "Failed to write undo data")
    pure { disk with undo := Function.update disk.undo pindex (some blockundo) }

def REJECT_OBSOLETE : ℕ := 0x11

/-- What the header checks compare with: a count of the consensus parameters and the answers of
`GetNextWorkRequired`. -/
structure HeaderRules where
  nMajorityRejectBlockOutdated : ℕ := 950
  getNextWorkRequired : CBlockIndex → CBlockHeader → UInt32

def isFinalTx (tx : CTransaction) (nBlockHeight nBlockTime : ℤ) : Bool :=
  let nLockTime := tx.nLockTime.toNat
  nLockTime == 0 ||
    decide ((nLockTime : ℤ) < if nLockTime < LOCKTIME_THRESHOLD then nBlockHeight else nBlockTime) ||
    tx.vin.all fun txin => txin.nSequence == SEQUENCE_FINAL

/-- No forks before the last checkpoint. -/
def checkIndexAgainstCheckpoint (node : Node) (pindexPrev : CBlockIndex) : Outcome Unit :=
  if pindexPrev.phashBlock = some node.consensus.hashGenesisBlock then .ok ()
  else match node.lastCheckpoint with
    | none => .ok ()
    | some pcheckpoint => require (¬ pindexPrev.nHeight + 1 < pcheckpoint.nHeight) (dos 100 0 "")

/-- Blocks below a version are refused once enough of the network has it. -/
def checkOutdated (rules : HeaderRules) (consensus : Params) (block : CBlockHeader)
    (pindexPrev : CBlockIndex) (nVersion : Int32) : Outcome Unit :=
  require (¬ (block.nVersion < nVersion ∧
      isSuperMajority nVersion (some pindexPrev) rules.nMajorityRejectBlockOutdated consensus))
    (invalid REJECT_OBSOLETE "bad-version")

def contextualCheckBlockHeader (rules : HeaderRules) (consensus : Params) (block : CBlockHeader)
    (pindexPrev : CBlockIndex) : Outcome Unit := do
  require (block.nBits = rules.getNextWorkRequired pindexPrev block)
    (dos 100 REJECT_INVALID "bad-diffbits")
  require (¬ block.getBlockTime ≤ pindexPrev.getMedianTimePast)
    (invalid REJECT_INVALID "time-too-old")
  forM [2,3,4] (checkOutdated rules consensus block pindexPrev)

/-- The coinbase starts with the height, once enough of the network has version 2. -/
def checkCoinbaseHeight (consensus : Params) (block : CBlock) (pindexPrev : CBlockIndex) :
    Outcome Unit :=
  if 2 ≤ block.nVersion ∧ isSuperMajority 2 (some pindexPrev)
      consensus.nMajorityEnforceBlockUpgrade consensus then
    match block.vtx.head?.bind fun tx => tx.vin.head? with
    | none => .error (.undefined "block.vtx[0].vin[0]")
    | some txin =>
      require (pushInt64 (pindexPrev.nHeight + 1) <+: txin.scriptSig)
        (dos 100 REJECT_INVALID "bad-cb-height")
  else .ok ()

def contextualCheckBlock (node : Node) (block : CBlock) (pindexPrev : CBlockIndex) :
    Outcome Unit := do
  let nLockTimeCutoff :=
    if node.csvActive (some pindexPrev) then pindexPrev.getMedianTimePast else block.getBlockTime
  forM block.vtx fun tx => require (isFinalTx tx (pindexPrev.nHeight + 1) nLockTimeCutoff)
    (dos 10 REJECT_INVALID "bad-txns-nonfinal")
  checkCoinbaseHeight node.consensus block pindexPrev

variable [Crypto]

/-- The checks of a transaction that spends coins. -/
def connectInputs (node : Node) (block : CBlockHeader) (pindex : CBlockIndex) (s : ConnectState)
    (tx : CTransaction) : Outcome ConnectState :=
  if tx.isCoinBase then .ok s
  else do
    require (s.view.haveInputs tx) (dos 100 REJECT_INVALID "bad-txns-inputs-missingorspent")
    let prevheights ← tx.vin.mapM (prevHeight s.view)
    let fFinal ← sequenceLocks tx (node.csvActive pindex.pprev) prevheights pindex
    require fFinal (dos 100 REJECT_INVALID "bad-txns-nonfinal")
    let nSigOps ← addP2SHSigOps pindex tx s.view s.nSigOps
    let nValueIn ← s.view.getValueIn tx
    let nValueOut ← tx.getValueOut
    let nTxFee ← subAmount nValueIn nValueOut
    let nFees ← addAmount s.nFees nTxFee
    let vChecks ← checkInputs node.mapBlockIndex tx s.view (!isCheckpointed node pindex)
      (blockScriptFlags node block pindex) (node.nScriptCheckThreads != 0)
    pure { s with nSigOps, nFees, vChecks := s.vChecks ++ vChecks }

/-- One round of the loop. The undo data of the first transaction is not kept. -/
def connectTx (node : Node) (block : CBlockHeader) (pindex : CBlockIndex) (s : ConnectState)
    (tx : CTransaction) : Outcome ConnectState := do
  let nSigOps := s.nSigOps + getLegacySigOpCount tx
  require (¬ nSigOps > MAX_BLOCK_SIGOPS) (dos 100 REJECT_INVALID "bad-blk-sigops")
  let s ← connectInputs node block pindex { s with nSigOps } tx
  let (view,txundo) ← s.view.updateCoins tx pindex.nHeight
  pure { s with view, i := s.i + 1,
                vtxundo := if s.i > 0 then s.vtxundo ++ [txundo] else s.vtxundo }

def checkOverwrite (view : CCoinsViewCache) (tx : CTransaction) : Outcome Unit :=
  match view.accessCoins tx.getHash with
  | none => .ok ()
  | some coins => require coins.isPruned (dos 100 REJECT_INVALID "bad-txns-BIP30")

/-- `control.Wait()`: all queued checks pass. -/
def waitForChecks (vChecks : List CScriptCheck) : Outcome Unit :=
  forM vChecks fun check => do
    match ← check.run with
    | .ok () => pure ()
    | .error _ => dos 100 0 ""

/-- From the BIP30 check to the end of script verification. -/
def connectTransactions (node : Node) (block : CBlock) (pindex pprev : CBlockIndex)
    (view : CCoinsViewCache) : Outcome ConnectState := do
  forM (if enforceBIP30 node pindex pprev then block.vtx else []) (checkOverwrite view)
  let s ← block.vtx.foldlM (connectTx node block.toCBlockHeader pindex) { view }
  waitForChecks s.vChecks
  pure s

/-- `vDrivechainObjects`: the objects in all outputs of a block, in order. -/
def collectDrivechainObjects : List CTransaction → Outcome (List DrivechainObj)
  | [] => .ok []
  | tx::vtx => do
    let objs ← scanOutputs tx.getHash tx.vout
    let rest ← collectDrivechainObjects vtx
    pure (objs ++ rest)

def writeTxIndex (node : Node) (block : CBlock) (disk : Disk) : Outcome Disk :=
  if !node.fTxIndex then .ok disk
  else do
    require node.disk.writeTxIndex (stateError "Failed to write transaction index")
    let add (txIndex : Uint256 → Option CDiskTxPos) (tx : CTransaction) :=
      Function.update txIndex tx.getHash (some ⟨block.toCBlockHeader,tx⟩)
    pure { disk with txIndex := block.vtx.foldl add disk.txIndex }

def writeDrivechain (node : Node) (block : CBlock) (disk : Disk) : Outcome Disk :=
  match disk.pdrivechaintree with
  | none => .ok disk
  | some db =>
    if !fDrivechainIndex then .ok disk
    else do
      let objs ← collectDrivechainObjects block.vtx
      if objs.isEmpty then pure disk
      else do
        require node.disk.writeDrivechainIndex (stateError "Failed to write drivechain index!")
        let list := objs.map fun obj => (obj.getHash,obj)
        pure { disk with pdrivechaintree := some (db.writeDrivechainIndex list) }

def isGenesis (node : Node) (block : CBlock) : Bool :=
  block.toCBlockHeader.getHash == node.consensus.hashGenesisBlock

/-- The part after the genesis special case. -/
def connectNonGenesis (node : Node) (block : CBlock) (pindex : CBlockIndex)
    (view : CCoinsViewCache) (disk : Disk) (fJustCheck : Bool) :
    Outcome (CCoinsViewCache × Disk) :=
  match pindex.pprev with
  | none => .error (.undefined "pindex->pprev->GetAncestor(...)")
  | some pprev => do
    let s ← connectTransactions node block pindex pprev view
    if fJustCheck then pure (s.view,disk)
    else do
      let disk ← writeUndo node pindex ⟨s.vtxundo⟩ disk
      let disk ← writeTxIndex node block disk
      let disk ← writeDrivechain node block disk
      let hashBlock ← pindex.getBlockHash
      pure (s.view.setBestBlock hashBlock,disk)

def prevBlockHash (pindex : CBlockIndex) : Outcome Uint256 :=
  match pindex.pprev with
  | none => .ok 0
  | some pprev => pprev.getBlockHash

/-- The view and the disk it returns are those after a connected block. -/
def connectBlock (node : Node) (block : CBlock) (pindex : CBlockIndex) (view : CCoinsViewCache)
    (disk : Disk) (fJustCheck : Bool) : Outcome (CCoinsViewCache × Disk) := do
  checkBlock node.consensus node.adjustedTime block (!fJustCheck) (!fJustCheck)
  let hashPrevBlock ← prevBlockHash pindex
  require (hashPrevBlock = view.getBestBlock)
    (.error (.assertion "hashPrevBlock == view.GetBestBlock()"))
  if isGenesis node block then
    if fJustCheck then pure (view,disk)
    else (fun hashBlock => (view.setBestBlock hashBlock,disk)) <$> pindex.getBlockHash
  else connectNonGenesis node block pindex view disk fJustCheck

def regTestNode : Node := { consensus := regTestParams, adjustedTime := 1296700000 }

/-- The index entry of a block on top of the genesis block. -/
def regTestFirst (block : CBlock) : CBlockIndex :=
  ⟨some block.toCBlockHeader.getHash,block.nVersion,block.nTime,
    [⟨regTestParams.hashGenesisBlock,regTestHeader.nVersion,regTestHeader.nTime⟩]⟩

/-- The view at the genesis block. -/
def regTestGenesisView : CCoinsViewCache := { hashBlock := regTestParams.hashGenesisBlock }

/-- The coins are those of a new cache over `pcoinsTip`, which is thrown away. -/
def testBlockValidity (rules : HeaderRules) (node : Node) (tip : Option CBlockIndex)
    (viewNew : CCoinsViewCache) (disk : Disk) (block : CBlock) (pindexPrev : Option CBlockIndex)
    (fCheckPOW fCheckMerkleRoot : Bool) : Outcome Unit :=
  match pindexPrev with
  | none => .error (.assertion "pindexPrev && pindexPrev == chainActive.Tip()")
  | some pindexPrev => do
    require (tip = some pindexPrev)
      (.error (.assertion "pindexPrev && pindexPrev == chainActive.Tip()"))
    let hashPrev ← pindexPrev.getBlockHash
    checkIndexAgainstCheckpoint node pindexPrev
    let indexDummy := pindexPrev.child hashPrev block.toCBlockHeader none
    contextualCheckBlockHeader rules node.consensus block.toCBlockHeader pindexPrev
    checkBlock node.consensus node.adjustedTime block fCheckPOW fCheckMerkleRoot
    contextualCheckBlock node block pindexPrev
    let _ ← connectBlock node block indexDummy viewNew disk true

theorem testBlockValidity_ok {rules : HeaderRules} {node : Node} {tip : Option CBlockIndex}
    {viewNew : CCoinsViewCache} {disk : Disk} {block : CBlock} {pindexPrev : CBlockIndex}
    {fCheckPOW fCheckMerkleRoot : Bool} {u : Unit} (h : testBlockValidity rules node tip viewNew
      disk block (some pindexPrev) fCheckPOW fCheckMerkleRoot = .ok u) :
    ∃ hashPrev view disk', pindexPrev.phashBlock = some hashPrev ∧
      connectBlock node block (pindexPrev.child hashPrev block.toCBlockHeader none) viewNew disk
        true = .ok (view,disk') := by
  simp only [testBlockValidity,bind_ok,CBlockIndex.getBlockHash_ok] at h
  obtain ⟨_,_,hashPrev,hprev,_,_,_,_,_,_,_,_,⟨view,disk'⟩,hconnect,_⟩ := h
  exact ⟨hashPrev,view,disk',hprev,hconnect⟩

end Sidechain
