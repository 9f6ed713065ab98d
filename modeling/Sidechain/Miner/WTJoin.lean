import Sidechain.Validation.ConnectBlock
import Sidechain.Index.DrivechainDB

/-! The transactions a miner makes of its own: the one that credits deposits and the one that joins
withdrawals (WT^), with the state of a node they are made from. A deposit is recorded
in one output, and one payment follows for each mainchain output that locked coins to the sidechain. -/
namespace Sidechain

/-- `chainActive` holds the hashes of the active chain from genesis, `mapBlockIndex` the heights
of all known blocks, and `readBlock` what `ReadBlockFromDisk` finds. -/
structure NodeState where
  mempool : Uint256 → Option CTransaction := fun _ => none
  fTxIndex : Bool := false
  disk : Disk := {}
  openBlockFile : Bool := true
  pcoinsTip : CCoinsViewCache := {}
  chainActive : List Uint256 := []
  readBlock : Uint256 → Option CBlock := fun _ => none
  mapBlockIndex : Uint256 → Option ℕ := fun _ => none
  getMinimumFee : ℕ → CAmount := fun _ => 0

/-- The answer of `GetTransaction` with the values of its output parameters. -/
structure FoundTransaction where
  found : Bool := false
  txOut : CTransaction := {}
  hashBlock : Uint256 := 0

/-- `ToByteVector` of a key id, in a pay-to-public-key-hash script. -/
def keyScript (keyID : Uint160) : CScript := payToKeyHash (serializeBits 20 keyID)

/-- The outputs of a mainchain transaction that lock coins to the sidechain. -/
def depositOutputs (deposit : CTransaction) : List CTxOut :=
  deposit.vout.filter fun out => out.scriptPubKey == SIDECHAIN_DEPOSITSCRIPT

/-- The payments of a deposit to its key. -/
def depositPayments (d : DrivechainDeposit) : List CTxOut :=
  (depositOutputs d.deposit).map fun out => ⟨out.nValue,keyScript d.keyID⟩

/-- What one deposit of the list adds to the transaction. -/
def creditDeposit (d : DrivechainDeposit) : List CTxOut :=
  ⟨CENT,(DrivechainObj.deposit d).getScript⟩ :: depositPayments d

/-- The variables of the two loops. -/
structure JoinState where
  joinAmount : CAmount := 0
  joinFee : CAmount := 0
  vin : List CTxIn := []
  vout : List CTxOut := []

/-- `std::abs`, undefined for the least value. -/
def absAmount (a : CAmount) : Outcome CAmount := checked |a.toInt|

/-- A deposit output pays part of the debt, or settles it and leaves change. -/
def payFrom (s : JoinState) (depositAmount : CAmount) : Outcome JoinState := do
  let diff ← subAmount s.joinAmount depositAmount
  if diff < 0 then do
    let change ← absAmount diff
    let nValue ← subAmount change s.joinFee
    let joinAmount ← addAmount diff change
    pure { s with joinAmount, vout := s.vout ++ [⟨nValue,SIDECHAIN_DEPOSITSCRIPT⟩] }
  else pure { s with joinAmount := diff }

/-- One round of the loop over the outputs of a deposit. -/
def joinDepositOutput (hash : Uint256) (s : JoinState) (output : CTxOut × ℕ) : Outcome JoinState :=
  if output.1.scriptPubKey ≠ SIDECHAIN_DEPOSITSCRIPT then .ok s
  else do
    let s ← payFrom s output.1.nValue
    pure { s with vin := s.vin ++ [{ prevout := ⟨hash,UInt32.ofNat output.2⟩ }] }

variable [Crypto]

/-- The coin database locates the block that contains the transaction. -/
def getTransactionSlow (node : NodeState) (hash : Uint256) : FoundTransaction :=
  let pindexSlow := match node.pcoinsTip.accessCoins hash with
    | none => none
    | some coins => if coins.nHeight > 0 then node.chainActive[coins.nHeight]? else none
  match pindexSlow with
  | none => {}
  | some hashBlock =>
    match (node.readBlock hashBlock).bind fun block => block.vtx.find? (·.getHash == hash) with
    | none => {}
    | some tx => ⟨true,tx,hashBlock⟩

/-- The memory pool first, then the transaction index, then the block the coins come from. A
position of the index decides, also when reading through it fails. -/
def getTransaction (node : NodeState) (hash : Uint256) (fAllowSlow : Bool) : FoundTransaction :=
  match node.mempool hash with
  | some tx => ⟨true,tx,0⟩
  | none =>
    match if node.fTxIndex then node.disk.txIndex hash else none with
    | some postx =>
      if !node.openBlockFile then {}
      else ⟨postx.tx.getHash == hash,postx.tx,postx.header.getHash⟩
    | none => if fAllowSlow then getTransactionSlow node hash else {}

/-- The height is `(uint32_t)-1` when the object is on no block of the active chain. The index
entry of the block is not checked for being there. -/
def getDrivechainObjectHeight (node : NodeState) (txid : Uint256) : Outcome UInt32 :=
  let answer := getTransaction node txid true
  if !answer.found then .ok 0xffffffff
  else
    match node.mapBlockIndex answer.hashBlock with
    | none => .error (.undefined "(*mapBlockIndex.find(hashBlock)).second")
    | some nHeight =>
      .ok (if node.chainActive[nHeight]? = some answer.hashBlock then UInt32.ofNat nHeight
        else 0xffffffff)

/-- A node whose index finds the transactions, all in the block at height 1. -/
def indexedNode (header : CBlockHeader) (txs : List CTransaction) (db : CDrivechainTreeDB)
    (minimumFee : CAmount) : NodeState where
  fTxIndex := true
  disk :=
    { txIndex := fun hash => (txs.find? (·.getHash == hash)).map fun tx => ⟨header,tx⟩
      pdrivechaintree := some db }
  chainActive := [header.hashPrevBlock,header.getHash]
  mapBlockIndex := fun hash => if hash = header.getHash then some 1 else none
  getMinimumFee := fun _ => minimumFee

/-- The deposit already has an entry. -/
def isRecorded (db : CDrivechainTreeDB) (d : DrivechainDeposit) : Bool :=
  (db.getDeposit (DrivechainObj.deposit d).getHash).isSome

/-- `vDeposit` is what the mainchain client returned for the height. -/
def getDepositTX (pdrivechaintree : Option CDrivechainTreeDB) (vDeposit : List DrivechainDeposit) :
    CTransaction :=
  match pdrivechaintree with
  | none => {}
  | some db =>
    { vout := vDeposit.flatMap fun d => if isRecorded db d then [] else creditDeposit d }

/-- The deposits of a list that are credited. -/
def credited (db : CDrivechainTreeDB) (vDeposit : List DrivechainDeposit) :
    List DrivechainDeposit :=
  vDeposit.filter fun d => !isRecorded db d

theorem getDepositTX_vout (db : CDrivechainTreeDB) (vDeposit : List DrivechainDeposit) :
    (getDepositTX (some db) vDeposit).vout = (credited db vDeposit).flatMap creditDeposit := by
  unfold getDepositTX credited
  dsimp only
  induction vDeposit with
  | nil => rfl
  | cons d vDeposit ih =>
    rw [List.flatMap_cons,List.filter_cons,ih]
    cases isRecorded db d <;> simp

/-- The loop over the deposits ends when nothing is owed; the outputs of a deposit are all taken. -/
def joinDeposits : JoinState → List DrivechainDeposit → Outcome JoinState
  | s,[] => .ok s
  | s,d::vDeposit =>
    if ¬ s.joinAmount > 0 then .ok s
    else do
      let s ← d.deposit.vout.zipIdx.foldlM (joinDepositOutput d.deposit.getHash) s
      joinDeposits s vDeposit

/-- One round of the loop over the withdrawals. Whether the transaction was found is not checked. -/
def joinWithdraw (node : NodeState) (s : JoinState) (w : DrivechainWithdraw) :
    Outcome JoinState := do
  let wt := (getTransaction node w.txid true).txOut
  let amount ← wt.getValueOutToDrivechain
  let minimumFee := node.getMinimumFee wt.getSerializeSize
  let nFee ← addAmount minimumFee minimumFee
  let amount ← subAmount amount nFee
  let joinAmount ← addAmount s.joinAmount amount
  let joinFee ← addAmount s.joinFee nFee
  pure { s with joinAmount, joinFee, vout := s.vout ++ [⟨amount,keyScript w.keyID⟩] }

/-- The sidechain half of the fees. -/
def joinFeeOutput (joinFee : CAmount) : List CTxOut :=
  if joinFee > 0 then [⟨joinFee / 2,SIDECHAIN_FEESCRIPT⟩] else []

def inPeriod (node : NodeState) (nHeight : UInt32) (w : DrivechainWithdraw) : Outcome Bool := do
  let max := nHeight
  let min := max - UInt32.ofNat SIDECHAIN_TAU
  let height ← getDrivechainObjectHeight node w.txid
  pure (!decide (height > max) && !decide (height < min))

/-- The withdrawals recorded in the period before a height. -/
def filterPeriod (node : NodeState) (nHeight : UInt32) :
    List DrivechainWithdraw → Outcome (List DrivechainWithdraw)
  | [] => .ok []
  | w::vWithdraw => do
    let keep ← inPeriod node nHeight w
    let toJoin ← filterPeriod node nHeight vWithdraw
    pure (if keep then w::toJoin else toJoin)

/-- The WT^ that pays the withdrawals `toJoin`, or the null transaction if the deposits do not
cover them. -/
def joinWithdraws (node : NodeState) (db : CDrivechainTreeDB) (toJoin : List DrivechainWithdraw) :
    Outcome CTransaction := do
  let s ← toJoin.foldlM (joinWithdraw node) {}
  let s ← joinDeposits { s with vout := s.vout ++ joinFeeOutput s.joinFee } db.getDeposits
  pure (if s.joinAmount > 0 then {} else { vin := s.vin, vout := s.vout })

def getWTJoinTX (node : NodeState) (nHeight : UInt32) : Outcome CTransaction :=
  match node.disk.pdrivechaintree with
  | none => .ok {}
  | some db =>
    if nHeight % UInt32.ofNat SIDECHAIN_TAU ≠ 0 then .ok {}
    else do
      let toJoin ← filterPeriod node nHeight db.getWTs
      if toJoin.isEmpty then pure {} else joinWithdraws node db toJoin

end Sidechain
