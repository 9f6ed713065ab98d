import Sidechain.Mempool.AcceptToMemoryPool
import Sidechain.Miner.CreateNewBlock
import Sidechain.Validation.DryRun

/-! What a coinbase pays out: in an assembled block exactly the fees of the other transactions and what
its bookkeeping accounts for. Connecting a block compares the coinbase with nothing. -/
namespace Sidechain
open Run

/-- The outputs that record an object: a deposit is paid out with it. -/
def recordOutputs : DrivechainObj → List CTxOut
  | .deposit d => creditDeposit d
  | obj => [⟨CENT,obj.getScript⟩]

/-- What an object allows a coinbase to pay: the fixed output, and what a deposit locked. -/
def recordValue : DrivechainObj → ℤ
  | .deposit d => CENT.toInt + valueSum (depositOutputs d.deposit)
  | _ => CENT.toInt

theorem valueSum_depositPayments (d : DrivechainDeposit) :
    valueSum (depositPayments d) = valueSum (depositOutputs d.deposit) := by
  unfold valueSum depositPayments
  rw [List.map_map]
  rfl

theorem valueSum_recordOutputs (obj : DrivechainObj) :
    valueSum (recordOutputs obj) = recordValue obj := by
  cases obj with
  | deposit d =>
    change valueSum (_ :: depositPayments d) = _
    rw [valueSum_cons,valueSum_depositPayments]
    rfl
  | withdraw w => rfl
  | joinedWT j => rfl

theorem valueSum_flatMap (objs : List DrivechainObj) :
    valueSum (objs.flatMap recordOutputs) = (objs.map recordValue).sum := by
  induction objs with
  | nil => rfl
  | cons obj objs ih =>
    rw [List.flatMap_cons,valueSum_append,valueSum_recordOutputs,ih,List.map_cons,List.sum_cons]

section
variable [Crypto] {Priority : Type} (m : MinerState Priority)

/-- The deposits that the coinbase credits. -/
def MinerState.recordedDeposits : List DrivechainObj :=
  match m.state.disk.pdrivechaintree with
  | none => []
  | some db => (credited db m.vDeposit).map DrivechainObj.deposit

/-- The WT^ that it records. -/
def MinerState.recordedJoin (wtJoinTX : CTransaction) : List DrivechainObj :=
  if joinedOutput m.state.disk.pdrivechaintree wtJoinTX = [] then [] else [joinedObj wtJoinTX]

theorem MinerState.bookkeeping_eq (wtJoinTX : CTransaction) : m.bookkeeping wtJoinTX =
    m.recordedDeposits.flatMap recordOutputs ++ (premine m.tip.nHeight ++
      (m.recordedJoin wtJoinTX).flatMap recordOutputs) := by
  have hdeposits : (getDepositTX m.state.disk.pdrivechaintree m.vDeposit).vout =
      m.recordedDeposits.flatMap recordOutputs := by
    unfold MinerState.recordedDeposits
    cases m.state.disk.pdrivechaintree with
    | none => rfl
    | some db =>
      rw [getDepositTX_vout,List.flatMap_map]
      rfl
  have hjoin : joinedOutput m.state.disk.pdrivechaintree wtJoinTX =
      (m.recordedJoin wtJoinTX).flatMap recordOutputs := by
    unfold MinerState.recordedJoin joinedOutput
    split_ifs <;> simp_all [recordOutputs,joinedObj]
  unfold MinerState.bookkeeping
  rw [hdeposits,hjoin]

end

/-- What a transaction pays on a view of the coins it spends. -/
def PaysFee (view : CCoinsViewCache) (tx : CTransaction) (nFee : ℤ) : Prop :=
  ∃ nValueIn, view.getValueIn tx = .ok nValueIn ∧ nFee = nValueIn.toInt - valueSum tx.vout

section
variable [Crypto] {Priority : Type} {m : MinerState Priority}

/-- The objects that the coinbase records. -/
def MinerState.recorded (m : MinerState Priority) (wtJoinTX : CTransaction) :
    List DrivechainObj :=
  m.recordedDeposits ++ m.recordedJoin wtJoinTX

theorem MinerState.valueSum_bookkeeping (wtJoinTX : CTransaction) :
    valueSum (m.bookkeeping wtJoinTX) = ((m.recorded wtJoinTX).map recordValue).sum +
      valueSum (premine m.tip.nHeight) := by
  rw [m.bookkeeping_eq,valueSum_append,valueSum_append,valueSum_flatMap,valueSum_flatMap,
    MinerState.recorded,List.map_append,List.sum_append]
  omega

theorem MinerState.record_mem {wtJoinTX : CTransaction} {obj : DrivechainObj}
    (h : obj ∈ m.recorded wtJoinTX) : ⟨CENT,obj.getScript⟩ ∈ m.bookkeeping wtJoinTX := by
  have hrecord : ⟨CENT,obj.getScript⟩ ∈ recordOutputs obj := by
    cases obj <;> exact List.mem_cons_self
  rw [m.bookkeeping_eq]
  rcases List.mem_append.mp h with h | h
  · exact List.mem_append_left _ (List.mem_flatMap.mpr ⟨obj,h,hrecord⟩)
  · exact List.mem_append_right _ (List.mem_append_right _ (List.mem_flatMap.mpr ⟨obj,h,hrecord⟩))

/-- The coinbase of an assembled block pays out the fees of the other transactions, what the deposits it
records locked, the fixed outputs that record objects, and the coins for testing, and nothing else. -/
theorem assembleBlock_coinbase {scriptPubKeyIn : CScript} {t : CBlockTemplate}
    (h : m.assembleBlock scriptPubKeyIn = .ok t) :
    ∃ wtJoinTX cb txs fees, getWTJoinTX m.state (UInt32.ofNat m.nHeight) = .ok wtJoinTX ∧
      t.block.vtx = cb::txs ∧ t.vTxFees.tail = fees ∧
      valueSum cb.vout = fees.sum + ((m.recorded wtJoinTX).map recordValue).sum +
        valueSum (premine m.tip.nHeight) ∧
      (∀ obj ∈ m.recorded wtJoinTX, ⟨CENT,obj.getScript⟩ ∈ cb.vout) ∧
      ∀ view, (∀ it e, m.mempool.mapTx.lookup it = some e → PaysFee view e.tx e.nFee) →
        List.Forall₂ (PaysFee view) txs fees := by
  obtain ⟨wtJoinTX,nFees,es,hes⟩ := assembleBlock_ok h
  refine ⟨wtJoinTX,_,_,_,hes.wtJoin,hes.vtx,rfl,?_,fun obj hobj => ?_,fun view hview => ?_⟩
  · rw [hes.vTxFees,List.tail_cons,← hes.fees]
    change valueSum (_ :: m.bookkeeping wtJoinTX) = _
    rw [valueSum_cons,MinerState.valueSum_bookkeeping,add_assoc]
  · exact List.mem_cons_of_mem _ (MinerState.record_mem hobj)
  · rw [hes.vTxFees,List.tail_cons,List.forall₂_map_left_iff,List.forall₂_map_right_iff,
      List.forall₂_same]
    intro e he
    obtain ⟨it,hit⟩ := hes.mem e he
    exact hview it e hit

/-- A block that is given out is an assembled one that the dry run connects to the tip. -/
theorem MinerState.createNewBlock_connects {scriptPubKeyIn : CScript} {t : CBlockTemplate}
    (h : m.createNewBlock scriptPubKeyIn = .ok t) : m.assembleBlock scriptPubKeyIn = .ok t ∧
      ∃ hashPrev view disk, m.tip.phashBlock = some hashPrev ∧
        connectBlock m.node t.block (m.tip.child hashPrev t.block.toCBlockHeader none)
          { base := ⟨m.state.pcoinsTip.getCoins,m.state.pcoinsTip.getBestBlock⟩ } m.state.disk true =
            .ok (view,disk) := by
  obtain ⟨t',hassemble,h⟩ := bind_ok.mp h
  dsimp only at h
  split at h
  · next htest =>
    cases h
    exact ⟨hassemble,testBlockValidity_ok htest⟩
  · cases h
  · cases h

end

/-- A deposit of one coin to a key. -/
def coinDeposit : DrivechainDeposit :=
  { sidechainid := SIDECHAIN_ID, keyID := 7
    deposit := { vin := [{ prevout := ⟨5,0⟩ }], vout := [⟨COIN,SIDECHAIN_DEPOSITSCRIPT⟩] } }

/-- A miner after genesis, with an empty pool and this deposit to credit. -/
def creditingMiner : MinerState ℕ where
  ctx :=
    { nHeight := 0, nLockTimeCutoff := 0, actualPriority := 0
      priority := fun _ => 0
      lowerPriority := fun a b => decide (a < b)
      samePriority := fun a b => decide (a = b)
      allowFree := fun _ => false
      higherScore := fun _ _ => false }
  mempool := {}
  node := regTestNode
  rules := regTestRules
  tip := regTestTip
  state := {}
  vDeposit := [coinDeposit]

theorem creditingMiner_coinbase : letI := minedCrypto
    ∃ t wtJoinTX cb txs fees, creditingMiner.assembleBlock [OP_1] = .ok t ∧
      getWTJoinTX creditingMiner.state (UInt32.ofNat creditingMiner.nHeight) = .ok wtJoinTX ∧
      t.block.vtx = cb::txs ∧ t.vTxFees.tail = fees ∧
      valueSum cb.vout = fees.sum + ((creditingMiner.recorded wtJoinTX).map recordValue).sum +
        valueSum (premine creditingMiner.tip.nHeight) := by
  let : Crypto := minedCrypto
  have hok : (creditingMiner.assembleBlock [OP_1]).isOk = true := by decide
  obtain ⟨t,ht⟩ := isOk_iff.mp hok
  obtain ⟨wtJoinTX,cb,txs,fees,hwt,hvtx,hfees,hvalue,_⟩ := assembleBlock_coinbase ht
  exact ⟨t,wtJoinTX,cb,txs,fees,ht,hwt,hvtx,hfees,hvalue⟩

/-- A block after genesis is connected that consists of a coinbase which pays fifty coins and records
nothing. -/
theorem plainBlock_creates_coins : letI := minedCrypto
    (connectFirst plainBlock).isOk = true ∧ isGenesis regTestNode plainBlock = false ∧
      plainBlock.vtx = [minedTx []] ∧ (minedTx []).isCoinBase = true ∧
      collectDrivechainObjects plainBlock.vtx = .ok [] ∧
      valueSum (premine regTestTip.nHeight) = 0 ∧
      valueSum (minedTx []).vout = 50 * COIN.toInt := by
  refine ⟨?_,?_,rfl,?_,?_,rfl,?_⟩
  all_goals decide +kernel

end Sidechain
