import Sidechain.Primitives.Drivechain
import Sidechain.Chain.BlockIndex
import Mathlib.Algebra.Order.BigOperators.Group.List

/-! The context-free checks of a transaction and of a block, what they establish, and the exact value
sums of a transaction that passed them. -/
namespace Sidechain
open Run

def MAX_BLOCK_SIZE : ℕ := 1000000

/-- One round of the loop over the outputs. -/
def checkTxOut (nValueOut : CAmount) (txout : CTxOut) : Outcome CAmount := do
  require (¬ txout.nValue < 0) (dos 100 REJECT_INVALID "bad-txns-vout-negative")
  require (¬ txout.nValue > MAX_MONEY) (dos 100 REJECT_INVALID "bad-txns-vout-toolarge")
  let nValueOut ← addAmount nValueOut txout.nValue
  require (moneyRange nValueOut) (dos 100 REJECT_INVALID "bad-txns-txouttotal-toolarge")
  pure nValueOut

/-- One round of the loop over the inputs; the set of outpoints seen is the state. -/
def checkTxIn (vInOutPoints : List COutPoint) (txin : CTxIn) : Outcome (List COutPoint) := do
  require (txin.prevout ∉ vInOutPoints) (dos 100 REJECT_INVALID "bad-txns-inputs-duplicate")
  pure (txin.prevout :: vInOutPoints)

def checkPrevout (txin : CTxIn) : Outcome Unit :=
  require (¬ txin.prevout.isNull) (dos 10 REJECT_INVALID "bad-txns-prevout-null")

/-- A coinbase has a script of two to a hundred bytes. -/
def checkCoinbaseScript (tx : CTransaction) : Outcome Unit :=
  match tx.vin with
  | [] => .error (.undefined "tx.vin[0]")
  | txin :: _ =>
    require (¬ (txin.scriptSig.length < 2 ∨ txin.scriptSig.length > 100))
      (dos 100 REJECT_INVALID "bad-cb-length")

def checkTransaction (tx : CTransaction) : Outcome Unit := do
  require (tx.vin ≠ []) (dos 10 REJECT_INVALID "bad-txns-vin-empty")
  require (tx.vout ≠ []) (dos 10 REJECT_INVALID "bad-txns-vout-empty")
  require (¬ tx.getSerializeSize > MAX_BLOCK_SIZE) (dos 100 REJECT_INVALID "bad-txns-oversize")
  let _ ← tx.vout.foldlM checkTxOut 0
  let _ ← tx.vin.foldlM checkTxIn []
  if tx.isCoinBase then checkCoinbaseScript tx else forM tx.vin checkPrevout

/-- The sum of output values as integers. -/
def valueSum (outs : List CTxOut) : ℤ := (outs.map fun o => o.nValue.toInt).sum

@[simp] theorem valueSum_nil : valueSum [] = 0 := rfl
@[simp] theorem valueSum_cons (o : CTxOut) (outs : List CTxOut) :
    valueSum (o::outs) = o.nValue.toInt + valueSum outs := by simp [valueSum]
@[simp] theorem valueSum_append (outs outs' : List CTxOut) :
    valueSum (outs ++ outs') = valueSum outs + valueSum outs' := by simp [valueSum]

def maxMoney : ℤ := 2100000000000000

/-- Values are not negative and add up to no more than `MAX_MONEY`. -/
structure ValuesInRange (outs : List CTxOut) : Prop where
  nonneg : ∀ o ∈ outs, 0 ≤ o.nValue.toInt
  sum_le : valueSum outs ≤ maxMoney

theorem valueSum_nonneg {outs : List CTxOut} (h : ∀ o ∈ outs, 0 ≤ o.nValue.toInt) :
    0 ≤ valueSum outs :=
  List.sum_nonneg (by simpa using h)

theorem int64_neg_iff (n : CAmount) : n < 0 ↔ n.toInt < 0 := Int64.lt_iff_toInt_lt

theorem maxMoney_lt_iff (n : CAmount) : n > MAX_MONEY ↔ maxMoney < n.toInt := by
  have hmax : MAX_MONEY.toInt = maxMoney := by decide
  rw [gt_iff_lt,Int64.lt_iff_toInt_lt,hmax]

theorem checkTxOut_ok {n n' : CAmount} {o : CTxOut} :
    checkTxOut n o = .ok n' ↔ 0 ≤ o.nValue.toInt ∧ o.nValue.toInt ≤ maxMoney ∧
      n'.toInt = n.toInt + o.nValue.toInt ∧ 0 ≤ n'.toInt ∧ n'.toInt ≤ maxMoney := by
  unfold checkTxOut
  simp only [bind_ok,require_dos_ok,addAmount_ok,pure_ok,int64_neg_iff,maxMoney_lt_iff,
    moneyRange_iff]
  constructor
  · rintro ⟨_,h0,_,h1,m,hm,_,hrange,rfl⟩
    exact ⟨by omega,by omega,hm,hrange.1,hrange.2⟩
  · rintro ⟨h0,h1,hm,hlo,hhi⟩
    exact ⟨(),by omega,(),by omega,n',hm,(),⟨hlo,hhi⟩,rfl⟩

/-- The running sum of the loop. -/
theorem foldlM_checkTxOut_ok {outs : List CTxOut} {n n' : CAmount} (hn : 0 ≤ n.toInt)
    (h : outs.foldlM checkTxOut n = .ok n') :
    n'.toInt = n.toInt + valueSum outs ∧ ∀ o ∈ outs, 0 ≤ o.nValue.toInt := by
  induction outs generalizing n with
  | nil =>
    rw [foldlM_nil_ok] at h
    simp [h]
  | cons o outs ih =>
    obtain ⟨m,hm,hrest⟩ := foldlM_cons_ok.mp h
    obtain ⟨h0,_,hsum,hm0,_⟩ := checkTxOut_ok.mp hm
    obtain ⟨hn',hall⟩ := ih hm0 hrest
    refine ⟨by rw [hn',hsum,valueSum_cons]; omega,?_⟩
    simpa using ⟨h0,hall⟩

theorem checkTxOut_valuesInRange {outs : List CTxOut} {n' : CAmount}
    (h : outs.foldlM checkTxOut 0 = .ok n') : ValuesInRange outs := by
  obtain ⟨hsum,hall⟩ := foldlM_checkTxOut_ok le_rfl h
  rcases List.eq_nil_or_concat outs with rfl | ⟨front,o,rfl⟩
  · exact ⟨hall,by decide⟩
  · rw [List.concat_eq_append] at *
    obtain ⟨m,_,hlast⟩ := foldlM_append_ok.mp h
    have hle := (checkTxOut_ok.mp (foldlM_singleton_ok.mp hlast)).2.2.2.2
    exact ⟨hall,by simpa [hsum] using hle⟩

/-- A sum in range is found by the loop, from any partial sum. -/
theorem foldlM_checkTxOut_of_inRange {outs : List CTxOut} {n : CAmount} (hn : 0 ≤ n.toInt)
    (hall : ∀ o ∈ outs, 0 ≤ o.nValue.toInt) (hle : n.toInt + valueSum outs ≤ maxMoney) :
    ∃ n', outs.foldlM checkTxOut n = .ok n' := by
  induction outs generalizing n with
  | nil => exact ⟨n,rfl⟩
  | cons o outs ih =>
    have h0 := hall o (by simp)
    have hrest := valueSum_nonneg fun o' ho' => hall o' (List.mem_cons_of_mem o ho')
    rw [valueSum_cons] at hle
    have hmax : maxMoney = 2100000000000000 := rfl
    have hm : (Int64.ofInt (n.toInt + o.nValue.toInt)).toInt = n.toInt + o.nValue.toInt :=
      Int64.toInt_ofInt_of_le (by omega) (by omega)
    obtain ⟨n',hn'⟩ := ih (n := Int64.ofInt (n.toInt + o.nValue.toInt)) (by omega)
      (fun o' ho' => hall o' (List.mem_cons_of_mem o ho')) (by omega)
    exact ⟨n',foldlM_cons_ok.mpr ⟨_,checkTxOut_ok.mpr ⟨h0,by omega,hm,by omega,by omega⟩,hn'⟩⟩

theorem foldlM_checkTxIn_ok {vin : List CTxIn} {seen seen' : List COutPoint} :
    vin.foldlM checkTxIn seen = .ok seen' ↔ seen' = (vin.map CTxIn.prevout).reverse ++ seen ∧
      (vin.map CTxIn.prevout).Nodup ∧ ∀ o ∈ vin.map CTxIn.prevout, o ∉ seen := by
  induction vin generalizing seen with
  | nil => rw [foldlM_nil_ok]; simp [eq_comm]
  | cons i vin ih =>
    rw [foldlM_cons_ok]
    simp only [checkTxIn,bind_ok,require_dos_ok,pure_ok,ih,List.map_cons,List.reverse_cons,
      List.append_assoc,List.singleton_append,List.nodup_cons,List.forall_mem_cons]
    constructor
    · rintro ⟨m,⟨_,hi,rfl⟩,rfl,hnodup,hfresh⟩
      exact ⟨rfl,⟨fun hmem => hfresh _ hmem (by simp),hnodup⟩,hi,
        fun o ho hs => hfresh o ho (List.mem_cons_of_mem _ hs)⟩
    · rintro ⟨rfl,⟨hi,hnodup⟩,hseen,hfresh⟩
      refine ⟨_,⟨(),hseen,rfl⟩,rfl,hnodup,fun o ho hs => ?_⟩
      rcases List.mem_cons.mp hs with rfl | hs
      · exact hi ho
      · exact hfresh o ho hs

/-- What `CheckTransaction` establishes. -/
structure CTransaction.Checked (tx : CTransaction) : Prop where
  vin_ne_nil : tx.vin ≠ []
  vout_ne_nil : tx.vout ≠ []
  size_le : tx.getSerializeSize ≤ MAX_BLOCK_SIZE
  values : ValuesInRange tx.vout
  nodup : (tx.vin.map CTxIn.prevout).Nodup
  coinbase_script : tx.isCoinBase = true →
    ∀ txin ∈ tx.vin, 2 ≤ txin.scriptSig.length ∧ txin.scriptSig.length ≤ 100
  prevouts : tx.isCoinBase = false → ∀ txin ∈ tx.vin, txin.prevout.isNull = false

theorem CTransaction.vin_of_isCoinBase {tx : CTransaction} (h : tx.isCoinBase = true) :
    ∃ txin, tx.vin = [txin] ∧ txin.prevout.isNull = true := by
  unfold CTransaction.isCoinBase at h
  split at h
  · exact ⟨_,‹_›,h⟩
  · cases h

theorem checkTransaction_ok {tx : CTransaction} : checkTransaction tx = .ok () ↔ tx.Checked := by
  unfold checkTransaction
  simp only [bind_ok,require_dos_ok]
  constructor
  · rintro ⟨_,hvin,_,hvout,_,hsize,n,hn,seen,hseen,hrest⟩
    have hnodup := (foldlM_checkTxIn_ok.mp hseen).2.1
    refine ⟨hvin,hvout,Nat.not_lt.mp hsize,checkTxOut_valuesInRange hn,hnodup,?_,?_⟩
    · intro hcb txin htxin
      obtain ⟨i,hi,_⟩ := CTransaction.vin_of_isCoinBase hcb
      rw [if_pos hcb] at hrest
      simp only [checkCoinbaseScript,hi,require_dos_ok] at hrest
      rw [hi,List.mem_singleton] at htxin
      subst htxin
      omega
    · intro hcb txin htxin
      rw [if_neg (by simp [hcb])] at hrest
      simpa [checkPrevout] using forM_ok.mp hrest txin htxin
  · intro h
    obtain ⟨n,hn⟩ := foldlM_checkTxOut_of_inRange (n := 0) le_rfl h.values.nonneg
      (by simpa using h.values.sum_le)
    refine ⟨(),h.vin_ne_nil,(),h.vout_ne_nil,(),Nat.not_lt.mpr h.size_le,n,hn,_,
      foldlM_checkTxIn_ok.mpr ⟨rfl,h.nodup,by simp⟩,?_⟩
    split_ifs with hcb
    · obtain ⟨i,hi,_⟩ := CTransaction.vin_of_isCoinBase hcb
      have hlen := h.coinbase_script hcb i (by simp [hi])
      simp only [checkCoinbaseScript,hi,require_dos_ok]
      omega
    · exact forM_ok.mpr fun txin htxin => by
        simpa [checkPrevout] using h.prevouts (by simpa using hcb) txin htxin

def MAX_BLOCK_SIGOPS : ℕ := MAX_BLOCK_SIZE / 50

def getLegacySigOpCount (tx : CTransaction) : ℕ :=
  (tx.vin.map fun txin => txin.scriptSig.getSigOpCount false).sum +
    (tx.vout.map fun txout => txout.scriptPubKey.getSigOpCount false).sum

variable [Crypto]

def checkBlockHeader (consensus : Params) (adjustedTime : ℤ) (block : CBlockHeader)
    (fCheckPOW : Bool) : Outcome Unit := do
  require (¬ (fCheckPOW ∧ ¬ checkProofOfWork block.getHash block.nBits consensus.powLimit))
    (dos 50 REJECT_INVALID "high-hash")
  require (¬ block.getBlockTime > adjustedTime + 2 * 60 * 60)
    (invalid REJECT_INVALID "time-too-new")

def checkMerkleRoot (block : CBlock) (fCheckMerkleRoot : Bool) : Outcome Unit :=
  if !fCheckMerkleRoot then .ok ()
  else do
    let root := blockMerkleRoot block
    require (block.hashMerkleRoot = root.1) (dos 100 REJECT_INVALID "bad-txnmrklroot" true)
    require (¬ root.2) (dos 100 REJECT_INVALID "bad-txns-duplicate" true)

def checkBlock (consensus : Params) (adjustedTime : ℤ) (block : CBlock) (fCheckPOW : Bool)
    (fCheckMerkleRoot : Bool) : Outcome Unit := do
  checkBlockHeader consensus adjustedTime block.toCBlockHeader fCheckPOW
  checkMerkleRoot block fCheckMerkleRoot
  require (¬ (block.vtx = [] ∨ block.vtx.length > MAX_BLOCK_SIZE ∨
    block.getSerializeSize > MAX_BLOCK_SIZE)) (dos 100 REJECT_INVALID "bad-blk-length")
  require (block.vtx.head?.any CTransaction.isCoinBase) (dos 100 REJECT_INVALID "bad-cb-missing")
  forM block.vtx.tail fun tx => require (¬ tx.isCoinBase) (dos 100 REJECT_INVALID "bad-cb-multiple")
  forM block.vtx checkTransaction
  require (¬ (block.vtx.map getLegacySigOpCount).sum > MAX_BLOCK_SIGOPS)
    (dos 100 REJECT_INVALID "bad-blk-sigops")

omit [Crypto] in
/-- What `CheckBlock` establishes of the transactions. -/
structure CBlock.Checked (block : CBlock) : Prop where
  size_le : block.getSerializeSize ≤ MAX_BLOCK_SIZE
  coinbase : ∃ cb rest, block.vtx = cb :: rest ∧ cb.isCoinBase = true ∧
    ∀ tx ∈ rest, tx.isCoinBase = false
  txs : ∀ tx ∈ block.vtx, tx.Checked

theorem checkBlock_ok {consensus : Params} {adjustedTime : ℤ} {block : CBlock}
    {fCheckPOW fCheckMerkleRoot : Bool}
    (h : checkBlock consensus adjustedTime block fCheckPOW fCheckMerkleRoot = .ok ()) :
    block.Checked := by
  simp only [checkBlock,bind_ok,require_dos_ok,forM_ok] at h
  obtain ⟨_,_,_,_,_,hlen,_,hcb,_,hrest,_,htxs,_⟩ := h
  rw [not_or,not_or,not_lt,not_lt] at hlen
  refine ⟨hlen.2.2,?_,fun tx htx => checkTransaction_ok.mp (htxs tx htx)⟩
  cases hvtx : block.vtx with
  | nil => exact absurd hvtx hlen.1
  | cons cb rest =>
    rw [hvtx] at hcb hrest
    exact ⟨cb,rest,rfl,by simpa using hcb,fun tx htx => by simpa using hrest tx htx⟩

end Sidechain
