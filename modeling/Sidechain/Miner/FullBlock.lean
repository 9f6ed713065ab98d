import Sidechain.Miner.BlockLimits

/-! The fullest selection a miner can make, and with it exactly when the blocks that are assembled keep
the limits. -/
namespace Sidechain
open Run

/-- A transaction of `62 + L + k` bytes with `k` signature operations. -/
def filler (i L k : ℕ) : CTransaction :=
  { vin := [{ prevout := ⟨BitVec.ofNat 256 (i + 1),0⟩, scriptSig := List.replicate L OP_0 }]
    vout := [⟨0,List.replicate k OP_CHECKSIG⟩] }

/-- They leave no more room in a block than they have to. -/
def fillers : List CTransaction :=
  ((List.range 251).map fun i => filler i 3819 79) ++ [filler 251 3907 70]

/-- Coins for all their inputs. -/
def fillerView : CCoinsViewCache := { base := { getCoins := fun _ => some { vout := [⟨0,[]⟩] } } }

theorem mem_fillers {tx : CTransaction} (h : tx ∈ fillers) :
    ∃ i L k, tx = filler i L k ∧ i < 252 ∧ 253 ≤ L ∧ L ≤ 0xffff ∧ k < 253 := by
  rcases List.mem_append.mp h with h | h
  · obtain ⟨i,hi,rfl⟩ := List.mem_map.mp h
    have hlt := List.mem_range.mp hi
    exact ⟨i,3819,79,rfl,by omega,by omega,by omega,by omega⟩
  · exact ⟨251,3907,70,List.mem_singleton.mp h,by omega,by omega,by omega,by omega⟩

theorem filler_size (i : ℕ) {L k : ℕ} (hL : 253 ≤ L) (hL' : L ≤ 0xffff) (hk : k < 253) :
    (filler i L k).getSerializeSize = 62 + L + k := by
  have hone : getSizeOfCompactSize (0 + 1) = 1 := rfl
  have hshort : getSizeOfCompactSize k = 1 := if_pos hk
  have hlong := compactSize_eq hL hL'
  rw [CTransaction.getSerializeSize,CTransaction.serialize_length,CTransaction.countSize,filler]
  simp only [sizeOfVector,List.length_cons,List.length_nil,List.map_cons,List.map_nil,List.sum_cons,
    List.sum_nil,CTxIn.countSize,COutPoint.countSize,CTxOut.countSize,sizeOfBlob,
    List.length_replicate]
  omega

theorem getSigOpCount_replicate (opcode : UInt8) (c : ℕ)
    (hget : ∀ pc, getOp (opcode::pc) = some ⟨opcode,[],pc⟩)
    (hcount : ∀ last, sigOpsOf false last opcode = c) (k : ℕ) :
    CScript.getSigOpCount (List.replicate k opcode) false = k * c := by
  have hloop : ∀ k last, sigOpCountFrom false k last (List.replicate k opcode) = k * c := by
    intro k
    induction k with
    | zero => exact fun last => (Nat.zero_mul c).symm
    | succ k ih =>
      intro last
      rw [List.replicate_succ,sigOpCountFrom,hget]
      change sigOpsOf false last opcode + sigOpCountFrom false k opcode (List.replicate k opcode) = _
      rw [hcount,ih,Nat.succ_mul,Nat.add_comm]
  unfold CScript.getSigOpCount
  rw [List.length_replicate]
  exact hloop k _

theorem filler_sigOps (i L k : ℕ) : getLegacySigOpCount (filler i L k) = k := by
  have hsig := getSigOpCount_replicate OP_0 0 (fun _ => rfl) (fun _ => rfl) L
  have hpub := getSigOpCount_replicate OP_CHECKSIG 1 (fun _ => rfl) (fun _ => rfl) k
  simp [getLegacySigOpCount,filler,hsig,hpub]

theorem sum_fillers {f : CTransaction → ℕ} {a b : ℕ} (hsame : ∀ i, f (filler i 3819 79) = a)
    (hlast : f (filler 251 3907 70) = b) : (fillers.map f).sum = 251 * a + b := by
  have hfirst : ((List.range 251).map fun i => filler i 3819 79).map f = List.replicate 251 a := by
    rw [List.eq_replicate_iff]
    refine ⟨by rw [List.length_map,List.length_map,List.length_range],fun n hn => ?_⟩
    obtain ⟨tx,htx,rfl⟩ := List.mem_map.mp hn
    obtain ⟨i,_,rfl⟩ := List.mem_map.mp htx
    exact hsame i
  rw [fillers,List.map_append,List.sum_append,hfirst,List.sum_replicate_nat,List.map_singleton,
    List.sum_singleton,hlast]

theorem fillers_size : (fillers.map CTransaction.getSerializeSize).sum = 997999 :=
  sum_fillers (fun i => filler_size i (by omega) (by omega) (by omega))
    (filler_size 251 (by omega) (by omega) (by omega))

theorem fillers_sigOps : (fillers.map getLegacySigOpCount).sum = 19899 :=
  sum_fillers (fun i => filler_sigOps i 3819 79) (filler_sigOps 251 3907 70)

@[simp] theorem fillers_length : fillers.length = 252 := by
  simp [fillers]

theorem filler_checked {i L k : ℕ} (hL : 253 ≤ L) (hL' : L ≤ 0xffff) (hk : k < 253) :
    (filler i L k).Checked := by
  have hnull : (COutPoint.mk (BitVec.ofNat 256 (i + 1)) 0).isNull = false := by
    simp [COutPoint.isNull]
  have hcoinbase : (filler i L k).isCoinBase = false := hnull
  refine ⟨List.cons_ne_nil _ _,List.cons_ne_nil _ _,?_,?_,List.nodup_singleton _,?_,?_⟩
  · rw [filler_size i hL hL' hk]
    have hmax : MAX_BLOCK_SIZE = 1000000 := rfl
    omega
  · refine ⟨fun o ho => ?_,?_⟩
    · rw [List.mem_singleton.mp ho]
      exact le_rfl
    · exact (by decide : (0 : ℤ) ≤ maxMoney)
  · intro h
    rw [hcoinbase] at h
    cases h
  · rintro _ txin htxin
    rw [List.mem_singleton.mp htxin]
    exact hnull

theorem countSigOps_filler (i L k : ℕ) : countSigOps (filler i L k) fillerView = .ok k := by
  have hnull : (COutPoint.mk (BitVec.ofNat 256 (i + 1)) 0).isNull = false := by
    simp [COutPoint.isNull]
  have hcoinbase : (filler i L k).isCoinBase = false := hnull
  have hp2sh : getP2SHSigOpCount (filler i L k) fillerView = .ok 0 := by
    unfold getP2SHSigOpCount
    rw [hcoinbase]
    rfl
  exact bind_ok.mpr ⟨0,hp2sh,congrArg Except.ok (filler_sigOps i L k)⟩

section
variable [Crypto] (hfillers : Unrelated fillers)
include hfillers

theorem fillers_admitted : (CTxMemPool.ofTxs fillers).Admitted fillerView where
  consistent := hfillers.consistent
  checked it e he := by
    obtain ⟨tx,htx,_,rfl⟩ := hfillers.lookup_mapTx.mp he
    obtain ⟨i,L,k,rfl,_,hL,hL',hk⟩ := mem_fillers htx
    exact filler_checked hL hL' hk
  counted it e he := by
    obtain ⟨tx,htx,_,rfl⟩ := hfillers.lookup_mapTx.mp he
    obtain ⟨i,L,k,rfl,_⟩ := mem_fillers htx
    exact (countSigOps_filler i L k).trans (congrArg Except.ok (filler_sigOps i L k).symm)

variable {Priority : Type} (m : MinerState Priority) (scriptPubKeyIn : CScript)

omit hfillers in
/-- A miner with this pool, who asks for no fee and makes the largest blocks. -/
def MinerState.withFillers : MinerState Priority :=
  { m with ctx := { m.ctx with args := { blockmaxsize := 999000 }, minRelayTxFee := ⟨0⟩ }
           mempool := CTxMemPool.ofTxs fillers
           sendDrivechainWT := fun _ => true }

theorem MinerState.withFillers_assembles {wtJoinTX : CTransaction}
    (hwt : getWTJoinTX m.state (UInt32.ofNat m.nHeight) = .ok wtJoinTX) {hash : Uint256}
    (hhash : m.tip.phashBlock = some hash) :
    ∃ t txs, m.withFillers.assembleBlock scriptPubKeyIn = .ok t ∧ txs.Perm fillers ∧
      t.block.vtx = coinbaseTx scriptPubKeyIn m.nHeight 0 (m.bookkeeping wtJoinTX) :: txs := by
  have hmax : m.withFillers.selectContext.args.nBlockMaxSize = 999000 := rfl
  have hmaxOps : MAX_BLOCK_SIGOPS = 20000 := rfl
  obtain ⟨s,hs,hperm,hfees⟩ := hfillers.selectTxs_takes m.withFillers.selectContext rfl rfl
    (fun tx htx => by
      obtain ⟨i,L,k,rfl,_⟩ := mem_fillers htx
      rfl)
    (by
      rw [fillers_size,hmax]
      omega)
    (by
      rw [fillers_sigOps,hmaxOps]
      omega)
  obtain ⟨t,ht,hvtx⟩ := assembleBlock_of (m := m.withFillers) scriptPubKeyIn hwt hs
    (show (0 : CAmount).toInt = s.nFees from hfees.symm) (Or.inr rfl) hhash
  exact ⟨t,s.vtx,ht,hperm,hvtx⟩

end

section
variable [Crypto] {Priority : Type} {m : MinerState Priority} {scriptPubKeyIn : CScript}

/-- The limits are kept for every pool, every configuration and every answer of the mainchain client if
and only if the coinbase that is made of the height, the deposits, the WT^ and the script has at most
1918 bytes and 101 signature operations. -/
theorem assembleBlock_withinLimits (hfillers : Unrelated fillers) {wtJoinTX : CTransaction}
    (hwt : getWTJoinTX m.state (UInt32.ofNat m.nHeight) = .ok wtJoinTX) {hash : Uint256}
    (hhash : m.tip.phashBlock = some hash) :
    (∀ ctx mempool sendDrivechainWT view t, CTxMemPool.Admitted view mempool →
      ({ m with ctx, mempool, sendDrivechainWT } : MinerState Priority).assembleBlock
        scriptPubKeyIn = .ok t → t.block.WithinLimits view) ↔
      m.CoinbaseFits scriptPubKeyIn wtJoinTX := by
  constructor
  · intro hall
    obtain ⟨t,txs,ht,hperm,hvtx⟩ := m.withFillers_assembles hfillers scriptPubKeyIn hwt hhash
    have hlimits := hall _ _ _ fillerView t (fillers_admitted hfillers) ht
    have hsizes : (txs.map CTransaction.getSerializeSize).sum = 997999 := by
      rw [(hperm.map _).sum_eq,fillers_size]
    have hops : (txs.map getLegacySigOpCount).sum = 19899 := by
      rw [(hperm.map _).sum_eq,fillers_sigOps]
    have hstart : getSizeOfCompactSize (txs.length + 1) = 3 := by
      rw [hperm.length_eq,fillers_length]
      rfl
    have hmax : MAX_BLOCK_SIZE = 1000000 := rfl
    have hmaxOps : MAX_BLOCK_SIGOPS = 20000 := rfl
    constructor
    · have hsize : t.block.getSerializeSize ≤ MAX_BLOCK_SIZE :=
        not_lt.mp fun hlarge => hlimits.length (Or.inr (Or.inr hlarge))
      rw [CBlock.getSerializeSize_eq,hvtx,List.length_cons,List.map_cons,List.sum_cons,
        m.getSerializeSize_coinbaseTx,hstart,hsizes] at hsize
      omega
    · have hcount := not_lt.mp hlimits.legacy
      rw [hvtx,List.map_cons,List.sum_cons,m.getLegacySigOpCount_coinbaseTx,hops] at hcount
      omega
  · intro hfits ctx mempool sendDrivechainWT view t hpool ht
    obtain ⟨wtJoinTX',nFees,es,hes⟩ := assembleBlock_ok ht
    obtain rfl : wtJoinTX = wtJoinTX' := Except.ok.inj (hwt.symm.trans hes.wtJoin)
    exact hes.withinLimits hpool ⟨hfits.size,hfits.sigOps⟩

end

/-- A hash that tells transactions apart which spend from different ones. -/
@[reducible] def prevoutCrypto : Crypto :=
  { tableCrypto [] with
    hash256 := fun bs => BitVec.ofNat 256 (ofLeBytes ((bs.drop 5).take 32) + 1000) }

theorem ofLeBytes_serializeBits (h : Uint256) : ofLeBytes (serializeBits 32 h) = h.toNat := by
  rw [serializeBits,ofLeBytes_leBytes]
  exact Nat.mod_eq_of_lt h.isLt

theorem filler_hash {i L k : ℕ} (hi : i < 252) :
    letI := prevoutCrypto; (filler i L k).getHash = BitVec.ofNat 256 (i + 1001) := by
  let : Crypto := prevoutCrypto
  have hbytes : ((filler i L k).serialize.drop 5).take 32 =
      serializeBits 32 (BitVec.ofNat 256 (i + 1)) := by
    obtain ⟨tail,htail⟩ : ∃ tail, (filler i L k).serialize =
        (serializeBits 4 (1 : Int32).toBitVec ++ writeCompactSize 1) ++
          (serializeBits 32 (BitVec.ofNat 256 (i + 1)) ++ tail) := by
      simp only [filler,CTransaction.serialize,serializeVector,List.flatMap_cons,CTxIn.serialize,
        COutPoint.serialize,List.append_assoc]
      exact ⟨_,rfl⟩
    rw [htail,List.drop_left' (by simp [serializeBits_length,getSizeOfCompactSize]),
      List.take_left' (serializeBits_length 32 _)]
  change BitVec.ofNat 256 (ofLeBytes (((filler i L k).serialize.drop 5).take 32) + 1000) = _
  rw [hbytes,ofLeBytes_serializeBits,BitVec.toNat_ofNat,Nat.mod_eq_of_lt (by omega)]

theorem fillers_map {β : Type} {f : CTransaction → β} {g : ℕ → β}
    (h : ∀ {i L k}, i < 252 → f (filler i L k) = g i) : fillers.map f = (List.range 252).map g := by
  have hrange : List.range 252 = List.range 251 ++ [251] := List.range_succ
  rw [fillers,hrange,List.map_append,List.map_append,List.map_map]
  refine congrArg₂ (· ++ ·) (List.map_congr_left fun i hi => ?_) ?_
  · have hlt := List.mem_range.mp hi
    exact h (by omega)
  · exact congrArg (fun b => [b]) (h (show 251 < 252 by omega))

theorem nodup_range_map {β : Type} {n : ℕ} {g : ℕ → β}
    (h : ∀ i < n, ∀ j < n, g i = g j → i = j) : ((List.range n).map g).Nodup :=
  List.nodup_range.map_on fun i hi j hj => h i (List.mem_range.mp hi) j (List.mem_range.mp hj)

theorem fillers_unrelated : letI := prevoutCrypto; Unrelated fillers := by
  let : Crypto := prevoutCrypto
  have hhashes : fillers.map CTransaction.getHash =
      (List.range 252).map fun i => BitVec.ofNat 256 (i + 1001) := fillers_map filler_hash
  refine ⟨?_,?_,fun tx htx txin htxin hmem => ?_⟩
  · rw [hhashes]
    refine nodup_range_map fun i hi j hj heq => ?_
    have hsame := Uint256.ofNat_inj (by omega) (by omega) heq
    omega
  · have hprevouts : (fillers.flatMap fun tx => tx.vin.map CTxIn.prevout) =
        (List.range 252).map fun i => COutPoint.mk (BitVec.ofNat 256 (i + 1)) 0 := by
      have hone : (fillers.map fun tx => tx.vin.map CTxIn.prevout) =
          (List.range 252).map fun i => [COutPoint.mk (BitVec.ofNat 256 (i + 1)) 0] :=
        fillers_map fun {i L k} _ => (rfl : (filler i L k).vin.map CTxIn.prevout = _)
      rw [List.flatMap_def,hone,← List.flatMap_def]
      exact List.map_eq_flatMap.symm
    rw [hprevouts]
    refine nodup_range_map fun i hi j hj heq => ?_
    have hsame := Uint256.ofNat_inj (by omega) (by omega) (congrArg COutPoint.hash heq)
    omega
  · obtain ⟨i,L,k,rfl,hi,_⟩ := mem_fillers htx
    rw [hhashes,List.mem_singleton.mp htxin] at hmem
    obtain ⟨j,hj,heq⟩ := List.mem_map.mp hmem
    have hlt := List.mem_range.mp hj
    have hsame := Uint256.ofNat_inj (by omega) (by omega) heq
    omega

/-- Whatever the pool holds, the blocks of a miner who credits one small deposit keep the limits. -/
theorem creditingMiner_withinLimits : letI := prevoutCrypto
    creditingMiner.CoinbaseFits [OP_1] {} ∧
      ∀ ctx mempool sendDrivechainWT view t, CTxMemPool.Admitted view mempool →
        ({ creditingMiner with ctx, mempool, sendDrivechainWT } : MinerState ℕ).assembleBlock
          [OP_1] = .ok t → t.block.WithinLimits view := by
  let : Crypto := prevoutCrypto
  have hwt : getWTJoinTX creditingMiner.state (UInt32.ofNat creditingMiner.nHeight) = .ok {} := by
    decide +kernel
  have hfits : creditingMiner.CoinbaseFits [OP_1] {} := ⟨by decide +kernel,by decide +kernel⟩
  exact ⟨hfits,(assembleBlock_withinLimits fillers_unrelated hwt rfl).mpr hfits⟩

/-- A deposit that is paid out in many parts. -/
def crowdedDeposit (parts : ℕ) : DrivechainDeposit :=
  { coinDeposit with
    deposit := { coinDeposit.deposit with
      vout := List.replicate parts ⟨COIN,SIDECHAIN_DEPOSITSCRIPT⟩ } }

def crowdedMiner (parts : ℕ) : MinerState ℕ :=
  { creditingMiner with vDeposit := [crowdedDeposit parts] }

theorem selectTxs_empty {Priority : Type} (ctx : MinerContext Priority) :
    ∃ s, ctx.selectTxs {} = .ok (some s) ∧ s.vtx = [] ∧ s.nFees = 0 := ⟨_,rfl,rfl,rfl⟩

@[simp] theorem isRecorded_empty [Crypto] (d : DrivechainDeposit) : isRecorded ∅ d = false := by
  simp [isRecorded,CDrivechainTreeDB.getDeposit,DrivechainKind.readDrivechain]

theorem crowdedMiner_sigOps [Crypto] (parts : ℕ) :
    parts ≤ (crowdedMiner parts).coinbaseSigOps [OP_1] {} := by
  have hvout : (getDepositTX (crowdedMiner parts).state.disk.pdrivechaintree
      (crowdedMiner parts).vDeposit).vout = creditDeposit (crowdedDeposit parts) := by
    change (if isRecorded ∅ (crowdedDeposit parts) then [] else creditDeposit (crowdedDeposit parts)) ++
      [] = _
    rw [isRecorded_empty,if_neg Bool.false_ne_true,List.append_nil]
  have hout : depositPayments (crowdedDeposit parts) =
      List.replicate parts ⟨COIN,keyScript 7⟩ := by
    unfold depositPayments depositOutputs crowdedDeposit
    rw [List.filter_replicate_of_pos (by decide),List.map_replicate]
    rfl
  have hone : (keyScript 7).getSigOpCount false = 1 := by decide
  unfold MinerState.coinbaseSigOps MinerState.bookkeeping
  rw [hvout,creditDeposit,hout]
  simp only [List.map_append,List.map_cons,List.map_replicate,List.sum_append,List.sum_cons,
    List.sum_replicate_nat,hone]
  omega

/-- With an empty pool the block has a signature operation for each part. -/
theorem crowdedMiner_exceeds : letI := prevoutCrypto
    ∃ view t, CTxMemPool.Admitted view (crowdedMiner 20001).mempool ∧
      (crowdedMiner 20001).assembleBlock [OP_1] = .ok t ∧ ¬ t.block.WithinLimits view := by
  let : Crypto := prevoutCrypto
  have hwt : getWTJoinTX creditingMiner.state (UInt32.ofNat creditingMiner.nHeight) = .ok {} := by
    decide
  obtain ⟨s,hs,hvtx,hfees⟩ := selectTxs_empty (crowdedMiner 20001).selectContext
  obtain ⟨t,ht,hblock⟩ := assembleBlock_of (m := crowdedMiner 20001) [OP_1] hwt hs
    (show (0 : CAmount).toInt = s.nFees from hfees.symm) (Or.inl rfl) rfl
  have hops := crowdedMiner_sigOps 20001
  have hmax : MAX_BLOCK_SIGOPS = 20000 := rfl
  refine ⟨{},t,⟨.empty,?_,?_⟩,ht,fun hlimits => hlimits.legacy ?_⟩
  · exact fun it e he => nomatch he
  · exact fun it e he => nomatch he
  · rw [hblock,hvtx,List.map_singleton,List.sum_singleton,MinerState.getLegacySigOpCount_coinbaseTx]
    omega

end Sidechain
