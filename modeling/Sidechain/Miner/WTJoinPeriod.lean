import Sidechain.Chain.Canonical
import Sidechain.Miner.ObjectHeight
import Sidechain.Validation.DryRun
import Mathlib.Order.Bounds.Basic

/-! Which period a withdrawal is joined in: on a chain grown block by block, the one that contains its
height, as long as the index still has it when the period ends. -/
namespace Sidechain
open Codec Run

section
variable [Crypto]

/-- `GetWTJoinTX` puts the withdrawal into `toJoin`. -/
def NodeState.Selects (node : NodeState) (nHeight : UInt32) (w : DrivechainWithdraw) : Prop :=
  ∃ db, node.disk.pdrivechaintree = some db ∧ w ∈ db.getWTs ∧ inPeriod node nHeight w = .ok true

theorem mem_filterPeriod {node : NodeState} {nHeight : UInt32} {w : DrivechainWithdraw}
    {vWithdraw toJoin : List DrivechainWithdraw}
    (h : filterPeriod node nHeight vWithdraw = .ok toJoin) :
    w ∈ toJoin ↔ w ∈ vWithdraw ∧ inPeriod node nHeight w = .ok true := by
  induction vWithdraw generalizing toJoin with
  | nil =>
    cases h
    simp
  | cons v vWithdraw ih =>
    simp only [filterPeriod,bind_ok,pure_ok] at h
    obtain ⟨keep,hkeep,rest,hrest,rfl⟩ := h
    rw [List.mem_cons,or_and_right,← ih hrest]
    cases keep with
    | true =>
      rw [if_pos rfl,List.mem_cons]
      exact or_congr_left ⟨fun heq => ⟨heq,heq ▸ hkeep⟩,And.left⟩
    | false =>
      rw [if_neg Bool.false_ne_true]
      refine (or_iff_right ?_).symm
      rintro ⟨rfl,hin⟩
      rw [hkeep] at hin
      cases hin

theorem NodeState.selects_iff {node : NodeState} {nHeight : UInt32} {w : DrivechainWithdraw}
    {db : CDrivechainTreeDB} {toJoin : List DrivechainWithdraw}
    (hdb : node.disk.pdrivechaintree = some db)
    (h : filterPeriod node nHeight db.getWTs = .ok toJoin) : node.Selects nHeight w ↔ w ∈ toJoin := by
  rw [mem_filterPeriod h]
  constructor
  · rintro ⟨db',hdb',hw⟩
    obtain rfl : db = db' := Option.some.inj (hdb.symm.trans hdb')
    exact hw
  · exact fun hw => ⟨db,hdb,hw⟩

/-- The window of the call for `k * SIDECHAIN_TAU`, for a withdrawal below that height. -/
theorem inPeriod_iff {node : NodeState} {w : DrivechainWithdraw} {h k : ℕ}
    (hheight : getDrivechainObjectHeight node w.txid = .ok (UInt32.ofNat h)) (hk : 0 < k)
    (hlt : h < k * SIDECHAIN_TAU) (hshort : k * SIDECHAIN_TAU < 2^31) :
    inPeriod node (UInt32.ofNat (k * SIDECHAIN_TAU)) w = .ok true ↔ (k - 1) * SIDECHAIN_TAU ≤ h := by
  have htau : SIDECHAIN_TAU ≤ k * SIDECHAIN_TAU := Nat.le_mul_of_pos_left _ hk
  have hsize : UInt32.size = 2^32 := rfl
  have hnat : ∀ n < 2^31, (UInt32.ofNat n).toNat = n :=
    fun n hn => UInt32.toNat_ofNat_of_lt' (by omega)
  have hmin : (UInt32.ofNat (k * SIDECHAIN_TAU) - UInt32.ofNat SIDECHAIN_TAU).toNat =
      (k - 1) * SIDECHAIN_TAU := by
    rw [UInt32.toNat_sub_of_le _ _ (by
      rw [UInt32.le_iff_toNat_le,hnat _ hshort,hnat _ (by omega)]
      exact htau),hnat _ hshort,hnat _ (by omega),Nat.sub_mul,Nat.one_mul]
  simp only [inPeriod,hheight,bind,Except.bind,pure,Except.pure,Except.ok.injEq,Bool.and_eq_true,
    Bool.not_eq_true',decide_eq_false_iff_not,gt_iff_lt,UInt32.lt_iff_toNat_lt,hmin,hnat _ hshort,
    hnat h (by omega)]
  omega

omit [Crypto] in
/-- A period contains the height if it is the first to end above it. -/
theorem isLeast_period_iff {h k k₀ : ℕ} (hleast : IsLeast {k | h < k * SIDECHAIN_TAU} k₀)
    (hlt : h < k * SIDECHAIN_TAU) : (k - 1) * SIDECHAIN_TAU ≤ h ↔ k = k₀ := by
  have hle : k₀ ≤ k := hleast.2 hlt
  have hlow : h < k₀ * SIDECHAIN_TAU := hleast.1
  constructor
  · intro hk
    by_contra hne
    have hstep := Nat.mul_le_mul_right SIDECHAIN_TAU (show k₀ ≤ k - 1 by omega)
    omega
  · rintro rfl
    by_contra hhigh
    have hbelow : k ≤ k - 1 := hleast.2 (show h < (k - 1) * SIDECHAIN_TAU by omega)
    have hzero : k = 0 := by omega
    rw [hzero,Nat.zero_mul] at hlow
    exact absurd hlow (Nat.not_lt_zero h)

/-- The node when the blocks are those of the active chain, connected one after the other. -/
structure NodeState.GrownTo (node : NodeState) (consensus : Params) (start : Disk)
    (blocks : List CBlock) : Prop where
  run : ChainRun consensus start blocks blocks.reverse node.disk
  chainActive : node.chainActive = blocks.map fun block => block.getHash

/-- `node k` is the node when the tip is below `k * SIDECHAIN_TAU`; heights are ints. -/
structure GrowsBy (consensus : Params) (blocks : List CBlock) (node : ℕ → NodeState) : Prop where
  short : blocks.length < 2^31
  grown : ∀ k, 0 < k → k * SIDECHAIN_TAU ≤ blocks.length → ∃ start : Disk,
    start.pdrivechaintree = some ∅ ∧
      (node k).GrownTo consensus start (blocks.take (k * SIDECHAIN_TAU))

/-- The withdrawal is in the block at the height only, and `GetTransaction` finds its transaction in that
block as soon as the chain has it. -/
structure ConfirmedAt (consensus : Params) (blocks : List CBlock) (node : ℕ → NodeState)
    (w : DrivechainWithdraw) (h : ℕ) (block : CBlock) : Prop where
  atHeight : blocks[h]? = some block
  contains : block.Contains consensus (.withdraw w)
  once : ∀ i (block' : CBlock), blocks[i]? = some block' → block'.Contains consensus (.withdraw w) →
    i = h
  found : ∀ k, h < k * SIDECHAIN_TAU → k * SIDECHAIN_TAU ≤ blocks.length →
    (getTransaction (node k) w.txid true).found = true ∧
    (getTransaction (node k) w.txid true).hashBlock = block.getHash ∧
    (node k).mapBlockIndex block.getHash = some h

/-- No other object with its key is recorded after the object. -/
def Unreplaced (objs : List DrivechainObj) (obj : DrivechainObj) : Prop :=
  ∃ before after, objs = before ++ obj :: after ∧
    ∀ o ∈ after, (o.drivechainop,o.getHash) ≠ (obj.drivechainop,obj.getHash)

theorem unreplaced_iff {objs : List DrivechainObj} {obj : DrivechainObj} :
    Unreplaced objs obj ↔ lastObj objs obj.drivechainop obj.getHash = some obj := by
  rw [lastObj,Store.latest_eq_some_iff]
  constructor
  · rintro ⟨before,after,rfl,hafter⟩
    refine ⟨before.map DrivechainObj.entry,after.map DrivechainObj.entry,by
      rw [List.map_append,List.map_cons,DrivechainObj.entry],?_⟩
    intro e he
    obtain ⟨o,ho,rfl⟩ := List.mem_map.mp he
    exact hafter o ho
  · rintro ⟨before,after,hobjs,hafter⟩
    obtain ⟨front,rest,rfl,rfl,hrest⟩ := List.map_eq_append_iff.mp hobjs
    obtain ⟨o,back,rfl,ho,rfl⟩ := List.map_eq_cons_iff.mp hrest
    have hobj : o = obj := congrArg Prod.snd ho
    exact ⟨front,back,by rw [hobj],fun o' ho' => hafter _ (List.mem_map_of_mem ho')⟩

variable {consensus : Params} {blocks : List CBlock} {node : ℕ → NodeState} {w : DrivechainWithdraw}
  {h : ℕ} {block : CBlock}

section
variable (hgrows : GrowsBy consensus blocks node) (hw : ConfirmedAt consensus blocks node w h block)
  {k : ℕ} (hk : 0 < k) (hreach : k * SIDECHAIN_TAU ≤ blocks.length)
include hgrows hk hreach

theorem GrowsBy.listed : ∃ db, (node k).disk.pdrivechaintree = some db ∧
    (w ∈ db.getWTs ↔ Unreplaced (recorded consensus (blocks.take (k * SIDECHAIN_TAU))) (.withdraw w)) ∧
    ∀ obj, obj ∈ recorded consensus (blocks.take (k * SIDECHAIN_TAU)) ↔
      FoundIn consensus (blocks.take (k * SIDECHAIN_TAU)) obj := by
  obtain ⟨start,hempty,hgrown⟩ := hgrows.grown k hk hreach
  obtain ⟨db,hdb,hholds⟩ := hgrown.run.holds hempty
  refine ⟨db,hdb,?_,fun obj => hgrown.run.mem_recorded hempty⟩
  rw [unreplaced_iff]
  exact hholds.mem_listDrivechain withdrawKind

include hw

theorem ConfirmedAt.height (hlt : h < k * SIDECHAIN_TAU) :
    getDrivechainObjectHeight (node k) w.txid = .ok (UInt32.ofNat h) := by
  obtain ⟨hfound,hhash,hknown⟩ := hw.found k hlt hreach
  obtain ⟨_,_,hgrown⟩ := hgrows.grown k hk hreach
  have hactive : (node k).chainActive[h]? = some block.getHash := by
    rw [hgrown.chainActive,List.getElem?_map,List.getElem?_take_of_lt hlt,hw.atHeight]
    rfl
  unfold getDrivechainObjectHeight
  dsimp only
  rw [hfound,hhash]
  simp only [Bool.not_true,Bool.false_eq_true,if_false,hknown,hactive,if_true]

theorem ConfirmedAt.not_listed (hle : k * SIDECHAIN_TAU ≤ h) :
    ¬ Unreplaced (recorded consensus (blocks.take (k * SIDECHAIN_TAU))) (.withdraw w) := by
  obtain ⟨db,_,_,hmem⟩ := hgrows.listed hk hreach (w := w)
  rintro ⟨before,after,hobjs,_⟩
  obtain ⟨block',hblock',hcontains⟩ := (hmem (.withdraw w)).mp (by simp [hobjs])
  obtain ⟨i,hi⟩ := List.mem_iff_getElem?.mp hblock'
  obtain ⟨hlt,_⟩ := List.getElem?_eq_some_iff.mp hi
  rw [List.length_take] at hlt
  rw [List.getElem?_take_of_lt (by omega)] at hi
  have hsame := hw.once i block' hi hcontains
  omega

/-- A call selects the withdrawal if its period contains the height and the withdrawal is listed. -/
theorem ConfirmedAt.selects_iff {k₀ : ℕ} (hleast : IsLeast {k | h < k * SIDECHAIN_TAU} k₀) :
    (node k).Selects (UInt32.ofNat (k * SIDECHAIN_TAU)) w ↔
      k = k₀ ∧ Unreplaced (recorded consensus (blocks.take (k * SIDECHAIN_TAU))) (.withdraw w) := by
  obtain ⟨db,hdb,hlisted,_⟩ := hgrows.listed hk hreach (w := w)
  have hselects : (node k).Selects (UInt32.ofNat (k * SIDECHAIN_TAU)) w ↔
      w ∈ db.getWTs ∧ inPeriod (node k) (UInt32.ofNat (k * SIDECHAIN_TAU)) w = .ok true := by
    constructor
    · rintro ⟨db',hdb',hw'⟩
      obtain rfl : db = db' := Option.some.inj (hdb.symm.trans hdb')
      exact hw'
    · exact fun hw' => ⟨db,hdb,hw'⟩
  rw [hselects,hlisted]
  rcases lt_or_ge h (k * SIDECHAIN_TAU) with hlt | hle
  · rw [inPeriod_iff (hw.height hgrows hk hreach hlt) hk hlt (lt_of_le_of_lt hreach hgrows.short),
      isLeast_period_iff hleast hlt,and_comm]
  · have hnot := hw.not_listed hgrows hk hreach hle
    exact iff_of_false (fun hboth => hnot hboth.1) fun hboth => hnot hboth.2

end

/-- Selected is what a call joins; and among the calls at the ends of the periods, exactly the one for
the first period that ends above the height selects the withdrawal, if and only if no other withdrawal
to its key is recorded after it before that period ends. -/
theorem withdrawal_selected_once_iff (hgrows : GrowsBy consensus blocks node)
    (hw : ConfirmedAt consensus blocks node w h block) {k₀ : ℕ}
    (hleast : IsLeast {k | h < k * SIDECHAIN_TAU} k₀) :
    (∀ k db toJoin, (node k).disk.pdrivechaintree = some db →
      filterPeriod (node k) (UInt32.ofNat (k * SIDECHAIN_TAU)) db.getWTs = .ok toJoin →
        ((node k).Selects (UInt32.ofNat (k * SIDECHAIN_TAU)) w ↔ w ∈ toJoin)) ∧
    ((∀ k, 0 < k → k * SIDECHAIN_TAU ≤ blocks.length →
      ((node k).Selects (UInt32.ofNat (k * SIDECHAIN_TAU)) w ↔ k = k₀)) ↔
      (k₀ * SIDECHAIN_TAU ≤ blocks.length →
        Unreplaced (recorded consensus (blocks.take (k₀ * SIDECHAIN_TAU))) (.withdraw w))) := by
  refine ⟨fun k db toJoin => NodeState.selects_iff,?_⟩
  have hpos : 0 < k₀ := by
    refine Nat.pos_of_ne_zero fun hzero => ?_
    have hlow : h < k₀ * SIDECHAIN_TAU := hleast.1
    rw [hzero,Nat.zero_mul] at hlow
    exact Nat.not_lt_zero h hlow
  constructor
  · intro hall hreach
    exact ((hw.selects_iff hgrows hpos hreach hleast).mp ((hall k₀ hpos hreach).mpr rfl)).2
  · intro hkept k hk hreach
    rw [hw.selects_iff hgrows hk hreach hleast]
    refine and_iff_left_of_imp ?_
    rintro rfl
    exact hkept hreach

end

theorem tailCrypto_hash (front : Bytes) (n : UInt32) :
    tailCrypto.hash256 (front ++ serializeBits 4 n.toBitVec) = BitVec.ofNat 256 n.toNat := by
  have hlen : (front ++ serializeBits 4 n.toBitVec).length - 4 = front.length := by
    rw [List.length_append,serializeBits,leBytes_length,Nat.add_sub_cancel]
  change BitVec.ofNat 256 (ofLeBytes ((front ++ serializeBits 4 n.toBitVec).drop _)) = _
  rw [hlen,List.drop_left,serializeBits,ofLeBytes_leBytes,UInt32.toNat_toBitVec,
    Nat.mod_eq_of_lt (lt_of_lt_of_eq n.toNat_lt (by norm_num))]

section
variable {i : ℕ} (hi : i < 2^31)
include hi

theorem heightCoinbase_getHash : letI := tailCrypto
    (heightCoinbase i).getHash = BitVec.ofNat 256 (1000 + i) := by
  let := tailCrypto
  have hserialize : ∃ front, (heightCoinbase i).serialize =
      front ++ serializeBits 4 (UInt32.ofNat (1000 + i)).toBitVec := by
    rw [CTransaction.serialize,← List.append_assoc,← List.append_assoc]
    exact ⟨_,rfl⟩
  obtain ⟨front,hfront⟩ := hserialize
  rw [CTransaction.getHash,hfront,tailCrypto_hash,UInt32.toNat_ofNat_of_lt' (by
    have hsize : UInt32.size = 2^32 := rfl
    omega)]

theorem heightBlock_getHash : letI := tailCrypto
    (heightBlock i).getHash = BitVec.ofNat 256 (i + 1) := by
  let := tailCrypto
  have hserialize : ∃ front, (heightBlock i).toCBlockHeader.serialize =
      front ++ serializeBits 4 (UInt32.ofNat (i + 1)).toBitVec := by
    rw [CBlockHeader.serialize]
    simp only [← List.append_assoc]
    exact ⟨_,rfl⟩
  obtain ⟨front,hfront⟩ := hserialize
  rw [CBlockHeader.getHash,hfront,tailCrypto_hash,UInt32.toNat_ofNat_of_lt' (by
    have hsize : UInt32.size = 2^32 := rfl
    omega)]

end

theorem heightScript_length (i : ℕ) : (heightScript i).length ≤ 60 := by
  unfold heightScript
  split_ifs
  · decide
  · exact Nat.zero_le _

theorem heightScript_sigOps (i : ℕ) : (heightScript i).getSigOpCount false = 0 := by
  unfold heightScript
  split_ifs
  · decide
  · rfl

theorem heightCoinbase_sigOps (i : ℕ) : getLegacySigOpCount (heightCoinbase i) = 0 := by
  change 0 + 0 + ((heightScript i).getSigOpCount false + 0) = 0
  rw [heightScript_sigOps]

/-- The object in a block, if there is one. -/
def heightObjs (i : ℕ) (txid : Uint256) : List DrivechainObj :=
  if i = 1 ∨ i = 2 then [.withdraw (keyWithdraw txid)] else []

theorem heightCoinbase_scan (i : ℕ) (txid : Uint256) :
    scanOutputs txid (heightCoinbase i).vout = .ok (heightObjs i txid) := by
  have hscan : scanScript (heightScript i) =
      .ok (if i = 1 ∨ i = 2 then some (.withdraw (keyWithdraw 0)) else none) := by
    unfold heightScript
    split_ifs
    · decide
    · rfl
  change (do
    let obj ← scanScript (heightScript i)
    pure ((obj.map (DrivechainObj.setTxid txid)).toList ++ [])) = _
  rw [hscan,heightObjs]
  split_ifs <;> rfl

theorem heightBlock_size (i : ℕ) : (heightBlock i).getSerializeSize ≤ 300 ∧
    (heightCoinbase i).getSerializeSize ≤ 200 := by
  have hscript := heightScript_length i
  have hcompact : getSizeOfCompactSize (heightScript i).length ≤ 9 := by
    unfold getSizeOfCompactSize
    split_ifs <;> omega
  have htx : (heightCoinbase i).getSerializeSize ≤ 200 := by
    rw [CTransaction.getSerializeSize,CTransaction.serialize_length]
    change 4 + (1 + (32 + 4 + (1 + 2) + 4 + 0)) +
      (1 + (8 + (getSizeOfCompactSize (heightScript i).length + (heightScript i).length) + 0)) + 4 ≤ 200
    omega
  refine ⟨?_,htx⟩
  rw [CBlock.getSerializeSize,CBlock.serialize_length]
  rw [CTransaction.getSerializeSize,CTransaction.serialize_length] at htx
  change 4 + 32 + 32 + 4 + 4 + 4 + (1 + ((heightCoinbase i).countSize + 0)) ≤ 300
  omega

theorem heightCoinbase_checked (i : ℕ) : checkTransaction (heightCoinbase i) = .ok () :=
  checkTransaction_ok.mpr
    { vin_ne_nil := List.cons_ne_nil _ _
      vout_ne_nil := List.cons_ne_nil _ _
      size_le := (heightBlock_size i).2.trans (by decide)
      values := ⟨fun o ho => by
        rw [List.mem_singleton.mp ho]
        change 0 ≤ (0 : Int64).toInt
        decide,by
        change (0 : Int64).toInt + 0 ≤ maxMoney
        decide⟩
      nodup := List.nodup_singleton _
      coinbase_script := fun _ txin htxin => by
        rw [List.mem_singleton.mp htxin]
        decide
      prevouts := nofun }

theorem heightBlock_checked {i : ℕ} (hi : i < 2^31) : letI := tailCrypto
    checkBlock heightNode.consensus heightNode.adjustedTime (heightBlock i) true true = .ok () := by
  let := tailCrypto
  have hpow : checkProofOfWork (heightBlock i).getHash (heightBlock i).nBits
      heightNode.consensus.powLimit = true := by
    have hcompact : setCompact 0x207fffff =
      (0x7fffff0000000000000000000000000000000000000000000000000000000000,false,false) := by
      decide
    have hlow : ¬ (0x7fffff0000000000000000000000000000000000000000000000000000000000 : Uint256) <
        (heightBlock i).getHash := by
      rw [heightBlock_getHash hi,BitVec.lt_def,BitVec.toNat_ofNat,not_lt]
      exact le_trans (Nat.mod_le _ _) (le_trans (Nat.succ_le_of_lt hi) (by decide))
    have hbits : (heightBlock i).nBits = 0x207fffff := rfl
    rw [checkProofOfWork,hbits,hcompact]
    simp only [decide_eq_false hlow,Bool.not_false,Bool.and_true]
    decide
  have hroot : checkMerkleRoot (heightBlock i) true = .ok () := by
    have hroot : blockMerkleRoot (heightBlock i) = ((heightCoinbase i).getHash,false) := by
      simp [blockMerkleRoot,heightBlock,computeMerkleRoot,merkleLeaf,combineLevels,merkleSweep,
        lowestLevel]
    rw [checkMerkleRoot,hroot]
    simp [heightCoinbase_getHash hi,heightBlock,require,bind,Except.bind]
  have hsize := (heightBlock_size i).1
  have hmax : MAX_BLOCK_SIZE = 1000000 := rfl
  have hcb : (heightBlock i).vtx.head?.any CTransaction.isCoinBase = true := rfl
  simp only [checkBlock,checkBlockHeader,bind_ok,require_dos_ok]
  refine ⟨(),⟨(),by simp [hpow],?_⟩,(),hroot,(),?_,(),hcb,(),rfl,(),?_,?_⟩
  · exact require_dos_ok.mpr (show ¬ (1296688602 : ℤ) > 1296700000 + 2 * 60 * 60 by decide)
  · rw [not_or,not_or]
    exact ⟨List.cons_ne_nil _ _,by simp [heightBlock,hmax],by omega⟩
  · exact forM_ok.mpr fun tx htx => by
      rw [List.mem_singleton.mp htx]
      exact heightCoinbase_checked i
  · simp [heightBlock,heightCoinbase_sigOps]

/-- The index entry of a block, with its ancestors. -/
def heightIndex (i : ℕ) : CBlockIndex :=
  ⟨some (BitVec.ofNat 256 (i + 1)),1,1296688602,
    (List.range i).reverse.map fun j => ⟨BitVec.ofNat 256 (j + 1),1,1296688602⟩⟩

theorem heightBlock_connects {i : ℕ} (hi : i < 2^31) (disk : Disk) : letI := tailCrypto
    ∃ view view' disk', connectBlock heightNode (heightBlock i) (heightIndex i) view disk false =
      .ok (view',disk') := by
  let := tailCrypto
  have hcheck := heightBlock_checked hi
  have hhash := heightBlock_getHash hi
  cases i with
  | zero =>
    have hgen : isGenesis heightNode (heightBlock 0) = true := by decide
    refine ⟨{},({} : CCoinsViewCache).setBestBlock (BitVec.ofNat 256 (0 + 1)),disk,?_⟩
    simp only [connectBlock,bind_ok,require_error_ok,hgen,if_true,Bool.false_eq_true,if_false]
    exact ⟨(),hcheck,0,rfl,(),rfl,rfl⟩
  | succ i =>
    have hgen : isGenesis heightNode (heightBlock (i + 1)) = false := by
      rw [isGenesis,hhash,beq_eq_false_iff_ne]
      intro heq
      have hnat := congrArg BitVec.toNat heq
      rw [BitVec.toNat_ofNat,Nat.mod_eq_of_lt (lt_trans (Nat.succ_lt_succ hi) (by decide))] at hnat
      change i + 1 + 1 = 1 at hnat
      omega
    have hancestors : (heightIndex (i + 1)).ancestors =
        ⟨BitVec.ofNat 256 (i + 1),1,1296688602⟩ :: (heightIndex i).ancestors := by
      simp [heightIndex,List.range_succ]
    have hprev : (heightIndex (i + 1)).pprev = some (heightIndex i) := by
      rw [CBlockIndex.pprev,hancestors]
      rfl
    have hbest : prevBlockHash (heightIndex (i + 1)) = .ok (BitVec.ofNat 256 (i + 1)) := by
      rw [prevBlockHash,hprev]
      rfl
    let view : CCoinsViewCache := { base := { getBestBlock := BitVec.ofNat 256 (i + 1) } }
    have hview : view.getBestBlock = BitVec.ofNat 256 (i + 1) := rfl
    have hops : getLegacySigOpCount (heightCoinbase (i + 1)) ≤ MAX_BLOCK_SIGOPS := by
      rw [heightCoinbase_sigOps]
      exact Nat.zero_le _
    obtain ⟨view',disk',h⟩ := @connectBlock_coinbase _ heightNode _ _ _ _ view disk _ _ rfl rfl hcheck
      hgen hprev (hbest.trans (congrArg Except.ok hview.symm)) rfl rfl rfl hops
      (heightCoinbase_scan (i + 1) _)
    exact ⟨view,view',disk',h⟩

theorem heightBlocks_run {n : ℕ} (hn : n ≤ 2^31) : letI := tailCrypto
    ∃ disk, ChainRun heightNode.consensus {} (heightBlocks n) (heightBlocks n).reverse disk := by
  let := tailCrypto
  induction n with
  | zero => exact ⟨{},.start⟩
  | succ n ih =>
    obtain ⟨disk,hrun⟩ := ih (by omega)
    obtain ⟨view,view',disk',h⟩ := heightBlock_connects (show n < 2^31 by omega) disk
    refine ⟨disk',?_⟩
    rw [heightBlocks,List.range_succ,List.map_append,List.reverse_append]
    exact hrun.connect _ _ _ _ _ _ rfl h

theorem heightBlocks_getElem? {n i : ℕ} {block : CBlock} (h : (heightBlocks n)[i]? = some block) :
    i < n ∧ block = heightBlock i := by
  rw [heightBlocks,List.getElem?_map,Option.map_eq_some_iff] at h
  obtain ⟨j,hj,rfl⟩ := h
  obtain ⟨hlt,rfl⟩ := List.getElem?_eq_some_iff.mp hj
  rw [List.length_range] at hlt
  exact ⟨hlt,by rw [List.getElem_range]⟩

theorem heightBlocks_nodup {n : ℕ} (hn : n ≤ 2^31) : letI := tailCrypto
    ((heightBlocks n).map fun block => block.getHash).Nodup := by
  let := tailCrypto
  rw [heightBlocks,List.map_map]
  refine List.Nodup.map_on ?_ List.nodup_range
  intro i hi j hj heq
  rw [List.mem_range] at hi hj
  rw [Function.comp_apply,Function.comp_apply,heightBlock_getHash (by omega),
    heightBlock_getHash (by omega)] at heq
  have := Uint256.ofNat_inj (by omega) (by omega) heq
  omega

/-- The withdrawal in the block at a height. -/
def heightWithdraw (i : ℕ) : DrivechainWithdraw := keyWithdraw (BitVec.ofNat 256 (1000 + i))

/-- The node finds the transactions through their coins. -/
def heightState (n : ℕ) (disk : Disk) : NodeState :=
  letI := tailCrypto
  { NodeState.ofBlocks (heightBlocks n) with
    fTxIndex := false
    disk
    pcoinsTip :=
      { cacheCoins := fun txid => some
          { coins := { vout := [⟨0,heightScript 1⟩], nHeight := txid.toNat - 1000 } } } }

theorem heightBlock_contains {i : ℕ} (hi : i < 2^31) (w : DrivechainWithdraw) : letI := tailCrypto
    (heightBlock i).Contains heightNode.consensus (.withdraw w) ↔
      (i = 1 ∨ i = 2) ∧ w = heightWithdraw i := by
  let := tailCrypto
  have hmem := @mem_scanOutputs (BitVec.ofNat 256 (1000 + i)) _ _ (heightCoinbase_scan i _)
    (.withdraw w)
  have hobjs : DrivechainObj.withdraw w ∈ heightObjs i (BitVec.ofNat 256 (1000 + i)) ↔
      (i = 1 ∨ i = 2) ∧ w = heightWithdraw i := by
    unfold heightObjs
    split_ifs with h
    · simp [h,heightWithdraw]
    · simp [h]
  rw [← hobjs,hmem,CBlock.Contains,heightBlock_getHash hi]
  constructor
  · rintro ⟨_,tx,htx,hout⟩
    obtain rfl := List.mem_singleton.mp htx
    rwa [heightCoinbase_getHash hi] at hout
  · intro hout
    refine ⟨fun hgenesis => ?_,heightCoinbase i,List.mem_singleton_self _,?_⟩
    · have hzero : i = 0 := by
        have := @Uint256.ofNat_inj (i + 1) 1 (by omega) (by decide) hgenesis
        omega
      have hin := hobjs.mp (hmem.mpr hout)
      omega
    · rwa [heightCoinbase_getHash hi]

@[simp] theorem heightBlocks_length (n : ℕ) : (heightBlocks n).length = n := by simp [heightBlocks]

theorem heightWithdraw_found {n i : ℕ} (hn : n ≤ 2^31) (hi : 0 < i) (hlt : i < n) (disk : Disk) :
    letI := tailCrypto
    (heightBlocks n)[i]? = some (heightBlock i) ∧
      (getTransaction (heightState n disk) (heightWithdraw i).txid true).found = true ∧
      (getTransaction (heightState n disk) (heightWithdraw i).txid true).hashBlock =
        (heightBlock i).getHash ∧
      (heightState n disk).mapBlockIndex (heightBlock i).getHash = some i := by
  let := tailCrypto
  have hat : (heightBlocks n)[i]? = some (heightBlock i) := by
    rw [heightBlocks,List.getElem?_map,List.getElem?_range hlt]
    rfl
  have hheight : (heightWithdraw i).txid.toNat - 1000 = i := by
    change (BitVec.ofNat 256 (1000 + i)).toNat - 1000 = i
    have hsmall : (2 : ℕ)^32 < 2^256 := by decide
    rw [BitVec.toNat_ofNat,Nat.mod_eq_of_lt (by omega),Nat.add_sub_cancel_left]
  have hslow := @NodeState.Coherent.slow_of_coins _ (heightState n disk) (heightWithdraw i).txid
    { vout := [⟨0,heightScript 1⟩], nHeight := (heightWithdraw i).txid.toNat - 1000 } rfl
    (by rwa [hheight]) (heightBlock i)
    (by
      rw [hheight]
      change ((heightBlocks n).map fun block => block.getHash)[i]? = _
      rw [List.getElem?_map,hat,Option.map_some])
    (ofBlocks_onDisk (heightBlocks_nodup hn) (List.mem_of_getElem? hat))
    ⟨heightCoinbase i,List.mem_singleton_self _,heightCoinbase_getHash (by omega)⟩
  have hanswer : getTransaction (heightState n disk) (heightWithdraw i).txid true =
      getTransactionSlow (heightState n disk) (heightWithdraw i).txid := by
    have hpool : (heightState n disk).mempool (heightWithdraw i).txid = none := rfl
    have hindex : (heightState n disk).fTxIndex = false := rfl
    simp only [getTransaction,hpool,hindex,Bool.false_eq_true,if_false,if_true]
  rw [hanswer]
  exact ⟨hat,hslow.1,hslow.2,ofBlocks_known (heightBlocks_nodup hn) hat⟩

theorem heightWithdraw_confirmed {i : ℕ} (hi : i = 1 ∨ i = 2) (disk : Disk) : letI := tailCrypto
    ConfirmedAt heightNode.consensus (heightBlocks SIDECHAIN_TAU)
      (fun _ => heightState SIDECHAIN_TAU disk) (heightWithdraw i) i (heightBlock i) := by
  let := tailCrypto
  have htau : SIDECHAIN_TAU = 400 := rfl
  obtain ⟨hat,hfound⟩ := @heightWithdraw_found SIDECHAIN_TAU i (by omega) (by omega) (by omega) disk
  refine ⟨hat,(heightBlock_contains (by omega) _).mpr ⟨hi,rfl⟩,?_,fun k _ _ => hfound⟩
  intro j block hj hcontains
  obtain ⟨hlt,rfl⟩ := heightBlocks_getElem? hj
  obtain ⟨hj',heq⟩ := (heightBlock_contains (by omega) _).mp hcontains
  have hsame := Uint256.ofNat_inj (by omega) (by omega) (congrArg DrivechainWithdraw.txid heq)
  omega

theorem heightBlocks_growsBy {disk : Disk} (hrun : letI := tailCrypto
    ChainRun heightNode.consensus {} (heightBlocks SIDECHAIN_TAU) (heightBlocks SIDECHAIN_TAU).reverse
      disk) : letI := tailCrypto
    GrowsBy heightNode.consensus (heightBlocks SIDECHAIN_TAU)
      fun _ => heightState SIDECHAIN_TAU disk := by
  let := tailCrypto
  have htake : ∀ k, 0 < k →
      (heightBlocks SIDECHAIN_TAU).take (k * SIDECHAIN_TAU) = heightBlocks SIDECHAIN_TAU :=
    fun k hk => List.take_of_length_le (by
      rw [heightBlocks_length]
      exact Nat.le_mul_of_pos_left _ hk)
  refine ⟨by rw [heightBlocks_length]; decide,fun k hk _ => ⟨{},rfl,?_⟩⟩
  rw [htake k hk]
  exact ⟨hrun,rfl⟩

theorem recorded_heightBlocks {n : ℕ} (hn : 2 < n) (hshort : n ≤ 2^31) : letI := tailCrypto
    recorded heightNode.consensus (heightBlocks n) =
      [.withdraw (heightWithdraw 1),.withdraw (heightWithdraw 2)] := by
  let := tailCrypto
  have hobjs : ∀ i < 2^31, blockObjs heightNode.consensus (heightBlock i) =
      heightObjs i (BitVec.ofNat 256 (1000 + i)) := by
    intro i hi
    have hcollect : collectDrivechainObjects (heightBlock i).vtx =
        .ok (heightObjs i (BitVec.ofNat 256 (1000 + i))) := by
      change (do
        let objs ← scanOutputs (heightCoinbase i).getHash (heightCoinbase i).vout
        pure (objs ++ [])) = _
      rw [heightCoinbase_scan,heightCoinbase_getHash hi]
      exact congrArg Except.ok (List.append_nil _)
    rw [blockObjs,hcollect,heightBlock_getHash hi]
    split_ifs with hgenesis
    · have hzero : i = 0 := by
        have := @Uint256.ofNat_inj (i + 1) 1 (by omega) (by decide) hgenesis
        omega
      rw [hzero]
      rfl
    · rfl
  obtain ⟨m,rfl⟩ : ∃ m, n = 3 + m := ⟨n - 3,by omega⟩
  have hrest : ∀ j ∈ List.range m, blockObjs heightNode.consensus (heightBlock (3 + j)) = [] := by
    intro j hj
    rw [List.mem_range] at hj
    rw [hobjs _ (by omega),heightObjs,if_neg (by omega)]
  have hlater : ((List.range m).map fun j => 3 + j).flatMap
      (fun i => blockObjs heightNode.consensus (heightBlock i)) = [] := by
    rw [List.flatMap_map]
    exact List.flatMap_eq_nil_iff.mpr hrest
  rw [recorded,heightBlocks,List.flatMap_map,List.range_add,List.flatMap_append,hlater,
    List.append_nil]
  change blockObjs _ (heightBlock 0) ++ (blockObjs _ (heightBlock 1) ++
    (blockObjs _ (heightBlock 2) ++ [])) = _
  rw [hobjs 0 (by decide),hobjs 1 (by decide),hobjs 2 (by decide)]
  rfl

theorem isLeast_firstPeriod {h : ℕ} (hh : h < SIDECHAIN_TAU) :
    IsLeast {k | h < k * SIDECHAIN_TAU} 1 := by
  refine ⟨by simpa using hh,fun k hk => ?_⟩
  have hpos : 0 < k := by
    refine Nat.pos_of_ne_zero ?_
    rintro rfl
    simp at hk
  exact hpos

/-- The second withdrawal to the key is selected at the end of the first period. -/
theorem secondWithdraw_selected : letI := tailCrypto
    ∃ disk, GrowsBy heightNode.consensus (heightBlocks SIDECHAIN_TAU)
        (fun _ => heightState SIDECHAIN_TAU disk) ∧
      (heightState SIDECHAIN_TAU disk).Selects 400 (heightWithdraw 2) := by
  let := tailCrypto
  obtain ⟨disk,hrun⟩ := heightBlocks_run (show SIDECHAIN_TAU ≤ 2^31 by decide)
  have hgrows := heightBlocks_growsBy hrun
  have hkept : Unreplaced (recorded heightNode.consensus
      ((heightBlocks SIDECHAIN_TAU).take (1 * SIDECHAIN_TAU))) (.withdraw (heightWithdraw 2)) := by
    rw [Nat.one_mul,List.take_of_length_le (heightBlocks_length _).le,
      recorded_heightBlocks (by decide) (by decide)]
    exact ⟨[.withdraw (heightWithdraw 1)],[],rfl,nofun⟩
  have hselects := (withdrawal_selected_once_iff hgrows (heightWithdraw_confirmed (.inr rfl) disk)
    (isLeast_firstPeriod (by decide))).2.mpr (fun _ => hkept) 1 Nat.one_pos
    (by rw [heightBlocks_length,Nat.one_mul])
  exact ⟨disk,hgrows,hselects.mpr rfl⟩

/-- The first withdrawal, at height 1, is not selected at the end of its period. -/
theorem firstWithdraw_notSelected : letI := tailCrypto
    ∃ disk, GrowsBy heightNode.consensus (heightBlocks SIDECHAIN_TAU)
        (fun _ => heightState SIDECHAIN_TAU disk) ∧
      ConfirmedAt heightNode.consensus (heightBlocks SIDECHAIN_TAU)
        (fun _ => heightState SIDECHAIN_TAU disk) (heightWithdraw 1) 1 (heightBlock 1) ∧
      IsLeast {k | 1 < k * SIDECHAIN_TAU} 1 ∧
      ¬ (heightState SIDECHAIN_TAU disk).Selects 400 (heightWithdraw 1) := by
  let := tailCrypto
  obtain ⟨disk,hrun⟩ := heightBlocks_run (show SIDECHAIN_TAU ≤ 2^31 by decide)
  have hgrows := heightBlocks_growsBy hrun
  have hw := heightWithdraw_confirmed (.inl rfl) disk
  have hleast := @isLeast_firstPeriod 1 (by decide)
  refine ⟨disk,hgrows,hw,hleast,fun hselects => ?_⟩
  have hkept := ((hw.selects_iff hgrows Nat.one_pos
    (by rw [heightBlocks_length,Nat.one_mul]) hleast).mp hselects).2
  rw [Nat.one_mul,List.take_of_length_le (heightBlocks_length _).le,
    recorded_heightBlocks (by decide) (by decide),unreplaced_iff] at hkept
  exact absurd hkept (by decide)

end Sidechain
