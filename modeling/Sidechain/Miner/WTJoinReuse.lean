import Sidechain.Miner.WTJoinSpendable
import Sidechain.Validation.ChainRun

/-! Which deposits the joined withdrawals (WT^) of two periods spend. Nothing marks a deposit as
spent: every WT^ starts again with the deposit that comes first in the index. -/
namespace Sidechain

section
variable [Crypto]

/-- The deposits a WT^ takes, the first ones listed. -/
def spentDeposits (node : NodeState) (db : CDrivechainTreeDB) (toJoin : List DrivechainWithdraw) :
    List DrivechainDeposit :=
  db.getDeposits.take
    (Settle.taken coinValue (joinAmount node toJoin) (db.getDeposits.map depositCoins)).length

/-- What is still owed after the outputs of some deposits. -/
def owedAfterDeposits (node : NodeState) (toJoin : List DrivechainWithdraw)
    (ds : List DrivechainDeposit) : ℤ :=
  Settle.owedAfter coinValue (joinAmount node toJoin) (ds.flatMap depositCoins)

/-- The place of a deposit in the order of the index. -/
def depositKey (d : DrivechainDeposit) : Bytes :=
  dbKey opDeposit (DrivechainObj.deposit d).getHash

/-- The deposits listed before a place settle the sum, possibly some time before it. -/
def SettledBefore (node : NodeState) (db : CDrivechainTreeDB) (toJoin : List DrivechainWithdraw)
    (key : Bytes) : Prop :=
  ∃ ds, ds <+: db.getDeposits ∧ (∀ e ∈ ds, compare (depositKey e) key = .lt) ∧
    owedAfterDeposits node toJoin ds ≤ 0

variable {node : NodeState} {db : CDrivechainTreeDB} {toJoin : List DrivechainWithdraw}

theorem takenCoins_eq : takenCoins node db toJoin =
    (spentDeposits node db toJoin).flatMap depositCoins := by
  have htaken := Settle.taken_prefix coinValue (joinAmount node toJoin)
    (db.getDeposits.map depositCoins)
  rw [takenCoins,spentDeposits,List.flatMap_def,List.map_take]
  exact congrArg List.flatten (List.prefix_iff_eq_take.mp htaken)

theorem lt_length_spentDeposits {i : ℕ} (hi : i < db.getDeposits.length) :
    i < (spentDeposits node db toJoin).length ↔
      ∀ j ≤ i, 0 < owedAfterDeposits node toJoin (db.getDeposits.take j) := by
  have hlen := (Settle.taken_prefix coinValue (joinAmount node toJoin)
    (db.getDeposits.map depositCoins)).length_le
  rw [List.length_map] at hlen
  rw [spentDeposits,List.length_take,Nat.min_eq_left hlen,Settle.lt_length_taken_iff,
    List.length_map,and_iff_right hi]
  refine forall₂_congr fun j _ => ?_
  rw [owedAfterDeposits,List.flatMap_def,List.map_take]

theorem depositKey_irrefl (d : DrivechainDeposit) : compare (depositKey d) (depositKey d) ≠ .lt := by
  have hself : compare (depositKey d) (depositKey d) = .eq := Std.ReflCmp.compare_self
  rw [hself]
  exact nofun

theorem CDrivechainTreeDB.Holds.getDeposits_sorted {objs : List DrivechainObj} (h : db.Holds objs) :
    db.getDeposits.Pairwise fun a b => compare (depositKey a) (depositKey b) = .lt :=
  h.listDrivechain_sorted depositKind

theorem mem_spentDeposits_iff {objs : List DrivechainObj} (hdb : db.Holds objs)
    {d : DrivechainDeposit} (hd : d ∈ db.getDeposits) :
    d ∈ spentDeposits node db toJoin ↔ ¬ SettledBefore node db toJoin (depositKey d) := by
  have hlt := List.pairwise_iff_getElem.mp hdb.getDeposits_sorted
  have hnodup : db.getDeposits.Nodup := by
    refine List.Pairwise.imp ?_ hdb.getDeposits_sorted
    rintro a _ h rfl
    exact depositKey_irrefl a h
  obtain ⟨i,hi,rfl⟩ := List.mem_iff_getElem.mp hd
  have htake : ∀ k, db.getDeposits[i] ∈ db.getDeposits.take k ↔ i < k := fun k => by
    simp only [List.mem_take_iff_getElem,hnodup.getElem_inj_iff]
    exact ⟨fun ⟨j,hj,heq⟩ => by omega,fun h => ⟨i,by omega,rfl⟩⟩
  have hindex : db.getDeposits[i] ∈ spentDeposits node db toJoin ↔
      i < (spentDeposits node db toJoin).length := by
    rw [spentDeposits,htake,List.length_take]
    omega
  rw [hindex,lt_length_spentDeposits hi]
  constructor
  · rintro howed ⟨ds,hpre,hbefore,hsettled⟩
    have htaken := List.prefix_iff_eq_take.mp hpre
    have hlen : ds.length ≤ i := by
      by_contra hlong
      have hmem := (htake ds.length).mpr (not_le.mp hlong)
      rw [← htaken] at hmem
      exact depositKey_irrefl _ (hbefore _ hmem)
    have hpos := howed ds.length hlen
    rw [← htaken] at hpos
    exact absurd hsettled (not_le.mpr hpos)
  · intro hnot j hj
    by_contra hsettled
    refine hnot ⟨db.getDeposits.take j,List.take_prefix j _,fun e he => ?_,not_lt.mp hsettled⟩
    obtain ⟨m,hm,rfl⟩ := List.mem_take_iff_getElem.mp he
    exact hlt m i (by omega) hi (by omega)

theorem depositKey_congr {d d' : DrivechainDeposit}
    (h : { d with txid := 0 } = { d' with txid := 0 }) : depositKey d = depositKey d' :=
  (congrArg depositKey h :)

theorem depositCoins_congr {d d' : DrivechainDeposit}
    (h : { d with txid := 0 } = { d' with txid := 0 }) : depositCoins d = depositCoins d' :=
  (congrArg depositCoins h :)

theorem hash_of_mem_depositCoins {d : DrivechainDeposit} {c : COutPoint × CTxOut}
    (hc : c ∈ depositCoins d) : c.1.hash = d.deposit.getHash := by
  obtain ⟨_,_,rfl⟩ := List.mem_map.mp hc
  rfl

theorem JoinedWT.mem_prevouts {tx : CTransaction} (h : JoinedWT node db toJoin tx) {o : COutPoint} :
    o ∈ tx.vin.map CTxIn.prevout ↔
      ∃ d ∈ spentDeposits node db toJoin, ∃ c ∈ depositCoins d, c.1 = o := by
  rw [h.vin,takenCoins_eq,List.map_map]
  simp only [List.mem_map,List.mem_flatMap,Function.comp_apply]
  constructor
  · rintro ⟨c,⟨d,hd,hc⟩,rfl⟩
    exact ⟨d,hd,c,hc,rfl⟩
  · rintro ⟨d,hd,c,hc,rfl⟩
    exact ⟨c,⟨d,hd,hc⟩,rfl⟩

theorem mem_of_spentDeposits {d : DrivechainDeposit} (h : d ∈ spentDeposits node db toJoin) :
    d ∈ db.getDeposits := List.mem_of_mem_take h

/-- An entry stays, with its content up to hash collisions, when more objects are recorded. -/
theorem exists_later_deposit {db' : CDrivechainTreeDB} {objs later : List DrivechainObj}
    (hdb : db.Holds objs) (hdb' : db'.Holds (objs ++ later)) {d : DrivechainDeposit}
    (hd : d ∈ db.getDeposits) : ∃ d' ∈ db'.getDeposits, depositKey d' = depositKey d := by
  have hlast := (hdb.mem_listDrivechain depositKind).mp hd
  obtain ⟨obj,hobj⟩ := lastObj_of_mem (List.mem_append_left later (lastObj_eq_some hlast).1)
  obtain ⟨_,hop,hhash⟩ := lastObj_eq_some hobj
  obtain ⟨d',rfl⟩ := depositKind.exists_toObj obj hop
  refine ⟨d',(hdb'.mem_listDrivechain depositKind).mpr ?_,congrArg (dbKey opDeposit) hhash⟩
  rw [hhash]
  exact hobj

end

section
variable [Crypto] {consensus : Params} {start : Disk} {node₁ node₂ : NodeState}
  {db₁ db₂ : CDrivechainTreeDB} {toJoin₁ toJoin₂ : List DrivechainWithdraw}

/-- Over a run of the node, the WT^ of a later period spends no outpoint the WT^ of an earlier one
spent exactly if its sum is settled before each deposit that one took. -/
theorem ChainRun.joinedWT_disjoint_iff {seen more active₁ active₂ : List CBlock}
    (hrun₁ : ChainRun consensus start seen active₁ node₁.disk)
    (hrun₂ : ChainRun consensus start (seen ++ more) active₂ node₂.disk)
    (hempty : start.pdrivechaintree = some ∅) {nHeight₁ nHeight₂ : UInt32} {tx₁ tx₂ : CTransaction}
    (h₁ : getWTJoinTX node₁ nHeight₁ = .ok tx₁) (hne₁ : tx₁.isNull = false)
    (h₂ : getWTJoinTX node₂ nHeight₂ = .ok tx₂) (hne₂ : tx₂.isNull = false)
    (hdb₁ : node₁.disk.pdrivechaintree = some db₁) (hdb₂ : node₂.disk.pdrivechaintree = some db₂)
    (hjoin₁ : filterPeriod node₁ nHeight₁ db₁.getWTs = .ok toJoin₁)
    (hjoin₂ : filterPeriod node₂ nHeight₂ db₂.getWTs = .ok toJoin₂)
    (hone : ∀ d₁ ∈ db₁.getDeposits, ∀ d₂ ∈ db₂.getDeposits,
      depositKey d₁ = depositKey d₂ ∨ d₁.deposit.getHash = d₂.deposit.getHash →
        { d₁ with txid := 0 } = { d₂ with txid := 0 }) :
    (∀ o ∈ tx₁.vin.map CTxIn.prevout, o ∉ tx₂.vin.map CTxIn.prevout) ↔
      ∀ d ∈ spentDeposits node₁ db₁ toJoin₁, depositCoins d ≠ [] →
        SettledBefore node₂ db₂ toJoin₂ (depositKey d) := by
  have hwt₁ := joinedWT_of_getWTJoinTX h₁ hne₁ hdb₁ hjoin₁
  have hwt₂ := joinedWT_of_getWTJoinTX h₂ hne₂ hdb₂ hjoin₂
  obtain ⟨db,hdb,hholds₁⟩ := hrun₁.holds hempty
  obtain rfl : db = db₁ := Option.some.inj (hdb.symm.trans hdb₁)
  obtain ⟨db',hdb',hholds₂⟩ := hrun₂.holds hempty
  obtain rfl : db' = db₂ := Option.some.inj (hdb'.symm.trans hdb₂)
  constructor
  · intro hdisjoint d hd hcoins
    obtain ⟨c,hc⟩ := List.exists_mem_of_ne_nil _ hcoins
    rw [recorded,List.flatMap_append] at hholds₂
    obtain ⟨d',hd',hkey⟩ := exists_later_deposit hholds₁ hholds₂ (mem_of_spentDeposits hd)
    have hsame := hone d (mem_of_spentDeposits hd) d' hd' (.inl hkey.symm)
    rw [← hkey]
    by_contra hopen
    have hspent := (mem_spentDeposits_iff hholds₂ hd').mpr hopen
    rw [depositCoins_congr hsame] at hc
    exact hdisjoint c.1 (hwt₁.mem_prevouts.mpr ⟨d,hd,c,depositCoins_congr hsame ▸ hc,rfl⟩)
      (hwt₂.mem_prevouts.mpr ⟨d',hspent,c,hc,rfl⟩)
  · intro hsettled o ho ho'
    obtain ⟨d,hd,c,hc,rfl⟩ := hwt₁.mem_prevouts.mp ho
    obtain ⟨d',hd',c',hc',heq⟩ := hwt₂.mem_prevouts.mp ho'
    have hhash : d.deposit.getHash = d'.deposit.getHash := by
      rw [← hash_of_mem_depositCoins hc,← hash_of_mem_depositCoins hc',heq]
    have hsame := hone d (mem_of_spentDeposits hd) d' (mem_of_spentDeposits hd') (.inr hhash)
    have hbefore := hsettled d hd (List.ne_nil_of_mem hc)
    rw [depositKey_congr hsame] at hbefore
    exact (mem_spentDeposits_iff hholds₂ (mem_of_spentDeposits hd')).mp hd' hbefore

end

def idleEntry (hash : Uint256) : BlockEntry := ⟨hash,0x200000000,1296688602⟩

def periodWithdraw (keyID : Uint160) : DrivechainWithdraw := { sidechainid := SIDECHAIN_ID, keyID }

/-- A withdrawal of 100000 to the key. -/
def withdrawOutput (keyID : Uint160) : CTxOut :=
  ⟨100000,(DrivechainObj.withdraw (periodWithdraw keyID)).getScript⟩

def periodCoinbase (nHeight : ℤ) (vout : List CTxOut) : CTransaction :=
  { vin := [{ prevout := .null, scriptSig := pushInt64 nHeight ++ [OP_0] }], vout }

/-- The WT^ that pays the withdrawal of a key out of the deposit of 2000000. -/
def periodJoinTx (keyID : Uint160) : CTransaction :=
  { vin := [{ prevout := ⟨0xaa7bce92f1c88fd4cf2f62febd842c0b00148348ed074e5e6c3c7818cbb4446a,0⟩ }]
    vout := [⟨1080000,keyScript keyID⟩,⟨10000,SIDECHAIN_FEESCRIPT⟩,
      ⟨900000,SIDECHAIN_DEPOSITSCRIPT⟩] }

def joinRecord (keyID : Uint160) : DrivechainJoinedWT :=
  { sidechainid := SIDECHAIN_ID, wtJoined := periodJoinTx keyID }

def joinRecordOutput (keyID : Uint160) : CTxOut :=
  ⟨CENT,(DrivechainObj.joinedWT (joinRecord keyID)).getScript⟩

def depositCoinbase : CTransaction :=
  periodCoinbase 1 (creditDeposit (lockedDeposit 2000000) ++ [withdrawOutput 2])
def firstJoinCoinbase : CTransaction :=
  periodCoinbase 400 [joinRecordOutput 2,withdrawOutput 3]
def secondJoinCoinbase : CTransaction := periodCoinbase 800 [joinRecordOutput 3]

def depositTxid : Uint256 := 0x6eef2748bb522cd72cf65e8b640554759d10277cc5d0f195506f274f739b35d7
def firstJoinTxid : Uint256 := 0x79763de600ae04cf4b7ab30defdbbbe823632a74e1f4e4b0a9b5f05f80dfee2e
def secondJoinTxid : Uint256 := 0xe68ea40a5d6f41696c0ec3390eabfb8f3160bd46a906eea9df75b36ff2b14de2

def depositBlock : CBlock :=
  regTestBlock regTestParams.hashGenesisBlock depositTxid 1296688603 1 [depositCoinbase]
def firstJoinBlock : CBlock := regTestBlock 0xf1 firstJoinTxid 1296688604 0 [firstJoinCoinbase]
def secondJoinBlock : CBlock := regTestBlock 0xf2 secondJoinTxid 1296688605 0 [secondJoinCoinbase]

@[reducible] def periodCrypto : Crypto := regTestCrypto
  [((lockedTx 2000000).serialize,
      0xaa7bce92f1c88fd4cf2f62febd842c0b00148348ed074e5e6c3c7818cbb4446a),
    ((lockedDeposit 2000000).serialize,
      0x14e5d8d5c2cd11bb3227390ef793ffd499cb529361bb583acc88cb114052b8a1),
    ((periodWithdraw 2).serialize,0xbdfc509a49676e12da2dd9475726fee8474abcb183e135cb90a2fcec65728f51),
    ((periodWithdraw 3).serialize,0x61cfd28e688f5d1ffd6041daa364e4e3c5d7f6a18dbed8b57db4221664f30140),
    ((joinRecord 2).serialize,0x5a33b858cbec9692ffe654af922ccea49db828a013dea632e98c477dfad2cb98),
    ((joinRecord 3).serialize,0x2ccbfaf690dbc626038ff13afc7d217f4d16178ef64942683dc08171753cc963),
    (depositCoinbase.serialize,depositTxid),
    (firstJoinCoinbase.serialize,firstJoinTxid),
    (secondJoinCoinbase.serialize,secondJoinTxid),
    (depositBlock.toCBlockHeader.serialize,
      0x6aebb044cf17e48eb95bcaf4f94012b5702edd66f5139d20245285c69bd5d87a),
    (firstJoinBlock.toCBlockHeader.serialize,
      0x148d9d5b6a0b5839b49ef052581461f792f7c46f6b88a551426178131186503d),
    (secondJoinBlock.toCBlockHeader.serialize,
      0x34ec04fba43f351b2d71a41090b328c1236fbfc62bbe7a88f2a41186981bbd38)]

section
variable [Crypto]

/-- The index entry of a block after a number of idle ones. -/
def afterIdle (block : CBlock) (idle : ℕ) (ancestors : List BlockEntry) : CBlockIndex :=
  ⟨some block.toCBlockHeader.getHash,block.nVersion,block.nTime,
    List.replicate idle (idleEntry block.hashPrevBlock) ++ ancestors⟩

def entryOf (block : CBlock) : BlockEntry :=
  ⟨block.toCBlockHeader.getHash,block.nVersion,block.nTime⟩

/-- What the three blocks leave on disk. The first is on top of the genesis block. -/
def connectPeriods : Outcome (Disk × Disk × Disk) := do
  let node := { regTestNode with fTxIndex := true }
  let genesis := [entryOf regTestGenesis]
  let first := entryOf depositBlock :: genesis
  let second := entryOf firstJoinBlock ::
    (List.replicate 398 (idleEntry firstJoinBlock.hashPrevBlock) ++ first)
  let tip : CBlockIndex :=
    ⟨some regTestGenesis.toCBlockHeader.getHash,regTestGenesis.nVersion,regTestGenesis.nTime,[]⟩
  let (_,disk) ← connectBlock node regTestGenesis tip {} {} false
  let (_,disk₁) ← connectBlock node depositBlock (afterIdle depositBlock 0 genesis)
    { hashBlock := depositBlock.hashPrevBlock } disk false
  let (_,disk₂) ← connectBlock node firstJoinBlock (afterIdle firstJoinBlock 398 first)
    { hashBlock := firstJoinBlock.hashPrevBlock } disk₁ false
  let (_,disk₃) ← connectBlock node secondJoinBlock (afterIdle secondJoinBlock 399 second)
    { hashBlock := secondJoinBlock.hashPrevBlock } disk₂ false
  pure (disk₁,disk₂,disk₃)

/-- The node before the block at a height, with the first two blocks at heights 1 and 400. -/
def periodNode (disk : Disk) (nHeight : ℕ) : NodeState where
  fTxIndex := true
  disk
  chainActive := ([regTestParams.hashGenesisBlock,depositBlock.toCBlockHeader.getHash] ++
    List.replicate 398 0xf1 ++ [firstJoinBlock.toCBlockHeader.getHash] ++
      List.replicate 399 0xf2).take nHeight
  mapBlockIndex := fun hash =>
    if hash = depositBlock.toCBlockHeader.getHash then some 1
    else if hash = firstJoinBlock.toCBlockHeader.getHash then some 400
    else none
  getMinimumFee := fun _ => 10000

theorem connectPeriods_run {disk₁ disk₂ disk₃ : Disk}
    (h : connectPeriods = .ok (disk₁,disk₂,disk₃)) :
    ChainRun regTestParams {} [regTestGenesis,depositBlock] [depositBlock,regTestGenesis] disk₁ ∧
    ChainRun regTestParams {} [regTestGenesis,depositBlock,firstJoinBlock]
      [firstJoinBlock,depositBlock,regTestGenesis] disk₂ ∧
    ChainRun regTestParams {} [regTestGenesis,depositBlock,firstJoinBlock,secondJoinBlock]
      [secondJoinBlock,firstJoinBlock,depositBlock,regTestGenesis] disk₃ := by
  obtain ⟨⟨_,_⟩,hgenesis,h⟩ := Run.bind_ok.mp h
  obtain ⟨⟨_,_⟩,hdeposit,h⟩ := Run.bind_ok.mp h
  obtain ⟨⟨_,_⟩,hfirst,h⟩ := Run.bind_ok.mp h
  obtain ⟨⟨_,_⟩,hsecond,h⟩ := Run.bind_ok.mp h
  have hdisks := Run.pure_ok.mp h
  simp only [Prod.mk.injEq] at hdisks
  obtain ⟨rfl,rfl,rfl⟩ := hdisks
  have hrun := (ChainRun.start.connect _ regTestGenesis _ _ _ _ rfl hgenesis).connect _ depositBlock
    _ _ _ _ rfl hdeposit
  have hrun₂ := hrun.connect _ firstJoinBlock _ _ _ _ rfl hfirst
  exact ⟨hrun,hrun₂,hrun₂.connect _ secondJoinBlock _ _ _ _ rfl hsecond⟩

end

/-- What is joined at a height, and the deposits and withdrawals that it is joined from. -/
structure PeriodReads where
  join : Outcome CTransaction
  stored : Option (List DrivechainDeposit × Outcome (List DrivechainWithdraw))
  deriving DecidableEq

def readPeriod [Crypto] (disk : Disk) (nHeight : ℕ) : PeriodReads where
  join := getWTJoinTX (periodNode disk nHeight) (UInt32.ofNat nHeight)
  stored := disk.pdrivechaintree.map fun db =>
    (db.getDeposits,filterPeriod (periodNode disk nHeight) (UInt32.ofNat nHeight) db.getWTs)

/-- The one deposit, and the withdrawal of the period. -/
def onePayment (keyID : Uint160) (txid : Uint256) : PeriodReads :=
  ⟨.ok (periodJoinTx keyID),some ([{ lockedDeposit 2000000 with txid := depositTxid }],
    .ok [{ periodWithdraw keyID with txid }])⟩

theorem connectPeriods_reads : letI := periodCrypto
    ∃ disk₁ disk₂ disk₃, connectPeriods = .ok (disk₁,disk₂,disk₃) ∧
      readPeriod disk₁ 400 = onePayment 2 depositTxid ∧
      readPeriod disk₂ 800 = onePayment 3 firstJoinTxid := by
  let := periodCrypto
  have heval : (fun disks : Disk × Disk × Disk =>
      (readPeriod disks.1 400,readPeriod disks.2.1 800)) <$> connectPeriods =
      .ok (onePayment 2 depositTxid,onePayment 3 firstJoinTxid) := by decide +kernel
  obtain ⟨⟨disk₁,disk₂,disk₃⟩,hperiods,hread⟩ := Run.map_ok.mp heval
  exact ⟨disk₁,disk₂,disk₃,hperiods,Prod.mk.inj hread⟩

/-- The WT^s of two periods, both recorded on the chain, spend the same deposit. -/
theorem joinedDeposit_spentTwice :
    letI := periodCrypto
    ∃ disk₁ disk₂ disk₃, ChainRun regTestParams {} [regTestGenesis,depositBlock]
        [depositBlock,regTestGenesis] disk₁ ∧
      ChainRun regTestParams {} [regTestGenesis,depositBlock,firstJoinBlock]
        [firstJoinBlock,depositBlock,regTestGenesis] disk₂ ∧
      ChainRun regTestParams {} [regTestGenesis,depositBlock,firstJoinBlock,secondJoinBlock]
        [secondJoinBlock,firstJoinBlock,depositBlock,regTestGenesis] disk₃ ∧
      getWTJoinTX (periodNode disk₁ 400) 400 = .ok (periodJoinTx 2) ∧
      getWTJoinTX (periodNode disk₂ 800) 800 = .ok (periodJoinTx 3) ∧
      firstJoinBlock.Contains regTestParams
        (.joinedWT { joinRecord 2 with txid := firstJoinTxid }) ∧
      secondJoinBlock.Contains regTestParams
        (.joinedWT { joinRecord 3 with txid := secondJoinTxid }) ∧
      ∃ o, o ∈ (periodJoinTx 2).vin.map CTxIn.prevout ∧
        o ∈ (periodJoinTx 3).vin.map CTxIn.prevout := by
  let := periodCrypto
  obtain ⟨disk₁,disk₂,disk₃,hperiods,hread₁,hread₂⟩ := connectPeriods_reads
  have hjoin₁ : getWTJoinTX (periodNode disk₁ 400) 400 = _ := congrArg PeriodReads.join hread₁
  have hjoin₂ : getWTJoinTX (periodNode disk₂ 800) 800 = _ := congrArg PeriodReads.join hread₂
  obtain ⟨hrun₁,hrun₂,hrun₃⟩ := connectPeriods_run hperiods
  have hscan : ∀ keyID : Uint160, keyID = 2 ∨ keyID = 3 →
      scanScript (joinRecordOutput keyID).scriptPubKey = .ok (some (.joinedWT (joinRecord keyID))) := by
    rintro _ (rfl | rfl) <;> decide +kernel
  refine ⟨disk₁,disk₂,disk₃,hrun₁,hrun₂,hrun₃,hjoin₁,hjoin₂,?_,?_,
    ⟨0xaa7bce92f1c88fd4cf2f62febd842c0b00148348ed074e5e6c3c7818cbb4446a,0⟩,
    List.mem_singleton_self _,List.mem_singleton_self _⟩
  · exact ⟨by decide +kernel,firstJoinCoinbase,List.mem_singleton_self _,joinRecordOutput 2,
      List.mem_cons_self,.joinedWT (joinRecord 2),hscan 2 (.inl rfl),by decide +kernel⟩
  · exact ⟨by decide +kernel,secondJoinCoinbase,List.mem_singleton_self _,joinRecordOutput 3,
      List.mem_cons_self,.joinedWT (joinRecord 3),hscan 3 (.inr rfl),by decide +kernel⟩

/-- What the second of them pays is not settled before the deposit the first one took. -/
theorem joinedDeposit_notSettled :
    letI := periodCrypto
    ∃ (disk : Disk) (db : CDrivechainTreeDB), disk.pdrivechaintree = some db ∧
      ∃ d ∈ db.getDeposits, ¬ SettledBefore (periodNode disk 800) db
        [{ periodWithdraw 3 with txid := firstJoinTxid }] (depositKey d) := by
  let := periodCrypto
  obtain ⟨disk₁,disk₂,disk₃,hperiods,hread₁,hread₂⟩ := connectPeriods_reads
  obtain ⟨hrun₁,hrun₂,_⟩ := connectPeriods_run hperiods
  have h₁ : getWTJoinTX (periodNode disk₁ 400) 400 = _ := congrArg PeriodReads.join hread₁
  have h₂ : getWTJoinTX (periodNode disk₂ 800) 800 = _ := congrArg PeriodReads.join hread₂
  obtain ⟨db₁,hdb₁,hstored₁⟩ := Option.map_eq_some_iff.mp (congrArg PeriodReads.stored hread₁)
  obtain ⟨db₂,hdb₂,hstored₂⟩ := Option.map_eq_some_iff.mp (congrArg PeriodReads.stored hread₂)
  obtain ⟨hlist₁,hjoin₁⟩ := Prod.mk.inj hstored₁
  obtain ⟨hlist₂,hjoin₂⟩ := Prod.mk.inj hstored₂
  have hone : ∀ d₁ ∈ db₁.getDeposits, ∀ d₂ ∈ db₂.getDeposits,
      depositKey d₁ = depositKey d₂ ∨ d₁.deposit.getHash = d₂.deposit.getHash →
        { d₁ with txid := 0 } = { d₂ with txid := 0 } := by
    simp [hlist₁,hlist₂]
  have hrun₂ : ChainRun regTestParams {} ([regTestGenesis,depositBlock] ++ [firstJoinBlock])
    [firstJoinBlock,depositBlock,regTestGenesis] (periodNode disk₂ 800).disk := hrun₂
  have hrun₁ : ChainRun regTestParams {} [regTestGenesis,depositBlock]
    [depositBlock,regTestGenesis] (periodNode disk₁ 400).disk := hrun₁
  have hiff := hrun₁.joinedWT_disjoint_iff hrun₂ rfl h₁ (by decide) h₂ (by decide)
    hdb₁ hdb₂ hjoin₁ hjoin₂ hone
  have hshared : ¬ ∀ o ∈ (periodJoinTx 2).vin.map CTxIn.prevout,
      o ∉ (periodJoinTx 3).vin.map CTxIn.prevout := by decide
  refine ⟨disk₂,db₂,hdb₂,{ lockedDeposit 2000000 with txid := depositTxid },
    hlist₂ ▸ List.mem_singleton_self _,fun hsettled => hshared (hiff.mpr fun d hd _ => ?_)⟩
  have hd' := mem_of_spentDeposits hd
  rw [hlist₁,List.mem_singleton] at hd'
  rw [hd']
  exact hsettled

end Sidechain
