import Sidechain.Validation.DisconnectBlock

/-! Runs of the node: blocks are connected to and disconnected from the tip in any order. The
drivechain index holds the objects of all blocks that were ever connected. -/
namespace Sidechain

section
variable [Crypto]

/-- The objects a block adds to the index. The genesis block is not scanned. -/
def blockObjs (consensus : Params) (block : CBlock) : List DrivechainObj :=
  if block.toCBlockHeader.getHash = consensus.hashGenesisBlock then []
  else
    match collectDrivechainObjects block.vtx with
    | .ok objs => objs
    | .error _ => []

/-- The objects of blocks connected one after another. -/
def recorded (consensus : Params) (blocks : List CBlock) : List DrivechainObj :=
  blocks.flatMap (blockObjs consensus)

/-- The calls that move the active chain, whose tip comes first; `seen` are the blocks connected so
far, in order. The node and the view may be different ones at each call. -/
inductive ChainRun (consensus : Params) (start : Disk) :
    List CBlock → List CBlock → Disk → Prop
  | start : ChainRun consensus start [] [] start
  | connect {seen active disk} (node : Node) (block : CBlock) (pindex : CBlockIndex)
      (view view' : CCoinsViewCache) (disk' : Disk) (run : ChainRun consensus start seen active disk)
      (hnode : node.consensus = consensus)
      (h : connectBlock node block pindex view disk false = .ok (view',disk')) :
      ChainRun consensus start (seen ++ [block]) (block::active) disk'
  | disconnect {seen block active disk} (node : Node) (pindex : CBlockIndex)
      (view view' : CCoinsViewCache) (fClean : Bool)
      (run : ChainRun consensus start seen (block::active) disk)
      (h : disconnectBlock node block pindex view disk = .ok (view',fClean)) :
      ChainRun consensus start seen active disk

/-- What the readers and the listings of the index return for a log of objects. -/
structure CDrivechainTreeDB.Shows (db : CDrivechainTreeDB) (objs : List DrivechainObj) : Prop where
  read : ∀ {α : Type} (kind : DrivechainKind α) (objid : Uint256) (a : α),
    kind.readDrivechain db objid = some a ↔ lastObj objs kind.op objid = some (kind.toObj a)
  list : ∀ {α : Type} (kind : DrivechainKind α) (a : α), a ∈ kind.listDrivechain db ↔
    lastObj objs kind.op (kind.toObj a).getHash = some (kind.toObj a)

theorem CDrivechainTreeDB.Holds.shows {db : CDrivechainTreeDB} {objs : List DrivechainObj}
    (h : db.Holds objs) : db.Shows objs :=
  ⟨fun kind _ _ => h.readDrivechain kind,fun kind _ => h.mem_listDrivechain kind⟩

/-- The object is found in an output of the block when the block is connected. -/
def CBlock.Contains (consensus : Params) (block : CBlock) (obj : DrivechainObj) : Prop :=
  block.toCBlockHeader.getHash ≠ consensus.hashGenesisBlock ∧ ∃ tx ∈ block.vtx,
    ∃ txout ∈ tx.vout, ∃ o, scanScript txout.scriptPubKey = .ok (some o) ∧
      o.setTxid tx.getHash = obj

/-- The object is found in one of the blocks. -/
def FoundIn (consensus : Params) (blocks : List CBlock) (obj : DrivechainObj) : Prop :=
  ∃ block ∈ blocks, block.Contains consensus obj

variable {consensus : Params} {start : Disk} {seen active : List CBlock} {disk : Disk}

/-- The outputs of a connected block have been scanned, and every object found fits. -/
structure Scanned (consensus : Params) (block : CBlock) : Prop where
  mem_iff : ∀ obj, obj ∈ blockObjs consensus block ↔ block.Contains consensus obj
  fits : ∀ obj ∈ blockObjs consensus block, obj.Fits

theorem connectBlock_index {node : Node} {block : CBlock} {pindex : CBlockIndex}
    {view view' : CCoinsViewCache} {disk' : Disk}
    (h : connectBlock node block pindex view disk false = .ok (view',disk'))
    {db : CDrivechainTreeDB} (hdb : disk.pdrivechaintree = some db) :
    Scanned node.consensus block ∧ disk'.pdrivechaintree = some (db.writeDrivechainIndex
      ((blockObjs node.consensus block).map fun obj => (obj.getHash,obj))) := by
  obtain ⟨objs,hobjs,hdb'⟩ := connectBlock_drivechain h hdb
  rcases hobjs with ⟨hgen,rfl⟩ | ⟨hgen,hobjs⟩
  · have hhash := beq_iff_eq.mp hgen
    have hnil : blockObjs node.consensus block = [] := if_pos hhash
    rw [hnil]
    refine ⟨⟨fun obj => ?_,by simp [hnil]⟩,hdb'⟩
    rw [hnil]
    exact iff_of_false List.not_mem_nil fun hc => hc.1 hhash
  · have hhash := beq_eq_false_iff_ne.mp hgen
    have hall : blockObjs node.consensus block = objs := by rw [blockObjs,if_neg hhash,hobjs]
    rw [hall]
    refine ⟨⟨fun obj => ?_,?_⟩,hdb'⟩
    · rw [hall,mem_collectDrivechainObjects hobjs,CBlock.Contains,and_iff_right hhash]
    · rw [hall]
      exact fits_of_collectDrivechainObjects hobjs

theorem ChainRun.scanned (hrun : ChainRun consensus start seen active disk) {db₀ : CDrivechainTreeDB}
    (hstart : start.pdrivechaintree = some db₀) :
    (∃ db, disk.pdrivechaintree = some db) ∧ ∀ block ∈ seen, Scanned consensus block := by
  induction hrun with
  | start => exact ⟨⟨db₀,hstart⟩,by simp⟩
  | connect node block pindex view view' disk' run hnode h ih =>
    obtain ⟨⟨db,hdb⟩,hall⟩ := ih
    obtain ⟨hscan,hdb'⟩ := connectBlock_index h hdb
    refine ⟨⟨_,hdb'⟩,fun b hb => ?_⟩
    rcases List.mem_append.mp hb with hb | hb
    · exact hall b hb
    · rw [List.mem_singleton.mp hb,← hnode]
      exact hscan
  | disconnect node pindex view view' fClean run h ih => exact ih

theorem ChainRun.mem_recorded (hrun : ChainRun consensus start seen active disk)
    {db₀ : CDrivechainTreeDB} (hstart : start.pdrivechaintree = some db₀) {obj : DrivechainObj} :
    obj ∈ recorded consensus seen ↔ FoundIn consensus seen obj := by
  rw [recorded,List.mem_flatMap]
  exact exists_congr fun block => and_congr_right fun hb =>
    ((hrun.scanned hstart).2 block hb).mem_iff obj

/-- The index holds the objects of all blocks connected so far. -/
theorem ChainRun.holds (hrun : ChainRun consensus start seen active disk)
    (hempty : start.pdrivechaintree = some ∅) :
    ∃ db, disk.pdrivechaintree = some db ∧ db.Holds (recorded consensus seen) := by
  induction hrun with
  | start => exact ⟨∅,hempty,CDrivechainTreeDB.holds_empty⟩
  | connect node block pindex view view' disk' run hnode h ih =>
    obtain ⟨db,hdb,hholds⟩ := ih
    obtain ⟨hscan,hdb'⟩ := connectBlock_index h hdb
    subst hnode
    refine ⟨_,hdb',?_⟩
    rw [recorded,List.flatMap_append,List.flatMap_singleton]
    exact hholds.writeDrivechainIndex hscan.fits
  | disconnect node pindex view view' fClean run h ih => exact ih

structure Tip where
  pindex : CBlockIndex
  view : CCoinsViewCache := {}
  disk : Disk := {}

def Tip.connect (node : Node) (tip : Tip) (block : CBlock) : Outcome Tip := do
  let prevHash ← tip.pindex.getBlockHash
  let pindex := tip.pindex.child prevHash block.toCBlockHeader (some block.toCBlockHeader.getHash)
  let (view,disk) ← connectBlock node block pindex tip.view tip.disk false
  pure { pindex, view, disk }

/-- Connect a genesis block and the blocks on top of it to an empty view. -/
def connectChain (node : Node) (genesis : CBlock) (blocks : List CBlock) : Outcome Tip := do
  let pindex : CBlockIndex :=
    ⟨some genesis.toCBlockHeader.getHash,genesis.nVersion,genesis.nTime,[]⟩
  let (view,disk) ← connectBlock node genesis pindex {} {} false
  blocks.foldlM (Tip.connect node) { pindex, view, disk }

theorem ChainRun.foldlM_connect {node : Node} {blocks : List CBlock} {tip tip' : Tip}
    (hrun : ChainRun node.consensus start seen active tip.disk)
    (h : blocks.foldlM (Tip.connect node) tip = .ok tip') :
    ChainRun node.consensus start (seen ++ blocks) (blocks.reverse ++ active) tip'.disk := by
  induction blocks generalizing seen active tip with
  | nil =>
    obtain rfl := Run.foldlM_nil_ok.mp h
    simpa using hrun
  | cons block blocks ih =>
    obtain ⟨m,hm,hrest⟩ := Run.foldlM_cons_ok.mp h
    obtain ⟨_,_,hm⟩ := Run.bind_ok.mp hm
    obtain ⟨⟨view,disk⟩,hconnect,hm⟩ := Run.bind_ok.mp hm
    obtain rfl := Run.pure_ok.mp hm
    have hrest := ih (hrun.connect node block _ _ _ _ rfl hconnect) hrest
    simpa using hrest

theorem ChainRun.of_connectChain {node : Node} {genesis : CBlock} {blocks : List CBlock} {tip : Tip}
    (h : connectChain node genesis blocks = .ok tip) :
    ChainRun node.consensus {} (genesis::blocks) (blocks.reverse ++ [genesis]) tip.disk := by
  obtain ⟨⟨view,disk⟩,hconnect,hrest⟩ := Run.bind_ok.mp h
  exact ((ChainRun.start).connect node genesis _ _ _ _ rfl hconnect).foldlM_connect hrest

/-- After every step of a run from an empty index, the readers and listings return exactly the
objects of all blocks connected so far, disconnected or not, and of equal ones the last. -/
theorem ChainRun.drivechain_shows (hrun : ChainRun consensus start seen active disk)
    (hempty : start.pdrivechaintree = some ∅) : ∃ db, disk.pdrivechaintree = some db ∧
      db.Shows (recorded consensus seen) ∧
      ∀ obj, obj ∈ recorded consensus seen ↔ FoundIn consensus seen obj := by
  obtain ⟨db,hdb,hholds⟩ := hrun.holds hempty
  exact ⟨db,hdb,hholds.shows,fun obj => hrun.mem_recorded hempty⟩

end

def keyWithdraw (txid : Uint256) : DrivechainWithdraw :=
  { sidechainid := SIDECHAIN_ID, keyID := 2, txid }

/-- A coinbase whose only output withdraws to the key. -/
def withdrawingCoinbase (nHeight : ℤ) : CTransaction :=
  { vin := [{ prevout := .null, scriptSig := pushInt64 nHeight ++ [OP_0] }]
    vout := [⟨0,(DrivechainObj.withdraw (keyWithdraw 0)).getScript⟩] }

def firstTxid : Uint256 := 0x808b4d5092240af78b48dfc72849abd657f4d6acddac76487b6dcae7e11f0019
def secondTxid : Uint256 := 0x979f9d95e23d3ff821434e9171c8f7cc0b6f81cd6fed92aa8ce938e275c1f092

def firstBlock : CBlock :=
  regTestBlock regTestParams.hashGenesisBlock firstTxid 1296688603 1 [withdrawingCoinbase 1]

def secondBlock : CBlock :=
  regTestBlock 0x1ccef500def84510549cd184bdeabd00cbc5161ed22d56234c673bb2d3f7ea4a secondTxid
    1296688604 1 [withdrawingCoinbase 2]

@[reducible] def keyCrypto : Crypto := regTestCrypto
  [((keyWithdraw 0).serialize,0xbdfc509a49676e12da2dd9475726fee8474abcb183e135cb90a2fcec65728f51),
    ((withdrawingCoinbase 1).serialize,firstTxid),
    ((withdrawingCoinbase 2).serialize,secondTxid),
    (firstBlock.toCBlockHeader.serialize,
      0x1ccef500def84510549cd184bdeabd00cbc5161ed22d56234c673bb2d3f7ea4a),
    (secondBlock.toCBlockHeader.serialize,
      0x2e3729a80597126f3b82511317622ab972585a4a59dcdb79870ee25a1f3a536a)]

/-- A hash is the last four bytes. -/
@[reducible] def tailCrypto : Crypto :=
  { tableCrypto [] with
    hash256 := fun bs => BitVec.ofNat 256 (ofLeBytes (bs.drop (bs.length - 4))) }

/-- The blocks at heights 1 and 2 withdraw to the key. -/
def heightScript (i : ℕ) : CScript :=
  if i = 1 ∨ i = 2 then (DrivechainObj.withdraw (keyWithdraw 0)).getScript else []

def heightCoinbase (i : ℕ) : CTransaction :=
  { vin := [{ prevout := .null, scriptSig := [0,0] }]
    vout := [⟨0,heightScript i⟩]
    nLockTime := UInt32.ofNat (1000 + i) }

def heightBlock (i : ℕ) : CBlock :=
  { nVersion := 1, hashPrevBlock := BitVec.ofNat 256 i, hashMerkleRoot := BitVec.ofNat 256 (1000 + i)
    nTime := 1296688602, nBits := 0x207fffff, nNonce := UInt32.ofNat (i + 1)
    vtx := [heightCoinbase i] }

def heightBlocks (n : ℕ) : List CBlock := (List.range n).map heightBlock

def heightNode : Node := { regTestNode with consensus := { regTestParams with hashGenesisBlock := 1 } }

/-- A disconnected withdrawal is still returned. -/
theorem disconnectedWithdrawal_returned :
    letI := keyCrypto
    ∃ disk db, ChainRun regTestParams {} [regTestGenesis,firstBlock] [regTestGenesis] disk ∧
      disk.pdrivechaintree = some db ∧ db.getWTs = [keyWithdraw firstTxid] ∧
      db.getWT (DrivechainObj.withdraw (keyWithdraw firstTxid)).getHash =
        some (keyWithdraw firstTxid) ∧
      ¬ regTestGenesis.Contains regTestParams (.withdraw (keyWithdraw firstTxid)) := by
  let := keyCrypto
  have heval : (fun tip : Tip =>
      ((disconnectBlock regTestNode firstBlock tip.pindex tip.view tip.disk).isOk,
        tip.disk.pdrivechaintree.map fun db => (db.getWTs,
          db.getWT (DrivechainObj.withdraw (keyWithdraw firstTxid)).getHash))) <$>
      connectChain regTestNode regTestGenesis [firstBlock] =
        .ok (true,some ([keyWithdraw firstTxid],some (keyWithdraw firstTxid))) := by decide +kernel
  obtain ⟨tip,hchain,htip⟩ := Run.map_ok.mp heval
  rw [Prod.mk.injEq,Option.map_eq_some_iff] at htip
  obtain ⟨hdisc,db,hdb,hread⟩ := htip
  obtain ⟨⟨view,fClean⟩,hdisc⟩ := Run.isOk_iff.mp hdisc
  rw [Prod.mk.injEq] at hread
  exact ⟨tip.disk,db,(ChainRun.of_connectChain hchain).disconnect _ _ _ _ _ hdisc,hdb,hread.1,
    hread.2,fun h => h.1 (by decide +kernel)⟩

/-- What the index shows after that run. -/
theorem disconnectedWithdrawal_shown :
    letI := keyCrypto
    ∃ (disk : Disk) (db : CDrivechainTreeDB), disk.pdrivechaintree = some db ∧
      db.Shows [.withdraw (keyWithdraw firstTxid)] := by
  let := keyCrypto
  have heval : (fun tip : Tip =>
      (disconnectBlock regTestNode firstBlock tip.pindex tip.view tip.disk).isOk) <$>
      connectChain regTestNode regTestGenesis [firstBlock] = .ok true := by decide +kernel
  obtain ⟨tip,hchain,hdisc⟩ := Run.map_ok.mp heval
  obtain ⟨⟨view,fClean⟩,hdisc⟩ := Run.isOk_iff.mp hdisc
  have hrun := (ChainRun.of_connectChain hchain).disconnect _ _ _ _ _ hdisc
  obtain ⟨db,hdb,hshows,_⟩ := hrun.drivechain_shows rfl
  have hrec : recorded regTestParams [regTestGenesis,firstBlock] =
      [.withdraw (keyWithdraw firstTxid)] := by decide +kernel
  exact ⟨tip.disk,db,hdb,hrec ▸ hshows⟩

section
variable [Crypto] {consensus : Params} {start : Disk} {seen active : List CBlock} {disk : Disk}

/-- Every withdrawal has its own entry exactly if withdrawals with the same hash, that is to the
same key, are in the same transaction. -/
theorem ChainRun.withdrawals_listed_iff (hrun : ChainRun consensus start seen active disk)
    (hempty : start.pdrivechaintree = some ∅) : ∃ db, disk.pdrivechaintree = some db ∧
      ((∀ w, FoundIn consensus seen (.withdraw w) → w ∈ db.getWTs) ↔
        ∀ w w', FoundIn consensus seen (.withdraw w) → FoundIn consensus seen (.withdraw w') →
          (DrivechainObj.withdraw w).getHash = (DrivechainObj.withdraw w').getHash → w = w') := by
  obtain ⟨db,hdb,hholds⟩ := hrun.holds hempty
  have hmem : ∀ obj, obj ∈ recorded consensus seen ↔ FoundIn consensus seen obj :=
    fun obj => hrun.mem_recorded hempty
  refine ⟨db,hdb,?_⟩
  constructor
  · intro hall w w' hw hw' hhash
    have h := (hholds.mem_listDrivechain withdrawKind).mp (hall w hw)
    have h' := (hholds.mem_listDrivechain withdrawKind).mp (hall w' hw')
    rw [show withdrawKind.toObj w = .withdraw w from rfl,hhash] at h
    exact withdrawKind.toObj_injective (Option.some.inj (h.symm.trans h'))
  · intro hagree w hw
    refine (hholds.mem_listDrivechain withdrawKind).mpr ?_
    obtain ⟨obj,hlast⟩ := lastObj_of_mem ((hmem _).mpr hw)
    obtain ⟨hobj,hop,hhash⟩ := lastObj_eq_some hlast
    obtain ⟨w',rfl⟩ := withdrawKind.exists_toObj obj hop
    rw [hagree w w' hw ((hmem _).mp hobj) hhash.symm]
    rw [← hhash] at hlast
    exact hlast

end

/-- The second withdrawal to the key takes the entry of the first. -/
theorem firstWithdrawal_lost :
    letI := keyCrypto
    ∃ disk db, ChainRun regTestParams {} [regTestGenesis,firstBlock,secondBlock]
        [secondBlock,firstBlock,regTestGenesis] disk ∧
      disk.pdrivechaintree = some db ∧ db.getWTs = [keyWithdraw secondTxid] ∧
      firstBlock.Contains regTestParams (.withdraw (keyWithdraw firstTxid)) := by
  let := keyCrypto
  have heval : (fun tip : Tip => tip.disk.pdrivechaintree.map CDrivechainTreeDB.getWTs) <$>
      connectChain regTestNode regTestGenesis [firstBlock,secondBlock] =
        .ok (some [keyWithdraw secondTxid]) := by decide +kernel
  obtain ⟨tip,hchain,hlist⟩ := Run.map_ok.mp heval
  obtain ⟨db,hdb,hwts⟩ := Option.map_eq_some_iff.mp hlist
  exact ⟨_,db,.of_connectChain hchain,hdb,hwts,by decide +kernel,_,List.mem_singleton_self _,_,
    List.mem_singleton_self _,.withdraw (keyWithdraw 0),by decide +kernel,by decide +kernel⟩

def otherWithdraw (txid : Uint256) : DrivechainWithdraw := { keyWithdraw txid with keyID := 3 }

def pairTxid : Uint256 := 0x21199474c2390d8ac65c58a507735b6898f88b9e26f7b328db1a50a44cdd2272

/-- A coinbase that withdraws to two keys. -/
def pairCoinbase : CTransaction :=
  { withdrawingCoinbase 1 with
    vout := [⟨0,(DrivechainObj.withdraw (keyWithdraw 0)).getScript⟩,
      ⟨0,(DrivechainObj.withdraw (otherWithdraw 0)).getScript⟩] }

def pairBlock : CBlock :=
  regTestBlock regTestParams.hashGenesisBlock pairTxid 1296688603 0 [pairCoinbase]

@[reducible] def pairCrypto : Crypto := regTestCrypto
  [((keyWithdraw 0).serialize,0xbdfc509a49676e12da2dd9475726fee8474abcb183e135cb90a2fcec65728f51),
    ((otherWithdraw 0).serialize,0x61cfd28e688f5d1ffd6041daa364e4e3c5d7f6a18dbed8b57db4221664f30140),
    (pairCoinbase.serialize,pairTxid),
    (pairBlock.toCBlockHeader.serialize,
      0x598d0c7a3157caa5d7e6e1a16e9607f5d748856c10fcee95f041748b84f0377f)]

/-- Withdrawals to two keys both keep their entries. -/
theorem pairedWithdrawals_listed :
    letI := pairCrypto
    ∃ (disk : Disk) (db : CDrivechainTreeDB), disk.pdrivechaintree = some db ∧
      keyWithdraw pairTxid ∈ db.getWTs ∧ otherWithdraw pairTxid ∈ db.getWTs ∧ ∀ w,
      FoundIn regTestParams [regTestGenesis,pairBlock] (.withdraw w) → w ∈ db.getWTs := by
  let := pairCrypto
  obtain ⟨tip,hchain⟩ := Run.isOk_iff.mp
    (by decide +kernel : (connectChain regTestNode regTestGenesis [pairBlock]).isOk = true)
  have hrun := ChainRun.of_connectChain hchain
  obtain ⟨db,hdb,hiff⟩ := hrun.withdrawals_listed_iff rfl
  have hrec : recorded regTestParams [regTestGenesis,pairBlock] =
      [.withdraw (keyWithdraw pairTxid),.withdraw (otherWithdraw pairTxid)] := by decide +kernel
  have hfound : ∀ w, FoundIn regTestParams [regTestGenesis,pairBlock] (.withdraw w) ↔
      w = keyWithdraw pairTxid ∨ w = otherWithdraw pairTxid := by
    intro w
    have hmem := @ChainRun.mem_recorded _ _ _ _ _ _ hrun _ rfl (.withdraw w)
    rw [show regTestNode.consensus = regTestParams from rfl,hrec] at hmem
    rw [← hmem]
    simp
  have hlisted := hiff.mpr fun w w' hw hw' hhash => by
    rcases (hfound w).mp hw with rfl | rfl <;> rcases (hfound w').mp hw' with rfl | rfl
    · rfl
    · exact absurd hhash (by decide +kernel)
    · exact absurd hhash (by decide +kernel)
    · rfl
  exact ⟨tip.disk,db,hdb,hlisted _ ((hfound _).mpr (.inl rfl)),hlisted _ ((hfound _).mpr (.inr rfl)),
    hlisted⟩

end Sidechain
