import Sidechain.Library.Once
import Sidechain.Miner.WTJoin
import Sidechain.Validation.ChainRun

/-! Runs in which every coinbase credits deposits on the drivechain index of its parent, and when
each reported deposit is credited exactly once. -/
namespace Sidechain

/-- A block with the list of deposits the mainchain client returned for it and the index its
coinbase was made from. -/
structure CreditStep where
  block : CBlock
  vDeposit : List DrivechainDeposit
  db : CDrivechainTreeDB

section
variable [Crypto]

/-- The list as a batch; a recorded deposit is taken to be credited. -/
def CreditStep.batch (s : CreditStep) : Once.Batch DrivechainDeposit := ⟨s.vDeposit,isRecorded s.db⟩

/-- The coinbase contains the outputs of `GetDepositTX`. The client leaves `txid` null. -/
structure CreditStep.Credits (s : CreditStep) : Prop where
  txid : ∀ d ∈ s.vDeposit, d.txid = 0
  vout : ∃ cb rest before after, s.block.vtx = cb :: rest ∧
    cb.vout = before ++ ((getDepositTX (some s.db) s.vDeposit).vout ++ after)

/-- As `ChainRun`, from the genesis block on, for blocks that credit deposits. -/
inductive DepositRun (consensus : Params) (start : Disk) :
    List CBlock → List CreditStep → Disk → Prop
  | start : DepositRun consensus start [] [] start
  | connect {seen active disk} (node : Node) (s : CreditStep) (pindex : CBlockIndex)
      (view view' : CCoinsViewCache) (disk' : Disk)
      (run : DepositRun consensus start seen active disk) (hnode : node.consensus = consensus)
      (hgen : isGenesis node s.block = false) (hdb : disk.pdrivechaintree = some s.db)
      (hcredits : s.Credits)
      (h : connectBlock node s.block pindex view disk false = .ok (view',disk')) :
      DepositRun consensus start (seen ++ [s.block]) (s::active) disk'
  | disconnect {seen s active disk} (node : Node) (pindex : CBlockIndex)
      (view view' : CCoinsViewCache) (fClean : Bool)
      (run : DepositRun consensus start seen (s::active) disk)
      (h : disconnectBlock node s.block pindex view disk = .ok (view',fClean)) :
      DepositRun consensus start seen active disk

variable {consensus : Params} {start : Disk} {seen : List CBlock} {active : List CreditStep}
  {disk : Disk}

theorem CDrivechainTreeDB.Holds.isRecorded_iff {db : CDrivechainTreeDB} {objs : List DrivechainObj}
    (h : db.Holds objs) {d : DrivechainDeposit} : isRecorded db d = true ↔
      ∃ d', .deposit d' ∈ objs ∧
        (DrivechainObj.deposit d').getHash = (DrivechainObj.deposit d).getHash := by
  unfold isRecorded
  rw [Option.isSome_iff_exists]
  constructor
  · rintro ⟨d',hd'⟩
    obtain ⟨hmem,_,hhash⟩ := lastObj_eq_some ((h.readDrivechain depositKind).mp hd')
    exact ⟨d',hmem,hhash⟩
  · rintro ⟨d',hmem,hhash⟩
    obtain ⟨obj,hlast⟩ := lastObj_of_mem hmem
    obtain ⟨_,hop,_⟩ := lastObj_eq_some hlast
    obtain ⟨e,rfl⟩ := depositKind.exists_toObj obj hop
    rw [hhash] at hlast
    exact ⟨e,(h.readDrivechain depositKind).mpr hlast⟩

theorem CreditStep.Credits.contains {s : CreditStep} (h : s.Credits)
    (hsize : s.block.getSerializeSize ≤ MAX_BLOCK_SIZE)
    (hgen : s.block.toCBlockHeader.getHash ≠ consensus.hashGenesisBlock) {d : DrivechainDeposit}
    (hd : d ∈ s.batch.fresh) : ∃ txid, s.block.Contains consensus (.deposit { d with txid }) := by
  obtain ⟨cb,rest,before,after,hvtx,hvout⟩ := h.vout
  have hcb : cb ∈ s.block.vtx := hvtx ▸ List.mem_cons_self
  have hout : ⟨CENT,(DrivechainObj.deposit d).getScript⟩ ∈ cb.vout := by
    rw [hvout,getDepositTX_vout]
    refine List.mem_append_right before (List.mem_append_left after ?_)
    exact List.mem_flatMap.mpr ⟨d,hd,List.mem_cons_self⟩
  exact ⟨cb.getHash,hgen,cb,hcb,_,hout,_,scanScript_of_mem hsize hcb hout,rfl⟩

theorem DepositRun.credits (hrun : DepositRun consensus start seen active disk) :
    ∀ s ∈ active, s.Credits := by
  induction hrun with
  | start => simp
  | connect node s pindex view view' disk' run hnode hgen hdb hcredits h ih =>
    exact List.forall_mem_cons.mpr ⟨hcredits,ih⟩
  | disconnect node pindex view view' fClean run h ih => exact (List.forall_mem_cons.mp ih).2

/-- What a run keeps: the index knows every deposit credited on the active chain, and so did the
index at each block of it. -/
structure Remembered (consensus : Params) (seen : List CBlock) (active : List CreditStep)
    (disk : Disk) : Prop where
  index : ∃ db, disk.pdrivechaintree = some db ∧ db.Holds (recorded consensus seen) ∧
    ∀ d ∈ Once.handled (active.map CreditStep.batch), isRecorded db d = true
  before : Once.Remembers (active.map CreditStep.batch)

theorem Remembered.connect {s : CreditStep} {node : Node} {pindex : CBlockIndex}
    {view view' : CCoinsViewCache} {disk' : Disk} (h : Remembered node.consensus seen active disk)
    (hgen : isGenesis node s.block = false) (hdb : disk.pdrivechaintree = some s.db)
    (hcredits : s.Credits)
    (hconnect : connectBlock node s.block pindex view disk false = .ok (view',disk')) :
    Remembered node.consensus (seen ++ [s.block]) (s::active) disk' := by
  obtain ⟨db,hdb',hholds,hknown⟩ := h.index
  obtain rfl : s.db = db := Option.some.inj (hdb.symm.trans hdb')
  obtain ⟨hscan,hdisk⟩ := connectBlock_index hconnect hdb
  obtain ⟨_,_,_,hblock⟩ := connectBlock_ok hconnect hgen
  have hholds' := hholds.writeDrivechainIndex hscan.fits
  have hseen : recorded node.consensus (seen ++ [s.block]) =
      recorded node.consensus seen ++ blockObjs node.consensus s.block := by
    rw [recorded,List.flatMap_append,List.flatMap_singleton]
    rfl
  refine ⟨⟨_,hdisk,hseen ▸ hholds',fun d hd => ?_⟩,?_⟩
  · rw [List.map_cons,Once.handled,List.flatMap_cons,List.mem_append] at hd
    rw [hholds'.isRecorded_iff]
    rcases hd with hd | hd
    · obtain ⟨txid,hcontains⟩ := hcredits.contains hblock.checked.size_le
        (beq_eq_false_iff_ne.mp hgen) hd
      exact ⟨{ d with txid },List.mem_append_right _ ((hscan.mem_iff _).mpr hcontains),rfl⟩
    · obtain ⟨d',hmem,hhash⟩ := hholds.isRecorded_iff.mp (hknown d hd)
      exact ⟨d',List.mem_append_left _ hmem,hhash⟩
  · rw [List.map_cons,Once.remembers_cons]
    exact ⟨hknown,h.before⟩

theorem DepositRun.remembered (hrun : DepositRun consensus start seen active disk)
    (hempty : start.pdrivechaintree = some ∅) : Remembered consensus seen active disk := by
  induction hrun with
  | start =>
    exact ⟨⟨∅,hempty,CDrivechainTreeDB.holds_empty,by simp [Once.handled]⟩,Once.remembers_nil⟩
  | connect node s pindex view view' disk' run hnode hgen hdb hcredits h ih =>
    subst hnode
    exact ih.connect hgen hdb hcredits h
  | disconnect node pindex view view' fClean run h ih =>
    obtain ⟨db,hdb,hholds,hknown⟩ := ih.index
    exact ⟨⟨db,hdb,hholds,fun d hd => hknown d (Once.mem_handled_cons.mpr (.inr hd))⟩,
      (Once.remembers_cons.mp ih.before).2⟩

/-- The deposits the coinbase of the block credits. -/
def CreditStep.credited (s : CreditStep) : List DrivechainDeposit := Sidechain.credited s.db s.vDeposit

/-- The coinbases of the chain credit each reported deposit exactly once. -/
def CreditedOnce (chain : List CreditStep) : Prop :=
  ∀ d, (∃ s ∈ chain, d ∈ s.vDeposit) → (chain.flatMap CreditStep.credited).count d = 1

/-- No deposit without an entry is listed twice, and every listed deposit with an entry has been
credited on the chain before. -/
structure CreditStep.Clean (s : CreditStep) (before : List CreditStep) : Prop where
  nodup : s.credited.Nodup
  skipped : ∀ d ∈ s.vDeposit, isRecorded s.db d = true → ∃ s' ∈ before, d ∈ s'.credited

theorem handled_batches (chain : List CreditStep) :
    Once.handled (chain.map CreditStep.batch) = chain.flatMap CreditStep.credited :=
  List.flatMap_map ..

theorem creditedOnce_batches {chain : List CreditStep} :
    Once.ExactlyOnce (chain.map CreditStep.batch) ↔ CreditedOnce chain := by
  unfold Once.ExactlyOnce CreditedOnce
  rw [handled_batches]
  refine forall_congr' fun d => imp_congr_left ?_
  simp only [List.mem_map,exists_exists_and_eq_and]
  rfl

theorem clean_batches {s : CreditStep} {before : List CreditStep} :
    s.batch.Clean (before.map CreditStep.batch) ↔ s.Clean before := by
  have hmem : ∀ d, d ∈ Once.handled (before.map CreditStep.batch) ↔ ∃ s' ∈ before, d ∈ s'.credited :=
    fun d => by rw [handled_batches,List.mem_flatMap]
  exact ⟨fun h => ⟨h.nodup,fun d hd hrec => (hmem d).mp (h.skipped d hd hrec)⟩,
    fun h => ⟨h.nodup,fun d hd hrec => (hmem d).mpr (h.skipped d hd hrec)⟩⟩

/-- The outputs that credit deposits, and when the active chain credits each reported deposit
exactly once at every height. -/
theorem DepositRun.creditedOnce_iff (hrun : DepositRun consensus start seen active disk)
    (hempty : start.pdrivechaintree = some ∅) :
    (∀ s ∈ active, ∃ cb rest before after, s.block.vtx = cb :: rest ∧
      cb.vout = before ++ (s.credited.flatMap creditDeposit ++ after)) ∧
    ((∀ chain, chain <:+ active → CreditedOnce chain) ↔
      ∀ s before, s::before <:+ active → s.Clean before) := by
  constructor
  · intro s hs
    obtain ⟨cb,rest,before,after,hvtx,hvout⟩ := (hrun.credits s hs).vout
    rw [getDepositTX_vout] at hvout
    exact ⟨cb,rest,before,after,hvtx,hvout⟩
  · have honce := Once.exactlyOnce_iff (hrun.remembered hempty).before
    constructor
    · intro h s before hs
      refine clean_batches.mp (honce.mp (fun cs hcs => ?_) _ _ (hs.map CreditStep.batch))
      obtain ⟨chain,hchain,rfl⟩ := List.suffix_map_iff.mp hcs
      exact creditedOnce_batches.mpr (h chain hchain)
    · intro h chain hchain
      refine creditedOnce_batches.mp (honce.mpr (fun b before hs => ?_) _ (hchain.map _))
      obtain ⟨l,hl,heq⟩ := List.suffix_map_iff.mp hs
      obtain ⟨s,rest,rfl,rfl,rfl⟩ := List.map_eq_cons_iff.mp heq.symm
      exact clean_batches.mpr (h s rest hl)

end

def reportedDeposit : DrivechainDeposit :=
  { sidechainid := SIDECHAIN_ID, keyID := 1
    deposit := { vin := [{ prevout := ⟨1,0⟩ }], vout := [⟨80000,SIDECHAIN_DEPOSITSCRIPT⟩] } }

def otherDeposit : DrivechainDeposit :=
  { sidechainid := SIDECHAIN_ID, keyID := 2
    deposit := { vin := [{ prevout := ⟨2,0⟩ }], vout := [⟨50000,SIDECHAIN_DEPOSITSCRIPT⟩] } }

def creditingCoinbase (vDeposit : List DrivechainDeposit) : CTransaction :=
  { vin := [{ prevout := .null, scriptSig := pushInt64 1 ++ [OP_0] }]
    vout := ⟨0,[OP_1]⟩ :: vDeposit.flatMap creditDeposit }

def onceBlock : CBlock :=
  regTestBlock regTestParams.hashGenesisBlock
    0xb84791771c13ddd3afb950044fece6f3d4facc9eb22e48941ef0389a4d333b02 1296688603 0
    [creditingCoinbase [reportedDeposit,otherDeposit]]

def twiceBlock : CBlock :=
  regTestBlock regTestParams.hashGenesisBlock
    0x34108b6dd1431140b1bf3454e4c2585b9be2a9731db997724cddd0385bbf3c45 1296688603 0
    [creditingCoinbase [reportedDeposit,reportedDeposit]]

@[reducible] def creditCrypto : Crypto := regTestCrypto
  [(reportedDeposit.serialize,0x570a3edda391043923bc1407653bb402ce88a9b7e59d3b5f81331b8cad496c24),
    (otherDeposit.serialize,0x5f27ad8545b1c0d939223573abdd2daee24b3a710eb57e2c89a6c09c57e63889),
    ((creditingCoinbase [reportedDeposit,otherDeposit]).serialize,onceBlock.hashMerkleRoot),
    ((creditingCoinbase [reportedDeposit,reportedDeposit]).serialize,twiceBlock.hashMerkleRoot),
    (onceBlock.toCBlockHeader.serialize,
      0x2e0bf409ddad05e29d3c81596fb770ca51366c7ba6a1acef35df98d7b638843e),
    (twiceBlock.toCBlockHeader.serialize,
      0x25b2ed07832ab933184514cadbcb33bf562e36ac4cd0e9f144d0e2175ac511d2)]

/-- A deposit that is listed twice is paid twice. -/
theorem repeatedDeposit_paidTwice :
    letI := creditCrypto
    ∃ disk, DepositRun regTestParams {} [twiceBlock]
        [⟨twiceBlock,[reportedDeposit,reportedDeposit],∅⟩] disk ∧
      ¬ CreditedOnce [⟨twiceBlock,[reportedDeposit,reportedDeposit],∅⟩] := by
  let := creditCrypto
  have heval : (connectBlock regTestNode twiceBlock (regTestFirst twiceBlock) regTestGenesisView {}
      false).isOk = true := by decide +kernel
  obtain ⟨⟨view,disk⟩,hconnect⟩ := Run.isOk_iff.mp heval
  have hcredits : CreditStep.Credits ⟨twiceBlock,[reportedDeposit,reportedDeposit],∅⟩ :=
    ⟨by decide +kernel,creditingCoinbase [reportedDeposit,reportedDeposit],[],[⟨0,[OP_1]⟩],[],rfl,
      by decide +kernel⟩
  refine ⟨disk,DepositRun.start.connect regTestNode _ _ _ view disk rfl (by decide +kernel) rfl
    hcredits hconnect,?_⟩
  intro h
  exact absurd (h reportedDeposit ⟨_,List.mem_singleton_self _,List.mem_cons_self⟩)
    (by decide +kernel)

/-- Two deposits that are listed once are each paid once. -/
theorem listedDeposits_paidOnce :
    letI := creditCrypto
    CreditedOnce [⟨onceBlock,[reportedDeposit,otherDeposit],∅⟩] := by
  let := creditCrypto
  have heval : (connectBlock regTestNode onceBlock (regTestFirst onceBlock) regTestGenesisView {}
      false).isOk = true := by decide +kernel
  obtain ⟨⟨view,disk⟩,hconnect⟩ := Run.isOk_iff.mp heval
  have hcredits : CreditStep.Credits ⟨onceBlock,[reportedDeposit,otherDeposit],∅⟩ :=
    ⟨by decide +kernel,creditingCoinbase [reportedDeposit,otherDeposit],[],[⟨0,[OP_1]⟩],[],rfl,
      by decide +kernel⟩
  have hrun : DepositRun regTestParams {} [onceBlock]
      [⟨onceBlock,[reportedDeposit,otherDeposit],∅⟩] disk :=
    DepositRun.start.connect regTestNode _ _ _ view disk rfl (by decide +kernel) rfl hcredits hconnect
  refine (hrun.creditedOnce_iff rfl).2.mpr (fun s before hs => ?_) _ List.suffix_rfl
  obtain ⟨rfl,rfl⟩ : s = ⟨onceBlock,[reportedDeposit,otherDeposit],∅⟩ ∧ before = [] := by
    simpa using hs.eq_of_length_le (by simp)
  exact ⟨by decide +kernel,by decide +kernel⟩

end Sidechain
