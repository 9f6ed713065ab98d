import Sidechain.Chain.Canonical
import Sidechain.Miner.WTJoinValue
import Sidechain.Script.ScriptBuild
import Sidechain.Validation.DryRun

/-! Which scripts the drivechain decoder throws on, told by the format alone, and what this means for
its callers: `IsDrivechainScript`, `GetValueOutToDrivechain` and the scan of a block that is connected. -/
namespace Sidechain
open Codec Run

theorem ser_readdata_one {op : UInt8} {vch rest : Bytes} {n : ℕ}
    (h : (ser_readdata 1).run (op::vch) = .ok (n,rest)) : vch = rest := by
  have hread := ser_readdata_canonical 1 _ _ _ h
  rw [leBytes_one_eq,List.singleton_append] at hread
  exact (List.cons.inj hread).2

/-- A byte, whichever it is, and then the object as it would be written. -/
theorem DrivechainDeposit.unserialize_tail {op : UInt8} {vch rest : Bytes} {d : DrivechainDeposit}
    (h : DrivechainDeposit.unserialize.run (op::vch) = .ok (d,rest)) :
    opDeposit::vch = d.serialize ++ rest := by
  obtain ⟨n,_,hn,h⟩ := run_bind_ok h
  obtain ⟨sidechainid,_,hid,h⟩ := run_bind_ok h
  obtain ⟨keyID,_,hkey,h⟩ := run_bind_ok h
  obtain ⟨deposit,_,htx,h⟩ := run_bind_ok h
  cases h
  rw [ser_readdata_one hn,unserializeBits_canonical 256 32 (by norm_num) _ _ _ hid,
    unserializeBits_canonical 160 20 (by norm_num) _ _ _ hkey,
    CTransaction.unserialize_canonical _ _ _ htx]
  simp [DrivechainDeposit.serialize,leBytes_one]

theorem DrivechainWithdraw.unserialize_tail {op : UInt8} {vch rest : Bytes} {w : DrivechainWithdraw}
    (h : DrivechainWithdraw.unserialize.run (op::vch) = .ok (w,rest)) :
    opWithdraw::vch = w.serialize ++ rest := by
  obtain ⟨n,_,hn,h⟩ := run_bind_ok h
  obtain ⟨sidechainid,_,hid,h⟩ := run_bind_ok h
  obtain ⟨keyID,_,hkey,h⟩ := run_bind_ok h
  cases h
  rw [ser_readdata_one hn,unserializeBits_canonical 256 32 (by norm_num) _ _ _ hid,
    unserializeBits_canonical 160 20 (by norm_num) _ _ _ hkey]
  simp [DrivechainWithdraw.serialize,leBytes_one]

theorem DrivechainJoinedWT.unserialize_tail {op : UInt8} {vch rest : Bytes} {j : DrivechainJoinedWT}
    (h : DrivechainJoinedWT.unserialize.run (op::vch) = .ok (j,rest)) :
    opJoinedWT::vch = j.serialize ++ rest := by
  obtain ⟨n,_,hn,h⟩ := run_bind_ok h
  obtain ⟨sidechainid,_,hid,h⟩ := run_bind_ok h
  obtain ⟨wtJoined,_,htx,h⟩ := run_bind_ok h
  cases h
  rw [ser_readdata_one hn,unserializeBits_canonical 256 32 (by norm_num) _ _ _ hid,
    CTransaction.unserialize_canonical _ _ _ htx]
  simp [DrivechainJoinedWT.serialize,leBytes_one]

namespace DrivechainObj

/-- The byte names a kind of object. -/
def IsKind (op : UInt8) : Prop := op = opDeposit ∨ op = opWithdraw ∨ op = opJoinedWT

theorem unserializeObj_isKind {op : UInt8} :
    (∃ reader, unserializeObj op = some reader) ↔ IsKind op := by
  unfold unserializeObj IsKind
  split_ifs with hD hW hJ
  · exact iff_of_true ⟨_,rfl⟩ (.inl hD)
  · exact iff_of_true ⟨_,rfl⟩ (.inr (.inl hW))
  · exact iff_of_true ⟨_,rfl⟩ (.inr (.inr hJ))
  · exact iff_of_false (fun ⟨_,h⟩ => nomatch h) (by tauto)

/-- What the reader of the kind of its first byte takes from a payload is an object as written. -/
theorem unserializeObj_canonical {op : UInt8} {reader : Reader DrivechainObj} {vch rest : Bytes}
    {obj : DrivechainObj} (h : unserializeObj op = some reader)
    (hrun : reader.run (op::vch) = .ok (obj,rest)) : op::vch = obj.serialize ++ rest := by
  unfold unserializeObj at h
  split_ifs at h with hD hW hJ <;> cases h <;> rw [StateT.run_map,map_ok] at hrun
  · obtain ⟨d,hd,heq⟩ := hrun
    cases heq
    exact hD ▸ DrivechainDeposit.unserialize_tail hd
  · obtain ⟨w,hw,heq⟩ := hrun
    cases heq
    exact hW ▸ DrivechainWithdraw.unserialize_tail hw
  · obtain ⟨j,hj,heq⟩ := hrun
    cases heq
    exact hJ ▸ DrivechainJoinedWT.unserialize_tail hj

end DrivechainObj

/-- The first push of the script names a kind of object and does not begin with one. -/
def CScript.Malformed (script : CScript) : Prop :=
  ∃ op vchOP vch, getOp script = some op ∧ op.vch = vchOP::vch ∧ DrivechainObj.IsKind vchOP ∧
    ∀ obj : DrivechainObj, obj.Fits → ¬ obj.serialize <+: op.vch

/-- The script holds the object, whole, at the start of its first push. -/
def CScript.Decodes (script : CScript) (obj : DrivechainObj) : Prop :=
  ∃ op, getOp script = some op ∧ obj.serialize <+: op.vch ∧ obj.Fits ∧ obj.txid = 0

theorem unserializeObj_error {op : UInt8} {reader : Reader DrivechainObj} {vch : Bytes}
    (h : unserializeObj op = some reader) : (∃ what, reader.run (op::vch) = .error what) ↔
      ∀ obj : DrivechainObj, obj.Fits → ¬ obj.serialize <+: op::vch := by
  constructor
  · rintro ⟨what,hwhat⟩ obj hfit ⟨rest,hrest⟩
    obtain ⟨tail,htail⟩ := obj.serialize_eq_cons
    obtain ⟨reader',hreader',hrun⟩ := obj.unserializeObj_run hfit rest
    rw [hrest] at hrun
    rw [htail] at hrest
    rw [(List.cons.inj hrest).1,h] at hreader'
    cases hreader'
    rw [hwhat] at hrun
    cases hrun
  · intro hnone
    cases hrun : reader.run (op::vch) with
    | error what => exact ⟨what,rfl⟩
    | ok r =>
      have hfit := (DrivechainObj.unserializeObj_yields h _ _ _ hrun).1
      exact absurd ⟨_,(DrivechainObj.unserializeObj_canonical h hrun).symm⟩ (hnone r.1 hfit)

theorem malformed_iff {script : CScript} : script.Malformed ↔
    ∃ op vchOP vch reader what, getOp script = some op ∧ op.vch = vchOP::vch ∧
      unserializeObj vchOP = some reader ∧ reader.run op.vch = .error what := by
  constructor
  · rintro ⟨op,vchOP,vch,hop,hvch,hkind,hnone⟩
    obtain ⟨reader,hreader⟩ := DrivechainObj.unserializeObj_isKind.mpr hkind
    rw [hvch] at hnone
    obtain ⟨what,hwhat⟩ := (unserializeObj_error hreader).mpr hnone
    exact ⟨op,vchOP,vch,reader,what,hop,hvch,hreader,by rwa [hvch]⟩
  · rintro ⟨op,vchOP,vch,reader,what,hop,hvch,hreader,hwhat⟩
    refine ⟨op,vchOP,vch,hop,hvch,DrivechainObj.unserializeObj_isKind.mp ⟨reader,hreader⟩,?_⟩
    rw [hvch] at hwhat ⊢
    exact (unserializeObj_error hreader).mp ⟨what,hwhat⟩

theorem drivechainObjCtr_decodes {script : CScript} {obj : DrivechainObj}
    (h : drivechainObjCtr script = .ok (some obj)) : script.Decodes obj := by
  have hwf := drivechainObjCtr_wf h
  unfold drivechainObjCtr at h
  split at h
  · cases h
  · rename_i op hop
    split at h
    · cases h
    · rename_i vchOP vch hvch
      split at h
      · cases h
      · rename_i reader hreader
        split at h
        · cases h
        · rename_i rest hrun
          cases h
          rw [hvch] at hrun
          have hread := DrivechainObj.unserializeObj_canonical hreader hrun
          exact ⟨op,hop,hvch ▸ ⟨rest,hread.symm⟩,hwf⟩

theorem drivechainObjCtr_total {script : CScript} :
    (∃ o, drivechainObjCtr script = .ok o ∧ ∀ obj ∈ o, script.Decodes obj) ↔ ¬ script.Malformed := by
  rw [malformed_iff,← drivechainObjCtr_isOk]
  constructor
  · rintro ⟨o,ho,_⟩
    exact ⟨o,ho⟩
  · rintro ⟨o,ho⟩
    refine ⟨o,ho,fun obj hobj => drivechainObjCtr_decodes ?_⟩
    rw [ho,Option.mem_def.mp hobj]

/-- The script ends in `OP_DRIVECHAIN`, as `IsDrivechainScript` and `ConnectBlock` look for it. -/
def CScript.IsMarked (script : CScript) : Prop :=
  2 ≤ script.length ∧ script.getLast? = some OP_DRIVECHAIN

theorem undecodable_iff {script : CScript} :
    script.Undecodable ↔ script.IsMarked ∧ script.Malformed := by
  rw [malformed_iff]
  exact and_assoc.symm

theorem isDrivechainScript_total {script : CScript} :
    (∃ b, script.isDrivechainScript = .ok b) ↔ ¬ (script.IsMarked ∧ script.Malformed) := by
  rw [← undecodable_iff,← scanScript_isOk,isDrivechainScript_eq]
  simp only [map_ok]
  constructor
  · rintro ⟨_,o,ho,_⟩
    exact ⟨o,ho⟩
  · rintro ⟨o,ho⟩
    exact ⟨_,o,ho,rfl⟩

theorem foldlM_drivechain_total {outs : List CTxOut} {n : CAmount} (hn : 0 ≤ n.toInt)
    (hall : ∀ o ∈ outs, 0 ≤ o.nValue.toInt) (hle : n.toInt + valueSum outs ≤ maxMoney) :
    (∃ v, outs.foldlM (fun nValueOut out => do
      if ← out.scriptPubKey.isDrivechainScript then
        addInRange outOfRangeToDrivechain nValueOut out.nValue
      else pure nValueOut) n = .ok v) ↔
      ∀ out ∈ outs, ∃ b, out.scriptPubKey.isDrivechainScript = .ok b := by
  induction outs generalizing n with
  | nil => exact iff_of_true ⟨n,rfl⟩ (by simp)
  | cons out outs ih =>
    have h0 := hall out List.mem_cons_self
    have hall' : ∀ o ∈ outs, 0 ≤ o.nValue.toInt := fun o ho => hall o (List.mem_cons_of_mem out ho)
    have hrest := valueSum_nonneg hall'
    rw [valueSum_cons] at hle
    rw [List.forall_mem_cons]
    simp only [foldlM_cons_ok,bind_ok]
    constructor
    · rintro ⟨v,m,⟨b,hb,hm⟩,hv⟩
      refine ⟨⟨b,hb⟩,?_⟩
      cases b with
      | true =>
        obtain ⟨hsum,_,hrange⟩ := addInRange_ok.mp hm
        exact (ih hrange.1 hall' (by omega)).mp ⟨v,hv⟩
      | false =>
        obtain rfl := pure_ok.mp hm
        exact (ih hn hall' (by omega)).mp ⟨v,hv⟩
    · rintro ⟨⟨b,hb⟩,hdecoded⟩
      cases b with
      | true =>
        have hmax : maxMoney = 2100000000000000 := rfl
        have hm : (Int64.ofInt (n.toInt + out.nValue.toInt)).toInt = n.toInt + out.nValue.toInt :=
          Int64.toInt_ofInt_of_le (by omega) (by omega)
        obtain ⟨v,hv⟩ := (ih (n := Int64.ofInt (n.toInt + out.nValue.toInt)) (by omega) hall'
          (by omega)).mpr hdecoded
        exact ⟨v,_,⟨true,hb,addInRange_ok.mpr ⟨hm,⟨h0,by omega⟩,by omega,by omega⟩⟩,hv⟩
      | false =>
        obtain ⟨v,hv⟩ := (ih hn hall' (by omega)).mpr hdecoded
        exact ⟨v,n,⟨false,hb,rfl⟩,hv⟩

theorem getValueOutToDrivechain_total {tx : CTransaction} (hvalues : ValuesInRange tx.vout) :
    (∃ v, tx.getValueOutToDrivechain = .ok v) ↔
      ∀ out ∈ tx.vout, ¬ (out.scriptPubKey.IsMarked ∧ out.scriptPubKey.Malformed) := by
  simp only [← isDrivechainScript_total]
  exact foldlM_drivechain_total (by decide) hvalues.nonneg (by
    have h := hvalues.sum_le
    rwa [Int64.toInt_zero,Int.zero_add])

/-- The function answered: it returned, or its state holds a verdict. -/
def Outcome.IsVerdict {α : Type} : Outcome α → Prop
  | .ok _ => True
  | .error (.rejected _) => True
  | .error _ => False

theorem drivechainObjCtr_throws {script : CScript} {e : Halt} (h : drivechainObjCtr script = .error e) :
    ∃ what, e = .exception what := by
  unfold drivechainObjCtr at h
  split at h
  · cases h
  · split at h
    · cases h
    · split at h
      · cases h
      · split at h
        · rename_i what _
          cases h
          exact ⟨what,rfl⟩
        · cases h

theorem scanOutputs_throws {txid : Uint256} {vout : List CTxOut} {e : Halt}
    (h : scanOutputs txid vout = .error e) : ∃ what, e = .exception what := by
  induction vout with
  | nil => cases h
  | cons out vout ih =>
    rw [scanOutputs,bind_error] at h
    rcases h with h | ⟨o,_,h⟩
    · unfold scanScript at h
      split_ifs at h
      exact drivechainObjCtr_throws h
    · rw [bind_error] at h
      rcases h with h | ⟨objs,_,h⟩
      · exact ih h
      · cases h

section
variable [Crypto]

theorem collectDrivechainObjects_throws {vtx : List CTransaction} {e : Halt}
    (h : collectDrivechainObjects vtx = .error e) : ∃ what, e = .exception what := by
  induction vtx with
  | nil => cases h
  | cons tx vtx ih =>
    rw [collectDrivechainObjects,bind_error] at h
    rcases h with h | ⟨objs,_,h⟩
    · exact scanOutputs_throws h
    · rw [bind_error] at h
      rcases h with h | ⟨rest,_,h⟩
      · exact ih h
      · cases h

variable {node : Node} {block : CBlock} {pindex : CBlockIndex} {view : CCoinsViewCache} {disk : Disk}

/-- The database may fail, which is a verdict; a script that cannot be decoded is none. -/
theorem writeDrivechain_isVerdict : Outcome.IsVerdict (writeDrivechain node block disk) ↔
    disk.pdrivechaintree = none ∨ ∃ objs, collectDrivechainObjects block.vtx = .ok objs := by
  unfold writeDrivechain
  cases hdb : disk.pdrivechaintree with
  | none => exact iff_of_true trivial (.inl rfl)
  | some db =>
    simp only [fDrivechainIndex,Bool.not_true,Bool.false_eq_true,if_false,reduceCtorEq,false_or]
    cases hobjs : collectDrivechainObjects block.vtx with
    | error e =>
      obtain ⟨what,rfl⟩ := collectDrivechainObjects_throws hobjs
      refine iff_of_false id ?_
      rintro ⟨_,h⟩
      cases h
    | ok objs =>
      refine iff_of_true ?_ ⟨objs,rfl⟩
      change Outcome.IsVerdict (if objs.isEmpty then _ else _)
      cases objs.isEmpty with
      | true => trivial
      | false => cases hwrite : node.disk.writeDrivechainIndex <;> trivial

/-- Everything `ConnectBlock` does before it scans the outputs of a block past genesis succeeds. -/
structure ReachesScan (node : Node) (block : CBlock) (pindex : CBlockIndex) (view : CCoinsViewCache)
    (disk disk' : Disk) : Prop where
  checked : checkBlock node.consensus node.adjustedTime block true true = .ok ()
  best : prevBlockHash pindex = .ok view.getBestBlock
  notGenesis : isGenesis node block = false
  phashBlock : ∃ hash, pindex.phashBlock = some hash
  steps : ∃ pprev s d, pindex.pprev = some pprev ∧
    connectTransactions node block pindex pprev view = .ok s ∧
    writeUndo node pindex ⟨s.vtxundo⟩ disk = .ok d ∧ writeTxIndex node block d = .ok disk'

theorem ReachesScan.isVerdict {disk' : Disk} (h : ReachesScan node block pindex view disk disk') :
    (connectBlock node block pindex view disk false).IsVerdict ↔
      (writeDrivechain node block disk').IsVerdict := by
  obtain ⟨pprev,s,d,hprev,hs,hd,hd'⟩ := h.steps
  obtain ⟨hash,hhash⟩ := h.phashBlock
  have hconnect : connectBlock node block pindex view disk false = (do
      let disk ← writeDrivechain node block disk'
      pure (s.view.setBestBlock hash,disk)) := by
    simp only [connectBlock,connectNonGenesis,h.best,h.notGenesis,hprev,hs,hd,hd',hhash,
      CBlockIndex.getBlockHash,Bool.not_false,h.checked,bind,Except.bind,require,if_true,
      Bool.false_eq_true,if_false]
  rw [hconnect]
  cases hw : writeDrivechain node block disk' with
  | ok disk'' => exact iff_of_true trivial trivial
  | error e => cases e <;> exact Iff.rfl

end

/-- The decoder returns nothing or an object that the script holds, exactly unless the script is
malformed; its callers return exactly unless a script marked as a drivechain script is malformed. -/
theorem drivechainScripts_total [Crypto] :
    (∀ script : CScript,
      (∃ o, drivechainObjCtr script = .ok o ∧ ∀ obj ∈ o, script.Decodes obj) ↔ ¬ script.Malformed) ∧
    (∀ script : CScript,
      (∃ b, script.isDrivechainScript = .ok b) ↔ ¬ (script.IsMarked ∧ script.Malformed)) ∧
    (∀ tx : CTransaction, ValuesInRange tx.vout → ((∃ v, tx.getValueOutToDrivechain = .ok v) ↔
      ∀ out ∈ tx.vout, ¬ (out.scriptPubKey.IsMarked ∧ out.scriptPubKey.Malformed))) ∧
    ∀ (node : Node) (block : CBlock) (pindex : CBlockIndex) (view : CCoinsViewCache)
      (disk disk' : Disk), ReachesScan node block pindex view disk disk' →
      ((connectBlock node block pindex view disk false).IsVerdict ↔ disk.pdrivechaintree = none ∨
        ∀ tx ∈ block.vtx, ∀ out ∈ tx.vout,
          ¬ (out.scriptPubKey.IsMarked ∧ out.scriptPubKey.Malformed)) := by
  refine ⟨fun _ => drivechainObjCtr_total,fun _ => isDrivechainScript_total,
    fun tx hvalues => getValueOutToDrivechain_total hvalues,?_⟩
  intro node block pindex view disk disk' h
  obtain ⟨_,_,_,_,_,hundo,htxindex⟩ := h.steps
  rw [h.isVerdict,writeDrivechain_isVerdict,collectDrivechainObjects_isOk,(writeTxIndex_ok htxindex).1,
    (writeUndo_ok hundo).1]
  simp only [undecodable_iff]

/-- A push of the single byte 'W' throws in the decoder, in its callers and in `ConnectBlock`. -/
theorem truncatedWithdraw_throws : letI := minedCrypto
    drivechainObjCtr truncatedWithdraw = .error (.exception "CDataStream::read(): end of data") ∧
    CScript.isDrivechainScript truncatedWithdraw =
      .error (.exception "CDataStream::read(): end of data") ∧
    (minedTx [⟨0,truncatedWithdraw⟩]).getValueOutToDrivechain =
      .error (.exception "CDataStream::read(): end of data") ∧
    testFirst truncatedBlock = .ok () ∧ ¬ (connectFirst truncatedBlock).IsVerdict := by
  let := minedCrypto
  have hhalt : (connectFirst truncatedBlock).halt =
      some (.exception "CDataStream::read(): end of data") := by decide +kernel
  refine ⟨by decide +kernel,by decide +kernel,by decide +kernel,by decide +kernel,?_⟩
  cases hconnect : connectFirst truncatedBlock with
  | ok r =>
    rw [hconnect] at hhalt
    cases hhalt
  | error e =>
    rw [hconnect] at hhalt
    cases hhalt
    exact id

/-- A block with a withdrawal is answered. -/
theorem firstBlock_answered : letI := keyCrypto
    ∃ disk', ReachesScan regTestNode firstBlock
        (regTestTip.child regTestParams.hashGenesisBlock firstBlock.toCBlockHeader
          (some firstBlock.getHash)) regTestGenesisView {} disk' ∧
      (connectBlock regTestNode firstBlock (regTestTip.child regTestParams.hashGenesisBlock
        firstBlock.toCBlockHeader (some firstBlock.getHash)) regTestGenesisView {} false).IsVerdict ∧
      ∃ out ∈ (withdrawingCoinbase 1).vout, out.scriptPubKey.IsMarked := by
  let := keyCrypto
  have hsteps : (do
      let s ← connectTransactions regTestNode firstBlock
        (regTestTip.child regTestParams.hashGenesisBlock firstBlock.toCBlockHeader
          (some firstBlock.getHash)) regTestTip regTestGenesisView
      let d ← writeUndo regTestNode (regTestTip.child regTestParams.hashGenesisBlock
        firstBlock.toCBlockHeader (some firstBlock.getHash)) ⟨s.vtxundo⟩ {}
      let d' ← writeTxIndex regTestNode firstBlock d
      pure () : Outcome Unit) = .ok () := by decide +kernel
  simp only [bind_ok] at hsteps
  obtain ⟨s,hs,d,hd,d',hd',_⟩ := hsteps
  have hreaches : ReachesScan regTestNode firstBlock
      (regTestTip.child regTestParams.hashGenesisBlock firstBlock.toCBlockHeader
        (some firstBlock.getHash)) regTestGenesisView {} d' :=
    ⟨by decide +kernel,rfl,by decide +kernel,⟨_,rfl⟩,regTestTip,s,d,rfl,hs,hd,hd'⟩
  have hdecodable : ∀ tx ∈ firstBlock.vtx, ∀ out ∈ tx.vout,
      ¬ (out.scriptPubKey.IsMarked ∧ out.scriptPubKey.Malformed) :=
    fun tx htx out hout => undecodable_iff.not.mp (firstBlock_decodable tx htx out hout)
  have hiff := drivechainScripts_total.2.2.2 _ _ _ _ _ _ hreaches
  have hanswer := hiff.mpr (Or.inr hdecodable)
  refine ⟨d',hreaches,?_,_,List.mem_singleton_self _,by decide,by decide⟩
  with_reducible exact hanswer

end Sidechain
