import Sidechain.Script.ScriptBuild
import Sidechain.Index.DrivechainDB

/-! An object on its way through an output script and the index: `GetScript`, `drivechainObjCtr`,
`WriteDrivechainIndex` and the reader of its kind return it with the same fields, as long as its script
can be built. -/
namespace Sidechain

namespace DrivechainObj

/-- What `GetScript` appends to an empty script. -/
def scriptItems (obj : DrivechainObj) : List ScriptItem :=
  [.data obj.serialize,.opcode ⟨OP_DRIVECHAIN,by decide⟩]

/-- `GetScript`, as `operator<<` builds it. -/
def buildScript (obj : DrivechainObj) : Outcome CScript :=
  obj.scriptItems.foldlM appendItem []

theorem scriptItems_bytes (obj : DrivechainObj) :
    obj.scriptItems.flatMap ScriptItem.bytes = obj.getScript := rfl

theorem buildScript_ok {obj : DrivechainObj} {script : CScript} :
    obj.buildScript = .ok script ↔ script = obj.getScript ∧ obj.getScript.length < 2^31 := by
  constructor
  · intro h
    obtain ⟨hscript,hlen⟩ := appendItems_ok h
    rw [List.nil_append,scriptItems_bytes] at hscript
    subst hscript
    exact ⟨rfl,hlen (by simp)⟩
  · rintro ⟨rfl,hlen⟩
    have hmin : ∀ n, .number n ∈ obj.scriptItems → n ≠ Int64.minValue := by simp [scriptItems]
    have h := @appendItems_fit obj.scriptItems [] hmin
      (by rwa [scriptItems_bytes,List.length_nil,Nat.zero_add])
    rwa [scriptItems_bytes,List.nil_append] at h

theorem drivechainObjCtr_buildScript {obj : DrivechainObj} {script : CScript} (hfit : obj.Fits)
    (h : obj.buildScript = .ok script) : drivechainObjCtr script = .ok (some (obj.setTxid 0)) := by
  obtain ⟨rfl,hlen⟩ := buildScript_ok.mp h
  have hle := obj.serialize_le_getScript
  exact obj.drivechainObjCtr_getScript hfit (by omega)

end DrivechainObj

namespace CDrivechainTreeDB

/-- The reader of its kind finds the object under `objid`. -/
def ReadsBack (db : CDrivechainTreeDB) (objid : Uint256) : DrivechainObj → Prop
  | .deposit d => db.getDeposit objid = some d
  | .withdraw w => db.getWT objid = some w
  | .joinedWT j => db.getJoinedWT objid = some j

variable {db : CDrivechainTreeDB} {objid : Uint256} {list rest : List (Uint256 × DrivechainObj)}

/-- The last object that a batch has for a key is what the database has there after the batch. -/
theorem getElem?_writeDrivechainIndex (obj : DrivechainObj)
    (hlast : ∀ e ∈ rest, (e.2.drivechainop,e.1) ≠ (obj.drivechainop,objid)) :
    (db.writeDrivechainIndex (list ++ (objid,obj) :: rest))[dbKey obj.drivechainop objid]? =
      some (dbValue obj) := by
  have hnone : Store.latest (dbKey obj.drivechainop objid)
      (rest.map fun e => (dbKey e.2.drivechainop e.1,dbValue e.2)) = none := by
    rw [Option.eq_none_iff_forall_ne_some]
    intro value hvalue
    obtain ⟨e,he,heq⟩ := List.mem_map.mp (Store.mem_of_latest hvalue)
    exact hlast e he (dbKey_injective (congrArg Prod.fst heq))
  rw [writeDrivechainIndex,Store.getElem?_writeAll,List.map_append,List.map_cons,
    Store.latest_append,Store.latest,hnone,Option.none_or,if_pos rfl]
  rfl

theorem readDrivechain_written {α : Type} (kind : DrivechainKind α) (a : α)
    (hfit : (kind.toObj a).Fits)
    (hlast : ∀ e ∈ rest, (e.2.drivechainop,e.1) ≠ ((kind.toObj a).drivechainop,objid)) :
    kind.readDrivechain (db.writeDrivechainIndex (list ++ (objid,kind.toObj a) :: rest)) objid =
      some a := by
  have hget := @getElem?_writeDrivechainIndex db objid list rest (kind.toObj a) hlast
  rw [kind.toObj_op] at hget
  rw [DrivechainKind.readDrivechain,hget,Option.bind_some,kind.getDrivechainValue_dbValue a hfit]

theorem readsBack_written (obj : DrivechainObj) (hfit : obj.Fits)
    (hlast : ∀ e ∈ rest, (e.2.drivechainop,e.1) ≠ (obj.drivechainop,objid)) :
    (db.writeDrivechainIndex (list ++ (objid,obj) :: rest)).ReadsBack objid obj := by
  cases obj with
  | deposit d => exact readDrivechain_written depositKind d hfit hlast
  | withdraw w => exact readDrivechain_written withdrawKind w hfit hlast
  | joinedWT j => exact readDrivechain_written joinedWTKind j hfit hlast

end CDrivechainTreeDB

/-- Whatever the object and the transaction in it, its script, if it has fewer than 2^31 bytes, is
built, ends in `OP_DRIVECHAIN` and decodes to an object with the same fields and hash, which is found
in the index with its txid after a batch that writes it last under its kind and `objid`. -/
theorem drivechainObj_roundTrip [Crypto] (obj : DrivechainObj) (hfit : obj.Fits)
    (hlen : obj.getScript.length < 2^31) :
    ∃ script, obj.buildScript = .ok script ∧ script.getLast? = some OP_DRIVECHAIN ∧
      ∃ obj', drivechainObjCtr script = .ok (some obj') ∧ obj' = obj.setTxid 0 ∧
        obj'.drivechainop = obj.drivechainop ∧ obj'.getHash = obj.getHash ∧
        ∀ (db : CDrivechainTreeDB) (objid txid : Uint256) (list rest : List (Uint256 × DrivechainObj)),
          (∀ e ∈ rest, (e.2.drivechainop,e.1) ≠ (obj.drivechainop,objid)) →
          (db.writeDrivechainIndex (list ++ (objid,obj'.setTxid txid) :: rest)).ReadsBack objid
            (obj.setTxid txid) := by
  have hbuild : obj.buildScript = .ok obj.getScript := DrivechainObj.buildScript_ok.mpr ⟨rfl,hlen⟩
  refine ⟨_,hbuild,obj.getScript_getLast?,_,DrivechainObj.drivechainObjCtr_buildScript hfit hbuild,
    rfl,obj.setTxid_drivechainop 0,obj.setTxid_getHash 0,fun db objid txid list rest hlast => ?_⟩
  rw [DrivechainObj.setTxid_setTxid]
  exact CDrivechainTreeDB.readsBack_written (obj.setTxid txid) (by simpa using hfit)
    (by simpa using hlast)

/-- A deposit whose transaction has `outputs` outputs with scripts of `bytes` bytes. -/
def wideDeposit (outputs bytes : ℕ) : DrivechainObj :=
  .deposit { deposit := { vout := List.replicate outputs ⟨0,List.replicate bytes 0⟩ } }

theorem wideDeposit_length (outputs bytes : ℕ) :
    outputs*bytes ≤ (wideDeposit outputs bytes).serialize.length := by
  have hout : bytes ≤ (CTxOut.mk 0 (List.replicate bytes 0)).serialize.length := by
    have hblob := length_le_serializeBlob (List.replicate bytes 0)
    rw [List.length_replicate] at hblob
    rw [CTxOut.serialize,List.length_append]
    exact hblob.trans (Nat.le_add_left _ _)
  have hmul := Nat.mul_le_mul_left outputs hout
  simp only [wideDeposit,DrivechainObj.serialize,DrivechainDeposit.serialize,
    CTransaction.serialize,serializeVector,List.length_append,List.length_flatMap,
    List.map_replicate,List.sum_replicate_nat]
  omega

theorem wideDeposit_fits {outputs bytes : ℕ} (houtputs : outputs ≤ MAX_SIZE)
    (hbytes : bytes ≤ MAX_SIZE) : (wideDeposit outputs bytes).Fits where
  vin := ⟨Nat.zero_le _,fun _ h => nomatch h⟩
  vout := by
    refine ⟨by rwa [List.length_replicate],fun o ho => ?_⟩
    rw [List.eq_of_mem_replicate ho,List.length_replicate]
    exact hbytes

/-- 64 scripts of the largest size are too many for the script of the object. -/
theorem wideDeposit_not_built : (wideDeposit 64 MAX_SIZE).Fits ∧
    ∀ script, (wideDeposit 64 MAX_SIZE).buildScript ≠ .ok script := by
  refine ⟨wideDeposit_fits (by decide) le_rfl,fun script h => ?_⟩
  have hlen := (DrivechainObj.buildScript_ok.mp h).2
  have hle := (wideDeposit 64 MAX_SIZE).serialize_le_getScript
  have hwide := wideDeposit_length 64 MAX_SIZE
  have hmax : 64*MAX_SIZE = 2^31 := by decide
  omega

/-- A small deposit. -/
theorem wideDeposit_roundTrip : letI := tableCrypto []
    ∃ script, (wideDeposit 1 1).buildScript = .ok script ∧
      ∃ obj', drivechainObjCtr script = .ok (some obj') ∧
        (CDrivechainTreeDB.writeDrivechainIndex ∅ [(7,obj'.setTxid 5)]).ReadsBack 7
          ((wideDeposit 1 1).setTxid 5) := by
  let : Crypto := tableCrypto []
  obtain ⟨script,hbuild,_,obj',hobj,_,_,_,hread⟩ := drivechainObj_roundTrip (wideDeposit 1 1)
    (wideDeposit_fits (by decide) (by decide)) (by decide)
  exact ⟨script,hbuild,obj',hobj,hread ∅ 7 5 [] [] (by simp)⟩

end Sidechain
