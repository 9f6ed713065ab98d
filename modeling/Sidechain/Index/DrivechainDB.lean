import Sidechain.Primitives.Drivechain
import Sidechain.Library.Store
import Mathlib.Data.List.TakeWhile

/-! The drivechain index: a database from the kind and hash of an object to the object and the
transaction it was found in, its three readers and three listings, and what these return in terms
of the objects written so far. -/
namespace Sidechain
open Codec

/-- A LevelDB database iterates in the order of the bytes of its keys. -/
abbrev CDrivechainTreeDB := Std.TreeMap Bytes Bytes compare

/-- `pair<char,uint256>` on disk. -/
def dbKey (drivechainop : UInt8) (objid : Uint256) : Bytes :=
  leBytes 1 drivechainop.toNat ++ serializeBits 32 objid

/-- An object and its txid on disk. -/
def dbValue (obj : DrivechainObj) : Bytes := obj.serialize ++ serializeBits 32 obj.txid

namespace CDrivechainTreeDB

/-- One batch of writes. -/
def writeDrivechainIndex (db : CDrivechainTreeDB) (list : List (Uint256 × DrivechainObj)) :
    CDrivechainTreeDB :=
  Store.writeAll db (list.map fun e => (dbKey e.2.drivechainop e.1,dbValue e.2))

end CDrivechainTreeDB

/-- One of the three kinds of object, as the readers of the index handle it. -/
structure DrivechainKind (α : Type) where
  op : UInt8
  unserialize : Reader α
  setTxid : Uint256 → α → α
  toObj : α → DrivechainObj
  op_gt : 1 < op
  toObj_injective : Function.Injective toObj
  toObj_op : ∀ a, (toObj a).drivechainop = op
  exists_toObj : ∀ obj : DrivechainObj, obj.drivechainop = op → ∃ a, toObj a = obj
  toObj_setTxid : ∀ txid a, toObj (setTxid txid a) = (toObj a).setTxid txid
  reads_back : ∀ a, (toObj a).Fits → ∀ rest,
    unserialize.run ((toObj a).serialize ++ rest) = .ok (setTxid 0 a,rest)
  yields_fits : Yields unserialize fun a => (toObj a).Fits

def depositKind : DrivechainKind DrivechainDeposit where
  op := opDeposit
  unserialize := DrivechainDeposit.unserialize
  setTxid txid d := { d with txid }
  toObj := .deposit
  op_gt := by decide
  toObj_injective _ _ h := by injection h
  toObj_op _ := rfl
  exists_toObj obj h := by
    cases obj with
    | deposit d => exact ⟨d,rfl⟩
    | withdraw w => cases h
    | joinedWT j => cases h
  toObj_setTxid _ _ := rfl
  reads_back d hd rest := DrivechainDeposit.unserialize_inverts { d with txid := 0 } ⟨hd,rfl⟩ rest
  yields_fits input d rest h := (DrivechainDeposit.unserialize_yields input d rest h).1

def withdrawKind : DrivechainKind DrivechainWithdraw where
  op := opWithdraw
  unserialize := DrivechainWithdraw.unserialize
  setTxid txid w := { w with txid }
  toObj := .withdraw
  op_gt := by decide
  toObj_injective _ _ h := by injection h
  toObj_op _ := rfl
  exists_toObj obj h := by
    cases obj with
    | deposit d => cases h
    | withdraw w => exact ⟨w,rfl⟩
    | joinedWT j => cases h
  toObj_setTxid _ _ := rfl
  reads_back w _ rest := DrivechainWithdraw.unserialize_inverts { w with txid := 0 } rfl rest
  yields_fits _ _ _ _ := trivial

def joinedWTKind : DrivechainKind DrivechainJoinedWT where
  op := opJoinedWT
  unserialize := DrivechainJoinedWT.unserialize
  setTxid txid j := { j with txid }
  toObj := .joinedWT
  op_gt := by decide
  toObj_injective _ _ h := by injection h
  toObj_op _ := rfl
  exists_toObj obj h := by
    cases obj with
    | deposit d => cases h
    | withdraw w => cases h
    | joinedWT j => exact ⟨j,rfl⟩
  toObj_setTxid _ _ := rfl
  reads_back j hj rest := DrivechainJoinedWT.unserialize_inverts { j with txid := 0 } ⟨hj,rfl⟩ rest
  yields_fits input j rest h := (DrivechainJoinedWT.unserialize_yields input j rest h).1

namespace DrivechainKind
variable {α : Type} (kind : DrivechainKind α)

/-- The object of a value, then its txid; a value that cannot be read is no entry. -/
def getDrivechainValue (value : Bytes) : Option α :=
  let reader : Reader α := do
    let obj ← kind.unserialize
    let txid ← unserializeBits 256 32
    pure (kind.setTxid txid obj)
  match reader.run value with
  | .ok (obj,_) => some obj
  | .error _ => none

def readDrivechain (db : CDrivechainTreeDB) (objid : Uint256) : Option α :=
  db[dbKey kind.op objid]?.bind kind.getDrivechainValue

/-- The first byte of a key that reads as `pair<char,uint256>`. -/
def getKeyOp (key : Bytes) : Option ℕ :=
  let reader : Reader ℕ := do
    let op ← ser_readdata 1
    let _ ← unserializeBits 256 32
    pure op
  match reader.run key with
  | .ok (op,_) => some op
  | .error _ => none

/-- All entries from `Seek` on that have the kind's byte; the sought key is a string, written
with its length. -/
def listDrivechain (db : CDrivechainTreeDB) : List α :=
  let entries := db.toList.dropWhile fun e => compare e.1 (serializeBlob [kind.op]) == .lt
  entries.filterMap fun e =>
    if getKeyOp e.1 = some kind.op.toNat then kind.getDrivechainValue e.2 else none

end DrivechainKind

namespace CDrivechainTreeDB

def getDeposit (db : CDrivechainTreeDB) (objid : Uint256) : Option DrivechainDeposit :=
  depositKind.readDrivechain db objid
def getWT (db : CDrivechainTreeDB) (objid : Uint256) : Option DrivechainWithdraw :=
  withdrawKind.readDrivechain db objid
def getJoinedWT (db : CDrivechainTreeDB) (objid : Uint256) : Option DrivechainJoinedWT :=
  joinedWTKind.readDrivechain db objid

def getDeposits (db : CDrivechainTreeDB) : List DrivechainDeposit := depositKind.listDrivechain db
def getWTs (db : CDrivechainTreeDB) : List DrivechainWithdraw := withdrawKind.listDrivechain db

end CDrivechainTreeDB

theorem leBytes_injective {width m n : ℕ} (hm : m < 256^width) (hn : n < 256^width)
    (h : leBytes width m = leBytes width n) : m = n := by
  rw [← Nat.mod_eq_of_lt hm,← Nat.mod_eq_of_lt hn,← ofLeBytes_leBytes,← ofLeBytes_leBytes,h]

theorem leBytes_one (b : UInt8) : leBytes 1 b.toNat = [b] := by
  simp [leBytes,digitsLE]

theorem dbKey_eq_cons (op : UInt8) (objid : Uint256) :
    dbKey op objid = op :: serializeBits 32 objid := by
  rw [dbKey,leBytes_one,List.singleton_append]

theorem dbKey_injective : Function.Injective fun k : UInt8 × Uint256 => dbKey k.1 k.2 := by
  rintro ⟨op,objid⟩ ⟨op',objid'⟩ h
  dsimp only at h
  rw [dbKey_eq_cons,dbKey_eq_cons,List.cons.injEq] at h
  have hid := leBytes_injective objid.isLt objid'.isLt h.2
  rw [h.1,BitVec.eq_of_toNat_eq hid]

namespace DrivechainKind

section
variable {α : Type} (kind : DrivechainKind α)

theorem setTxid_setTxid (s t : Uint256) (a : α) :
    kind.setTxid t (kind.setTxid s a) = kind.setTxid t a := by
  apply kind.toObj_injective
  simp only [kind.toObj_setTxid,DrivechainObj.setTxid_setTxid]

@[simp] theorem setTxid_self (a : α) : kind.setTxid (kind.toObj a).txid a = a := by
  apply kind.toObj_injective
  rw [kind.toObj_setTxid,DrivechainObj.setTxid_self]

/-- A written object is read back with its txid. -/
theorem getDrivechainValue_dbValue (a : α) (hfit : (kind.toObj a).Fits) :
    kind.getDrivechainValue (dbValue (kind.toObj a)) = some a := by
  have hrun := (unserializeBits_inverts 256 32 (by norm_num)) (kind.toObj a).txid trivial []
  rw [List.append_nil] at hrun
  have hread : (do
      let obj ← kind.unserialize
      let txid ← unserializeBits 256 32
      pure (kind.setTxid txid obj) : Reader α).run (dbValue (kind.toObj a)) = .ok (a,[]) := by
    rw [dbValue,StateT.run_bind,kind.reads_back a hfit]
    change (unserializeBits 256 32 >>= fun txid => pure (kind.setTxid txid (kind.setTxid 0 a))).run
      (serializeBits 32 (kind.toObj a).txid) = _
    rw [StateT.run_bind,hrun]
    exact congrArg (fun x => Except.ok (x,[])) ((kind.setTxid_setTxid _ _ _).trans (kind.setTxid_self a))
  unfold getDrivechainValue
  dsimp only
  rw [hread]

theorem fits_of_getDrivechainValue {value : Bytes} {a : α}
    (h : kind.getDrivechainValue value = some a) : (kind.toObj a).Fits := by
  have hy : Yields (do
      let obj ← kind.unserialize
      let txid ← unserializeBits 256 32
      pure (kind.setTxid txid obj) : Reader α) fun a => (kind.toObj a).Fits :=
    kind.yields_fits.bind fun a ha => (yields_true _).bind fun txid _ => Yields.pure (by
      rwa [kind.toObj_setTxid,DrivechainObj.setTxid_fits])
  unfold getDrivechainValue at h
  dsimp only at h
  split at h
  · rename_i hrun
    cases h
    exact hy _ _ _ hrun
  · cases h

theorem fits_of_mem_listDrivechain {db : CDrivechainTreeDB} {a : α}
    (h : a ∈ kind.listDrivechain db) : (kind.toObj a).Fits := by
  obtain ⟨e,_,he⟩ := List.mem_filterMap.mp h
  split_ifs at he
  exact kind.fits_of_getDrivechainValue he

@[simp] theorem getKeyOp_dbKey (op : UInt8) (objid : Uint256) : getKeyOp (dbKey op objid) = some op.toNat := by
  have hrun := (unserializeBits_inverts 256 32 (by norm_num)) objid trivial []
  rw [List.append_nil] at hrun
  unfold getKeyOp dbKey
  dsimp only
  rw [(ser_readdata_inverts 1).run_bind (by simpa using op.toNat_lt),StateT.run_bind,hrun]
  rfl

end

section
variable [Crypto] {α : Type} (kind : DrivechainKind α)

theorem listed_iff {obj : DrivechainObj} (hfit : obj.Fits) {a : α} :
    (if getKeyOp (dbKey obj.drivechainop obj.getHash) = some kind.op.toNat then
      kind.getDrivechainValue (dbValue obj) else none) = some a ↔ obj = kind.toObj a := by
  simp only [getKeyOp_dbKey,Option.some.injEq,UInt8.toNat_inj]
  by_cases hop : obj.drivechainop = kind.op
  · obtain ⟨b,rfl⟩ := kind.exists_toObj obj hop
    rw [if_pos hop,kind.getDrivechainValue_dbValue b hfit,Option.some.injEq,
      kind.toObj_injective.eq_iff]
  · rw [if_neg hop]
    constructor
    · intro hnone
      cases hnone
    · rintro rfl
      exact absurd (kind.toObj_op a) hop

end

end DrivechainKind

variable [Crypto]

/-- The place of an object in the index, with the object. -/
def DrivechainObj.entry (obj : DrivechainObj) : (UInt8 × Uint256) × DrivechainObj :=
  ((obj.drivechainop,obj.getHash),obj)

/-- The object written last under a kind and a hash. -/
def lastObj (objs : List DrivechainObj) (op : UInt8) (objid : Uint256) : Option DrivechainObj :=
  Store.latest (op,objid) (objs.map DrivechainObj.entry)

theorem lastObj_eq_some {objs : List DrivechainObj} {op : UInt8} {objid : Uint256}
    {obj : DrivechainObj} (h : lastObj objs op objid = some obj) :
    obj ∈ objs ∧ obj.drivechainop = op ∧ obj.getHash = objid := by
  obtain ⟨o,ho,he⟩ := List.mem_map.mp (Store.mem_of_latest h)
  cases he
  exact ⟨ho,rfl,rfl⟩

theorem lastObj_of_mem {objs : List DrivechainObj} {obj : DrivechainObj} (h : obj ∈ objs) :
    ∃ o, lastObj objs obj.drivechainop obj.getHash = some o :=
  Store.latest_isSome_of_mem (List.mem_map_of_mem h)

namespace CDrivechainTreeDB

/-- The database holds, under each key, the last of the objects with that kind and hash. -/
structure Holds (db : CDrivechainTreeDB) (objs : List DrivechainObj) : Prop where
  entries : ∀ key, db[key]? =
    Store.latest key (objs.map fun obj => (dbKey obj.drivechainop obj.getHash,dbValue obj))
  fits : ∀ obj ∈ objs, obj.Fits

theorem holds_empty : Holds ∅ [] := ⟨fun _ => Std.TreeMap.getElem?_emptyc,by simp⟩

/-- A batch of objects under their own hashes extends what the database holds. -/
theorem Holds.writeDrivechainIndex {db : CDrivechainTreeDB} {objs : List DrivechainObj}
    (h : Holds db objs) {objs' : List DrivechainObj} (hfits : ∀ obj ∈ objs', obj.Fits) :
    Holds (db.writeDrivechainIndex (objs'.map fun obj => (obj.getHash,obj))) (objs ++ objs') := by
  constructor
  · intro key
    unfold CDrivechainTreeDB.writeDrivechainIndex
    rw [Store.getElem?_writeAll,h.entries,List.map_append,Store.latest_append,List.map_map]
    rfl
  · intro obj hobj
    rcases List.mem_append.mp hobj with hobj | hobj
    · exact h.fits obj hobj
    · exact hfits obj hobj

/-- The index of a list of objects written at once. -/
def ofObjs (objs : List DrivechainObj) : CDrivechainTreeDB :=
  CDrivechainTreeDB.writeDrivechainIndex ∅ (objs.map fun obj => (obj.getHash,obj))

theorem holds_ofObjs {objs : List DrivechainObj} (hfits : ∀ obj ∈ objs, obj.Fits) :
    Holds (ofObjs objs) objs :=
  holds_empty.writeDrivechainIndex hfits

section
variable {db : CDrivechainTreeDB} {objs : List DrivechainObj} (h : Holds db objs)
include h

theorem Holds.getElem?_dbKey (op : UInt8) (objid : Uint256) :
    db[dbKey op objid]? = (lastObj objs op objid).map dbValue := by
  have hmap : objs.map (fun obj => (dbKey obj.drivechainop obj.getHash,dbValue obj)) =
      (objs.map DrivechainObj.entry).map fun e => (dbKey e.1.1 e.1.2,dbValue e.2) := by
    rw [List.map_map]
    rfl
  rw [h.entries,hmap]
  exact Store.latest_map_key dbKey_injective dbValue (op,objid) _

theorem Holds.mem_toList {e : Bytes × Bytes} : e ∈ db.toList ↔
    ∃ obj, lastObj objs obj.drivechainop obj.getHash = some obj ∧
      e = (dbKey obj.drivechainop obj.getHash,dbValue obj) := by
  obtain ⟨key,value⟩ := e
  rw [Std.TreeMap.mem_toList_iff_getElem?_eq_some]
  constructor
  · intro hget
    rw [h.entries] at hget
    obtain ⟨o,ho,hkey⟩ := List.mem_map.mp (Store.mem_of_latest hget)
    cases hkey
    rw [← h.entries,h.getElem?_dbKey,Option.map_eq_some_iff] at hget
    obtain ⟨obj,hobj,hval⟩ := hget
    obtain ⟨_,hop,hhash⟩ := lastObj_eq_some hobj
    exact ⟨obj,by rw [hop,hhash,hobj],by rw [hop,hhash,hval]⟩
  · rintro ⟨obj,hobj,he⟩
    cases he
    rw [h.getElem?_dbKey,hobj]
    rfl

variable {α : Type} (kind : DrivechainKind α)

/-- A reader returns the object written last under its kind and the hash. -/
theorem Holds.readDrivechain {objid : Uint256} {a : α} :
    kind.readDrivechain db objid = some a ↔ lastObj objs kind.op objid = some (kind.toObj a) := by
  unfold DrivechainKind.readDrivechain
  rw [h.getElem?_dbKey]
  cases hlast : lastObj objs kind.op objid with
  | none => simp
  | some obj =>
    obtain ⟨hmem,hop,_⟩ := lastObj_eq_some hlast
    obtain ⟨b,rfl⟩ := kind.exists_toObj obj hop
    simp only [Option.map_some,Option.bind_some,Option.some.injEq,
      kind.getDrivechainValue_dbValue b (h.fits _ hmem),kind.toObj_injective.eq_iff]

/-- A listing starts before every entry, since no kind's byte is as small as a length. -/
theorem Holds.dropWhile_seek :
    (db.toList.dropWhile fun e => compare e.1 (serializeBlob [kind.op]) == .lt) = db.toList := by
  rw [List.dropWhile_eq_self_iff]
  intro hl
  obtain ⟨obj,_,he⟩ := h.mem_toList.mp (List.getElem_mem hl)
  have hseek : serializeBlob [kind.op] = 1 :: [kind.op] := rfl
  rw [he,dbKey_eq_cons,hseek,List.compare_eq_compareLex,List.compareLex_cons_cons,
    Std.compare_eq_gt.mpr obj.drivechainop_gt]
  simp

theorem Holds.mem_listDrivechain {a : α} : a ∈ kind.listDrivechain db ↔
    lastObj objs kind.op (kind.toObj a).getHash = some (kind.toObj a) := by
  unfold DrivechainKind.listDrivechain
  rw [h.dropWhile_seek,List.mem_filterMap]
  constructor
  · rintro ⟨e,he,hval⟩
    obtain ⟨obj,hlast,rfl⟩ := h.mem_toList.mp he
    obtain rfl := (kind.listed_iff (h.fits obj (lastObj_eq_some hlast).1)).mp hval
    rwa [kind.toObj_op] at hlast
  · intro hlast
    have hfit := h.fits _ (lastObj_eq_some hlast).1
    rw [← kind.toObj_op a] at hlast
    exact ⟨_,h.mem_toList.mpr ⟨_,hlast,rfl⟩,(kind.listed_iff hfit).mpr rfl⟩

theorem Holds.listDrivechain_sorted : (kind.listDrivechain db).Pairwise fun a b =>
    compare (dbKey kind.op (kind.toObj a).getHash) (dbKey kind.op (kind.toObj b).getHash) = .lt := by
  unfold DrivechainKind.listDrivechain
  rw [h.dropWhile_seek,List.pairwise_filterMap]
  refine Std.TreeMap.ordered_keys_toList.imp_of_mem ?_
  intro e e' he he' hlt a ha b hb
  obtain ⟨obj,hlast,rfl⟩ := h.mem_toList.mp he
  obtain ⟨obj',hlast',rfl⟩ := h.mem_toList.mp he'
  obtain rfl := (kind.listed_iff (h.fits obj (lastObj_eq_some hlast).1)).mp ha
  obtain rfl := (kind.listed_iff (h.fits obj' (lastObj_eq_some hlast').1)).mp hb
  rwa [kind.toObj_op,kind.toObj_op] at hlt

end

end CDrivechainTreeDB
end Sidechain
