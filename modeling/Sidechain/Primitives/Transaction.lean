import Sidechain.Primitives.Outcome
import Sidechain.Script.Script

/-! Outpoints, inputs, outputs and transactions with their wire format. -/
namespace Sidechain
open Codec

/-- The hash functions and curve operations the modelled code calls. Nothing is assumed of them. -/
class Crypto where
  hash256 : Bytes → Uint256
  hash160 : Bytes → Uint160
  sha256 : Bytes → Uint256
  sha1 : Bytes → Uint160
  ripemd160 : Bytes → Uint160
  checkLowS : Bytes → Bool
  verify : Bytes → Uint256 → Bytes → Bool

/-- Hash functions given by a table of the inputs that matter, to run the model on examples. -/
@[reducible] def tableCrypto (table : List (Bytes × Uint256)) : Crypto where
  hash256 bs := ((table.find? (·.1 = bs)).map Prod.snd).getD 0
  hash160 _ := 0
  sha256 _ := 0
  sha1 _ := 0
  ripemd160 _ := 0
  checkLowS _ := false
  verify _ _ _ := false

/-- A hash that tells short inputs apart. -/
@[reducible] def digitCrypto : Crypto :=
  { tableCrypto [] with
    hash256 := fun bs => BitVec.ofNat 256 (bs.foldl (fun n b => 257 * n + b.toNat + 1) 0) }

structure COutPoint where
  hash : Uint256
  n : UInt32
  deriving DecidableEq, Repr

/-- The outpoint a coinbase input carries. -/
def COutPoint.null : COutPoint := ⟨0,0xffffffff⟩

def COutPoint.isNull (o : COutPoint) : Bool := o.hash == 0 && o.n == 0xffffffff

def SEQUENCE_FINAL : UInt32 := 0xffffffff

structure CTxIn where
  prevout : COutPoint
  scriptSig : CScript := []
  nSequence : UInt32 := SEQUENCE_FINAL
  deriving DecidableEq, Repr

structure CTxOut where
  nValue : CAmount
  scriptPubKey : CScript
  deriving DecidableEq, Repr

/-- The default output; a spent output of a `CCoins` is set to it. -/
def CTxOut.null : CTxOut := ⟨-1,[]⟩

def CTxOut.isNull (o : CTxOut) : Bool := o.nValue == -1

structure CTransaction where
  nVersion : Int32 := 1
  vin : List CTxIn := []
  vout : List CTxOut := []
  nLockTime : UInt32 := 0
  deriving DecidableEq, Repr

def CTransaction.isNull (tx : CTransaction) : Bool := tx.vin.isEmpty && tx.vout.isEmpty

def CTransaction.isCoinBase (tx : CTransaction) : Bool :=
  match tx.vin with
  | [txin] => txin.prevout.isNull
  | _ => false

/-- The outpoints a transaction spends; the input of a coinbase spends nothing. -/
def CTransaction.spends (tx : CTransaction) : List COutPoint :=
  if tx.isCoinBase then [] else tx.vin.map CTxIn.prevout

def readUInt32 : Reader UInt32 := UInt32.ofBitVec <$> unserializeBits 32 4
def readInt32 : Reader Int32 := Int32.ofBitVec <$> unserializeBits 32 4
def readInt64 : Reader Int64 := Int64.ofBitVec <$> unserializeBits 64 8

def COutPoint.serialize (o : COutPoint) : Bytes :=
  serializeBits 32 o.hash ++ serializeBits 4 o.n.toBitVec

def COutPoint.unserialize : Reader COutPoint := do
  let hash ← unserializeBits 256 32
  let n ← readUInt32
  pure ⟨hash,n⟩

def CTxIn.serialize (i : CTxIn) : Bytes :=
  i.prevout.serialize ++ (serializeBlob i.scriptSig ++ serializeBits 4 i.nSequence.toBitVec)

def CTxIn.unserialize : Reader CTxIn := do
  let prevout ← COutPoint.unserialize
  let scriptSig ← unserializeBlob
  let nSequence ← readUInt32
  pure ⟨prevout,scriptSig,nSequence⟩

def CTxOut.serialize (o : CTxOut) : Bytes :=
  serializeBits 8 o.nValue.toBitVec ++ serializeBlob o.scriptPubKey

def CTxOut.unserialize : Reader CTxOut := do
  let nValue ← readInt64
  let scriptPubKey ← unserializeBlob
  pure ⟨nValue,scriptPubKey⟩

def CTransaction.serialize (tx : CTransaction) : Bytes :=
  serializeBits 4 tx.nVersion.toBitVec ++ (serializeVector CTxIn.serialize tx.vin ++
    (serializeVector CTxOut.serialize tx.vout ++ serializeBits 4 tx.nLockTime.toBitVec))

def CTransaction.unserialize : Reader CTransaction := do
  let nVersion ← readInt32
  let vin ← unserializeVector CTxIn.unserialize
  let vout ← unserializeVector CTxOut.unserialize
  let nLockTime ← readUInt32
  pure ⟨nVersion,vin,vout,nLockTime⟩

/-- `GetSerializeSize` runs the serializer on a stream that counts. -/
def CTransaction.getSerializeSize (tx : CTransaction) : ℕ := tx.serialize.length

def CTransaction.getHash [Crypto] (tx : CTransaction) : Uint256 := Crypto.hash256 tx.serialize

/-- Every vector and script of the transaction is short enough to be read back. -/
structure CTransaction.Fits (tx : CTransaction) : Prop where
  vin : tx.vin.length ≤ MAX_SIZE ∧ ∀ i ∈ tx.vin, i.scriptSig.length ≤ MAX_SIZE
  vout : tx.vout.length ≤ MAX_SIZE ∧ ∀ o ∈ tx.vout, o.scriptPubKey.length ≤ MAX_SIZE

theorem readUInt32_inverts :
    Inverts readUInt32 (fun n => serializeBits 4 n.toBitVec) (fun _ => True) :=
  (unserializeBits_inverts 32 4 (by norm_num)).map UInt32.ofBitVec (fun n => n.toBitVec)
    (fun _ _ => trivial) (fun _ => rfl)

theorem readInt32_inverts :
    Inverts readInt32 (fun n => serializeBits 4 n.toBitVec) (fun _ => True) :=
  (unserializeBits_inverts 32 4 (by norm_num)).map Int32.ofBitVec (fun n => n.toBitVec)
    (fun _ _ => trivial) (fun _ => rfl)

theorem readInt64_inverts :
    Inverts readInt64 (fun n => serializeBits 8 n.toBitVec) (fun _ => True) :=
  (unserializeBits_inverts 64 8 (by norm_num)).map Int64.ofBitVec (fun n => n.toBitVec)
    (fun _ _ => trivial) (fun _ => rfl)

theorem COutPoint.unserialize_inverts :
    Inverts COutPoint.unserialize COutPoint.serialize (fun _ => True) := by
  intro o _ rest
  rw [COutPoint.unserialize,COutPoint.serialize,List.append_assoc,
    (unserializeBits_inverts 256 32 (by norm_num)).run_bind trivial,
    readUInt32_inverts.run_bind trivial]
  rfl

theorem CTxIn.unserialize_inverts :
    Inverts CTxIn.unserialize CTxIn.serialize (fun i => i.scriptSig.length ≤ MAX_SIZE) := by
  intro i hi rest
  rw [CTxIn.unserialize,CTxIn.serialize,List.append_assoc,List.append_assoc,
    COutPoint.unserialize_inverts.run_bind trivial,unserializeBlob_inverts.run_bind hi,
    readUInt32_inverts.run_bind trivial]
  rfl

theorem CTxOut.unserialize_inverts :
    Inverts CTxOut.unserialize CTxOut.serialize (fun o => o.scriptPubKey.length ≤ MAX_SIZE) := by
  intro o ho rest
  rw [CTxOut.unserialize,CTxOut.serialize,List.append_assoc,
    readInt64_inverts.run_bind trivial,unserializeBlob_inverts.run_bind ho]
  rfl

theorem CTransaction.unserialize_inverts :
    Inverts CTransaction.unserialize CTransaction.serialize CTransaction.Fits := by
  intro tx htx rest
  rw [CTransaction.unserialize,CTransaction.serialize,List.append_assoc,List.append_assoc,
    List.append_assoc,readInt32_inverts.run_bind trivial,
    (unserializeVector_inverts CTxIn.unserialize_inverts).run_bind htx.vin,
    (unserializeVector_inverts CTxOut.unserialize_inverts).run_bind htx.vout,
    readUInt32_inverts.run_bind trivial]
  rfl

theorem CTxIn.unserialize_yields :
    Yields CTxIn.unserialize (fun i => i.scriptSig.length ≤ MAX_SIZE) :=
  (yields_true _).bind fun _ _ => unserializeBlob_yields.bind fun _ hs =>
    (yields_true _).bind fun _ _ => Yields.pure hs

theorem CTxOut.unserialize_yields :
    Yields CTxOut.unserialize (fun o => o.scriptPubKey.length ≤ MAX_SIZE) :=
  (yields_true _).bind fun _ _ => unserializeBlob_yields.bind fun _ hs => Yields.pure hs

/-- Whatever is read from a stream can be written and read again. -/
theorem CTransaction.unserialize_yields : Yields CTransaction.unserialize CTransaction.Fits :=
  (yields_true _).bind fun _ _ =>
    (unserializeVector_yields CTxIn.unserialize_yields).bind fun _ hin =>
      (unserializeVector_yields CTxOut.unserialize_yields).bind fun _ hout =>
        (yields_true _).bind fun _ _ => Yields.pure ⟨hin,hout⟩

theorem length_le_serializeBlob (bs : Bytes) : bs.length ≤ (serializeBlob bs).length := by
  simp [serializeBlob]

theorem length_le_flatMap {α : Type} (enc : α → Bytes) (henc : ∀ a, 0 < (enc a).length)
    (v : List α) : v.length ≤ (v.flatMap enc).length := by
  induction v with
  | nil => simp
  | cons a v ih =>
    have ha := henc a
    simp only [List.flatMap_cons,List.length_append,List.length_cons]
    omega

theorem length_le_flatMap_of_mem {α : Type} (enc : α → Bytes) {v : List α} {a : α} (ha : a ∈ v) :
    (enc a).length ≤ (v.flatMap enc).length :=
  (List.sublist_flatten_of_mem (List.mem_map_of_mem ha)).length_le

theorem CTransaction.size_of_mem_vout {tx : CTransaction} {out : CTxOut} (h : out ∈ tx.vout) :
    out.scriptPubKey.length ≤ tx.getSerializeSize := by
  have h1 := length_le_flatMap_of_mem CTxOut.serialize h
  have h2 := length_le_serializeBlob out.scriptPubKey
  have h3 : (serializeBlob out.scriptPubKey).length ≤ out.serialize.length := by
    simp only [CTxOut.serialize,List.length_append]
    omega
  simp only [CTransaction.getSerializeSize,CTransaction.serialize,serializeVector,
    List.length_append]
  omega

theorem CTransaction.size_of_mem_vin {tx : CTransaction} {i : CTxIn} (h : i ∈ tx.vin) :
    i.scriptSig.length ≤ tx.getSerializeSize := by
  have h1 := length_le_flatMap_of_mem CTxIn.serialize h
  have h2 := length_le_serializeBlob i.scriptSig
  have h3 : (serializeBlob i.scriptSig).length ≤ i.serialize.length := by
    simp only [CTxIn.serialize,List.length_append]
    omega
  simp only [CTransaction.getSerializeSize,CTransaction.serialize,serializeVector,
    List.length_append]
  omega

theorem CTransaction.fits_of_size {tx : CTransaction} (h : tx.getSerializeSize ≤ MAX_SIZE) :
    tx.Fits := by
  have hin := length_le_flatMap CTxIn.serialize
    (by intro i; simp [CTxIn.serialize,COutPoint.serialize,serializeBits]) tx.vin
  have hout := length_le_flatMap CTxOut.serialize
    (by intro o; simp [CTxOut.serialize,serializeBits]) tx.vout
  have hsize : (tx.vin.flatMap CTxIn.serialize).length + (tx.vout.flatMap CTxOut.serialize).length ≤
      tx.getSerializeSize := by
    simp only [CTransaction.getSerializeSize,CTransaction.serialize,serializeVector,
      List.length_append]
    omega
  exact ⟨⟨by omega,fun i hi => (CTransaction.size_of_mem_vin hi).trans h⟩,
    ⟨by omega,fun o ho => (CTransaction.size_of_mem_vout ho).trans h⟩⟩

end Sidechain
