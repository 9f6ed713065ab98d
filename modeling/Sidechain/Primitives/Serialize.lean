import Sidechain.Library.Codec
import Mathlib.Tactic.SplitIfs

/-! The byte stream format of serialize.h: fixed-width little-endian integers, CompactSize
lengths, vectors and opaque blobs. A read that fails carries the text of the
`std::ios_base::failure` it throws. -/
namespace Sidechain
open Codec

abbrev Bytes := List UInt8

/-- Opaque 256-bit and 160-bit blobs, read as the little-endian number of their bytes. -/
abbrev Uint256 := BitVec 256
abbrev Uint160 := BitVec 160

instance : LawfulBEq Uint256 := inferInstance

theorem Uint256.ofNat_inj {a b : ℕ} (ha : a < 2^256) (hb : b < 2^256)
    (h : BitVec.ofNat 256 a = BitVec.ofNat 256 b) : a = b := by
  have htoNat := congrArg BitVec.toNat h
  rwa [BitVec.toNat_ofNat,BitVec.toNat_ofNat,Nat.mod_eq_of_lt ha,Nat.mod_eq_of_lt hb] at htoNat

/-- Reading from a `CDataStream`. -/
abbrev Reader (α : Type) := Decoder UInt8 String α

def MAX_SIZE : ℕ := 0x02000000

def leBytes (width n : ℕ) : Bytes := (digitsLE 256 width n).map UInt8.ofNat

def ofLeBytes (bs : Bytes) : ℕ := Nat.ofDigits 256 (bs.map UInt8.toNat)

@[simp] theorem leBytes_length (width n : ℕ) : (leBytes width n).length = width := by
  simp [leBytes]

theorem ofLeBytes_leBytes (width n : ℕ) : ofLeBytes (leBytes width n) = n % 256^width := by
  have hd : (digitsLE 256 width n).map (UInt8.toNat ∘ UInt8.ofNat) = digitsLE 256 width n := by
    rw [List.map_congr_left (g := id),List.map_id]
    intro d hd
    have hlt := digitsLE_lt (by decide : 0 < 256) width n d hd
    simpa using Nat.mod_eq_of_lt hlt
  rw [ofLeBytes,leBytes,List.map_map,hd,ofDigits_digitsLE]

theorem ofLeBytes_lt (bs : Bytes) : ofLeBytes bs < 256^bs.length := by
  have h := Nat.ofDigits_lt_base_pow_length (b := 256) (l := bs.map UInt8.toNat) (by decide)
    (by simp only [List.mem_map]; rintro _ ⟨b,_,rfl⟩; exact b.toNat_lt)
  simpa [ofLeBytes] using h

def readBytes (n : ℕ) : Reader Bytes := take "CDataStream::read(): end of data" n

theorem readBytes_inverts (n : ℕ) :
    Inverts (readBytes n) id (fun bs => bs.length = n) := by
  rintro bs rfl rest
  exact take_append _ bs rest

def ser_readdata (width : ℕ) : Reader ℕ := do
  let bs ← readBytes width
  pure (ofLeBytes bs)

theorem ser_readdata_inverts (width : ℕ) :
    Inverts (ser_readdata width) (leBytes width) (fun n => n < 256^width) := by
  intro n hn rest
  rw [ser_readdata,show leBytes width n = id (leBytes width n) from rfl,
    (readBytes_inverts width).run_bind (leBytes_length width n),ofLeBytes_leBytes,
    Nat.mod_eq_of_lt hn]
  rfl

theorem ser_readdata_yields (width : ℕ) : Yields (ser_readdata width) (fun n => n < 256^width) := by
  refine (take_yields _ width).bind fun bs hbs => Yields.pure ?_
  have h := ofLeBytes_lt bs
  rwa [hbs] at h

/-- One to nine bytes, the shortest of the four forms that holds the size. -/
def writeCompactSize (nSize : ℕ) : Bytes :=
  if nSize < 253 then leBytes 1 nSize
  else if nSize ≤ 0xffff then leBytes 1 253 ++ leBytes 2 nSize
  else if nSize ≤ 0xffffffff then leBytes 1 254 ++ leBytes 4 nSize
  else leBytes 1 255 ++ leBytes 8 nSize

def getSizeOfCompactSize (nSize : ℕ) : ℕ :=
  if nSize < 253 then 1 else if nSize ≤ 0xffff then 3 else if nSize ≤ 0xffffffff then 5 else 9

@[simp] theorem writeCompactSize_length (nSize : ℕ) :
    (writeCompactSize nSize).length = getSizeOfCompactSize nSize := by
  unfold writeCompactSize getSizeOfCompactSize
  split_ifs <;> simp

/-- The wide forms must not be used for a size a shorter form holds. -/
def readWideSize (width least : ℕ) : Reader ℕ := do
  let nSizeRet ← ser_readdata width
  if nSizeRet < least then throw "non-canonical ReadCompactSize()" else pure nSizeRet

def boundSize (nSizeRet : ℕ) : Reader ℕ :=
  if nSizeRet > MAX_SIZE then throw "ReadCompactSize(): size too large" else pure nSizeRet

theorem boundSize_of_le {n : ℕ} (hn : n ≤ MAX_SIZE) : boundSize n = pure n :=
  if_neg (Nat.not_lt.mpr hn)

/-- What follows the marker byte of a size. -/
def readSizeForm (chSize : ℕ) : Reader ℕ :=
  if chSize < 253 then pure chSize
  else if chSize = 253 then readWideSize 2 253
  else if chSize = 254 then readWideSize 4 0x10000
  else readWideSize 8 0x100000000

def readCompactSize : Reader ℕ := do
  let chSize ← ser_readdata 1
  let nSizeRet ← readSizeForm chSize
  boundSize nSizeRet

theorem readWideSize_inverts (width least : ℕ) :
    Inverts (readWideSize width least) (leBytes width) (fun n => least ≤ n ∧ n < 256^width) := by
  rintro n ⟨hlo,hhi⟩ rest
  rw [readWideSize,(ser_readdata_inverts width).run_bind hhi,if_neg (by omega)]
  rfl

theorem readSizeForm_inverts (n : ℕ) (hn : n < 256^8) :
    ∃ chSize form, writeCompactSize n = leBytes 1 chSize ++ form ∧ chSize < 256 ∧
      ∀ rest, (readSizeForm chSize).run (form ++ rest) = .ok (n,rest) := by
  unfold writeCompactSize
  split_ifs with h1 h2 h3
  · exact ⟨n,[],by simp,by omega,fun rest => by rw [readSizeForm,if_pos h1]; rfl⟩
  · exact ⟨253,_,rfl,by omega,readWideSize_inverts 2 253 n ⟨by omega,by omega⟩⟩
  · exact ⟨254,_,rfl,by omega,readWideSize_inverts 4 0x10000 n ⟨by omega,by omega⟩⟩
  · exact ⟨255,_,rfl,by omega,readWideSize_inverts 8 0x100000000 n ⟨by omega,hn⟩⟩

theorem readCompactSize_inverts :
    Inverts readCompactSize writeCompactSize (fun n => n ≤ MAX_SIZE) := by
  intro n hn rest
  have hmax : MAX_SIZE < 256^8 := by decide
  obtain ⟨ch,form,hw,hch,hform⟩ := readSizeForm_inverts n (hn.trans_lt hmax)
  rw [readCompactSize,hw,List.append_assoc,(ser_readdata_inverts 1).run_bind (by omega),
    StateT.run_bind,hform]
  change (boundSize n).run rest = _
  rw [boundSize_of_le hn]
  rfl

theorem readCompactSize_yields : Yields readCompactSize (fun n => n ≤ MAX_SIZE) := by
  refine (yields_true _).bind fun ch _ => (yields_true _).bind fun n _ => ?_
  unfold boundSize
  split_ifs with h
  · exact Yields.throw _
  · exact Yields.pure (Nat.not_lt.mp h)

/-- A vector of unsigned char (and a script) is one opaque blob after its length. -/
def serializeBlob (bs : Bytes) : Bytes := writeCompactSize bs.length ++ bs

def unserializeBlob : Reader Bytes := do
  let nSize ← readCompactSize
  readBytes nSize

theorem unserializeBlob_inverts :
    Inverts unserializeBlob serializeBlob (fun bs => bs.length ≤ MAX_SIZE) := by
  intro bs hbs rest
  rw [unserializeBlob,serializeBlob,List.append_assoc,readCompactSize_inverts.run_bind hbs]
  exact readBytes_inverts bs.length bs rfl rest

theorem unserializeBlob_yields : Yields unserializeBlob (fun bs => bs.length ≤ MAX_SIZE) := by
  refine readCompactSize_yields.bind fun n hn => ?_
  intro input bs rest h
  have hlen := take_yields _ n input bs rest h
  exact hlen ▸ hn

def serializeVector {α : Type} (enc : α → Bytes) (v : List α) : Bytes :=
  writeCompactSize v.length ++ v.flatMap enc

def unserializeVector {α : Type} (dec : Reader α) : Reader (List α) := do
  let nSize ← readCompactSize
  many dec nSize

theorem unserializeVector_inverts {α : Type} {dec : Reader α} {enc : α → Bytes} {P : α → Prop}
    (h : Inverts dec enc P) :
    Inverts (unserializeVector dec) (serializeVector enc)
      (fun v => v.length ≤ MAX_SIZE ∧ ∀ a ∈ v, P a) := by
  rintro v ⟨hlen,hv⟩ rest
  rw [unserializeVector,serializeVector,List.append_assoc,readCompactSize_inverts.run_bind hlen]
  exact many_inverts h v hv rest

theorem unserializeVector_yields {α : Type} {dec : Reader α} {P : α → Prop} (h : Yields dec P) :
    Yields (unserializeVector dec) (fun v => v.length ≤ MAX_SIZE ∧ ∀ a ∈ v, P a) := by
  refine readCompactSize_yields.bind fun n hn => ?_
  intro input v rest hrun
  obtain ⟨hlen,hv⟩ := many_yields h n input v rest hrun
  exact ⟨hlen ▸ hn,hv⟩

/-- A blob of `8 * width` bits as its bytes in memory order. -/
def serializeBits {w : ℕ} (width : ℕ) (b : BitVec w) : Bytes := leBytes width b.toNat

def unserializeBits (w width : ℕ) : Reader (BitVec w) := do
  let n ← ser_readdata width
  pure (BitVec.ofNat w n)

theorem unserializeBits_inverts (w width : ℕ) (hw : 2^w = 256^width) :
    Inverts (unserializeBits w width) (serializeBits width) (fun _ => True) := by
  intro b _ rest
  rw [unserializeBits,serializeBits,(ser_readdata_inverts width).run_bind (hw ▸ b.isLt)]
  change Except.ok (BitVec.ofNat w b.toNat,rest) = _
  rw [BitVec.ofNat_toNat,BitVec.setWidth_eq]

end Sidechain
