import Sidechain.Chain.BlockIndex
import Mathlib.Data.Set.Function

/-! The wire format is canonical: what is read is exactly what would be written again, and the size
that is computed without writing is the size of what is written. -/
namespace Sidechain
open Codec

theorem ser_readdata_canonical (width : ℕ) : Canonical (ser_readdata width) (leBytes width) := by
  intro input n rest h
  obtain ⟨bs,mid,hbs,hpure⟩ := run_bind_ok h
  cases hpure
  obtain ⟨hlen,rfl⟩ := take_canonical hbs
  have hdigits := @digitsLE_ofDigits 256 (bs.map UInt8.toNat) (by
    simp only [List.mem_map]
    rintro _ ⟨b,_,rfl⟩
    exact b.toNat_lt)
  rw [List.length_map,hlen] at hdigits
  have hbytes : leBytes width (ofLeBytes bs) = bs := by
    unfold leBytes ofLeBytes
    rw [hdigits,List.map_map]
    simp [Function.comp_def]
  rw [hbytes]

theorem readWideSize_canonical {width least n : ℕ} {input rest : Bytes}
    (h : (readWideSize width least).run input = .ok (n,rest)) :
    least ≤ n ∧ n < 256^width ∧ input = leBytes width n ++ rest := by
  obtain ⟨m,mid,hm,hrest⟩ := run_bind_ok h
  split_ifs at hrest with hleast
  · cases hrest
  · cases hrest
    exact ⟨Nat.not_lt.mp hleast,ser_readdata_yields width _ _ _ hm,
      ser_readdata_canonical width _ _ _ hm⟩

theorem readCompactSize_canonical : Canonical readCompactSize writeCompactSize := by
  intro input n rest h
  obtain ⟨chSize,mid,hch,hrest⟩ := run_bind_ok h
  obtain ⟨m,mid',hform,hbound⟩ := run_bind_ok hrest
  have hm : m = n ∧ mid' = rest := by
    unfold boundSize at hbound
    split_ifs at hbound
    · cases hbound
    · cases hbound
      exact ⟨rfl,rfl⟩
  obtain ⟨rfl,rfl⟩ := hm
  have hlt := ser_readdata_yields 1 _ _ _ hch
  rw [ser_readdata_canonical 1 _ _ _ hch]
  unfold readSizeForm at hform
  unfold writeCompactSize
  split_ifs at hform with h1 h2 h3
  · cases hform
    rw [if_pos h1]
  · obtain ⟨hleast,hmost,rfl⟩ := readWideSize_canonical hform
    rw [if_neg (by omega),if_pos (by omega),h2,List.append_assoc]
  · obtain ⟨hleast,hmost,rfl⟩ := readWideSize_canonical hform
    rw [if_neg (by omega),if_neg (by omega),if_pos (by omega),h3,List.append_assoc]
  · obtain ⟨hleast,hmost,rfl⟩ := readWideSize_canonical hform
    rw [if_neg (by omega),if_neg (by omega),if_neg (by omega),show chSize = 255 by omega,
      List.append_assoc]

theorem unserializeBlob_canonical : Canonical unserializeBlob serializeBlob := by
  intro input bs rest h
  obtain ⟨n,mid,hn,hbs⟩ := run_bind_ok h
  obtain ⟨hlen,rfl⟩ := take_canonical hbs
  rw [readCompactSize_canonical _ _ _ hn,serializeBlob,hlen,List.append_assoc]

theorem unserializeVector_canonical {α : Type} {dec : Reader α} {enc : α → Bytes}
    (h : Canonical dec enc) : Canonical (unserializeVector dec) (serializeVector enc) := by
  intro input v rest hrun
  obtain ⟨n,mid,hn,hv⟩ := run_bind_ok hrun
  obtain ⟨hlen,rfl⟩ := many_canonical h hv
  rw [readCompactSize_canonical _ _ _ hn,serializeVector,hlen,List.append_assoc]

theorem unserializeBits_canonical (w width : ℕ) (hw : 2^w = 256^width) :
    Canonical (unserializeBits w width) (serializeBits width) := by
  intro input b rest h
  obtain ⟨n,mid,hn,hpure⟩ := run_bind_ok h
  cases hpure
  have hlt := ser_readdata_yields width _ _ _ hn
  rw [ser_readdata_canonical width _ _ _ hn,serializeBits,BitVec.toNat_ofNat,
    Nat.mod_eq_of_lt (hw ▸ hlt)]

theorem readUInt32_canonical : Canonical readUInt32 (fun n => serializeBits 4 n.toBitVec) :=
  (unserializeBits_canonical 32 4 (by norm_num)).map UInt32.ofBitVec (fun n => n.toBitVec)
    fun _ => rfl

theorem readInt32_canonical : Canonical readInt32 (fun n => serializeBits 4 n.toBitVec) :=
  (unserializeBits_canonical 32 4 (by norm_num)).map Int32.ofBitVec (fun n => n.toBitVec)
    fun _ => rfl

theorem readInt64_canonical : Canonical readInt64 (fun n => serializeBits 8 n.toBitVec) :=
  (unserializeBits_canonical 64 8 (by norm_num)).map Int64.ofBitVec (fun n => n.toBitVec)
    fun _ => rfl

theorem COutPoint.unserialize_canonical :
    Canonical COutPoint.unserialize COutPoint.serialize := by
  intro input o rest h
  obtain ⟨hash,mid,hhash,h⟩ := run_bind_ok h
  obtain ⟨n,mid',hn,h⟩ := run_bind_ok h
  cases h
  rw [unserializeBits_canonical 256 32 (by norm_num) _ _ _ hhash,readUInt32_canonical _ _ _ hn,
    COutPoint.serialize,List.append_assoc]

theorem CTxIn.unserialize_canonical : Canonical CTxIn.unserialize CTxIn.serialize := by
  intro input i rest h
  obtain ⟨prevout,mid,hprevout,h⟩ := run_bind_ok h
  obtain ⟨scriptSig,mid',hscript,h⟩ := run_bind_ok h
  obtain ⟨nSequence,mid'',hseq,h⟩ := run_bind_ok h
  cases h
  rw [COutPoint.unserialize_canonical _ _ _ hprevout,unserializeBlob_canonical _ _ _ hscript,
    readUInt32_canonical _ _ _ hseq,CTxIn.serialize,List.append_assoc,List.append_assoc]

theorem CTxOut.unserialize_canonical : Canonical CTxOut.unserialize CTxOut.serialize := by
  intro input o rest h
  obtain ⟨nValue,mid,hvalue,h⟩ := run_bind_ok h
  obtain ⟨scriptPubKey,mid',hscript,h⟩ := run_bind_ok h
  cases h
  rw [readInt64_canonical _ _ _ hvalue,unserializeBlob_canonical _ _ _ hscript,CTxOut.serialize,
    List.append_assoc]

theorem CTransaction.unserialize_canonical :
    Canonical CTransaction.unserialize CTransaction.serialize := by
  intro input tx rest h
  obtain ⟨nVersion,mid,hversion,h⟩ := run_bind_ok h
  obtain ⟨vin,mid',hvin,h⟩ := run_bind_ok h
  obtain ⟨vout,mid'',hvout,h⟩ := run_bind_ok h
  obtain ⟨nLockTime,tail,hlock,h⟩ := run_bind_ok h
  cases h
  rw [readInt32_canonical _ _ _ hversion,
    unserializeVector_canonical CTxIn.unserialize_canonical _ _ _ hvin,
    unserializeVector_canonical CTxOut.unserialize_canonical _ _ _ hvout,
    readUInt32_canonical _ _ _ hlock,CTransaction.serialize,List.append_assoc,List.append_assoc,
    List.append_assoc]

def CBlockHeader.unserialize : Reader CBlockHeader := do
  let nVersion ← readInt32
  let hashPrevBlock ← unserializeBits 256 32
  let hashMerkleRoot ← unserializeBits 256 32
  let nTime ← readUInt32
  let nBits ← readUInt32
  let nNonce ← readUInt32
  pure ⟨nVersion,hashPrevBlock,hashMerkleRoot,nTime,nBits,nNonce⟩

def CBlock.unserialize : Reader CBlock := do
  let header ← CBlockHeader.unserialize
  let vtx ← unserializeVector CTransaction.unserialize
  pure { toCBlockHeader := header, vtx }

def CBlock.Fits (block : CBlock) : Prop := block.vtx.length ≤ MAX_SIZE ∧ ∀ tx ∈ block.vtx, tx.Fits

theorem CBlockHeader.unserialize_inverts :
    Inverts CBlockHeader.unserialize CBlockHeader.serialize (fun _ => True) := by
  intro h _ rest
  have hbits := unserializeBits_inverts 256 32 (by norm_num)
  rw [CBlockHeader.unserialize,CBlockHeader.serialize]
  simp only [List.append_assoc]
  rw [readInt32_inverts.run_bind trivial,hbits.run_bind trivial,hbits.run_bind trivial,
    readUInt32_inverts.run_bind trivial,readUInt32_inverts.run_bind trivial,
    readUInt32_inverts.run_bind trivial]
  rfl

theorem CBlock.unserialize_inverts :
    Inverts CBlock.unserialize CBlock.serialize CBlock.Fits := by
  intro block hblock rest
  rw [CBlock.unserialize,CBlock.serialize,List.append_assoc,
    CBlockHeader.unserialize_inverts.run_bind trivial,
    (unserializeVector_inverts CTransaction.unserialize_inverts).run_bind hblock]
  rfl

theorem CBlockHeader.unserialize_canonical :
    Canonical CBlockHeader.unserialize CBlockHeader.serialize := by
  intro input header rest h
  have hbits := unserializeBits_canonical 256 32 (by norm_num)
  obtain ⟨nVersion,_,hversion,h⟩ := run_bind_ok h
  obtain ⟨hashPrevBlock,_,hprev,h⟩ := run_bind_ok h
  obtain ⟨hashMerkleRoot,_,hroot,h⟩ := run_bind_ok h
  obtain ⟨nTime,_,htime,h⟩ := run_bind_ok h
  obtain ⟨nBits,_,hnbits,h⟩ := run_bind_ok h
  obtain ⟨nNonce,_,hnonce,h⟩ := run_bind_ok h
  cases h
  rw [readInt32_canonical _ _ _ hversion,hbits _ _ _ hprev,hbits _ _ _ hroot,
    readUInt32_canonical _ _ _ htime,readUInt32_canonical _ _ _ hnbits,
    readUInt32_canonical _ _ _ hnonce,CBlockHeader.serialize]
  simp only [List.append_assoc]

theorem CBlock.unserialize_canonical : Canonical CBlock.unserialize CBlock.serialize := by
  intro input block rest h
  obtain ⟨header,_,hheader,h⟩ := run_bind_ok h
  obtain ⟨vtx,_,hvtx,h⟩ := run_bind_ok h
  cases h
  rw [CBlockHeader.unserialize_canonical _ _ _ hheader,
    unserializeVector_canonical CTransaction.unserialize_canonical _ _ _ hvtx,CBlock.serialize,
    List.append_assoc]

/-- `GetSerializeSize` of a vector, by its elements. -/
def sizeOfVector {α : Type} (size : α → ℕ) (v : List α) : ℕ :=
  getSizeOfCompactSize v.length + (v.map size).sum

def sizeOfBlob (bs : Bytes) : ℕ := getSizeOfCompactSize bs.length + bs.length

def COutPoint.countSize (_ : COutPoint) : ℕ := 32 + 4

def CTxIn.countSize (i : CTxIn) : ℕ := i.prevout.countSize + sizeOfBlob i.scriptSig + 4

def CTxOut.countSize (o : CTxOut) : ℕ := 8 + sizeOfBlob o.scriptPubKey

def CTransaction.countSize (tx : CTransaction) : ℕ :=
  4 + sizeOfVector CTxIn.countSize tx.vin + sizeOfVector CTxOut.countSize tx.vout + 4

def CBlockHeader.countSize (_ : CBlockHeader) : ℕ := 4 + 32 + 32 + 4 + 4 + 4

def CBlock.countSize (block : CBlock) : ℕ :=
  block.toCBlockHeader.countSize + sizeOfVector CTransaction.countSize block.vtx

/-- The function `GetSerializeSize` returns an unsigned int. -/
def unsignedSize (size : ℕ) : ℕ := size % 2^32

theorem serializeBlob_length (bs : Bytes) : (serializeBlob bs).length = sizeOfBlob bs := by
  simp [serializeBlob,sizeOfBlob]

theorem serializeVector_length {α : Type} {enc : α → Bytes} {size : α → ℕ}
    (h : ∀ a, (enc a).length = size a) (v : List α) :
    (serializeVector enc v).length = sizeOfVector size v := by
  have hsize : (fun a => (enc a).length) = size := funext h
  rw [serializeVector,sizeOfVector,List.length_append,writeCompactSize_length,List.length_flatMap,
    hsize]

@[simp] theorem serializeBits_length {w : ℕ} (width : ℕ) (b : BitVec w) :
    (serializeBits width b).length = width := leBytes_length _ _

theorem COutPoint.serialize_length (o : COutPoint) : o.serialize.length = o.countSize := by
  rw [COutPoint.serialize,List.length_append,serializeBits_length,serializeBits_length,
    COutPoint.countSize]

theorem CTxIn.serialize_length (i : CTxIn) : i.serialize.length = i.countSize := by
  rw [CTxIn.serialize,List.length_append,List.length_append,COutPoint.serialize_length,
    serializeBlob_length,serializeBits_length,CTxIn.countSize,Nat.add_assoc]

theorem CTxOut.serialize_length (o : CTxOut) : o.serialize.length = o.countSize := by
  rw [CTxOut.serialize,List.length_append,serializeBlob_length,serializeBits_length,
    CTxOut.countSize]

theorem CTransaction.serialize_length (tx : CTransaction) :
    tx.serialize.length = tx.countSize := by
  rw [CTransaction.serialize,List.length_append,List.length_append,List.length_append,
    serializeVector_length CTxIn.serialize_length,serializeVector_length CTxOut.serialize_length,
    serializeBits_length,serializeBits_length,CTransaction.countSize]
  omega

theorem CBlockHeader.serialize_length (h : CBlockHeader) : h.serialize.length = h.countSize := by
  simp only [CBlockHeader.serialize,List.length_append,serializeBits_length,
    CBlockHeader.countSize]

theorem CBlock.serialize_length (block : CBlock) : block.serialize.length = block.countSize := by
  rw [CBlock.serialize,List.length_append,CBlockHeader.serialize_length,
    serializeVector_length CTransaction.serialize_length,CBlock.countSize]

/-- A reader, a writer and a size that belong together. -/
structure CanonicalFormat {α : Type} (dec : Reader α) (enc : α → Bytes) (size : α → ℕ)
    (P : α → Prop) : Prop where
  /-- What is written is read back. -/
  reads : ∀ a, P a → ∀ rest, dec.run (enc a ++ rest) = .ok (a,rest)
  /-- What is read is what would be written. -/
  rewrites : ∀ input a rest, dec.run input = .ok (a,rest) → P a ∧ input = enc a ++ rest
  /-- No two byte strings are read as the same value. -/
  injective : ∀ input input' a, dec.run input = .ok (a,[]) → dec.run input' = .ok (a,[]) →
    input = input'
  counts : ∀ a, size a = (enc a).length
  unsigned : ∀ a, (enc a).length < 2^32 → unsignedSize (size a) = (enc a).length

theorem CanonicalFormat.of {α : Type} {dec : Reader α} {enc : α → Bytes} {size : α → ℕ}
    {P : α → Prop} (hinv : Inverts dec enc P) (hyields : Yields dec P)
    (hcanon : Canonical dec enc) (hsize : ∀ a, (enc a).length = size a) :
    CanonicalFormat dec enc size P where
  reads := hinv
  rewrites input a rest h := ⟨hyields input a rest h,hcanon input a rest h⟩
  injective input input' a h h' := (hcanon input a [] h).trans (hcanon input' a [] h').symm
  counts a := (hsize a).symm
  unsigned a h := by
    rw [unsignedSize,← hsize]
    exact Nat.mod_eq_of_lt h

theorem CBlock.unserialize_yields : Yields CBlock.unserialize CBlock.Fits :=
  (yields_true _).bind fun _ _ =>
    (unserializeVector_yields CTransaction.unserialize_yields).bind fun _ hvtx =>
      Yields.pure hvtx

/-- Transactions and blocks have a canonical format, and the txid determines the bytes unless the
hash collides. -/
theorem canonical_serialization [Crypto] :
    CanonicalFormat CTransaction.unserialize CTransaction.serialize CTransaction.countSize
      CTransaction.Fits ∧
    CanonicalFormat CBlock.unserialize CBlock.serialize CBlock.countSize CBlock.Fits ∧
    ∀ tx tx' : CTransaction, Set.InjOn Crypto.hash256 {tx.serialize,tx'.serialize} →
      tx.getHash = tx'.getHash → tx.serialize = tx'.serialize :=
  ⟨.of CTransaction.unserialize_inverts CTransaction.unserialize_yields
      CTransaction.unserialize_canonical CTransaction.serialize_length,
    .of CBlock.unserialize_inverts CBlock.unserialize_yields CBlock.unserialize_canonical
      CBlock.serialize_length,
    fun _ _ hinj heq => hinj (Or.inl rfl) (Or.inr rfl) heq⟩

/-- A transaction with an input and an output, followed by a byte. -/
theorem canonical_example :
    CTransaction.unserialize.run
      (({ vin := [⟨⟨1,2⟩,[3,4],5⟩], vout := [⟨6,[7]⟩] } : CTransaction).serialize ++ [8]) =
        .ok ({ vin := [⟨⟨1,2⟩,[3,4],5⟩], vout := [⟨6,[7]⟩] },[8]) ∧
    ({ vin := [⟨⟨1,2⟩,[3,4],5⟩], vout := [⟨6,[7]⟩] } : CTransaction).serialize =
      ({ vin := [⟨⟨1,2⟩,[3,4],5⟩], vout := [⟨6,[7]⟩] } : CTransaction).serialize := by
  refine ⟨(@canonical_serialization digitCrypto).1.reads _ ⟨?_,?_⟩ [8],
    (@canonical_serialization digitCrypto).2.2 _ _ ?_ rfl⟩
  · exact ⟨by decide,by simp [MAX_SIZE]⟩
  · exact ⟨by decide,by simp [MAX_SIZE]⟩
  · rintro a (rfl | rfl) b (rfl | rfl) _ <;> rfl

end Sidechain
