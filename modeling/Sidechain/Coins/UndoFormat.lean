import Sidechain.Chain.Canonical
import Sidechain.Coins.CoinsFormat
import Sidechain.Coins.Update

/-! How undo data is stored. The version of a spent output is written only behind a height. -/
namespace Sidechain
open Codec

variable {keys : PubKeys}

namespace CTxInUndo

/-- The code of height and coinbase flag is an `unsigned int`. -/
def code (undo : CTxInUndo) : ℕ := (undo.nHeight * 2 + (if undo.fCoinBase then 1 else 0)) % 2^32

def getSerializeSize (keys : PubKeys) (undo : CTxInUndo) : ℕ :=
  getSizeOfVarInt undo.code + (if undo.nHeight > 0 then getSizeOfVarInt undo.nVersion.toInt else 0) +
    CTxOutCompressor.getSerializeSize keys undo.txout

def serialize (keys : PubKeys) (undo : CTxInUndo) : Bytes :=
  writeVarInt undo.code ++ ((if undo.nHeight > 0 then writeVarInt undo.nVersion.toInt else []) ++
    CTxOutCompressor.serialize keys undo.txout)

/-- Reading into a default object. -/
def unserialize (keys : PubKeys) : Reader CTxInUndo := do
  let nCode ← readVarInt 32
  let nHeight := nCode / 2
  let nVersion ← if nHeight > 0 then readVarInt 32 else pure 0
  let txout ← CTxOutCompressor.unserialize keys CTxOut.null
  pure { txout, fCoinBase := nCode.testBit 0, nHeight, nVersion := Int32.ofInt nVersion }

/-- Without a height there is no version. -/
structure Storable (undo : CTxInUndo) : Prop where
  txout : CTxOutCompressor.Fits undo.txout
  height : undo.nHeight < 2^31
  version : 0 ≤ undo.nVersion.toInt
  plain : undo.nHeight = 0 → undo.nVersion = 0

theorem serialize_length (undo : CTxInUndo) :
    (undo.serialize keys).length = undo.getSerializeSize keys := by
  unfold serialize getSerializeSize CTxOutCompressor.getSerializeSize
  split_ifs <;> simp [Nat.add_assoc]

theorem code_spec {undo : CTxInUndo} (h : undo.nHeight < 2^31) :
    undo.code < 2^32 ∧ undo.code / 2 = undo.nHeight ∧ undo.code.testBit 0 = undo.fCoinBase := by
  have hcode : undo.code = undo.nHeight * 2 + (if undo.fCoinBase then 1 else 0) := by
    refine Nat.mod_eq_of_lt ?_
    split_ifs <;> omega
  rw [hcode,Nat.testBit_eq_decide_div_mod_eq]
  cases undo.fCoinBase with
  | false =>
    refine ⟨by simp; omega,by simp,?_⟩
    simp
  | true =>
    refine ⟨by simp; omega,by simp; omega,?_⟩
    simp

theorem unserialize_inverts (hkeys : keys.GivesBack) :
    Inverts (unserialize keys) (serialize keys) Storable := by
  intro undo h rest
  obtain ⟨hlt,hheight,hcoinbase⟩ := code_spec h.height
  have hout := CTxOutCompressor.unserialize_inverts hkeys CTxOut.null
  rw [unserialize,serialize,List.append_assoc,(readVarInt_inverts 32).run_bind (a := undo.code)
    (by omega)]
  simp only [hheight,hcoinbase]
  split_ifs with hpos
  · obtain ⟨v,hv⟩ := Int.eq_ofNat_of_zero_le h.version
    have hvlt : undo.nVersion.toInt < 2^31 := undo.nVersion.toInt_lt
    have hversion : Int32.ofInt v = undo.nVersion := by rw [← hv,Int32.ofInt_toInt]
    rw [hv,List.append_assoc,(readVarInt_inverts 32).run_bind (a := v) (by omega),
      hout.run_bind h.txout,hversion]
    rfl
  · have hplain := h.plain (Nat.eq_zero_of_not_pos hpos)
    rw [List.nil_append,pure_bind,hout.run_bind h.txout]
    refine congrArg (fun undo => Except.ok (undo,rest)) ?_
    cases undo
    simp_all

end CTxInUndo

/-- A `CSizeComputer` takes the place of the stream and counts what is written. -/
def CTxUndo.getSerializeSize (keys : PubKeys) (undo : CTxUndo) : ℕ :=
  sizeOfVector (CTxInUndo.getSerializeSize keys) undo.vprevout

def CTxUndo.serialize (keys : PubKeys) (undo : CTxUndo) : Bytes :=
  serializeVector (CTxInUndo.serialize keys) undo.vprevout

def CTxUndo.unserialize (keys : PubKeys) : Reader CTxUndo := do
  let vprevout ← unserializeVector (CTxInUndo.unserialize keys)
  pure { vprevout }

structure CTxUndo.Storable (undo : CTxUndo) : Prop where
  size : undo.vprevout.length ≤ MAX_SIZE
  inputs : ∀ input ∈ undo.vprevout, input.Storable

def CBlockUndo.getSerializeSize (keys : PubKeys) (undo : CBlockUndo) : ℕ :=
  sizeOfVector (CTxUndo.getSerializeSize keys) undo.vtxundo

def CBlockUndo.serialize (keys : PubKeys) (undo : CBlockUndo) : Bytes :=
  serializeVector (CTxUndo.serialize keys) undo.vtxundo

def CBlockUndo.unserialize (keys : PubKeys) : Reader CBlockUndo := do
  let vtxundo ← unserializeVector (CTxUndo.unserialize keys)
  pure { vtxundo }

structure CBlockUndo.Storable (undo : CBlockUndo) : Prop where
  size : undo.vtxundo.length ≤ MAX_SIZE
  txs : ∀ tx ∈ undo.vtxundo, tx.Storable

theorem CTxUndo.serialize_length (undo : CTxUndo) :
    (undo.serialize keys).length = undo.getSerializeSize keys :=
  serializeVector_length CTxInUndo.serialize_length undo.vprevout

theorem CBlockUndo.serialize_length (undo : CBlockUndo) :
    (undo.serialize keys).length = undo.getSerializeSize keys :=
  serializeVector_length CTxUndo.serialize_length undo.vtxundo

theorem CTxUndo.unserialize_inverts (hkeys : keys.GivesBack) :
    Inverts (CTxUndo.unserialize keys) (CTxUndo.serialize keys) CTxUndo.Storable := by
  intro undo h rest
  rw [unserialize,serialize,(unserializeVector_inverts
    (CTxInUndo.unserialize_inverts hkeys)).run_bind ⟨h.size,h.inputs⟩]
  rfl

theorem CBlockUndo.unserialize_inverts (hkeys : keys.GivesBack) :
    Inverts (CBlockUndo.unserialize keys) (CBlockUndo.serialize keys) CBlockUndo.Storable := by
  intro undo h rest
  rw [unserialize,serialize,(unserializeVector_inverts
    (CTxUndo.unserialize_inverts hkeys)).run_bind ⟨h.size,h.txs⟩]
  rfl

/-- Coins and undo data are given back by what is stored of them, and sizes are known before. -/
theorem stored_roundTrip (keys : PubKeys) (hkeys : keys.GivesBack) :
    (∀ c : CCoins, c.Storable → c.isPruned = false → ∃ bytes, c.serialize keys = .ok bytes ∧
      c.getSerializeSize keys = .ok bytes.length ∧
      ∀ rest, (CCoins.unserialize keys).run (bytes ++ rest) = .ok (c.cleanup,rest)) ∧
    (∀ undo : CTxInUndo, undo.Storable →
      undo.getSerializeSize keys = (undo.serialize keys).length ∧
      ∀ rest, (CTxInUndo.unserialize keys).run (undo.serialize keys ++ rest) = .ok (undo,rest)) ∧
    (∀ undo : CTxUndo, undo.Storable →
      undo.getSerializeSize keys = (undo.serialize keys).length ∧
      ∀ rest, (CTxUndo.unserialize keys).run (undo.serialize keys ++ rest) = .ok (undo,rest)) ∧
    (∀ undo : CBlockUndo, undo.Storable →
      undo.getSerializeSize keys = (undo.serialize keys).length ∧
      ∀ rest, (CBlockUndo.unserialize keys).run (undo.serialize keys ++ rest) = .ok (undo,rest)) :=
  ⟨fun _ h hlive => CCoins.serialize_roundTrip hkeys h hlive,
    fun undo h => ⟨undo.serialize_length.symm,CTxInUndo.unserialize_inverts hkeys undo h⟩,
    fun undo h => ⟨undo.serialize_length.symm,CTxUndo.unserialize_inverts hkeys undo h⟩,
    fun undo h => ⟨undo.serialize_length.symm,CBlockUndo.unserialize_inverts hkeys undo h⟩⟩

/-- An entry with a spent output between two that are left. -/
def gappedCoins : CCoins where
  vout := [CTxOut.null,⟨5000,[0x51]⟩,CTxOut.null,⟨7,[]⟩]
  nHeight := 9
  nVersion := 1

/-- Two transactions, of which the first spends the last output of a coinbase and one that is not the
last of its transaction. -/
def twoTxUndo : CBlockUndo where
  vtxundo := [⟨[{ txout := ⟨5000,[0x51]⟩, fCoinBase := true, nHeight := 9, nVersion := 1 },
    { txout := ⟨7,[]⟩ }]⟩,⟨[{ txout := ⟨0,[0x6a]⟩, nHeight := 300, nVersion := 2 }]⟩]

theorem twoTxUndo_storable : twoTxUndo.Storable := by
  refine ⟨by decide,?_⟩
  simp only [twoTxUndo,List.forall_mem_cons,List.not_mem_nil,false_implies,implies_true,and_true]
  constructor
  · refine ⟨by decide,?_⟩
    simp only [List.forall_mem_cons,List.not_mem_nil,false_implies,implies_true,and_true]
    exact ⟨⟨⟨by decide,by decide,by decide⟩,by decide,by decide,by decide⟩,
      ⟨by decide,by decide,by decide⟩,by decide,by decide,by decide⟩
  · refine ⟨by decide,?_⟩
    simp only [List.forall_mem_singleton]
    exact ⟨⟨by decide,by decide,by decide⟩,by decide,by decide,by decide⟩

theorem stored_roundTrip_gapped :
    (∃ bytes, gappedCoins.serialize CScriptCompressor.generatorKeys = .ok bytes ∧
      gappedCoins.getSerializeSize CScriptCompressor.generatorKeys = .ok bytes.length ∧
      ∀ rest, (CCoins.unserialize CScriptCompressor.generatorKeys).run (bytes ++ rest) =
        .ok (gappedCoins.cleanup,rest)) ∧
    (twoTxUndo.serialize CScriptCompressor.generatorKeys).length = 17 ∧
    twoTxUndo.getSerializeSize CScriptCompressor.generatorKeys =
      (twoTxUndo.serialize CScriptCompressor.generatorKeys).length ∧
    ∀ rest, (CBlockUndo.unserialize CScriptCompressor.generatorKeys).run
      (twoTxUndo.serialize CScriptCompressor.generatorKeys ++ rest) = .ok (twoTxUndo,rest) := by
  have hall := stored_roundTrip _ CScriptCompressor.generatorKeys_givesBack
  refine ⟨hall.1 gappedCoins ⟨by decide,by decide,by decide,?_⟩ (by decide),by decide,
    hall.2.2.2 twoTxUndo twoTxUndo_storable⟩
  intro out hout
  simp only [gappedCoins,List.mem_cons,List.not_mem_nil,or_false] at hout
  rcases hout with rfl | rfl | rfl | rfl
  · exact .inl rfl
  · exact .inr ⟨by decide,by decide,by decide⟩
  · exact .inl rfl
  · exact .inr ⟨by decide,by decide,by decide⟩

/-- An amount far above the range of money overflows the code, and a version without a height is not
written. -/
theorem stored_loss :
    (∃ bytes, CCoins.serialize CScriptCompressor.generatorKeys
        { vout := [⟨9223372036854775807,[]⟩], nHeight := 1, nVersion := 1 } = .ok bytes ∧
      (CCoins.unserialize CScriptCompressor.generatorKeys).run bytes ≠
        .ok ({ vout := [⟨9223372036854775807,[]⟩], nHeight := 1, nVersion := 1 },[])) ∧
    (CTxInUndo.unserialize CScriptCompressor.generatorKeys).run
        (CTxInUndo.serialize CScriptCompressor.generatorKeys { txout := ⟨5,[]⟩, nVersion := 1 }) ≠
      .ok ({ txout := ⟨5,[]⟩, nVersion := 1 },[]) := by
  refine ⟨⟨_,rfl,?_⟩,?_⟩
  · decide
  · decide

end Sidechain
