import Sidechain.Primitives.VarInt
import Sidechain.Script.Interpreter

/-! Scripts as they are stored with coins and undo data. Six special forms stand for a whole script;
any other script is stored as it is, with its size behind the numbers of the forms. -/
namespace Sidechain
open Codec

/-- The operations on public keys that belong to the curve. What decompression gives always has the
size of an uncompressed key. -/
structure PubKeys where
  isFullyValid : Bytes → Bool
  decompress : Bytes → Option { key : Bytes // key.length = 65 }

/-- The parity that is kept of an uncompressed key. -/
def parity (pubkey : Bytes) : UInt8 := pubkey[64]?.getD 0 &&& 0x01

/-- A fully valid uncompressed key is given back by decompressing its compressed form. -/
def PubKeys.GivesBack (keys : PubKeys) : Prop :=
  ∀ (pubkey : Bytes) (h : pubkey.length = 65), pubkey[0]? = some 0x04 →
    keys.isFullyValid pubkey = true →
      keys.decompress ((0x02 ||| parity pubkey)::(pubkey.drop 1).take 32) = some ⟨pubkey,h⟩

namespace CScriptCompressor

def nSpecialScripts : ℕ := 6

def isToKeyID (script : CScript) : Option Bytes :=
  if script.length = 25 ∧ script.take 3 = [OP_DUP,OP_HASH160,20] ∧
      script.drop 23 = [OP_EQUALVERIFY,OP_CHECKSIG] then
    some ((script.drop 3).take 20)
  else none

def isToScriptID (script : CScript) : Option Bytes :=
  if script.length = 23 ∧ script.take 2 = [OP_HASH160,20] ∧ script.drop 22 = [OP_EQUAL] then
    some ((script.drop 2).take 20)
  else none

def isToPubKey (keys : PubKeys) (script : CScript) : Option Bytes :=
  if script.length = 35 ∧ script.take 1 = [33] ∧ script.drop 34 = [OP_CHECKSIG] ∧
      (script[1]? = some 0x02 ∨ script[1]? = some 0x03) then
    some ((script.drop 1).take 33)
  else if script.length = 67 ∧ script.take 1 = [65] ∧ script.drop 66 = [OP_CHECKSIG] ∧
      script[1]? = some 0x04 then
    -- a key that is not fully valid cannot be given back
    if keys.isFullyValid ((script.drop 1).take 65) then some ((script.drop 1).take 65) else none
  else none

def compress (keys : PubKeys) (script : CScript) : Option Bytes :=
  match isToKeyID script with
  | some keyID => some (0x00::keyID)
  | none =>
    match isToScriptID script with
    | some scriptID => some (0x01::scriptID)
    | none =>
      match isToPubKey keys script with
      | some pubkey =>
        if pubkey[0]? = some 0x02 then some (0x02::(pubkey.drop 1).take 32)
        else if pubkey[0]? = some 0x03 then some (0x03::(pubkey.drop 1).take 32)
        else if pubkey[0]? = some 0x04 then
          some ((0x04 ||| parity pubkey)::(pubkey.drop 1).take 32)
        else none
      | none => none

def getSpecialSize (nSize : ℕ) : ℕ :=
  if nSize = 0 ∨ nSize = 1 then 20
  else if nSize = 2 ∨ nSize = 3 ∨ nSize = 4 ∨ nSize = 5 then 32
  else 0

def decompress (keys : PubKeys) (nSize : ℕ) (vch : Bytes) : Option CScript :=
  match nSize with
  | 0 => some ([OP_DUP,OP_HASH160,20] ++ vch ++ [OP_EQUALVERIFY,OP_CHECKSIG])
  | 1 => some ([OP_HASH160,20] ++ vch ++ [OP_EQUAL])
  | 2 => some ([33,0x02] ++ vch ++ [OP_CHECKSIG])
  | 3 => some ([33,0x03] ++ vch ++ [OP_CHECKSIG])
  | 4 => (keys.decompress (0x02::vch)).map fun pubkey => [65] ++ pubkey.val ++ [OP_CHECKSIG]
  | 5 => (keys.decompress (0x03::vch)).map fun pubkey => [65] ++ pubkey.val ++ [OP_CHECKSIG]
  | _ => none

/-- The size is an `unsigned int`. -/
def rawSize (script : CScript) : ℕ := (script.length + nSpecialScripts) % 2^32

def getSerializeSize (keys : PubKeys) (script : CScript) : ℕ :=
  match compress keys script with
  | some compr => compr.length
  | none => script.length + getSizeOfVarInt (rawSize script)

def serialize (keys : PubKeys) (script : CScript) : Bytes :=
  match compress keys script with
  | some compr => compr
  | none => writeVarInt (rawSize script) ++ script

/-- Reading into a script. If decompression fails it stays what it was. -/
def unserialize (keys : PubKeys) (script : CScript) : Reader CScript := do
  let nSize ← readVarInt 32
  if nSize < nSpecialScripts then do
    let vch ← readBytes (getSpecialSize nSize)
    pure ((decompress keys nSize vch).getD script)
  else readBytes (nSize - nSpecialScripts)

theorem three_parts (script : CScript) (a n : ℕ) :
    script.take a ++ (script.drop a).take n ++ script.drop (a + n) = script := by
  rw [List.append_assoc,← List.drop_drop,List.take_append_drop,List.take_append_drop]

theorem isToKeyID_some {script : CScript} {keyID : Bytes} (h : isToKeyID script = some keyID) :
    keyID.length = 20 ∧ script = [OP_DUP,OP_HASH160,20] ++ keyID ++ [OP_EQUALVERIFY,OP_CHECKSIG] := by
  unfold isToKeyID at h
  split_ifs at h with hform
  obtain ⟨hlen,hhead,htail⟩ := hform
  cases h
  refine ⟨by simp [hlen],?_⟩
  rw [← hhead,← htail]
  exact (three_parts script 3 20).symm

theorem isToScriptID_some {script : CScript} {scriptID : Bytes}
    (h : isToScriptID script = some scriptID) :
    scriptID.length = 20 ∧ script = [OP_HASH160,20] ++ scriptID ++ [OP_EQUAL] := by
  unfold isToScriptID at h
  split_ifs at h with hform
  obtain ⟨hlen,hhead,htail⟩ := hform
  cases h
  refine ⟨by simp [hlen],?_⟩
  rw [← hhead,← htail]
  exact (three_parts script 2 20).symm

theorem isToPubKey_some {keys : PubKeys} {script : CScript} {pubkey : Bytes}
    (h : isToPubKey keys script = some pubkey) :
    (pubkey.length = 33 ∧ (pubkey[0]? = some 0x02 ∨ pubkey[0]? = some 0x03) ∧
      script = [33] ++ pubkey ++ [OP_CHECKSIG]) ∨
    (pubkey.length = 65 ∧ pubkey[0]? = some 0x04 ∧ keys.isFullyValid pubkey = true ∧
      script = [65] ++ pubkey ++ [OP_CHECKSIG]) := by
  unfold isToPubKey at h
  split_ifs at h with hcompressed huncompressed hvalid
  · obtain ⟨hlen,hhead,htail,hfirst⟩ := hcompressed
    cases h
    refine .inl ⟨by simp [hlen],by simpa using hfirst,?_⟩
    rw [← hhead,← htail]
    exact (three_parts script 1 33).symm
  · obtain ⟨hlen,hhead,htail,hfirst⟩ := huncompressed
    cases h
    refine .inr ⟨by simp [hlen],by simpa using hfirst,hvalid,?_⟩
    rw [← hhead,← htail]
    exact (three_parts script 1 65).symm

theorem parity_cases (pubkey : Bytes) : parity pubkey = 0 ∨ parity pubkey = 1 := by
  unfold parity
  generalize pubkey[64]?.getD 0 = b
  have hmod : (b &&& 1).toNat = b.toNat % 2 := by
    rw [UInt8.toNat_and]
    exact Nat.and_one_is_mod _
  rcases Nat.mod_two_eq_zero_or_one b.toNat with h | h
  · exact .inl (UInt8.toNat_inj.mp (hmod.trans h))
  · exact .inr (UInt8.toNat_inj.mp (hmod.trans h))

theorem compress_some {keys : PubKeys} (hkeys : keys.GivesBack) {script : CScript} {compr : Bytes}
    (h : compress keys script = some compr) : ∃ nSize vch, compr = UInt8.ofNat nSize::vch ∧
      nSize < nSpecialScripts ∧ vch.length = getSpecialSize nSize ∧
      decompress keys nSize vch = some script := by
  unfold compress at h
  split at h
  · rename_i keyID hkeyID
    obtain ⟨hlen,rfl⟩ := isToKeyID_some hkeyID
    cases h
    exact ⟨0,keyID,rfl,by decide,hlen,rfl⟩
  · split at h
    · rename_i scriptID hscriptID
      obtain ⟨hlen,rfl⟩ := isToScriptID_some hscriptID
      cases h
      exact ⟨1,scriptID,rfl,by decide,hlen,rfl⟩
    · split at h
      · rename_i pubkey hpubkey
        have hvch : pubkey.length = 33 ∨ pubkey.length = 65 →
            ((pubkey.drop 1).take 32).length = 32 := by
          intro hlen
          rw [List.length_take,List.length_drop]
          omega
        rcases isToPubKey_some hpubkey with ⟨hlen,hfirst,rfl⟩ | ⟨hlen,hfirst,hvalid,rfl⟩
        · obtain ⟨b,rest,rfl⟩ : ∃ b rest, pubkey = b::rest :=
            List.exists_cons_of_length_pos (by omega)
          have htake : rest.take 32 = rest :=
            List.take_of_length_le (Nat.le_of_succ_le_succ hlen.le)
          rw [List.drop_succ_cons,List.drop_zero,htake] at hvch h
          rcases hfirst with hb | hb
          · cases hb
            cases h
            exact ⟨2,rest,rfl,by decide,hvch (.inl hlen),rfl⟩
          · cases hb
            cases h
            exact ⟨3,rest,rfl,by decide,hvch (.inl hlen),rfl⟩
        · have hback := hkeys pubkey hlen hfirst hvalid
          rw [if_neg (by rw [hfirst]; decide),if_neg (by rw [hfirst]; decide),if_pos hfirst] at h
          rcases parity_cases pubkey with hparity | hparity
          · rw [hparity] at h hback
            cases h
            refine ⟨4,_,rfl,by decide,hvch (.inr hlen),?_⟩
            exact congrArg (Option.map fun key => [65] ++ key.val ++ [OP_CHECKSIG]) hback
          · rw [hparity] at h hback
            cases h
            refine ⟨5,_,rfl,by decide,hvch (.inr hlen),?_⟩
            exact congrArg (Option.map fun key => [65] ++ key.val ++ [OP_CHECKSIG]) hback
      · cases h

@[simp] theorem serialize_length (keys : PubKeys) (script : CScript) :
    (serialize keys script).length = getSerializeSize keys script := by
  unfold serialize getSerializeSize
  split
  · rfl
  · rw [List.length_append,writeVarInt_length,Nat.add_comm]

/-- A script that has a size in its field is read back in whichever form it was written. -/
theorem unserialize_inverts {keys : PubKeys} (hkeys : keys.GivesBack) (old : CScript) :
    Inverts (unserialize keys old) (serialize keys) fun script => script.length + 6 < 2^32 := by
  intro script hlen rest
  unfold serialize unserialize
  split
  · rename_i compr hcompr
    obtain ⟨nSize,vch,rfl,hspecial,hvch,hback⟩ := compress_some hkeys hcompr
    have hsmall : nSize < 6 := hspecial
    have hbyte : UInt8.ofNat nSize::vch ++ rest = writeVarInt nSize ++ (vch ++ rest) := by
      rw [writeVarInt_small (by omega)]
      rfl
    rw [hbyte,(readVarInt_inverts 32).run_bind (a := nSize) (by omega),if_pos hspecial]
    refine ((readBytes_inverts _).run_bind (a := vch) hvch _ rest).trans ?_
    rw [hback]
    rfl
  · have hsize : rawSize script = script.length + 6 := Nat.mod_eq_of_lt hlen
    have hraw : ¬ script.length + 6 < nSpecialScripts := Nat.not_lt.mpr (Nat.le_add_left 6 _)
    rw [hsize,List.append_assoc,
      (readVarInt_inverts 32).run_bind (a := script.length + 6) (by omega),if_neg hraw]
    exact readBytes_inverts script.length script rfl rest

/-- Every script within the size limit is given back exactly, and its size is known before. -/
theorem script_roundTrip (keys : PubKeys) (hkeys : keys.GivesBack) (script : CScript)
    (hlen : script.length ≤ MAX_SCRIPT_SIZE) (old : CScript) (rest : Bytes) :
    (unserialize keys old).run (serialize keys script ++ rest) = .ok (script,rest) ∧
      getSerializeSize keys script = (serialize keys script).length := by
  have hfits : script.length + 6 < 2^32 := by
    have hmax : MAX_SCRIPT_SIZE = 10000 := rfl
    omega
  exact ⟨unserialize_inverts hkeys old script hfits rest,(serialize_length keys script).symm⟩

/-- The generator of the curve as a public key. -/
def generator : Bytes :=
  [0x04,0x79,0xbe,0x66,0x7e,0xf9,0xdc,0xbb,0xac,0x55,0xa0,0x62,0x95,
   0xce,0x87,0x0b,0x07,0x02,0x9b,0xfc,0xdb,0x2d,0xce,0x28,0xd9,0x59,
   0xf2,0x81,0x5b,0x16,0xf8,0x17,0x98,0x48,0x3a,0xda,0x77,0x26,0xa3,
   0xc4,0x65,0x5d,0xa4,0xfb,0xfc,0x0e,0x11,0x08,0xa8,0xfd,0x17,0xb4,
   0x48,0xa6,0x85,0x54,0x19,0x9c,0x47,0xd0,0x8f,0xfb,0x10,0xd4,0xb8]

/-- The curve as far as this one key goes. -/
def generatorKeys : PubKeys where
  isFullyValid pubkey := pubkey == generator
  decompress pubkey :=
    if pubkey = 0x02::(generator.drop 1).take 32 then some ⟨generator,by decide⟩ else none

theorem generatorKeys_givesBack : generatorKeys.GivesBack := by
  intro pubkey h _ hvalid
  obtain rfl : pubkey = generator := eq_of_beq hvalid
  have heven : (0x02 : UInt8) ||| parity generator = 0x02 := by decide
  rw [heven]
  simp only [generatorKeys,if_true]

theorem script_roundTrip_generator :
    (unserialize generatorKeys []).run
        (serialize generatorKeys ([65] ++ generator ++ [OP_CHECKSIG]) ++ [0x2a]) =
      .ok ([65] ++ generator ++ [OP_CHECKSIG],[0x2a]) ∧
    getSerializeSize generatorKeys ([65] ++ generator ++ [OP_CHECKSIG]) =
      (serialize generatorKeys ([65] ++ generator ++ [OP_CHECKSIG])).length :=
  script_roundTrip generatorKeys generatorKeys_givesBack _ (by decide) [] [0x2a]

end CScriptCompressor
end Sidechain
