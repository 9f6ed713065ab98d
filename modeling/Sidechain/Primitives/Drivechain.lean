import Sidechain.Primitives.Transaction

/-! The three drivechain objects (deposit, withdrawal, joined withdrawal), their serialization,
hash and output script, and the decoder that reads an object back from an output script. -/
namespace Sidechain
open Codec

def SIDECHAIN_ID : Uint256 := 0xca85db47c45dfccfa9f5562f7383c7b3fe1746017327371771ed3f70345b72d4

/-- The script of the mainchain outputs that lock coins to this sidechain. -/
def SIDECHAIN_DEPOSITSCRIPT : CScript := [OP_1]

/-- Pay to the hash of a public key, given as its bytes in memory order. -/
def payToKeyHash (keyID : Bytes) : CScript :=
  OP_DUP :: OP_HASH160 :: (pushData keyID ++ [OP_EQUALVERIFY,OP_CHECKSIG])

/-- Marks the sidechain half of the WT^ fees. -/
def SIDECHAIN_FEESCRIPT : CScript :=
  payToKeyHash [0x25,0x63,0xd5,0x8a,0xe0,0x11,0xd9,0x6b,0x08,0xc1,0xaf,0x9c,0x11,0x55,0xf2,0x78,
    0x5a,0x5b,0x33,0x2c]

/-- The number of blocks between WT^ creations. -/
def SIDECHAIN_TAU : ℕ := 400

/-- A deposit from the mainchain; `txid` is not part of its serialization. -/
structure DrivechainDeposit where
  sidechainid : Uint256 := 0
  keyID : Uint160 := 0
  deposit : CTransaction := {}
  txid : Uint256 := 0
  deriving DecidableEq, Repr

/-- A single withdrawal to the mainchain (wt). -/
structure DrivechainWithdraw where
  sidechainid : Uint256 := 0
  keyID : Uint160 := 0
  txid : Uint256 := 0
  deriving DecidableEq, Repr

/-- Withdrawals joined to one mainchain transaction (WT^). -/
structure DrivechainJoinedWT where
  sidechainid : Uint256 := 0
  wtJoined : CTransaction := {}
  txid : Uint256 := 0
  deriving DecidableEq, Repr

def opDeposit : UInt8 := 0x44
def opWithdraw : UInt8 := 0x57
def opJoinedWT : UInt8 := 0x4a

def DrivechainDeposit.serialize (d : DrivechainDeposit) : Bytes :=
  leBytes 1 opDeposit.toNat ++ (serializeBits 32 d.sidechainid ++
    (serializeBits 20 d.keyID ++ d.deposit.serialize))

def DrivechainDeposit.unserialize : Reader DrivechainDeposit := do
  let _ ← ser_readdata 1
  let sidechainid ← unserializeBits 256 32
  let keyID ← unserializeBits 160 20
  let deposit ← CTransaction.unserialize
  pure { sidechainid, keyID, deposit }

def DrivechainWithdraw.serialize (w : DrivechainWithdraw) : Bytes :=
  leBytes 1 opWithdraw.toNat ++ (serializeBits 32 w.sidechainid ++ serializeBits 20 w.keyID)

def DrivechainWithdraw.unserialize : Reader DrivechainWithdraw := do
  let _ ← ser_readdata 1
  let sidechainid ← unserializeBits 256 32
  let keyID ← unserializeBits 160 20
  pure { sidechainid, keyID }

def DrivechainJoinedWT.serialize (j : DrivechainJoinedWT) : Bytes :=
  leBytes 1 opJoinedWT.toNat ++ (serializeBits 32 j.sidechainid ++ j.wtJoined.serialize)

def DrivechainJoinedWT.unserialize : Reader DrivechainJoinedWT := do
  let _ ← ser_readdata 1
  let sidechainid ← unserializeBits 256 32
  let wtJoined ← CTransaction.unserialize
  pure { sidechainid, wtJoined }

/-- A `drivechainObj *`: the object it points to, whose `drivechainop` is its kind. -/
inductive DrivechainObj where
  | deposit (d : DrivechainDeposit)
  | withdraw (w : DrivechainWithdraw)
  | joinedWT (j : DrivechainJoinedWT)
  deriving DecidableEq, Repr

namespace DrivechainObj

def drivechainop : DrivechainObj → UInt8
  | deposit _ => opDeposit
  | withdraw _ => opWithdraw
  | joinedWT _ => opJoinedWT

def txid : DrivechainObj → Uint256
  | deposit d => d.txid
  | withdraw w => w.txid
  | joinedWT j => j.txid

def setTxid (txid : Uint256) : DrivechainObj → DrivechainObj
  | deposit d => deposit { d with txid }
  | withdraw w => withdraw { w with txid }
  | joinedWT j => joinedWT { j with txid }

def serialize : DrivechainObj → Bytes
  | deposit d => d.serialize
  | withdraw w => w.serialize
  | joinedWT j => j.serialize

/-- The hash of the serialization, hence of everything but `txid`. -/
def getHash [Crypto] (obj : DrivechainObj) : Uint256 := Crypto.hash256 obj.serialize

def getScript (obj : DrivechainObj) : CScript := pushData obj.serialize ++ [OP_DRIVECHAIN]

/-- The embedded transaction, if there is one, can be read back. -/
def Fits : DrivechainObj → Prop
  | deposit d => d.deposit.Fits
  | withdraw _ => True
  | joinedWT j => j.wtJoined.Fits

@[simp] theorem setTxid_getHash [Crypto] (t : Uint256) (obj : DrivechainObj) :
    (obj.setTxid t).getHash = obj.getHash := by cases obj <;> rfl
@[simp] theorem setTxid_drivechainop (t : Uint256) (obj : DrivechainObj) :
    (obj.setTxid t).drivechainop = obj.drivechainop := by cases obj <;> rfl
@[simp] theorem setTxid_setTxid (s t : Uint256) (obj : DrivechainObj) :
    (obj.setTxid s).setTxid t = obj.setTxid t := by cases obj <;> rfl
@[simp] theorem setTxid_fits (t : Uint256) (obj : DrivechainObj) :
    (obj.setTxid t).Fits ↔ obj.Fits := by cases obj <;> rfl

theorem drivechainop_gt (obj : DrivechainObj) : 1 < obj.drivechainop := by
  cases obj with
  | deposit d => exact (by decide : 1 < opDeposit)
  | withdraw w => exact (by decide : 1 < opWithdraw)
  | joinedWT j => exact (by decide : 1 < opJoinedWT)

@[simp] theorem setTxid_self (obj : DrivechainObj) : obj.setTxid obj.txid = obj := by cases obj <;> rfl

end DrivechainObj

/-- The payload decoder for the kind its first byte names. -/
def unserializeObj (op : UInt8) : Option (Reader DrivechainObj) :=
  if op = opDeposit then some (DrivechainObj.deposit <$> DrivechainDeposit.unserialize)
  else if op = opWithdraw then some (DrivechainObj.withdraw <$> DrivechainWithdraw.unserialize)
  else if op = opJoinedWT then some (DrivechainObj.joinedWT <$> DrivechainJoinedWT.unserialize)
  else none

/-- The object the first push of a script holds. A payload of a known kind that cannot be
read throws; bytes after the object are ignored. -/
def drivechainObjCtr (script : CScript) : Outcome (Option DrivechainObj) :=
  match getOp script with
  | none => .ok none
  | some op =>
    match op.vch with
    | [] => .ok none
    | vchOP :: _ =>
      match unserializeObj vchOP with
      | none => .ok none
      | some reader =>
        match reader.run op.vch with
        | .error what => .error (.exception what)
        | .ok (obj,_) => .ok (some obj)

/-- What the index scan of `ConnectBlock` finds in one output script. -/
def scanScript (scriptPubKey : CScript) : Outcome (Option DrivechainObj) :=
  if scriptPubKey.length < 2 ∨ scriptPubKey.getLast? ≠ some OP_DRIVECHAIN then .ok none
  else drivechainObjCtr scriptPubKey

def CScript.isDrivechainScript (script : CScript) : Outcome Bool :=
  if script.length < 2 then .ok false
  else if script.getLast? ≠ some OP_DRIVECHAIN then .ok false
  else do
    match ← drivechainObjCtr script with
    | none => pure false
    | some obj =>
      if obj.drivechainop = opDeposit then pure true
      else if obj.drivechainop = opWithdraw then pure true
      else if obj.drivechainop = opJoinedWT then pure true
      else pure false

theorem isDrivechainScript_eq (script : CScript) :
    CScript.isDrivechainScript script = Option.isSome <$> scanScript script := by
  unfold CScript.isDrivechainScript scanScript
  split_ifs with h1 h2 h3 h4 h5
  · rfl
  · exact absurd (Or.inl h1) h2
  · rfl
  · exact absurd (Or.inr h3) h4
  · exact absurd h5 (by tauto)
  · cases drivechainObjCtr script with
    | error e => rfl
    | ok o =>
      cases o with
      | none => rfl
      | some obj => cases obj <;> rfl

def outOfRange : Halt :=
  .exception "CTransaction::GetValueOut(): value out of range"

def outOfRangeToDrivechain : Halt :=
  .exception "CTransaction::GetValueOutToDrivechain(): value out of range"

/-- One round of a value sum: add, then check the term and the sum. -/
def addInRange (fault : Halt) (nValueOut : CAmount) (nValue : CAmount) : Outcome CAmount := do
  let sum ← addAmount nValueOut nValue
  require (moneyRange nValue ∧ moneyRange sum) (.error fault)
  pure sum

def CTransaction.getValueOut (tx : CTransaction) : Outcome CAmount :=
  tx.vout.foldlM (fun nValueOut out => addInRange outOfRange nValueOut out.nValue) 0

/-- Only the outputs with a drivechain script count. -/
def CTransaction.getValueOutToDrivechain (tx : CTransaction) : Outcome CAmount :=
  tx.vout.foldlM (fun nValueOut out => do
    if ← out.scriptPubKey.isDrivechainScript then
      addInRange outOfRangeToDrivechain nValueOut out.nValue
    else pure nValueOut) 0

theorem DrivechainDeposit.unserialize_inverts :
    Inverts DrivechainDeposit.unserialize DrivechainDeposit.serialize
      (fun d => d.deposit.Fits ∧ d.txid = 0) := by
  rintro ⟨sid,key,dep,txid⟩ ⟨hfit,rfl⟩ rest
  rw [DrivechainDeposit.unserialize,DrivechainDeposit.serialize,List.append_assoc,
    List.append_assoc,List.append_assoc,(ser_readdata_inverts 1).run_bind (by decide),
    (unserializeBits_inverts 256 32 (by norm_num)).run_bind trivial,
    (unserializeBits_inverts 160 20 (by norm_num)).run_bind trivial,
    CTransaction.unserialize_inverts.run_bind hfit]
  rfl

theorem DrivechainWithdraw.unserialize_inverts :
    Inverts DrivechainWithdraw.unserialize DrivechainWithdraw.serialize (fun w => w.txid = 0) := by
  rintro ⟨sid,key,txid⟩ rfl rest
  rw [DrivechainWithdraw.unserialize,DrivechainWithdraw.serialize,List.append_assoc,
    List.append_assoc,(ser_readdata_inverts 1).run_bind (by decide),
    (unserializeBits_inverts 256 32 (by norm_num)).run_bind trivial,
    (unserializeBits_inverts 160 20 (by norm_num)).run_bind trivial]
  rfl

theorem DrivechainJoinedWT.unserialize_inverts :
    Inverts DrivechainJoinedWT.unserialize DrivechainJoinedWT.serialize
      (fun j => j.wtJoined.Fits ∧ j.txid = 0) := by
  rintro ⟨sid,wtj,txid⟩ ⟨hfit,rfl⟩ rest
  rw [DrivechainJoinedWT.unserialize,DrivechainJoinedWT.serialize,List.append_assoc,
    List.append_assoc,(ser_readdata_inverts 1).run_bind (by decide),
    (unserializeBits_inverts 256 32 (by norm_num)).run_bind trivial,
    CTransaction.unserialize_inverts.run_bind hfit]
  rfl

theorem DrivechainDeposit.unserialize_yields :
    Yields DrivechainDeposit.unserialize (fun d => d.deposit.Fits ∧ d.txid = 0) :=
  (yields_true _).bind fun _ _ => (yields_true _).bind fun _ _ => (yields_true _).bind fun _ _ =>
    CTransaction.unserialize_yields.bind fun _ h => Yields.pure ⟨h,rfl⟩

theorem DrivechainWithdraw.unserialize_yields :
    Yields DrivechainWithdraw.unserialize (fun w => w.txid = 0) :=
  (yields_true _).bind fun _ _ => (yields_true _).bind fun _ _ => (yields_true _).bind fun _ _ =>
    Yields.pure rfl

theorem DrivechainJoinedWT.unserialize_yields :
    Yields DrivechainJoinedWT.unserialize (fun j => j.wtJoined.Fits ∧ j.txid = 0) :=
  (yields_true _).bind fun _ _ => (yields_true _).bind fun _ _ =>
    CTransaction.unserialize_yields.bind fun _ h => Yields.pure ⟨h,rfl⟩

namespace DrivechainObj

/-- The serialization of an object starts with the byte that names its kind. -/
theorem serialize_eq_cons (obj : DrivechainObj) :
    ∃ tail, obj.serialize = obj.drivechainop :: tail := by
  cases obj with
  | deposit d => exact ⟨_,rfl⟩
  | withdraw w => exact ⟨_,rfl⟩
  | joinedWT j => exact ⟨_,rfl⟩

/-- The reader its kind selects reads an object back, without its txid. -/
theorem unserializeObj_run (obj : DrivechainObj) (hfit : obj.Fits) (rest : Bytes) :
    ∃ reader, unserializeObj obj.drivechainop = some reader ∧
      reader.run (obj.serialize ++ rest) = .ok (obj.setTxid 0,rest) := by
  cases obj with
  | deposit d =>
    have h := DrivechainDeposit.unserialize_inverts { d with txid := 0 } ⟨hfit,rfl⟩ rest
    refine ⟨_,rfl,?_⟩
    rw [StateT.run_map]
    exact congrArg (fun r => (fun p => (DrivechainObj.deposit p.1,p.2)) <$> r) h
  | withdraw w =>
    have h := DrivechainWithdraw.unserialize_inverts { w with txid := 0 } rfl rest
    refine ⟨_,rfl,?_⟩
    rw [StateT.run_map]
    exact congrArg (fun r => (fun p => (DrivechainObj.withdraw p.1,p.2)) <$> r) h
  | joinedWT j =>
    have h := DrivechainJoinedWT.unserialize_inverts { j with txid := 0 } ⟨hfit,rfl⟩ rest
    refine ⟨_,rfl,?_⟩
    rw [StateT.run_map]
    exact congrArg (fun r => (fun p => (DrivechainObj.joinedWT p.1,p.2)) <$> r) h

theorem drivechainObjCtr_getScript (obj : DrivechainObj) (hfit : obj.Fits)
    (hlen : obj.serialize.length < 2^32) :
    drivechainObjCtr obj.getScript = .ok (some (obj.setTxid 0)) := by
  obtain ⟨opcode,hop,_⟩ := getOp_pushData obj.serialize [OP_DRIVECHAIN] hlen
  obtain ⟨tail,htail⟩ := obj.serialize_eq_cons
  obtain ⟨reader,hreader,hrun⟩ := obj.unserializeObj_run hfit []
  rw [List.append_nil,htail] at hrun
  rw [htail] at hop
  simp only [drivechainObjCtr,getScript,htail,hop,hreader,hrun]

theorem getScript_getLast? (obj : DrivechainObj) : obj.getScript.getLast? = some OP_DRIVECHAIN := by
  simp [getScript]

theorem two_le_getScript_length (obj : DrivechainObj) : 2 ≤ obj.getScript.length := by
  obtain ⟨tail,htail⟩ := obj.serialize_eq_cons
  have hpush : 1 ≤ (pushData obj.serialize).length := by
    unfold pushData
    split_ifs <;> simp [leBytes_length]
  simp only [getScript,List.length_append,List.length_singleton]
  omega

theorem serialize_le_getScript (obj : DrivechainObj) :
    obj.serialize.length ≤ obj.getScript.length := by
  have hpush : obj.serialize.length ≤ (pushData obj.serialize).length := by
    unfold pushData
    split_ifs <;> simp [leBytes_length] <;> omega
  rw [getScript,List.length_append]
  omega

/-- An object within the stream limit can be read back. -/
theorem fits_of_size {obj : DrivechainObj} (h : obj.serialize.length ≤ MAX_SIZE) : obj.Fits := by
  cases obj with
  | deposit d =>
    refine CTransaction.fits_of_size (le_trans ?_ h)
    simp only [CTransaction.getSerializeSize,serialize,DrivechainDeposit.serialize,
      List.length_append]
    omega
  | withdraw w => exact trivial
  | joinedWT j =>
    refine CTransaction.fits_of_size (le_trans ?_ h)
    simp only [CTransaction.getSerializeSize,serialize,DrivechainJoinedWT.serialize,
      List.length_append]
    omega

theorem scanScript_getScript (obj : DrivechainObj) (hfit : obj.Fits)
    (hlen : obj.serialize.length < 2^32) :
    scanScript obj.getScript = .ok (some (obj.setTxid 0)) := by
  have hlong := obj.two_le_getScript_length
  rw [scanScript,if_neg (by simp [obj.getScript_getLast?]; omega),
    obj.drivechainObjCtr_getScript hfit hlen]

/-- The payload readers return objects that can be read again and have no txid yet. -/
theorem unserializeObj_yields {op : UInt8} {reader : Reader DrivechainObj}
    (h : unserializeObj op = some reader) :
    Yields reader (fun obj => obj.Fits ∧ obj.txid = 0 ∧ obj.drivechainop = op) := by
  unfold unserializeObj at h
  split_ifs at h with hD hW hJ <;> cases h
  · exact DrivechainDeposit.unserialize_yields.map fun d hd => ⟨hd.1,hd.2,hD.symm⟩
  · exact DrivechainWithdraw.unserialize_yields.map fun w hw => ⟨trivial,hw,hW.symm⟩
  · exact DrivechainJoinedWT.unserialize_yields.map fun j hj => ⟨hj.1,hj.2,hJ.symm⟩

end DrivechainObj

/-- Every object an output script decodes to can be serialized and read again. -/
theorem drivechainObjCtr_wf {script : CScript} {obj : DrivechainObj}
    (h : drivechainObjCtr script = .ok (some obj)) : obj.Fits ∧ obj.txid = 0 := by
  unfold drivechainObjCtr at h
  split at h
  · cases h
  · split at h
    · cases h
    · split at h
      · cases h
      · rename_i reader hreader
        split at h
        · cases h
        · rename_i hrun
          cases h
          have hy := DrivechainObj.unserializeObj_yields hreader _ _ _ hrun
          exact ⟨hy.1,hy.2.1⟩

theorem scanScript_wf {script : CScript} {obj : DrivechainObj}
    (h : scanScript script = .ok (some obj)) : obj.Fits ∧ obj.txid = 0 := by
  unfold scanScript at h
  split_ifs at h
  · cases h
  · exact drivechainObjCtr_wf h

end Sidechain
