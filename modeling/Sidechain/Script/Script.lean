import Sidechain.Primitives.Serialize

/-! Scripts as byte strings: reading one operation, appending pushes, the shape tests and
the signature operation counts of script.h and script.cpp. An opcode is the byte itself,
as a cast to `opcodetype` leaves it. -/
namespace Sidechain

abbrev CScript := Bytes

def OP_0 : UInt8 := 0x00
def OP_PUSHDATA1 : UInt8 := 0x4c
def OP_PUSHDATA2 : UInt8 := 0x4d
def OP_PUSHDATA4 : UInt8 := 0x4e
def OP_1NEGATE : UInt8 := 0x4f
def OP_1 : UInt8 := 0x51
def OP_16 : UInt8 := 0x60
def OP_NOP : UInt8 := 0x61
def OP_IF : UInt8 := 0x63
def OP_NOTIF : UInt8 := 0x64
def OP_ELSE : UInt8 := 0x67
def OP_ENDIF : UInt8 := 0x68
def OP_VERIFY : UInt8 := 0x69
def OP_RETURN : UInt8 := 0x6a
def OP_TOALTSTACK : UInt8 := 0x6b
def OP_FROMALTSTACK : UInt8 := 0x6c
def OP_2DROP : UInt8 := 0x6d
def OP_2DUP : UInt8 := 0x6e
def OP_3DUP : UInt8 := 0x6f
def OP_2OVER : UInt8 := 0x70
def OP_2ROT : UInt8 := 0x71
def OP_2SWAP : UInt8 := 0x72
def OP_IFDUP : UInt8 := 0x73
def OP_DEPTH : UInt8 := 0x74
def OP_DROP : UInt8 := 0x75
def OP_DUP : UInt8 := 0x76
def OP_NIP : UInt8 := 0x77
def OP_OVER : UInt8 := 0x78
def OP_PICK : UInt8 := 0x79
def OP_ROLL : UInt8 := 0x7a
def OP_ROT : UInt8 := 0x7b
def OP_SWAP : UInt8 := 0x7c
def OP_TUCK : UInt8 := 0x7d
def OP_CAT : UInt8 := 0x7e
def OP_SUBSTR : UInt8 := 0x7f
def OP_LEFT : UInt8 := 0x80
def OP_RIGHT : UInt8 := 0x81
def OP_SIZE : UInt8 := 0x82
def OP_INVERT : UInt8 := 0x83
def OP_AND : UInt8 := 0x84
def OP_OR : UInt8 := 0x85
def OP_XOR : UInt8 := 0x86
def OP_EQUAL : UInt8 := 0x87
def OP_EQUALVERIFY : UInt8 := 0x88
def OP_1ADD : UInt8 := 0x8b
def OP_1SUB : UInt8 := 0x8c
def OP_2MUL : UInt8 := 0x8d
def OP_2DIV : UInt8 := 0x8e
def OP_NEGATE : UInt8 := 0x8f
def OP_ABS : UInt8 := 0x90
def OP_NOT : UInt8 := 0x91
def OP_0NOTEQUAL : UInt8 := 0x92
def OP_ADD : UInt8 := 0x93
def OP_SUB : UInt8 := 0x94
def OP_MUL : UInt8 := 0x95
def OP_DIV : UInt8 := 0x96
def OP_MOD : UInt8 := 0x97
def OP_LSHIFT : UInt8 := 0x98
def OP_RSHIFT : UInt8 := 0x99
def OP_BOOLAND : UInt8 := 0x9a
def OP_BOOLOR : UInt8 := 0x9b
def OP_NUMEQUAL : UInt8 := 0x9c
def OP_NUMEQUALVERIFY : UInt8 := 0x9d
def OP_NUMNOTEQUAL : UInt8 := 0x9e
def OP_LESSTHAN : UInt8 := 0x9f
def OP_GREATERTHAN : UInt8 := 0xa0
def OP_LESSTHANOREQUAL : UInt8 := 0xa1
def OP_GREATERTHANOREQUAL : UInt8 := 0xa2
def OP_MIN : UInt8 := 0xa3
def OP_MAX : UInt8 := 0xa4
def OP_WITHIN : UInt8 := 0xa5
def OP_RIPEMD160 : UInt8 := 0xa6
def OP_SHA1 : UInt8 := 0xa7
def OP_SHA256 : UInt8 := 0xa8
def OP_HASH160 : UInt8 := 0xa9
def OP_HASH256 : UInt8 := 0xaa
def OP_CODESEPARATOR : UInt8 := 0xab
def OP_CHECKSIG : UInt8 := 0xac
def OP_CHECKSIGVERIFY : UInt8 := 0xad
def OP_CHECKMULTISIG : UInt8 := 0xae
def OP_CHECKMULTISIGVERIFY : UInt8 := 0xaf
def OP_NOP1 : UInt8 := 0xb0
def OP_CHECKLOCKTIMEVERIFY : UInt8 := 0xb1
def OP_CHECKSEQUENCEVERIFY : UInt8 := 0xb2
def OP_NOP4 : UInt8 := 0xb3
def OP_NOP5 : UInt8 := 0xb4
def OP_NOP6 : UInt8 := 0xb5
def OP_NOP7 : UInt8 := 0xb6
def OP_NOP8 : UInt8 := 0xb7
def OP_NOP9 : UInt8 := 0xb8
def OP_NOP10 : UInt8 := 0xb9
def OP_DRIVECHAIN : UInt8 := 0xc0
def OP_INVALIDOPCODE : UInt8 := 0xff

def MAX_SCRIPT_ELEMENT_SIZE : ℕ := 520
def MAX_OPS_PER_SCRIPT : ℕ := 201
def MAX_PUBKEYS_PER_MULTISIG : ℕ := 20

/-- One operation of a script: its opcode, the data it pushes and the script after it. -/
structure ScriptOp where
  opcode : UInt8
  vch : Bytes
  pc : CScript
  deriving DecidableEq, Repr

/-- A length of `width` bytes and then that many bytes of push data. -/
def getPush (opcode : UInt8) (width : ℕ) (pc : CScript) : Option ScriptOp :=
  if pc.length < width then none
  else
    let nSize := ofLeBytes (pc.take width)
    let data := pc.drop width
    if data.length < nSize then none
    else some ⟨opcode,data.take nSize,data.drop nSize⟩

/-- `GetOp2`: the next operation at `pc`, unless the script ends inside it. -/
def getOp : CScript → Option ScriptOp
  | [] => none
  | opcode :: pc =>
    if opcode < OP_PUSHDATA1 then
      if pc.length < opcode.toNat then none
      else some ⟨opcode,pc.take opcode.toNat,pc.drop opcode.toNat⟩
    else if opcode = OP_PUSHDATA1 then getPush opcode 1 pc
    else if opcode = OP_PUSHDATA2 then getPush opcode 2 pc
    else if opcode = OP_PUSHDATA4 then getPush opcode 4 pc
    else some ⟨opcode,[],pc⟩

/-- The bytes `operator<<` appends for a data vector. -/
def pushData (b : Bytes) : CScript :=
  if b.length < OP_PUSHDATA1.toNat then leBytes 1 b.length ++ b
  else if b.length ≤ 0xff then OP_PUSHDATA1 :: (leBytes 1 b.length ++ b)
  else if b.length ≤ 0xffff then OP_PUSHDATA2 :: (leBytes 2 b.length ++ b)
  else OP_PUSHDATA4 :: (leBytes 4 b.length ++ b)

def CScript.isPayToScriptHash (script : CScript) : Bool :=
  script.length == 23 && script[0]? == some OP_HASH160 && script[1]? == some 0x14 &&
    script[22]? == some OP_EQUAL

/-- Guaranteed to fail at execution whatever the initial stack. -/
def CScript.isUnspendable (script : CScript) : Bool := script.head? == some OP_RETURN

def decodeOP_N (opcode : UInt8) : ℕ := if opcode = OP_0 then 0 else opcode.toNat - (OP_1.toNat - 1)

/-- Signature operations one opcode stands for, given the opcode before it. -/
def sigOpsOf (fAccurate : Bool) (lastOpcode opcode : UInt8) : ℕ :=
  if opcode = OP_CHECKSIG ∨ opcode = OP_CHECKSIGVERIFY then 1
  else if opcode = OP_CHECKMULTISIG ∨ opcode = OP_CHECKMULTISIGVERIFY then
    if fAccurate ∧ OP_1 ≤ lastOpcode ∧ lastOpcode ≤ OP_16 then decodeOP_N lastOpcode
    else MAX_PUBKEYS_PER_MULTISIG
  else 0

/-- The counting loop; every round consumes a byte, so the script's length is fuel enough. -/
def sigOpCountFrom (fAccurate : Bool) : ℕ → UInt8 → CScript → ℕ
  | 0,_,_ => 0
  | fuel+1,lastOpcode,pc =>
    match getOp pc with
    | none => 0
    | some op => sigOpsOf fAccurate lastOpcode op.opcode + sigOpCountFrom fAccurate fuel op.opcode op.pc

def CScript.getSigOpCount (script : CScript) (fAccurate : Bool) : ℕ :=
  sigOpCountFrom fAccurate script.length OP_INVALIDOPCODE script

/-- The data of the last operation of a script of push operations only. -/
def lastPush : ℕ → Bytes → CScript → Option Bytes
  | 0,data,_ => some data
  | fuel+1,data,pc =>
    if pc.isEmpty then some data
    else
      match getOp pc with
      | none => none
      | some op => if op.opcode > OP_16 then none else lastPush fuel op.vch op.pc

/-- `GetSigOpCount(scriptSig)`: the operations of a pay-to-script-hash redeem script. -/
def CScript.getP2SHSigOpCount (script scriptSig : CScript) : ℕ :=
  if !script.isPayToScriptHash then script.getSigOpCount true
  else
    match lastPush scriptSig.length [] scriptSig with
    | none => 0
    | some data => CScript.getSigOpCount data true

def isPushOnlyFrom : ℕ → CScript → Bool
  | 0,_ => true
  | fuel+1,pc =>
    if pc.isEmpty then true
    else
      match getOp pc with
      | none => false
      | some op => if op.opcode > OP_16 then false else isPushOnlyFrom fuel op.pc

def CScript.isPushOnly (script : CScript) : Bool := isPushOnlyFrom script.length script

theorem getPush_shorter {opcode : UInt8} {width : ℕ} {pc : CScript} {op : ScriptOp}
    (h : getPush opcode width pc = some op) : op.pc.length ≤ pc.length := by
  unfold getPush at h
  dsimp only at h
  split_ifs at h
  cases h
  simp

theorem getOp_shorter {pc : CScript} {op : ScriptOp} (h : getOp pc = some op) :
    op.pc.length < pc.length := by
  cases pc with
  | nil => cases h
  | cons opcode pc =>
    simp only [getOp] at h
    rw [List.length_cons]
    split_ifs at h with h1 h2 h3 h4 h5
    · cases h
      simp only [List.length_drop]
      omega
    · exact Nat.lt_succ_of_le (getPush_shorter h)
    · exact Nat.lt_succ_of_le (getPush_shorter h)
    · exact Nat.lt_succ_of_le (getPush_shorter h)
    · cases h
      exact Nat.lt_succ_self _

theorem getPush_append (opcode : UInt8) (width : ℕ) (b rest : Bytes) (hb : b.length < 256^width) :
    getPush opcode width (leBytes width b.length ++ b ++ rest) = some ⟨opcode,b,rest⟩ := by
  have hsize : ofLeBytes (leBytes width b.length) = b.length := by
    rw [ofLeBytes_leBytes,Nat.mod_eq_of_lt hb]
  have htake : (leBytes width b.length ++ b ++ rest).take width = leBytes width b.length := by
    rw [List.append_assoc,List.take_left' (leBytes_length _ _)]
  have hdrop : (leBytes width b.length ++ b ++ rest).drop width = b ++ rest := by
    rw [List.append_assoc,List.drop_left' (leBytes_length _ _)]
  simp only [getPush,htake,hdrop,hsize]
  rw [if_neg (by simp),if_neg (by simp)]
  simp

/-- A pushed vector is read back whole, whatever follows it. -/
theorem getOp_pushData (b rest : Bytes) (hb : b.length < 2^32) :
    ∃ opcode, getOp (pushData b ++ rest) = some ⟨opcode,b,rest⟩ ∧ opcode ≤ OP_PUSHDATA4 := by
  unfold pushData
  split_ifs with h1 h2 h3
  · have hsmall : b.length < 76 := h1
    have hop : leBytes 1 b.length = [UInt8.ofNat b.length] := by
      simp [leBytes,Codec.digitsLE,Nat.mod_eq_of_lt (by omega : b.length < 256)]
    have hnat : (UInt8.ofNat b.length).toNat = b.length := by
      simp [Nat.mod_eq_of_lt (by omega : b.length < 256)]
    have hlt : UInt8.ofNat b.length < OP_PUSHDATA1 := by
      rw [UInt8.lt_iff_toNat_lt,hnat]
      exact h1
    refine ⟨UInt8.ofNat b.length,?_,?_⟩
    · rw [hop,List.singleton_append,List.cons_append,getOp,if_pos hlt,hnat,if_neg (by simp)]
      simp
    · rw [UInt8.le_iff_toNat_le,hnat]
      exact (Nat.le_of_lt h1).trans (by decide)
  · refine ⟨OP_PUSHDATA1,?_,by decide⟩
    rw [List.cons_append,getOp,if_neg (by decide),if_pos rfl,getPush_append _ _ _ _ (by omega)]
  · refine ⟨OP_PUSHDATA2,?_,by decide⟩
    rw [List.cons_append,getOp,if_neg (by decide),if_neg (by decide),if_pos rfl,
      getPush_append _ _ _ _ (by omega)]
  · refine ⟨OP_PUSHDATA4,?_,by decide⟩
    rw [List.cons_append,getOp,if_neg (by decide),if_neg (by decide),if_neg (by decide),if_pos rfl,
      getPush_append _ _ _ _ (by omega)]

end Sidechain
