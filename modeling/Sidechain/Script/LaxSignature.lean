import Sidechain.Crypto.Compression
import Sidechain.Library.Blocks
import Sidechain.Library.Run
import Sidechain.Script.ScriptNum
import Mathlib.Data.Nat.Bitwise

/-! The lax DER parser of signatures beside the strict format: it stays inside its input, and
reads a strictly encoded signature as the integers the encoding holds. -/
namespace Sidechain
open Blocks

/-- The two ends of the parser without a signature: `return 0`, or an access outside. -/
inductive LaxHalt where
  | returnsZero
  | outside
  deriving DecidableEq, Repr

abbrev Lax (α : Type) := Except LaxHalt α

namespace LaxSignature

def inputAt (input : Bytes) (pos : ℕ) : Lax UInt8 :=
  match input[pos]? with
  | some b => .ok b
  | none => .error .outside

/-- The source of a `memcpy`. -/
def inputRange (input : Bytes) (pos len : ℕ) : Lax Bytes :=
  if pos + len ≤ input.length then .ok ((input.drop pos).take len) else .error .outside

/-- A tag byte is there, and is skipped. -/
def skipTag (input : Bytes) (tag : UInt8) (pos : ℕ) : Lax ℕ :=
  if pos = input.length then .error .returnsZero
  else do
    let b ← inputAt input pos
    if b ≠ tag then .error .returnsZero else .ok (pos + 1)

/-- `lenbyte = input[pos++]`. -/
def lengthByte (input : Bytes) (pos : ℕ) : Lax (ℕ × ℕ) :=
  if pos = input.length then .error .returnsZero
  else do
    let b ← inputAt input pos
    return (b.toNat,pos + 1)

/-- `while (len > 0 && input[pos] == 0) len--, pos++`, for a length descriptor and for the
integers themselves. -/
def skipZeros (input : Bytes) : ℕ → ℕ → Lax (ℕ × ℕ)
  | 0,pos => .ok (0,pos)
  | len + 1,pos => do
    let b ← inputAt input pos
    if b = 0 then skipZeros input len (pos + 1) else .ok (len + 1,pos)

/-- The bytes of a long length, shifted into a `size_t`. -/
def readLength (input : Bytes) : ℕ → ℕ → ℕ → Lax (ℕ × ℕ)
  | 0,pos,len => .ok (len,pos)
  | lenbyte + 1,pos,len => do
    let b ← inputAt input pos
    readLength input lenbyte (pos + 1) ((len <<< 8 % 2^64 + b.toNat) % 2^64)

/-- The end of a long length descriptor, computed in a `size_t`. -/
def longEnd (input : Bytes) (pos lenbyte : ℕ) : Lax ℕ :=
  if (pos + lenbyte) % 2^64 > input.length then .error .returnsZero
  else .ok ((pos + lenbyte) % 2^64)

/-- The sequence tag, and its length bytes unread. -/
def sequence (input : Bytes) : Lax ℕ := do
  let pos ← skipTag input 0x30 0
  let (lenbyte,pos) ← lengthByte input pos
  if lenbyte &&& 0x80 ≠ 0 then longEnd input pos (lenbyte - 0x80) else .ok pos

/-- The length of an integer, and the position behind it. -/
def integerLength (input : Bytes) (pos : ℕ) : Lax (ℕ × ℕ) := do
  let (lenbyte,pos) ← lengthByte input pos
  if lenbyte &&& 0x80 ≠ 0 then
    let _ ← longEnd input pos (lenbyte - 0x80)
    let (lenbyte,pos) ← skipZeros input (lenbyte - 0x80) pos
    if lenbyte ≥ 8 then .error .returnsZero else readLength input lenbyte pos 0
  else .ok (lenbyte,pos)

/-- Where an integer lies, its length, and the position behind it. -/
def integer (input : Bytes) (pos : ℕ) : Lax (ℕ × ℕ × ℕ) := do
  let pos ← skipTag input 0x02 pos
  let (len,pos) ← integerLength input pos
  if len > input.length - pos then .error .returnsZero else .ok (pos,len,pos + len)

/-- Copy a value into the 32 bytes of `tmpsig` that end at `last`. -/
def copyValue (input : Bytes) (last len pos : ℕ) (r : Bool × Bytes) : Lax (Bool × Bytes) :=
  if len > 32 then .ok (true,r.2)
  else do
    let bytes ← inputRange input pos len
    return (r.1,writeAt r.2 (last - len) bytes)

/-- The parser up to its use of libsecp256k1: `overflow`, and the 64 bytes of `tmpsig`. -/
def extract (input : Bytes) : Lax (Bool × Bytes) := do
  let pos ← sequence input
  let (rpos,rlen,pos) ← integer input pos
  let (spos,slen,_) ← integer input pos
  let (rlen,rpos) ← skipZeros input rlen rpos
  let r ← copyValue input 32 rlen rpos (false,List.replicate 64 0)
  let (slen,spos) ← skipZeros input slen spos
  copyValue input 64 slen spos r

structure Signature where
  (r s : ℕ)
  deriving DecidableEq, Repr

/-- The order of the group, `SECP256K1_N_7` to `SECP256K1_N_0`. -/
def SECP256K1_N : ℕ := 0xFFFFFFFFFFFFFFFFFFFFFFFFFFFFFFFEBAAEDCE6AF48A03BBFD25E8CD0364141

/-- A number in big-endian bytes. -/
def beNat (bytes : Bytes) : ℕ := ofLeBytes bytes.reverse

@[simp] theorem beNat_cons (b : UInt8) (bs : Bytes) :
    beNat (b::bs) = b.toNat*256^bs.length + beNat bs := by
  rw [beNat,beNat,ofLeBytes,ofLeBytes,List.reverse_cons,List.map_append,Nat.ofDigits_append,
    List.length_map,List.length_reverse,Nat.mul_comm b.toNat,Nat.add_comm]
  simp

theorem beNat_lt (bs : Bytes) : beNat bs < 256^bs.length := by
  simpa [beNat] using ofLeBytes_lt bs.reverse

@[simp] theorem beNat_zeros (n : ℕ) (bs : Bytes) :
    beNat (List.replicate n 0 ++ bs) = beNat bs := by
  induction n with
  | zero => rfl
  | succ n ih => simp [List.replicate_succ,beNat_cons,ih]

/-- A value without leading zeros has a byte more than a bound exactly if it reaches it. -/
theorem length_lt_iff_beNat {bs : Bytes} (h : ∀ b rest, bs = b::rest → b ≠ 0) (n : ℕ) :
    n < bs.length ↔ 256^n ≤ beNat bs := by
  constructor
  · intro hn
    cases bs with
    | nil => cases hn
    | cons b rest =>
      have hb : 0 < b.toNat := Nat.pos_of_ne_zero fun h0 =>
        h b rest rfl (UInt8.toNat_inj.mp h0)
      rw [beNat_cons]
      calc 256^n ≤ 256^rest.length := Nat.pow_le_pow_right (by decide) (Nat.le_of_lt_succ hn)
        _ ≤ b.toNat*256^rest.length := Nat.le_mul_of_pos_left _ hb
        _ ≤ _ := Nat.le_add_right _ _
  · intro hle
    by_contra hn
    have hlt := beNat_lt bs
    have := Nat.pow_le_pow_right (n := 256) (by decide) (not_lt.mp hn)
    omega

/-- Both halves must be in range; if not, the signature is zeroed. -/
def secp256k1_ecdsa_signature_parse_compact (input64 : Bytes) : Bool × Signature :=
  let r := beNat (input64.take 32)
  let s := beNat (input64.drop 32)
  if r < SECP256K1_N ∧ s < SECP256K1_N then (true,⟨r,s⟩) else (false,⟨0,0⟩)

/-- A result means `return 1`. -/
def ecdsa_signature_parse_der_lax (input : Bytes) : Lax Signature := do
  let (overflow,tmpsig) ← extract input
  let parsed := secp256k1_ecdsa_signature_parse_compact tmpsig
  if overflow || !parsed.1 then
    return (secp256k1_ecdsa_signature_parse_compact (List.replicate 64 0)).2
  else return parsed.2

/-- Either `P` of what is returned, or `return 0`. -/
inductive Inside {α : Type} (P : α → Prop) : Lax α → Prop
  | ok {a : α} (h : P a) : Inside P (.ok a)
  | returnsZero : Inside P (.error .returnsZero)

section
variable {α β : Type} {P : α → Prop} {Q : β → Prop}

theorem Inside.bind {x : Lax α} {f : α → Lax β} (hx : Inside P x)
    (hf : ∀ a, P a → Inside Q (f a)) : Inside Q (x >>= f) := by
  cases hx with
  | ok h => exact hf _ h
  | returnsZero => exact .returnsZero

theorem Inside.mono {P' : α → Prop} {x : Lax α} (hx : Inside P x) (h : ∀ a, P a → P' a) :
    Inside P' x := by
  cases hx with
  | ok ha => exact .ok (h _ ha)
  | returnsZero => exact .returnsZero

theorem Inside.ite {c : Prop} [Decidable c] {x y : Lax α} (hx : c → Inside P x)
    (hy : ¬ c → Inside P y) : Inside P (if c then x else y) := by
  split_ifs with h
  · exact hx h
  · exact hy h

end

variable {input : Bytes}

theorem inputAt_eq {pos : ℕ} {b : UInt8} (h : input[pos]? = some b) :
    inputAt input pos = .ok b := by
  rw [inputAt,h]

theorem inside_inputAt {pos : ℕ} (h : pos < input.length) :
    Inside (fun _ => True) (inputAt input pos) := by
  rw [inputAt_eq (List.getElem?_eq_getElem h)]
  exact .ok trivial

theorem inside_skipTag {tag : UInt8} {pos : ℕ} (h : pos ≤ input.length) :
    Inside (· ≤ input.length) (skipTag input tag pos) := by
  refine .ite (fun _ => .returnsZero) fun hpos => ?_
  have hlt : pos < input.length := by omega
  exact (inside_inputAt hlt).bind fun b _ => .ite (fun _ => .returnsZero) fun _ => .ok hlt

theorem inside_lengthByte {pos : ℕ} (h : pos ≤ input.length) :
    Inside (fun r => r.1 < 256 ∧ r.2 ≤ input.length) (lengthByte input pos) := by
  refine .ite (fun _ => .returnsZero) fun hpos => ?_
  have hlt : pos < input.length := by omega
  exact (inside_inputAt hlt).bind fun b _ => .ok ⟨b.toNat_lt,hlt⟩

theorem inside_skipZeros {len pos : ℕ} (h : pos + len ≤ input.length) :
    Inside (fun r => r.2 + r.1 = pos + len) (skipZeros input len pos) := by
  induction len generalizing pos with
  | zero => exact .ok rfl
  | succ len ih =>
    refine (inside_inputAt (by omega)).bind fun b _ => .ite (fun _ => ?_) fun _ => .ok rfl
    have hnext := @ih (pos + 1) (by omega)
    rwa [Nat.add_right_comm] at hnext

theorem inside_readLength {lenbyte pos len : ℕ} (h : pos + lenbyte ≤ input.length) :
    Inside (fun r => r.2 = pos + lenbyte) (readLength input lenbyte pos len) := by
  induction lenbyte generalizing pos len with
  | zero => exact .ok rfl
  | succ lenbyte ih =>
    refine (inside_inputAt (by omega)).bind fun b _ => ?_
    have hnext := @ih (pos + 1) ((len <<< 8 % 2^64 + b.toNat) % 2^64) (by omega)
    rwa [Nat.add_right_comm] at hnext

section
variable (hin : input.length < 2^63)
include hin

/-- Here the sum of position and length is the real one: an input is far shorter than `2^64`. -/
theorem inside_longEnd {pos lenbyte : ℕ} (h : pos ≤ input.length) (hlen : lenbyte < 2^63) :
    Inside (fun e => e = pos + lenbyte ∧ e ≤ input.length) (longEnd input pos lenbyte) := by
  have hmod : (pos + lenbyte) % 2^64 = pos + lenbyte := Nat.mod_eq_of_lt (by omega)
  rw [longEnd,hmod]
  exact .ite (fun _ => .returnsZero) fun hle => .ok ⟨rfl,not_lt.mp hle⟩

theorem inside_sequence : Inside (· ≤ input.length) (sequence input) := by
  refine (inside_skipTag (Nat.zero_le _)).bind fun pos hpos => ?_
  refine (inside_lengthByte hpos).bind ?_
  rintro ⟨lenbyte,pos⟩ ⟨hbyte,hpos⟩
  dsimp only at hbyte hpos ⊢
  refine .ite (fun _ => ?_) fun _ => .ok hpos
  exact (inside_longEnd hin hpos (by omega)).mono fun e he => he.2

theorem inside_integerLength {pos : ℕ} (h : pos ≤ input.length) :
    Inside (fun r => r.2 ≤ input.length) (integerLength input pos) := by
  refine (inside_lengthByte h).bind ?_
  rintro ⟨lenbyte,pos⟩ ⟨hbyte,hpos⟩
  dsimp only at hbyte hpos ⊢
  refine .ite (fun _ => ?_) fun _ => .ok hpos
  refine (inside_longEnd hin hpos (by omega)).bind fun e he => ?_
  refine (inside_skipZeros (he.1 ▸ he.2)).bind ?_
  rintro ⟨left,pos'⟩ hleft
  dsimp only at hleft ⊢
  refine .ite (fun _ => .returnsZero) fun _ => ?_
  exact (inside_readLength (by omega)).mono fun r hr => by omega

theorem inside_integer {pos : ℕ} (h : pos ≤ input.length) :
    Inside (fun r => r.1 + r.2.1 = r.2.2 ∧ r.2.2 ≤ input.length) (integer input pos) := by
  refine (inside_skipTag h).bind fun pos hpos => ?_
  refine (inside_integerLength hin hpos).bind ?_
  rintro ⟨len,pos⟩ hpos
  dsimp only at hpos ⊢
  refine .ite (fun _ => .returnsZero) fun hle => .ok ⟨rfl,?_⟩
  dsimp only
  omega

omit hin in
theorem inside_copyValue {last len pos : ℕ} (h : pos + len ≤ input.length) (r : Bool × Bytes) :
    Inside (fun _ => True) (copyValue input last len pos r) := by
  refine .ite (fun _ => .ok trivial) fun _ => ?_
  rw [inputRange,if_pos h]
  exact .ok trivial

theorem inside_extract : Inside (fun _ => True) (extract input) := by
  refine (inside_sequence hin).bind fun pos hpos => ?_
  refine (inside_integer hin hpos).bind ?_
  rintro ⟨rpos,rlen,pos⟩ ⟨hr,hpos⟩
  refine (inside_integer hin hpos).bind ?_
  rintro ⟨spos,slen,pos'⟩ ⟨hs,hpos'⟩
  dsimp only at hr hpos hs hpos' ⊢
  refine (inside_skipZeros (by omega)).bind ?_
  rintro ⟨rlen',rpos'⟩ hr'
  dsimp only at hr' ⊢
  refine (inside_copyValue (by omega) _).bind fun r _ => ?_
  refine (inside_skipZeros (by omega)).bind ?_
  rintro ⟨slen',spos'⟩ hs'
  exact inside_copyValue (by dsimp only at hs' ⊢; omega) _

theorem parse_inside : ecdsa_signature_parse_der_lax input ≠ .error .outside := by
  have h : Inside (fun _ => True) (ecdsa_signature_parse_der_lax input) := by
    refine (inside_extract hin).bind ?_
    rintro ⟨overflow,tmpsig⟩ -
    exact .ite (fun _ => .ok trivial) fun _ => .ok trivial
  intro hout
  rw [hout] at h
  cases h

end

theorem skipTag_eq {tag : UInt8} {pos : ℕ} (h : input[pos]? = some tag) :
    skipTag input tag pos = .ok (pos + 1) := by
  have hlt := (List.getElem?_eq_some_iff.mp h).1
  rw [skipTag,if_neg hlt.ne,inputAt_eq h]
  exact if_neg (not_not.mpr rfl)

theorem lengthByte_eq {pos : ℕ} {b : UInt8} (h : input[pos]? = some b) :
    lengthByte input pos = .ok (b.toNat,pos + 1) := by
  have hlt := (List.getElem?_eq_some_iff.mp h).1
  rw [lengthByte,if_neg hlt.ne,inputAt_eq h]
  rfl

theorem short_length {n : ℕ} (h : n < 128) : ¬ n &&& 0x80 ≠ 0 := by
  rw [not_not,show (0x80 : ℕ) = 2^7 from rfl,Nat.and_two_pow,Nat.testBit_lt_two_pow h]
  rfl

theorem sequence_eq {b : UInt8} (h0 : input[0]? = some 0x30) (h1 : input[1]? = some b)
    (hb : b.toNat < 128) : sequence input = .ok 2 := by
  rw [sequence,skipTag_eq h0]
  change (lengthByte input 1 >>= _) = _
  rw [lengthByte_eq h1]
  exact if_neg (short_length hb)

theorem integer_eq {pos : ℕ} {b : UInt8} (h0 : input[pos]? = some 0x02)
    (h1 : input[pos + 1]? = some b) (hb : b.toNat < 128)
    (hend : pos + 2 + b.toNat ≤ input.length) :
    integer input pos = .ok (pos + 2,b.toNat,pos + 2 + b.toNat) := by
  have hlen : integerLength input (pos + 1) = .ok (b.toNat,pos + 2) := by
    rw [integerLength,lengthByte_eq h1]
    exact if_neg (short_length hb)
  rw [integer,skipTag_eq h0]
  change (integerLength input (pos + 1) >>= _) = _
  rw [hlen]
  exact if_neg (by omega)

theorem skipZeros_eq {len pos : ℕ} (h : pos + len ≤ input.length) :
    ∃ len' pos', skipZeros input len pos = .ok (len',pos') ∧ pos' + len' = pos + len ∧
      beNat ((input.drop pos').take len') = beNat ((input.drop pos).take len) ∧
      ∀ b rest, (input.drop pos').take len' = b::rest → b ≠ 0 := by
  induction len generalizing pos with
  | zero => exact ⟨0,pos,rfl,rfl,rfl,fun b rest h => by simp at h⟩
  | succ len ih =>
    have hlt : pos < input.length := by omega
    have hcons : (input.drop pos).take (len + 1) =
        input[pos]::(input.drop (pos + 1)).take len := by
      rw [List.drop_eq_getElem_cons hlt,List.take_succ_cons]
    rw [skipZeros,inputAt_eq (List.getElem?_eq_getElem hlt)]
    by_cases hb : input[pos] = 0
    · obtain ⟨len',pos',heq,hsum,hval,hfirst⟩ := @ih (pos + 1) (by omega)
      refine ⟨len',pos',(if_pos hb).trans heq,by omega,hval.trans ?_,hfirst⟩
      rw [hcons,beNat_cons,hb]
      simp
    · refine ⟨len + 1,pos,if_neg hb,rfl,rfl,?_⟩
      rintro b rest heq rfl
      rw [hcons] at heq
      exact hb (List.cons.inj heq).1

/-- A value in the 32 bytes it is copied to; none of one that needs more. -/
def half (value : Bytes) : Bytes :=
  if value.length > 32 then List.replicate 32 0
  else List.replicate (32 - value.length) 0 ++ value

@[simp] theorem length_half (value : Bytes) : (half value).length = 32 := by
  unfold half
  split_ifs with h
  · simp
  · simp
    omega

theorem beNat_half {value : Bytes} (h : value.length ≤ 32) : beNat (half value) = beNat value := by
  rw [half,if_neg (by omega),beNat_zeros]

theorem copyValue_eq {last len pos : ℕ} (h : pos + len ≤ input.length) (r : Bool × Bytes) :
    copyValue input last len pos r = .ok (r.1 || decide (len > 32),
      if len > 32 then r.2 else writeAt r.2 (last - len) ((input.drop pos).take len)) := by
  unfold copyValue
  split_ifs with hlen
  · simp [hlen]
  · rw [inputRange,if_pos h]
    simp [hlen]

theorem writeAt_half {before value : Bytes} {n : ℕ} (hv : value.length ≤ 32) :
    writeAt (before ++ List.replicate (32 + n) 0) (before.length + 32 - value.length) value =
      before ++ half value ++ List.replicate n 0 := by
  have hpos : before.length + 32 - value.length = before.length + (32 - value.length) := by omega
  rw [writeAt,hpos,List.take_length_add_append,List.take_replicate,Nat.add_assoc,
    List.drop_length_add_append,List.drop_replicate,Nat.sub_add_cancel hv,
    Nat.min_eq_left (by omega),half,if_neg (by omega),Nat.add_sub_cancel_left]
  simp

/-- Copying an integer fills the next 32 bytes with its value, or reports it as too long. -/
theorem skip_copy_eq {before : Bytes} {len pos last : ℕ} (n : ℕ) (h : pos + len ≤ input.length)
    (hlast : last = before.length + 32) (overflow : Bool) :
    let v := beNat ((input.drop pos).take len)
    ∃ len' pos' value, skipZeros input len pos = .ok (len',pos') ∧
      copyValue input last len' pos' (overflow,before ++ List.replicate (32 + n) 0) =
        .ok (overflow || decide (2^256 ≤ v),before ++ value ++ List.replicate n 0) ∧
      value.length = 32 ∧ (v < 2^256 → beNat value = v) := by
  intro v
  obtain ⟨len',pos',heq,hsum,hval,hfirst⟩ := skipZeros_eq h
  have hlen : ((input.drop pos').take len').length = len' := by
    rw [List.length_take,List.length_drop]
    omega
  have hbig : len' > 32 ↔ 2^256 ≤ v := by
    have hiff := length_lt_iff_beNat hfirst 32
    rwa [hlen,hval,show 256^32 = 2^256 by norm_num] at hiff
  refine ⟨len',pos',half ((input.drop pos').take len'),heq,?_,length_half _,fun hv => ?_⟩
  · rw [copyValue_eq (by omega)]
    simp only [hbig]
    refine congrArg (fun b => Except.ok (overflow || decide (2^256 ≤ v),b)) ?_
    split_ifs with hle
    · rw [half,if_pos (by rw [hlen]; exact hbig.mpr hle),List.append_assoc,
        List.replicate_append_replicate]
    · have hle32 : ((input.drop pos').take len').length ≤ 32 := by
        rw [hlen]
        exact not_lt.mp (hbig.not.mpr hle)
      rw [← writeAt_half hle32,hlen,hlast]
  · rw [beNat_half (by rw [hlen]; exact not_lt.mp (hbig.not.mpr (not_le.mpr hv))),hval]

/-- The two integers of the strict format, between their headers and the hash type byte. -/
def strictR (sig : valtype) : ℕ := beNat ((sig.drop 4).take (byteAt sig 3).toNat)

def strictS (sig : valtype) : ℕ :=
  beNat ((sig.drop (6 + (byteAt sig 3).toNat)).take
    (byteAt sig (5 + (byteAt sig 3).toNat)).toNat)

theorem of_refusal {c : Prop} [Decidable c] {x : Bool} (h : (if c then false else x) = true) :
    ¬ c ∧ x = true := by
  split_ifs at h with hc
  exact ⟨hc,h⟩

theorem isValidSignatureEncoding_parts {sig : valtype} (h : isValidSignatureEncoding sig = true) :
    9 ≤ sig.length ∧ sig.length ≤ 73 ∧ byteAt sig 0 = 0x30 ∧
      (byteAt sig 1).toNat = sig.length - 3 ∧
      (byteAt sig 3).toNat + (byteAt sig (5 + (byteAt sig 3).toNat)).toNat + 7 = sig.length ∧
      byteAt sig 2 = 0x02 ∧ byteAt sig ((byteAt sig 3).toNat + 4) = 0x02 := by
  obtain ⟨hshort,h⟩ := of_refusal h
  obtain ⟨hlong,h⟩ := of_refusal h
  obtain ⟨hcompound,h⟩ := of_refusal h
  obtain ⟨htotal,h⟩ := of_refusal h
  obtain ⟨-,h⟩ := of_refusal h
  obtain ⟨hsum,h⟩ := of_refusal h
  obtain ⟨hr,h⟩ := of_refusal h
  obtain ⟨-,h⟩ := of_refusal h
  obtain ⟨-,h⟩ := of_refusal h
  obtain ⟨-,h⟩ := of_refusal h
  obtain ⟨hs,h⟩ := of_refusal h
  exact ⟨not_lt.mp hshort,not_lt.mp hlong,not_not.mp hcompound,not_not.mp htotal,not_not.mp hsum,
    not_not.mp hr,not_not.mp hs⟩

theorem getElem?_dropLast_byteAt {sig : valtype} {i : ℕ} {b : UInt8} (h : i + 1 < sig.length)
    (hb : byteAt sig i = b) : sig.dropLast[i]? = some b := by
  rw [List.getElem?_dropLast,if_pos (by omega),← hb,byteAt,List.getD_eq_getElem?_getD,
    List.getElem?_eq_getElem (by omega)]
  rfl

/-- The bytes before the last one are those of the signature without it. -/
theorem take_drop_dropLast {sig : valtype} {pos len : ℕ} (h : pos + len < sig.length) :
    (sig.dropLast.drop pos).take len = (sig.drop pos).take len := by
  rw [List.dropLast_eq_take,List.drop_take,List.take_take,Nat.min_eq_left (by omega)]

/-- The lax parser finds both integers of a strictly encoded signature. -/
theorem extract_of_strict {sig : valtype} (h : isValidSignatureEncoding sig = true) :
    ∃ rbytes sbytes,
      extract sig.dropLast =
        .ok (decide (2^256 ≤ strictR sig) || decide (2^256 ≤ strictS sig),rbytes ++ sbytes) ∧
      rbytes.length = 32 ∧ sbytes.length = 32 ∧
      (strictR sig < 2^256 → beNat rbytes = strictR sig) ∧
      (strictS sig < 2^256 → beNat sbytes = strictS sig) := by
  obtain ⟨hshort,hlong,h0,h1,hsum,h2,h4⟩ := isValidSignatureEncoding_parts h
  set lenR := byteAt sig 3 with hR
  set lenS := byteAt sig (5 + lenR.toNat) with hS
  have hlen : sig.dropLast.length = sig.length - 1 := List.length_dropLast
  have hseq : sequence sig.dropLast = .ok 2 :=
    sequence_eq (getElem?_dropLast_byteAt (by omega) h0) (getElem?_dropLast_byteAt (by omega) rfl)
      (by omega)
  have hr : integer sig.dropLast 2 = .ok (4,lenR.toNat,4 + lenR.toNat) :=
    integer_eq (getElem?_dropLast_byteAt (by omega) h2)
      (getElem?_dropLast_byteAt (by omega) hR.symm) (by omega) (by omega)
  have hs : integer sig.dropLast (4 + lenR.toNat) =
      .ok (6 + lenR.toNat,lenS.toNat,6 + lenR.toNat + lenS.toNat) := by
    have hpos : 4 + lenR.toNat + 2 = 6 + lenR.toNat := by omega
    have htag : byteAt sig (4 + lenR.toNat) = 0x02 := by rwa [Nat.add_comm]
    have hbyte : byteAt sig (4 + lenR.toNat + 1) = lenS := by
      rw [hS]
      congr 1
      omega
    rw [← hpos]
    exact integer_eq (getElem?_dropLast_byteAt (by omega) htag)
      (getElem?_dropLast_byteAt (by omega) hbyte) (by omega) (by omega)
  obtain ⟨rlen,rpos,rbytes,hrskip,hrcopy,hrlen,hrval⟩ := @skip_copy_eq sig.dropLast []
    lenR.toNat 4 32 32 (by omega) rfl false
  obtain ⟨slen,spos,sbytes,hsskip,hscopy,hslen,hsval⟩ := @skip_copy_eq sig.dropLast rbytes
    lenS.toNat (6 + lenR.toNat) 64 0 (by omega) (by omega)
    (decide (2^256 ≤ strictR sig))
  rw [take_drop_dropLast (by omega)] at hrcopy hrval hscopy hsval
  refine ⟨rbytes,sbytes,?_,hrlen,hslen,hrval,hsval⟩
  simp only [extract,Run.bind_ok]
  refine ⟨2,hseq,_,hr,_,hs,_,hrskip,_,hrcopy,_,hsskip,hscopy.trans ?_⟩
  rw [List.replicate_zero,List.append_nil]
  rfl

/-- The signature the lax parser returns for a strictly encoded one: the two integers, or the
zero signature if one is out of range. -/
theorem parse_of_strict {sig : valtype} (h : isValidSignatureEncoding sig = true) :
    ecdsa_signature_parse_der_lax sig.dropLast =
      .ok (if strictR sig < SECP256K1_N ∧ strictS sig < SECP256K1_N
        then ⟨strictR sig,strictS sig⟩ else ⟨0,0⟩) := by
  obtain ⟨rbytes,sbytes,hextract,hrlen,hslen,hr,hs⟩ := extract_of_strict h
  have hN : SECP256K1_N < 2^256 := by decide
  have hzero : (secp256k1_ecdsa_signature_parse_compact (List.replicate 64 0)).2 = ⟨0,0⟩ := by
    decide
  rw [ecdsa_signature_parse_der_lax,hextract]
  change (if _ then _ else _) = _
  by_cases hbig : 2^256 ≤ strictR sig ∨ 2^256 ≤ strictS sig
  · have hover : (decide (2^256 ≤ strictR sig) || decide (2^256 ≤ strictS sig)) = true := by
      rw [Bool.or_eq_true,decide_eq_true_eq,decide_eq_true_eq]
      exact hbig
    rw [hover,Bool.true_or,if_pos rfl,if_neg (by omega),hzero]
    rfl
  · have hover : (decide (2^256 ≤ strictR sig) || decide (2^256 ≤ strictS sig)) = false := by
      rw [Bool.or_eq_false_iff,decide_eq_false_iff_not,decide_eq_false_iff_not]
      exact not_or.mp hbig
    have hparse : secp256k1_ecdsa_signature_parse_compact (rbytes ++ sbytes) =
        if strictR sig < SECP256K1_N ∧ strictS sig < SECP256K1_N
          then (true,⟨strictR sig,strictS sig⟩) else (false,⟨0,0⟩) := by
      rw [secp256k1_ecdsa_signature_parse_compact,← hrlen,List.take_left,List.drop_left,
        hr (by omega),hs (by omega)]
    rw [hover,hparse]
    by_cases hrange : strictR sig < SECP256K1_N ∧ strictS sig < SECP256K1_N
    · rw [if_pos hrange,if_pos hrange]
      rfl
    · rw [if_neg hrange,if_neg hrange]
      exact congrArg Except.ok hzero

/-- The lax parser never reads outside an input that a vector can hold; and it reads a strictly
encoded signature as the integers R and S, with an overflow exactly if one of them does not fit
into 32 bytes. -/
theorem lax_agrees :
    (∀ input : Bytes, input.length < 2^63 →
      ecdsa_signature_parse_der_lax input ≠ .error .outside) ∧
    ∀ sig : valtype, isValidSignatureEncoding sig = true →
      (∃ rbytes sbytes,
        extract sig.dropLast =
          .ok (decide (2^256 ≤ strictR sig) || decide (2^256 ≤ strictS sig),rbytes ++ sbytes) ∧
        rbytes.length = 32 ∧ sbytes.length = 32 ∧
        (strictR sig < 2^256 → beNat rbytes = strictR sig) ∧
        (strictS sig < 2^256 → beNat sbytes = strictS sig)) ∧
      ecdsa_signature_parse_der_lax sig.dropLast =
        .ok (if strictR sig < SECP256K1_N ∧ strictS sig < SECP256K1_N
          then ⟨strictR sig,strictS sig⟩ else ⟨0,0⟩) :=
  ⟨fun _ hin => parse_inside hin,fun _ h => ⟨extract_of_strict h,parse_of_strict h⟩⟩

/-- R = 5 and S = 7, and a length descriptor that claims 127 bytes. -/
theorem lax_agrees_small :
    ecdsa_signature_parse_der_lax [0x30,6,2,1,5,2,1,7] = .ok ⟨5,7⟩ ∧
      ecdsa_signature_parse_der_lax [0x30,0xff] ≠ .error .outside :=
  ⟨(lax_agrees.2 [0x30,6,2,1,5,2,1,7,1] (by decide)).2.trans (congrArg Except.ok (by decide)),
    lax_agrees.1 [0x30,0xff] (by decide)⟩

end LaxSignature
end Sidechain
