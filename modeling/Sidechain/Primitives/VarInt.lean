import Sidechain.Primitives.Serialize
import Mathlib.Algebra.Order.Ring.Int

/-! Variable-length integers of serialize.h: base 128 with the highest digit first, a bit that says
whether another digit follows, and one taken off for each digit but the last. `ReadVarInt` takes up
digits beyond the width of its type, and what does not fit is lost; which byte strings are encodings
of what is read from them follows from that. -/
namespace Sidechain
open Codec

/-- The digits before the last, at most as many as there is fuel; there are never more than fit the
buffer of the code. -/
def varIntMore : ℕ → ℕ → Bytes
  | 0,_ => []
  | fuel + 1,n =>
    (if n ≤ 0x7F then [] else varIntMore fuel (n / 128 - 1)) ++ [UInt8.ofNat (n % 128 + 128)]

/-- A negative number is at most `0x7F` too, and is not written in full. -/
def writeVarInt (n : ℤ) : Bytes :=
  (if n ≤ 0x7F then [] else varIntMore 9 (n / 128 - 1).toNat) ++ [UInt8.ofNat (n % 128).toNat]

def sizeOfVarIntMore : ℕ → ℕ → ℕ
  | 0,_ => 0
  | fuel + 1,n => (if n ≤ 0x7F then 0 else sizeOfVarIntMore fuel (n / 128 - 1)) + 1

def getSizeOfVarInt (n : ℤ) : ℕ :=
  (if n ≤ 0x7F then 0 else sizeOfVarIntMore 9 (n / 128 - 1).toNat) + 1

/-- The digits are taken up in a number of so many bits. -/
def readVarIntFrom (bits : ℕ) : ℕ → Bytes → Except String (ℕ × Bytes)
  | _,[] => .error "CDataStream::read(): end of data"
  | n,chData::rest =>
    let n := (n * 128 + chData.toNat % 128) % 2^bits
    if chData.toNat ≥ 128 then readVarIntFrom bits ((n + 1) % 2^bits) rest else .ok (n,rest)

def readVarInt (bits : ℕ) : Reader ℕ := readVarIntFrom bits 0

theorem varIntMore_length (fuel n : ℕ) : (varIntMore fuel n).length = sizeOfVarIntMore fuel n := by
  induction fuel generalizing n with
  | zero => rfl
  | succ fuel ih =>
    rw [varIntMore,sizeOfVarIntMore,List.length_append]
    split_ifs
    · rfl
    · rw [ih,List.length_singleton]

@[simp] theorem writeVarInt_length (n : ℤ) : (writeVarInt n).length = getSizeOfVarInt n := by
  rw [writeVarInt,getSizeOfVarInt,List.length_append]
  split_ifs
  · rfl
  · rw [varIntMore_length,List.length_singleton]

/-- A digit that is continued is taken up after the others. -/
theorem readVarIntFrom_digit {bits m n : ℕ} (hm : m * 128 + n % 128 = n) (hbits : n + 1 < 2^bits)
    (rest : Bytes) : readVarIntFrom bits m ([UInt8.ofNat (n % 128 + 128)] ++ rest) =
      readVarIntFrom bits (n + 1) rest := by
  have hbyte : (UInt8.ofNat (n % 128 + 128)).toNat = n % 128 + 128 := by
    rw [UInt8.toNat_ofNat']
    omega
  have hdigit : (n % 128 + 128) % 128 = n % 128 := by omega
  rw [List.singleton_append,readVarIntFrom,hbyte,hdigit,hm,if_pos (by omega),
    Nat.mod_eq_of_lt (a := n) (by omega),Nat.mod_eq_of_lt hbits]

theorem writeVarInt_small {n : ℕ} (h : n ≤ 0x7F) : writeVarInt n = [UInt8.ofNat n] := by
  have hlow : ((n : ℤ) % 128).toNat = n := by omega
  rw [writeVarInt,if_pos (by omega),hlow,List.nil_append]

/-- After the digits of a number that is continued, one more than it has been read. -/
theorem readVarIntFrom_more {bits : ℕ} (fuel : ℕ) {n : ℕ} (hfuel : n < 128^(fuel + 1))
    (hbits : n + 1 < 2^bits) (rest : Bytes) :
    readVarIntFrom bits 0 (varIntMore (fuel + 1) n ++ rest) = readVarIntFrom bits (n + 1) rest := by
  induction fuel generalizing n rest with
  | zero =>
    rw [varIntMore,if_pos (by omega),List.nil_append]
    exact readVarIntFrom_digit (by omega) hbits rest
  | succ fuel ih =>
    rw [varIntMore,List.append_assoc]
    split_ifs with hshort
    · exact readVarIntFrom_digit (by omega) hbits rest
    · rw [pow_succ] at hfuel
      rw [ih (n := n / 128 - 1) (by omega) (by omega)]
      exact readVarIntFrom_digit (by omega) hbits rest

theorem readVarInt_inverts (bits : ℕ) :
    Inverts (readVarInt bits) (fun n : ℕ => writeVarInt n) (fun n => n < 2^bits ∧ n < 2^64) := by
  rintro n ⟨hbits,h64⟩ rest
  have hbyte : (UInt8.ofNat (n % 128)).toNat = n % 128 := by
    rw [UInt8.toNat_ofNat']
    omega
  have hend : ∀ m, m * 128 + n % 128 = n →
      readVarIntFrom bits m ([UInt8.ofNat (n % 128)] ++ rest) = .ok (n,rest) := by
    intro m hm
    rw [List.singleton_append,readVarIntFrom,hbyte,Nat.mod_mod,hm,if_neg (by omega),
      Nat.mod_eq_of_lt hbits]
  have hlow : ((n : ℤ) % 128).toNat = n % 128 := by omega
  have hhigh : ((n : ℤ) / 128 - 1).toNat = n / 128 - 1 := by omega
  change readVarIntFrom bits 0 (writeVarInt n ++ rest) = _
  rw [writeVarInt,hlow,hhigh]
  split_ifs with hshort
  · exact hend 0 (by omega)
  · rw [List.append_assoc,readVarIntFrom_more 8 (by omega) (by omega)]
    exact hend _ (by omega)

/-- The unsigned integer types that are written as variable-length integers. -/
inductive UnsignedType where
  | uint8
  | uint16
  | uint32
  | uint64
  deriving DecidableEq, Repr

def UnsignedType.bits : UnsignedType → ℕ
  | .uint8 => 8
  | .uint16 => 16
  | .uint32 => 32
  | .uint64 => 64

theorem UnsignedType.two_pow_le (I : UnsignedType) : 2^I.bits ≤ 2^64 := by
  cases I <;> decide

/-- The digits before the last, with one added to each. -/
def varIntMoreNumber (n : ℕ) (a : Bytes) : ℕ := a.foldl (fun n b => n * 128 + (b.toNat % 128 + 1)) n

/-- The number that the comment on the format gives a sequence of bytes, whatever its size. -/
def varIntNumber (a : Bytes) : ℕ :=
  varIntMoreNumber 0 a.dropLast * 128 + (a.getLastD 0).toNat % 128

/-- All bytes but the last have bit 128 set. -/
def IsVarInt (a : Bytes) : Prop :=
  ∃ more last, a = more ++ [last] ∧ (∀ b ∈ more, 128 ≤ b.toNat) ∧ last.toNat < 128

theorem varIntNumber_append (more : Bytes) {last : UInt8} (hlast : last.toNat < 128) :
    varIntNumber (more ++ [last]) = varIntMoreNumber 0 more * 128 + last.toNat := by
  rw [varIntNumber,List.dropLast_concat,List.getLastD_concat,Nat.mod_eq_of_lt hlast]

theorem readVarIntFrom_shorter {bits n m : ℕ} {a rest : Bytes}
    (h : readVarIntFrom bits n a = .ok (m,rest)) : rest.length < a.length := by
  induction a generalizing n with
  | nil => cases h
  | cons b a ih =>
    rw [readVarIntFrom] at h
    rw [List.length_cons]
    split_ifs at h
    · exact (ih h).trans (Nat.lt_succ_self _)
    · cases h
      exact Nat.lt_succ_self _

theorem isVarInt_of_read {bits n m : ℕ} {a rest : Bytes}
    (h : readVarIntFrom bits n (a ++ rest) = .ok (m,rest)) : IsVarInt a := by
  induction a generalizing n with
  | nil => exact absurd (readVarIntFrom_shorter h) (lt_irrefl _)
  | cons b a ih =>
    rw [List.cons_append,readVarIntFrom] at h
    split_ifs at h with hmore
    · obtain ⟨more,last,rfl,hall,hlast⟩ := ih h
      exact ⟨b::more,last,rfl,List.forall_mem_cons.mpr ⟨hmore,hall⟩,hlast⟩
    · have hnil : a = [] := by
        have hrest : a ++ rest = rest := (Prod.mk.inj (Except.ok.inj h)).2
        simpa using hrest
      subst hnil
      exact ⟨[],b,rfl,(fun _ hx => nomatch hx),Nat.not_le.mp hmore⟩

theorem readVarIntFrom_eq (bits n : ℕ) {more : Bytes} {last : UInt8}
    (hmore : ∀ b ∈ more, 128 ≤ b.toNat) (hlast : last.toNat < 128) (rest : Bytes) :
    readVarIntFrom bits (n % 2^bits) (more ++ last::rest) =
      .ok ((varIntMoreNumber n more * 128 + last.toNat) % 2^bits,rest) := by
  induction more generalizing n with
  | nil =>
    rw [List.nil_append,readVarIntFrom]
    rw [if_neg (Nat.not_le.mpr hlast),Nat.mod_eq_of_lt (a := last.toNat) hlast,varIntMoreNumber,
      List.foldl_nil]
    simp [Nat.add_mod,Nat.mul_mod]
  | cons b more ih =>
    obtain ⟨hb,hmore⟩ := List.forall_mem_cons.mp hmore
    have hnext : ((n % 2^bits * 128 + b.toNat % 128) % 2^bits + 1) % 2^bits =
        (n * 128 + (b.toNat % 128 + 1)) % 2^bits := by
      rw [← Nat.add_assoc]
      simp [Nat.add_mod,Nat.mul_mod]
    rw [List.cons_append,readVarIntFrom]
    rw [if_pos hb,hnext,ih (n * 128 + (b.toNat % 128 + 1)) hmore]
    rfl

theorem readVarInt_eq {bits : ℕ} {a : Bytes} (ha : IsVarInt a) (rest : Bytes) :
    readVarInt bits (a ++ rest) = .ok (varIntNumber a % 2^bits,rest) := by
  obtain ⟨more,last,rfl,hmore,hlast⟩ := ha
  rw [varIntNumber_append more hlast,List.append_assoc,List.singleton_append]
  have h := readVarIntFrom_eq bits 0 hmore hlast rest
  rwa [Nat.zero_mod] at h

theorem varIntMoreNumber_concat (n : ℕ) (more : Bytes) (b : UInt8) :
    varIntMoreNumber n (more ++ [b]) = varIntMoreNumber n more * 128 + (b.toNat % 128 + 1) := by
  rw [varIntMoreNumber,List.foldl_append]
  rfl

/-- Each digit before the last makes the number larger than the next power. -/
theorem varIntMoreNumber_ge {more : Bytes} (hne : more ≠ []) :
    128^(more.length - 1) ≤ varIntMoreNumber 0 more := by
  induction more using List.reverseRecOn with
  | nil => exact absurd rfl hne
  | append_singleton more b ih =>
    rw [varIntMoreNumber_concat,List.length_append,List.length_singleton,Nat.add_sub_cancel]
    by_cases hnil : more = []
    · subst hnil
      simp only [List.length_nil,pow_zero]
      omega
    · have hpos := List.length_pos_of_ne_nil hnil
      have hsucc : more.length = more.length - 1 + 1 := by omega
      rw [hsucc,pow_succ]
      have := ih hnil
      omega

/-- The digits before the last are written back. -/
theorem varIntMore_number {fuel : ℕ} {more : Bytes} (hmore : ∀ b ∈ more, 128 ≤ b.toNat)
    (hne : more ≠ []) (hfuel : more.length ≤ fuel) :
    varIntMore fuel (varIntMoreNumber 0 more - 1) = more := by
  induction more using List.reverseRecOn generalizing fuel with
  | nil => exact absurd rfl hne
  | append_singleton more b ih =>
    rw [List.length_append,List.length_singleton] at hfuel
    obtain ⟨fuel,rfl⟩ : ∃ f, fuel = f + 1 := ⟨fuel - 1,by omega⟩
    have hb : 128 ≤ b.toNat := hmore b (by simp)
    have hlt : b.toNat < 256 := UInt8.toNat_lt b
    have hnumber : varIntMoreNumber 0 (more ++ [b]) - 1 =
        varIntMoreNumber 0 more * 128 + b.toNat % 128 := by
      rw [varIntMoreNumber_concat]
      omega
    have hbyte : UInt8.ofNat ((varIntMoreNumber 0 more * 128 + b.toNat % 128) % 128 + 128) = b := by
      have hdigit : (varIntMoreNumber 0 more * 128 + b.toNat % 128) % 128 + 128 = b.toNat := by omega
      rw [hdigit,UInt8.ofNat_toNat]
    rw [hnumber,varIntMore,hbyte]
    congr 1
    by_cases hnil : more = []
    · subst hnil
      rw [if_pos]
      change 0 * 128 + _ ≤ _
      omega
    · have hone : 1 ≤ varIntMoreNumber 0 more :=
        (Nat.one_le_two_pow.trans (Nat.pow_le_pow_left (by decide) _)).trans
          (varIntMoreNumber_ge hnil)
      have hquot : (varIntMoreNumber 0 more * 128 + b.toNat % 128) / 128 - 1 =
          varIntMoreNumber 0 more - 1 := by omega
      rw [if_neg (by omega),hquot]
      exact ih (fun x hx => hmore x (List.mem_append_left _ hx)) hnil (by omega)

theorem writeVarInt_number {a : Bytes} (ha : IsVarInt a) (hsmall : varIntNumber a < 2^64) :
    writeVarInt (varIntNumber a) = a := by
  obtain ⟨more,last,rfl,hmore,hlast⟩ := ha
  rw [varIntNumber_append more hlast] at hsmall ⊢
  rw [writeVarInt]
  have hlow : (((varIntMoreNumber 0 more * 128 + last.toNat : ℕ) : ℤ) % 128).toNat = last.toNat := by
    omega
  have hhigh : (((varIntMoreNumber 0 more * 128 + last.toNat : ℕ) : ℤ) / 128 - 1).toNat =
      varIntMoreNumber 0 more - 1 := by omega
  rw [hlow,hhigh,UInt8.ofNat_toNat]
  congr 1
  by_cases hnil : more = []
  · subst hnil
    rw [if_pos]
    change ((0 * 128 + last.toNat : ℕ) : ℤ) ≤ _
    omega
  · have hge := varIntMoreNumber_ge hnil
    have hone : 1 ≤ varIntMoreNumber 0 more :=
      (Nat.one_le_two_pow.trans (Nat.pow_le_pow_left (by decide) _)).trans hge
    rw [if_neg (by omega)]
    refine varIntMore_number hmore hnil ?_
    by_contra hlong
    have hpow : 128^9 ≤ 128^(more.length - 1) := Nat.pow_le_pow_right (by decide) (by omega)
    have hnine : 128^9 * 128 > 2^64 := by norm_num
    omega

theorem varIntNumber_writeVarInt {n : ℕ} (h : n < 2^64) : varIntNumber (writeVarInt n) = n := by
  have hread : ∀ bits, n < 2^bits → readVarInt bits (writeVarInt n) = .ok (n,[]) := by
    intro bits hbits
    have hinv := readVarInt_inverts bits n ⟨hbits,h⟩ []
    rwa [List.append_nil] at hinv
  -- a type wide enough for both
  have hwide := hread (n + varIntNumber (writeVarInt n))
    (lt_of_le_of_lt (Nat.le_add_right _ _) Nat.lt_two_pow_self)
  have hread' : readVarInt (n + varIntNumber (writeVarInt n)) (writeVarInt n ++ []) = .ok (n,[]) := by
    rwa [List.append_nil]
  rw [readVarInt_eq (isVarInt_of_read hread'),Nat.mod_eq_of_lt
    (lt_of_le_of_lt (Nat.le_add_left _ _) Nat.lt_two_pow_self)] at hread'
  exact (Prod.mk.inj (Except.ok.inj hread')).1

/-- Every number of a type is read back from its encoding, whose size is told right; and bytes that
are accepted are the encoding of what is read exactly if the number they stand for is one of the
type. -/
theorem varInt_one_to_one (I : UnsignedType) :
    (∀ n : ℕ, n < 2^I.bits → readVarInt I.bits (writeVarInt n) = .ok (n,[]) ∧
      getSizeOfVarInt n = (writeVarInt n).length) ∧
    ∀ (a rest : Bytes) (n : ℕ), readVarInt I.bits (a ++ rest) = .ok (n,rest) →
      (a = writeVarInt n ↔ varIntNumber a < 2^I.bits) := by
  constructor
  · intro n hn
    have hinv := readVarInt_inverts I.bits n ⟨hn,hn.trans_le I.two_pow_le⟩ []
    rw [List.append_nil] at hinv
    exact ⟨hinv,(writeVarInt_length n).symm⟩
  · intro a rest n hread
    have ha := isVarInt_of_read hread
    rw [readVarInt_eq ha] at hread
    obtain ⟨rfl,_⟩ := Prod.mk.inj (Except.ok.inj hread)
    have hlt : varIntNumber a % 2^I.bits < 2^I.bits := Nat.mod_lt _ (Nat.two_pow_pos _)
    constructor
    · intro heq
      rw [heq,varIntNumber_writeVarInt (hlt.trans_le I.two_pow_le)]
      exact hlt
    · intro hsmall
      rw [Nat.mod_eq_of_lt hsmall,writeVarInt_number ha (hsmall.trans_le I.two_pow_le)]

/-- The five bytes of 2^32 are read as an unsigned int of 0. -/
theorem varInt_wraps : readVarInt UnsignedType.uint32.bits [0x8E,0xFE,0xFE,0xFF,0x00] = .ok (0,[]) ∧
    writeVarInt 0 = [0x00] ∧ readVarInt UnsignedType.uint32.bits [0x00] = .ok (0,[]) := by decide

end Sidechain
