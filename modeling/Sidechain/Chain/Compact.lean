import Sidechain.Chain.ArithDivision
import Sidechain.Chain.BlockIndex

/-! The compact form of a big integer, a byte for the length in bytes and the leading digits, and what it
keeps of a number. -/
namespace Sidechain
open Limbs

namespace ArithUint256

/-- `nWord`: the mantissa, less the bytes that an exponent below three drops. -/
def compactWord (nCompact : UInt32) : UInt32 :=
  let nSize := nCompact >>> 24
  let nWord := nCompact &&& 0x007fffff
  if nSize ≤ 3 then nWord >>> (8 * (3 - nSize)) else nWord

/-- `SetCompact`: the number, and whether it is negative and overflows. -/
def setCompact (nCompact : UInt32) : ArithUint256 × Bool × Bool :=
  let nSize := nCompact >>> 24
  let nWord := compactWord nCompact
  let value : ArithUint256 := if nSize ≤ 3 then BaseUint.ofUInt64 nWord.toUInt64
    else (BaseUint.ofUInt64 nWord.toUInt64).shlAssign (8 * (nSize - 3))
  (value,nWord != 0 && nCompact &&& 0x00800000 != 0,
    nWord != 0 && (decide (nSize > 34) || (decide (nWord > 0xff) && decide (nSize > 33)) ||
      (decide (nWord > 0xffff) && decide (nSize > 32))))

/-- `nCompact` before its sign bit is looked at. -/
def leadingWord (a : ArithUint256) (nSize : ℕ) : UInt32 :=
  if nSize ≤ 3 then (a.getLow64 <<< UInt64.ofNat (8 * (3 - nSize))).toUInt32
  else (a.shrAssign (UInt32.ofNat (8 * (nSize - 3)))).getLow64.toUInt32

/-- The assertions of `GetCompact` and the word it returns. -/
def finishCompact (nCompact : UInt32) (nSize : ℕ) (fNegative : Bool) : Outcome UInt32 := do
  require (nCompact &&& ~~~0x007fffff = 0) (.error (.assertion "(nCompact & ~0x007fffff) == 0"))
  require (nSize < 256) (.error (.assertion "nSize < 256"))
  let nCompact := nCompact ||| UInt32.ofNat nSize <<< 24
  pure (nCompact ||| if fNegative && nCompact &&& 0x007fffff != 0 then 0x00800000 else 0)

def getCompact (a : ArithUint256) (fNegative : Bool := false) : Outcome UInt32 :=
  let nSize := (a.bits + 7) / 8
  let nCompact := a.leadingWord nSize
  -- a mantissa that would set the sign bit moves to the next exponent
  if nCompact &&& 0x00800000 ≠ 0 then finishCompact (nCompact >>> 8) (nSize + 1) fNegative
  else finishCompact nCompact nSize fNegative

end ArithUint256

/-- The exponent of a compact word. -/
def compactSize (w : UInt32) : ℕ := w.toNat / 2^24

def compactMantissa (w : UInt32) : ℕ := w.toNat % 2^23

/-- The word of a number: its exact value is the number, with a leading digit as high as it goes and no
sign. -/
structure IsCompact (n : ℕ) (w : UInt32) : Prop where
  sign : w.toNat.testBit 23 = false
  exact : compactMantissa w * 256^compactSize w = n * 256^3
  leading : n ≠ 0 → 0x8000 ≤ compactMantissa w
  zero : n = 0 → w = 0

/-- What is kept of a number: as many leading bytes as fit 23 bits. -/
def compactTruncate (n : ℕ) : ℕ :=
  truncate (show 1 < 256 by decide) (show 0 < 2^23 by decide) n

section
variable (w : UInt32)

theorem size_word : (w >>> 24).toNat = compactSize w := by
  have h : (24 : UInt32).toNat % 32 = 24 := rfl
  rw [UInt32.toNat_shiftRight,h,Nat.shiftRight_eq_div_pow]
  rfl

theorem mantissa_word : (w &&& 0x007fffff).toNat = compactMantissa w := by
  have h : (0x007fffff : UInt32).toNat = 2^23 - 1 := rfl
  rw [UInt32.toNat_and,h,Nat.and_two_pow_sub_one_eq_mod]
  rfl

theorem sign_word : w &&& 0x00800000 ≠ 0 ↔ w.toNat.testBit 23 = true :=
  BaseUint.bit_word (show 23 < 32 by decide) w

theorem compactSize_lt : compactSize w < 256 := by
  have := w.toNat_lt
  rw [compactSize,Nat.div_lt_iff_lt_mul (by decide)]
  omega

theorem compactMantissa_lt : compactMantissa w < 2^23 := Nat.mod_lt _ (by decide)

theorem size_le_iff {n : UInt32} : w >>> 24 ≤ n ↔ compactSize w ≤ n.toNat := by
  rw [UInt32.le_iff_toNat_le,size_word]

theorem toNat_word : (ArithUint256.compactWord w).toNat =
    if compactSize w ≤ 3 then compactMantissa w / 256^(3 - compactSize w) else compactMantissa w := by
  have hthree : (3 : UInt32).toNat = 3 := rfl
  have height : (8 : UInt32).toNat = 8 := rfl
  rw [ArithUint256.compactWord]
  by_cases h : compactSize w ≤ 3
  · have hle : w >>> 24 ≤ 3 := (size_le_iff w).mpr h
    have hshift : ((8 : UInt32) * ((3 : UInt32) - w >>> 24)).toNat = 8 * (3 - compactSize w) := by
      rw [UInt32.toNat_mul,UInt32.toNat_sub_of_le _ _ hle,size_word,hthree,height,
        Nat.mod_eq_of_lt (by omega)]
    rw [if_pos hle,if_pos h,UInt32.toNat_shiftRight,hshift,Nat.mod_eq_of_lt (by omega),
      mantissa_word,Nat.shiftRight_eq_div_pow,pow_mul]
    rfl
  · have hgt : ¬ w >>> 24 ≤ 3 := fun hle => h ((size_le_iff w).mp hle)
    rw [if_neg hgt,if_neg h,mantissa_word]

theorem toNat_setCompact : (ArithUint256.setCompact w).1.toNat =
    if compactSize w ≤ 3 then compactMantissa w / 256^(3 - compactSize w)
    else compactMantissa w * 256^(compactSize w - 3) % 2^256 := by
  have hword := toNat_word w
  have hthree : (3 : UInt32).toNat = 3 := rfl
  have height : (8 : UInt32).toNat = 8 := rfl
  have hsize := compactSize_lt w
  simp only [ArithUint256.setCompact]
  by_cases h : compactSize w ≤ 3
  · have hle : w >>> 24 ≤ 3 := (size_le_iff w).mpr h
    rw [if_pos h] at hword
    rw [if_pos hle,if_pos h,BaseUint.toNat_ofUInt64,UInt32.toNat_toUInt64,hword]
  · have hle : ¬ w >>> 24 ≤ 3 := fun hle => h ((size_le_iff w).mp hle)
    have hge : (3 : UInt32) ≤ w >>> 24 := by
      rw [UInt32.le_iff_toNat_le,size_word,hthree]
      omega
    have hshift : ((8 : UInt32) * (w >>> 24 - 3)).toNat = 8 * (compactSize w - 3) := by
      rw [UInt32.toNat_mul,UInt32.toNat_sub_of_le _ _ hge,size_word,hthree,height,
        Nat.mod_eq_of_lt (by omega)]
    rw [if_neg h] at hword
    rw [if_neg hle,if_neg h,BaseUint.toNat_shlAssign,BaseUint.toNat_ofUInt64,UInt32.toNat_toUInt64,
      hshift,hword,pow_mul]
    rfl

/-- A word overflows if its exact value is at least the power of two. -/
theorem setCompact_overflow : (ArithUint256.setCompact w).2.2 = true ↔
    2^256 * 256^3 ≤ compactMantissa w * 256^compactSize w := by
  have hword := toNat_word w
  have hm := compactMantissa_lt w
  have hgt : ∀ n : UInt32, n < w >>> 24 ↔ n.toNat < compactSize w := fun n => by
    rw [UInt32.lt_iff_toNat_lt,size_word]
  have hbig : (2 : ℕ)^256 * 256^3 = 256^35 := by norm_num
  rw [hbig]
  simp only [ArithUint256.setCompact]
  have hconst : (34 : UInt32).toNat = 34 ∧ (33 : UInt32).toNat = 33 ∧ (32 : UInt32).toNat = 32 ∧
      (0xff : UInt32).toNat = 0xff ∧ (0xffff : UInt32).toNat = 0xffff ∧ (0 : UInt32).toNat = 0 :=
    ⟨rfl,rfl,rfl,rfl,rfl,rfl⟩
  obtain ⟨h34,h33,h32,hff,hffff,hzero⟩ := hconst
  simp only [Bool.and_eq_true,bne_iff_ne,ne_eq,Bool.or_eq_true,decide_eq_true_eq,gt_iff_lt,hgt,
    UInt32.lt_iff_toNat_lt,← UInt32.toNat_inj,h34,h33,h32,hff,hffff,hzero]
  have hpow : ∀ {s : ℕ}, s ≤ 32 → compactMantissa w * 256^s < 256^35 := fun {s} hs => by
    calc compactMantissa w * 256^s ≤ compactMantissa w * 256^32 :=
          Nat.mul_le_mul_left _ (Nat.pow_le_pow_right (by decide) hs)
      _ < 256^3 * 256^32 := Nat.mul_lt_mul_of_pos_right (by omega) (by decide)
      _ = 256^35 := by rw [← pow_add]
  rcases Nat.lt_or_ge 32 (compactSize w) with hlarge | hsmall
  · rw [if_neg (by omega)] at hword
    rw [hword]
    rcases Nat.lt_or_ge 34 (compactSize w) with h35 | hle
    · have hfits : 0 < compactMantissa w → 256^35 ≤ compactMantissa w * 256^compactSize w := fun hpos =>
        le_trans (Nat.pow_le_pow_right (by decide) h35) (Nat.le_mul_of_pos_left _ hpos)
      constructor
      · exact fun h => hfits (Nat.pos_of_ne_zero h.1)
      · intro h
        refine ⟨fun hzero => ?_,.inl (.inl h35)⟩
        rw [hzero,Nat.zero_mul] at h
        exact absurd h (by decide)
    · obtain h | h : compactSize w = 34 ∨ compactSize w = 33 := by omega
      · have hsplit : (256 : ℕ)^35 = 256 * 256^34 := by norm_num
        rw [h,hsplit,Nat.mul_le_mul_right_iff (by decide)]
        omega
      · have hsplit : (256 : ℕ)^35 = 65536 * 256^33 := by norm_num
        rw [h,hsplit,Nat.mul_le_mul_right_iff (by decide)]
        omega
  · exact iff_of_false (by omega) (not_le.mpr (hpow hsmall))

end

/-- The digits of a number from which its mantissa is made when it has the given exponent. -/
def leadingAt (n e : ℕ) : ℕ := n * 256^(3 - e) / 256^(e - 3)

theorem leadingAt_succ (n e : ℕ) : leadingAt n e / 256 = leadingAt n (e + 1) := by
  rw [leadingAt,leadingAt]
  rcases Nat.lt_or_ge e 3 with hlt | hge
  · have hsplit : n * 256^(3 - e) = n * 256^(3 - (e + 1)) * 256 := by
      rw [Nat.mul_assoc,← pow_succ]
      congr 2
      omega
    rw [show e - 3 = 0 by omega,show e + 1 - 3 = 0 by omega,pow_zero,Nat.div_one,Nat.div_one,hsplit,
      Nat.mul_div_cancel _ (by decide)]
  · rw [show 3 - e = 0 by omega,show 3 - (e + 1) = 0 by omega,show e + 1 - 3 = (e - 3) + 1 by omega,
      Nat.div_div_eq_div_mul,← pow_succ]

/-- The number of bytes. -/
def byteLength (n : ℕ) : ℕ := (Nat.size n + 7) / 8

theorem lt_pow_byteLength (n : ℕ) : n < 256^byteLength n := by
  have h : Nat.size n ≤ 8 * byteLength n := by
    rw [byteLength]
    omega
  calc n < 2^Nat.size n := Nat.lt_size_self n
    _ ≤ 2^(8 * byteLength n) := Nat.pow_le_pow_right (by decide) h
    _ = 256^byteLength n := pow_mul 2 8 _

theorem pow_byteLength_le {n b : ℕ} (h : byteLength n = b + 1) : 256^b ≤ n := by
  have hsize : 8 * b < Nat.size n := by
    rw [byteLength] at h
    omega
  calc (256 : ℕ)^b = 2^(8 * b) := (pow_mul 2 8 b).symm
    _ ≤ n := Nat.lt_size.mp hsize

theorem leadingAt_byteLength (n : ℕ) : leadingAt n (byteLength n) < 2^24 ∧
    (n ≠ 0 → 2^16 ≤ leadingAt n (byteLength n)) := by
  have hlt := lt_pow_byteLength n
  obtain ⟨b,hb⟩ : ∃ b, byteLength n = b := ⟨_,rfl⟩
  rw [hb] at hlt ⊢
  have hcases : (256 : ℕ)^3 = 2^24 ∧ (256 : ℕ)^2 = 2^16 := by norm_num
  rw [leadingAt,← hcases.1,← hcases.2]
  constructor
  · rw [Nat.div_lt_iff_lt_mul (Nat.pow_pos (by decide)),← pow_add]
    calc n * 256^(3 - b) < 256^b * 256^(3 - b) :=
          Nat.mul_lt_mul_of_pos_right hlt (Nat.pow_pos (by decide))
      _ = 256^(3 + (b - 3)) := by
        rw [← pow_add]
        congr 1
        omega
  · intro hne
    have hpos : b ≠ 0 := by
      rintro rfl
      rw [pow_zero] at hlt
      omega
    obtain ⟨c,rfl⟩ : ∃ c, b = c + 1 := ⟨b - 1,by omega⟩
    have hle := pow_byteLength_le hb
    rw [Nat.le_div_iff_mul_le (Nat.pow_pos (by decide)),← pow_add]
    calc (256 : ℕ)^(2 + (c + 1 - 3)) = 256^c * 256^(3 - (c + 1)) := by
          rw [← pow_add]
          congr 1
          omega
      _ ≤ _ := Nat.mul_le_mul_right _ hle

theorem compactTruncate_eq {n e : ℕ} (hlt : leadingAt n e < 2^23)
    (hle : n ≠ 0 → 2^15 ≤ leadingAt n e) (hzero : n = 0 → e = 0) :
    leadingAt n e * 256^e = compactTruncate n * 256^3 := by
  rcases Nat.lt_or_ge 3 e with hgt | hsmall
  · obtain ⟨k,rfl⟩ : ∃ k, e = k + 4 := ⟨e - 4,by omega⟩
    have hne : n ≠ 0 := fun h => by have := hzero h; omega
    have hlead : leadingAt n (k + 4) = n / 256^(k + 1) := by
      rw [leadingAt,show 3 - (k + 4) = 0 by omega,show k + 4 - 3 = k + 1 by omega,pow_zero,Nat.mul_one]
    rw [hlead] at hlt hle ⊢
    have hdropped := dropped_eq (show 1 < 256 by decide) (show 0 < 2^23 by decide) hlt (fun j hj => by
      obtain rfl : j = k := by omega
      have hbig := hle hne
      rw [Nat.le_div_iff_mul_le (Nat.pow_pos (by decide))] at hbig ⊢
      calc 2^23 * 256^j = 2^15 * 256^(j + 1) := by rw [pow_succ]; ring
        _ ≤ n := hbig)
    rw [compactTruncate,truncate,hdropped,pow_succ 256 (k + 3)]
    ring
  · have hlead : leadingAt n e = n * 256^(3 - e) := by
      rw [leadingAt,show e - 3 = 0 by omega,pow_zero,Nat.div_one]
    have hfits : n < 2^23 := lt_of_le_of_lt (Nat.le_mul_of_pos_right n (Nat.pow_pos (by decide)))
      (hlead ▸ hlt)
    have hself := truncate_eq_self (show 1 < 256 by decide) (show 0 < 2^23 by decide) (k := 0) hfits
    rw [pow_zero,Nat.mul_one] at hself
    rw [hlead,compactTruncate,hself,Nat.mul_assoc,← pow_add,show 3 - e + e = 3 by omega]

theorem word_parts {c : UInt32} {e : ℕ} (hc : c.toNat < 2^23) (he : e < 256) :
    compactMantissa (c ||| UInt32.ofNat e <<< 24) = c.toNat ∧
      compactSize (c ||| UInt32.ofNat e <<< 24) = e ∧
      (c ||| UInt32.ofNat e <<< 24).toNat.testBit 23 = false := by
  have hshift : (24 : UInt32).toNat % 32 = 24 := rfl
  have hsize : UInt32.size = 2^32 := rfl
  have hnat : (c ||| UInt32.ofNat e <<< 24).toNat = 2^24 * e + c.toNat := by
    rw [UInt32.toNat_or,UInt32.toNat_shiftLeft,hshift,UInt32.toNat_ofNat_of_lt' (by omega),
      Nat.shiftLeft_eq,Nat.mod_eq_of_lt (by omega),Nat.or_comm,Nat.mul_comm,
      ← Nat.two_pow_add_eq_or_of_lt (by omega)]
  rw [compactMantissa,compactSize,hnat,Nat.testBit_two_pow_mul_add _ (by omega),if_pos (by decide)]
  refine ⟨by omega,by omega,Nat.testBit_lt_two_pow hc⟩

/-- Every mantissa that leaves the sign bit clear passes the assertion. -/
theorem mantissa_fits {c : UInt32} (hc : c.toNat < 2^23) : c &&& ~~~0x007fffff = 0 := by
  have hmask : c &&& 0x007fffff = c := by
    rw [← UInt32.toNat_inj,mantissa_word,compactMantissa,Nat.mod_eq_of_lt hc]
  rw [← hmask,UInt32.and_assoc,UInt32.and_not_self,UInt32.and_zero]

theorem isCompact_word {n e : ℕ} {c : UInt32} (hc : c.toNat = leadingAt n e) (he : e < 256)
    (hlt : leadingAt n e < 2^23) (hle : n ≠ 0 → 2^15 ≤ leadingAt n e) (hzero : n = 0 → e = 0) :
    IsCompact (compactTruncate n) (c ||| UInt32.ofNat e <<< 24) := by
  obtain ⟨hm,hs,hsign⟩ := word_parts (hc ▸ hlt) he
  have hexact := compactTruncate_eq hlt hle hzero
  refine ⟨hsign,by rw [hm,hs,hc,hexact],fun hne => ?_,fun htrunc => ?_⟩
  · rw [hm,hc]
    refine hle fun h => hne ?_
    rw [h]
    exact Nat.le_zero.mp (truncate_le _ _ 0)
  · have hn : n = 0 := by
      by_contra hne
      have hpos := hle hne
      rw [htrunc,Nat.zero_mul] at hexact
      have hprod := Nat.mul_pos (show 0 < leadingAt n e by omega) (Nat.pow_pos (by decide) : 0 < 256^e)
      omega
    have hc0 : c = 0 := by
      rw [← UInt32.toNat_inj,hc,hn,leadingAt,Nat.zero_mul,Nat.zero_div]
      rfl
    rw [hc0,hzero hn]
    rfl

namespace ArithUint256

theorem toNat_leadingWord (a : ArithUint256) :
    (a.leadingWord (byteLength a.toNat)).toNat = leadingAt a.toNat (byteLength a.toNat) := by
  obtain ⟨hlead,_⟩ := leadingAt_byteLength a.toNat
  have hlt := lt_pow_byteLength a.toNat
  have hshort : byteLength a.toNat ≤ 32 := by
    have hsize : Nat.size a.toNat ≤ 256 := Nat.size_le.mpr (BaseUint.toNat_lt a)
    rw [byteLength]
    omega
  rw [leadingWord]
  split_ifs with h
  · have hlow : a.toNat < 2^24 := by
      calc a.toNat < 256^byteLength a.toNat := hlt
        _ ≤ 256^3 := Nat.pow_le_pow_right (by decide) h
        _ = 2^24 := by norm_num
    have hword : (UInt64.ofNat (8 * (3 - byteLength a.toNat))).toNat = 8 * (3 - byteLength a.toNat) :=
      UInt64.toNat_ofNat_of_lt' (by
        have hsize : UInt64.size = 2^64 := rfl
        omega)
    have hvalue : a.toNat <<< (8 * (3 - byteLength a.toNat)) = leadingAt a.toNat (byteLength a.toNat) := by
      rw [leadingAt,show byteLength a.toNat - 3 = 0 by omega,pow_zero,Nat.div_one,Nat.shiftLeft_eq,
        pow_mul]
      rfl
    rw [UInt64.toNat_toUInt32,UInt64.toNat_shiftLeft,hword,BaseUint.toNat_getLow64,
      Nat.mod_eq_of_lt (show 8 * (3 - byteLength a.toNat) < 64 by omega),
      Nat.mod_eq_of_lt (show a.toNat < 2^64 by omega),hvalue,Nat.mod_eq_of_lt (by omega),
      Nat.mod_eq_of_lt (by omega)]
  · have hword : (UInt32.ofNat (8 * (byteLength a.toNat - 3))).toNat = 8 * (byteLength a.toNat - 3) :=
      UInt32.toNat_ofNat_of_lt' (by
        have hsize : UInt32.size = 2^32 := rfl
        omega)
    have hvalue : a.toNat / 2^(8 * (byteLength a.toNat - 3)) =
        leadingAt a.toNat (byteLength a.toNat) := by
      rw [leadingAt,show 3 - byteLength a.toNat = 0 by omega,pow_zero,Nat.mul_one,pow_mul]
      rfl
    rw [UInt64.toNat_toUInt32,BaseUint.toNat_getLow64,BaseUint.toNat_shrAssign,hword,hvalue,
      Nat.mod_eq_of_lt (show leadingAt a.toNat (byteLength a.toNat) < 2^64 by omega),
      Nat.mod_eq_of_lt (by omega)]

/-- What is returned when the mantissa leaves the sign bit clear. -/
theorem finishCompact_spec {n e : ℕ} {c : UInt32} (hc : c.toNat = leadingAt n e) (he : e < 256)
    (hlt : leadingAt n e < 2^23) (hle : n ≠ 0 → 2^15 ≤ leadingAt n e) (hzero : n = 0 → e = 0)
    (fNegative : Bool) : ∃ w, IsCompact (compactTruncate n) w ∧ finishCompact c e fNegative =
      .ok (w ||| if fNegative && w &&& 0x007fffff != 0 then 0x00800000 else 0) := by
  refine ⟨_,isCompact_word hc he hlt hle hzero,?_⟩
  rw [finishCompact,require,if_pos (mantissa_fits (hc ▸ hlt)),require,if_pos he]
  rfl

/-- No assertion fails, and the word is that of the number's leading bytes. -/
theorem getCompact_spec (a : ArithUint256) (fNegative : Bool) :
    ∃ w, IsCompact (compactTruncate a.toNat) w ∧ a.getCompact fNegative =
      .ok (w ||| if fNegative && w &&& 0x007fffff != 0 then 0x00800000 else 0) := by
  obtain ⟨hlt,hle⟩ := leadingAt_byteLength a.toNat
  have hlead := toNat_leadingWord a
  have hshort : byteLength a.toNat ≤ 32 := by
    have hsize : Nat.size a.toNat ≤ 256 := Nat.size_le.mpr (BaseUint.toNat_lt a)
    rw [byteLength]
    omega
  have hbyte : (a.bits + 7) / 8 = byteLength a.toNat := by rw [BaseUint.bits_eq,byteLength]
  unfold getCompact
  dsimp only
  rw [hbyte]
  generalize a.leadingWord (byteLength a.toNat) = c at hlead ⊢
  split_ifs with hbit
  · have hhigh : 2^23 ≤ c.toNat := Nat.ge_two_pow_of_testBit ((sign_word c).mp hbit)
    have hshift : (c >>> 8).toNat = leadingAt a.toNat (byteLength a.toNat + 1) := by
      have height : (8 : UInt32).toNat % 32 = 8 := rfl
      rw [UInt32.toNat_shiftRight,height,Nat.shiftRight_eq_div_pow,hlead,← leadingAt_succ]
    have hnext := leadingAt_succ a.toNat (byteLength a.toNat)
    have hne : a.toNat ≠ 0 := by
      intro hzero
      rw [hlead,hzero,leadingAt,Nat.zero_mul,Nat.zero_div] at hhigh
      exact absurd hhigh (by decide)
    exact finishCompact_spec hshift (by omega) (by omega) (fun _ => by omega)
      (fun hzero => absurd hzero hne) _
  · have hlow : c.toNat < 2^23 := by
      by_contra hhigh
      rw [sign_word] at hbit
      refine hbit ?_
      have hsplit : c.toNat = 2^23 * 1 + (c.toNat - 2^23) := by omega
      rw [hsplit,Nat.testBit_two_pow_mul_add _ (by omega),if_neg (by decide)]
      rfl
    have hzero : a.toNat = 0 → byteLength a.toNat = 0 := by
      intro h
      rw [h]
      rfl
    exact finishCompact_spec hlead (by omega) (hlead ▸ hlow) (fun hne => by
      have := hle hne
      omega) hzero _

theorem getCompact_isCompact (a : ArithUint256) :
    ∃ w, IsCompact (compactTruncate a.toNat) w ∧ a.getCompact = .ok w := by
  obtain ⟨w,hw,hget⟩ := a.getCompact_spec false
  rw [Bool.false_and,if_neg Bool.false_ne_true,UInt32.or_zero] at hget
  exact ⟨w,hw,hget⟩

/-- The word of a number below the power of two is read back as that number. -/
theorem setCompact_isCompact {n : ℕ} {w : UInt32} (h : IsCompact n w) (hn : n < 2^256) :
    ∃ v : ArithUint256, setCompact w = (v,false,false) ∧ v.toNat = n := by
  have hexact := h.exact
  have hpos : ∀ k, 0 < 256^k := fun k => Nat.pow_pos (by decide)
  have hvalue : (setCompact w).1.toNat = n := by
    rw [toNat_setCompact]
    split_ifs with hsize
    · have hm : compactMantissa w = n * 256^(3 - compactSize w) := by
        refine Nat.eq_of_mul_eq_mul_right (hpos (compactSize w)) ?_
        rw [hexact,Nat.mul_assoc,← pow_add,Nat.sub_add_cancel hsize]
      rw [hm,Nat.mul_div_cancel _ (hpos _)]
    · have hm : compactMantissa w * 256^(compactSize w - 3) = n := by
        refine Nat.eq_of_mul_eq_mul_right (hpos 3) ?_
        rw [← hexact,Nat.mul_assoc,← pow_add,Nat.sub_add_cancel (by omega)]
      rw [hm,Nat.mod_eq_of_lt hn]
  have hneg : (setCompact w).2.1 = false := by
    have hsign : ¬ w &&& 0x00800000 ≠ 0 := by
      rw [sign_word,h.sign]
      exact Bool.false_ne_true
    simp only [setCompact,bne_eq_false_iff_eq.mpr (not_not.mp hsign),Bool.and_false]
  have hover : (setCompact w).2.2 = false := by
    rw [Bool.eq_false_iff,ne_eq,setCompact_overflow,hexact,not_le]
    exact Nat.mul_lt_mul_of_pos_right hn (hpos 3)
  exact ⟨(setCompact w).1,Prod.ext rfl (Prod.ext hneg hover),hvalue⟩

theorem setCompact_fits {w : UInt32} (h : (setCompact w).2.2 = false) :
    ∃ m k, m < 2^23 ∧ (setCompact w).1.toNat = m * 256^k := by
  have hm := compactMantissa_lt w
  rw [toNat_setCompact]
  split_ifs with hsize
  · exact ⟨_,0,lt_of_le_of_lt (Nat.div_le_self _ _) hm,by rw [pow_zero,Nat.mul_one]⟩
  · refine ⟨compactMantissa w,compactSize w - 3,hm,Nat.mod_eq_of_lt ?_⟩
    have hlow : ¬ (setCompact w).2.2 = true := by rw [h]; exact Bool.false_ne_true
    rw [setCompact_overflow,not_le] at hlow
    refine lt_of_mul_lt_mul_right (a := 256^3) ?_ (Nat.zero_le _)
    rwa [Nat.mul_assoc,← pow_add,Nat.sub_add_cancel (by omega)]

end ArithUint256

theorem IsCompact.unique {n : ℕ} {w w' : UInt32} (h : IsCompact n w) (h' : IsCompact n w') : w = w' := by
  by_cases hn : n = 0
  · rw [h.zero hn,h'.zero hn]
  have hclose : ∀ {w w' : UInt32}, IsCompact n w → IsCompact n w' → compactSize w' ≤ compactSize w := by
    intro w w' h h'
    by_contra hlt
    obtain ⟨k,hk⟩ : ∃ k, compactSize w' = compactSize w + (k + 1) :=
      ⟨compactSize w' - compactSize w - 1,by omega⟩
    have hexact := h.exact.trans h'.exact.symm
    rw [hk,Nat.add_comm,pow_add,← Nat.mul_assoc] at hexact
    have hm := Nat.eq_of_mul_eq_mul_right (Nat.pow_pos (by decide)) hexact
    have hbig : 2^15 * 256 ≤ compactMantissa w' * 256^(k + 1) := by
      refine Nat.mul_le_mul (h'.leading hn) ?_
      rw [pow_succ]
      exact Nat.le_mul_of_pos_left _ (Nat.pow_pos (by decide))
    have := compactMantissa_lt w
    omega
  have hsize : compactSize w = compactSize w' := le_antisymm (hclose h' h) (hclose h h')
  have hmantissa : compactMantissa w = compactMantissa w' := by
    have hexact := h.exact.trans h'.exact.symm
    rw [hsize] at hexact
    exact Nat.eq_of_mul_eq_mul_right (Nat.pow_pos (by decide)) hexact
  have hsplit : ∀ {w : UInt32}, IsCompact n w → w.toNat = 2^24 * compactSize w + compactMantissa w := by
    intro w h
    have hsign := h.sign
    rw [compactSize,compactMantissa]
    rw [Nat.testBit_eq_decide_div_mod_eq,decide_eq_false_iff_not] at hsign
    omega
  rw [← UInt32.toNat_inj,hsplit h,hsplit h',hsize,hmantissa]

/-- Writing a number in compact form keeps its leading bytes; a word that is read without a flag has the
same number as the only word that `GetCompact` writes for it; and overflow is told by the exact value. -/
theorem compact_roundTrip :
    (∀ a : ArithUint256, ∃ w b, a.getCompact = .ok w ∧ ArithUint256.setCompact w = (b,false,false) ∧
      b.toNat = compactTruncate a.toNat ∧ ((∃ m k, m < 2^23 ∧ a.toNat = m * 256^k) → b = a)) ∧
    (∀ (a : ArithUint256) fNegative, ∃ w, a.getCompact fNegative = .ok w) ∧
    (∀ w b, ArithUint256.setCompact w = (b,false,false) → ∃ w', b.getCompact = .ok w' ∧
      (∀ w'', IsCompact b.toNat w'' ↔ w'' = w') ∧ ArithUint256.setCompact w' = (b,false,false)) ∧
    ∀ w, (ArithUint256.setCompact w).2.2 = true ↔
      2^256 * 256^3 ≤ compactMantissa w * 256^compactSize w := by
  have hfits : ∀ a : ArithUint256, (∃ m k, m < 2^23 ∧ a.toNat = m * 256^k) →
      compactTruncate a.toNat = a.toNat := by
    rintro a ⟨m,k,hm,ha⟩
    rw [ha]
    exact truncate_eq_self _ _ hm
  have hwrite : ∀ a : ArithUint256, ∃ w b, a.getCompact = .ok w ∧ IsCompact (compactTruncate a.toNat) w ∧
      ArithUint256.setCompact w = (b,false,false) ∧ b.toNat = compactTruncate a.toNat := by
    intro a
    obtain ⟨w,hw,hget⟩ := a.getCompact_isCompact
    obtain ⟨b,hset,hb⟩ := ArithUint256.setCompact_isCompact hw
      (lt_of_le_of_lt (truncate_le _ _ _) (BaseUint.toNat_lt a))
    exact ⟨w,b,hget,hw,hset,hb⟩
  refine ⟨fun a => ?_,fun a fNegative => ?_,fun w b hset => ?_,setCompact_overflow⟩
  · obtain ⟨w,b,hget,_,hset,hb⟩ := hwrite a
    exact ⟨w,b,hget,hset,hb,fun h => BaseUint.toNat_injective (hb.trans (hfits a h))⟩
  · obtain ⟨w,_,hget⟩ := a.getCompact_spec fNegative
    exact ⟨_,hget⟩
  · have hself : compactTruncate b.toNat = b.toNat := by
      have hw := ArithUint256.setCompact_fits (w := w) (by rw [hset])
      rw [hset] at hw
      exact hfits b hw
    obtain ⟨w',b',hget,hcompact,hset',hb'⟩ := hwrite b
    rw [hself] at hcompact hb'
    obtain rfl := BaseUint.toNat_injective hb'
    refine ⟨w',hget,fun w'' => ⟨fun h => h.unique hcompact,?_⟩,hset'⟩
    rintro rfl
    exact hcompact

end Sidechain
