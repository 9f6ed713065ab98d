import Sidechain.Chain.BlockTree
import Sidechain.Chain.Compact

/-! The new target after a period of blocks and the work of a block, on the words of the big integers. -/
namespace Sidechain
open Limbs Run

/-- The parameters of the proof of work. -/
structure PowParams where
  powLimit : Uint256
  nPowTargetTimespan : Int64
  fPowNoRetargeting : Bool
  deriving DecidableEq

def CMainParams : PowParams where
  powLimit := 0x00000000ffffffffffffffffffffffffffffffffffffffffffffffffffffffff
  nPowTargetTimespan := 14 * 24 * 60 * 60
  fPowNoRetargeting := false

def CTestNetParams : PowParams where
  powLimit := 0x00000000ffffffffffffffffffffffffffffffffffffffffffffffffffffffff
  nPowTargetTimespan := 14 * 24 * 60 * 60
  fPowNoRetargeting := false

/-- `UintToArith256`: the words of a blob. -/
def uintToArith256 (a : Uint256) : ArithUint256 :=
  ⟨(Codec.digitsLE (2^32) 8 a.toNat).map UInt32.ofNat,by rw [List.length_map,Codec.digitsLE_length]⟩

/-- The time between the first and the last block of a period, within a factor of four. -/
def clampTimespan (nActualTimespan nPowTargetTimespan : Int64) : Int64 :=
  let nActualTimespan := if nActualTimespan < nPowTargetTimespan / 4 then nPowTargetTimespan / 4
    else nActualTimespan
  if nActualTimespan > nPowTargetTimespan * 4 then nPowTargetTimespan * 4 else nActualTimespan

/-- `nBits` and `nTime` are those of `pindexLast`. -/
def calculateNextWorkRequired (nBits nTime : UInt32) (nFirstBlockTime : Int64) (params : PowParams) :
    Outcome UInt32 :=
  if params.fPowNoRetargeting then .ok nBits
  else do
    let nActualTimespan ← checked (nTime.toNat - nFirstBlockTime.toInt)
    let nActualTimespan := clampTimespan nActualTimespan params.nPowTargetTimespan
    let bnPowLimit := uintToArith256 params.powLimit
    let bnNew := (ArithUint256.setCompact nBits).1
    let bnNew := bnNew.mulAssign32 nActualTimespan.toUInt64.toUInt32
    let bnNew ← bnNew.divAssign (BaseUint.ofUInt64 params.nPowTargetTimespan.toUInt64)
    let bnNew := if bnNew.compareTo bnPowLimit > 0 then bnPowLimit else bnNew
    bnNew.getCompact

namespace ArithUint256

/-- `GetBlockProof` on the words. -/
def getBlockProof (nBits : UInt32) : Outcome ArithUint256 :=
  let (bnTarget,fNegative,fOverflow) := setCompact nBits
  if fNegative || fOverflow || bnTarget.equalTo 0 then .ok BaseUint.zero
  else do
    let quot ← bnTarget.not.divAssign (bnTarget.addAssign (BaseUint.ofUInt64 1))
    pure (quot.addAssign (BaseUint.ofUInt64 1))

end ArithUint256

theorem toNat_uintToArith256 (a : Uint256) : (uintToArith256 a).toNat = a.toNat := by
  have hdigits : digits (uintToArith256 a).pn = Codec.digitsLE (2^32) 8 a.toNat := by
    rw [digits,uintToArith256,List.map_map]
    refine (List.map_congr_left fun d hd => ?_).trans (List.map_id _)
    exact UInt32.toNat_ofNat_of_lt' (Codec.digitsLE_lt (by decide) 8 _ d hd)
  rw [BaseUint.toNat_eq_mod hdigits]
  exact Nat.mod_eq_of_lt a.isLt

/-- The two forms of `SetCompact` agree. -/
theorem setCompact_eq (w : UInt32) : setCompact w =
    (BitVec.ofNat 256 (ArithUint256.setCompact w).1.toNat,(ArithUint256.setCompact w).2) := by
  have hword := toNat_word w
  have hgt : ∀ n : UInt32, w >>> 24 > n ↔ compactSize w > n.toNat := fun n => by
    rw [gt_iff_lt,UInt32.lt_iff_toNat_lt,size_word]
  have hnat : (if compactSize w ≤ 3 then compactMantissa w >>> (8 * (3 - compactSize w))
      else compactMantissa w) = (ArithUint256.compactWord w).toNat := by
    rw [hword,Nat.shiftRight_eq_div_pow,pow_mul]
    rfl
  simp only [setCompact,size_word,mantissa_word,hnat]
  refine Prod.ext ?_ (Prod.ext ?_ ?_)
  · rw [toNat_setCompact]
    by_cases hsize : compactSize w ≤ 3
    · simp only [if_pos hsize] at hword ⊢
      rw [hword]
    · simp only [if_neg hsize] at hword ⊢
      rw [hword,← BitVec.toNat_inj,BitVec.toNat_shiftLeft,BitVec.toNat_ofNat,BitVec.toNat_ofNat,
        Nat.mod_eq_of_lt (lt_trans (compactMantissa_lt w) (by decide)),Nat.shiftLeft_eq,pow_mul,
        Nat.mod_mod]
      rfl
  · have hzero : ((ArithUint256.compactWord w).toNat != 0) = (ArithUint256.compactWord w != 0) := by
      rw [Bool.eq_iff_iff,bne_iff_ne,bne_iff_ne,ne_eq,ne_eq,← UInt32.toNat_inj]
      rfl
    simp only [ArithUint256.setCompact,hzero]
  · have hzero : ((ArithUint256.compactWord w).toNat != 0) = (ArithUint256.compactWord w != 0) := by
      rw [Bool.eq_iff_iff,bne_iff_ne,bne_iff_ne,ne_eq,ne_eq,← UInt32.toNat_inj]
      rfl
    simp only [ArithUint256.setCompact,hzero,hgt,gt_iff_lt,UInt32.lt_iff_toNat_lt]
    rfl

theorem checkProofOfWork_range {hash powLimit : Uint256} {nBits : UInt32}
    (h : checkProofOfWork hash nBits powLimit = true) :
    (ArithUint256.setCompact nBits).1.toNat ≤ powLimit.toNat := by
  rw [checkProofOfWork,setCompact_eq] at h
  have hrange := (Bool.and_eq_true_iff.mp h).1
  simp only [Bool.not_eq_true',Bool.or_eq_false_iff,decide_eq_false_iff_not,BitVec.not_lt,
    BitVec.le_def,BitVec.toNat_ofNat] at hrange
  have hlt : (ArithUint256.setCompact nBits).1.toNat < 2^256 := BaseUint.toNat_lt _
  rw [Nat.mod_eq_of_lt hlt] at hrange
  exact hrange.2

/-- The time between two blocks, within a factor of four of the target. -/
def clamped (timespan actual : ℤ) : ℤ := max (timespan / 4) (min (timespan * 4) actual)

theorem clampTimespan_toInt (t : Int64) :
    (clampTimespan t 1209600).toInt = clamped 1209600 t.toInt := by
  have hlow : ((1209600 : Int64) / 4).toInt = 302400 := by decide
  have hhigh : ((1209600 : Int64) * 4).toInt = 4838400 := by decide
  rw [clampTimespan,clamped]
  simp only [Int64.lt_iff_toInt_lt,gt_iff_lt,hlow,hhigh]
  split_ifs with h₁ h₂ h₂
  · omega
  · omega
  · omega
  · omega

theorem clamped_bounds (actual : ℤ) :
    302400 ≤ clamped 1209600 actual ∧ clamped 1209600 actual ≤ 4838400 := by
  unfold clamped
  omega

theorem toUInt32_timespan {t : Int64} (h0 : 0 ≤ t.toInt) (h : t.toInt < 2^32) :
    t.toUInt64.toUInt32.toNat = t.toInt.toNat := by
  have hnonneg : 0 ≤ t := by
    rw [Int64.le_iff_toInt_le]
    exact h0
  rw [UInt64.toNat_toUInt32,Int64.toNat_toUInt64_of_le hnonneg,Int64.toNat_toInt,
    Nat.mod_eq_of_lt (by rw [← Int64.toNat_toInt]; omega)]

theorem calculateNextWorkRequired_spec {nBits nTime nFirst : UInt32}
    (hrange : (ArithUint256.setCompact nBits).1.toNat ≤ CMainParams.powLimit.toNat) :
    ∃ w, calculateNextWorkRequired nBits nTime (Int64.ofNat nFirst.toNat) CMainParams = .ok w ∧
      IsCompact (compactTruncate (min CMainParams.powLimit.toNat
        ((ArithUint256.setCompact nBits).1.toNat *
          (clamped 1209600 (nTime.toNat - nFirst.toNat)).toNat / 1209600))) w := by
  have htime := nTime.toNat_lt
  have hfirst := nFirst.toNat_lt
  have hfirst' : (Int64.ofNat nFirst.toNat).toInt = nFirst.toNat :=
    Int64.toInt_ofNat_of_lt (by omega)
  obtain ⟨actual,hactual⟩ : ∃ actual : Int64, actual.toInt = (nTime.toNat : ℤ) - nFirst.toNat :=
    ⟨Int64.ofInt _,Int64.toInt_ofInt_of_le (by omega) (by omega)⟩
  obtain ⟨hlow,hhigh⟩ := clamped_bounds ((nTime.toNat : ℤ) - nFirst.toNat)
  have hclamp := clampTimespan_toInt actual
  rw [hactual] at hclamp
  have hfactor := toUInt32_timespan (t := clampTimespan actual 1209600) (by omega) (by omega)
  rw [hclamp] at hfactor
  generalize clamped 1209600 ((nTime.toNat : ℤ) - nFirst.toNat) = t at hlow hhigh hfactor ⊢
  have hlimit : CMainParams.powLimit.toNat = 2^224 - 1 := by decide
  rw [hlimit] at hrange
  obtain ⟨bnOld,hbnOld⟩ : ∃ bnOld, (ArithUint256.setCompact nBits).1 = bnOld := ⟨_,rfl⟩
  rw [hbnOld] at hrange ⊢
  have hproduct : bnOld.toNat * t.toNat < 2^256 := by
    have := Nat.mul_le_mul hrange (show t.toNat ≤ 4838400 by omega)
    omega
  have htimespan : (BaseUint.ofUInt64 (1209600 : Int64).toUInt64 : ArithUint256).toNat = 1209600 :=
    BaseUint.toNat_ofUInt64 _
  obtain ⟨quot,hquot,hvalue⟩ := (BaseUint.divAssign_eq
    (bnOld.mulAssign32 (clampTimespan actual 1209600).toUInt64.toUInt32)
    (BaseUint.ofUInt64 (1209600 : Int64).toUInt64) (by decide)).2 (by rw [htimespan]; decide)
  rw [htimespan,BaseUint.toNat_mulAssign32,hfactor,Nat.mod_eq_of_lt hproduct] at hvalue
  obtain ⟨bnNew,hbnNew,hmin⟩ : ∃ bnNew : ArithUint256,
      (if quot.compareTo (uintToArith256 CMainParams.powLimit) > 0
        then uintToArith256 CMainParams.powLimit else quot) = bnNew ∧
      bnNew.toNat = min CMainParams.powLimit.toNat (bnOld.toNat * t.toNat / 1209600) := by
    refine ⟨_,rfl,?_⟩
    simp only [BaseUint.compareTo_pos,toNat_uintToArith256,hvalue]
    split_ifs with hgt
    · rw [toNat_uintToArith256,min_eq_left hgt.le]
    · rw [hvalue,min_eq_right (not_lt.mp hgt)]
  obtain ⟨w,hw,hget⟩ := bnNew.getCompact_isCompact
  rw [hmin] at hw
  refine ⟨w,?_,hw⟩
  have hspan : CMainParams.nPowTargetTimespan = 1209600 := rfl
  have hretarget : CMainParams.fPowNoRetargeting = false := rfl
  have hchecked : checked ((nTime.toNat : ℤ) - (Int64.ofNat nFirst.toNat).toInt) = .ok actual :=
    checked_ok.mpr (by rw [hactual,hfirst'])
  unfold calculateNextWorkRequired
  rw [hretarget,if_neg Bool.false_ne_true]
  refine bind_ok.mpr ⟨actual,hchecked,?_⟩
  dsimp only
  rw [hspan,hbnOld]
  refine bind_ok.mpr ⟨quot,hquot,?_⟩
  rw [hbnNew,hget]

namespace ArithUint256

theorem setCompact_room {w : UInt32} {target : ArithUint256} {fNegative : Bool}
    (h : setCompact w = (target,fNegative,false)) : target.toNat + 1 < 2^256 := by
  obtain ⟨m,k,hm,hvalue⟩ := setCompact_fits (w := w) (by rw [h])
  rw [h] at hvalue
  dsimp only at hvalue
  have hlt : target.toNat < 2^256 := BaseUint.toNat_lt _
  refine lt_of_le_of_ne hlt fun hmax => ?_
  rw [hvalue] at hmax
  cases k with
  | zero => omega
  | succ k =>
    rw [pow_succ,← Nat.mul_assoc] at hmax
    omega

theorem getBlockProof_spec {nBits : UInt32} {target : ArithUint256}
    (hset : setCompact nBits = (target,false,false)) (hpos : target.toNat ≠ 0) :
    ∃ proof, getBlockProof nBits = .ok proof ∧ proof.toNat = 2^256 / (target.toNat + 1) := by
  have hroom := setCompact_room hset
  have hone : (BaseUint.ofUInt64 1 : ArithUint256).toNat = 1 := BaseUint.toNat_ofUInt64 _
  have hdiv : (target.addAssign (BaseUint.ofUInt64 1)).toNat = target.toNat + 1 := by
    rw [BaseUint.toNat_addAssign,hone]
    exact Nat.mod_eq_of_lt hroom
  have hnot := BaseUint.toNat_not target
  obtain ⟨quot,hquot,hvalue⟩ := (BaseUint.divAssign_eq target.not
    (target.addAssign (BaseUint.ofUInt64 1)) (by decide)).2 (by rw [hdiv]; exact Nat.succ_ne_zero _)
  have hzero : target.equalTo 0 = false := by
    rw [Bool.eq_false_iff,ne_eq,BaseUint.equalTo_iff]
    exact hpos
  have hwhole : 2^256 / (target.toNat + 1) = quot.toNat + 1 := by
    rw [hvalue,hdiv,Nat.div_eq_sub_div (Nat.succ_pos _) hroom.le]
    congr 2
    omega
  have hsmall : quot.toNat + 1 < 2^256 := by
    rw [← hwhole]
    exact Nat.div_lt_self (by decide) (by omega)
  refine ⟨quot.addAssign (BaseUint.ofUInt64 1),?_,?_⟩
  · unfold getBlockProof
    simp only [hset,hzero,Bool.or_false,Bool.false_eq_true,if_false,hquot]
    rfl
  · rw [BaseUint.toNat_addAssign,hone,hwhole]
    exact Nat.mod_eq_of_lt hsmall

end ArithUint256

/-- The work that the block index adds up is the one computed on the words. -/
theorem getBlockProof_ok (nBits : UInt32) : ∃ proof, ArithUint256.getBlockProof nBits = .ok proof ∧
    getBlockProof nBits = BitVec.ofNat 256 proof.toNat := by
  obtain ⟨target,fNegative,fOverflow,hset⟩ : ∃ target fNegative fOverflow,
      ArithUint256.setCompact nBits = (target,fNegative,fOverflow) := ⟨_,_,_,rfl⟩
  have hlt : target.toNat < 2^256 := BaseUint.toNat_lt target
  have hzero : target.equalTo 0 = (BitVec.ofNat 256 target.toNat == 0) := by
    rw [Bool.eq_iff_iff,BaseUint.equalTo_iff,beq_iff_eq,← BitVec.toNat_inj,BitVec.toNat_ofNat,
      Nat.mod_eq_of_lt hlt]
    rfl
  by_cases hflags : (fNegative || fOverflow || target.equalTo 0) = true
  · refine ⟨BaseUint.zero,by simp only [ArithUint256.getBlockProof,hset,hflags,if_true],?_⟩
    rw [hzero] at hflags
    simp only [getBlockProof,setCompact_eq,hset,hflags,if_true,BaseUint.toNat_zero]
    rfl
  · have hclear : fNegative = false ∧ fOverflow = false ∧ target.equalTo 0 = false := by
      simpa only [Bool.not_eq_true,Bool.or_eq_false_iff,and_assoc] using hflags
    obtain ⟨rfl,rfl,hne⟩ := hclear
    have hpos : target.toNat ≠ 0 := fun h => by
      rw [BaseUint.equalTo_iff.mpr h] at hne
      cases hne
    obtain ⟨proof,hproof,hvalue⟩ := ArithUint256.getBlockProof_spec hset hpos
    have hroom := ArithUint256.setCompact_room hset
    have hnext : (BitVec.ofNat 256 target.toNat + 1).toNat = target.toNat + 1 := by
      rw [BitVec.toNat_add,BitVec.toNat_ofNat,Nat.mod_eq_of_lt hlt]
      exact Nat.mod_eq_of_lt hroom
    have hquot : (~~~BitVec.ofNat 256 target.toNat / (BitVec.ofNat 256 target.toNat + 1)).toNat + 1 =
        2^256 / (target.toNat + 1) := by
      rw [BitVec.toNat_udiv,BitVec.toNat_not,BitVec.toNat_ofNat,Nat.mod_eq_of_lt hlt,hnext,
        Nat.div_eq_sub_div (Nat.succ_pos _) hroom.le]
      congr 2
      omega
    have hsmall : 2^256 / (target.toNat + 1) < 2^256 := Nat.div_lt_self (by decide) (by omega)
    refine ⟨proof,hproof,?_⟩
    rw [hzero] at hne
    simp only [getBlockProof,setCompact_eq,hset,hne,Bool.or_false,Bool.false_eq_true,if_false]
    rw [← BitVec.toNat_inj,BitVec.toNat_add,BitVec.toNat_ofNat,hvalue,Nat.mod_eq_of_lt hsmall]
    have hone : (1 : Uint256).toNat = 1 := rfl
    rw [hone,hquot,Nat.mod_eq_of_lt hsmall]

/-- On both networks the new target is what the compact form keeps of the least of the limit and the
scaled target, without overflow; the work of a block is exact. -/
theorem retarget_and_proof (nBits : UInt32) :
    (∀ params, params = CMainParams ∨ params = CTestNetParams → ∀ nTime nFirst : UInt32,
      (∃ hash, checkProofOfWork hash nBits params.powLimit = true) →
      ∃ old timespan new : ℕ, old = (ArithUint256.setCompact nBits).1.toNat ∧
        (timespan : ℤ) = clamped params.nPowTargetTimespan.toInt (nTime.toNat - nFirst.toNat) ∧
        new = min params.powLimit.toNat (old * timespan / params.nPowTargetTimespan.toInt.toNat) ∧
        old * timespan < 2^256 ∧
        ∃ w target, calculateNextWorkRequired nBits nTime (Int64.ofNat nFirst.toNat) params = .ok w ∧
          ArithUint256.setCompact w = (target,false,false) ∧ target.toNat = compactTruncate new ∧
          compactTruncate (old / 4) ≤ target.toNat ∧
          target.toNat ≤ min (4 * old) params.powLimit.toNat) ∧
    ∀ target, ArithUint256.setCompact nBits = (target,false,false) → target.toNat ≠ 0 →
      target.toNat + 1 < 2^256 ∧ ∃ proof, ArithUint256.getBlockProof nBits = .ok proof ∧
        proof.toNat = 2^256 / (target.toNat + 1) ∧ 1 ≤ proof.toNat := by
  refine ⟨?_,?_⟩
  · intro params hparams nTime nFirst ⟨hash,hcheck⟩
    obtain rfl : params = CMainParams := hparams.elim id id
    have hspan : CMainParams.nPowTargetTimespan.toInt = 1209600 := by decide
    have hlimit : CMainParams.powLimit.toNat = 2^224 - 1 := by decide
    have hrange := checkProofOfWork_range hcheck
    obtain ⟨w,hw,hcompact⟩ := @calculateNextWorkRequired_spec nBits nTime nFirst hrange
    obtain ⟨hlow,hhigh⟩ := clamped_bounds ((nTime.toNat : ℤ) - nFirst.toNat)
    obtain ⟨timespan,htimespan⟩ := Int.eq_ofNat_of_zero_le
      (show 0 ≤ clamped 1209600 (nTime.toNat - nFirst.toNat) by omega)
    rw [htimespan] at hlow hhigh
    rw [htimespan,Int.toNat_natCast] at hcompact
    generalize (ArithUint256.setCompact nBits).1.toNat = old at hrange hcompact ⊢
    have hproduct : old * timespan < 2^256 := by
      have := Nat.mul_le_mul hrange (show timespan ≤ 4838400 by omega)
      omega
    have hnew : min CMainParams.powLimit.toNat (old * timespan / 1209600) < 2^256 :=
      lt_of_le_of_lt (min_le_left _ _) (by rw [hlimit]; decide)
    obtain ⟨target,hset,htarget⟩ := ArithUint256.setCompact_isCompact hcompact
      (lt_of_le_of_lt (truncate_le _ _ _) hnew)
    refine ⟨old,timespan,_,rfl,by rw [hspan,htimespan],rfl,hproduct,w,target,hw,hset,?_,?_,?_⟩
    · rw [htarget,hspan]
      rfl
    · rw [htarget]
      refine truncate_mono _ _ (by decide) (le_min ?_ ?_)
      · omega
      · have := Nat.mul_le_mul_left old (show 302400 ≤ timespan by omega)
        omega
    · rw [htarget]
      refine (truncate_le _ _ _).trans (le_min ((min_le_right _ _).trans ?_) (min_le_left _ _))
      have := Nat.mul_le_mul_left old (show timespan ≤ 4838400 by omega)
      omega
  · intro target hset hpos
    obtain ⟨proof,hproof,hvalue⟩ := ArithUint256.getBlockProof_spec hset hpos
    have hroom := ArithUint256.setCompact_room hset
    exact ⟨hroom,proof,hproof,hvalue,by rw [hvalue]; exact Nat.div_pos hroom.le (Nat.succ_pos _)⟩

end Sidechain
