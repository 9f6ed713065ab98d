import Sidechain.Library.Limbs
import Sidechain.Primitives.Outcome

/-! The big integers of arith_uint256.h as words of 32 bits: each operator on the words is the one on
natural numbers modulo a power of two. -/
namespace Sidechain
open Codec Limbs

/-- `base_uint<32 * WIDTH>`. -/
structure BaseUint (WIDTH : ℕ) where
  pn : List UInt32
  size : pn.length = WIDTH
  deriving DecidableEq

abbrev ArithUint256 := BaseUint 8

/-- The loop that leaves the low halves of the sums behind and carries the high halves. -/
def carryLoop (carry : UInt64) : List UInt64 → List UInt32
  | [] => []
  | addend :: addends =>
    let n := carry + addend
    (n &&& 0xffffffff).toUInt32 :: carryLoop (n >>> 32) addends

@[simp] theorem carryLoop_length (carry : UInt64) (addends : List UInt64) :
    (carryLoop carry addends).length = addends.length := by
  induction addends generalizing carry with
  | nil => rfl
  | cons addend addends ih => exact congrArg Nat.succ (ih _)

/-- The loop of `++`, which stops at the first word that does not become zero. -/
def incLoop : List UInt32 → List UInt32
  | [] => []
  | x :: pn => if x + 1 = 0 then (x + 1) :: incLoop pn else (x + 1) :: pn

@[simp] theorem incLoop_length (pn : List UInt32) : (incLoop pn).length = pn.length := by
  induction pn with
  | nil => rfl
  | cons x pn ih =>
    unfold incLoop
    split_ifs
    · exact congrArg Nat.succ ih
    · rfl

/-- The loop of `CompareTo`, from the last word down. -/
def compareLoop : List UInt32 → List UInt32 → ℤ
  | x :: pn,y :: b => if x < y then -1 else if x > y then 1 else compareLoop pn b
  | _,_ => 0

/-- The position of the highest bit of a word, plus one; the lowest bit is not looked at. -/
def topBit : ℕ → UInt32 → ℕ
  | 0,_ => 1
  | bits + 1,x => if x &&& 1 <<< UInt32.ofNat (bits + 1) ≠ 0 then bits + 2 else topBit bits x

/-- The loop of `bits`, from the last word down. -/
def bitsLoop : List UInt32 → ℕ
  | [] => 0
  | x :: pn => if x ≠ 0 then 32 * pn.length + topBit 31 x else bitsLoop pn

namespace BaseUint
variable {WIDTH : ℕ}

def zero : BaseUint WIDTH := ⟨List.replicate WIDTH 0,List.length_replicate⟩

/-- The conversion from `uint64_t`. -/
def ofUInt64 (b : UInt64) : BaseUint (WIDTH + 2) :=
  ⟨b.toUInt32 :: (b >>> 32).toUInt32 :: List.replicate WIDTH 0,by simp⟩

/-- `~`. -/
def not (a : BaseUint WIDTH) : BaseUint WIDTH := ⟨a.pn.map (~~~ ·),by rw [List.length_map,a.size]⟩

/-- `++`. -/
def inc (a : BaseUint WIDTH) : BaseUint WIDTH := ⟨incLoop a.pn,by rw [incLoop_length,a.size]⟩

/-- Unary `-`. -/
def neg (a : BaseUint WIDTH) : BaseUint WIDTH := a.not.inc

/-- `+=`. -/
def addAssign (a b : BaseUint WIDTH) : BaseUint WIDTH :=
  ⟨carryLoop 0 (List.zipWith (fun x y => x.toUInt64 + y.toUInt64) a.pn b.pn),by
    rw [carryLoop_length,List.length_zipWith,a.size,b.size,Nat.min_self]⟩

/-- `-=`. -/
def subAssign (a b : BaseUint WIDTH) : BaseUint WIDTH := a.addAssign b.neg

/-- `*=` with a `uint32_t`. -/
def mulAssign32 (a : BaseUint WIDTH) (b32 : UInt32) : BaseUint WIDTH :=
  ⟨carryLoop 0 (a.pn.map fun x => b32.toUInt64 * x.toUInt64),by
    rw [carryLoop_length,List.length_map,a.size]⟩

/-- One row of `*=`: the words from `j` on get the multiple of `b` by one word. -/
def mulRow (r : BaseUint WIDTH) (j : ℕ) (aj : UInt32) (b : BaseUint WIDTH) : BaseUint WIDTH :=
  ⟨r.pn.take j ++ carryLoop 0
      (List.zipWith (fun x y => x.toUInt64 + aj.toUInt64 * y.toUInt64) (r.pn.drop j) b.pn),by
    rw [List.length_append,carryLoop_length,List.length_zipWith,List.length_take,List.length_drop,
      r.size,b.size]
    omega⟩

/-- `*=`, where `b` is not the object that is assigned to. -/
def mulAssign (a b : BaseUint WIDTH) : BaseUint WIDTH :=
  (List.range WIDTH).foldl (fun r j => r.mulRow j (a.pn.getD j 0) b) zero

/-- `pn[j] |= x`. -/
def orAt (r : BaseUint WIDTH) (j : ℕ) (x : UInt32) : BaseUint WIDTH :=
  ⟨r.pn.modify j (· ||| x),by rw [List.length_modify,r.size]⟩

/-- `<<=`. -/
def shlAssign (a : BaseUint WIDTH) (shift : UInt32) : BaseUint WIDTH :=
  let k := shift.toNat / 32
  let shift := shift % 32
  (List.range WIDTH).foldl (fun r i =>
    let r := if i + k + 1 < WIDTH ∧ shift ≠ 0 then r.orAt (i + k + 1) (a.pn.getD i 0 >>> (32 - shift))
      else r
    if i + k < WIDTH then r.orAt (i + k) (a.pn.getD i 0 <<< shift) else r) zero

/-- `>>=`. -/
def shrAssign (a : BaseUint WIDTH) (shift : UInt32) : BaseUint WIDTH :=
  let k := shift.toNat / 32
  let shift := shift % 32
  (List.range WIDTH).foldl (fun r i =>
    let r := if k + 1 ≤ i ∧ shift ≠ 0 then r.orAt (i - k - 1) (a.pn.getD i 0 <<< (32 - shift)) else r
    if k ≤ i then r.orAt (i - k) (a.pn.getD i 0 >>> shift) else r) zero

def compareTo (a b : BaseUint WIDTH) : ℤ := compareLoop a.pn.reverse b.pn.reverse

def bits (a : BaseUint WIDTH) : ℕ := bitsLoop a.pn.reverse

/-- The loop of `/=`, at a shift one less than its first argument. -/
def divLoop : ℕ → BaseUint WIDTH → BaseUint WIDTH → BaseUint WIDTH → BaseUint WIDTH
  | 0,_,_,quot => quot
  | shift + 1,num,div,quot =>
    if num.compareTo div ≥ 0 then
      divLoop shift (num.subAssign div) (div.shrAssign 1)
        (quot.orAt (shift / 32) (1 <<< UInt32.ofNat (shift &&& 31)))
    else divLoop shift num (div.shrAssign 1) quot

/-- `/=`. -/
def divAssign (num div : BaseUint WIDTH) : Outcome (BaseUint WIDTH) :=
  if div.bits = 0 then .error (.exception "Division by zero")
  else if div.bits > num.bits then .ok zero
  else
    let shift := num.bits - div.bits
    .ok (divLoop (shift + 1) num (div.shlAssign (UInt32.ofNat shift)) zero)

/-- `EqualTo`, the comparison with a `uint64_t`. -/
def equalTo (a : BaseUint WIDTH) (b : UInt64) : Bool :=
  (a.pn.drop 2).all (· == 0) && (a.pn.getD 1 0).toUInt64 == b >>> 32 &&
    (a.pn.getD 0 0).toUInt64 == b &&& 0xffffffff

/-- `pn[0] | (uint64_t)pn[1] << 32`. -/
def getLow64 (a : BaseUint WIDTH) : UInt64 :=
  (a.pn.getD 0 0).toUInt64 ||| (a.pn.getD 1 0).toUInt64 <<< 32

/-- The number the words stand for. -/
def toNat (a : BaseUint WIDTH) : ℕ := Nat.ofDigits (2^32) (a.pn.map UInt32.toNat)

end BaseUint

/-- The words as digits. -/
def digits (pn : List UInt32) : List ℕ := pn.map UInt32.toNat

theorem digits_lt (pn : List UInt32) : ∀ d ∈ digits pn, d < 2^32 := by
  intro d hd
  obtain ⟨x,_,rfl⟩ := List.mem_map.mp hd
  exact x.toNat_lt

theorem digits_getD (pn : List UInt32) (i : ℕ) : (digits pn).getD i 0 = (pn.getD i 0).toNat := by
  rw [digits,List.getD_eq_getElem?_getD,List.getD_eq_getElem?_getD,List.getElem?_map]
  cases pn[i]? <;> rfl

@[simp] theorem digits_length (pn : List UInt32) : (digits pn).length = pn.length := List.length_map _

/-- The sums of the loop do not overflow 64 bits. -/
theorem digits_carryLoop {carry : UInt64} {addends : List UInt64} (hcarry : carry.toNat < 2^32)
    (h : ∀ addend ∈ addends, addend.toNat ≤ 2^64 - 2^32) :
    digits (carryLoop carry addends) =
      carryDigits (2^32) carry.toNat (addends.map UInt64.toNat) := by
  induction addends generalizing carry with
  | nil => rfl
  | cons addend addends ih =>
    have haddend := h addend List.mem_cons_self
    have hsum : (carry + addend).toNat = carry.toNat + addend.toNat := by
      rw [UInt64.toNat_add,Nat.mod_eq_of_lt (by omega)]
    have hlow : ((carry + addend) &&& 0xffffffff).toUInt32.toNat =
        (carry.toNat + addend.toNat) % 2^32 := by
      have hmask : (0xffffffff : UInt64).toNat = 2^32 - 1 := rfl
      rw [UInt64.toNat_toUInt32,UInt64.toNat_and,hmask,Nat.and_two_pow_sub_one_eq_mod,hsum,
        Nat.mod_mod]
    have hhigh : ((carry + addend) >>> 32).toNat = (carry.toNat + addend.toNat) / 2^32 := by
      have hshift : (32 : UInt64).toNat % 64 = 32 := rfl
      rw [UInt64.toNat_shiftRight,hshift,hsum,Nat.shiftRight_eq_div_pow]
    rw [carryLoop,digits,List.map_cons,List.map_cons,carryDigits,hlow,← hhigh]
    refine congrArg _ (ih ?_ fun a ha => h a (List.mem_cons_of_mem _ ha))
    rw [hhigh,Nat.div_lt_iff_lt_mul (by decide)]
    omega

theorem word_mul_le (x y z : UInt32) :
    (x.toUInt64 + y.toUInt64 * z.toUInt64).toNat = x.toNat + y.toNat * z.toNat ∧
      x.toNat + y.toNat * z.toNat ≤ 2^64 - 2^32 := by
  have hx := x.toNat_lt
  have hy := y.toNat_lt
  have hz := z.toNat_lt
  have hprod : y.toNat * z.toNat ≤ (2^32 - 1) * (2^32 - 1) :=
    Nat.mul_le_mul (Nat.le_sub_one_of_lt hy) (Nat.le_sub_one_of_lt hz)
  rw [UInt64.toNat_add,UInt64.toNat_mul]
  simp only [UInt32.toNat_toUInt64]
  rw [Nat.mod_eq_of_lt (show y.toNat * z.toNat < 2^64 by omega),Nat.mod_eq_of_lt (by omega)]
  exact ⟨rfl,by omega⟩

namespace BaseUint
variable {WIDTH : ℕ}

theorem radix_pow : ((2 : ℕ)^32)^WIDTH = 2^(32 * WIDTH) := (pow_mul ..).symm

theorem toNat_lt (a : BaseUint WIDTH) : a.toNat < 2^(32 * WIDTH) := by
  have h := ofDigits_lt (by decide) (digits_lt a.pn)
  rwa [digits_length,a.size,radix_pow] at h

theorem toNat_injective {a b : BaseUint WIDTH} (h : a.toNat = b.toNat) : a = b := by
  have hdigits : digits a.pn = digits b.pn := by
    have ha := digitsLE_ofDigits (digits_lt a.pn)
    have hb := digitsLE_ofDigits (digits_lt b.pn)
    rw [digits_length,a.size] at ha
    rw [digits_length,b.size] at hb
    exact ha.symm.trans ((congrArg _ h).trans hb)
  have hpn := (List.map_injective_iff.mpr fun _ _ => UInt32.toNat_inj.mp) hdigits
  cases a
  cases b
  cases hpn
  rfl

theorem toNat_eq_mod {a : BaseUint WIDTH} {n : ℕ} (h : digits a.pn = digitsLE (2^32) WIDTH n) :
    a.toNat = n % 2^(32 * WIDTH) := by
  change Nat.ofDigits _ (digits a.pn) = _
  rw [h,ofDigits_digitsLE,radix_pow]

@[simp] theorem toNat_zero : (zero : BaseUint WIDTH).toNat = 0 := by
  rw [toNat,zero,List.map_replicate]
  exact Nat.ofDigits_replicate_zero

theorem toNat_not (a : BaseUint WIDTH) : a.not.toNat + a.toNat + 1 = 2^(32 * WIDTH) := by
  have h := ofDigits_complement (digits_lt a.pn)
  rw [digits_length,a.size,radix_pow] at h
  rw [← h,toNat,toNat,not,digits,List.map_map,List.map_map]
  congr 4
  funext x
  exact UInt32.toNat_not x

theorem toNat_incLoop (pn : List UInt32) : Nat.ofDigits (2^32) (digits (incLoop pn)) =
    (Nat.ofDigits (2^32) (digits pn) + 1) % (2^32)^pn.length := by
  induction pn with
  | nil => rfl
  | cons x pn ih =>
    have hx := x.toNat_lt
    have hone : (1 : UInt32).toNat = 1 := rfl
    have hsum : (x + 1).toNat = (x.toNat + 1) % 2^32 := by rw [UInt32.toNat_add,hone]
    have hvalue : Nat.ofDigits (2^32) (digits (x :: pn)) =
        x.toNat + 2^32 * Nat.ofDigits (2^32) (digits pn) := Nat.ofDigits_cons
    have hlt := ofDigits_lt (by decide) (digits_lt pn)
    rw [digits_length] at hlt
    rw [incLoop,hvalue,List.length_cons,pow_succ' ((2 : ℕ)^32)]
    split_ifs with hzero
    · have hlast : x.toNat + 1 = 2^32 := by
        have hnat : (x + 1).toNat = 0 := congrArg UInt32.toNat hzero
        rw [hsum] at hnat
        have := Nat.dvd_of_mod_eq_zero hnat
        omega
      have hstep : x.toNat + 2^32 * Nat.ofDigits (2^32) (digits pn) + 1 =
          2^32 * (Nat.ofDigits (2^32) (digits pn) + 1) := by
        rw [Nat.mul_succ,← hlast]
        ring
      rw [hstep,Nat.mul_mod_mul_left,← ih,hzero]
      change Nat.ofDigits _ (0 :: digits (incLoop pn)) = _
      rw [Nat.ofDigits_cons,Nat.zero_add]
    · have hnext : (x + 1).toNat = x.toNat + 1 := by
        rw [hsum,Nat.mod_eq_of_lt]
        refine lt_of_le_of_ne hx fun heq => hzero (UInt32.toNat_inj.mp ?_)
        change (x + 1).toNat = 0
        rw [hsum]
        exact heq ▸ Nat.mod_self _
      have hvalue' : Nat.ofDigits (2^32) (digits ((x + 1) :: pn)) =
          (x + 1).toNat + 2^32 * Nat.ofDigits (2^32) (digits pn) := Nat.ofDigits_cons
      rw [hvalue',hnext,Nat.mod_eq_of_lt]
      · ring
      · have hrest := Nat.mul_le_mul_left (2^32) (Nat.succ_le_of_lt hlt)
        rw [Nat.mul_succ] at hrest
        rw [hnext] at hsum
        have := Nat.mod_lt (x.toNat + 1) (show 0 < 2^32 by decide)
        omega

theorem toNat_inc (a : BaseUint WIDTH) : a.inc.toNat = (a.toNat + 1) % 2^(32 * WIDTH) := by
  have h := toNat_incLoop a.pn
  rwa [a.size,radix_pow] at h

/-- The negative of a number, modulo the power of two. -/
theorem toNat_neg (a : BaseUint WIDTH) :
    a.neg.toNat = (2^(32 * WIDTH) - a.toNat) % 2^(32 * WIDTH) := by
  have h := a.toNat_not
  rw [neg,toNat_inc,← h]
  congr 1
  omega

theorem toNat_rows {x y : List UInt32} (aj : UInt32) (h : x.length ≤ y.length) :
    Nat.ofDigits (2^32) (digits (carryLoop 0
        (List.zipWith (fun x y => x.toUInt64 + aj.toUInt64 * y.toUInt64) x y))) =
      (Nat.ofDigits (2^32) (digits x) + aj.toNat * Nat.ofDigits (2^32) (digits y)) %
        (2^32)^x.length := by
  have haddends : (List.zipWith (fun x y : UInt32 => x.toUInt64 + aj.toUInt64 * y.toUInt64) x y).map
      UInt64.toNat = List.zipWith (fun d e => d + aj.toNat * e) (digits x) (digits y) := by
    rw [List.map_zipWith,digits,digits,List.zipWith_map]
    simp only [(word_mul_le _ _ _).1]
  have hbound : ∀ addend ∈ List.zipWith (fun x y : UInt32 => x.toUInt64 + aj.toUInt64 * y.toUInt64) x y,
      addend.toNat ≤ 2^64 - 2^32 := by
    intro addend hmem
    obtain ⟨i,_,rfl⟩ := List.mem_iff_getElem.mp hmem
    rw [List.getElem_zipWith,(word_mul_le _ _ _).1]
    exact (word_mul_le _ _ _).2
  have hmod := @ofDigits_zipWith_modEq (2^32) aj.toNat _ _
    (show (digits x).length ≤ (digits y).length by rwa [digits_length,digits_length])
  rw [digits_carryLoop (by decide) hbound,haddends,carryDigits_eq (by decide),ofDigits_digitsLE,
    List.length_zipWith,digits_length,digits_length,Nat.min_eq_left h]
  rw [digits_length] at hmod
  have hzero : (0 : UInt64).toNat = 0 := rfl
  rw [hzero,Nat.zero_add]
  exact hmod

theorem toNat_addAssign (a b : BaseUint WIDTH) :
    (a.addAssign b).toNat = (a.toNat + b.toNat) % 2^(32 * WIDTH) := by
  have h := toNat_rows 1 (show a.pn.length ≤ b.pn.length by rw [a.size,b.size])
  have hone : ∀ y : UInt32, (1 : UInt32).toUInt64 * y.toUInt64 = y.toUInt64 := fun y => by
    change 1 * y.toUInt64 = _
    rw [UInt64.one_mul]
  have hnat : (1 : UInt32).toNat = 1 := rfl
  simp only [hone,hnat,Nat.one_mul,a.size,radix_pow] at h
  exact h

theorem toNat_subAssign (a b : BaseUint WIDTH) :
    (a.subAssign b).toNat = (a.toNat + (2^(32 * WIDTH) - b.toNat)) % 2^(32 * WIDTH) := by
  rw [subAssign,toNat_addAssign,toNat_neg,Nat.add_mod_mod]

theorem toNat_mulAssign32 (a : BaseUint WIDTH) (b32 : UInt32) :
    (a.mulAssign32 b32).toNat = a.toNat * b32.toNat % 2^(32 * WIDTH) := by
  have hword : ∀ x : UInt32, (b32.toUInt64 * x.toUInt64).toNat = b32.toNat * x.toNat ∧
      b32.toNat * x.toNat ≤ 2^64 - 2^32 := by
    intro x
    have h := word_mul_le 0 b32 x
    have hzero : (0 : UInt32).toUInt64 + b32.toUInt64 * x.toUInt64 = b32.toUInt64 * x.toUInt64 := by
      change 0 + _ = _
      rw [UInt64.zero_add]
    have hnat : (0 : UInt32).toNat = 0 := rfl
    rwa [hzero,hnat,Nat.zero_add] at h
  have haddends : (a.pn.map fun x => b32.toUInt64 * x.toUInt64).map UInt64.toNat =
      (digits a.pn).map fun d => b32.toNat * d := by
    rw [digits,List.map_map,List.map_map]
    exact List.map_congr_left fun x _ => (hword x).1
  have hbound : ∀ addend ∈ a.pn.map fun x => b32.toUInt64 * x.toUInt64,
      addend.toNat ≤ 2^64 - 2^32 := by
    intro addend hmem
    obtain ⟨x,_,rfl⟩ := List.mem_map.mp hmem
    rw [(hword x).1]
    exact (hword x).2
  refine toNat_eq_mod ?_
  rw [mulAssign32,digits_carryLoop (by decide) hbound,haddends,carryDigits_eq (by decide),
    List.length_map,digits_length,a.size,← Nat.mul_ofDigits]
  congr 1
  have hzero : (0 : UInt64).toNat = 0 := rfl
  rw [hzero,Nat.zero_add,Nat.mul_comm]
  rfl

theorem toNat_mulRow (r : BaseUint WIDTH) {j : ℕ} (hj : j ≤ WIDTH) (aj : UInt32) (b : BaseUint WIDTH) :
    (r.mulRow j aj b).toNat = (r.toNat + 2^(32 * j) * (aj.toNat * b.toNat)) % 2^(32 * WIDTH) := by
  have hdrop : (r.pn.drop j).length = WIDTH - j := by rw [List.length_drop,r.size]
  have htake : (digits (r.pn.take j)).length = j := by
    rw [digits_length,List.length_take,r.size,Nat.min_eq_left hj]
  have hrow := toNat_rows (x := r.pn.drop j) (y := b.pn) aj (by rw [hdrop,b.size]; omega)
  have hsplit : r.toNat = Nat.ofDigits (2^32) (digits (r.pn.take j)) +
      2^(32 * j) * Nat.ofDigits (2^32) (digits (r.pn.drop j)) := by
    have happend : r.pn.map UInt32.toNat = digits (r.pn.take j) ++ digits (r.pn.drop j) := by
      rw [digits,digits,← List.map_append,List.take_append_drop]
    rw [toNat,happend,Nat.ofDigits_append,htake,← pow_mul]
  have hresult : (r.mulRow j aj b).toNat = Nat.ofDigits (2^32) (digits (r.pn.take j)) +
      2^(32 * j) * ((Nat.ofDigits (2^32) (digits (r.pn.drop j)) + aj.toNat * b.toNat) %
        2^(32 * (WIDTH - j))) := by
    rw [toNat,mulRow,List.map_append,Nat.ofDigits_append]
    change Nat.ofDigits _ (digits _) + _ * Nat.ofDigits _ (digits _) = _
    rw [hrow,hdrop,radix_pow,List.length_map,List.length_take,r.size,Nat.min_eq_left hj,← pow_mul]
    rfl
  have hpow : 2^(32 * WIDTH) = 2^(32 * j) * 2^(32 * (WIDTH - j)) := by
    rw [← pow_add]
    congr 1
    omega
  have hlt := toNat_lt (r.mulRow j aj b)
  rw [hresult,← Nat.mul_mod_mul_left,← hpow] at hlt
  rw [hresult,hsplit,← Nat.mul_mod_mul_left,← hpow,Nat.add_assoc,← Nat.mul_add,← Nat.add_mod_mod,
    Nat.mod_eq_of_lt hlt]

theorem toNat_mulAssign (a b : BaseUint WIDTH) :
    (a.mulAssign b).toNat = a.toNat * b.toNat % 2^(32 * WIDTH) := by
  -- after the rows of the first `n` words
  have hrows : ∀ n ≤ WIDTH, ((List.range n).foldl (fun r j => r.mulRow j (a.pn.getD j 0) b)
      (zero : BaseUint WIDTH)).toNat =
      Nat.ofDigits (2^32) (digits (a.pn.take n)) * b.toNat % 2^(32 * WIDTH) := by
    intro n hn
    induction n with
    | zero =>
      rw [List.take_zero,List.range_zero,List.foldl_nil,toNat_zero]
      simp [digits]
    | succ n ih =>
      have hlt : n < a.pn.length := by rw [a.size]; omega
      have htake : Nat.ofDigits (2^32) (digits (a.pn.take (n + 1))) =
          Nat.ofDigits (2^32) (digits (a.pn.take n)) + 2^(32 * n) * (a.pn.getD n 0).toNat := by
        rw [List.take_add_one,List.getD_eq_getElem?_getD,List.getElem?_eq_getElem hlt,digits,
          List.map_append,Option.toList_some,List.map_singleton,ofDigits_snoc,List.length_map,
          List.length_take,Nat.min_eq_left hlt.le,← pow_mul]
        rfl
      rw [List.range_succ,List.foldl_append,List.foldl_cons,List.foldl_nil,
        toNat_mulRow _ (by omega),ih (by omega),Nat.mod_add_mod,htake]
      congr 1
      ring
  have hall := hrows WIDTH (le_refl _)
  rwa [List.take_of_length_le a.size.le] at hall

end BaseUint
end Sidechain
