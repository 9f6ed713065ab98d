import Sidechain.Chain.ArithUint256
import Mathlib.Data.Nat.Bitwise

/-! Shifts, comparison, the length in bits and long division of the big integers, on their numbers. -/
namespace Sidechain
open Codec Limbs
namespace BaseUint
variable {WIDTH : ℕ}

theorem testBit_toNat (a : BaseUint WIDTH) (p : ℕ) :
    a.toNat.testBit p = (a.pn.getD (p / 32) 0).toNat.testBit (p % 32) := by
  rw [← digits_getD]
  exact testBit_ofDigits (by decide) (digits_lt a.pn) p

theorem word_testBit (x : UInt32) {r : ℕ} (hr : 32 ≤ r) : x.toNat.testBit r = false :=
  Nat.testBit_lt_two_pow (lt_of_lt_of_le x.toNat_lt (Nat.pow_le_pow_right (by decide) hr))

theorem digits_orAt (r : BaseUint WIDTH) (j : ℕ) (x : UInt32) :
    digits (r.orAt j x).pn = orWrites (digits r.pn) [(j,x.toNat)] := by
  refine List.ext_getElem? fun i => ?_
  simp only [digits,orAt,orWrites,List.foldl_cons,List.foldl_nil,List.getElem?_map,
    List.getElem?_modify]
  cases r.pn[i]? with
  | none => rfl
  | some y =>
    by_cases hij : j = i
    · simp [hij]
    · simp [hij]

/-- A loop of writes, as one list of writes. -/
theorem digits_foldl {step : BaseUint WIDTH → ℕ → BaseUint WIDTH} {writes : ℕ → List (ℕ × ℕ)}
    (hstep : ∀ r i, digits (step r i).pn = orWrites (digits r.pn) (writes i)) (is : List ℕ)
    (r : BaseUint WIDTH) : digits (is.foldl step r).pn = orWrites (digits r.pn) (is.flatMap writes) := by
  induction is generalizing r with
  | nil => rfl
  | cons i is ih =>
    rw [List.foldl_cons,ih,hstep,List.flatMap_cons,orWrites,orWrites,orWrites,List.foldl_append]

/-- The bits of the number that a loop of writes builds. -/
theorem testBit_foldl {step : BaseUint WIDTH → ℕ → BaseUint WIDTH} {writes : ℕ → List (ℕ × ℕ)}
    (hstep : ∀ r i, digits (step r i).pn = orWrites (digits r.pn) (writes i)) {p : ℕ}
    (hp : p < 32 * WIDTH) : ((List.range WIDTH).foldl step zero).toNat.testBit p = true ↔
      ∃ i < WIDTH, ∃ write ∈ writes i, write.1 = p / 32 ∧ write.2.testBit (p % 32) = true := by
  have hzero : digits (zero : BaseUint WIDTH).pn = List.replicate WIDTH 0 := List.map_replicate
  have hj : p / 32 < (List.replicate WIDTH 0).length := by
    rw [List.length_replicate]
    omega
  rw [testBit_toNat,← digits_getD,digits_foldl hstep,hzero,testBit_orWrites hj]
  have hstart : ((List.replicate WIDTH 0).getD (p / 32) 0).testBit (p % 32) = false := by
    rw [List.length_replicate] at hj
    rw [List.getD_eq_getElem?_getD,List.getElem?_replicate_of_lt hj]
    exact Nat.zero_testBit _
  rw [hstart]
  simp only [Bool.false_eq_true,false_or,List.mem_flatMap,List.mem_range]
  constructor
  · rintro ⟨write,⟨i,hi,hwrite⟩,hbit⟩
    exact ⟨i,hi,write,hwrite,hbit⟩
  · rintro ⟨i,hi,write,hwrite,hbit⟩
    exact ⟨write,⟨i,hi,hwrite⟩,hbit⟩

/-- What a step with two guarded writes writes. -/
def twoWrites (c₁ c₂ : Prop) [Decidable c₁] [Decidable c₂] (w₁ w₂ : ℕ × UInt32) : List (ℕ × ℕ) :=
  (if c₁ then [(w₁.1,w₁.2.toNat)] else []) ++ if c₂ then [(w₂.1,w₂.2.toNat)] else []

theorem digits_twoWrites (r : BaseUint WIDTH) (c₁ c₂ : Prop) [Decidable c₁] [Decidable c₂]
    (w₁ w₂ : ℕ × UInt32) :
    digits (let r := if c₁ then r.orAt w₁.1 w₁.2 else r
      if c₂ then r.orAt w₂.1 w₂.2 else r).pn = orWrites (digits r.pn) (twoWrites c₁ c₂ w₁ w₂) := by
  unfold twoWrites
  split_ifs
  · rw [digits_orAt,digits_orAt,orWrites,orWrites,orWrites,List.foldl_append]
  · rw [digits_orAt,List.append_nil]
  · rw [digits_orAt,List.nil_append]
  · rfl

theorem mem_twoWrites {c₁ c₂ : Prop} [Decidable c₁] [Decidable c₂] {w₁ w₂ : ℕ × UInt32} {j r : ℕ} :
    (∃ write ∈ twoWrites c₁ c₂ w₁ w₂, write.1 = j ∧ write.2.testBit r = true) ↔
      (c₁ ∧ w₁.1 = j ∧ w₁.2.toNat.testBit r = true) ∨ c₂ ∧ w₂.1 = j ∧ w₂.2.toNat.testBit r = true := by
  unfold twoWrites
  split_ifs with h₁ h₂ h₂ <;> simp [h₁,h₂]

theorem shift_toNat (shift : UInt32) : (shift % 32).toNat = shift.toNat % 32 := by
  have h : (32 : UInt32).toNat = 32 := rfl
  rw [UInt32.toNat_mod,h]

theorem word_shiftLeft (x s : UInt32) (hs : s.toNat < 32) {r : ℕ} (hr : r < 32) :
    (x <<< s).toNat.testBit r = (decide (s.toNat ≤ r) && x.toNat.testBit (r - s.toNat)) := by
  rw [UInt32.toNat_shiftLeft,Nat.mod_eq_of_lt hs,Nat.testBit_mod_two_pow,Nat.testBit_shiftLeft]
  simp [hr]

theorem word_shiftRight (x s : UInt32) (hs : s.toNat < 32) (r : ℕ) :
    (x >>> s).toNat.testBit r = x.toNat.testBit (s.toNat + r) := by
  rw [UInt32.toNat_shiftRight,Nat.mod_eq_of_lt hs,Nat.testBit_shiftRight]

theorem rest_toNat {shift : UInt32} (h : shift % 32 ≠ 0) :
    (32 - shift % 32).toNat = 32 - shift.toNat % 32 ∧ shift.toNat % 32 ≠ 0 := by
  have hword : (32 : UInt32).toNat = 32 := rfl
  have hle : shift % 32 ≤ 32 := by
    rw [UInt32.le_iff_toNat_le,shift_toNat,hword]
    omega
  refine ⟨by rw [UInt32.toNat_sub_of_le _ _ hle,shift_toNat,hword],fun hzero => h ?_⟩
  rw [← UInt32.toNat_inj,shift_toNat,hzero]
  rfl

theorem shift_ne_zero {shift : UInt32} (h : shift.toNat % 32 ≠ 0) : shift % 32 ≠ 0 := by
  intro hzero
  rw [← shift_toNat,hzero] at h
  exact h rfl

/-- `<<=` multiplies by a power of two. -/
theorem toNat_shlAssign (a : BaseUint WIDTH) (shift : UInt32) :
    (a.shlAssign shift).toNat = a.toNat * 2^shift.toNat % 2^(32 * WIDTH) := by
  have hs : (shift % 32).toNat < 32 := by
    rw [shift_toNat]
    omega
  refine Nat.eq_of_testBit_eq fun p => ?_
  rw [← Nat.shiftLeft_eq,Nat.testBit_mod_two_pow,Nat.testBit_shiftLeft]
  by_cases hp : p < 32 * WIDTH
  · rw [decide_eq_true hp,Bool.true_and,Bool.eq_iff_iff]
    refine (testBit_foldl (fun r i => digits_twoWrites r
      (i + shift.toNat / 32 + 1 < WIDTH ∧ shift % 32 ≠ 0) (i + shift.toNat / 32 < WIDTH)
      (i + shift.toNat / 32 + 1,a.pn.getD i 0 >>> (32 - shift % 32))
      (i + shift.toNat / 32,a.pn.getD i 0 <<< (shift % 32))) hp).trans ?_
    simp only [mem_twoWrites,Bool.and_eq_true,decide_eq_true_eq,testBit_toNat a,
      word_shiftLeft _ _ hs (Nat.mod_lt p (by decide : 0 < 32)),shift_toNat]
    constructor
    · rintro ⟨i,hi,⟨⟨hin,hne⟩,hj,hbit⟩ | ⟨hin,hj,hle,hbit⟩⟩
      · obtain ⟨hrest,hpos⟩ := rest_toNat hne
        rw [word_shiftRight _ _ (by omega),hrest] at hbit
        have hlow : 32 - shift.toNat % 32 + p % 32 < 32 := by
          by_contra hhigh
          rw [word_testBit _ (not_lt.mp hhigh)] at hbit
          cases hbit
        refine ⟨by omega,?_⟩
        rwa [show (p - shift.toNat) / 32 = i by omega,
          show (p - shift.toNat) % 32 = 32 - shift.toNat % 32 + p % 32 by omega]
      · refine ⟨by omega,?_⟩
        rwa [show (p - shift.toNat) / 32 = i by omega,
          show (p - shift.toNat) % 32 = p % 32 - shift.toNat % 32 by omega]
    · rintro ⟨hle,hbit⟩
      refine ⟨(p - shift.toNat) / 32,by omega,?_⟩
      by_cases hcase : shift.toNat % 32 ≤ p % 32
      · refine .inr ⟨by omega,by omega,hcase,?_⟩
        rwa [show p % 32 - shift.toNat % 32 = (p - shift.toNat) % 32 by omega]
      · have hne := shift_ne_zero (show shift.toNat % 32 ≠ 0 by omega)
        refine .inl ⟨⟨by omega,hne⟩,by omega,?_⟩
        obtain ⟨hrest,_⟩ := rest_toNat hne
        rw [word_shiftRight _ _ (by omega),hrest]
        rwa [show 32 - shift.toNat % 32 + p % 32 = (p - shift.toNat) % 32 by omega]
  · have hhigh := Nat.testBit_lt_two_pow (lt_of_lt_of_le (toNat_lt (a.shlAssign shift))
      (Nat.pow_le_pow_right (by decide) (not_lt.mp hp)))
    simp [hhigh,hp]

/-- `>>=` divides by a power of two. -/
theorem toNat_shrAssign (a : BaseUint WIDTH) (shift : UInt32) :
    (a.shrAssign shift).toNat = a.toNat / 2^shift.toNat := by
  have hs : (shift % 32).toNat < 32 := by
    rw [shift_toNat]
    omega
  have hbeyond : ∀ p, 32 * WIDTH ≤ p → a.toNat.testBit p = false := fun p hp =>
    Nat.testBit_lt_two_pow (lt_of_lt_of_le (toNat_lt a) (Nat.pow_le_pow_right (by decide) hp))
  refine Nat.eq_of_testBit_eq fun p => ?_
  rw [← Nat.shiftRight_eq_div_pow,Nat.testBit_shiftRight]
  by_cases hp : p < 32 * WIDTH
  · rw [Bool.eq_iff_iff]
    refine (testBit_foldl (fun r i => digits_twoWrites r
      (shift.toNat / 32 + 1 ≤ i ∧ shift % 32 ≠ 0) (shift.toNat / 32 ≤ i)
      (i - shift.toNat / 32 - 1,a.pn.getD i 0 <<< (32 - shift % 32))
      (i - shift.toNat / 32,a.pn.getD i 0 >>> (shift % 32))) hp).trans ?_
    simp only [mem_twoWrites,testBit_toNat a,word_shiftRight _ _ hs,shift_toNat]
    constructor
    · rintro ⟨i,hi,⟨⟨hin,hne⟩,hj,hbit⟩ | ⟨hin,hj,hbit⟩⟩
      · obtain ⟨hrest,hpos⟩ := rest_toNat hne
        rw [word_shiftLeft _ _ (by omega) (Nat.mod_lt p (by decide)),Bool.and_eq_true,
          decide_eq_true_eq,hrest] at hbit
        rw [show (shift.toNat + p) / 32 = i by omega,
          show (shift.toNat + p) % 32 = p % 32 - (32 - shift.toNat % 32) by omega]
        exact hbit.2
      · have hlow : shift.toNat % 32 + p % 32 < 32 := by
          by_contra hhigh
          rw [word_testBit _ (not_lt.mp hhigh)] at hbit
          cases hbit
        rwa [show (shift.toNat + p) / 32 = i by omega,
          show (shift.toNat + p) % 32 = shift.toNat % 32 + p % 32 by omega]
    · intro hbit
      have hi : (shift.toNat + p) / 32 < WIDTH := by
        by_contra hge
        rw [← testBit_toNat,hbeyond _ (by omega)] at hbit
        cases hbit
      refine ⟨(shift.toNat + p) / 32,hi,?_⟩
      by_cases hcase : shift.toNat % 32 + p % 32 < 32
      · refine .inr ⟨by omega,by omega,?_⟩
        rwa [show shift.toNat % 32 + p % 32 = (shift.toNat + p) % 32 by omega]
      · have hne := shift_ne_zero (show shift.toNat % 32 ≠ 0 by omega)
        obtain ⟨hrest,_⟩ := rest_toNat hne
        refine .inl ⟨⟨by omega,hne⟩,by omega,?_⟩
        rw [word_shiftLeft _ _ (by omega) (Nat.mod_lt p (by decide)),Bool.and_eq_true,
          decide_eq_true_eq,hrest]
        refine ⟨by omega,?_⟩
        rwa [show p % 32 - (32 - shift.toNat % 32) = (shift.toNat + p) % 32 by omega]
  · rw [hbeyond _ (by omega),Nat.testBit_lt_two_pow (lt_of_lt_of_le (toNat_lt (a.shrAssign shift))
      (Nat.pow_le_pow_right (by decide) (not_lt.mp hp)))]

theorem compareLoop_eq {pn b : List UInt32} (h : pn.length = b.length) :
    compareLoop pn.reverse b.reverse =
      if Nat.ofDigits (2^32) (digits pn) < Nat.ofDigits (2^32) (digits b) then -1
      else if Nat.ofDigits (2^32) (digits b) < Nat.ofDigits (2^32) (digits pn) then 1 else 0 := by
  induction pn using List.reverseRec generalizing b with
  | nil =>
    obtain rfl := List.length_eq_zero_iff.mp h.symm
    rfl
  | append_singleton pn x ih =>
    rcases List.eq_nil_or_concat b with rfl | ⟨b,y,rfl⟩
    · simp at h
    · have hlength : pn.length = b.length := by simpa using h
      have hsnoc : ∀ (l : List UInt32) z, digits (l ++ [z]) = digits l ++ [z.toNat] := fun l z =>
        List.map_append
      have hdigits : (digits pn).length = (digits b).length := by simpa using hlength
      rw [List.concat_eq_append,List.reverse_append,List.reverse_append,hsnoc,hsnoc]
      simp only [List.reverse_singleton,List.singleton_append,compareLoop]
      rcases Nat.lt_trichotomy x.toNat y.toNat with hlt | heq | hgt
      · rw [if_pos (UInt32.lt_iff_toNat_lt.mpr hlt),
          if_pos (ofDigits_snoc_lt (by decide) hdigits (digits_lt pn) hlt)]
      · obtain rfl := UInt32.toNat_inj.mp heq
        rw [if_neg (UInt32.lt_irrefl x),if_neg (UInt32.lt_irrefl x),ih hlength,ofDigits_snoc,
          ofDigits_snoc,hdigits]
        simp only [Nat.add_lt_add_iff_right]
      · have hnot : ¬ x < y := fun hxy => Nat.lt_asymm hgt (UInt32.lt_iff_toNat_lt.mp hxy)
        have hvalue := ofDigits_snoc_lt (by decide) hdigits.symm (digits_lt b) hgt
        rw [if_neg hnot,if_pos (UInt32.lt_iff_toNat_lt.mpr hgt),if_neg (Nat.lt_asymm hvalue),
          if_pos hvalue]

theorem compareTo_eq (a b : BaseUint WIDTH) :
    a.compareTo b = if a.toNat < b.toNat then -1 else if b.toNat < a.toNat then 1 else 0 :=
  compareLoop_eq (a.size.trans b.size.symm)

theorem compareTo_nonneg {a b : BaseUint WIDTH} : a.compareTo b ≥ 0 ↔ b.toNat ≤ a.toNat := by
  rw [compareTo_eq]
  split_ifs with hlt hgt
  · exact iff_of_false (by decide) (not_le.mpr hlt)
  · exact iff_of_true (by decide) hgt.le
  · exact iff_of_true (by decide) (not_lt.mp hlt)

theorem compareTo_pos {a b : BaseUint WIDTH} : a.compareTo b > 0 ↔ b.toNat < a.toNat := by
  rw [compareTo_eq]
  split_ifs <;> omega

theorem oneShift_toNat {b : ℕ} (hb : b < 32) : (1 <<< UInt32.ofNat b : UInt32).toNat = 2^b := by
  have hone : (1 : UInt32).toNat = 1 := rfl
  have hsize : UInt32.size = 2^32 := rfl
  rw [UInt32.toNat_shiftLeft,UInt32.toNat_ofNat_of_lt' (by omega),Nat.mod_eq_of_lt hb,hone,
    Nat.one_shiftLeft,Nat.mod_eq_of_lt (Nat.pow_lt_pow_right (by decide) hb)]

theorem bit_word {b : ℕ} (hb : b < 32) (x : UInt32) :
    x &&& 1 <<< UInt32.ofNat b ≠ 0 ↔ x.toNat.testBit b = true := by
  have hnat : (x &&& 1 <<< UInt32.ofNat b).toNat = (x.toNat.testBit b).toNat * 2^b := by
    rw [UInt32.toNat_and,oneShift_toNat hb,Nat.and_two_pow]
  have hzero : (0 : UInt32).toNat = 0 := rfl
  rw [ne_eq,← UInt32.toNat_inj,hnat,hzero]
  cases x.toNat.testBit b with
  | false => simp
  | true => simp

theorem topBit_eq {b : ℕ} (hb : b < 32) {x : UInt32} (hpos : x ≠ 0) (hx : x.toNat < 2^(b + 1)) :
    topBit b x = Nat.size x.toNat := by
  have hnat : 0 < x.toNat := Nat.pos_of_ne_zero fun h => hpos (UInt32.toNat_inj.mp h)
  induction b with
  | zero =>
    have hone : x.toNat = 1 := by omega
    rw [topBit,hone,Nat.size_one]
  | succ b ih =>
    rw [topBit]
    split_ifs with hbit
    · have hle := Nat.ge_two_pow_of_testBit ((bit_word hb x).mp hbit)
      exact le_antisymm (Nat.lt_size.mpr hle) (Nat.size_le.mpr hx)
    · refine ih (by omega) ?_
      rw [bit_word hb] at hbit
      refine Nat.lt_pow_two_of_testBit _ fun i hi => ?_
      rcases Nat.lt_or_ge (b + 1) i with hgt | hle
      · exact Nat.testBit_lt_two_pow (lt_of_lt_of_le hx (Nat.pow_le_pow_right (by decide) hgt))
      · obtain rfl : i = b + 1 := by omega
        exact Bool.eq_false_iff.mpr hbit

theorem bitsLoop_eq (pn : List UInt32) :
    bitsLoop pn.reverse = Nat.size (Nat.ofDigits (2^32) (digits pn)) := by
  induction pn using List.reverseRec with
  | nil => rfl
  | append_singleton pn x ih =>
    have hsnoc : digits (pn ++ [x]) = digits pn ++ [x.toNat] := List.map_append
    rw [List.reverse_append,List.reverse_singleton,List.singleton_append,bitsLoop,hsnoc]
    split_ifs with hx
    · rw [size_snoc (digits_lt pn) (by decide) (fun h => hx (UInt32.toNat_inj.mp h)),
        topBit_eq (by decide) hx x.toNat_lt,List.length_reverse,digits_length]
    · rw [not_not] at hx
      have hzero : (0 : UInt32).toNat = 0 := rfl
      rw [ih,ofDigits_snoc,hx,hzero,Nat.mul_zero,Nat.add_zero]

theorem bits_eq (a : BaseUint WIDTH) : a.bits = Nat.size a.toNat := bitsLoop_eq a.pn

theorem toNat_setBit (quot : BaseUint WIDTH) {s m : ℕ} (hs : s < 32 * WIDTH)
    (hquot : quot.toNat = m * 2^(s + 1)) :
    (quot.orAt (s / 32) (1 <<< UInt32.ofNat (s &&& 31))).toNat = quot.toNat + 2^s := by
  have hmask : s &&& 31 = s % 32 := Nat.and_two_pow_sub_one_eq_mod s 5
  have hlt : s % 32 < 32 := Nat.mod_lt _ (by decide)
  have hsum : quot.toNat + 2^s = quot.toNat ||| 2^s := by
    rw [hquot,Nat.mul_comm,Nat.two_pow_add_eq_or_of_lt (Nat.pow_lt_pow_right (by decide) (Nat.lt_succ_self s))]
  refine Nat.eq_of_testBit_eq fun p => ?_
  rw [hsum,Nat.testBit_or,Nat.testBit_two_pow,testBit_toNat,testBit_toNat,← digits_getD,← digits_getD,
    digits_orAt,hmask,oneShift_toNat hlt]
  rcases Nat.lt_or_ge p (32 * WIDTH) with hp | hp
  · rw [Bool.eq_iff_iff,testBit_orWrites (by rw [digits_length,quot.size]; omega)]
    simp only [List.mem_singleton,exists_eq_left,Nat.testBit_two_pow,Bool.or_eq_true,
      decide_eq_true_eq]
    refine or_congr_right ⟨fun h => ?_,fun h => ?_⟩
    · omega
    · omega
  · have hdrop : ∀ ds : List ℕ, ds.length = WIDTH → ds.getD (p / 32) 0 = 0 := fun ds hds => by
      rw [List.getD_eq_getElem?_getD,List.getElem?_eq_none (by omega),Option.getD_none]
    rw [hdrop _ (by rw [orWrites_length,digits_length,quot.size]),
      hdrop _ (by rw [digits_length,quot.size]),decide_eq_false (by omega),Bool.or_false]

/-- The loop is long division of the numbers. -/
theorem toNat_divLoop {d n m : ℕ} {num div quot : BaseUint WIDTH} (hn : n ≤ 32 * WIDTH)
    (hdiv : 0 < n → div.toNat = d * 2^(n - 1)) (hquot : quot.toNat = m * 2^n) :
    (divLoop n num div quot).toNat = (divSteps d n num.toNat quot.toNat).1 := by
  induction n generalizing num div quot m with
  | zero => rfl
  | succ s ih =>
    have hvalue := hdiv (Nat.succ_pos s)
    rw [Nat.add_sub_cancel] at hvalue
    have hhalf : 0 < s → (div.shrAssign 1).toNat = d * 2^(s - 1) := by
      intro hs
      have hone : (1 : UInt32).toNat = 1 := rfl
      rw [toNat_shrAssign,hvalue,hone,pow_one]
      obtain ⟨t,rfl⟩ : ∃ t, s = t + 1 := ⟨s - 1,by omega⟩
      rw [Nat.add_sub_cancel,pow_succ,← Nat.mul_assoc,Nat.mul_div_cancel _ (by decide)]
    have hbit := toNat_setBit quot (show s < 32 * WIDTH by omega) hquot
    rw [divLoop,divSteps,← hvalue]
    by_cases hle : div.toNat ≤ num.toNat
    · have hsub : (num.subAssign div).toNat = num.toNat - div.toNat := by
        have hlt := toNat_lt num
        have hlt' := toNat_lt div
        rw [toNat_subAssign,show num.toNat + (2^(32 * WIDTH) - div.toNat) =
          num.toNat - div.toNat + 2^(32 * WIDTH) by omega,Nat.add_mod_right,Nat.mod_eq_of_lt (by omega)]
      have hnext : quot.toNat + 2^s = (2 * m + 1) * 2^s := by
        rw [hquot,pow_succ]
        ring
      rw [if_pos (compareTo_nonneg.mpr hle),if_pos hle,
        ih (by omega) hhalf (hbit.trans hnext),hsub,hbit]
    · have hnext : quot.toNat = (2 * m) * 2^s := by
        rw [hquot,pow_succ]
        ring
      rw [if_neg fun h => hle (compareTo_nonneg.mp h),if_neg hle,ih (by omega) hhalf hnext]

/-- `/=` divides with floor; it throws for a divisor of zero. -/
theorem divAssign_eq (num div : BaseUint WIDTH) (hwidth : 32 * WIDTH < 2^32) :
    (div.toNat = 0 → num.divAssign div = .error (.exception "Division by zero")) ∧
    (div.toNat ≠ 0 → ∃ quot, num.divAssign div = .ok quot ∧ quot.toNat = num.toNat / div.toNat) := by
  rw [divAssign,bits_eq,bits_eq]
  constructor
  · intro hzero
    rw [if_pos (Nat.size_eq_zero.mpr hzero)]
  · intro hne
    rw [if_neg fun h => hne (Nat.size_eq_zero.mp h)]
    by_cases hgt : Nat.size div.toNat > Nat.size num.toNat
    · rw [if_pos hgt]
      have hsmall : num.toNat < div.toNat :=
        lt_of_lt_of_le (Nat.lt_size_self _) (Nat.lt_size.mp hgt)
      exact ⟨zero,rfl,by rw [toNat_zero,Nat.div_eq_of_lt hsmall]⟩
    · rw [if_neg hgt]
      have hle : Nat.size div.toNat ≤ Nat.size num.toNat := not_lt.mp hgt
      obtain ⟨shift,hshift⟩ : ∃ shift, Nat.size num.toNat = Nat.size div.toNat + shift :=
        ⟨_,(Nat.add_sub_cancel' hle).symm⟩
      have hsize : Nat.size num.toNat ≤ 32 * WIDTH := Nat.size_le.mpr (toNat_lt num)
      have hdivpos : 0 < Nat.size div.toNat := Nat.size_pos.mpr (Nat.pos_of_ne_zero hne)
      have hword : (UInt32.ofNat shift).toNat = shift := by
        have hmax : UInt32.size = 2^32 := rfl
        exact UInt32.toNat_ofNat_of_lt' (by omega)
      -- the shifted divisor still fits, and the number is below its double
      have hfits : div.toNat * 2^shift < 2^(32 * WIDTH) := by
        calc div.toNat * 2^shift < 2^Nat.size div.toNat * 2^shift :=
              Nat.mul_lt_mul_of_pos_right (Nat.lt_size_self _) (Nat.two_pow_pos _)
          _ = 2^Nat.size num.toNat := by rw [← pow_add,← hshift]
          _ ≤ _ := Nat.pow_le_pow_right (by decide) hsize
      have hshl : (div.shlAssign (UInt32.ofNat shift)).toNat = div.toNat * 2^shift := by
        rw [toNat_shlAssign,hword,Nat.mod_eq_of_lt hfits]
      have hbelow : num.toNat < div.toNat * 2^(shift + 1) := by
        obtain ⟨k,hk⟩ : ∃ k, Nat.size div.toNat = k + 1 := ⟨_,(Nat.sub_add_cancel hdivpos).symm⟩
        have hpow : 2^k ≤ div.toNat := Nat.lt_size.mp (by omega)
        calc num.toNat < 2^Nat.size num.toNat := Nat.lt_size_self _
          _ = 2^k * 2^(shift + 1) := by
            rw [hshift,hk,← pow_add]
            congr 1
            omega
          _ ≤ _ := Nat.mul_le_mul_right _ hpow
      rw [hshift,Nat.add_sub_cancel_left]
      refine ⟨_,rfl,?_⟩
      rw [toNat_divLoop (d := div.toNat) (m := 0) (by omega) (fun _ => hshl) (by rw [toNat_zero]; simp),
        divSteps_eq hbelow,toNat_zero,Nat.zero_add]

theorem toNat_ofUInt64 (b : UInt64) : (ofUInt64 b : BaseUint (WIDTH + 2)).toNat = b.toNat := by
  have hb := b.toNat_lt
  have hshift : (32 : UInt64).toNat % 64 = 32 := rfl
  have hhigh : (b >>> 32).toUInt32.toNat = b.toNat / 2^32 := by
    rw [UInt64.toNat_toUInt32,UInt64.toNat_shiftRight,hshift,Nat.shiftRight_eq_div_pow,
      Nat.mod_eq_of_lt (by omega)]
  have hzero : Nat.ofDigits (2^32) ((List.replicate WIDTH (0 : UInt32)).map UInt32.toNat) = 0 := by
    rw [List.map_replicate]
    exact Nat.ofDigits_replicate_zero
  rw [toNat,ofUInt64,List.map_cons,List.map_cons,Nat.ofDigits_cons,Nat.ofDigits_cons,hzero,hhigh,
    UInt64.toNat_toUInt32,Nat.mul_zero,Nat.add_zero]
  exact Nat.mod_add_div _ _

theorem toNat_split (a : BaseUint (WIDTH + 2)) : a.toNat = (a.pn.getD 0 0).toNat +
    2^32 * ((a.pn.getD 1 0).toNat + 2^32 * Nat.ofDigits (2^32) (digits (a.pn.drop 2))) := by
  obtain ⟨pn,hsize⟩ := a
  obtain ⟨x,y,pn,rfl⟩ : ∃ x y rest, pn = x :: y :: rest := by
    match pn,hsize with
    | x :: y :: rest,_ => exact ⟨x,y,rest,rfl⟩
  change Nat.ofDigits _ (x.toNat :: y.toNat :: digits pn) = _
  rw [Nat.ofDigits_cons,Nat.ofDigits_cons]
  rfl

theorem toNat_getLow64 (a : BaseUint (WIDTH + 2)) : a.getLow64.toNat = a.toNat % 2^64 := by
  have hlow := (a.pn.getD 0 0).toNat_lt
  have hhigh := (a.pn.getD 1 0).toNat_lt
  have hshift : (32 : UInt64).toNat % 64 = 32 := rfl
  rw [getLow64,UInt64.toNat_or,UInt64.toNat_shiftLeft,UInt32.toNat_toUInt64,UInt32.toNat_toUInt64,
    hshift,Nat.shiftLeft_eq,Nat.mod_eq_of_lt (by omega),Nat.or_comm,Nat.mul_comm,
    ← Nat.two_pow_add_eq_or_of_lt hlow,toNat_split]
  omega

theorem equalTo_iff {a : BaseUint (WIDTH + 2)} {b : UInt64} :
    a.equalTo b = true ↔ a.toNat = b.toNat := by
  have hlow := (a.pn.getD 0 0).toNat_lt
  have hhigh := (a.pn.getD 1 0).toNat_lt
  have hb := b.toNat_lt
  have hshift : (32 : UInt64).toNat % 64 = 32 := rfl
  have hmask : (0xffffffff : UInt64).toNat = 2^32 - 1 := rfl
  have hrest : (a.pn.drop 2).all (· == 0) = true ↔
      Nat.ofDigits (2^32) (digits (a.pn.drop 2)) = 0 := by
    generalize a.pn.drop 2 = pn
    induction pn with
    | nil => simp [digits]
    | cons x pn ih =>
      have hcons : digits (x :: pn) = x.toNat :: digits pn := rfl
      have hx : x = 0 ↔ x.toNat = 0 := UInt32.toNat_inj.symm
      rw [List.all_cons,Bool.and_eq_true,ih,beq_iff_eq,hx,hcons,Nat.ofDigits_cons]
      omega
  rw [equalTo,Bool.and_eq_true,Bool.and_eq_true,hrest,beq_iff_eq,beq_iff_eq,← UInt64.toNat_inj,
    ← UInt64.toNat_inj,UInt32.toNat_toUInt64,UInt32.toNat_toUInt64,UInt64.toNat_shiftRight,hshift,
    UInt64.toNat_and,hmask,Nat.and_two_pow_sub_one_eq_mod,Nat.shiftRight_eq_div_pow,toNat_split]
  omega

end BaseUint

/-- The operators on the words are those on natural numbers modulo the power of two, and division by zero
is the only error. -/
theorem arithUint256_operators (a b : ArithUint256) (shift b32 : UInt32) (b64 : UInt64) :
    (a.addAssign b).toNat = (a.toNat + b.toNat) % 2^256 ∧
    ((a.subAssign b).toNat : ℤ) = ((a.toNat : ℤ) - b.toNat) % 2^256 ∧
    (a.mulAssign b).toNat = a.toNat * b.toNat % 2^256 ∧
    (a.mulAssign32 b32).toNat = a.toNat * b32.toNat % 2^256 ∧
    (a.shlAssign shift).toNat = a.toNat * 2^shift.toNat % 2^256 ∧
    (a.shrAssign shift).toNat = a.toNat / 2^shift.toNat ∧
    (a.divAssign b = .error (.exception "Division by zero") ↔ b.toNat = 0) ∧
    (∀ quot, a.divAssign b = .ok quot ↔ b.toNat ≠ 0 ∧ quot.toNat = a.toNat / b.toNat) ∧
    (a.compareTo b < 0 ↔ a.toNat < b.toNat) ∧ (a.compareTo b > 0 ↔ a.toNat > b.toNat) ∧
    (a.compareTo b = 0 ↔ a.toNat = b.toNat) ∧ (a = b ↔ a.toNat = b.toNat) ∧
    (a.equalTo b64 = true ↔ a.toNat = b64.toNat) := by
  obtain ⟨hzero,hquot⟩ := BaseUint.divAssign_eq a b (by decide)
  have hcompare := BaseUint.compareTo_eq a b
  refine ⟨BaseUint.toNat_addAssign a b,?_,BaseUint.toNat_mulAssign a b,BaseUint.toNat_mulAssign32 a b32,
    BaseUint.toNat_shlAssign a shift,BaseUint.toNat_shrAssign a shift,?_,?_,?_,?_,?_,
    ⟨congrArg _,BaseUint.toNat_injective⟩,BaseUint.equalTo_iff⟩
  · have hlt : b.toNat < 2^256 := BaseUint.toNat_lt b
    have hsub : (a.subAssign b).toNat = (a.toNat + (2^256 - b.toNat)) % 2^256 :=
      BaseUint.toNat_subAssign a b
    omega
  · refine ⟨fun herror => ?_,hzero⟩
    by_contra hne
    obtain ⟨quot,hok,_⟩ := hquot hne
    rw [hok] at herror
    cases herror
  · intro quot
    by_cases hb : b.toNat = 0
    · rw [hzero hb]
      exact iff_of_false nofun fun h => h.1 hb
    · obtain ⟨quot',hok,hvalue⟩ := hquot hb
      rw [hok]
      constructor
      · rintro ⟨⟩
        exact ⟨hb,hvalue⟩
      · rintro ⟨_,h⟩
        rw [BaseUint.toNat_injective (hvalue.trans h.symm)]
  · rw [hcompare]
    split_ifs <;> omega
  · exact BaseUint.compareTo_pos
  · rcases Nat.lt_trichotomy a.toNat b.toNat with hlt | heq | hgt
    · rw [hcompare,if_pos hlt]
      exact iff_of_false (by decide) hlt.ne
    · rw [hcompare,heq,if_neg (lt_irrefl _),if_neg (lt_irrefl _)]
      exact iff_of_true rfl rfl
    · rw [hcompare,if_neg (Nat.lt_asymm hgt),if_pos hgt]
      exact iff_of_false (by decide) hgt.ne'

end Sidechain
