import Sidechain.Primitives.Outcome
import Mathlib

/-! Amounts as they are stored with coins and undo data: the zeros at the end are counted off, and
the last digit that is left is kept apart. The integer types of the code are a parameter, so that
results can say what does not depend on their width. -/
namespace Sidechain

/-- What a type of the code makes of a number: `uint64_t` and `int`. -/
structure CInts where
  u64 : ℤ → ℤ
  int : ℤ → ℤ

/-- Both types wrap around. -/
def CInts.machine : CInts := ⟨fun x => x % 2^64,fun x => (x + 2^31) % 2^32 - 2^31⟩

/-- Numbers that a type has are left alone. Of other numbers nothing is said. -/
structure CInts.Exact (c : CInts) : Prop where
  u64 : ∀ {x}, 0 ≤ x → x < 2^64 → c.u64 x = x
  int : ∀ {x}, -2^31 ≤ x → x < 2^31 → c.int x = x

/-- The types without their width. -/
def CInts.wide : CInts := ⟨id,id⟩

@[simp] theorem CInts.wide_u64 (x : ℤ) : CInts.wide.u64 x = x := rfl

@[simp] theorem CInts.wide_int (x : ℤ) : CInts.wide.int x = x := rfl

theorem CInts.machine_exact : CInts.machine.Exact where
  u64 h₀ h₁ := Int.emod_eq_of_lt h₀ h₁
  int {x} h₀ h₁ := by
    change (x + 2^31) % 2^32 - 2^31 = x
    omega

/-- Decimal zeros at the end are counted off, as many as there is fuel. -/
def stripZeros (c : CInts) : ℕ → ℤ → ℤ → ℤ × ℤ
  | 0,n,e => (n,e)
  | fuel + 1,n,e => if n % 10 = 0 then stripZeros c fuel (n / 10) (c.int (e + 1)) else (n,e)

def compressAmount (c : CInts) (n : ℤ) : ℤ :=
  if n = 0 then 0
  else
    let (n,e) := stripZeros c 9 n 0
    if e < 9 then
      let d := c.int (n % 10)
      let n := n / 10
      c.u64 (c.u64 (1 + c.u64 (c.u64 (c.u64 (c.u64 (n * 9) + d) - 1) * 10)) + e)
    else c.u64 (c.u64 (1 + c.u64 (c.u64 (n - 1) * 10)) + 9)

def decompressAmount (c : CInts) (x : ℤ) : ℤ :=
  if x = 0 then 0
  else
    let x := c.u64 (x - 1)
    let e := c.int (x % 10)
    let x := x / 10
    let n := if e < 9 then
      let d := c.int (x % 9 + 1)
      let x := x / 9
      c.u64 (c.u64 (x * 10) + d)
    else c.u64 (x + 1)
    (fun n => c.u64 (n * 10))^[e.toNat] n

variable {c : CInts}

theorem stripZeros_eq (hc : c.Exact) {fuel : ℕ} {n e : ℤ} (he : 0 ≤ e) (hfuel : e + fuel ≤ 9) :
    stripZeros c fuel n e = stripZeros .wide fuel n e := by
  induction fuel generalizing n e with
  | zero => rfl
  | succ fuel ih =>
    rw [stripZeros,stripZeros]
    split_ifs with hzero
    · have hint : c.int (e + 1) = e + 1 := hc.int (by omega) (by omega)
      rw [hint]
      exact ih (by omega) (by omega)
    · rfl

/-- Nothing is lost: what is left and the number of zeros give the amount, and either all nine were
there or a digit other than zero is left, so the assertion on the digit holds. -/
theorem stripZeros_spec (fuel : ℕ) {n : ℤ} (hn : 0 < n) (e : ℤ) :
    ∃ k : ℕ, ∃ m : ℤ, stripZeros .wide fuel n e = (m,e + k) ∧ k ≤ fuel ∧ 0 < m ∧ n = m * 10^k ∧
      (k < fuel → m % 10 ≠ 0) := by
  induction fuel generalizing n e with
  | zero => exact ⟨0,n,by simp [stripZeros],le_rfl,hn,by simp,fun h => absurd h (lt_irrefl _)⟩
  | succ fuel ih =>
    rw [stripZeros]
    split_ifs with hzero
    · obtain ⟨k,m,hm,hk,hpos,hval,hdigit⟩ := ih (show 0 < n / 10 by omega) (e + 1)
      refine ⟨k + 1,m,?_,by omega,hpos,?_,fun h => hdigit (by omega)⟩
      · rw [CInts.wide_int,hm,Nat.cast_succ]
        exact congrArg (Prod.mk m) (by ring)
      · rw [pow_succ,← mul_assoc,← hval]
        omega
    · exact ⟨0,n,by simp,Nat.zero_le _,hn,by simp,fun _ => hzero⟩

theorem compressAmount_wide {n : ℤ} (hn : 0 < n) : ∃ k : ℕ, ∃ m : ℤ,
    stripZeros .wide 9 n 0 = (m,(k : ℤ)) ∧ n = m * 10^k ∧ 0 < m ∧ (k < 9 ∧ 1 ≤ m % 10 ∧
        compressAmount .wide n = 1 + (m / 10 * 9 + m % 10 - 1) * 10 + k ∨
      k = 9 ∧ compressAmount .wide n = 1 + (m - 1) * 10 + 9) := by
  obtain ⟨k,m,hstrip,hk,hpos,hval,hdigit⟩ := stripZeros_spec 9 hn 0
  rw [zero_add] at hstrip
  refine ⟨k,m,hstrip,hval,hpos,?_⟩
  rw [compressAmount,if_neg hn.ne',hstrip]
  rcases hk.lt_or_eq with hlt | rfl
  · refine .inl ⟨hlt,by have := hdigit hlt; omega,?_⟩
    simp only [CInts.wide_u64,CInts.wide_int]
    rw [if_pos (by omega)]
  · exact .inr ⟨rfl,by simp⟩

theorem compressAmount_le {n : ℤ} (hn : 0 ≤ n) : compressAmount .wide n ≤ 9 * n := by
  rcases hn.eq_or_lt with rfl | hpos
  · exact le_rfl
  · obtain ⟨k,m,_,rfl,hm,⟨_,hdigit,hcode⟩ | ⟨rfl,hcode⟩⟩ := compressAmount_wide hpos
    · rw [hcode]
      cases k with
      | zero => simp; omega
      | succ k =>
        have hten : (10 : ℤ) ≤ 10^(k + 1) := le_self_pow₀ (by norm_num) k.succ_ne_zero
        have hmul : m * 10 ≤ m * 10^(k + 1) := mul_le_mul_of_nonneg_left hten hm.le
        generalize m * 10^(k + 1) = n at hmul
        omega
    · rw [hcode]
      norm_num
      omega

/-- Where the code of an amount fits, no step of computing it depends on the width of a type. -/
theorem compressAmount_eq (hc : c.Exact) {n : ℤ} (hn : 0 ≤ n)
    (hfit : compressAmount .wide n < 2^64) : compressAmount c n = compressAmount .wide n := by
  rcases hn.eq_or_lt with rfl | hpos
  · rfl
  · obtain ⟨k,m,hstrip,_,hm,hform⟩ := compressAmount_wide hpos
    have hstrip' : stripZeros c 9 n 0 = (m,(k : ℤ)) :=
      (stripZeros_eq hc le_rfl (by norm_num)).trans hstrip
    rw [compressAmount,if_neg hpos.ne',hstrip']
    dsimp only
    rcases hform with ⟨hk,hdigit,hcode⟩ | ⟨rfl,hcode⟩
    · rw [hcode] at hfit ⊢
      rw [if_pos (by omega),hc.int (x := m % 10) (by omega) (by omega),
        hc.u64 (x := m / 10 * 9) (by omega) (by omega),hc.u64 (x := m / 10 * 9 + m % 10) (by omega)
        (by omega),hc.u64 (x := m / 10 * 9 + m % 10 - 1) (by omega) (by omega),
        hc.u64 (x := (m / 10 * 9 + m % 10 - 1) * 10) (by omega) (by omega),
        hc.u64 (x := 1 + (m / 10 * 9 + m % 10 - 1) * 10) (by omega) (by omega),
        hc.u64 (by omega) hfit]
    · rw [hcode] at hfit ⊢
      rw [if_neg (by norm_num),hc.u64 (x := m - 1) (by omega) (by omega),
        hc.u64 (x := (m - 1) * 10) (by omega) (by omega),
        hc.u64 (x := 1 + (m - 1) * 10) (by omega) (by omega),hc.u64 (by omega) hfit]

theorem iterate_ten (hc : c.Exact) {m : ℤ} (hm : 0 ≤ m) : ∀ {k : ℕ}, m * 10^k < 2^64 →
    (fun n => c.u64 (n * 10))^[k] m = m * 10^k := by
  intro k
  induction k with
  | zero => simp
  | succ k ih =>
    intro hfit
    have hpow : m * 10^(k + 1) = m * 10^k * 10 := by rw [pow_succ,mul_assoc]
    have hnonneg : 0 ≤ m * 10^k := by positivity
    rw [Function.iterate_succ_apply',ih (by omega),hpow,hc.u64 (by omega) (by omega)]

theorem decompressAmount_compressAmount (hc : c.Exact) {n : ℤ} (hn : 0 ≤ n) (hn64 : n < 2^64)
    (hfit : compressAmount .wide n < 2^64) :
    decompressAmount c (compressAmount .wide n) = n := by
  rcases hn.eq_or_lt with rfl | hpos
  · rfl
  · obtain ⟨k,m,_,rfl,hm,⟨hk,hdigit,hcode⟩ | ⟨rfl,hcode⟩⟩ := compressAmount_wide hpos
    · rw [hcode] at hfit ⊢
      have hx : c.u64 (1 + (m / 10 * 9 + m % 10 - 1) * 10 + k - 1) =
          (m / 10 * 9 + m % 10 - 1) * 10 + k := by
        rw [hc.u64 (by omega) (by omega)]
        omega
      have he : c.int (((m / 10 * 9 + m % 10 - 1) * 10 + k) % 10) = k := by
        rw [hc.int (by omega) (by omega)]
        omega
      have hrest : ((m / 10 * 9 + m % 10 - 1) * 10 + k) / 10 = m / 10 * 9 + m % 10 - 1 := by omega
      have hdig : c.int ((m / 10 * 9 + m % 10 - 1) % 9 + 1) = m % 10 := by
        rw [hc.int (by omega) (by omega)]
        omega
      have hquot : (m / 10 * 9 + m % 10 - 1) / 9 = m / 10 := by omega
      have hm64 : m < 2^64 := by
        have hone : (1 : ℤ) ≤ 10^k := one_le_pow₀ (by norm_num)
        nlinarith
      have hback : c.u64 (c.u64 (m / 10 * 10) + m % 10) = m := by
        rw [hc.u64 (x := m / 10 * 10) (by omega) (by omega),hc.u64 (by omega) (by omega)]
        omega
      rw [decompressAmount,if_neg (by omega)]
      simp only [hx,he,hrest,hdig,hquot,hback]
      rw [if_pos (by omega),Int.toNat_natCast,iterate_ten hc hm.le hn64]
    · rw [hcode] at hfit ⊢
      have hx : c.u64 (1 + (m - 1) * 10 + 9 - 1) = (m - 1) * 10 + 9 := by
        rw [hc.u64 (by omega) (by omega)]
        omega
      have he : c.int (((m - 1) * 10 + 9) % 10) = 9 := by
        rw [hc.int (by omega) (by omega)]
        omega
      have hrest : ((m - 1) * 10 + 9) / 10 = m - 1 := by omega
      have hback : c.u64 (m - 1 + 1) = m := by
        rw [hc.u64 (by omega) (by omega)]
        omega
      rw [decompressAmount,if_neg (by omega)]
      simp only [hx,he,hrest,hback]
      rw [if_neg (lt_irrefl _)]
      exact iterate_ten hc hm.le hn64

theorem compressAmount_fits {n : ℤ} (hn : 0 ≤ n) (hmax : n ≤ MAX_MONEY.toInt) :
    compressAmount .wide n < 2^64 := by
  have hle := compressAmount_le hn
  have hmoney : MAX_MONEY.toInt = 2100000000000000 := by decide
  omega

theorem compressAmount_nonneg {n : ℤ} (hn : 0 ≤ n) : 0 ≤ compressAmount .wide n := by
  rcases hn.eq_or_lt with rfl | hpos
  · exact le_rfl
  · obtain ⟨k,m,_,rfl,hm,⟨_,_,hcode⟩ | ⟨rfl,hcode⟩⟩ := compressAmount_wide hpos
    · omega
    · omega

/-- Amounts in the range of money have codes that give them back, whatever is done to numbers a
type does not have; so nothing wraps around, and different amounts have different codes. -/
theorem amountCode_one_to_one :
    (∀ n : ℤ, 0 ≤ n → n ≤ MAX_MONEY.toInt → ∀ c : CInts, c.Exact →
      compressAmount c n = compressAmount .machine n ∧
        decompressAmount c (compressAmount .machine n) = n ∧
        0 ≤ compressAmount .machine n ∧ compressAmount .machine n < 2^64) ∧
    (∀ x : ℤ, (∃ n : ℤ, 0 ≤ n ∧ n ≤ MAX_MONEY.toInt ∧ compressAmount .machine n = x) →
      compressAmount .machine (decompressAmount .machine x) = x) ∧
    Set.InjOn (compressAmount .machine) (Set.Icc 0 MAX_MONEY.toInt) := by
  have hcode : ∀ n : ℤ, 0 ≤ n → n ≤ MAX_MONEY.toInt →
      compressAmount .machine n = compressAmount .wide n := fun n hn hmax =>
    compressAmount_eq CInts.machine_exact hn (compressAmount_fits hn hmax)
  have hback : ∀ n : ℤ, 0 ≤ n → n ≤ MAX_MONEY.toInt → ∀ c : CInts, c.Exact →
      decompressAmount c (compressAmount .machine n) = n := by
    intro n hn hmax c hc
    have hfit := compressAmount_fits hn hmax
    have hmoney : MAX_MONEY.toInt = 2100000000000000 := by decide
    rw [hcode n hn hmax]
    exact decompressAmount_compressAmount hc hn (by omega) hfit
  refine ⟨fun n hn hmax c hc => ⟨?_,hback n hn hmax c hc,?_,?_⟩,?_,?_⟩
  · rw [hcode n hn hmax]
    exact compressAmount_eq hc hn (compressAmount_fits hn hmax)
  · rw [hcode n hn hmax]
    exact compressAmount_nonneg hn
  · rw [hcode n hn hmax]
    exact compressAmount_fits hn hmax
  · rintro x ⟨n,hn,hmax,rfl⟩
    rw [hback n hn hmax _ CInts.machine_exact]
  · rintro m ⟨hm,hmmax⟩ n ⟨hn,hnmax⟩ heq
    calc m = decompressAmount .machine (compressAmount .machine m) :=
          (hback m hm hmmax _ CInts.machine_exact).symm
      _ = decompressAmount .machine (compressAmount .machine n) := by rw [heq]
      _ = n := hback n hn hnmax _ CInts.machine_exact

theorem amountCode_example :
    decompressAmount .machine (compressAmount .machine 234925952) = 234925952 :=
  (amountCode_one_to_one.1 234925952 (by decide) (by decide) .machine CInts.machine_exact).2.1

end Sidechain
