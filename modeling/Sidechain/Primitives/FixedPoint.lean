import Sidechain.Library.Run
import Sidechain.Library.Radix
import Sidechain.Primitives.Text
import Mathlib.Algebra.Order.Ring.Abs
import Mathlib.Data.Rat.Cast.Order
import Mathlib.Tactic.FieldSimp
import Mathlib.Tactic.Linarith
import Mathlib.Tactic.Positivity

/-! Reading a JSON number as an amount of a fixed number of decimals, in one pass and without
rounding. -/
namespace Sidechain
open Run Radix Regroup

/-- How a parser ends without a result: it returns false, or a signed operation overflows. -/
inductive ParseStop where
  | refused
  | overflow
  deriving DecidableEq, Repr

abbrev Parsing := Except ParseStop

def int64 (n : ℤ) : Parsing ℤ := if -2^63 ≤ n ∧ n < 2^63 then .ok n else .error .overflow

def refuseIf (c : Prop) [Decidable c] : Parsing Unit := if c then .error .refused else .ok ()

namespace FixedPoint

def UPPER_BOUND : ℤ := 1000000000000000000 - 1

structure Mantissa where
  mantissa : ℤ
  mantissa_tzeros : ℕ
  deriving DecidableEq, Repr

/-- The loop that multiplies by ten. -/
def mulTens : ℕ → ℤ → Parsing ℤ
  | 0,mantissa => .ok mantissa
  | i+1,mantissa => do
    refuseIf (mantissa > UPPER_BOUND / 10)
    let mantissa ← int64 (mantissa * 10)
    mulTens i mantissa

def processMantissaDigit (ch : UInt8) (m : Mantissa) : Parsing Mantissa :=
  if ch = 0x30 then .ok {m with mantissa_tzeros := m.mantissa_tzeros + 1}
  else do
    let mantissa ← mulTens (m.mantissa_tzeros + 1) m.mantissa
    let mantissa ← int64 (mantissa + (ch.toNat - 0x30))
    .ok ⟨mantissa,0⟩

/-- Process digits and count them, up to the first other character. -/
def mantissaDigits (m : Mantissa) (ofs : ℕ) : Bytes → Parsing (Mantissa × ℕ × Bytes)
  | [] => .ok (m,ofs,[])
  | c::s =>
    if isDigit c then do
      let m ← processMantissaDigit c m
      mantissaDigits m (ofs + 1) s
    else .ok (m,ofs,c::s)

/-- A single zero is passed. -/
def wholePart : Bytes → Parsing (Mantissa × Bytes)
  | [] => .error .refused
  | c::s =>
    if c = 0x30 then .ok (⟨0,0⟩,s)
    else if 0x31 ≤ c ∧ c ≤ 0x39 then do
      let (m,_,s) ← mantissaDigits ⟨0,0⟩ 0 (c::s)
      .ok (m,s)
    else .error .refused

def startsWithDigit (s : Bytes) : Bool := s.head?.any isDigit

/-- The mantissa with the digits behind the point, and `point_ofs`. -/
def fractionPart (m : Mantissa) : Bytes → Parsing (Mantissa × ℕ × Bytes)
  | [] => .ok (m,0,[])
  | c::s =>
    if c = 0x2e then
      if startsWithDigit s then mantissaDigits m 0 s else .error .refused
    else .ok (m,0,c::s)

def exponentDigits (exponent : ℤ) : Bytes → Parsing (ℤ × Bytes)
  | [] => .ok (exponent,[])
  | c::s =>
    if isDigit c then do
      refuseIf (exponent > UPPER_BOUND / 10)
      let exponent ← int64 (exponent * 10)
      let exponent ← int64 (exponent + c.toNat)
      let exponent ← int64 (exponent - 0x30)
      exponentDigits exponent s
    else .ok (exponent,c::s)

def exponentSign : Bytes → Bool × Bytes
  | [] => (false,[])
  | c::s => if c = 0x2b then (false,s) else if c = 0x2d then (true,s) else (false,c::s)

/-- `exponent_sign` and `exponent`. -/
def exponentPart : Bytes → Parsing (Bool × ℤ × Bytes)
  | [] => .ok (false,0,[])
  | c::s =>
    if c = 0x65 ∨ c = 0x45 then
      if startsWithDigit (exponentSign s).2 then do
        let (exponent,rest) ← exponentDigits 0 (exponentSign s).2
        .ok ((exponentSign s).1,exponent,rest)
      else .error .refused
    else .ok (false,0,c::s)

/-- The loop that converts to one fixed-point value. -/
def scaleUp : ℕ → ℤ → Parsing ℤ
  | 0,mantissa => .ok mantissa
  | i+1,mantissa => do
    refuseIf (mantissa > UPPER_BOUND / 10 ∨ mantissa < -(UPPER_BOUND / 10))
    let mantissa ← int64 (mantissa * 10)
    scaleUp i mantissa

def negateIf (sign : Bool) (n : ℤ) : Parsing ℤ := if sign then int64 (-n) else .ok n

def finalize (decimals : ℤ) (mantissa_sign : Bool) (m : Mantissa) (point_ofs : ℕ)
    (exponent_sign : Bool) (exponent : ℤ) : Parsing ℤ := do
  let exponent ← negateIf exponent_sign exponent
  let exponent ← int64 (exponent - point_ofs)
  let exponent ← int64 (exponent + m.mantissa_tzeros)
  let mantissa ← negateIf mantissa_sign m.mantissa
  let exponent ← int64 (exponent + decimals)
  refuseIf (exponent < 0)
  refuseIf (exponent ≥ 18)
  let mantissa ← scaleUp exponent.toNat mantissa
  refuseIf (mantissa > UPPER_BOUND ∨ mantissa < -UPPER_BOUND)
  .ok mantissa

/-- What lies before `int end = val.size()`: the length modulo 2^32 as a signed number. -/
def beforeEnd (val : Bytes) : Bytes := val.take (Int32.ofNat val.length).toInt.toNat

/-- `ParseFixedPoint`: `*amount_out` when it returns true. The other positions and counters in an
`int` stay below `end`. -/
def parseFixedPoint (val : Bytes) (decimals : ℤ) : Parsing ℤ := do
  let s := beforeEnd val
  let mantissa_sign := s.head? == some 0x2d
  let (m,s) ← wholePart (if mantissa_sign then s.tail else s)
  let (m,point_ofs,s) ← fractionPart m s
  let (exponent_sign,exponent,s) ← exponentPart s
  refuseIf (s ≠ [])
  finalize decimals mantissa_sign m point_ofs exponent_sign exponent

def chars (ds : List ℕ) : Bytes := ds.map fun d => UInt8.ofNat (0x30 + d)

/-- The number does not go on with a digit. -/
def NoDigit (s : Bytes) : Prop := startsWithDigit s = false

theorem isDigit_iff {c : UInt8} : isDigit c = true ↔ ∃ d < 10, c = UInt8.ofNat (0x30 + d) := by
  rw [isDigit,Bool.and_eq_true,decide_eq_true_eq,decide_eq_true_eq,UInt8.le_iff_toNat_le,
    UInt8.le_iff_toNat_le]
  change 48 ≤ c.toNat ∧ c.toNat ≤ 57 ↔ _
  constructor
  · rintro ⟨hlow,hhigh⟩
    refine ⟨c.toNat - 48,by omega,?_⟩
    rw [Nat.add_sub_cancel' hlow,UInt8.ofNat_toNat]
  · rintro ⟨d,hd,rfl⟩
    rw [UInt8.toNat_ofNat_of_lt' (Nat.lt_trans (Nat.add_lt_add_left hd _) (by decide))]
    omega

theorem digit_toNat {d : ℕ} (hd : d < 10) : (UInt8.ofNat (0x30 + d)).toNat = 0x30 + d :=
  UInt8.toNat_ofNat_of_lt' (Nat.lt_trans (Nat.add_lt_add_left hd _) (by decide))

theorem digit_zero {d : ℕ} (hd : d < 10) : UInt8.ofNat (0x30 + d) = 0x30 ↔ d = 0 := by
  rw [← UInt8.toNat_inj,digit_toNat hd]
  change 48 + d = 48 ↔ _
  omega

theorem exists_chars (s : Bytes) : ∃ ds rest, s = chars ds ++ rest ∧ (∀ d ∈ ds, d < 10) ∧
    NoDigit rest := by
  induction s with
  | nil => exact ⟨[],[],rfl,fun _ h => (nomatch h),rfl⟩
  | cons c s ih =>
    cases hc : isDigit c with
    | false => exact ⟨[],c::s,rfl,fun _ h => (nomatch h),hc⟩
    | true =>
      obtain ⟨d,hd,rfl⟩ := isDigit_iff.mp hc
      obtain ⟨ds,rest,rfl,hds,hrest⟩ := ih
      exact ⟨d::ds,rest,rfl,List.forall_mem_cons.mpr ⟨hd,hds⟩,hrest⟩

theorem upper : UPPER_BOUND = 999999999999999999 := rfl

theorem int64_ok {n : ℤ} (h : -2^63 ≤ n ∧ n < 2^63) : int64 n = .ok n := if_pos h

theorem int64_bind {α : Type} {n : ℤ} (h : -2^63 ≤ n ∧ n < 2^63) (f : ℤ → Parsing α) :
    (int64 n >>= f) = f n := by
  rw [int64_ok h]
  rfl

theorem refuseIf_bind {α : Type} {c : Prop} [Decidable c] (h : ¬c) (f : Unit → Parsing α) :
    (refuseIf c >>= f) = f () := by
  rw [refuseIf,if_neg h]
  rfl

theorem refuseIf_refused {α : Type} {c : Prop} [Decidable c] (h : c) (f : Unit → Parsing α) :
    (refuseIf c >>= f) = .error .refused := by
  rw [refuseIf,if_pos h]
  rfl

/-- The mantissa with one more digit: zeros are held back. -/
def push (m : Mantissa) (d : ℕ) : Mantissa :=
  if d = 0 then {m with mantissa_tzeros := m.mantissa_tzeros + 1}
  else ⟨m.mantissa * 10^(m.mantissa_tzeros + 1) + d,0⟩

def feed (m : Mantissa) (ds : List ℕ) : Mantissa := ds.foldl push m

/-- Loops that multiply by ten go through exactly if the product is within the bound. -/
theorem scaleUp_eq {i : ℕ} {m : ℤ} (h : |m| ≤ UPPER_BOUND) :
    scaleUp i m = if |m| * 10^i ≤ UPPER_BOUND then .ok (m * 10^i) else .error .refused := by
  induction i generalizing m with
  | zero => rw [pow_zero,mul_one,mul_one,if_pos h,scaleUp]
  | succ i ih =>
    have hpow : (1 : ℤ) ≤ 10^i := one_le_pow₀ (by norm_num)
    have htimes : |m| * 10^(i + 1) = |m * 10| * 10^i := by
      rw [abs_mul,pow_succ']
      norm_num
      ring
    rw [scaleUp,refuseIf]
    by_cases hbound : m > UPPER_BOUND / 10 ∨ m < -(UPPER_BOUND / 10)
    · have hbig : UPPER_BOUND < |m * 10| := by
        rw [upper] at hbound ⊢
        have hm := abs_cases (m * 10)
        omega
      have hfail : ¬|m| * 10^(i + 1) ≤ UPPER_BOUND := by
        rw [htimes,not_le]
        exact hbig.trans_le (le_mul_of_one_le_right (abs_nonneg _) hpow)
      rw [if_pos hbound,if_neg hfail]
      rfl
    · have hsmall : |m * 10| ≤ UPPER_BOUND := by
        rw [upper] at hbound ⊢
        have hm := abs_cases (m * 10)
        omega
      have hrange : -2^63 ≤ m * 10 ∧ m * 10 < 2^63 := by
        have hle := abs_le.mp hsmall
        rw [upper] at hle
        omega
      rw [if_neg hbound,int64_ok hrange]
      change scaleUp i (m * 10) = _
      rw [ih hsmall,htimes,pow_succ',mul_assoc]

theorem mulTens_eq_scaleUp {i : ℕ} {m : ℤ} (h : 0 ≤ m) : mulTens i m = scaleUp i m := by
  induction i generalizing m with
  | zero => rfl
  | succ i ih =>
    have hsame : m > UPPER_BOUND / 10 ↔ m > UPPER_BOUND / 10 ∨ m < -(UPPER_BOUND / 10) := by
      rw [upper]
      omega
    rw [mulTens,scaleUp,refuseIf,refuseIf]
    simp only [← hsame]
    split_ifs with hbound
    · rfl
    · by_cases hrange : -2^63 ≤ m * 10 ∧ m * 10 < 2^63
      · rw [int64_ok hrange]
        exact ih (by omega)
      · rw [int64,if_neg hrange]
        rfl

structure Mantissa.Ok (m : Mantissa) : Prop where
  nonneg : 0 ≤ m.mantissa
  le : m.mantissa ≤ UPPER_BOUND

theorem push_ge {m : Mantissa} (h : 0 ≤ m.mantissa) (d : ℕ) :
    m.mantissa ≤ (push m d).mantissa := by
  rw [push]
  split_ifs
  · exact le_refl _
  · have hpow : (1 : ℤ) ≤ 10^(m.mantissa_tzeros + 1) := one_le_pow₀ (by norm_num)
    have hmul := le_mul_of_one_le_right h hpow
    dsimp only
    omega

theorem feed_ge {m : Mantissa} (h : 0 ≤ m.mantissa) (ds : List ℕ) :
    m.mantissa ≤ (feed m ds).mantissa := by
  induction ds generalizing m with
  | nil => exact le_refl _
  | cons d ds ih => exact (push_ge h d).trans (ih (h.trans (push_ge h d)))

theorem processMantissaDigit_eq {m : Mantissa} (h : m.Ok) {d : ℕ} (hd : d < 10) :
    processMantissaDigit (UInt8.ofNat (0x30 + d)) m =
      if (push m d).mantissa ≤ UPPER_BOUND then .ok (push m d) else .error .refused := by
  rw [processMantissaDigit]
  simp only [digit_zero hd,push]
  split_ifs with hzero hle hle
  · rfl
  · exact absurd h.le hle
  all_goals
    have habs : |m.mantissa| = m.mantissa := abs_of_nonneg h.nonneg
    have hmul : m.mantissa * 10^(m.mantissa_tzeros + 1) =
        10 * (m.mantissa * 10^m.mantissa_tzeros) := by ring
    rw [mulTens_eq_scaleUp h.nonneg,scaleUp_eq (habs.symm ▸ h.le),habs]
    dsimp only at hle
    rw [hmul] at hle ⊢
    have hub := upper
  · have hpow : 0 ≤ m.mantissa * 10^m.mantissa_tzeros := mul_nonneg h.nonneg (by positivity)
    rw [if_pos (by omega)]
    refine bind_ok.mpr ⟨_,rfl,bind_ok.mpr ⟨_,int64_ok ?_,?_⟩⟩
    · rw [digit_toNat hd]
      push_cast
      omega
    · rw [digit_toNat hd]
      push_cast
      rw [add_sub_cancel_left]
  · rw [if_neg (by omega)]
    rfl

theorem mantissaDigits_eq {m : Mantissa} (h : m.Ok) (ofs : ℕ) {ds : List ℕ}
    (hds : ∀ d ∈ ds, d < 10) {rest : Bytes} (hrest : NoDigit rest) :
    mantissaDigits m ofs (chars ds ++ rest) =
      if (feed m ds).mantissa ≤ UPPER_BOUND then .ok (feed m ds,ofs + ds.length,rest)
      else .error .refused := by
  induction ds generalizing m ofs with
  | nil =>
    rw [feed,List.foldl_nil,if_pos h.le]
    cases rest with
    | nil => rfl
    | cons c rest =>
      have hc : isDigit c = false := hrest
      change mantissaDigits m ofs (c::rest) = _
      rw [mantissaDigits,hc]
      rfl
  | cons d ds ih =>
    obtain ⟨hd,hds⟩ := List.forall_mem_cons.mp hds
    change mantissaDigits m ofs (UInt8.ofNat (0x30 + d)::(chars ds ++ rest)) = _
    rw [mantissaDigits,isDigit_iff.mpr ⟨d,hd,rfl⟩,if_pos rfl,processMantissaDigit_eq h hd]
    have hge := push_ge h.nonneg d
    by_cases hle : (push m d).mantissa ≤ UPPER_BOUND
    · rw [if_pos hle]
      change mantissaDigits (push m d) (ofs + 1) _ = _
      rw [ih ⟨h.nonneg.trans hge,hle⟩ _ hds,Nat.add_assoc,Nat.add_comm 1]
      rfl
    · have hbig : (push m d).mantissa ≤ (feed m (d::ds)).mantissa :=
        feed_ge (h.nonneg.trans hge) ds
      rw [if_neg hle,if_neg fun hend => hle (hbig.trans hend)]
      rfl

/-- The mantissa stands for a number without its zeros at the end, which are counted; if it is zero,
all of the digits are. -/
structure Mantissa.Holds (m : Mantissa) (n digits : ℕ) : Prop where
  value : m.mantissa * 10^m.mantissa_tzeros = n
  zero : m.mantissa = 0 → m.mantissa_tzeros = digits
  last : m.mantissa ≠ 0 → ¬(10 : ℤ) ∣ m.mantissa
  tzeros_le : m.mantissa_tzeros ≤ digits
  nonneg : 0 ≤ m.mantissa

theorem Mantissa.Holds.push {m : Mantissa} {n digits d : ℕ} (h : m.Holds n digits) (hd : d < 10) :
    (push m d).Holds (10 * n + d) (digits + 1) := by
  have hvalue := h.value
  rw [FixedPoint.push]
  split_ifs with hzero
  · subst hzero
    refine ⟨?_,fun h0 => by rw [h.zero h0],h.last,Nat.succ_le_succ h.tzeros_le,h.nonneg⟩
    push_cast
    rw [← hvalue]
    ring
  · have hpow : 0 ≤ m.mantissa * 10^m.mantissa_tzeros := mul_nonneg h.nonneg (by positivity)
    have hsplit : m.mantissa * 10^(m.mantissa_tzeros + 1) =
        10 * (m.mantissa * 10^m.mantissa_tzeros) := by ring
    refine ⟨?_,?_,?_,Nat.zero_le _,?_⟩
    · push_cast
      rw [← hvalue]
      ring
    · dsimp only
      omega
    · dsimp only
      omega
    · dsimp only
      omega

theorem Mantissa.Holds.feed {m : Mantissa} {n digits : ℕ} (h : m.Holds n digits) {ds : List ℕ}
    (hds : ∀ d ∈ ds, d < 10) :
    (feed m ds).Holds (accumulate 10 n ds) (digits + ds.length) := by
  induction ds generalizing m n digits with
  | nil => exact h
  | cons d ds ih =>
    obtain ⟨hd,hds⟩ := List.forall_mem_cons.mp hds
    have hrest := ih (h.push hd) hds
    rwa [Nat.add_assoc,Nat.add_comm 1] at hrest

theorem holds_zero : Mantissa.Holds ⟨0,0⟩ 0 0 :=
  ⟨by simp,fun _ => rfl,fun h => absurd rfl h,le_refl _,le_refl _⟩

theorem ok_zero : Mantissa.Ok ⟨0,0⟩ := ⟨le_refl _,by decide⟩

theorem exponentDigits_eq {e : ℕ} (he : (e : ℤ) ≤ UPPER_BOUND) {ds : List ℕ}
    (hds : ∀ d ∈ ds, d < 10) {rest : Bytes} (hrest : NoDigit rest) :
    exponentDigits e (chars ds ++ rest) =
      if (accumulate 10 e ds : ℤ) ≤ UPPER_BOUND then .ok ((accumulate 10 e ds : ℤ),rest)
      else .error .refused := by
  have hub := upper
  induction ds generalizing e with
  | nil =>
    rw [accumulate,List.foldl_nil,if_pos he]
    cases rest with
    | nil => rfl
    | cons c rest =>
      have hc : isDigit c = false := hrest
      change exponentDigits e (c::rest) = _
      rw [exponentDigits,hc]
      rfl
  | cons d ds ih =>
    obtain ⟨hd,hds⟩ := List.forall_mem_cons.mp hds
    have hnext : accumulate 10 e (d::ds) = accumulate 10 (10 * e + d) ds := rfl
    change exponentDigits e (UInt8.ofNat (0x30 + d)::(chars ds ++ rest)) = _
    rw [exponentDigits,isDigit_iff.mpr ⟨d,hd,rfl⟩,if_pos rfl,digit_toNat hd,hnext]
    by_cases hle : ((10 * e + d : ℕ) : ℤ) ≤ UPPER_BOUND
    · rw [refuseIf_bind (by omega),int64_bind (by omega),int64_bind (by push_cast; omega),
        int64_bind (by push_cast; omega),← ih hle hds]
      refine congrArg (exponentDigits · (chars ds ++ rest)) ?_
      push_cast
      ring
    · have hge : 10 * e + d ≤ accumulate 10 (10 * e + d) ds := by
        rw [accumulate_from]
        exact (Nat.le_mul_of_pos_right _ (by positivity)).trans (Nat.le_add_right _ _)
      rw [refuseIf_refused (by omega),if_neg (by omega)]

structure JsonExponent where
  capital : Bool
  /-- A sign is a minus or not. -/
  sign : Option Bool
  digits : List ℕ
  digits_ne : digits ≠ []
  digits_lt : ∀ d ∈ digits, d < 10

def JsonExponent.signText (e : JsonExponent) : Bytes :=
  match e.sign with
  | none => []
  | some false => [0x2b]
  | some true => [0x2d]

def JsonExponent.text (e : JsonExponent) : Bytes :=
  (if e.capital then 0x45 else 0x65)::(e.signText ++ chars e.digits)

def JsonExponent.value (e : JsonExponent) : ℤ :=
  if e.sign = some true then -(accumulate 10 0 e.digits) else accumulate 10 0 e.digits

/-- No digit but a single zero starts with a zero. -/
def Whole (whole : List ℕ) : Prop := whole = [0] ∨ (whole ≠ [] ∧ whole.head? ≠ some 0)

/-- A number; without a point it has no digits behind the point. -/
structure JsonNumber where
  negative : Bool
  whole : List ℕ
  fraction : List ℕ
  exponent : Option JsonExponent
  whole_ok : Whole whole
  whole_lt : ∀ d ∈ whole, d < 10
  fraction_lt : ∀ d ∈ fraction, d < 10

namespace JsonNumber

def fractionText (fraction : List ℕ) : Bytes :=
  if fraction = [] then [] else 0x2e::chars fraction

def exponentText (exponent : Option JsonExponent) : Bytes := exponent.elim [] JsonExponent.text

def text (n : JsonNumber) : Bytes :=
  (if n.negative then [0x2d] else []) ++
    (chars n.whole ++ (fractionText n.fraction ++ exponentText n.exponent))

def power (n : JsonNumber) : ℤ := n.exponent.elim 0 JsonExponent.value

/-- The number that the text denotes. -/
def value (n : JsonNumber) : ℚ :=
  (if n.negative then -1 else 1) * accumulate 10 0 (n.whole ++ n.fraction) *
    10^(n.power - n.fraction.length)

end JsonNumber

open JsonNumber

/-- The digits of the whole part that go into the mantissa. -/
def processed (whole : List ℕ) : List ℕ := if whole = [0] then [] else whole

@[simp] theorem feed_append (m : Mantissa) (ds es : List ℕ) :
    feed m (ds ++ es) = feed (feed m ds) es := List.foldl_append

theorem noDigit_text (fraction : List ℕ) (exponent : Option JsonExponent) :
    NoDigit (fractionText fraction ++ exponentText exponent) := by
  rw [fractionText]
  split_ifs
  · cases exponent with
    | none => rfl
    | some e =>
      change isDigit (if e.capital = true then 0x45 else 0x65) = false
      split_ifs <;> rfl
  · rfl

theorem wholePart_sound {s rest : Bytes} {m : Mantissa} (h : wholePart s = .ok (m,rest)) :
    ∃ whole, Whole whole ∧ (∀ d ∈ whole, d < 10) ∧ s = chars whole ++ rest ∧
      m = feed ⟨0,0⟩ (processed whole) ∧ m.Ok := by
  cases s with
  | nil => cases h
  | cons c s =>
    rw [wholePart] at h
    split_ifs at h with hzero hrange
    · obtain ⟨rfl,rfl⟩ := Prod.mk.inj (Except.ok.inj h)
      exact ⟨[0],.inl rfl,by decide,by rw [hzero]; rfl,rfl,ok_zero⟩
    · obtain ⟨ds,tail,hs,hds,htail⟩ := exists_chars (c::s)
      obtain ⟨⟨m',ofs,s'⟩,hdigits,hm⟩ := bind_ok.mp h
      rw [hs,mantissaDigits_eq ok_zero 0 hds htail] at hdigits
      split_ifs at hdigits with hle
      obtain ⟨rfl,hrest⟩ := Prod.mk.inj (Except.ok.inj hdigits)
      obtain ⟨-,rfl⟩ := Prod.mk.inj hrest
      obtain ⟨rfl,rfl⟩ := Prod.mk.inj (Except.ok.inj hm)
      have hnonzero : ds ≠ [] ∧ ds.head? ≠ some 0 := by
        cases ds with
        | nil =>
          change _ = tail at hs
          rw [← hs] at htail
          have hc : isDigit c = false := htail
          rw [isDigit,Bool.and_eq_false_iff,decide_eq_false_iff_not,decide_eq_false_iff_not,
            UInt8.le_iff_toNat_le,UInt8.le_iff_toNat_le] at hc
          rw [UInt8.le_iff_toNat_le,UInt8.le_iff_toNat_le] at hrange
          change ¬48 ≤ _ ∨ ¬_ ≤ 57 at hc
          change 49 ≤ _ ∧ _ ≤ 57 at hrange
          omega
        | cons d ds =>
          refine ⟨List.cons_ne_nil d ds,fun hhead => hzero ?_⟩
          rw [(List.cons.inj hs).1]
          exact (digit_zero (hds d List.mem_cons_self)).mpr (Option.some.inj hhead)
      have hproc : processed ds = ds := if_neg fun hds => hnonzero.2 (by rw [hds]; rfl)
      refine ⟨ds,.inr hnonzero,hds,hs,by rw [hproc],?_,hle⟩
      exact feed_ge (le_refl _) ds

theorem wholePart_complete {whole : List ℕ} (hwhole : Whole whole) (hlt : ∀ d ∈ whole, d < 10)
    {rest : Bytes} (hrest : NoDigit rest)
    (hle : (feed ⟨0,0⟩ (processed whole)).mantissa ≤ UPPER_BOUND) :
    wholePart (chars whole ++ rest) = .ok (feed ⟨0,0⟩ (processed whole),rest) := by
  by_cases hzero : whole = [0]
  · subst hzero
    rfl
  · have hproc : processed whole = whole := if_neg hzero
    obtain ⟨hne,hhead⟩ := hwhole.resolve_left hzero
    have hdigits := mantissaDigits_eq ok_zero 0 hlt hrest
    rw [hproc] at hle ⊢
    rw [if_pos hle] at hdigits
    cases whole with
    | nil => exact absurd rfl hne
    | cons d ds =>
      have hd := hlt d List.mem_cons_self
      have hd0 : d ≠ 0 := fun h => hhead (by rw [h]; rfl)
      change wholePart (UInt8.ofNat (0x30 + d)::(chars ds ++ rest)) = _
      rw [wholePart,if_neg fun h => hd0 ((digit_zero hd).mp h),if_pos ?_]
      · exact bind_ok.mpr ⟨_,hdigits,rfl⟩
      · rw [UInt8.le_iff_toNat_le,UInt8.le_iff_toNat_le,digit_toNat hd]
        change 49 ≤ _ ∧ _ ≤ 57
        omega

theorem startsWithDigit_chars {ds : List ℕ} (hne : ds ≠ []) (hlt : ∀ d ∈ ds, d < 10)
    (rest : Bytes) : startsWithDigit (chars ds ++ rest) = true := by
  cases ds with
  | nil => exact absurd rfl hne
  | cons d ds => exact isDigit_iff.mpr ⟨d,hlt d List.mem_cons_self,rfl⟩

theorem fractionPart_sound {s rest : Bytes} {m m' : Mantissa} {ofs : ℕ} (hm : m.Ok)
    (h : fractionPart m s = .ok (m',ofs,rest)) : ∃ fraction, (∀ d ∈ fraction, d < 10) ∧
      s = fractionText fraction ++ rest ∧ m' = feed m fraction ∧ ofs = fraction.length ∧ m'.Ok := by
  cases s with
  | nil =>
    obtain ⟨rfl,hrest⟩ := Prod.mk.inj (Except.ok.inj h)
    obtain ⟨rfl,rfl⟩ := Prod.mk.inj hrest
    exact ⟨[],fun _ h => (nomatch h),rfl,rfl,rfl,hm⟩
  | cons c s =>
    rw [fractionPart] at h
    split_ifs at h with hpoint hdigit
    · obtain ⟨ds,tail,rfl,hds,htail⟩ := exists_chars s
      rw [mantissaDigits_eq hm 0 hds htail] at h
      split_ifs at h with hle
      obtain ⟨rfl,hrest⟩ := Prod.mk.inj (Except.ok.inj h)
      obtain ⟨rfl,rfl⟩ := Prod.mk.inj hrest
      have hne : ds ≠ [] := by
        rintro rfl
        exact absurd hdigit (Bool.not_eq_true _ ▸ htail)
      refine ⟨ds,hds,?_,rfl,Nat.zero_add _,hm.nonneg.trans (feed_ge hm.nonneg ds),hle⟩
      rw [fractionText,if_neg hne,hpoint]
      rfl
    · obtain ⟨rfl,hrest⟩ := Prod.mk.inj (Except.ok.inj h)
      obtain ⟨rfl,rfl⟩ := Prod.mk.inj hrest
      exact ⟨[],fun _ h => (nomatch h),rfl,rfl,rfl,hm⟩

theorem fractionPart_complete {m : Mantissa} (hm : m.Ok) {fraction : List ℕ}
    (hlt : ∀ d ∈ fraction, d < 10) (exponent : Option JsonExponent)
    (hle : (feed m fraction).mantissa ≤ UPPER_BOUND) :
    fractionPart m (fractionText fraction ++ exponentText exponent) =
      .ok (feed m fraction,fraction.length,exponentText exponent) := by
  have hrest : NoDigit (exponentText exponent) := noDigit_text [] exponent
  rw [fractionText]
  split_ifs with hnone
  · subst hnone
    cases exponent with
    | none => rfl
    | some e =>
      change fractionPart m ((if e.capital = true then 0x45 else 0x65)::_) = _
      rw [fractionPart,if_neg (by split_ifs <;> decide)]
      rfl
  · change fractionPart m (0x2e::(chars fraction ++ exponentText exponent)) = _
    rw [fractionPart,if_pos rfl,if_pos (startsWithDigit_chars hnone hlt _),
      mantissaDigits_eq hm 0 hlt hrest,if_pos hle,Nat.zero_add]

theorem exponentPart_sound {s : Bytes} {sign : Bool} {e : ℤ}
    (h : exponentPart s = .ok (sign,e,[])) : ∃ exponent : Option JsonExponent,
      s = exponentText exponent ∧ 0 ≤ e ∧ e ≤ UPPER_BOUND ∧
        exponent.elim 0 JsonExponent.value = if sign then -e else e := by
  cases s with
  | nil =>
    obtain ⟨rfl,hrest⟩ := Prod.mk.inj (Except.ok.inj h)
    obtain ⟨rfl,-⟩ := Prod.mk.inj hrest
    exact ⟨none,rfl,le_refl _,by decide,rfl⟩
  | cons c s =>
    rw [exponentPart] at h
    split_ifs at h with hletter hdigit
    · obtain ⟨⟨e',rest⟩,hdigits,hend⟩ := bind_ok.mp h
      obtain ⟨rfl,hrest⟩ := Prod.mk.inj (Except.ok.inj hend)
      obtain ⟨rfl,rfl⟩ := Prod.mk.inj hrest
      obtain ⟨ds,tail,hs,hds,htail⟩ := exists_chars (exponentSign s).2
      have heq := exponentDigits_eq (e := 0) (by decide) hds htail
      rw [hs] at hdigits hdigit
      rw [Nat.cast_zero] at heq
      rw [heq] at hdigits
      split_ifs at hdigits with hle
      obtain ⟨rfl,rfl⟩ := Prod.mk.inj (Except.ok.inj hdigits)
      have hne : ds ≠ [] := by
        rintro rfl
        exact absurd hdigit (Bool.not_eq_true _ ▸ htail)
      have hsign : ∃ sign : Option Bool, s = JsonExponent.signText ⟨false,sign,ds,hne,hds⟩ ++
          (exponentSign s).2 ∧ (sign = some true ↔ (exponentSign s).1 = true) := by
        cases s with
        | nil => exact ⟨none,rfl,by simp [exponentSign]⟩
        | cons b s =>
          rw [exponentSign]
          split_ifs with hplus hminus
          · exact ⟨some false,by rw [hplus]; rfl,by simp⟩
          · exact ⟨some true,by rw [hminus]; rfl,by simp⟩
          · exact ⟨none,rfl,by simp⟩
      obtain ⟨sign,hsign,htrue⟩ := hsign
      refine ⟨some ⟨decide (c = 0x45),sign,ds,hne,hds⟩,?_,by positivity,hle,?_⟩
      · rw [List.append_nil] at hs
        rw [hsign,hs]
        refine congrArg (· :: _) ?_
        rcases hletter with rfl | rfl <;> rfl
      · change (if sign = some true then _ else _) = _
        simp only [htrue]
    · obtain ⟨-,hrest⟩ := Prod.mk.inj (Except.ok.inj h)
      obtain ⟨-,hnil⟩ := Prod.mk.inj hrest
      cases hnil

theorem exponentPart_complete {exponent : Option JsonExponent}
    (hle : |exponent.elim 0 JsonExponent.value| ≤ UPPER_BOUND) : ∃ sign e,
      exponentPart (exponentText exponent) = .ok (sign,e,[]) ∧ 0 ≤ e ∧ e ≤ UPPER_BOUND ∧
        exponent.elim 0 JsonExponent.value = if sign then -e else e := by
  cases exponent with
  | none => exact ⟨false,0,rfl,le_refl _,by decide,rfl⟩
  | some x =>
    have hsize : (accumulate 10 0 x.digits : ℤ) ≤ UPPER_BOUND := by
      change |x.value| ≤ _ at hle
      rw [JsonExponent.value] at hle
      split_ifs at hle
      · rwa [abs_neg,abs_of_nonneg (by positivity)] at hle
      · rwa [abs_of_nonneg (by positivity)] at hle
    have hsign : exponentSign (x.signText ++ chars x.digits) =
        (decide (x.sign = some true),chars x.digits) := by
      rw [JsonExponent.signText]
      cases hs : x.sign with
      | some b => cases b <;> rfl
      | none =>
        cases hds : x.digits with
        | nil => exact absurd hds x.digits_ne
        | cons d ds =>
          have hd := x.digits_lt d (by rw [hds]; exact List.mem_cons_self)
          change exponentSign (UInt8.ofNat (0x30 + d)::chars ds) = _
          have hne : ∀ c : UInt8, c.toNat < 48 → UInt8.ofNat (0x30 + d) ≠ c := fun c hc h => by
            rw [← h,digit_toNat hd] at hc
            omega
          rw [exponentSign,if_neg (hne 0x2b (by decide)),if_neg (hne 0x2d (by decide))]
          rfl
    have hnone : NoDigit [] := rfl
    have hdigits := exponentDigits_eq (e := 0) (by decide) x.digits_lt hnone
    rw [if_pos hsize,List.append_nil,Nat.cast_zero] at hdigits
    refine ⟨decide (x.sign = some true),accumulate 10 0 x.digits,?_,by positivity,hsize,?_⟩
    · change exponentPart ((if x.capital = true then 0x45 else 0x65)::_) = _
      rw [exponentPart,if_pos (by split_ifs <;> decide),hsign]
      have hstart := startsWithDigit_chars x.digits_ne x.digits_lt []
      rw [List.append_nil] at hstart
      dsimp only
      rw [if_pos hstart]
      exact bind_ok.mpr ⟨_,hdigits,rfl⟩
    · change x.value = _
      rw [JsonExponent.value]
      simp only [decide_eq_true_eq]

/-- The mantissa of a number, and the power of ten that goes with it in an amount. -/
def JsonNumber.mantissa (n : JsonNumber) : Mantissa :=
  feed ⟨0,0⟩ (processed n.whole ++ n.fraction)

def JsonNumber.shift (n : JsonNumber) (decimals : ℤ) : ℤ :=
  n.power - n.fraction.length + n.mantissa.mantissa_tzeros + decimals

/-- What the parser accepts. -/
structure JsonNumber.Fits (n : JsonNumber) (decimals : ℤ) : Prop where
  mantissa_le : n.mantissa.mantissa ≤ UPPER_BOUND
  power_le : |n.power| ≤ UPPER_BOUND
  shift_nonneg : 0 ≤ n.shift decimals
  shift_lt : n.shift decimals < 18
  amount_le : n.mantissa.mantissa * 10^(n.shift decimals).toNat ≤ UPPER_BOUND

def JsonNumber.amount (n : JsonNumber) (decimals : ℤ) : ℤ :=
  (if n.negative then -1 else 1) *
    (n.mantissa.mantissa * 10^(n.shift decimals).toNat)

theorem processed_lt {whole : List ℕ} (h : ∀ d ∈ whole, d < 10) :
    ∀ d ∈ processed whole, d < 10 := by
  intro d hd
  rw [processed] at hd
  split_ifs at hd
  · cases hd
  · exact h d hd

theorem JsonNumber.mantissa_holds (n : JsonNumber) :
    n.mantissa.Holds (accumulate 10 0 (n.whole ++ n.fraction))
      (processed n.whole ++ n.fraction).length := by
  have h := holds_zero.feed (List.forall_mem_append.mpr ⟨processed_lt n.whole_lt,n.fraction_lt⟩)
  have hsame : accumulate 10 0 (n.whole ++ n.fraction) =
      accumulate 10 0 (processed n.whole ++ n.fraction) := by
    rw [processed]
    split_ifs with hzero
    · rw [hzero]
      rfl
    · rfl
  rw [hsame]
  rwa [Nat.zero_add] at h

theorem JsonNumber.value_eq (n : JsonNumber) (decimals : ℕ) :
    n.value * 10^decimals =
      (if n.negative then -1 else 1) * (n.mantissa.mantissa * 10^n.shift decimals) := by
  have hvalue := congrArg (Int.cast : ℤ → ℚ) n.mantissa_holds.value
  push_cast at hvalue
  have hten : (10 : ℚ) ≠ 0 := by norm_num
  rw [JsonNumber.value,JsonNumber.shift,← hvalue,zpow_add₀ hten,zpow_add₀ hten,zpow_natCast,
    zpow_natCast]
  ring

theorem JsonNumber.Fits.amount_eq {n : JsonNumber} {decimals : ℕ} (h : n.Fits decimals) :
    (n.amount decimals : ℚ) = n.value * 10^decimals := by
  have hshift : (10 : ℚ)^n.shift decimals = 10^(n.shift decimals).toNat := by
    rw [← zpow_natCast,Int.toNat_of_nonneg h.shift_nonneg]
  rw [n.value_eq,hshift,JsonNumber.amount]
  push_cast
  split_ifs <;> rfl

theorem JsonNumber.Fits.amount_abs {n : JsonNumber} {decimals : ℤ} (h : n.Fits decimals) :
    |n.amount decimals| ≤ UPPER_BOUND := by
  have hnonneg : 0 ≤ n.mantissa.mantissa * 10^(n.shift decimals).toNat :=
    mul_nonneg n.mantissa_holds.nonneg (by positivity)
  rw [JsonNumber.amount]
  split_ifs
  · rw [neg_one_mul,abs_neg,abs_of_nonneg hnonneg]
    exact h.amount_le
  · rw [one_mul,abs_of_nonneg hnonneg]
    exact h.amount_le

theorem negateIf_bind {α : Type} {n : ℤ} (hnonneg : 0 ≤ n) (hle : n ≤ UPPER_BOUND) (sign : Bool)
    (f : ℤ → Parsing α) : (negateIf sign n >>= f) = f (if sign then -n else n) := by
  have hub := upper
  cases sign with
  | true => exact int64_bind (by omega) f
  | false => rfl

/-- No operation of the last part overflows, for a number that fits an `int` in length. -/
theorem finalize_eq {decimals : ℕ} (hdecimals : decimals ≤ 18) {m : Mantissa} (hm : m.Ok)
    {ofs : ℕ} (hofs : ofs < 2^31) (htzeros : m.mantissa_tzeros < 2^31) {e shift : ℤ}
    (hnonneg : 0 ≤ e) (he : e ≤ UPPER_BOUND) (negative sign : Bool)
    (hshift : shift = (if sign then -e else e) - ofs + m.mantissa_tzeros + decimals) :
    finalize decimals negative m ofs sign e =
      if 0 ≤ shift ∧ shift < 18 ∧ m.mantissa * 10^shift.toNat ≤ UPPER_BOUND then
        .ok ((if negative then -1 else 1) * (m.mantissa * 10^shift.toNat))
      else .error .refused := by
  have hub := upper
  have hlow := hm.nonneg
  have hhigh := hm.le
  have hsigned : (if sign then -e else e) ≤ UPPER_BOUND ∧
      -UPPER_BOUND ≤ (if sign then -e else e) := by
    split_ifs <;> omega
  rw [finalize,negateIf_bind hnonneg he]
  generalize (if sign = true then -e else e) = x at hshift hsigned
  rw [int64_bind (by omega),int64_bind (by omega),negateIf_bind hlow hhigh,
    int64_bind (by omega),← hshift]
  by_cases hneg : shift < 0
  · rw [refuseIf_refused hneg,if_neg (by omega)]
  by_cases hbig : shift ≥ 18
  · rw [refuseIf_bind hneg,refuseIf_refused hbig,if_neg (by omega)]
  rw [refuseIf_bind hneg,refuseIf_bind hbig]
  have habs : |if negative then -m.mantissa else m.mantissa| = m.mantissa := by
    split_ifs
    · rw [abs_neg,abs_of_nonneg hlow]
    · rw [abs_of_nonneg hlow]
  rw [scaleUp_eq (habs.symm ▸ hhigh),habs]
  by_cases hle : m.mantissa * 10^shift.toNat ≤ UPPER_BOUND
  · have hpos : 0 ≤ m.mantissa * 10^shift.toNat := mul_nonneg hlow (by positivity)
    have hvalue : (if negative then -m.mantissa else m.mantissa) * 10^shift.toNat =
        (if negative then -1 else 1) * (m.mantissa * 10^shift.toNat) := by
      split_ifs <;> ring
    have hfits : 0 ≤ shift ∧ shift < 18 ∧ m.mantissa * 10^shift.toNat ≤ UPPER_BOUND :=
      ⟨by omega,by omega,hle⟩
    rw [if_pos hle,if_pos hfits,hvalue]
    refine bind_ok.mpr ⟨_,rfl,refuseIf_bind ?_ _⟩
    split_ifs <;> omega
  · rw [if_neg hle,if_neg fun h => hle h.2.2]
    rfl

theorem beforeEnd_length (val : Bytes) : (beforeEnd val).length < 2^31 := by
  have hlt := Int32.toInt_lt (Int32.ofNat val.length)
  rw [beforeEnd,List.length_take]
  omega

theorem beforeEnd_of_short {val : Bytes} (h : val.length < 2^31) : beforeEnd val = val := by
  have hsame : (Int32.ofNat val.length).toInt = val.length := Int32.toInt_ofNat_of_lt h
  rw [beforeEnd,hsame,Int.toNat_natCast,List.take_length]

@[simp] theorem length_chars (ds : List ℕ) : (chars ds).length = ds.length := List.length_map _

theorem fraction_length_le (fraction : List ℕ) :
    fraction.length ≤ (fractionText fraction).length := by
  rw [fractionText]
  split_ifs with h
  · rw [h]
    exact le_refl _
  · rw [List.length_cons,length_chars]
    omega

theorem processed_length_le (whole : List ℕ) : (processed whole).length ≤ whole.length := by
  rw [processed]
  split_ifs <;> simp

theorem JsonNumber.length_le (n : JsonNumber) :
    n.whole.length + n.fraction.length ≤ n.text.length := by
  have hfraction := fraction_length_le n.fraction
  rw [JsonNumber.text,List.length_append,List.length_append,List.length_append,length_chars]
  omega

theorem JsonNumber.tzeros_le (n : JsonNumber) : n.mantissa.mantissa_tzeros ≤ n.text.length := by
  have hlength := n.length_le
  have hdigits := n.mantissa_holds.tzeros_le
  have hprocessed := processed_length_le n.whole
  rw [List.length_append] at hdigits
  omega

theorem ite_ok {α : Type} {c : Prop} [Decidable c] {a b : α} {e : ParseStop}
    (h : (if c then .ok a else .error e : Parsing α) = .ok b) : c ∧ a = b := by
  by_cases hc : c
  · rw [if_pos hc] at h
    exact ⟨hc,Except.ok.inj h⟩
  · rw [if_neg hc] at h
    cases h

theorem parseFixedPoint_sound {val : Bytes} {decimals : ℕ} (hdecimals : decimals ≤ 18) {out : ℤ}
    (h : parseFixedPoint val decimals = .ok out) : ∃ n : JsonNumber,
      n.text = beforeEnd val ∧ n.Fits decimals ∧ out = n.amount decimals := by
  obtain ⟨⟨m,s⟩,hwhole,h1⟩ := bind_ok.mp h
  obtain ⟨⟨m',ofs,s'⟩,hfraction,h2⟩ := bind_ok.mp h1
  obtain ⟨⟨sign,e,s''⟩,hexponent,h3⟩ := bind_ok.mp h2
  obtain ⟨u,hnil,hout⟩ := bind_ok.mp h3
  rw [refuseIf] at hnil
  split_ifs at hnil with hrest
  obtain rfl := not_not.mp hrest
  obtain ⟨whole,hwhole_ok,hwhole_lt,hs,rfl,hm⟩ := wholePart_sound hwhole
  obtain ⟨fraction,hfraction_lt,rfl,rfl,rfl,hm'⟩ := fractionPart_sound hm hfraction
  obtain ⟨exponent,rfl,hnonneg,he,hpower⟩ := exponentPart_sound hexponent
  let n : JsonNumber := ⟨(beforeEnd val).head? == some 0x2d,whole,fraction,exponent,hwhole_ok,
    hwhole_lt,hfraction_lt⟩
  have htext : n.text = beforeEnd val := by
    change (if (_ == _) = true then _ else _) ++ (chars whole ++ _) = _
    rw [← hs]
    split_ifs with hminus
    · cases hval : beforeEnd val with
      | nil =>
        rw [hval] at hminus
        cases hminus
      | cons c t =>
        rw [hval] at hminus
        obtain rfl : c = 0x2d := by simpa using hminus
        rfl
    · rfl
  have hmantissa : n.mantissa = feed (feed ⟨0,0⟩ (processed whole)) fraction :=
    feed_append _ _ _
  have hshift : n.shift decimals = (if sign then -e else e) - fraction.length +
      (feed (feed ⟨0,0⟩ (processed whole)) fraction).mantissa_tzeros + decimals := by
    rw [JsonNumber.shift,hmantissa,← hpower]
    rfl
  have hlength := beforeEnd_length val
  have hdigits := n.length_le
  have htzeros := n.tzeros_le
  rw [htext] at hdigits htzeros
  rw [hmantissa] at htzeros
  change whole.length + fraction.length ≤ _ at hdigits
  rw [finalize_eq hdecimals hm' (by omega) (by omega) hnonneg he _ sign hshift] at hout
  obtain ⟨hfits,rfl⟩ := ite_ok hout
  refine ⟨n,htext,⟨?_,?_,hfits.1,hfits.2.1,?_⟩,?_⟩
  · rw [hmantissa]
    exact hm'.le
  · change |exponent.elim 0 JsonExponent.value| ≤ _
    rw [hpower]
    split_ifs
    · rwa [abs_neg,abs_of_nonneg hnonneg]
    · rwa [abs_of_nonneg hnonneg]
  · rw [hmantissa]
    exact hfits.2.2
  · rw [JsonNumber.amount,hmantissa]

theorem parseFixedPoint_complete {val : Bytes} {decimals : ℕ} (hdecimals : decimals ≤ 18)
    {n : JsonNumber} (htext : n.text = beforeEnd val) (hfits : n.Fits decimals) :
    parseFixedPoint val decimals = .ok (n.amount decimals) := by
  have hmantissa : n.mantissa = feed (feed ⟨0,0⟩ (processed n.whole)) n.fraction :=
    feed_append _ _ _
  have hnonneg : 0 ≤ (feed ⟨0,0⟩ (processed n.whole)).mantissa := feed_ge (le_refl _) _
  have hle := hfits.mantissa_le
  rw [hmantissa] at hle
  have hwhole_le := (feed_ge hnonneg n.fraction).trans hle
  have hwhole := wholePart_complete n.whole_ok n.whole_lt (noDigit_text n.fraction n.exponent)
    hwhole_le
  have hfraction := fractionPart_complete ⟨hnonneg,hwhole_le⟩ n.fraction_lt n.exponent hle
  obtain ⟨sign,e,hexponent,he0,he,hpower⟩ := exponentPart_complete hfits.power_le
  have hminus : ((beforeEnd val).head? == some 0x2d) = n.negative ∧
      (if n.negative then (beforeEnd val).tail else beforeEnd val) =
        chars n.whole ++ (fractionText n.fraction ++ exponentText n.exponent) := by
    rw [← htext,JsonNumber.text]
    cases n.negative with
    | true => exact ⟨rfl,rfl⟩
    | false =>
      refine ⟨?_,rfl⟩
      cases hw : n.whole with
      | nil => exact absurd hw (n.whole_ok.elim (fun h h' => nomatch h.symm.trans h') And.left)
      | cons d ds =>
        have hd := n.whole_lt d (by rw [hw]; exact List.mem_cons_self)
        have hne : UInt8.ofNat (0x30 + d) ≠ 0x2d := fun h => by
          have hsame := congrArg UInt8.toNat h
          rw [digit_toNat hd] at hsame
          change 48 + d = 45 at hsame
          omega
        exact beq_eq_false_iff_ne.mpr fun h => hne (Option.some.inj h)
  have hlength := beforeEnd_length val
  have hdigits := n.length_le
  have htzeros := n.tzeros_le
  rw [htext] at hdigits htzeros
  rw [hmantissa] at htzeros
  have hshift : n.shift decimals = (if sign then -e else e) - n.fraction.length +
      (feed (feed ⟨0,0⟩ (processed n.whole)) n.fraction).mantissa_tzeros + decimals := by
    rw [JsonNumber.shift,hmantissa,← hpower]
    rfl
  have hamount := hfits.amount_le
  rw [hmantissa] at hamount
  rw [parseFixedPoint]
  dsimp only
  rw [hminus.1,hminus.2]
  refine bind_ok.mpr ⟨_,hwhole,bind_ok.mpr ⟨_,hfraction,bind_ok.mpr ⟨_,hexponent,?_⟩⟩⟩
  dsimp only
  rw [refuseIf_bind (not_not.mpr rfl),finalize_eq hdecimals ⟨hnonneg.trans (feed_ge hnonneg _),hle⟩
    (by omega) (by omega) he0 he n.negative sign hshift,
    if_pos ⟨hfits.shift_nonneg,hfits.shift_lt,hamount⟩,JsonNumber.amount,hmantissa]

/-- No signed operation overflows. -/
def Quiet {α : Type} (x : Parsing α) : Prop := x ≠ .error .overflow

theorem quiet_refused {α : Type} : Quiet (.error .refused : Parsing α) := nofun
theorem quiet_ok {α : Type} (a : α) : Quiet (.ok a : Parsing α) := nofun

theorem quiet_bind {α β : Type} {x : Parsing α} {f : α → Parsing β} (hx : Quiet x)
    (hf : ∀ a, x = .ok a → Quiet (f a)) : Quiet (x >>= f) := by
  cases x with
  | error e => exact fun h => hx (by rw [Except.error.inj h])
  | ok a => exact hf a rfl

theorem quiet_ite {α : Type} (c : Prop) [Decidable c] (a : α) :
    Quiet (if c then .ok a else .error .refused : Parsing α) := by
  split_ifs
  · exact quiet_ok a
  · exact quiet_refused

theorem mantissaDigits_quiet {m : Mantissa} (hm : m.Ok) (ofs : ℕ) (s : Bytes) :
    Quiet (mantissaDigits m ofs s) := by
  obtain ⟨ds,rest,rfl,hds,hrest⟩ := exists_chars s
  rw [mantissaDigits_eq hm ofs hds hrest]
  exact quiet_ite _ _

theorem wholePart_quiet (s : Bytes) : Quiet (wholePart s) := by
  cases s with
  | nil => exact quiet_refused
  | cons c s =>
    rw [wholePart]
    split_ifs
    · exact quiet_ok _
    · exact quiet_bind (mantissaDigits_quiet ok_zero 0 _) fun _ _ => quiet_ok _
    · exact quiet_refused

theorem fractionPart_quiet {m : Mantissa} (hm : m.Ok) (s : Bytes) :
    Quiet (fractionPart m s) := by
  cases s with
  | nil => exact quiet_ok _
  | cons c s =>
    rw [fractionPart]
    split_ifs
    · exact mantissaDigits_quiet hm 0 s
    · exact quiet_refused
    · exact quiet_ok _

theorem exponentPart_quiet (s : Bytes) : Quiet (exponentPart s) := by
  cases s with
  | nil => exact quiet_ok _
  | cons c s =>
    rw [exponentPart]
    split_ifs
    · refine quiet_bind ?_ fun _ _ => quiet_ok _
      obtain ⟨ds,rest,hs,hds,hrest⟩ := exists_chars (exponentSign s).2
      have heq := exponentDigits_eq (e := 0) (by decide) hds hrest
      rw [Nat.cast_zero] at heq
      rw [hs,heq]
      exact quiet_ite _ _
    · exact quiet_refused
    · exact quiet_ok _

theorem parseFixedPoint_quiet (val : Bytes) {decimals : ℕ} (hdecimals : decimals ≤ 18) :
    Quiet (parseFixedPoint val decimals) := by
  refine quiet_bind (wholePart_quiet _) ?_
  rintro ⟨m,s⟩ hwhole
  obtain ⟨whole,-,hwhole_lt,hs,rfl,hm⟩ := wholePart_sound hwhole
  refine quiet_bind (fractionPart_quiet hm s) ?_
  rintro ⟨m',ofs,s'⟩ hfraction
  obtain ⟨fraction,hfraction_lt,rfl,rfl,rfl,hm'⟩ := fractionPart_sound hm hfraction
  refine quiet_bind (exponentPart_quiet s') ?_
  rintro ⟨sign,e,s''⟩ hexponent
  dsimp only
  by_cases hrest : s'' ≠ []
  · rw [refuseIf_refused hrest]
    exact quiet_refused
  rw [refuseIf_bind hrest]
  obtain rfl := not_not.mp hrest
  obtain ⟨exponent,rfl,hnonneg,he,-⟩ := exponentPart_sound hexponent
  have hlength : whole.length + fraction.length ≤ (beforeEnd val).length := by
    have hle : (if ((beforeEnd val).head? == some 0x2d) = true then (beforeEnd val).tail
        else beforeEnd val).length ≤ (beforeEnd val).length := by
      split_ifs
      · rw [List.length_tail]
        omega
      · exact le_refl _
    have hfraction_le := fraction_length_le fraction
    rw [hs,List.length_append,List.length_append,length_chars] at hle
    omega
  have hend := beforeEnd_length val
  have hprocessed := processed_length_le whole
  have hlt := processed_lt hwhole_lt
  have htzeros := ((holds_zero.feed hlt).feed hfraction_lt).tzeros_le
  rw [finalize_eq hdecimals hm' (by omega) (by omega) hnonneg he _ sign rfl]
  exact quiet_ite _ _

theorem JsonNumber.mantissa_eq_zero {n : JsonNumber} : n.mantissa.mantissa = 0 ↔ n.value = 0 := by
  have hvalue := n.value_eq 0
  have hten : (10 : ℚ)^n.shift (0 : ℕ) ≠ 0 := zpow_ne_zero _ (by norm_num)
  have hsign : (if n.negative then -1 else 1 : ℚ) ≠ 0 := by split_ifs <;> norm_num
  rw [pow_zero,mul_one] at hvalue
  rw [hvalue,mul_eq_zero,mul_eq_zero,or_iff_right hsign,or_iff_left hten,Int.cast_eq_zero]

/-- A number that is accepted: its amount is an integer of at most 18 digits, or it is zero and its
power of ten is small. -/
def JsonNumber.Accepted (n : JsonNumber) (decimals : ℕ) : Prop :=
  (n.value ≠ 0 → ∃ amount : ℤ, n.value * 10^decimals = amount ∧ |amount| ≤ UPPER_BOUND) ∧
    (n.value = 0 → 0 ≤ n.power + decimals ∧ n.power + decimals < 18)

theorem JsonNumber.shift_of_zero {n : JsonNumber} (h : n.value = 0) (decimals : ℕ) :
    n.shift decimals = n.power + decimals := by
  have hholds := n.mantissa_holds
  have hzero := mantissa_eq_zero.mpr h
  have hwhole : n.whole = [0] := by
    by_contra hne
    obtain ⟨hnil,hhead⟩ := n.whole_ok.resolve_left hne
    have hvalue := hholds.value
    rw [hzero,zero_mul] at hvalue
    cases hw : n.whole with
    | nil => exact hnil hw
    | cons d ds =>
      rw [hw] at hvalue hhead
      have hpos : 0 < d * 10^(ds ++ n.fraction).length :=
        Nat.mul_pos (Nat.pos_of_ne_zero fun h => hhead (by rw [h]; rfl)) (by positivity)
      have hstart : accumulate 10 0 (d::ds ++ n.fraction) =
          accumulate 10 (10 * 0 + d) (ds ++ n.fraction) := rfl
      rw [hstart,accumulate_from,Nat.mul_zero,Nat.zero_add] at hvalue
      omega
  have htzeros := hholds.zero hzero
  rw [hwhole] at htzeros
  change n.mantissa.mantissa_tzeros = n.fraction.length at htzeros
  rw [JsonNumber.shift,htzeros]
  ring

theorem JsonNumber.shift_of_amount {n : JsonNumber} (hne : n.value ≠ 0) {decimals : ℕ} {a : ℤ}
    (ha : n.value * 10^decimals = a) : 0 ≤ n.shift decimals ∧
      |a| = n.mantissa.mantissa * 10^(n.shift decimals).toNat := by
  have hholds := n.mantissa_holds
  have hvalue := n.value_eq decimals
  have habs : ((|a| : ℤ) : ℚ) = n.mantissa.mantissa * 10^n.shift decimals := by
    have hnonneg : (0 : ℚ) ≤ n.mantissa.mantissa * 10^n.shift decimals :=
      mul_nonneg (Int.cast_nonneg hholds.nonneg) (zpow_nonneg (by norm_num) _)
    rw [Int.cast_abs,← ha,hvalue,abs_mul,abs_of_nonneg hnonneg]
    split_ifs <;> norm_num
  have hshift : 0 ≤ n.shift decimals := by
    by_contra hneg
    obtain ⟨k,hk⟩ : ∃ k : ℕ, n.shift decimals = -(k + 1 : ℕ) :=
      ⟨(-n.shift decimals - 1).toNat,by push_cast; omega⟩
    rw [hk,zpow_neg,zpow_natCast] at habs
    have hten : (10 : ℚ)^(k + 1) ≠ 0 := by positivity
    have hcast : ((|a| * 10^(k + 1) : ℤ) : ℚ) = (n.mantissa.mantissa : ℤ) := by
      push_cast
      rw [← Int.cast_abs,habs,inv_mul_cancel_right₀ hten]
    have hmul := Int.cast_inj.mp hcast
    refine hholds.last (fun h => hne (mantissa_eq_zero.mp h)) ⟨|a| * 10^k,?_⟩
    rw [← hmul]
    ring
  refine ⟨hshift,?_⟩
  rw [← Int.toNat_of_nonneg hshift,zpow_natCast] at habs
  exact_mod_cast habs

theorem JsonNumber.fits_iff {n : JsonNumber} (hlength : n.text.length < 2^31) {decimals : ℕ}
    (hdecimals : decimals ≤ 18) : n.Fits decimals ↔ n.Accepted decimals := by
  have hub := upper
  have hholds := n.mantissa_holds
  constructor
  · refine fun h => ⟨fun _ => ⟨_,h.amount_eq.symm,h.amount_abs⟩,fun hzero => ?_⟩
    rw [← shift_of_zero hzero]
    exact ⟨h.shift_nonneg,h.shift_lt⟩
  · intro h
    have htzeros := n.tzeros_le
    have hdigits := n.length_le
    have hpower : 0 ≤ n.shift decimals → n.shift decimals < 18 → |n.power| ≤ UPPER_BOUND := by
      intro hnonneg hlt
      rw [JsonNumber.shift] at hnonneg hlt
      rw [abs_le]
      omega
    by_cases hzero : n.value = 0
    · have hm := mantissa_eq_zero.mpr hzero
      obtain ⟨hnonneg,hlt⟩ := h.2 hzero
      rw [← shift_of_zero hzero] at hnonneg hlt
      refine ⟨by omega,hpower hnonneg hlt,hnonneg,hlt,?_⟩
      rw [hm,zero_mul]
      omega
    · obtain ⟨a,ha,hle⟩ := h.1 hzero
      obtain ⟨hnonneg,habs⟩ := shift_of_amount hzero ha
      have hm : 1 ≤ n.mantissa.mantissa := by
        have hne : n.mantissa.mantissa ≠ 0 := fun h => hzero (mantissa_eq_zero.mp h)
        have hpos := hholds.nonneg
        omega
      have hpow : (1 : ℤ) ≤ 10^(n.shift decimals).toNat := one_le_pow₀ (by norm_num)
      rw [habs] at hle
      have hlt : n.shift decimals < 18 := by
        by_contra hge
        have hbig : (10 : ℤ)^18 ≤ 10^(n.shift decimals).toNat :=
          pow_le_pow_right₀ (by norm_num) (by omega)
        have hmul := le_mul_of_one_le_left (zero_le_one.trans hpow) hm
        exact absurd (hbig.trans (hmul.trans hle)) (by rw [hub]; norm_num)
      exact ⟨(le_mul_of_one_le_right hholds.nonneg hpow).trans hle,hpower hnonneg hlt,hnonneg,hlt,
        hle⟩

/-- The function is right about a string exactly if, should the part before the end be a number that
is accepted, the whole string denotes the same number; it accepts every number within the bound in a
string that an `int` can measure, and no signed operation overflows. -/
theorem parseFixedPoint_exact (val : Bytes) {decimals : ℕ} (hdecimals : decimals ≤ 18) :
    ((∀ out, parseFixedPoint val decimals = .ok out →
        (∃ n : JsonNumber, n.text = val ∧ (out : ℚ) = n.value * 10^decimals) ∧
          |out| ≤ 10^18 - 1) ↔
      ∀ n : JsonNumber, n.text = beforeEnd val → n.Accepted decimals →
        ∃ n' : JsonNumber, n'.text = val ∧ n'.value = n.value) ∧
    (val.length < 2^31 → ∀ (n : JsonNumber) (a : ℤ), n.text = val → n.value ≠ 0 →
      n.value * 10^decimals = a → |a| ≤ 10^18 - 1 → parseFixedPoint val decimals = .ok a) ∧
    Quiet (parseFixedPoint val decimals) := by
  have hten : (10 : ℚ)^decimals ≠ 0 := by positivity
  refine ⟨⟨fun h n htext haccepted => ?_,fun h out hout => ?_⟩,?_,
    parseFixedPoint_quiet val hdecimals⟩
  · have hlength : n.text.length < 2^31 := htext ▸ beforeEnd_length val
    have hfits := (JsonNumber.fits_iff hlength hdecimals).mpr haccepted
    obtain ⟨⟨n',htext',hvalue⟩,-⟩ := h _ (parseFixedPoint_complete hdecimals htext hfits)
    refine ⟨n',htext',mul_right_cancel₀ hten ?_⟩
    rw [← hvalue,hfits.amount_eq]
  · obtain ⟨n,htext,hfits,rfl⟩ := parseFixedPoint_sound hdecimals hout
    have hlength : n.text.length < 2^31 := htext ▸ beforeEnd_length val
    obtain ⟨n',htext',hvalue⟩ := h n htext ((JsonNumber.fits_iff hlength hdecimals).mp hfits)
    exact ⟨⟨n',htext',by rw [hvalue,hfits.amount_eq]⟩,hfits.amount_abs⟩
  · rintro hshort n a rfl hne ha hle
    have hfits := (JsonNumber.fits_iff hshort hdecimals).mpr
      ⟨fun _ => ⟨a,ha,hle⟩,fun h => absurd h hne⟩
    rw [parseFixedPoint_complete hdecimals (beforeEnd_of_short hshort).symm hfits]
    refine congrArg Except.ok (Int.cast_injective (α := ℚ) ?_)
    rw [hfits.amount_eq,ha]

/-- The number 1.5. -/
def sampleNumber : JsonNumber := ⟨false,[1],[5],none,.inr (by decide),by decide,by decide⟩

theorem parseFixedPoint_sample : parseFixedPoint [0x31,0x2e,0x35] 8 = .ok 150000000 := by
  have hvalue : sampleNumber.value = 3 / 2 := by
    norm_num [sampleNumber,JsonNumber.value,JsonNumber.power,accumulate]
  have hshort : ([0x31,0x2e,0x35] : Bytes).length < 2^31 := by decide
  have hdecimals : 8 ≤ 18 := by decide
  refine (parseFixedPoint_exact [0x31,0x2e,0x35] hdecimals).2.1 hshort
    sampleNumber 150000000 rfl ?_ ?_ (by norm_num)
  · rw [hvalue]
    norm_num
  · rw [hvalue]
    norm_num

theorem JsonNumber.text_noSpace (n : JsonNumber) : 0x20 ∉ n.text := by
  have hchars : ∀ ds : List ℕ, (∀ d ∈ ds, d < 10) → 0x20 ∉ chars ds := by
    intro ds hds hmem
    obtain ⟨d,hd,hspace⟩ := List.mem_map.mp hmem
    have hsame := congrArg UInt8.toNat hspace
    rw [digit_toNat (hds d hd)] at hsame
    change 48 + d = 32 at hsame
    omega
  rw [JsonNumber.text]
  simp only [List.mem_append,not_or]
  refine ⟨by split_ifs <;> decide,hchars _ n.whole_lt,?_,?_⟩
  · rw [fractionText]
    split_ifs
    · exact List.not_mem_nil
    · exact fun hmem => (List.mem_cons.mp hmem).elim (by decide) (hchars _ n.fraction_lt)
  · cases n.exponent with
    | none => exact List.not_mem_nil
    | some e =>
      change 0x20 ∉ e.text
      rw [JsonExponent.text,JsonExponent.signText]
      simp only [List.mem_cons,List.mem_append,not_or]
      refine ⟨by split_ifs <;> decide,?_,hchars _ e.digits_lt⟩
      split <;> decide

/-- The character 1 and 4294967296 spaces: only the first character lies before the end. -/
theorem parseFixedPoint_long :
    parseFixedPoint (0x31::List.replicate (2^32) 0x20) 8 = .ok 100000000 ∧
      ¬∃ n : JsonNumber, n.text = 0x31::List.replicate (2^32) 0x20 := by
  have hend : beforeEnd (0x31::List.replicate (2^32) 0x20) = beforeEnd [0x31] := by
    have hone : (Int32.ofNat (2^32 + 1)).toInt.toNat = 1 := by decide
    rw [beforeEnd,List.length_cons,List.length_replicate,hone]
    rfl
  constructor
  · rw [parseFixedPoint,hend]
    decide
  · rintro ⟨n,htext⟩
    refine n.text_noSpace ?_
    rw [htext]
    exact List.mem_cons_of_mem _ (List.mem_replicate.mpr ⟨by norm_num,rfl⟩)

end FixedPoint
end Sidechain
