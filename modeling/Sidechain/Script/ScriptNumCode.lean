import Sidechain.Script.EvalSafe

/-! Numbers on the stack and the byte vectors that stand for them: sign and magnitude, least
significant byte first, and no byte more than the sign needs. -/
namespace Sidechain
open Guarded

theorem and_0x80_ne_zero (b : UInt8) : b &&& 0x80 ≠ 0 ↔ 128 ≤ b.toNat := by
  have hall : ∀ n : Fin 256, UInt8.ofNat n &&& 0x80 ≠ 0 ↔ 128 ≤ n.val := by
    decide +kernel
  simpa using hall ⟨b.toNat,UInt8.toNat_lt b⟩

theorem and_0x7f_toNat (b : UInt8) : (b &&& 0x7f).toNat = b.toNat % 128 := by
  have hall : ∀ n : Fin 256, (UInt8.ofNat n &&& 0x7f).toNat = n.val % 128 := by
    decide +kernel
  simpa using hall ⟨b.toNat,UInt8.toNat_lt b⟩

theorem or_0x80_toNat {b : UInt8} (h : b.toNat < 128) : (b ||| 0x80).toNat = b.toNat + 128 := by
  have hall : ∀ n : Fin 256, n.val < 128 → (UInt8.ofNat n ||| 0x80).toNat = n.val + 128 := by
    decide +kernel
  simpa using hall ⟨b.toNat,UInt8.toNat_lt b⟩ h

@[simp] theorem ofLeBytes_cons (b : UInt8) (bs : Bytes) :
    ofLeBytes (b::bs) = b.toNat + 256 * ofLeBytes bs := by
  unfold ofLeBytes
  rw [List.map_cons,Nat.ofDigits_cons]

@[simp] theorem ofLeBytes_append (front rest : Bytes) :
    ofLeBytes (front ++ rest) = ofLeBytes front + 256^front.length * ofLeBytes rest := by
  unfold ofLeBytes
  rw [List.map_append,Nat.ofDigits_append,List.length_map]

@[simp] theorem ofLeBytes_singleton (b : UInt8) : ofLeBytes [b] = b.toNat := by
  rw [ofLeBytes_cons]
  rfl

theorem ofLeBytes_append_zero (bs : Bytes) : ofLeBytes (bs ++ [0]) = ofLeBytes bs := by
  rw [ofLeBytes_append,ofLeBytes_singleton]
  simp

theorem ofLeBytes_pos (front : Bytes) {m : UInt8} (hm : m ≠ 0) : 0 < ofLeBytes (front ++ [m]) := by
  have hpos : 0 < m.toNat := Nat.pos_of_ne_zero fun h => hm (UInt8.toNat_inj.mp h)
  rw [ofLeBytes_append,ofLeBytes_singleton]
  positivity

theorem absBytes_spec {fuel n : ℕ} (hn : n < 256^fuel) (h0 : n ≠ 0) :
    ∃ front m, absBytes fuel n = front ++ [m] ∧ m ≠ 0 ∧ ofLeBytes (front ++ [m]) = n := by
  induction fuel generalizing n with
  | zero => omega
  | succ fuel ih =>
    rw [pow_succ] at hn
    have hbyte : (UInt8.ofNat (n % 256)).toNat = n % 256 := by
      rw [UInt8.toNat_ofNat']
      omega
    rw [absBytes,if_neg h0]
    by_cases hq : n / 256 = 0
    · refine ⟨[],UInt8.ofNat (n % 256),?_,fun hz => ?_,?_⟩
      · rw [hq]
        cases fuel <;> rfl
      · have := congrArg UInt8.toNat hz
        rw [hbyte] at this
        change n % 256 = 0 at this
        omega
      · rw [List.nil_append,ofLeBytes_singleton,hbyte]
        omega
    · obtain ⟨front,m,habs,hm,hval⟩ := ih (n := n / 256) (by omega) hq
      refine ⟨UInt8.ofNat (n % 256)::front,m,by rw [habs]; rfl,hm,?_⟩
      rw [List.cons_append,ofLeBytes_cons,hval,hbyte]
      omega

theorem absBytes_ofLeBytes {fuel : ℕ} {front : Bytes} {m : UInt8} (hm : m ≠ 0)
    (hfuel : front.length + 1 ≤ fuel) : absBytes fuel (ofLeBytes (front ++ [m])) = front ++ [m] := by
  induction front generalizing fuel with
  | nil =>
    obtain ⟨fuel,rfl⟩ : ∃ f, fuel = f + 1 := ⟨fuel - 1,by simp at hfuel; omega⟩
    have hpos := ofLeBytes_pos [] hm
    have hlt := UInt8.toNat_lt m
    rw [List.nil_append,ofLeBytes_singleton] at hpos ⊢
    rw [absBytes,if_neg (by omega),Nat.mod_eq_of_lt hlt,Nat.div_eq_of_lt hlt,UInt8.ofNat_toNat]
    cases fuel <;> rfl
  | cons b front ih =>
    rw [List.length_cons] at hfuel
    obtain ⟨fuel,rfl⟩ : ∃ f, fuel = f + 1 := ⟨fuel - 1,by omega⟩
    have hpos := ofLeBytes_pos front hm
    have hlt := UInt8.toNat_lt b
    have hmod : (b.toNat + 256 * ofLeBytes (front ++ [m])) % 256 = b.toNat := by omega
    have hdiv : (b.toNat + 256 * ofLeBytes (front ++ [m])) / 256 = ofLeBytes (front ++ [m]) := by omega
    rw [List.cons_append,ofLeBytes_cons,absBytes,if_neg (by omega),hmod,hdiv,UInt8.ofNat_toNat,
      ih (by omega)]

namespace CScriptNum

theorem setVch_concat (front : Bytes) (msb : UInt8) : setVch (front ++ [msb]) =
    if msb &&& 0x80 ≠ 0 then -(ofLeBytes (front ++ [msb &&& 0x7f]) : ℤ)
    else ofLeBytes (front ++ [msb]) := by
  unfold setVch
  rw [List.getLast?_concat,List.dropLast_concat]

theorem isMinimal_concat (front : Bytes) (msb : UInt8) : isMinimal (front ++ [msb]) = true ↔
    msb &&& 0x7f ≠ 0 ∨ ∃ front' next, front = front' ++ [next] ∧ next &&& 0x80 ≠ 0 := by
  unfold isMinimal
  rw [List.reverse_append,List.reverse_singleton,List.singleton_append]
  cases front using List.reverseRecOn with
  | nil => simp
  | append_singleton front next => simp

theorem serialize_eq {v : CScriptNum} {front : Bytes} {m : UInt8}
    (h : absBytes 8 v.natAbs = front ++ [m]) : serialize v =
      if m &&& 0x80 ≠ 0 then front ++ [m] ++ [if v < 0 then 0x80 else 0]
      else if v < 0 then front ++ [m ||| 0x80]
      else front ++ [m] := by
  unfold serialize
  rw [h]
  dsimp only
  rw [List.getLast?_concat,List.dropLast_concat]

/-- The value comes back, from bytes that are as few as can be. -/
theorem setVch_serialize {v : CScriptNum} (hv : v.natAbs < 256^8) :
    setVch (serialize v) = v ∧ isMinimal (serialize v) = true := by
  by_cases h0 : v = 0
  · subst h0
    exact ⟨rfl,rfl⟩
  obtain ⟨front,m,habs,hm,hval⟩ := absBytes_spec hv (Int.natAbs_ne_zero.mpr h0)
  rw [serialize_eq habs]
  by_cases htop : m &&& 0x80 ≠ 0
  · -- another byte has the sign
    rw [if_pos htop,setVch_concat,isMinimal_concat]
    refine ⟨?_,Or.inr ⟨front,m,rfl,htop⟩⟩
    by_cases hneg : v < 0
    · rw [if_pos hneg,if_pos (by decide),show (0x80 : UInt8) &&& 0x7f = 0 from rfl,
        ofLeBytes_append_zero,hval,Int.ofNat_natAbs_of_nonpos hneg.le,neg_neg]
    · rw [if_neg hneg,if_neg (by decide),ofLeBytes_append_zero,hval]
      exact Int.natAbs_of_nonneg (not_lt.mp hneg)
  · have hlow : m.toNat < 128 := by
      rw [and_0x80_ne_zero] at htop
      omega
    have hsame : m &&& 0x7f = m := by
      apply UInt8.toNat_inj.mp
      rw [and_0x7f_toNat,Nat.mod_eq_of_lt hlow]
    rw [if_neg htop]
    by_cases hneg : v < 0
    · have hsign : (m ||| 0x80) &&& 0x7f = m := by
        apply UInt8.toNat_inj.mp
        rw [and_0x7f_toNat,or_0x80_toNat hlow]
        omega
      have hset : (m ||| 0x80) &&& 0x80 ≠ 0 := by
        rw [and_0x80_ne_zero,or_0x80_toNat hlow]
        omega
      rw [if_pos hneg,setVch_concat,isMinimal_concat,if_pos hset,hsign,hval]
      rw [Int.ofNat_natAbs_of_nonpos hneg.le,neg_neg]
      exact ⟨rfl,Or.inl hm⟩
    · rw [if_neg hneg,setVch_concat,isMinimal_concat,if_neg htop,hsame,hval]
      exact ⟨Int.natAbs_of_nonneg (not_lt.mp hneg),Or.inl hm⟩

/-- A vector that is as short as can be is written for the number it stands for. -/
theorem serialize_setVch {vch : valtype} (hlength : vch.length ≤ 8) (hmin : isMinimal vch = true) :
    serialize (setVch vch) = vch := by
  cases vch using List.reverseRecOn with
  | nil => rfl
  | append_singleton front msb =>
    rw [List.length_append,List.length_singleton] at hlength
    have hlt := UInt8.toNat_lt msb
    rw [isMinimal_concat] at hmin
    rw [setVch_concat]
    by_cases hlow : msb &&& 0x7f ≠ 0
    · -- the last byte has the sign and part of the magnitude
      have hpos := ofLeBytes_pos front hlow
      have habs := absBytes_ofLeBytes hlow hlength
      have hseven : ¬ (msb &&& 0x7f &&& 0x80 ≠ 0) := by
        rw [and_0x80_ne_zero,and_0x7f_toNat]
        omega
      by_cases hsign : msb &&& 0x80 ≠ 0
      · have hback : (msb &&& 0x7f) ||| 0x80 = msb := by
          apply UInt8.toNat_inj.mp
          rw [and_0x80_ne_zero] at hsign
          rw [or_0x80_toNat (by rw [and_0x7f_toNat]; omega),and_0x7f_toNat]
          omega
        rw [if_pos hsign,@serialize_eq _ front (msb &&& 0x7f)
          (by rw [Int.natAbs_neg,Int.natAbs_natCast,habs]),if_neg hseven,
          if_pos (Int.neg_neg_of_pos (Int.natCast_pos.mpr hpos)),hback]
      · have hsame : msb &&& 0x7f = msb := by
          apply UInt8.toNat_inj.mp
          rw [and_0x80_ne_zero] at hsign
          rw [and_0x7f_toNat]
          omega
        rw [hsame] at habs hseven
        rw [if_neg hsign,@serialize_eq _ front msb
          (by rw [Int.natAbs_natCast,habs]),if_neg hseven,
          if_neg (not_lt.mpr (Int.natCast_nonneg _))]
    · -- the last byte has the sign only
      obtain ⟨front',next,rfl,htop⟩ := hmin.resolve_left hlow
      rw [not_not] at hlow
      have hnext : next ≠ 0 := by
        rintro rfl
        exact htop rfl
      have hzero : msb.toNat % 128 = 0 := by
        rw [← and_0x7f_toNat,hlow]
        rfl
      have hpos := ofLeBytes_pos front' hnext
      have habs : absBytes 8 (ofLeBytes (front' ++ [next])) = front' ++ [next] :=
        absBytes_ofLeBytes hnext (by
          rw [List.length_append,List.length_singleton] at hlength
          omega)
      by_cases hsign : msb &&& 0x80 ≠ 0
      · have hmsb : msb = 0x80 := by
          apply UInt8.toNat_inj.mp
          rw [and_0x80_ne_zero] at hsign
          change msb.toNat = 128
          omega
        rw [if_pos hsign,hlow,ofLeBytes_append_zero,@serialize_eq _ front' next
          (by rw [Int.natAbs_neg,Int.natAbs_natCast,habs]),if_pos htop,
          if_pos (Int.neg_neg_of_pos (Int.natCast_pos.mpr hpos)),hmsb]
      · have hmsb : msb = 0 := by
          apply UInt8.toNat_inj.mp
          rw [and_0x80_ne_zero] at hsign
          change msb.toNat = 0
          omega
        rw [if_neg hsign,hmsb,ofLeBytes_append_zero,@serialize_eq _ front' next
          (by rw [Int.natAbs_natCast,habs]),if_pos htop,
          if_neg (not_lt.mpr (Int.natCast_nonneg _))]

/-- The constructor from bytes: a shift of a byte by 64 bits is undefined. -/
def ofVch64 (fRequireMinimal : Bool) (nMaxNumSize : ℕ) (vch : valtype) : Checked CScriptNum := do
  let bn ← lift (ofVch fRequireMinimal nMaxNumSize vch)
  ensure (vch.length ≤ 8) "static_cast<int64_t>(vch[i]) << 8*i"
  .ok bn

/-- `operator&`. -/
def bitAnd (bn rhs : CScriptNum) : CScriptNum := (Int64.ofInt bn &&& Int64.ofInt rhs).toInt

theorem ofVch64_ok {fRequireMinimal : Bool} {n : ℕ} {vch : valtype} {bn : CScriptNum}
    (hn : n ≤ 8) : ofVch64 fRequireMinimal n vch = .ok bn ↔
      ofVch fRequireMinimal n vch = .ok bn := by
  unfold ofVch64
  cases h : ofVch fRequireMinimal n vch with
  | error e => exact ⟨(fun h => nomatch h),(fun h => nomatch h)⟩
  | ok bn' =>
    rw [lift_ok,ok_bind,ensure_true ((ofVch_ok h).1.trans hn),ok_bind]
    exact ⟨fun h => congrArg Except.ok (Except.ok.inj h),fun h => congrArg Except.ok (Except.ok.inj h)⟩

/-- At most eight bytes leave one bit of the 64 to the sign. -/
theorem setVch_lt (vch : valtype) (hlength : vch.length ≤ 8) :
    int64Min < setVch vch ∧ setVch vch ≤ int64Max := by
  cases vch using List.reverseRecOn with
  | nil => decide
  | append_singleton front msb =>
    rw [List.length_append,List.length_singleton] at hlength
    have hfront := ofLeBytes_lt front
    have hlt := UInt8.toNat_lt msb
    have hmag : ∀ b : UInt8, b.toNat < 128 → ofLeBytes (front ++ [b]) < 2^63 := by
      intro b hb
      rw [ofLeBytes_append,ofLeBytes_singleton]
      calc ofLeBytes front + 256^front.length * b.toNat
          < 256^front.length * (b.toNat + 1) := by rw [Nat.mul_add,Nat.mul_one]; omega
        _ ≤ 256^7 * 128 := Nat.mul_le_mul (Nat.pow_le_pow_right (by decide) (by omega)) hb
        _ = 2^63 := by norm_num
    rw [setVch_concat]
    unfold int64Min int64Max
    split_ifs with hsign
    · have := hmag (msb &&& 0x7f) (by rw [and_0x7f_toNat]; omega)
      push_cast
      constructor <;> linarith [Int.natCast_nonneg (ofLeBytes (front ++ [msb &&& 0x7f]))]
    · rw [and_0x80_ne_zero] at hsign
      have := hmag msb (by omega)
      constructor <;> linarith [Int.natCast_nonneg (ofLeBytes (front ++ [msb]))]

theorem getvch_ok {bn : CScriptNum} (h : bn ≠ int64Min) : getvch bn = .ok (serialize bn) := by
  unfold getvch
  rw [ensure_true h,ok_bind]

theorem ofInt64_ok {n : ℤ} (h : int64Min ≤ n ∧ n ≤ int64Max) (what : String) :
    ofInt64 n what = .ok n := by
  unfold ofInt64
  rw [ensure_true h,ok_bind]

/-- Only the least number of int64 needs nine bytes. -/
theorem serialize_length {v : CScriptNum} (hv : v.natAbs < 2^63) : (serialize v).length ≤ 8 := by
  by_cases h0 : v = 0
  · subst h0
    exact Nat.zero_le 8
  have hlt : v.natAbs < 256^8 := hv.trans (by norm_num)
  obtain ⟨front,m,habs,hm,hval⟩ := absBytes_spec hlt (Int.natAbs_ne_zero.mpr h0)
  have hpos : 0 < m.toNat := Nat.pos_of_ne_zero fun h => hm (UInt8.toNat_inj.mp h)
  have hge : 256^front.length * m.toNat ≤ v.natAbs := by
    rw [← hval,ofLeBytes_append,ofLeBytes_singleton]
    exact Nat.le_add_left _ _
  have hshort : ∀ k b, b ≤ m.toNat → 2^63 ≤ 256^k * b → front.length < k := by
    intro k b hb hlarge
    by_contra hlong
    have := Nat.mul_le_mul (Nat.pow_le_pow_right (by decide : 0 < 256) (not_lt.mp hlong)) hb
    exact absurd (hlarge.trans (this.trans hge)) (not_le.mpr hv)
  rw [serialize_eq habs]
  have hfront := hshort 8 1 hpos (by norm_num)
  by_cases htop : m &&& 0x80 ≠ 0
  · rw [if_pos htop]
    rw [and_0x80_ne_zero] at htop
    have := hshort 7 128 htop (by norm_num)
    simp only [List.length_append,List.length_singleton]
    omega
  · rw [if_neg htop]
    split_ifs
    · simp only [List.length_append,List.length_singleton]
      omega
    · simp only [List.length_append,List.length_singleton]
      omega

/-- Operands of at most four bytes are far from the ends of int64. -/
theorem ofVch_four {fRequireMinimal : Bool} {vch : valtype} {bn : CScriptNum}
    (h : ofVch64 fRequireMinimal nDefaultMaxNumSize vch = .ok bn) : -2^32 < bn ∧ bn < 2^32 := by
  obtain ⟨hlength,rfl⟩ := ofVch_ok ((ofVch64_ok (by decide)).mp h)
  obtain ⟨hlow,hhigh⟩ := setVch_bound vch
  have hpow : (256^vch.length : ℤ) ≤ 256^4 := pow_le_pow_right₀ (by norm_num) hlength
  norm_num at hpow
  constructor <;> linarith

theorem ofVch64_getvch {v : Int64} (hv : v ≠ Int64.minValue) : ∃ vch, getvch v.toInt = .ok vch ∧
    ∀ n, vch.length ≤ n → ofVch64 true n vch = .ok v.toInt := by
  have hmin : v.toInt ≠ int64Min := by
    intro h
    apply hv
    rw [← Int64.toInt_inj,h]
    rfl
  have hlow := Int64.le_toInt v
  have hhigh := Int64.toInt_lt v
  have hsize : v.toInt.natAbs < 2^63 := by
    unfold int64Min at hmin
    omega
  obtain ⟨hback,hminimal⟩ := setVch_serialize (v := v.toInt) (hsize.trans (by norm_num))
  refine ⟨_,getvch_ok hmin,fun n hfit => ?_⟩
  unfold ofVch64 ofVch
  rw [if_neg (not_lt.mpr hfit),hminimal,if_neg (by simp),lift_ok,ok_bind,
    ensure_true (serialize_length hsize),ok_bind,hback]

/-- Every vector that fits is read, and the minimal ones are those that are written. -/
theorem ofVch64_minimal {n : ℕ} {vch : valtype} (hn : n ≤ 8) (hlength : vch.length ≤ n) :
    ∃ bn, ofVch64 false n vch = .ok bn ∧
      ((ofVch64 true n vch).isOk = true ↔ getvch bn = .ok vch) := by
  have hrange := setVch_lt vch (hlength.trans hn)
  have hplain : ofVch false n vch = .ok (setVch vch) := by
    unfold ofVch
    rw [if_neg (not_lt.mpr hlength)]
    rfl
  refine ⟨setVch vch,(ofVch64_ok hn).mpr hplain,?_⟩
  rw [getvch_ok hrange.1.ne',Run.isOk_iff]
  simp only [ofVch64_ok hn,Except.ok.injEq]
  constructor
  · rintro ⟨bn,hbn⟩
    refine serialize_setVch (hlength.trans hn) ?_
    by_contra hmin
    unfold ofVch at hbn
    rw [if_neg (not_lt.mpr hlength),if_pos (by simp [hmin])] at hbn
    cases hbn
  · intro heq
    have hnat : (setVch vch).natAbs < 256^8 := by
      unfold int64Min int64Max at hrange
      rw [← Int.ofNat_lt,Int.natCast_natAbs,abs_lt]
      constructor <;> push_cast <;> linarith
    have hmin := (setVch_serialize hnat).2
    rw [heq] at hmin
    refine ⟨setVch vch,?_⟩
    unfold ofVch
    rw [if_neg (not_lt.mpr hlength),hmin,if_neg (by simp)]

/-- Arithmetic on numbers that far from the ends fails no assertion. -/
theorem arithmetic_four {a b : CScriptNum} (ha : -2^32 < a ∧ a < 2^32)
    (hb : -2^32 < b ∧ b < 2^32) :
    add a b = .ok (a + b) ∧ sub a b = .ok (a - b) ∧ addAssign a b = .ok (a + b) ∧
      subAssign a b = .ok (a - b) ∧ negAt a = .ok (-a) := by
  have hassign : ∀ {c : Prop} [Decidable c], c → ∀ {n : ℤ} (what what' : String),
      int64Min ≤ n ∧ n ≤ int64Max →
        (do ensure c what; ofInt64 n what' : Checked CScriptNum) = .ok n := by
    intro c _ hc n what what' hn
    rw [ensure_true hc,ok_bind]
    exact ofInt64_ok hn what'
  have hadd : int64Min ≤ a + b ∧ a + b ≤ int64Max := by
    unfold int64Min int64Max
    constructor <;> linarith
  have hsub : int64Min ≤ a - b ∧ a - b ≤ int64Max := by
    unfold int64Min int64Max
    constructor <;> linarith
  have hneg : int64Min ≤ -a ∧ -a ≤ int64Max := by
    unfold int64Min int64Max
    constructor <;> linarith
  refine ⟨ofInt64_ok hadd _,ofInt64_ok hsub _,hassign ?_ _ _ hadd,hassign ?_ _ _ hsub,
    hassign ?_ _ _ hneg⟩
  · rcases lt_trichotomy b 0 with hlt | heq | hgt
    · exact Or.inr (Or.inr ⟨hlt,by unfold int64Min; linarith⟩)
    · exact Or.inl heq
    · exact Or.inr (Or.inl ⟨hgt,by unfold int64Max; linarith⟩)
  · rcases lt_trichotomy b 0 with hlt | heq | hgt
    · exact Or.inr (Or.inr ⟨hlt,by unfold int64Max; linarith⟩)
    · exact Or.inl heq
    · exact Or.inr (Or.inl ⟨hgt,by unfold int64Min; linarith⟩)
  · unfold int64Min
    exact ne_of_gt (by linarith)

/-- What a CScriptNum keeps of numbers and bytes: every number of int64 but the least comes back
from its bytes; of the vectors of at most eight bytes exactly those that are written for some number
are minimal; sums, differences and negations of operands of at most four bytes stay in int64, and so
no assertion fails; and `getint` gives the nearest int. -/
theorem scriptNum_coding :
    (∀ v : Int64, v ≠ Int64.minValue → ∃ vch, getvch v.toInt = .ok vch ∧
      ∀ n, vch.length ≤ n → ofVch64 true n vch = .ok v.toInt) ∧
    (∀ (n : ℕ) (vch : valtype), n ≤ 8 → vch.length ≤ n → ∃ bn, ofVch64 false n vch = .ok bn ∧
      ((ofVch64 true n vch).isOk = true ↔ getvch bn = .ok vch)) ∧
    (∀ (fRequireMinimal : Bool) (x y : valtype) (a b : CScriptNum),
      ofVch64 fRequireMinimal nDefaultMaxNumSize x = .ok a →
      ofVch64 fRequireMinimal nDefaultMaxNumSize y = .ok b →
        add a b = .ok (a + b) ∧ sub a b = .ok (a - b) ∧ addAssign a b = .ok (a + b) ∧
          subAssign a b = .ok (a - b) ∧ negAt a = .ok (-a) ∧
            int64Min ≤ bitAnd a b ∧ bitAnd a b ≤ int64Max) ∧
    ∀ v : Int64, getint v.toInt =
      if v.toInt > 2^31 - 1 then 2^31 - 1 else if v.toInt < -2^31 then -2^31 else v.toInt := by
  refine ⟨fun v hv => ofVch64_getvch hv,fun n vch hn hlength => ofVch64_minimal hn hlength,
    fun fRequireMinimal x y a b hx hy => ?_,fun v => ?_⟩
  · obtain ⟨hadd,hsub,haddAssign,hsubAssign,hneg⟩ := arithmetic_four (ofVch_four hx) (ofVch_four hy)
    exact ⟨hadd,hsub,haddAssign,hsubAssign,hneg,Int64.le_toInt _,
      Int.le_sub_one_of_lt (Int64.toInt_lt _)⟩
  · have hlow := Int64.le_toInt v
    have hhigh := Int64.toInt_lt v
    unfold getint
    split_ifs <;> omega

/-- The least number of int64 cannot be negated, and a ninth byte cannot be shifted. -/
theorem scriptNum_undefined : getvch Int64.minValue.toInt = fault "-value" ∧
    ofVch64 true 9 [1,0,0,0,0,0,0,0,1] = fault "static_cast<int64_t>(vch[i]) << 8*i" := by
  decide

end CScriptNum
end Sidechain
