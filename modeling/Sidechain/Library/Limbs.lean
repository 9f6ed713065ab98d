import Sidechain.Library.Codec
import Mathlib.Data.Int.ModEq
import Mathlib.Data.Nat.Size
import Mathlib.Tactic.Linarith
import Mathlib.Tactic.Ring

/-! Natural numbers as fixed-width lists of digits, least significant first: carries, complements,
bits that are or-ed into digits, leading digits and long division by shifted divisors. -/
namespace Sidechain.Limbs
open Codec Nat

variable {base : ℕ}

/-- Add numbers to a running carry; each leaves a digit behind. -/
def carryDigits (base : ℕ) : ℕ → List ℕ → List ℕ
  | _,[] => []
  | carry,n :: ns => (carry + n) % base :: carryDigits base ((carry + n) / base) ns

/-- What is left behind are the digits of the sum of the numbers in their places. -/
theorem carryDigits_eq (hbase : 0 < base) (carry : ℕ) (ns : List ℕ) :
    carryDigits base carry ns = digitsLE base ns.length (carry + ofDigits base ns) := by
  induction ns generalizing carry with
  | nil => rfl
  | cons n ns ih =>
    have hmod : (carry + (n + base * ofDigits base ns)) % base = (carry + n) % base := by
      rw [← Nat.add_assoc,Nat.add_mul_mod_self_left]
    have hdiv : (carry + (n + base * ofDigits base ns)) / base =
        (carry + n) / base + ofDigits base ns := by
      rw [← Nat.add_assoc,Nat.add_mul_div_left _ _ hbase]
    rw [carryDigits,ih,List.length_cons,digitsLE,ofDigits_cons,hmod,hdiv]

theorem ofDigits_snoc (ds : List ℕ) (d : ℕ) :
    ofDigits base (ds ++ [d]) = ofDigits base ds + base^ds.length * d := by
  rw [ofDigits_append,ofDigits_singleton]

theorem ofDigits_lt (hbase : 1 < base) {ds : List ℕ} (h : ∀ d ∈ ds, d < base) :
    ofDigits base ds < base^ds.length := ofDigits_lt_base_pow_length hbase h

theorem ofDigits_snoc_lt (hbase : 1 < base) {ds es : List ℕ} (hlength : ds.length = es.length)
    (hds : ∀ d ∈ ds, d < base) {d e : ℕ} (hde : d < e) :
    ofDigits base (ds ++ [d]) < ofDigits base (es ++ [e]) := by
  rw [ofDigits_snoc,ofDigits_snoc,← hlength]
  calc ofDigits base ds + base^ds.length * d < base^ds.length + base^ds.length * d :=
        Nat.add_lt_add_right (ofDigits_lt hbase hds) _
    _ = base^ds.length * (d + 1) := by ring
    _ ≤ base^ds.length * e := Nat.mul_le_mul_left _ hde
    _ ≤ _ := Nat.le_add_left _ _

theorem ofDigits_complement {ds : List ℕ} (h : ∀ d ∈ ds, d < base) :
    ofDigits base (ds.map fun d => base - 1 - d) + ofDigits base ds + 1 = base^ds.length := by
  induction ds with
  | nil => rfl
  | cons d ds ih =>
    have hd := h d List.mem_cons_self
    have hrest := ih fun d hd => h d (List.mem_cons_of_mem _ hd)
    have hdigit : base - 1 - d + d + 1 = base := by omega
    rw [List.map_cons,ofDigits_cons,ofDigits_cons,List.length_cons,pow_succ',← hrest]
    linarith

theorem ofDigits_zipWith_modEq (a : ℕ) {ds es : List ℕ} (h : ds.length ≤ es.length) :
    ofDigits base (List.zipWith (fun d e => d + a * e) ds es) ≡
      ofDigits base ds + a * ofDigits base es [MOD base^ds.length] := by
  induction ds generalizing es with
  | nil => exact Nat.modEq_one
  | cons d ds ih =>
    obtain ⟨e,es,rfl⟩ := List.exists_cons_of_length_pos (lt_of_lt_of_le (Nat.succ_pos _) h)
    have hrest := (ih (Nat.le_of_succ_le_succ h)).mul_left' base
    rw [List.zipWith_cons_cons,ofDigits_cons,ofDigits_cons,ofDigits_cons,List.length_cons,pow_succ']
    have hsum : d + base * ofDigits base ds + a * (e + base * ofDigits base es) =
        d + a * e + base * (ofDigits base ds + a * ofDigits base es) := by ring
    rw [hsum]
    exact hrest.add_left _

section
variable {w : ℕ}

theorem testBit_ofDigits (hw : 0 < w) {ds : List ℕ} (h : ∀ d ∈ ds, d < 2^w) (p : ℕ) :
    (ofDigits (2^w) ds).testBit p = (ds.getD (p / w) 0).testBit (p % w) := by
  induction ds generalizing p with
  | nil => simp
  | cons d ds ih =>
    have hd := h d List.mem_cons_self
    rw [ofDigits_cons,Nat.add_comm,Nat.testBit_two_pow_mul_add _ hd]
    split_ifs with hp
    · rw [Nat.div_eq_of_lt hp,Nat.mod_eq_of_lt hp,List.getD_cons_zero]
    · have hle : w ≤ p := not_lt.mp hp
      rw [ih (fun d hd => h d (List.mem_cons_of_mem _ hd)),Nat.div_eq_sub_div hw hle,
        List.getD_cons_succ,Nat.mod_eq_sub_mod hle]

/-- Or values into digits, one write after the other. -/
def orWrites (ds : List ℕ) (writes : List (ℕ × ℕ)) : List ℕ :=
  writes.foldl (fun ds write => ds.modify write.1 (· ||| write.2)) ds

@[simp] theorem orWrites_length (ds : List ℕ) (writes : List (ℕ × ℕ)) :
    (orWrites ds writes).length = ds.length := by
  induction writes generalizing ds with
  | nil => rfl
  | cons write writes ih => exact (ih _).trans (List.length_modify ..)

theorem testBit_orWrites {ds : List ℕ} {j : ℕ} (hj : j < ds.length) (writes : List (ℕ × ℕ)) (r : ℕ) :
    ((orWrites ds writes).getD j 0).testBit r = true ↔
      (ds.getD j 0).testBit r = true ∨ ∃ write ∈ writes, write.1 = j ∧ write.2.testBit r = true := by
  induction writes generalizing ds with
  | nil => simp [orWrites]
  | cons write writes ih =>
    have hstep : ((ds.modify write.1 (· ||| write.2)).getD j 0).testBit r = true ↔
        (ds.getD j 0).testBit r = true ∨ write.1 = j ∧ write.2.testBit r = true := by
      have hread : ds[j]? = some ds[j] := List.getElem?_eq_getElem hj
      rw [List.getD_eq_getElem?_getD,List.getD_eq_getElem?_getD,List.getElem?_modify,hread]
      by_cases hwrite : write.1 = j
      · simp [hwrite,Nat.testBit_or]
      · simp [hwrite]
    rw [orWrites,List.foldl_cons]
    change ((orWrites (ds.modify write.1 (· ||| write.2)) writes).getD j 0).testBit r = true ↔ _
    rw [ih (by rwa [List.length_modify]),hstep,or_assoc]
    simp only [List.mem_cons,exists_eq_or_imp]

theorem size_snoc {ds : List ℕ} (h : ∀ d ∈ ds, d < 2^w) (hw : 0 < w) {d : ℕ} (hd : d ≠ 0) :
    size (ofDigits (2^w) (ds ++ [d])) = w * ds.length + size d := by
  have hlow := ofDigits_lt (Nat.one_lt_two_pow hw.ne') h
  rw [← pow_mul] at hlow
  rw [ofDigits_snoc,← pow_mul]
  refine le_antisymm ?_ ?_
  · rw [size_le,pow_add]
    calc _ < 2^(w * ds.length) + 2^(w * ds.length) * d := Nat.add_lt_add_right hlow _
      _ = 2^(w * ds.length) * (d + 1) := by ring
      _ ≤ _ := Nat.mul_le_mul_left _ (lt_size_self d)
  · obtain ⟨k,hk⟩ : ∃ k, size d = k + 1 :=
      ⟨size d - 1,(Nat.sub_add_cancel (size_pos.mpr (Nat.pos_of_ne_zero hd))).symm⟩
    have hpow : 2^k ≤ d := lt_size.mp (by omega)
    rw [hk,← Nat.add_assoc,Nat.succ_le_iff,lt_size,pow_add]
    exact le_trans (Nat.mul_le_mul_left _ hpow) (Nat.le_add_left _ _)

end

/-- Take the divisor, shifted left ever less, off the number where it fits. -/
def divSteps (d : ℕ) : ℕ → ℕ → ℕ → ℕ × ℕ
  | 0,num,quot => (quot,num)
  | s + 1,num,quot =>
    if d * 2^s ≤ num then divSteps d s (num - d * 2^s) (quot + 2^s) else divSteps d s num quot

/-- What is left is the remainder, and the shifts that fitted add up to the quotient. -/
theorem divSteps_eq {d s num : ℕ} (h : num < d * 2^s) (quot : ℕ) :
    divSteps d s num quot = (quot + num / d,num % d) := by
  induction s generalizing num quot with
  | zero =>
    rw [pow_zero,Nat.mul_one] at h
    rw [divSteps,Nat.div_eq_of_lt h,Nat.mod_eq_of_lt h]
    rfl
  | succ s ih =>
    have hd : 0 < d := Nat.pos_of_ne_zero (by rintro rfl; simp at h)
    have hdouble : d * 2^(s + 1) = d * 2^s + d * 2^s := by rw [pow_succ]; ring
    rw [divSteps]
    split_ifs with hle
    · rw [ih (by omega)]
      have hsplit : num = num - d * 2^s + d * 2^s := (Nat.sub_add_cancel hle).symm
      have hdiv : num / d = (num - d * 2^s) / d + 2^s := by
        conv_lhs => rw [hsplit]
        exact Nat.add_mul_div_left _ _ hd
      have hmod : num % d = (num - d * 2^s) % d := by
        conv_lhs => rw [hsplit]
        exact Nat.add_mul_mod_self_left _ _ _
      rw [hdiv,hmod]
      congr 1
      omega
    · exact ih (not_le.mp hle) quot

section
variable {bound : ℕ}

/-- Enough digits dropped leave any number below a bound. -/
theorem exists_dropped (hbase : 1 < base) (hbound : 0 < bound) (n : ℕ) :
    ∃ k, n / base^k < bound := by
  refine ⟨n,?_⟩
  rw [Nat.div_eq_of_lt (Nat.lt_pow_self hbase)]
  exact hbound

variable (hbase : 1 < base) (hbound : 0 < bound)

/-- The least number of digits to drop so that the rest is below a bound. -/
def dropped (n : ℕ) : ℕ := Nat.find (exists_dropped hbase hbound n)

/-- The number with its last digits zeroed, as few as leave the others below a bound. -/
def truncate (n : ℕ) : ℕ := n / base^dropped hbase hbound n * base^dropped hbase hbound n

theorem dropped_spec (n : ℕ) : n / base^dropped hbase hbound n < bound :=
  Nat.find_spec (exists_dropped hbase hbound n)

theorem dropped_eq {n k : ℕ} (hlt : n / base^k < bound)
    (hleast : ∀ j, k = j + 1 → bound ≤ n / base^j) : dropped hbase hbound n = k := by
  refine (Nat.find_eq_iff _).mpr ⟨hlt,fun j hj => ?_⟩
  obtain ⟨i,rfl⟩ : ∃ i, k = i + 1 := ⟨k - 1,by omega⟩
  have hmono := Nat.div_le_div_left (a := n) (Nat.pow_le_pow_right (by omega : 0 < base)
    (Nat.le_of_lt_succ hj)) (Nat.pow_pos (by omega))
  exact not_lt.mpr ((hleast i rfl).trans hmono)

theorem truncate_le (n : ℕ) : truncate hbase hbound n ≤ n := Nat.div_mul_le_self _ _

theorem truncate_eq_self {m k : ℕ} (hm : m < bound) :
    truncate hbase hbound (m * base^k) = m * base^k := by
  have hpos : ∀ j, 0 < base^j := fun j => Nat.pow_pos (by omega)
  have hle : dropped hbase hbound (m * base^k) ≤ k :=
    Nat.find_min' _ (by rwa [Nat.mul_div_cancel _ (hpos k)])
  exact Nat.div_mul_cancel ((Nat.pow_dvd_pow base hle).mul_left m)

theorem truncate_mono (hdvd : base ∣ bound) {n n' : ℕ} (h : n ≤ n') :
    truncate hbase hbound n ≤ truncate hbase hbound n' := by
  have hk : dropped hbase hbound n ≤ dropped hbase hbound n' :=
    Nat.find_min' _ (lt_of_le_of_lt (Nat.div_le_div_right h) (dropped_spec hbase hbound n'))
  rcases Nat.eq_or_lt_of_le hk with heq | hlt
  · rw [truncate,truncate,heq]
    exact Nat.mul_le_mul_right _ (Nat.div_le_div_right h)
  · obtain ⟨k,hk'⟩ : ∃ k, dropped hbase hbound n' = k + 1 := ⟨_,(Nat.sub_add_cancel (by omega)).symm⟩
    obtain ⟨c,hc⟩ := hdvd
    have hpos : ∀ j, 0 < base^j := fun j => Nat.pow_pos (by omega)
    have hfirst : k < dropped hbase hbound n' := by omega
    have hlarge : bound ≤ n' / base^k :=
      not_lt.mp (Nat.find_min (exists_dropped hbase hbound n') hfirst)
    have hmultiple : bound * base^k = c * base^(k + 1) := by
      rw [hc,pow_succ]
      ring
    have hquot : c ≤ n' / base^(k + 1) := by
      rw [Nat.le_div_iff_mul_le (hpos _),← hmultiple]
      exact (Nat.le_div_iff_mul_le (hpos k)).mp hlarge
    have hbelow : n < bound * base^dropped hbase hbound n :=
      (Nat.div_lt_iff_lt_mul (hpos _)).mp (dropped_spec hbase hbound n)
    calc truncate hbase hbound n ≤ n := truncate_le _ _ n
      _ ≤ bound * base^dropped hbase hbound n := hbelow.le
      _ ≤ bound * base^k := Nat.mul_le_mul_left _ (Nat.pow_le_pow_right (by omega) (by omega))
      _ = c * base^(k + 1) := hmultiple
      _ ≤ _ := by
        rw [truncate,hk']
        exact Nat.mul_le_mul_right _ hquot

end

end Sidechain.Limbs
