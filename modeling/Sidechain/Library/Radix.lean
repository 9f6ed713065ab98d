import Sidechain.Library.Limbs

/-! Changing the base of a number: a buffer of digits that takes in the digits of another base, and
its digits behind the leading zeros; the bits of a list of digits dealt out to digits of another
width, and machines that do so round by round. -/
namespace Sidechain.Radix
open Codec Limbs Nat

variable {base m n k : ℕ} {ds : List ℕ}

/-- Multiply the number in the buffer, least significant digit first, and add: the digits, and the
carry that is left. -/
def mulAdd (base m : ℕ) : List ℕ → ℕ → List ℕ × ℕ
  | [],carry => ([],carry)
  | d :: ds,carry =>
    let (ds,rest) := mulAdd base m ds ((carry + m * d) / base)
    ((carry + m * d) % base :: ds,rest)

theorem mulAdd_digits (hbase : 0 < base) (ds : List ℕ) (carry : ℕ) :
    (mulAdd base m ds carry).1 = digitsLE base ds.length (carry + m * ofDigits base ds) := by
  rw [show m * ofDigits base ds = ofDigits base (ds.map (m * ·)) by
    induction ds with
    | nil => rfl
    | cons d ds ih => rw [List.map_cons,ofDigits_cons,ofDigits_cons,← ih]; ring]
  rw [← List.length_map (m * ·),← carryDigits_eq hbase]
  induction ds generalizing carry with
  | nil => rfl
  | cons d ds ih => exact congrArg (_ :: ·) (ih _)

theorem mulAdd_carry (hbase : 0 < base) (ds : List ℕ) (carry : ℕ) :
    (mulAdd base m ds carry).2 = (carry + m * ofDigits base ds) / base^ds.length := by
  induction ds generalizing carry with
  | nil => simp [mulAdd]
  | cons d ds ih =>
    have hsplit : carry + m * (d + base * ofDigits base ds) =
        carry + m * d + base * (m * ofDigits base ds) := by ring
    rw [mulAdd,ih,ofDigits_cons,List.length_cons,pow_succ',← Nat.div_div_eq_div_mul,hsplit,
      Nat.add_mul_div_left _ _ hbase]

/-- As long as the new number fits, the buffer holds its digits and no carry is left. -/
theorem mulAdd_fits (hbase : 0 < base) (hm : 0 < m) {d : ℕ} (h : m * n + d < base^k) :
    mulAdd base m (digitsLE base k n) d = (digitsLE base k (m * n + d),0) := by
  have hn : n < base^k := (Nat.le_mul_of_pos_left n hm).trans_lt (by omega)
  have hvalue : ofDigits base (digitsLE base k n) = n := by
    rw [ofDigits_digitsLE,Nat.mod_eq_of_lt hn]
  refine Prod.ext ?_ ?_
  · rw [mulAdd_digits hbase,hvalue,digitsLE_length,Nat.add_comm]
  · rw [mulAdd_carry hbase,hvalue,digitsLE_length,Nat.add_comm,Nat.div_eq_of_lt h]

@[simp] theorem digitsLE_zero (base k : ℕ) : digitsLE base k 0 = List.replicate k 0 := by
  induction k with
  | zero => rfl
  | succ k ih => rw [digitsLE,Nat.zero_mod,Nat.zero_div,ih,List.replicate_succ]

/-- The number of digits, most significant first, that come behind those of another number. -/
def accumulate (m n : ℕ) (ds : List ℕ) : ℕ := ds.foldl (fun n d => m * n + d) n

theorem accumulate_zero (m : ℕ) (ds : List ℕ) : accumulate m 0 ds = ofDigits m ds.reverse := by
  induction ds using List.reverseRecOn with
  | nil => rfl
  | append_singleton ds d ih =>
    rw [accumulate,List.foldl_append,List.reverse_append]
    change m * accumulate m 0 ds + d = d + m * ofDigits m ds.reverse
    rw [ih,Nat.add_comm]

theorem mul_add_lt {j d : ℕ} (hn : n < m^j) (hd : d < m) : m * n + d < m^(j + 1) := by
  calc m * n + d < m * n + m := by omega
    _ = m * (n + 1) := by ring
    _ ≤ m * m^j := Nat.mul_le_mul_left m hn
    _ = m^(j + 1) := (pow_succ' m j).symm

theorem accumulate_lt {j : ℕ} (hn : n < m^j) (h : ∀ d ∈ ds, d < m) :
    accumulate m n ds < m^(j + ds.length) := by
  induction ds generalizing n j with
  | nil => exact hn
  | cons d ds ih =>
    have hrest := ih (mul_add_lt hn (h d List.mem_cons_self)) fun e he =>
      h e (List.mem_cons_of_mem d he)
    rwa [Nat.add_assoc,Nat.add_comm 1] at hrest

/-- A length for which every number of `k` digits fits: `p / q` is at least the logarithm of the one
base to the other. -/
theorem pow_le_pow_ratio {p q : ℕ} (hbase : 0 < base) (hq : 0 < q) (h : m^q ≤ base^p) (k : ℕ) :
    m^k ≤ base^(k * p / q + 1) := by
  have hlength : p * k ≤ (k * p / q + 1) * q := by
    have hdiv := Nat.div_add_mod (k * p) q
    have hmod := Nat.mod_lt (k * p) hq
    rw [Nat.add_mul,Nat.one_mul,Nat.mul_comm _ q,Nat.mul_comm p k]
    omega
  refine (Nat.pow_le_pow_iff_left hq.ne').mp ?_
  calc (m^k)^q = (m^q)^k := by rw [← pow_mul,← pow_mul,Nat.mul_comm]
    _ ≤ (base^p)^k := Nat.pow_le_pow_left h k
    _ = base^(p * k) := (pow_mul base p k).symm
    _ ≤ base^((k * p / q + 1) * q) := Nat.pow_le_pow_right hbase hlength
    _ = (base^(k * p / q + 1))^q := pow_mul base _ q

/-- The digits of a number as it is written, most significant first. -/
def numeral (b n : ℕ) : List ℕ := if n = 0 then [0] else (digits b n).reverse

theorem numeral_lt {b : ℕ} (hb : 1 < b) (n : ℕ) : ∀ d ∈ numeral b n, d < b := by
  intro d hd
  rw [numeral] at hd
  split_ifs at hd
  · obtain rfl := List.mem_singleton.mp hd
    omega
  · exact digits_lt_base hb (List.mem_reverse.mp hd)

theorem numeral_ne_nil (b n : ℕ) : numeral b n ≠ [] := by
  rw [numeral]
  split_ifs with h
  · exact List.cons_ne_nil _ _
  · rw [Ne,List.reverse_eq_nil_iff,digits_eq_nil_iff_eq_zero]
    exact h

theorem accumulate_numeral (b n : ℕ) : accumulate b 0 (numeral b n) = n := by
  rw [numeral]
  split_ifs with h
  · rw [h]
    rfl
  · rw [accumulate_zero,List.reverse_reverse,ofDigits_digits]

/-- The digits of a buffer behind the leading zeros, most significant first. -/
def significant (ds : List ℕ) : List ℕ := ds.reverse.dropWhile (· == 0)

theorem significant_eq (hbase : 1 < base) (h : ∀ d ∈ ds, d < base) :
    significant ds = (digits base (ofDigits base ds)).reverse := by
  induction ds using List.reverseRecOn with
  | nil => simp [significant]
  | append_singleton ds d ih =>
    rw [significant,List.reverse_append,List.reverse_singleton,List.singleton_append]
    by_cases hd : d = 0
    · subst hd
      rw [List.dropWhile_cons_of_pos rfl,ofDigits_append_zero]
      exact ih fun e he => h e (List.mem_append_left _ he)
    · rw [List.dropWhile_cons_of_neg (by simpa using hd),digits_ofDigits base hbase _ h,
        List.reverse_append,List.reverse_singleton,List.singleton_append]
      intro hne
      rw [List.getLast_append_singleton]
      exact hd

theorem significant_digitsLE (hbase : 1 < base) (h : n < base^k) :
    significant (digitsLE base k n) = (digits base n).reverse := by
  rw [significant_eq hbase (digitsLE_lt (by omega) k n),ofDigits_digitsLE,Nat.mod_eq_of_lt h]

theorem head?_digits_reverse (base n : ℕ) :
    (digits base n).reverse.head? ≠ some 0 := by
  rw [List.head?_reverse]
  intro h
  have hne : n ≠ 0 := by
    rintro rfl
    simp at h
  have hlast := getLast_digit_ne_zero base hne
  rw [List.getLast?_eq_some_getLast (digits_ne_nil_iff_ne_zero.mpr hne)] at h
  exact hlast (Option.some.inj h)

/-- Digits without a leading zero are those of their number. -/
theorem digits_reverse_of_head? (hbase : 1 < base) (h : ∀ d ∈ ds, d < base)
    (hhead : ds.head? ≠ some 0) : (digits base (ofDigits base ds.reverse)).reverse = ds := by
  rw [← significant_eq hbase (by simpa using h),significant,List.reverse_reverse]
  cases ds with
  | nil => rfl
  | cons d ds =>
    refine List.dropWhile_cons_of_neg ?_
    rintro hd
    exact hhead (by simpa using hd)

end Sidechain.Radix

namespace Sidechain.Regroup
open Radix

/-- The digits of width `w` and those of width `v` with the pending `r` bits are the same bits. -/
structure Regrouped (w v : ℕ) (xs ys : List ℕ) (r pending : ℕ) : Prop where
  length : xs.length * w = ys.length * v + r
  value : accumulate (2^w) 0 xs = accumulate (2^v) 0 ys * 2^r + pending
  pending_lt : pending < 2^r
  right_lt : ∀ y ∈ ys, y < 2^v

variable {w v r r' pending pending' : ℕ} {xs ys out : List ℕ}

@[simp] theorem accumulate_append (m n : ℕ) (xs ys : List ℕ) :
    accumulate m n (xs ++ ys) = accumulate m (accumulate m n xs) ys := List.foldl_append

theorem accumulate_from (m n : ℕ) (ys : List ℕ) :
    accumulate m n ys = n * m^ys.length + accumulate m 0 ys := by
  induction ys using List.reverseRecOn with
  | nil => simp [accumulate]
  | append_singleton ys y ih =>
    rw [accumulate_append,accumulate_append,ih,List.length_append,List.length_singleton,pow_succ]
    change m * (n * m^ys.length + accumulate m 0 ys) + y =
      n * (m^ys.length * m) + (m * accumulate m 0 ys + y)
    ring

theorem accumulate_inj {m : ℕ} (hm : 1 < m) {xs ys : List ℕ} (hlength : xs.length = ys.length)
    (hxs : ∀ x ∈ xs, x < m) (hys : ∀ y ∈ ys, y < m)
    (h : accumulate m 0 xs = accumulate m 0 ys) : xs = ys := by
  rw [accumulate_zero,accumulate_zero] at h
  refine List.reverse_injective (Nat.ofDigits_inj_of_len_eq hm ?_ ?_ ?_ h)
  · rw [List.length_reverse,List.length_reverse,hlength]
  · exact fun x hx => hxs x (List.mem_reverse.mp hx)
  · exact fun y hy => hys y (List.mem_reverse.mp hy)

theorem regrouped_nil (w v : ℕ) : Regrouped w v [] [] 0 0 :=
  ⟨by simp,by simp [accumulate],Nat.one_pos,fun _ h => nomatch h⟩

/-- A digit more, of which some bits go out with the pending ones. -/
theorem Regrouped.concat (h : Regrouped w v xs ys r pending) {x : ℕ}
    (hbits : r + w = out.length * v + r')
    (hvalue : pending * 2^w + x = accumulate (2^v) 0 out * 2^r' + pending')
    (hlt : pending' < 2^r') (hout : ∀ y ∈ out, y < 2^v) :
    Regrouped w v (xs ++ [x]) (ys ++ out) r' pending' := by
  refine ⟨?_,?_,hlt,fun y hy => (List.mem_append.mp hy).elim (h.right_lt y) (hout y)⟩
  · rw [List.length_append,List.length_append,List.length_singleton,Nat.add_mul,Nat.add_mul,
      h.length]
    omega
  · have hpow : 2^r * 2^w = (2^v)^out.length * 2^r' := by
      rw [← pow_add,hbits,pow_add,← pow_mul,Nat.mul_comm v]
    rw [accumulate_append,accumulate_append,accumulate_from _ (accumulate (2^v) 0 ys)]
    change 2^w * accumulate (2^w) 0 xs + x = _
    calc 2^w * accumulate (2^w) 0 xs + x
        = accumulate (2^v) 0 ys * (2^r * 2^w) + (pending * 2^w + x) := by rw [h.value]; ring
      _ = _ := by rw [hpow,hvalue]; ring

/-- The pending bits go out as the top of a digit whose other bits are zero. -/
theorem Regrouped.finish (h : Regrouped w v xs ys r pending) (hxs : ∀ x ∈ xs, x < 2^w)
    (hr : r ≤ v) : Regrouped v w (ys ++ [pending * 2^(v - r)]) xs (v - r) 0 := by
  refine ⟨?_,?_,Nat.two_pow_pos _,hxs⟩
  · rw [List.length_append,List.length_singleton,Nat.add_mul,h.length]
    omega
  · have hpow : 2^v = 2^r * 2^(v - r) := by rw [← pow_add,Nat.add_sub_cancel' hr]
    rw [accumulate_append,h.value]
    change 2^v * accumulate (2^v) 0 ys + pending * 2^(v - r) = _
    rw [Nat.add_zero,Nat.add_mul,Nat.mul_assoc,← hpow,Nat.mul_comm]

theorem Regrouped.swap (h : Regrouped w v xs ys 0 0) (hxs : ∀ x ∈ xs, x < 2^w) :
    Regrouped v w ys xs 0 0 :=
  ⟨h.length.symm,by simpa using h.value.symm,Nat.one_pos,hxs⟩

theorem Regrouped.right_unique (h : Regrouped w v xs ys r pending) {ys' : List ℕ}
    (h' : Regrouped w v xs ys' r' pending') (hv : 0 < v) (hr : r < v) (hr' : r' < v) :
    ys = ys' ∧ r = r' ∧ pending = pending' := by
  have hlengths : ys.length * v + r = ys'.length * v + r' := h.length.symm.trans h'.length
  have hdiv : ∀ l s, s < v → (l * v + s) / v = l := fun l s hs => by
    rw [Nat.add_comm,Nat.add_mul_div_right _ _ hv,Nat.div_eq_of_lt hs,Nat.zero_add]
  have hlength : ys.length = ys'.length := by
    rw [← hdiv ys.length r hr,hlengths,hdiv _ r' hr']
  obtain rfl : r = r' := by
    rw [hlength] at hlengths
    exact Nat.add_left_cancel hlengths
  have hvalue : accumulate (2^v) 0 ys * 2^r + pending =
      accumulate (2^v) 0 ys' * 2^r + pending' := h.value.symm.trans h'.value
  have hsame : accumulate (2^v) 0 ys = accumulate (2^v) 0 ys' := by
    have hdiv : ∀ a s, s < 2^r → (a * 2^r + s) / 2^r = a := fun a s hs => by
      rw [Nat.add_comm,Nat.add_mul_div_right _ _ (Nat.two_pow_pos r),Nat.div_eq_of_lt hs,
        Nat.zero_add]
    rw [← hdiv (accumulate (2^v) 0 ys) pending h.pending_lt,hvalue,
      hdiv _ pending' h'.pending_lt]
  refine ⟨accumulate_inj (Nat.one_lt_two_pow hv.ne') hlength h.right_lt h'.right_lt hsame,rfl,?_⟩
  rw [hsame] at hvalue
  exact Nat.add_left_cancel hvalue

/-- The digits on the left are determined by those on the right, when less than a digit of zeros
follows them. -/
theorem Regrouped.left_unique (h : Regrouped w v xs ys r 0) {xs' : List ℕ}
    (h' : Regrouped w v xs' ys r' 0) (hw : 0 < w) (hxs : ∀ x ∈ xs, x < 2^w)
    (hxs' : ∀ x ∈ xs', x < 2^w) (hr : r < w) (hr' : r' < w) : xs = xs' ∧ r = r' := by
  have hlength : xs.length = xs'.length := by
    have h1 := h.length
    have h2 := h'.length
    rcases Nat.lt_trichotomy xs.length xs'.length with hlt | heq | hlt
    · have hmul := Nat.mul_le_mul_right w hlt
      rw [Nat.succ_mul] at hmul
      omega
    · exact heq
    · have hmul := Nat.mul_le_mul_right w hlt
      rw [Nat.succ_mul] at hmul
      omega
  obtain rfl : r = r' := by
    have h1 := h.length
    rw [hlength,h'.length] at h1
    omega
  refine ⟨accumulate_inj (Nat.one_lt_two_pow hw.ne') hlength hxs hxs' ?_,rfl⟩
  rw [h.value,h'.value]

/-- What a round sends out, and its mode and remainder afterwards. -/
structure Round where
  out : List ℕ
  mode : ℕ
  left : ℕ
  deriving DecidableEq, Repr

/-- The rounds of a list, one after the other. -/
def run (round : ℕ → ℕ → ℕ → Round) (s : Round) (xs : List ℕ) : Round :=
  xs.foldl (fun s x => let next := round s.mode s.left x; {next with out := s.out ++ next.out}) s

/-- A round deals out the bits of a digit: `bits` are pending in a mode, and `Holds` says which
number they are. -/
structure Lawful (w v : ℕ) (round : ℕ → ℕ → ℕ → Round) (bits : ℕ → ℕ)
    (Holds : ℕ → ℕ → ℕ → Prop) : Prop where
  lt : ∀ {mode left pending}, Holds mode left pending → pending < 2^bits mode
  step : ∀ {mode left pending x}, Holds mode left pending → x < 2^w → ∃ pending',
    Holds (round mode left x).mode (round mode left x).left pending' ∧
      bits mode + w = (round mode left x).out.length * v + bits (round mode left x).mode ∧
        pending * 2^w + x = accumulate (2^v) 0 (round mode left x).out *
          2^bits (round mode left x).mode + pending' ∧
            ∀ y ∈ (round mode left x).out, y < 2^v

variable {round : ℕ → ℕ → ℕ → Round} {bits : ℕ → ℕ} {Holds : ℕ → ℕ → ℕ → Prop}

theorem Lawful.run (law : Lawful w v round bits Holds) (hxs : ∀ x ∈ xs, x < 2^w) (left : ℕ)
    (hstart : Holds 0 left 0) (hbits : bits 0 = 0) :
    ∃ pending, Holds (run round ⟨[],0,left⟩ xs).mode (run round ⟨[],0,left⟩ xs).left pending ∧
      Regrouped w v xs (Regroup.run round ⟨[],0,left⟩ xs).out
        (bits (Regroup.run round ⟨[],0,left⟩ xs).mode) pending := by
  induction xs using List.reverseRecOn with
  | nil =>
    change ∃ pending, Holds 0 left pending ∧ Regrouped w v [] [] (bits 0) pending
    rw [hbits]
    exact ⟨0,hstart,regrouped_nil w v⟩
  | append_singleton xs x ih =>
    obtain ⟨pending,hholds,hregrouped⟩ := ih fun y hy => hxs y (List.mem_append_left _ hy)
    obtain ⟨pending',hholds',hlength,hvalue,hout⟩ :=
      law.step hholds (hxs x (List.mem_append_right _ List.mem_cons_self))
    simp only [Regroup.run,List.foldl_append,List.foldl_cons,List.foldl_nil] at hholds' ⊢
    exact ⟨pending',hholds',hregrouped.concat hlength hvalue (law.lt hholds') hout⟩

end Sidechain.Regroup
