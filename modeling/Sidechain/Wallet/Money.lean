import Sidechain.Primitives.FixedPoint
import Sidechain.Primitives.Outcome
import Sidechain.Script.ScriptText

/-! Amounts as decimal texts: written with at least two decimals, and read in one pass over the
characters. -/
namespace Sidechain.Money
open Run Radix Regroup FixedPoint

/-- The digits that `%d` writes. -/
def decimal (n : ℕ) : List ℕ := if n = 0 then [0] else (Nat.digits 10 n).reverse

/-- The digits that `%0d` with a width writes. -/
def padded (width n : ℕ) : List ℕ := List.replicate (width - (decimal n).length) 0 ++ decimal n

/-- Right-trim excess zeros before the decimal point: the text stands backwards. -/
def trimZeros : Bytes → Bytes
  | c::c'::d::str =>
    if c = 0x30 ∧ isDigit d = true then trimZeros (c'::d::str) else c::c'::d::str
  | str => str

/-- `n_abs`. -/
def absAmount (n : CAmount) : Outcome CAmount := if n > 0 then .ok n else subAmount 0 n

def formatMoney (n : CAmount) : Outcome Bytes := do
  let n_abs ← absAmount n
  let quotient := n_abs / COIN
  let remainder := n_abs % COIN
  let str := chars (decimal quotient.toInt.toNat) ++ 0x2e::chars (padded 8 remainder.toInt.toNat)
  let str := (trimZeros str.reverse).reverse
  .ok (if n < 0 then 0x2d::str else str)

/-- The loop over the digits behind the point: `nUnits` and what is left. -/
def fractionUnits (nUnits nMult : ℤ) : Bytes → Parsing (ℤ × Bytes)
  | [] => .ok (nUnits,[])
  | c::p =>
    if isDigit c = true ∧ nMult > 0 then do
      let units ← int64 (nMult * (c.toNat - 0x30))
      let nUnits ← int64 (nUnits + units)
      fractionUnits nUnits (nMult / 10) p
    else .ok (nUnits,c::p)

/-- The loop over the whole part: `strWhole`, `nUnits` and what is left. -/
def wholeUnits (strWhole : Bytes) : Bytes → Parsing (Bytes × ℤ × Bytes)
  | [] => .ok (strWhole,0,[])
  | c::p =>
    if c = 0x2e then do
      let (nUnits,p) ← fractionUnits 0 ((CENT * 10).toInt) p
      .ok (strWhole,nUnits,p)
    else if isspace c then .ok (strWhole,0,c::p)
    else if isDigit c = false then .error .refused
    else wholeUnits (strWhole ++ [c]) p

/-- What follows the loops: the checks and the value. -/
def finishMoney (strWhole : Bytes) (nUnits : ℤ) (p : Bytes) : Parsing ℤ := do
  refuseIf (p.all isspace = false)
  refuseIf (strWhole.length > 10)
  refuseIf (nUnits < 0 ∨ nUnits > COIN.toInt)
  let nWhole := atoi64 strWhole
  let nValue ← int64 (nWhole * COIN.toInt)
  int64 (nValue + nUnits)

/-- `ParseMoney`: `nRet` when it returns true. The string is read up to its first zero. -/
def parseMoney (str : Bytes) : Parsing ℤ := do
  let p := (str.takeWhile (· != 0)).dropWhile isspace
  let (strWhole,nUnits,p) ← wholeUnits [] p
  finishMoney strWhole nUnits p

/-- White space, digits, perhaps a point with digits behind it, white space: each group of digits
may be missing. -/
structure MoneyText where
  lead : Bytes
  whole : List ℕ
  point : Bool
  fraction : List ℕ
  trail : Bytes
  lead_space : lead.all isspace = true
  whole_lt : ∀ d ∈ whole, d < 10
  whole_length : whole.length ≤ 10
  point_ok : point = false → fraction = []
  fraction_lt : ∀ d ∈ fraction, d < 10
  fraction_length : fraction.length ≤ 8
  trail_space : trail.all isspace = true

def pointText (point : Bool) (fraction : List ℕ) : Bytes :=
  if point then 0x2e::chars fraction else []

def MoneyText.text (t : MoneyText) : Bytes :=
  t.lead ++ (chars t.whole ++ (pointText t.point t.fraction ++ t.trail))

/-- The decimal number that is written; without digits it is zero. -/
def MoneyText.value (t : MoneyText) : ℚ :=
  accumulate 10 0 (t.whole ++ t.fraction) / 10^t.fraction.length

/-- The digits behind the point as satoshis. -/
def units (ds : List ℕ) : ℕ := accumulate 10 0 ds * 10^(8 - ds.length)

def MoneyText.amount (t : MoneyText) : ℕ := accumulate 10 0 t.whole * 10^8 + units t.fraction

theorem MoneyText.amount_eq (t : MoneyText) : (t.amount : ℚ) = t.value * 10^8 := by
  have hsplit : (10 : ℚ)^8 = 10^t.fraction.length * 10^(8 - t.fraction.length) := by
    rw [← pow_add,Nat.add_sub_cancel' t.fraction_length]
  have hten : (10 : ℚ)^t.fraction.length ≠ 0 := by positivity
  rw [value,hsplit,← mul_assoc,div_mul_cancel₀ _ hten,accumulate_append,accumulate_from,amount,
    units]
  simp only [Nat.cast_add,Nat.cast_mul,Nat.cast_pow,Nat.cast_ofNat,hsplit]
  ring

theorem units_lt {ds : List ℕ} (hds : ∀ d ∈ ds, d < 10) (hlength : ds.length ≤ 8) :
    units ds < 10^8 := by
  have hlt : accumulate 10 0 ds < 10^(0 + ds.length) := accumulate_lt (by norm_num) hds
  rw [Nat.zero_add] at hlt
  have hsplit : 10^8 = 10^ds.length * 10^(8 - ds.length) := by
    rw [← pow_add,Nat.add_sub_cancel' hlength]
  rw [units,hsplit]
  exact Nat.mul_lt_mul_of_pos_right hlt (by positivity)

theorem accumulate_zeros (m k : ℕ) : accumulate m 0 (List.replicate k 0) = 0 := by
  induction k with
  | zero => rfl
  | succ k ih => exact ih

theorem units_append_zeros (ds : List ℕ) {k : ℕ} (h : (ds ++ List.replicate k 0).length ≤ 8) :
    units (ds ++ List.replicate k 0) = units ds := by
  rw [List.length_append,List.length_replicate] at h
  rw [units,units,accumulate_append,accumulate_from,accumulate_zeros,List.length_append,
    List.length_replicate,Nat.add_zero,Nat.mul_assoc,← pow_add]
  congr 2
  omega

theorem isspace_digit {d : ℕ} (hd : d < 10) : isspace (UInt8.ofNat (0x30 + d)) = false := by
  have hall : ∀ d : Fin 10, isspace (UInt8.ofNat (0x30 + d.val)) = false := by decide
  exact hall ⟨d,hd⟩

theorem noDigit_spaces {s : Bytes} (h : s.all isspace = true) : NoDigit s := by
  cases s with
  | nil => rfl
  | cons c s =>
    cases hc : isDigit c with
    | false => exact hc
    | true =>
      obtain ⟨d,hd,rfl⟩ := isDigit_iff.mp hc
      rw [List.all_cons,isspace_digit hd] at h
      exact absurd h (by simp)

theorem coin : COIN.toInt = 10^8 := by decide

theorem fractionUnits_stop {u m : ℤ} {s : Bytes} (h : NoDigit s) :
    fractionUnits u m s = .ok (u,s) := by
  cases s with
  | nil => rfl
  | cons c s =>
    have hc : isDigit c = false := h
    rw [fractionUnits,if_neg (fun h => Bool.false_ne_true (hc.symm.trans h.1))]

/-- The multiplier when `j` more digits are read. -/
def mult (j : ℕ) : ℤ := 10^j / 10

theorem mult_succ (j : ℕ) : mult (j + 1) = 10^j := by
  rw [mult,pow_succ,Int.mul_ediv_cancel _ (by norm_num)]

theorem fractionUnits_eq {ds : List ℕ} {rest : Bytes} (hds : ∀ d ∈ ds, d < 10)
    (hrest : NoDigit rest) {j : ℕ} {u : ℤ} (hnonneg : 0 ≤ u) (hle : u + 10^j ≤ 10^8) :
    fractionUnits u (mult j) (chars ds ++ rest) =
      .ok (u + (accumulate 10 0 (ds.take j) * 10^(j - ds.length) : ℕ),
        chars (ds.drop j) ++ rest) := by
  induction ds generalizing j u with
  | nil =>
    rw [List.take_nil,List.drop_nil]
    refine (fractionUnits_stop hrest).trans ?_
    rw [show accumulate 10 0 [] = 0 from rfl,Nat.zero_mul,Nat.cast_zero,add_zero]
    rfl
  | cons d ds ih =>
    obtain ⟨hd,hds⟩ := List.forall_mem_cons.mp hds
    have hstep : chars (d::ds) ++ rest = UInt8.ofNat (0x30 + d)::(chars ds ++ rest) := rfl
    rw [hstep,fractionUnits]
    cases j with
    | zero =>
      have hzero : mult 0 = 0 := by decide
      rw [if_neg (fun h => absurd h.2 (by rw [hzero]; decide)),List.take_zero,
        show accumulate 10 0 [] = 0 from rfl,Nat.zero_mul,Nat.cast_zero,add_zero]
      rfl
    | succ j =>
      have hpow : (0 : ℤ) < 10^j := by positivity
      have hdigit : ((UInt8.ofNat (0x30 + d)).toNat : ℤ) - 0x30 = d := by
        rw [digit_toNat hd]
        push_cast
        ring
      have hterm : (10 : ℤ)^j * d ≤ 10^j * 9 := by
        refine mul_le_mul_of_nonneg_left ?_ hpow.le
        omega
      have hterm_nonneg : (0 : ℤ) ≤ 10^j * d := by positivity
      rw [pow_succ] at hle
      rw [if_pos ⟨isDigit_iff.mpr ⟨d,hd,rfl⟩,by rw [mult_succ]; exact hpow⟩,hdigit,mult_succ,
        int64_bind ⟨by linarith,by linarith⟩,int64_bind ⟨by linarith,by linarith⟩]
      have hmult : (10 : ℤ)^j / 10 = mult j := rfl
      rw [hmult,ih hds (by linarith) (by linarith)]
      have hhead : accumulate 10 0 ((d::ds).take (j + 1)) =
          d * 10^(ds.take j).length + accumulate 10 0 (ds.take j) := by
        have hstart : accumulate 10 0 (d::ds.take j) = accumulate 10 (10 * 0 + d) (ds.take j) := rfl
        rw [List.take_succ_cons,hstart,accumulate_from,Nat.mul_zero,Nat.zero_add]
      have hsplit : 10^(ds.take j).length * 10^(j - ds.length) = 10^j := by
        rw [← pow_add,List.length_take]
        congr 1
        omega
      rw [hhead,List.length_cons,Nat.add_sub_add_right,Nat.add_mul,Nat.mul_assoc,hsplit,
        List.drop_succ_cons]
      push_cast
      ring_nf

/-- What the loop over the digits behind the point gives at its start. -/
theorem fractionUnits_start {ds : List ℕ} {rest : Bytes} (hds : ∀ d ∈ ds, d < 10)
    (hrest : NoDigit rest) : fractionUnits 0 (CENT * 10).toInt (chars ds ++ rest) =
      .ok ((units (ds.take 8) : ℕ),chars (ds.drop 8) ++ rest) := by
  have hstart : (CENT * 10).toInt = mult 8 := by decide
  have hlength : 8 - (ds.take 8).length = 8 - ds.length := by
    rw [List.length_take]
    omega
  rw [hstart,fractionUnits_eq hds hrest (le_refl _) (by norm_num),zero_add,units,hlength]

theorem wholeUnits_digits (strWhole : Bytes) {ds : List ℕ} (rest : Bytes)
    (hds : ∀ d ∈ ds, d < 10) :
    wholeUnits strWhole (chars ds ++ rest) = wholeUnits (strWhole ++ chars ds) rest := by
  induction ds generalizing strWhole with
  | nil => exact congrArg (wholeUnits · rest) (List.append_nil _).symm
  | cons d ds ih =>
    obtain ⟨hd,hds⟩ := List.forall_mem_cons.mp hds
    have hdigit : isDigit (UInt8.ofNat (0x30 + d)) = true := isDigit_iff.mpr ⟨d,hd,rfl⟩
    have hpoint : UInt8.ofNat (0x30 + d) ≠ 0x2e := fun h => by
      have hsame := congrArg UInt8.toNat h
      rw [digit_toNat hd] at hsame
      change 48 + d = 46 at hsame
      omega
    have hstep : chars (d::ds) ++ rest = UInt8.ofNat (0x30 + d)::(chars ds ++ rest) := rfl
    rw [hstep,wholeUnits,if_neg hpoint,isspace_digit hd,if_neg Bool.false_ne_true,hdigit,
      if_neg (by simp),ih _ hds,List.append_assoc]
    rfl

/-- What the loops read is a text of an amount, up to the white space around it. -/
theorem wholeUnits_sound {p w rest : Bytes} {u : ℤ} (h : wholeUnits [] p = .ok (w,u,rest)) :
    ∃ whole point fraction, p = chars whole ++ (pointText point fraction ++ rest) ∧
      (∀ d ∈ whole, d < 10) ∧ (point = false → fraction = []) ∧ (∀ d ∈ fraction, d < 10) ∧
      fraction.length ≤ 8 ∧ w = chars whole ∧ u = units fraction := by
  obtain ⟨whole,s,rfl,hwhole,hs⟩ := exists_chars p
  rw [wholeUnits_digits [] s hwhole,List.nil_append] at h
  refine ⟨whole,?_⟩
  cases s with
  | nil =>
    cases h
    exact ⟨false,[],rfl,hwhole,fun _ => rfl,List.forall_mem_nil _,by decide,rfl,rfl⟩
  | cons c s =>
    rw [wholeUnits] at h
    split_ifs at h with hpoint hspace hdigit
    · subst hpoint
      obtain ⟨ds,s,rfl,hds,hs⟩ := exists_chars s
      rw [fractionUnits_start hds hs] at h
      cases h
      refine ⟨true,ds.take 8,?_,hwhole,fun h => absurd h.symm Bool.false_ne_true,
        fun d hd => hds d (List.mem_of_mem_take hd),List.length_take_le _ _,rfl,rfl⟩
      have hsplit : chars ds = chars (ds.take 8) ++ chars (ds.drop 8) := by
        rw [chars,chars,chars,← List.map_append,List.take_append_drop]
      rw [pointText,if_pos rfl,hsplit,List.cons_append,List.append_assoc]
    · cases h
      exact ⟨false,[],rfl,hwhole,fun _ => rfl,List.forall_mem_nil _,by decide,rfl,rfl⟩
    · have hc : isDigit c = false := hs
      exact absurd hc hdigit

theorem wholeUnits_complete {whole fraction : List ℕ} {point : Bool} {trail : Bytes}
    (hwhole : ∀ d ∈ whole, d < 10) (hpoint : point = false → fraction = [])
    (hfraction : ∀ d ∈ fraction, d < 10) (hlength : fraction.length ≤ 8)
    (htrail : trail.all isspace = true) :
    wholeUnits [] (chars whole ++ (pointText point fraction ++ trail)) =
      .ok (chars whole,(units fraction : ℕ),trail) := by
  rw [wholeUnits_digits [] _ hwhole,List.nil_append]
  cases point with
  | true =>
    have htext : pointText true fraction ++ trail = 0x2e::(chars fraction ++ trail) := rfl
    rw [htext,wholeUnits,if_pos rfl,fractionUnits_start hfraction (noDigit_spaces htrail),
      List.take_of_length_le hlength,List.drop_eq_nil_of_le hlength]
    rfl
  | false =>
    rw [hpoint rfl]
    change wholeUnits (chars whole) trail = _
    cases trail with
    | nil => rfl
    | cons c trail =>
      rw [List.all_cons,Bool.and_eq_true] at htrail
      have hne : c ≠ 0x2e := by
        rintro rfl
        exact absurd htrail.1 (by decide)
      rw [wholeUnits,if_neg hne,if_pos htrail.1]
      rfl

theorem atoi64_chars {ds : List ℕ} (hds : ∀ d ∈ ds, d < 10) (hlength : ds.length ≤ 10) :
    atoi64 (chars ds) = (accumulate 10 0 ds : ℕ) := by
  have hfold : ∀ n, (chars ds).foldl (fun n c => 10*n + (c.toNat - 0x30)) n =
      accumulate 10 n ds := by
    intro n
    rw [chars,List.foldl_map,accumulate]
    refine List.foldl_ext _ _ _ fun n d hd => ?_
    rw [digit_toNat (hds d hd),Nat.add_sub_cancel_left]
  have hminus : (chars ds).head? ≠ some 0x2d := by
    intro h
    obtain ⟨d,hd,hc⟩ := List.mem_map.mp (List.mem_of_head? h)
    have hsame := congrArg UInt8.toNat hc
    rw [digit_toNat (hds d hd)] at hsame
    change 48 + d = 45 at hsame
    omega
  have hlt : accumulate 10 0 ds < 10^(0 + ds.length) := accumulate_lt (by norm_num) hds
  have hpow : 10^(0 + ds.length) ≤ 10^10 := Nat.pow_le_pow_right (by norm_num) (by omega)
  rw [atoi64,if_neg (by simpa using hminus),if_neg (by simpa using hminus),hfold]
  omega

theorem finishMoney_eq {whole fraction : List ℕ} (hwhole : ∀ d ∈ whole, d < 10)
    (hfraction : ∀ d ∈ fraction, d < 10) (hlength : fraction.length ≤ 8) (p : Bytes) :
    finishMoney (chars whole) (units fraction : ℕ) p =
      if p.all isspace = true ∧ whole.length ≤ 10 then
        .ok ((accumulate 10 0 whole * 10^8 + units fraction : ℕ) : ℤ)
      else .error .refused := by
  have hsize : (chars whole).length = whole.length := List.length_map _
  rw [finishMoney,hsize]
  by_cases hp : p.all isspace = true
  · rw [refuseIf_bind (by rw [hp]; decide)]
    by_cases hten : whole.length ≤ 10
    · have hunits := units_lt hfraction hlength
      have hlt : accumulate 10 0 whole < 10^(0 + whole.length) := accumulate_lt (by norm_num) hwhole
      have hpow : 10^(0 + whole.length) ≤ 10^10 := Nat.pow_le_pow_right (by norm_num) (by omega)
      rw [refuseIf_bind (by omega),refuseIf_bind (by rw [coin]; omega),if_pos ⟨hp,hten⟩,
        atoi64_chars hwhole hten,coin,int64_bind (by omega),int64_ok (by omega)]
      push_cast
      rfl
    · rw [refuseIf_refused (by omega),if_neg (fun h => hten h.2)]
  · rw [refuseIf_refused (by simpa using hp),if_neg (fun h => hp h.1)]

theorem parseMoney_def (str : Bytes) : parseMoney str =
    wholeUnits [] ((str.takeWhile (· != 0)).dropWhile isspace) >>= fun r =>
      finishMoney r.1 r.2.1 r.2.2 := rfl

theorem nonzero_chars {ds : List ℕ} (hds : ∀ d ∈ ds, d < 10) : 0 ∉ chars ds := by
  intro h
  obtain ⟨d,hd,hc⟩ := List.mem_map.mp h
  have hsame := congrArg UInt8.toNat hc
  rw [digit_toNat (hds d hd)] at hsame
  change 48 + d = 0 at hsame
  omega

theorem takeWhile_nonzero {str : Bytes} (h : 0 ∉ str) : str.takeWhile (· != 0) = str :=
  List.takeWhile_eq_self_iff.mpr fun _ hc => bne_iff_ne.mpr fun hzero => h (hzero ▸ hc)

theorem parseMoney_sound {str : Bytes} (hstr : 0 ∉ str) {v : ℤ} (h : parseMoney str = .ok v) :
    ∃ t : MoneyText, t.text = str ∧ v = t.amount := by
  rw [parseMoney_def,takeWhile_nonzero hstr] at h
  obtain ⟨⟨w,u,rest⟩,hwhole,h⟩ := bind_ok.mp h
  obtain ⟨whole,point,fraction,hp,hwhole_lt,hpoint,hfraction,hlength,rfl,rfl⟩ :=
    wholeUnits_sound hwhole
  rw [finishMoney_eq hwhole_lt hfraction hlength] at h
  split_ifs at h with hrest
  refine ⟨⟨str.takeWhile isspace,whole,point,fraction,rest,List.all_takeWhile,hwhole_lt,hrest.2,
    hpoint,hfraction,hlength,hrest.1⟩,?_,(Except.ok.inj h).symm⟩
  rw [MoneyText.text,← hp,List.takeWhile_append_dropWhile]

theorem parseMoney_complete {t : MoneyText} (hzero : 0 ∉ t.text) :
    parseMoney t.text = .ok t.amount := by
  have hlead : ∀ c ∈ t.lead, isspace c = true := List.all_eq_true.mp t.lead_space
  have hfinish : ∀ trail : Bytes, trail.all isspace = true →
      (wholeUnits [] (chars t.whole ++ (pointText t.point t.fraction ++ trail)) >>= fun r =>
        finishMoney r.1 r.2.1 r.2.2) = .ok t.amount := by
    intro trail htrail
    rw [wholeUnits_complete t.whole_lt t.point_ok t.fraction_lt t.fraction_length htrail]
    refine (finishMoney_eq t.whole_lt t.fraction_lt t.fraction_length trail).trans ?_
    rw [if_pos ⟨htrail,t.whole_length⟩,MoneyText.amount]
  rw [parseMoney_def,takeWhile_nonzero hzero,MoneyText.text,List.dropWhile_append_of_pos hlead]
  cases hw : t.whole with
  | cons d ds =>
    have hd := t.whole_lt d (by rw [hw]; exact List.mem_cons_self)
    have hstop : isspace (UInt8.ofNat (0x30 + d)) ≠ true :=
      ne_true_of_eq_false (isspace_digit hd)
    have hbody := hfinish t.trail t.trail_space
    rw [hw] at hbody
    exact (congrArg (fun p => wholeUnits [] p >>= _) (List.dropWhile_cons_of_neg hstop)).trans hbody
  | nil =>
    cases hp : t.point with
    | true =>
      have hbody := hfinish t.trail t.trail_space
      rw [hw,hp] at hbody
      exact hbody
    | false =>
      -- without a digit and without a point all the white space is skipped at once
      have hbody := hfinish [] rfl
      rw [hw,hp] at hbody
      have hskip : (chars [] ++ (pointText false t.fraction ++ t.trail)).dropWhile isspace =
          chars [] ++ (pointText false t.fraction ++ []) :=
        List.dropWhile_eq_nil_iff.mpr (List.all_eq_true.mp t.trail_space)
      rw [hskip]
      exact hbody

theorem parseMoney_quiet (str : Bytes) : Quiet (parseMoney str) := by
  rw [parseMoney_def]
  refine quiet_bind ?_ ?_
  · obtain ⟨whole,s,hs,hwhole,hrest⟩ := exists_chars ((str.takeWhile (· != 0)).dropWhile isspace)
    rw [hs,wholeUnits_digits [] s hwhole]
    cases s with
    | nil => exact quiet_ok _
    | cons c s =>
      rw [wholeUnits]
      split_ifs with hpoint hspace hdigit
      · obtain ⟨ds,s,rfl,hds,hstop⟩ := exists_chars s
        rw [fractionUnits_start hds hstop]
        exact quiet_ok _
      · exact quiet_ok _
      · exact quiet_refused
      · exact absurd hrest hdigit
  · rintro ⟨w,u,rest⟩ hwhole
    obtain ⟨whole,point,fraction,-,hwhole_lt,-,hfraction,hlength,rfl,rfl⟩ := wholeUnits_sound hwhole
    rw [finishMoney_eq hwhole_lt hfraction hlength]
    exact quiet_ite _ _

theorem decimal_lt (n : ℕ) : ∀ d ∈ decimal n, d < 10 := numeral_lt (by decide) n

theorem accumulate_decimal (n : ℕ) : accumulate 10 0 (decimal n) = n := accumulate_numeral 10 n

theorem decimal_length {n k : ℕ} (hk : 0 < k) (h : n < 10^k) : (decimal n).length ≤ k := by
  rw [decimal]
  split_ifs
  · exact hk
  · rw [List.length_reverse]
    exact (Nat.digits_length_le_iff (by norm_num) n).mpr h

theorem padded_lt (width n : ℕ) : ∀ d ∈ padded width n, d < 10 := by
  intro d hd
  rcases List.mem_append.mp hd with hd | hd
  · rw [(List.mem_replicate.mp hd).2]
    norm_num
  · exact decimal_lt n d hd

theorem padded_length {width n : ℕ} (hwidth : 0 < width) (h : n < 10^width) :
    (padded width n).length = width := by
  rw [padded,List.length_append,List.length_replicate]
  exact Nat.sub_add_cancel (decimal_length hwidth h)

theorem accumulate_padded (width n : ℕ) : accumulate 10 0 (padded width n) = n := by
  rw [padded,accumulate_append,accumulate_zeros,accumulate_decimal]

/-- Only zeros are trimmed, and two digits stay behind the point. -/
theorem trimZeros_eq (rest : Bytes) {ds : List ℕ} (hds : ∀ d ∈ ds, d < 10)
    (hlength : 2 ≤ ds.length) : ∃ k kept, ds = List.replicate k 0 ++ kept ∧ 2 ≤ kept.length ∧
      trimZeros (chars ds ++ 0x2e::rest) = chars kept ++ 0x2e::rest := by
  induction ds with
  | nil => exact absurd hlength (by decide)
  | cons a ds ih =>
    obtain ⟨ha,htail⟩ := List.forall_mem_cons.mp hds
    match ds with
    | [] => exact absurd hlength (by simp)
    | [b] =>
      refine ⟨0,[a,b],rfl,le_refl _,?_⟩
      exact if_neg fun h => absurd h.2 (by decide)
    | b::c::ds =>
      have hstep : trimZeros (chars (a::b::c::ds) ++ 0x2e::rest) =
          if UInt8.ofNat (0x30 + a) = 0x30 ∧ isDigit (UInt8.ofNat (0x30 + c)) = true then
            trimZeros (chars (b::c::ds) ++ 0x2e::rest)
          else chars (a::b::c::ds) ++ 0x2e::rest := rfl
      by_cases hzero : a = 0
      · obtain ⟨k,kept,hsplit,hkept,htrim⟩ := ih htail (by simp)
        have hc : c < 10 := htail c (by simp)
        rw [hstep,if_pos ⟨(digit_zero ha).mpr hzero,isDigit_iff.mpr ⟨c,hc,rfl⟩⟩]
        refine ⟨k + 1,kept,?_,hkept,htrim⟩
        rw [hzero,hsplit]
        rfl
      · rw [hstep,if_neg (fun h => hzero ((digit_zero ha).mp h.1))]
        exact ⟨0,_,rfl,hlength,rfl⟩

theorem chars_reverse (ds : List ℕ) : (chars ds).reverse = chars ds.reverse :=
  List.map_reverse.symm

/-- The trimmed text keeps the value of the digits behind the point. -/
theorem trimZeros_units (whole : Bytes) {ds : List ℕ} (hds : ∀ d ∈ ds, d < 10)
    (hlength : ds.length = 8) : ∃ kept, (∀ d ∈ kept, d < 10) ∧ kept.length ≤ 8 ∧
      units kept = accumulate 10 0 ds ∧
      (trimZeros (whole ++ 0x2e::chars ds).reverse).reverse = whole ++ 0x2e::chars kept := by
  have hreverse : (whole ++ 0x2e::chars ds).reverse = chars ds.reverse ++ 0x2e::whole.reverse := by
    rw [List.reverse_append,List.reverse_cons,chars_reverse,List.append_assoc]
    rfl
  obtain ⟨k,kept,hsplit,-,htrim⟩ := trimZeros_eq whole.reverse
    (fun d hd => hds d (List.mem_reverse.mp hd)) (by rw [List.length_reverse]; omega)
  have hds_eq : ds = kept.reverse ++ List.replicate k 0 := by
    rw [← List.reverse_reverse ds,hsplit,List.reverse_append,List.reverse_replicate]
  have hle : kept.reverse.length ≤ 8 := by
    rw [← hlength,hds_eq,List.length_append]
    exact Nat.le_add_right _ _
  refine ⟨kept.reverse,fun d hd => hds d ?_,hle,?_,?_⟩
  · rw [hds_eq]
    exact List.mem_append_left _ hd
  · rw [← units_append_zeros kept.reverse (k := k) (by rw [← hds_eq]; omega),← hds_eq,units,hlength,
      Nat.sub_self,pow_zero,Nat.mul_one]
  · rw [hreverse,htrim,List.reverse_append,List.reverse_cons,List.reverse_reverse,List.append_assoc,
      chars_reverse]
    rfl

theorem formatMoney_eq {n : CAmount} (h : moneyRange n = true) :
    ∃ t : MoneyText, formatMoney n = .ok t.text ∧ (t.amount : ℤ) = n.toInt ∧ 0 ∉ t.text := by
  obtain ⟨hlow,hhigh⟩ := (moneyRange_iff n).mp h
  have habs : absAmount n = .ok n := by
    rw [absAmount]
    split_ifs with hpos
    · rfl
    · refine subAmount_ok.mpr ?_
      have hle : n.toInt ≤ (0 : CAmount).toInt := Int64.le_iff_toInt_le.mp (Int64.not_lt.mp hpos)
      change n.toInt ≤ 0 at hle
      change n.toInt = 0 - n.toInt
      omega
  have hnegative : ¬n < 0 := fun hneg => by
    have hlt : n.toInt < 0 := Int64.lt_iff_toInt_lt.mp hneg
    omega
  have hquotient : (n / COIN).toInt.toNat = n.toInt.toNat / 10^8 := by
    rw [Int64.toInt_div_of_ne_right n COIN (by decide),coin,Int.tdiv_eq_ediv_of_nonneg hlow]
    omega
  have hremainder : (n % COIN).toInt.toNat = n.toInt.toNat % 10^8 := by
    rw [Int64.toInt_mod,coin,Int.tmod_eq_emod_of_nonneg hlow]
    omega
  have hlt : n.toInt.toNat % 10^8 < 10^8 := Nat.mod_lt _ (by norm_num)
  have hwhole : n.toInt.toNat / 10^8 < 10^10 := by omega
  obtain ⟨kept,hkept,hlength,hunits,htrim⟩ := trimZeros_units
    (chars (decimal (n.toInt.toNat / 10^8))) (padded_lt 8 (n.toInt.toNat % 10^8))
    (padded_length (by norm_num) hlt)
  let t : MoneyText := ⟨[],decimal (n.toInt.toNat / 10^8),true,kept,[],rfl,decimal_lt _,
    decimal_length (by norm_num) hwhole,fun h => absurd h.symm Bool.false_ne_true,hkept,hlength,rfl⟩
  have htext : t.text = chars (decimal (n.toInt.toNat / 10^8)) ++ 0x2e::chars kept := by
    change [] ++ (_ ++ (0x2e::chars kept ++ [])) = _
    rw [List.nil_append,List.append_nil]
  refine ⟨t,?_,?_,?_⟩
  · rw [formatMoney,habs]
    change Except.ok _ = _
    rw [hquotient,hremainder,htrim,if_neg hnegative,htext]
  · change ((accumulate 10 0 (decimal _) * 10^8 + units kept : ℕ) : ℤ) = _
    rw [hunits,accumulate_decimal,accumulate_padded]
    omega
  · rw [htext,List.mem_append,List.mem_cons,not_or,not_or]
    exact ⟨nonzero_chars (decimal_lt _),by decide,nonzero_chars hkept⟩

/-- Every amount in range is read back from its text; what is accepted of a string without zeros is
exactly the texts of amounts, each with its value; and no signed operation overflows. -/
theorem money_roundTrip (n : CAmount) (str : Bytes) :
    (moneyRange n = true → ∃ text, formatMoney n = .ok text ∧ parseMoney text = .ok n.toInt) ∧
    (0 ∉ str → ∀ v, parseMoney str = .ok v ↔
      ∃ t : MoneyText, t.text = str ∧ (v : ℚ) = t.value * 10^8) ∧
    Quiet (parseMoney str) := by
  refine ⟨fun hn => ?_,fun hstr v => ⟨fun hv => ?_,?_⟩,parseMoney_quiet str⟩
  · obtain ⟨t,htext,hamount,hzero⟩ := formatMoney_eq hn
    exact ⟨t.text,htext,(parseMoney_complete hzero).trans (congrArg Except.ok hamount)⟩
  · obtain ⟨t,htext,rfl⟩ := parseMoney_sound hstr hv
    exact ⟨t,htext,by rw [← t.amount_eq,Int.cast_natCast]⟩
  · rintro ⟨t,rfl,hv⟩
    rw [← t.amount_eq,← Int.cast_natCast] at hv
    rw [parseMoney_complete hstr,Int.cast_injective hv]

theorem money_sample : parseMoney [0x31,0x2e,0x35,0x30] = .ok 150000000 ∧
    formatMoney 150000000 = .ok [0x31,0x2e,0x35,0x30] := by
  obtain ⟨text,hformat,hparse⟩ := (money_roundTrip 150000000 []).1 (by decide)
  have htext : formatMoney 150000000 = .ok [0x31,0x2e,0x35,0x30] := by
    decide
  rw [htext] at hformat
  obtain rfl := Except.ok.inj hformat
  exact ⟨hparse,htext⟩

end Sidechain.Money
