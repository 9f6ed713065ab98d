import Sidechain.Library.Radix
import Sidechain.Primitives.Text
import Sidechain.Primitives.Transaction
import Mathlib.Data.List.DropRight

/-! Bytes as numbers in base 58, with and without a checksum. A buffer is given by its elements in the
order of its reverse iterators. -/
namespace Sidechain
open Run Radix Codec

/-- All alphanumeric characters except for "0", "I", "O", and "l". -/
def pszBase58 : Bytes :=
  ['1','2','3','4','5','6','7','8','9','A','B','C','D','E','F','G','H','J','K','L','M','N','P','Q',
    'R','S','T','U','V','W','X','Y','Z','a','b','c','d','e','f','g','h','i','j','k','m','n','o','p',
    'q','r','s','t','u','v','w','x','y','z'].map Char.toUInt8

/-- `pszBase58[d]`, the terminating zero included. -/
def base58Char (d : ℕ) : UInt8 := pszBase58.getD d 0

/-- `strchr(pszBase58, c)` as an offset. -/
def base58Digit (c : UInt8) : Option ℕ :=
  if c ∈ pszBase58 then some (pszBase58.idxOf c) else none

/-- Skip and count, in an `int`. -/
def countLeading (c : UInt8) (bytes : Bytes) : Outcome (ℕ × Bytes) :=
  if (bytes.takeWhile (· == c)).length < 2^31 then
    .ok ((bytes.takeWhile (· == c)).length,bytes.dropWhile (· == c))
  else .error (.undefined "zeroes++")

/-- Apply "b = b * m + carry". -/
def shiftIn (base m : ℕ) (buffer : List ℕ) (carry : ℕ) : Outcome (List ℕ) :=
  if (mulAdd base m buffer carry).2 = 0 then .ok (mulAdd base m buffer carry).1
  else .error (.assertion "carry == 0")

def encodeBase58 (vch : Bytes) : Outcome Bytes := do
  let (zeroes,rest) ← countLeading 0 vch
  let b58 ← (rest.map UInt8.toNat).foldlM (shiftIn 58 256)
    (List.replicate (rest.length * 138 / 100 + 1) 0)
  .ok (List.replicate zeroes 0x31 ++ (significant b58).map base58Char)

/-- Process the characters up to white space: nothing at a character of another alphabet. -/
def decodeBase58Chars (b256 : List ℕ) : Bytes → Outcome (Option (List ℕ × Bytes))
  | [] => .ok (some (b256,[]))
  | c::psz =>
    if isspace c then .ok (some (b256,c::psz))
    else
      match base58Digit c with
      | none => .ok none
      | some carry => do
        let b256 ← shiftIn 256 58 b256 carry
        decodeBase58Chars b256 psz

/-- The string is read up to its first zero. -/
def decodeBase58 (str : Bytes) : Outcome (Option Bytes) := do
  let psz := (str.takeWhile (· != 0)).dropWhile isspace
  let (zeroes,psz) ← countLeading 0x31 psz
  match ← decodeBase58Chars (List.replicate (psz.length * 733 / 1000 + 1) 0) psz with
  | none => .ok none
  | some (b256,psz) =>
    if psz.dropWhile isspace ≠ [] then .ok none
    else .ok (some (List.replicate zeroes 0 ++ (significant b256).map UInt8.ofNat))

/-- The first bytes of the hash. -/
def base58Checksum [Crypto] (vch : Bytes) : Bytes := (serializeBits 32 (Crypto.hash256 vch)).take 4

def encodeBase58Check [Crypto] (vchIn : Bytes) : Outcome Bytes :=
  encodeBase58 (vchIn ++ base58Checksum vchIn)

def decodeBase58Check [Crypto] (str : Bytes) : Outcome (Option Bytes) := do
  match ← decodeBase58 str with
  | none => .ok none
  | some vchRet =>
    if vchRet.length < 4 then .ok none
    else if base58Checksum (vchRet.take (vchRet.length - 4)) ≠ vchRet.drop (vchRet.length - 4) then
      .ok none
    else .ok (some (vchRet.take (vchRet.length - 4)))

namespace Base58

def leadingZeros (vch : Bytes) : ℕ := (vch.takeWhile (· == 0)).length

def number (vch : Bytes) : ℕ := Nat.ofDigits 256 (vch.map UInt8.toNat).reverse

def numeral (n : ℕ) : Bytes := (Nat.digits 58 n).reverse.map base58Char

def bigEndian (n : ℕ) : Bytes := (Nat.digits 256 n).reverse.map UInt8.ofNat

/-- A one for each leading zero, and the number in base 58. -/
def text (vch : Bytes) : Bytes := List.replicate (leadingZeros vch) 0x31 ++ numeral (number vch)

/-- Surrounding white space removed. -/
def trimmed (str : Bytes) : Bytes := (str.dropWhile isspace).rdropWhile isspace

theorem alphabet : ∀ d : Fin 58, base58Digit (base58Char d) = some d.val ∧
    isspace (base58Char d) = false ∧ base58Char d ≠ 0 ∧ (base58Char d = 0x31 → d.val = 0) := by
  decide

theorem base58Digit_lt {c : UInt8} {d : ℕ} (h : base58Digit c = some d) :
    d < 58 ∧ base58Char d = c := by
  unfold base58Digit at h
  split_ifs at h with hmem
  obtain rfl := Option.some.inj h
  have hlt := List.idxOf_lt_length_of_mem hmem
  refine ⟨hlt,?_⟩
  rw [base58Char,List.getD_eq_getElem?_getD,List.getElem?_eq_getElem hlt,List.getElem_idxOf,
    Option.getD_some]

theorem leading_iff {c : UInt8} {bytes rest : Bytes} {z : ℕ} :
    ((bytes.takeWhile (· == c)).length = z ∧ bytes.dropWhile (· == c) = rest) ↔
      bytes = List.replicate z c ++ rest ∧ rest.head? ≠ some c := by
  constructor
  · rintro ⟨rfl,rfl⟩
    have hsame : bytes.takeWhile (· == c) = List.replicate (bytes.takeWhile (· == c)).length c :=
      List.eq_replicate_iff.mpr ⟨rfl,fun b hb => by simpa using List.mem_takeWhile_imp hb⟩
    refine ⟨?_,fun hhead => ?_⟩
    · rw [← hsame,List.takeWhile_append_dropWhile]
    · have hnot := List.head?_dropWhile_not (· == c) bytes
      rw [hhead] at hnot
      simp at hnot
  · rintro ⟨rfl,hhead⟩
    have hall : ∀ b ∈ List.replicate z c, (b == c) = true := fun b hb => by
      simp [List.eq_of_mem_replicate hb]
    rw [List.takeWhile_append_of_pos hall,List.dropWhile_append_of_pos hall]
    cases rest with
    | nil => simp
    | cons b rest =>
      have hb : ¬((b == c) = true) := fun h => hhead (by simpa using h)
      rw [List.takeWhile_cons_of_neg (p := (· == c)) hb,
        List.dropWhile_cons_of_neg (p := (· == c)) hb,List.append_nil,List.length_replicate]
      exact ⟨rfl,rfl⟩

theorem leading_split (c : UInt8) (bytes : Bytes) :
    bytes = List.replicate (bytes.takeWhile (· == c)).length c ++ bytes.dropWhile (· == c) ∧
      (bytes.dropWhile (· == c)).head? ≠ some c := leading_iff.mp ⟨rfl,rfl⟩

theorem countLeading_eq {c : UInt8} {bytes rest : Bytes} {z : ℕ}
    (h : bytes = List.replicate z c ++ rest) (hhead : rest.head? ≠ some c) :
    countLeading c bytes =
      if z < 2^31 then .ok (z,rest) else .error (.undefined "zeroes++") := by
  obtain ⟨hz,hrest⟩ := leading_iff.mpr ⟨h,hhead⟩
  rw [countLeading,hz,hrest]

theorem number_replicate (z : ℕ) (rest : Bytes) :
    number (List.replicate z 0 ++ rest) = number rest := by
  rw [number,List.map_append,List.map_replicate,List.reverse_append,List.reverse_replicate]
  exact Nat.ofDigits_append_replicate_zero _

theorem shiftIn_ok {base m n k j d : ℕ} (hbase : 0 < base) (hn : n < m^j) (hd : d < m)
    (hfit : m^(j + 1) ≤ base^k) :
    shiftIn base m (digitsLE base k n) d = .ok (digitsLE base k (m * n + d)) := by
  rw [shiftIn,mulAdd_fits hbase (by omega) ((mul_add_lt hn hd).trans_le hfit),if_pos rfl]

theorem shiftIns_ok {base m n k j : ℕ} (hbase : 0 < base) {ds : List ℕ} (hds : ∀ d ∈ ds, d < m)
    (hn : n < m^j) (hfit : m^(j + ds.length) ≤ base^k) :
    ds.foldlM (shiftIn base m) (digitsLE base k n) =
      .ok (digitsLE base k (accumulate m n ds)) := by
  induction ds generalizing n j with
  | nil => rfl
  | cons d ds ih =>
    have hd := hds d List.mem_cons_self
    rw [List.length_cons,Nat.add_comm ds.length,← Nat.add_assoc] at hfit
    rw [List.foldlM_cons,shiftIn_ok hbase hn hd
      ((Nat.pow_le_pow_right (Nat.zero_lt_of_lt hd) (Nat.le_add_right _ _)).trans hfit)]
    exact ih (fun e he => hds e (List.mem_cons_of_mem d he)) (mul_add_lt hn hd) hfit

theorem toNat_lt {bytes : Bytes} : ∀ d ∈ bytes.map UInt8.toNat, d < 256 := by
  intro d hd
  obtain ⟨b,-,rfl⟩ := List.mem_map.mp hd
  exact b.toNat_lt

theorem encodeBase58_eq (vch : Bytes) : encodeBase58 vch =
    if leadingZeros vch < 2^31 then .ok (text vch) else .error (.undefined "zeroes++") := by
  obtain ⟨hsplit,hhead⟩ := leading_split 0 vch
  change vch = List.replicate (leadingZeros vch) 0 ++ _ at hsplit
  generalize vch.dropWhile (· == 0) = rest at hsplit hhead
  rw [encodeBase58,countLeading_eq hsplit hhead]
  split_ifs with hsmall
  · have hnumber : number vch = accumulate 256 0 (rest.map UInt8.toNat) := by
      rw [hsplit,number_replicate,accumulate_zero,number]
    have hfit : 256^rest.length ≤ 58^(rest.length * 138 / 100 + 1) :=
      pow_le_pow_ratio (by decide) (by decide) (by norm_num) rest.length
    have hbytes : ∀ d ∈ rest.map UInt8.toNat, d < 256 := toNat_lt
    have hbase : 0 < 58 := by decide
    have hlt := accumulate_lt (n := 0) (j := 0) (by decide) hbytes
    have hloop := shiftIns_ok (n := 0) (j := 0) hbase hbytes (by decide) (by simpa using hfit)
    rw [← hnumber,List.length_map,Nat.zero_add] at hlt
    rw [← hnumber,digitsLE_zero] at hloop
    refine bind_ok.mpr ⟨_,rfl,bind_ok.mpr ⟨_,hloop,?_⟩⟩
    rw [significant_digitsLE (by decide) (hlt.trans_le hfit)]
    rfl
  · rfl

/-- The characters before white space, when all of them are digits, leave their number in the
buffer. -/
theorem decodeBase58Chars_eq {n j k : ℕ} (hn : n < 58^j) {psz : Bytes}
    (hfit : 58^(j + psz.length) ≤ 256^k) :
    decodeBase58Chars (digitsLE 256 k n) psz =
      .ok (((psz.takeWhile (!isspace ·)).mapM base58Digit).map fun ds =>
        (digitsLE 256 k (accumulate 58 n ds),psz.dropWhile (!isspace ·))) := by
  induction psz generalizing n j with
  | nil => rfl
  | cons c psz ih =>
    rw [decodeBase58Chars]
    split_ifs with hspace
    · rw [List.takeWhile_cons_of_neg (by simpa using hspace),
        List.dropWhile_cons_of_neg (by simpa using hspace)]
      rfl
    · rw [List.takeWhile_cons_of_pos (by simpa using hspace),
        List.dropWhile_cons_of_pos (by simpa using hspace),List.mapM_cons]
      cases hdigit : base58Digit c with
      | none => rfl
      | some d =>
        have hd := (base58Digit_lt hdigit).1
        rw [List.length_cons,Nat.add_comm psz.length,← Nat.add_assoc] at hfit
        refine bind_ok.mpr ⟨_,shiftIn_ok (by decide) hn hd
          ((Nat.pow_le_pow_right (by decide) (Nat.le_add_right _ _)).trans hfit),?_⟩
        rw [ih (mul_add_lt hn hd) hfit]
        cases (psz.takeWhile (!isspace ·)).mapM base58Digit with
        | none => rfl
        | some ds => rfl

theorem mapM_base58Digit {psz : Bytes} {ds : List ℕ} :
    psz.mapM base58Digit = some ds ↔ (∀ d ∈ ds, d < 58) ∧ psz = ds.map base58Char := by
  induction psz generalizing ds with
  | nil =>
    cases ds with
    | nil => simp
    | cons d ds => simp
  | cons c psz ih =>
    rw [List.mapM_cons]
    simp only [Option.bind_eq_bind,Option.bind_eq_some_iff,Option.pure_def,Option.some.injEq,ih]
    constructor
    · rintro ⟨d,hd,ds',⟨hds,rfl⟩,rfl⟩
      obtain ⟨hlt,rfl⟩ := base58Digit_lt hd
      exact ⟨List.forall_mem_cons.mpr ⟨hlt,hds⟩,rfl⟩
    · rintro ⟨hds,h⟩
      cases ds with
      | nil => cases h
      | cons d ds =>
        obtain ⟨rfl,rfl⟩ := List.cons.inj h
        obtain ⟨hlt,hrest⟩ := List.forall_mem_cons.mp hds
        exact ⟨d,(alphabet ⟨d,hlt⟩).1,ds,⟨hrest,rfl⟩,rfl⟩

theorem decodeBase58_eq {str psz : Bytes} (hzero : 0 ∉ str) {z : ℕ}
    (h : str.dropWhile isspace = List.replicate z 0x31 ++ psz) (hhead : psz.head? ≠ some 0x31) :
    decodeBase58 str = if z < 2^31 then
      .ok (((psz.takeWhile (!isspace ·)).mapM base58Digit).bind fun ds =>
        if (psz.dropWhile (!isspace ·)).dropWhile isspace ≠ [] then none
        else some (List.replicate z 0 ++ bigEndian (Nat.ofDigits 58 ds.reverse)))
      else .error (.undefined "zeroes++") := by
  have hall : str.takeWhile (· != 0) = str :=
    List.takeWhile_eq_self_iff.mpr fun c hc => bne_iff_ne.mpr fun h0 => hzero (h0 ▸ hc)
  rw [decodeBase58,hall,countLeading_eq h hhead]
  by_cases hsmall : z < 2^31
  · rw [if_pos hsmall,if_pos hsmall]
    have hfit : 58^psz.length ≤ 256^(psz.length * 733 / 1000 + 1) :=
      pow_le_pow_ratio (by decide) (by decide) (by decide +kernel) psz.length
    have hloop := decodeBase58Chars_eq (n := 0) (j := 0) (by decide)
      (by rw [Nat.zero_add]; exact hfit)
    rw [digitsLE_zero] at hloop
    refine bind_ok.mpr ⟨_,rfl,bind_ok.mpr ⟨_,hloop,?_⟩⟩
    cases hds : (psz.takeWhile (!isspace ·)).mapM base58Digit with
    | none => rfl
    | some ds =>
      obtain ⟨hlt,hbody⟩ := mapM_base58Digit.mp hds
      have hlength : ds.length ≤ psz.length := by
        rw [← List.length_map base58Char,← hbody]
        exact (List.takeWhile_sublist _).length_le
      have hvalue := accumulate_lt (n := 0) (j := 0) (by decide) hlt
      rw [Nat.zero_add] at hvalue
      change (if _ then _ else _) = _
      rw [significant_digitsLE (by decide) (hvalue.trans_le
        ((Nat.pow_le_pow_right (by decide) hlength).trans hfit)),accumulate_zero]
      rw [Option.bind_some]
      split_ifs
      · rfl
      · rfl
  · rw [if_neg hsmall,if_neg hsmall]
    rfl

theorem number_bigEndian (n : ℕ) : number (bigEndian n) = n := by
  have hbytes : ((Nat.digits 256 n).reverse.map UInt8.ofNat).map UInt8.toNat =
      (Nat.digits 256 n).reverse := by
    rw [List.map_map]
    refine (List.map_congr_left fun d hd => ?_).trans (List.map_id _)
    have hlt := Nat.digits_lt_base (by decide) (List.mem_reverse.mp hd)
    exact UInt8.toNat_ofNat_of_lt' hlt
  rw [number,bigEndian,hbytes,List.reverse_reverse,Nat.ofDigits_digits]

theorem bigEndian_head? (n : ℕ) : (bigEndian n).head? ≠ some 0 := by
  have hhead := head?_digits_reverse 256 n
  rw [bigEndian,List.head?_map]
  cases hd : (Nat.digits 256 n).reverse.head? with
  | none => simp
  | some d =>
    rw [hd] at hhead
    have hlt := Nat.digits_lt_base (by decide) (List.mem_reverse.mp (List.mem_of_head? hd))
    intro h
    have hzero : d = 0 := by
      rw [← UInt8.toNat_ofNat_of_lt' (show d < UInt8.size from hlt),Option.some.inj h]
      rfl
    exact hhead (by rw [hzero])

theorem leadingZeros_bigEndian (z n : ℕ) :
    leadingZeros (List.replicate z 0 ++ bigEndian n) = z :=
  (leading_iff.mpr ⟨rfl,bigEndian_head? n⟩).1

theorem bigEndian_number (vch : Bytes) :
    List.replicate (leadingZeros vch) 0 ++ bigEndian (number vch) = vch := by
  obtain ⟨hsplit,hhead⟩ := leading_split 0 vch
  change vch = List.replicate (leadingZeros vch) 0 ++ _ at hsplit
  generalize vch.dropWhile (· == 0) = rest at hsplit hhead
  have hnumber : number vch = Nat.ofDigits 256 (rest.map UInt8.toNat).reverse := by
    rw [hsplit,number_replicate,number]
  have hdigits : (rest.map UInt8.toNat).head? ≠ some 0 := by
    rw [List.head?_map]
    intro h
    obtain ⟨b,hb,hzero⟩ := Option.map_eq_some_iff.mp h
    obtain rfl : b = 0 := UInt8.toNat_inj.mp hzero
    exact hhead hb
  rw [bigEndian,hnumber,digits_reverse_of_head? (by decide) toNat_lt hdigits,List.map_map]
  conv_rhs => rw [hsplit]
  refine congrArg _ ((List.map_congr_left fun b _ => ?_).trans (List.map_id rest))
  exact UInt8.ofNat_toNat

theorem base58Char_head? {ds : List ℕ} (hds : ∀ d ∈ ds, d < 58) {rest : Bytes}
    (hrest : ∀ c ∈ rest, isspace c = true) :
    (ds.map base58Char ++ rest).head? ≠ some 0x31 ↔ ds.head? ≠ some 0 := by
  cases ds with
  | nil =>
    refine iff_of_true (fun h => ?_) (fun h => nomatch h)
    have hspace := hrest _ (List.mem_of_head? h)
    exact absurd hspace (by decide)
  | cons d ds =>
    have hd := (alphabet ⟨d,hds d List.mem_cons_self⟩).2.2.2
    refine not_congr ⟨fun h => ?_,fun h => ?_⟩
    · exact congrArg some (hd (Option.some.inj h))
    · rw [Option.some.inj h]
      rfl

theorem base58Char_isspace {ds : List ℕ} (hds : ∀ d ∈ ds, d < 58) :
    ∀ c ∈ ds.map base58Char, isspace c = false := by
  intro c hc
  obtain ⟨d,hd,rfl⟩ := List.mem_map.mp hc
  exact (alphabet ⟨d,hds d hd⟩).2.1

theorem ones_isspace {z : ℕ} {core : Bytes} (h : ∀ c ∈ core, isspace c = false) :
    ∀ c ∈ List.replicate z 0x31 ++ core, isspace c = false := by
  intro c hc
  rcases List.mem_append.mp hc with hc | hc
  · rw [List.eq_of_mem_replicate hc]
    rfl
  · exact h c hc

/-- White space behind a text without white space. -/
theorem rdropWhile_isspace {core rest : Bytes} (hcore : ∀ c ∈ core, isspace c = false)
    (hrest : ∀ c ∈ rest, isspace c = true) : (core ++ rest).rdropWhile isspace = core := by
  have hrest' : ∀ c ∈ rest.reverse, isspace c = true := by simpa using hrest
  rw [List.rdropWhile,List.reverse_append,List.dropWhile_append_of_pos hrest',
    List.dropWhile_eq_self_iff.mpr,List.reverse_reverse]
  intro hlen
  rw [hcore _ (List.mem_reverse.mp (List.getElem_mem _))]
  exact Bool.false_ne_true

theorem decodeBase58_iff {str vch : Bytes} (hzero : 0 ∉ str) :
    decodeBase58 str = .ok (some vch) ↔
      trimmed str = text vch ∧ leadingZeros vch < 2^31 := by
  constructor
  · intro h
    obtain ⟨hsplit,hhead⟩ := leading_split 0x31 (str.dropWhile isspace)
    generalize ((str.dropWhile isspace).takeWhile (· == 0x31)).length = z at hsplit
    generalize (str.dropWhile isspace).dropWhile (· == 0x31) = psz at hsplit hhead
    rw [decodeBase58_eq hzero hsplit hhead] at h
    by_cases hsmall : z < 2^31
    swap
    · rw [if_neg hsmall] at h
      cases h
    rw [if_pos hsmall] at h
    obtain ⟨ds,hds,hvch⟩ := Option.bind_eq_some_iff.mp (Except.ok.inj h)
    split_ifs at hvch with hrest
    obtain rfl := Option.some.inj hvch
    obtain ⟨hlt,hbody⟩ := mapM_base58Digit.mp hds
    have hpsz := List.takeWhile_append_dropWhile (p := (!isspace ·)) (l := psz)
    have hspaces : ∀ c ∈ psz.dropWhile (!isspace ·), isspace c = true :=
      List.dropWhile_eq_nil_iff.mp (not_not.mp hrest)
    generalize psz.dropWhile (!isspace ·) = rest at hpsz hspaces
    rw [hbody] at hpsz
    rw [← hpsz] at hhead hsplit
    have hcanonical := (base58Char_head? hlt hspaces).mp hhead
    refine ⟨?_,by rwa [leadingZeros_bigEndian]⟩
    rw [trimmed,hsplit,← List.append_assoc,
      rdropWhile_isspace (ones_isspace (base58Char_isspace hlt)) hspaces,text,
      leadingZeros_bigEndian,number_replicate,number_bigEndian,numeral,
      digits_reverse_of_head? (by decide) hlt hcanonical]
  · rintro ⟨htext,hsmall⟩
    have hlt : ∀ d ∈ (Nat.digits 58 (number vch)).reverse, d < 58 := fun d hd =>
      Nat.digits_lt_base (by decide) (List.mem_reverse.mp hd)
    have hsplit := List.rdropWhile_append_rtakeWhile (p := isspace) (l := str.dropWhile isspace)
    have hspaces : ∀ c ∈ (str.dropWhile isspace).rtakeWhile isspace, isspace c = true :=
      fun c => List.mem_rtakeWhile_imp
    generalize (str.dropWhile isspace).rtakeWhile isspace = rest at hsplit hspaces
    change trimmed str ++ rest = _ at hsplit
    rw [htext,text,List.append_assoc] at hsplit
    have hhead := (base58Char_head? hlt hspaces).mpr (head?_digits_reverse 58 _)
    have hbody : ∀ c ∈ numeral (number vch), (!isspace c) = true := fun c hc => by
      rw [base58Char_isspace hlt c hc]
      rfl
    have hnone : rest.takeWhile (!isspace ·) = [] := by
      cases rest with
      | nil => rfl
      | cons c rest => exact List.takeWhile_cons_of_neg (by simp [hspaces c List.mem_cons_self])
    have hall : rest.dropWhile (!isspace ·) = rest := by
      have hsame := List.takeWhile_append_dropWhile (p := (!isspace ·)) (l := rest)
      rwa [hnone] at hsame
    rw [decodeBase58_eq hzero hsplit.symm hhead,if_pos hsmall,List.takeWhile_append_of_pos hbody,
      List.dropWhile_append_of_pos hbody,hnone,hall,List.append_nil,
      mapM_base58Digit.mpr ⟨hlt,numeral.eq_1 _⟩,Option.bind_some,
      if_neg (not_not.mpr (List.dropWhile_eq_nil_iff.mpr hspaces)),List.reverse_reverse,
      Nat.ofDigits_digits,bigEndian_number]

theorem encodeBase58_iff {vch str : Bytes} :
    encodeBase58 vch = .ok str ↔ str = text vch ∧ leadingZeros vch < 2^31 := by
  rw [encodeBase58_eq]
  split_ifs with hsmall
  · exact ⟨fun h => ⟨(Except.ok.inj h).symm,hsmall⟩,fun h => by rw [h.1]⟩
  · refine iff_of_false (fun h => ?_) (fun h => hsmall h.2)
    cases h

theorem decodeBase58_takeWhile (str : Bytes) :
    decodeBase58 (str.takeWhile (· != 0)) = decodeBase58 str := by
  rw [decodeBase58,decodeBase58,List.takeWhile_idem]

theorem text_clean (vch : Bytes) : trimmed (text vch) = text vch ∧ 0 ∉ text vch := by
  have hlt : ∀ d ∈ (Nat.digits 58 (number vch)).reverse, d < 58 := fun d hd =>
    Nat.digits_lt_base (by decide) (List.mem_reverse.mp hd)
  have hspace := ones_isspace (z := leadingZeros vch) (base58Char_isspace hlt)
  constructor
  · have hnone : (text vch).dropWhile isspace = text vch :=
      List.dropWhile_eq_self_iff.mpr fun hlen => by
        rw [hspace _ (List.getElem_mem hlen)]
        exact Bool.false_ne_true
    rw [trimmed,hnone]
    have hnone : ∀ c ∈ ([] : Bytes), isspace c = true := nofun
    have h := rdropWhile_isspace hspace hnone
    rwa [List.append_nil] at h
  · rintro hmem
    rcases List.mem_append.mp hmem with hmem | hmem
    · exact absurd (List.eq_of_mem_replicate hmem) (by decide)
    · obtain ⟨d,hd,hzero⟩ := List.mem_map.mp hmem
      exact (alphabet ⟨d,hlt d hd⟩).2.2.1 hzero

theorem decodeBase58_assertion (str : Bytes) (e : String) :
    decodeBase58 str ≠ .error (.assertion e) := by
  have hzero : 0 ∉ str.takeWhile (· != 0) := fun h => by
    simpa using List.mem_takeWhile_imp h
  obtain ⟨hsplit,hhead⟩ := leading_split 0x31 ((str.takeWhile (· != 0)).dropWhile isspace)
  rw [← decodeBase58_takeWhile,decodeBase58_eq hzero hsplit hhead]
  split_ifs <;> exact fun h => nomatch h

theorem decodeBase58Check_iff [Crypto] {str vch : Bytes} :
    decodeBase58Check str = .ok (some vch) ↔
      decodeBase58 str = .ok (some (vch ++ base58Checksum vch)) := by
  have hfour : (base58Checksum vch).length = 4 := by
    rw [base58Checksum,List.length_take,serializeBits,leBytes_length]
    rfl
  rw [decodeBase58Check,bind_ok]
  constructor
  · rintro ⟨r,hr,h⟩
    cases r with
    | none => cases h
    | some vchRet =>
      dsimp only at h
      split_ifs at h with hshort hsum
      · cases h
      · cases h
      · obtain rfl := Option.some.inj (Except.ok.inj h)
        rw [not_not.mp hsum,List.take_append_drop]
        exact hr
  · intro h
    refine ⟨_,h,?_⟩
    have hlength : (vch ++ base58Checksum vch).length - 4 = vch.length := by
      rw [List.length_append,hfour,Nat.add_sub_cancel]
    dsimp only
    rw [hlength,List.take_left,List.drop_left,if_neg (by rw [List.length_append]; omega),
      if_neg (not_not.mpr rfl)]

/-- Bytes come back from their text unless an `int` cannot count their leading zeros; accepted
strings are the texts of what they decode to, with the checksum or without; and no carry is ever
left. -/
theorem base58_roundTrip [Crypto] (vch str : Bytes) :
    ((∃ s, encodeBase58 vch = .ok s ∧ decodeBase58 s = .ok (some vch)) ↔
        leadingZeros vch < 2^31) ∧
      (∀ e, encodeBase58 vch ≠ .error (.assertion e) ∧ decodeBase58 str ≠ .error (.assertion e)) ∧
        (0 ∉ str → ∀ w,
          (decodeBase58 str = .ok (some w) → encodeBase58 w = .ok (trimmed str)) ∧
            (decodeBase58Check str = .ok (some w) ↔
              encodeBase58Check w = .ok (trimmed str))) := by
  refine ⟨⟨?_,fun hsmall => ?_⟩,fun e => ⟨?_,decodeBase58_assertion str e⟩,fun hzero w => ⟨?_,?_⟩⟩
  · rintro ⟨s,hs,-⟩
    exact (encodeBase58_iff.mp hs).2
  · obtain ⟨htrim,hzero⟩ := text_clean vch
    exact ⟨text vch,encodeBase58_iff.mpr ⟨rfl,hsmall⟩,
      (decodeBase58_iff hzero).mpr ⟨htrim,hsmall⟩⟩
  · rw [encodeBase58_eq]
    split_ifs <;> exact fun h => nomatch h
  · exact fun h => encodeBase58_iff.mpr ((decodeBase58_iff hzero).mp h)
  · rw [decodeBase58Check_iff,decodeBase58_iff hzero,encodeBase58Check,encodeBase58_iff]

/-- The text "19" between two spaces. -/
theorem base58_roundTrip_spaces : encodeBase58 [0,8] = .ok [0x31,0x39] :=
  ((@base58_roundTrip digitCrypto [] [0x20,0x31,0x39,0x20]).2.2 (by decide) [0,8]).1 (by decide)

/-- More leading zeros than an `int` can count. -/
theorem base58_manyZeros : ¬∃ s, encodeBase58 (List.replicate (2^31) 0) = .ok s ∧
    decodeBase58 s = .ok (some (List.replicate (2^31) 0)) := by
  rintro ⟨s,hs,-⟩
  have hsmall := (encodeBase58_iff.mp hs).2
  have hzeros : leadingZeros (List.replicate (2^31) 0) = 2^31 :=
    (leading_iff.mpr ⟨(List.append_nil _).symm,fun h => nomatch h⟩).1
  rw [hzeros] at hsmall
  exact lt_irrefl _ hsmall

end Base58
end Sidechain
