import Sidechain.Net.NetAddr

/-! Subnets: an address under a mask, read from texts with a prefix length or a full mask, and the
texts that they are shown as. -/
namespace Sidechain.SubNet
open Radix

structure CSubNet where
  network : CNetAddr
  netmask : IpBytes
  valid : Bool
  deriving DecidableEq

/-- `ParsePrechecks` refuses the empty text, white space at an end, and a NUL. -/
def parsePrechecks (str : Bytes) : Bool :=
  match str.head?,str.getLast? with
  | some c,some d => !(isspace c || isspace d) && !str.contains 0
  | _,_ => false

/-- `ParseInt32`: all of the text is a number for `strtol`, and one of 32 bits. -/
def parseInt32 (str : Bytes) : Option ℤ :=
  if parsePrechecks str then
    let negative := str.head? = some 0x2d
    let digits := if negative ∨ str.head? = some 0x2b then str.tail else str
    if digits ≠ [] ∧ digits.all isDigit then
      let n : ℤ := accumulate 10 0 (digits.map fun c => c.toNat - 0x30)
      let n := if negative then -n else n
      if -2^31 ≤ n ∧ n < 2^31 then some n else none
    else none
  else none

/-- `find_last_of('/')`: what is in front of the last slash, and behind it. -/
def findLastSlash : Bytes → Option (Bytes × Bytes)
  | [] => none
  | c::str =>
    match findLastSlash str with
    | some (front,behind) => some (c::front,behind)
    | none => if c = 0x2f then some ([],str) else none

/-- `netmask[n>>3] &= ~(1<<(7-(n&7)))`. -/
def clearBit (netmask : IpBytes) (n : ℕ) : IpBytes := fun x =>
  if x.val = n / 8 then netmask x &&& ~~~((1 : UInt8) <<< UInt8.ofNat (7 - n % 8)) else netmask x

/-- Clear bits [n..127]. -/
def clearBits (netmask : IpBytes) (n : ℕ) : IpBytes :=
  (List.range' n (128 - n)).foldl clearBit netmask

def maskIp (ip netmask : IpBytes) : IpBytes := fun x => ip x &&& netmask x

def allOnes : IpBytes := fun _ => 255

/-- IPv4 addresses start at offset 12, and the first 12 bytes must match. -/
def astartofs (network : CNetAddr) : ℕ := if network.isIPv4 then 12 else 0

/-- The mask behind the slash: a number of bits, or a full mask. -/
def readNetmask (resolver : Resolver) (network : CNetAddr) (strNetmask : Bytes) : Option IpBytes :=
  match parseInt32 strNetmask with
  | some n =>
    if 0 ≤ n ∧ n ≤ (128 - astartofs network * 8 : ℕ) then
      some (clearBits allOnes (n.toNat + astartofs network * 8))
    else none
  | none =>
    -- only the last four bytes in case of IPv4: the rest of the mask should stay 1's
    (resolver.lookupHost (cstr strNetmask) false).map fun mask x =>
      if astartofs network ≤ x.val then mask.ip x else 255

namespace CSubNet

/-- The network is normalized according to the netmask. -/
def normalized (network : CNetAddr) (netmask : IpBytes) (valid : Bool) : CSubNet :=
  ⟨⟨maskIp network.ip netmask⟩,netmask,valid⟩

/-- `CSubNet(strSubnet, fAllowLookup)`. -/
def ofString (resolver : Resolver) (strSubnet : Bytes) (fAllowLookup : Bool) : CSubNet :=
  let slash := findLastSlash strSubnet
  let strAddress := (slash.map Prod.fst).getD strSubnet
  match resolver.lookupHost (cstr strAddress) fAllowLookup with
  | none => normalized ⟨fun _ => 0⟩ allOnes false
  | some network =>
    match slash with
    | none => normalized network allOnes true
    | some (_,strNetmask) =>
      match readNetmask resolver network strNetmask with
      | some netmask => normalized network netmask true
      | none => normalized network allOnes false

def isMatch (s : CSubNet) (addr : CNetAddr) : Bool :=
  if !s.valid || !addr.isValid then false
  else decide (∀ x, addr.ip x &&& s.netmask x = s.network.ip x)

end CSubNet

/-- `NetmaskBits`, which returns -1 for a byte that is no prefix of ones. -/
def netmaskBits (x : UInt8) : Option ℕ :=
  if x = 0x00 then some 0
  else if x = 0x80 then some 1
  else if x = 0xc0 then some 2
  else if x = 0xe0 then some 3
  else if x = 0xf0 then some 4
  else if x = 0xf8 then some 5
  else if x = 0xfc then some 6
  else if x = 0xfe then some 7
  else if x = 0xff then some 8
  else none

/-- Parse binary 1{n}0{N-n}: the loop over full bytes, the byte behind them, and the rest. -/
def scanCidr : Bytes → ℕ → Option ℕ
  | [],cidr => some cidr
  | x::rest,cidr =>
    if x = 0xff then scanCidr rest (cidr + 8)
    else
      match netmaskBits x with
      | none => none
      | some bits => if rest.all (· == 0x00) then some (cidr + bits) else none

namespace CSubNet

def strNetmask (s : CSubNet) : Bytes :=
  match scanCidr ((List.ofFn s.netmask).drop (astartofs s.network)) 0 with
  | some cidr => numeralText 10 cidr
  | none => if s.network.isIPv4 then dotted s.netmask else groups s.netmask

def toString (resolver : Resolver) (s : CSubNet) : Bytes :=
  s.network.toStringIP resolver.getnameinfo ++ 0x2f::s.strNetmask

end CSubNet

/-- Bit `k` of a byte, the most significant one first. -/
def bitAt (b : UInt8) (k : ℕ) : Bool := b.toNat.testBit (7 - k)

/-- Bit `i` of an address in the order of a prefix. -/
def bitOf (ip : IpBytes) (i : ℕ) : Bool :=
  if h : i / 8 < 16 then bitAt (ip ⟨i / 8,h⟩) (i % 8) else false

/-- The byte with `n` leading ones. -/
def ones (n : ℕ) : UInt8 := UInt8.ofNat (256 - 2^(8 - n))

theorem byte_ext {b c : UInt8} (h : ∀ k < 8, bitAt b k = bitAt c k) : b = c := by
  refine UInt8.toNat_inj.mp (Nat.eq_of_testBit_eq fun i => ?_)
  by_cases hi : i < 8
  · have hbit := h (7 - i) (by omega)
    rw [bitAt,bitAt,Nat.sub_sub_self (by omega)] at hbit
    exact hbit
  · have hpow : 2^8 ≤ 2^i := Nat.pow_le_pow_right (by decide) (not_lt.mp hi)
    rw [Nat.testBit_lt_two_pow (b.toNat_lt.trans_le hpow),
      Nat.testBit_lt_two_pow (c.toNat_lt.trans_le hpow)]

theorem bitAt_and (b c : UInt8) (k : ℕ) : bitAt (b &&& c) k = (bitAt b k && bitAt c k) := by
  rw [bitAt,UInt8.toNat_and,Nat.testBit_and]
  rfl

theorem bitAt_255 {k : ℕ} (hk : k < 8) : bitAt 255 k = true := by
  have hall : ∀ k : Fin 8, bitAt 255 k = true := by decide
  exact hall ⟨k,hk⟩

theorem bitAt_hole {r k : ℕ} (hr : r < 8) (hk : k < 8) :
    bitAt (~~~((1 : UInt8) <<< UInt8.ofNat (7 - r))) k = decide (k ≠ r) := by
  have hall : ∀ r k : Fin 8,
      bitAt (~~~((1 : UInt8) <<< UInt8.ofNat (7 - r.val))) k = decide (k.val ≠ r.val) := by decide
  exact hall ⟨r,hr⟩ ⟨k,hk⟩

theorem ones_of_le {n : ℕ} (h : 8 ≤ n) : ones n = 255 := by
  rw [ones,Nat.sub_eq_zero_of_le h]
  rfl

theorem bitAt_ones (n : ℕ) {k : ℕ} (hk : k < 8) : bitAt (ones n) k = decide (k < n) := by
  have hall : ∀ n : Fin 8, ∀ k : Fin 8, bitAt (ones n) k = decide (k.val < n.val) := by decide
  by_cases hn : n < 8
  · exact hall ⟨n,hn⟩ ⟨k,hk⟩
  · rw [ones_of_le (not_lt.mp hn),bitAt_255 hk,decide_eq_true (by omega)]

theorem bitAt_clearBit (netmask : IpBytes) (n : ℕ) (x : Fin 16) {k : ℕ} (hk : k < 8) :
    bitAt (clearBit netmask n x) k = (bitAt (netmask x) k && decide (8 * x.val + k ≠ n)) := by
  rw [clearBit]
  split_ifs with hx
  · rw [bitAt_and,bitAt_hole (Nat.mod_lt n (by decide)) hk]
    congr 2
    rw [eq_iff_iff]
    omega
  · rw [decide_eq_true (by omega),Bool.and_true]

theorem bitAt_clearAll (ns : List ℕ) (netmask : IpBytes) (x : Fin 16) {k : ℕ} (hk : k < 8) :
    bitAt (ns.foldl clearBit netmask x) k =
      (bitAt (netmask x) k && decide (8 * x.val + k ∉ ns)) := by
  induction ns generalizing netmask with
  | nil => simp
  | cons n ns ih =>
    rw [List.foldl_cons,ih,bitAt_clearBit netmask n x hk,Bool.and_assoc,← Bool.decide_and]
    congr 2
    rw [List.mem_cons,not_or]

/-- The loop leaves the first bits. -/
theorem clearBits_allOnes (n : ℕ) (x : Fin 16) : clearBits allOnes n x = ones (n - 8 * x.val) := by
  refine byte_ext fun k hk => ?_
  rw [clearBits,bitAt_clearAll _ _ x hk,bitAt_ones _ hk,allOnes,bitAt_255 hk,Bool.true_and]
  congr 1
  rw [List.mem_range'_1,eq_iff_iff]
  omega

theorem netmaskBits_ones {x : UInt8} {n : ℕ} (h : netmaskBits x = some n) : n ≤ 8 ∧ x = ones n := by
  have hall : ∀ x : Fin 256, ∀ n ∈ netmaskBits (UInt8.ofNat x.val),
      n ≤ 8 ∧ UInt8.ofNat x.val = ones n := by decide +kernel
  have hx := hall ⟨x.toNat,x.toNat_lt⟩
  rw [UInt8.ofNat_toNat] at hx
  exact hx n h

theorem scanCidr_ones {bytes : Bytes} {c cidr : ℕ} (h : scanCidr bytes c = some cidr) :
    ∃ n, n ≤ 8 * bytes.length ∧ cidr = c + n ∧
      ∀ i < bytes.length, bytes[i]? = some (ones (n - 8 * i)) := by
  induction bytes generalizing c with
  | nil => exact ⟨0,le_rfl,(Option.some.inj h).symm,fun _ hi => nomatch hi⟩
  | cons x rest ih =>
    rw [scanCidr] at h
    by_cases hx : x = 0xff
    · rw [if_pos hx] at h
      obtain ⟨n,hn,rfl,hbytes⟩ := ih h
      refine ⟨n + 8,by rw [List.length_cons]; omega,by omega,fun i hi => ?_⟩
      cases i with
      | zero => rw [List.getElem?_cons_zero,hx,ones_of_le (by omega)]
      | succ i =>
        rw [List.getElem?_cons_succ,hbytes i (Nat.lt_of_succ_lt_succ hi)]
        congr 2
        omega
    · rw [if_neg hx] at h
      cases hbits : netmaskBits x with
      | none => rw [hbits] at h; exact nomatch h
      | some n =>
        obtain ⟨hn,hones⟩ := netmaskBits_ones hbits
        rw [hbits] at h
        dsimp only at h
        split_ifs at h with hrest
        refine ⟨n,by rw [List.length_cons]; omega,(Option.some.inj h).symm,fun i hi => ?_⟩
        cases i with
        | zero => rw [List.getElem?_cons_zero,hones]; rfl
        | succ i =>
          have hlt : i < rest.length := Nat.lt_of_succ_lt_succ hi
          have hzero := List.all_eq_true.mp hrest _ (List.getElem_mem hlt)
          rw [List.getElem?_cons_succ,List.getElem?_eq_getElem hlt,beq_iff_eq.mp hzero,
            Nat.sub_eq_zero_of_le (by omega)]
          rfl

theorem parseInt32_chars {str : Bytes} {n : ℤ} (h : parseInt32 str = some n) {c : UInt8}
    (hc : c ∈ str) : isDigit c = true ∨ c = 0x2d ∨ c = 0x2b := by
  rw [parseInt32] at h
  split_ifs at h with hpre
  dsimp only at h
  cases str with
  | nil => exact nomatch hc
  | cons d str =>
    rw [List.head?_cons,List.tail_cons] at h
    by_cases hsign : some d = some 0x2d ∨ some d = some 0x2b
    · rw [if_pos hsign] at h
      split_ifs at h with hdigits hneg
      all_goals
        obtain rfl | hmem := List.mem_cons.mp hc
        · exact .inr (hsign.imp Option.some.inj Option.some.inj)
        · exact .inl (List.all_eq_true.mp hdigits.2 c hmem)
    · rw [if_neg hsign] at h
      split_ifs at h with hdigits hneg
      all_goals exact .inl (List.all_eq_true.mp hdigits.2 c hc)

theorem parsePrechecks_digits {str : Bytes} (hne : str ≠ []) (h : str.all isDigit = true) :
    parsePrechecks str = true := by
  have hspace : ∀ c : Fin 256, isDigit (UInt8.ofNat c) = true →
      isspace (UInt8.ofNat c) = false ∧ UInt8.ofNat c ≠ 0 := by decide +kernel
  have hchar : ∀ c ∈ str, isspace c = false ∧ c ≠ 0 := fun c hc => by
    have hdigit := List.all_eq_true.mp h c hc
    rw [← UInt8.ofNat_toNat (x := c)] at hdigit ⊢
    exact hspace ⟨c.toNat,c.toNat_lt⟩ hdigit
  rw [parsePrechecks,List.head?_eq_some_head hne,List.getLast?_eq_some_getLast hne]
  dsimp only
  rw [(hchar _ (List.head_mem hne)).1,(hchar _ (List.getLast_mem hne)).1]
  have hnul : str.contains 0 = false := by
    rw [Bool.eq_false_iff,Ne,List.contains_iff_mem]
    exact fun hmem => (hchar 0 hmem).2 rfl
  rw [hnul]
  rfl

theorem parseInt32_digits {str : Bytes} {n : ℕ} (hne : str ≠ []) (h : str.all isDigit = true)
    (hvalue : accumulate 10 0 (str.map fun c => c.toNat - 0x30) = n) (hn : n < 2^31) :
    parseInt32 str = some (n : ℤ) := by
  have hhead : ∀ c : UInt8, isDigit c = false → str.head? ≠ some c := by
    intro c hc hhead
    rw [List.all_eq_true.mp h c (List.mem_of_mem_head? hhead)] at hc
    cases hc
  rw [parseInt32,if_pos (parsePrechecks_digits hne h)]
  dsimp only
  rw [if_neg (not_or.mpr ⟨hhead _ rfl,hhead _ rfl⟩),if_pos ⟨hne,h⟩,if_neg (hhead _ rfl),hvalue,
    if_pos (by omega)]

theorem parseInt32_numeralText {n : ℕ} (hn : n < 2^31) :
    parseInt32 (numeralText 10 n) = some (n : ℤ) := by
  have hdigit : ∀ d : Fin 10, (hexChar (UInt8.ofNat d)).toNat - 0x30 = d := by decide
  refine parseInt32_digits (numeralText_ne_nil 10 n)
    (all_numeralText (by decide) fun d hd => isDigit_hexChar hd) ?_ hn
  rw [numeralText,List.map_map]
  conv_rhs => rw [← accumulate_numeral 10 n]
  congr 1
  refine (List.map_congr_left fun d hd => ?_).trans (List.map_id _)
  exact hdigit ⟨d,numeral_lt (by decide) n d hd⟩

theorem parseInt32_none {str : Bytes} {c : UInt8} (hc : c ∈ str) (hdigit : isDigit c = false)
    (hminus : c ≠ 0x2d) (hplus : c ≠ 0x2b) : parseInt32 str = none := by
  cases h : parseInt32 str with
  | none => rfl
  | some n =>
    obtain hd | rfl | rfl := parseInt32_chars h hc
    · rw [hd] at hdigit
      cases hdigit
    · exact absurd rfl hminus
    · exact absurd rfl hplus

theorem findLastSlash_none {str : Bytes} (h : 0x2f ∉ str) : findLastSlash str = none := by
  induction str with
  | nil => rfl
  | cons c str ih =>
    rw [List.mem_cons,not_or] at h
    rw [findLastSlash,ih h.2]
    exact if_neg (Ne.symm h.1)

theorem findLastSlash_append (front : Bytes) {behind : Bytes} (h : 0x2f ∉ behind) :
    findLastSlash (front ++ 0x2f::behind) = some (front,behind) := by
  induction front with
  | nil =>
    rw [List.nil_append,findLastSlash,findLastSlash_none h]
    rfl
  | cons c front ih => rw [List.cons_append,findLastSlash,ih]

namespace CSubNet

variable (resolver : Resolver)

theorem numeric_strNetmask (s : CSubNet) : s.strNetmask.all numericChar = true := by
  rw [strNetmask]
  split
  · exact all_numeralText (by decide) fun d hd => numericChar_hexChar (by omega)
  · split_ifs
    · exact numeric_dotted s.netmask
    · exact numeric_groups s.netmask

/-- The first bytes of the mask are not shown for an IPv4 network. -/
theorem readNetmask_strNetmask (s : CSubNet) :
    readNetmask resolver s.network s.strNetmask =
      some fun x => if astartofs s.network ≤ x.val then s.netmask x else 255 := by
  have hstart : astartofs s.network ≤ 12 := by rw [astartofs]; split_ifs <;> omega
  rw [strNetmask]
  cases hscan : scanCidr ((List.ofFn s.netmask).drop (astartofs s.network)) 0 with
  | some cidr =>
    obtain ⟨n,hn,hcidr,hbytes⟩ := scanCidr_ones hscan
    rw [List.length_drop,List.length_ofFn] at hn hbytes
    rw [Nat.zero_add] at hcidr
    subst hcidr
    dsimp only
    rw [readNetmask,parseInt32_numeralText (by omega)]
    dsimp only
    rw [if_pos (by omega),Option.some_inj]
    refine funext fun x => ?_
    rw [clearBits_allOnes,Int.toNat_natCast]
    split_ifs with hx
    · have hbyte := hbytes (x.val - astartofs s.network) (by omega)
      rw [List.getElem?_drop,Nat.add_sub_cancel' hx,List.getElem?_ofFn,dif_pos x.isLt,
        Option.some_inj] at hbyte
      rw [show s.netmask x = ones (cidr - 8 * (x.val - astartofs s.network)) from hbyte]
      congr 1
      omega
    · exact ones_of_le (by omega)
  | none =>
    dsimp only
    by_cases hIPv4 : s.network.isIPv4 = true
    · rw [if_pos hIPv4,readNetmask,parseInt32_none (mem_dotted _) rfl (by decide) (by decide)]
      dsimp only
      rw [cstr_numeric (numeric_dotted _),resolver.lookupHost_dotted,astartofs,if_pos hIPv4,
        Option.map_some,Option.some_inj]
      refine funext fun x => ?_
      split_ifs with hx
      · exact if_neg (not_lt.mpr hx)
      · rfl
    · rw [if_neg hIPv4,readNetmask,parseInt32_none (mem_groups _) rfl (by decide) (by decide)]
      dsimp only
      rw [cstr_numeric (numeric_groups _),resolver.lookupHost_groups]
      rfl

theorem ofString_toString (s : CSubNet) :
    ofString resolver (s.toString resolver) false =
      normalized s.network (fun x => if astartofs s.network ≤ x.val then s.netmask x else 255)
        true := by
  obtain ⟨hcstr,hlookup⟩ := resolver.lookupHost_toStringIP s.network
  rw [ofString,toString,findLastSlash_append _ (not_mem_of_numeric s.numeric_strNetmask rfl)]
  dsimp only [Option.map_some,Option.getD_some]
  rw [hcstr,hlookup]
  dsimp only
  rw [readNetmask_strNetmask]

theorem roundTrip_iff {s : CSubNet} (hvalid : s.valid = true)
    (hnormal : maskIp s.network.ip s.netmask = s.network.ip) :
    ofString resolver (s.toString resolver) false = s ↔
      (s.network.isIPv4 = true → ∀ x : Fin 16, x.val < 12 → s.netmask x = 255) := by
  rw [ofString_toString]
  constructor
  · intro h hIPv4 x hx
    have hbyte := congrFun (congrArg CSubNet.netmask h) x
    rw [normalized,astartofs,if_pos hIPv4] at hbyte
    exact hbyte.symm.trans (if_neg (not_le.mpr hx))
  · intro h
    have hmask : (fun x : Fin 16 => if astartofs s.network ≤ x.val then s.netmask x else 255) =
        s.netmask := by
      refine funext fun x => ?_
      split_ifs with hx
      · rfl
      · rw [astartofs] at hx
        split_ifs at hx with hIPv4
        · exact (h hIPv4 x (not_le.mp hx)).symm
        · exact absurd (Nat.zero_le _) hx
    rw [hmask,normalized,hnormal,← hvalid]

theorem ofString_slash {str strAddress strNetmask : Bytes} {fAllowLookup : Bool}
    {network : CNetAddr} (hslash : findLastSlash str = some (strAddress,strNetmask))
    (hlookup : resolver.lookupHost (cstr strAddress) fAllowLookup = some network) :
    ofString resolver str fAllowLookup =
      match readNetmask resolver network strNetmask with
      | some netmask => normalized network netmask true
      | none => normalized network allOnes false := by
  rw [ofString,hslash]
  dsimp only [Option.map_some,Option.getD_some]
  rw [hlookup]

theorem ofString_valid {str : Bytes} {fAllowLookup : Bool}
    (h : (ofString resolver str fAllowLookup).valid = true) :
    ∃ network netmask, ofString resolver str fAllowLookup = normalized network netmask true ∧
      (netmask = allOnes ∨ ∃ strAddress strNetmask,
        findLastSlash str = some (strAddress,strNetmask) ∧
        resolver.lookupHost (cstr strAddress) fAllowLookup = some network ∧
        readNetmask resolver network strNetmask = some netmask) := by
  cases hslash : findLastSlash str with
  | none =>
    rw [ofString,hslash] at h ⊢
    dsimp only [Option.map_none,Option.getD_none] at h ⊢
    cases hlookup : resolver.lookupHost (cstr str) fAllowLookup with
    | none => rw [hlookup] at h; exact nomatch h
    | some network => exact ⟨network,allOnes,rfl,.inl rfl⟩
  | some parts =>
    obtain ⟨strAddress,strNetmask⟩ := parts
    cases hlookup : resolver.lookupHost (cstr strAddress) fAllowLookup with
    | none =>
      rw [ofString,hslash] at h
      dsimp only [Option.map_some,Option.getD_some] at h
      rw [hlookup] at h
      exact nomatch h
    | some network =>
      rw [ofString_slash resolver hslash hlookup] at h ⊢
      cases hmask : readNetmask resolver network strNetmask with
      | none => rw [hmask] at h; exact nomatch h
      | some netmask => exact ⟨network,netmask,rfl,.inr ⟨_,_,rfl,hlookup,hmask⟩⟩

end CSubNet

theorem maskIp_maskIp (ip netmask : IpBytes) :
    maskIp (maskIp ip netmask) netmask = maskIp ip netmask :=
  funext fun x => by rw [maskIp,maskIp,UInt8.and_assoc,UInt8.and_self]

/-- A full mask moves an address into the range of the IPv4 addresses. -/
def ChangesFamily (resolver : Resolver) (str : Bytes) (fAllowLookup : Bool) : Prop :=
  ∃ strAddress strNetmask network mask, findLastSlash str = some (strAddress,strNetmask) ∧
    resolver.lookupHost (cstr strAddress) fAllowLookup = some network ∧
    parseInt32 strNetmask = none ∧
    resolver.lookupHost (cstr strNetmask) false = some mask ∧
    network.isIPv4 = false ∧ CNetAddr.isIPv4 ⟨maskIp network.ip mask.ip⟩ = true

theorem prefix_keeps_family {network : CNetAddr} {n : ℕ}
    (h : CNetAddr.isIPv4 ⟨maskIp network.ip (clearBits allOnes n)⟩ = true) (x : Fin 16)
    (hx : x.val < 12) : clearBits allOnes n x = 255 := by
  have hbyte : network.ip 11 &&& clearBits allOnes n 11 = 255 :=
    CNetAddr.isIPv4_iff.mp h 11 (by decide)
  have hbit := congrArg (bitAt · 7) hbyte
  rw [bitAt_and,clearBits_allOnes,bitAt_ones _ (by decide),bitAt_255 (by decide),
    Bool.and_eq_true,decide_eq_true_iff] at hbit
  have hlong : 7 < n - 8 * 11 := hbit.2
  rw [clearBits_allOnes]
  exact ones_of_le (by omega)

theorem readNetmask_cases {resolver : Resolver} {network : CNetAddr} {strNetmask : Bytes}
    {netmask : IpBytes} (h : readNetmask resolver network strNetmask = some netmask) :
    (∃ n : ℤ, parseInt32 strNetmask = some n ∧ 0 ≤ n ∧
      netmask = clearBits allOnes (n.toNat + astartofs network * 8)) ∨
    (parseInt32 strNetmask = none ∧ ∃ mask,
      resolver.lookupHost (cstr strNetmask) false = some mask ∧
      netmask = fun x => if astartofs network ≤ x.val then mask.ip x else 255) := by
  rw [readNetmask] at h
  cases hparse : parseInt32 strNetmask with
  | some n =>
    rw [hparse] at h
    dsimp only at h
    split_ifs at h with hn
    exact .inl ⟨n,rfl,hn.1,(Option.some.inj h).symm⟩
  | none =>
    rw [hparse] at h
    obtain ⟨mask,hmask,rfl⟩ := Option.map_eq_some_iff.mp h
    exact .inr ⟨rfl,mask,hmask,rfl⟩

namespace CSubNet

variable (resolver : Resolver)

theorem roundTrip_iff_keeps {network : CNetAddr} {netmask : IpBytes} :
    ofString resolver ((normalized network netmask true).toString resolver) false =
        normalized network netmask true ↔
      (CNetAddr.isIPv4 ⟨maskIp network.ip netmask⟩ = true →
        ∀ x : Fin 16, x.val < 12 → netmask x = 255) :=
  roundTrip_iff resolver rfl (maskIp_maskIp network.ip netmask)

theorem roundTrip_of_not_changesFamily {str : Bytes} {fAllowLookup : Bool}
    (hkeeps : ¬ChangesFamily resolver str fAllowLookup)
    (hvalid : (ofString resolver str fAllowLookup).valid = true) :
    ofString resolver ((ofString resolver str fAllowLookup).toString resolver) false =
      ofString resolver str fAllowLookup := by
  obtain ⟨network,netmask,heq,hmask⟩ := ofString_valid resolver hvalid
  rw [heq]
  refine (roundTrip_iff_keeps resolver).mpr fun hIPv4 x hx => ?_
  obtain rfl | ⟨strAddress,strNetmask,hslash,hlookup,hread⟩ := hmask
  · rfl
  obtain ⟨n,-,-,rfl⟩ | ⟨hparse,mask,hmask,rfl⟩ := readNetmask_cases hread
  · exact prefix_keeps_family hIPv4 x hx
  · cases hfamily : network.isIPv4 with
    | true =>
      rw [astartofs,if_pos hfamily]
      exact if_neg (not_le.mpr hx)
    | false =>
      rw [astartofs,hfamily] at hIPv4
      exact absurd ⟨_,_,_,_,hslash,hlookup,hparse,hmask,hfamily,hIPv4⟩ hkeeps

theorem not_roundTrip_of_changesFamily {str : Bytes} {fAllowLookup : Bool}
    (hchanges : ChangesFamily resolver str fAllowLookup) :
    (ofString resolver str fAllowLookup).valid = true ∧
      ofString resolver ((ofString resolver str fAllowLookup).toString resolver) false ≠
        ofString resolver str fAllowLookup := by
  obtain ⟨_,strNetmask,network,mask,hslash,hlookup,hparse,hmask,hfamily,hIPv4⟩ := hchanges
  have hread : readNetmask resolver network strNetmask = some mask.ip := by
    rw [readNetmask,hparse]
    dsimp only
    rw [hmask,astartofs,hfamily]
    rfl
  have heq : ofString resolver str fAllowLookup = normalized network mask.ip true := by
    rw [ofString_slash resolver hslash hlookup,hread]
  rw [heq]
  refine ⟨rfl,fun hround => ?_⟩
  have hkeeps := (roundTrip_iff_keeps resolver).mp hround hIPv4
  -- a mask that keeps the first bytes cannot have changed the family
  have hsame : network.isIPv4 = true := by
    refine CNetAddr.isIPv4_iff.mpr fun x hx => ?_
    have hbyte : network.ip x &&& mask.ip x = pchIPv4.getD x.val 0 :=
      CNetAddr.isIPv4_iff.mp hIPv4 x hx
    rw [hkeeps x hx] at hbyte
    exact UInt8.and_neg_one.symm.trans hbyte
  rw [hfamily] at hsame
  exact nomatch hsame

end CSubNet

theorem bitOf_byte (ip : IpBytes) (x : Fin 16) {k : ℕ} (hk : k < 8) :
    bitOf ip (8 * x.val + k) = bitAt (ip x) k := by
  have hbyte : (8 * x.val + k) / 8 = x.val := by omega
  have hbit : (8 * x.val + k) % 8 = k := by omega
  have hlt : (8 * x.val + k) / 8 < 16 := by omega
  rw [bitOf,dif_pos hlt,hbit]
  congr 2
  exact Fin.ext hbyte

theorem bitOf_outside (ip : IpBytes) {i : ℕ} (h : 128 ≤ i) : bitOf ip i = false :=
  dif_neg (by omega)

theorem masked_eq_iff (a b : IpBytes) (n : ℕ) :
    (∀ x, a x &&& clearBits allOnes n x = maskIp b (clearBits allOnes n) x) ↔
      ∀ i < n, bitOf a i = bitOf b i := by
  constructor
  · intro h i hi
    by_cases hlt : i < 128
    · have hbit := congrArg (bitAt · (i % 8)) (h ⟨i / 8,by omega⟩)
      rw [maskIp,clearBits_allOnes] at hbit
      dsimp only at hbit
      rw [bitAt_and,bitAt_and,bitAt_ones _ (by omega),decide_eq_true (by omega),Bool.and_true,
        Bool.and_true,← bitOf_byte _ _ (by omega),← bitOf_byte _ _ (by omega)] at hbit
      dsimp only at hbit
      rw [Nat.div_add_mod] at hbit
      exact hbit
    · rw [bitOf_outside a (not_lt.mp hlt),bitOf_outside b (not_lt.mp hlt)]
  · intro h x
    refine byte_ext fun k hk => ?_
    rw [maskIp,bitAt_and,bitAt_and,clearBits_allOnes,bitAt_ones _ hk]
    by_cases hbit : 8 * x.val + k < n
    · rw [← bitOf_byte a x hk,← bitOf_byte b x hk,h _ hbit]
    · rw [decide_eq_false (by omega),Bool.and_false,Bool.and_false]

theorem isIPv4_agree {a b : CNetAddr} (hb : b.isIPv4 = true) :
    a.isIPv4 = true ↔ ∀ i < 96, bitOf a.ip i = bitOf b.ip i := by
  constructor
  · intro ha i hi
    have hbyte : a.ip ⟨i / 8,by omega⟩ = b.ip ⟨i / 8,by omega⟩ := by
      have hlt : i / 8 < 12 := by omega
      rw [CNetAddr.isIPv4_iff.mp ha _ hlt,CNetAddr.isIPv4_iff.mp hb _ hlt]
    rw [bitOf,bitOf,dif_pos (by omega),dif_pos (by omega),hbyte]
  · intro h
    refine CNetAddr.isIPv4_iff.mpr fun x hx => ?_
    rw [← CNetAddr.isIPv4_iff.mp hb x hx]
    refine byte_ext fun k hk => ?_
    rw [← bitOf_byte a.ip x hk,← bitOf_byte b.ip x hk]
    exact h _ (by omega)

namespace CSubNet

variable (resolver : Resolver)

theorem isMatch_normalized {network addr : CNetAddr} {netmask : IpBytes}
    (haddr : addr.isValid = true) :
    (normalized network netmask true).isMatch addr = true ↔
      ∀ x, addr.ip x &&& netmask x = maskIp network.ip netmask x := by
  rw [isMatch,haddr]
  exact decide_eq_true_iff

theorem isMatch_prefix {strAddress strNetmask : Bytes} {fAllowLookup : Bool}
    {network addr : CNetAddr} {n : ℤ}
    (hlookup : resolver.lookupHost (cstr strAddress) fAllowLookup = some network)
    (hparse : parseInt32 strNetmask = some n)
    (hvalid : (ofString resolver (strAddress ++ 0x2f::strNetmask) fAllowLookup).valid = true)
    (haddr : addr.isValid = true) :
    (ofString resolver (strAddress ++ 0x2f::strNetmask) fAllowLookup).isMatch addr = true ↔
      (network.isIPv4 = true → addr.isIPv4 = true) ∧ ∀ i : ℕ, (i : ℤ) < n →
        bitOf addr.ip (astartofs network * 8 + i) = bitOf network.ip (astartofs network * 8 + i) := by
  have hslash : 0x2f ∉ strNetmask := fun hmem => by
    rw [parseInt32_none hmem rfl (by decide) (by decide)] at hparse
    exact nomatch hparse
  rw [ofString_slash resolver (findLastSlash_append strAddress hslash) hlookup] at hvalid ⊢
  cases hread : readNetmask resolver network strNetmask with
  | none =>
    rw [hread] at hvalid
    exact nomatch hvalid
  | some netmask =>
    obtain ⟨m,hm,hpos,rfl⟩ | ⟨hnone,-⟩ := readNetmask_cases hread
    · rw [hparse,Option.some_inj] at hm
      subst hm
      dsimp only
      rw [isMatch_normalized haddr,masked_eq_iff]
      cases hfamily : network.isIPv4 with
      | true =>
        rw [astartofs,if_pos hfamily,isIPv4_agree hfamily]
        constructor
        · intro h
          exact ⟨fun _ i hi => h i (by omega),fun i hi => h _ (by omega)⟩
        · rintro ⟨hfirst,hrest⟩ i hi
          by_cases hlt : i < 96
          · exact hfirst rfl i hlt
          · have hbit := hrest (i - 96) (by omega)
            rw [Nat.add_sub_cancel' (not_lt.mp hlt)] at hbit
            exact hbit
      | false =>
        rw [astartofs,hfamily]
        constructor
        · intro h
          refine ⟨fun hcon => absurd hcon Bool.false_ne_true,fun i hi => h _ ?_⟩
          rw [if_neg Bool.false_ne_true]
          omega
        · rintro ⟨-,hrest⟩ i hi
          rw [if_neg Bool.false_ne_true,Nat.zero_mul,Nat.add_zero] at hi
          have hbit := hrest i (by omega)
          rw [if_neg Bool.false_ne_true,Nat.zero_mul,Nat.zero_add] at hbit
          exact hbit
    · rw [hparse] at hnone
      exact nomatch hnone

/-- A subnet comes back from the text that it is shown as, unless a full mask changed the family of
its address; and a prefix length is the number of bits of the address that a match agrees on. -/
theorem subnet_shown (str : Bytes) (fAllowLookup : Bool) :
    (((ofString resolver str fAllowLookup).valid = true →
        ofString resolver ((ofString resolver str fAllowLookup).toString resolver) false =
          ofString resolver str fAllowLookup) ↔
      ¬ChangesFamily resolver str fAllowLookup) ∧
    ∀ strAddress strNetmask network addr n, str = strAddress ++ 0x2f::strNetmask →
      resolver.lookupHost (cstr strAddress) fAllowLookup = some network →
      parseInt32 strNetmask = some n → (ofString resolver str fAllowLookup).valid = true →
      addr.isValid = true →
      ((ofString resolver str fAllowLookup).isMatch addr = true ↔
        (network.isIPv4 = true → addr.isIPv4 = true) ∧ ∀ i : ℕ, (i : ℤ) < n →
          bitOf addr.ip (astartofs network * 8 + i) =
            bitOf network.ip (astartofs network * 8 + i)) := by
  refine ⟨⟨fun hround hchanges => ?_,roundTrip_of_not_changesFamily resolver⟩,?_⟩
  · obtain ⟨hvalid,hne⟩ := not_roundTrip_of_changesFamily resolver hchanges
    exact hne (hround hvalid)
  · rintro strAddress strNetmask network addr n rfl hlookup hparse hvalid haddr
    exact isMatch_prefix resolver hlookup hparse hvalid haddr

/-- The network 1:0:0:0:0:ffff:102:304 under a mask without its first 16 bits is shown as the
address 1.2.3.4. -/
theorem shown_as_address :
    let s := ofString numericResolver
      (ascii "1:0:0:0:0:ffff:102:304/0:ffff:ffff:ffff:ffff:ffff:ffff:ffff") false
    s.valid = true ∧ s.toString numericResolver = ascii "1.2.3.4/32" ∧
      ofString numericResolver (s.toString numericResolver) false ≠ s := by
  intro s
  have hshown : s.toString numericResolver = ascii "1.2.3.4/32" := by decide
  refine ⟨by decide,hshown,fun hround => ?_⟩
  rw [hshown] at hround
  have hbyte := congrFun (congrArg CSubNet.netmask hround) 0
  exact absurd hbyte (by decide)

end CSubNet

end Sidechain.SubNet
