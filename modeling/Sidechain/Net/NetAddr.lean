import Sidechain.Library.Radix
import Sidechain.Primitives.Base64
import Sidechain.Primitives.Text
import Mathlib.Data.List.TakeWhile

/-! Network addresses of 16 bytes, IPv4 and onion addresses under prefixes of their own, and the
texts that stand for them. -/
namespace Sidechain.SubNet
open Radix

/-- The bytes of an address or of a mask, in network byte order. -/
abbrev IpBytes := Fin 16 → UInt8

structure CNetAddr where
  ip : IpBytes
  deriving DecidableEq

def pchIPv4 : Bytes := [0,0,0,0,0,0,0,0,0,0,0xff,0xff]
def pchOnionCat : Bytes := [0xfd,0x87,0xd8,0x7e,0xeb,0x43]

/-- `memcmp(ip, pch, sizeof(pch)) == 0`. -/
def beginsWith (ip : IpBytes) (pch : Bytes) : Bool := (List.ofFn ip).take pch.length == pch

namespace CNetAddr

def isIPv4 (a : CNetAddr) : Bool := beginsWith a.ip pchIPv4

def isTor (a : CNetAddr) : Bool := beginsWith a.ip pchOnionCat

def getByte (a : CNetAddr) (n : Fin 16) : UInt8 := a.ip n.rev

def isRFC3849 (a : CNetAddr) : Bool :=
  a.getByte 15 == 0x20 && a.getByte 14 == 0x01 && a.getByte 13 == 0x0d && a.getByte 12 == 0xb8

def isValid (a : CNetAddr) : Bool :=
  if beginsWith a.ip (pchIPv4.drop 3) then false
  else if a.ip = fun _ => 0 then false
  else if a.isRFC3849 then false
  else if a.isIPv4 && ((List.ofFn a.ip).drop 12 == [0xff,0xff,0xff,0xff] ||
    (List.ofFn a.ip).drop 12 == [0,0,0,0]) then false
  else true

end CNetAddr

/-- `CNetAddr(in_addr)`: the prefix, and four bytes. -/
def mappedIPv4 (ip : IpBytes) : CNetAddr where
  ip x := if x.val < 12 then pchIPv4.getD x.val 0 else ip x

theorem beginsWith_iff {ip : IpBytes} {pch : Bytes} (h : pch.length ≤ 16) :
    beginsWith ip pch = true ↔ ∀ x : Fin 16, x.val < pch.length → ip x = pch.getD x.val 0 := by
  have htake : ∀ x : Fin 16, x.val < pch.length →
      ((List.ofFn ip).take pch.length)[x.val]? = some (ip x) := by
    intro x hx
    rw [List.getElem?_take_of_lt hx,List.getElem?_ofFn,dif_pos x.isLt]
  rw [beginsWith,beq_iff_eq]
  constructor
  · intro heq x hx
    rw [List.getD_eq_getElem?_getD,← congrArg (·[x.val]?) heq,htake x hx]
    rfl
  · intro hall
    refine List.ext_getElem? fun i => ?_
    by_cases hi : i < pch.length
    · rw [htake ⟨i,hi.trans_le h⟩ hi,hall _ hi,List.getD_eq_getElem?_getD,
        List.getElem?_eq_getElem hi]
      rfl
    · rw [List.getElem?_take_eq_none (not_lt.mp hi),List.getElem?_eq_none (not_lt.mp hi)]

namespace CNetAddr

theorem isIPv4_iff {a : CNetAddr} :
    a.isIPv4 = true ↔ ∀ x : Fin 16, x.val < 12 → a.ip x = pchIPv4.getD x.val 0 :=
  beginsWith_iff (by decide)

theorem isTor_iff {a : CNetAddr} :
    a.isTor = true ↔ ∀ x : Fin 16, x.val < 6 → a.ip x = pchOnionCat.getD x.val 0 :=
  beginsWith_iff (by decide)

end CNetAddr

theorem mappedIPv4_isIPv4 (ip : IpBytes) : (mappedIPv4 ip).isIPv4 = true :=
  CNetAddr.isIPv4_iff.mpr fun _ hx => if_pos hx

theorem mappedIPv4_eq {a : CNetAddr} (h : a.isIPv4 = true) : mappedIPv4 a.ip = a := by
  refine congrArg CNetAddr.mk (funext fun x => ?_)
  split_ifs with hx
  · exact (CNetAddr.isIPv4_iff.mp h x hx).symm
  · rfl

/-- `%u` and `%x`. -/
def numeralText (b n : ℕ) : Bytes := (numeral b n).map fun d => hexChar (UInt8.ofNat d)

/-- `strprintf("%u.%u.%u.%u", ...)` of the last four bytes. -/
def dotted (ip : IpBytes) : Bytes :=
  [0x2e].intercalate (List.ofFn fun i : Fin 4 => numeralText 10 (ip (i.natAdd 12)).toNat)

/-- Two bytes of the sixteen. -/
def group (ip : IpBytes) (i : Fin 8) : ℕ :=
  (ip ⟨2 * i,by omega⟩).toNat <<< 8 ||| (ip ⟨2 * i + 1,by omega⟩).toNat

/-- `strprintf("%x:%x:%x:%x:%x:%x:%x:%x", ...)`. -/
def groups (ip : IpBytes) : Bytes :=
  [0x3a].intercalate (List.ofFn fun i => numeralText 16 (group ip i))

/-- The text ".onion". -/
def onionSuffix : Bytes := [0x2e,0x6f,0x6e,0x69,0x6f,0x6e]

/-- `c_str()`. -/
def cstr (s : Bytes) : Bytes := s.takeWhile (· != 0)

namespace CNetAddr

/-- `SetSpecial`. -/
def setSpecial (strName : Bytes) : Option CNetAddr :=
  if 6 < strName.length ∧ strName.drop (strName.length - 6) = onionSuffix then
    let vchAddr := (decodeBase32 (cstr (strName.take (strName.length - 6)))).1
    if vchAddr.length ≠ 16 - pchOnionCat.length then none
    else some ⟨fun x => (pchOnionCat ++ vchAddr).getD x.val 0⟩
  else none

/-- `ToStringIP`; `getnameinfo` has a name for an address or fails. -/
def toStringIP (getnameinfo : CNetAddr → Option Bytes) (a : CNetAddr) : Bytes :=
  if a.isTor then encodeBase32 ((List.ofFn a.ip).drop 6) ++ onionSuffix
  else
    match getnameinfo a with
    | some name => name
    | none => if a.isIPv4 then dotted a.ip else groups a.ip

end CNetAddr

/-- A digit, a point or a colon: the characters of an address in numbers. -/
def numericChar (c : UInt8) : Bool := (hexDigit c).isSome || c == 0x2e || c == 0x3a

/-- `getaddrinfo` with the first address that it finds, and `getnameinfo`. An address in numbers
stands for itself, as does the name in numbers that an address has. -/
structure Resolver where
  getaddrinfo : Bytes → Bool → Option CNetAddr
  getnameinfo : CNetAddr → Option Bytes
  getaddrinfo_dotted : ∀ ip, getaddrinfo (dotted ip) false = some (mappedIPv4 ip)
  getaddrinfo_groups : ∀ ip, getaddrinfo (groups ip) false = some ⟨ip⟩
  getaddrinfo_name : ∀ a name, getnameinfo a = some name → getaddrinfo name false = some a
  numeric_name : ∀ a name, getnameinfo a = some name → name ≠ [] ∧ name.all numericChar

namespace Resolver

variable (resolver : Resolver)

/-- `LookupIntern`, for one solution. -/
def lookupIntern (pszName : Bytes) (fAllowLookup : Bool) : Option CNetAddr :=
  match CNetAddr.setSpecial pszName with
  | some addr => some addr
  | none => resolver.getaddrinfo pszName fAllowLookup

/-- `LookupHost`, for a name without its NUL. -/
def lookupHost (pszName : Bytes) (fAllowLookup : Bool) : Option CNetAddr :=
  if pszName = [] then none
  else if pszName.head? = some 0x5b ∧ pszName.getLast? = some 0x5d then
    resolver.lookupIntern pszName.tail.dropLast fAllowLookup
  else resolver.lookupIntern pszName fAllowLookup

end Resolver

theorem mem_intercalate {c d : UInt8} {ls : List Bytes} (h : c ∈ [d].intercalate ls) :
    c = d ∨ ∃ l ∈ ls, c ∈ l := by
  induction ls with
  | nil => exact nomatch h
  | cons l ls ih =>
    cases ls with
    | nil =>
      rw [List.intercalate_singleton] at h
      exact .inr ⟨l,List.mem_singleton_self l,h⟩
    | cons l' ls =>
      rw [List.intercalate_cons_cons,List.mem_append,List.mem_append,List.mem_singleton] at h
      obtain (h | h) | h := h
      · exact .inr ⟨l,List.mem_cons_self,h⟩
      · exact .inl h
      · exact (ih h).imp_right fun ⟨l'',hl'',hc⟩ => ⟨l'',List.mem_cons_of_mem l hl'',hc⟩

theorem hexDigit_hexChar {d : ℕ} (hd : d < 16) :
    hexDigit (hexChar (UInt8.ofNat d)) = some (UInt8.ofNat d) := by
  have hall : ∀ d : Fin 16, hexDigit (hexChar (UInt8.ofNat d.val)) = some (UInt8.ofNat d.val) := by
    decide
  exact hall ⟨d,hd⟩

theorem isDigit_hexChar {d : ℕ} (hd : d < 10) : isDigit (hexChar (UInt8.ofNat d)) = true := by
  have hall : ∀ d : Fin 10, isDigit (hexChar (UInt8.ofNat d.val)) = true := by decide
  exact hall ⟨d,hd⟩

theorem all_numeralText {b n : ℕ} {p : UInt8 → Bool} (hb : 1 < b)
    (h : ∀ d < b, p (hexChar (UInt8.ofNat d)) = true) : (numeralText b n).all p = true := by
  refine List.all_eq_true.mpr fun c hc => ?_
  obtain ⟨d,hd,rfl⟩ := List.mem_map.mp hc
  exact h d (numeral_lt hb n d hd)

theorem numeralText_ne_nil (b n : ℕ) : numeralText b n ≠ [] :=
  fun h => numeral_ne_nil b n (List.map_eq_nil_iff.mp h)

theorem numericChar_hexChar {d : ℕ} (hd : d < 16) : numericChar (hexChar (UInt8.ofNat d)) = true := by
  rw [numericChar,hexDigit_hexChar hd]
  rfl

theorem all_intercalate {p : UInt8 → Bool} {d : UInt8} {ls : List Bytes} (hd : p d = true)
    (h : ∀ l ∈ ls, l.all p = true) : ([d].intercalate ls).all p = true := by
  refine List.all_eq_true.mpr fun c hc => ?_
  obtain rfl | ⟨l,hl,hcl⟩ := mem_intercalate hc
  · exact hd
  · exact List.all_eq_true.mp (h l hl) c hcl

theorem numeric_dotted (ip : IpBytes) : (dotted ip).all numericChar = true := by
  refine all_intercalate rfl fun l hl => ?_
  obtain ⟨i,rfl⟩ := List.mem_ofFn.mp hl
  exact all_numeralText (by decide) fun d hd => numericChar_hexChar (by omega)

theorem numeric_groups (ip : IpBytes) : (groups ip).all numericChar = true := by
  refine all_intercalate rfl fun l hl => ?_
  obtain ⟨i,rfl⟩ := List.mem_ofFn.mp hl
  exact all_numeralText (by decide) fun d hd => numericChar_hexChar hd

theorem mem_dotted (ip : IpBytes) : 0x2e ∈ dotted ip := by
  rw [dotted,List.ofFn_succ,List.ofFn_succ,List.intercalate_cons_cons]
  exact List.mem_append_left _ (List.mem_append_right _ (List.mem_singleton_self _))

theorem mem_groups (ip : IpBytes) : 0x3a ∈ groups ip := by
  rw [groups,List.ofFn_succ,List.ofFn_succ,List.intercalate_cons_cons]
  exact List.mem_append_left _ (List.mem_append_right _ (List.mem_singleton_self _))

theorem not_mem_of_numeric {text : Bytes} (h : text.all numericChar = true) {c : UInt8}
    (hc : numericChar c = false) : c ∉ text := by
  intro hmem
  rw [List.all_eq_true.mp h c hmem] at hc
  cases hc

theorem not_mem_encodeBase32 (pch : Bytes) : 0 ∉ encodeBase32 pch := by
  obtain ⟨ds,r,hencode,-,-,hds⟩ := BaseCode.Laws.encode_eq BaseCode.base32_laws pch
  rw [encodeBase32,hencode,List.mem_append]
  rintro (hmem | hmem)
  · obtain ⟨d,hd,hzero⟩ := List.mem_map.mp hmem
    have hall : ∀ d : Fin 32, base32.char d.val ≠ 0 := by decide
    exact hall ⟨d,hds d hd⟩ hzero
  · exact absurd (List.mem_replicate.mp hmem).2 (by decide)

theorem cstr_eq {s : Bytes} (h : 0 ∉ s) : cstr s = s :=
  List.takeWhile_eq_self_iff.mpr fun _ hc => bne_iff_ne.mpr fun hzero => h (hzero ▸ hc)

theorem cstr_numeric {text : Bytes} (h : text.all numericChar = true) : cstr text = text :=
  cstr_eq (not_mem_of_numeric h rfl)

theorem setSpecial_numeric {text : Bytes} (h : text.all numericChar = true) :
    CNetAddr.setSpecial text = none := by
  refine if_neg fun ⟨_,hsuffix⟩ => not_mem_of_numeric h (c := 0x6f) rfl ?_
  have hmem : 0x6f ∈ text.drop (text.length - 6) := by
    rw [hsuffix]
    decide
  exact List.mem_of_mem_drop hmem

theorem setSpecial_onion {a : CNetAddr} (h : a.isTor = true) :
    CNetAddr.setSpecial (encodeBase32 ((List.ofFn a.ip).drop 6) ++ onionSuffix) = some a := by
  generalize hvch : (List.ofFn a.ip).drop 6 = vchAddr
  have hlength : vchAddr.length = 16 - pchOnionCat.length := by
    rw [← hvch,List.length_drop,List.length_ofFn]
    rfl
  have hdecode : decodeBase32 (encodeBase32 vchAddr) = (vchAddr,false) :=
    BaseCode.decodeBase32_iff.mpr
      ⟨_,[],(List.append_nil _).symm,BaseCode.encodeBase32_lower _,fun _ hc => nomatch hc⟩
  have hne : encodeBase32 vchAddr ≠ [] := by
    intro hnil
    rw [hnil] at hdecode
    have hempty : ([] : Bytes) = vchAddr := congrArg Prod.fst hdecode
    rw [← hempty] at hlength
    exact nomatch hlength
  have hcut : (encodeBase32 vchAddr ++ onionSuffix).length - 6 = (encodeBase32 vchAddr).length := by
    rw [List.length_append]
    rfl
  have hlong : 6 < (encodeBase32 vchAddr ++ onionSuffix).length := by
    have hpos := List.length_pos_iff.mpr hne
    omega
  rw [CNetAddr.setSpecial,hcut,List.drop_left,List.take_left,if_pos ⟨hlong,rfl⟩,
    cstr_eq (not_mem_encodeBase32 vchAddr),hdecode]
  dsimp only
  rw [if_neg (not_not.mpr hlength),Option.some_inj]
  refine congrArg CNetAddr.mk (funext fun x => ?_)
  rw [List.getD_eq_getElem?_getD]
  by_cases hx : x.val < pchOnionCat.length
  · rw [List.getElem?_append_left hx,← List.getD_eq_getElem?_getD]
    exact (CNetAddr.isTor_iff.mp h x hx).symm
  · rw [List.getElem?_append_right (not_lt.mp hx),← hvch,List.getElem?_drop]
    have hx' : 6 + (x.val - pchOnionCat.length) = x.val := Nat.add_sub_cancel' (not_lt.mp hx)
    rw [hx',List.getElem?_ofFn,dif_pos x.isLt]
    rfl

namespace Resolver

variable (resolver : Resolver)

theorem lookupHost_numeric {text : Bytes} (hne : text ≠ []) (h : text.all numericChar = true)
    (fAllowLookup : Bool) :
    resolver.lookupHost text fAllowLookup = resolver.getaddrinfo text fAllowLookup := by
  have hbracket : ¬(text.head? = some 0x5b ∧ text.getLast? = some 0x5d) := fun hcon =>
    not_mem_of_numeric h (c := 0x5b) rfl (List.mem_of_mem_head? hcon.1)
  rw [lookupHost,if_neg hne,if_neg hbracket,lookupIntern,setSpecial_numeric h]

theorem lookupHost_dotted (ip : IpBytes) :
    resolver.lookupHost (dotted ip) false = some (mappedIPv4 ip) := by
  rw [resolver.lookupHost_numeric (List.ne_nil_of_mem (mem_dotted ip)) (numeric_dotted ip),
    resolver.getaddrinfo_dotted]

theorem lookupHost_groups (ip : IpBytes) : resolver.lookupHost (groups ip) false = some ⟨ip⟩ := by
  rw [resolver.lookupHost_numeric (List.ne_nil_of_mem (mem_groups ip)) (numeric_groups ip),
    resolver.getaddrinfo_groups]

theorem lookupHost_onion {a : CNetAddr} (h : a.isTor = true) (fAllowLookup : Bool) :
    resolver.lookupHost (encodeBase32 ((List.ofFn a.ip).drop 6) ++ onionSuffix) fAllowLookup =
      some a := by
  have hne : encodeBase32 ((List.ofFn a.ip).drop 6) ++ onionSuffix ≠ [] :=
    List.append_ne_nil_of_right_ne_nil _ (List.cons_ne_nil _ _)
  rw [lookupHost,if_neg hne,if_neg,lookupIntern,setSpecial_onion h]
  rintro ⟨-,hlast⟩
  rw [List.getLast?_append] at hlast
  exact nomatch hlast

theorem lookupHost_toStringIP (a : CNetAddr) :
    cstr (a.toStringIP resolver.getnameinfo) = a.toStringIP resolver.getnameinfo ∧
      resolver.lookupHost (a.toStringIP resolver.getnameinfo) false = some a := by
  rw [CNetAddr.toStringIP]
  by_cases htor : a.isTor = true
  · rw [if_pos htor]
    refine ⟨cstr_eq ?_,resolver.lookupHost_onion htor false⟩
    rw [List.mem_append]
    rintro (hmem | hmem)
    · exact not_mem_encodeBase32 _ hmem
    · exact absurd hmem (by decide)
  · rw [if_neg htor]
    cases hname : resolver.getnameinfo a with
    | some name =>
      obtain ⟨hne,hnumeric⟩ := resolver.numeric_name a name hname
      refine ⟨cstr_numeric hnumeric,?_⟩
      rw [resolver.lookupHost_numeric hne hnumeric,resolver.getaddrinfo_name a name hname]
    | none =>
      dsimp only
      split_ifs with hIPv4
      · refine ⟨cstr_numeric (numeric_dotted a.ip),?_⟩
        rw [resolver.lookupHost_dotted,mappedIPv4_eq hIPv4]
      · exact ⟨cstr_numeric (numeric_groups a.ip),resolver.lookupHost_groups a.ip⟩

end Resolver

def numeralValue (b : ℕ) (text : Bytes) : ℕ :=
  accumulate b 0 (text.map fun c => ((hexDigit c).getD 0).toNat)

/-- The address that is written as the text, if there is one. -/
def numericAddress (text : Bytes) : CNetAddr :=
  if 0x3a ∈ text then
    let vs := (text.splitOn 0x3a).map (numeralValue 16)
    ⟨fun x => UInt8.ofNat (vs.getD (x.val / 2) 0 / 256^(1 - x.val % 2))⟩
  else
    let vs := (text.splitOn 0x2e).map (numeralValue 10)
    mappedIPv4 fun x => UInt8.ofNat (vs.getD (x.val - 12) 0)

theorem numeralValue_numeralText {b : ℕ} (hb : 1 < b) (hb' : b ≤ 16) (n : ℕ) :
    numeralValue b (numeralText b n) = n := by
  rw [numeralValue,numeralText,List.map_map]
  conv_rhs => rw [← accumulate_numeral b n]
  congr 1
  refine (List.map_congr_left fun d hd => ?_).trans (List.map_id _)
  have hd16 : d < 16 := (numeral_lt hb n d hd).trans_le hb'
  rw [Function.comp_apply,hexDigit_hexChar hd16,Option.getD_some,id_eq]
  exact UInt8.toNat_ofNat_of_lt' (hd16.trans (by decide))

theorem not_mem_numeralText {b n : ℕ} {c : UInt8} (hb : 1 < b) (hb' : b ≤ 16)
    (hc : hexDigit c = none) : c ∉ numeralText b n := by
  intro hmem
  obtain ⟨d,hd,rfl⟩ := List.mem_map.mp hmem
  rw [hexDigit_hexChar ((numeral_lt hb n d hd).trans_le hb')] at hc
  exact nomatch hc

theorem splitOn_numerals {b n : ℕ} {d : UInt8} (hb : 1 < b) (hb' : b ≤ 16)
    (hd : hexDigit d = none) (f : Fin (n + 1) → ℕ) :
    (([d].intercalate (List.ofFn fun i => numeralText b (f i))).splitOn d).map (numeralValue b) =
      List.ofFn f := by
  have habsent : ∀ l ∈ List.ofFn fun i => numeralText b (f i), d ∉ l := by
    intro l hl
    obtain ⟨i,rfl⟩ := List.mem_ofFn.mp hl
    exact not_mem_numeralText hb hb' hd
  rw [List.splitOn_intercalate d habsent (by rw [List.ofFn_succ]; exact List.cons_ne_nil _ _),
    List.map_ofFn]
  exact congrArg List.ofFn (funext fun i => numeralValue_numeralText hb hb' (f i))

theorem group_eq (ip : IpBytes) (i : Fin 8) :
    group ip i = (ip ⟨2 * i,by omega⟩).toNat * 256 + (ip ⟨2 * i + 1,by omega⟩).toNat := by
  rw [group,← Nat.shiftLeft_add_eq_or_of_lt (ip ⟨2 * i + 1,by omega⟩).toNat_lt,Nat.shiftLeft_eq]

theorem byte_of_group (ip : IpBytes) (x : Fin 16) :
    UInt8.ofNat (group ip ⟨x.val / 2,by omega⟩ / 256^(1 - x.val % 2)) = ip x := by
  refine UInt8.toNat_inj.mp ?_
  rw [UInt8.toNat_ofNat',group_eq]
  dsimp only
  obtain h | h := Nat.mod_two_eq_zero_or_one x.val
  · have hx : (⟨2 * (x.val / 2),by omega⟩ : Fin 16) = x := Fin.ext (by dsimp only; omega)
    have hlt := (ip ⟨2 * (x.val / 2) + 1,by omega⟩).toNat_lt
    have hlt' := (ip x).toNat_lt
    rw [hx,h,Nat.sub_zero,pow_one]
    omega
  · have hx : (⟨2 * (x.val / 2) + 1,by omega⟩ : Fin 16) = x := Fin.ext (by dsimp only; omega)
    have hlt := (ip x).toNat_lt
    rw [hx,h,Nat.sub_self,pow_zero,Nat.div_one]
    omega

theorem numericAddress_groups (ip : IpBytes) : numericAddress (groups ip) = ⟨ip⟩ := by
  rw [numericAddress,if_pos (mem_groups ip)]
  dsimp only
  rw [groups,splitOn_numerals (by decide) (by decide) rfl]
  refine congrArg CNetAddr.mk (funext fun x => ?_)
  rw [List.getD_eq_getElem?_getD,List.getElem?_ofFn,dif_pos (by omega),Option.getD_some]
  exact byte_of_group ip x

theorem numericAddress_dotted (ip : IpBytes) : numericAddress (dotted ip) = mappedIPv4 ip := by
  have hcolon : 0x3a ∉ dotted ip := by
    intro hmem
    obtain h | ⟨l,hl,hmem⟩ := mem_intercalate hmem
    · exact nomatch h
    obtain ⟨i,rfl⟩ := List.mem_ofFn.mp hl
    exact not_mem_numeralText (by decide) (by decide) rfl hmem
  rw [numericAddress,if_neg hcolon]
  dsimp only
  rw [dotted,splitOn_numerals (by decide) (by decide) rfl]
  refine congrArg CNetAddr.mk (funext fun x => ?_)
  split_ifs with hx
  · rfl
  · have hx' : Fin.natAdd 12 (⟨x.val - 12,by omega⟩ : Fin 4) = x :=
      Fin.ext (Nat.add_sub_cancel' (not_lt.mp hx))
    dsimp only
    rw [List.getD_eq_getElem?_getD,List.getElem?_ofFn,dif_pos (by omega),Option.getD_some,hx',
      UInt8.ofNat_toNat]

theorem dotted_mappedIPv4 (ip : IpBytes) : dotted (mappedIPv4 ip).ip = dotted ip := by
  have hbyte : ∀ i : Fin 4, (mappedIPv4 ip).ip (i.natAdd 12) = ip (i.natAdd 12) :=
    fun i => if_neg (not_lt.mpr (Nat.le_add_right 12 i.val))
  rw [dotted,dotted]
  simp only [hbyte]

/-- Nothing has a name, and a text stands for an address if the address is written so. -/
def numericResolver : Resolver where
  getaddrinfo text _ :=
    let a := numericAddress text
    if text = dotted a.ip ∧ a.isIPv4 ∨ text = groups a.ip then some a else none
  getnameinfo _ := none
  getaddrinfo_dotted ip := by
    rw [numericAddress_dotted]
    exact if_pos (.inl ⟨(dotted_mappedIPv4 ip).symm,mappedIPv4_isIPv4 ip⟩)
  getaddrinfo_groups ip := by
    rw [numericAddress_groups]
    exact if_pos (.inr rfl)
  getaddrinfo_name _ _ h := nomatch h
  numeric_name _ _ h := nomatch h

end Sidechain.SubNet
