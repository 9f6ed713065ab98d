import Sidechain.Library.Radix
import Sidechain.Primitives.Text
import Mathlib.Tactic.IntervalCases

/-! Bytes as texts in base 64 and in base 32: each is an alphabet with rounds that deal out the bits,
and the padding that each mode at the end asks for. -/
namespace Sidechain
open Radix Regroup

structure BaseCode where
  width : ℕ
  alphabet : Bytes
  table : List ℤ
  encodeRound : ℕ → ℕ → ℕ → Round
  nPadding : ℕ → ℕ
  decodeRound : ℕ → ℕ → ℕ → Round
  /-- How many `=` a mode at the end requires; none if it is impossible. -/
  required : ℕ → Option ℕ

namespace BaseCode

def char (code : BaseCode) (d : ℕ) : UInt8 := code.alphabet.getD d 0

/-- The entry of the table, unless it is -1. -/
def digit (code : BaseCode) (c : UInt8) : Option ℕ :=
  match code.table[c.toNat]? with
  | some (Int.ofNat d) => some d
  | _ => none

def encode (code : BaseCode) (pch : Bytes) : Bytes :=
  let s := run code.encodeRound ⟨[],0,0⟩ (pch.map UInt8.toNat)
  s.out.map code.char ++
    if s.mode = 0 then [] else code.char s.left :: List.replicate (code.nPadding s.mode) 0x3d

/-- The digits up to the first character that is none, and the characters from there on. -/
def digits (code : BaseCode) : Bytes → List ℕ × Bytes
  | [] => ([],[])
  | c::p =>
    match code.digit c with
    | none => ([],c::p)
    | some dec => (dec::(code.digits p).1,(code.digits p).2)

/-- `*pfInvalid`, for the mode and the bits that are left and the characters from the first that is
no digit. -/
def invalid (code : BaseCode) (mode left : ℕ) (p : Bytes) : Bool :=
  match code.required mode with
  | none => true
  | some 0 => false
  | some n => left != 0 || (List.range n).any (fun i => p.getD i 0 != 0x3d) ||
    (code.digit (p.getD n 0)).isSome

/-- What is decoded, with `*pfInvalid`. The end of the text reads as a zero, which is no digit. -/
def decode (code : BaseCode) (p : Bytes) : Bytes × Bool :=
  let s := run code.decodeRound ⟨[],0,0⟩ (code.digits p).1
  (s.out.map UInt8.ofNat,code.invalid s.mode s.left (code.digits p).2)

end BaseCode

def pbase64 : Bytes :=
  ['A','B','C','D','E','F','G','H','I','J','K','L','M','N','O','P','Q','R','S','T','U','V','W','X',
    'Y','Z','a','b','c','d','e','f','g','h','i','j','k','l','m','n','o','p','q','r','s','t','u','v',
    'w','x','y','z','0','1','2','3','4','5','6','7','8','9','+','/'].map Char.toUInt8

def decode64_table : List ℤ :=
  [-1,-1,-1,-1,-1,-1,-1,-1,-1,-1,-1,-1,-1,-1,-1,-1,-1,-1,-1,-1,
    -1,-1,-1,-1,-1,-1,-1,-1,-1,-1,-1,-1,-1,-1,-1,-1,-1,-1,-1,-1,
    -1,-1,-1,62,-1,-1,-1,63,52,53,54,55,56,57,58,59,60,61,-1,-1,
    -1,-1,-1,-1,-1,0,1,2,3,4,5,6,7,8,9,10,11,12,13,14,
    15,16,17,18,19,20,21,22,23,24,25,-1,-1,-1,-1,-1,-1,26,27,28,
    29,30,31,32,33,34,35,36,37,38,39,40,41,42,43,44,45,46,47,48,
    49,50,51,-1,-1,-1,-1,-1,-1,-1,-1,-1,-1,-1,-1,-1,-1,-1,-1,-1,
    -1,-1,-1,-1,-1,-1,-1,-1,-1,-1,-1,-1,-1,-1,-1,-1,-1,-1,-1,-1,
    -1,-1,-1,-1,-1,-1,-1,-1,-1,-1,-1,-1,-1,-1,-1,-1,-1,-1,-1,-1,
    -1,-1,-1,-1,-1,-1,-1,-1,-1,-1,-1,-1,-1,-1,-1,-1,-1,-1,-1,-1,
    -1,-1,-1,-1,-1,-1,-1,-1,-1,-1,-1,-1,-1,-1,-1,-1,-1,-1,-1,-1,
    -1,-1,-1,-1,-1,-1,-1,-1,-1,-1,-1,-1,-1,-1,-1,-1,-1,-1,-1,-1,
    -1,-1,-1,-1,-1,-1,-1,-1,-1,-1,-1,-1,-1,-1,-1,-1]

def encode64Round (mode left enc : ℕ) : Round :=
  match mode with
  | 0 => ⟨[enc >>> 2],1,(enc &&& 3) <<< 4⟩
  | 1 => ⟨[left ||| (enc >>> 4)],2,(enc &&& 15) <<< 2⟩
  | 2 => ⟨[left ||| (enc >>> 6),enc &&& 63],0,left⟩
  | _ => ⟨[],mode,left⟩

def decode64Round (mode left dec : ℕ) : Round :=
  match mode with
  | 0 => ⟨[],1,dec⟩
  | 1 => ⟨[(left <<< 2) ||| (dec >>> 4)],2,dec &&& 15⟩
  | 2 => ⟨[(left <<< 4) ||| (dec >>> 2)],3,dec &&& 3⟩
  | 3 => ⟨[(left <<< 6) ||| dec],0,left⟩
  | _ => ⟨[],mode,left⟩

def base64 : BaseCode where
  width := 6
  alphabet := pbase64
  table := decode64_table
  encodeRound := encode64Round
  nPadding mode := if mode = 1 then 2 else 1
  decodeRound := decode64Round
  required mode :=
    match mode with
    | 0 => some 0
    | 1 => none
    | 2 => some 2
    | 3 => some 1
    | _ => some 0

def encodeBase64 (pch : Bytes) : Bytes := base64.encode pch
def decodeBase64 (p : Bytes) : Bytes × Bool := base64.decode p

def pbase32 : Bytes :=
  ['a','b','c','d','e','f','g','h','i','j','k','l','m','n','o','p','q','r','s','t','u','v','w','x',
    'y','z','2','3','4','5','6','7'].map Char.toUInt8

def decode32_table : List ℤ :=
  [-1,-1,-1,-1,-1,-1,-1,-1,-1,-1,-1,-1,-1,-1,-1,-1,-1,-1,-1,-1,
    -1,-1,-1,-1,-1,-1,-1,-1,-1,-1,-1,-1,-1,-1,-1,-1,-1,-1,-1,-1,
    -1,-1,-1,-1,-1,-1,-1,-1,-1,-1,26,27,28,29,30,31,-1,-1,-1,-1,
    -1,-1,-1,-1,-1,0,1,2,3,4,5,6,7,8,9,10,11,12,13,14,
    15,16,17,18,19,20,21,22,23,24,25,-1,-1,-1,-1,-1,-1,0,1,2,
    3,4,5,6,7,8,9,10,11,12,13,14,15,16,17,18,19,20,21,22,
    23,24,25,-1,-1,-1,-1,-1,-1,-1,-1,-1,-1,-1,-1,-1,-1,-1,-1,-1,
    -1,-1,-1,-1,-1,-1,-1,-1,-1,-1,-1,-1,-1,-1,-1,-1,-1,-1,-1,-1,
    -1,-1,-1,-1,-1,-1,-1,-1,-1,-1,-1,-1,-1,-1,-1,-1,-1,-1,-1,-1,
    -1,-1,-1,-1,-1,-1,-1,-1,-1,-1,-1,-1,-1,-1,-1,-1,-1,-1,-1,-1,
    -1,-1,-1,-1,-1,-1,-1,-1,-1,-1,-1,-1,-1,-1,-1,-1,-1,-1,-1,-1,
    -1,-1,-1,-1,-1,-1,-1,-1,-1,-1,-1,-1,-1,-1,-1,-1,-1,-1,-1,-1,
    -1,-1,-1,-1,-1,-1,-1,-1,-1,-1,-1,-1,-1,-1,-1,-1]

def encode32Round (mode left enc : ℕ) : Round :=
  match mode with
  | 0 => ⟨[enc >>> 3],1,(enc &&& 7) <<< 2⟩
  | 1 => ⟨[left ||| (enc >>> 6),(enc >>> 1) &&& 31],2,(enc &&& 1) <<< 4⟩
  | 2 => ⟨[left ||| (enc >>> 4)],3,(enc &&& 15) <<< 1⟩
  | 3 => ⟨[left ||| (enc >>> 7),(enc >>> 2) &&& 31],4,(enc &&& 3) <<< 3⟩
  | 4 => ⟨[left ||| (enc >>> 5),enc &&& 31],0,left⟩
  | _ => ⟨[],mode,left⟩

def decode32Round (mode left dec : ℕ) : Round :=
  match mode with
  | 0 => ⟨[],1,dec⟩
  | 1 => ⟨[(left <<< 3) ||| (dec >>> 2)],2,dec &&& 3⟩
  | 2 => ⟨[],3,(left <<< 5) ||| dec⟩
  | 3 => ⟨[(left <<< 1) ||| (dec >>> 4)],4,dec &&& 15⟩
  | 4 => ⟨[(left <<< 4) ||| (dec >>> 1)],5,dec &&& 1⟩
  | 5 => ⟨[],6,(left <<< 5) ||| dec⟩
  | 6 => ⟨[(left <<< 2) ||| (dec >>> 3)],7,dec &&& 7⟩
  | 7 => ⟨[(left <<< 5) ||| dec],0,left⟩
  | _ => ⟨[],mode,left⟩

def base32 : BaseCode where
  width := 5
  alphabet := pbase32
  table := decode32_table
  encodeRound := encode32Round
  nPadding mode := [0,6,4,3,1].getD mode 0
  decodeRound := decode32Round
  required mode :=
    match mode with
    | 0 => some 0
    | 1 => none
    | 2 => some 6
    | 3 => none
    | 4 => some 4
    | 5 => some 3
    | 6 => none
    | 7 => some 1
    | _ => some 0

def encodeBase32 (pch : Bytes) : Bytes := base32.encode pch
def decodeBase32 (p : Bytes) : Bytes × Bool := base32.decode p

namespace BaseCode

/-- In a mode so many bits are pending, shifted up in `left`; nothing is pending in mode 0, whatever
is left. -/
structure Held (bits shift : ℕ → ℕ) (modes mode left pending : ℕ) : Prop where
  mode_lt : mode < modes
  pending_lt : pending < 2^bits mode
  left_eq : mode ≠ 0 → left = pending * 2^shift mode

def encode64Bits (mode : ℕ) : ℕ := [0,2,4].getD mode 0
def decode64Bits (mode : ℕ) : ℕ := [0,6,4,2].getD mode 0
def encode32Bits (mode : ℕ) : ℕ := [0,3,1,4,2].getD mode 0
def decode32Bits (mode : ℕ) : ℕ := [0,5,2,7,4,1,6,3].getD mode 0

theorem and_shl (x k s : ℕ) : (x &&& (2^k - 1)) <<< s = x % 2^k * 2^s := by
  rw [Nat.and_two_pow_sub_one_eq_mod,Nat.shiftLeft_eq]

theorem shr_and (x s k : ℕ) : x >>> s &&& (2^k - 1) = x / 2^s % 2^k := by
  rw [Nat.and_two_pow_sub_one_eq_mod,Nat.shiftRight_eq_div_pow]

theorem shl_left {left p : ℕ} (h : left = p * 2^0) (k : ℕ) : left <<< k = p * 2^k := by
  rw [h,pow_zero,Nat.mul_one,Nat.shiftLeft_eq]

/-- Pending bits in front of the upper bits of the next digit. -/
theorem or_shr {left p k s x : ℕ} (hleft : left = p * 2^k) (hx : x < 2^(s + k)) :
    left ||| x >>> s = p * 2^k + x / 2^s := by
  have hlt : x / 2^s < 2^k := Nat.div_lt_of_lt_mul (by rw [← pow_add]; exact hx)
  rw [hleft,← Nat.shiftLeft_eq,Nat.shiftRight_eq_div_pow,Nat.shiftLeft_add_eq_or_of_lt hlt]

theorem mul_pow_add_lt {p y r a : ℕ} (hp : p < 2^r) (hy : y < 2^a) : p * 2^a + y < 2^(r + a) := by
  calc p * 2^a + y < p * 2^a + 2^a := Nat.add_lt_add_left hy _
    _ = (p + 1) * 2^a := (Nat.succ_mul p (2^a)).symm
    _ ≤ 2^r * 2^a := Nat.mul_le_mul_right _ hp
    _ = 2^(r + a) := (pow_add 2 r a).symm

theorem first_shr (x s k : ℕ) : x >>> s = 0 * 2^k + x / 2^s := by
  rw [Nat.zero_mul,Nat.zero_add,Nat.shiftRight_eq_div_pow]

theorem first_pending (x k : ℕ) : x = (0 * 2^k + x) * 2^0 := by
  rw [Nat.zero_mul,Nat.zero_add,pow_zero,Nat.mul_one]

theorem both_pending {left p k x : ℕ} (hleft : left = p * 2^0) (hx : x < 2^k) :
    left <<< k ||| x = (p * 2^k + x) * 2^0 := by
  have hor := or_shr (s := 0) (shl_left hleft k) ((Nat.zero_add k).symm ▸ hx)
  rw [pow_zero,Nat.div_one] at hor
  rw [pow_zero,Nat.mul_one]
  exact hor

/-- What a round owes for the bits `p` that are pending and the next digit `x`. -/
def Deals (bits shift : ℕ → ℕ) (modes w v mode p x : ℕ) (next : Round) : Prop :=
  ∃ pending, Held bits shift modes next.mode next.left pending ∧
    bits mode + w = next.out.length * v + bits next.mode ∧
      p * 2^w + x = accumulate (2^v) 0 next.out * 2^bits next.mode + pending ∧
        ∀ y ∈ next.out, y < 2^v

section Rounds

variable {bits shift : ℕ → ℕ} {modes w v mode p x mode' left' : ℕ}

theorem deals_none (hp : p < 2^bits mode) (hx : x < 2^w) (hmode : mode' < modes)
    (hbits : bits mode + w = bits mode')
    (hleft : mode' ≠ 0 → left' = (p * 2^w + x) * 2^shift mode') :
    Deals bits shift modes w v mode p x ⟨[],mode',left'⟩ := by
  refine ⟨p * 2^w + x,⟨hmode,hbits ▸ mul_pow_add_lt hp hx,hleft⟩,?_,?_,fun _ h => nomatch h⟩
  · rw [hbits,List.length_nil,Nat.zero_mul,Nat.zero_add]
  · change _ = 0 * _ + _
    rw [Nat.zero_mul,Nat.zero_add]

/-- A round that sends out one digit. -/
theorem deals_one {d a : ℕ} (hp : p < 2^bits mode) (hx : x < 2^w) (hmode : mode' < modes)
    (hbits : bits mode + a = v) (hw : a + bits mode' = w)
    (hd : d = p * 2^a + x / 2^bits mode')
    (hleft : mode' ≠ 0 → left' = x % 2^bits mode' * 2^shift mode') :
    Deals bits shift modes w v mode p x ⟨[d],mode',left'⟩ := by
  have hupper : x / 2^bits mode' < 2^a :=
    Nat.div_lt_of_lt_mul (by rw [← pow_add,Nat.add_comm,hw]; exact hx)
  refine ⟨x % 2^bits mode',⟨hmode,Nat.mod_lt _ (Nat.two_pow_pos _),hleft⟩,?_,?_,?_⟩
  · change _ = 1 * v + bits mode'
    omega
  · change _ = (2^v * 0 + d) * _ + _
    rw [Nat.mul_zero,Nat.zero_add,hd,Nat.add_mul,Nat.mul_assoc,← pow_add,hw,Nat.add_assoc,
      Nat.div_add_mod']
  · rw [List.forall_mem_singleton,hd]
    exact (mul_pow_add_lt hp hupper).trans_eq (congrArg _ hbits)

/-- A round that sends out two digits. -/
theorem deals_two {d e a : ℕ} (hp : p < 2^bits mode) (hx : x < 2^w) (hmode : mode' < modes)
    (hbits : bits mode + a = v) (hw : a + (v + bits mode') = w)
    (hd : d = p * 2^a + x / 2^(v + bits mode')) (he : e = x / 2^bits mode' % 2^v)
    (hleft : mode' ≠ 0 → left' = x % 2^bits mode' * 2^shift mode') :
    Deals bits shift modes w v mode p x ⟨[d,e],mode',left'⟩ := by
  have hupper : x / 2^(v + bits mode') < 2^a :=
    Nat.div_lt_of_lt_mul (by rw [← pow_add,Nat.add_comm,hw]; exact hx)
  have hlower : x / 2^(v + bits mode') * 2^v + e = x / 2^bits mode' := by
    rw [he,Nat.add_comm v,pow_add,← Nat.div_div_eq_div_mul,Nat.div_add_mod']
  refine ⟨x % 2^bits mode',⟨hmode,Nat.mod_lt _ (Nat.two_pow_pos _),hleft⟩,?_,?_,?_⟩
  · change _ = 2 * v + bits mode'
    omega
  · change _ = (2^v * (2^v * 0 + d) + e) * _ + _
    calc p * 2^w + x = p * 2^w + (x / 2^bits mode' * 2^bits mode' + x % 2^bits mode') := by
          rw [Nat.div_add_mod']
      _ = (2^v * (2^v * 0 + d) + e) * 2^bits mode' + x % 2^bits mode' := by
          rw [← hlower,hd,← hw,pow_add,pow_add]
          ring
  · rw [List.forall_mem_cons,List.forall_mem_singleton,hd,he]
    exact ⟨(mul_pow_add_lt hp hupper).trans_eq (congrArg _ hbits),Nat.mod_lt _ (Nat.two_pow_pos _)⟩

end Rounds

theorem encode64_lawful : Lawful 8 6 encode64Round encode64Bits
    (Held encode64Bits (fun mode => 6 - encode64Bits mode) 3) where
  lt h := h.pending_lt
  step := by
    rintro mode left p x ⟨hmode,hp,hleft⟩ hx
    change Deals encode64Bits _ 3 8 6 mode p x (encode64Round mode left x)
    interval_cases mode
    · obtain rfl := Nat.lt_one_iff.mp hp
      exact deals_one (a := 6) hp hx (by decide) rfl rfl (first_shr x 2 6) fun _ => and_shl x 2 4
    · exact deals_one (a := 4) hp hx (by decide) rfl rfl (or_shr (hleft (by decide)) hx)
        fun _ => and_shl x 4 2
    · exact deals_two (a := 2) hp hx (by decide) rfl rfl (or_shr (hleft (by decide)) hx)
        (shr_and x 0 6) fun h => absurd rfl h

theorem decode64_lawful : Lawful 6 8 decode64Round decode64Bits
    (Held decode64Bits (fun _ => 0) 4) where
  lt h := h.pending_lt
  step := by
    rintro mode left p x ⟨hmode,hp,hleft⟩ hx
    change Deals decode64Bits _ 4 6 8 mode p x (decode64Round mode left x)
    interval_cases mode
    · obtain rfl := Nat.lt_one_iff.mp hp
      exact deals_none hp hx (by decide) rfl fun _ => first_pending x 6
    · exact deals_one (a := 2) hp hx (by decide) rfl rfl
        (or_shr (shl_left (hleft (by decide)) 2) hx) fun _ => and_shl x 4 0
    · exact deals_one (a := 4) hp hx (by decide) rfl rfl
        (or_shr (shl_left (hleft (by decide)) 4) hx) fun _ => and_shl x 2 0
    · exact deals_one (a := 6) hp hx (by decide) rfl rfl
        (or_shr (s := 0) (shl_left (hleft (by decide)) 6) hx) fun h => absurd rfl h

theorem encode32_lawful : Lawful 8 5 encode32Round encode32Bits
    (Held encode32Bits (fun mode => 5 - encode32Bits mode) 5) where
  lt h := h.pending_lt
  step := by
    rintro mode left p x ⟨hmode,hp,hleft⟩ hx
    change Deals encode32Bits _ 5 8 5 mode p x (encode32Round mode left x)
    interval_cases mode
    · obtain rfl := Nat.lt_one_iff.mp hp
      exact deals_one (a := 5) hp hx (by decide) rfl rfl (first_shr x 3 5) fun _ => and_shl x 3 2
    · exact deals_two (a := 2) hp hx (by decide) rfl rfl (or_shr (hleft (by decide)) hx)
        (shr_and x 1 5) fun _ => and_shl x 1 4
    · exact deals_one (a := 4) hp hx (by decide) rfl rfl (or_shr (hleft (by decide)) hx)
        fun _ => and_shl x 4 1
    · exact deals_two (a := 1) hp hx (by decide) rfl rfl (or_shr (hleft (by decide)) hx)
        (shr_and x 2 5) fun _ => and_shl x 2 3
    · exact deals_two (a := 3) hp hx (by decide) rfl rfl (or_shr (hleft (by decide)) hx)
        (shr_and x 0 5) fun h => absurd rfl h

theorem decode32_lawful : Lawful 5 8 decode32Round decode32Bits
    (Held decode32Bits (fun _ => 0) 8) where
  lt h := h.pending_lt
  step := by
    rintro mode left p x ⟨hmode,hp,hleft⟩ hx
    change Deals decode32Bits _ 8 5 8 mode p x (decode32Round mode left x)
    interval_cases mode
    · obtain rfl := Nat.lt_one_iff.mp hp
      exact deals_none hp hx (by decide) rfl fun _ => first_pending x 5
    · exact deals_one (a := 3) hp hx (by decide) rfl rfl
        (or_shr (shl_left (hleft (by decide)) 3) hx) fun _ => and_shl x 2 0
    · exact deals_none hp hx (by decide) rfl fun _ => both_pending (hleft (by decide)) hx
    · exact deals_one (a := 1) hp hx (by decide) rfl rfl
        (or_shr (shl_left (hleft (by decide)) 1) hx) fun _ => and_shl x 4 0
    · exact deals_one (a := 4) hp hx (by decide) rfl rfl
        (or_shr (shl_left (hleft (by decide)) 4) hx) fun _ => and_shl x 1 0
    · exact deals_none hp hx (by decide) rfl fun _ => both_pending (hleft (by decide)) hx
    · exact deals_one (a := 2) hp hx (by decide) rfl rfl
        (or_shr (shl_left (hleft (by decide)) 2) hx) fun _ => and_shl x 3 0
    · exact deals_one (a := 5) hp hx (by decide) rfl rfl
        (or_shr (s := 0) (shl_left (hleft (by decide)) 5) hx) fun h => absurd rfl h

/-- What the encodings have in common: `eBits` and `dBits` count the bits pending in each mode, and
`padding` the `=` behind so many bits of zeros. -/
structure Laws (code : BaseCode) (eBits dBits padding : ℕ → ℕ) (eModes dModes : ℕ) : Prop where
  width_pos : 0 < code.width
  width_lt : code.width < 8
  encodes : Lawful 8 code.width code.encodeRound eBits
    (Held eBits (fun mode => code.width - eBits mode) eModes)
  decodes : Lawful code.width 8 code.decodeRound dBits (Held dBits (fun _ => 0) dModes)
  eBits_zero : eBits 0 = 0
  dBits_zero : dBits 0 = 0
  eBits_pos : ∀ mode < eModes, mode ≠ 0 → 0 < eBits mode ∧ eBits mode < code.width
  dBits_lt : ∀ mode < dModes, dBits mode < 8
  padding_zero : padding 0 = 0
  nPadding_eq : ∀ mode < eModes, mode ≠ 0 →
    code.nPadding mode = padding (code.width - eBits mode)
  required_zero : code.required 0 = some 0
  required_eq : ∀ mode < dModes, mode ≠ 0 → code.required mode =
    if dBits mode < code.width then some (padding (dBits mode)) else none
  padding_pos : ∀ mode < dModes, mode ≠ 0 → dBits mode < code.width → padding (dBits mode) ≠ 0
  modes_pos : 0 < eModes ∧ 0 < dModes
  digit_char : ∀ d < 2^code.width, code.digit (code.char d) = some d
  digit_lt : ∀ c d, code.digit c = some d → d < 2^code.width
  digit_pad : code.digit 0x3d = none
  digit_end : code.digit 0 = none

variable {code : BaseCode} {eBits dBits padding : ℕ → ℕ} {eModes dModes : ℕ}

/-- A character by the one that stands for its digit when encoding. -/
def canonical (code : BaseCode) (c : UInt8) : UInt8 :=
  match code.digit c with
  | some d => code.char d
  | none => c

/-- A text goes on with something else than a digit, or ends. -/
def Stops (code : BaseCode) (p : Bytes) : Prop := ∀ c, p.head? = some c → code.digit c = none

theorem toNat_bound (bytes : Bytes) : ∀ x ∈ bytes.map UInt8.toNat, x < 2^8 := by
  intro x hx
  obtain ⟨b,-,rfl⟩ := List.mem_map.mp hx
  exact b.toNat_lt

/-- An encoded text is digits with the bits of the bytes, behind which there are less zeros than a
digit has, and the padding for them. -/
theorem Laws.encode_eq (law : code.Laws eBits dBits padding eModes dModes) (pch : Bytes) :
    ∃ ds r, code.encode pch = ds.map code.char ++ List.replicate (padding r) 0x3d ∧
      Regrouped code.width 8 ds (pch.map UInt8.toNat) r 0 ∧ r < code.width ∧
        ∀ d ∈ ds, d < 2^code.width := by
  obtain ⟨pending,hheld,hregrouped⟩ := law.encodes.run (toNat_bound pch) 0
    ⟨law.modes_pos.1,by rw [law.eBits_zero]; exact Nat.one_pos,fun h => absurd rfl h⟩ law.eBits_zero
  rw [encode]
  generalize run code.encodeRound ⟨[],0,0⟩ (pch.map UInt8.toNat) = s at hheld hregrouped
  split_ifs with hmode
  · rw [hmode,law.eBits_zero] at hregrouped
    obtain rfl : pending = 0 := Nat.lt_one_iff.mp hregrouped.pending_lt
    exact ⟨s.out,0,by rw [law.padding_zero]; rfl,hregrouped.swap (toNat_bound pch),
      law.width_pos,hregrouped.right_lt⟩
  · obtain ⟨hpos,hlt⟩ := law.eBits_pos s.mode hheld.mode_lt hmode
    have hfinish := hregrouped.finish (toNat_bound pch) hlt.le
    rw [← hheld.left_eq hmode] at hfinish
    refine ⟨s.out ++ [s.left],code.width - eBits s.mode,?_,hfinish,by omega,fun d hd => ?_⟩
    · rw [law.nPadding_eq s.mode hheld.mode_lt hmode,List.map_append,List.append_assoc]
      rfl
    · rcases List.mem_append.mp hd with hd | hd
      · exact hregrouped.right_lt d hd
      · rw [List.mem_singleton.mp hd,hheld.left_eq hmode]
        calc pending * 2^(code.width - eBits s.mode)
            < 2^eBits s.mode * 2^(code.width - eBits s.mode) :=
              Nat.mul_lt_mul_of_pos_right hheld.pending_lt (Nat.two_pow_pos _)
          _ = 2^code.width := by rw [← pow_add,Nat.add_sub_cancel' hlt.le]

theorem digits_append {text p : Bytes} {ds : List ℕ} (h : text.mapM code.digit = some ds)
    (hp : code.Stops p) : code.digits (text ++ p) = (ds,p) := by
  induction text generalizing ds with
  | nil =>
    obtain rfl : [] = ds := by simpa using h
    cases p with
    | nil => rfl
    | cons c p => rw [List.nil_append,digits,hp c rfl]
  | cons c text ih =>
    rw [List.mapM_cons] at h
    simp only [Option.bind_eq_bind,Option.bind_eq_some_iff,Option.pure_def,Option.some.injEq] at h
    obtain ⟨d,hd,ds',hds,rfl⟩ := h
    rw [List.cons_append,digits,hd,ih hds]

theorem digits_split (code : BaseCode) (p : Bytes) : ∃ text, p = text ++ (code.digits p).2 ∧
    text.mapM code.digit = some (code.digits p).1 ∧ code.Stops (code.digits p).2 := by
  induction p with
  | nil => exact ⟨[],rfl,rfl,fun _ h => nomatch h⟩
  | cons c p ih =>
    rw [digits]
    cases hd : code.digit c with
    | none =>
      refine ⟨[],rfl,rfl,fun b hb => ?_⟩
      rw [← Option.some.inj hb,hd]
    | some d =>
      obtain ⟨text,hp,hds,hstops⟩ := ih
      refine ⟨c::text,?_,?_,hstops⟩
      · exact congrArg (c :: ·) hp
      · rw [List.mapM_cons,hd,hds]
        rfl

theorem Laws.digits_canonical (law : code.Laws eBits dBits padding eModes dModes) {text : Bytes}
    {ds : List ℕ} : text.mapM code.digit = some ds ↔
      text.map code.canonical = ds.map code.char ∧ ∀ d ∈ ds, d < 2^code.width := by
  induction text generalizing ds with
  | nil => cases ds <;> simp
  | cons c text ih =>
    rw [List.mapM_cons]
    simp only [Option.bind_eq_bind,Option.bind_eq_some_iff,Option.pure_def,Option.some.injEq,ih]
    constructor
    · rintro ⟨d,hd,ds',⟨hmap,hlt⟩,rfl⟩
      refine ⟨?_,List.forall_mem_cons.mpr ⟨law.digit_lt c d hd,hlt⟩⟩
      rw [List.map_cons,List.map_cons,hmap,canonical,hd]
    · rintro ⟨hmap,hlt⟩
      cases ds with
      | nil => cases hmap
      | cons d ds =>
        obtain ⟨hc,hmap⟩ := List.cons.inj hmap
        obtain ⟨hd,hlt⟩ := List.forall_mem_cons.mp hlt
        refine ⟨d,?_,ds,⟨hmap,hlt⟩,rfl⟩
        have hchar := law.digit_char d hd
        rw [canonical] at hc
        cases hdigit : code.digit c with
        | none =>
          rw [hdigit] at hc
          rw [← hc,hdigit] at hchar
          exact hchar
        | some e =>
          rw [hdigit] at hc
          have hsame := law.digit_char e (law.digit_lt c e hdigit)
          exact hsame.symm.trans ((congrArg code.digit hc).trans hchar)

theorem Laws.canonical_pad (law : code.Laws eBits dBits padding eModes dModes) {c : UInt8} :
    code.canonical c = 0x3d ↔ c = 0x3d := by
  rw [canonical]
  cases hdigit : code.digit c with
  | none => rfl
  | some d =>
    have hchar := law.digit_char d (law.digit_lt c d hdigit)
    refine iff_of_false (fun h => ?_) (fun h => ?_)
    · change code.char d = 0x3d at h
      rw [h,law.digit_pad] at hchar
      cases hchar
    · rw [h,law.digit_pad] at hdigit
      cases hdigit

theorem padded_iff (n : ℕ) (p : Bytes) :
    (List.range n).any (fun i => p.getD i 0 != 0x3d) = false ↔
      ∃ rest, p = List.replicate n 0x3d ++ rest := by
  induction n generalizing p with
  | zero => simp
  | succ n ih =>
    rw [List.range_succ_eq_map,List.any_cons,List.any_map,Bool.or_eq_false_iff]
    cases p with
    | nil => simp [List.replicate_succ]
    | cons c p =>
      have hrest := ih p
      simp only [Function.comp_def,List.getD_cons_succ,List.getD_cons_zero] at hrest ⊢
      rw [hrest,List.replicate_succ]
      simp

theorem Laws.invalid_iff (law : code.Laws eBits dBits padding eModes dModes) {mode left n : ℕ}
    (h : Held dBits (fun _ => 0) dModes mode left n) {p : Bytes} (hp : code.Stops p) :
    code.invalid mode left p = false ↔ dBits mode < code.width ∧ n = 0 ∧
      ∃ rest, p = List.replicate (padding (dBits mode)) 0x3d ++ rest ∧ code.Stops rest := by
  by_cases hmode : mode = 0
  · have hn := h.pending_lt
    rw [hmode,law.dBits_zero] at hn
    rw [invalid,hmode,law.required_zero,law.dBits_zero,law.padding_zero]
    exact iff_of_true rfl ⟨law.width_pos,Nat.lt_one_iff.mp hn,p,rfl,hp⟩
  · rw [invalid,law.required_eq mode h.mode_lt hmode]
    split_ifs with hbits
    · have hleft := h.left_eq hmode
      obtain ⟨k,hk⟩ := Nat.exists_eq_succ_of_ne_zero (law.padding_pos mode h.mode_lt hmode hbits)
      rw [hk]
      change (left != 0 || (List.range k.succ).any (fun i => p.getD i 0 != 0x3d) ||
        (code.digit (p.getD k.succ 0)).isSome) = false ↔ _
      rw [Bool.or_eq_false_iff,Bool.or_eq_false_iff,padded_iff,bne_eq_false_iff_eq,hleft,
        Nat.pow_zero,Nat.mul_one]
      have hstops : ∀ rest, p = List.replicate k.succ 0x3d ++ rest →
          ((code.digit (p.getD k.succ 0)).isSome = false ↔ code.Stops rest) := by
        rintro rest rfl
        rw [List.getD_eq_getElem?_getD,List.getElem?_append_right (by simp),List.length_replicate,
          Nat.sub_self]
        cases rest with
        | nil => simp [Stops,law.digit_end]
        | cons c rest => simp [Stops]
      constructor
      · rintro ⟨⟨hn,rest,hrest⟩,hend⟩
        exact ⟨hbits,hn,rest,hrest,(hstops rest hrest).mp hend⟩
      · rintro ⟨-,hn,rest,hrest,hend⟩
        exact ⟨⟨hn,rest,hrest⟩,(hstops rest hrest).mpr hend⟩
    · exact iff_of_false (fun h => nomatch h) fun h => hbits h.1

/-- A text decodes to the bytes, not invalid, exactly if it begins with their encoded text, up to
characters of the same digits, and does not go on with another digit. -/
theorem Laws.decode_iff (law : code.Laws eBits dBits padding eModes dModes) {p pch : Bytes} :
    code.decode p = (pch,false) ↔ ∃ text rest, p = text ++ rest ∧
      text.map code.canonical = code.encode pch ∧ code.Stops rest := by
  obtain ⟨ds,r,hencode,hregrouped,hr,hds⟩ := law.encode_eq pch
  have hrun : ∀ es : List ℕ, (∀ e ∈ es, e < 2^code.width) →
      ∃ n, Held dBits (fun _ => 0) dModes (run code.decodeRound ⟨[],0,0⟩ es).mode
        (run code.decodeRound ⟨[],0,0⟩ es).left n ∧
          Regrouped code.width 8 es (run code.decodeRound ⟨[],0,0⟩ es).out
            (dBits (run code.decodeRound ⟨[],0,0⟩ es).mode) n := fun es hes =>
    law.decodes.run hes _ ⟨law.modes_pos.2,by rw [law.dBits_zero]; exact Nat.one_pos,
      fun h => absurd rfl h⟩ law.dBits_zero
  constructor
  · intro h
    obtain ⟨text,hp,htext,hstops⟩ := digits_split code p
    rw [decode] at h
    generalize code.digits p = q at h hp htext hstops
    obtain ⟨hcanonical,hlt⟩ := law.digits_canonical.mp htext
    obtain ⟨n,hheld,hrest⟩ := hrun q.1 hlt
    obtain ⟨hout,hinvalid⟩ := Prod.mk.inj h
    obtain ⟨hbits,rfl,rest,hpad,hend⟩ := (law.invalid_iff hheld hstops).mp hinvalid
    have hbytes : pch.map UInt8.toNat = (run code.decodeRound ⟨[],0,0⟩ q.1).out := by
      rw [← hout,List.map_map]
      refine (List.map_congr_left fun y hy => ?_).trans (List.map_id _)
      exact UInt8.toNat_ofNat_of_lt' (hrest.right_lt y hy)
    rw [← hbytes] at hrest
    obtain ⟨hsame,hbits'⟩ := hrest.left_unique hregrouped law.width_pos hlt hds hbits hr
    rw [hbits'] at hpad
    refine ⟨text ++ List.replicate (padding r) 0x3d,rest,?_,?_,hend⟩
    · rw [List.append_assoc,← hpad]
      exact hp
    · rw [List.map_append,hcanonical,hsame,List.map_replicate,law.canonical_pad.mpr rfl,hencode]
  · rintro ⟨text,rest,rfl,htext,hend⟩
    rw [hencode] at htext
    obtain ⟨front,back,rfl,hfront,hback⟩ := List.map_eq_append_iff.mp htext
    have hpad : back = List.replicate (padding r) 0x3d := by
      obtain ⟨hlength,hall⟩ := List.eq_replicate_iff.mp hback
      refine List.eq_replicate_iff.mpr ⟨by rwa [List.length_map] at hlength,fun c hc => ?_⟩
      exact law.canonical_pad.mp (hall _ (List.mem_map_of_mem hc))
    have hstops : code.Stops (back ++ rest) := by
      rw [hpad]
      cases padding r with
      | zero => exact hend
      | succ k =>
        intro c hc
        rw [← Option.some.inj hc]
        exact law.digit_pad
    rw [List.append_assoc,decode,
      digits_append (law.digits_canonical.mpr ⟨hfront,hds⟩) hstops]
    obtain ⟨n,hheld,hrest⟩ := hrun ds hds
    obtain ⟨hout,hbits,rfl⟩ := hrest.right_unique hregrouped (by decide)
      (law.dBits_lt _ hheld.mode_lt) (hr.trans law.width_lt)
    refine Prod.ext ?_ ?_
    · change (run code.decodeRound ⟨[],0,0⟩ ds).out.map UInt8.ofNat = pch
      rw [hout,List.map_map]
      refine (List.map_congr_left fun b _ => ?_).trans (List.map_id pch)
      exact UInt8.ofNat_toNat
    · refine (law.invalid_iff hheld hstops).mpr ⟨by rw [hbits]; exact hr,rfl,rest,?_,hend⟩
      rw [hbits,hpad]

/-- What an entry of the table says, when `fold` maps a character to the one that encodes. -/
def entryHolds (code : BaseCode) (fold : UInt8 → UInt8) (c : UInt8) : ℤ → Bool
  | Int.ofNat d => decide (d < 2^code.width) && code.char d == fold c
  | Int.negSucc _ => fold c == c

theorem table_ok {code : BaseCode} {fold : UInt8 → UInt8} (hlength : code.table.length = 256)
    (h : code.table.zipIdx.all (fun e => code.entryHolds fold (UInt8.ofNat e.2) e.1) = true)
    (c : UInt8) :
    (∀ d, code.digit c = some d → d < 2^code.width) ∧ code.canonical c = fold c := by
  have hlt : c.toNat < code.table.length := by rw [hlength]; exact c.toNat_lt
  have hc := List.all_eq_true.mp h (code.table[c.toNat],c.toNat)
    (List.mem_zipIdx_iff_getElem?.mpr (List.getElem?_eq_getElem hlt))
  rw [UInt8.ofNat_toNat] at hc
  rw [canonical,digit,List.getElem?_eq_getElem hlt]
  cases hentry : code.table[c.toNat] with
  | negSucc n =>
    rw [hentry] at hc
    exact ⟨fun _ h => (nomatch h),(beq_iff_eq.mp hc).symm⟩
  | ofNat d =>
    rw [hentry] at hc
    obtain ⟨hlt,hchar⟩ := Bool.and_eq_true_iff.mp hc
    exact ⟨fun e he => Option.some.inj he ▸ of_decide_eq_true hlt,beq_iff_eq.mp hchar⟩

theorem base64_table (c : UInt8) :
    (∀ d, base64.digit c = some d → d < 64) ∧ base64.canonical c = id c :=
  table_ok (by decide +kernel) (by decide +kernel) c

/-- `tolower`. -/
def toLower (c : UInt8) : UInt8 := if 0x41 ≤ c ∧ c ≤ 0x5a then c + 0x20 else c

theorem base32_table (c : UInt8) :
    (∀ d, base32.digit c = some d → d < 32) ∧ base32.canonical c = toLower c :=
  table_ok (by decide +kernel) (by decide +kernel) c

def padding64 (r : ℕ) : ℕ := [0,0,1,0,2].getD r 0
def padding32 (r : ℕ) : ℕ := [0,3,6,1,4].getD r 0

theorem base64_laws : base64.Laws encode64Bits decode64Bits padding64 3 4 where
  width_pos := by decide
  width_lt := by decide
  encodes := encode64_lawful
  decodes := decode64_lawful
  eBits_zero := rfl
  dBits_zero := rfl
  eBits_pos := by decide
  dBits_lt := by decide
  padding_zero := rfl
  nPadding_eq := by decide
  required_zero := rfl
  required_eq := by decide
  padding_pos := by decide
  modes_pos := by decide
  digit_char := by decide
  digit_lt c := (base64_table c).1
  digit_pad := rfl
  digit_end := rfl

theorem base32_laws : base32.Laws encode32Bits decode32Bits padding32 5 8 where
  width_pos := by decide
  width_lt := by decide
  encodes := encode32_lawful
  decodes := decode32_lawful
  eBits_zero := rfl
  dBits_zero := rfl
  eBits_pos := by decide
  dBits_lt := by decide
  padding_zero := rfl
  nPadding_eq := by decide
  required_zero := rfl
  required_eq := by decide
  padding_pos := by decide
  modes_pos := by decide
  digit_char := by decide
  digit_lt c := (base32_table c).1
  digit_pad := rfl
  digit_end := rfl

theorem base64_canonical (text : Bytes) : text.map base64.canonical = text :=
  (List.map_congr_left fun c _ => (base64_table c).2).trans (List.map_id text)

theorem base32_canonical (text : Bytes) : text.map base32.canonical = text.map toLower :=
  List.map_congr_left fun c _ => (base32_table c).2

theorem encodeBase64_length (pch : Bytes) : (encodeBase64 pch).length % 4 = 0 := by
  obtain ⟨ds,r,hencode,hregrouped,hr,-⟩ := Laws.encode_eq base64_laws pch
  have hlength := hregrouped.length
  rw [encodeBase64,hencode,List.length_append,List.length_map,List.length_replicate]
  change ds.length * 6 = (pch.map UInt8.toNat).length * 8 + r at hlength
  change r < 6 at hr
  interval_cases r <;> simp only [padding64,List.getD_cons_zero,List.getD_cons_succ] <;> omega

theorem encodeBase32_length (pch : Bytes) : (encodeBase32 pch).length % 8 = 0 := by
  obtain ⟨ds,r,hencode,hregrouped,hr,-⟩ := Laws.encode_eq base32_laws pch
  have hlength := hregrouped.length
  rw [encodeBase32,hencode,List.length_append,List.length_map,List.length_replicate]
  change ds.length * 5 = (pch.map UInt8.toNat).length * 8 + r at hlength
  change r < 5 at hr
  interval_cases r <;> simp only [padding32,List.getD_cons_zero,List.getD_cons_succ] <;> omega

theorem decodeBase64_iff {p pch : Bytes} : decodeBase64 p = (pch,false) ↔
    ∃ rest, p = encodeBase64 pch ++ rest ∧ base64.Stops rest := by
  rw [decodeBase64,Laws.decode_iff base64_laws]
  simp only [base64_canonical]
  constructor
  · rintro ⟨text,rest,rfl,rfl,hstops⟩
    exact ⟨rest,rfl,hstops⟩
  · rintro ⟨rest,rfl,hstops⟩
    exact ⟨_,rest,rfl,rfl,hstops⟩

theorem decodeBase32_iff {p pch : Bytes} : decodeBase32 p = (pch,false) ↔
    ∃ text rest, p = text ++ rest ∧ text.map toLower = encodeBase32 pch ∧ base32.Stops rest := by
  rw [decodeBase32,Laws.decode_iff base32_laws]
  simp only [base32_canonical]
  rfl

theorem encodeBase32_lower (pch : Bytes) :
    (encodeBase32 pch).map toLower = encodeBase32 pch := by
  obtain ⟨ds,r,hencode,-,-,hds⟩ := Laws.encode_eq base32_laws pch
  have hchars : (ds.map base32.char).map base32.canonical = ds.map base32.char := by
    rw [List.map_map]
    refine List.map_congr_left fun d hd => ?_
    rw [Function.comp_apply,canonical,Laws.digit_char base32_laws d (hds d hd)]
  rw [← base32_canonical,encodeBase32,hencode,List.map_append,hchars,List.map_replicate,
    (Laws.canonical_pad base32_laws).mpr rfl]

/-- Bytes come back from their encoded text; and a text is not invalid exactly if it begins with an
encoded one, which a character outside of the alphabet follows or the end. -/
theorem base64_base32 (s p : Bytes) :
    (decodeBase64 (encodeBase64 s) = (s,false) ∧ decodeBase32 (encodeBase32 s) = (s,false)) ∧
      ((encodeBase64 s).length % 4 = 0 ∧ (encodeBase32 s).length % 8 = 0) ∧
        ((decodeBase64 p).2 = false ↔
          ∃ pch rest, p = encodeBase64 pch ++ rest ∧ base64.Stops rest) ∧
            ((decodeBase32 p).2 = false ↔ ∃ pch text rest, p = text ++ rest ∧
              text.map toLower = encodeBase32 pch ∧ base32.Stops rest) := by
  refine ⟨⟨?_,?_⟩,⟨encodeBase64_length s,encodeBase32_length s⟩,?_,?_⟩
  · exact decodeBase64_iff.mpr ⟨[],(List.append_nil _).symm,fun _ h => nomatch h⟩
  · exact decodeBase32_iff.mpr
      ⟨_,[],(List.append_nil _).symm,encodeBase32_lower s,fun _ h => nomatch h⟩
  · refine ⟨fun h => ⟨(decodeBase64 p).1,decodeBase64_iff.mp (Prod.ext rfl h)⟩,?_⟩
    rintro ⟨pch,hpch⟩
    rw [decodeBase64_iff.mpr hpch]
  · refine ⟨fun h => ⟨(decodeBase32 p).1,decodeBase32_iff.mp (Prod.ext rfl h)⟩,?_⟩
    rintro ⟨pch,hpch⟩
    rw [decodeBase32_iff.mpr hpch]

/-- An exclamation mark is no encoded text, and not invalid. -/
theorem decodeBase64_garbage :
    (decodeBase64 [0x21]).2 = false ∧ ∀ pch, encodeBase64 pch ≠ [0x21] := by
  refine ⟨rfl,fun pch h => ?_⟩
  have hlength := encodeBase64_length pch
  rw [h] at hlength
  cases hlength

end BaseCode
end Sidechain
