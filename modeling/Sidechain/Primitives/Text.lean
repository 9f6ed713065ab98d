import Sidechain.Primitives.Serialize

/-! Texts as their bytes, and bytes as hexadecimal texts. -/
namespace Sidechain

/-- The bytes of an ASCII text. -/
def ascii (s : String) : Bytes := s.toList.map Char.toUInt8

/-- `HexDigit`, which returns -1 for every other character. -/
def hexDigit (c : UInt8) : Option UInt8 :=
  if 0x30 ≤ c ∧ c ≤ 0x39 then some (c - 0x30)
  else if 0x41 ≤ c ∧ c ≤ 0x46 then some (c - 0x41 + 10)
  else if 0x61 ≤ c ∧ c ≤ 0x66 then some (c - 0x61 + 10)
  else none

def isspace (c : UInt8) : Bool := c == 0x20 || (decide (9 ≤ c) && decide (c ≤ 13))

def isDigit (c : UInt8) : Bool := decide (0x30 ≤ c) && decide (c ≤ 0x39)

def isHex (str : Bytes) : Bool :=
  str.all (fun c => (hexDigit c).isSome) && decide (0 < str.length) && str.length % 2 == 0

def parseHex : Bytes → Bytes
  | [] => []
  | c :: psz =>
    if isspace c then parseHex psz
    else
      match hexDigit c, psz with
      | some n, c' :: rest =>
        match hexDigit c' with
        | some m => (n <<< 4 ||| m) :: parseHex rest
        | none => []
      | _, _ => []

/-- One of the characters of `hexmap`. -/
def hexChar (n : UInt8) : UInt8 := if n < 10 then 0x30 + n else 0x61 + (n - 10)

/-- `HexStr`, without spaces. -/
def hexStr (bytes : Bytes) : Bytes :=
  bytes.flatMap fun (val : UInt8) => [hexChar (val >>> 4),hexChar (val &&& 15)]

@[simp] theorem hexStr_cons (b : UInt8) (bytes : Bytes) :
    hexStr (b::bytes) = hexChar (b >>> 4)::hexChar (b &&& 15)::hexStr bytes := rfl

@[simp] theorem length_hexStr (bytes : Bytes) : (hexStr bytes).length = 2*bytes.length := by
  induction bytes with
  | nil => rfl
  | cons b bytes ih => simp only [hexStr_cons,List.length_cons,ih]; omega

/-- The two characters of a byte are digits that stand for it, and are no white space. -/
theorem hexChar_pair (b : UInt8) :
    (isspace (hexChar (b >>> 4)) = false ∧ isspace (hexChar (b &&& 15)) = false) ∧
      ∃ n m, hexDigit (hexChar (b >>> 4)) = some n ∧ hexDigit (hexChar (b &&& 15)) = some m ∧
        n <<< 4 ||| m = b := by
  have hall : ∀ k : Fin 256, let b := UInt8.ofNat k.val
      (isspace (hexChar (b >>> 4)) = false ∧ isspace (hexChar (b &&& 15)) = false) ∧
      hexDigit (hexChar (b >>> 4)) = some (b >>> 4) ∧
      hexDigit (hexChar (b &&& 15)) = some (b &&& 15) ∧
      (b >>> 4) <<< 4 ||| (b &&& 15) = b := by
    decide +kernel
  have hb := hall ⟨b.toNat,b.toNat_lt⟩
  simp only [UInt8.ofNat_toNat] at hb
  exact ⟨hb.1,_,_,hb.2⟩

theorem hexStr_digits (bytes : Bytes) :
    ∀ c ∈ hexStr bytes, (hexDigit c).isSome = true ∧ isspace c = false := by
  induction bytes with
  | nil => simp [hexStr]
  | cons b bytes ih =>
    obtain ⟨⟨h1,h2⟩,n,m,hn,hm,-⟩ := hexChar_pair b
    rw [hexStr_cons]
    simp only [List.forall_mem_cons,hn,hm,h1,h2]
    exact ⟨⟨rfl,trivial⟩,⟨rfl,trivial⟩,ih⟩

/-- Hexadecimal text is read back, whatever follows it. -/
@[simp] theorem parseHex_hexStr_append (bytes rest : Bytes) :
    parseHex (hexStr bytes ++ rest) = bytes ++ parseHex rest := by
  induction bytes with
  | nil => rfl
  | cons b bytes ih =>
    obtain ⟨⟨h1,-⟩,n,m,hn,hm,hb⟩ := hexChar_pair b
    rw [hexStr_cons,List.cons_append,List.cons_append,parseHex.eq_def]
    simp only [h1,hn,hm,hb,ih,Bool.false_eq_true,if_false,List.cons_append]

theorem isHex_iff (str : Bytes) :
    isHex str = true ↔ (∀ c ∈ str, (hexDigit c).isSome = true) ∧ str ≠ [] ∧ str.length % 2 = 0 := by
  simp [isHex,List.length_pos_iff,and_assoc]

end Sidechain
