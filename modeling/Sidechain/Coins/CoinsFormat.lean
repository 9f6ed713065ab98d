import Sidechain.Coins.AmountCode
import Sidechain.Coins.CCoins
import Sidechain.Coins.ScriptCompressor

/-! How the unspent outputs of a transaction are stored: a header code with the coinbase flag, two
marks and a count of mask bytes, the mask for the other outputs, then the outputs that are left. -/
namespace Sidechain
open Codec

namespace CTxOutCompressor

def serialize (keys : PubKeys) (txout : CTxOut) : Bytes :=
  writeVarInt (compressAmount .machine (CInts.machine.u64 txout.nValue.toInt)) ++
    CScriptCompressor.serialize keys txout.scriptPubKey

/-- The serializer runs on a stream that counts. -/
def getSerializeSize (keys : PubKeys) (txout : CTxOut) : ℕ := (serialize keys txout).length

def unserialize (keys : PubKeys) (txout : CTxOut) : Reader CTxOut := do
  let nVal ← readVarInt 64
  let scriptPubKey ← CScriptCompressor.unserialize keys txout.scriptPubKey
  pure ⟨Int64.ofInt (decompressAmount .machine nVal),scriptPubKey⟩

/-- The amount has a code, and the script a size. -/
structure Fits (txout : CTxOut) : Prop where
  nonneg : 0 ≤ txout.nValue.toInt
  code : compressAmount .wide txout.nValue.toInt < 2^64
  script : txout.scriptPubKey.length + 6 < 2^32

theorem Fits.isNull {txout : CTxOut} (h : Fits txout) : txout.isNull = false := by
  unfold CTxOut.isNull
  refine beq_eq_false_iff_ne.mpr fun hnull => ?_
  have hneg := h.nonneg
  rw [hnull] at hneg
  exact absurd hneg (by decide)

theorem unserialize_inverts {keys : PubKeys} (hkeys : keys.GivesBack) (old : CTxOut) :
    Inverts (unserialize keys old) (serialize keys) Fits := by
  intro txout h rest
  have hmax : txout.nValue.toInt < 2^63 := txout.nValue.toInt_lt
  have hvalue : CInts.machine.u64 txout.nValue.toInt = txout.nValue.toInt :=
    CInts.machine_exact.u64 h.nonneg (by omega)
  have hcode := compressAmount_eq CInts.machine_exact h.nonneg h.code
  have hback := decompressAmount_compressAmount CInts.machine_exact h.nonneg (by omega) h.code
  have hpos := compressAmount_nonneg h.nonneg
  have hfits := h.code
  unfold serialize unserialize
  rw [hvalue,hcode]
  generalize compressAmount .wide txout.nValue.toInt = code at hback hpos hfits
  obtain ⟨nVal,rfl⟩ := Int.eq_ofNat_of_zero_le hpos
  rw [List.append_assoc,(readVarInt_inverts 64).run_bind (a := nVal) (by omega),
    (CScriptCompressor.unserialize_inverts hkeys old.scriptPubKey).run_bind h.script,hback,
    Int64.ofInt_toInt]
  rfl

end CTxOutCompressor

/-- Eight marks in a byte, the first in the lowest bit. -/
def packByte (mark : ℕ → Bool) : UInt8 :=
  (List.range 8).foldl (fun ch i => if mark i then ch ||| (1 <<< UInt8.ofNat i) else ch) 0

def unpackByte (ch : UInt8) : List Bool :=
  (List.range 8).map fun p => ch &&& (1 <<< UInt8.ofNat p) != 0

theorem unpackByte_packByte (mark : ℕ → Bool) :
    unpackByte (packByte mark) = (List.range 8).map mark := by
  have hall : ∀ b₀ b₁ b₂ b₃ b₄ b₅ b₆ b₇ : Bool,
      unpackByte (packByte fun i => [b₀,b₁,b₂,b₃,b₄,b₅,b₆,b₇].getD i false) =
        [b₀,b₁,b₂,b₃,b₄,b₅,b₆,b₇] := by decide
  exact hall (mark 0) (mark 1) (mark 2) (mark 3) (mark 4) (mark 5) (mark 6) (mark 7)

theorem packByte_eq_zero {mark : ℕ → Bool} :
    packByte mark = 0 ↔ (List.range 8).any mark = false := by
  have hall : ∀ b₀ b₁ b₂ b₃ b₄ b₅ b₆ b₇ : Bool,
      packByte (fun i => [b₀,b₁,b₂,b₃,b₄,b₅,b₆,b₇].getD i false) = 0 ↔
        [b₀,b₁,b₂,b₃,b₄,b₅,b₆,b₇].any id = false := by decide
  exact hall (mark 0) (mark 1) (mark 2) (mark 3) (mark 4) (mark 5) (mark 6) (mark 7)

/-- Mask bytes until so many of them are not zero. -/
def readMask : ℕ → Bytes → Except String (List Bool × Bytes)
  | 0,input => .ok ([],input)
  | _ + 1,[] => .error "CDataStream::read(): end of data"
  | nMaskCode + 1,chAvail::input => do
    let (vAvail,rest) ← readMask (if chAvail ≠ 0 then nMaskCode else nMaskCode + 1) input
    pure (unpackByte chAvail ++ vAvail,rest)

theorem readMask_append {mask : Bytes} (hlast : ∀ ch ∈ mask.getLast?, ch ≠ 0) (rest : Bytes) :
    readMask (mask.countP (· ≠ 0)) (mask ++ rest) = .ok (mask.flatMap unpackByte,rest) := by
  induction mask with
  | nil => rw [List.countP_nil,readMask]; rfl
  | cons ch mask ih =>
    have hrest : ∀ ch' ∈ mask.getLast?, ch' ≠ 0 := by
      intro ch' hch'
      have hne : mask ≠ [] := by
        rintro rfl
        cases hch'
      refine hlast ch' ?_
      rwa [List.getLast?_cons_of_ne_nil hne]
    have hstep : ∀ n, readMask (n + 1) (ch::mask ++ rest) = (do
        let (vAvail,rest) ← readMask (if ch ≠ 0 then n else n + 1) (mask ++ rest)
        pure (unpackByte ch ++ vAvail,rest)) := fun n => by rw [List.cons_append,readMask]
    by_cases hch : ch = 0
    · -- a byte that is zero is not the last one
      obtain ⟨k,hk⟩ : ∃ k, mask.countP (· ≠ 0) = k + 1 := by
        have hne : mask ≠ [] := by
          rintro rfl
          exact hlast ch rfl hch
        obtain ⟨front,last,rfl⟩ := (List.eq_nil_or_concat' mask).resolve_left hne
        refine Nat.exists_eq_add_one.mpr (List.countP_pos_iff.mpr ⟨last,by simp,?_⟩)
        simpa using hrest last (by simp)
      rw [List.countP_cons_of_neg (by simpa using hch),hk,hstep,if_neg (not_not.mpr hch),← hk,
        ih hrest]
      rfl
    · rw [List.countP_cons_of_pos (by simpa using hch),hstep,if_pos hch,ih hrest]
      rfl

namespace CCoins

/-- Whether a byte of the mask has a mark. -/
def byteUsed (c : CCoins) (b : ℕ) : Bool := (List.range 8).any fun i => c.isAvailable (2 + b * 8 + i)

/-- The bytes of the mask up to the last one in use, and how many are in use. -/
def calcMaskSize (c : CCoins) : ℕ × ℕ :=
  (List.range ((c.vout.length + 5) / 8)).foldl (fun acc b =>
    if c.byteUsed b then (b + 1,acc.2 + 1) else acc) (0,0)

/-- The header code is an `unsigned int`. -/
def headerCode (c : CCoins) (nMaskCode : ℕ) : ℕ :=
  let fFirst := c.isAvailable 0
  let fSecond := c.isAvailable 1
  (8 * (nMaskCode - (if fFirst || fSecond then 0 else 1)) + (if c.fCoinBase then 1 else 0) +
    (if fFirst then 2 else 0) + (if fSecond then 4 else 0)) % 2^32

def maskByte (c : CCoins) (b : ℕ) : UInt8 := packByte fun i => c.isAvailable (2 + b * 8 + i)

def checkMask (c : CCoins) : Outcome Unit :=
  require (c.isAvailable 0 = true ∨ c.isAvailable 1 = true ∨ c.calcMaskSize.2 ≠ 0)
    (.error (.assertion "fFirst || fSecond || nMaskCode"))

def getSerializeSize (keys : PubKeys) (c : CCoins) : Outcome ℕ := do
  let (nMaskSize,nMaskCode) := c.calcMaskSize
  c.checkMask
  pure (getSizeOfVarInt c.nVersion.toInt + getSizeOfVarInt (c.headerCode nMaskCode) + nMaskSize +
    ((c.vout.filter fun out => !out.isNull).map (CTxOutCompressor.getSerializeSize keys)).sum +
    getSizeOfVarInt c.nHeight)

def serialize (keys : PubKeys) (c : CCoins) : Outcome Bytes := do
  let (nMaskSize,nMaskCode) := c.calcMaskSize
  c.checkMask
  pure (writeVarInt c.nVersion.toInt ++ (writeVarInt (c.headerCode nMaskCode) ++
    ((List.range nMaskSize).map c.maskByte ++
      ((c.vout.filter fun out => !out.isNull).flatMap (CTxOutCompressor.serialize keys) ++
        writeVarInt c.nHeight))))

def unserialize (keys : PubKeys) : Reader CCoins := do
  let nVersion ← readVarInt 32
  let nCode ← readVarInt 32
  let nMaskCode := nCode / 8 + (if nCode.testBit 1 || nCode.testBit 2 then 0 else 1)
  let vMask ← readMask nMaskCode
  let vAvail := nCode.testBit 1::nCode.testBit 2::vMask
  let outs ← optional (CTxOutCompressor.unserialize keys CTxOut.null) vAvail
  let nHeight ← readVarInt 32
  pure (cleanup { fCoinBase := nCode.testBit 0, vout := outs.map (·.getD CTxOut.null), nHeight,
                  nVersion := Int32.ofInt nVersion })

/-- What a stored entry looks like: spent outputs are null, the others fit, and the numbers are in
the ranges of their types. -/
structure Storable (c : CCoins) : Prop where
  version : 0 ≤ c.nVersion.toInt
  height : c.nHeight < 2^31
  size : c.vout.length + 8 ≤ 2^32
  outs : ∀ out ∈ c.vout, out = CTxOut.null ∨ CTxOutCompressor.Fits out

theorem Storable.canonical {c : CCoins} (h : c.Storable) : c.Canonical := by
  intro out hout hnull
  rcases h.outs out hout with rfl | hfits
  · rfl
  · rw [hfits.isNull] at hnull
    cases hnull

theorem countP_range_of_free {used : ℕ → Bool} {last n : ℕ} (hle : last ≤ n)
    (hfree : ∀ b, last ≤ b → used b = false) :
    (List.range n).countP used = (List.range last).countP used := by
  obtain ⟨k,rfl⟩ := Nat.exists_eq_add_of_le hle
  rw [List.range_add,List.countP_append,List.countP_map,Nat.add_eq_left,List.countP_eq_zero]
  intro b _
  simp [hfree (last + b) (Nat.le_add_right _ _)]

/-- A scan for the last position with a property, and for the number of such positions. -/
theorem foldl_lastUsed (used : ℕ → Bool) (n : ℕ) : ∃ last,
    (List.range n).foldl (fun acc b => if used b then (b + 1,acc.2 + 1) else acc) (0,0) =
      (last,(List.range n).countP used) ∧ last ≤ n ∧ (0 < last → used (last - 1) = true) ∧
      ∀ b, last ≤ b → b < n → used b = false := by
  induction n with
  | zero => exact ⟨0,rfl,le_rfl,fun h => absurd h (lt_irrefl _),fun b _ hb => by omega⟩
  | succ n ih =>
    obtain ⟨last,hfold,hle,hused,hfree⟩ := ih
    rw [List.range_succ,List.foldl_append,hfold,List.countP_append]
    cases hn : used n with
    | true =>
      refine ⟨n + 1,by simp [hn],le_rfl,fun _ => hn,fun b _ hb => by omega⟩
    | false =>
      refine ⟨last,by simp [hn],by omega,hused,fun b hlast hb => ?_⟩
      rcases Nat.lt_succ_iff_lt_or_eq.mp hb with hb | rfl
      · exact hfree b hlast hb
      · exact hn

theorem isAvailable_false_of_le {c : CCoins} {n : ℕ} (h : c.vout.length ≤ n) :
    c.isAvailable n = false := by
  rw [isAvailable,List.getElem?_eq_none h]

theorem isAvailable_eq (c : CCoins) (n : ℕ) : c.isAvailable n = (unspentAt c.vout n).isSome := by
  unfold isAvailable unspentAt
  cases c.vout[n]? with
  | none => rfl
  | some out => cases hnull : out.isNull <;> simp [hnull]

/-- The two sizes of the mask: no output is left behind it, its last byte is in use, and the bytes
in use are counted. -/
theorem calcMaskSize_spec (c : CCoins) : ∃ nMaskSize,
    c.calcMaskSize = (nMaskSize,(List.range nMaskSize).countP c.byteUsed) ∧
      nMaskSize ≤ (c.vout.length + 5) / 8 ∧ (0 < nMaskSize → c.byteUsed (nMaskSize - 1) = true) ∧
      ∀ i, 2 + nMaskSize * 8 ≤ i → c.isAvailable i = false := by
  obtain ⟨last,hfold,hle,hused,hfree⟩ :=
    foldl_lastUsed c.byteUsed ((c.vout.length + 5) / 8)
  have hpast : ∀ b, last ≤ b → c.byteUsed b = false := by
    intro b hb
    rcases lt_or_ge b ((c.vout.length + 5) / 8) with hlt | hge
    · exact hfree b hb hlt
    · refine List.any_eq_false.mpr fun i _ => ?_
      rw [isAvailable_false_of_le (by omega)]
      exact Bool.false_ne_true
  refine ⟨last,?_,hle,hused,fun i hi => ?_⟩
  · rw [calcMaskSize,hfold,countP_range_of_free hle hpast]
  · have hbyte := hpast ((i - 2) / 8) (by omega)
    have hmark := List.any_eq_false.mp hbyte ((i - 2) % 8) (List.mem_range.mpr (by omega))
    have hindex : 2 + (i - 2) / 8 * 8 + (i - 2) % 8 = i := by omega
    rw [hindex] at hmark
    exact Bool.eq_false_of_not_eq_true hmark

/-- The mask, read back, marks the outputs behind the first two. -/
theorem flatMap_maskByte (c : CCoins) (nMaskSize : ℕ) :
    c.isAvailable 0::c.isAvailable 1::
      ((List.range nMaskSize).map c.maskByte).flatMap unpackByte =
      (List.range (2 + nMaskSize * 8)).map c.isAvailable := by
  induction nMaskSize with
  | zero => rfl
  | succ n ih =>
    have hnext : 2 + (n + 1) * 8 = (2 + n * 8) + 8 := by omega
    have hrange : List.range (2 + n * 8 + 8) =
        List.range (2 + n * 8) ++ (List.range 8).map (2 + n * 8 + ·) := List.range_add ..
    rw [hnext,hrange,List.range_succ,List.map_append,List.flatMap_append,← List.cons_append,
      ← List.cons_append,ih,List.map_append,List.map_map,List.map_singleton,
      List.flatMap_singleton,maskByte,unpackByte_packByte]
    rfl

/-- The outputs that are left are those at marked positions. -/
theorem reduceOption_unspentAt {vout : List CTxOut} {n : ℕ}
    (h : ∀ i, n ≤ i → unspentAt vout i = none) :
    ((List.range n).map (unspentAt vout)).reduceOption = vout.filter fun out => !out.isNull := by
  induction vout generalizing n with
  | nil =>
    refine List.filterMap_eq_nil_iff.mpr fun o ho => ?_
    obtain ⟨i,_,rfl⟩ := List.mem_map.mp ho
    rfl
  | cons out vout ih =>
    have hshift : ∀ i, unspentAt (out::vout) (i + 1) = unspentAt vout i := fun _ => rfl
    cases n with
    | zero =>
      have hnull := unspentAt_eq_none.mp (h 0 le_rfl) out rfl
      have hrest := ih (n := 0) fun i _ => (hshift i).symm.trans (h (i + 1) (Nat.zero_le _))
      rw [List.filter_cons_of_neg (by simp [hnull]),← hrest]
      rfl
    | succ n =>
      have hrest := ih (n := n) fun i hi => (hshift i).symm.trans (h (i + 1) (Nat.succ_le_succ hi))
      rw [List.range_succ_eq_map,List.map_cons,List.map_map]
      have hmap : (unspentAt (out::vout) ∘ Nat.succ) = unspentAt vout := rfl
      rw [hmap]
      cases hnull : out.isNull with
      | true =>
        have hnone : unspentAt (out::vout) 0 = none := by simp [unspentAt,hnull]
        rw [hnone,List.reduceOption_cons_of_none,hrest,List.filter_cons_of_neg (by simp [hnull])]
      | false =>
        have hsome : unspentAt (out::vout) 0 = some out := by simp [unspentAt,hnull]
        rw [hsome,List.reduceOption_cons_of_some,hrest,List.filter_cons_of_pos (by simp [hnull])]

theorem unspentAt_map_range {vout : List CTxOut} {n : ℕ} (h : ∀ i, n ≤ i → unspentAt vout i = none) :
    unspentAt (((List.range n).map (unspentAt vout)).map (·.getD CTxOut.null)) = unspentAt vout := by
  funext i
  rcases lt_or_ge i n with hlt | hge
  · have hget : (((List.range n).map (unspentAt vout)).map (·.getD CTxOut.null))[i]? =
        some ((unspentAt vout i).getD CTxOut.null) := by simp [hlt]
    rw [unspentAt,hget]
    cases hi : unspentAt vout i with
    | none => rfl
    | some out => simp [(unspentAt_eq_some.mp hi).2]
  · rw [h i hge,unspentAt,List.getElem?_eq_none (by simpa using hge)]
    rfl

variable {keys : PubKeys}

theorem testBit_marks (q : ℕ) (a b d : Bool) :
    (8 * q + (if a then 1 else 0) + (if b then 2 else 0) + (if d then 4 else 0)).testBit 0 = a ∧
      (8 * q + (if a then 1 else 0) + (if b then 2 else 0) + (if d then 4 else 0)).testBit 1 = b ∧
      (8 * q + (if a then 1 else 0) + (if b then 2 else 0) + (if d then 4 else 0)).testBit 2 = d ∧
      (8 * q + (if a then 1 else 0) + (if b then 2 else 0) + (if d then 4 else 0)) / 8 = q := by
  simp only [Nat.testBit_eq_decide_div_mod_eq]
  refine ⟨?_,?_,?_,?_⟩ <;> cases a <;> cases b <;> cases d <;> simp <;> omega

theorem headerCode_spec (c : CCoins) {nMaskCode : ℕ} (hmask : c.isAvailable 0 = true ∨
      c.isAvailable 1 = true ∨ nMaskCode ≠ 0) (hsize : nMaskCode < 2^29) :
    c.headerCode nMaskCode < 2^32 ∧ (c.headerCode nMaskCode).testBit 0 = c.fCoinBase ∧
      (c.headerCode nMaskCode).testBit 1 = c.isAvailable 0 ∧
      (c.headerCode nMaskCode).testBit 2 = c.isAvailable 1 ∧
      c.headerCode nMaskCode / 8 +
        (if c.isAvailable 0 || c.isAvailable 1 then 0 else 1) = nMaskCode := by
  obtain ⟨q,hq⟩ : ∃ q, nMaskCode - (if c.isAvailable 0 || c.isAvailable 1 then 0 else 1) = q :=
    ⟨_,rfl⟩
  have hback : q + (if c.isAvailable 0 || c.isAvailable 1 then 0 else 1) = nMaskCode := by
    rw [← hq]
    refine Nat.sub_add_cancel ?_
    split_ifs with hfirst
    · exact Nat.zero_le _
    · rw [Bool.or_eq_true,not_or] at hfirst
      have hpos := (hmask.resolve_left hfirst.1).resolve_left hfirst.2
      omega
  have hcode : c.headerCode nMaskCode = 8 * q + (if c.fCoinBase then 1 else 0) +
      (if c.isAvailable 0 then 2 else 0) + (if c.isAvailable 1 then 4 else 0) := by
    rw [headerCode,hq]
    refine Nat.mod_eq_of_lt ?_
    split_ifs <;> omega
  obtain ⟨h₀,h₁,h₂,h₈⟩ := testBit_marks q c.fCoinBase (c.isAvailable 0) (c.isAvailable 1)
  rw [← hcode] at h₀ h₁ h₂ h₈
  refine ⟨?_,h₀,h₁,h₂,by rw [h₈,hback]⟩
  rw [headerCode]
  exact Nat.mod_lt _ (by decide)

theorem checkMask_ok {c : CCoins} (hlive : c.isPruned = false) : c.checkMask = .ok () ∧
    (c.isAvailable 0 = true ∨ c.isAvailable 1 = true ∨ c.calcMaskSize.2 ≠ 0) := by
  have hmask : c.isAvailable 0 = true ∨ c.isAvailable 1 = true ∨ c.calcMaskSize.2 ≠ 0 := by
    by_contra hnone
    rw [not_or,not_or,not_not] at hnone
    obtain ⟨h₀,h₁,hcount⟩ := hnone
    obtain ⟨nMaskSize,hcalc,_,hused,hpast⟩ := c.calcMaskSize_spec
    rw [hcalc,List.countP_eq_zero] at hcount
    have hzero : nMaskSize = 0 := by
      by_contra hne
      exact hcount (nMaskSize - 1) (List.mem_range.mpr (by omega)) (hused (by omega))
    have hpruned : c.isPruned = true := by
      rw [isPruned_iff]
      funext i
      rw [coinAt,Option.map_eq_none_iff,← Option.not_isSome_iff_eq_none,← isAvailable_eq]
      rcases Nat.lt_or_ge i 2 with hi | hi
      · rcases Nat.le_one_iff_eq_zero_or_eq_one.mp (Nat.le_of_lt_succ hi) with rfl | rfl
        · exact h₀
        · exact h₁
      · rw [hpast i (by omega)]
        exact Bool.false_ne_true
    rw [hlive] at hpruned
    cases hpruned
  exact ⟨if_pos hmask,hmask⟩

theorem maskByte_ne_zero (c : CCoins) (b : ℕ) : decide (c.maskByte b ≠ 0) = c.byteUsed b := by
  have hzero : c.maskByte b = 0 ↔ c.byteUsed b = false := packByte_eq_zero
  cases hused : c.byteUsed b <;> simp [hzero,hused]

theorem readMask_maskByte (c : CCoins) {nMaskSize : ℕ}
    (hused : 0 < nMaskSize → c.byteUsed (nMaskSize - 1) = true) (rest : Bytes) :
    readMask ((List.range nMaskSize).countP c.byteUsed)
        ((List.range nMaskSize).map c.maskByte ++ rest) =
      .ok (((List.range nMaskSize).map c.maskByte).flatMap unpackByte,rest) := by
  have hcount : (List.range nMaskSize).countP c.byteUsed =
      ((List.range nMaskSize).map c.maskByte).countP (· ≠ 0) := by
    rw [List.countP_map]
    exact List.countP_congr fun b _ => by
      rw [Function.comp_apply,c.maskByte_ne_zero]
  rw [hcount]
  refine readMask_append (fun ch hch => ?_) rest
  cases nMaskSize with
  | zero => cases hch
  | succ n =>
    rw [List.range_succ,List.map_append,List.map_singleton,List.getLast?_concat] at hch
    cases hch
    have hlast := (c.maskByte_ne_zero n).trans (hused n.succ_pos)
    exact of_decide_eq_true hlast

/-- Coins that are not pruned are given back without the spent outputs at the end, and their size is
known before. -/
theorem serialize_roundTrip (hkeys : keys.GivesBack) {c : CCoins} (h : c.Storable)
    (hlive : c.isPruned = false) : ∃ bytes, c.serialize keys = .ok bytes ∧
      c.getSerializeSize keys = .ok bytes.length ∧
      ∀ rest, (unserialize keys).run (bytes ++ rest) = .ok (c.cleanup,rest) := by
  obtain ⟨hcheck,hmask⟩ := checkMask_ok hlive
  obtain ⟨nMaskSize,hcalc,hle,hused,hpast⟩ := c.calcMaskSize_spec
  rw [hcalc] at hmask
  dsimp only at hmask
  have hsize := h.size
  generalize hcount : (List.range nMaskSize).countP c.byteUsed = nMaskCode at hcalc hmask
  have hcodeLt : nMaskCode < 2^29 := by
    have hle' := List.countP_le_length (p := c.byteUsed) (l := List.range nMaskSize)
    rw [List.length_range,hcount] at hle'
    omega
  obtain ⟨hlt,hbit₀,hbit₁,hbit₂,hback⟩ := c.headerCode_spec hmask hcodeLt
  refine ⟨_,by rw [serialize,hcalc,hcheck]; rfl,?_,fun rest => ?_⟩
  · have houts : ((c.vout.filter fun out => !out.isNull).map
        (CTxOutCompressor.getSerializeSize keys)).sum =
        ((c.vout.filter fun out => !out.isNull).flatMap (CTxOutCompressor.serialize keys)).length :=
      List.length_flatMap.symm
    rw [getSerializeSize,hcalc,hcheck,houts]
    simp only [List.length_append,writeVarInt_length,List.length_map,List.length_range]
    refine congrArg Except.ok ?_
    omega
  · have hnone : ∀ i, 2 + nMaskSize * 8 ≤ i → unspentAt c.vout i = none := fun i hi => by
      rw [← Option.not_isSome_iff_eq_none,← isAvailable_eq,hpast i hi]
      exact Bool.false_ne_true
    have hmarks : c.isAvailable 0::c.isAvailable 1::
        ((List.range nMaskSize).map c.maskByte).flatMap unpackByte =
        ((List.range (2 + nMaskSize * 8)).map (unspentAt c.vout)).map Option.isSome := by
      rw [flatMap_maskByte,List.map_map]
      exact List.map_congr_left fun i _ => c.isAvailable_eq i
    have hfits : ∀ out, some out ∈ (List.range (2 + nMaskSize * 8)).map (unspentAt c.vout) →
        CTxOutCompressor.Fits out := by
      intro out hout
      obtain ⟨i,_,hi⟩ := List.mem_map.mp hout
      obtain ⟨hget,hlive⟩ := unspentAt_eq_some.mp hi
      refine (h.outs out (List.mem_of_getElem? hget)).resolve_left ?_
      rintro rfl
      cases hlive
    obtain ⟨v,hv⟩ := Int.eq_ofNat_of_zero_le h.version
    have hvlt : c.nVersion.toInt < 2^31 := c.nVersion.toInt_lt
    have hheight := h.height
    rw [unserialize,hv,List.append_assoc,(readVarInt_inverts 32).run_bind (a := v) (by omega),
      List.append_assoc,(readVarInt_inverts 32).run_bind (a := c.headerCode nMaskCode) (by omega)]
    simp only [hbit₀,hbit₁,hbit₂,hback]
    have hread := c.readMask_maskByte hused
      ((c.vout.filter fun out => !out.isNull).flatMap (CTxOutCompressor.serialize keys) ++
        (writeVarInt c.nHeight ++ rest))
    have houts := optional_inverts (CTxOutCompressor.unserialize_inverts hkeys CTxOut.null) _ hfits
      (writeVarInt c.nHeight ++ rest)
    rw [reduceOption_unspentAt hnone,← hmarks] at houts
    rw [hcount] at hread
    rw [List.append_assoc,List.append_assoc,run_bind_of_ok hread,run_bind_of_ok houts,
      (readVarInt_inverts 32).run_bind (a := c.nHeight) (by omega)]
    have hvout : (((List.range (2 + nMaskSize * 8)).map (unspentAt c.vout)).map
        (·.getD CTxOut.null)).rdropWhile CTxOut.isNull = c.cleanup.vout := by
      refine eq_of_unspentAt (List.rdropWhile_idempotent _ _) (List.rdropWhile_idempotent _ _)
        (fun out hout hnull => ?_) (canonical_cleanup h.canonical) ?_
      · obtain ⟨o,ho,rfl⟩ := List.mem_map.mp ((List.rdropWhile_prefix _ _).subset hout)
        cases o with
        | none => rfl
        | some out =>
          have hlive := (hfits out ho).isNull
          rw [Option.getD_some,hlive] at hnull
          cases hnull
      · rw [cleanup,unspentAt_rdropWhile,unspentAt_rdropWhile,unspentAt_map_range hnone]
    have hversion : Int32.ofInt v = c.nVersion := by
      rw [← hv,Int32.ofInt_toInt]
    refine congrArg (fun c => Except.ok (c,rest)) ?_
    rw [cleanup,hvout,hversion]
    rfl

end CCoins

end Sidechain
