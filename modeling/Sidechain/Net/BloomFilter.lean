import Sidechain.Primitives.Outcome
import Sidechain.Primitives.Serialize
import Mathlib.Data.Nat.Bitwise

/-! Bloom filters over MurmurHash3, and the pair of them that remembers the keys inserted last. What
the constructors compute with floating point numbers is a parameter. -/
namespace Sidechain
open Run

def rotl32 (x r : UInt32) : UInt32 := (x <<< r) ||| (x >>> (32 - r))

def murmurMix (k1 : UInt32) : UInt32 := rotl32 (k1 * 0xcc9e2d51) 15 * 0x1b873593

/-- The blocks of four bytes, and what is left after them. -/
def murmurBody (h1 : UInt32) : Bytes → UInt32 × Bytes
  | a::b::c::d::rest =>
    murmurBody (rotl32 (h1 ^^^ murmurMix (UInt32.ofNat (ofLeBytes [a,b,c,d]))) 13 * 5 + 0xe6546b64)
      rest
  | tail => (h1,tail)

def murmurHash3 (nHashSeed : UInt32) (vDataToHash : Bytes) : UInt32 :=
  let (h1,tail) := murmurBody nHashSeed vDataToHash
  let h1 := if tail.isEmpty then h1 else h1 ^^^ murmurMix (UInt32.ofNat (ofLeBytes tail))
  let h1 := h1 ^^^ UInt32.ofNat vDataToHash.length
  let h1 := (h1 ^^^ (h1 >>> 16)) * 0x85ebca6b
  let h1 := (h1 ^^^ (h1 >>> 13)) * 0xc2b2ae35
  h1 ^^^ (h1 >>> 16)

def BLOOM_UPDATE_NONE : UInt8 := 0
def BLOOM_UPDATE_ALL : UInt8 := 1
def BLOOM_UPDATE_P2PUBKEY_ONLY : UInt8 := 2
def BLOOM_UPDATE_MASK : UInt8 := 3

structure CBloomFilter where
  vData : Bytes
  isFull : Bool
  isEmpty : Bool
  nHashFuncs : UInt32
  nTweak : UInt32
  nFlags : UInt8
  deriving DecidableEq, Repr

namespace CBloomFilter

/-- `Hash`, a remainder by the number of bits. -/
def hash (f : CBloomFilter) (nHashNum : UInt32) (vDataToHash : Bytes) : Outcome UInt32 :=
  if f.vData.length * 8 = 0 then .error (.undefined "division by zero")
  else .ok (UInt32.ofNat
    ((murmurHash3 (nHashNum * 0xFBA4C795 + f.nTweak) vDataToHash).toNat % (f.vData.length * 8)))

def bitMask (nIndex : UInt32) : UInt8 := (1 <<< (7 &&& nIndex)).toUInt8

/-- `vData[nIndex >> 3] |= (1 << (7 & nIndex))`. -/
def setBit (vData : Bytes) (nIndex : UInt32) : Outcome Bytes :=
  match vData[(nIndex >>> 3).toNat]? with
  | some b => .ok (vData.set (nIndex >>> 3).toNat (b ||| bitMask nIndex))
  | none => .error (.undefined "vData[nIndex >> 3]")

/-- `vData[nIndex >> 3] & (1 << (7 & nIndex))`. -/
def testBit (vData : Bytes) (nIndex : UInt32) : Outcome Bool :=
  match vData[(nIndex >>> 3).toNat]? with
  | some b => .ok (b &&& bitMask nIndex != 0)
  | none => .error (.undefined "vData[nIndex >> 3]")

def insertRound (vKey : Bytes) (f : CBloomFilter) (i : ℕ) : Outcome CBloomFilter := do
  let nIndex ← f.hash (UInt32.ofNat i) vKey
  let vData ← setBit f.vData nIndex
  pure {f with vData}

def insert (f : CBloomFilter) (vKey : Bytes) : Outcome CBloomFilter :=
  if f.isFull then .ok f
  else do
    let f ← (List.range f.nHashFuncs.toNat).foldlM (insertRound vKey) f
    pure {f with isEmpty := false}

def containsRound (f : CBloomFilter) (vKey : Bytes) (i : ℕ) : Outcome Bool := do
  let nIndex ← f.hash (UInt32.ofNat i) vKey
  testBit f.vData nIndex

def contains (f : CBloomFilter) (vKey : Bytes) : Outcome Bool :=
  if f.isFull then .ok true
  else if f.isEmpty then .ok false
  else (List.range f.nHashFuncs.toNat).allM (f.containsRound vKey)

def clear (f : CBloomFilter) : CBloomFilter :=
  {f with vData := List.replicate f.vData.length 0, isFull := false, isEmpty := true}

def reset (f : CBloomFilter) (nNewTweak : UInt32) : CBloomFilter :=
  {f.clear with nTweak := nNewTweak}

def updateEmptyFull (f : CBloomFilter) : CBloomFilter :=
  {f with isFull := f.vData.all (· == 0xff), isEmpty := f.vData.all (· == 0)}

/-- The bit that a number stands for. -/
def bit (vData : Bytes) (p : ℕ) : Bool := (vData.getD (p / 8) 0).toNat.testBit (p % 8)

variable {vData : Bytes} {p q : ℕ}

theorem shift_toNat (nIndex : UInt32) : (nIndex >>> 3).toNat = nIndex.toNat / 8 := by
  rw [UInt32.toNat_shiftRight]
  exact Nat.shiftRight_eq_div_pow _ 3

theorem bitMask_toNat (nIndex : UInt32) : (bitMask nIndex).toNat = 2^(nIndex.toNat % 8) := by
  have hall : ∀ k : Fin 8, ((1 : UInt32) <<< UInt32.ofNat k.val).toUInt8.toNat = 2^k.val := by
    decide
  have hlow : 7 &&& nIndex = UInt32.ofNat (nIndex.toNat % 8) := by
    rw [← UInt32.toNat_inj,UInt32.toNat_and]
    have hmod := Nat.and_two_pow_sub_one_eq_mod nIndex.toNat 3
    rw [Nat.and_comm] at hmod
    rw [UInt32.toNat_ofNat_of_lt' (Nat.lt_trans (Nat.mod_lt _ (by decide)) (by decide : 8 < _))]
    exact hmod
  rw [bitMask,hlow]
  exact hall ⟨nIndex.toNat % 8,Nat.mod_lt _ (by decide)⟩

theorem testBit_ok {nIndex : UInt32} (h : nIndex.toNat < vData.length * 8) :
    testBit vData nIndex = .ok (bit vData nIndex.toNat) := by
  have hlt : nIndex.toNat / 8 < vData.length := by omega
  rw [testBit,shift_toNat,List.getElem?_eq_getElem hlt]
  dsimp only
  rw [bit,List.getD_eq_getElem?_getD,List.getElem?_eq_getElem hlt,Option.getD_some]
  refine congrArg Except.ok ?_
  have hand : (vData[nIndex.toNat / 8] &&& bitMask nIndex).toNat =
      (vData[nIndex.toNat / 8].toNat.testBit (nIndex.toNat % 8)).toNat * 2^(nIndex.toNat % 8) := by
    rw [UInt8.toNat_and,bitMask_toNat,Nat.and_two_pow]
  rw [Bool.eq_iff_iff,bne_iff_ne,ne_eq,← UInt8.toNat_inj,hand]
  cases vData[nIndex.toNat / 8].toNat.testBit (nIndex.toNat % 8) <;> simp

theorem setBit_ok {nIndex : UInt32} (h : nIndex.toNat < vData.length * 8) :
    ∃ vData', setBit vData nIndex = .ok vData' ∧ vData'.length = vData.length ∧
      ∀ p, bit vData' p = (bit vData p || decide (p = nIndex.toNat)) := by
  have hlt : nIndex.toNat / 8 < vData.length := by omega
  refine ⟨vData.set (nIndex.toNat / 8) (vData[nIndex.toNat / 8] ||| bitMask nIndex),?_,
    List.length_set,fun p => ?_⟩
  · rw [setBit,shift_toNat,List.getElem?_eq_getElem hlt]
  · rw [bit,bit,List.getD_eq_getElem?_getD,List.getD_eq_getElem?_getD,List.getElem?_set]
    by_cases hp : nIndex.toNat / 8 = p / 8
    · rw [if_pos hp,if_pos hlt,← hp,List.getElem?_eq_getElem hlt,Option.getD_some,Option.getD_some,
        UInt8.toNat_or,bitMask_toNat,Nat.testBit_or,Nat.testBit_two_pow]
      refine congrArg _ (decide_eq_decide.mpr ⟨fun h => by omega,fun h => by rw [h]⟩)
    · rw [if_neg hp,decide_eq_false (fun h => hp (by rw [h])),Bool.or_false]

/-- The bits of a key. -/
def position (f : CBloomFilter) (vKey : Bytes) (i : ℕ) : ℕ :=
  (murmurHash3 (UInt32.ofNat i * 0xFBA4C795 + f.nTweak) vKey).toNat % (f.vData.length * 8)

def Has (f : CBloomFilter) (vKey : Bytes) : Prop :=
  ∀ i < f.nHashFuncs.toNat, bit f.vData (f.position vKey i) = true

/-- A filter without bits has no hash functions. -/
def Usable (f : CBloomFilter) : Prop := f.vData ≠ [] ∨ f.nHashFuncs.toNat = 0

/-- Or it is taken to be full, and its bits are never looked at. -/
def Sound (f : CBloomFilter) : Prop := f.isFull = true ∨ f.Usable

/-- All but the bits and the flag `isEmpty` stays. -/
structure Same (f g : CBloomFilter) : Prop where
  length : g.vData.length = f.vData.length
  isFull : g.isFull = f.isFull
  nHashFuncs : g.nHashFuncs = f.nHashFuncs
  nTweak : g.nTweak = f.nTweak
  nFlags : g.nFlags = f.nFlags

variable {f g : CBloomFilter} {vKey : Bytes}

theorem Same.refl (f : CBloomFilter) : f.Same f := ⟨rfl,rfl,rfl,rfl,rfl⟩

theorem Same.trans {e : CBloomFilter} (h : f.Same g) (h' : g.Same e) : f.Same e :=
  ⟨h'.length.trans h.length,h'.isFull.trans h.isFull,h'.nHashFuncs.trans h.nHashFuncs,
    h'.nTweak.trans h.nTweak,h'.nFlags.trans h.nFlags⟩

theorem Same.position (h : f.Same g) (vKey : Bytes) (i : ℕ) :
    g.position vKey i = f.position vKey i := by
  rw [CBloomFilter.position,CBloomFilter.position,h.length,h.nTweak]

theorem Same.usable (h : f.Same g) (hf : f.Usable) : g.Usable := by
  rw [Usable,h.nHashFuncs,← List.length_pos_iff,h.length,List.length_pos_iff]
  exact hf

theorem Same.sound (h : f.Same g) (hf : f.Sound) : g.Sound :=
  hf.imp (h.isFull.trans ·) h.usable

theorem hash_ok (h : f.vData ≠ []) (vKey : Bytes) (i : ℕ) : ∃ nIndex : UInt32,
    f.hash (UInt32.ofNat i) vKey = .ok nIndex ∧ nIndex.toNat = f.position vKey i ∧
      nIndex.toNat < f.vData.length * 8 := by
  have hpos := List.length_pos_iff.mpr h
  have hlt : f.position vKey i < f.vData.length * 8 := Nat.mod_lt _ (by omega)
  have hsmall : f.position vKey i < 2^32 := (Nat.mod_le _ _).trans_lt (UInt32.toNat_lt _)
  refine ⟨UInt32.ofNat (f.position vKey i),?_,UInt32.toNat_ofNat_of_lt' hsmall,?_⟩
  · rw [hash,if_neg (by omega)]
    rfl
  · rwa [UInt32.toNat_ofNat_of_lt' hsmall]

theorem containsRound_ok (h : f.vData ≠ []) (vKey : Bytes) (i : ℕ) :
    f.containsRound vKey i = .ok (bit f.vData (f.position vKey i)) := by
  obtain ⟨nIndex,hhash,hposition,hlt⟩ := hash_ok h vKey i
  rw [containsRound,hhash,← hposition]
  exact testBit_ok hlt

theorem allM_ok {α : Type} {l : List α} {p : α → Outcome Bool} {q : α → Bool}
    (h : ∀ a ∈ l, p a = .ok (q a)) : l.allM p = .ok (l.all q) := by
  induction l with
  | nil => rfl
  | cons a l ih =>
    rw [List.allM,h a List.mem_cons_self,List.all_cons]
    cases hq : q a with
    | true => exact ih fun b hb => h b (List.mem_cons_of_mem a hb)
    | false => rfl

theorem contains_ok (h : f.Sound) (vKey : Bytes) : ∃ b, f.contains vKey = .ok b ∧
    (b = true ↔ f.isFull = true ∨ (f.isEmpty = false ∧ f.Has vKey)) := by
  rw [contains]
  cases hfull : f.isFull with
  | true => exact ⟨true,rfl,by simp⟩
  | false =>
    cases hempty : f.isEmpty with
    | true => exact ⟨false,rfl,by simp⟩
    | false =>
      have hround : ∀ i ∈ List.range f.nHashFuncs.toNat,
          f.containsRound vKey i = .ok (bit f.vData (f.position vKey i)) := by
        intro i hi
        refine containsRound_ok ?_ vKey i
        rintro hnil
        rw [Sound,Usable,hfull,hnil] at h
        have hlt := List.mem_range.mp hi
        simp at h
        omega
      refine ⟨_,allM_ok hround,?_⟩
      simp [Has]

/-- What a round of the insertion keeps, and the bit it sets. -/
theorem insertRound_ok (h : f.vData ≠ []) (vKey : Bytes) (i : ℕ) : ∃ g,
    insertRound vKey f i = .ok g ∧ f.Same g ∧ g.isEmpty = f.isEmpty ∧
      ∀ p, bit g.vData p = (bit f.vData p || decide (p = f.position vKey i)) := by
  obtain ⟨nIndex,hhash,hposition,hlt⟩ := hash_ok h vKey i
  obtain ⟨vData,hset,hlength,hbit⟩ := setBit_ok hlt
  refine ⟨{f with vData},?_,⟨hlength,rfl,rfl,rfl,rfl⟩,rfl,fun p => hposition ▸ hbit p⟩
  rw [insertRound,hhash]
  change (setBit f.vData nIndex >>= _) = _
  rw [hset]
  rfl

theorem insertRounds_ok (h : f.vData ≠ []) (vKey : Bytes) (l : List ℕ) : ∃ g,
    l.foldlM (insertRound vKey) f = .ok g ∧ f.Same g ∧ g.isEmpty = f.isEmpty ∧
      ∀ p, bit g.vData p = true ↔ bit f.vData p = true ∨ ∃ i ∈ l, p = f.position vKey i := by
  induction l generalizing f with
  | nil => exact ⟨f,rfl,Same.refl f,rfl,fun p => by simp⟩
  | cons i l ih =>
    obtain ⟨e,hround,hsame,hempty,hbit⟩ := insertRound_ok h vKey i
    have hne : e.vData ≠ [] := by
      rw [← List.length_pos_iff,hsame.length]
      exact List.length_pos_iff.mpr h
    obtain ⟨g,hrest,hsame',hempty',hbit'⟩ := ih hne
    refine ⟨g,by rw [List.foldlM_cons,hround]; exact hrest,hsame.trans hsame',
      hempty'.trans hempty,fun p => ?_⟩
    simp only [hbit',hbit,hsame.position,Bool.or_eq_true,decide_eq_true_eq,List.mem_cons,
      exists_eq_or_imp,or_assoc]

/-- A filter only ever gains keys. -/
structure Grows (f g : CBloomFilter) : Prop where
  same : f.Same g
  isEmpty : f.isEmpty = false → g.isEmpty = false
  bits : ∀ p, bit f.vData p = true → bit g.vData p = true

theorem Grows.refl (f : CBloomFilter) : f.Grows f := ⟨Same.refl f,id,fun _ => id⟩

theorem Grows.trans {e : CBloomFilter} (h : f.Grows g) (h' : g.Grows e) : f.Grows e :=
  ⟨h.same.trans h'.same,h'.isEmpty ∘ h.isEmpty,fun p => h'.bits p ∘ h.bits p⟩

theorem Grows.has (h : f.Grows g) (hkey : f.Has vKey) : g.Has vKey := by
  intro i hi
  rw [h.same.position]
  exact h.bits _ (hkey i (h.same.nHashFuncs ▸ hi))

theorem Grows.contains (h : f.Grows g) (hf : f.Sound) (hkey : f.contains vKey = .ok true) :
    g.contains vKey = .ok true := by
  obtain ⟨b,hb,hiff⟩ := contains_ok hf vKey
  obtain rfl : true = b := Except.ok.inj (hkey.symm.trans hb)
  obtain ⟨b',hb',hiff'⟩ := contains_ok (h.same.sound hf) vKey
  rw [hb']
  refine congrArg Except.ok (hiff'.mpr ((hiff.mp rfl).imp (h.same.isFull.trans ·) ?_))
  exact fun ⟨hempty,hhas⟩ => ⟨h.isEmpty hempty,h.has hhas⟩

theorem insert_ok (h : f.Sound) (vKey : Bytes) : ∃ g,
    f.insert vKey = .ok g ∧ f.Grows g ∧ g.contains vKey = .ok true := by
  cases hfull : f.isFull with
  | true => exact ⟨f,by simp [insert,hfull],Grows.refl f,by simp [CBloomFilter.contains,hfull]⟩
  | false =>
    obtain ⟨g,hrounds,hsame,hbit⟩ : ∃ g,
        (List.range f.nHashFuncs.toNat).foldlM (insertRound vKey) f = .ok g ∧ f.Same g ∧
          ∀ p, bit g.vData p = true ↔ bit f.vData p = true ∨
            ∃ i ∈ List.range f.nHashFuncs.toNat, p = f.position vKey i := by
      rcases h with h | h | h
      · rw [hfull] at h
        cases h
      · obtain ⟨g,hrounds,hsame,-,hbit⟩ := insertRounds_ok h vKey (List.range f.nHashFuncs.toNat)
        exact ⟨g,hrounds,hsame,hbit⟩
      · rw [h]
        exact ⟨f,rfl,Same.refl f,fun p => by simp⟩
    have hgrows : f.Grows {g with isEmpty := false} :=
      ⟨⟨hsame.length,hsame.isFull,hsame.nHashFuncs,hsame.nTweak,hsame.nFlags⟩,fun _ => rfl,
        fun p hp => (hbit p).mpr (.inl hp)⟩
    refine ⟨{g with isEmpty := false},?_,hgrows,?_⟩
    · rw [insert,hfull,if_neg Bool.false_ne_true,hrounds]
      rfl
    · obtain ⟨b,hb,hiff⟩ := contains_ok (hgrows.same.sound h) vKey
      rw [hb]
      refine congrArg Except.ok (hiff.mpr (.inr ⟨rfl,fun i hi => ?_⟩))
      rw [hgrows.same.position]
      exact (hbit _).mpr (.inr ⟨i,List.mem_range.mpr (hsame.nHashFuncs ▸ hi),rfl⟩)

end CBloomFilter

/-- What the constructor computes with doubles, for some rate of false positives: the bytes for a
number of elements, `(unsigned int)(-1 / LN2SQUARED * nElements * log(nFPRate)) / 8`, and the hash
functions for a quotient, `(unsigned int)(n * LN2)`. -/
structure BloomSizes where
  bytes : UInt32 → ℕ
  hashFuncs : ℕ → UInt32
  hashFuncs_zero : hashFuncs 0 = 0

/-- The constructor for `CRollingBloomFilter`. -/
def CBloomFilter.rolling (sizes : BloomSizes) (nElements nTweakIn : UInt32) :
    Outcome CBloomFilter :=
  let vData : Bytes := List.replicate (sizes.bytes nElements) 0
  if nElements = 0 then .error (.undefined "division by zero")
  else .ok ⟨vData,false,true,sizes.hashFuncs (vData.length * 8 / nElements.toNat),nTweakIn,
    BLOOM_UPDATE_NONE⟩

structure CRollingBloomFilter where
  nBloomSize : UInt32
  nInsertions : UInt32
  b1 : CBloomFilter
  b2 : CBloomFilter
  deriving DecidableEq, Repr

namespace CRollingBloomFilter

/-- `reset`, with the tweak that was drawn. -/
def reset (r : CRollingBloomFilter) (nNewTweak : UInt32) : CRollingBloomFilter :=
  {r with b1 := r.b1.reset nNewTweak, b2 := r.b2.reset nNewTweak, nInsertions := 0}

/-- The constructor. -/
def create (sizes : BloomSizes) (nElements nNewTweak : UInt32) : Outcome CRollingBloomFilter := do
  let b1 ← CBloomFilter.rolling sizes (nElements * 2) 0
  let b2 ← CBloomFilter.rolling sizes (nElements * 2) 0
  pure (reset ⟨nElements * 2,0,b1,b2⟩ nNewTweak)

def insert (r : CRollingBloomFilter) (vKey : Bytes) : Outcome CRollingBloomFilter := do
  let b1 := if r.nInsertions = 0 then r.b1.clear else r.b1
  let b2 := if r.nInsertions ≠ 0 ∧ r.nInsertions = r.nBloomSize / 2 then r.b2.clear else r.b2
  let b1 ← b1.insert vKey
  let b2 ← b2.insert vKey
  let nInsertions := r.nInsertions + 1
  pure ⟨r.nBloomSize,if nInsertions = r.nBloomSize then 0 else nInsertions,b1,b2⟩

def contains (r : CRollingBloomFilter) (vKey : Bytes) : Outcome Bool :=
  if r.nInsertions < r.nBloomSize / 2 then r.b2.contains vKey else r.b1.contains vKey

inductive Call where
  | insert (vKey : Bytes)
  | reset (nNewTweak : UInt32)
  deriving DecidableEq, Repr

def step (r : CRollingBloomFilter) : Call → Outcome CRollingBloomFilter
  | .insert vKey => r.insert vKey
  | .reset nNewTweak => .ok (r.reset nNewTweak)

/-- The keys inserted since the last reset, in order. -/
def since (keys : List Bytes) : List Call → List Bytes
  | [] => keys
  | .insert vKey :: calls => since (keys ++ [vKey]) calls
  | .reset _ :: calls => since [] calls

/-- The last `n` keys of a list. -/
def lastKeys (n : ℕ) (keys : List Bytes) : List Bytes := keys.drop (keys.length - n)

/-- The filter has the keys inserted since it was cleared: it is cleared before every key whose
number, moved on by an offset, is a multiple of the period. -/
def Tracks (period offset : ℕ) (keys : List Bytes) (b : CBloomFilter) : Prop :=
  ∀ vKey ∈ lastKeys ((keys.length + offset) % period) keys, b.contains vKey = .ok true

/-- What holds after the keys: the counter, and what each of the filters has. -/
structure Inv (n : ℕ) (keys : List Bytes) (r : CRollingBloomFilter) : Prop where
  nBloomSize : r.nBloomSize.toNat = 2 * n
  nInsertions : r.nInsertions.toNat = keys.length % (2 * n)
  usable1 : r.b1.Usable
  usable2 : r.b2.Usable
  tracks1 : Tracks (2 * n) 0 keys r.b1
  tracks2 : Tracks (2 * n) n keys r.b2

variable {n period offset : ℕ} {keys : List Bytes} {r : CRollingBloomFilter} {b : CBloomFilter}

theorem tracks_nil (period offset : ℕ) (b : CBloomFilter) : Tracks period offset [] b := by
  intro vKey hvKey
  cases List.mem_of_mem_drop hvKey

theorem mem_lastKeys_concat {vKey key : Bytes} {m : ℕ}
    (h : vKey ∈ lastKeys (m + 1) (keys ++ [key])) : vKey ∈ lastKeys m keys ∨ vKey = key := by
  rw [lastKeys,List.length_append,List.length_singleton,Nat.add_sub_add_right,
    List.drop_append_of_le_length (Nat.sub_le _ _),List.mem_append,List.mem_singleton] at h
  exact h

theorem Tracks.insert (hperiod : 1 < period) (h : Tracks period offset keys b) {b' : CBloomFilter}
    (hcleared : (keys.length + offset) % period ≠ 0 → b' = b) (husable : b'.Usable) (key : Bytes) :
    ∃ g, b'.insert key = .ok g ∧ g.Usable ∧ Tracks period offset (keys ++ [key]) g := by
  have hsound : b'.Sound := .inr husable
  obtain ⟨g,hg,hgrows,hkey⟩ := CBloomFilter.insert_ok hsound key
  refine ⟨g,hg,hgrows.same.usable husable,fun vKey hvKey => ?_⟩
  rw [List.length_append,List.length_singleton,Nat.add_right_comm] at hvKey
  have hlt := Nat.mod_lt (keys.length + offset) (Nat.zero_lt_of_lt hperiod)
  by_cases hzero : (keys.length + offset) % period = 0
  · have hone : (keys.length + offset + 1) % period = 0 + 1 := by
      rw [Nat.add_mod,hzero,Nat.mod_eq_of_lt hperiod,Nat.mod_eq_of_lt (by omega)]
    rw [hone] at hvKey
    rcases mem_lastKeys_concat hvKey with hold | rfl
    · simp [lastKeys] at hold
    · exact hkey
  · obtain rfl := hcleared hzero
    by_cases hend : (keys.length + offset) % period + 1 = period
    · have hnone : (keys.length + offset + 1) % period = 0 := by
        rw [Nat.add_mod,Nat.mod_eq_of_lt hperiod,hend,Nat.mod_self]
      rw [hnone,lastKeys,Nat.sub_zero,List.drop_length] at hvKey
      cases hvKey
    · have hnext : (keys.length + offset + 1) % period = (keys.length + offset) % period + 1 := by
        rw [Nat.add_mod,Nat.mod_eq_of_lt hperiod,Nat.mod_eq_of_lt (by omega)]
      rw [hnext] at hvKey
      rcases mem_lastKeys_concat hvKey with hold | rfl
      · exact hgrows.contains hsound (h vKey hold)
      · exact hkey

theorem usable_clear (h : b.Usable) : b.clear.Usable :=
  h.imp_left fun hne => by simpa [CBloomFilter.clear] using hne

theorem Inv.insert (hpos : 0 < n) (hsmall : n < 2^31) (h : Inv n keys r) (key : Bytes) :
    ∃ r', r.insert key = .ok r' ∧ Inv n (keys ++ [key]) r' := by
  have hsize := h.nBloomSize
  have hcount := h.nInsertions
  have hhalf : (r.nBloomSize / 2).toNat = n := by
    rw [UInt32.toNat_div,hsize]
    exact Nat.mul_div_cancel_left n (by decide)
  have hlt : keys.length % (2 * n) < 2 * n := Nat.mod_lt _ (by omega)
  have hfirst : (keys.length + 0) % (2 * n) ≠ 0 →
      (if r.nInsertions = 0 then r.b1.clear else r.b1) = r.b1 := by
    refine fun hne => if_neg fun h0 => hne ?_
    rw [Nat.add_zero,← hcount,h0]
    rfl
  have hsecond : (keys.length + n) % (2 * n) ≠ 0 →
      (if r.nInsertions ≠ 0 ∧ r.nInsertions = r.nBloomSize / 2 then r.b2.clear else r.b2)
        = r.b2 := by
    refine fun hne => if_neg fun hswitch => hne ?_
    have hn : keys.length % (2 * n) = n := by rw [← hcount,hswitch.2,hhalf]
    rw [Nat.add_mod,hn,Nat.mod_eq_of_lt (by omega : n < 2 * n),← Nat.two_mul,Nat.mod_self]
  have husable1 : (if r.nInsertions = 0 then r.b1.clear else r.b1).Usable := by
    split_ifs
    · exact usable_clear h.usable1
    · exact h.usable1
  have husable2 : (if r.nInsertions ≠ 0 ∧ r.nInsertions = r.nBloomSize / 2 then r.b2.clear
      else r.b2).Usable := by
    split_ifs
    · exact usable_clear h.usable2
    · exact h.usable2
  obtain ⟨b1,hb1,husable1,htracks1⟩ := h.tracks1.insert (by omega) hfirst husable1 key
  obtain ⟨b2,hb2,husable2,htracks2⟩ := h.tracks2.insert (by omega) hsecond husable2 key
  have hnext : (r.nInsertions + 1).toNat = keys.length % (2 * n) + 1 := by
    rw [UInt32.toNat_add,hcount,UInt32.toNat_one]
    exact Nat.mod_eq_of_lt (by omega)
  refine ⟨⟨r.nBloomSize,if r.nInsertions + 1 = r.nBloomSize then 0 else r.nInsertions + 1,b1,b2⟩,
    ?_,?_⟩
  · simp only [CRollingBloomFilter.insert,hb1,hb2]
    rfl
  · refine ⟨hsize,?_,husable1,husable2,htracks1,htracks2⟩
    rw [List.length_append,List.length_singleton]
    dsimp only
    split_ifs with hwrap
    · have hend : keys.length % (2 * n) + 1 = 2 * n := by rw [← hnext,hwrap,hsize]
      rw [Nat.add_mod,Nat.mod_eq_of_lt (by omega : 1 < 2 * n),hend,Nat.mod_self]
      rfl
    · have hend : keys.length % (2 * n) + 1 ≠ 2 * n := by
        rw [← hnext,← hsize]
        exact fun heq => hwrap (UInt32.toNat_inj.mp heq)
      have hroom : keys.length % (2 * n) + 1 < 2 * n := by omega
      rw [hnext,Nat.add_mod,Nat.mod_eq_of_lt (by omega : 1 < 2 * n),Nat.mod_eq_of_lt hroom]

theorem Inv.reset (h : Inv n keys r) (nNewTweak : UInt32) : Inv n [] (r.reset nNewTweak) :=
  ⟨h.nBloomSize,by simp [CRollingBloomFilter.reset],usable_clear h.usable1,usable_clear h.usable2,
    tracks_nil _ _ _,tracks_nil _ _ _⟩

theorem lastKeys_mono {m : ℕ} (h : n ≤ m) {vKey : Bytes} (hvKey : vKey ∈ lastKeys n keys) :
    vKey ∈ lastKeys m keys := by
  rw [lastKeys,show keys.length - n = (keys.length - m) + (keys.length - n - (keys.length - m)) by
    omega,← List.drop_drop] at hvKey
  exact List.mem_of_mem_drop hvKey

/-- The filter that is asked was cleared before at least `n` keys, or holds all there are. -/
theorem Inv.contains (hpos : 0 < n) (h : Inv n keys r) {vKey : Bytes}
    (hvKey : vKey ∈ lastKeys n keys) : r.contains vKey = .ok true := by
  have hhalf : (r.nBloomSize / 2).toNat = n := by
    rw [UInt32.toNat_div,h.nBloomSize]
    exact Nat.mul_div_cancel_left n (by decide)
  have hlt : keys.length % (2 * n) < 2 * n := Nat.mod_lt _ (by omega)
  rw [CRollingBloomFilter.contains]
  split_ifs with hlow
  · rw [UInt32.lt_iff_toNat_lt,hhalf,h.nInsertions] at hlow
    refine h.tracks2 vKey (lastKeys_mono ?_ hvKey)
    rw [Nat.add_mod,Nat.mod_eq_of_lt (by omega : n < 2 * n),Nat.mod_eq_of_lt (by omega)]
    exact Nat.le_add_left n _
  · rw [UInt32.lt_iff_toNat_lt,hhalf,h.nInsertions,not_lt] at hlow
    exact h.tracks1 vKey (lastKeys_mono hlow hvKey)

theorem usable_rolling {sizes : BloomSizes} {nElements nTweakIn : UInt32}
    (h : CBloomFilter.rolling sizes nElements nTweakIn = .ok b) : b.Usable := by
  unfold CBloomFilter.rolling at h
  split_ifs at h
  cases h
  rcases Nat.eq_zero_or_pos (sizes.bytes nElements) with hnone | hsome
  · refine .inr ?_
    simp [hnone,sizes.hashFuncs_zero]
  · exact .inl (by simpa using Nat.pos_iff_ne_zero.mp hsome)

theorem inv_create (sizes : BloomSizes) {nElements : UInt32} (hpos : 0 < nElements.toNat)
    (hsmall : nElements.toNat < 2^31) (nNewTweak : UInt32) : ∃ r,
      create sizes nElements nNewTweak = .ok r ∧ Inv nElements.toNat [] r := by
  have hdouble : (nElements * 2).toNat = 2 * nElements.toNat := by
    rw [UInt32.toNat_mul]
    change nElements.toNat * 2 % 2^32 = _
    omega
  have hne : nElements * 2 ≠ 0 := by
    intro h0
    rw [h0] at hdouble
    change 0 = _ at hdouble
    omega
  obtain ⟨b,hb⟩ : ∃ b, CBloomFilter.rolling sizes (nElements * 2) 0 = .ok b :=
    ⟨_,if_neg hne⟩
  have husable := usable_clear (usable_rolling hb)
  exact ⟨_,by rw [create,hb]; rfl,hdouble,by simp [CRollingBloomFilter.reset],husable,husable,
    tracks_nil _ _ _,tracks_nil _ _ _⟩

theorem inv_run (hpos : 0 < n) (hsmall : n < 2^31) (h : Inv n keys r) (calls : List Call) :
    ∃ r', calls.foldlM step r = .ok r' ∧ Inv n (since keys calls) r' := by
  induction calls generalizing r keys with
  | nil => exact ⟨r,rfl,h⟩
  | cons call calls ih =>
    cases call with
    | insert vKey =>
      obtain ⟨e,he,hinv⟩ := h.insert hpos hsmall vKey
      obtain ⟨r',hr',hinv'⟩ := ih hinv
      exact ⟨r',by rw [List.foldlM_cons,step,he]; exact hr',hinv'⟩
    | reset nNewTweak =>
      obtain ⟨r',hr',hinv'⟩ := ih (h.reset nNewTweak)
      exact ⟨r',hr',hinv'⟩

/-- After any calls the filter for `nElements`, if that is not zero and can be doubled, contains
each of the last `nElements` keys. -/
theorem contains_lastKeys (sizes : BloomSizes) {nElements : UInt32} (hpos : 0 < nElements.toNat)
    (hsmall : nElements.toNat < 2^31) (nNewTweak : UInt32) (calls : List Call) :
    ∃ r, (create sizes nElements nNewTweak >>= calls.foldlM step) = .ok r ∧
      ∀ vKey ∈ lastKeys nElements.toNat (since [] calls), r.contains vKey = .ok true := by
  obtain ⟨e,he,hinv⟩ := inv_create sizes hpos hsmall nNewTweak
  obtain ⟨r,hr,hinv'⟩ := inv_run hpos hsmall hinv calls
  exact ⟨r,by rw [he]; exact hr,fun vKey => hinv'.contains hpos⟩

/-- The sizes for one false positive in a hundred. -/
def sizesForOnePercent : BloomSizes where
  bytes nElements := nElements.toNat * 9585058 / 1000000 / 8
  hashFuncs n := UInt32.ofNat (n * 693147 / 1000000)
  hashFuncs_zero := rfl

theorem contains_lastKeys_two : ∃ r,
    (create sizesForOnePercent 2 7 >>= [Call.insert [9],.reset 11,.insert [1],.insert [2],
      .insert [3]].foldlM step) = .ok r ∧ ∀ vKey ∈ lastKeys 2 (since [] [Call.insert [9],.reset 11,
      .insert [1],.insert [2],.insert [3]]), r.contains vKey = .ok true :=
  contains_lastKeys sizesForOnePercent (by decide) (by decide) 7 _

/-- Doubled, 2147483649 is 2: the second key clears the first one. And 2147483648 is 0. -/
theorem lastKeys_wraps :
    (create sizesForOnePercent 2147483649 7 >>= [Call.insert [1],.insert [2]].foldlM step >>=
      fun r => r.contains [1]) = .ok false ∧
      [1] ∈ lastKeys (UInt32.toNat 2147483649) (since [] [Call.insert [1],.insert [2]]) ∧
      create sizesForOnePercent 2147483648 7 = .error (.undefined "division by zero") := by
  decide

end CRollingBloomFilter
end Sidechain
