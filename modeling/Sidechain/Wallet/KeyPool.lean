import Sidechain.Library.Worklist
import Sidechain.Primitives.Outcome
import Sidechain.Library.FiniteMap
import Mathlib

/-! The key pool of the wallet and those who reserve keys of it. A key is the number of keys
generated before it, so that each one is new; the database is the map of its pool records, and
writing it succeeds. No key is handed out twice and every index of the pool has its record, as long as
no key is written under an index that somebody holds. -/
namespace Sidechain
open Iteration

abbrev CPubKey := ℕ

/-- What of the wallet its key pool uses. -/
structure CWallet where
  setKeyPool : Finset ℕ := ∅
  pool : Finmap fun _ : ℕ => CPubKey := ∅
  isLocked : Bool := false
  generated : ℕ := 0
  /-- The option `-keypool`. -/
  keypoolArg : ℤ := 100

namespace CWallet

def haveKey (w : CWallet) (key : CPubKey) : Bool := decide (key < w.generated)

/-- A new key is written to the pool under an index. -/
def addToPool (w : CWallet) (nIndex : ℕ) : CWallet :=
  { w with
    pool := w.pool.insert nIndex w.generated
    setKeyPool := insert nIndex w.setKeyPool
    generated := w.generated + 1 }

def defaultSize (w : CWallet) : ℕ := (max w.keypoolArg 0).toNat

/-- The records of the pool's set are erased, and the set is cleared. -/
def clearPool (w : CWallet) : CWallet :=
  { w with
    pool := (inOrder (· ≤ ·) w.setKeyPool).foldl (fun pool nIndex => pool.erase nIndex) w.pool
    setKeyPool := ∅ }

def newKeyPool (w : CWallet) : CWallet × Bool :=
  if w.isLocked then (w.clearPool,false)
  else ((List.range w.defaultSize).foldl (fun w i => w.addToPool (i + 1)) w.clearPool,true)

/-- One more than the greatest index, or one. -/
def nEnd (w : CWallet) : ℕ := if w.setKeyPool = ∅ then 1 else w.setKeyPool.sup id + 1

def topUpLoop (nSize : ℕ) : ℕ → CWallet → CWallet
  | 0,w => w
  | rounds + 1,w =>
    if w.setKeyPool.card < nSize then topUpLoop nSize rounds (w.addToPool w.nEnd) else w

/-- `nTargetSize + 1`, which is an `unsigned int`. -/
def topUpSize (w : CWallet) (kpSize : ℕ) : ℕ :=
  let nTargetSize := if kpSize > 0 then kpSize else w.defaultSize
  (nTargetSize + 1) % 2^32

def topUpKeyPool (w : CWallet) (kpSize : ℕ) : CWallet × Bool :=
  if w.isLocked then (w,false)
  else (topUpLoop (w.topUpSize kpSize) (w.topUpSize kpSize) w,true)

/-- The oldest key with its index, if there is one. -/
def reserveKeyFromKeyPool (w : CWallet) : Outcome (CWallet × Option (ℕ × CPubKey)) :=
  let w := if w.isLocked then w else (w.topUpKeyPool 0).1
  match begin (· ≤ ·) w.setKeyPool with
  | none => .ok (w,none)
  | some nIndex =>
    let w := { w with setKeyPool := w.setKeyPool.erase nIndex }
    match w.pool.lookup nIndex with
    | none => .error (.exception "ReserveKeyFromKeyPool(): read failed")
    | some vchPubKey =>
      if w.haveKey vchPubKey then .ok (w,some (nIndex,vchPubKey))
      else .error (.exception "ReserveKeyFromKeyPool(): unknown key in key pool")

def keepKey (w : CWallet) (nIndex : ℕ) : CWallet := { w with pool := w.pool.erase nIndex }

def returnKey (w : CWallet) (nIndex : ℕ) : CWallet :=
  { w with setKeyPool := insert nIndex w.setKeyPool }

def generateNewKey (w : CWallet) : CWallet × CPubKey :=
  ({ w with generated := w.generated + 1 },w.generated)

def getKeyFromPool (w : CWallet) : Outcome (CWallet × Option CPubKey) := do
  let (w,reserved) ← w.reserveKeyFromKeyPool
  match reserved with
  | none =>
    if w.isLocked then pure (w,none)
    else pure (w.generateNewKey.1,some w.generateNewKey.2)
  | some (nIndex,vchPubKey) => pure (w.keepKey nIndex,some vchPubKey)

end CWallet

/-- The wallet, the `CReserveKey` objects that hold a key with its index, and the keys handed out
for good. -/
structure KeyPoolState where
  wallet : CWallet := {}
  holders : Finmap fun _ : ℕ => ℕ × CPubKey := ∅
  kept : List CPubKey := []

inductive KeyPoolCall where
  | getKeyFromPool
  | topUpKeyPool (kpSize : ℕ)
  | newKeyPool
  | lock
  | unlock
  | getReservedKey (holder : ℕ)
  | keepKey (holder : ℕ)
  | returnKey (holder : ℕ)

namespace KeyPoolState

/-- `CReserveKey::GetReservedKey`, which keeps the key a holder has. -/
def getReservedKey (s : KeyPoolState) (holder : ℕ) : Outcome KeyPoolState :=
  match s.holders.lookup holder with
  | some _ => .ok s
  | none => do
    let (wallet,reserved) ← s.wallet.reserveKeyFromKeyPool
    match reserved with
    | none => pure { s with wallet }
    | some key => pure { s with wallet, holders := s.holders.insert holder key }

def keepKey (s : KeyPoolState) (holder : ℕ) : KeyPoolState :=
  match s.holders.lookup holder with
  | none => s
  | some (nIndex,vchPubKey) =>
    { wallet := s.wallet.keepKey nIndex
      holders := s.holders.erase holder
      kept := s.kept ++ [vchPubKey] }

def returnKey (s : KeyPoolState) (holder : ℕ) : KeyPoolState :=
  match s.holders.lookup holder with
  | none => s
  | some (nIndex,_) =>
    { s with wallet := s.wallet.returnKey nIndex, holders := s.holders.erase holder }

def getKeyFromPool (s : KeyPoolState) : Outcome KeyPoolState := do
  let (wallet,key) ← s.wallet.getKeyFromPool
  pure { s with wallet, kept := s.kept ++ key.toList }

def apply (s : KeyPoolState) : KeyPoolCall → Outcome KeyPoolState
  | .getKeyFromPool => s.getKeyFromPool
  | .topUpKeyPool kpSize => .ok { s with wallet := (s.wallet.topUpKeyPool kpSize).1 }
  | .newKeyPool => .ok { s with wallet := s.wallet.newKeyPool.1 }
  | .lock => .ok { s with wallet := { s.wallet with isLocked := true } }
  | .unlock => .ok { s with wallet := { s.wallet with isLocked := false } }
  | .getReservedKey holder => s.getReservedKey holder
  | .keepKey holder => .ok (s.keepKey holder)
  | .returnKey holder => .ok (s.returnKey holder)

end KeyPoolState

open FiniteMap Run

abbrev Holders := Finmap fun _ : ℕ => ℕ × CPubKey

/-- The pool, the holders and the keys handed out for good do not share a key. -/
structure PoolSound (w : CWallet) (holders : Holders) (kept : List CPubKey) : Prop where
  recorded : ∀ i ∈ w.setKeyPool, ∃ key, w.pool.lookup i = some key
  reserved : ∀ {holder i key}, holders.lookup holder = some (i,key) →
    i ∉ w.setKeyPool ∧ w.pool.lookup i = some key
  once : ∀ {a b i key key'}, holders.lookup a = some (i,key) → holders.lookup b = some (i,key') →
    a = b
  injective : ∀ {i j key}, w.pool.lookup i = some key → w.pool.lookup j = some key → i = j
  notKept : ∀ {i key}, w.pool.lookup i = some key → key ∉ kept
  known : ∀ {i key}, w.pool.lookup i = some key → key < w.generated
  keptKnown : ∀ key ∈ kept, key < w.generated
  nodup : kept.Nodup

/-- Somebody holds the key of an index. -/
def Holders.Has (holders : Holders) (i : ℕ) : Prop :=
  ∃ holder ∈ holders.keys, (holders.lookup holder).any fun key => key.1 = i

instance Holders.has_decidable (holders : Holders) : DecidablePred holders.Has := fun i =>
  inferInstanceAs (Decidable (∃ holder ∈ holders.keys,
    (holders.lookup holder).any fun key => key.1 = i))

theorem Holders.has_of_lookup {holders : Holders} {holder i : ℕ} {key : CPubKey}
    (h : holders.lookup holder = some (i,key)) : holders.Has i :=
  ⟨holder,Finmap.mem_keys.mpr (Finmap.mem_iff.mpr ⟨_,h⟩),by simp [h]⟩

namespace PoolSound

variable {w : CWallet} {holders : Holders} {kept : List CPubKey}

theorem empty (w : CWallet) (hset : w.setKeyPool = ∅) (hpool : w.pool = ∅) :
    PoolSound w ∅ [] where
  recorded i hi := by simp [hset] at hi
  reserved h := by simp at h
  once h := by simp at h
  injective h := by simp [hpool] at h
  notKept _ := List.not_mem_nil
  known h := by simp [hpool] at h
  keptKnown _ h := nomatch h
  nodup := .nil

theorem setLocked (h : PoolSound w holders kept) (isLocked : Bool) :
    PoolSound { w with isLocked } holders kept :=
  ⟨h.recorded,h.reserved,h.once,h.injective,h.notKept,h.known,h.keptKnown,h.nodup⟩

theorem addToPool (h : PoolSound w holders kept) {nIndex : ℕ} (hfree : ¬ holders.Has nIndex) :
    PoolSound (w.addToPool nIndex) holders kept := by
  have hnew : ∀ {i}, w.pool.lookup i ≠ some w.generated :=
    fun hlookup => absurd (h.known hlookup) (lt_irrefl _)
  refine ⟨?_,?_,h.once,?_,?_,?_,?_,h.nodup⟩
  · intro i hi
    by_cases hin : i = nIndex
    · exact ⟨w.generated,by rw [hin,CWallet.addToPool,Finmap.lookup_insert]⟩
    · obtain ⟨key,hkey⟩ := h.recorded i ((Finset.mem_insert.mp hi).resolve_left hin)
      exact ⟨key,by rw [CWallet.addToPool,Finmap.lookup_insert_of_ne _ hin,hkey]⟩
  · intro holder i key hholder
    have hne : i ≠ nIndex := by
      rintro rfl
      exact hfree (Holders.has_of_lookup hholder)
    refine ⟨fun hi => (h.reserved hholder).1 ((Finset.mem_insert.mp hi).resolve_left hne),?_⟩
    rw [CWallet.addToPool,Finmap.lookup_insert_of_ne _ hne]
    exact (h.reserved hholder).2
  · intro i j key hi hj
    rcases lookup_insert_cases hi with ⟨rfl,rfl⟩ | ⟨_,hi'⟩
    · rcases lookup_insert_cases hj with ⟨rfl,_⟩ | ⟨_,hj'⟩
      · rfl
      · exact absurd hj' hnew
    · rcases lookup_insert_cases hj with ⟨rfl,rfl⟩ | ⟨_,hj'⟩
      · exact absurd hi' hnew
      · exact h.injective hi' hj'
  · intro i key hi
    rcases lookup_insert_cases hi with ⟨_,rfl⟩ | ⟨_,hi⟩
    · exact fun hmem => absurd (h.keptKnown _ hmem) (lt_irrefl _)
    · exact h.notKept hi
  · intro i key hi
    rcases lookup_insert_cases hi with ⟨_,rfl⟩ | ⟨_,hi⟩
    · exact Nat.lt_succ_self _
    · exact Nat.lt_succ_of_lt (h.known hi)
  · exact fun key hkey => Nat.lt_succ_of_lt (h.keptKnown key hkey)

theorem take (h : PoolSound w holders kept) {nIndex : ℕ} {key : CPubKey} {holder : ℕ}
    (hin : nIndex ∈ w.setKeyPool) (hkey : w.pool.lookup nIndex = some key)
    (hnone : holders.lookup holder = none) :
    PoolSound { w with setKeyPool := w.setKeyPool.erase nIndex }
      (holders.insert holder (nIndex,key)) kept := by
  refine ⟨fun i hi => h.recorded i (Finset.mem_of_mem_erase hi),?_,?_,h.injective,h.notKept,
    h.known,h.keptKnown,h.nodup⟩
  · intro a i key' ha
    rcases lookup_insert_cases ha with ⟨_,heq⟩ | ⟨_,ha⟩
    · obtain ⟨rfl,rfl⟩ := Prod.mk.inj heq
      exact ⟨Finset.notMem_erase _ _,hkey⟩
    · exact ⟨fun hi => (h.reserved ha).1 (Finset.mem_of_mem_erase hi),(h.reserved ha).2⟩
  · intro a b i key₁ key₂ ha hb
    rcases lookup_insert_cases ha with ⟨rfl,heq⟩ | ⟨_,ha'⟩
    · obtain ⟨rfl,_⟩ := Prod.mk.inj heq
      rcases lookup_insert_cases hb with ⟨rfl,_⟩ | ⟨_,hb'⟩
      · rfl
      · exact absurd hin (h.reserved hb').1
    · rcases lookup_insert_cases hb with ⟨rfl,heq⟩ | ⟨_,hb'⟩
      · obtain ⟨rfl,_⟩ := Prod.mk.inj heq
        exact absurd hin (h.reserved ha').1
      · exact h.once ha' hb'

theorem keepKey (h : PoolSound w holders kept) {holder nIndex : ℕ} {key : CPubKey}
    (hholder : holders.lookup holder = some (nIndex,key)) :
    PoolSound (w.keepKey nIndex) (holders.erase holder) (kept ++ [key]) := by
  obtain ⟨hnot,hkey⟩ := h.reserved hholder
  refine ⟨?_,?_,?_,?_,?_,?_,?_,?_⟩
  · intro i hi
    obtain ⟨key',hkey'⟩ := h.recorded i hi
    have hne : i ≠ nIndex := by
      rintro rfl
      exact hnot hi
    exact ⟨key',by rw [CWallet.keepKey,Finmap.lookup_erase_ne hne,hkey']⟩
  · intro a i key' ha
    obtain ⟨hne,ha⟩ := lookup_of_erase ha
    refine ⟨(h.reserved ha).1,?_⟩
    have hi : i ≠ nIndex := by
      rintro rfl
      exact hne (h.once ha hholder)
    rw [CWallet.keepKey,Finmap.lookup_erase_ne hi]
    exact (h.reserved ha).2
  · exact fun ha hb => h.once (lookup_of_erase ha).2 (lookup_of_erase hb).2
  · exact fun hi hj => h.injective (lookup_of_erase hi).2 (lookup_of_erase hj).2
  · intro i key' hi
    obtain ⟨hne,hi⟩ := lookup_of_erase hi
    rw [List.mem_append,List.mem_singleton]
    rintro (hmem | rfl)
    · exact h.notKept hi hmem
    · exact hne (h.injective hi hkey)
  · exact fun hi => h.known (lookup_of_erase hi).2
  · intro key' hmem
    rcases List.mem_append.mp hmem with hmem | hmem
    · exact h.keptKnown key' hmem
    · rw [List.mem_singleton.mp hmem]
      exact h.known hkey
  · rw [List.nodup_append]
    refine ⟨h.nodup,List.nodup_singleton _,?_⟩
    intro key' hmem key'' hmem'
    rw [List.mem_singleton.mp hmem']
    rintro rfl
    exact h.notKept hkey hmem

theorem returnKey (h : PoolSound w holders kept) {holder nIndex : ℕ} {key : CPubKey}
    (hholder : holders.lookup holder = some (nIndex,key)) :
    PoolSound (w.returnKey nIndex) (holders.erase holder) kept := by
  refine ⟨?_,?_,?_,h.injective,h.notKept,h.known,h.keptKnown,h.nodup⟩
  · intro i hi
    rcases Finset.mem_insert.mp hi with rfl | hi
    · exact ⟨key,(h.reserved hholder).2⟩
    · exact h.recorded i hi
  · intro a i key' ha
    obtain ⟨hne,ha⟩ := lookup_of_erase ha
    refine ⟨?_,(h.reserved ha).2⟩
    rw [CWallet.returnKey,Finset.mem_insert]
    rintro (rfl | hi)
    · exact hne (h.once ha hholder)
    · exact (h.reserved ha).1 hi
  · exact fun ha hb => h.once (lookup_of_erase ha).2 (lookup_of_erase hb).2

theorem generateNewKey (h : PoolSound w holders kept) :
    PoolSound w.generateNewKey.1 holders (kept ++ [w.generateNewKey.2]) := by
  refine ⟨h.recorded,h.reserved,h.once,h.injective,?_,fun hi => Nat.lt_succ_of_lt (h.known hi),?_,?_⟩
  · intro i key hi
    rw [List.mem_append,List.mem_singleton]
    rintro (hmem | rfl)
    · exact h.notKept hi hmem
    · exact absurd (h.known hi) (lt_irrefl _)
  · intro key hmem
    rcases List.mem_append.mp hmem with hmem | hmem
    · exact Nat.lt_succ_of_lt (h.keptKnown key hmem)
    · rw [List.mem_singleton.mp hmem]
      exact Nat.lt_succ_self _
  · rw [List.nodup_append]
    refine ⟨h.nodup,List.nodup_singleton _,?_⟩
    intro key hmem key' hmem'
    rw [List.mem_singleton.mp hmem']
    exact (h.keptKnown key hmem).ne

end PoolSound

namespace CWallet

variable (w : CWallet)

theorem nEnd_eq : w.nEnd = w.setKeyPool.sup id + 1 := by
  unfold nEnd
  split_ifs with h
  · rw [h]
    rfl
  · rfl

theorem lt_nEnd {i : ℕ} (h : i ∈ w.setKeyPool) : i < w.nEnd := by
  rw [nEnd_eq]
  exact Nat.lt_succ_of_le (Finset.le_sup (f := id) h)

theorem nEnd_addToPool : (w.addToPool w.nEnd).nEnd = w.nEnd + 1 := by
  have hle : w.setKeyPool.sup id ≤ w.nEnd := by
    rw [nEnd_eq]
    exact Nat.le_succ _
  rw [nEnd_eq,addToPool,Finset.sup_insert,id,sup_eq_left.mpr hle]

theorem card_addToPool : (w.addToPool w.nEnd).setKeyPool.card = w.setKeyPool.card + 1 :=
  Finset.card_insert_of_notMem fun h => lt_irrefl _ (w.lt_nEnd h)

/-- The indices that topping up writes. -/
def topUpIndices (kpSize : ℕ) : Finset ℕ :=
  if w.isLocked then ∅
  else Finset.Ico w.nEnd (w.nEnd + (w.topUpSize kpSize - w.setKeyPool.card))

/-- The indices of a new pool. -/
def newPoolIndices : Finset ℕ := if w.isLocked then ∅ else Finset.Ico 1 (w.defaultSize + 1)

end CWallet

section
variable {w : CWallet} {holders : Holders} {kept : List CPubKey}

theorem PoolSound.topUpLoop {nSize rounds : ℕ} : ∀ {w : CWallet}, PoolSound w holders kept →
    (∀ i ∈ Finset.Ico w.nEnd (w.nEnd + (nSize - w.setKeyPool.card)), ¬ holders.Has i) →
    PoolSound (CWallet.topUpLoop nSize rounds w) holders kept := by
  induction rounds with
  | zero => exact fun h _ => h
  | succ rounds ih =>
    intro w h hfree
    unfold CWallet.topUpLoop
    split_ifs with hless
    · refine ih (h.addToPool (hfree w.nEnd (Finset.mem_Ico.mpr ⟨le_rfl,by omega⟩))) ?_
      rw [w.nEnd_addToPool,w.card_addToPool]
      intro i hi
      rw [Finset.mem_Ico] at hi
      exact hfree i (Finset.mem_Ico.mpr ⟨by omega,by omega⟩)
    · exact h

theorem PoolSound.topUpKeyPool (h : PoolSound w holders kept) {kpSize : ℕ}
    (hfree : ∀ i ∈ w.topUpIndices kpSize, ¬ holders.Has i) :
    PoolSound (w.topUpKeyPool kpSize).1 holders kept := by
  unfold CWallet.topUpKeyPool
  unfold CWallet.topUpIndices at hfree
  split_ifs at hfree ⊢
  · exact h
  · exact h.topUpLoop hfree

theorem PoolSound.clearPool (h : PoolSound w holders kept) :
    PoolSound w.clearPool holders kept := by
  have hlookup : ∀ i, w.clearPool.pool.lookup i =
      if i ∈ w.setKeyPool then none else w.pool.lookup i := by
    intro i
    refine (lookup_foldl_erase (f := fun i => i)).trans ?_
    simp
  have hold : ∀ {i key}, w.clearPool.pool.lookup i = some key → w.pool.lookup i = some key := by
    intro i key hi
    rw [hlookup] at hi
    split_ifs at hi
    exact hi
  refine ⟨fun _ hi => absurd hi (Finset.notMem_empty _),
    fun hholder => ⟨Finset.notMem_empty _,?_⟩,h.once,
    fun hi hj => h.injective (hold hi) (hold hj),fun hi => h.notKept (hold hi),
    fun hi => h.known (hold hi),h.keptKnown,h.nodup⟩
  obtain ⟨hnot,hkey⟩ := h.reserved hholder
  rw [hlookup,if_neg hnot,hkey]

theorem PoolSound.addIndices {indices : List ℕ} : ∀ {w : CWallet}, PoolSound w holders kept →
    (∀ i ∈ indices, ¬ holders.Has (i + 1)) →
    PoolSound (indices.foldl (fun w i => w.addToPool (i + 1)) w) holders kept := by
  induction indices with
  | nil => exact fun h _ => h
  | cons i indices ih =>
    intro w h hfree
    exact ih (h.addToPool (hfree i List.mem_cons_self))
      fun j hj => hfree j (List.mem_cons_of_mem _ hj)

theorem PoolSound.newKeyPool (h : PoolSound w holders kept)
    (hfree : ∀ i ∈ w.newPoolIndices, ¬ holders.Has i) :
    PoolSound w.newKeyPool.1 holders kept := by
  unfold CWallet.newKeyPool
  unfold CWallet.newPoolIndices at hfree
  split_ifs at hfree ⊢
  · exact h.clearPool
  · refine h.clearPool.addIndices fun i hi => ?_
    rw [List.mem_range] at hi
    exact hfree (i + 1) (Finset.mem_Ico.mpr ⟨by omega,by omega⟩)

/-- The oldest key is there to be read, and leaves the set for its new holder. -/
theorem PoolSound.reserveKeyFromKeyPool (h : PoolSound w holders kept)
    (hfree : ∀ i ∈ w.topUpIndices 0, ¬ holders.Has i) :
    ∃ w' reserved, w.reserveKeyFromKeyPool = .ok (w',reserved) ∧
      match reserved with
      | none => PoolSound w' holders kept
      | some key => ∀ holder, holders.lookup holder = none →
        PoolSound w' (holders.insert holder key) kept := by
  have htop : PoolSound (if w.isLocked then w else (w.topUpKeyPool 0).1) holders kept := by
    split_ifs
    · exact h
    · exact h.topUpKeyPool hfree
  unfold CWallet.reserveKeyFromKeyPool
  dsimp only
  generalize (if w.isLocked then w else (w.topUpKeyPool 0).1) = w₁ at htop
  cases hbegin : begin (· ≤ ·) w₁.setKeyPool with
  | none => exact ⟨w₁,none,rfl,htop⟩
  | some nIndex =>
    have hin := mem_of_begin hbegin
    obtain ⟨key,hkey⟩ := htop.recorded nIndex hin
    have hhave : ({ w₁ with setKeyPool := w₁.setKeyPool.erase nIndex } : CWallet).haveKey key =
        true := decide_eq_true (htop.known hkey)
    refine ⟨{ w₁ with setKeyPool := w₁.setKeyPool.erase nIndex },some (nIndex,key),?_,
      fun holder hnone => htop.take hin hkey hnone⟩
    dsimp only
    rw [hkey]
    dsimp only
    rw [if_pos hhave]

end

namespace KeyPoolState

variable {s : KeyPoolState}

def Sound (s : KeyPoolState) : Prop := PoolSound s.wallet s.holders s.kept

/-- The indices under which a call writes new keys. -/
def writes (s : KeyPoolState) : KeyPoolCall → Finset ℕ
  | .getKeyFromPool => s.wallet.topUpIndices 0
  | .topUpKeyPool kpSize => s.wallet.topUpIndices kpSize
  | .newKeyPool => s.wallet.newPoolIndices
  | .lock => ∅
  | .unlock => ∅
  | .getReservedKey holder => if holder ∈ s.holders then ∅ else s.wallet.topUpIndices 0
  | .keepKey _ => ∅
  | .returnKey _ => ∅

/-- Nobody holds a key of an index that is written. -/
def Allows (s : KeyPoolState) (call : KeyPoolCall) : Prop :=
  ∀ i ∈ s.writes call, ¬ Holders.Has s.holders i

instance allows_decidable (s : KeyPoolState) : DecidablePred s.Allows := fun call =>
  inferInstanceAs (Decidable (∀ i ∈ s.writes call, ¬ Holders.Has s.holders i))

theorem Sound.getKeyFromPool (h : s.Sound)
    (hfree : ∀ i ∈ s.wallet.topUpIndices 0, ¬ Holders.Has s.holders i) :
    ∃ s', s.getKeyFromPool = .ok s' ∧ s'.Sound := by
  obtain ⟨w,reserved,hreserve,hsound⟩ := h.reserveKeyFromKeyPool hfree
  unfold KeyPoolState.getKeyFromPool CWallet.getKeyFromPool
  rw [hreserve]
  cases reserved with
  | none =>
    dsimp only at hsound
    by_cases hlocked : w.isLocked
    · refine ⟨{ s with wallet := w, kept := s.kept ++ [] },?_,by rwa [Sound,List.append_nil]⟩
      simp only [bind,Except.bind,hlocked,if_true]
      rfl
    · refine ⟨{ s with
        wallet := w.generateNewKey.1
        kept := s.kept ++ [w.generateNewKey.2] },?_,hsound.generateNewKey⟩
      simp only [bind,Except.bind,hlocked]
      rfl
  | some key =>
    obtain ⟨nIndex,vchPubKey⟩ := key
    -- the key goes through the hands of a holder there is not
    obtain ⟨holder,hnone⟩ := exists_new s.holders
    have hkeep := (hsound holder hnone).keepKey (Finmap.lookup_insert _)
    rw [erase_insert_of_new hnone] at hkeep
    exact ⟨_,rfl,hkeep⟩

theorem Sound.getReservedKey (h : s.Sound) {holder : ℕ} (hnone : s.holders.lookup holder = none)
    (hfree : ∀ i ∈ s.wallet.topUpIndices 0, ¬ Holders.Has s.holders i) :
    ∃ s', s.getReservedKey holder = .ok s' ∧ s'.Sound := by
  obtain ⟨w,reserved,hreserve,hsound⟩ := h.reserveKeyFromKeyPool hfree
  unfold KeyPoolState.getReservedKey
  rw [hnone,hreserve]
  cases reserved with
  | none => exact ⟨_,rfl,hsound⟩
  | some key => exact ⟨_,rfl,hsound holder hnone⟩

/-- A call that writes under no index held succeeds, and keeps the invariant. -/
theorem Sound.apply (h : s.Sound) {call : KeyPoolCall} (hallows : s.Allows call) :
    ∃ s', s.apply call = .ok s' ∧ s'.Sound := by
  cases call with
  | getKeyFromPool => exact h.getKeyFromPool hallows
  | topUpKeyPool kpSize => exact ⟨_,rfl,h.topUpKeyPool hallows⟩
  | newKeyPool => exact ⟨_,rfl,h.newKeyPool hallows⟩
  | lock => exact ⟨_,rfl,h.setLocked true⟩
  | unlock => exact ⟨_,rfl,h.setLocked false⟩
  | getReservedKey holder =>
    cases hholder : s.holders.lookup holder with
    | some key => exact ⟨s,by rw [KeyPoolState.apply,KeyPoolState.getReservedKey,hholder],h⟩
    | none =>
      simp only [Allows,writes,if_neg (Finmap.lookup_eq_none.mp hholder)] at hallows
      exact h.getReservedKey hholder hallows
  | keepKey holder =>
    refine ⟨_,rfl,?_⟩
    cases hholder : s.holders.lookup holder with
    | none => simpa only [KeyPoolState.keepKey,hholder] using h
    | some key =>
      simp only [KeyPoolState.keepKey,hholder]
      exact PoolSound.keepKey h hholder
  | returnKey holder =>
    refine ⟨_,rfl,?_⟩
    cases hholder : s.holders.lookup holder with
    | none => simpa only [KeyPoolState.returnKey,hholder] using h
    | some key =>
      simp only [KeyPoolState.returnKey,hholder]
      exact PoolSound.returnKey h hholder

/-- The states of runs that write under no index held, from an empty pool. -/
inductive Reachable (keypoolArg : ℤ) : KeyPoolState → Prop
  | start : Reachable keypoolArg { wallet := { keypoolArg } }
  | call {s s' : KeyPoolState} (run : Reachable keypoolArg s) {c : KeyPoolCall}
      (hallows : s.Allows c) (hstep : s.apply c = .ok s') : Reachable keypoolArg s'

theorem Reachable.sound {keypoolArg : ℤ} (h : Reachable keypoolArg s) : s.Sound := by
  induction h with
  | start => exact .empty _ rfl rfl
  | call _ hallows hstep ih =>
    obtain ⟨s',hs',hsound⟩ := ih.apply hallows
    rw [hstep] at hs'
    cases hs'
    exact hsound

end KeyPoolState

open KeyPoolState

/-- As long as no key is written under an index that somebody holds, two holders never have the same
key, none of them one that was handed out for good, no key is handed out for good twice, every index
of the pool has its record, and no such call fails. -/
theorem keyPool_handed_out_once (keypoolArg : ℤ) (s : KeyPoolState) (h : Reachable keypoolArg s) :
    (∀ a b i j key, s.holders.lookup a = some (i,key) → s.holders.lookup b = some (j,key) →
      a = b) ∧
    (∀ a i key, s.holders.lookup a = some (i,key) → key ∉ s.kept) ∧ s.kept.Nodup ∧
    (∀ i ∈ s.wallet.setKeyPool, i ∈ s.wallet.pool) ∧
    ∀ c, s.Allows c → ∃ s', s.apply c = .ok s' := by
  have hsound := h.sound
  refine ⟨?_,?_,hsound.nodup,fun i hi => Finmap.mem_iff.mpr (hsound.recorded i hi),fun c hc => ?_⟩
  · intro a b i j key ha hb
    obtain rfl := hsound.injective (hsound.reserved ha).2 (hsound.reserved hb).2
    exact hsound.once ha hb
  · exact fun a i key ha => hsound.notKept (hsound.reserved ha).2
  · obtain ⟨s',hs',_⟩ := hsound.apply hc
    exact ⟨s',hs'⟩

/-- Two holders, one of which keeps its key. -/
theorem keyPool_handed_out_once_two : ∃ s, Reachable 2 s ∧ s.kept = [0] ∧
    s.holders.lookup 8 = some (2,1) ∧ 1 ∉ s.kept := by
  have hstart : Reachable 2 { wallet := { keypoolArg := 2 } } := .start
  have hfirst := hstart.call (c := .getReservedKey 7) (by decide) rfl
  have hsecond := hfirst.call (c := .getReservedKey 8) (by decide) rfl
  have hkeep := hsecond.call (c := .keepKey 7) (by decide) rfl
  exact ⟨_,hkeep,rfl,rfl,(keyPool_handed_out_once 2 _ hkeep).2.1 8 2 1 rfl⟩

/-- The pool was drained while the wallet was locked: topping it up writes under the first index
again, which the first holder still has. When it gives the key back, two others get the same key;
when the second holder keeps its key, the record is missing. -/
theorem keyPool_handed_out_twice :
    ((([.topUpKeyPool 1,.lock,.getReservedKey 1,.getReservedKey 2,.unlock,.getReservedKey 3,
        .returnKey 1,.getReservedKey 4] : List KeyPoolCall).foldlM KeyPoolState.apply {}).map
      fun s => (s.holders.lookup 3,s.holders.lookup 4)) = .ok (some (1,2),some (1,2)) ∧
    ((([.topUpKeyPool 1,.lock,.getReservedKey 1,.getReservedKey 2,.unlock,.getReservedKey 3,
        .returnKey 1,.keepKey 3,.getReservedKey 4] : List KeyPoolCall).foldlM
      KeyPoolState.apply {}).map fun s => s.kept) =
      .error (.exception "ReserveKeyFromKeyPool(): read failed") := by
  decide +kernel

end Sidechain
