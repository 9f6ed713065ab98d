import Sidechain.Mempool.AncestorLimits
import Sidechain.Mempool.PoolUpdates

/-! The limits on ancestors and descendants by what they mean, and when the walk answers by them. -/
namespace Sidechain
open Run Worklist

namespace CTxMemPool

section
open Classical

/-- The transitive closure of the parents in the pool. -/
noncomputable def ancestorsOf (pool : CTxMemPool) (tx : CTransaction) : Finset Uint256 :=
  pool.mapTx.keys.filter fun x => ∃ txin ∈ tx.vin, txin.prevout.hash ∈ pool.mapTx ∧
    Reaches pool.parentsOf txin.prevout.hash x

/-- An entry with all its descendants. -/
noncomputable def descendantsOf (pool : CTxMemPool) (it : Uint256) : Finset Uint256 :=
  pool.mapTx.keys.filter (Reaches pool.childrenOf it)

theorem mem_ancestorsOf_iff {pool : CTxMemPool} {tx : CTransaction} {x : Uint256} :
    x ∈ pool.ancestorsOf tx ↔ x ∈ pool.mapTx.keys ∧ ∃ txin ∈ tx.vin,
      txin.prevout.hash ∈ pool.mapTx ∧ Reaches pool.parentsOf txin.prevout.hash x :=
  Finset.mem_filter

end

def recordedCount (pool : CTxMemPool) (it : Uint256) : ℤ :=
  ((pool.mapTx.lookup it).map CTxMemPoolEntry.nCountWithDescendants).getD 0

def recordedSize (pool : CTxMemPool) (it : Uint256) : ℤ :=
  ((pool.mapTx.lookup it).map CTxMemPoolEntry.nSizeWithDescendants).getD 0

noncomputable def descendantsSize (pool : CTxMemPool) (it : Uint256) : ℤ :=
  ∑ x ∈ pool.descendantsOf it, (pool.entrySize x : ℤ)

/-- No entry is dirty: what is recorded of descendants is what there is. -/
def CountsDescendants (pool : CTxMemPool) : Prop := ∀ it ∈ pool.mapTx,
  pool.recordedCount it = (pool.descendantsOf it).card ∧
    pool.recordedSize it = pool.descendantsSize it

/-- The ancestors with the transaction are within the limits, and so are the descendants of each of
them. -/
structure WithinLimits (pool : CTxMemPool) (tx : CTransaction) (limits : AncestorLimits)
    (count size : Uint256 → ℤ) : Prop where
  ancestorCount : exceeds ((pool.ancestorsOf tx).card + 1) limits.limitAncestorCount = false
  ancestorSize : exceeds (tx.getSerializeSize + ∑ x ∈ pool.ancestorsOf tx, (pool.entrySize x : ℤ))
    limits.limitAncestorSize = false
  descendants : ∀ a ∈ pool.ancestorsOf tx,
    exceeds (size a + tx.getSerializeSize) limits.limitDescendantSize = false ∧
      exceeds (count a + 1) limits.limitDescendantCount = false

/-- In any order, the walk answers true with all ancestors exactly if they are within the limits. -/
def AnswersLimits (pool : CTxMemPool) (tx : CTransaction) (limits : AncestorLimits)
    (count size : Uint256 → ℤ) : Prop :=
  ∀ E E' : Enumeration Uint256, ∃ answer,
    searchMemPoolAncestorsBy E E' pool tx limits = .ok answer ∧
      ((answer.error = none ∧ answer.setAncestors = pool.ancestorsOf tx) ↔
        pool.WithinLimits tx limits count size)

/-- A parent in the pool, or no parent and a transaction that is itself within the limits. -/
def ParentOrSmall (pool : CTxMemPool) (tx : CTransaction) (limits : AncestorLimits) : Prop :=
  (∃ txin ∈ tx.vin, txin.prevout.hash ∈ pool.mapTx) ∨
    (exceeds 1 limits.limitAncestorCount = false ∧
      exceeds tx.getSerializeSize limits.limitAncestorSize = false)

section
variable [Crypto] {pool : CTxMemPool} (hpool : pool.Consistent)
include hpool

theorem Consistent.mem_ancestorsOf {tx : CTransaction} {x : Uint256} :
    x ∈ pool.ancestorsOf tx ↔ ∃ txin ∈ tx.vin, txin.prevout.hash ∈ pool.mapTx ∧
      Reaches pool.parentsOf txin.prevout.hash x := by
  rw [mem_ancestorsOf_iff,and_iff_right_iff_imp]
  rintro ⟨txin,_,hin,hreach⟩
  exact hreach.mem_of_closed (fun _ _ => hpool.parentsOf_sub) (Finmap.mem_keys.mpr hin)

theorem Consistent.ancestorsOf_eq_empty {tx : CTransaction} :
    pool.ancestorsOf tx = ∅ ↔ ¬∃ txin ∈ tx.vin, txin.prevout.hash ∈ pool.mapTx := by
  rw [Finset.eq_empty_iff_forall_notMem]
  constructor
  · rintro h ⟨txin,htxin,hin⟩
    exact h _ (hpool.mem_ancestorsOf.mpr ⟨txin,htxin,hin,.refl _⟩)
  · intro h x hx
    obtain ⟨txin,htxin,hin,_⟩ := hpool.mem_ancestorsOf.mp hx
    exact h ⟨txin,htxin,hin⟩

omit [Crypto] hpool in
theorem descendantsFit_iff {tx : CTransaction} {limits : AncestorLimits} :
    (∀ a ∈ pool.ancestorsOf tx, pool.DescendantsFit limits tx.getSerializeSize a) ↔
      ∀ a ∈ pool.ancestorsOf tx,
        exceeds (pool.recordedSize a + tx.getSerializeSize) limits.limitDescendantSize = false ∧
          exceeds (pool.recordedCount a + 1) limits.limitDescendantCount = false := by
  refine forall₂_congr fun a ha => ?_
  have hmem : a ∈ pool.mapTx := Finmap.mem_keys.mp (mem_ancestorsOf_iff.mp ha).1
  obtain ⟨e,he⟩ := Option.isSome_iff_exists.mp (Finmap.lookup_isSome.mpr hmem)
  unfold DescendantsFit recordedSize recordedCount
  rw [he]
  constructor
  · exact fun h => h e rfl
  · rintro h _ ⟨⟩
    exact h

theorem Consistent.searchMemPoolAncestorsBy_spec (E E' : Enumeration Uint256) (tx : CTransaction)
    (limits : AncestorLimits) : ∃ answer,
      searchMemPoolAncestorsBy E E' pool tx limits = .ok answer ∧
        (answer.error = none → answer.setAncestors = pool.ancestorsOf tx) ∧
          (answer.error = none ↔ pool.ancestorsOf tx = ∅ ∨
            pool.WithinLimits tx limits pool.recordedCount pool.recordedSize) := by
  unfold searchMemPoolAncestorsBy
  rcases addParents_spec pool limits ∅ tx.vin (fun h => absurd rfl h) with
    ⟨parentHashes,hparents,hcount⟩ | ⟨error,s',hs',hsub,hne,hover⟩
  · rw [hparents]
    have hmem := addParent_foldlM hparents
    have hstart : parentHashes ⊆ pool.mapTx.keys := fun p hp =>
      Finmap.mem_keys.mpr (((hmem p).mp hp).resolve_left (Finset.notMem_empty p)).1
    have hinit : Frontier pool.parentsOf ∅ parentHashes (parentHashes \ ∅) ∅ :=
      Frontier.init (by simp)
    rw [Finset.sdiff_empty] at hinit
    have hanc : ∀ x, x ∈ pool.ancestorsOf tx ↔
        ∃ s ∈ parentHashes, Reaches pool.parentsOf s x := by
      intro x
      rw [hpool.mem_ancestorsOf]
      constructor
      · rintro ⟨txin,htxin,hin,hreach⟩
        exact ⟨_,(hmem _).mpr (Or.inr ⟨hin,txin,htxin,rfl⟩),hreach⟩
      · rintro ⟨s,hs,hreach⟩
        obtain ⟨hin,txin,htxin,rfl⟩ := ((hmem s).mp hs).resolve_left (Finset.notMem_empty s)
        exact ⟨txin,htxin,hin,hreach⟩
    obtain ⟨answer,hanswer,hset,hiff⟩ := @Consistent.ancestorsLoopBy_spec _ pool hpool E E' limits
      tx.getSerializeSize _ _ _ _ _ hstart hanc hinit (Finset.card_le_card Finset.sdiff_subset)
      (by rw [Finset.union_empty]; exact hcount)
    rw [Finset.sum_empty,add_zero] at hanswer
    refine ⟨answer,hanswer,hset,hiff.trans ?_⟩
    have hempty : parentHashes = ∅ ↔ pool.ancestorsOf tx = ∅ := by
      rw [Finset.eq_empty_iff_forall_notMem,Finset.eq_empty_iff_forall_notMem]
      constructor
      · intro h x hx
        obtain ⟨s,hs,_⟩ := (hanc x).mp hx
        exact h s hs
      · exact fun h x hx => h x ((hanc x).mpr ⟨x,hx,.refl x⟩)
    rw [hempty,AncestorsFit,Finset.sdiff_empty,descendantsFit_iff]
    exact or_congr_right ⟨fun ⟨h1,h2,h3⟩ => ⟨h3,h2,h1⟩,fun ⟨h1,h2,h3⟩ => ⟨h3,h2,h1⟩⟩
  · rw [hs']
    have hfound : s' ⊆ pool.ancestorsOf tx := fun x hx => by
      obtain ⟨hin,txin,htxin,rfl⟩ := (hsub x hx).resolve_left (Finset.notMem_empty x)
      exact hpool.mem_ancestorsOf.mpr ⟨txin,htxin,hin,.refl _⟩
    refine ⟨_,rfl,(fun h => nomatch h),(fun h => nomatch h),?_⟩
    rintro (hempty | hwithin)
    · rw [hempty] at hfound
      exact absurd (Finset.subset_empty.mp hfound) hne
    · have hle := Finset.card_le_card hfound
      have hcount := hwithin.ancestorCount
      rw [exceeds_mono hover (by omega)] at hcount
      cases hcount

theorem Consistent.answersLimits_iff (tx : CTransaction) (limits : AncestorLimits) :
    pool.AnswersLimits tx limits pool.recordedCount pool.recordedSize ↔
      pool.ParentOrSmall tx limits := by
  have hspec := fun E E' => hpool.searchMemPoolAncestorsBy_spec E E' tx limits
  have hone : ∀ answer : AncestorsAnswer,
      (answer.error = none → answer.setAncestors = pool.ancestorsOf tx) →
        ((answer.error = none ∧ answer.setAncestors = pool.ancestorsOf tx) ↔ answer.error = none) :=
    fun _ h => ⟨And.left,fun hnone => ⟨hnone,h hnone⟩⟩
  have hwithin : pool.ancestorsOf tx = ∅ →
      (pool.WithinLimits tx limits pool.recordedCount pool.recordedSize ↔
        exceeds 1 limits.limitAncestorCount = false ∧
          exceeds tx.getSerializeSize limits.limitAncestorSize = false) := by
    intro hempty
    constructor
    · rintro ⟨h1,h2,_⟩
      rw [hempty] at h1 h2
      exact ⟨h1,by rwa [Finset.sum_empty,add_zero] at h2⟩
    · rintro ⟨h1,h2⟩
      refine ⟨by rw [hempty]; exact h1,by rw [hempty,Finset.sum_empty,add_zero]; exact h2,?_⟩
      rw [hempty]
      exact fun a ha => absurd ha (Finset.notMem_empty a)
  unfold ParentOrSmall
  constructor
  · intro h
    by_cases hempty : pool.ancestorsOf tx = ∅
    · obtain ⟨answer,hanswer,hiff⟩ := h hashOrder hashOrder
      obtain ⟨answer',hanswer',hset,hnone⟩ := hspec hashOrder hashOrder
      rw [hanswer] at hanswer'
      cases hanswer'
      rw [hone answer hset] at hiff
      exact Or.inr ((hwithin hempty).mp (hiff.mp (hnone.mpr (Or.inl hempty))))
    · rw [hpool.ancestorsOf_eq_empty,not_not] at hempty
      exact Or.inl hempty
  · intro h E E'
    obtain ⟨answer,hanswer,hset,hnone⟩ := hspec E E'
    refine ⟨answer,hanswer,(hone answer hset).trans (hnone.trans ⟨?_,Or.inr⟩)⟩
    rintro (hempty | hlimits)
    · refine (hwithin hempty).mpr (h.resolve_left (hpool.ancestorsOf_eq_empty.mp hempty))
    · exact hlimits

omit [Crypto] hpool in
theorem answersLimits_congr {tx : CTransaction} {limits : AncestorLimits}
    (hcounts : pool.CountsDescendants) :
    pool.AnswersLimits tx limits (fun it => (pool.descendantsOf it).card) pool.descendantsSize ↔
      pool.AnswersLimits tx limits pool.recordedCount pool.recordedSize := by
  have hwithin : pool.WithinLimits tx limits (fun it => (pool.descendantsOf it).card)
      pool.descendantsSize ↔ pool.WithinLimits tx limits pool.recordedCount pool.recordedSize := by
    have hsame : ∀ a ∈ pool.ancestorsOf tx,
        pool.recordedCount a = (pool.descendantsOf a).card ∧
          pool.recordedSize a = pool.descendantsSize a := fun a ha =>
      hcounts a (Finmap.mem_keys.mp (mem_ancestorsOf_iff.mp ha).1)
    constructor
    · rintro ⟨h1,h2,h3⟩
      refine ⟨h1,h2,fun a ha => ?_⟩
      rw [(hsame a ha).1,(hsame a ha).2]
      exact h3 a ha
    · rintro ⟨h1,h2,h3⟩
      refine ⟨h1,h2,fun a ha => ?_⟩
      have hfit := h3 a ha
      rw [(hsame a ha).1,(hsame a ha).2] at hfit
      exact hfit
  unfold AnswersLimits
  simp only [hwithin]

/-- The walk answers by the limits exactly if the transaction has a parent in the pool or is within
them by itself, whether descendants are counted as recorded or, where no entry is dirty, as they are;
and in every order of the sets it answers the same. -/
theorem Consistent.searchMemPoolAncestors_limits (tx : CTransaction) (limits : AncestorLimits) :
    (pool.AnswersLimits tx limits pool.recordedCount pool.recordedSize ↔
      pool.ParentOrSmall tx limits) ∧
    (pool.CountsDescendants →
      (pool.AnswersLimits tx limits (fun it => (pool.descendantsOf it).card) pool.descendantsSize ↔
        pool.ParentOrSmall tx limits)) ∧
    ∀ E E' : Enumeration Uint256, ∃ answer answer',
      searchMemPoolAncestorsBy E E' pool tx limits = .ok answer ∧
        pool.searchMemPoolAncestors tx limits = .ok answer' ∧
          (answer.error = none ↔ answer'.error = none) ∧
            (answer.error = none → answer.setAncestors = answer'.setAncestors) := by
  refine ⟨hpool.answersLimits_iff tx limits,fun hcounts => ?_,fun E E' => ?_⟩
  · rw [answersLimits_congr hcounts]
    exact hpool.answersLimits_iff tx limits
  · obtain ⟨answer,hanswer,hset,hiff⟩ := hpool.searchMemPoolAncestorsBy_spec E E' tx limits
    obtain ⟨answer',hanswer',hset',hiff'⟩ :=
      hpool.searchMemPoolAncestorsBy_spec hashOrder hashOrder tx limits
    rw [searchMemPoolAncestorsBy_hashOrder] at hanswer'
    refine ⟨answer,answer',hanswer,hanswer',hiff.trans hiff'.symm,fun h => ?_⟩
    rw [hset h,hset' (hiff'.mpr (hiff.mp h))]

end

section
local instance limitsCrypto : Crypto := digitCrypto

/-- A transaction that spends nothing in the pool. -/
def parentlessTx : CTransaction := { vin := [{ prevout := ⟨7,0⟩ }], vout := [⟨45000,[0x51]⟩] }

/-- It passes with a limit of no ancestor at all, itself counted, and with one of 60 bytes. -/
theorem parentless_exceeds : ({} : CTxMemPool).Consistent ∧
    ¬AnswersLimits {} parentlessTx { limitAncestorCount := some 0 } (recordedCount {})
      (recordedSize {}) ∧
    ¬AnswersLimits {} parentlessTx { limitAncestorSize := some 60 } (recordedCount {})
      (recordedSize {}) := by
  have hanc : ancestorsOf {} parentlessTx = ∅ := Consistent.empty.ancestorsOf_eq_empty.mpr
    fun ⟨_,_,hin⟩ => absurd hin Finmap.notMem_empty
  have hpasses : ∀ {limits : AncestorLimits},
      searchMemPoolAncestors {} parentlessTx limits = .ok ⟨∅,none⟩ →
        AnswersLimits {} parentlessTx limits (recordedCount {}) (recordedSize {}) →
          WithinLimits {} parentlessTx limits (recordedCount {}) (recordedSize {}) := by
    intro limits hok h
    obtain ⟨answer,hanswer,hiff⟩ := h hashOrder hashOrder
    rw [searchMemPoolAncestorsBy_hashOrder,hok] at hanswer
    cases hanswer
    exact hiff.mp ⟨rfl,hanc.symm⟩
  refine ⟨Consistent.empty,fun h => ?_,fun h => ?_⟩
  · have hcount := (hpasses (by decide) h).ancestorCount
    rw [hanc] at hcount
    exact absurd hcount (by decide)
  · have hsize := (hpasses (by decide) h).ancestorSize
    rw [hanc,Finset.sum_empty] at hsize
    exact absurd hsize (by decide)

def parentEntry : CTxMemPoolEntry := CTxMemPoolEntry.create { vout := [⟨45000,[0x51]⟩] } 10000 5000
  false 0 {}

/-- A pool with one entry. -/
def parentPool : CTxMemPool :=
  (addUnchecked {} parentEntry.tx.getHash parentEntry ∅).toOption.getD {}

def childTx : CTransaction := { vin := [{ prevout := ⟨parentEntry.tx.getHash,0⟩ }] }

theorem parentPool_consistent : parentPool.Consistent := by
  have hok : (addUnchecked {} parentEntry.tx.getHash parentEntry ∅).isOk = true := by
    decide
  obtain ⟨pool,hpool⟩ := isOk_iff.mp hok
  have hparent : parentPool = pool := by
    rw [parentPool,hpool]
    rfl
  rw [hparent]
  have hfits : Fits {} parentEntry.tx :=
    ⟨Finmap.notMem_empty,by decide,fun _ _ => Finmap.lookup_empty _,by decide,
      fun h _ htx => absurd (mem_of_lookup htx) Finmap.notMem_empty⟩
  exact Consistent.empty.addUnchecked hfits rfl hpool

theorem childTx_limits : AnswersLimits parentPool childTx ⟨some 25,some 101000,some 25,some 101000⟩
    parentPool.recordedCount parentPool.recordedSize :=
  (parentPool_consistent.searchMemPoolAncestors_limits childTx _).1.mpr
    (Or.inl ⟨_,List.mem_singleton_self _,by decide⟩)

end

end CTxMemPool
end Sidechain
