import Sidechain.Chain.Extension
import Sidechain.Mempool.MempoolEntry

/-! What relative lock times ask of each input, and that they stay met while the chain grows. -/
namespace Sidechain
open CBlockIndex Run

/-- The lock pair lets a block on top of `pprev` in. -/
def LockPair.Passes (lock : LockPair) (block pprev : CBlockIndex) : Prop :=
  lock.height < block.nHeight ∧ lock.time < pprev.getMedianTimePast

def CTxIn.lockValue (txin : CTxIn) : ℕ := txin.nSequence.toNat &&& SEQUENCE_LOCKTIME_MASK

def CTxIn.lockedByTime (txin : CTxIn) : Prop :=
  txin.nSequence.toNat &&& SEQUENCE_LOCKTIME_TYPE_FLAG ≠ 0

/-- The lock of an input with coins of a given height is met in a block on top of `pprev`, where
the time of the coins is looked up from `source`. -/
def InputFinal (source block pprev : CBlockIndex) (txin : CTxIn) (nCoinHeight : ℕ) : Prop :=
  txin.lockDisabled = false →
    (txin.lockedByTime → ∀ ancestor, source.getAncestor (nCoinHeight - 1 : ℕ) = some ancestor →
      ancestor.getMedianTimePast + ((txin.lockValue <<< SEQUENCE_LOCKTIME_GRANULARITY : ℕ) : ℤ) ≤
        pprev.getMedianTimePast) ∧
    (¬ txin.lockedByTime → nCoinHeight + txin.lockValue ≤ block.nHeight)

variable {source block pprev : CBlockIndex}

/-- One round of the loop adds the condition of its input. -/
theorem sequenceLock_passes {lock lock' : LockPair} {input : CTxIn × ℕ}
    (h : sequenceLock source lock input = .ok lock') : lock'.Passes block pprev ↔
      lock.Passes block pprev ∧ InputFinal source block pprev input.1 input.2 := by
  unfold sequenceLock at h
  simp only at h
  split_ifs at h with hdisabled htime
  · cases h
    have hoff : input.1.lockDisabled = true := decide_eq_true hdisabled
    simp [InputFinal,hoff]
  · have hon : input.1.lockDisabled = false := decide_eq_false hdisabled
    have htype : input.1.lockedByTime := htime
    split at h
    · cases h
    · rename_i ancestor hancestor
      cases h
      simp only [LockPair.Passes,InputFinal,hon,htype,hancestor,CTxIn.lockValue,max_lt_iff,
        forall_const,Option.some.injEq,not_true_eq_false,false_imp_iff,and_true,forall_eq']
      omega
  · have hon : input.1.lockDisabled = false := decide_eq_false hdisabled
    have htype : ¬ input.1.lockedByTime := htime
    cases h
    simp only [LockPair.Passes,InputFinal,hon,htype,CTxIn.lockValue,max_lt_iff,forall_const,
      false_imp_iff,not_false_eq_true,true_and]
    omega

theorem foldlM_sequenceLock_passes {inputs : List (CTxIn × ℕ)} {lock lock' : LockPair}
    (h : inputs.foldlM (sequenceLock source) lock = .ok lock') : lock'.Passes block pprev ↔
      lock.Passes block pprev ∧ ∀ input ∈ inputs,
        InputFinal source block pprev input.1 input.2 := by
  induction inputs generalizing lock with
  | nil =>
    obtain rfl := foldlM_nil_ok.mp h
    simp
  | cons input inputs ih =>
    obtain ⟨m,hm,hrest⟩ := foldlM_cons_ok.mp h
    rw [ih hrest,sequenceLock_passes hm,List.forall_mem_cons,and_assoc]

theorem sequenceLock_ok (lock : LockPair) {input : CTxIn × ℕ} (hne : block.ancestors ≠ [])
    (hinput : input.2 ≤ block.nHeight) : ∃ lock', sequenceLock block lock input = .ok lock' := by
  have hpos : 0 < block.nHeight := List.length_pos_iff.mpr hne
  unfold sequenceLock
  simp only
  split_ifs
  · exact ⟨_,rfl⟩
  · have hlt : input.2 - 1 < block.nHeight := by omega
    obtain ⟨ancestor,hancestor⟩ := @exists_ofPath (upTo block.ancestors (input.2 - 1)) (by
      rw [← List.length_pos_iff,upTo_length hlt]
      omega)
    rw [getAncestor_of_lt hlt,hancestor]
    exact ⟨_,rfl⟩
  · exact ⟨_,rfl⟩

section
variable {tx : CTransaction} {fVerifySequence : Bool} {heights : List ℕ}

theorem calculateSequenceLocks_ok (tx : CTransaction) (fVerifySequence : Bool)
    (hne : block.ancestors ≠ []) (hheights : ∀ height ∈ heights, height ≤ block.nHeight) :
    ∃ lock, calculateSequenceLocks tx fVerifySequence heights block = .ok lock := by
  unfold calculateSequenceLocks
  split_ifs
  · have hinputs : ∀ input ∈ tx.vin.zip heights, input.2 ≤ block.nHeight := fun input h =>
      hheights _ (List.of_mem_zip h).2
    generalize ({} : LockPair) = lock
    generalize tx.vin.zip heights = inputs at hinputs
    induction inputs generalizing lock with
    | nil => exact ⟨lock,rfl⟩
    | cons input inputs ih =>
      obtain ⟨hinput,hrest⟩ := List.forall_mem_cons.mp hinputs
      obtain ⟨m,hm⟩ := sequenceLock_ok lock hne hinput
      obtain ⟨lock',hlock'⟩ := ih m hrest
      exact ⟨lock',foldlM_cons_ok.mpr ⟨m,hm,hlock'⟩⟩
  · exact ⟨_,rfl⟩

theorem evaluateSequenceLocks_eq (hpprev : block.pprev = some pprev) (lock : LockPair)
    {fFinal : Bool} : evaluateSequenceLocks block lock = .ok fFinal ↔
      (fFinal = true ↔ lock.Passes block pprev) := by
  unfold evaluateSequenceLocks
  rw [hpprev]
  simp only [Except.ok.injEq,LockPair.Passes]
  cases fFinal <;> simp [not_le]

theorem passes_default : ({} : LockPair).Passes block pprev := by
  constructor
  · exact lt_of_lt_of_le (by decide : (-1 : ℤ) < 0) (Int.natCast_nonneg _)
  · exact lt_of_lt_of_le (by decide : (-1 : ℤ) < 0) (Int.natCast_nonneg _)

/-- The locks of all inputs are met, or relative locks do not apply. -/
def InputsFinal (tx : CTransaction) (fVerifySequence : Bool) (heights : List ℕ)
    (source block pprev : CBlockIndex) : Prop :=
  tx.enforceBIP68 fVerifySequence = true →
    ∀ input ∈ tx.vin.zip heights, InputFinal source block pprev input.1 input.2

theorem calculateSequenceLocks_passes {lock : LockPair}
    (h : calculateSequenceLocks tx fVerifySequence heights source = .ok lock) :
    lock.Passes block pprev ↔ InputsFinal tx fVerifySequence heights source block pprev := by
  unfold calculateSequenceLocks at h
  unfold InputsFinal CTransaction.enforceBIP68
  split_ifs at h with henforce
  · rw [foldlM_sequenceLock_passes h,and_iff_right passes_default]
    simp [henforce]
  · cases h
    simp [henforce,passes_default]

/-- Whenever the heights fit, there is a verdict, and it says whether all locks are met. -/
theorem sequenceLocks_iff (hpprev : block.pprev = some pprev)
    (hheights : ∀ height ∈ heights, height ≤ block.nHeight) {fFinal : Bool} :
    sequenceLocks tx fVerifySequence heights block = .ok fFinal ↔
      (fFinal = true ↔ InputsFinal tx fVerifySequence heights block block pprev) := by
  have hne : block.ancestors ≠ [] := by
    intro hnil
    rw [CBlockIndex.pprev,hnil] at hpprev
    cases hpprev
  obtain ⟨lock,hlock⟩ := calculateSequenceLocks_ok tx fVerifySequence hne hheights
  rw [sequenceLocks,hlock]
  exact (evaluateSequenceLocks_eq hpprev lock).trans
    (iff_congr Iff.rfl (calculateSequenceLocks_passes hlock))

end

end Sidechain
