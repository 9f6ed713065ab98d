import Sidechain.Mempool.Replacement

/-! Transactions that the pool refuses. All checks come before the first change; a transaction that is
refused after it was stored did not stay within the limits on the pool, and what it replaced is gone. -/
namespace Sidechain
open Run

/-- The function may fail an assertion or be undefined, but it does not return false. -/
abbrev NeverRejects {α : Type} (x : Outcome α) : Prop :=
  FailsWith (fun h => ∀ state, h ≠ .rejected state) x

theorem NeverRejects.require {c : Prop} [Decidable c] {what : String} :
    NeverRejects (require c (.error (.assertion what))) := by
  unfold Sidechain.require
  split_ifs
  · exact .ok ()
  · exact .error fun _ h => by cases h

namespace CTxMemPool
variable (pool : CTxMemPool)

theorem entry_neverRejects (it : Uint256) : NeverRejects (pool.entry it) := by
  unfold entry
  split
  · exact .ok _
  · exact .error fun _ h => by cases h

theorem links_neverRejects (it : Uint256) : NeverRejects (pool.links it) := by
  unfold links
  split
  · exact .ok _
  · exact .error fun _ h => by cases h

theorem getMemPoolParents_neverRejects (it : Uint256) :
    NeverRejects (pool.getMemPoolParents it) :=
  (pool.links_neverRejects it).bind fun _ => .ok _

theorem getMemPoolChildren_neverRejects (it : Uint256) :
    NeverRejects (pool.getMemPoolChildren it) :=
  (pool.links_neverRejects it).bind fun _ => .ok _

theorem modify_neverRejects (it : Uint256) {f : CTxMemPoolEntry → Outcome CTxMemPoolEntry}
    (hf : ∀ e, NeverRejects (f e)) : NeverRejects (pool.modify it f) :=
  (pool.entry_neverRejects it).bind fun e => (hf e).bind fun _ => .ok _

theorem updateState_neverRejects (e : CTxMemPoolEntry) (size fee count : ℤ) :
    NeverRejects (e.updateState size fee count) := by
  unfold CTxMemPoolEntry.updateState
  split_ifs
  · exact .ok e
  · exact NeverRejects.require.bind fun _ => NeverRejects.require.bind fun _ => .ok _

theorem ancestorsLoop_neverRejects (limits : AncestorLimits) (nTxSize fuel : ℕ)
    (parentHashes setAncestors : Finset Uint256) (total : ℤ) :
    NeverRejects (pool.ancestorsLoop limits nTxSize fuel parentHashes setAncestors total) := by
  induction fuel generalizing parentHashes setAncestors total with
  | zero => exact .ok _
  | succ fuel ih =>
    unfold ancestorsLoop
    split
    · exact .ok _
    · refine (pool.entry_neverRejects _).bind fun e => ?_
      dsimp only
      split
      · exact .ok _
      · refine (pool.getMemPoolParents_neverRejects _).bind fun parents => ?_
        split
        · exact .ok _
        · exact ih _ _ _

theorem linkedMemPoolAncestors_neverRejects (it : Uint256) :
    NeverRejects (pool.linkedMemPoolAncestors it) :=
  (pool.entry_neverRejects it).bind fun _ => (pool.getMemPoolParents_neverRejects it).bind fun _ =>
    (pool.ancestorsLoop_neverRejects _ _ _ _ _ _).bind fun _ => .ok _

theorem descendantsLoop_neverRejects (fuel : ℕ) (stage setDescendants : Finset Uint256) :
    NeverRejects (pool.descendantsLoop fuel stage setDescendants) := by
  induction fuel generalizing stage setDescendants with
  | zero => exact .ok _
  | succ fuel ih =>
    unfold descendantsLoop
    split
    · exact .ok _
    · exact (pool.getMemPoolChildren_neverRejects _).bind fun _ => ih _ _

theorem updateAncestorsOf_neverRejects (add : Bool) (it : Uint256)
    (setAncestors : Finset Uint256) : NeverRejects (pool.updateAncestorsOf add it setAncestors) :=
  (pool.getMemPoolParents_neverRejects it).bind fun _ => (entry_neverRejects _ it).bind fun _ =>
    .foldlM (fun pool ancestorIt => pool.modify_neverRejects ancestorIt fun a =>
      updateState_neverRejects a _ _ _) _ _

theorem removeStaged_neverRejects (stage : Finset Uint256) :
    NeverRejects (pool.removeStaged stage) := by
  refine FailsWith.bind (.bind (.foldlM (fun pool it => ?_) _ _) fun _ => ?_) fun _ => ?_
  · exact (pool.linkedMemPoolAncestors_neverRejects it).bind fun _ =>
      pool.updateAncestorsOf_neverRejects _ _ _
  · exact .foldlM (fun pool it => (pool.getMemPoolChildren_neverRejects it).bind fun _ => .ok _) _ _
  · exact .foldlM (fun pool it => (pool.entry_neverRejects it).bind fun _ => .ok _) _ _

theorem expire_neverRejects (time : ℤ) : NeverRejects (pool.expire time) :=
  .bind (.foldlM (fun setAll _ => pool.descendantsLoop_neverRejects _ _ setAll) _ _) fun stage =>
    pool.removeStaged_neverRejects stage

theorem trimLoop_neverRejects (dynamicMemoryUsage : CTxMemPool → ℕ)
    (lowest : CTxMemPool → Option Uint256) (sizelimit fuel : ℕ) :
    NeverRejects (trimLoop dynamicMemoryUsage lowest sizelimit fuel pool) := by
  induction fuel generalizing pool with
  | zero => exact .ok pool
  | succ fuel ih =>
    unfold trimLoop
    split_ifs
    · split
      · exact .error fun _ h => by cases h
      · exact (pool.descendantsLoop_neverRejects _ _ _).bind fun stage =>
          (pool.removeStaged_neverRejects stage).bind fun m => ih m
    · exact .ok pool

end CTxMemPool

theorem limitMempoolSize_neverRejects (policy : MempoolPolicy) (time : ℤ) (pool : CTxMemPool) :
    NeverRejects (limitMempoolSize policy time pool) :=
  (pool.expire_neverRejects _).bind fun m => m.trimLoop_neverRejects _ _ _ _

/-- `AcceptToMemoryPool` returns what the worker does; the coins it takes out of the cache of the tip
after a failure are no part of the pool. -/
def acceptToMemoryPool [Crypto] (policy : MempoolPolicy) (tip : ChainTip) (pool : CTxMemPool)
    (tx : CTransaction) (args : AcceptArgs) : AcceptAnswer :=
  acceptToMemoryPoolWorker policy tip pool tx args

/-- The function returned false. -/
def AcceptAnswer.Refused (answer : AcceptAnswer) : Prop :=
  answer.verdict = .ok false ∨ ∃ state, answer.verdict = .error (.rejected state)

/-- How a transaction that was stored and then taken out by the limits leaves the pool. `replaced` are
the transactions that went before, and `stored` is the pool with the transaction. -/
structure TrimmedAway [Crypto] (policy : MempoolPolicy) (time : ℤ) (args : AcceptArgs)
    (pool pool' : CTxMemPool) (tx : CTransaction) (replaced : Finset Uint256)
    (stored : CTxMemPool) : Prop where
  limits : args.fOverrideMempoolLimit = false
  replaced_iff : pool.Consistent → ∀ x, x ∈ replaced ↔ pool.Replaced tx x
  added : ∀ x, x ∈ stored.mapTx ↔ x = tx.getHash ∨ (x ∈ pool.mapTx ∧ x ∉ replaced)
  kept : ∀ x, x ∈ pool.mapTx → x ∉ replaced → stored.contents x = pool.contents x
  limited : limitMempoolSize policy time stored = .ok pool'
  old : CTxMemPool.Shrinks pool pool'
  gone : ∀ x ∈ replaced, x ∉ pool'.mapTx
  absent : tx.getHash ∉ pool'.mapTx

section
variable [Crypto] {policy : MempoolPolicy} {tip : ChainTip} {pool : CTxMemPool} {tx : CTransaction}
  {args : AcceptArgs}

theorem checkReplacement_replaced (hpool : pool.Consistent) {setConflicts s : Finset Uint256}
    {nModifiedFees : ℤ} {nSize : ℕ} (hconflicts : ∀ x, x ∈ setConflicts ↔ pool.Conflicts tx x)
    (h : checkReplacement policy pool tx nModifiedFees nSize setConflicts = .ok s) (x : Uint256) :
    x ∈ s ↔ pool.Replaced tx x := by
  by_cases hsome : ∃ c, pool.Conflicts tx c
  · exact (checkReplacement_rules hpool hconflicts hsome h).mem_iff x
  · have hempty : setConflicts = ∅ := Finset.eq_empty_of_forall_notMem fun c hc =>
      hsome ⟨c,(hconflicts c).mp hc⟩
    unfold checkReplacement at h
    rw [if_pos hempty] at h
    cases h
    exact iff_of_false (Finset.notMem_empty x) fun ⟨c,hc,_⟩ => hsome ⟨c,hc⟩

/-- What a stored transaction that the limits took out again leaves. -/
theorem trimmedAway_of_limit {c : Candidate} {stored limited : CTxMemPool}
    (hc : checkCandidate policy tip pool tx args = .ok (some c))
    (hstored : storeCandidate pool c = .ok stored) (hlimits : args.fOverrideMempoolLimit = false)
    (hlimited : limitMempoolSize policy tip.time stored = .ok limited)
    (habsent : tx.getHash ∉ limited.mapTx) :
    TrimmedAway policy tip.time args pool limited tx c.allConflicting stored := by
  obtain ⟨htx,hdelta,hnew,_⟩ := checkCandidate_new hc
  have hcontents := storeCandidate_contents htx hdelta hnew hstored
  have hshrinks := limitMempoolSize_shrinks hlimited
  have hmem : ∀ x, x ∈ stored.mapTx ↔ x = tx.getHash ∨ (x ∈ pool.mapTx ∧ x ∉ c.allConflicting) := by
    intro x
    rw [CTxMemPool.mem_iff_contents,hcontents,CTxMemPool.mem_iff_contents]
    by_cases hx : x = tx.getHash <;> by_cases hr : x ∈ c.allConflicting <;> simp [hx,hr]
  have hleft : ∀ x e, limited.contents x = some e → x ≠ tx.getHash ∧ x ∉ c.allConflicting ∧
      pool.contents x = some e := by
    intro x e he
    have hx : x ≠ tx.getHash := by
      rintro rfl
      exact habsent (CTxMemPool.mem_iff_contents.mpr (by rw [he]; rfl))
    have hin := hshrinks x e he
    rw [hcontents,if_neg hx] at hin
    split_ifs at hin with hr
    exact ⟨hx,hr,hin⟩
  refine ⟨hlimits,fun hpool x => ?_,hmem,fun x hx hr => ?_,hlimited,fun x e he => (hleft x e he).2.2,
    fun x hr hx => ?_,habsent⟩
  · obtain ⟨_,hconflicts,_,hreplacement⟩ := (checkCandidate_checked hpool hc).conflicts
    exact checkReplacement_replaced hpool hconflicts hreplacement x
  · rw [hcontents,if_neg fun heq : x = tx.getHash => hnew (heq ▸ hx),if_neg hr]
  · obtain ⟨e,he⟩ := Option.isSome_iff_exists.mp (CTxMemPool.mem_iff_contents.mp hx)
    exact (hleft x e he).2.1 hr

/-- When false is returned the pool is as it was before, or the transaction passed every check and was
stored, and the limits on the pool, with which expired transactions go too, took it out again: then the
pool has only transactions it had before, and none of those that were replaced. -/
theorem acceptToMemoryPool_refused
    (h : (acceptToMemoryPool policy tip pool tx args).Refused) :
    (acceptToMemoryPool policy tip pool tx args).pool = pool ∨
      (acceptToMemoryPool policy tip pool tx args).verdict =
          dos 0 REJECT_INSUFFICIENTFEE "mempool full" ∧
        ∃ replaced stored, TrimmedAway policy tip.time args pool
          (acceptToMemoryPool policy tip pool tx args).pool tx replaced stored := by
  unfold acceptToMemoryPool acceptToMemoryPoolWorker at h ⊢
  cases hcandidate : checkCandidate policy tip pool tx args with
  | error e => exact Or.inl rfl
  | ok found =>
    cases found with
    | none => exact Or.inl rfl
    | some c =>
      cases hstored : storeCandidate pool c with
      | error e =>
        refine Or.inl ?_
        simp only [hstored]
      | ok stored =>
        simp only [hcandidate,hstored] at h ⊢
        cases hlimits : args.fOverrideMempoolLimit with
        | true =>
          rw [hlimits,if_pos rfl] at h
          rcases h with h | ⟨_,h⟩ <;> cases h
        | false =>
          rw [hlimits,if_neg Bool.false_ne_true] at h
          rw [if_neg Bool.false_ne_true]
          cases hlimited : limitMempoolSize policy tip.time stored with
          | error e =>
            simp only [hlimited] at h
            rcases h with h | ⟨state,h⟩
            · cases h
            · cases h
              exact absurd rfl (limitMempoolSize_neverRejects policy tip.time stored _ hlimited state)
          | ok limited =>
            simp only [hlimited] at h ⊢
            split_ifs at h ⊢ with hin
            · rcases h with h | ⟨_,h⟩ <;> cases h
            · exact Or.inr ⟨rfl,c.allConflicting,stored,
                trimmedAway_of_limit hcandidate hstored hlimits hlimited hin⟩

end

section
local instance refusedCrypto : Crypto := digitCrypto

/-- The tip of `openTip`, with a second coin, at some time. -/
def twoCoinTip (time : ℤ) : ChainTip where
  chainActive := openTip.chainActive
  pcoinsTip :=
    { hashBlock := 3
      cacheCoins := fun txid =>
        if txid = 7 ∨ txid = 8 then
          some { coins := { vout := [⟨100000,[0x51]⟩], nHeight := 1, nVersion := 1 } }
        else none }
  mapBlockIndex := fun _ => some 2
  time

/-- It spends the second coin and can be replaced. -/
def freshTx : CTransaction :=
  { vin := [{ prevout := ⟨8,0⟩, nSequence := 0 }], vout := [⟨95000,[0x51]⟩] }

/-- It replaces a transaction whose parent is unconfirmed, and the one that spends the second coin. -/
def replacingBothTx : CTransaction :=
  { vin := [{ prevout := ⟨twoOutputTx.getHash,0⟩ },{ prevout := ⟨8,0⟩ }], vout := [⟨60000,[0x51]⟩] }

def acceptingAt (time : ℤ) (pool : CTxMemPool) (tx : CTransaction) : AcceptAnswer :=
  acceptToMemoryPool {} (twoCoinTip time) pool tx {}

/-- An old transaction, its child, and a younger one. -/
def agedPool : CTxMemPool :=
  (acceptingAt 6000
    (acceptingAt 5000 (acceptingAt 5000 {} twoOutputTx).pool replaceableTx).pool freshTx).pool

/-- The parent of the replacement is just old enough to expire. -/
def expiryTime : ℤ := 5001 + 72 * 60 * 60

/-- With the default limits, in a pool filled by accepting alone: the replacement is refused, and the
younger transaction, which would not have expired, is gone. -/
theorem refused_replacement_evicts :
    (acceptingAt 6000 (acceptingAt 5000 (acceptingAt 5000 {} twoOutputTx).pool replaceableTx).pool
      freshTx).verdict = .ok true ∧
    freshTx.getHash ∈ agedPool.mapTx ∧
    (acceptingAt expiryTime agedPool replacingBothTx).verdict =
      dos 0 REJECT_INSUFFICIENTFEE "mempool full" ∧
    freshTx.getHash ∉ (acceptingAt expiryTime agedPool replacingBothTx).pool.mapTx ∧
    (limitMempoolSize {} expiryTime agedPool).toOption.map (fun pool =>
      decide (freshTx.getHash ∈ pool.mapTx)) = some true := by
  decide +kernel

theorem replacingBothTx_refused :
    (acceptingAt expiryTime agedPool replacingBothTx).pool = agedPool ∨
      (acceptingAt expiryTime agedPool replacingBothTx).verdict =
          dos 0 REJECT_INSUFFICIENTFEE "mempool full" ∧
        ∃ replaced stored, TrimmedAway {} expiryTime {} agedPool
          (acceptingAt expiryTime agedPool replacingBothTx).pool replacingBothTx replaced stored := by
  have hverdict : (acceptingAt expiryTime agedPool replacingBothTx).verdict =
      dos 0 REJECT_INSUFFICIENTFEE "mempool full" := by decide +kernel
  exact acceptToMemoryPool_refused (Or.inr ⟨_,hverdict⟩)

end
end Sidechain
