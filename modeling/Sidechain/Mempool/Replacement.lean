import Sidechain.Mempool.AcceptToMemoryPool
import Sidechain.Mempool.PoolUpdates

/-! Replacing transactions of the pool. The direct conflicts are found by their inputs, all their
descendants go with them, and the replacement neither depends on one of them nor on an unconfirmed
transaction that none of the conflicts depends on, and pays for all of them and for itself. -/
namespace Sidechain
open Run Worklist

namespace CTxMemPool

/-- An entry that spends an outpoint the transaction spends as well. -/
def Conflicts (pool : CTxMemPool) (tx : CTransaction) (h : Uint256) : Prop :=
  ∃ tx', pool.lookup h = some tx' ∧ ∃ txin ∈ tx'.vin, ∃ txin' ∈ tx.vin,
    txin.prevout = txin'.prevout

/-- `d` is `h` or one of its descendants in the pool. -/
def Descends (pool : CTxMemPool) (h d : Uint256) : Prop :=
  Relation.ReflTransGen (fun parent child => pool.Spends child parent) h d

/-- What a transaction replaces: the direct conflicts and all their descendants. -/
def Replaced (pool : CTxMemPool) (tx : CTransaction) (h : Uint256) : Prop :=
  ∃ c, pool.Conflicts tx c ∧ pool.Descends c h

def modifiedFee (pool : CTxMemPool) (h : Uint256) : ℤ :=
  ((pool.mapTx.lookup h).map CTxMemPoolEntry.getModifiedFee).getD 0

end CTxMemPool

section
variable [Crypto] {pool : CTxMemPool} {tx : CTransaction}

theorem CTxMemPool.Consistent.reaches_iff (hpool : pool.Consistent) {h d : Uint256} :
    Reaches pool.childrenOf h d ↔ pool.Descends h d := by
  have hrel : (fun x y => y ∈ pool.childrenOf x) = fun x y => pool.Spends y x := by
    funext x y
    exact propext hpool.mem_childrenOf
  rw [Reaches,hrel,CTxMemPool.Descends]

variable {policy : MempoolPolicy}

theorem collectConflict_foldlM (hpool : pool.Consistent) {vin : List CTxIn}
    {s s' : Finset Uint256} (h : vin.foldlM (collectConflict policy pool) s = .ok s')
    (x : Uint256) : x ∈ s' ↔ x ∈ s ∨ ∃ tx, pool.lookup x = some tx ∧
      ∃ txin ∈ tx.vin, ∃ txin' ∈ vin, txin.prevout = txin'.prevout := by
  induction vin generalizing s with
  | nil =>
    obtain rfl := foldlM_nil_ok.mp h
    simp
  | cons txin vin ih =>
    obtain ⟨m,hm,hrest⟩ := foldlM_cons_ok.mp h
    have hstep : x ∈ m ↔ x ∈ s ∨ ∃ tx, pool.lookup x = some tx ∧
        ∃ i ∈ tx.vin, i.prevout = txin.prevout := by
      unfold collectConflict at hm
      cases hnext : pool.mapNextTx.lookup txin.prevout with
      | none =>
        simp only [hnext] at hm
        cases hm
        refine ⟨.inl,fun hx => hx.resolve_right ?_⟩
        rintro ⟨tx,htx,i,hi,hprev⟩
        obtain ⟨n,hn⟩ := List.mem_iff_getElem?.mp hi
        have hsome : pool.mapNextTx.lookup txin.prevout = some ⟨tx,n⟩ :=
          hpool.nextTx.mpr ⟨x,htx,i,hn,hprev⟩
        rw [hnext] at hsome
        cases hsome
      | some next =>
        simp only [hnext] at hm
        obtain ⟨h',htx',i',hi',hprev'⟩ := hpool.nextTx.mp hnext
        have hhash : next.ptx.getHash = h' := hpool.keyed htx'
        have hfound : (∃ tx, pool.lookup x = some tx ∧
            ∃ i ∈ tx.vin, i.prevout = txin.prevout) ↔ x = h' := by
          constructor
          · rintro ⟨tx,htx,i,hi,hprev⟩
            exact hpool.spendsOnce x tx h' _ htx htx' i hi i' (List.mem_of_getElem? hi')
              (hprev.trans hprev'.symm)
          · rintro rfl
            exact ⟨_,htx',i',List.mem_of_getElem? hi',hprev'⟩
        rw [hfound]
        rw [hhash] at hm
        split_ifs at hm with hin
        · cases hm
          exact ⟨.inl,fun hx => hx.elim id fun hx => hx ▸ hin⟩
        · obtain ⟨_,_,hm⟩ := bind_ok.mp hm
          cases hm
          rw [Finset.mem_insert,or_comm]
    rw [ih hrest,hstep,or_assoc]
    simp only [List.exists_mem_cons_iff]
    constructor
    · rintro (hx | ⟨e,he,i,hi,hprev⟩ | ⟨e,he,i,hi,hex⟩)
      · exact .inl hx
      · exact .inr ⟨e,he,i,hi,.inl hprev⟩
      · exact .inr ⟨e,he,i,hi,.inr hex⟩
    · rintro (hx | ⟨e,he,i,hi,hprev | hex⟩)
      · exact .inl hx
      · exact .inr (.inl ⟨e,he,i,hi,hprev⟩)
      · exact .inr (.inr ⟨e,he,i,hi,hex⟩)

omit [Crypto] in
/-- The loop over the conflicts collects those in the pool and the hashes they spend from. -/
theorem checkConflict_foldlM {newFeeRate : CFeeRate} {l : List Uint256} {s s' : ConflictState}
    (h : l.foldlM (checkConflict pool newFeeRate) s = .ok s') (x : Uint256) :
    (x ∈ s'.setIterConflicting ↔ x ∈ s.setIterConflicting ∨ (x ∈ l ∧ x ∈ pool.mapTx)) ∧
    (x ∈ s'.setConflictsParents ↔ x ∈ s.setConflictsParents ∨
      ∃ c ∈ l, ∃ tx, pool.lookup c = some tx ∧ ∃ txin ∈ tx.vin, txin.prevout.hash = x) := by
  induction l generalizing s with
  | nil =>
    obtain rfl := foldlM_nil_ok.mp h
    simp
  | cons c l ih =>
    obtain ⟨m,hm,hrest⟩ := foldlM_cons_ok.mp h
    obtain ⟨hiter,hparents⟩ := ih hrest
    rw [hiter,hparents]
    unfold checkConflict at hm
    cases hmi : pool.mapTx.lookup c with
    | none =>
      simp only [hmi] at hm
      cases hm
      have hc : c ∉ pool.mapTx := Finmap.lookup_eq_none.mp hmi
      constructor
      · refine or_congr_right ⟨fun hx => ⟨List.mem_cons_of_mem c hx.1,hx.2⟩,fun hx => ⟨?_,hx.2⟩⟩
        exact (List.mem_cons.mp hx.1).resolve_left fun hxc => hc (hxc ▸ hx.2)
      · simp [CTxMemPool.lookup,hmi]
    | some mi =>
      simp only [hmi] at hm
      obtain ⟨_,_,hm⟩ := bind_ok.mp hm
      obtain ⟨_,_,hm⟩ := bind_ok.mp hm
      cases hm
      have hc : c ∈ pool.mapTx := Finmap.mem_of_lookup_eq_some hmi
      constructor
      · simp only [Finset.mem_insert,List.mem_cons]
        constructor
        · rintro ((rfl | hx) | hx)
          · exact .inr ⟨.inl rfl,hc⟩
          · exact .inl hx
          · exact .inr ⟨.inr hx.1,hx.2⟩
        · rintro (hx | ⟨rfl | hx,hmem⟩)
          · exact .inl (.inr hx)
          · exact .inl (.inl rfl)
          · exact .inr ⟨hx,hmem⟩
      · simp [CTxMemPool.lookup,hmi,or_assoc]

omit [Crypto] in
theorem conflictingFees_ok {s : Finset Uint256} {n : ℤ} (h : conflictingFees pool s = .ok n) :
    n = ∑ x ∈ s, pool.modifiedFee x := by
  have hlist : (∑ x ∈ s, pool.modifiedFee x) =
      ((hashOrder.list s).map pool.modifiedFee).sum := by
    rw [← List.sum_toFinset _ (hashOrder.nodup s)]
    refine Finset.sum_congr ?_ fun _ _ => rfl
    ext x
    rw [List.mem_toFinset,hashOrder.mem_list]
  rw [hlist]
  refine foldlM_induct (fun seen _ n => n = (seen.map pool.modifiedFee).sum) ?_ (by simp) h
  intro seen it rest m m' hm hstep
  obtain ⟨e,he,hstep⟩ := bind_ok.mp hstep
  cases hstep
  have hfee : pool.modifiedFee it = e.getModifiedFee := by
    rw [CTxMemPool.modifiedFee,CTxMemPool.entry_ok.mp he]
    rfl
  simp [hm,hfee]

/-- What a replacement that passed its checks keeps to. -/
structure ReplacementRules (policy : MempoolPolicy) (pool : CTxMemPool) (tx : CTransaction)
    (nModifiedFees : ℤ) (nSize : ℕ) (replaced : Finset Uint256) : Prop where
  mem_iff : ∀ x, x ∈ replaced ↔ pool.Replaced tx x
  parents : ∀ txin ∈ tx.vin, txin.prevout.hash ∈ pool.mapTx →
    ∃ c tx', pool.Conflicts tx c ∧ pool.lookup c = some tx' ∧
      ∃ txin' ∈ tx'.vin, txin'.prevout.hash = txin.prevout.hash
  pays : (∑ x ∈ replaced, pool.modifiedFee x) + policy.minRelayTxFee.getFee nSize ≤ nModifiedFees

theorem checkReplacement_rules (hpool : pool.Consistent) {setConflicts s : Finset Uint256}
    {nModifiedFees : ℤ} {nSize : ℕ} (hconflicts : ∀ x, x ∈ setConflicts ↔ pool.Conflicts tx x)
    (hsome : ∃ c, pool.Conflicts tx c)
    (h : checkReplacement policy pool tx nModifiedFees nSize setConflicts = .ok s) :
    ReplacementRules policy pool tx nModifiedFees nSize s := by
  have hne : setConflicts ≠ ∅ := fun hempty => by
    obtain ⟨c,hc⟩ := hsome
    simpa [hempty] using (hconflicts c).mpr hc
  unfold checkReplacement at h
  rw [if_neg hne] at h
  obtain ⟨collected,hcollected,h⟩ := bind_ok.mp h
  obtain ⟨_,_,h⟩ := bind_ok.mp h
  obtain ⟨all,hall,h⟩ := bind_ok.mp h
  obtain ⟨n,hfees,h⟩ := bind_ok.mp h
  obtain ⟨_,hparents,h⟩ := bind_ok.mp h
  obtain ⟨_,_,h⟩ := bind_ok.mp h
  obtain ⟨_,hdelta,h⟩ := bind_ok.mp h
  cases h
  rw [require_dos_ok] at hparents hdelta
  have hloop := checkConflict_foldlM hcollected
  have hiter : ∀ x, x ∈ collected.setIterConflicting ↔ pool.Conflicts tx x := by
    intro x
    rw [(hloop x).1,hashOrder.mem_list,hconflicts x]
    refine ⟨fun hx => (hx.resolve_left (Finset.notMem_empty x)).1,fun hx => .inr ⟨hx,?_⟩⟩
    obtain ⟨tx',htx',_⟩ := hx
    exact CTxMemPool.mem_of_lookup htx'
  have hsub : collected.setIterConflicting ⊆ pool.mapTx.keys := by
    intro x hx
    obtain ⟨tx',htx',_⟩ := (hiter x).mp hx
    exact Finmap.mem_keys.mpr (CTxMemPool.mem_of_lookup htx')
  obtain ⟨s',hs',hmem⟩ := hpool.allDescendants_spec hsub
  obtain rfl : s' = s := Except.ok.inj (hs'.symm.trans hall)
  refine ⟨fun x => ?_,fun txin htxin hin => ?_,?_⟩
  · rw [hmem x]
    simp only [hiter,hpool.reaches_iff,CTxMemPool.Replaced]
  · have hparent := (hparents txin htxin).resolve_right (not_not.mpr hin)
    obtain ⟨c,hc,tx',htx',txin',htxin',heq⟩ :=
      ((hloop _).2.mp hparent).resolve_left (Finset.notMem_empty _)
    exact ⟨c,tx',(hconflicts c).mp (hashOrder.mem_list.mp hc),htx',txin',htxin',heq⟩
  · rw [← conflictingFees_ok hfees]
    omega

theorem findAncestors_apart (hpool : pool.Consistent) {setConflicts ancestors : Finset Uint256}
    (hconflicts : ∀ x, x ∈ setConflicts ↔ pool.Conflicts tx x)
    (h : findAncestors policy pool tx setConflicts = .ok ancestors) :
    ∀ txin ∈ tx.vin, ¬ pool.Replaced tx txin.prevout.hash := by
  rintro txin htxin ⟨c,hc,hdesc⟩
  obtain ⟨⟨found,error⟩,hanswer,h⟩ := bind_ok.mp h
  obtain ⟨_,herror,h⟩ := bind_ok.mp h
  obtain ⟨_,hdisjoint,_⟩ := bind_ok.mp h
  rw [require_dos_ok] at herror hdisjoint
  cases herror
  have hreach := hpool.reaches_iff.mpr hdesc
  obtain ⟨tx',htx',hshared⟩ := hc
  have hmem := hpool.mem_of_reaches (CTxMemPool.mem_of_lookup htx') hreach
  have hfound : c ∈ found := (hpool.searchMemPoolAncestors_spec hanswer c).mpr
    ⟨txin,htxin,hmem,hpool.reaches_parentsOf hreach⟩
  exact Finset.disjoint_left.mp hdisjoint hfound ((hconflicts c).mpr ⟨tx',htx',hshared⟩)

/-- What is known of a transaction that passed every check. -/
structure CandidateChecked (policy : MempoolPolicy) (pool : CTxMemPool) (tx : CTransaction)
    (c : Candidate) : Prop where
  tx_eq : c.entry.tx = tx
  feeDelta : c.entry.feeDelta = 0
  isNew : tx.getHash ∉ pool.mapTx
  conflicts : ∃ setConflicts, (∀ x, x ∈ setConflicts ↔ pool.Conflicts tx x) ∧
    findAncestors policy pool tx setConflicts = .ok c.setAncestors ∧
    checkReplacement policy pool tx (c.entry.nFee + pool.feeDelta tx.getHash)
      tx.getSerializeSize setConflicts = .ok c.allConflicting

theorem makeEntry_ok {tip : ChainTip} {args : AcceptArgs} {nValueIn : CAmount} {lp : LockPoints}
    {e : CTxMemPoolEntry} (h : makeEntry policy tip pool tx args nValueIn lp = .ok e) :
    e.tx = tx ∧ e.feeDelta = 0 := by
  iterate 7 obtain ⟨_,_,h⟩ := bind_ok.mp h
  cases h
  exact ⟨rfl,rfl⟩

theorem checkLoose_isNew {tip : ChainTip} (h : checkLoose policy tip pool tx = .ok ()) :
    tx.getHash ∉ pool.mapTx := by
  iterate 5 obtain ⟨_,_,h⟩ := bind_ok.mp h
  exact require_dos_ok.mp h

theorem checkCandidate_new {tip : ChainTip} {args : AcceptArgs} {c : Candidate}
    (h : checkCandidate policy tip pool tx args = .ok (some c)) :
    c.entry.tx = tx ∧ c.entry.feeDelta = 0 ∧ tx.getHash ∉ pool.mapTx ∧
      ∃ setConflicts, tx.vin.foldlM (collectConflict policy pool) ∅ = .ok setConflicts ∧
        findAncestors policy pool tx setConflicts = .ok c.setAncestors ∧
        checkReplacement policy pool tx (c.entry.nFee + pool.feeDelta tx.getHash)
          tx.getSerializeSize setConflicts = .ok c.allConflicting := by
  obtain ⟨_,hloose,h⟩ := bind_ok.mp h
  obtain ⟨setConflicts,hconflicts,h⟩ := bind_ok.mp h
  obtain ⟨inputs,_,h⟩ := bind_ok.mp h
  cases inputs with
  | none => cases h
  | some inputs =>
    obtain ⟨entry,hentry,h⟩ := bind_ok.mp h
    obtain ⟨ancestors,hancestors,h⟩ := bind_ok.mp h
    obtain ⟨all,hall,h⟩ := bind_ok.mp h
    obtain ⟨_,_,h⟩ := bind_ok.mp h
    cases h
    obtain ⟨htx,hdelta⟩ := makeEntry_ok hentry
    refine ⟨htx,hdelta,checkLoose_isNew hloose,setConflicts,hconflicts,hancestors,?_⟩
    rw [← hall,CTxMemPoolEntry.getTxSize,htx]

theorem checkCandidate_checked (hpool : pool.Consistent) {tip : ChainTip} {args : AcceptArgs}
    {c : Candidate} (h : checkCandidate policy tip pool tx args = .ok (some c)) :
    CandidateChecked policy pool tx c := by
  obtain ⟨htx,hdelta,hnew,setConflicts,hconflicts,hrest⟩ := checkCandidate_new h
  refine ⟨htx,hdelta,hnew,setConflicts,fun x => ?_,hrest⟩
  rw [collectConflict_foldlM hpool hconflicts x]
  simp [CTxMemPool.Conflicts]

/-- The pool before its size is limited: the replaced transactions are gone, the new one is there,
and everything else is as it was. -/
theorem storeCandidate_contents {c : Candidate} {stored : CTxMemPool} (htx : c.entry.tx = tx)
    (hdelta : c.entry.feeDelta = 0) (hnew : tx.getHash ∉ pool.mapTx)
    (h : storeCandidate pool c = .ok stored) (x : Uint256) : stored.contents x =
      if x = tx.getHash then some { c.entry.core with feeDelta := pool.feeDelta tx.getHash }
      else if x ∈ c.allConflicting then none else pool.contents x := by
  obtain ⟨m,hm,h⟩ := bind_ok.mp h
  have hgone := CTxMemPool.removeStaged_contents hm
  have hdeltas := CTxMemPool.removeStaged_mapDeltas hm
  subst htx
  have hnew' : c.entry.tx.getHash ∉ m.mapTx := by
    rw [CTxMemPool.mem_iff_contents,hgone]
    split_ifs
    · simp
    · exact fun h => hnew (CTxMemPool.mem_iff_contents.mpr h)
  rw [CTxMemPool.addUnchecked_contents hnew' hdelta h,CTxMemPool.feeDelta,hdeltas]
  split_ifs with hx hmem
  · rw [hx,Function.update_self]
  · rw [Function.update_of_ne hx,hgone,if_pos hmem]
  · rw [Function.update_of_ne hx,hgone,if_neg hmem]

/-- Only direct conflicts spend what the new transaction spends, so nothing is spent twice. -/
theorem storeCandidate_spendsOnce (hpool : pool.Consistent) {c : Candidate} {stored : CTxMemPool}
    (hc : CandidateChecked policy pool tx c) (h : storeCandidate pool c = .ok stored)
    (hall : ∀ x, pool.Conflicts tx x → x ∈ c.allConflicting) : stored.SpendsOnce := by
  have hlookup : ∀ x, stored.lookup x = if x = tx.getHash then some tx
      else if x ∈ c.allConflicting then none else pool.lookup x := by
    intro x
    rw [CTxMemPool.lookup_eq_contents,storeCandidate_contents hc.tx_eq hc.feeDelta hc.isNew h]
    split_ifs
    · exact congrArg some hc.tx_eq
    · rfl
    · exact (CTxMemPool.lookup_eq_contents pool x).symm
  -- an entry that stays shares no outpoint with the new transaction
  have hapart : ∀ x tx', x ≠ tx.getHash → stored.lookup x = some tx' → ∀ txin ∈ tx'.vin,
      ∀ txin' ∈ tx.vin, txin.prevout ≠ txin'.prevout := by
    intro x tx' hx htx' txin htxin txin' htxin' heq
    rw [hlookup,if_neg hx] at htx'
    split_ifs at htx' with hmem
    exact hmem (hall x ⟨tx',htx',txin,htxin,txin',htxin',heq⟩)
  intro x tx₁ y tx₂ hx hy txin htxin txin' htxin' heq
  by_cases hxn : x = tx.getHash <;> by_cases hyn : y = tx.getHash
  · exact hxn.trans hyn.symm
  · rw [hlookup,if_pos hxn] at hx
    cases hx
    exact absurd heq.symm (hapart y tx₂ hyn hy txin' htxin' txin htxin)
  · rw [hlookup,if_pos hyn] at hy
    cases hy
    exact absurd heq (hapart x tx₁ hxn hx txin htxin txin' htxin')
  · rw [hlookup,if_neg hxn] at hx
    rw [hlookup,if_neg hyn] at hy
    split_ifs at hx hy
    exact hpool.spendsOnce x tx₁ y tx₂ hx hy txin htxin txin' htxin' heq

end

/-- How a transaction that was accepted as a replacement leaves the pool. `replaced` are the
transactions that went before the size of the pool was limited, and `stored` is the pool then. -/
structure AcceptedReplacement [Crypto] (policy : MempoolPolicy) (time : ℤ) (args : AcceptArgs)
    (pool pool' : CTxMemPool) (tx : CTransaction) (replaced : Finset Uint256)
    (stored : CTxMemPool) : Prop where
  spendsOnce : pool'.SpendsOnce
  replaced_iff : ∀ x, x ∈ replaced ↔ pool.Replaced tx x
  gone : ∀ x, x ∈ pool.mapTx → (x ∉ stored.mapTx ↔ x ∈ replaced)
  kept : ∀ x, x ∈ pool.mapTx → x ∉ replaced → stored.contents x = pool.contents x
  added : ∀ x, x ∈ stored.mapTx ↔ x = tx.getHash ∨ (x ∈ pool.mapTx ∧ x ∉ replaced)
  limited : if args.fOverrideMempoolLimit then pool' = stored
    else limitMempoolSize policy time stored = .ok pool' ∧ CTxMemPool.Shrinks stored pool'
  independent : ∀ txin ∈ tx.vin, txin.prevout.hash ∉ replaced
  parents : ∀ txin ∈ tx.vin, txin.prevout.hash ∈ pool.mapTx →
    ∃ c tx', pool.Conflicts tx c ∧ pool.lookup c = some tx' ∧
      ∃ txin' ∈ tx'.vin, txin'.prevout.hash = txin.prevout.hash
  pays : ∃ e, pool'.contents tx.getHash = some e ∧ e.tx = tx ∧
    (∑ x ∈ replaced, pool.modifiedFee x) + policy.minRelayTxFee.getFee tx.getSerializeSize ≤
      e.getModifiedFee

theorem limitMempoolSize_shrinks {policy : MempoolPolicy} {time : ℤ} {pool pool' : CTxMemPool}
    (h : limitMempoolSize policy time pool = .ok pool') : CTxMemPool.Shrinks pool pool' := by
  obtain ⟨m,hm,h⟩ := bind_ok.mp h
  exact (CTxMemPool.expire_shrinks hm).trans (CTxMemPool.trimLoop_shrinks h)

theorem acceptToMemoryPoolWorker_true [Crypto] {policy : MempoolPolicy} {tip : ChainTip}
    {pool pool' : CTxMemPool} {tx : CTransaction} {args : AcceptArgs}
    (h : acceptToMemoryPoolWorker policy tip pool tx args = ⟨.ok true,pool'⟩) :
    ∃ c stored, checkCandidate policy tip pool tx args = .ok (some c) ∧
      storeCandidate pool c = .ok stored ∧
      (args.fOverrideMempoolLimit = true ∧ pool' = stored ∨
        args.fOverrideMempoolLimit = false ∧ limitMempoolSize policy tip.time stored = .ok pool' ∧
          tx.getHash ∈ pool'.mapTx) := by
  unfold acceptToMemoryPoolWorker at h
  split at h
  · cases h
  · cases h
  · rename_i c hc
    split at h
    · cases h
    · rename_i stored hstored
      refine ⟨c,stored,hc,hstored,?_⟩
      split_ifs at h with hover
      · cases h
        exact .inl ⟨hover,rfl⟩
      · split at h
        · cases h
        · rename_i limited hlimited
          split_ifs at h with hmem
          · cases h
            exact .inr ⟨Bool.eq_false_iff.mpr hover,hlimited,hmem⟩
          · cases h

/-- A replacement that is accepted removes exactly its direct conflicts and their descendants, apart
from what the limits on the pool take out afterwards; it spends from none of them, from no
unconfirmed transaction that none of the conflicts spends from, and pays for all of them and for
its own size; and no outpoint is spent twice. -/
theorem replacement_accepted [Crypto] {policy : MempoolPolicy} {tip : ChainTip}
    {pool pool' : CTxMemPool} {tx : CTransaction} {args : AcceptArgs} (hpool : pool.Consistent)
    (h : acceptToMemoryPoolWorker policy tip pool tx args = ⟨.ok true,pool'⟩)
    (hreplaces : ∃ c, pool.Conflicts tx c) :
    ∃ replaced stored, AcceptedReplacement policy tip.time args pool pool' tx replaced stored := by
  obtain ⟨c,stored,hcandidate,hstored,hend⟩ := acceptToMemoryPoolWorker_true h
  have hc := checkCandidate_checked hpool hcandidate
  obtain ⟨setConflicts,hconflicts,hancestors,hreplacement⟩ := hc.conflicts
  have hrules := checkReplacement_rules hpool hconflicts hreplaces hreplacement
  have hcontents := storeCandidate_contents hc.tx_eq hc.feeDelta hc.isNew hstored
  have honce := storeCandidate_spendsOnce hpool hc hstored fun x hx =>
    (hrules.mem_iff x).mpr ⟨x,hx,.refl⟩
  have hmem : ∀ x, x ∈ stored.mapTx ↔ x = tx.getHash ∨ (x ∈ pool.mapTx ∧ x ∉ c.allConflicting) := by
    intro x
    rw [CTxMemPool.mem_iff_contents,hcontents,CTxMemPool.mem_iff_contents]
    by_cases hx : x = tx.getHash <;> by_cases hr : x ∈ c.allConflicting <;> simp [hx,hr]
  have hne : ∀ x, x ∈ pool.mapTx → x ≠ tx.getHash := fun x hx hxt => hc.isNew (hxt ▸ hx)
  have hnew : stored.contents tx.getHash =
      some { c.entry.core with feeDelta := pool.feeDelta tx.getHash } := by
    rw [hcontents,if_pos rfl]
  have hshrinks : CTxMemPool.Shrinks stored pool' := by
    rcases hend with ⟨_,rfl⟩ | ⟨_,hlimit,_⟩
    · exact .refl _
    · exact limitMempoolSize_shrinks hlimit
  have hlast : pool'.contents tx.getHash =
      some { c.entry.core with feeDelta := pool.feeDelta tx.getHash } := by
    rcases hend with ⟨_,rfl⟩ | ⟨_,_,hin⟩
    · exact hnew
    · obtain ⟨e,he⟩ := Option.isSome_iff_exists.mp (CTxMemPool.mem_iff_contents.mp hin)
      rw [he,← hshrinks _ e he,hnew]
  refine ⟨c.allConflicting,stored,honce.shrinks hshrinks,hrules.mem_iff,fun x hx => ?_,
    fun x hx hr => ?_,hmem,?_,fun txin htxin hr => ?_,hrules.parents,_,hlast,hc.tx_eq,hrules.pays⟩
  · rw [hmem,not_or,not_and_not_right]
    exact ⟨fun hand => hand.2 hx,fun hr => ⟨hne x hx,fun _ => hr⟩⟩
  · rw [hcontents,if_neg (hne x hx),if_neg hr]
  · rcases hend with ⟨hover,rfl⟩ | ⟨hover,hlimit,_⟩
    · rw [if_pos hover]
    · rw [if_neg (by rw [hover]; decide)]
      exact ⟨hlimit,hshrinks⟩
  · exact findAncestors_apart hpool hconflicts hancestors txin htxin ((hrules.mem_iff _).mp hr)

section
local instance replacementCrypto : Crypto := digitCrypto

/-- Three blocks, and a coin that anyone may spend. -/
def openTip : ChainTip where
  chainActive := ⟨[⟨3,1,1200⟩,⟨2,1,1100⟩,⟨1,1,1000⟩]⟩
  pcoinsTip :=
    { hashBlock := 3
      cacheCoins := fun txid =>
        if txid = 7 then some { coins := { vout := [⟨100000,[0x51]⟩], nHeight := 1, nVersion := 1 } }
        else none }
  mapBlockIndex := fun _ => some 2
  time := 5000

/-- An unconfirmed transaction with two outputs. -/
def twoOutputTx : CTransaction :=
  { vin := [{ prevout := ⟨7,0⟩, nSequence := 0 }], vout := [⟨45000,[0x51]⟩,⟨45000,[0x51]⟩] }

/-- It spends one of them and can be replaced. -/
def replaceableTx : CTransaction :=
  { vin := [{ prevout := ⟨twoOutputTx.getHash,0⟩, nSequence := 0 }], vout := [⟨40000,[0x51]⟩] }

/-- Its replacement spends both. -/
def replacingTx : CTransaction :=
  { vin := [{ prevout := ⟨twoOutputTx.getHash,0⟩ },{ prevout := ⟨twoOutputTx.getHash,1⟩ }]
    vout := [⟨60000,[0x51]⟩] }

def accepting (pool : CTxMemPool) (tx : CTransaction) : AcceptAnswer :=
  acceptToMemoryPoolWorker {} openTip pool tx {}

def twoOutputPool : CTxMemPool := (accepting {} twoOutputTx).pool
def replaceablePool : CTxMemPool := (accepting twoOutputPool replaceableTx).pool

/-- A pool filled by the worker alone, in which a replacement is accepted that spends an unconfirmed
output which no entry of the pool spent. -/
theorem replacement_spends_new_output :
    (accepting {} twoOutputTx).verdict = .ok true ∧
    (accepting twoOutputPool replaceableTx).verdict = .ok true ∧
    replaceablePool.mapNextTx.lookup ⟨twoOutputTx.getHash,0⟩ = some ⟨replaceableTx,0⟩ ∧
    (accepting replaceablePool replacingTx).verdict = .ok true ∧
    replaceableTx.getHash ∉ (accepting replaceablePool replacingTx).pool.mapTx ∧
    (⟨twoOutputTx.getHash,1⟩ : COutPoint) ∈ replacingTx.vin.map CTxIn.prevout ∧
    twoOutputTx.getHash ∈ replaceablePool.mapTx ∧
    replaceablePool.mapNextTx.lookup ⟨twoOutputTx.getHash,1⟩ = none := by
  decide +kernel

def twoOutputEntry : CTxMemPoolEntry := CTxMemPoolEntry.create twoOutputTx 10000 5000 false 0 {}

/-- The parent alone in the pool. -/
def singlePool : CTxMemPool :=
  (CTxMemPool.addUnchecked {} twoOutputEntry.tx.getHash twoOutputEntry ∅).toOption.getD {}

theorem singlePool_consistent : singlePool.Consistent := by
  have hok : (CTxMemPool.addUnchecked {} twoOutputEntry.tx.getHash twoOutputEntry ∅).isOk = true := by
    decide +kernel
  obtain ⟨pool,hpool⟩ := isOk_iff.mp hok
  have hsingle : singlePool = pool := by
    rw [singlePool,hpool]
    rfl
  rw [hsingle]
  have hfits : CTxMemPool.Fits {} twoOutputEntry.tx :=
    ⟨Finmap.notMem_empty,by decide +kernel,fun _ _ => Finmap.lookup_empty _,by decide +kernel,
      fun h _ htx => absurd (CTxMemPool.mem_of_lookup htx) Finmap.notMem_empty⟩
  exact CTxMemPool.Consistent.empty.addUnchecked hfits rfl hpool

/-- It is replaced by a transaction that pays more. -/
def higherTx : CTransaction := { vin := [{ prevout := ⟨7,0⟩ }], vout := [⟨60000,[0x51]⟩] }

theorem twoOutputTx_replaced : ∃ replaced stored, AcceptedReplacement {} 5000 {} singlePool
    (accepting singlePool higherTx).pool higherTx replaced stored := by
  have hverdict : (accepting singlePool higherTx).verdict = .ok true := by decide +kernel
  have haccepted : accepting singlePool higherTx = ⟨.ok true,(accepting singlePool higherTx).pool⟩ :=
    AcceptAnswer.eq_of_verdict hverdict
  have hfound : singlePool.lookup twoOutputTx.getHash = some twoOutputTx := by decide +kernel
  exact replacement_accepted singlePool_consistent haccepted
    ⟨twoOutputTx.getHash,twoOutputTx,hfound,_,List.mem_singleton_self _,_,List.mem_singleton_self _,rfl⟩

end
end Sidechain
