import Sidechain.Mempool.PoolTally
import Sidechain.Mempool.Replacement

/-! The pool over runs of what a node does with it: transactions are accepted with what they replace,
blocks take transactions out, fee deltas are set and the size is limited. -/
namespace Sidechain
open Run Worklist

/-- The order by score and the use of memory are what they should be: there is a least entry as long
as there is an entry at all, and an empty pool is within the limit. -/
structure MempoolPolicy.Trims (policy : MempoolPolicy) : Prop where
  lowest : ∀ pool : CTxMemPool, (∃ x, x ∈ pool.mapTx) →
    ∃ it ∈ pool.mapTx, policy.lowest pool = some it
  empty : ∀ pool : CTxMemPool, (∀ x, x ∉ pool.mapTx) →
    policy.dynamicMemoryUsage pool ≤ policy.maxmempool

/-- How a function ends that does not fail: with a verdict, or with an exception for its caller. -/
def Halt.IsAnswer : Halt → Prop
  | .rejected _ => True
  | .exception _ => True
  | .assertion _ => False
  | .undefined _ => False

abbrev Answers {α : Type} (x : Outcome α) : Prop := FailsWith Halt.IsAnswer x

theorem Answers.require {c : Prop} [Decidable c] {level code : ℕ} {reason : String} :
    Answers (require c (dos level code reason)) := by
  unfold Sidechain.require
  split_ifs
  · exact .ok ()
  · exact .error trivial

/-- The pool that a call leaves, unless an assertion failed or something was undefined. -/
def AcceptAnswer.left (answer : AcceptAnswer) : Outcome CTxMemPool :=
  match answer.verdict with
  | .error (.assertion expression) => .error (.assertion expression)
  | .error (.undefined what) => .error (.undefined what)
  | _ => .ok answer.pool

theorem AcceptAnswer.left_eq {answer : AcceptAnswer} (h : Answers answer.verdict) :
    answer.left = .ok answer.pool := by
  unfold left
  cases hv : answer.verdict with
  | ok verdict => rfl
  | error e =>
    have he := h e hv
    cases e with
    | rejected state => rfl
    | exception what => rfl
    | assertion expression => exact False.elim he
    | undefined what => exact False.elim he

theorem AcceptAnswer.left_ok {answer : AcceptAnswer} {pool : CTxMemPool}
    (h : answer.left = .ok pool) : pool = answer.pool := by
  unfold left at h
  split at h <;> cases h
  rfl

/-- The checks of a transaction that look at itself, the chain and the coins, and not at the records
and links of the pool, come to an answer. -/
structure ChecksAnswer [Crypto] (policy : MempoolPolicy) (tip : ChainTip) (pool : CTxMemPool)
    (tx : CTransaction) (args : AcceptArgs) : Prop where
  loose : Answers (checkLoose policy tip pool tx)
  inputs : Answers (readInputs tip pool tx)
  entry : ∀ nValueIn lp, readInputs tip pool tx = .ok (some (nValueIn,lp)) →
    Answers (makeEntry policy tip pool tx args nValueIn lp)
  scripts : Answers (checkScripts tip pool tx)

theorem checkCandidate_entry [Crypto] {policy : MempoolPolicy} {tip : ChainTip} {pool : CTxMemPool}
    {tx : CTransaction} {args : AcceptArgs} {c : Candidate}
    (h : checkCandidate policy tip pool tx args = .ok (some c)) : tx.Checked ∧ c.entry.Fresh := by
  obtain ⟨_,_,_,_,_,_,hchecked,_,_,_,_,hentry⟩ := checkCandidate_made h
  rw [hentry]
  exact ⟨checkTransaction_ok.mp hchecked,rfl,Prod.ext rfl (Prod.ext rfl (add_zero _).symm)⟩

namespace CTxMemPool
variable [Crypto] {pool pool' : CTxMemPool}

/-- What a recursive removal begins with: the transaction, or what spends its outputs if the pool does
not have it. -/
def Roots (pool : CTxMemPool) (tx : CTransaction) (r : Uint256) : Prop :=
  if tx.getHash ∈ pool.mapTx then r = tx.getHash
  else ∃ i < tx.vout.length, ∃ tx', pool.lookup r = some tx' ∧
    ∃ txin ∈ tx'.vin, txin.prevout = ⟨tx.getHash,.ofNat i⟩

theorem Consistent.addSpenders (hpool : pool.Consistent) {hash : Uint256} (l : List ℕ)
    (s : Finset Uint256) : ∃ s', l.foldlM (pool.addSpender hash) s = .ok s' ∧
      ∀ x, x ∈ s' ↔ x ∈ s ∨ ∃ i ∈ l, ∃ tx, pool.lookup x = some tx ∧
        ∃ txin ∈ tx.vin, txin.prevout = ⟨hash,.ofNat i⟩ := by
  induction l generalizing s with
  | nil => exact ⟨s,rfl,by simp⟩
  | cons i l ih =>
    have hstep : ∃ m, pool.addSpender hash s i = .ok m ∧ ∀ x, x ∈ m ↔ x ∈ s ∨
        ∃ tx, pool.lookup x = some tx ∧ ∃ txin ∈ tx.vin, txin.prevout = ⟨hash,.ofNat i⟩ := by
      unfold addSpender
      cases hnext : pool.mapNextTx.lookup ⟨hash,.ofNat i⟩ with
      | none =>
        refine ⟨s,rfl,fun x => (or_iff_left ?_).symm⟩
        rintro ⟨tx,htx,txin,htxin,hprev⟩
        obtain ⟨n,hn⟩ := List.mem_iff_getElem?.mp htxin
        have hsome : pool.mapNextTx.lookup ⟨hash,.ofNat i⟩ = some ⟨tx,n⟩ :=
          hpool.nextTx.mpr ⟨x,htx,txin,hn,hprev⟩
        rw [hnext] at hsome
        cases hsome
      | some next =>
        obtain ⟨h,htx,txin,htxin,hprev⟩ := hpool.nextTx.mp hnext
        obtain rfl := hpool.keyed htx
        refine ⟨insert next.ptx.getHash s,?_,fun x => ?_⟩
        · exact bind_ok.mpr ⟨(),if_pos (mem_of_lookup htx),rfl⟩
        · rw [Finset.mem_insert,or_comm]
          refine or_congr_right ⟨?_,?_⟩
          · rintro rfl
            exact ⟨_,htx,txin,List.mem_of_getElem? htxin,hprev⟩
          · rintro ⟨tx',htx',txin',htxin',hprev'⟩
            exact hpool.spendsOnce x tx' _ _ htx' htx txin' htxin' txin (List.mem_of_getElem? htxin)
              (hprev'.trans hprev.symm)
    obtain ⟨m,hm,hmem⟩ := hstep
    obtain ⟨s',hs',hmem'⟩ := ih m
    refine ⟨s',foldlM_cons_ok.mpr ⟨m,hm,hs'⟩,fun x => ?_⟩
    rw [hmem',hmem,List.exists_mem_cons_iff,or_assoc]

section
variable (hpool : pool.Tallied)
include hpool

theorem Tallied.removeDescendants {its stage : Finset Uint256} (hits : its ⊆ pool.mapTx.keys)
    (hstage : ∀ x, x ∈ stage ↔ ∃ it ∈ its, Reaches pool.childrenOf it x) :
    ∃ pool', pool.removeStaged stage = .ok pool' ∧ pool'.Tallied := by
  refine hpool.removeStaged (fun x hx => ?_) fun a _ r hr b hb _ hrb => hb ?_
  · obtain ⟨it,hit,hreach⟩ := (hstage x).mp hx
    exact Finmap.mem_keys.mpr (hpool.mem_of_reaches (Finmap.mem_keys.mp (hits hit)) hreach)
  · obtain ⟨it,hit,hreach⟩ := (hstage r).mp hr
    exact (hstage b).mpr ⟨it,hit,hreach.trans hrb⟩

theorem Tallied.expire (time : ℤ) : ∃ pool', pool.expire time = .ok pool' ∧ pool'.Tallied := by
  have hsub := Finset.filter_subset (fun it => (pool.mapTx.lookup it).any
    fun e => decide (e.nTime < time)) pool.mapTx.keys
  obtain ⟨stage,hstage,hmem⟩ := hpool.allDescendants_spec hsub
  obtain ⟨pool',hrun,h⟩ := hpool.removeDescendants hsub hmem
  exact ⟨pool',bind_ok.mpr ⟨stage,hstage,hrun⟩,h⟩

theorem Tallied.removeRoot {tx : CTransaction} (hroot : ∀ p, ¬ pool.Spends tx.getHash p)
    {stage : Finset Uint256} (hstage : ∀ x ∈ stage, x = tx.getHash ∧ x ∈ pool.mapTx) :
    ∃ pool', pool.removeStaged stage = .ok pool' ∧ pool'.Tallied := by
  refine hpool.removeStaged (fun x hx => Finmap.mem_keys.mpr (hstage x hx).2)
    fun a ha r hr b _ har _ => ?_
  rcases Relation.ReflTransGen.cases_tail har with heq | ⟨p,_,hp⟩
  · exact ha (heq ▸ hr)
  · exact hroot p ((hstage r hr).1 ▸ hpool.mem_childrenOf.mp hp)

/-- What a removal takes out: the transaction by itself, or with everything that depends on it. -/
def Removes (pool : CTxMemPool) (tx : CTransaction) (fRecursive : Bool) (x : Uint256) : Prop :=
  if fRecursive then ∃ r, pool.Roots tx r ∧ pool.Descends r x else x = tx.getHash

theorem Tallied.setAllRemoves (tx : CTransaction) (fRecursive : Bool)
    (hroot : fRecursive = false → ∀ p, ¬ pool.Spends tx.getHash p) :
    ∃ stage, pool.setAllRemoves tx fRecursive = .ok stage ∧
      (∀ x, x ∈ stage ↔ x ∈ pool.mapTx ∧ pool.Removes tx fRecursive x) ∧
      ∃ pool', pool.removeStaged stage = .ok pool' ∧ pool'.Tallied := by
  cases fRecursive with
  | false =>
    have hroots : ∃ stage, pool.txToRemove tx false = .ok stage ∧
        ∀ x, x ∈ stage ↔ x ∈ pool.mapTx ∧ x = tx.getHash := by
      simp only [txToRemove,Bool.false_eq_true,if_false]
      split_ifs with hin
      · exact ⟨_,rfl,fun x => Finset.mem_singleton.trans ⟨fun hx => ⟨hx ▸ hin,hx⟩,And.right⟩⟩
      · exact ⟨∅,rfl,fun x => iff_of_false (Finset.notMem_empty x) fun hx => hin (hx.2 ▸ hx.1)⟩
    obtain ⟨stage,hstage,hmem⟩ := hroots
    exact ⟨stage,bind_ok.mpr ⟨stage,hstage,rfl⟩,hmem,
      hpool.removeRoot (hroot rfl) fun x hx => ((hmem x).mp hx).symm⟩
  | true =>
    have hroots : ∃ roots, pool.txToRemove tx true = .ok roots ∧
        ∀ x, x ∈ roots ↔ pool.Roots tx x := by
      simp only [Roots,txToRemove,if_true]
      split_ifs with hin
      · exact ⟨_,rfl,fun x => Finset.mem_singleton⟩
      · obtain ⟨s,hs,hmem⟩ := hpool.addSpenders (List.range tx.vout.length) ∅
        exact ⟨s,hs,fun x => by simpa using hmem x⟩
    obtain ⟨roots,hroots,hmem⟩ := hroots
    have hsub : roots ⊆ pool.mapTx.keys := by
      intro x hx
      have hx := (hmem x).mp hx
      unfold Roots at hx
      split_ifs at hx with hin
      · exact Finmap.mem_keys.mpr (hx ▸ hin)
      · obtain ⟨_,_,tx',htx',_⟩ := hx
        exact Finmap.mem_keys.mpr (mem_of_lookup htx')
    obtain ⟨stage,hstage,hdesc⟩ := hpool.allDescendants_spec hsub
    refine ⟨stage,bind_ok.mpr ⟨roots,hroots,hstage⟩,fun x => ?_,hpool.removeDescendants hsub hdesc⟩
    rw [hdesc]
    simp only [hmem,hpool.reaches_iff]
    refine (and_iff_right_of_imp ?_).symm
    rintro ⟨r,hr,hdesc⟩
    exact hpool.mem_of_reaches (Finmap.mem_keys.mp (hsub ((hmem r).mpr hr)))
      (hpool.reaches_iff.mpr hdesc)

/-- Removing a transaction never fails. With its descendants, exactly these go; what was removed is
what is there no more. -/
theorem Tallied.remove (tx : CTransaction) (fRecursive : Bool)
    (hroot : fRecursive = false → ∀ p, ¬ pool.Spends tx.getHash p) :
    ∃ pool' removed, pool.remove tx fRecursive = .ok (pool',removed) ∧ pool'.Tallied ∧
      (∀ {x t}, pool'.lookup x = some t → pool.lookup x = some t) ∧
      (∀ x ∈ pool.mapTx, (x ∉ pool'.mapTx ↔ pool.Removes tx fRecursive x)) ∧
      ∀ t, t ∈ removed ↔ ∃ x, pool.lookup x = some t ∧ pool'.lookup x = none := by
  obtain ⟨stage,hstage,hmem,pool',hrun,h⟩ := hpool.setAllRemoves tx fRecursive hroot
  obtain ⟨removed,hremoved,-⟩ : ∃ removed, (hashOrder.list stage).mapM
      (fun it => CTxMemPoolEntry.tx <$> pool.entry it) = .ok removed ∧ ∀ t ∈ removed, True :=
    mapM_ok_of_forall fun x hx => by
      obtain ⟨e,he⟩ := Finmap.mem_iff.mp ((hmem x).mp (hashOrder.mem_list.mp hx)).1
      exact ⟨e.tx,map_ok.mpr ⟨e,entry_ok.mpr he,rfl⟩,trivial⟩
  have hcontents := removeStaged_contents hrun
  refine ⟨pool',removed,bind_ok.mpr ⟨stage,hstage,bind_ok.mpr ⟨removed,hremoved,bind_ok.mpr
    ⟨pool',hrun,rfl⟩⟩⟩,h,(removeStaged_shrinks hrun).lookup,fun x hx => ?_,fun t => ?_⟩
  · rw [← and_iff_right hx (b := pool.Removes tx fRecursive x),← hmem,removeStaged_mem hrun]
    simp [hx]
  · rw [mem_of_mapM_ok hremoved]
    refine exists_congr fun x => ?_
    rw [hashOrder.mem_list,map_ok,lookup_eq_contents pool',hcontents]
    simp only [entry_ok,lookup,Option.map_eq_some_iff]
    constructor
    · rintro ⟨hx,he⟩
      exact ⟨he,by rw [if_pos hx,Option.map_none]⟩
    · rintro ⟨⟨e,he,htx⟩,hnone⟩
      refine ⟨by_contra fun hx => ?_,e,he,htx⟩
      rw [if_neg hx,contents_of_lookup he] at hnone
      cases hnone

section
variable (hlookup : pool'.lookup = pool.lookup) (hlinks : pool'.mapLinks = pool.mapLinks)
include hlookup hlinks

omit [Crypto] hpool hlookup in
theorem childrenOf_of_links : pool'.childrenOf = pool.childrenOf := by
  funext x
  rw [childrenOf,linksAt,hlinks,← linksAt,← childrenOf]

omit hpool in
/-- The maps that `check` looks at do not depend on what entries record. -/
theorem Consistent.of_maps (h : pool.Consistent) (hnext : pool'.mapNextTx = pool.mapNextTx) :
    pool'.Consistent := by
  have hmem : ∀ x, x ∈ pool'.mapTx ↔ x ∈ pool.mapTx := fun x => by
    rw [mem_iff_lookup,hlookup,mem_iff_lookup]
  have hspends : ∀ c p, pool'.Spends c p ↔ pool.Spends c p := fun c p => by
    rw [Spends,hmem,hlookup,Spends]
  refine ⟨⟨fun htx => h.keyed (hlookup ▸ htx),?_⟩,?_,?_,?_⟩
  · rw [hnext,hlookup]
    exact h.nextTx
  · intro x
    rw [hlinks,hmem,h.links_mem]
  · intro x p
    rw [parentsOf,linksAt,hlinks,← linksAt,← parentsOf,h.mem_parentsOf,hspends]
  · intro x c
    rw [childrenOf_of_links hlinks,h.mem_childrenOf,hspends]

omit [Crypto] hpool in
theorem descendantsOf_of_maps : pool'.descendantsOf = pool.descendantsOf := by
  funext x
  ext d
  rw [mem_descendantsOf,mem_descendantsOf,mem_iff_lookup,hlookup,← mem_iff_lookup,
    childrenOf_of_links hlinks]

omit [Crypto] hpool hlinks hlookup in
theorem share_size (x : Uint256) :
    (pool.share x).2.1 = (((pool.lookup x).map CTransaction.getSerializeSize).getD 0 : ℕ) := by
  rw [share,lookup_eq_contents]
  cases pool.contents x <;> rfl

theorem Tallied.of_maps (hnext : pool'.mapNextTx = pool.mapNextTx)
    (htotal : pool'.totalTxSize = pool.totalTxSize)
    (hdeltas : ∀ {x e}, pool'.contents x = some e → e.feeDelta = (pool'.mapDeltas.lookup x).getD 0)
    (hrecords : pool'.Records fun x => ∑ d ∈ pool.descendantsOf x, pool'.share d) :
    pool'.Tallied := by
  refine ⟨hpool.toConsistent.of_maps hlookup hlinks hnext,?_,?_,hdeltas,?_⟩
  · exact childrenOf_of_links hlinks ▸ hpool.acyclic
  · rw [descendantsOf_of_maps hlookup hlinks]
    exact hrecords
  · have hkeys : pool'.mapTx.keys = pool.mapTx.keys := by
      ext x
      rw [Finmap.mem_keys,mem_iff_lookup,hlookup,← mem_iff_lookup,Finmap.mem_keys]
    rw [htotal,hpool.total,hkeys]
    exact Finset.sum_congr rfl fun x _ => by rw [share_size,share_size,hlookup]

end

omit [Crypto] hpool in
/-- What an entry contributes changes for itself and its ancestors. -/
theorem sum_share_update {D : Finset Uint256} {share : Uint256 → ℤ × ℤ × ℤ} (hash : Uint256)
    (d : ℤ × ℤ × ℤ) : ∑ c ∈ D, Function.update share hash (share hash + d) c =
      (∑ c ∈ D, share c) + if hash ∈ D then d else 0 := by
  split_ifs with hd
  · rw [Finset.sum_update_of_mem hd,← Finset.add_sum_erase _ _ hd,Finset.sdiff_singleton_eq_erase,
      add_right_comm]
  · rw [Finset.sum_update_of_notMem hd,add_zero]

/-- The pool when the delta of an entry has changed, in the entry and in `mapDeltas`. -/
def withDelta (pool : CTxMemPool) (hash : Uint256) (e : CTxMemPoolEntry) (delta : ℤ) : CTxMemPool :=
  { pool with
    mapDeltas := pool.mapDeltas.insert hash delta
    mapTx := pool.mapTx.insert hash (e.updateFeeDelta delta) }

section
variable {hash : Uint256} {e : CTxMemPoolEntry} (he : pool.mapTx.lookup hash = some e)

omit [Crypto] hpool in
theorem lookup_withDelta_of_ne (delta : ℤ) {x : Uint256} (hx : x ≠ hash) :
    (pool.withDelta hash e delta).mapTx.lookup x = pool.mapTx.lookup x :=
  Finmap.lookup_insert_of_ne _ hx

omit [Crypto] hpool in
include he in
theorem withDelta_lookup (delta : ℤ) : (pool.withDelta hash e delta).lookup = pool.lookup := by
  funext x
  by_cases hx : x = hash
  · rw [hx,lookup_of_entry he,lookup_of_entry (Finmap.lookup_insert _)]
    rfl
  · rw [lookup,lookup_withDelta_of_ne delta hx,lookup]

include he

/-- Only the entry contributes something else, by what its fee changes. -/
theorem Tallied.share_withDelta (nFeeDelta : ℤ) :
    (pool.withDelta hash e ((pool.mapDeltas.lookup hash).getD 0 + nFeeDelta)).share =
      Function.update pool.share hash (pool.share hash + (0,0,nFeeDelta)) := by
  have hold : e.feeDelta = (pool.mapDeltas.lookup hash).getD 0 :=
    hpool.deltas (e := e.core) (contents_of_lookup he)
  funext x
  by_cases hx : x = hash
  · rw [hx,Function.update_self,share_of_lookup (Finmap.lookup_insert _),share_of_lookup he]
    refine Prod.ext rfl (Prod.ext (add_zero _).symm ?_)
    change e.nFee + ((pool.mapDeltas.lookup hash).getD 0 + nFeeDelta) = e.nFee + e.feeDelta + nFeeDelta
    rw [hold,add_assoc]
  · rw [Function.update_of_ne hx,share,contents,lookup_withDelta_of_ne _ hx,share,contents]

/-- The entry itself records the change. -/
theorem Tallied.recorded_withDelta (nFeeDelta : ℤ) :
    (e.updateFeeDelta ((pool.mapDeltas.lookup hash).getD 0 + nFeeDelta)).recorded =
      ∑ c ∈ pool.descendantsOf hash,
        (pool.withDelta hash e ((pool.mapDeltas.lookup hash).getD 0 + nFeeDelta)).share c := by
  have hold : e.feeDelta = (pool.mapDeltas.lookup hash).getD 0 :=
    hpool.deltas (e := e.core) (contents_of_lookup he)
  have hrecord : e.recorded = ∑ c ∈ pool.descendantsOf hash, pool.share c :=
    hpool.records hash e he
  rw [hpool.share_withDelta he,sum_share_update,
    if_pos (self_mem_descendantsOf (Finmap.mem_of_lookup_eq_some he)),← hrecord]
  refine Prod.ext (add_zero _).symm (Prod.ext (add_zero _).symm ?_)
  change e.nModFeesWithDescendants + ((pool.mapDeltas.lookup hash).getD 0 + nFeeDelta - e.feeDelta) =
    e.nModFeesWithDescendants + nFeeDelta
  rw [hold,add_sub_cancel_left]

omit [Crypto] hpool in
@[simp] theorem mem_withDelta (delta : ℤ) {x : Uint256} :
    x ∈ (pool.withDelta hash e delta).mapTx ↔ x ∈ pool.mapTx := by
  rw [mem_iff_lookup,withDelta_lookup he,mem_iff_lookup]

omit he in
theorem Tallied.deltas_withDelta (delta : ℤ) {x : Uint256} {a : CTxMemPoolEntry}
    (ha : (pool.withDelta hash e delta).contents x = some a) :
    a.feeDelta = ((pool.withDelta hash e delta).mapDeltas.lookup x).getD 0 := by
  by_cases hx : x = hash
  · rw [hx,contents_of_lookup (Finmap.lookup_insert _)] at ha
    cases ha
    rw [hx,withDelta,Finmap.lookup_insert]
    rfl
  · rw [contents,lookup_withDelta_of_ne delta hx] at ha
    rw [withDelta,Finmap.lookup_insert_of_ne _ hx]
    exact hpool.deltas ha

/-- The loop over the ancestors brings their records up to date. -/
theorem Tallied.prioritise_ancestors (nFeeDelta : ℤ) :
    let m := pool.withDelta hash e ((pool.mapDeltas.lookup hash).getD 0 + nFeeDelta)
    ∃ s pool', m.linkedMemPoolAncestors hash = .ok s ∧
      (hashOrder.list s).foldlM (fun pool ancestorIt => pool.modify ancestorIt fun a =>
        a.updateState 0 nFeeDelta 0) m = .ok pool' ∧
      SameTxs m pool' ∧ pool'.mapLinks = m.mapLinks ∧
      pool'.Records fun x => ∑ d ∈ pool.descendantsOf x, pool'.share d := by
  intro m
  have hin : hash ∈ pool.mapTx := Finmap.mem_of_lookup_eq_some he
  have hm : m.Consistent := hpool.toConsistent.of_maps (withDelta_lookup he _) rfl rfl
  obtain ⟨s,hs,hancestors⟩ := linkedMemPoolAncestors_spec (fun x hx => hm.links_mem.mpr hx)
    (fun x => hm.parentsOf_sub) ((mem_withDelta he _).mpr hin)
  have hancestor : ∀ x, x ∈ s ↔ x ≠ hash ∧ hash ∈ pool.descendantsOf x := fun x =>
    (hancestors x).trans (hpool.ancestor_iff hin)
  have hsub : ∀ x ∈ s, x ∈ pool.mapTx := fun x hx =>
    hpool.mem_of_descendant ((hancestor x).mp hx).2
  have hrecords : m.Records _ := hpool.records.insert rfl
  obtain ⟨pool',hrun,hfinal⟩ := hrecords.update (hashOrder.nodup s) (d := (0,0,nFeeDelta))
    (fun x hx => (mem_withDelta he _).mpr (hsub x (hashOrder.mem_list.mp hx)))
    (fun x hx => by
      have hx := hashOrder.mem_list.mp hx
      have hpos := sum_share_pos (self_mem_descendantsOf (hsub x hx)) (hsub x hx)
      rw [if_neg ((hancestor x).mp hx).1]
      exact ⟨hpos.1.ne',hpos.1.trans_eq (add_zero _).symm,hpos.2.trans_eq (add_zero _).symm⟩)
  have hsame : SameTxs m pool' := foldlM_sameTxs modify_sameTxs hrun
  refine ⟨s,pool',hs,hrun,hsame,foldlM_modify_mapLinks hrun,hfinal.of_eq fun x hx => ?_⟩
  simp only [hashOrder.mem_list]
  rw [share_congr hsame]
  split_ifs with hxs hxh hxh
  · exact absurd hxh ((hancestor x).mp hxs).1
  · rw [hpool.share_withDelta he,sum_share_update,if_pos ((hancestor x).mp hxs).2]
  · rw [hxh,hpool.recorded_withDelta he]
  · rw [hpool.share_withDelta he,sum_share_update,
      if_neg (fun hd => hxs ((hancestor x).mpr ⟨hxh,hd⟩)),add_zero]

end

/-- A change of the fee of an entry reaches the record of every ancestor. -/
theorem Tallied.prioritiseTransaction (hash : Uint256) (nFeeDelta : ℤ) :
    ∃ pool', pool.prioritiseTransaction hash nFeeDelta = .ok pool' ∧ pool'.Tallied ∧
      pool'.lookup = pool.lookup := by
  unfold CTxMemPool.prioritiseTransaction
  by_cases hin : hash ∈ pool.mapTx
  · obtain ⟨e,he⟩ := Finmap.mem_iff.mp hin
    obtain ⟨s,pool',hs,hrun,hsame,hlinks,hrecords⟩ := hpool.prioritise_ancestors he nFeeDelta
    have hlookup := hsame.lookup.trans (withDelta_lookup he _)
    refine ⟨pool',?_,hpool.of_maps hlookup hlinks hsame.mapNextTx hsame.totalTxSize
      (fun {x a} ha => ?_) hrecords,hlookup⟩
    · rw [if_pos hin]
      exact bind_ok.mpr ⟨_,bind_ok.mpr ⟨e,entry_ok.mpr he,rfl⟩,bind_ok.mpr ⟨s,hs,hrun⟩⟩
    · rw [hsame.contents] at ha
      rw [hsame.mapDeltas]
      exact hpool.deltas_withDelta _ ha
  · rw [if_neg hin]
    refine ⟨_,rfl,hpool.of_maps rfl rfl rfl rfl (fun {x a} ha => ?_) hpool.records,rfl⟩
    have hx : x ≠ hash := fun hx => hin (hx ▸ mem_iff_contents.mpr (Option.isSome_of_eq_some ha))
    rw [Finmap.lookup_insert_of_ne _ hx]
    exact hpool.deltas ha

theorem Tallied.clearPrioritisation {hash : Uint256} (hout : hash ∉ pool.mapTx) :
    (pool.clearPrioritisation hash).Tallied := by
  refine hpool.of_maps rfl rfl rfl rfl (fun {x e} he => ?_) hpool.records
  have hx : x ≠ hash := fun hx => hout (hx ▸ mem_iff_contents.mpr (Option.isSome_of_eq_some he))
  rw [CTxMemPool.clearPrioritisation,Finmap.lookup_erase_ne hx]
  exact hpool.deltas he

variable {policy : MempoolPolicy}

theorem Tallied.trimLoop (htrims : policy.Trims) (fuel : ℕ) : ∃ pool', trimLoop
    policy.dynamicMemoryUsage policy.lowest policy.maxmempool fuel pool = .ok pool' ∧
      pool'.Tallied := by
  induction fuel generalizing pool with
  | zero => exact ⟨pool,rfl,hpool⟩
  | succ fuel ih =>
    unfold CTxMemPool.trimLoop
    split_ifs with hover
    · have hsome : ∃ x, x ∈ pool.mapTx := by
        by_contra hnone
        exact absurd (htrims.empty pool (not_exists.mp hnone)) (not_le.mpr hover)
      obtain ⟨it,hit,hlowest⟩ := htrims.lowest pool hsome
      rw [hlowest]
      obtain ⟨stage,hstage,hmem⟩ := hpool.calculateDescendants_spec hit
        (show (∅ : Finset Uint256) ⊆ _ from Finset.empty_subset _) (by simp)
      have hsub : {it} ⊆ pool.mapTx.keys := Finset.singleton_subset_iff.mpr (Finmap.mem_keys.mpr hit)
      obtain ⟨m,hm,htallied⟩ := hpool.removeDescendants hsub (by simpa using hmem)
      obtain ⟨pool',hrun,h⟩ := ih htallied
      exact ⟨pool',bind_ok.mpr ⟨stage,hstage,bind_ok.mpr ⟨m,hm,hrun⟩⟩,h⟩
    · exact ⟨pool,rfl,hpool⟩

theorem Tallied.limitMempoolSize (htrims : policy.Trims) (time : ℤ) :
    ∃ pool', limitMempoolSize policy time pool = .ok pool' ∧ pool'.Tallied ∧
      ∀ {x tx}, pool'.lookup x = some tx → pool.lookup x = some tx := by
  obtain ⟨m,hm,htallied⟩ := hpool.expire (time - policy.mempoolexpiry)
  obtain ⟨pool',hrun,h⟩ := htallied.trimLoop htrims (m.mapTx.keys.card + 1)
  have hlimit : Sidechain.limitMempoolSize policy time pool = .ok pool' := bind_ok.mpr ⟨m,hm,hrun⟩
  exact ⟨pool',hlimit,h,(limitMempoolSize_shrinks hlimit).lookup⟩

variable {tx : CTransaction}

/-- What has to be so for a new transaction: it spends nothing of itself, and nothing in the pool
spends from it. -/
structure Loose (pool : CTxMemPool) (tx : CTransaction) : Prop where
  acyclic : ∀ txin ∈ tx.vin, txin.prevout.hash ≠ tx.getHash
  childless : ∀ h tx', pool.lookup h = some tx' → ∀ txin ∈ tx'.vin,
    txin.prevout.hash ≠ tx.getHash

omit hpool in
theorem Consistent.mem_allConflicting (hpool : pool.Consistent) {c : Candidate}
    (hc : CandidateChecked policy pool tx c) {x : Uint256} :
    x ∈ c.allConflicting ↔ pool.Replaced tx x := by
  obtain ⟨setConflicts,hconflicts,-,hreplace⟩ := hc.conflicts
  by_cases hsome : ∃ h, pool.Conflicts tx h
  · exact (checkReplacement_rules hpool hconflicts hsome hreplace).mem_iff x
  · have hempty : setConflicts = ∅ := Finset.eq_empty_of_forall_notMem fun h hh =>
      hsome ⟨h,(hconflicts h).mp hh⟩
    rw [checkReplacement,if_pos hempty] at hreplace
    rw [← Except.ok.inj hreplace]
    exact iff_of_false (Finset.notMem_empty x) fun hx => hsome (hx.imp fun _ hh => hh.1)

omit hpool in
theorem Consistent.findAncestors_ok (hpool : pool.Consistent) {setConflicts s : Finset Uint256}
    (h : findAncestors policy pool tx setConflicts = .ok s) : s = pool.ancestorsOf tx ∧
      (pool.ancestorsOf tx = ∅ ∨
        pool.WithinLimits tx policy.limits pool.recordedCount pool.recordedSize) := by
  obtain ⟨answer,hanswer,h⟩ := bind_ok.mp h
  obtain ⟨_,herror,h⟩ := bind_ok.mp h
  obtain ⟨_,_,h⟩ := bind_ok.mp h
  cases h
  rw [require_dos_ok] at herror
  obtain ⟨answer',hanswer',hset,hiff⟩ :=
    hpool.searchMemPoolAncestorsBy_spec hashOrder hashOrder tx policy.limits
  rw [searchMemPoolAncestorsBy_hashOrder,hanswer] at hanswer'
  cases hanswer'
  exact ⟨hset herror,hiff.mp herror⟩

/-- A candidate fits when what it replaces is gone, and its ancestors are still those that were found
before. -/
theorem Tallied.removeReplaced {tip : ChainTip} {args : AcceptArgs} {c : Candidate}
    (hc : checkCandidate policy tip pool tx args = .ok (some c)) (hloose : pool.Loose tx) :
    ∃ m, pool.removeStaged c.allConflicting = .ok m ∧ m.Tallied ∧ m.Fits c.entry.tx ∧
      m.ancestorsOf c.entry.tx = pool.ancestorsOf tx := by
  have hchecked := checkCandidate_checked hpool.toConsistent hc
  obtain ⟨hvalid,hfresh⟩ := checkCandidate_entry hc
  obtain rfl := hchecked.tx_eq
  have hreplaced : ∀ x, x ∈ c.allConflicting ↔ pool.Replaced c.entry.tx x := fun _ =>
    hpool.mem_allConflicting hchecked
  have hclosed : ∀ r ∈ c.allConflicting, ∀ b, Reaches pool.childrenOf r b →
      b ∈ c.allConflicting := by
    intro r hr b hrb
    obtain ⟨h,hh,hdesc⟩ := (hreplaced r).mp hr
    exact (hreplaced b).mpr ⟨h,hh,hdesc.trans (hpool.reaches_iff.mp hrb)⟩
  have hsub : c.allConflicting ⊆ pool.mapTx.keys := by
    intro x hx
    obtain ⟨h,⟨tx',htx',_⟩,hdesc⟩ := (hreplaced x).mp hx
    exact Finmap.mem_keys.mpr
      (hpool.mem_of_reaches (mem_of_lookup htx') (hpool.reaches_iff.mpr hdesc))
  obtain ⟨m,hm,htallied⟩ := hpool.removeStaged hsub fun a _ r hr b hb _ hrb => hb (hclosed r hr b hrb)
  have hlookup : ∀ x, m.lookup x = if x ∈ c.allConflicting then none else pool.lookup x := by
    intro x
    rw [lookup_eq_contents,removeStaged_contents hm,lookup_eq_contents]
    split_ifs <;> rfl
  have hkept : ∀ {x tx'}, m.lookup x = some tx' → x ∉ c.allConflicting ∧
      pool.lookup x = some tx' := by
    intro x tx' htx'
    rw [hlookup] at htx'
    split_ifs at htx' with hx
    exact ⟨hx,htx'⟩
  have hmem := removeStaged_mem hm
  have hfits : m.Fits c.entry.tx := by
    refine ⟨fun hin => hchecked.isNew ((hmem _).mp hin).1,hvalid.nodup,fun txin htxin => ?_,
      hloose.acyclic,fun x tx' htx' => hloose.childless x tx' (hkept htx').2⟩
    by_contra hspent
    obtain ⟨ip,hip⟩ := Option.ne_none_iff_exists'.mp hspent
    obtain ⟨x,hx,txin',hn,hprev⟩ := htallied.nextTx.mp hip
    exact (hkept hx).1 ((hreplaced x).mpr ⟨x,⟨_,(hkept hx).2,txin',List.mem_of_getElem? hn,txin,htxin,
      hprev⟩,.refl⟩)
  obtain ⟨setConflicts,hconflicts,hfind,-⟩ := hchecked.conflicts
  have hapart := findAncestors_apart hpool.toConsistent hconflicts hfind
  have hancestors : m.ancestorsOf c.entry.tx = pool.ancestorsOf c.entry.tx := by
    have hedge := hpool.toConsistent.removeStaged_childrenOf hm
    ext x
    rw [htallied.mem_ancestorsOf_children,hpool.mem_ancestorsOf_children]
    constructor
    · rintro ⟨p,⟨hp,hex⟩,hreach⟩
      exact ⟨p,⟨((hmem p).mp hp).1,hex⟩,hreach.mono fun x y hy => ((hedge x y).mp hy).1⟩
    · rintro ⟨p,⟨hp,hex⟩,hreach⟩
      have hpout : p ∉ c.allConflicting := by
        obtain ⟨txin,htxin,rfl⟩ := hex
        exact fun hin => hapart txin htxin ((hreplaced _).mp hin)
      have hxout : x ∉ c.allConflicting := fun hin => hpout (hclosed x hin p hreach)
      refine ⟨p,⟨(hmem p).mpr ⟨hp,hpout⟩,hex⟩,(reaches_remove hedge hxout ?_).mpr ⟨hreach,hpout⟩⟩
      exact fun r hr b hb _ hrb => hb (hclosed r hr b hrb)
  exact ⟨m,hm,htallied,hfits,hancestors⟩

omit [Crypto] hpool in
/-- As many entries, and of such a size, as two limits allow. -/
def Within (pool : CTxMemPool) (count size : Option ℕ) (s : Finset Uint256) : Prop :=
  exceeds s.card count = false ∧ exceeds (∑ x ∈ s, (pool.entrySize x : ℤ)) size = false

/-- The entries an entry descends from, with itself. -/
noncomputable def lineOf (pool : CTxMemPool) (it : Uint256) : Finset Uint256 :=
  open Classical in pool.mapTx.keys.filter fun x => Reaches pool.childrenOf x it

/-- The ancestors of each entry and its descendants are within the limits, itself counted, unless it has
none. -/
structure WithinPackages (pool : CTxMemPool) (limits : AncestorLimits) : Prop where
  ancestors : ∀ x ∈ pool.mapTx, pool.lineOf x = {x} ∨
    pool.Within limits.limitAncestorCount limits.limitAncestorSize (pool.lineOf x)
  descendants : ∀ x ∈ pool.mapTx, pool.descendantsOf x = {x} ∨
    pool.Within limits.limitDescendantCount limits.limitDescendantSize (pool.descendantsOf x)

omit hpool

section
omit [Crypto]

open Classical in
theorem mem_lineOf {x y : Uint256} :
    y ∈ pool.lineOf x ↔ y ∈ pool.mapTx ∧ Reaches pool.childrenOf y x :=
  Finset.mem_filter.trans (and_congr_left' Finmap.mem_keys)

theorem entrySize_eq (x : Uint256) :
    pool.entrySize x = ((pool.lookup x).map CTransaction.getSerializeSize).getD 0 := by
  rw [entrySize,lookup,Option.map_map]
  rfl

theorem exceeds_of_le {n m : ℤ} {limit : Option ℕ} (h : exceeds m limit = false) (hle : n ≤ m) :
    exceeds n limit = false := by
  by_contra hn
  rw [exceeds_mono (Bool.not_eq_false _ ▸ hn) hle] at h
  cases h

theorem Within.mono {count size : Option ℕ} {s s' : Finset Uint256} (h : pool.Within count size s)
    (hsub : s' ⊆ s) (hsize : ∀ x ∈ s', pool'.entrySize x = pool.entrySize x) :
    pool'.Within count size s' := by
  refine ⟨exceeds_of_le h.1 (Int.ofNat_le.mpr (Finset.card_le_card hsub)),exceeds_of_le h.2 ?_⟩
  rw [Finset.sum_congr rfl fun x hx => congrArg _ (hsize x hx)]
  exact Finset.sum_le_sum_of_subset_of_nonneg hsub fun x _ _ => Int.natCast_nonneg _

/-- A pool with fewer entries, and with no new links between them. -/
structure Fewer (pool pool' : CTxMemPool) : Prop where
  lookup : ∀ {x tx}, pool'.lookup x = some tx → pool.lookup x = some tx
  children : ∀ x c, c ∈ pool'.childrenOf x → c ∈ pool.childrenOf x

theorem Fewer.of_mem (h : pool.Fewer pool') {x : Uint256} (hx : x ∈ pool'.mapTx) :
    x ∈ pool.mapTx ∧ pool'.entrySize x = pool.entrySize x := by
  obtain ⟨tx,htx⟩ := Option.isSome_iff_exists.mp (mem_iff_lookup.mp hx)
  exact ⟨mem_of_lookup (h.lookup htx),by rw [entrySize_eq,entrySize_eq,htx,h.lookup htx]⟩

theorem Fewer.lineOf (h : pool.Fewer pool') (x : Uint256) : pool'.lineOf x ⊆ pool.lineOf x := by
  intro y hy
  rw [mem_lineOf] at hy ⊢
  exact ⟨(h.of_mem hy.1).1,hy.2.mono h.children⟩

theorem Fewer.descendantsOf (h : pool.Fewer pool') (x : Uint256) :
    pool'.descendantsOf x ⊆ pool.descendantsOf x := by
  intro y hy
  rw [mem_descendantsOf] at hy ⊢
  exact ⟨(h.of_mem hy.1).1,hy.2.mono h.children⟩

theorem WithinPackages.mono {limits : AncestorLimits} (h : pool.WithinPackages limits)
    (hf : pool.Fewer pool') : pool'.WithinPackages limits := by
  have hsingle : ∀ {x} {s s' : Finset Uint256}, x ∈ s' → s' ⊆ s → s = {x} → s' = {x} := by
    rintro x s s' hx hsub rfl
    exact Finset.Subset.antisymm hsub (Finset.singleton_subset_iff.mpr hx)
  refine ⟨fun x hx => ?_,fun x hx => ?_⟩
  · refine (h.ancestors x (hf.of_mem hx).1).imp (hsingle (mem_lineOf.mpr ⟨hx,.refl x⟩)
      (hf.lineOf x)) fun hw => hw.mono (hf.lineOf x) fun y hy => ?_
    exact (hf.of_mem (mem_lineOf.mp hy).1).2
  · refine (h.descendants x (hf.of_mem hx).1).imp (hsingle (self_mem_descendantsOf hx)
      (hf.descendantsOf x)) fun hw => hw.mono (hf.descendantsOf x) fun y hy => ?_
    exact (hf.of_mem (mem_descendantsOf.mp hy).1).2

end

theorem Consistent.fewer (hpool : pool.Consistent) (hpool' : pool'.Consistent)
    (hlookup : ∀ {x tx}, pool'.lookup x = some tx → pool.lookup x = some tx) :
    pool.Fewer pool' := by
  refine ⟨hlookup,fun x c hc => hpool.mem_childrenOf.mpr ?_⟩
  obtain ⟨hx,tx,htx,hex⟩ := hpool'.mem_childrenOf.mp hc
  obtain ⟨tx',htx'⟩ := Option.isSome_iff_exists.mp (mem_iff_lookup.mp hx)
  exact ⟨mem_of_lookup (hlookup htx'),tx,hlookup htx,hex⟩

theorem WithinPackages.addUnchecked {e : CTxMemPoolEntry} {s : Finset Uint256}
    {limits : AncestorLimits} (h : pool.WithinPackages limits) (hpool : pool.Consistent)
    (hfits : pool.Fits e.tx) (hdelta : e.feeDelta = 0)
    (hrun : pool.addUnchecked e.tx.getHash e s = .ok pool')
    (hlimits : pool.ancestorsOf e.tx = ∅ ∨ pool.WithinLimits e.tx limits
      (fun x => (pool.descendantsOf x).card) pool.descendantsSize) :
    pool'.WithinPackages limits := by
  have hmem := addUnchecked_mem hfits hdelta hrun
  have hsink := hpool.addUnchecked_sink hfits hrun
  have hsize : ∀ x ∈ pool.mapTx, pool'.entrySize x = pool.entrySize x := fun x hx => by
    rw [entrySize_eq,entrySize_eq,addUnchecked_lookup hfits.isNew hdelta hrun,
      if_neg fun (hxe : x = e.tx.getHash) => hfits.isNew (hxe ▸ hx)]
  have hnewsize : pool'.entrySize e.tx.getHash = e.tx.getSerializeSize := by
    rw [entrySize_eq,addUnchecked_lookup hfits.isNew hdelta hrun,if_pos rfl]
    rfl
  -- one more, whose size is known, in a set of entries that were there
  have hinsert : ∀ {t : Finset Uint256} {count size : Option ℕ}, (∀ x ∈ t, x ∈ pool.mapTx) →
      exceeds (t.card + 1) count = false →
      exceeds (e.tx.getSerializeSize + ∑ x ∈ t, (pool.entrySize x : ℤ)) size = false →
        pool'.Within count size (insert e.tx.getHash t) := by
    intro t count size ht hcount htotal
    have hnot : e.tx.getHash ∉ t := fun hin => hfits.isNew (ht _ hin)
    refine ⟨by rwa [Finset.card_insert_of_notMem hnot,Nat.cast_add_one],?_⟩
    rwa [Finset.sum_insert hnot,hnewsize,
      Finset.sum_congr rfl fun x hx => congrArg Nat.cast (hsize x (ht x hx))]
  have hanc : ∀ x ∈ pool.ancestorsOf e.tx, x ∈ pool.mapTx := fun x hx =>
    Finmap.mem_keys.mp (mem_ancestorsOf_iff.mp hx).1
  have hdesc : ∀ x, ∀ d ∈ pool.descendantsOf x, d ∈ pool.mapTx := fun x d hd =>
    (mem_descendantsOf.mp hd).1
  have hkeep : ∀ {x} {t t' : Finset Uint256} {count size : Option ℕ},
      (∀ y ∈ t, y ∈ pool.mapTx) → t' = t → t = {x} ∨ pool.Within count size t →
        t' = {x} ∨ pool'.Within count size t' := by
    rintro x t t' count size ht rfl hw
    exact hw.imp_right fun hw => hw.mono subset_rfl fun y hy => hsize y (ht y hy)
  refine ⟨fun x hx => ?_,fun x hx => ?_⟩
  · rcases (hmem x).mp hx with rfl | hx
    · have hline : pool'.lineOf e.tx.getHash =
          insert e.tx.getHash (pool.ancestorsOf e.tx) := by
        ext y
        rw [mem_lineOf,hmem,hpool.addUnchecked_reaches hfits hrun,Finset.mem_insert]
        constructor
        · rintro ⟨hy,hreach | hy'⟩
          · rcases Relation.ReflTransGen.cases_tail hreach with heq | ⟨p,_,hp⟩
            · exact .inl heq.symm
            · exact absurd (mem_of_lookup (hpool.mem_childrenOf.mp hp).2.choose_spec.1) hfits.isNew
          · exact .inr hy'.2
        · rintro (rfl | hy)
          · exact ⟨.inl rfl,.inl (.refl _)⟩
          · exact ⟨.inr (hanc y hy),.inr ⟨rfl,hy⟩⟩
      rw [hline]
      rcases hlimits with hempty | hw
      · rw [hempty]
        exact .inl rfl
      · exact .inr (hinsert hanc hw.ancestorCount hw.ancestorSize)
    · refine hkeep (fun y hy => (mem_lineOf.mp hy).1) ?_ (h.ancestors x hx)
      ext y
      rw [mem_lineOf,mem_lineOf]
      constructor
      · rintro ⟨hy,hreach⟩
        have hyn : y ≠ e.tx.getHash := by
          rintro rfl
          exact hfits.isNew (hreach.eq_of_sink hsink ▸ hx)
        refine ⟨((hmem y).mp hy).resolve_left hyn,?_⟩
        refine ((hpool.addUnchecked_reaches hfits hrun).mp hreach).resolve_right fun hand => ?_
        exact hfits.isNew (hand.1 ▸ hx)
      · rintro ⟨hy,hreach⟩
        exact ⟨(hmem y).mpr (.inr hy),(hpool.addUnchecked_reaches hfits hrun).mpr (.inl hreach)⟩
  · rcases (hmem x).mp hx with rfl | hx
    · exact .inl (hpool.addUnchecked_descendantsOf_self hfits hdelta hrun)
    · have hset := hpool.addUnchecked_descendantsOf hfits hdelta hrun hx
      split_ifs at hset with hxa
      · have hfit := (hlimits.resolve_left (Finset.ne_empty_of_mem hxa)).descendants x hxa
        rw [hset]
        refine .inr (hinsert (hdesc x) hfit.2 ?_)
        rw [add_comm]
        exact hfit.1
      · exact hkeep (hdesc x) hset (h.descendants x hx)

include hpool

theorem Tallied.countsDescendants : pool.CountsDescendants := by
  intro x hx
  obtain ⟨e,he⟩ := Finmap.mem_iff.mp hx
  have hrecord : e.recorded = ∑ d ∈ pool.descendantsOf x, pool.share d := hpool.records x e he
  have hmem : ∀ d ∈ pool.descendantsOf x, d ∈ pool.mapTx := fun d hd => (mem_descendantsOf.mp hd).1
  constructor
  · rw [recordedCount,he]
    change e.recorded.1 = _
    rw [hrecord,Prod.fst_sum,Finset.sum_congr rfl fun d hd => (share_pos (hmem d hd)).1]
    simp
  · rw [recordedSize,he]
    change e.recorded.2.1 = _
    rw [hrecord,Prod.snd_sum,Prod.fst_sum]
    exact Finset.sum_congr rfl fun d _ => by rw [share_size,entrySize_eq]

/-- What a candidate is stored with keeps to the limits, since its ancestors did before. -/
theorem Tallied.storeCandidate {tip : ChainTip} {args : AcceptArgs} {c : Candidate}
    (hpackages : pool.WithinPackages policy.limits)
    (hc : checkCandidate policy tip pool tx args = .ok (some c)) (hloose : pool.Loose tx) :
    ∃ stored, storeCandidate pool c = .ok stored ∧ stored.Tallied ∧
      stored.WithinPackages policy.limits ∧ tx.getHash ∈ stored.mapTx := by
  obtain ⟨m,hm,htallied,hfits,hancestors⟩ := hpool.removeReplaced hc hloose
  obtain ⟨_,hfresh⟩ := checkCandidate_entry hc
  have hchecked := checkCandidate_checked hpool.toConsistent hc
  obtain rfl := hchecked.tx_eq
  obtain ⟨setConflicts,-,hfind,-⟩ := hchecked.conflicts
  obtain ⟨hfound,hlimits⟩ := hpool.findAncestors_ok hfind
  obtain ⟨stored,hstored,h⟩ := htallied.addUnchecked hfits hfresh
  have hfewer := hpool.toConsistent.fewer htallied.toConsistent (removeStaged_shrinks hm).lookup
  -- fewer entries than when the limits were checked
  have hwithin : m.ancestorsOf c.entry.tx = ∅ ∨ m.WithinLimits c.entry.tx policy.limits
      (fun x => (m.descendantsOf x).card) m.descendantsSize := by
    rw [← hancestors] at hlimits
    refine hlimits.imp_right fun hw => ?_
    have hmem : ∀ x ∈ m.ancestorsOf c.entry.tx, x ∈ m.mapTx := fun x hx =>
      Finmap.mem_keys.mp (mem_ancestorsOf_iff.mp hx).1
    refine ⟨hancestors ▸ hw.ancestorCount,?_,fun a ha => ?_⟩
    · rw [Finset.sum_congr rfl fun x hx => congrArg Nat.cast (hfewer.of_mem (hmem x hx)).2,
        hancestors]
      exact hw.ancestorSize
    · have hfit := hw.descendants a (hancestors ▸ ha)
      obtain ⟨hcount,hsize⟩ := hpool.countsDescendants a (hfewer.of_mem (hmem a ha)).1
      rw [hcount,hsize] at hfit
      have hsub := hfewer.descendantsOf a
      refine ⟨exceeds_of_le hfit.1 (Int.add_le_add_right ?_ _),exceeds_of_le hfit.2
        (Int.add_le_add_right (Int.ofNat_le.mpr (Finset.card_le_card hsub)) _)⟩
      rw [descendantsSize,Finset.sum_congr rfl fun x hx =>
        congrArg Nat.cast (hfewer.of_mem (mem_descendantsOf.mp hx).1).2]
      exact Finset.sum_le_sum_of_subset_of_nonneg hsub fun x _ _ => Int.natCast_nonneg _
  refine ⟨stored,?_,h,?_,(addUnchecked_mem hfits hfresh.feeDelta hstored _).mpr (.inl rfl)⟩
  · rw [hancestors,← hfound] at hstored
    exact bind_ok.mpr ⟨m,hm,hstored⟩
  · exact (hpackages.mono hfewer).addUnchecked htallied.toConsistent hfits hfresh.feeDelta hstored
      hwithin

theorem Tallied.acceptToMemoryPool (htrims : policy.Trims)
    (hpackages : pool.WithinPackages policy.limits) (tip : ChainTip) (args : AcceptArgs)
    (hloose : pool.Loose tx) :
    let answer := acceptToMemoryPoolWorker policy tip pool tx args
    answer.pool.Tallied ∧ answer.pool.WithinPackages policy.limits ∧
      (answer.verdict = .ok true ↔ tx.getHash ∉ pool.mapTx ∧ tx.getHash ∈ answer.pool.mapTx) ∧
      ∀ c, checkCandidate policy tip pool tx args = .ok (some c) → answer.verdict = .ok true ∨
        answer.verdict = dos 0 REJECT_INSUFFICIENTFEE "mempool full" := by
  intro answer
  have hanswer : answer = acceptToMemoryPoolWorker policy tip pool tx args := rfl
  unfold acceptToMemoryPoolWorker at hanswer
  cases hc : checkCandidate policy tip pool tx args with
  | error error =>
    rw [hc] at hanswer
    rw [hanswer]
    exact ⟨hpool,hpackages,iff_of_false (fun h => by cases h) fun h => h.1 h.2,fun c h => by cases h⟩
  | ok candidate =>
    rw [hc] at hanswer
    cases candidate with
    | none =>
      rw [hanswer]
      exact ⟨hpool,hpackages,iff_of_false (fun h => by cases h) fun h => h.1 h.2,fun c h => by cases h⟩
    | some c =>
      obtain ⟨stored,hstored,htallied,hwithin,hin⟩ := hpool.storeCandidate hpackages hc hloose
      have hnew := (checkCandidate_checked hpool.toConsistent hc).isNew
      obtain ⟨limited,hlimited,htallied',hlookup⟩ := htallied.limitMempoolSize htrims tip.time
      have hwithin' := hwithin.mono (htallied.toConsistent.fewer htallied'.toConsistent hlookup)
      simp only [hstored,hlimited] at hanswer
      rw [hanswer]
      split_ifs with hover hkept
      · exact ⟨htallied,hwithin,iff_of_true rfl ⟨hnew,hin⟩,fun _ _ => .inl rfl⟩
      · exact ⟨htallied',hwithin',iff_of_true rfl ⟨hnew,hkept⟩,fun _ _ => .inl rfl⟩
      · exact ⟨htallied',hwithin',iff_of_false (fun h => by cases h) fun h => hkept h.2,
          fun _ _ => .inr rfl⟩

omit [Crypto] hpool in
theorem exists_conflictingFees {s : Finset Uint256} (hs : s ⊆ pool.mapTx.keys) :
    ∃ n, conflictingFees pool s = .ok n := by
  have hloop : ∀ (l : List Uint256) (n : ℤ), (∀ it ∈ l, it ∈ pool.mapTx) →
      ∃ n', l.foldlM (fun nConflictingFees it => do
        let e ← pool.entry it
        pure (nConflictingFees + e.getModifiedFee)) n = .ok n' := by
    intro l
    induction l with
    | nil => exact fun n _ => ⟨n,rfl⟩
    | cons it l ih =>
      intro n hl
      obtain ⟨e,he⟩ := Finmap.mem_iff.mp (hl it List.mem_cons_self)
      obtain ⟨n',hn'⟩ := ih (n + e.getModifiedFee) fun x hx => hl x (List.mem_cons_of_mem _ hx)
      exact ⟨n',foldlM_cons_ok.mpr ⟨_,bind_ok.mpr ⟨e,entry_ok.mpr he,rfl⟩,hn'⟩⟩
  exact hloop _ 0 fun it hit => Finmap.mem_keys.mp (hs (hashOrder.mem_list.mp hit))

theorem Tallied.checkReplacement_answers (nModifiedFees : ℤ) (nSize : ℕ)
    (setConflicts : Finset Uint256) :
    Answers (checkReplacement policy pool tx nModifiedFees nSize setConflicts) := by
  unfold checkReplacement
  split_ifs
  · exact .ok ∅
  refine FailsWith.bind_of (.foldlM (fun s hash => ?_) _ _) fun s hs => ?_
  · unfold checkConflict
    split
    · exact .ok s
    · exact Answers.require.bind fun _ => Answers.require.bind fun _ => .ok _
  have hsub : s.setIterConflicting ⊆ pool.mapTx.keys := fun x hx => Finmap.mem_keys.mpr
    (((checkConflict_foldlM hs x).1.mp hx).resolve_left (Finset.notMem_empty x)).2
  obtain ⟨all,hall,hmem⟩ := hpool.allDescendants_spec hsub
  have hkeys : all ⊆ pool.mapTx.keys := by
    intro x hx
    obtain ⟨it,hit,hreach⟩ := (hmem x).mp hx
    exact Finmap.mem_keys.mpr (hpool.mem_of_reaches (Finmap.mem_keys.mp (hsub hit)) hreach)
  obtain ⟨n,hn⟩ := exists_conflictingFees hkeys
  rw [hall]
  refine Answers.require.bind fun _ => ?_
  change Answers (conflictingFees pool all >>= _)
  rw [hn]
  exact Answers.require.bind fun _ => Answers.require.bind fun _ => Answers.require.bind fun _ => .ok _

/-- The checks that look at the records and links of the pool fail no assertion. -/
theorem Tallied.checkCandidate_answers {tip : ChainTip} {args : AcceptArgs}
    (h : ChecksAnswer policy tip pool tx args) : Answers (checkCandidate policy tip pool tx args) := by
  refine h.loose.bind fun _ => FailsWith.bind (.foldlM (fun s txin => ?_) _ _) fun setConflicts =>
    h.inputs.bind_of fun inputs hinputs => ?_
  · unfold collectConflict
    split
    · exact .ok s
    · split_ifs
      · exact .ok s
      · exact Answers.require.bind fun _ => .ok _
  cases inputs with
  | none => exact .ok none
  | some inputs =>
    refine (h.entry _ _ hinputs).bind fun entry => FailsWith.bind ?_ fun ancestors =>
      (hpool.checkReplacement_answers _ _ setConflicts).bind fun all => h.scripts.bind fun _ => .ok _
    obtain ⟨answer,hanswer,-⟩ :=
      hpool.searchMemPoolAncestorsBy_spec hashOrder hashOrder tx policy.limits
    rw [searchMemPoolAncestorsBy_hashOrder] at hanswer
    unfold findAncestors
    rw [hanswer]
    exact Answers.require.bind fun _ => Answers.require.bind fun _ => .ok _

theorem Tallied.acceptToMemoryPool_answers (htrims : policy.Trims)
    (hpackages : pool.WithinPackages policy.limits) {tip : ChainTip} {args : AcceptArgs}
    (hloose : pool.Loose tx) (h : ChecksAnswer policy tip pool tx args) :
    Answers (acceptToMemoryPoolWorker policy tip pool tx args).verdict := by
  obtain ⟨-,-,-,hcandidate⟩ := hpool.acceptToMemoryPool htrims hpackages tip args hloose
  cases hc : checkCandidate policy tip pool tx args with
  | error e =>
    unfold acceptToMemoryPoolWorker
    rw [hc]
    exact .error (hpool.checkCandidate_answers h e hc)
  | ok candidate =>
    cases candidate with
    | none =>
      unfold acceptToMemoryPoolWorker
      rw [hc]
      exact .ok false
    | some c =>
      rcases hcandidate c hc with hok | hfull
      · rw [hok]
        exact .ok true
      · rw [hfull]
        exact .error trivial

end

end CTxMemPool

/-- What a node does with its pool while no block is disconnected. -/
inductive PoolCall where
  | acceptToMemoryPool (tip : ChainTip) (tx : CTransaction) (args : AcceptArgs)
  | remove (tx : CTransaction) (fRecursive : Bool)
  | limitMempoolSize (time : ℤ)
  | prioritiseTransaction (hash : Uint256) (nFeeDelta : ℤ)
  | clearPrioritisation (hash : Uint256)

namespace PoolCall
variable [Crypto] (policy : MempoolPolicy) (pool : CTxMemPool)

def run : PoolCall → Outcome CTxMemPool
  | acceptToMemoryPool tip tx args => (acceptToMemoryPoolWorker policy tip pool tx args).left
  | remove tx fRecursive => Prod.fst <$> pool.remove tx fRecursive
  | limitMempoolSize time => Sidechain.limitMempoolSize policy time pool
  | prioritiseTransaction hash nFeeDelta => pool.prioritiseTransaction hash nFeeDelta
  | clearPrioritisation hash => .ok (pool.clearPrioritisation hash)

/-- A transaction of a block is removed by itself when its parents are gone; the delta of a removed
transaction is cleared. -/
def Allowed : PoolCall → Prop
  | acceptToMemoryPool _ tx _ => pool.Loose tx
  | remove tx fRecursive => fRecursive = false → ∀ p, ¬ pool.Spends tx.getHash p
  | clearPrioritisation hash => hash ∉ pool.mapTx
  | _ => True

/-- Where a transaction is offered, nothing fails outside of the pool. -/
def ChecksAnswer : PoolCall → Prop
  | acceptToMemoryPool tip tx args => Sidechain.ChecksAnswer policy tip pool tx args
  | _ => True

end PoolCall

namespace CTxMemPool

section
variable [Crypto] {policy : MempoolPolicy} {pool : CTxMemPool}

inductive Reachable (policy : MempoolPolicy) : CTxMemPool → Prop
  | empty : Reachable policy {}
  | call {pool pool' : CTxMemPool} (h : Reachable policy pool) (c : PoolCall) (hc : c.Allowed pool)
    (hrun : c.run policy pool = .ok pool') : Reachable policy pool'

theorem Tallied.empty : ({} : CTxMemPool).Tallied := by
  have hnone : ∀ x, x ∉ ({} : CTxMemPool).mapTx := fun _ => Finmap.notMem_empty
  refine ⟨Consistent.empty,fun x y hy => ?_,fun x e he => ?_,fun {x e} he => ?_,rfl⟩
  · exact absurd (Consistent.empty.mem_childrenOf.mp hy).1 (hnone x)
  · exact absurd (Finmap.mem_of_lookup_eq_some he) (hnone x)
  · exact absurd (mem_iff_contents.mpr (Option.isSome_of_eq_some he)) (hnone x)

theorem Tallied.run (htrims : policy.Trims) (hpool : pool.Tallied)
    (hpackages : pool.WithinPackages policy.limits) {c : PoolCall} (hc : c.Allowed pool) :
    (c.ChecksAnswer policy pool → ∃ pool', c.run policy pool = .ok pool') ∧
    ∀ pool', c.run policy pool = .ok pool' →
      pool'.Tallied ∧ pool'.WithinPackages policy.limits := by
  have hkeep : ∀ {pool' : CTxMemPool}, pool'.Tallied →
      (∀ {x tx}, pool'.lookup x = some tx → pool.lookup x = some tx) →
      pool'.WithinPackages policy.limits := fun h hlookup =>
    hpackages.mono (hpool.toConsistent.fewer h.toConsistent hlookup)
  have hreturns : ∀ {x : Outcome CTxMemPool} {pool' : CTxMemPool}, x = .ok pool' → pool'.Tallied →
      (∀ {y tx}, pool'.lookup y = some tx → pool.lookup y = some tx) →
      (∃ left, x = .ok left) ∧ ∀ left, x = .ok left →
        left.Tallied ∧ left.WithinPackages policy.limits := by
    rintro x pool' rfl h hlookup
    refine ⟨⟨pool',rfl⟩,fun left hleft => ?_⟩
    cases hleft
    exact ⟨h,hkeep h hlookup⟩
  cases c with
  | acceptToMemoryPool tip tx args =>
    obtain ⟨h,hwithin,-⟩ := hpool.acceptToMemoryPool htrims hpackages tip args hc
    refine ⟨fun hchecks => ⟨_,AcceptAnswer.left_eq ?_⟩,fun pool' hrun => ?_⟩
    · exact hpool.acceptToMemoryPool_answers htrims hpackages hc hchecks
    · rw [AcceptAnswer.left_ok hrun]
      exact ⟨h,hwithin⟩
  | remove tx fRecursive =>
    obtain ⟨pool',removed,hrun,h,hlookup,-⟩ := hpool.remove tx fRecursive hc
    exact (hreturns (map_ok.mpr ⟨_,hrun,rfl⟩) h hlookup).imp_left fun hx _ => hx
  | limitMempoolSize time =>
    obtain ⟨pool',hrun,h,hlookup⟩ := hpool.limitMempoolSize htrims time
    exact (hreturns hrun h hlookup).imp_left fun hx _ => hx
  | prioritiseTransaction hash nFeeDelta =>
    obtain ⟨pool',hrun,h,hlookup⟩ := hpool.prioritiseTransaction hash nFeeDelta
    exact (hreturns hrun h fun htx => hlookup ▸ htx).imp_left fun hx _ => hx
  | clearPrioritisation hash =>
    exact (hreturns rfl (hpool.clearPrioritisation hc) fun htx => htx).imp_left fun hx _ => hx

end

local instance runCrypto : Crypto := digitCrypto

/-- Entries are trimmed in the order of their hashes. -/
def leastPolicy : MempoolPolicy :=
  { lowest := fun pool => (hashOrder.list pool.mapTx.keys).head?
    dynamicMemoryUsage := fun pool => 1000 * pool.mapTx.keys.card }

/-- A transaction comes in, then one that spends from it, and the fee of the second is raised. -/
@[irreducible] def acceptedPool : CTxMemPool :=
  (acceptToMemoryPoolWorker leastPolicy openTip {} twoOutputTx {}).pool

@[irreducible] def familyPool : CTxMemPool :=
  (acceptToMemoryPoolWorker leastPolicy openTip acceptedPool replaceableTx {}).pool

theorem Reachable.accept {policy : MempoolPolicy} {tip : ChainTip} {pool : CTxMemPool}
    {tx : CTransaction} {args : AcceptArgs} (h : Reachable policy pool) (hloose : pool.Loose tx)
    (hverdict : (acceptToMemoryPoolWorker policy tip pool tx args).verdict = .ok true) :
    Reachable policy (acceptToMemoryPoolWorker policy tip pool tx args).pool :=
  h.call (.acceptToMemoryPool tip tx args) hloose (AcceptAnswer.left_eq (hverdict ▸ .ok true))

end CTxMemPool
end Sidechain
