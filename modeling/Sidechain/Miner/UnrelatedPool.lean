import Sidechain.Miner.CreateNewBlock
import Sidechain.Miner.SelectionOrder

/-! A pool of transactions that have nothing to do with each other. A miner that asks for no fee takes
all of them, as far as the block has room. -/
namespace Sidechain
open Run Scheduling

/-- No two transactions have the same hash or spend the same output, and none spends from another. -/
structure Unrelated [Crypto] (txs : List CTransaction) : Prop where
  hashes : (txs.map CTransaction.getHash).Nodup
  prevouts : (txs.flatMap fun tx => tx.vin.map CTxIn.prevout).Nodup
  apart : ∀ tx ∈ txs, ∀ txin ∈ tx.vin, txin.prevout.hash ∉ txs.map CTransaction.getHash

/-- An entry that pays no fee. -/
def freeEntry (tx : CTransaction) : CTxMemPoolEntry :=
  CTxMemPoolEntry.create tx 0 0 false (getLegacySigOpCount tx) {}

/-- The inputs of transactions, each with its transaction and position. -/
def inputsOf (txs : List CTransaction) : List (CTransaction × CTxIn × ℕ) :=
  txs.flatMap fun tx => tx.vin.zipIdx.map fun input => (tx,input)

theorem lookup_keyed {α β ι : Type} [DecidableEq α] {l : List ι} {key : ι → α} {val : ι → β}
    (hkeys : (l.map key).Nodup) {a : α} {b : β} :
    Finmap.lookup a (List.toFinmap (l.map fun i => (⟨key i,val i⟩ : Sigma fun _ : α => β))) =
      some b ↔ ∃ i ∈ l, key i = a ∧ val i = b := by
  have hnodup : (l.map fun i => (⟨key i,val i⟩ : Sigma fun _ : α => β)).NodupKeys := by
    rw [List.NodupKeys,List.keys,List.map_map]
    exact hkeys
  rw [Finmap.dlookup_list_toFinmap]
  refine (List.mem_dlookup_iff hnodup).trans ?_
  rw [List.mem_map]
  simp

section
variable [Crypto]

def CTxMemPool.ofTxs (txs : List CTransaction) : CTxMemPool where
  mapTx := List.toFinmap (txs.map fun tx => ⟨tx.getHash,freeEntry tx⟩)
  mapLinks := List.toFinmap (txs.map fun tx => ⟨tx.getHash,{}⟩)
  mapNextTx := List.toFinmap ((inputsOf txs).map fun i => ⟨i.2.1.prevout,⟨i.1,i.2.2⟩⟩)
  totalTxSize := (txs.map fun tx => (tx.getSerializeSize : ℤ)).sum

variable {txs : List CTransaction} (htxs : Unrelated txs)
include htxs

namespace Unrelated

theorem lookup_mapTx {h : Uint256} {e : CTxMemPoolEntry} :
    (CTxMemPool.ofTxs txs).mapTx.lookup h = some e ↔ ∃ tx ∈ txs, tx.getHash = h ∧ freeEntry tx = e :=
  lookup_keyed htxs.hashes

theorem lookup_eq {h : Uint256} {tx : CTransaction} :
    (CTxMemPool.ofTxs txs).lookup h = some tx ↔ tx ∈ txs ∧ tx.getHash = h := by
  rw [CTxMemPool.lookup,Option.map_eq_some_iff]
  constructor
  · rintro ⟨e,he,rfl⟩
    obtain ⟨tx,htx,rfl,rfl⟩ := htxs.lookup_mapTx.mp he
    exact ⟨htx,rfl⟩
  · rintro ⟨htx,rfl⟩
    exact ⟨freeEntry tx,htxs.lookup_mapTx.mpr ⟨tx,htx,rfl,rfl⟩,rfl⟩

@[simp] theorem mem_mapTx {h : Uint256} :
    h ∈ (CTxMemPool.ofTxs txs).mapTx ↔ h ∈ txs.map CTransaction.getHash := by
  rw [Finmap.mem_iff,List.mem_map]
  constructor
  · rintro ⟨e,he⟩
    obtain ⟨tx,htx,hh,_⟩ := htxs.lookup_mapTx.mp he
    exact ⟨tx,htx,hh⟩
  · rintro ⟨tx,htx,hh⟩
    exact ⟨freeEntry tx,htxs.lookup_mapTx.mpr ⟨tx,htx,hh,rfl⟩⟩

theorem lookup_mapLinks {h : Uint256} {l : TxLinks} :
    (CTxMemPool.ofTxs txs).mapLinks.lookup h = some l ↔ ∃ tx ∈ txs, tx.getHash = h ∧ {} = l :=
  lookup_keyed htxs.hashes

theorem linksAt_eq (h : Uint256) : (CTxMemPool.ofTxs txs).linksAt h = {} := by
  unfold CTxMemPool.linksAt
  cases hl : (CTxMemPool.ofTxs txs).mapLinks.lookup h with
  | none => rfl
  | some l =>
    obtain ⟨_,_,_,rfl⟩ := htxs.lookup_mapLinks.mp hl
    rfl

theorem not_spends (h p : Uint256) : ¬ (CTxMemPool.ofTxs txs).Spends h p := by
  rintro ⟨hp,tx,htx,txin,htxin,rfl⟩
  exact htxs.apart tx (htxs.lookup_eq.mp htx).1 txin htxin (htxs.mem_mapTx.mp hp)

theorem lookup_mapNextTx {o : COutPoint} {ip : CInPoint} :
    (CTxMemPool.ofTxs txs).mapNextTx.lookup o = some ip ↔
      ∃ i ∈ inputsOf txs, i.2.1.prevout = o ∧ CInPoint.mk i.1 i.2.2 = ip := by
  refine lookup_keyed ?_
  have hkeys : (inputsOf txs).map (fun i => i.2.1.prevout) =
      txs.flatMap fun tx => tx.vin.map CTxIn.prevout := by
    unfold inputsOf
    rw [List.map_flatMap]
    refine List.flatMap_congr fun tx _ => ?_
    rw [List.map_map,← List.zipIdx_map_fst 0 tx.vin,List.map_map]
    simp [Function.comp_def]
  rw [hkeys]
  exact htxs.prevouts

theorem consistent : (CTxMemPool.ofTxs txs).Consistent where
  keyed htx := (htxs.lookup_eq.mp htx).2
  nextTx {o ip} := by
    rw [htxs.lookup_mapNextTx]
    constructor
    · rintro ⟨⟨tx,txin,n⟩,hi,rfl,rfl⟩
      obtain ⟨tx',htx',hmem⟩ := List.mem_flatMap.mp hi
      obtain ⟨⟨txin',n'⟩,hin,heq⟩ := List.mem_map.mp hmem
      cases heq
      exact ⟨tx.getHash,htxs.lookup_eq.mpr ⟨htx',rfl⟩,txin,
        List.mk_mem_zipIdx_iff_getElem?.mp hin,rfl⟩
    · rintro ⟨h,htx,txin,hin,rfl⟩
      refine ⟨(ip.ptx,txin,ip.n),?_,rfl,rfl⟩
      exact List.mem_flatMap.mpr ⟨ip.ptx,(htxs.lookup_eq.mp htx).1,
        List.mem_map.mpr ⟨(txin,ip.n),List.mk_mem_zipIdx_iff_getElem?.mpr hin,rfl⟩⟩
  links_mem {h} := by
    rw [htxs.mem_mapTx,Finmap.mem_iff,List.mem_map]
    constructor
    · rintro ⟨l,hl⟩
      obtain ⟨tx,htx,hh,_⟩ := htxs.lookup_mapLinks.mp hl
      exact ⟨tx,htx,hh⟩
    · rintro ⟨tx,htx,hh⟩
      exact ⟨{},htxs.lookup_mapLinks.mpr ⟨tx,htx,hh,rfl⟩⟩
  mem_parentsOf {h p} := by
    rw [CTxMemPool.parentsOf,htxs.linksAt_eq]
    exact iff_of_false (Finset.notMem_empty p) (htxs.not_spends h p)
  mem_childrenOf {h c} := by
    rw [CTxMemPool.childrenOf,htxs.linksAt_eq]
    exact iff_of_false (Finset.notMem_empty c) (htxs.not_spends c h)

end Unrelated

variable {Priority : Type} (ctx : MinerContext Priority)

/-- A round takes the next transaction, which is final and finds room. -/
theorem Unrelated.tryAdd_takes (hfee : ctx.minRelayTxFee = ⟨0⟩) {tx : CTransaction} (htx : tx ∈ txs)
    (hfinal : tx.nLockTime = 0) {s : SelectState Priority} (hphase : s.fPriorityBlock = false)
    (hsize : s.nBlockSize + tx.getSerializeSize < ctx.args.nBlockMaxSize)
    (hsigOps : s.nBlockSigOps + getLegacySigOpCount tx < MAX_BLOCK_SIGOPS) :
    ctx.tryAdd (CTxMemPool.ofTxs txs) tx.getHash (freeEntry tx) false s =
      .ok (s.add tx.getHash (freeEntry tx),true) := by
  have hkeep : s.endPriority ctx (freeEntry tx).getTxSize = s := by
    unfold SelectState.endPriority
    rw [hphase]
    rfl
  have hchildren : (CTxMemPool.ofTxs txs).getMemPoolChildren tx.getHash = .ok ∅ := by
    rw [htxs.consistent.getMemPoolChildren_eq (htxs.mem_mapTx.mpr (List.mem_map_of_mem htx)),
      CTxMemPool.childrenOf,htxs.linksAt_eq]
  have hfees : ¬ (freeEntry tx).getModifiedFee < ctx.minRelayTxFee.getFee (freeEntry tx).getTxSize := by
    have hzero : ctx.minRelayTxFee.getFee (freeEntry tx).getTxSize = 0 := by
      rw [hfee]
      simp [CFeeRate.getFee,asUInt64]
    rw [hzero]
    exact lt_irrefl 0
  have hfin : isFinalTx (freeEntry tx).tx ctx.nHeight ctx.nLockTimeCutoff = true := by
    change isFinalTx tx _ _ = true
    simp [isFinalTx,hfinal]
  have hroom : ¬ s.nBlockSize + (freeEntry tx).getTxSize ≥ ctx.args.nBlockMaxSize := not_le.mpr hsize
  have hcount : ¬ s.nBlockSigOps + (freeEntry tx).sigOpCount ≥ MAX_BLOCK_SIGOPS := not_le.mpr hsigOps
  unfold MinerContext.tryAdd
  dsimp only
  rw [hkeep,if_neg (by simp [hfees]),if_neg hroom,if_neg (by simp [hfin]),if_neg hcount,hchildren]
  rfl

theorem Unrelated.selectLoop_takes (hfee : ctx.minRelayTxFee = ⟨0⟩) {rest : List CTransaction}
    (hrest : ∀ tx ∈ rest, tx ∈ txs ∧ tx.nLockTime = 0)
    (hnodup : (rest.map CTransaction.getHash).Nodup) {fuel : ℕ} (hfuel : rest.length < fuel)
    {s : SelectState Priority} (hphase : s.fPriorityBlock = false) (hcleared : s.clearedTxs = [])
    (hmi : s.mi = rest.map CTransaction.getHash) (hnew : ∀ tx ∈ rest, tx.getHash ∉ s.inBlock)
    (hsize : s.nBlockSize + (rest.map CTransaction.getSerializeSize).sum < ctx.args.nBlockMaxSize)
    (hsigOps : s.nBlockSigOps + (rest.map getLegacySigOpCount).sum < MAX_BLOCK_SIGOPS) :
    ∃ s', ctx.selectLoop (CTxMemPool.ofTxs txs) fuel s = .ok (some s') ∧
      s'.vtx = s.vtx ++ rest ∧ s'.nFees = s.nFees := by
  induction rest generalizing fuel s with
  | nil =>
    obtain ⟨fuel,rfl⟩ := Nat.exists_eq_succ_of_ne_zero hfuel.ne_bot
    refine ⟨s,?_,(List.append_nil _).symm,rfl⟩
    rw [MinerContext.selectLoop,if_pos ⟨hmi,hcleared⟩]
  | cons tx rest ih =>
    obtain ⟨fuel,rfl⟩ := Nat.exists_eq_succ_of_ne_zero hfuel.ne_bot
    rw [List.map_cons,List.sum_cons] at hsize hsigOps
    rw [List.map_cons,List.nodup_cons] at hnodup
    obtain ⟨⟨htx,hfinal⟩,hrest⟩ := List.forall_mem_cons.mp hrest
    obtain ⟨hout,hnew⟩ := List.forall_mem_cons.mp hnew
    have hpick : ctx.pick (CTxMemPool.ofTxs txs) s =
        .ok ⟨tx.getHash,false,{ s with mi := rest.map CTransaction.getHash }⟩ := by
      unfold MinerContext.pick
      rw [hphase,hcleared,hmi]
      rfl
    have hmem := htxs.mem_mapTx.mpr (List.mem_map_of_mem htx)
    have hparents : (CTxMemPool.ofTxs txs).getMemPoolParents tx.getHash = .ok ∅ := by
      rw [htxs.consistent.getMemPoolParents_eq hmem,CTxMemPool.parentsOf,htxs.linksAt_eq]
    have hentry : (CTxMemPool.ofTxs txs).entry tx.getHash = .ok (freeEntry tx) :=
      CTxMemPool.entry_ok.mpr (htxs.lookup_mapTx.mpr ⟨tx,htx,rfl,rfl⟩)
    let t : SelectState Priority := { s with mi := rest.map CTransaction.getHash }
    have hconsider : ctx.consider (CTxMemPool.ofTxs txs) ⟨tx.getHash,false,t⟩ =
        .ok (t.add tx.getHash (freeEntry tx),true) := by
      unfold MinerContext.consider
      dsimp only
      rw [if_neg hout,hentry,hparents]
      dsimp only [bind,Except.bind]
      rw [if_pos (Finset.empty_subset _)]
      exact htxs.tryAdd_takes ctx hfee htx hfinal hphase
        (by change s.nBlockSize + _ < _; omega) (by change s.nBlockSigOps + _ < _; omega)
    obtain ⟨s',hs',hvtx,hfees⟩ := @ih hrest hnodup.2 fuel (Nat.lt_of_succ_lt_succ hfuel)
      (t.add tx.getHash (freeEntry tx)) hphase hcleared rfl
      (fun tx' htx' hin => by
        rcases Finset.mem_insert.mp hin with hsame | hin
        · exact hnodup.1 (hsame ▸ List.mem_map_of_mem htx')
        · exact hnew tx' htx' hin)
      (by
        change s.nBlockSize + tx.getSerializeSize + _ < _
        omega)
      (by
        change s.nBlockSigOps + getLegacySigOpCount tx + _ < _
        omega)
    refine ⟨s',?_,?_,?_⟩
    · rw [MinerContext.selectLoop,if_neg (by simp [hmi]),hpick]
      dsimp only [bind,Except.bind]
      rw [hconsider]
      exact hs'
    · rw [hvtx]
      exact List.append_assoc s.vtx [tx] rest
    · rw [hfees]
      exact add_zero s.nFees

theorem Unrelated.selectTxs_takes (hfee : ctx.minRelayTxFee = ⟨0⟩)
    (hpriority : ctx.args.blockprioritysize = 0) (hfinal : ∀ tx ∈ txs, tx.nLockTime = 0)
    (hsize : 1000 + (txs.map CTransaction.getSerializeSize).sum < ctx.args.nBlockMaxSize)
    (hsigOps : 100 + (txs.map getLegacySigOpCount).sum < MAX_BLOCK_SIGOPS) :
    ∃ s, ctx.selectTxs (CTxMemPool.ofTxs txs) = .ok (some s) ∧ s.vtx.Perm txs ∧ s.nFees = 0 := by
  let pool := CTxMemPool.ofTxs txs
  have hkeys : (hashOrder.list pool.mapTx.keys).Perm (txs.map CTransaction.getHash) := by
    refine (List.perm_ext_iff_of_nodup (hashOrder.nodup _) htxs.hashes).mpr fun h => ?_
    rw [hashOrder.mem_list,Finmap.mem_keys]
    exact htxs.mem_mapTx
  have hmi : (ctx.selectStart pool).mi.Perm (txs.map CTransaction.getHash) :=
    (List.perm_insertionSort _ _).trans hkeys
  obtain ⟨rest,hrest,hperm⟩ : ∃ rest : List CTransaction, (ctx.selectStart pool).mi = rest.map CTransaction.getHash ∧
      rest.Perm txs := by
    have hcomp := List.eq_map_comp_perm CTransaction.getHash
    exact (congrFun (congrFun hcomp (ctx.selectStart pool).mi) txs).mpr hmi
  have hphase : (ctx.selectStart pool).fPriorityBlock = false := by
    simp [MinerContext.selectStart,MinerArgs.nBlockPrioritySize,hpriority]
  have hrounds : rest.length < MinerContext.selectRounds pool := by
    have hcard : rest.length = pool.mapTx.keys.card := by
      rw [← hashOrder.length_list,hkeys.length_eq,List.length_map,hperm.length_eq]
    rw [hcard]
    unfold MinerContext.selectRounds
    nlinarith
  obtain ⟨s,hs,hvtx,hfees⟩ := htxs.selectLoop_takes ctx hfee
    (fun tx htx => ⟨hperm.mem_iff.mp htx,hfinal tx (hperm.mem_iff.mp htx)⟩)
    ((hperm.map _).nodup_iff.mpr htxs.hashes) hrounds hphase rfl hrest
    (fun _ _ => Finset.notMem_empty _)
    (by rwa [(hperm.map _).sum_eq]) (by rwa [(hperm.map _).sum_eq])
  refine ⟨s,hs,?_,hfees⟩
  rw [hvtx]
  exact hperm

end
end Sidechain
