import Sidechain.Miner.Selection
import Sidechain.Mempool.Replacement

/-! The selection of transactions comes to an end, and leaves a list of entries of the pool in which
every one stands behind its parents. -/
namespace Sidechain
open Run Worklist Scheduling

variable {Priority : Type} {ctx : MinerContext Priority} {pool : CTxMemPool}

/-- The queues hold entries of the pool, and the block holds entries behind their parents. -/
structure SelectState.Sound (pool : CTxMemPool) (s : SelectState Priority) : Prop where
  vecPriority : ∀ p ∈ s.vecPriority, p.2 ∈ pool.mapTx
  mi : ∀ it ∈ s.mi, it ∈ pool.mapTx
  clearedTxs : ∀ it ∈ s.clearedTxs, it ∈ pool.mapTx
  selected : ∃ its, InOrder pool.parentsOf its ∧ its.toFinset = s.inBlock ∧
    (∀ it ∈ its, it ∈ pool.mapTx) ∧ s.vtx.map some = its.map pool.lookup

/-- How many entries the three queues hold. -/
def SelectState.queued (s : SelectState Priority) : ℕ :=
  s.vecPriority.length + s.mi.length + s.clearedTxs.length

/-- An added entry makes room for all its children to be queued again. -/
def SelectState.toDo (pool : CTxMemPool) (s : SelectState Priority) : ℕ :=
  (pool.mapTx.keys.card - s.inBlock.card) * (pool.mapTx.keys.card + 1) + s.queued

namespace SelectState

/-- The same block and no new entries in the queues. -/
structure Keeps (s s' : SelectState Priority) : Prop where
  vecPriority : s'.vecPriority ⊆ s.vecPriority
  mi : s'.mi ⊆ s.mi
  clearedTxs : s'.clearedTxs ⊆ s.clearedTxs
  inBlock : s'.inBlock = s.inBlock
  vtx : s'.vtx = s.vtx
  queued : s'.queued ≤ s.queued

theorem Keeps.refl (s : SelectState Priority) : Keeps s s :=
  ⟨List.Subset.refl _,List.Subset.refl _,List.Subset.refl _,rfl,rfl,le_rfl⟩

theorem Keeps.trans {s s' s'' : SelectState Priority} (h : Keeps s s') (k : Keeps s' s'') :
    Keeps s s'' where
  vecPriority := List.Subset.trans k.vecPriority h.vecPriority
  mi := List.Subset.trans k.mi h.mi
  clearedTxs := List.Subset.trans k.clearedTxs h.clearedTxs
  inBlock := k.inBlock.trans h.inBlock
  vtx := k.vtx.trans h.vtx
  queued := k.queued.trans h.queued

theorem Sound.keeps {s s' : SelectState Priority} (h : s.Sound pool) (k : Keeps s s') :
    s'.Sound pool where
  vecPriority p hp := h.vecPriority p (k.vecPriority hp)
  mi it hit := h.mi it (k.mi hit)
  clearedTxs it hit := h.clearedTxs it (k.clearedTxs hit)
  selected := by
    rw [k.inBlock,k.vtx]
    exact h.selected

theorem Keeps.toDo_le {s s' : SelectState Priority} (k : Keeps s s') :
    s'.toDo pool ≤ s.toDo pool := by
  unfold toDo
  rw [k.inBlock]
  exact Nat.add_le_add_left k.queued _

theorem postpone_keeps (s : SelectState Priority) (iter : Uint256) (priorityTx : Bool) :
    Keeps s (s.postpone iter priorityTx) := by
  unfold postpone
  split_ifs
  · exact ⟨List.Subset.refl _,List.Subset.refl _,List.Subset.refl _,rfl,rfl,le_rfl⟩
  · exact ⟨List.Subset.refl _,List.Subset.refl _,List.Subset.refl _,rfl,rfl,le_rfl⟩

theorem endPriority_keeps (ctx : MinerContext Priority) (nTxSize : ℕ) (s : SelectState Priority) :
    Keeps s (s.endPriority ctx nTxSize) := by
  unfold endPriority
  split_ifs
  · exact ⟨List.Subset.refl _,List.Subset.refl _,List.Subset.refl _,rfl,rfl,le_rfl⟩
  · exact .refl s

theorem release_sound {s : SelectState Priority} (h : s.Sound pool) {child : Uint256}
    (hchild : child ∈ pool.mapTx) : (s.release child).Sound pool ∧
      (s.release child).inBlock = s.inBlock ∧ (s.release child).queued ≤ s.queued + 1 := by
  unfold release queued
  split_ifs
  · split
    · exact ⟨h,rfl,by omega⟩
    · refine ⟨⟨?_,h.mi,h.clearedTxs,h.selected⟩,rfl,?_⟩
      · exact List.forall_mem_cons.mpr ⟨hchild,h.vecPriority⟩
      · simp only [List.length_cons]
        omega
  · refine ⟨⟨h.vecPriority,h.mi,?_,h.selected⟩,rfl,?_⟩
    · exact List.forall_mem_cons.mpr ⟨hchild,h.clearedTxs⟩
    · simp only [List.length_cons]
      omega
  · exact ⟨h,rfl,by omega⟩

theorem foldl_release_sound {s : SelectState Priority} (h : s.Sound pool) {children : List Uint256}
    (hchildren : ∀ c ∈ children, c ∈ pool.mapTx) : (children.foldl release s).Sound pool ∧
      (children.foldl release s).inBlock = s.inBlock ∧
      (children.foldl release s).queued ≤ s.queued + children.length := by
  induction children generalizing s with
  | nil => exact ⟨h,rfl,le_rfl⟩
  | cons c children ih =>
    obtain ⟨hc,hin,hqueued⟩ := release_sound h (hchildren c (by simp))
    obtain ⟨hrest,hin',hqueued'⟩ := ih hc fun c' hc' => hchildren c' (by simp [hc'])
    refine ⟨hrest,hin'.trans hin,?_⟩
    rw [List.foldl_cons,List.length_cons]
    omega

theorem add_sound {s : SelectState Priority} (h : s.Sound pool) {iter : Uint256}
    {e : CTxMemPoolEntry} (he : pool.mapTx.lookup iter = some e) (hnew : iter ∉ s.inBlock)
    (hparents : pool.parentsOf iter ⊆ s.inBlock) : (s.add iter e).Sound pool := by
  obtain ⟨its,horder,hin,hmem,hvtx⟩ := h.selected
  refine ⟨h.vecPriority,h.mi,h.clearedTxs,its ++ [iter],horder.append ?_ ?_,?_,?_,?_⟩
  · rwa [← List.mem_toFinset,hin]
  · intro p hp
    rw [← List.mem_toFinset,hin]
    exact hparents hp
  · rw [List.toFinset_append,hin,Finset.union_comm]
    rfl
  · intro it hit
    rcases List.mem_append.mp hit with hit | hit
    · exact hmem it hit
    · rw [List.mem_singleton.mp hit]
      exact CTxMemPool.mem_of_lookup (CTxMemPool.lookup_of_entry he)
  · simp [add,hvtx,CTxMemPool.lookup_of_entry he]

end SelectState

namespace MinerContext

/-- The entry that is picked leaves its queue. -/
structure Picks (pool : CTxMemPool) (s : SelectState Priority) (p : Picked Priority) : Prop where
  mem : p.iter ∈ pool.mapTx
  sound : p.s.Sound pool
  inBlock : p.s.inBlock = s.inBlock
  queued : p.s.queued + 1 = s.queued

theorem pick_picks (ctx : MinerContext Priority) {s : SelectState Priority} (h : s.Sound pool)
    (hmore : ¬ (s.mi = [] ∧ s.clearedTxs = [])) :
    ∃ p, ctx.pick pool s = .ok p ∧ Picks pool s p := by
  unfold pick
  split
  · rename_i front ps _ hvec
    refine ⟨_,rfl,?_,⟨?_,h.mi,h.clearedTxs,h.selected⟩,rfl,?_⟩
    · exact h.vecPriority _ (hvec ▸ popTop_mem _ _ _)
    · exact fun q hq => h.vecPriority q (hvec ▸ popTop_sub _ _ _ hq)
    · simp only [SelectState.queued,hvec,popTop_length,List.length_cons]
      omega
  · split
    · rename_i hcleared hmi
      exact absurd ⟨hmi,hcleared⟩ hmore
    · rename_i iter mi hcleared hmi
      refine ⟨_,rfl,h.mi iter (by simp [hmi]),⟨h.vecPriority,?_,h.clearedTxs,h.selected⟩,rfl,?_⟩
      · exact fun it hit => h.mi it (by simp [hmi,hit])
      · simp only [SelectState.queued,hmi,List.length_cons]
        omega
    · rename_i c cs hcleared
      refine ⟨_,rfl,?_,⟨h.vecPriority,h.mi,?_,h.selected⟩,rfl,?_⟩
      · exact h.clearedTxs _ (hcleared ▸ popTop_mem _ _ _)
      · exact fun it hit => h.clearedTxs it (hcleared ▸ popTop_sub _ _ _ hit)
      · simp only [SelectState.queued,hcleared,popTop_length,List.length_cons]
        omega

variable [Crypto]

omit [Crypto] in
/-- An added entry costs more than its children can bring back. -/
theorem toDo_add {n block queued children : ℕ} (hblock : block < n) (hchildren : children ≤ n) :
    (n - (block + 1)) * (n + 1) + (queued + children) ≤ (n - block) * (n + 1) + queued := by
  obtain ⟨room,rfl⟩ := Nat.exists_eq_add_of_lt hblock
  have h₁ : block + room + 1 - (block + 1) = room := by omega
  have h₂ : block + room + 1 - block = room + 1 := by omega
  rw [h₁,h₂,Nat.add_mul]
  omega

theorem add_release (hpool : pool.Consistent) {s : SelectState Priority} (h : s.Sound pool)
    {iter : Uint256} {e : CTxMemPoolEntry} (he : pool.mapTx.lookup iter = some e)
    (hnew : iter ∉ s.inBlock) (hparents : pool.parentsOf iter ⊆ s.inBlock) :
    ((hashOrder.list (pool.childrenOf iter)).foldl SelectState.release (s.add iter e)).Sound pool ∧
      ((hashOrder.list (pool.childrenOf iter)).foldl SelectState.release (s.add iter e)).toDo pool ≤
        s.toDo pool := by
  have hmem : iter ∈ pool.mapTx := CTxMemPool.mem_of_lookup (CTxMemPool.lookup_of_entry he)
  have hsub : s.inBlock ⊆ pool.mapTx.keys := by
    obtain ⟨its,_,hin,hits,_⟩ := h.selected
    intro it hit
    rw [← hin,List.mem_toFinset] at hit
    exact Finmap.mem_keys.mpr (hits it hit)
  have hroom : s.inBlock.card < pool.mapTx.keys.card :=
    Finset.card_lt_card ⟨hsub,fun hall => hnew (hall (Finmap.mem_keys.mpr hmem))⟩
  have hchildren : (hashOrder.list (pool.childrenOf iter)).length ≤ pool.mapTx.keys.card := by
    rw [hashOrder.length_list]
    exact Finset.card_le_card hpool.childrenOf_sub
  obtain ⟨hsound,hin,hqueued⟩ := SelectState.foldl_release_sound
    (SelectState.add_sound h he hnew hparents) (fun c hc =>
      Finmap.mem_keys.mp (hpool.childrenOf_sub (hashOrder.mem_list.mp hc)))
  refine ⟨hsound,?_⟩
  have hcard : (s.add iter e).inBlock.card = s.inBlock.card + 1 := Finset.card_insert_of_notMem hnew
  unfold SelectState.toDo
  rw [hin,hcard]
  calc (pool.mapTx.keys.card - (s.inBlock.card + 1)) * (pool.mapTx.keys.card + 1) + _
      ≤ (pool.mapTx.keys.card - (s.inBlock.card + 1)) * (pool.mapTx.keys.card + 1) +
          (s.queued + (hashOrder.list (pool.childrenOf iter)).length) :=
        Nat.add_le_add_left hqueued _
    _ ≤ _ := toDo_add hroom hchildren

theorem tryAdd_step (ctx : MinerContext Priority) (hpool : pool.Consistent)
    {s : SelectState Priority} (h : s.Sound pool) {iter : Uint256}
    {e : CTxMemPoolEntry} (he : pool.mapTx.lookup iter = some e)
    (hnew : iter ∉ s.inBlock) (hparents : pool.parentsOf iter ⊆ s.inBlock) (priorityTx : Bool) :
    ∃ s' again, ctx.tryAdd pool iter e priorityTx s = .ok (s',again) ∧ s'.Sound pool ∧
      s'.toDo pool ≤ s.toDo pool := by
  have hkeep := SelectState.endPriority_keeps ctx e.getTxSize s
  unfold tryAdd
  rw [hpool.getMemPoolChildren_eq (CTxMemPool.mem_of_lookup (CTxMemPool.lookup_of_entry he))]
  dsimp only
  generalize s.endPriority ctx e.getTxSize = t at hkeep
  have ht := h.keeps hkeep
  split_ifs
  · exact ⟨_,_,rfl,ht,hkeep.toDo_le⟩
  · exact ⟨_,_,rfl,ht,hkeep.toDo_le⟩
  · have hcount : SelectState.Keeps t { t with lastFewTxs := t.lastFewTxs + 1 } :=
      ⟨List.Subset.refl _,List.Subset.refl _,List.Subset.refl _,rfl,rfl,le_rfl⟩
    exact ⟨_,_,rfl,ht.keeps hcount,(hkeep.trans hcount).toDo_le⟩
  · exact ⟨_,_,rfl,ht,hkeep.toDo_le⟩
  · exact ⟨_,_,rfl,ht,hkeep.toDo_le⟩
  · exact ⟨_,_,rfl,ht,hkeep.toDo_le⟩
  · obtain ⟨hsound,hless⟩ := add_release hpool ht he (hkeep.inBlock ▸ hnew)
      (hkeep.inBlock ▸ hparents)
    exact ⟨_,_,rfl,hsound,hless.trans hkeep.toDo_le⟩

theorem consider_step (ctx : MinerContext Priority) (hpool : pool.Consistent)
    {s : SelectState Priority} {p : Picked Priority} (h : Picks pool s p) : ∃ s' again, ctx.consider pool p = .ok (s',again) ∧ s'.Sound pool ∧
      s'.toDo pool < s.toDo pool := by
  have hpicked : p.s.toDo pool < s.toDo pool := by
    unfold SelectState.toDo
    rw [h.inBlock,← h.queued]
    omega
  unfold consider
  split_ifs with hin
  · exact ⟨p.s,true,rfl,h.sound,hpicked⟩
  · obtain ⟨e,he⟩ := Option.isSome_iff_exists.mp (Finmap.lookup_isSome.mpr h.mem)
    rw [CTxMemPool.entry_ok.mpr he,hpool.getMemPoolParents_eq h.mem]
    dsimp only [bind,Except.bind]
    split_ifs with hparents
    · obtain ⟨s',again,hs',hsound,hle⟩ :=
        tryAdd_step ctx hpool h.sound he hin hparents p.priorityTx
      exact ⟨s',again,hs',hsound,hle.trans_lt hpicked⟩
    · have hkeep := SelectState.postpone_keeps p.s p.iter p.priorityTx
      exact ⟨_,true,rfl,h.sound.keeps hkeep,hkeep.toDo_le.trans_lt hpicked⟩

theorem selectLoop_ends (ctx : MinerContext Priority) (hpool : pool.Consistent) {fuel : ℕ}
    {s : SelectState Priority} (h : s.Sound pool) (hfuel : s.toDo pool < fuel) :
    ∃ s', ctx.selectLoop pool fuel s = .ok (some s') ∧ s'.Sound pool := by
  induction fuel generalizing s with
  | zero => exact absurd hfuel (Nat.not_lt_zero _)
  | succ fuel ih =>
    unfold selectLoop
    split_ifs with hdone
    · exact ⟨s,rfl,h⟩
    · obtain ⟨p,hp,hpicks⟩ := pick_picks ctx h hdone
      obtain ⟨s',again,hs',hsound,hless⟩ := consider_step ctx hpool hpicks
      rw [hp]
      dsimp only [bind,Except.bind]
      rw [hs']
      cases again with
      | false => exact ⟨s',rfl,hsound⟩
      | true => exact ih hsound (hless.trans_le (Nat.le_of_lt_succ hfuel))

omit [Crypto] in
theorem selectStart_sound (ctx : MinerContext Priority) (pool : CTxMemPool) :
    (ctx.selectStart pool).Sound pool where
  vecPriority p hp := by
    unfold selectStart at hp
    dsimp only at hp
    split_ifs at hp
    · obtain ⟨it,hit,rfl⟩ := List.mem_map.mp hp
      exact Finmap.mem_keys.mp (hashOrder.mem_list.mp hit)
    · cases hp
  mi it hit := by
    have hkeys := (List.perm_insertionSort (fun a b => ctx.byScore pool a b)
      (hashOrder.list pool.mapTx.keys)).mem_iff.mp hit
    exact Finmap.mem_keys.mp (hashOrder.mem_list.mp hkeys)
  clearedTxs it hit := nomatch hit
  selected := ⟨[],.nil,rfl,by simp,rfl⟩

omit [Crypto] in
theorem selectStart_toDo (ctx : MinerContext Priority) (pool : CTxMemPool) :
    (ctx.selectStart pool).toDo pool < selectRounds pool := by
  have hmi : (ctx.selectStart pool).mi.length = pool.mapTx.keys.card := by
    rw [selectStart,List.length_insertionSort,hashOrder.length_list]
  have hvec : (ctx.selectStart pool).vecPriority.length ≤ pool.mapTx.keys.card := by
    unfold selectStart
    dsimp only
    split_ifs
    · rw [List.length_map,hashOrder.length_list]
    · exact Nat.zero_le _
  have hblock : (ctx.selectStart pool).inBlock.card = 0 := rfl
  have hcleared : (ctx.selectStart pool).clearedTxs.length = 0 := rfl
  unfold SelectState.toDo SelectState.queued selectRounds
  rw [hmi,hblock,hcleared]
  generalize pool.mapTx.keys.card = n at *
  have hrounds : (n + 1) * (n + 2) = n * (n + 1) + (2 * n + 2) := by ring
  rw [hrounds,Nat.sub_zero]
  omega

theorem hashes_of_lookups (hpool : pool.Consistent) {vtx : List CTransaction} {its : List Uint256}
    (h : vtx.map some = its.map pool.lookup) : vtx.map CTransaction.getHash = its ∧
      ∀ tx ∈ vtx, pool.lookup tx.getHash = some tx := by
  induction vtx generalizing its with
  | nil =>
    rw [List.map_nil,eq_comm,List.map_eq_nil_iff] at h
    exact ⟨h.symm,by simp⟩
  | cons tx vtx ih =>
    cases its with
    | nil => cases h
    | cons it its =>
      obtain ⟨htx,hrest⟩ := List.cons_eq_cons.mp h
      obtain ⟨hits,hall⟩ := ih hrest
      have hhash : tx.getHash = it := hpool.keyed htx.symm
      refine ⟨by rw [List.map_cons,hhash,hits],List.forall_mem_cons.mpr ⟨?_,hall⟩⟩
      rw [hhash]
      exact htx.symm

/-- The loop comes to an end. The transactions it selects are in the pool, no two of them are the
same, and each one stands behind all those in the pool that it spends from. -/
theorem selectTxs_inOrder (hpool : pool.Consistent) :
    ∃ s, ctx.selectTxs pool = .ok (some s) ∧ (s.vtx.map CTransaction.getHash).Nodup ∧
      (∀ tx ∈ s.vtx, pool.lookup tx.getHash = some tx) ∧
      ∀ before tx after, s.vtx = before ++ tx::after → ∀ parent, pool.Spends tx.getHash parent →
        ∃ ptx ∈ before, ptx.getHash = parent := by
  obtain ⟨s,hs,hsound⟩ := selectLoop_ends ctx hpool (selectStart_sound ctx pool)
    (selectStart_toDo ctx pool)
  obtain ⟨its,horder,_,_,hvtx⟩ := hsound.selected
  obtain ⟨rfl,hall⟩ := hashes_of_lookups hpool hvtx
  refine ⟨s,hs,horder.nodup,hall,fun before tx after heq parent hparent => ?_⟩
  have hbefore := horder.needs_before (before.map CTransaction.getHash) tx.getHash
    (after.map CTransaction.getHash) (by rw [heq,List.map_append,List.map_cons]) parent
    (hpool.mem_parentsOf.mpr hparent)
  exact List.mem_map.mp hbefore

end MinerContext

section
local instance selectionCrypto : Crypto := digitCrypto

def childEntry : CTxMemPoolEntry := CTxMemPoolEntry.create replaceableTx 5000 5000 false 0 {}

/-- A parent and its child. -/
def familyPool : CTxMemPool :=
  (singlePool.addUnchecked childEntry.tx.getHash childEntry
    {twoOutputEntry.tx.getHash}).toOption.getD {}

/-- Priorities are such that the child comes first. -/
def familyContext : MinerContext ℕ where
  args := { blockprioritysize := 50000 }
  nHeight := 4
  nLockTimeCutoff := 1100
  actualPriority := 0
  priority it := if it = childEntry.tx.getHash then 2 else 1
  lowerPriority a b := decide (a < b)
  samePriority a b := decide (a = b)
  allowFree p := decide (p > 0)
  higherScore a b := decide (a.nFee > b.nFee)

theorem lookup_of_keys {pool : CTxMemPool} {h k : Uint256} {tx tx' : CTransaction}
    (hkeys : pool.mapTx.keys = {k}) (hk : pool.lookup k = some tx')
    (htx : pool.lookup h = some tx) : tx = tx' := by
  have hmem := Finmap.mem_keys.mpr (CTxMemPool.mem_of_lookup htx)
  rw [hkeys,Finset.mem_singleton] at hmem
  rw [hmem,hk] at htx
  exact (Option.some.inj htx).symm

theorem familyPool_consistent : familyPool.Consistent := by
  have hok : (singlePool.addUnchecked childEntry.tx.getHash childEntry
    {twoOutputEntry.tx.getHash}).isOk = true := by decide +kernel
  obtain ⟨pool,hpool⟩ := isOk_iff.mp hok
  have hfamily : familyPool = pool := by
    rw [familyPool,hpool]
    rfl
  rw [hfamily]
  have hkeys : singlePool.mapTx.keys = {twoOutputTx.getHash} := by decide +kernel
  have hfound : singlePool.lookup twoOutputTx.getHash = some twoOutputTx := by decide +kernel
  have hapart : ∀ txin ∈ twoOutputTx.vin, txin.prevout.hash ≠ childEntry.tx.getHash := by
    decide +kernel
  have hfits : singlePool.Fits childEntry.tx := by
    refine ⟨?_,?_,?_,?_,fun h tx htx txin htxin => ?_⟩
    · decide +kernel
    · decide +kernel
    · decide +kernel
    · decide +kernel
    · rw [lookup_of_keys hkeys hfound htx] at htxin
      exact hapart txin htxin
  exact singlePool_consistent.addUnchecked hfits rfl hpool

theorem familyPool_inOrder : ∃ s, familyContext.selectTxs familyPool = .ok (some s) ∧
    (s.vtx.map CTransaction.getHash).Nodup ∧
    (∀ tx ∈ s.vtx, familyPool.lookup tx.getHash = some tx) ∧
    ∀ before tx after, s.vtx = before ++ tx::after →
      ∀ parent, familyPool.Spends tx.getHash parent → ∃ ptx ∈ before, ptx.getHash = parent :=
  MinerContext.selectTxs_inOrder familyPool_consistent

/-- The child waits, and both are selected. -/
example : (match familyContext.selectTxs familyPool with
    | .ok (some s) => s.vtx
    | _ => []) = [twoOutputTx,replaceableTx] := by decide +kernel

end

end Sidechain
