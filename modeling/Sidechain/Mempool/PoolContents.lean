import Sidechain.Mempool.PoolLinks

/-! What the operations do to the contents of the pool, apart from links and from what entries
record of their descendants: removing takes entries out, adding puts one in, nothing else changes. -/
namespace Sidechain
open Run

/-- An entry without what it records of its descendants. -/
def CTxMemPoolEntry.core (e : CTxMemPoolEntry) : CTxMemPoolEntry :=
  { e with nCountWithDescendants := 1, nSizeWithDescendants := 0, nModFeesWithDescendants := 0 }

theorem CTxMemPoolEntry.updateState_core {e e' : CTxMemPoolEntry} {size fee count : ℤ}
    (h : e.updateState size fee count = .ok e') : e'.core = e.core := by
  unfold updateState at h
  split_ifs at h
  · cases h
    rfl
  · obtain ⟨_,_,h⟩ := bind_ok.mp h
    obtain ⟨_,_,h⟩ := bind_ok.mp h
    cases h
    rfl

namespace CTxMemPool

def contents (pool : CTxMemPool) (h : Uint256) : Option CTxMemPoolEntry :=
  (pool.mapTx.lookup h).map CTxMemPoolEntry.core

theorem contents_of_lookup {pool : CTxMemPool} {h : Uint256} {e : CTxMemPoolEntry}
    (he : pool.mapTx.lookup h = some e) : pool.contents h = some e.core := by
  rw [contents,he]
  rfl

theorem mem_iff_contents {pool : CTxMemPool} {h : Uint256} :
    h ∈ pool.mapTx ↔ (pool.contents h).isSome := by
  rw [← Finmap.lookup_isSome,contents,Option.isSome_map]

theorem lookup_eq_contents (pool : CTxMemPool) (h : Uint256) :
    pool.lookup h = (pool.contents h).map CTxMemPoolEntry.tx := by
  rw [lookup,contents,Option.map_map]
  rfl

/-- Two pools with the same transactions, which may differ in links and descendant state. -/
structure SameTxs (pool pool' : CTxMemPool) : Prop where
  contents : pool'.contents = pool.contents
  mapNextTx : pool'.mapNextTx = pool.mapNextTx
  mapDeltas : pool'.mapDeltas = pool.mapDeltas
  totalTxSize : pool'.totalTxSize = pool.totalTxSize

theorem SameTxs.refl (pool : CTxMemPool) : SameTxs pool pool := ⟨rfl,rfl,rfl,rfl⟩

theorem SameTxs.trans {a b c : CTxMemPool} (h : SameTxs a b) (k : SameTxs b c) : SameTxs a c :=
  ⟨k.contents.trans h.contents,k.mapNextTx.trans h.mapNextTx,k.mapDeltas.trans h.mapDeltas,
    k.totalTxSize.trans h.totalTxSize⟩

theorem SameTxs.lookup {a b : CTxMemPool} (h : SameTxs a b) : b.lookup = a.lookup := by
  funext it
  rw [lookup_eq_contents,lookup_eq_contents,h.contents]

theorem SameTxs.mem_iff {a b : CTxMemPool} (h : SameTxs a b) {it : Uint256} :
    it ∈ b.mapTx ↔ it ∈ a.mapTx := by
  rw [mem_iff_contents,mem_iff_contents,h.contents]

theorem contents_insert (pool : CTxMemPool) (it : Uint256) (e : CTxMemPoolEntry) :
    contents { pool with mapTx := pool.mapTx.insert it e } =
      Function.update pool.contents it (some e.core) := by
  funext h
  by_cases hit : h = it
  · subst hit
    rw [Function.update_self]
    exact contents_of_lookup (Finmap.lookup_insert _)
  · rw [Function.update_of_ne hit,contents,contents]
    exact congrArg _ (Finmap.lookup_insert_of_ne _ hit)

theorem modify_contents {pool pool' : CTxMemPool} {it : Uint256}
    {f : CTxMemPoolEntry → Outcome CTxMemPoolEntry} (h : pool.modify it f = .ok pool') :
    ∃ e e', pool.mapTx.lookup it = some e ∧ f e = .ok e' ∧
      pool' = { pool with mapTx := pool.mapTx.insert it e' } := by
  obtain ⟨e,he,h⟩ := bind_ok.mp h
  obtain ⟨e',he',h⟩ := bind_ok.mp h
  cases h
  exact ⟨e,e',entry_ok.mp he,he',rfl⟩

theorem modify_sameTxs {pool pool' : CTxMemPool} {it : Uint256} {size fee count : ℤ}
    (h : pool.modify it (fun e => e.updateState size fee count) = .ok pool') :
    SameTxs pool pool' := by
  obtain ⟨e,e',he,hstate,rfl⟩ := modify_contents h
  refine ⟨?_,rfl,rfl,rfl⟩
  rw [contents_insert,CTxMemPoolEntry.updateState_core hstate,← contents_of_lookup he,
    Function.update_eq_self]

theorem updateChild_sameTxs (pool : CTxMemPool) (it child : Uint256) (add : Bool) :
    SameTxs pool (pool.updateChild it child add) := ⟨rfl,rfl,rfl,rfl⟩

theorem updateParent_sameTxs (pool : CTxMemPool) (it parent : Uint256) (add : Bool) :
    SameTxs pool (pool.updateParent it parent add) := ⟨rfl,rfl,rfl,rfl⟩

theorem foldl_sameTxs {α : Type} {f : CTxMemPool → α → CTxMemPool}
    (hf : ∀ pool a, SameTxs pool (f pool a)) (l : List α) (pool : CTxMemPool) :
    SameTxs pool (l.foldl f pool) := by
  induction l generalizing pool with
  | nil => exact .refl pool
  | cons a l ih => exact (hf pool a).trans (ih (f pool a))

theorem foldlM_sameTxs {α : Type} {f : CTxMemPool → α → Outcome CTxMemPool}
    (hf : ∀ {pool pool' a}, f pool a = .ok pool' → SameTxs pool pool') {l : List α}
    {pool pool' : CTxMemPool} (h : l.foldlM f pool = .ok pool') : SameTxs pool pool' :=
  foldlM_invariant (SameTxs pool) (fun _ _ _ _ hm hstep => hm.trans (hf hstep)) (.refl pool) h

theorem updateAncestorsOf_sameTxs {pool pool' : CTxMemPool} {add : Bool} {it : Uint256}
    {setAncestors : Finset Uint256} (h : pool.updateAncestorsOf add it setAncestors = .ok pool') :
    SameTxs pool pool' := by
  obtain ⟨parentIters,_,h⟩ := bind_ok.mp h
  obtain ⟨e,_,h⟩ := bind_ok.mp h
  exact (foldl_sameTxs (fun pool piter => updateChild_sameTxs pool piter it add) _ pool).trans
    (foldlM_sameTxs modify_sameTxs h)

theorem updateChildrenForRemoval_sameTxs {pool pool' : CTxMemPool} {it : Uint256}
    (h : pool.updateChildrenForRemoval it = .ok pool') : SameTxs pool pool' := by
  obtain ⟨children,_,h⟩ := bind_ok.mp h
  cases h
  exact foldl_sameTxs (fun pool child => updateParent_sameTxs pool child it false) _ pool

theorem updateForRemoveFromMempool_sameTxs {pool pool' : CTxMemPool} {stage : Finset Uint256}
    (h : pool.updateForRemoveFromMempool stage = .ok pool') : SameTxs pool pool' := by
  obtain ⟨m,hm,h⟩ := bind_ok.mp h
  refine (foldlM_sameTxs (fun hstep => ?_) hm).trans
    (foldlM_sameTxs updateChildrenForRemoval_sameTxs h)
  obtain ⟨setAncestors,_,hstep⟩ := bind_ok.mp hstep
  exact updateAncestorsOf_sameTxs hstep

theorem removeUnchecked_contents {pool pool' : CTxMemPool} {it : Uint256}
    (h : pool.removeUnchecked it = .ok pool') :
    pool'.contents = Function.update pool.contents it none := by
  obtain ⟨e,_,h⟩ := bind_ok.mp h
  cases h
  funext k
  by_cases hk : k = it
  · subst hk
    rw [Function.update_self,contents,Finmap.lookup_erase]
    rfl
  · rw [Function.update_of_ne hk,contents,Finmap.lookup_erase_ne hk,contents]

theorem removeStaged_contents {pool pool' : CTxMemPool} {stage : Finset Uint256}
    (h : pool.removeStaged stage = .ok pool') (k : Uint256) :
    pool'.contents k = if k ∈ stage then none else pool.contents k := by
  obtain ⟨m,hm,h⟩ := bind_ok.mp h
  have hsame := updateForRemoveFromMempool_sameTxs hm
  have hrun : ∀ k, pool'.contents k = if k ∈ hashOrder.list stage then none else m.contents k := by
    refine foldlM_induct (fun gone _ p => ∀ k, p.contents k =
      if k ∈ gone then none else m.contents k) ?_ (by simp) h
    intro gone it rest p p' hp hstep k
    rw [removeUnchecked_contents hstep]
    by_cases hk : k = it
    · simp [hk]
    · rw [Function.update_of_ne hk,hp k]
      simp [hk]
  rw [hrun k,hsame.contents]
  simp only [hashOrder.mem_list]

theorem removeStaged_mapDeltas {pool pool' : CTxMemPool} {stage : Finset Uint256}
    (h : pool.removeStaged stage = .ok pool') : pool'.mapDeltas = pool.mapDeltas := by
  obtain ⟨m,hm,h⟩ := bind_ok.mp h
  rw [← (updateForRemoveFromMempool_sameTxs hm).mapDeltas]
  refine foldlM_invariant (fun p => p.mapDeltas = m.mapDeltas) ?_ rfl h
  intro it _ p p' hp hstep
  obtain ⟨e,_,hstep⟩ := bind_ok.mp hstep
  cases hstep
  exact hp

/-- A pool with fewer transactions. -/
def Shrinks (pool pool' : CTxMemPool) : Prop :=
  ∀ h e, pool'.contents h = some e → pool.contents h = some e

theorem Shrinks.refl (pool : CTxMemPool) : Shrinks pool pool := fun _ _ h => h

theorem Shrinks.trans {a b c : CTxMemPool} (h : Shrinks a b) (k : Shrinks b c) : Shrinks a c :=
  fun it e he => h it e (k it e he)

theorem removeStaged_shrinks {pool pool' : CTxMemPool} {stage : Finset Uint256}
    (h : pool.removeStaged stage = .ok pool') : Shrinks pool pool' := by
  intro k e hk
  rw [removeStaged_contents h k] at hk
  split_ifs at hk
  exact hk

theorem expire_shrinks {pool pool' : CTxMemPool} {time : ℤ} (h : pool.expire time = .ok pool') :
    Shrinks pool pool' := by
  obtain ⟨stage,_,h⟩ := bind_ok.mp h
  exact removeStaged_shrinks h

theorem trimLoop_shrinks {dynamicMemoryUsage : CTxMemPool → ℕ}
    {lowest : CTxMemPool → Option Uint256} {sizelimit fuel : ℕ} {pool pool' : CTxMemPool}
    (h : trimLoop dynamicMemoryUsage lowest sizelimit fuel pool = .ok pool') :
    Shrinks pool pool' := by
  induction fuel generalizing pool with
  | zero =>
    cases h
    exact .refl _
  | succ fuel ih =>
    unfold trimLoop at h
    split at h
    · split at h
      · cases h
      · obtain ⟨stage,_,h⟩ := bind_ok.mp h
        obtain ⟨m,hm,h⟩ := bind_ok.mp h
        exact (removeStaged_shrinks hm).trans (ih h)
    · cases h
      exact .refl _

theorem Shrinks.lookup {pool pool' : CTxMemPool} (hs : Shrinks pool pool') {h : Uint256}
    {tx : CTransaction} (htx : pool'.lookup h = some tx) : pool.lookup h = some tx := by
  rw [lookup_eq_contents] at htx ⊢
  obtain ⟨e,he,rfl⟩ := Option.map_eq_some_iff.mp htx
  rw [hs h e he]
  rfl

theorem SpendsOnce.shrinks {pool pool' : CTxMemPool} (h : pool.SpendsOnce)
    (hs : Shrinks pool pool') : pool'.SpendsOnce :=
  fun a tx a' tx' htx htx' => h a tx a' tx' (hs.lookup htx) (hs.lookup htx')

variable [Crypto]

theorem addUnchecked_contents {pool pool' : CTxMemPool} {e : CTxMemPoolEntry}
    {setAncestors : Finset Uint256} (hnew : e.tx.getHash ∉ pool.mapTx) (hdelta : e.feeDelta = 0)
    (h : pool.addUnchecked e.tx.getHash e setAncestors = .ok pool') :
    pool'.contents = Function.update pool.contents e.tx.getHash
      (some { e.core with feeDelta := (pool.mapDeltas.lookup e.tx.getHash).getD 0 }) := by
  obtain ⟨m,hm,h⟩ := bind_ok.mp h
  obtain ⟨e',_,h⟩ := bind_ok.mp h
  obtain ⟨last,hlast,h⟩ := bind_ok.mp h
  cases h
  have hrest : last.contents = m.contents :=
    (updateAncestorsOf_sameTxs hlast).contents.trans
      (foldl_sameTxs (fun pool phash => by
        split_ifs
        · exact updateParent_sameTxs pool _ phash true
        · exact .refl pool) _ _).contents
  change last.contents = _
  rw [hrest]
  have hinsert : insertNew pool.mapTx e.tx.getHash e = pool.mapTx.insert e.tx.getHash e :=
    if_neg hnew
  rw [hinsert] at hm
  unfold applyDelta at hm
  dsimp only at hm
  cases hlookup : pool.mapDeltas.lookup e.tx.getHash with
  | none =>
    simp only [hlookup] at hm
    cases hm
    rw [Option.getD_none,← hdelta]
    exact contents_insert _ _ e
  | some delta =>
    simp only [hlookup] at hm
    rw [Option.getD_some]
    split_ifs at hm with hzero
    · obtain ⟨d,d',hd,hd',rfl⟩ := modify_contents hm
      rw [Finmap.lookup_insert] at hd
      cases hd
      cases hd'
      rw [Finmap.insert_insert]
      exact contents_insert _ _ _
    · cases hm
      rw [not_not.mp hzero,← hdelta]
      exact contents_insert _ _ e

end CTxMemPool
end Sidechain
