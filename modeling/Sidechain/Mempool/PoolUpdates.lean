import Sidechain.Mempool.PoolContents

/-! Links under the operations of the pool: the maps stay consistent when entries are removed,
whichever they are, and when a transaction is added that conflicts with none of the entries and
that none of them spends from. -/
namespace Sidechain
open Run Worklist

namespace CTxMemPool

theorem mem_update {add : Bool} {x y : Uint256} {s : Finset Uint256} :
    y ∈ update add x s ↔ (y = x ∧ add = true) ∨ (y ≠ x ∧ y ∈ s) := by
  unfold update
  cases add <;> by_cases h : y = x <;> simp [h]

@[simp] theorem linksAt_insert (pool : CTxMemPool) (it x : Uint256) (l : TxLinks) :
    linksAt { pool with mapLinks := pool.mapLinks.insert it l } x =
      if x = it then l else pool.linksAt x := by
  unfold linksAt
  split_ifs with h
  · rw [h,Finmap.lookup_insert]
    rfl
  · rw [Finmap.lookup_insert_of_ne _ h]

theorem parentsOf_updateChild (pool : CTxMemPool) (it child : Uint256) (add : Bool) (x : Uint256) :
    (pool.updateChild it child add).parentsOf x = pool.parentsOf x := by
  unfold updateChild parentsOf
  rw [linksAt_insert]
  split_ifs with h
  · rw [h]
  · rfl

theorem mem_childrenOf_updateChild {pool : CTxMemPool} {it child : Uint256} {add : Bool}
    {x c : Uint256} : c ∈ (pool.updateChild it child add).childrenOf x ↔
      (x = it ∧ c = child ∧ add = true) ∨ (¬ (x = it ∧ c = child) ∧ c ∈ pool.childrenOf x) := by
  unfold updateChild childrenOf
  rw [linksAt_insert]
  split_ifs with h
  · rw [mem_update,h]
    tauto
  · tauto

theorem childrenOf_updateParent (pool : CTxMemPool) (it parent : Uint256) (add : Bool)
    (x : Uint256) : (pool.updateParent it parent add).childrenOf x = pool.childrenOf x := by
  unfold updateParent childrenOf
  rw [linksAt_insert]
  split_ifs with h
  · rw [h]
  · rfl

theorem mem_parentsOf_updateParent {pool : CTxMemPool} {it parent : Uint256} {add : Bool}
    {x p : Uint256} : p ∈ (pool.updateParent it parent add).parentsOf x ↔
      (x = it ∧ p = parent ∧ add = true) ∨ (¬ (x = it ∧ p = parent) ∧ p ∈ pool.parentsOf x) := by
  unfold updateParent parentsOf
  rw [linksAt_insert]
  split_ifs with h
  · rw [mem_update,h]
    tauto
  · tauto

@[simp] theorem mem_links_updateChild {pool : CTxMemPool} {it child : Uint256} {add : Bool} {x : Uint256} :
    x ∈ (pool.updateChild it child add).mapLinks ↔ x = it ∨ x ∈ pool.mapLinks := Finmap.mem_insert

@[simp] theorem mem_links_updateParent {pool : CTxMemPool} {it parent : Uint256} {add : Bool}
    {x : Uint256} : x ∈ (pool.updateParent it parent add).mapLinks ↔ x = it ∨ x ∈ pool.mapLinks :=
  Finmap.mem_insert

/-- The links a pool has: its linked entries, their parents and their children. -/
structure HasLinks (pool : CTxMemPool) (linked : Uint256 → Prop)
    (parents children : Uint256 → Uint256 → Prop) : Prop where
  linked : ∀ x, x ∈ pool.mapLinks ↔ linked x
  parents : ∀ x p, p ∈ pool.parentsOf x ↔ parents x p
  children : ∀ x c, c ∈ pool.childrenOf x ↔ children x c

theorem HasLinks.congr {pool pool' : CTxMemPool} {linked : Uint256 → Prop}
    {parents children : Uint256 → Uint256 → Prop} (h : HasLinks pool linked parents children)
    (heq : pool'.mapLinks = pool.mapLinks) : HasLinks pool' linked parents children := by
  have hat : pool'.linksAt = pool.linksAt := by
    funext x
    rw [linksAt,heq,linksAt]
  exact ⟨fun x => heq ▸ h.linked x,
    fun x p => by rw [parentsOf,hat]; exact h.parents x p,
    fun x c => by rw [childrenOf,hat]; exact h.children x c⟩

section
variable {pool : CTxMemPool} {linked : Uint256 → Prop} {parents children : Uint256 → Uint256 → Prop}

theorem HasLinks.updateChildren (h : HasLinks pool linked parents children) (l : List Uint256)
    (it : Uint256) (add : Bool) :
    HasLinks (l.foldl (fun pool piter => pool.updateChild piter it add) pool)
      (fun x => x ∈ l ∨ linked x) parents
      (fun x c => (x ∈ l ∧ c = it ∧ add = true) ∨ (¬ (x ∈ l ∧ c = it) ∧ children x c)) := by
  induction l generalizing pool linked children with
  | nil => exact ⟨by simpa using h.linked,h.parents,by simpa using h.children⟩
  | cons p l ih =>
    have hp : HasLinks (pool.updateChild p it add) (fun x => x = p ∨ linked x) parents
        (fun x c => (x = p ∧ c = it ∧ add = true) ∨ (¬ (x = p ∧ c = it) ∧ children x c)) :=
      ⟨fun x => mem_links_updateChild.trans (or_congr_right (h.linked x)),
        fun x q => by rw [parentsOf_updateChild]; exact h.parents x q,
        fun x c => by rw [mem_childrenOf_updateChild,h.children]⟩
    have hl := ih hp
    refine ⟨fun x => (hl.linked x).trans ?_,hl.parents,fun x c => (hl.children x c).trans ?_⟩ <;>
      simp only [List.mem_cons] <;> tauto

theorem HasLinks.updateParents (h : HasLinks pool linked parents children) (l : List Uint256)
    (it : Uint256) (add : Bool) :
    HasLinks (l.foldl (fun pool citer => pool.updateParent citer it add) pool)
      (fun x => x ∈ l ∨ linked x)
      (fun x p => (x ∈ l ∧ p = it ∧ add = true) ∨ (¬ (x ∈ l ∧ p = it) ∧ parents x p)) children := by
  induction l generalizing pool linked parents with
  | nil => exact ⟨by simpa using h.linked,by simpa using h.parents,h.children⟩
  | cons c l ih =>
    have hc : HasLinks (pool.updateParent c it add) (fun x => x = c ∨ linked x)
        (fun x p => (x = c ∧ p = it ∧ add = true) ∨ (¬ (x = c ∧ p = it) ∧ parents x p)) children :=
      ⟨fun x => mem_links_updateParent.trans (or_congr_right (h.linked x)),
        fun x p => by rw [mem_parentsOf_updateParent,h.parents],
        fun x q => by rw [childrenOf_updateParent]; exact h.children x q⟩
    have hl := ih hc
    refine ⟨fun x => (hl.linked x).trans ?_,fun x p => (hl.parents x p).trans ?_,hl.children⟩ <;>
      simp only [List.mem_cons] <;> tauto

theorem HasLinks.addParents (h : HasLinks pool linked parents children) (l : List Uint256)
    (it : Uint256) (hit : linked it) :
    HasLinks (l.foldl (fun pool phash =>
        if phash ∈ pool.mapTx then pool.updateParent it phash true else pool) pool)
      linked (fun x p => (x = it ∧ p ∈ l ∧ p ∈ pool.mapTx) ∨ parents x p) children := by
  induction l generalizing pool parents with
  | nil => exact ⟨h.linked,by simpa using h.parents,h.children⟩
  | cons q l ih =>
    rw [List.foldl_cons]
    split_ifs with hq
    · have hstep : HasLinks (pool.updateParent it q true) linked
          (fun x p => (x = it ∧ p = q) ∨ parents x p) children :=
        ⟨fun x => by
            rw [mem_links_updateParent,h.linked]
            exact ⟨fun hx => hx.elim (fun hx => hx ▸ hit) id,.inr⟩,
          fun x p => by rw [mem_parentsOf_updateParent,h.parents]; tauto,
          fun x c => by rw [childrenOf_updateParent]; exact h.children x c⟩
      have hl := ih hstep
      refine ⟨hl.linked,fun x p => (hl.parents x p).trans ?_,hl.children⟩
      simp only [List.mem_cons]
      constructor
      · rintro (⟨hx,hp,hmem⟩ | ⟨hx,rfl⟩ | hx)
        · exact .inl ⟨hx,.inr hp,hmem⟩
        · exact .inl ⟨hx,.inl rfl,hq⟩
        · exact .inr hx
      · rintro (⟨hx,rfl | hp,hmem⟩ | hx)
        · exact .inr (.inl ⟨hx,rfl⟩)
        · exact .inl ⟨hx,hp,hmem⟩
        · exact .inr (.inr hx)
    · have hl := ih h
      refine ⟨hl.linked,fun x p => (hl.parents x p).trans (or_congr_left ?_),hl.children⟩
      simp only [List.mem_cons]
      constructor
      · exact fun ⟨hx,hp,hmem⟩ => ⟨hx,.inr hp,hmem⟩
      · rintro ⟨hx,rfl | hp,hmem⟩
        · exact absurd hmem hq
        · exact ⟨hx,hp,hmem⟩

end

theorem modify_mapLinks {pool pool' : CTxMemPool} {it : Uint256}
    {f : CTxMemPoolEntry → Outcome CTxMemPoolEntry} (h : pool.modify it f = .ok pool') :
    pool'.mapLinks = pool.mapLinks := by
  obtain ⟨_,_,_,_,rfl⟩ := modify_contents h
  rfl

theorem foldlM_modify_mapLinks {l : List Uint256} {f : CTxMemPoolEntry → Outcome CTxMemPoolEntry}
    {pool pool' : CTxMemPool} (h : l.foldlM (fun pool it => pool.modify it f) pool = .ok pool') :
    pool'.mapLinks = pool.mapLinks :=
  foldlM_invariant (fun p => p.mapLinks = pool.mapLinks)
    (fun _ _ _ _ hm hstep => (modify_mapLinks hstep).trans hm) rfl h

theorem HasLinks.updateAncestorsOf {pool pool' : CTxMemPool} {linked : Uint256 → Prop}
    {parents children : Uint256 → Uint256 → Prop} (h : HasLinks pool linked parents children)
    {add : Bool} {it : Uint256} {setAncestors : Finset Uint256}
    (hrun : pool.updateAncestorsOf add it setAncestors = .ok pool') :
    HasLinks pool' (fun x => parents it x ∨ linked x) parents
      (fun x c => (parents it x ∧ c = it ∧ add = true) ∨ (¬ (parents it x ∧ c = it) ∧ children x c)) := by
  obtain ⟨parentIters,hparents,hrun⟩ := bind_ok.mp hrun
  obtain ⟨e,_,hrun⟩ := bind_ok.mp hrun
  obtain rfl := getMemPoolParents_ok hparents
  have hl := (h.updateChildren (hashOrder.list (pool.parentsOf it)) it add).congr
    (foldlM_modify_mapLinks hrun)
  simpa only [hashOrder.mem_list,h.parents] using hl

theorem HasLinks.updateChildrenForRemoval {pool pool' : CTxMemPool} {linked : Uint256 → Prop}
    {parents children : Uint256 → Uint256 → Prop} (h : HasLinks pool linked parents children)
    {it : Uint256} (hrun : pool.updateChildrenForRemoval it = .ok pool') :
    HasLinks pool' (fun x => children it x ∨ linked x)
      (fun x p => ¬ (children it x ∧ p = it) ∧ parents x p) children := by
  obtain ⟨setChildren,hchildren,hrun⟩ := bind_ok.mp hrun
  cases hrun
  obtain rfl := getMemPoolChildren_ok hchildren
  simpa only [hashOrder.mem_list,h.children,Bool.false_eq_true,and_false,false_or] using
    h.updateParents (hashOrder.list (pool.childrenOf it)) it false

theorem lookup_foldl_erase (vin : List CTxIn) (m : Finmap fun _ : COutPoint => CInPoint)
    (o : COutPoint) : (vin.foldl (fun m txin => m.erase txin.prevout) m).lookup o =
      if ∃ txin ∈ vin, txin.prevout = o then none else m.lookup o := by
  induction vin generalizing m with
  | nil => simp
  | cons txin vin ih =>
    rw [List.foldl_cons,ih]
    simp only [List.exists_mem_cons_iff]
    by_cases hrest : ∃ i ∈ vin, i.prevout = o
    · rw [if_pos hrest,if_pos (.inr hrest)]
    · rw [if_neg hrest]
      by_cases ho : txin.prevout = o
      · rw [if_pos (.inl ho),← ho,Finmap.lookup_erase]
      · rw [Finmap.lookup_erase_ne (Ne.symm ho),if_neg (not_or.mpr ⟨ho,hrest⟩)]

theorem spends_congr {pool pool' : CTxMemPool} (h : SameTxs pool pool') {c p : Uint256} :
    pool'.Spends c p ↔ pool.Spends c p := by
  rw [Spends,Spends,h.mem_iff,h.lookup]

variable [Crypto]

/-- A pool on the way of a removal: the links between the entries that stay and those that go have
been cut. -/
structure Severed (pool : CTxMemPool) (stage : Finset Uint256) : Prop extends pool.Indexed where
  links_mem : ∀ {h}, h ∈ pool.mapLinks ↔ h ∈ pool.mapTx
  mem_parentsOf : ∀ {x p}, x ∉ stage → (p ∈ pool.parentsOf x ↔ pool.Spends x p ∧ p ∉ stage)
  mem_childrenOf : ∀ {x c}, x ∉ stage → (c ∈ pool.childrenOf x ↔ pool.Spends c x ∧ c ∉ stage)

variable {pool pool' : CTxMemPool}

theorem Indexed.congr (h : pool.Indexed) (hs : SameTxs pool pool') : pool'.Indexed where
  keyed htx := h.keyed (hs.lookup ▸ htx)
  nextTx := by
    rw [hs.mapNextTx,hs.lookup]
    exact h.nextTx

theorem Severed.consistent (h : pool.Severed ∅) : pool.Consistent where
  toIndexed := h.toIndexed
  links_mem := h.links_mem
  mem_parentsOf := (h.mem_parentsOf (Finset.notMem_empty _)).trans (by simp)
  mem_childrenOf := (h.mem_childrenOf (Finset.notMem_empty _)).trans (by simp)

section
variable (hpool : pool.Consistent)
include hpool

theorem Consistent.hasLinks : HasLinks pool (fun x => x ∈ pool.mapTx) (fun x p => pool.Spends x p)
    (fun x c => pool.Spends c x) :=
  ⟨fun _ => hpool.links_mem,fun _ _ => hpool.mem_parentsOf,fun _ _ => hpool.mem_childrenOf⟩

/-- Every entry that goes has been taken off its parents. -/
theorem Consistent.severChildren {l : List Uint256}
    (h : l.foldlM (fun pool removeIt => do
      let setAncestors ← pool.linkedMemPoolAncestors removeIt
      pool.updateAncestorsOf false removeIt setAncestors) pool = .ok pool') :
    HasLinks pool' (fun x => x ∈ pool.mapTx) (fun x p => pool.Spends x p)
      (fun x c => pool.Spends c x ∧ c ∉ l) := by
  refine foldlM_induct (fun seen _ p => HasLinks p (fun x => x ∈ pool.mapTx)
    (fun x q => pool.Spends x q) (fun x c => pool.Spends c x ∧ c ∉ seen)) ?_
    (by simpa using hpool.hasLinks) h
  intro seen r rest p p' hp hstep
  obtain ⟨setAncestors,_,hstep⟩ := bind_ok.mp hstep
  have hl := hp.updateAncestorsOf hstep
  refine ⟨fun x => (hl.linked x).trans (or_iff_right_of_imp fun hx => hx.1),hl.parents,
    fun x c => (hl.children x c).trans ?_⟩
  simp only [Bool.false_eq_true,and_false,false_or,List.mem_append,List.mem_singleton,not_or]
  constructor
  · rintro ⟨hnot,hspends,hseen⟩
    exact ⟨hspends,hseen,fun hc => hnot ⟨hc ▸ hspends,hc⟩⟩
  · rintro ⟨hspends,hseen,hc⟩
    exact ⟨fun hand => hc hand.2,hspends,hseen⟩

theorem Consistent.updateForRemoveFromMempool_severed {stage : Finset Uint256}
    (h : pool.updateForRemoveFromMempool stage = .ok pool') : pool'.Severed stage := by
  have hsame := updateForRemoveFromMempool_sameTxs h
  obtain ⟨m,hm,h⟩ := bind_ok.mp h
  have hchildren := hpool.severChildren hm
  simp only [hashOrder.mem_list] at hchildren
  have hl : HasLinks pool' (fun x => x ∈ pool.mapTx)
      (fun x p => pool.Spends x p ∧ ¬ (p ∈ hashOrder.list stage ∧ x ∉ stage))
      (fun x c => pool.Spends c x ∧ c ∉ stage) := by
    refine foldlM_induct (fun seen _ p => HasLinks p (fun x => x ∈ pool.mapTx)
      (fun x q => pool.Spends x q ∧ ¬ (q ∈ seen ∧ x ∉ stage))
      (fun x c => pool.Spends c x ∧ c ∉ stage)) ?_ (by simpa using hchildren) h
    intro seen r rest p p' hp hstep
    have hstep := hp.updateChildrenForRemoval hstep
    refine ⟨fun x => (hstep.linked x).trans (or_iff_right_of_imp fun hx => ?_),
      fun x q => (hstep.parents x q).trans ?_,hstep.children⟩
    · obtain ⟨_,tx,htx,_⟩ := hx.1
      exact mem_of_lookup htx
    · simp only [List.mem_append,List.mem_singleton]
      constructor
      · rintro ⟨hnot,hspends,hseen⟩
        refine ⟨hspends,fun ⟨hq,hx⟩ => hq.elim (fun hq => hseen ⟨hq,hx⟩) fun hq => ?_⟩
        exact hnot ⟨⟨hq ▸ hspends,hx⟩,hq⟩
      · rintro ⟨hspends,hnot⟩
        exact ⟨fun ⟨⟨_,hx⟩,hq⟩ => hnot ⟨.inr hq,hx⟩,hspends,fun ⟨hq,hx⟩ => hnot ⟨.inl hq,hx⟩⟩
  simp only [hashOrder.mem_list] at hl
  refine ⟨hpool.toIndexed.congr hsame,?_,fun hx => ?_,fun _ => ?_⟩
  · exact (hl.linked _).trans hsame.mem_iff.symm
  · rw [hl.parents,spends_congr hsame]
    exact and_congr_right fun _ => ⟨fun h hp => h ⟨hp,hx⟩,fun h hp => h hp.1⟩
  · rw [hl.children,spends_congr hsame]

end

omit [Crypto] in
theorem removeUnchecked_lookup {it : Uint256} (h : pool.removeUnchecked it = .ok pool')
    (k : Uint256) : pool'.lookup k = if k = it then none else pool.lookup k := by
  rw [lookup_eq_contents,removeUnchecked_contents h]
  split_ifs with hk
  · rw [hk,Function.update_self]
    rfl
  · rw [Function.update_of_ne hk,← lookup_eq_contents]

omit [Crypto] in
theorem removeUnchecked_linksAt {it : Uint256} (h : pool.removeUnchecked it = .ok pool')
    (x : Uint256) : pool'.linksAt x = if x = it then {} else pool.linksAt x := by
  obtain ⟨e,_,h⟩ := bind_ok.mp h
  cases h
  unfold linksAt
  split_ifs with hx
  · rw [hx,Finmap.lookup_erase]
    rfl
  · rw [Finmap.lookup_erase_ne hx]

omit [Crypto] in
theorem removeUnchecked_spends {it : Uint256} (h : pool.removeUnchecked it = .ok pool')
    {c p : Uint256} : pool'.Spends c p ↔ pool.Spends c p ∧ c ≠ it ∧ p ≠ it := by
  have hlookup := removeUnchecked_lookup h
  unfold Spends
  rw [mem_iff_lookup,mem_iff_lookup,hlookup,hlookup]
  by_cases hc : c = it <;> by_cases hp : p = it <;> simp [hc,hp]

theorem Severed.removeUnchecked {stage : Finset Uint256} {it : Uint256} (hpool : pool.Severed stage)
    (hit : it ∈ stage) (h : pool.removeUnchecked it = .ok pool') :
    pool'.Severed (stage.erase it) := by
  have hlookup := removeUnchecked_lookup h
  have hlinks := removeUnchecked_linksAt h
  have hspends : ∀ c p, pool'.Spends c p ↔ pool.Spends c p ∧ c ≠ it ∧ p ≠ it :=
    fun c p => removeUnchecked_spends h
  obtain ⟨e,he,h⟩ := bind_ok.mp h
  cases h
  have htx := lookup_of_entry (entry_ok.mp he)
  refine ⟨⟨fun hk => ?_,?_⟩,fun {k} => ?_,fun {x p} hx => ?_,fun {x c} hx => ?_⟩
  · rw [hlookup] at hk
    split_ifs at hk
    exact hpool.keyed hk
  · intro o ip
    rw [lookup_foldl_erase]
    simp only [hlookup]
    constructor
    · intro hnext
      split_ifs at hnext with hmine
      obtain ⟨k,hk,txin,htxin,ho⟩ := hpool.nextTx.mp hnext
      refine ⟨k,?_,txin,htxin,ho⟩
      rw [if_neg,hk]
      rintro rfl
      have heq : ip.ptx = e.tx := Option.some.inj (hk.symm.trans htx)
      exact hmine ⟨txin,heq ▸ List.mem_of_getElem? htxin,ho⟩
    · rintro ⟨k,hk,txin,htxin,ho⟩
      split_ifs at hk with hkit
      rw [if_neg]
      · exact hpool.nextTx.mpr ⟨k,hk,txin,htxin,ho⟩
      · rintro ⟨txin',htxin',ho'⟩
        exact hkit (hpool.spendsOnce k _ it _ hk htx txin (List.mem_of_getElem? htxin) txin' htxin'
          (ho.trans ho'.symm))
  · rw [Finmap.mem_erase,Finmap.mem_erase,hpool.links_mem]
  · rw [hspends,parentsOf,hlinks]
    by_cases hxit : x = it
    · rw [if_pos hxit]
      exact iff_of_false (Finset.notMem_empty p) fun hand => hand.1.2.1 hxit
    · have hxs : x ∉ stage := fun hmem => hx (Finset.mem_erase.mpr ⟨hxit,hmem⟩)
      rw [if_neg hxit,← parentsOf,hpool.mem_parentsOf hxs,Finset.mem_erase]
      constructor
      · rintro ⟨hs,hp⟩
        exact ⟨⟨hs,hxit,fun hpit => hp (hpit ▸ hit)⟩,fun hmem => hp hmem.2⟩
      · rintro ⟨⟨hs,_,hpit⟩,hp⟩
        exact ⟨hs,fun hmem => hp ⟨hpit,hmem⟩⟩
  · rw [hspends,childrenOf,hlinks]
    by_cases hxit : x = it
    · rw [if_pos hxit]
      exact iff_of_false (Finset.notMem_empty c) fun hand => hand.1.2.2 hxit
    · have hxs : x ∉ stage := fun hmem => hx (Finset.mem_erase.mpr ⟨hxit,hmem⟩)
      rw [if_neg hxit,← childrenOf,hpool.mem_childrenOf hxs,Finset.mem_erase]
      constructor
      · rintro ⟨hs,hc⟩
        exact ⟨⟨hs,fun hcit => hc (hcit ▸ hit),hxit⟩,fun hmem => hc hmem.2⟩
      · rintro ⟨⟨hs,hcit,_⟩,hc⟩
        exact ⟨hs,fun hmem => hc ⟨hcit,hmem⟩⟩

theorem Consistent.removeStaged {stage : Finset Uint256} (hpool : pool.Consistent)
    (h : pool.removeStaged stage = .ok pool') : pool'.Consistent := by
  obtain ⟨m,hm,h⟩ := bind_ok.mp h
  have hsevered := hpool.updateForRemoveFromMempool_severed hm
  suffices hrun : ∀ (l : List Uint256) (stage : Finset Uint256) (p : CTxMemPool),
      l.Nodup → (∀ x, x ∈ l ↔ x ∈ stage) → p.Severed stage →
      l.foldlM CTxMemPool.removeUnchecked p = .ok pool' → pool'.Consistent from
    hrun _ stage m (hashOrder.nodup stage) (fun _ => hashOrder.mem_list) hsevered h
  intro l
  induction l with
  | nil =>
    intro stage p _ hmem hp hrun
    obtain rfl := foldlM_nil_ok.mp hrun
    have hempty : stage = ∅ := Finset.eq_empty_of_forall_notMem fun x hx => by
      simpa using (hmem x).mpr hx
    exact (hempty ▸ hp).consistent
  | cons it l ih =>
    intro stage p hnodup hmem hp hrun
    obtain ⟨q,hq,hrest⟩ := foldlM_cons_ok.mp hrun
    obtain ⟨hit,hnodup⟩ := List.nodup_cons.mp hnodup
    refine ih (stage.erase it) q hnodup (fun x => ?_)
      (hp.removeUnchecked ((hmem it).mp List.mem_cons_self) hq) hrest
    rw [Finset.mem_erase,← hmem x,List.mem_cons]
    constructor
    · exact fun hx => ⟨fun hxit => hit (hxit ▸ hx),.inr hx⟩
    · exact fun ⟨hne,hx⟩ => hx.resolve_left hne

omit [Crypto] in
theorem lookup_nextTx {tx : CTransaction} (hdistinct : (tx.vin.map CTxIn.prevout).Nodup)
    (m : Finmap fun _ : COutPoint => CInPoint) (o : COutPoint) (ip : CInPoint) :
    (nextTx tx m).lookup o = some ip ↔
      (∃ txin, ip.ptx = tx ∧ tx.vin[ip.n]? = some txin ∧ txin.prevout = o) ∨
      ((∀ txin ∈ tx.vin, txin.prevout ≠ o) ∧ m.lookup o = some ip) := by
  have hrun : ∀ (l : List (CTxIn × ℕ)) (m : Finmap fun _ : COutPoint => CInPoint),
      (l.map fun i => i.1.prevout).Nodup →
      ((l.foldl (fun m i => m.insert i.1.prevout ⟨tx,i.2⟩) m).lookup o = some ip ↔
        (∃ i ∈ l, i.1.prevout = o ∧ ip = ⟨tx,i.2⟩) ∨
        ((∀ i ∈ l, i.1.prevout ≠ o) ∧ m.lookup o = some ip)) := by
    intro l
    induction l with
    | nil => simp
    | cons i l ih =>
      intro m hnodup
      rw [List.map_cons,List.nodup_cons] at hnodup
      rw [List.foldl_cons,ih _ hnodup.2]
      by_cases ho : i.1.prevout = o
      · have hrest : ∀ j ∈ l, j.1.prevout ≠ o := fun j hj hjo =>
          hnodup.1 (List.mem_map.mpr ⟨j,hj,hjo.trans ho.symm⟩)
        subst ho
        rw [Finmap.lookup_insert,Option.some.injEq]
        constructor
        · rintro (⟨j,hj,hjo,_⟩ | ⟨_,hip⟩)
          · exact absurd hjo (hrest j hj)
          · exact .inl ⟨i,List.mem_cons_self,rfl,hip.symm⟩
        · rintro (⟨j,hj,hjo,hip⟩ | ⟨hall,_⟩)
          · rcases List.mem_cons.mp hj with rfl | hj
            · exact .inr ⟨hrest,hip.symm⟩
            · exact absurd hjo (hrest j hj)
          · exact absurd rfl (hall i List.mem_cons_self)
      · rw [Finmap.lookup_insert_of_ne _ (Ne.symm ho)]
        simp only [List.exists_mem_cons_iff,List.forall_mem_cons,ho,false_and,false_or,
          ne_eq,not_false_eq_true,true_and]
  have hmap : (tx.vin.zipIdx.map fun i => i.1.prevout) = tx.vin.map CTxIn.prevout := by
    rw [← Function.comp_def CTxIn.prevout Prod.fst,← List.map_map,List.zipIdx_map_fst]
  rw [nextTx,hrun _ m (hmap ▸ hdistinct)]
  refine or_congr ?_ (and_congr_left fun _ => ?_)
  · constructor
    · rintro ⟨⟨txin,n⟩,hi,ho,rfl⟩
      exact ⟨txin,rfl,List.mk_mem_zipIdx_iff_getElem?.mp hi,ho⟩
    · rintro ⟨txin,rfl,hn,ho⟩
      exact ⟨(txin,ip.n),List.mk_mem_zipIdx_iff_getElem?.mpr hn,ho,rfl⟩
  · constructor
    · intro hall txin htxin
      obtain ⟨n,hn⟩ := List.mem_iff_getElem?.mp htxin
      exact hall (txin,n) (List.mk_mem_zipIdx_iff_getElem?.mpr hn)
    · rintro hall ⟨txin,n⟩ hi
      exact hall txin (List.mem_of_getElem? (List.mk_mem_zipIdx_iff_getElem?.mp hi))

/-- A transaction that can be added to a pool without an entry to be unlinked or replaced. -/
structure Fits (pool : CTxMemPool) (tx : CTransaction) : Prop where
  isNew : tx.getHash ∉ pool.mapTx
  distinct : (tx.vin.map CTxIn.prevout).Nodup
  unspent : ∀ txin ∈ tx.vin, pool.mapNextTx.lookup txin.prevout = none
  acyclic : ∀ txin ∈ tx.vin, txin.prevout.hash ≠ tx.getHash
  childless : ∀ h tx', pool.lookup h = some tx' → ∀ txin ∈ tx'.vin,
    txin.prevout.hash ≠ tx.getHash

theorem addUnchecked_lookup {e : CTxMemPoolEntry} {setAncestors : Finset Uint256}
    (hnew : e.tx.getHash ∉ pool.mapTx) (hdelta : e.feeDelta = 0)
    (h : pool.addUnchecked e.tx.getHash e setAncestors = .ok pool') (k : Uint256) :
    pool'.lookup k = if k = e.tx.getHash then some e.tx else pool.lookup k := by
  rw [lookup_eq_contents,addUnchecked_contents hnew hdelta h]
  split_ifs with hk
  · rw [hk,Function.update_self]
    rfl
  · rw [Function.update_of_ne hk,← lookup_eq_contents]

omit [Crypto] in
theorem applyDelta_frame {hash newit : Uint256} (h : pool.applyDelta hash newit = .ok pool') :
    pool'.lookup = pool.lookup ∧ pool'.mapLinks = pool.mapLinks ∧
      pool'.mapNextTx = pool.mapNextTx := by
  unfold applyDelta at h
  split at h
  · cases h
    exact ⟨rfl,rfl,rfl⟩
  · split_ifs at h
    · obtain ⟨e,e',he,he',rfl⟩ := modify_contents h
      cases he'
      refine ⟨?_,rfl,rfl⟩
      funext k
      unfold lookup
      by_cases hk : k = newit
      · rw [hk,Finmap.lookup_insert,he]
        rfl
      · rw [Finmap.lookup_insert_of_ne _ hk]
    · cases h
      exact ⟨rfl,rfl,rfl⟩

section
variable {e : CTxMemPoolEntry} {setAncestors : Finset Uint256}

omit [Crypto] in
/-- The new entry is found while it is being added, with its transaction. -/
theorem applyDelta_entry {newit : Uint256} {m : CTxMemPool} {e' : CTxMemPoolEntry} {hash : Uint256}
    {mapLinks : Finmap fun _ : Uint256 => TxLinks} (hnew : newit ∉ pool.mapTx)
    (hm : applyDelta { pool with mapTx := insertNew pool.mapTx newit e, mapLinks } hash newit = .ok m)
    (he' : m.entry newit = .ok e') : e'.tx = e.tx := by
  have hfound := lookup_of_entry (entry_ok.mp he')
  have hinsert : insertNew pool.mapTx newit e = pool.mapTx.insert newit e := if_neg hnew
  rw [(applyDelta_frame hm).1,lookup,hinsert,Finmap.lookup_insert] at hfound
  exact (Option.some.inj hfound).symm

theorem addUnchecked_mapNextTx (hnew : e.tx.getHash ∉ pool.mapTx)
    (h : pool.addUnchecked e.tx.getHash e setAncestors = .ok pool') :
    pool'.mapNextTx = nextTx e.tx pool.mapNextTx := by
  obtain ⟨m,hm,h⟩ := bind_ok.mp h
  obtain ⟨e',he',h⟩ := bind_ok.mp h
  obtain ⟨last,hlast,h⟩ := bind_ok.mp h
  cases h
  have hparents := foldl_sameTxs (f := fun pool phash =>
    if phash ∈ pool.mapTx then pool.updateParent e.tx.getHash phash true else pool)
    (fun pool phash => by
      split_ifs
      · exact updateParent_sameTxs pool _ phash true
      · exact .refl pool)
  have hsame := (hparents _ _).trans (updateAncestorsOf_sameTxs hlast)
  rw [show last.mapNextTx = nextTx e'.tx m.mapNextTx from hsame.mapNextTx,applyDelta_entry hnew hm he',
    (applyDelta_frame hm).2.2]

/-- The links of a new entry are to the transactions it spends from, and theirs to it. -/
theorem Consistent.addUnchecked_hasLinks (hpool : pool.Consistent)
    (hnew : e.tx.getHash ∉ pool.mapTx)
    (h : pool.addUnchecked e.tx.getHash e setAncestors = .ok pool') :
    let parents (x p : Uint256) : Prop := (x = e.tx.getHash ∧
      (∃ txin ∈ e.tx.vin, txin.prevout.hash = p) ∧ (p = e.tx.getHash ∨ p ∈ pool.mapTx)) ∨
      pool.Spends x p
    HasLinks pool' (fun x => parents e.tx.getHash x ∨ x = e.tx.getHash ∨ x ∈ pool.mapTx) parents
      (fun x c => (parents e.tx.getHash x ∧ c = e.tx.getHash) ∨
        (¬ (parents e.tx.getHash x ∧ c = e.tx.getHash) ∧ pool.Spends c x)) := by
  obtain ⟨m,hm,h⟩ := bind_ok.mp h
  obtain ⟨e',he',h⟩ := bind_ok.mp h
  obtain ⟨last,hlast,h⟩ := bind_ok.mp h
  cases h
  obtain ⟨hlookup,hlinks,_⟩ := applyDelta_frame hm
  have hnolink : e.tx.getHash ∉ pool.mapLinks := fun hmem => hnew (hpool.links_mem.mp hmem)
  have hinsert : insertNew pool.mapTx e.tx.getHash e = pool.mapTx.insert e.tx.getHash e :=
    if_neg hnew
  have hlinks : m.mapLinks = pool.mapLinks.insert e.tx.getHash {} := hlinks.trans (if_neg hnolink)
  rw [hinsert] at hlookup
  have hat : ∀ x, linksAt m x = pool.linksAt x := by
    intro x
    rw [linksAt,linksAt,hlinks]
    by_cases hx : x = e.tx.getHash
    · rw [hx,Finmap.lookup_insert,Finmap.lookup_eq_none.mpr hnolink]
      rfl
    · rw [Finmap.lookup_insert_of_ne _ hx]
  have hbase : HasLinks m (fun x => x = e.tx.getHash ∨ x ∈ pool.mapTx)
      (fun x p => pool.Spends x p) (fun x c => pool.Spends c x) :=
    ⟨fun x => by rw [hlinks,Finmap.mem_insert,hpool.links_mem],
      fun x p => by rw [parentsOf,hat,← parentsOf,hpool.mem_parentsOf],
      fun x c => by rw [childrenOf,hat,← childrenOf,hpool.mem_childrenOf]⟩
  have hmem : ∀ p, p ∈ m.mapTx ↔ p = e.tx.getHash ∨ p ∈ pool.mapTx := by
    intro p
    rw [mem_iff_lookup,hlookup,← mem_iff_lookup]
    exact Finmap.mem_insert
  have htx := applyDelta_entry hnew hm he'
  have hnext : HasLinks { m with mapNextTx := nextTx e'.tx m.mapNextTx }
      (fun x => x = e.tx.getHash ∨ x ∈ pool.mapTx) (fun x p => pool.Spends x p)
      (fun x c => pool.Spends c x) := hbase.congr rfl
  have hparents := hnext.addParents
    (hashOrder.list (e'.tx.vin.map fun txin => txin.prevout.hash).toFinset) e.tx.getHash (.inl rfl)
  simp only [hashOrder.mem_list,List.mem_toFinset,List.mem_map,htx,hmem] at hparents
  rw [htx] at hlast
  have hfinal := hparents.updateAncestorsOf hlast
  exact HasLinks.congr ⟨hfinal.linked,hfinal.parents,fun x c => (hfinal.children x c).trans
    (or_congr_left (and_congr_right fun _ => and_iff_left rfl))⟩ rfl

theorem Consistent.addUnchecked (hpool : pool.Consistent) (hfits : pool.Fits e.tx)
    (hdelta : e.feeDelta = 0) (h : pool.addUnchecked e.tx.getHash e setAncestors = .ok pool') :
    pool'.Consistent := by
  have hlookup := addUnchecked_lookup hfits.isNew hdelta h
  have hlinks := hpool.addUnchecked_hasLinks hfits.isNew h
  have hmem : ∀ x, x ∈ pool'.mapTx ↔ x = e.tx.getHash ∨ x ∈ pool.mapTx := by
    intro x
    rw [mem_iff_lookup,hlookup,mem_iff_lookup]
    by_cases hx : x = e.tx.getHash <;> simp [hx]
  have hself : ∀ c, ¬ pool.Spends c e.tx.getHash := fun c hs => hfits.isNew hs.1
  have hnone : ∀ p, ¬ pool.Spends e.tx.getHash p := fun p ⟨_,_,htx,_⟩ =>
    hfits.isNew (mem_of_lookup htx)
  have hspends : ∀ c p, pool'.Spends c p ↔ (c = e.tx.getHash ∧
      (∃ txin ∈ e.tx.vin, txin.prevout.hash = p) ∧ (p = e.tx.getHash ∨ p ∈ pool.mapTx)) ∨
      pool.Spends c p := by
    intro c p
    rw [Spends,hmem,hlookup]
    by_cases hc : c = e.tx.getHash
    · rw [if_pos hc,hc]
      simp only [Option.some.injEq,exists_eq_left',true_and]
      exact ⟨fun hand => .inl ⟨hand.2,hand.1⟩,
        fun hor => (hor.resolve_right (hnone p)).symm⟩
    · rw [if_neg hc]
      constructor
      · rintro ⟨rfl | hp,tx,htx,txin,htxin,hhash⟩
        · exact absurd hhash (hfits.childless c tx htx txin htxin)
        · exact .inr ⟨hp,tx,htx,txin,htxin,hhash⟩
      · rintro (⟨hc',_⟩ | ⟨hp,hrest⟩)
        · exact absurd hc' hc
        · exact ⟨.inr hp,hrest⟩
  refine ⟨⟨fun hk => ?_,?_⟩,fun {x} => ?_,fun {x p} => ?_,fun {x c} => ?_⟩
  · rw [hlookup] at hk
    split_ifs at hk with hx
    · rw [← Option.some.inj hk,hx]
    · exact hpool.keyed hk
  · intro o ip
    rw [addUnchecked_mapNextTx hfits.isNew h,lookup_nextTx hfits.distinct]
    constructor
    · rintro (⟨txin,hptx,hn,ho⟩ | ⟨_,hnext⟩)
      · refine ⟨e.tx.getHash,?_,txin,hptx ▸ hn,ho⟩
        rw [hlookup,if_pos rfl,hptx]
      · obtain ⟨k,hk,txin,hn,ho⟩ := hpool.nextTx.mp hnext
        refine ⟨k,?_,txin,hn,ho⟩
        rw [hlookup,if_neg fun (hke : k = e.tx.getHash) => hfits.isNew (hke ▸ mem_of_lookup hk)]
        exact hk
    · rintro ⟨k,hk,txin,hn,ho⟩
      rw [hlookup] at hk
      split_ifs at hk
      · have hptx : ip.ptx = e.tx := (Option.some.inj hk).symm
        exact .inl ⟨txin,hptx,hptx ▸ hn,ho⟩
      · have hnext := hpool.nextTx.mpr ⟨k,hk,txin,hn,ho⟩
        refine .inr ⟨fun txin' htxin' ho' => ?_,hnext⟩
        rw [← ho',hfits.unspent txin' htxin'] at hnext
        cases hnext
  · rw [hlinks.linked,hmem]
    refine or_iff_right_of_imp ?_
    rintro (⟨_,_,hp⟩ | hs)
    · exact hp
    · exact absurd hs (hnone x)
  · rw [hlinks.parents,hspends]
  · rw [hlinks.children,hspends]
    constructor
    · rintro (⟨⟨_,hex,hx⟩ | hs,hc⟩ | ⟨_,hs⟩)
      · exact .inl ⟨hc,hex,hx⟩
      · exact absurd hs (hnone x)
      · exact .inr hs
    · rintro (⟨hc,hex,hx⟩ | hs)
      · exact .inl ⟨.inl ⟨rfl,hex,hx⟩,hc⟩
      · exact .inr ⟨fun hand => hnone x (hand.2 ▸ hs),hs⟩

end

theorem Consistent.empty : ({} : CTxMemPool).Consistent where
  keyed h := by cases h
  nextTx := by
    intro o ip
    refine iff_of_false (fun h => by cases h) ?_
    rintro ⟨_,h,_⟩
    cases h
  links_mem := .rfl
  mem_parentsOf := iff_of_false (Finset.notMem_empty _) fun h => Finmap.notMem_empty h.1
  mem_childrenOf := iff_of_false (Finset.notMem_empty _) fun h => Finmap.notMem_empty h.1

end CTxMemPool
end Sidechain
