import Sidechain.Mempool.AncestorVerdict
import Mathlib.Algebra.BigOperators.Pi
import Mathlib.Algebra.Order.BigOperators.Group.Finset

/-! What entries record of their descendants over runs of the pool. The records are kept by adding and
taking off the share of one entry at a time; they stay the number, the size and the fees of exactly
the descendants that there are, so that none of the assertions on the way fails. -/
namespace Sidechain
open Run Worklist

/-- What an entry records of itself and its descendants: their number, their size and their fees. -/
def CTxMemPoolEntry.recorded (e : CTxMemPoolEntry) : ℤ × ℤ × ℤ :=
  (e.nCountWithDescendants,e.nSizeWithDescendants,e.nModFeesWithDescendants)

/-- What an entry contributes to the record of an ancestor. -/
def CTxMemPoolEntry.share (e : CTxMemPoolEntry) : ℤ × ℤ × ℤ := (1,e.getTxSize,e.getModifiedFee)

theorem CTransaction.getSerializeSize_pos (tx : CTransaction) : 0 < tx.getSerializeSize := by
  simp only [getSerializeSize,serialize,List.length_append,serializeBits,leBytes_length]
  omega

theorem CTxMemPoolEntry.updateState_ok {e : CTxMemPoolEntry} {d : ℤ × ℤ × ℤ}
    (hdirty : e.recorded.1 ≠ 0) (hcount : 0 < (e.recorded + d).1)
    (hsize : 0 < (e.recorded + d).2.1) :
    ∃ e', e.updateState d.2.1 d.2.2 d.1 = .ok e' ∧ e'.recorded = e.recorded + d := by
  refine ⟨{ e with nCountWithDescendants := e.nCountWithDescendants + d.1
                   nSizeWithDescendants := e.nSizeWithDescendants + d.2.1
                   nModFeesWithDescendants := e.nModFeesWithDescendants + d.2.2 },?_,rfl⟩
  have hclean : e.isDirty = false := by simpa [isDirty,recorded] using hdirty
  have hcount : e.nCountWithDescendants + d.1 > 0 := hcount
  have hsize : e.nSizeWithDescendants + d.2.1 > 0 := hsize
  simp only [updateState,hclean,Bool.false_eq_true,if_false,require,if_pos hcount,if_pos hsize]
  rfl

/-- An entry as it is made: without a fee delta, and with a record of itself alone. -/
structure CTxMemPoolEntry.Fresh (e : CTxMemPoolEntry) : Prop where
  feeDelta : e.feeDelta = 0
  recorded : e.recorded = e.share

theorem CTxMemPoolEntry.Fresh.updateFeeDelta {e : CTxMemPoolEntry} (h : e.Fresh) (delta : ℤ) :
    (e.updateFeeDelta delta).recorded = (e.updateFeeDelta delta).share := by
  have hrecorded : e.nCountWithDescendants = 1 ∧ e.nSizeWithDescendants = e.getTxSize ∧
      e.nModFeesWithDescendants = e.getModifiedFee := by
    simpa [CTxMemPoolEntry.recorded,CTxMemPoolEntry.share] using h.recorded
  obtain ⟨hcount,hsize,hfees⟩ := hrecorded
  have hfees' : e.nModFeesWithDescendants + (delta - e.feeDelta) = e.nFee + delta := by
    rw [hfees,getModifiedFee,h.feeDelta,add_zero,sub_zero]
  exact Prod.ext hcount (Prod.ext hsize hfees')

theorem CTxMemPoolEntry.Fresh.updateFeeDelta_zero {e : CTxMemPoolEntry} (h : e.Fresh) :
    e.updateFeeDelta 0 = e := by
  have hzero : e.nModFeesWithDescendants + (0 - e.feeDelta) = e.nModFeesWithDescendants := by
    rw [h.feeDelta,sub_zero,add_zero]
  rw [CTxMemPoolEntry.updateFeeDelta,hzero,← h.feeDelta]

namespace CTxMemPool

def share (pool : CTxMemPool) (it : Uint256) : ℤ × ℤ × ℤ :=
  ((pool.contents it).map CTxMemPoolEntry.share).getD 0

/-- Every entry records what a table says. -/
def Records (pool : CTxMemPool) (table : Uint256 → ℤ × ℤ × ℤ) : Prop :=
  ∀ x e, pool.mapTx.lookup x = some e → e.recorded = table x

theorem share_of_lookup {pool : CTxMemPool} {x : Uint256} {e : CTxMemPoolEntry}
    (he : pool.mapTx.lookup x = some e) : pool.share x = e.share := by
  rw [share,contents_of_lookup he]
  rfl

theorem share_congr {pool pool' : CTxMemPool} (h : SameTxs pool pool') : pool'.share = pool.share := by
  funext x
  rw [share,share,h.contents]

theorem share_pos {pool : CTxMemPool} {x : Uint256} (hx : x ∈ pool.mapTx) :
    (pool.share x).1 = 1 ∧ 0 < (pool.share x).2.1 := by
  obtain ⟨e,he⟩ := Finmap.mem_iff.mp hx
  rw [share_of_lookup he]
  exact ⟨rfl,Int.natCast_pos.mpr e.tx.getSerializeSize_pos⟩

theorem share_nonneg (pool : CTxMemPool) (x : Uint256) :
    0 ≤ (pool.share x).1 ∧ 0 ≤ (pool.share x).2.1 := by
  by_cases hx : x ∈ pool.mapTx
  · have := share_pos hx
    omega
  · rw [share,contents,Finmap.lookup_eq_none.mpr hx]
    exact ⟨le_refl 0,le_refl 0⟩

theorem sum_share_pos {pool : CTxMemPool} {s : Finset Uint256} {x : Uint256} (hx : x ∈ s)
    (hmem : x ∈ pool.mapTx) :
    0 < (∑ d ∈ s, pool.share d).1 ∧ 0 < (∑ d ∈ s, pool.share d).2.1 := by
  have hpos := share_pos hmem
  rw [Prod.snd_sum,Prod.fst_sum,Prod.fst_sum]
  constructor
  · exact Finset.sum_pos' (fun d _ => (share_nonneg pool d).1) ⟨x,hx,by omega⟩
  · exact Finset.sum_pos' (fun d _ => (share_nonneg pool d).2) ⟨x,hx,hpos.2⟩

theorem Records.insert {pool pool' : CTxMemPool} {table : Uint256 → ℤ × ℤ × ℤ}
    (h : pool.Records table) {it : Uint256} {e : CTxMemPoolEntry}
    (hmap : pool'.mapTx = pool.mapTx.insert it e) :
    pool'.Records fun x => if x = it then e.recorded else table x := by
  intro x a ha
  rw [hmap] at ha
  dsimp only
  split_ifs with hx
  · rw [hx,Finmap.lookup_insert] at ha
    cases ha
    rfl
  · rw [Finmap.lookup_insert_of_ne _ hx] at ha
    exact h x a ha

theorem Records.update {pool : CTxMemPool} {table : Uint256 → ℤ × ℤ × ℤ} (h : pool.Records table)
    {l : List Uint256} (hnodup : l.Nodup) (hmem : ∀ x ∈ l, x ∈ pool.mapTx) {d : ℤ × ℤ × ℤ}
    (hpos : ∀ x ∈ l, (table x).1 ≠ 0 ∧ 0 < (table x + d).1 ∧ 0 < (table x + d).2.1) :
    ∃ pool', l.foldlM (fun pool it => pool.modify it fun a =>
        a.updateState d.2.1 d.2.2 d.1) pool = .ok pool' ∧
      pool'.Records fun x => if x ∈ l then table x + d else table x := by
  induction l generalizing pool table with
  | nil => exact ⟨pool,rfl,by simpa using h⟩
  | cons it l ih =>
    obtain ⟨hnot,hnodup⟩ := List.nodup_cons.mp hnodup
    obtain ⟨e,he⟩ := Finmap.mem_iff.mp (hmem it List.mem_cons_self)
    obtain ⟨hdirty,hcount,hsize⟩ := hpos it List.mem_cons_self
    rw [← h it e he] at hdirty hcount hsize
    obtain ⟨e',hstate,hrecorded⟩ := e.updateState_ok hdirty hcount hsize
    let m : CTxMemPool := { pool with mapTx := pool.mapTx.insert it e' }
    have hm : pool.modify it (fun a => a.updateState d.2.1 d.2.2 d.1) = .ok m :=
      bind_ok.mpr ⟨e,entry_ok.mpr he,bind_ok.mpr ⟨e',hstate,rfl⟩⟩
    have hne : ∀ x ∈ l, x ≠ it := fun x hx hxit => hnot (hxit ▸ hx)
    have hinsert : m.Records _ := h.insert rfl
    obtain ⟨pool',hrun,hrecords⟩ := ih hinsert hnodup
      (fun x hx => Finmap.mem_insert.mpr (.inr (hmem x (List.mem_cons_of_mem it hx))))
      (fun x hx => by
        rw [if_neg (hne x hx)]
        exact hpos x (List.mem_cons_of_mem it hx))
    refine ⟨pool',foldlM_cons_ok.mpr ⟨m,hm,hrun⟩,fun x a ha => (hrecords x a ha).trans ?_⟩
    dsimp only
    by_cases hx : x = it
    · rw [hx,if_neg hnot,if_pos rfl,if_pos List.mem_cons_self,hrecorded,h it e he]
    · by_cases hl : x ∈ l <;> simp [hx,hl]

/-- The share of an entry is added to its ancestors or taken off them. -/
def signed (add : Bool) (d : ℤ × ℤ × ℤ) : ℤ × ℤ × ℤ := if add then d else -d

theorem Records.congr {pool pool' : CTxMemPool} {table : Uint256 → ℤ × ℤ × ℤ}
    (h : pool.Records table) (hsame : pool'.mapTx = pool.mapTx) : pool'.Records table :=
  fun x e he => h x e (hsame ▸ he)

theorem Records.updateAncestorsOf {pool : CTxMemPool} {table : Uint256 → ℤ × ℤ × ℤ}
    (h : pool.Records table) {it : Uint256} {e : CTxMemPoolEntry}
    (he : pool.mapTx.lookup it = some e) (hlinked : it ∈ pool.mapLinks) {ancestors : Finset Uint256}
    (hmem : ∀ x ∈ ancestors, x ∈ pool.mapTx) (add : Bool)
    (hpos : ∀ x ∈ ancestors, (table x).1 ≠ 0 ∧ 0 < (table x + signed add e.share).1 ∧
      0 < (table x + signed add e.share).2.1) :
    ∃ pool', pool.updateAncestorsOf add it ancestors = .ok pool' ∧
      pool'.Records fun x => if x ∈ ancestors then table x + signed add e.share else table x := by
  obtain ⟨l,hl⟩ := Finmap.mem_iff.mp hlinked
  have hparents : pool.getMemPoolParents it = .ok l.parents := map_ok.mpr ⟨l,links_ok.mpr hl,rfl⟩
  have hmap : ((hashOrder.list l.parents).foldl (fun pool piter => pool.updateChild piter it add)
      pool).mapTx = pool.mapTx :=
    List.foldlRecOn (motive := fun m : CTxMemPool => m.mapTx = pool.mapTx) _ _ rfl fun _ hm _ _ => hm
  obtain ⟨pool',hrun,hrecords⟩ := (h.congr hmap).update (hashOrder.nodup ancestors)
    (fun x hx => hmap ▸ hmem x (hashOrder.mem_list.mp hx))
    (fun x hx => hpos x (hashOrder.mem_list.mp hx))
  refine ⟨pool',bind_ok.mpr ⟨_,hparents,bind_ok.mpr ⟨e,entry_ok.mpr (hmap ▸ he),?_⟩⟩,?_⟩
  · cases add <;> simpa [signed,CTxMemPoolEntry.share] using hrun
  · simpa only [hashOrder.mem_list] using hrecords

theorem addAncestors_free (done : Finset Uint256) (l : List Uint256) (s : Finset Uint256) :
    ∃ s', l.foldlM (addAncestor {} done) s = .ok s' := by
  rcases addAncestors_spec {} done s l with ⟨s',hs',_⟩ | ⟨_,_,_,_,hover⟩
  · exact ⟨s',hs'⟩
  · cases hover

/-- A walk without limits finds all ancestors by the links to parents, whatever else of the pool is
not up to date. -/
theorem ancestorsLoop_free {pool : CTxMemPool} (hlinked : ∀ x ∈ pool.mapTx, x ∈ pool.mapLinks)
    (hsub : ∀ x, pool.parentsOf x ⊆ pool.mapTx.keys) {start stage done : Finset Uint256}
    (hstart : start ⊆ pool.mapTx.keys) (hf : Frontier pool.parentsOf ∅ start stage done)
    {fuel : ℕ} (hfuel : (pool.mapTx.keys \ done).card ≤ fuel) (nTxSize : ℕ) (total : ℤ) :
    ∃ s, pool.ancestorsLoop {} nTxSize fuel stage done total = .ok ⟨s,none⟩ ∧
      Frontier pool.parentsOf ∅ start ∅ s := by
  have huniv := hf.subset (Finset.empty_subset _) hstart fun x _ => hsub x
  induction fuel generalizing stage done total with
  | zero => exact ⟨done,rfl,hf.exhausted huniv (by omega) ▸ hf⟩
  | succ fuel ih =>
    unfold ancestorsLoop
    cases hlist : hashOrder.list stage with
    | nil => exact ⟨done,rfl,Enumeration.list_nil hlist ▸ hf⟩
    | cons it rest =>
      have hit := Enumeration.mem_of_head hlist
      have hmem := Finmap.mem_keys.mp (huniv (Finset.mem_union_left _ hit))
      have hlt := hf.card_lt huniv hit
      obtain ⟨e,he⟩ := Finmap.mem_iff.mp hmem
      obtain ⟨l,hl⟩ := Finmap.mem_iff.mp (hlinked it hmem)
      have hparents : pool.parentsOf it = l.parents := by rw [parentsOf,linksAt_eq hl]
      obtain ⟨next,hnext⟩ := addAncestors_free (insert it done) (hashOrder.list l.parents)
        (stage.erase it)
      have hafter : next = after (pool.parentsOf it) it stage done := by
        ext x
        rw [addAncestor_foldlM hnext,mem_after,hashOrder.mem_list,hparents]
        simp
      obtain ⟨s,hs,hfin⟩ := ih (hf.step hit) (by omega) (total + e.getTxSize)
        ((hf.step hit).subset (Finset.empty_subset _) hstart fun x _ => hsub x)
      refine ⟨s,bind_ok.mpr ⟨e,entry_ok.mpr he,?_⟩,hfin⟩
      refine bind_ok.mpr ⟨l.parents,map_ok.mpr ⟨l,links_ok.mpr hl,rfl⟩,?_⟩
      rw [hnext,hafter]
      exact hs

theorem linkedMemPoolAncestors_spec {pool : CTxMemPool}
    (hlinked : ∀ x ∈ pool.mapTx, x ∈ pool.mapLinks)
    (hsub : ∀ x, pool.parentsOf x ⊆ pool.mapTx.keys) {it : Uint256} (hit : it ∈ pool.mapTx) :
    ∃ s, pool.linkedMemPoolAncestors it = .ok s ∧
      ∀ x, x ∈ s ↔ ∃ p ∈ pool.parentsOf it, Reaches pool.parentsOf p x := by
  obtain ⟨e,he⟩ := Finmap.mem_iff.mp hit
  obtain ⟨l,hl⟩ := Finmap.mem_iff.mp (hlinked it hit)
  have hparents : pool.parentsOf it = l.parents := by rw [parentsOf,linksAt_eq hl]
  have hinit : Frontier pool.parentsOf ∅ (pool.parentsOf it) (pool.parentsOf it \ ∅) ∅ :=
    Frontier.init (by simp)
  rw [Finset.sdiff_empty] at hinit
  obtain ⟨s,hs,hfin⟩ := ancestorsLoop_free hlinked hsub (hsub it) hinit
    (Finset.card_le_card Finset.sdiff_subset) e.getTxSize e.getTxSize
  refine ⟨s,bind_ok.mpr ⟨e,entry_ok.mpr he,bind_ok.mpr ⟨l.parents,map_ok.mpr
    ⟨l,links_ok.mpr hl,rfl⟩,bind_ok.mpr ⟨⟨s,none⟩,hparents ▸ hs,rfl⟩⟩⟩,fun x => ?_⟩
  rw [hfin.finish x]
  simp

theorem Records.of_eq {pool : CTxMemPool} {table table' : Uint256 → ℤ × ℤ × ℤ}
    (h : pool.Records table) (heq : ∀ x ∈ pool.mapTx, table x = table' x) : pool.Records table' :=
  fun x e he => (h x e he).trans (heq x (Finmap.mem_of_lookup_eq_some he))

variable [Crypto] {pool pool' : CTxMemPool}

/-- The pool as `check` wants it, with records that are exact and without cycles. -/
structure Tallied (pool : CTxMemPool) : Prop extends pool.Consistent where
  acyclic : Acyclic pool.childrenOf
  records : pool.Records fun x => ∑ d ∈ pool.descendantsOf x, pool.share d
  deltas : ∀ {x e}, pool.contents x = some e → e.feeDelta = (pool.mapDeltas.lookup x).getD 0
  total : pool.totalTxSize = ∑ x ∈ pool.mapTx.keys, (pool.share x).2.1

omit [Crypto] in
open Classical in
theorem mem_descendantsOf {x d : Uint256} :
    d ∈ pool.descendantsOf x ↔ d ∈ pool.mapTx ∧ Reaches pool.childrenOf x d :=
  Finset.mem_filter.trans (and_congr_left' Finmap.mem_keys)

omit [Crypto] in
theorem self_mem_descendantsOf {x : Uint256} (hx : x ∈ pool.mapTx) : x ∈ pool.descendantsOf x :=
  mem_descendantsOf.mpr ⟨hx,.refl x⟩

section
variable (hpool : pool.Tallied)
include hpool

theorem Tallied.ancestor_iff {r x : Uint256} (hr : r ∈ pool.mapTx) :
    (∃ p ∈ pool.parentsOf r, Reaches pool.parentsOf p x) ↔ x ≠ r ∧ r ∈ pool.descendantsOf x := by
  have hchild : ∀ {p c}, c ∈ pool.childrenOf p ↔ p ∈ pool.parentsOf c := fun {_ _} =>
    hpool.mem_childrenOf.trans hpool.mem_parentsOf.symm
  constructor
  · rintro ⟨p,hp,hreach⟩
    have hdown : Reaches pool.childrenOf x p := hreach.swap fun _ _ hc => hchild.mpr hc
    refine ⟨?_,mem_descendantsOf.mpr ⟨hr,hdown.tail (hchild.mpr hp)⟩⟩
    rintro rfl
    exact hpool.acyclic p x (hchild.mpr hp) hdown
  · rintro ⟨hne,hd⟩
    rcases Relation.ReflTransGen.cases_tail (mem_descendantsOf.mp hd).2 with heq | ⟨p,hdown,hp⟩
    · exact absurd heq.symm hne
    · exact ⟨p,hchild.mp hp,hpool.reaches_parentsOf hdown⟩

theorem Tallied.mem_of_descendant {x d : Uint256} (hd : d ∈ pool.descendantsOf x) :
    x ∈ pool.mapTx := by
  obtain ⟨hin,hreach⟩ := mem_descendantsOf.mp hd
  rcases Relation.ReflTransGen.cases_head hreach with heq | ⟨c,hc,_⟩
  · exact heq ▸ hin
  · exact (hpool.mem_childrenOf.mp hc).1

/-- While entries are taken out, those that have been seen no longer count for their ancestors. -/
noncomputable def remaining (pool : CTxMemPool) (seen : Finset Uint256) (x : Uint256) :
    Finset Uint256 := pool.descendantsOf x \ seen.erase x

omit [Crypto] hpool in
theorem self_mem_remaining {x : Uint256} (hx : x ∈ pool.mapTx) (seen : Finset Uint256) :
    x ∈ pool.remaining seen x :=
  Finset.mem_sdiff.mpr ⟨self_mem_descendantsOf hx,Finset.notMem_erase x seen⟩

omit [Crypto] hpool in
theorem remaining_insert (seen : Finset Uint256) (r x : Uint256) :
    pool.remaining (insert r seen) x =
      if x = r then pool.remaining seen x else (pool.remaining seen x).erase r := by
  ext d
  split_ifs with hx
  · simp only [remaining,Finset.mem_sdiff,Finset.mem_erase,Finset.mem_insert,hx]
    tauto
  · simp only [remaining,Finset.mem_sdiff,Finset.mem_erase,Finset.mem_insert]
    constructor
    · rintro ⟨hd,hnot⟩
      refine ⟨fun hdr => hnot ⟨fun hdx => hx (hdx ▸ hdr),.inl hdr⟩,hd,fun hand => ?_⟩
      exact hnot ⟨hand.1,.inr hand.2⟩
    · rintro ⟨hdr,hd,hnot⟩
      exact ⟨hd,fun hand => hnot ⟨hand.1,hand.2.resolve_left hdr⟩⟩

/-- The first loop of a removal takes the share of each entry off all its ancestors. -/
theorem Tallied.cutAncestors {l : List Uint256} (hnodup : l.Nodup) (hl : ∀ r ∈ l, r ∈ pool.mapTx) :
    ∃ m, l.foldlM (fun pool removeIt => do
        let setAncestors ← pool.linkedMemPoolAncestors removeIt
        pool.updateAncestorsOf false removeIt setAncestors) pool = .ok m ∧ SameTxs pool m ∧
      m.Records fun x => ∑ d ∈ pool.remaining l.toFinset x, pool.share d := by
  induction l using List.reverseRecOn with
  | nil =>
    refine ⟨pool,rfl,.refl pool,?_⟩
    simpa [remaining] using hpool.records
  | append_singleton l r ih =>
    have hr : r ∈ pool.mapTx := hl r (by simp)
    have hfresh : r ∉ l.toFinset := by
      rw [List.mem_toFinset]
      exact fun hmem => (List.nodup_append.mp hnodup).2.2 r hmem r (by simp) rfl
    obtain ⟨m,hm,hsame,hrecords⟩ := ih hnodup.of_append_left
      fun x hx => hl x (List.mem_append_left _ hx)
    have hlinks := hpool.severChildren hm
    have hparents : m.parentsOf = pool.parentsOf := by
      funext x
      ext p
      rw [hlinks.parents,hpool.mem_parentsOf]
    have hlinked : ∀ x ∈ m.mapTx, x ∈ m.mapLinks := fun x hx =>
      (hlinks.linked x).mpr (hsame.mem_iff.mp hx)
    have hsub : ∀ x, m.parentsOf x ⊆ m.mapTx.keys := fun x p hp =>
      Finmap.mem_keys.mpr (hsame.mem_iff.mpr ((hlinks.parents x p).mp hp).1)
    have hrm : r ∈ m.mapTx := hsame.mem_iff.mpr hr
    obtain ⟨s,hs,hmem⟩ := linkedMemPoolAncestors_spec hlinked hsub hrm
    rw [hparents] at hmem
    have hancestor : ∀ x, x ∈ s ↔ x ≠ r ∧ r ∈ pool.descendantsOf x := fun x =>
      (hmem x).trans (hpool.ancestor_iff hr)
    obtain ⟨e,he⟩ := Finmap.mem_iff.mp hrm
    have hshare : e.share = pool.share r := by rw [← share_of_lookup he,share_congr hsame]
    have hpool' : ∀ x ∈ s, x ∈ pool.mapTx := fun x hx =>
      hpool.mem_of_descendant ((hancestor x).mp hx).2
    -- what an ancestor records without the share is what it records of the others
    have hoff : ∀ x ∈ s, (∑ d ∈ pool.remaining l.toFinset x, pool.share d) + signed false e.share =
        ∑ d ∈ pool.remaining (insert r l.toFinset) x, pool.share d := by
      intro x hx
      obtain ⟨hne,hd⟩ := (hancestor x).mp hx
      have hin : r ∈ pool.remaining l.toFinset x :=
        Finset.mem_sdiff.mpr ⟨hd,fun hmem => hfresh (Finset.mem_of_mem_erase hmem)⟩
      rw [remaining_insert,if_neg hne,Finset.sum_erase_eq_sub hin,hshare,sub_eq_add_neg]
      rfl
    obtain ⟨m',hm',hrecords'⟩ := hrecords.updateAncestorsOf he (hlinked r hrm)
      (fun x hx => hsame.mem_iff.mpr (hpool' x hx)) false (fun x hx => by
        have hself := fun seen => sum_share_pos (self_mem_remaining (hpool' x hx) seen) (hpool' x hx)
        rw [hoff x hx]
        exact ⟨(hself l.toFinset).1.ne',hself (insert r l.toFinset)⟩)
    refine ⟨m',foldlM_append_ok.mpr ⟨m,hm,foldlM_singleton_ok.mpr (bind_ok.mpr ⟨s,hs,hm'⟩)⟩,
      hsame.trans (updateAncestorsOf_sameTxs hm'),hrecords'.of_eq fun x hx => ?_⟩
    have hset : (l ++ [r]).toFinset = insert r l.toFinset := by
      ext d
      simp
    rw [hset]
    split_ifs with hxs
    · exact hoff x hxs
    · rw [remaining_insert]
      split_ifs with hxr
      · rfl
      · rw [Finset.erase_eq_of_notMem]
        exact fun hmem => hxs ((hancestor x).mpr ⟨hxr,(Finset.mem_sdiff.mp hmem).1⟩)

omit [Crypto] hpool in
/-- The second loop only cuts links. -/
theorem foldlM_updateChildrenForRemoval {l : List Uint256}
    (hl : ∀ r ∈ l, r ∈ pool.mapLinks) : ∃ m, l.foldlM updateChildrenForRemoval pool = .ok m ∧
      m.mapTx = pool.mapTx := by
  induction l generalizing pool with
  | nil => exact ⟨pool,rfl,rfl⟩
  | cons r l ih =>
    obtain ⟨links,hlinks⟩ := Finmap.mem_iff.mp (hl r List.mem_cons_self)
    let q : CTxMemPool := (hashOrder.list links.children).foldl (fun p c => p.updateParent c r false) pool
    have hq : ∀ x ∈ l, x ∈ q.mapLinks := fun x hx =>
      List.foldlRecOn (motive := fun m : CTxMemPool => x ∈ m.mapLinks) _ _ (hl x (List.mem_cons_of_mem r hx))
        fun _ hm _ _ => mem_links_updateParent.mpr (.inr hm)
    obtain ⟨m,hm,hmap⟩ := ih hq
    refine ⟨m,foldlM_cons_ok.mpr ⟨_,bind_ok.mpr ⟨links.children,map_ok.mpr
      ⟨links,links_ok.mpr hlinks,rfl⟩,rfl⟩,hm⟩,hmap.trans ?_⟩
    exact List.foldlRecOn (motive := fun m : CTxMemPool => m.mapTx = pool.mapTx) _ _ rfl fun _ hm _ _ => hm

omit [Crypto] hpool in
/-- The third loop takes the entries out. -/
theorem foldlM_removeUnchecked {l : List Uint256} (hnodup : l.Nodup)
    (hl : ∀ r ∈ l, r ∈ pool.mapTx) : ∃ m, l.foldlM removeUnchecked pool = .ok m ∧
      (∀ x, m.mapTx.lookup x = if x ∈ l then none else pool.mapTx.lookup x) ∧
      m.totalTxSize = pool.totalTxSize - ∑ r ∈ l.toFinset, (pool.share r).2.1 := by
  induction l generalizing pool with
  | nil => exact ⟨pool,rfl,by simp,by simp⟩
  | cons r l ih =>
    obtain ⟨hnot,hnodup⟩ := List.nodup_cons.mp hnodup
    obtain ⟨e,he⟩ := Finmap.mem_iff.mp (hl r List.mem_cons_self)
    have hne : ∀ x ∈ l, x ≠ r := fun x hx hxr => hnot (hxr ▸ hx)
    obtain ⟨q,hq⟩ : ∃ q, pool.removeUnchecked r = .ok q := ⟨_,bind_ok.mpr ⟨e,entry_ok.mpr he,rfl⟩⟩
    have hqmap : q.mapTx = pool.mapTx.erase r ∧ q.totalTxSize = pool.totalTxSize - e.getTxSize := by
      obtain ⟨e',he',hq⟩ := bind_ok.mp hq
      cases hq
      rw [entry_ok,he] at he'
      cases he'
      exact ⟨rfl,rfl⟩
    have hin : ∀ x ∈ l, x ∈ q.mapTx := fun x hx => by
      rw [hqmap.1]
      exact Finmap.mem_erase.mpr ⟨hne x hx,hl x (List.mem_cons_of_mem r hx)⟩
    obtain ⟨m,hm,hlookup,htotal⟩ := ih hnodup hin
    refine ⟨m,foldlM_cons_ok.mpr ⟨q,hq,hm⟩,fun x => ?_,?_⟩
    · rw [hlookup,hqmap.1]
      by_cases hx : x = r
      · rw [hx,if_neg hnot,if_pos List.mem_cons_self,Finmap.lookup_erase]
      · simp [hx,Finmap.lookup_erase_ne hx]
    · have hshare : ∀ x ∈ l.toFinset, (q.share x).2.1 = (pool.share x).2.1 := fun x hx => by
        rw [share,removeUnchecked_contents hq,
          Function.update_of_ne (hne x (List.mem_toFinset.mp hx)),share]
      rw [htotal,hqmap.2,List.toFinset_cons,Finset.sum_insert (by simpa using hnot),
        Finset.sum_congr rfl hshare,share_of_lookup he]
      exact sub_sub _ _ _

omit hpool [Crypto] in
theorem removeStaged_mem {stage : Finset Uint256} (h : pool.removeStaged stage = .ok pool')
    (x : Uint256) : x ∈ pool'.mapTx ↔ x ∈ pool.mapTx ∧ x ∉ stage := by
  rw [mem_iff_contents,removeStaged_contents h,mem_iff_contents]
  by_cases hx : x ∈ stage <;> simp [hx]

omit hpool in
/-- The other entries with the links between them are left. -/
theorem Consistent.removeStaged_childrenOf {stage : Finset Uint256} (hpool : pool.Consistent)
    (h : pool.removeStaged stage = .ok pool') (x c : Uint256) :
    c ∈ pool'.childrenOf x ↔ c ∈ pool.childrenOf x ∧ x ∉ stage ∧ c ∉ stage := by
  rw [(hpool.removeStaged h).mem_childrenOf,hpool.mem_childrenOf,Spends,Spends,removeStaged_mem h,
    lookup_eq_contents,lookup_eq_contents,removeStaged_contents h]
  by_cases hx : x ∈ stage <;> by_cases hc : c ∈ stage <;> simp [hx,hc]

/-- Entries are removed with exact records of the others, as long as none of these descends from
another one through what is removed. -/
theorem Tallied.removeStaged {stage : Finset Uint256} (hstage : stage ⊆ pool.mapTx.keys)
    (hconvex : ∀ a ∉ stage, ∀ r ∈ stage, ∀ b ∉ stage, Reaches pool.childrenOf a r →
      ¬ Reaches pool.childrenOf r b) :
    ∃ pool', pool.removeStaged stage = .ok pool' ∧ pool'.Tallied := by
  have hlist : (hashOrder.list stage).toFinset = stage := by
    ext x
    rw [List.mem_toFinset,hashOrder.mem_list]
  have hl : ∀ r ∈ hashOrder.list stage, r ∈ pool.mapTx := fun r hr =>
    Finmap.mem_keys.mp (hstage (hashOrder.mem_list.mp hr))
  obtain ⟨m₁,hm₁,hsame₁,hrecords⟩ := hpool.cutAncestors (hashOrder.nodup stage) hl
  have hlinks := hpool.severChildren hm₁
  obtain ⟨m₂,hm₂,hmap⟩ := foldlM_updateChildrenForRemoval
    fun r hr => (hlinks.linked r).mpr (hl r hr)
  have hcut : pool.updateForRemoveFromMempool stage = .ok m₂ := bind_ok.mpr ⟨m₁,hm₁,hm₂⟩
  have hsame := updateForRemoveFromMempool_sameTxs hcut
  obtain ⟨pool',hrun,hlookup,htotal⟩ := foldlM_removeUnchecked (hashOrder.nodup stage)
    fun r hr => hsame.mem_iff.mpr (hl r hr)
  have hremove : pool.removeStaged stage = .ok pool' := bind_ok.mpr ⟨m₂,hcut,hrun⟩
  have hcontents := removeStaged_contents hremove
  have hedge := hpool.toConsistent.removeStaged_childrenOf hremove
  have hmem := removeStaged_mem hremove
  have hshare : ∀ x, x ∉ stage → pool'.share x = pool.share x := fun x hx => by
    rw [share,hcontents,if_neg hx,share]
  refine ⟨pool',hremove,hpool.toConsistent.removeStaged hremove,hpool.acyclic.remove hedge,
    fun x e he => ?_,fun {x e} he => ?_,?_⟩
  · have hx := (hmem x).mp (Finmap.mem_of_lookup_eq_some he)
    rw [hlookup,if_neg (fun hmem => hx.2 (hashOrder.mem_list.mp hmem)),hmap] at he
    have hdesc : pool'.descendantsOf x = pool.remaining stage x := by
      ext d
      rw [remaining,Finset.erase_eq_of_notMem hx.2,Finset.mem_sdiff,mem_descendantsOf,
        mem_descendantsOf,hmem,reaches_remove hedge hx.2 fun r hr b hb => hconvex x hx.2 r hr b hb]
      tauto
    rw [hrecords x e he,hlist]
    dsimp only
    rw [hdesc]
    refine Finset.sum_congr rfl fun d hd => (hshare d ?_).symm
    rw [remaining,Finset.erase_eq_of_notMem hx.2] at hd
    exact (Finset.mem_sdiff.mp hd).2
  · rw [hcontents] at he
    rw [removeStaged_mapDeltas hremove]
    split_ifs at he
    exact hpool.deltas he
  · have hkeys : pool'.mapTx.keys = pool.mapTx.keys \ stage := by
      ext x
      rw [Finmap.mem_keys,hmem,Finset.mem_sdiff,Finmap.mem_keys]
    rw [htotal,hlist,share_congr hsame,hsame.totalTxSize,hpool.total,hkeys,
      ← Finset.sum_sdiff hstage,add_sub_cancel_right]
    exact Finset.sum_congr rfl fun x hx => by rw [hshare x (Finset.mem_sdiff.mp hx).2]

end

section
variable {e : CTxMemPoolEntry} {setAncestors : Finset Uint256}

omit [Crypto] in
theorem applyDelta_total {hash : Uint256} {mapLinks : Finmap fun _ : Uint256 => TxLinks}
    (he : e.Fresh) (hnew : hash ∉ pool.mapTx) :
    applyDelta { pool with mapTx := insertNew pool.mapTx hash e, mapLinks } hash hash =
      .ok { pool with mapTx := pool.mapTx.insert hash
                        (e.updateFeeDelta ((pool.mapDeltas.lookup hash).getD 0)), mapLinks } := by
  have hinsert : insertNew pool.mapTx hash e = pool.mapTx.insert hash e := if_neg hnew
  unfold applyDelta
  dsimp only
  cases pool.mapDeltas.lookup hash with
  | none => rw [hinsert,Option.getD_none,he.updateFeeDelta_zero]
  | some delta =>
    dsimp only
    split_ifs with hdelta
    · refine bind_ok.mpr ⟨e,entry_ok.mpr ?_,bind_ok.mpr ⟨_,rfl,?_⟩⟩
      · rw [hinsert,Finmap.lookup_insert]
      · rw [hinsert,Finmap.insert_insert]
        rfl
    · rw [not_not.mp hdelta,Option.getD_some,he.updateFeeDelta_zero,hinsert]

/-- Nothing that is asserted while an entry is added fails; its share is added to the records of its
ancestors. -/
theorem addUnchecked_ok (he : e.Fresh) (hnew : e.tx.getHash ∉ pool.mapTx)
    (hsub : ∀ x ∈ setAncestors, x ∈ pool.mapTx) {table : Uint256 → ℤ × ℤ × ℤ}
    (hrecords : pool.Records table) (hpos : ∀ x ∈ setAncestors, 0 < (table x).1 ∧ 0 < (table x).2.1) :
    let new := e.updateFeeDelta ((pool.mapDeltas.lookup e.tx.getHash).getD 0)
    ∃ pool', pool.addUnchecked e.tx.getHash e setAncestors = .ok pool' ∧
      pool'.mapDeltas = pool.mapDeltas ∧ pool'.totalTxSize = pool.totalTxSize + e.getTxSize ∧
      pool'.Records fun x => if x ∈ setAncestors then table x + new.share
        else if x = e.tx.getHash then new.share else table x := by
  intro new
  let hash := e.tx.getHash
  let m : CTxMemPool := { pool with mapTx := pool.mapTx.insert hash new
                                    mapLinks := insertNew pool.mapLinks hash {} }
  let parents := (e.tx.vin.map fun txin => txin.prevout.hash).toFinset
  let addParent (pool : CTxMemPool) (phash : Uint256) : CTxMemPool :=
    if phash ∈ pool.mapTx then pool.updateParent hash phash true else pool
  let linked := (hashOrder.list parents).foldl addParent
    { m with mapNextTx := nextTx e.tx m.mapNextTx }
  have hmap : linked.mapTx = pool.mapTx.insert hash new := by
    refine List.foldlRecOn (motive := fun m : CTxMemPool => m.mapTx = _) _ _ rfl fun m hm phash _ => ?_
    dsimp only [addParent]
    split_ifs <;> exact hm
  have hsame : SameTxs { m with mapNextTx := nextTx e.tx m.mapNextTx } linked :=
    foldl_sameTxs (fun pool phash => by
      dsimp only [addParent]
      split_ifs
      · exact updateParent_sameTxs pool hash phash true
      · exact .refl pool) _ _
  have hmem : hash ∈ linked.mapLinks := by
    refine List.foldlRecOn (motive := fun m : CTxMemPool => hash ∈ m.mapLinks) _ _ ?_ fun m hm phash _ => ?_
    · change hash ∈ insertNew pool.mapLinks hash {}
      unfold insertNew
      split_ifs with hin
      · exact hin
      · exact Finmap.mem_insert.mpr (.inl rfl)
    · dsimp only [addParent]
      split_ifs
      · exact mem_links_updateParent.mpr (.inr hm)
      · exact hm
  have hold : linked.Records fun x => if x = hash then new.share else table x :=
    he.updateFeeDelta _ ▸ hrecords.insert hmap
  have hne : ∀ x ∈ setAncestors, x ≠ e.tx.getHash := fun x hx hxh => hnew (hxh ▸ hsub x hx)
  have hlookup : linked.mapTx.lookup hash = some new := by
    rw [hmap,Finmap.lookup_insert]
  obtain ⟨last,hlast,hfinal⟩ := hold.updateAncestorsOf hlookup hmem
    (fun x (hx : x ∈ setAncestors) => hmap ▸ Finmap.mem_insert.mpr (.inr (hsub x hx))) true (fun x hx => by
      obtain ⟨hcount,hsize⟩ := hpos x hx
      have hshare : 0 < new.share.2.1 := Int.natCast_pos.mpr new.tx.getSerializeSize_pos
      rw [if_neg (hne x hx)]
      exact ⟨hcount.ne',add_pos hcount one_pos,add_pos hsize hshare⟩)
  have hrest := hsame.trans (updateAncestorsOf_sameTxs hlast)
  refine ⟨{ last with totalTxSize := last.totalTxSize + e.getTxSize },?_,hrest.mapDeltas,
    congrArg (· + (e.getTxSize : ℤ)) hrest.totalTxSize,fun x a ha => (hfinal x a ha).trans ?_⟩
  · refine bind_ok.mpr ⟨m,applyDelta_total he hnew,bind_ok.mpr ⟨new,entry_ok.mpr ?_,
      bind_ok.mpr ⟨last,hlast,rfl⟩⟩⟩
    exact Finmap.lookup_insert _
  · dsimp only
    split_ifs with hx hxh
    · exact absurd hxh (hne x hx)
    · rfl
    · rfl
    · rfl

theorem Consistent.addUnchecked_childrenOf (hpool : pool.Consistent) (hfits : pool.Fits e.tx)
    (h : pool.addUnchecked e.tx.getHash e setAncestors = .ok pool') (x c : Uint256) :
    c ∈ pool'.childrenOf x ↔ c ∈ pool.childrenOf x ∨
      (c = e.tx.getHash ∧ x ∈ pool.mapTx ∧ ∃ txin ∈ e.tx.vin, txin.prevout.hash = x) := by
  have hnone : ∀ p, ¬ pool.Spends e.tx.getHash p := fun p hp =>
    hp.2.elim fun tx htx => hfits.isNew (mem_of_lookup htx.1)
  have hself : ∀ c, ¬ pool.Spends c e.tx.getHash := fun c hs => hfits.isNew hs.1
  rw [(hpool.addUnchecked_hasLinks hfits.isNew h).children,hpool.mem_childrenOf]
  constructor
  · rintro (⟨⟨-,⟨txin,htxin,hhash⟩,hx⟩ | hs,hc⟩ | ⟨_,hs⟩)
    · refine .inr ⟨hc,hx.resolve_left fun hx => ?_,txin,htxin,hhash⟩
      exact hfits.acyclic txin htxin (hhash.trans hx)
    · exact absurd hs (hnone x)
    · exact .inl hs
  · rintro (hs | ⟨hc,hx,hex⟩)
    · exact .inr ⟨fun hand => hnone x (hand.2 ▸ hs),hs⟩
    · exact .inl ⟨.inl ⟨rfl,hex,.inr hx⟩,hc⟩

theorem Consistent.mem_ancestorsOf_children (hpool : pool.Consistent) {tx : CTransaction}
    {x : Uint256} : x ∈ pool.ancestorsOf tx ↔
      ∃ p, (p ∈ pool.mapTx ∧ ∃ txin ∈ tx.vin, txin.prevout.hash = p) ∧
        Reaches pool.childrenOf x p := by
  rw [hpool.mem_ancestorsOf]
  constructor
  · rintro ⟨txin,htxin,hp,hreach⟩
    exact ⟨_,⟨hp,txin,htxin,rfl⟩,hreach.swap fun _ _ hc =>
      hpool.mem_childrenOf.mpr (hpool.mem_parentsOf.mp hc)⟩
  · rintro ⟨p,⟨hp,txin,htxin,rfl⟩,hreach⟩
    exact ⟨txin,htxin,hp,hpool.reaches_parentsOf hreach⟩

theorem Consistent.addUnchecked_sink (hpool : pool.Consistent) (hfits : pool.Fits e.tx)
    (h : pool.addUnchecked e.tx.getHash e setAncestors = .ok pool') (c : Uint256) :
    c ∉ pool'.childrenOf e.tx.getHash := by
  intro hc
  rcases (hpool.addUnchecked_childrenOf hfits h _ c).mp hc with hc | hc
  · exact hfits.isNew (hpool.mem_childrenOf.mp hc).1
  · exact hfits.isNew hc.2.1

/-- The new entry descends from its ancestors; nothing else changes. -/
theorem Consistent.addUnchecked_reaches (hpool : pool.Consistent) (hfits : pool.Fits e.tx)
    (h : pool.addUnchecked e.tx.getHash e setAncestors = .ok pool') {a b : Uint256} :
    Reaches pool'.childrenOf a b ↔
      Reaches pool.childrenOf a b ∨ (b = e.tx.getHash ∧ a ∈ pool.ancestorsOf e.tx) := by
  rw [reaches_insert (hpool.addUnchecked_childrenOf hfits h) (hpool.addUnchecked_sink hfits h),
    hpool.mem_ancestorsOf_children]

theorem addUnchecked_mem (hfits : pool.Fits e.tx) (hdelta : e.feeDelta = 0)
    (h : pool.addUnchecked e.tx.getHash e setAncestors = .ok pool') (x : Uint256) :
    x ∈ pool'.mapTx ↔ x = e.tx.getHash ∨ x ∈ pool.mapTx := by
  rw [mem_iff_lookup,addUnchecked_lookup hfits.isNew hdelta h,mem_iff_lookup]
  by_cases hx : x = e.tx.getHash <;> simp [hx]

/-- The descendants of an ancestor are joined by the new entry, those of the others stay. -/
theorem Consistent.addUnchecked_descendantsOf (hpool : pool.Consistent) (hfits : pool.Fits e.tx)
    (hdelta : e.feeDelta = 0) (h : pool.addUnchecked e.tx.getHash e setAncestors = .ok pool')
    {x : Uint256} (hx : x ∈ pool.mapTx) : pool'.descendantsOf x =
      if x ∈ pool.ancestorsOf e.tx then insert e.tx.getHash (pool.descendantsOf x)
      else pool.descendantsOf x := by
  ext d
  have hreach : d ∈ pool'.descendantsOf x ↔ d ∈ pool.descendantsOf x ∨
      (d = e.tx.getHash ∧ x ∈ pool.ancestorsOf e.tx) := by
    rw [mem_descendantsOf,mem_descendantsOf,addUnchecked_mem hfits hdelta h,
      hpool.addUnchecked_reaches hfits h]
    constructor
    · rintro ⟨_,hd | hd⟩
      · exact .inl ⟨hpool.mem_of_reaches hx hd,hd⟩
      · exact .inr hd
    · rintro (⟨hd,hreach⟩ | hd)
      · exact ⟨.inr hd,.inl hreach⟩
      · exact ⟨.inl hd.1,.inr hd⟩
  rw [hreach]
  split_ifs with hanc
  · rw [Finset.mem_insert,and_iff_left hanc,or_comm]
  · exact or_iff_left fun hand => hanc hand.2

theorem Consistent.addUnchecked_descendantsOf_self (hpool : pool.Consistent)
    (hfits : pool.Fits e.tx) (hdelta : e.feeDelta = 0)
    (h : pool.addUnchecked e.tx.getHash e setAncestors = .ok pool') :
    pool'.descendantsOf e.tx.getHash = {e.tx.getHash} := by
  ext d
  rw [mem_descendantsOf,Finset.mem_singleton]
  constructor
  · exact fun hd => hd.2.eq_of_sink (hpool.addUnchecked_sink hfits h)
  · rintro rfl
    exact ⟨(addUnchecked_mem hfits hdelta h _).mpr (.inl rfl),.refl _⟩

theorem Tallied.addUnchecked (hpool : pool.Tallied) (hfits : pool.Fits e.tx) (he : e.Fresh) :
    ∃ pool', pool.addUnchecked e.tx.getHash e (pool.ancestorsOf e.tx) = .ok pool' ∧
      pool'.Tallied := by
  let new := e.updateFeeDelta ((pool.mapDeltas.lookup e.tx.getHash).getD 0)
  have hsub : ∀ x ∈ pool.ancestorsOf e.tx, x ∈ pool.mapTx := fun x hx =>
    Finmap.mem_keys.mp (mem_ancestorsOf_iff.mp hx).1
  obtain ⟨pool',hrun,hdeltas,htotal,hrecords⟩ := addUnchecked_ok he hfits.isNew hsub hpool.records
    fun x hx => sum_share_pos (self_mem_descendantsOf (hsub x hx)) (hsub x hx)
  have hcontents := addUnchecked_contents hfits.isNew he.feeDelta hrun
  have hmem := addUnchecked_mem hfits he.feeDelta hrun
  have hsink := hpool.addUnchecked_sink hfits hrun
  have hshare : pool'.share = Function.update pool.share e.tx.getHash new.share := by
    funext x
    rw [share,hcontents]
    by_cases hx : x = e.tx.getHash
    · rw [hx,Function.update_self,Function.update_self]
      rfl
    · rw [Function.update_of_ne hx,Function.update_of_ne hx,share]
  have hnot : ∀ x, e.tx.getHash ∉ pool.descendantsOf x := fun x hx =>
    hfits.isNew (mem_descendantsOf.mp hx).1
  have hsum : ∀ x, ∑ d ∈ pool.descendantsOf x, pool'.share d =
      ∑ d ∈ pool.descendantsOf x, pool.share d := by
    intro x
    refine Finset.sum_congr rfl fun d hd => ?_
    rw [hshare,Function.update_of_ne fun (hde : d = e.tx.getHash) => hnot x (hde ▸ hd)]
  have hdesc : ∀ x ∈ pool.mapTx, _ := fun x hx =>
    hpool.addUnchecked_descendantsOf hfits he.feeDelta hrun hx
  have hself := hpool.addUnchecked_descendantsOf_self hfits he.feeDelta hrun
  refine ⟨pool',hrun,hpool.toConsistent.addUnchecked hfits he.feeDelta hrun,
    hpool.acyclic.insert (hpool.addUnchecked_childrenOf hfits hrun) hsink,
    hrecords.of_eq fun x hx => ?_,fun {x a} ha => ?_,?_⟩
  · rcases (hmem x).mp hx with rfl | hx
    · have hnone : e.tx.getHash ∉ pool.ancestorsOf e.tx := fun hanc => hfits.isNew (hsub _ hanc)
      rw [if_neg hnone,if_pos rfl,hself,Finset.sum_singleton,hshare,Function.update_self]
    · rw [hdesc x hx]
      split_ifs with hanc hxe
      · rw [Finset.sum_insert (hnot x),hsum,hshare,Function.update_self,add_comm]
      · exact absurd (hxe ▸ hx) hfits.isNew
      · rw [hsum]
  · rw [hcontents] at ha
    rw [hdeltas]
    by_cases hx : x = e.tx.getHash
    · rw [hx,Function.update_self,Option.some.injEq] at ha
      rw [← ha,hx]
    · rw [Function.update_of_ne hx] at ha
      exact hpool.deltas ha
  · have hkeys : pool'.mapTx.keys = insert e.tx.getHash pool.mapTx.keys := by
      ext x
      rw [Finmap.mem_keys,hmem,Finset.mem_insert,Finmap.mem_keys]
    have hnew : e.tx.getHash ∉ pool.mapTx.keys := fun hin => hfits.isNew (Finmap.mem_keys.mp hin)
    rw [htotal,hpool.total,hkeys,Finset.sum_insert hnew,add_comm,hshare,Function.update_self]
    refine congrArg _ (Finset.sum_congr rfl fun x hx => ?_)
    rw [Function.update_of_ne fun (hxe : x = e.tx.getHash) => hnew (hxe ▸ hx)]

end

end CTxMemPool
end Sidechain
