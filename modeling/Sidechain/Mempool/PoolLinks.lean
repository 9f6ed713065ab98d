import Sidechain.Library.Run
import Sidechain.Mempool.TxMemPool

/-! What the pool keeps about spending: the inputs of its entries, and links that are exactly the
relation of one entry spending another. The walks over links then find all descendants and all
ancestors. -/
namespace Sidechain
open Run Worklist

namespace CTxMemPool

/-- `child` spends an output of `parent`, and both are in the pool. -/
def Spends (pool : CTxMemPool) (child parent : Uint256) : Prop :=
  parent ∈ pool.mapTx ∧ ∃ tx, pool.lookup child = some tx ∧
    ∃ txin ∈ tx.vin, txin.prevout.hash = parent

def childrenOf (pool : CTxMemPool) (it : Uint256) : Finset Uint256 := (pool.linksAt it).children

def parentsOf (pool : CTxMemPool) (it : Uint256) : Finset Uint256 := (pool.linksAt it).parents

/-- Every transaction is under its hash, and `mapNextTx` holds the inputs of all of them, each
outpoint with one input. -/
structure Indexed [Crypto] (pool : CTxMemPool) : Prop where
  keyed : ∀ {h tx}, pool.lookup h = some tx → tx.getHash = h
  nextTx : ∀ {o : COutPoint} {ip : CInPoint}, pool.mapNextTx.lookup o = some ip ↔
    ∃ h, pool.lookup h = some ip.ptx ∧ ∃ txin, ip.ptx.vin[ip.n]? = some txin ∧ txin.prevout = o

/-- What `check` asserts of the maps of the pool: the inputs are indexed, and links are the spending
relation. -/
structure Consistent [Crypto] (pool : CTxMemPool) : Prop extends pool.Indexed where
  links_mem : ∀ {h}, h ∈ pool.mapLinks ↔ h ∈ pool.mapTx
  mem_parentsOf : ∀ {h p}, p ∈ pool.parentsOf h ↔ pool.Spends h p
  mem_childrenOf : ∀ {h c}, c ∈ pool.childrenOf h ↔ pool.Spends c h

/-- No outpoint is spent by two entries. -/
def SpendsOnce (pool : CTxMemPool) : Prop :=
  ∀ h tx h' tx', pool.lookup h = some tx → pool.lookup h' = some tx' →
    ∀ txin ∈ tx.vin, ∀ txin' ∈ tx'.vin, txin.prevout = txin'.prevout → h = h'

theorem lookup_of_entry {pool : CTxMemPool} {h : Uint256} {e : CTxMemPoolEntry}
    (he : pool.mapTx.lookup h = some e) : pool.lookup h = some e.tx := by
  rw [lookup,he]
  rfl

theorem mem_iff_lookup {pool : CTxMemPool} {h : Uint256} :
    h ∈ pool.mapTx ↔ (pool.lookup h).isSome := by
  rw [← Finmap.lookup_isSome,lookup,Option.isSome_map]

theorem mem_of_lookup {pool : CTxMemPool} {h : Uint256} {tx : CTransaction}
    (htx : pool.lookup h = some tx) : h ∈ pool.mapTx := by
  rw [mem_iff_lookup,htx]
  rfl

theorem entry_ok {pool : CTxMemPool} {it : Uint256} {e : CTxMemPoolEntry} :
    pool.entry it = .ok e ↔ pool.mapTx.lookup it = some e := by
  unfold entry
  cases pool.mapTx.lookup it <;> simp

theorem links_ok {pool : CTxMemPool} {it : Uint256} {l : TxLinks} :
    pool.links it = .ok l ↔ pool.mapLinks.lookup it = some l := by
  unfold links
  cases pool.mapLinks.lookup it <;> simp

theorem linksAt_eq {pool : CTxMemPool} {it : Uint256} {l : TxLinks}
    (h : pool.mapLinks.lookup it = some l) : pool.linksAt it = l := by
  simp [linksAt,h]

theorem getMemPoolParents_ok {pool : CTxMemPool} {it : Uint256} {s : Finset Uint256}
    (h : pool.getMemPoolParents it = .ok s) : s = pool.parentsOf it := by
  obtain ⟨l,hl,rfl⟩ := map_ok.mp h
  rw [parentsOf,linksAt_eq (links_ok.mp hl)]

theorem getMemPoolChildren_ok {pool : CTxMemPool} {it : Uint256} {s : Finset Uint256}
    (h : pool.getMemPoolChildren it = .ok s) : s = pool.childrenOf it := by
  obtain ⟨l,hl,rfl⟩ := map_ok.mp h
  rw [childrenOf,linksAt_eq (links_ok.mp hl)]

variable [Crypto]

theorem Indexed.spendsOnce {pool : CTxMemPool} (hpool : pool.Indexed) : pool.SpendsOnce := by
  intro h tx h' tx' htx htx' txin htxin txin' htxin' heq
  obtain ⟨n,hn⟩ := List.mem_iff_getElem?.mp htxin
  obtain ⟨n',hn'⟩ := List.mem_iff_getElem?.mp htxin'
  have hnext : pool.mapNextTx.lookup txin.prevout = some ⟨tx,n⟩ :=
    hpool.nextTx.mpr ⟨h,htx,txin,hn,rfl⟩
  have hnext' : pool.mapNextTx.lookup txin.prevout = some ⟨tx',n'⟩ :=
    hpool.nextTx.mpr ⟨h',htx',txin',hn',heq.symm⟩
  have hsame : tx = tx' := congrArg CInPoint.ptx (Option.some.inj (hnext.symm.trans hnext'))
  rw [← hpool.keyed htx,← hpool.keyed htx',hsame]

variable {pool : CTxMemPool} (hpool : pool.Consistent)
include hpool

theorem Consistent.lookup_links {it : Uint256} (h : it ∈ pool.mapTx) :
    pool.mapLinks.lookup it = some (pool.linksAt it) := by
  obtain ⟨l,hl⟩ := Finmap.mem_iff.mp (hpool.links_mem.mpr h)
  rw [linksAt_eq hl,hl]

theorem Consistent.getMemPoolChildren_eq {it : Uint256} (h : it ∈ pool.mapTx) :
    pool.getMemPoolChildren it = .ok (pool.childrenOf it) :=
  map_ok.mpr ⟨_,links_ok.mpr (hpool.lookup_links h),rfl⟩

theorem Consistent.getMemPoolParents_eq {it : Uint256} (h : it ∈ pool.mapTx) :
    pool.getMemPoolParents it = .ok (pool.parentsOf it) :=
  map_ok.mpr ⟨_,links_ok.mpr (hpool.lookup_links h),rfl⟩

theorem Consistent.childrenOf_sub {it : Uint256} : pool.childrenOf it ⊆ pool.mapTx.keys := by
  intro c hc
  obtain ⟨_,tx,htx,_⟩ := hpool.mem_childrenOf.mp hc
  exact Finmap.mem_keys.mpr (mem_of_lookup htx)

theorem Consistent.parentsOf_sub {it : Uint256} : pool.parentsOf it ⊆ pool.mapTx.keys :=
  fun _ hp => Finmap.mem_keys.mpr (hpool.mem_parentsOf.mp hp).1

/-- Descendants by one kind of links are ancestors by the other. -/
theorem Consistent.reaches_parentsOf {a b : Uint256} (h : Reaches pool.childrenOf a b) :
    Reaches pool.parentsOf b a :=
  h.swap fun _ _ hc => hpool.mem_parentsOf.mpr (hpool.mem_childrenOf.mp hc)

section
variable {known start stage done : Finset Uint256} (hknown : known ⊆ pool.mapTx.keys)
  (hstart : start ⊆ pool.mapTx.keys)
include hknown hstart

theorem Consistent.descendantsLoop_finish {fuel : ℕ}
    (hf : Frontier pool.childrenOf known start stage done)
    (hfuel : (pool.mapTx.keys \ done).card ≤ fuel) :
    ∃ s, pool.descendantsLoop fuel stage done = .ok s ∧
      Frontier pool.childrenOf known start ∅ s := by
  have huniv := hf.subset hknown hstart fun _ _ => hpool.childrenOf_sub
  induction fuel generalizing stage done with
  | zero =>
    exact ⟨done,rfl,hf.exhausted huniv (by omega) ▸ hf⟩
  | succ fuel ih =>
    unfold descendantsLoop
    cases hlist : hashOrder.list stage with
    | nil => exact ⟨done,rfl,Enumeration.list_nil hlist ▸ hf⟩
    | cons it rest =>
      have hit := Enumeration.mem_of_head hlist
      have hmem := Finmap.mem_keys.mp (huniv (Finset.mem_union_left _ hit))
      have hlt := hf.card_lt huniv hit
      obtain ⟨s,hs,hfin⟩ := ih (hf.step hit) (by omega)
        ((hf.step hit).subset hknown hstart fun _ _ => hpool.childrenOf_sub)
      exact ⟨s,bind_ok.mpr ⟨_,hpool.getMemPoolChildren_eq hmem,hs⟩,hfin⟩

end

/-- The walk adds an entry with its descendants to a set that holds descendants already. -/
theorem Consistent.calculateDescendants_spec {it : Uint256} {known : Finset Uint256}
    (hit : it ∈ pool.mapTx) (hknown : known ⊆ pool.mapTx.keys)
    (hclosed : ∀ x ∈ known, pool.childrenOf x ⊆ known) :
    ∃ s, pool.calculateDescendants it known = .ok s ∧
      ∀ x, x ∈ s ↔ x ∈ known ∨ Reaches pool.childrenOf it x := by
  have hstart : ({it} : Finset Uint256) ⊆ pool.mapTx.keys := by
    simpa [Finmap.mem_keys] using hit
  obtain ⟨s,hs,hfin⟩ := hpool.descendantsLoop_finish hknown hstart (Frontier.init hclosed)
    (Finset.card_le_card Finset.sdiff_subset)
  exact ⟨s,hs,fun x => by simpa using hfin.finish x⟩

theorem Consistent.mem_of_reaches {it x : Uint256} (hit : it ∈ pool.mapTx)
    (h : Reaches pool.childrenOf it x) : x ∈ pool.mapTx :=
  Finmap.mem_keys.mp (h.mem_of_closed (fun _ _ => hpool.childrenOf_sub) (Finmap.mem_keys.mpr hit))

theorem Consistent.allDescendants_spec {its : Finset Uint256} (hits : its ⊆ pool.mapTx.keys) :
    ∃ s, pool.allDescendants its = .ok s ∧
      ∀ x, x ∈ s ↔ ∃ it ∈ its, Reaches pool.childrenOf it x := by
  suffices h : ∀ (l : List Uint256) (known : Finset Uint256), (∀ it ∈ l, it ∈ pool.mapTx) →
      known ⊆ pool.mapTx.keys → (∀ x ∈ known, pool.childrenOf x ⊆ known) →
      ∃ s, l.foldlM (fun setAll it => pool.calculateDescendants it setAll) known = .ok s ∧
        ∀ x, x ∈ s ↔ x ∈ known ∨ ∃ it ∈ l, Reaches pool.childrenOf it x by
    obtain ⟨s,hs,hmem⟩ := h (hashOrder.list its) ∅
      (fun it hit => Finmap.mem_keys.mp (hits (hashOrder.mem_list.mp hit))) (by simp) (by simp)
    exact ⟨s,hs,fun x => by simpa [hashOrder.mem_list] using hmem x⟩
  intro l
  induction l with
  | nil => exact fun known _ _ _ => ⟨known,rfl,by simp⟩
  | cons it l ih =>
    intro known hl hknown hclosed
    have hit := hl it List.mem_cons_self
    obtain ⟨m,hm,hmem⟩ := hpool.calculateDescendants_spec hit hknown hclosed
    have hmsub : m ⊆ pool.mapTx.keys := by
      intro x hx
      rcases (hmem x).mp hx with hx | hx
      · exact hknown hx
      · exact Finmap.mem_keys.mpr (hpool.mem_of_reaches hit hx)
    have hmclosed : ∀ x ∈ m, pool.childrenOf x ⊆ m := by
      intro x hx c hc
      rcases (hmem x).mp hx with hx | hx
      · exact (hmem c).mpr (.inl (hclosed x hx hc))
      · exact (hmem c).mpr (.inr (hx.tail hc))
    obtain ⟨s,hs,hfin⟩ := ih m (fun i hi => hl i (List.mem_cons_of_mem _ hi)) hmsub hmclosed
    refine ⟨s,foldlM_cons_ok.mpr ⟨m,hm,hs⟩,fun x => ?_⟩
    rw [hfin x,hmem x,List.exists_mem_cons_iff,or_assoc]

omit [Crypto] hpool in
theorem addAncestor_foldlM {limits : AncestorLimits} {setAncestors s s' : Finset Uint256}
    {l : List Uint256} (h : l.foldlM (addAncestor limits setAncestors) s = .ok s') (x : Uint256) :
    x ∈ s' ↔ x ∈ s ∨ (x ∈ l ∧ x ∉ setAncestors) := by
  induction l generalizing s with
  | nil =>
    obtain rfl := foldlM_nil_ok.mp h
    simp
  | cons p l ih =>
    obtain ⟨m,hm,hrest⟩ := foldlM_cons_ok.mp h
    unfold addAncestor at hm
    dsimp only at hm
    by_cases hp : p ∈ setAncestors
    · rw [if_pos hp] at hm
      split_ifs at hm
      cases hm
      rw [ih hrest]
      aesop
    · rw [if_neg hp] at hm
      split_ifs at hm
      cases hm
      rw [ih hrest]
      aesop

theorem Consistent.ancestorsLoop_finish {limits : AncestorLimits} {nTxSize fuel : ℕ}
    {start parentHashes done s : Finset Uint256} {total : ℤ} (hstart : start ⊆ pool.mapTx.keys)
    (hf : Frontier pool.parentsOf ∅ start parentHashes done)
    (hfuel : (pool.mapTx.keys \ done).card ≤ fuel)
    (h : pool.ancestorsLoop limits nTxSize fuel parentHashes done total = .ok ⟨s,none⟩) :
    Frontier pool.parentsOf ∅ start ∅ s := by
  have huniv := hf.subset (Finset.empty_subset _) hstart fun _ _ => hpool.parentsOf_sub
  induction fuel generalizing parentHashes done total with
  | zero =>
    obtain rfl := congrArg AncestorsAnswer.setAncestors (Except.ok.inj h)
    exact hf.exhausted huniv (by omega) ▸ hf
  | succ fuel ih =>
    unfold ancestorsLoop at h
    cases hlist : hashOrder.list parentHashes with
    | nil =>
      simp only [hlist] at h
      obtain rfl := congrArg AncestorsAnswer.setAncestors (Except.ok.inj h)
      exact Enumeration.list_nil hlist ▸ hf
    | cons it rest =>
      simp only [hlist] at h
      have hit := Enumeration.mem_of_head hlist
      have hlt := hf.card_lt huniv hit
      obtain ⟨stage,_,h⟩ := bind_ok.mp h
      split at h
      · cases h
      · obtain ⟨parents,hparents,h⟩ := bind_ok.mp h
        split at h
        · cases h
        · rename_i next hnext
          obtain rfl := getMemPoolParents_ok hparents
          have hafter : next = after (pool.parentsOf it) it parentHashes done := by
            ext x
            rw [addAncestor_foldlM hnext,mem_after,hashOrder.mem_list]
            simp
          rw [hafter] at h
          exact ih (hf.step hit) (by omega) h
            ((hf.step hit).subset (Finset.empty_subset _) hstart fun _ _ => hpool.parentsOf_sub)

omit [Crypto] hpool in
theorem addParent_foldlM {limits : AncestorLimits} {s s' : Finset Uint256} {vin : List CTxIn}
    (h : vin.foldlM (pool.addParent limits) s = .ok s') (x : Uint256) :
    x ∈ s' ↔ x ∈ s ∨ (x ∈ pool.mapTx ∧ ∃ txin ∈ vin, txin.prevout.hash = x) := by
  induction vin generalizing s with
  | nil =>
    obtain rfl := foldlM_nil_ok.mp h
    simp
  | cons txin vin ih =>
    obtain ⟨m,hm,hrest⟩ := foldlM_cons_ok.mp h
    unfold addParent at hm
    dsimp only at hm
    split_ifs at hm with hmem hlimit
    · cases hm
      rw [ih hrest]
      aesop
    · cases hm
      rw [ih hrest]
      aesop

theorem Consistent.searchMemPoolAncestors_spec {tx : CTransaction} {limits : AncestorLimits}
    {s : Finset Uint256} (h : pool.searchMemPoolAncestors tx limits = .ok ⟨s,none⟩) (x : Uint256) :
    x ∈ s ↔ ∃ txin ∈ tx.vin, txin.prevout.hash ∈ pool.mapTx ∧
      Reaches pool.parentsOf txin.prevout.hash x := by
  unfold searchMemPoolAncestors at h
  split at h
  · cases h
  · rename_i parentHashes hparents
    have hmem := addParent_foldlM hparents
    have hstart : parentHashes ⊆ pool.mapTx.keys := fun p hp =>
      Finmap.mem_keys.mpr (by simpa using ((hmem p).mp hp).imp_right And.left)
    have hinit : Frontier pool.parentsOf ∅ parentHashes (parentHashes \ ∅) ∅ :=
      Frontier.init (by simp)
    rw [Finset.sdiff_empty] at hinit
    have hfin := (hpool.ancestorsLoop_finish hstart hinit (by simp) h).finish x
    rw [hfin]
    simp only [Finset.notMem_empty,false_or,hmem]
    constructor
    · rintro ⟨_,⟨hp,txin,htxin,rfl⟩,hreach⟩
      exact ⟨txin,htxin,hp,hreach⟩
    · rintro ⟨txin,htxin,hp,hreach⟩
      exact ⟨_,⟨hp,txin,htxin,rfl⟩,hreach⟩

end CTxMemPool
end Sidechain
