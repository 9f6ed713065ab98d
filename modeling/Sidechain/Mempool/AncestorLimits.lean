import Sidechain.Mempool.PoolLinks
import Mathlib.Algebra.BigOperators.Group.Finset.Basic
import Mathlib.Algebra.Order.BigOperators.Group.Finset

/-! The limits on the ancestors of a new transaction: which transactions the walk lets through, in
whatever order it takes the entries of its sets. -/
namespace Sidechain
open Run Worklist

namespace CTxMemPool

/-- `ancestorsLoop`, with an order for the entries that wait and one for the parents of an entry. -/
def ancestorsLoopBy (E E' : Enumeration Uint256) (pool : CTxMemPool) (limits : AncestorLimits)
    (nTxSize : ℕ) : ℕ → Finset Uint256 → Finset Uint256 → ℤ → Outcome AncestorsAnswer
  | 0,_,setAncestors,_ => .ok ⟨setAncestors,none⟩
  | fuel + 1,parentHashes,setAncestors,totalSizeWithAncestors =>
    match E.list parentHashes with
    | [] => .ok ⟨setAncestors,none⟩
    | stageit::_ => do
      let stage ← pool.entry stageit
      let setAncestors := insert stageit setAncestors
      let parentHashes := parentHashes.erase stageit
      let totalSizeWithAncestors := totalSizeWithAncestors + stage.getTxSize
      match checkAncestor limits nTxSize stageit stage totalSizeWithAncestors with
      | .error error => pure ⟨setAncestors,some error⟩
      | .ok () =>
        let setMemPoolParents ← pool.getMemPoolParents stageit
        match (E'.list setMemPoolParents).foldlM (addAncestor limits setAncestors) parentHashes with
        | .error error => pure ⟨setAncestors,some error⟩
        | .ok parentHashes =>
          ancestorsLoopBy E E' pool limits nTxSize fuel parentHashes setAncestors
            totalSizeWithAncestors

def searchMemPoolAncestorsBy (E E' : Enumeration Uint256) (pool : CTxMemPool) (tx : CTransaction)
    (limits : AncestorLimits) : Outcome AncestorsAnswer :=
  match tx.vin.foldlM (pool.addParent limits) ∅ with
  | .error error => .ok ⟨∅,some error⟩
  | .ok parentHashes =>
    ancestorsLoopBy E E' pool limits tx.getSerializeSize pool.mapTx.keys.card parentHashes ∅
      tx.getSerializeSize

theorem ancestorsLoopBy_hashOrder (pool : CTxMemPool) (limits : AncestorLimits)
    (nTxSize fuel : ℕ) (parentHashes done : Finset Uint256) (total : ℤ) :
    ancestorsLoopBy hashOrder hashOrder pool limits nTxSize fuel parentHashes done total =
      pool.ancestorsLoop limits nTxSize fuel parentHashes done total := by
  induction fuel generalizing parentHashes done total with
  | zero => rfl
  | succ fuel ih =>
    have hloop : ancestorsLoopBy hashOrder hashOrder pool limits nTxSize fuel =
        pool.ancestorsLoop limits nTxSize fuel := by
      funext todo done total
      exact ih todo done total
    rw [ancestorsLoopBy,hloop]
    rfl

theorem searchMemPoolAncestorsBy_hashOrder (pool : CTxMemPool) (tx : CTransaction)
    (limits : AncestorLimits) : searchMemPoolAncestorsBy hashOrder hashOrder pool tx limits =
      pool.searchMemPoolAncestors tx limits := by
  rw [searchMemPoolAncestorsBy]
  simp only [ancestorsLoopBy_hashOrder]
  rfl

theorem exceeds_mono {n m : ℤ} {limit : Option ℕ} (h : exceeds n limit = true) (hle : n ≤ m) :
    exceeds m limit = true := by
  cases limit with
  | none => cases h
  | some limit =>
    unfold exceeds at h ⊢
    rw [decide_eq_true_iff] at h ⊢
    omega

theorem addAncestors_spec (limits : AncestorLimits) (done s : Finset Uint256) (l : List Uint256) :
    (∃ s', l.foldlM (addAncestor limits done) s = .ok s' ∧
      (l ≠ [] → exceeds (s'.card + done.card + 1) limits.limitAncestorCount = false)) ∨
    ∃ error, ∃ s' : Finset Uint256, l.foldlM (addAncestor limits done) s = .error error ∧
      (∀ x ∈ s', x ∈ s ∨ (x ∈ l ∧ x ∉ done)) ∧
        exceeds (s'.card + done.card + 1) limits.limitAncestorCount = true := by
  induction l generalizing s with
  | nil => exact Or.inl ⟨s,rfl,fun h => absurd rfl h⟩
  | cons p l ih =>
    set m := if p ∈ done then s else insert p s with hm
    have hmem : ∀ x ∈ m, x ∈ s ∨ (x ∈ p::l ∧ x ∉ done) := by
      intro x hx
      rw [hm] at hx
      by_cases hp : p ∈ done
      · rw [if_pos hp] at hx
        exact Or.inl hx
      · rw [if_neg hp] at hx
        rcases Finset.mem_insert.mp hx with rfl | hx
        · exact Or.inr ⟨List.mem_cons_self,hp⟩
        · exact Or.inl hx
    rw [List.foldlM_cons]
    by_cases hlimit : exceeds (m.card + done.card + 1) limits.limitAncestorCount = true
    · refine Or.inr ⟨.ancestors limits.limitAncestorCount,m,?_,hmem,hlimit⟩
      unfold addAncestor
      rw [if_pos hlimit]
      rfl
    · have hadd : addAncestor limits done s p = .ok m := if_neg hlimit
      rw [hadd]
      rcases ih m with ⟨s',hs',hlast⟩ | ⟨error,s',hs',hsub,hover⟩
      · refine Or.inl ⟨s',hs',fun _ => ?_⟩
        cases l with
        | nil =>
          cases hs'
          exact Bool.eq_false_iff.mpr hlimit
        | cons q l => exact hlast (List.cons_ne_nil q l)
      · refine Or.inr ⟨error,s',hs',fun x hx => ?_,hover⟩
        rcases hsub x hx with hx | ⟨hx,hdone⟩
        · exact hmem x hx
        · exact Or.inr ⟨List.mem_cons_of_mem _ hx,hdone⟩

theorem addParents_spec (pool : CTxMemPool) (limits : AncestorLimits) (s : Finset Uint256)
    (vin : List CTxIn)
    (hs : s ≠ ∅ → exceeds (s.card + 1) limits.limitAncestorCount = false) :
    (∃ s', vin.foldlM (pool.addParent limits) s = .ok s' ∧
      (s' ≠ ∅ → exceeds (s'.card + 1) limits.limitAncestorCount = false)) ∨
    ∃ error, ∃ s' : Finset Uint256, vin.foldlM (pool.addParent limits) s = .error error ∧
      (∀ x ∈ s', x ∈ s ∨ (x ∈ pool.mapTx ∧ ∃ txin ∈ vin, txin.prevout.hash = x)) ∧
        s' ≠ ∅ ∧ exceeds (s'.card + 1) limits.limitAncestorCount = true := by
  induction vin generalizing s with
  | nil => exact Or.inl ⟨s,rfl,hs⟩
  | cons txin vin ih =>
    rw [List.foldlM_cons]
    by_cases hin : txin.prevout.hash ∈ pool.mapTx
    · set m := insert txin.prevout.hash s with hm
      have hmem : ∀ x ∈ m, x ∈ s ∨ (x ∈ pool.mapTx ∧ ∃ i ∈ txin::vin, i.prevout.hash = x) := by
        intro x hx
        rcases Finset.mem_insert.mp hx with rfl | hx
        · exact Or.inr ⟨hin,txin,List.mem_cons_self,rfl⟩
        · exact Or.inl hx
      have hne : m ≠ ∅ := Finset.insert_ne_empty _ _
      by_cases hlimit : exceeds (m.card + 1) limits.limitAncestorCount = true
      · refine Or.inr ⟨.parents limits.limitAncestorCount,m,?_,hmem,hne,hlimit⟩
        unfold addParent
        rw [if_pos hin]
        dsimp only
        rw [if_pos hlimit]
        rfl
      · have hadd : pool.addParent limits s txin = .ok m := by
          unfold addParent
          rw [if_pos hin]
          exact if_neg hlimit
        rw [hadd]
        rcases ih m (fun _ => Bool.eq_false_iff.mpr hlimit) with hok | ⟨error,s',hs',hsub,hover⟩
        · exact Or.inl hok
        · refine Or.inr ⟨error,s',hs',fun x hx => ?_,hover⟩
          rcases hsub x hx with hx | ⟨hx,i,hi,heq⟩
          · exact hmem x hx
          · exact Or.inr ⟨hx,i,List.mem_cons_of_mem _ hi,heq⟩
    · have hadd : pool.addParent limits s txin = .ok s := if_neg hin
      rw [hadd]
      rcases ih s hs with hok | ⟨error,s',hs',hsub,hover⟩
      · exact Or.inl hok
      · refine Or.inr ⟨error,s',hs',fun x hx => ?_,hover⟩
        rcases hsub x hx with hx | ⟨hx,i,hi,heq⟩
        · exact Or.inl hx
        · exact Or.inr ⟨hx,i,List.mem_cons_of_mem _ hi,heq⟩

def entrySize (pool : CTxMemPool) (it : Uint256) : ℕ :=
  ((pool.mapTx.lookup it).map CTxMemPoolEntry.getTxSize).getD 0

/-- What an entry records of its descendants stays within the limits with one more. -/
def DescendantsFit (pool : CTxMemPool) (limits : AncestorLimits) (nTxSize : ℕ) (it : Uint256) :
    Prop := ∀ e, pool.mapTx.lookup it = some e →
      exceeds (e.nSizeWithDescendants + nTxSize) limits.limitDescendantSize = false ∧
        exceeds (e.nCountWithDescendants + 1) limits.limitDescendantCount = false

theorem checkAncestor_ok {pool : CTxMemPool} {limits : AncestorLimits} {nTxSize : ℕ} {it : Uint256}
    {e : CTxMemPoolEntry} (he : pool.mapTx.lookup it = some e) (total : ℤ) :
    checkAncestor limits nTxSize it e total = .ok () ↔
      pool.DescendantsFit limits nTxSize it ∧ exceeds total limits.limitAncestorSize = false := by
  have hfit : pool.DescendantsFit limits nTxSize it ↔
      exceeds (e.nSizeWithDescendants + nTxSize) limits.limitDescendantSize = false ∧
        exceeds (e.nCountWithDescendants + 1) limits.limitDescendantCount = false := by
    constructor
    · exact fun h => h e he
    · intro h e' he'
      rw [he] at he'
      cases he'
      exact h
  rw [hfit]
  unfold checkAncestor
  split_ifs with h1 h2 h3
  · simp [h1]
  · simp [h2]
  · simp [h3]
  · simp [h1,h2,h3]

section
variable {next : Uint256 → Finset Uint256} {start ancestors : Finset Uint256}
  (hanc : ∀ x, x ∈ ancestors ↔ ∃ s ∈ start, Reaches next s x)
include hanc

theorem subset_ancestors {stage done : Finset Uint256} (hf : Frontier next ∅ start stage done) :
    stage ∪ done ⊆ ancestors := fun x hx =>
  (hanc x).mpr ((hf.reached x hx).resolve_left (Finset.notMem_empty x))

theorem eq_ancestors {done : Finset Uint256} (hf : Frontier next ∅ start ∅ done) :
    done = ancestors := by
  ext x
  rw [hf.finish,hanc]
  simp

/-- What waits and what is dealt with, when adding parents stops, are ancestors. -/
theorem card_found_le {stage done s' : Finset Uint256} {it : Uint256}
    (hf : Frontier next ∅ start stage done) (hit : it ∈ stage)
    (hs' : ∀ x ∈ s', x ∈ stage.erase it ∨ (x ∈ next it ∧ x ∉ insert it done)) :
    s'.card + (insert it done).card ≤ ancestors.card := by
  have hanc' := subset_ancestors hanc (hf.step hit)
  have hfound : s' ∪ insert it done ⊆ ancestors := by
    refine Finset.union_subset (fun x hx => hanc' ?_) (Finset.union_subset_right hanc')
    rw [Finset.mem_union,mem_after]
    rcases hs' x hx with hx | ⟨hx,hxdone⟩
    · exact Or.inl (Or.inl (Finset.mem_erase.mp hx))
    · rw [Finset.mem_insert,not_or] at hxdone
      exact Or.inl (Or.inr ⟨hx,hxdone⟩)
  have hapart : Disjoint s' (insert it done) := by
    rw [Finset.disjoint_left]
    intro x hx
    rcases hs' x hx with hx | ⟨_,hxdone⟩
    · obtain ⟨hxit,hx⟩ := Finset.mem_erase.mp hx
      rw [Finset.mem_insert]
      exact not_or.mpr ⟨hxit,hf.disjoint x hx⟩
    · exact hxdone
  rw [← Finset.card_union_of_disjoint hapart]
  exact Finset.card_le_card hfound

omit hanc in
/-- Within the limit before and at every parent, the walk is within it after an entry. -/
theorem count_after {limit : Option ℕ} {stage done : Finset Uint256} {it : Uint256}
    (hf : Frontier next ∅ start stage done) (hit : it ∈ stage)
    (hcount : exceeds ((stage ∪ done).card + 1) limit = false)
    (hlast : next it ≠ ∅ → exceeds
      ((after (next it) it stage done).card + (insert it done).card + 1) limit = false) :
    exceeds ((after (next it) it stage done ∪ insert it done).card + 1) limit = false := by
  by_cases hnil : next it = ∅
  · have hsame : after (next it) it stage done ∪ insert it done = stage ∪ done := by
      ext x
      rw [hnil]
      simp only [Finset.mem_union,mem_after,Finset.mem_insert,Finset.notMem_empty]
      by_cases hx : x = it
      · simp [hx,hit]
      · simp [hx]
    rw [hsame]
    exact hcount
  · rw [Finset.card_union_of_disjoint
      (Finset.disjoint_left.mpr fun x hx => (hf.step hit).disjoint x hx)]
    exact_mod_cast hlast hnil

end

/-- The limits hold of the whole set of ancestors, and of what those record that are not dealt with. -/
def AncestorsFit (pool : CTxMemPool) (limits : AncestorLimits) (nTxSize : ℕ)
    (ancestors done : Finset Uint256) : Prop :=
  (∀ x ∈ ancestors \ done, pool.DescendantsFit limits nTxSize x) ∧
    exceeds (nTxSize + ∑ x ∈ ancestors, (pool.entrySize x : ℤ)) limits.limitAncestorSize = false ∧
    exceeds (ancestors.card + 1) limits.limitAncestorCount = false

section
variable {pool : CTxMemPool} {limits : AncestorLimits} {nTxSize : ℕ}
  {start parentHashes done ancestors : Finset Uint256} {it : Uint256}
  (hanc : ∀ x, x ∈ ancestors ↔ ∃ s ∈ start, Reaches pool.parentsOf s x)
  (hf : Frontier pool.parentsOf ∅ start parentHashes done) (hit : it ∈ parentHashes)
include hanc hf hit

theorem mem_ancestors_sdiff : it ∈ ancestors \ done :=
  Finset.mem_sdiff.mpr
    ⟨subset_ancestors hanc hf (Finset.mem_union_left _ hit),hf.disjoint it hit⟩

/-- The limits do not hold if the check of an entry fails. -/
theorem not_ancestorsFit_of_check {e : CTxMemPoolEntry} {error : AncestorError}
    (he : pool.mapTx.lookup it = some e)
    (hcheck : checkAncestor limits nTxSize it e
      (nTxSize + ∑ x ∈ insert it done, (pool.entrySize x : ℤ)) = .error error) :
    ¬ pool.AncestorsFit limits nTxSize ancestors done := by
  rintro ⟨hfit,hwithin,_⟩
  have hok := @checkAncestor_ok pool limits nTxSize it e he
    (nTxSize + ∑ x ∈ insert it done, (pool.entrySize x : ℤ))
  rw [hcheck] at hok
  refine nomatch hok.mpr ⟨hfit it (mem_ancestors_sdiff hanc hf hit),
    Bool.eq_false_iff.mpr fun hover => ?_⟩
  have hsub := Finset.union_subset_right (subset_ancestors hanc (hf.step hit))
  have hsum : (nTxSize : ℤ) + ∑ x ∈ insert it done, (pool.entrySize x : ℤ) ≤
      nTxSize + ∑ x ∈ ancestors, (pool.entrySize x : ℤ) :=
    Int.add_le_add_left (Finset.sum_le_sum_of_subset_of_nonneg hsub fun _ _ _ =>
      Int.natCast_nonneg _) _
  rw [exceeds_mono hover hsum] at hwithin
  cases hwithin

/-- An entry that was checked is dealt with: the walk ends there or goes on with the rest. -/
theorem ancestorsFit_step (hfit : pool.DescendantsFit limits nTxSize it)
    (hwithin : exceeds (nTxSize + ∑ x ∈ insert it done, (pool.entrySize x : ℤ))
      limits.limitAncestorSize = false)
    (hcount : exceeds ((after (pool.parentsOf it) it parentHashes done ∪ insert it done).card + 1)
      limits.limitAncestorCount = false) :
    after (pool.parentsOf it) it parentHashes done = ∅ ∨
      pool.AncestorsFit limits nTxSize ancestors (insert it done) ↔
      pool.AncestorsFit limits nTxSize ancestors done := by
  have hstep := hf.step hit
  constructor
  · rintro (hnone | ⟨hrest,hlimits⟩)
    · rw [hnone] at hstep hcount
      have hlast := eq_ancestors hanc hstep
      rw [hlast] at hwithin hcount
      rw [Finset.empty_union] at hcount
      refine ⟨fun x hx => ?_,hwithin,hcount⟩
      obtain ⟨hx,hxdone⟩ := Finset.mem_sdiff.mp hx
      rw [← hlast] at hx
      obtain rfl := (Finset.mem_insert.mp hx).resolve_right hxdone
      exact hfit
    · refine ⟨fun x hx => ?_,hlimits⟩
      obtain ⟨hx,hxdone⟩ := Finset.mem_sdiff.mp hx
      by_cases heq : x = it
      · exact heq ▸ hfit
      · refine hrest x (Finset.mem_sdiff.mpr ⟨hx,?_⟩)
        rw [Finset.mem_insert]
        exact not_or.mpr ⟨heq,hxdone⟩
  · rintro ⟨hfits,hlimits⟩
    exact .inr ⟨fun x hx => hfits x
      (Finset.sdiff_subset_sdiff subset_rfl (Finset.subset_insert it done) hx),hlimits⟩

end

section
variable [Crypto] {pool : CTxMemPool}

section
variable {E E' : Enumeration Uint256} {limits : AncestorLimits} {nTxSize : ℕ}
  {parentHashes done : Finset Uint256} {it : Uint256} {rest : List Uint256} {e : CTxMemPoolEntry}
  (fuel : ℕ) (total : ℤ) (hlist : E.list parentHashes = it::rest)
  (he : pool.mapTx.lookup it = some e)
include hlist he

omit [Crypto] in
theorem ancestorsLoopBy_of_check {error : AncestorError}
    (hcheck : checkAncestor limits nTxSize it e (total + e.getTxSize) = .error error) :
    ancestorsLoopBy E E' pool limits nTxSize (fuel + 1) parentHashes done total =
      .ok ⟨insert it done,some error⟩ := by
  have hentry : pool.entry it = .ok e := entry_ok.mpr he
  unfold ancestorsLoopBy
  rw [hlist]
  dsimp only
  rw [hentry]
  change (match checkAncestor limits nTxSize it e (total + e.getTxSize) with
    | .error error => _ | .ok () => _) = Except.ok _
  rw [hcheck]
  rfl

variable (hpool : pool.Consistent)
  (hcheck : checkAncestor limits nTxSize it e (total + e.getTxSize) = .ok ())
include hpool hcheck

theorem ancestorsLoopBy_of_parents {error : AncestorError}
    (hparents : (E'.list (pool.parentsOf it)).foldlM (addAncestor limits (insert it done))
      (parentHashes.erase it) = .error error) :
    ancestorsLoopBy E E' pool limits nTxSize (fuel + 1) parentHashes done total =
      .ok ⟨insert it done,some error⟩ := by
  have hentry : pool.entry it = .ok e := entry_ok.mpr he
  unfold ancestorsLoopBy
  rw [hlist]
  dsimp only
  rw [hentry]
  change (match checkAncestor limits nTxSize it e (total + e.getTxSize) with
    | .error error => _ | .ok () => _) = Except.ok _
  rw [hcheck,hpool.getMemPoolParents_eq (Finmap.mem_of_lookup_eq_some he)]
  change (match (E'.list (pool.parentsOf it)).foldlM (addAncestor limits (insert it done))
    (parentHashes.erase it) with | .error error => _ | .ok parentHashes => _) = Except.ok _
  rw [hparents]
  rfl

theorem ancestorsLoopBy_of_next {next : Finset Uint256}
    (hparents : (E'.list (pool.parentsOf it)).foldlM (addAncestor limits (insert it done))
      (parentHashes.erase it) = .ok next) :
    ancestorsLoopBy E E' pool limits nTxSize (fuel + 1) parentHashes done total =
      ancestorsLoopBy E E' pool limits nTxSize fuel next (insert it done) (total + e.getTxSize) := by
  have hentry : pool.entry it = .ok e := entry_ok.mpr he
  rw [ancestorsLoopBy,hlist]
  dsimp only
  rw [hentry]
  change (match checkAncestor limits nTxSize it e (total + e.getTxSize) with
    | .error error => _ | .ok () => _) = _
  rw [hcheck,hpool.getMemPoolParents_eq (Finmap.mem_of_lookup_eq_some he)]
  change (match (E'.list (pool.parentsOf it)).foldlM (addAncestor limits (insert it done))
    (parentHashes.erase it) with | .error error => _ | .ok parentHashes => _) = _
  rw [hparents]

end

variable (hpool : pool.Consistent)
include hpool

/-- What ends the walk is a limit that the whole set of ancestors with the transaction exceeds, unless
there is no ancestor: `done` are dealt with, `parentHashes` wait. -/
theorem Consistent.ancestorsLoopBy_spec (E E' : Enumeration Uint256) {limits : AncestorLimits}
    {nTxSize fuel : ℕ} {start parentHashes done ancestors : Finset Uint256}
    (hstart : start ⊆ pool.mapTx.keys)
    (hanc : ∀ x, x ∈ ancestors ↔ ∃ s ∈ start, Reaches pool.parentsOf s x)
    (hf : Frontier pool.parentsOf ∅ start parentHashes done)
    (hfuel : (pool.mapTx.keys \ done).card ≤ fuel)
    (hcount : parentHashes ∪ done ≠ ∅ →
      exceeds ((parentHashes ∪ done).card + 1) limits.limitAncestorCount = false) :
    ∃ answer, ancestorsLoopBy E E' pool limits nTxSize fuel parentHashes done
        (nTxSize + ∑ x ∈ done, (pool.entrySize x : ℤ)) = .ok answer ∧
      (answer.error = none → answer.setAncestors = ancestors) ∧
      (answer.error = none ↔
        parentHashes = ∅ ∨ pool.AncestorsFit limits nTxSize ancestors done) := by
  have huniv := hf.subset (Finset.empty_subset _) hstart fun _ _ => hpool.parentsOf_sub
  induction fuel generalizing parentHashes done with
  | zero =>
    have hempty := hf.exhausted huniv (by omega)
    subst hempty
    exact ⟨_,rfl,fun _ => eq_ancestors hanc hf,by simp⟩
  | succ fuel ih =>
    cases hlist : E.list parentHashes with
    | nil =>
      unfold ancestorsLoopBy
      rw [hlist]
      obtain rfl := Enumeration.list_nil hlist
      exact ⟨_,rfl,fun _ => eq_ancestors hanc hf,by simp⟩
    | cons it rest =>
      have hit := Enumeration.mem_of_head hlist
      have hne : parentHashes ≠ ∅ := Finset.ne_empty_of_mem hit
      obtain ⟨e,he⟩ := Finmap.mem_iff.mp (Finmap.mem_keys.mp (huniv (Finset.mem_union_left _ hit)))
      have hlt := hf.card_lt huniv hit
      have hsize : pool.entrySize it = e.getTxSize := by
        unfold entrySize
        rw [he]
        rfl
      have htotal : (nTxSize : ℤ) + ∑ x ∈ done, (pool.entrySize x : ℤ) + e.getTxSize =
          nTxSize + ∑ x ∈ insert it done, (pool.entrySize x : ℤ) := by
        rw [Finset.sum_insert (hf.disjoint it hit),hsize]
        ring
      cases hverdict : checkAncestor limits nTxSize it e
          (nTxSize + ∑ x ∈ insert it done, (pool.entrySize x : ℤ)) with
      | error error =>
        have hnot := not_ancestorsFit_of_check hanc hf hit he hverdict
        exact ⟨_,ancestorsLoopBy_of_check fuel _ hlist he (htotal ▸ hverdict),nofun,
          iff_of_false nofun (not_or.mpr ⟨hne,hnot⟩)⟩
      | ok u =>
        obtain ⟨hfit,hwithin⟩ := (checkAncestor_ok he _).mp hverdict
        rcases addAncestors_spec limits (insert it done) (parentHashes.erase it)
          (E'.list (pool.parentsOf it)) with ⟨next,hnext,hlast⟩ | ⟨error,s',hs',hsub',hover⟩
        · have hafter : next = after (pool.parentsOf it) it parentHashes done := by
            ext x
            rw [addAncestor_foldlM hnext,mem_after,E'.mem_list]
            simp
          have hrun := ancestorsLoopBy_of_next fuel _ hlist he hpool (htotal ▸ hverdict) hnext
          subst hafter
          have hstep := hf.step hit
          have hcount' := count_after hf hit
            (hcount (Finset.ne_empty_of_mem (Finset.mem_union_left _ hit))) fun hparents =>
              hlast fun hnil => hparents (Enumeration.list_nil hnil)
          obtain ⟨answer,hanswer,hset,hiff⟩ := ih hstep (by omega) (fun _ => hcount')
            (hstep.subset (Finset.empty_subset _) hstart fun _ _ => hpool.parentsOf_sub)
          rw [hrun,htotal]
          exact ⟨answer,hanswer,hset,(hiff.trans
            (ancestorsFit_step hanc hf hit hfit hwithin hcount')).trans (or_iff_right hne).symm⟩
        · refine ⟨_,ancestorsLoopBy_of_parents fuel _ hlist he hpool (htotal ▸ hverdict) hs',nofun,
            iff_of_false nofun (not_or.mpr ⟨hne,?_⟩)⟩
          rintro ⟨_,_,hcount'⟩
          have hle := card_found_le hanc hf hit fun x hx =>
            (hsub' x hx).imp_right fun h => ⟨E'.mem_list.mp h.1,h.2⟩
          rw [exceeds_mono hover (by omega)] at hcount'
          cases hcount'

end

end CTxMemPool
end Sidechain
