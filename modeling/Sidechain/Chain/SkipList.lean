import Sidechain.Chain.TreePath
import Sidechain.Library.Run
import Sidechain.Primitives.Outcome

/-! The skip pointers of the block index: where they lead, how they are built, and the walk to an
ancestor that chooses between them and predecessors. -/
namespace Sidechain
open Run

/-- Turn the lowest one bit of a number into a zero. -/
def invertLowestOne (n : ℕ) : ℕ := n &&& (n - 1)

/-- The height to jump back to. -/
def getSkipHeight (height : ℕ) : ℕ :=
  if height < 2 then 0
  else if height &&& 1 ≠ 0 then invertLowestOne (invertLowestOne (height - 1)) + 1
  else invertLowestOne height

theorem invertLowestOne_le (n : ℕ) : invertLowestOne n ≤ n - 1 := Nat.and_le_right

theorem getSkipHeight_lt {height : ℕ} (h : 0 < height) : getSkipHeight height < height := by
  have hinner := invertLowestOne_le (height - 1)
  have houter := invertLowestOne_le (invertLowestOne (height - 1))
  have heven := invertLowestOne_le height
  unfold getSkipHeight
  split_ifs with hsmall hodd
  · exact h
  · have hthree : height ≠ 2 := by
      rintro rfl
      exact hodd rfl
    omega
  · omega

/-- The block index with its skip pointers. -/
structure SkipIndex where
  tree : BlockTree := {}
  pskip : Uint256 → Option Uint256 := fun _ => none

namespace SkipIndex

/-- The loop of `GetAncestor`. -/
def walk (s : SkipIndex) (height : ℕ) (pindexWalk : Option Uint256) (heightWalk : ℕ) :
    Outcome (Option Uint256) :=
  if hmore : heightWalk > height then
    match pindexWalk with
    | none => .error (.undefined "pindexWalk->pskip")
    | some pindex =>
      let heightSkip := getSkipHeight heightWalk
      let heightSkipPrev := getSkipHeight (heightWalk - 1)
      if s.pskip pindex ≠ none ∧ (heightSkip = height ∨ (heightSkip > height ∧
          ¬((heightSkipPrev : ℤ) < heightSkip - 2 ∧ heightSkipPrev ≥ height))) then
        -- only follow pskip if pprev->pskip isn't better than pskip->pprev
        have := getSkipHeight_lt (Nat.zero_lt_of_lt hmore)
        s.walk height (s.pskip pindex) heightSkip
      else s.walk height (s.tree.entry pindex).pprev (heightWalk - 1)
  else .ok pindexWalk
termination_by heightWalk

def getAncestor (s : SkipIndex) (pindex : Uint256) (height : ℤ) : Outcome (Option Uint256) :=
  if height > (s.tree.entry pindex).nHeight ∨ height < 0 then .ok none
  else s.walk height.toNat (some pindex) (s.tree.entry pindex).nHeight

def buildSkip (s : SkipIndex) (pindex : Uint256) : Outcome SkipIndex :=
  match (s.tree.entry pindex).pprev with
  | none => .ok s
  | some pprev => do
    let ancestor ← s.getAncestor pprev (getSkipHeight (s.tree.entry pindex).nHeight)
    .ok { s with pskip := Function.update s.pskip pindex ancestor }

def addToBlockIndex [Crypto] (s : SkipIndex) (block : CBlockHeader) : Outcome SkipIndex :=
  let hash := block.getHash
  if hash ∈ s.tree.mapBlockIndex then .ok s
  else
    -- the new entry has no skip pointer yet
    buildSkip ⟨s.tree.addToBlockIndex block,Function.update s.pskip hash none⟩ hash

end SkipIndex

namespace BlockTree

def prev (t : BlockTree) (pindex : Option Uint256) : Option Uint256 :=
  pindex.bind fun h => (t.entry h).pprev

/-- The entry that predecessors lead to at a height, if there is one. -/
def ancestorAt (t : BlockTree) (pindex : Uint256) (height : ℤ) : Option Uint256 :=
  if height > (t.entry pindex).nHeight ∨ height < 0 then none
  else (t.prev)^[(t.entry pindex).nHeight - height.toNat] (some pindex)

/-- What has no predecessor has height zero. -/
def RootsAtZero (t : BlockTree) : Prop :=
  ∀ h, (t.entry h).pprev = none → (t.entry h).nHeight = 0

variable {t : BlockTree}

theorem prev_iterate_height (ht : t.IsTree) (hr : t.RootsAtZero) {h : Uint256} {k : ℕ}
    (hk : k ≤ (t.entry h).nHeight) :
    ∃ a, (t.prev)^[k] (some h) = some a ∧ (t.entry a).nHeight + k = (t.entry h).nHeight := by
  induction k with
  | zero => exact ⟨h,rfl,rfl⟩
  | succ k ih =>
    obtain ⟨a,ha,hheight⟩ := ih (by omega)
    cases hp : (t.entry a).pprev with
    | none =>
      have := hr a hp
      omega
    | some p =>
      have := ht.height hp
      refine ⟨p,?_,by omega⟩
      rw [Function.iterate_succ_apply',ha]
      exact hp

theorem prev_iterate_trans {h a : Uint256} {k : ℕ} (ha : (t.prev)^[k] (some h) = some a) (n : ℕ) :
    (t.prev)^[n] (some a) = (t.prev)^[n + k] (some h) := by
  rw [Function.iterate_add_apply,ha]

theorem ancestorAt_of_le {h : Uint256} {height : ℕ} (hle : height ≤ (t.entry h).nHeight) :
    t.ancestorAt h height = (t.prev)^[(t.entry h).nHeight - height] (some h) := by
  unfold ancestorAt
  rw [if_neg (by omega),Int.toNat_natCast]

theorem ancestorAt_congr {t' : BlockTree} (ht : t.IsTree)
    (hsame : ∀ x ∈ t.mapBlockIndex, t'.entry x = t.entry x) {h : Uint256}
    (hh : h ∈ t.mapBlockIndex) (height : ℤ) : t'.ancestorAt h height = t.ancestorAt h height := by
  have hiterate : ∀ k, (t'.prev)^[k] (some h) = (t.prev)^[k] (some h) ∧
      ∀ a, (t.prev)^[k] (some h) = some a → a ∈ t.mapBlockIndex := by
    intro k
    induction k with
    | zero =>
      refine ⟨rfl,?_⟩
      rintro a ⟨⟩
      exact hh
    | succ k ih =>
      rw [Function.iterate_succ_apply',Function.iterate_succ_apply',ih.1]
      cases ha : (t.prev)^[k] (some h) with
      | none => exact ⟨rfl,fun _ h => nomatch h⟩
      | some a =>
        refine ⟨congrArg BlockTreeEntry.pprev (hsame a (ih.2 a ha)),fun p hp => ht.parent_mem hp⟩
  unfold ancestorAt
  rw [hsame h hh,(hiterate _).1]

end BlockTree

namespace SkipIndex

/-- Every skip pointer that is there leads to the ancestor at its height. -/
structure Right (s : SkipIndex) : Prop where
  tree : s.tree.IsTree
  roots : s.tree.RootsAtZero
  skip : ∀ {h a}, s.pskip h = some a → (s.tree.entry h).pprev ≠ none ∧
    s.tree.ancestorAt h (getSkipHeight (s.tree.entry h).nHeight) = some a

/-- The invariant of the walk: where it stands, predecessors lead to the ancestor. -/
theorem Right.walk_eq {s : SkipIndex} (hs : s.Right) {height heightWalk : ℕ} {pindex : Uint256}
    (hwalk : (s.tree.entry pindex).nHeight = heightWalk) (hle : height ≤ heightWalk) :
    s.walk height (some pindex) heightWalk =
      .ok ((s.tree.prev)^[heightWalk - height] (some pindex)) := by
  induction heightWalk using Nat.strong_induction_on generalizing pindex with
  | _ heightWalk ih =>
    rw [walk]
    by_cases hmore : heightWalk > height
    · rw [dif_pos hmore]
      have hlt := getSkipHeight_lt (Nat.zero_lt_of_lt hmore)
      dsimp only
      split_ifs with hskip
      · obtain ⟨hsome,hbetter⟩ := hskip
        obtain ⟨a,ha⟩ := Option.ne_none_iff_exists'.mp hsome
        have hge : height ≤ getSkipHeight heightWalk := by
          rcases hbetter with heq | ⟨hgt,_⟩
          · exact heq.ge
          · exact hgt.le
        obtain ⟨_,hancestor⟩ := hs.skip ha
        rw [hwalk,BlockTree.ancestorAt_of_le (by omega),hwalk] at hancestor
        obtain ⟨a',ha',hheight⟩ := BlockTree.prev_iterate_height hs.tree hs.roots
          (show heightWalk - getSkipHeight heightWalk ≤ (s.tree.entry pindex).nHeight by omega)
        rw [hancestor] at ha'
        cases ha'
        rw [ha,ih _ hlt (by omega) hge,BlockTree.prev_iterate_trans hancestor]
        congr 3
        omega
      · cases hp : (s.tree.entry pindex).pprev with
        | none =>
          have := hs.roots pindex hp
          omega
        | some p =>
          have hheight := hs.tree.height hp
          have hone : (s.tree.prev)^[1] (some pindex) = some p := hp
          rw [ih _ (by omega) (by omega) (by omega),BlockTree.prev_iterate_trans hone]
          congr 3
          omega
    · rw [dif_neg hmore,show heightWalk - height = 0 by omega]
      rfl

theorem Right.getAncestor_eq {s : SkipIndex} (hs : s.Right) (pindex : Uint256) (height : ℤ) :
    s.getAncestor pindex height = .ok (s.tree.ancestorAt pindex height) := by
  unfold getAncestor BlockTree.ancestorAt
  split_ifs with h
  · rfl
  · rw [hs.walk_eq rfl (by omega)]

/-- The ancestor that the skip pointer of an entry leads to, if it has a predecessor. -/
def skipTarget (s : SkipIndex) (h : Uint256) : Option Uint256 :=
  if (s.tree.entry h).pprev = none then none
  else s.tree.ancestorAt h (getSkipHeight (s.tree.entry h).nHeight)

theorem Right.buildSkip_spec {s : SkipIndex} (hs : s.Right) (h : Uint256) :
    ∃ s', s.buildSkip h = .ok s' ∧ s'.Right ∧ s'.tree = s.tree ∧
      s'.pskip h = s.skipTarget h ∧ ∀ x, x ≠ h → s'.pskip x = s.pskip x := by
  unfold buildSkip
  cases hp : (s.tree.entry h).pprev with
  | none =>
    have htarget : s.skipTarget h = none := if_pos hp
    refine ⟨s,rfl,hs,rfl,?_,fun _ _ => rfl⟩
    rw [htarget,Option.eq_none_iff_forall_ne_some]
    exact fun a ha => (hs.skip ha).1 hp
  | some p =>
    have hheight := hs.tree.height hp
    have hlt := getSkipHeight_lt (show 0 < (s.tree.entry h).nHeight by omega)
    have hone : (s.tree.prev)^[1] (some h) = some p := hp
    have hnone : (s.tree.entry h).pprev ≠ none := by rw [hp]; exact Option.some_ne_none p
    have hancestor : s.tree.ancestorAt p (getSkipHeight (s.tree.entry h).nHeight) =
        s.tree.ancestorAt h (getSkipHeight (s.tree.entry h).nHeight) := by
      rw [BlockTree.ancestorAt_of_le (by omega),BlockTree.ancestorAt_of_le (by omega),
        BlockTree.prev_iterate_trans hone]
      congr 2
      omega
    have htarget : s.skipTarget h =
        s.tree.ancestorAt h (getSkipHeight (s.tree.entry h).nHeight) := if_neg hnone
    dsimp only
    rw [hs.getAncestor_eq,hancestor]
    refine ⟨_,rfl,⟨hs.tree,hs.roots,?_⟩,rfl,?_,fun x hx => Function.update_of_ne hx _ _⟩
    · intro x a hx
      dsimp only at hx ⊢
      by_cases heq : x = h
      · subst heq
        rw [Function.update_self] at hx
        exact ⟨hnone,hx⟩
      · rw [Function.update_of_ne heq] at hx
        exact hs.skip hx
    · rw [htarget]
      exact Function.update_self _ _ _

section
variable [Crypto] {block : CBlockHeader}

theorem rootsAtZero_addToBlockIndex {t : BlockTree} (hr : t.RootsAtZero) :
    (t.addToBlockIndex block).RootsAtZero := by
  intro h hp
  by_cases hmem : block.getHash ∈ t.mapBlockIndex
  · rw [BlockTree.addToBlockIndex_of_mem hmem] at hp ⊢
    exact hr h hp
  · by_cases hh : h = block.getHash
    · subst hh
      unfold BlockTree.addToBlockIndex at hp ⊢
      dsimp only at hp ⊢
      rw [if_neg hmem] at hp ⊢
      simp only [Function.update_self] at hp ⊢
      rw [hp]
    · rw [BlockTree.addToBlockIndex_of_ne t hh] at hp ⊢
      exact hr h hp

/-- Every skip pointer has been built. -/
def Built (s : SkipIndex) : Prop := ∀ h, s.pskip h = s.skipTarget h

omit [Crypto] in
theorem skipTarget_of_tree {s s' : SkipIndex} (h : s'.tree = s.tree) :
    s'.skipTarget = s.skipTarget := by
  unfold skipTarget
  rw [h]

theorem Right.addToBlockIndex_spec {s : SkipIndex} (hs : s.Right) (hbuilt : s.Built)
    (hself : block.getHash ≠ block.hashPrevBlock) :
    ∃ s', s.addToBlockIndex block = .ok s' ∧ s'.Right ∧ s'.Built ∧
      s'.tree = s.tree.addToBlockIndex block := by
  unfold addToBlockIndex
  by_cases hmem : block.getHash ∈ s.tree.mapBlockIndex
  · refine ⟨s,if_pos hmem,hs,hbuilt,?_⟩
    rw [BlockTree.addToBlockIndex_of_mem hmem]
  · have htree := hs.tree.addToBlockIndex hself
    have hsame : ∀ x ∈ s.tree.mapBlockIndex,
        (s.tree.addToBlockIndex block).entry x = s.tree.entry x := by
      intro x hx
      refine BlockTree.addToBlockIndex_of_ne s.tree ?_
      rintro rfl
      exact hmem hx
    have hright : Right ⟨s.tree.addToBlockIndex block,
        Function.update s.pskip block.getHash none⟩ := by
      refine ⟨htree,rootsAtZero_addToBlockIndex hs.roots,?_⟩
      intro h a hskip
      dsimp only at hskip ⊢
      by_cases hh : h = block.getHash
      · rw [hh,Function.update_self] at hskip
        cases hskip
      · rw [Function.update_of_ne hh] at hskip
        obtain ⟨hp,hancestor⟩ := hs.skip hskip
        obtain ⟨p,hp'⟩ := Option.ne_none_iff_exists'.mp hp
        have hin := hs.tree.mem_of_pprev hp'
        rw [hsame h hin,BlockTree.ancestorAt_congr hs.tree hsame hin]
        exact ⟨hp,hancestor⟩
    obtain ⟨s',hs',hright',htree',hnew,hrest⟩ := hright.buildSkip_spec block.getHash
    refine ⟨s',(if_neg hmem).trans hs',hright',fun h => ?_,htree'⟩
    rw [skipTarget_of_tree htree']
    by_cases hh : h = block.getHash
    · rw [hh,hnew]
    · rw [hrest h hh]
      change Function.update s.pskip block.getHash none h = _
      rw [Function.update_of_ne hh,hbuilt h]
      unfold skipTarget
      dsimp only
      rw [BlockTree.addToBlockIndex_of_ne s.tree hh]
      cases hp : (s.tree.entry h).pprev with
      | none => rfl
      | some p =>
        rw [BlockTree.ancestorAt_congr hs.tree hsame (hs.tree.mem_of_pprev hp)]

theorem addToBlockIndex_run {blocks : List CBlockHeader} {s : SkipIndex} (hs : s.Right)
    (hbuilt : s.Built) (hself : ∀ block ∈ blocks, block.getHash ≠ block.hashPrevBlock) :
    ∃ s', blocks.foldlM addToBlockIndex s = .ok s' ∧ s'.Right ∧ s'.Built ∧
      s'.tree = blocks.foldl BlockTree.addToBlockIndex s.tree := by
  induction blocks generalizing s with
  | nil => exact ⟨s,rfl,hs,hbuilt,rfl⟩
  | cons block blocks ih =>
    obtain ⟨m,hm,hright,hmbuilt,htree⟩ :=
      hs.addToBlockIndex_spec hbuilt (hself block List.mem_cons_self)
    obtain ⟨s',hs',hright',hbuilt',htree'⟩ :=
      ih hright hmbuilt fun b hb => hself b (List.mem_cons_of_mem _ hb)
    refine ⟨s',foldlM_cons_ok.mpr ⟨m,hm,hs'⟩,hright',hbuilt',?_⟩
    rw [htree',htree]
    rfl

end

theorem buildSkip_run {entries : List Uint256} {s : SkipIndex} (hs : s.Right) :
    ∃ s', entries.foldlM buildSkip s = .ok s' ∧ s'.Right ∧ s'.tree = s.tree ∧
      ∀ h, h ∈ entries ∨ s.pskip h = s.skipTarget h → s'.pskip h = s.skipTarget h := by
  induction entries generalizing s with
  | nil => exact ⟨s,rfl,hs,rfl,fun h hh => hh.resolve_left List.not_mem_nil⟩
  | cons e entries ih =>
    obtain ⟨m,hm,hright,htree,hbuilt,hrest⟩ := hs.buildSkip_spec e
    obtain ⟨s',hs',hright',htree',hall⟩ := ih hright
    refine ⟨s',foldlM_cons_ok.mpr ⟨m,hm,hs'⟩,hright',htree'.trans htree,fun h hh => ?_⟩
    rw [skipTarget_of_tree htree] at hall
    refine hall h ?_
    by_cases he : h = e
    · exact Or.inr (he ▸ hbuilt)
    · rw [hrest h he]
      exact hh.imp_left fun hmem => (List.mem_cons.mp hmem).resolve_left he

theorem Right.empty : Right {} where
  tree := ⟨List.nodup_nil,(fun h => nomatch h),(fun h => nomatch h),fun _ => rfl⟩
  roots := fun _ _ => rfl
  skip := fun h => nomatch h

/-- Every ancestor is found, and skip pointers lead where they should. -/
def Complete (s : SkipIndex) : Prop :=
  (∀ pindex height, s.getAncestor pindex height = .ok (s.tree.ancestorAt pindex height)) ∧
    ∀ pindex, s.pskip pindex = s.skipTarget pindex

/-- In an index that blocks were added to one after another, and in one whose skip pointers are built
when it is loaded, `GetAncestor` ends where predecessors lead, and so does each skip pointer of an
entry that has a predecessor. -/
theorem skipIndex_complete [Crypto] :
    (∀ blocks : List CBlockHeader, (∀ block ∈ blocks, block.getHash ≠ block.hashPrevBlock) →
      ∃ s, blocks.foldlM addToBlockIndex {} = .ok s ∧
        s.tree = blocks.foldl BlockTree.addToBlockIndex {} ∧ s.Complete) ∧
    ∀ (t : BlockTree) (entries : List Uint256), t.IsTree → t.RootsAtZero →
      t.mapBlockIndex ⊆ entries →
        ∃ s, entries.foldlM buildSkip ⟨t,fun _ => none⟩ = .ok s ∧ s.tree = t ∧ s.Complete := by
  refine ⟨fun blocks hself => ?_,fun t entries ht hr hall => ?_⟩
  · have hbuilt : Built {} := fun _ => rfl
    obtain ⟨s,hs,hright,hbuilt,htree⟩ := addToBlockIndex_run Right.empty hbuilt hself
    exact ⟨s,hs,htree,fun pindex height => hright.getAncestor_eq pindex height,hbuilt⟩
  · have hstart : Right ⟨t,fun _ => none⟩ := ⟨ht,hr,fun h => nomatch h⟩
    obtain ⟨s,hs,hright,htree,hpskip⟩ := @buildSkip_run entries _ hstart
    refine ⟨s,hs,htree,fun pindex height => hright.getAncestor_eq pindex height,fun pindex => ?_⟩
    rw [skipTarget_of_tree htree]
    refine hpskip pindex ?_
    by_cases hmem : pindex ∈ t.mapBlockIndex
    · exact Or.inl (hall hmem)
    · right
      unfold skipTarget
      dsimp only
      rw [ht.outside hmem]
      rfl

/-- The first block is its own ancestor at its skip height, and has no skip pointer. -/
theorem first_no_skip : letI : Crypto := digitCrypto
    let hash := ({} : CBlockHeader).getHash
    ∃ s, [({} : CBlockHeader)].foldlM addToBlockIndex {} = .ok s ∧ hash ∈ s.tree.mapBlockIndex ∧
      s.tree.ancestorAt hash (getSkipHeight (s.tree.entry hash).nHeight) = some hash ∧
        s.pskip hash = none := by
  let : Crypto := digitCrypto
  have hself : ({} : CBlockHeader).getHash ≠ 0 := by decide +kernel
  obtain ⟨s,hs,hright,hbuilt,htree⟩ := @addToBlockIndex_run _ [{}] {} Right.empty (fun _ => rfl)
    (by simpa using hself)
  obtain ⟨e,he,_,_,_,_,hpprev,_⟩ := @BlockTree.addToBlockIndex_new {} _ {} List.not_mem_nil hself
  have hnone : (s.tree.entry ({} : CBlockHeader).getHash).pprev = none := by
    rw [htree,List.foldl_cons,List.foldl_nil,he,Option.eq_none_iff_forall_ne_some]
    exact fun p hp => absurd ((hpprev p).mp hp).1 List.not_mem_nil
  have hheight := hright.roots _ hnone
  refine ⟨s,hs,?_,?_,?_⟩
  · rw [htree]
    exact BlockTree.mem_addToBlockIndex {} {}
  · have hskip : getSkipHeight 0 = 0 := rfl
    rw [hheight,hskip,BlockTree.ancestorAt_of_le (Nat.zero_le _),hheight]
    rfl
  · exact (hbuilt _).trans (if_pos hnone)

end SkipIndex
end Sidechain
