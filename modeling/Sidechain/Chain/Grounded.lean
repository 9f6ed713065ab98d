import Sidechain.Chain.CandidateRun

/-! What every call keeps, whatever fails or is forgiven on the way: the tree of entries, and the
active chain as one of its paths. -/
namespace Sidechain
namespace BlockTree

variable {t t' : BlockTree} {addr : Uint256 → ℕ} {g : Uint256}

/-- The active chain is a path of the tree, and what waits for a parent is in the tree. -/
structure Grounded (g : Uint256) (t : BlockTree) : Prop where
  tree : t.IsTree
  rooted : t.Rooted g
  active : t.ActivePath
  tip_mem : ∀ {tip}, t.tip = some tip → tip ∈ t.mapBlockIndex
  unlinked_mem : ∀ {p h}, (p,h) ∈ t.mapBlocksUnlinked → h ∈ t.mapBlockIndex

theorem Grounded.empty (g : Uint256) : Grounded g {} where
  tree := LinkInvariant.empty.tree
  rooted :=
    { eq_genesis := fun hmem => absurd hmem List.not_mem_nil
      height := fun _ => rfl }
  active := fun _ htip => nomatch htip
  tip_mem := fun htip => nomatch htip
  unlinked_mem := fun hmem => absurd hmem List.not_mem_nil

namespace SameShape

theorem refl (t : BlockTree) : SameShape t t := (SameLinks.refl t).shape

theorem trans {t'' : BlockTree} (hs : SameShape t t') (hs' : SameShape t' t'') :
    SameShape t t'' where
  mapBlockIndex := hs'.mapBlockIndex.trans hs.mapBlockIndex
  pprev h := (hs'.pprev h).trans (hs.pprev h)
  nHeight h := (hs'.nHeight h).trans (hs.nHeight h)
  outside h hout := by rw [hs'.outside h (hs.mapBlockIndex ▸ hout),hs.outside h hout]

theorem rooted (hs : SameShape t t') (hr : t.Rooted g) : t'.Rooted g where
  eq_genesis hh hp := by
    rw [hs.mapBlockIndex] at hh
    rw [hs.pprev] at hp
    exact hr.eq_genesis hh hp
  height hp := by
    rw [hs.pprev] at hp
    rw [hs.nHeight,hr.height hp]

end SameShape

namespace Grounded

theorem congr (h : Grounded g t) (hs : SameShape t t') (hchain : t'.vChain = t.vChain)
    (hunlinked : ∀ {p x}, (p,x) ∈ t'.mapBlocksUnlinked → x ∈ t.mapBlockIndex) :
    Grounded g t' where
  tree := hs.isTree h.tree
  rooted := hs.rooted h.rooted
  active := by
    intro tip htip
    rw [hchain,hs.path]
    exact h.active tip (htip ▸ congrArg List.getLast? hchain.symm)
  tip_mem htip := by
    rw [hs.mapBlockIndex]
    exact h.tip_mem (htip ▸ congrArg List.getLast? hchain.symm)
  unlinked_mem hmem := by
    rw [hs.mapBlockIndex]
    exact hunlinked hmem

theorem of_sameLinks (h : Grounded g t) (hs : SameLinks t t') (hchain : t'.vChain = t.vChain) :
    Grounded g t' := by
  refine h.congr hs.shape hchain fun hmem => ?_
  rw [hs.mapBlocksUnlinked] at hmem
  exact h.unlinked_mem hmem

theorem setTip (h : Grounded g t) {p : Uint256} (hp : p ∈ t.mapBlockIndex) :
    Grounded g (t.setTip p) where
  tree := (sameLinks_setTip t p).shape.isTree h.tree
  rooted := (sameLinks_setTip t p).rooted h.rooted
  active := activePath_setTip t p
  tip_mem htip := by
    rw [tip_setTip] at htip
    cases htip
    exact hp
  unlinked_mem := h.unlinked_mem

theorem contains_iff (h : Grounded g t) {tip : Uint256} (htip : t.tip = some tip) {x : Uint256} :
    t.contains x = true ↔ x ∈ t.path tip :=
  BlockTree.contains_iff h.rooted h.tree h.active htip

theorem dropCandidate (h : Grounded g t) {pindexTest : Uint256} {above : List Uint256}
    (habove : above ⊆ t.mapBlockIndex) : SameShape t (t.dropCandidate pindexTest above) ∧
      (t.dropCandidate pindexTest above).vChain = t.vChain ∧
      Grounded g (t.dropCandidate pindexTest above) := by
  unfold BlockTree.dropCandidate
  dsimp only
  split_ifs
  · have hs := (sameLinks_setFailedChild habove).trans
      (sameLinks_eraseCandidates (t.setFailedChild above) (pindexTest::above))
    exact ⟨hs.shape,rfl,h.of_sameLinks hs rfl⟩
  · have hs : ∀ unlinked, SameShape t (({ t with mapBlocksUnlinked := unlinked }
        : BlockTree).eraseCandidates (pindexTest::above)) :=
      fun _ => ⟨rfl,fun _ => rfl,fun _ => rfl,fun _ _ => rfl⟩
    refine ⟨hs _,rfl,h.congr (hs _) rfl fun {p x} hmem => ?_⟩
    rcases List.mem_append.mp hmem with hmem | hmem
    · exact h.unlinked_mem hmem
    · obtain ⟨a,ha,hax⟩ := List.mem_filterMap.mp hmem
      obtain ⟨q,_,hq⟩ := Option.map_eq_some_iff.mp hax
      cases hq
      exact habove ha

theorem bestCandidate_mem {b : Uint256} (hbest : t.bestCandidate addr = some b) :
    b ∈ t.mapBlockIndex := by
  have hspec := t.foldl_betterCandidate addr
    (t.mapBlockIndex.filter (· ∈ t.setBlockIndexCandidates))
  rw [show List.foldl _ _ _ = some b from hbest] at hspec
  exact (List.mem_filter.mp hspec.1).1

theorem findMostWorkChain {fuel : ℕ} (h : Grounded g t) {chosen : Option Uint256}
    (hfind : BlockTree.findMostWorkChain addr fuel t = (chosen,t')) :
    SameShape t t' ∧ t'.vChain = t.vChain ∧ Grounded g t' ∧
      ∀ b, chosen = some b → b ∈ t.mapBlockIndex := by
  induction fuel generalizing t with
  | zero =>
    cases hfind
    exact ⟨SameShape.refl _,rfl,h,fun _ hb => nomatch hb⟩
  | succ fuel ih =>
    rw [BlockTree.findMostWorkChain] at hfind
    cases hbest : t.bestCandidate addr with
    | none =>
      rw [hbest] at hfind
      cases hfind
      exact ⟨SameShape.refl _,rfl,h,fun _ hb => nomatch hb⟩
    | some pindexNew =>
      have hnew := bestCandidate_mem hbest
      simp only [hbest] at hfind
      split at hfind
      · cases hfind
        refine ⟨SameShape.refl _,rfl,h,?_⟩
        rintro _ ⟨⟩
        exact hnew
      · rename_i pindexTest _ _
        have habove : ((t.path pindexNew).takeWhile fun h => !t.contains h).takeWhile
            (fun h => !t.unusable h) ⊆ t.mapBlockIndex := by
          intro x hx
          exact h.tree.path_subset hnew ((List.takeWhile_subset _) ((List.takeWhile_subset _) hx))
        obtain ⟨hs,hchain,h1⟩ := h.dropCandidate habove
        obtain ⟨hs',hchain',h2,hmem⟩ := ih h1 hfind
        exact ⟨hs.trans hs',hchain'.trans hchain,h2,fun b hb => hs.mapBlockIndex ▸ hmem b hb⟩

theorem disconnectTip (h : Grounded g t) (hstep : t.disconnectTip = some t') :
    ∃ tip p, t.tip = some tip ∧ (t.entry tip).pprev = some p ∧ t' = t.setTip p ∧
      Grounded g t' := by
  unfold BlockTree.disconnectTip at hstep
  cases htip : t.tip with
  | none =>
    rw [htip] at hstep
    cases hstep
  | some tip =>
    simp only [htip] at hstep
    cases hp : (t.entry tip).pprev with
    | none =>
      rw [hp] at hstep
      cases hstep
    | some p =>
      simp only [hp,Option.some.injEq] at hstep
      subst hstep
      exact ⟨tip,p,rfl,hp,rfl,h.setTip (h.tree.parent_mem hp)⟩

theorem disconnectTo {fork : Option Uint256} {fuel : ℕ} (h : Grounded g t)
    (hstep : BlockTree.disconnectTo fork fuel t = some t') : SameShape t t' ∧ Grounded g t' := by
  induction fuel generalizing t with
  | zero => cases hstep
  | succ fuel ih =>
    rw [BlockTree.disconnectTo] at hstep
    split_ifs at hstep with hend
    · cases hstep
      exact ⟨SameShape.refl _,h⟩
    · cases hdisc : t.disconnectTip with
      | none =>
        rw [hdisc] at hstep
        cases hstep
      | some t1 =>
        simp only [hdisc] at hstep
        obtain ⟨_,p,_,_,rfl,h1⟩ := h.disconnectTip hdisc
        obtain ⟨hs,h2⟩ := ih h1 hstep
        exact ⟨(sameLinks_setTip t p).shape.trans hs,h2⟩

theorem vChain_prune (t : BlockTree) (addr : Uint256 → ℕ) :
    (t.pruneBlockIndexCandidates addr).vChain = t.vChain := by
  unfold pruneBlockIndexCandidates
  cases t.tip <;> rfl

theorem connectBlocks (addr : Uint256 → ℕ) (connects : BlockTree → Uint256 → Bool)
    (old : Option Uint256) {vpindexToConnect : List Uint256} (h : Grounded g t)
    (hmem : vpindexToConnect ⊆ t.mapBlockIndex) :
    SameShape t (BlockTree.connectBlocks addr g connects old vpindexToConnect t) ∧
      Grounded g (BlockTree.connectBlocks addr g connects old vpindexToConnect t) := by
  induction vpindexToConnect generalizing t with
  | nil => exact ⟨SameShape.refl _,h⟩
  | cons p rest ih =>
    obtain ⟨hp,hrest⟩ := List.cons_subset.mp hmem
    rw [BlockTree.connectBlocks]
    split_ifs with hcon
    · have hs := (sameLinks_setTip t p).trans (sameLinks_prune (t.setTip p) addr)
      have h1 := (h.setTip hp).of_sameLinks (sameLinks_prune (t.setTip p) addr)
        (vChain_prune (t.setTip p) addr)
      dsimp only
      split_ifs
      · exact ⟨hs.shape,h1⟩
      · obtain ⟨hs',h2⟩ := ih h1 (by rwa [hs.mapBlockIndex])
        exact ⟨hs.shape.trans hs',h2⟩
    · have hs := (sameLinks_setFailedValid hp).trans
        (sameLinks_eraseCandidates (t.setFailedValid p) [p])
      exact ⟨hs.shape,h.of_sameLinks hs rfl⟩

theorem activateBestChainStep {connects : BlockTree → Uint256 → Bool} {target : Uint256}
    (h : Grounded g t) (hmem : target ∈ t.mapBlockIndex)
    (hstep : BlockTree.activateBestChainStep addr g connects target t = some t') :
    SameShape t t' ∧ Grounded g t' := by
  unfold BlockTree.activateBestChainStep at hstep
  dsimp only at hstep
  cases hdisc : BlockTree.disconnectTo (t.findFork target) (t.vChain.length + 1) t with
  | none =>
    rw [hdisc] at hstep
    cases hstep
  | some t1 =>
    rw [hdisc] at hstep
    cases hstep
    obtain ⟨hs,h1⟩ := h.disconnectTo hdisc
    have hsub : ((t.path target).takeWhile fun x => some x ≠ t.findFork target).reverse ⊆
        t1.mapBlockIndex := by
      intro x hx
      rw [hs.mapBlockIndex]
      exact h.tree.path_subset hmem (List.takeWhile_subset _ (List.mem_reverse.mp hx))
    obtain ⟨hs',h2⟩ := h1.connectBlocks addr connects t.tip hsub
    exact ⟨hs.trans hs',h2⟩

/-- The tip of the second tree is on the active chain of the first. -/
def Below (t t' : BlockTree) : Prop :=
  ∀ {tip'}, t'.tip = some tip' → ∃ tip, t.tip = some tip ∧ tip' ∈ t.path tip

theorem below_of_vChain (hchain : t'.vChain = t.vChain) : Below t t' := by
  intro tip htip
  exact ⟨tip,htip ▸ congrArg List.getLast? hchain.symm,IsTree.self_mem_path t tip⟩

theorem disconnectOff {pindex : Uint256} {fuel : ℕ} {done : Bool} (h : Grounded g t)
    (hstep : BlockTree.disconnectOff pindex fuel t = (t',done)) :
    SameShape t t' ∧ Grounded g t' ∧ Below t t' := by
  induction fuel generalizing t with
  | zero =>
    cases hstep
    exact ⟨SameShape.refl _,h,below_of_vChain rfl⟩
  | succ fuel ih =>
    rw [BlockTree.disconnectOff] at hstep
    split_ifs at hstep with hcon
    swap
    · cases hstep
      exact ⟨SameShape.refl _,h,below_of_vChain rfl⟩
    cases htip : t.tip with
    | none =>
      rw [contains_of_no_tip htip] at hcon
      cases hcon
    | some tip =>
      simp only [htip] at hstep
      have hmark := (sameLinks_setFailedChild
        (List.cons_subset.mpr ⟨h.tip_mem htip,List.nil_subset _⟩)).trans
          (sameLinks_eraseCandidates (t.setFailedChild [tip]) [tip])
      have h1 := h.of_sameLinks hmark rfl
      cases hdisc : ((t.setFailedChild [tip]).eraseCandidates [tip]).disconnectTip with
      | none =>
        rw [hdisc] at hstep
        cases hstep
        exact ⟨hmark.shape,h1,fun htip' => ⟨_,htip',IsTree.self_mem_path t _⟩⟩
      | some t2 =>
        simp only [hdisc] at hstep
        obtain ⟨tip',p,htip',hp,rfl,h2⟩ := h1.disconnectTip hdisc
        cases htip.symm.trans htip'
        obtain ⟨hs,h3,hbelow⟩ := ih h2 hstep
        have hs2 := hmark.trans (sameLinks_setTip ((t.setFailedChild [tip]).eraseCandidates [tip]) p)
        refine ⟨hs2.shape.trans hs,h3,fun {tip'} htip' => ⟨tip,htip,?_⟩⟩
        obtain ⟨q,hq,hmem⟩ := hbelow htip'
        rw [tip_setTip] at hq
        cases hq
        rw [hs2.path] at hmem
        rw [hmark.shape.pprev] at hp
        rw [h.tree.path_child hp]
        exact List.mem_cons_of_mem _ hmem

theorem invalidateBlock {pindex : Uint256} (h : Grounded g t) (hmem : pindex ∈ t.mapBlockIndex)
    (hstep : t.invalidateBlock addr pindex = some t') :
    SameShape t t' ∧ Grounded g t' ∧ Below t t' := by
  have hmark := (sameLinks_setFailedValid hmem).trans
    (sameLinks_eraseCandidates (t.setFailedValid pindex) [pindex])
  unfold BlockTree.invalidateBlock at hstep
  dsimp only at hstep
  cases hoff : BlockTree.disconnectOff pindex
    (((t.setFailedValid pindex).eraseCandidates [pindex]).vChain.length + 1)
    ((t.setFailedValid pindex).eraseCandidates [pindex]) with
  | mk t2 done =>
    rw [hoff] at hstep
    obtain ⟨hs,h2,hbelow⟩ := (h.of_sameLinks hmark rfl).disconnectOff hoff
    have hbelow' : Below t t2 := by
      intro tip' htip'
      obtain ⟨tip,htip,hin⟩ := hbelow htip'
      exact ⟨tip,htip,hmark.path tip ▸ hin⟩
    cases done with
    | false =>
      cases hstep
      exact ⟨hmark.shape.trans hs,h2,hbelow'⟩
    | true =>
      dsimp only at hstep
      cases htip : t2.tip with
      | none =>
        rw [htip] at hstep
        cases hstep
      | some tip =>
        rw [htip] at hstep
        cases hstep
        have hlast : ∀ candidates, SameLinks t2 { t2 with setBlockIndexCandidates := candidates } :=
          fun _ => SameLinks.of_entry rfl rfl rfl rfl
        exact ⟨(hmark.shape.trans hs).trans (hlast _).shape,h2.of_sameLinks (hlast _) rfl,hbelow'⟩

theorem reconsiderBlock {pindex : Uint256} (h : Grounded g t) (hmem : pindex ∈ t.mapBlockIndex)
    (hstep : t.reconsiderBlock addr pindex = some t') :
    SameShape t t' ∧ Grounded g t' ∧ t'.vChain = t.vChain := by
  unfold BlockTree.reconsiderBlock at hstep
  cases htip : t.tip with
  | none =>
    rw [htip] at hstep
    cases hstep
  | some tip =>
    rw [htip] at hstep
    dsimp only at hstep
    cases hstep
    have hs : ∀ candidates, SameLinks t { t.clearFailed pindex with
        setBlockIndexCandidates := candidates } := fun _ =>
      (sameLinks_clearFailed h.tree hmem).trans (SameLinks.of_entry rfl rfl rfl rfl)
    exact ⟨(hs _).shape,h.of_sameLinks (hs _) rfl,rfl⟩

theorem linkQueue (addr : Uint256 → ℕ) (fuel : ℕ) {queue : List Uint256} (h : Grounded g t)
    (hqueue : queue ⊆ t.mapBlockIndex) : SameShape t (BlockTree.linkQueue addr fuel queue t) ∧
      (BlockTree.linkQueue addr fuel queue t).vChain = t.vChain ∧
      Grounded g (BlockTree.linkQueue addr fuel queue t) := by
  induction fuel generalizing t queue with
  | zero => exact ⟨SameShape.refl t,rfl,h⟩
  | succ fuel ih =>
    cases queue with
    | nil => exact ⟨SameShape.refl t,rfl,h⟩
    | cons q queue =>
      obtain ⟨hq,hrest⟩ := List.cons_subset.mp hqueue
      have hs : SameShape t (t.linkBlock addr q) := sameShape_update (linkBlock_entry t addr q)
        (linkBlock_mapBlockIndex t addr q) hq rfl rfl
      have hchain := linkBlock_vChain t addr q
      have h1 : Grounded g (t.linkBlock addr q) :=
        h.congr hs hchain fun hmem => h.unlinked_mem (List.mem_filter.mp hmem).1
      have hnext : queue ++ t.unlinkedChildren q ⊆ (t.linkBlock addr q).mapBlockIndex := by
        rw [hs.mapBlockIndex]
        refine List.append_subset.mpr ⟨hrest,fun x hx => ?_⟩
        exact h.unlinked_mem (mem_unlinkedChildren.mp hx)
      obtain ⟨hs',hchain',h2⟩ := ih h1 hnext
      exact ⟨hs.trans hs',hchain'.trans hchain,h2⟩

theorem receivedBlockTransactions (addr : Uint256 → ℕ) (block : CBlock) {pindex : Uint256}
    (h : Grounded g t) (hmem : pindex ∈ t.mapBlockIndex) :
    SameShape t (t.receivedBlockTransactions addr block pindex) ∧
      (t.receivedBlockTransactions addr block pindex).vChain = t.vChain ∧
      Grounded g (t.receivedBlockTransactions addr block pindex) := by
  have hs : SameShape t (t.setReceived pindex block.vtx.length) :=
    sameShape_update rfl rfl hmem rfl rfl
  have h1 : Grounded g (t.setReceived pindex block.vtx.length) := h.congr hs rfl h.unlinked_mem
  have hlink := h1.linkQueue addr
    ((t.setReceived pindex block.vtx.length).mapBlocksUnlinked.length + 1)
    (List.cons_subset.mpr ⟨hmem,List.nil_subset _⟩)
  have hlinked := And.intro (hs.trans hlink.1) (And.intro hlink.2.1 hlink.2.2)
  unfold BlockTree.receivedBlockTransactions
  dsimp only
  cases ((t.setReceived pindex block.vtx.length).entry pindex).pprev with
  | none => exact hlinked
  | some p =>
    dsimp only
    split_ifs
    · exact hlinked
    · have hs' : ∀ unlinked, SameShape t { t.setReceived pindex block.vtx.length with
          mapBlocksUnlinked := unlinked } := fun _ => sameShape_update rfl rfl hmem rfl rfl
      refine ⟨hs' _,rfl,h.congr (hs' _) rfl fun {q x} hin => ?_⟩
      rcases List.mem_append.mp hin with hin | hin
      · exact h.unlinked_mem hin
      · cases List.mem_singleton.mp hin
        exact hmem
    · exact ⟨hs,rfl,h1⟩

end Grounded

/-- The entries of the first tree are where they were in the second one. -/
structure Grows (t t' : BlockTree) : Prop where
  mapBlockIndex : t.mapBlockIndex ⊆ t'.mapBlockIndex
  pprev : ∀ {h}, h ∈ t.mapBlockIndex → (t'.entry h).pprev = (t.entry h).pprev
  path : ∀ {h}, h ∈ t.mapBlockIndex → t'.path h = t.path h

theorem SameShape.grows (hs : SameShape t t') : Grows t t' where
  mapBlockIndex := hs.mapBlockIndex ▸ List.Subset.refl _
  pprev _ := hs.pprev _
  path _ := hs.path _

theorem Grows.trans {t'' : BlockTree} (h : Grows t t') (h' : Grows t' t'') : Grows t t'' where
  mapBlockIndex := fun _ hh => h'.mapBlockIndex (h.mapBlockIndex hh)
  pprev hh := (h'.pprev (h.mapBlockIndex hh)).trans (h.pprev hh)
  path hh := (h'.path (h.mapBlockIndex hh)).trans (h.path hh)

section
variable [Crypto]

theorem Grounded.addToBlockIndex {block : CBlockHeader} (h : Grounded g t)
    (hself : block.getHash ≠ block.hashPrevBlock) (hroot : block.getHash ∉ t.mapBlockIndex →
      block.getHash = g ∨ block.hashPrevBlock ∈ t.mapBlockIndex) :
    Grows t (t.addToBlockIndex block) ∧
      (t.addToBlockIndex block).vChain = t.vChain ∧ Grounded g (t.addToBlockIndex block) := by
  have hchain := (addToBlockIndex_chain t block).1
  have htip : (t.addToBlockIndex block).tip = t.tip := congrArg List.getLast? hchain
  have hsub : t.mapBlockIndex ⊆ (t.addToBlockIndex block).mapBlockIndex := by
    by_cases hmem : block.getHash ∈ t.mapBlockIndex
    · rw [addToBlockIndex_of_mem hmem]
      exact List.Subset.refl _
    · rw [addToBlockIndex_mapBlockIndex hmem]
      exact List.subset_cons_self _ _
  have hgrows : Grows t (t.addToBlockIndex block) := by
    refine ⟨hsub,fun {x} hx => ?_,h.tree.path_addToBlockIndex hself⟩
    by_cases hmem : block.getHash ∈ t.mapBlockIndex
    · rw [addToBlockIndex_of_mem hmem]
    · rw [addToBlockIndex_of_ne]
      rintro rfl
      exact hmem hx
  refine ⟨hgrows,hchain,h.tree.addToBlockIndex hself,h.rooted.addToBlockIndex hself hroot,?_,?_,?_⟩
  · intro tip h'
    rw [htip] at h'
    rw [hchain,hgrows.path (h.tip_mem h')]
    exact h.active tip h'
  · intro tip h'
    rw [htip] at h'
    exact hsub (h.tip_mem h')
  · intro p x hmem
    rw [(addToBlockIndex_unlinked t block).1] at hmem
    exact hsub (h.unlinked_mem hmem)

theorem Grounded.acceptBlockHeader {block : CBlockHeader} {passes : Bool} (h : Grounded g t)
    (hself : block.getHash ≠ block.hashPrevBlock)
    (hstep : t.acceptBlockHeader g block passes = some t') :
    Grows t t' ∧ t'.vChain = t.vChain ∧ Grounded g t' ∧ block.getHash ∈ t'.mapBlockIndex := by
  unfold BlockTree.acceptBlockHeader at hstep
  dsimp only at hstep
  split_ifs at hstep with hfirst hmem _ _ hprev _
  · cases hstep
    obtain ⟨hgrows,hchain,h1⟩ := h.addToBlockIndex hself fun _ => Or.inl hfirst
    exact ⟨hgrows,hchain,h1,mem_addToBlockIndex t block⟩
  · cases hstep
    exact ⟨(SameShape.refl _).grows,rfl,h,hmem⟩
  · cases hstep
    obtain ⟨hgrows,hchain,h1⟩ := h.addToBlockIndex hself fun _ => Or.inr hprev
    exact ⟨hgrows,hchain,h1,mem_addToBlockIndex t block⟩

theorem Grounded.processBlock {block : CBlock} {headerPasses passes : Bool} (h : Grounded g t)
    (hself : block.toCBlockHeader.getHash ≠ block.hashPrevBlock) :
    Grows t (t.processBlock addr g block headerPasses passes) ∧
      (t.processBlock addr g block headerPasses passes).vChain = t.vChain ∧
      Grounded g (t.processBlock addr g block headerPasses passes) := by
  unfold BlockTree.processBlock
  cases haccept : t.acceptBlockHeader g block.toCBlockHeader headerPasses with
  | none => exact ⟨(SameShape.refl t).grows,rfl,h⟩
  | some t1 =>
    obtain ⟨hgrows,hchain,h1,hmem⟩ := h.acceptBlockHeader hself haccept
    dsimp only
    split_ifs
    · exact ⟨hgrows,hchain,h1⟩
    · obtain ⟨hs,hchain',h2⟩ := h1.receivedBlockTransactions addr block hmem
      exact ⟨hgrows.trans hs.grows,hchain'.trans hchain,h2⟩
    · have hs := sameLinks_setFailedValid hmem
      exact ⟨hgrows.trans hs.shape.grows,hchain,h1.of_sameLinks hs rfl⟩

end

end BlockTree
end Sidechain
