import Sidechain.Chain.Candidates

/-! Blocks that are marked as failed or forgiven, by their own checks or by hand, and the candidates
afterwards. -/
namespace Sidechain
namespace BlockTree

variable {t t' : BlockTree} {addr : Uint256 → ℕ} {g : Uint256}

theorem unfailed_setFailedValid {pindex h : Uint256} :
    (t.setFailedValid pindex).Unfailed h ↔ h ≠ pindex ∧ t.Unfailed h := by
  unfold Unfailed
  rw [setFailedValid_entry]
  split_ifs with hh
  · exact iff_of_false (by simp [BlockStatus.failed]) fun h => h.1 hh
  · exact ⟨fun h => ⟨hh,h⟩,And.right⟩

theorem unfailed_setFailedChild {hs : List Uint256} {h : Uint256} :
    (t.setFailedChild hs).Unfailed h ↔ h ∉ hs ∧ t.Unfailed h := by
  unfold Unfailed setFailedChild
  dsimp only
  split_ifs with hh
  · exact iff_of_false (by simp [BlockStatus.failed]) fun h => h.1 hh
  · exact ⟨fun h => ⟨hh,h⟩,And.right⟩

theorem mem_eraseCandidates {hs : List Uint256} {h : Uint256} :
    h ∈ (t.eraseCandidates hs).setBlockIndexCandidates ↔
      h ∈ t.setBlockIndexCandidates ∧ h ∉ hs := by
  unfold eraseCandidates
  rw [Finset.mem_sdiff,List.mem_toFinset]

theorem unfailed_clearFailed {pindex h : Uint256} : (t.clearFailed pindex).Unfailed h ↔
    t.Unfailed h ∨ t.reconsidered pindex h = true ∨ h ∈ t.path pindex := by
  unfold Unfailed clearFailed
  dsimp only
  split_ifs with hh
  · rw [Bool.or_eq_true,decide_eq_true_eq] at hh
    exact iff_of_true rfl (Or.inr hh)
  · rw [Bool.or_eq_true,decide_eq_true_eq] at hh
    rw [or_iff_left hh]

theorem Complete.fail {best : Option Uint256} (hc : Complete t addr best) (hs : SameLinks t t')
    (hunfailed : ∀ {h}, t'.Unfailed h → t.Unfailed h)
    (hcand : ∀ {h}, h ∈ t.setBlockIndexCandidates → t'.Unfailed h →
      h ∈ t'.setBlockIndexCandidates) : Complete t' addr best := by
  intro h hl hf hrank
  rw [hs.rank] at hrank
  exact hcand (hc h (hs.linked.mp hl) (hunfailed hf) hrank) hf

/-- Between two rounds of `InvalidateBlock`: the tip has moved down, and what was marked on the way
lies above the block. -/
structure Receding (t t' : BlockTree) (pindex : Uint256) : Prop extends SameLinks t t' where
  tip : ∀ {old}, t.tip = some old → ∃ tip, t'.tip = some tip ∧ tip ∈ t.path old
  no_tip : t.tip = none → t'.tip = none
  active : t'.ActivePath
  candidates : t'.setBlockIndexCandidates ⊆ t.setBlockIndexCandidates
  marked : ∀ {h}, t.Unfailed h → t'.Unfailed h ∨ pindex ∈ t.path h

theorem disconnectTip_of_pprev {tip p : Uint256} (htip : t.tip = some tip)
    (hp : (t.entry tip).pprev = some p) : t.disconnectTip = some (t.setTip p) := by
  unfold disconnectTip
  simp only [htip,hp]

theorem activePath_setTip (t : BlockTree) (p : Uint256) : (t.setTip p).ActivePath := by
  intro tip htip
  rw [tip_setTip] at htip
  cases htip
  rw [(sameLinks_setTip t p).path]
  rfl

/-- One round: the tip is marked and disconnected. -/
theorem Receding.disconnect {pindex tip p : Uint256} (hr : Receding t t' pindex) (ht : t.IsTree)
    (hmem : tip ∈ t.mapBlockIndex) (hold : t.tip = none → False) (htip : t'.tip = some tip)
    (hp : (t.entry tip).pprev = some p) (hbelow : pindex ∈ t.path tip) :
    Receding t (((t'.setFailedChild [tip]).eraseCandidates [tip]).setTip p) pindex where
  toSameLinks := hr.toSameLinks.trans
    ((sameLinks_setFailedChild (by
      rw [hr.mapBlockIndex,List.cons_subset]
      exact ⟨hmem,List.nil_subset _⟩)).trans
      ((sameLinks_eraseCandidates _ _).trans (sameLinks_setTip _ _)))
  tip := by
    intro old h
    obtain ⟨tip',htip',hpath⟩ := hr.tip h
    rw [htip] at htip'
    cases htip'
    refine ⟨p,tip_setTip _ _,ht.mem_path_trans ?_ hpath⟩
    rw [ht.path_child hp]
    exact List.mem_cons_of_mem _ (IsTree.self_mem_path t p)
  no_tip h := (hold h).elim
  active := activePath_setTip _ _
  candidates h hh := hr.candidates (mem_eraseCandidates.mp hh).1
  marked := by
    intro h hf
    rcases hr.marked hf with hf' | hmarked
    · by_cases hh : h = tip
      · exact Or.inr (hh ▸ hbelow)
      · refine Or.inl (unfailed_setFailedChild.mpr ⟨?_,hf'⟩)
        rwa [List.mem_singleton]
    · exact Or.inr hmarked

theorem Receding.disconnectOff {pindex : Uint256} {fuel : ℕ} (hr : Receding t t' pindex)
    (hi : ChainSound g t []) (hne : pindex ≠ g)
    (hfuel : ∀ tip, t'.tip = some tip → (t.entry tip).nHeight < fuel) (hpos : 0 < fuel) :
    ∃ t'', BlockTree.disconnectOff pindex fuel t' = (t'',true) ∧ Receding t t'' pindex ∧
      t''.contains pindex = false := by
  induction fuel generalizing t' with
  | zero => exact absurd hpos (lt_irrefl 0)
  | succ fuel ih =>
    rw [BlockTree.disconnectOff]
    cases hcon : t'.contains pindex with
    | false => exact ⟨t',by simp,hr,hcon⟩
    | true =>
      cases htip : t'.tip with
      | none =>
        rw [contains_of_no_tip htip] at hcon
        cases hcon
      | some tip =>
        have hbelow : pindex ∈ t.path tip := by
          rw [contains_iff (hr.rooted hi.rooted) (hr.shape.isTree hi.tree) hr.active htip,
            hr.path] at hcon
          exact hcon
        have hold : t.tip ≠ none := by
          intro hnone
          rw [hr.no_tip hnone] at htip
          cases htip
        obtain ⟨old,hold'⟩ := Option.ne_none_iff_exists'.mp hold
        obtain ⟨tip',htip',hpath⟩ := hr.tip hold'
        rw [htip] at htip'
        cases htip'
        have hmem : tip ∈ t.mapBlockIndex :=
          hi.tree.path_subset (hi.linked_mem (hi.tip_linked hold')) hpath
        cases hp : (t.entry tip).pprev with
        | none =>
          rw [IsTree.path_root hp,List.mem_singleton] at hbelow
          exact absurd (hbelow.trans (hi.rooted.eq_genesis hmem hp)) hne
        | some p =>
          have hdisc : ((t'.setFailedChild [tip]).eraseCandidates [tip]).disconnectTip =
              some (((t'.setFailedChild [tip]).eraseCandidates [tip]).setTip p) := by
            refine disconnectTip_of_pprev htip ?_
            rw [← hp,← hr.shape.pprev]
            exact (sameLinks_setFailedChild (by
              rw [hr.mapBlockIndex,List.cons_subset]
              exact ⟨hmem,List.nil_subset _⟩)).shape.pprev tip
          have hheight := hi.tree.height hp
          have hlt := hfuel tip htip
          simp only [if_true,hdisc]
          refine ih (hr.disconnect hi.tree hmem hold htip hp hbelow) ?_ (by omega)
          intro q hq
          rw [tip_setTip] at hq
          cases hq
          omega

/-- `InvalidateBlock` looks at all entries, so that nothing above the new tip is left out. -/
theorem ChainSound.invalidateBlock {pindex : Uint256} (hi : ChainSound g t [])
    (hgenesis : t.Unfailed g) (hmem : pindex ∈ t.mapBlockIndex) (hne : pindex ≠ g)
    (hstep : t.invalidateBlock addr pindex = some t') :
    ChainSound g t' [] ∧ Complete t' addr t'.tip ∧ t'.Unfailed g ∧ SameLinks t t' := by
  have hstart : Receding t ((t.setFailedValid pindex).eraseCandidates [pindex]) pindex :=
    { toSameLinks := (sameLinks_setFailedValid hmem).trans (sameLinks_eraseCandidates _ _)
      tip := fun h => ⟨_,h,IsTree.self_mem_path t _⟩
      no_tip := fun h => h
      active := hi.active.congr ((sameLinks_setFailedValid hmem).trans
        (sameLinks_eraseCandidates _ _)) rfl
      candidates := fun h hh => (mem_eraseCandidates.mp hh).1
      marked := by
        intro h hf
        by_cases hh : h = pindex
        · exact Or.inr (hh ▸ IsTree.self_mem_path t h)
        · exact Or.inl (unfailed_setFailedValid.mpr ⟨hh,hf⟩) }
  obtain ⟨t2,hoff,hr,hcon⟩ := hstart.disconnectOff hi hne (by
    intro tip htip
    rw [hi.active tip htip,List.length_reverse,hi.rooted.length_path hi.tree]
    omega) (Nat.succ_pos t.vChain.length)
  unfold BlockTree.invalidateBlock at hstep
  simp only at hstep
  rw [show ((t.setFailedValid pindex).eraseCandidates [pindex]).vChain = t.vChain from rfl,
    hoff] at hstep
  simp only at hstep
  cases htip : t2.tip with
  | none =>
    rw [htip] at hstep
    cases hstep
  | some tip =>
    rw [htip] at hstep
    simp only [Option.some.injEq] at hstep
    have hs : SameLinks t t' := hr.toSameLinks.trans (hstep ▸ SameLinks.of_entry rfl rfl rfl rfl)
    have htip' : t'.tip = some tip := hstep ▸ htip
    have hunfailed : ∀ {h}, t'.Unfailed h ↔ t2.Unfailed h := hstep ▸ Iff.rfl
    have hsound : ChainSound g t' [] := by
      refine hi.congr hs ?_ ?_ ?_
      · exact hr.active.congr (hstep ▸ SameLinks.of_entry rfl rfl rfl rfl) (hstep ▸ rfl)
      · intro tip' a h ha
        rw [htip'] at h
        cases h
        have hold : t.tip ≠ none := fun hnone => nomatch (hr.no_tip hnone).symm.trans htip
        obtain ⟨old,hold'⟩ := Option.ne_none_iff_exists'.mp hold
        obtain ⟨_,h2,hpath⟩ := hr.tip hold'
        rw [htip] at h2
        cases h2
        obtain ⟨hl,hf⟩ := hi.usable hold' (hi.tree.mem_path_trans ha hpath)
        refine ⟨hl,hunfailed.mpr ((hr.marked hf).resolve_right fun habove => ?_)⟩
        have hin := hi.tree.mem_path_trans habove ha
        rw [← Bool.not_eq_true,contains_iff (hr.rooted hi.rooted) (hr.shape.isTree hi.tree)
          hr.active htip,hr.path] at hcon
        exact hcon hin
      · intro h hh
        rw [← hstep] at hh
        rcases Finset.mem_union.mp hh with hh | hh
        · exact hi.candidate (hr.candidates hh)
        · simp only [List.mem_toFinset,List.mem_filter,Bool.and_eq_true,ready,bne_iff_ne] at hh
          exact hr.linked.mp hh.2.1.2
    refine ⟨hsound,?_,?_,hs⟩
    · intro h hl hf hrank
      have hrank' := (workLess_eq_false t' addr h tip).mpr (hrank tip htip')
      have hready : t'.ready h = true := hsound.ready_iff.mpr ⟨hl,hf⟩
      have hin : h ∈ t'.mapBlockIndex := hsound.linked_mem hl
      rw [← hstep] at hrank' hready hin ⊢
      refine Finset.mem_union_right _ ?_
      rw [List.mem_toFinset,List.mem_filter,Bool.and_eq_true,Bool.not_eq_true']
      exact ⟨hin,hready,hrank'⟩
    · refine hunfailed.mpr ((hr.marked hgenesis).resolve_right fun habove => ?_)
      rw [hi.rooted.path_genesis hi.tree,List.mem_singleton] at habove
      exact hne habove

/-- `ReconsiderBlock` forgives all ancestors, but looks for candidates among `pindex` and its
descendants only: the forgiven ancestors have to be worse than the tip. -/
def ForgivesWorse (t : BlockTree) (addr : Uint256 → ℕ) (pindex : Uint256) : Prop :=
  ∀ a ∈ t.path pindex, a ≠ pindex → (t.entry a).nStatus.failed = true →
    (t.entry a).nChainTx ≠ 0 → ∀ tip, t.tip = some tip → t.workLess addr a tip = true

theorem ChainSound.reconsiderBlock {pindex : Uint256} (hi : ChainSound g t [])
    (hc : Complete t addr t.tip) (hgenesis : t.Unfailed g) (hbound : t.totalTx < 2^32)
    (hmem : pindex ∈ t.mapBlockIndex) (hworse : t.ForgivesWorse addr pindex)
    (hstep : t.reconsiderBlock addr pindex = some t') :
    ChainSound g t' [] ∧ Complete t' addr t'.tip ∧ t'.Unfailed g ∧ SameLinks t t' := by
  unfold BlockTree.reconsiderBlock at hstep
  cases htip : t.tip with
  | none =>
    rw [htip] at hstep
    cases hstep
  | some tip =>
    rw [htip] at hstep
    simp only [Option.some.injEq] at hstep
    have hclear := sameLinks_clearFailed hi.tree hmem
    have hs : SameLinks t t' := hclear.trans (hstep ▸ SameLinks.of_entry rfl rfl rfl rfl)
    have htip' : t'.tip = some tip := hstep ▸ htip
    have hunfailed : ∀ {h}, t'.Unfailed h ↔
        t.Unfailed h ∨ t.reconsidered pindex h = true ∨ h ∈ t.path pindex :=
      unfailed_clearFailed.symm.trans (hstep ▸ Iff.rfl) |>.symm
    have hsound : ChainSound g t' [] := by
      refine hi.congr hs (hi.active.congr hs (hstep ▸ rfl)) ?_ ?_
      · intro tip' a h ha
        rw [htip'] at h
        cases h
        obtain ⟨hl,hf⟩ := hi.usable htip ha
        exact ⟨hl,hunfailed.mpr (Or.inl hf)⟩
      · intro h hh
        rw [← hstep] at hh
        rcases Finset.mem_union.mp hh with hh | hh
        · exact hi.candidate hh
        · simp only [List.mem_toFinset,List.mem_filter,Bool.and_eq_true,ready,bne_iff_ne] at hh
          exact hclear.linked.mp hh.2.1.2.2
    refine ⟨hsound,?_,hunfailed.mpr (Or.inl hgenesis),hs⟩
    intro h hl hf hrank
    have hl' := hs.linked.mp hl
    have hle : t.rank addr tip ≤ t.rank addr h := by
      rw [← hs.rank]
      exact hrank tip htip'
    by_cases hold : t.Unfailed h
    · rw [← hstep]
      refine Finset.mem_union_left _ (hc h hl' hold ?_)
      rw [htip]
      rintro _ ⟨⟩
      exact hle
    · have hfailed : (t.entry h).nStatus.failed = true := Bool.not_eq_false _ ▸ hold
      have hlook : t.reconsidered pindex h = true := by
        rcases (hunfailed.mp hf).resolve_left hold with hlook | hpath
        · exact hlook
        · by_cases hh : h = pindex
          · have hself : pindex ∈ t.path h := hh ▸ IsTree.self_mem_path t pindex
            unfold reconsidered BlockStatus.isValid
            simp [hfailed,hi.linked_mem hl',hself]
          · have hless := hworse h hpath hh hfailed hl' tip htip
            exact absurd hle (not_le.mpr ((workLess_iff t addr h tip).mp hless))
      have hless : t.workLess addr tip h = true := by
        refine (workLess_iff t addr tip h).mpr (lt_of_le_of_ne hle fun heq => ?_)
        refine hold ?_
        rw [← hi.rank_injective hbound (hi.tip_linked htip) hl' heq]
        exact (hi.usable htip (IsTree.self_mem_path t tip)).2
      have hready : t'.ready h = true := hsound.ready_iff.mpr ⟨hl,hf⟩
      rw [← hstep] at hready ⊢
      refine Finset.mem_union_right _ ?_
      rw [List.mem_toFinset,List.mem_filter,Bool.and_eq_true,Bool.and_eq_true]
      exact ⟨hi.linked_mem hl',⟨hlook,hready⟩,hless⟩

section
variable [Crypto] {block : CBlock}

/-- A header that is accepted is stored, above a stored one unless it is the first, and not
failed. -/
theorem acceptBlockHeader_some {header : CBlockHeader} {passes : Bool}
    (hgenesis : t.Unfailed g) (hself : header.getHash ≠ header.hashPrevBlock)
    (h : t.acceptBlockHeader g header passes = some t') :
    t' = t.addToBlockIndex header ∧ t'.Unfailed header.getHash ∧
      (header.getHash ∉ t.mapBlockIndex →
        header.getHash = g ∨ header.hashPrevBlock ∈ t.mapBlockIndex) := by
  have hnew : header.getHash ∉ t.mapBlockIndex →
      (t.addToBlockIndex header).Unfailed header.getHash := by
    intro hmem
    obtain ⟨e,he,_,_,_,hvalid,_⟩ := addToBlockIndex_new hmem hself
    unfold BlockStatus.isValid at hvalid
    rw [Bool.and_eq_true,Bool.not_eq_true'] at hvalid
    rw [Unfailed,he]
    exact hvalid.1
  unfold acceptBlockHeader at h
  simp only at h
  split_ifs at h with hfirst hmem hfailed hpasses hprev hbad
  · cases h
    refine ⟨rfl,?_,fun _ => Or.inl hfirst⟩
    by_cases hmem : header.getHash ∈ t.mapBlockIndex
    · rw [addToBlockIndex_of_mem hmem,hfirst]
      exact hgenesis
    · exact hnew hmem
  · cases h
    exact ⟨(addToBlockIndex_of_mem hmem).symm,(Bool.not_eq_true _).mp hfailed,fun hn => absurd hmem hn⟩
  · cases h
    exact ⟨rfl,hnew hmem,fun _ => Or.inr hprev⟩

theorem unfailed_addToBlockIndex {header : CBlockHeader} (hgenesis : t.Unfailed g)
    (hself : header.getHash ≠ header.hashPrevBlock) : (t.addToBlockIndex header).Unfailed g := by
  by_cases hmem : header.getHash ∈ t.mapBlockIndex
  · rwa [addToBlockIndex_of_mem hmem]
  by_cases hg : g = header.getHash
  · obtain ⟨e,he,_,_,_,hvalid,_⟩ := addToBlockIndex_new hmem hself
    unfold BlockStatus.isValid at hvalid
    rw [Bool.and_eq_true,Bool.not_eq_true'] at hvalid
    rw [Unfailed,hg,he]
    exact hvalid.1
  · rw [Unfailed,addToBlockIndex_of_ne t hg]
    exact hgenesis

omit [Crypto] in
/-- Data that arrives for an entry that has not failed makes it, and what waits for it, candidates
if they have to be. -/
theorem ChainSound.receivedBlockTransactions {h : Uint256} (hi : ChainSound g t [])
    (hc : Complete t addr t.tip) (hmem : h ∈ t.mapBlockIndex) (hnew : ¬ t.Received h)
    (hf : t.Unfailed h) (hpos : 1 ≤ block.vtx.length) (hn : block.vtx.length < 2^32)
    (hbound : (t.setReceived h block.vtx.length).totalTx < 2^32) :
    ChainSound g (t.receivedBlockTransactions addr block h) [] ∧
      Complete (t.receivedBlockTransactions addr block h) addr
        (t.receivedBlockTransactions addr block h).tip := by
  rcases receivedBlockTransactions_cases t addr block
    (fun p hp => (hi.tree.ne_pprev hp).symm) with ⟨hp,heq⟩ | ⟨p,hp,hl,⟨_,heq⟩ | ⟨_,heq⟩⟩
  · have hlink := hi.toLinkSound.setReceived (t.setReceived h block.vtx.length) [h] []
      hmem hnew hpos hn ⟨rfl,rfl,rfl⟩ (List.append_nil _).symm
      (fun x hx => ⟨List.mem_singleton.mp hx,hp⟩) (List.nodup_singleton h)
      (fun _ _ hx => nomatch hx) List.nodup_nil
    obtain ⟨hi',hc'⟩ := hi.setReceived hnew hf (by exact ⟨rfl,rfl,rfl⟩) hlink hmem
      rfl rfl
    rw [heq]
    exact hi'.linkQueue (hc' hc) hbound (by simp [Nat.add_comm])
  · rw [heq]
    have hlink := hi.toLinkSound.setReceived { t.setReceived h block.vtx.length with
      mapBlocksUnlinked := (t.setReceived h block.vtx.length).mapBlocksUnlinked ++ [(p,h)] }
      [] [(p,h)] hmem hnew hpos hn ⟨rfl,rfl,rfl⟩ rfl
      (fun _ hx => nomatch hx) List.nodup_nil (by
        intro p' x hx
        obtain ⟨rfl,rfl⟩ := Prod.mk.inj (List.mem_singleton.mp hx)
        exact ⟨rfl,hp,hl⟩) (List.nodup_singleton _)
    obtain ⟨hi',hc'⟩ := hi.setReceived hnew hf (by exact ⟨rfl,rfl,rfl⟩) hlink hmem
      rfl rfl
    exact ⟨hi',hc' hc⟩
  · rw [heq]
    have hlink := hi.toLinkSound.setReceived (t.setReceived h block.vtx.length) [] []
      hmem hnew hpos hn ⟨rfl,rfl,rfl⟩ (List.append_nil _).symm
      (fun _ hx => nomatch hx) List.nodup_nil (fun _ _ hx => nomatch hx) List.nodup_nil
    obtain ⟨hi',hc'⟩ := hi.setReceived hnew hf (by exact ⟨rfl,rfl,rfl⟩) hlink hmem
      rfl rfl
    exact ⟨hi',hc' hc⟩

omit [Crypto] in
/-- A block without data can be marked: nothing is linked through it. -/
theorem ChainSound.setFailedValid {h : Uint256} (hi : ChainSound g t [])
    (hc : Complete t addr t.tip) (hmem : h ∈ t.mapBlockIndex) (hnew : ¬ t.Received h) :
    ChainSound g (t.setFailedValid h) [] ∧
      Complete (t.setFailedValid h) addr (t.setFailedValid h).tip := by
  have hs := sameLinks_setFailedValid hmem
  have hne : ∀ {a}, t.Linked a → a ≠ h := by
    rintro a hl rfl
    exact hnew (hi.received hl)
  constructor
  · refine hi.congr hs (hi.active.congr hs rfl) ?_ hi.candidate
    intro tip a htip ha
    obtain ⟨hl,hf⟩ := hi.usable htip ha
    exact ⟨hl,unfailed_setFailedValid.mpr ⟨hne hl,hf⟩⟩
  · refine hc.congr hs.linked.mp (fun _ => hi.tip_linked) (fun hl => ?_) rfl
    rw [setFailedValid_entry,if_neg (hne hl)]

end

end BlockTree
end Sidechain
