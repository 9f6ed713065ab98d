import Sidechain.Chain.ActiveChain
import Sidechain.Chain.BlockArrival

/-! Paths of the tree and the active chain as one of them, and what a change of failure flags, of
the tip or of the candidates leaves alone. -/
namespace Sidechain
namespace BlockTree

variable {t t' : BlockTree}

namespace IsTree

theorem path_eq_append (ht : t.IsTree) {h a : Uint256} (ha : a ∈ t.path h) :
    ∃ above, t.path h = above ++ t.path a := by
  induction h using ht.induct with
  | hstep h ih =>
    cases hp : (t.entry h).pprev with
    | none =>
      rw [path_root hp,List.mem_singleton] at ha
      exact ⟨[],by rw [ha]; rfl⟩
    | some p =>
      rw [ht.path_child hp,List.mem_cons] at ha
      rcases ha with rfl | ha
      · exact ⟨[],rfl⟩
      · obtain ⟨above,hpath⟩ := ih p hp ha
        exact ⟨h::above,by rw [ht.path_child hp,hpath]; rfl⟩

theorem mem_path_trans (ht : t.IsTree) {a b c : Uint256} (ha : a ∈ t.path b) (hb : b ∈ t.path c) :
    a ∈ t.path c := by
  obtain ⟨above,hpath⟩ := ht.path_eq_append hb
  rw [hpath]
  exact List.mem_append_right _ ha

theorem head?_path (t : BlockTree) (h : Uint256) : (t.path h).head? = some h := by
  rw [path_eq]
  rfl

theorem path_of_eq_append (ht : t.IsTree) {h a : Uint256} {above below : List Uint256}
    (hpath : t.path h = above ++ a::below) : t.path a = a::below := by
  induction above generalizing h with
  | nil =>
    have hhead : t.path h = h::(t.path h).tail := by
      rw [path_eq]
      rfl
    rw [List.nil_append] at hpath
    rw [hhead] at hpath
    obtain ⟨rfl,htail⟩ := List.cons.inj hpath
    rw [hhead,htail]
  | cons b above ih =>
    cases hp : (t.entry h).pprev with
    | none =>
      rw [path_root hp] at hpath
      simp at hpath
    | some p =>
      rw [ht.path_child hp,List.cons_append] at hpath
      exact ih (List.cons.inj hpath).2

end IsTree

/-- The first entry is the only one without a parent, at height zero. -/
structure Rooted (t : BlockTree) (hashGenesisBlock : Uint256) : Prop where
  eq_genesis : ∀ {h}, h ∈ t.mapBlockIndex → (t.entry h).pprev = none → h = hashGenesisBlock
  height : ∀ {h}, (t.entry h).pprev = none → (t.entry h).nHeight = 0

theorem Rooted.genesis_mem_path {g : Uint256} (hr : t.Rooted g) (ht : t.IsTree) {h : Uint256}
    (hh : h ∈ t.mapBlockIndex) : g ∈ t.path h := by
  induction h using ht.induct with
  | hstep h ih =>
    cases hp : (t.entry h).pprev with
    | none =>
      rw [IsTree.path_root hp,List.mem_singleton]
      exact (hr.eq_genesis hh hp).symm
    | some p =>
      rw [ht.path_child hp]
      exact List.mem_cons_of_mem _ (ih p hp (ht.parent_mem hp))

theorem Rooted.genesis_root {g : Uint256} (hr : t.Rooted g) (ht : t.IsTree) {h : Uint256}
    (hh : h ∈ t.mapBlockIndex) : (t.entry g).pprev = none := by
  induction h using ht.induct with
  | hstep h ih =>
    cases hp : (t.entry h).pprev with
    | none => rwa [hr.eq_genesis hh hp] at hp
    | some p => exact ih p hp (ht.parent_mem hp)

theorem Rooted.path_genesis {g : Uint256} (hr : t.Rooted g) (ht : t.IsTree) : t.path g = [g] := by
  refine IsTree.path_root ?_
  by_cases hg : g ∈ t.mapBlockIndex
  · exact hr.genesis_root ht hg
  · rw [ht.outside hg]

theorem Rooted.length_path {g : Uint256} (hr : t.Rooted g) (ht : t.IsTree) (h : Uint256) :
    (t.path h).length = (t.entry h).nHeight + 1 := by
  induction h using ht.induct with
  | hstep h ih =>
    cases hp : (t.entry h).pprev with
    | none => rw [IsTree.path_root hp,hr.height hp,List.length_singleton]
    | some p => rw [ht.path_child hp,List.length_cons,ih p hp,ht.height hp]

theorem Rooted.getElem?_path {g : Uint256} (hr : t.Rooted g) (ht : t.IsTree) {h a : Uint256}
    (ha : a ∈ t.path h) : (t.path h).reverse[(t.entry a).nHeight]? = some a := by
  induction h using ht.induct with
  | hstep h ih =>
    cases hp : (t.entry h).pprev with
    | none =>
      rw [IsTree.path_root hp,List.mem_singleton] at ha
      rw [IsTree.path_root hp,ha,hr.height hp]
      rfl
    | some p =>
      rw [ht.path_child hp,List.mem_cons] at ha
      rw [ht.path_child hp,List.reverse_cons,List.getElem?_append,List.length_reverse,
        hr.length_path ht]
      rcases ha with rfl | ha
      · rw [ht.height hp,if_neg (lt_irrefl _),Nat.sub_self]
        rfl
      · rw [if_pos (Nat.lt_succ_of_le (ht.height_le_of_mem_path ha)),ih p hp ha]

/-- The active chain is the path of its tip. -/
def ActivePath (t : BlockTree) : Prop :=
  ∀ tip, t.tip = some tip → t.vChain = (t.path tip).reverse

theorem contains_iff {g : Uint256} (hr : t.Rooted g) (ht : t.IsTree) (ha : t.ActivePath)
    {tip : Uint256} (htip : t.tip = some tip) {h : Uint256} :
    t.contains h = true ↔ h ∈ t.path tip := by
  unfold contains
  rw [beq_iff_eq,ha tip htip]
  constructor
  · intro hget
    exact List.mem_reverse.mp (List.mem_of_getElem? hget)
  · exact hr.getElem?_path ht

theorem contains_of_no_tip (htip : t.tip = none) (h : Uint256) : t.contains h = false := by
  have hnil : t.vChain = [] := List.getLast?_eq_none_iff.mp htip
  simp [contains,hnil]

theorem tip_setTip (t : BlockTree) (h : Uint256) : (t.setTip h).tip = some h := by
  unfold tip setTip
  dsimp only
  rw [List.getLast?_reverse]
  rw [path_eq]
  rfl

/-- Two trees that differ in failure flags, in the active chain and in the candidates only. -/
structure SameLinks (t t' : BlockTree) : Prop where
  mapBlockIndex : t'.mapBlockIndex = t.mapBlockIndex
  mapBlocksUnlinked : t'.mapBlocksUnlinked = t.mapBlocksUnlinked
  nBlockSequenceId : t'.nBlockSequenceId = t.nBlockSequenceId
  entry : ∀ h, ∃ failedValid failedChild, t'.entry h = { t.entry h with
    nStatus := { (t.entry h).nStatus with failedValid, failedChild } }
  outside : ∀ h, h ∉ t.mapBlockIndex → t'.entry h = t.entry h

namespace SameLinks

theorem of_entry (hentry : t'.entry = t.entry) (hindex : t'.mapBlockIndex = t.mapBlockIndex)
    (hunlinked : t'.mapBlocksUnlinked = t.mapBlocksUnlinked)
    (hnext : t'.nBlockSequenceId = t.nBlockSequenceId) : SameLinks t t' :=
  ⟨hindex,hunlinked,hnext,fun h => ⟨_,_,by rw [hentry]⟩,fun h _ => by rw [hentry]⟩

theorem refl (t : BlockTree) : SameLinks t t := of_entry rfl rfl rfl rfl

theorem trans {t'' : BlockTree} (h : SameLinks t t') (h' : SameLinks t' t'') :
    SameLinks t t'' where
  mapBlockIndex := h'.mapBlockIndex.trans h.mapBlockIndex
  mapBlocksUnlinked := h'.mapBlocksUnlinked.trans h.mapBlocksUnlinked
  nBlockSequenceId := h'.nBlockSequenceId.trans h.nBlockSequenceId
  entry x := by
    obtain ⟨v,c,he⟩ := h.entry x
    obtain ⟨v',c',he'⟩ := h'.entry x
    exact ⟨v',c',by rw [he',he]⟩
  outside x hx := by
    rw [h'.outside x (h.mapBlockIndex ▸ hx),h.outside x hx]

variable (hs : SameLinks t t')
include hs

theorem shape : SameShape t t' where
  mapBlockIndex := hs.mapBlockIndex
  pprev h := by
    obtain ⟨_,_,he⟩ := hs.entry h
    rw [he]
  nHeight h := by
    obtain ⟨_,_,he⟩ := hs.entry h
    rw [he]
  outside := hs.outside

theorem linked {h : Uint256} : t'.Linked h ↔ t.Linked h := by
  obtain ⟨_,_,he⟩ := hs.entry h
  unfold Linked
  rw [he]

theorem received {h : Uint256} : t'.Received h ↔ t.Received h := by
  obtain ⟨_,_,he⟩ := hs.entry h
  unfold Received
  rw [he]

theorem nTx (h : Uint256) : (t'.entry h).nTx = (t.entry h).nTx := by
  obtain ⟨_,_,he⟩ := hs.entry h
  rw [he]

theorem nChainTx (h : Uint256) : (t'.entry h).nChainTx = (t.entry h).nChainTx := by
  obtain ⟨_,_,he⟩ := hs.entry h
  rw [he]

theorem nSequenceId (h : Uint256) : (t'.entry h).nSequenceId = (t.entry h).nSequenceId := by
  obtain ⟨_,_,he⟩ := hs.entry h
  rw [he]

theorem nChainWork (h : Uint256) : (t'.entry h).nChainWork = (t.entry h).nChainWork := by
  obtain ⟨_,_,he⟩ := hs.entry h
  rw [he]

theorem valid (h : Uint256) : (t'.entry h).nStatus.valid = (t.entry h).nStatus.valid := by
  obtain ⟨_,_,he⟩ := hs.entry h
  rw [he]

theorem path (h : Uint256) : t'.path h = t.path h := hs.shape.path h

theorem totalTx : t'.totalTx = t.totalTx := by
  unfold BlockTree.totalTx
  rw [hs.mapBlockIndex]
  exact congrArg List.sum (List.map_congr_left fun h _ => by rw [hs.nTx])

theorem rooted {g : Uint256} (hr : t.Rooted g) : t'.Rooted g where
  eq_genesis hh hp := by
    rw [hs.mapBlockIndex] at hh
    rw [hs.shape.pprev] at hp
    exact hr.eq_genesis hh hp
  height hp := by
    rw [hs.shape.pprev] at hp
    rw [hs.shape.nHeight,hr.height hp]

theorem linkSound {queue : List Uint256} (hi : LinkSound t queue) : LinkSound t' queue where
  tree := hs.shape.isTree hi.tree
  received_mem hr := by
    rw [hs.mapBlockIndex]
    exact hi.received_mem (hs.received.mp hr)
  nTx_pos hr := by
    rw [hs.nTx]
    exact hi.nTx_pos (hs.received.mp hr)
  received hl := hs.received.mpr (hi.received (hs.linked.mp hl))
  parent hl hp := by
    rw [hs.shape.pprev] at hp
    exact hs.linked.mpr (hi.parent (hs.linked.mp hl) hp)
  queue_ready hmem := by
    simp only [hs.received,hs.linked,hs.shape.pprev]
    exact hi.queue_ready hmem
  queue_nodup := hi.queue_nodup
  waiting hmem := by
    rw [hs.mapBlocksUnlinked] at hmem
    simp only [hs.received,hs.linked,hs.shape.pprev]
    exact hi.waiting hmem
  unlinked_nodup := hs.mapBlocksUnlinked ▸ hi.unlinked_nodup
  chainTx {h} hl := by
    have hpath : t'.pathTx h = t.pathTx h := by
      unfold pathTx
      simp only [hs.path,hs.nTx]
    rw [hs.nChainTx,hpath]
    exact hi.chainTx (hs.linked.mp hl)
  order := by
    obtain ⟨order,hnodup,hmem,hseq,hnext⟩ := hi.order
    refine ⟨order,hnodup,fun h => (hmem h).trans hs.linked.symm,fun i h hi' => ?_,?_⟩
    · rw [hs.nSequenceId]
      exact hseq i h hi'
    · rw [hs.nBlockSequenceId]
      exact hnext

end SameLinks

theorem ActivePath.congr (ha : t.ActivePath) (hs : SameLinks t t')
    (hchain : t'.vChain = t.vChain) : t'.ActivePath := by
  intro tip htip
  rw [hchain,hs.path]
  refine ha tip ?_
  rw [← htip]
  exact congrArg List.getLast? hchain.symm

theorem sameLinks_setTip (t : BlockTree) (h : Uint256) : SameLinks t (t.setTip h) :=
  SameLinks.of_entry rfl rfl rfl rfl

theorem setTip_setTip (t : BlockTree) (a b : Uint256) : (t.setTip a).setTip b = t.setTip b := by
  unfold setTip
  rw [← (sameLinks_setTip t a).path b]
  rfl

theorem sameLinks_eraseCandidates (t : BlockTree) (hs : List Uint256) :
    SameLinks t (t.eraseCandidates hs) :=
  SameLinks.of_entry rfl rfl rfl rfl

theorem sameLinks_prune (t : BlockTree) (addr : Uint256 → ℕ) :
    SameLinks t (t.pruneBlockIndexCandidates addr) := by
  unfold pruneBlockIndexCandidates
  cases t.tip with
  | none => exact SameLinks.refl t
  | some tip => exact SameLinks.of_entry rfl rfl rfl rfl

theorem setFailedValid_entry (t : BlockTree) (pindex h : Uint256) :
    (t.setFailedValid pindex).entry h = if h = pindex then { t.entry h with
      nStatus := { (t.entry h).nStatus with failedValid := true } } else t.entry h := by
  unfold setFailedValid
  split_ifs with hh
  · rw [hh,modify_same]
  · exact modify_of_ne t _ hh

theorem sameLinks_setFailedValid {pindex : Uint256} (hmem : pindex ∈ t.mapBlockIndex) :
    SameLinks t (t.setFailedValid pindex) where
  mapBlockIndex := rfl
  mapBlocksUnlinked := rfl
  nBlockSequenceId := rfl
  entry h := by
    rw [setFailedValid_entry]
    split_ifs
    · exact ⟨_,_,rfl⟩
    · exact ⟨_,_,rfl⟩
  outside h hout := by
    rw [setFailedValid_entry,if_neg]
    rintro rfl
    exact hout hmem

theorem sameLinks_setFailedChild {hs : List Uint256} (hmem : hs ⊆ t.mapBlockIndex) :
    SameLinks t (t.setFailedChild hs) where
  mapBlockIndex := rfl
  mapBlocksUnlinked := rfl
  nBlockSequenceId := rfl
  entry h := by
    unfold setFailedChild
    dsimp only
    split_ifs
    · exact ⟨_,_,rfl⟩
    · exact ⟨_,_,rfl⟩
  outside h hout := if_neg fun hh => hout (hmem hh)

theorem sameLinks_clearFailed {pindex : Uint256} (ht : t.IsTree)
    (hmem : pindex ∈ t.mapBlockIndex) : SameLinks t (t.clearFailed pindex) where
  mapBlockIndex := rfl
  mapBlocksUnlinked := rfl
  nBlockSequenceId := rfl
  entry h := by
    unfold clearFailed
    dsimp only
    split_ifs
    · exact ⟨_,_,rfl⟩
    · exact ⟨_,_,rfl⟩
  outside h hout := by
    refine if_neg ?_
    rw [Bool.or_eq_true,not_or]
    refine ⟨?_,?_⟩
    · simp [reconsidered,hout]
    · rw [decide_eq_true_eq]
      exact fun hh => hout (ht.path_subset hmem hh)

end BlockTree
end Sidechain
