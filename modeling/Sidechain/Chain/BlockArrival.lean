import Sidechain.Chain.BlockLinks

/-! What the arrival of a header or of a block's data does to the links of the tree. -/
namespace Sidechain
namespace BlockTree

variable {t : BlockTree} {addr : Uint256 → ℕ}

theorem LinkSound.linked_of_mem_path {queue : List Uint256} (hi : LinkSound t queue)
    {h a : Uint256} (hl : t.Linked h) (ha : a ∈ t.path h) : t.Linked a := by
  induction h using hi.tree.induct with
  | hstep h ih =>
    cases hp : (t.entry h).pprev with
    | none =>
      rw [IsTree.path_root hp,List.mem_singleton] at ha
      rwa [ha]
    | some p =>
      rw [hi.tree.path_child hp,List.mem_cons] at ha
      rcases ha with rfl | ha
      · exact hl
      · exact ih p hp (hi.parent hl hp) ha

theorem LinkInvariant.linked_iff (hi : LinkInvariant t []) (h : Uint256) :
    t.Linked h ↔ ∀ a ∈ t.path h, t.Received a := by
  refine ⟨fun hl a ha => hi.received (hi.linked_of_mem_path hl ha),?_⟩
  induction h using hi.tree.induct with
  | hstep h ih =>
    intro hrec
    have hself := hrec h (IsTree.self_mem_path t h)
    refine (hi.linked hself fun p hp => ih p hp fun a ha => hrec a ?_).resolve_right (by simp)
    rw [hi.tree.path_child hp]
    exact List.mem_cons_of_mem h ha

/-- There are as many sequence numbers as linked blocks, and each of these has a transaction. -/
theorem LinkSound.sequenceId_injective {queue : List Uint256} (hi : LinkSound t queue)
    (hbound : t.totalTx < 2^32) {h h' : Uint256} (hl : t.Linked h) (hl' : t.Linked h')
    (hseq : (t.entry h).nSequenceId = (t.entry h').nSequenceId) : h = h' := by
  obtain ⟨order,hnodup,hmem,horder,_⟩ := hi.order
  have hlength : order.length ≤ t.totalTx := by
    refine le_trans ?_ (sum_le_totalTx hnodup fun x hx => ?_)
    · rw [← List.length_map fun a => (t.entry a).nTx.toNat]
      refine List.length_le_sum_of_one_le _ fun n hn => ?_
      obtain ⟨x,hx,rfl⟩ := List.mem_map.mp hn
      exact hi.nTx_pos (hi.received ((hmem x).mp hx))
    · exact hi.received_mem (hi.received ((hmem x).mp hx))
  obtain ⟨i,hlt,hget⟩ := List.getElem_of_mem ((hmem h).mpr hl)
  obtain ⟨j,hlt',hget'⟩ := List.getElem_of_mem ((hmem h').mpr hl')
  rw [horder i h (List.getElem?_eq_some_iff.mpr ⟨hlt,hget⟩),
    horder j h' (List.getElem?_eq_some_iff.mpr ⟨hlt',hget'⟩)] at hseq
  have hij := congrArg UInt32.toNat hseq
  rw [UInt32.toNat_ofNat_of_lt' (show i + 1 < 2^32 by omega),
    UInt32.toNat_ofNat_of_lt' (show j + 1 < 2^32 by omega)] at hij
  obtain rfl : i = j := by omega
  exact hget.symm.trans hget'

section
variable {h : Uint256} {n : ℕ}

theorem setReceived_same (t : BlockTree) (h : Uint256) (n : ℕ) : (t.setReceived h n).entry h =
    { t.entry h with
      nTx := UInt32.ofNat n
      nChainTx := 0
      nStatus := ({ (t.entry h).nStatus with haveData := true } : BlockStatus).raiseValidity
        BLOCK_VALID_TRANSACTIONS } :=
  modify_same ..

theorem setReceived_of_ne (t : BlockTree) {h x : Uint256} (n : ℕ) (hne : x ≠ h) :
    (t.setReceived h n).entry x = t.entry x := modify_of_ne t _ hne

theorem setReceived_received (t : BlockTree) (h : Uint256) (n : ℕ) {x : Uint256} :
    (t.setReceived h n).Received x ↔ t.Received x ∨ x = h := by
  unfold Received
  by_cases hx : x = h
  · rw [hx,setReceived_same]
    simp
  · rw [setReceived_of_ne t n hx,or_iff_left hx]

theorem setReceived_linked (hnot : ¬ t.Linked h) (n : ℕ) {x : Uint256} :
    (t.setReceived h n).Linked x ↔ t.Linked x := by
  unfold Linked
  by_cases hx : x = h
  · rw [hx,setReceived_same]
    exact iff_of_false (by simp) hnot
  · rw [setReceived_of_ne t n hx]

/-- What a tree has changed in when the data of a block was stored. -/
structure SetReceived (t t' : BlockTree) (h : Uint256) (n : ℕ) : Prop where
  entry : t'.entry = (t.setReceived h n).entry
  mapBlockIndex : t'.mapBlockIndex = t.mapBlockIndex
  nBlockSequenceId : t'.nBlockSequenceId = t.nBlockSequenceId

theorem SetReceived.shape {t' : BlockTree} (hs : SetReceived t t' h n)
    (hmem : h ∈ t.mapBlockIndex) : SameShape t t' :=
  sameShape_update hs.entry hs.mapBlockIndex hmem rfl rfl

theorem SetReceived.received {t' : BlockTree} (hs : SetReceived t t' h n) {x : Uint256} :
    t'.Received x ↔ t.Received x ∨ x = h := by
  rw [Received,hs.entry]
  exact t.setReceived_received h n

theorem SetReceived.linked {t' : BlockTree} (hs : SetReceived t t' h n) (hnot : ¬ t.Linked h)
    {x : Uint256} : t'.Linked x ↔ t.Linked x := by
  rw [Linked,hs.entry]
  exact setReceived_linked hnot n

theorem SetReceived.of_ne {t' : BlockTree} (hs : SetReceived t t' h n) {x : Uint256}
    (hx : x ≠ h) : t'.entry x = t.entry x := by
  rw [hs.entry,setReceived_of_ne t n hx]

/-- A block that arrives may go to the queue if its parent is linked, and may wait otherwise. -/
theorem LinkSound.setReceived (t' : BlockTree) (queue : List Uint256)
    (extra : List (Uint256 × Uint256)) (hi : LinkSound t []) (hmem : h ∈ t.mapBlockIndex)
    (hnew : ¬ t.Received h) (hpos : 1 ≤ n) (hn : n < 2^32) (hs : SetReceived t t' h n)
    (hunlinked : t'.mapBlocksUnlinked = t.mapBlocksUnlinked ++ extra)
    (hqueue : ∀ x ∈ queue, x = h ∧ ∀ p, (t.entry h).pprev = some p → t.Linked p)
    (hqueue_nodup : queue.Nodup)
    (hextra : ∀ p x, (p,x) ∈ extra → x = h ∧ (t.entry h).pprev = some p ∧ ¬ t.Linked p)
    (hextra_nodup : extra.Nodup) : LinkSound t' queue := by
  have hnot : ¬ t.Linked h := fun hl => hnew (hi.received hl)
  have hshape := hs.shape hmem
  have hlinked : ∀ {x}, t'.Linked x ↔ t.Linked x := hs.linked hnot
  have hreceived : ∀ {x}, t'.Received x ↔ t.Received x ∨ x = h := hs.received
  refine ⟨hshape.isTree hi.tree,?_,?_,?_,?_,?_,hqueue_nodup,?_,?_,?_,?_⟩
  · intro x hr
    rw [hs.mapBlockIndex]
    rcases hreceived.mp hr with hr | rfl
    · exact hi.received_mem hr
    · exact hmem
  · intro x hr
    by_cases hx : x = h
    · rw [hx,hs.entry,setReceived_same,UInt32.toNat_ofNat_of_lt' hn]
      exact hpos
    · rw [hs.of_ne hx]
      exact hi.nTx_pos ((hreceived.mp hr).resolve_right hx)
  · intro x hl
    exact hreceived.mpr (Or.inl (hi.received (hlinked.mp hl)))
  · intro x p hl hp
    rw [hshape.pprev] at hp
    exact hlinked.mpr (hi.parent (hlinked.mp hl) hp)
  · intro x hx
    obtain ⟨rfl,hp⟩ := hqueue x hx
    refine ⟨hreceived.mpr (Or.inr rfl),fun hl => hnot (hlinked.mp hl),fun p hpp => ?_⟩
    exact hlinked.mpr (hp p ((hshape.pprev x).symm.trans hpp))
  · intro p x hpx
    rw [hreceived,hlinked,hshape.pprev]
    rw [hunlinked,List.mem_append] at hpx
    rcases hpx with hold | hex
    · obtain ⟨h1,h2,h3⟩ := hi.waiting hold
      exact ⟨Or.inl h1,h2,h3⟩
    · obtain ⟨rfl,h2,h3⟩ := hextra p x hex
      exact ⟨Or.inr rfl,h2,h3⟩
  · rw [hunlinked]
    refine hi.unlinked_nodup.append hextra_nodup ?_
    rintro ⟨p,x⟩ hold hex
    obtain ⟨rfl,_,_⟩ := hextra p x hex
    exact hnew (hi.waiting hold).1
  · intro x hl
    have hl' := hlinked.mp hl
    have hne : ∀ a ∈ t.path x, a ≠ h := by
      rintro a ha rfl
      exact hnot (hi.linked_of_mem_path hl' ha)
    rw [hs.of_ne (hne x (IsTree.self_mem_path t x)),hi.chainTx hl']
    unfold pathTx
    rw [hshape.path]
    refine congrArg List.sum (List.map_congr_left fun a ha => ?_)
    rw [hs.of_ne (hne a ha)]
  · obtain ⟨order,hnodup,hord,hseq,hold⟩ := hi.order
    refine ⟨order,hnodup,fun x => (hord x).trans hlinked.symm,fun i x hx => ?_,
      hs.nBlockSequenceId.trans hold⟩
    have hne : x ≠ h := by
      rintro rfl
      exact hnot ((hord x).mp (List.mem_of_getElem? hx))
    rw [hs.of_ne hne]
    exact hseq i x hx

theorem LinkInvariant.setReceived (hi : LinkInvariant t []) (hmem : h ∈ t.mapBlockIndex)
    (hnew : ¬ t.Received h) (hpos : 1 ≤ n) (hn : n < 2^32) {t' : BlockTree} {queue : List Uint256}
    {extra : List (Uint256 × Uint256)} (hs : SetReceived t t' h n)
    (hunlinked : t'.mapBlocksUnlinked = t.mapBlocksUnlinked ++ extra)
    (hqueue : ∀ x, x ∈ queue ↔ x = h ∧ ∀ p, (t.entry h).pprev = some p → t.Linked p)
    (hqueue_nodup : queue.Nodup)
    (hextra : ∀ p x, (p,x) ∈ extra ↔ x = h ∧ (t.entry h).pprev = some p ∧ ¬ t.Linked p)
    (hextra_nodup : extra.Nodup) : LinkInvariant t' queue := by
  have hnot : ¬ t.Linked h := fun hl => hnew (hi.received hl)
  have hshape := hs.shape hmem
  have hlinked : ∀ {x}, t'.Linked x ↔ t.Linked x := hs.linked hnot
  have hreceived : ∀ {x}, t'.Received x ↔ t.Received x ∨ x = h := hs.received
  refine ⟨hi.toLinkSound.setReceived _ _ _ hmem hnew hpos hn hs hunlinked (fun x => (hqueue x).mp)
    hqueue_nodup (fun p x => (hextra p x).mp) hextra_nodup,?_,?_,?_⟩
  · intro x hx
    rw [hs.mapBlockIndex] at hx
    have hvalid := hi.valid hx
    by_cases hxh : x = h
    · subst hxh
      rw [hs.entry,setReceived_same]
      have hdata : ({ (t.entry x).nStatus with haveData := true } : BlockStatus).isValid
        BLOCK_VALID_TREE = true := hvalid
      exact BlockStatus.isValid_raiseValidity hdata _
    · rw [hs.of_ne hxh]
      exact hvalid
  · intro x hr hp
    have hp' : ∀ p, (t.entry x).pprev = some p → t.Linked p := fun p hpp =>
      hlinked.mp (hp p ((hshape.pprev x).trans hpp))
    rcases hreceived.mp hr with hr | rfl
    · exact Or.inl (hlinked.mpr ((hi.linked hr hp').resolve_right (by simp)))
    · exact Or.inr ((hqueue x).mpr ⟨rfl,hp'⟩)
  · intro p x hr hp hl
    rw [hshape.pprev] at hp
    rw [hlinked] at hl
    rw [hunlinked,List.mem_append]
    rcases hreceived.mp hr with hr | rfl
    · exact Or.inl (hi.waits hr hp hl)
    · exact Or.inr ((hextra p x).mpr ⟨rfl,hp,hl⟩)

/-- The cases of `ReceivedBlockTransactions`, whose last is that the parent has failed. -/
theorem receivedBlockTransactions_cases (t : BlockTree) (addr : Uint256 → ℕ) (block : CBlock)
    (hne : ∀ p, (t.entry h).pprev = some p → p ≠ h) :
    let t1 := t.setReceived h block.vtx.length
    let t2 := t.receivedBlockTransactions addr block h
    ((∀ p, (t.entry h).pprev = some p → t.Linked p) ∧
      t2 = linkQueue addr (t1.mapBlocksUnlinked.length + 1) [h] t1) ∨
    ∃ p, (t.entry h).pprev = some p ∧ ¬ t.Linked p ∧
      (((t.entry p).nStatus.isValid BLOCK_VALID_TREE = true ∧
        t2 = { t1 with mapBlocksUnlinked := t1.mapBlocksUnlinked ++ [(p,h)] }) ∨
      ((t.entry p).nStatus.isValid BLOCK_VALID_TREE = false ∧ t2 = t1)) := by
  intro t1 t2
  have heq : t2 = t.receivedBlockTransactions addr block h := rfl
  have hpprev : ((t.setReceived h block.vtx.length).entry h).pprev = (t.entry h).pprev := by
    rw [setReceived_same]
  unfold BlockTree.receivedBlockTransactions at heq
  dsimp only at heq
  rw [hpprev] at heq
  cases hp : (t.entry h).pprev with
  | none =>
    rw [hp] at heq
    exact Or.inl ⟨by simp,heq⟩
  | some p =>
    rw [hp] at heq
    dsimp only at heq
    rw [setReceived_of_ne t _ (hne p hp)] at heq
    by_cases hl : (t.entry p).nChainTx ≠ 0
    · refine Or.inl ⟨?_,heq.trans (if_pos hl)⟩
      rintro _ ⟨⟩
      exact hl
    · rw [if_neg hl] at heq
      refine Or.inr ⟨p,rfl,hl,?_⟩
      cases hvalid : (t.entry p).nStatus.isValid BLOCK_VALID_TREE with
      | true => exact Or.inl ⟨rfl,heq.trans (if_pos hvalid)⟩
      | false => exact Or.inr ⟨rfl,heq.trans (if_neg (by simp [hvalid]))⟩

theorem LinkInvariant.receivedBlockTransactions (hi : LinkInvariant t [])
    (hmem : h ∈ t.mapBlockIndex) (hnew : ¬ t.Received h) {block : CBlock}
    (hpos : 1 ≤ block.vtx.length) (hn : block.vtx.length < 2^32)
    (hbound : (t.setReceived h block.vtx.length).totalTx < 2^32) :
    LinkInvariant (t.receivedBlockTransactions addr block h) [] := by
  rcases receivedBlockTransactions_cases t addr block
    (fun p hp => (hi.tree.ne_pprev hp).symm) with ⟨hp,heq⟩ | ⟨p,hp,hl,⟨hvalid,heq⟩ | ⟨hfail,_⟩⟩
  · rw [heq]
    refine LinkInvariant.linkQueue ?_ hbound (by simp [Nat.add_comm])
    refine hi.setReceived hmem hnew hpos hn ⟨rfl,rfl,rfl⟩ (List.append_nil _).symm ?_
      (List.nodup_singleton h) ?_ List.nodup_nil
    · intro x
      rw [List.mem_singleton,and_iff_left hp]
    · intro p x
      refine iff_of_false (List.not_mem_nil) ?_
      rintro ⟨_,h2,h3⟩
      exact h3 (hp p h2)
  · rw [heq]
    refine hi.setReceived hmem hnew hpos hn ⟨rfl,rfl,rfl⟩ rfl ?_ List.nodup_nil ?_
      (List.nodup_singleton _)
    · intro x
      refine iff_of_false (List.not_mem_nil) ?_
      rintro ⟨_,h2⟩
      exact hl (h2 p hp)
    · intro p' x
      rw [List.mem_singleton,Prod.mk.injEq,hp,Option.some.injEq]
      constructor
      · rintro ⟨rfl,rfl⟩
        exact ⟨rfl,rfl,hl⟩
      · rintro ⟨rfl,rfl,_⟩
        exact ⟨rfl,rfl⟩
  · rw [hi.valid (hi.tree.parent_mem hp)] at hfail
    cases hfail

end

section
variable [Crypto] {block : CBlockHeader}

theorem addToBlockIndex_of_mem (hmem : block.getHash ∈ t.mapBlockIndex) :
    t.addToBlockIndex block = t := by
  unfold addToBlockIndex
  exact if_pos hmem

theorem addToBlockIndex_mapBlockIndex (hnew : block.getHash ∉ t.mapBlockIndex) :
    (t.addToBlockIndex block).mapBlockIndex = block.getHash :: t.mapBlockIndex := by
  unfold addToBlockIndex
  dsimp only
  rw [if_neg hnew]

theorem mem_addToBlockIndex (t : BlockTree) (block : CBlockHeader) :
    block.getHash ∈ (t.addToBlockIndex block).mapBlockIndex := by
  by_cases hmem : block.getHash ∈ t.mapBlockIndex
  · rwa [addToBlockIndex_of_mem hmem]
  · rw [addToBlockIndex_mapBlockIndex hmem]
    exact List.mem_cons_self

theorem addToBlockIndex_of_ne (t : BlockTree) {x : Uint256} (hne : x ≠ block.getHash) :
    (t.addToBlockIndex block).entry x = t.entry x := by
  by_cases hmem : block.getHash ∈ t.mapBlockIndex
  · rw [addToBlockIndex_of_mem hmem]
  · unfold addToBlockIndex
    dsimp only
    rw [if_neg hmem]
    exact Function.update_of_ne hne ..

theorem addToBlockIndex_unlinked (t : BlockTree) (block : CBlockHeader) :
    (t.addToBlockIndex block).mapBlocksUnlinked = t.mapBlocksUnlinked ∧
      (t.addToBlockIndex block).nBlockSequenceId = t.nBlockSequenceId := by
  unfold addToBlockIndex
  dsimp only
  split_ifs <;> exact ⟨rfl,rfl⟩

theorem addToBlockIndex_new (hnew : block.getHash ∉ t.mapBlockIndex)
    (hself : block.getHash ≠ block.hashPrevBlock) :
    ∃ e, (t.addToBlockIndex block).entry block.getHash = e ∧ e.nTx = 0 ∧ e.nChainTx = 0 ∧
      e.nStatus.haveData = false ∧ e.nStatus.isValid BLOCK_VALID_TREE = true ∧
      (∀ p, e.pprev = some p ↔ p ∈ t.mapBlockIndex ∧ p = block.hashPrevBlock) ∧
      ∀ p, e.pprev = some p → e.nHeight = (t.entry p).nHeight + 1 := by
  unfold addToBlockIndex
  dsimp only
  rw [if_neg hnew]
  simp only [List.mem_cons,hself.symm,false_or,Function.update_self]
  refine ⟨_,rfl,rfl,rfl,rfl,rfl,?_,?_⟩
  · intro p
    split_ifs with hprev
    · rw [Option.some.injEq]
      exact ⟨fun hp => ⟨hp ▸ hprev,hp.symm⟩,fun hp => hp.2.symm⟩
    · refine iff_of_false (by simp) ?_
      rintro ⟨hp,rfl⟩
      exact hprev hp
  · intro p hp
    dsimp only at hp ⊢
    rw [hp]

theorem addToBlockIndex_received (t : BlockTree) (ht : t.IsTree)
    (hself : block.getHash ≠ block.hashPrevBlock) {x : Uint256} :
    (t.addToBlockIndex block).Received x ↔ t.Received x := by
  by_cases hmem : block.getHash ∈ t.mapBlockIndex
  · rw [addToBlockIndex_of_mem hmem]
  · obtain ⟨e,he,_,_,hdata,_⟩ := addToBlockIndex_new hmem hself
    unfold Received
    by_cases hx : x = block.getHash
    · rw [hx,he,hdata,ht.outside hmem]
    · rw [addToBlockIndex_of_ne t hx]

theorem addToBlockIndex_linked (t : BlockTree) (ht : t.IsTree)
    (hself : block.getHash ≠ block.hashPrevBlock) {x : Uint256} :
    (t.addToBlockIndex block).Linked x ↔ t.Linked x := by
  by_cases hmem : block.getHash ∈ t.mapBlockIndex
  · rw [addToBlockIndex_of_mem hmem]
  · obtain ⟨e,he,_,hchain,_⟩ := addToBlockIndex_new hmem hself
    unfold Linked
    by_cases hx : x = block.getHash
    · rw [hx,he,hchain,ht.outside hmem]
    · rw [addToBlockIndex_of_ne t hx]

theorem IsTree.addToBlockIndex (ht : t.IsTree) (hself : block.getHash ≠ block.hashPrevBlock) :
    (t.addToBlockIndex block).IsTree := by
  by_cases hmem : block.getHash ∈ t.mapBlockIndex
  · rwa [addToBlockIndex_of_mem hmem]
  obtain ⟨e,he,_,_,_,_,hpprev,hheight⟩ := addToBlockIndex_new hmem hself
  have hindex := addToBlockIndex_mapBlockIndex hmem
  have hne : ∀ {x}, x ∈ t.mapBlockIndex → x ≠ block.getHash := by
    rintro x hx rfl
    exact hmem hx
  refine ⟨?_,?_,?_,?_⟩
  · rw [hindex]
    exact List.nodup_cons.mpr ⟨hmem,ht.nodup⟩
  · intro x p hp
    rw [hindex]
    by_cases hx : x = block.getHash
    · rw [hx,he] at hp
      exact List.mem_cons_of_mem _ ((hpprev p).mp hp).1
    · rw [addToBlockIndex_of_ne t hx] at hp
      exact List.mem_cons_of_mem _ (ht.parent_mem hp)
  · intro x p hp
    by_cases hx : x = block.getHash
    · rw [hx,he] at hp ⊢
      rw [hheight p hp,addToBlockIndex_of_ne t (hne ((hpprev p).mp hp).1)]
    · rw [addToBlockIndex_of_ne t hx] at hp ⊢
      rw [ht.height hp,addToBlockIndex_of_ne t (hne (ht.parent_mem hp))]
  · intro x hx
    rw [hindex,List.mem_cons,not_or] at hx
    rw [addToBlockIndex_of_ne t hx.1]
    exact ht.outside hx.2

theorem IsTree.path_addToBlockIndex (ht : t.IsTree) (hself : block.getHash ≠ block.hashPrevBlock)
    {x : Uint256} (hx : x ∈ t.mapBlockIndex) : (t.addToBlockIndex block).path x = t.path x := by
  by_cases hmem : block.getHash ∈ t.mapBlockIndex
  · rw [addToBlockIndex_of_mem hmem]
  induction x using ht.induct with
  | hstep x ih =>
    have hentry : (t.addToBlockIndex block).entry x = t.entry x := by
      refine addToBlockIndex_of_ne t ?_
      rintro rfl
      exact hmem hx
    cases hp : (t.entry x).pprev with
    | none => rw [path_root hp,path_root (hentry ▸ hp)]
    | some p =>
      rw [ht.path_child hp,(ht.addToBlockIndex hself).path_child (hentry ▸ hp),
        ih p hp (ht.parent_mem hp)]

theorem LinkSound.addToBlockIndex (hi : LinkSound t [])
    (hself : block.getHash ≠ block.hashPrevBlock) : LinkSound (t.addToBlockIndex block) [] := by
  by_cases hmem : block.getHash ∈ t.mapBlockIndex
  · rwa [addToBlockIndex_of_mem hmem]
  have htree := hi.tree.addToBlockIndex hself
  obtain ⟨hunlinked,hnext⟩ := addToBlockIndex_unlinked t block
  have hindex := addToBlockIndex_mapBlockIndex hmem
  have hlinked : ∀ {x}, (t.addToBlockIndex block).Linked x ↔ t.Linked x :=
    addToBlockIndex_linked t hi.tree hself
  have hreceived : ∀ {x}, (t.addToBlockIndex block).Received x ↔ t.Received x :=
    addToBlockIndex_received t hi.tree hself
  have hne : ∀ {x}, x ∈ t.mapBlockIndex → x ≠ block.getHash := by
    rintro x hx rfl
    exact hmem hx
  have hsame : ∀ {x}, t.Received x → (t.addToBlockIndex block).entry x = t.entry x :=
    fun hr => addToBlockIndex_of_ne t (hne (hi.received_mem hr))
  have hpath : ∀ {x}, x ∈ t.mapBlockIndex → (t.addToBlockIndex block).pathTx x = t.pathTx x := by
    intro x hx
    unfold pathTx
    rw [hi.tree.path_addToBlockIndex hself hx]
    refine congrArg List.sum (List.map_congr_left fun a ha => ?_)
    rw [addToBlockIndex_of_ne t (hne (hi.tree.path_subset hx ha))]
  refine ⟨htree,?_,?_,?_,?_,?_,List.nodup_nil,?_,?_,?_,?_⟩
  · intro x hr
    rw [hindex]
    exact List.mem_cons_of_mem _ (hi.received_mem (hreceived.mp hr))
  · intro x hr
    rw [hsame (hreceived.mp hr)]
    exact hi.nTx_pos (hreceived.mp hr)
  · exact fun hl => hreceived.mpr (hi.received (hlinked.mp hl))
  · intro x p hl hp
    rw [hsame (hi.received (hlinked.mp hl))] at hp
    exact hlinked.mpr (hi.parent (hlinked.mp hl) hp)
  · exact fun hx => absurd hx List.not_mem_nil
  · intro p x hpx
    rw [hunlinked] at hpx
    obtain ⟨h1,h2,h3⟩ := hi.waiting hpx
    rw [hreceived,hlinked,hsame h1]
    exact ⟨h1,h2,h3⟩
  · rw [hunlinked]
    exact hi.unlinked_nodup
  · intro x hl
    have hr := hi.received (hlinked.mp hl)
    rw [hsame hr,hpath (hi.received_mem hr)]
    exact hi.chainTx (hlinked.mp hl)
  · obtain ⟨order,hnodup,hord,hseq,hid⟩ := hi.order
    refine ⟨order,hnodup,fun x => (hord x).trans hlinked.symm,fun i x hx => ?_,hnext.trans hid⟩
    rw [hsame (hi.received ((hord x).mp (List.mem_of_getElem? hx)))]
    exact hseq i x hx

theorem LinkInvariant.addToBlockIndex (hi : LinkInvariant t [])
    (hself : block.getHash ≠ block.hashPrevBlock) : LinkInvariant (t.addToBlockIndex block) [] := by
  by_cases hmem : block.getHash ∈ t.mapBlockIndex
  · rwa [addToBlockIndex_of_mem hmem]
  obtain ⟨e,he,_,_,_,hvalid,_⟩ := addToBlockIndex_new hmem hself
  have hlinked : ∀ {x}, (t.addToBlockIndex block).Linked x ↔ t.Linked x :=
    addToBlockIndex_linked t hi.tree hself
  have hreceived : ∀ {x}, (t.addToBlockIndex block).Received x ↔ t.Received x :=
    addToBlockIndex_received t hi.tree hself
  have hne : ∀ {x}, x ∈ t.mapBlockIndex → x ≠ block.getHash := by
    rintro x hx rfl
    exact hmem hx
  have hsame : ∀ {x}, t.Received x → (t.addToBlockIndex block).entry x = t.entry x :=
    fun hr => addToBlockIndex_of_ne t (hne (hi.received_mem hr))
  refine ⟨hi.toLinkSound.addToBlockIndex hself,?_,?_,?_⟩
  · intro x hx
    rw [addToBlockIndex_mapBlockIndex hmem,List.mem_cons] at hx
    rcases hx with rfl | hx
    · rw [he]
      exact hvalid
    · rw [addToBlockIndex_of_ne t (hne hx)]
      exact hi.valid hx
  · intro x hr hp
    have hr' := hreceived.mp hr
    rw [hsame hr'] at hp
    refine (hi.linked hr' fun p hpp => hlinked.mp (hp p hpp)).imp_left hlinked.mpr
  · intro p x hr hp hl
    have hr' := hreceived.mp hr
    rw [hsame hr'] at hp
    rw [(addToBlockIndex_unlinked t block).1]
    exact hi.waits hr' hp (mt hlinked.mpr hl)

end

end BlockTree
end Sidechain
