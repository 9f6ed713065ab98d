import Sidechain.Chain.TreePath
import Mathlib.Data.Prod.Lex
import Mathlib.Order.Lattice.Nat

/-! The candidates for the tip: what has to be among them, in the order of the best chain, and that
headers and blocks keep it so in any order of arrival. -/
namespace Sidechain
namespace BlockTree

variable {t t' : BlockTree} {addr : Uint256 → ℕ} {g : Uint256}

/-- More work ranks higher, then an earlier sequence number, then a lower address. -/
def rank (t : BlockTree) (addr : Uint256 → ℕ) (h : Uint256) : ℕ ×ₗ (ℕᵒᵈ ×ₗ ℕᵒᵈ) :=
  toLex ((t.entry h).nChainWork.toNat,toLex
    (OrderDual.toDual (t.entry h).nSequenceId.toNat,OrderDual.toDual (addr h)))

theorem workLess_iff (t : BlockTree) (addr : Uint256 → ℕ) (a b : Uint256) :
    t.workLess addr a b = true ↔ t.rank addr a < t.rank addr b := by
  unfold workLess rank
  simp only [Prod.Lex.toLex_lt_toLex,OrderDual.toDual_lt_toDual,EmbeddingLike.apply_eq_iff_eq,
    gt_iff_lt,BitVec.lt_def,UInt32.lt_iff_toNat_lt]
  split_ifs <;> simp <;> omega

theorem workLess_eq_false (t : BlockTree) (addr : Uint256 → ℕ) (a b : Uint256) :
    t.workLess addr a b = false ↔ t.rank addr b ≤ t.rank addr a := by
  rw [← not_lt,← workLess_iff,Bool.not_eq_true]

theorem work_le_of_rank_le {a b : Uint256} (h : t.rank addr a ≤ t.rank addr b) :
    (t.entry a).nChainWork ≤ (t.entry b).nChainWork := by
  rw [BitVec.le_def]
  exact Prod.Lex.monotone_fst _ _ h

/-- Linked blocks are told apart by their sequence numbers. -/
theorem LinkSound.rank_injective {queue : List Uint256} (hi : LinkSound t queue)
    (hbound : t.totalTx < 2^32) {a b : Uint256} (ha : t.Linked a) (hb : t.Linked b)
    (h : t.rank addr a = t.rank addr b) : a = b := by
  have hseq := congrArg (fun r => OrderDual.ofDual (ofLex (ofLex r).2).1) h
  exact hi.sequenceId_injective hbound ha hb (UInt32.toNat_inj.mp hseq)

theorem SameLinks.rank (hs : SameLinks t t') (addr : Uint256 → ℕ) : t'.rank addr = t.rank addr := by
  funext h
  unfold BlockTree.rank
  rw [hs.nChainWork,hs.nSequenceId]

/-- No failure flag is set on the entry itself. -/
def Unfailed (t : BlockTree) (h : Uint256) : Prop := (t.entry h).nStatus.failed = false

/-- What the operations keep, apart from the candidates being complete. -/
structure ChainSound (g : Uint256) (t : BlockTree) (queue : List Uint256) : Prop
    extends LinkSound t queue where
  rooted : t.Rooted g
  transactions : ∀ {h}, t.Received h → BLOCK_VALID_TRANSACTIONS ≤ (t.entry h).nStatus.valid
  active : t.ActivePath
  usable : ∀ {tip a}, t.tip = some tip → a ∈ t.path tip → t.Linked a ∧ t.Unfailed a
  candidate : ∀ {h}, h ∈ t.setBlockIndexCandidates → t.Linked h

/-- Every entry that could be connected and ranks no lower than `best` is a candidate. -/
def Complete (t : BlockTree) (addr : Uint256 → ℕ) (best : Option Uint256) : Prop :=
  ∀ h, t.Linked h → t.Unfailed h → (∀ b, best = some b → t.rank addr b ≤ t.rank addr h) →
    h ∈ t.setBlockIndexCandidates

theorem ChainSound.ready_iff {queue : List Uint256} (hi : ChainSound g t queue) {h : Uint256} :
    t.ready h = true ↔ t.Linked h ∧ t.Unfailed h := by
  unfold ready BlockStatus.isValid Linked Unfailed
  simp only [Bool.and_eq_true,Bool.not_eq_true',decide_eq_true_eq,bne_iff_ne,ne_eq]
  constructor
  · rintro ⟨⟨hf,_⟩,hl⟩
    exact ⟨hl,hf⟩
  · rintro ⟨hl,hf⟩
    exact ⟨⟨hf,hi.transactions (hi.received hl)⟩,hl⟩

theorem ChainSound.tip_linked {queue : List Uint256} (hi : ChainSound g t queue) {tip : Uint256}
    (htip : t.tip = some tip) : t.Linked tip :=
  (hi.usable htip (IsTree.self_mem_path t tip)).1

theorem ChainSound.linked_mem {queue : List Uint256} (hi : ChainSound g t queue) {h : Uint256}
    (hl : t.Linked h) : h ∈ t.mapBlockIndex := hi.received_mem (hi.received hl)

theorem ChainSound.congr {queue : List Uint256} (hi : ChainSound g t queue)
    (hs : SameLinks t t') (hactive : t'.ActivePath)
    (husable : ∀ {tip a}, t'.tip = some tip → a ∈ t.path tip → t.Linked a ∧ t'.Unfailed a)
    (hcand : ∀ {h}, h ∈ t'.setBlockIndexCandidates → t.Linked h) : ChainSound g t' queue where
  toLinkSound := hs.linkSound hi.toLinkSound
  rooted := hs.rooted hi.rooted
  transactions hr := by
    rw [hs.valid]
    exact hi.transactions (hs.received.mp hr)
  active := hactive
  usable htip ha := by
    rw [hs.path] at ha
    exact (husable htip ha).imp_left hs.linked.mpr
  candidate hh := hs.linked.mpr (hcand hh)

theorem Complete.congr {best : Option Uint256} (hc : Complete t addr best)
    (hlinked : ∀ {h}, t'.Linked h → t.Linked h) (hbest : ∀ b, best = some b → t.Linked b)
    (hentry : ∀ {h}, t.Linked h → t'.entry h = t.entry h)
    (hcand : t'.setBlockIndexCandidates = t.setBlockIndexCandidates) :
    Complete t' addr best := by
  intro h hl hf hrank
  have hl' := hlinked hl
  unfold Unfailed at hf
  rw [hentry hl'] at hf
  rw [hcand]
  refine hc h hl' hf fun b hb => ?_
  have hle := hrank b hb
  unfold rank at hle ⊢
  rwa [hentry hl',hentry (hbest b hb)] at hle

section
variable [Crypto] {block : CBlockHeader}

theorem addToBlockIndex_chain (t : BlockTree) (block : CBlockHeader) :
    (t.addToBlockIndex block).vChain = t.vChain ∧
      (t.addToBlockIndex block).setBlockIndexCandidates = t.setBlockIndexCandidates := by
  unfold addToBlockIndex
  dsimp only
  split_ifs <;> exact ⟨rfl,rfl⟩

theorem addToBlockIndex_of_linked (ht : t.IsTree) {h : Uint256} (hl : t.Linked h) :
    (t.addToBlockIndex block).entry h = t.entry h := by
  by_cases hmem : block.getHash ∈ t.mapBlockIndex
  · rw [addToBlockIndex_of_mem hmem]
  · refine addToBlockIndex_of_ne t ?_
    rintro rfl
    rw [Linked,ht.outside hmem] at hl
    exact hl rfl

theorem Rooted.addToBlockIndex (hr : t.Rooted g) (hself : block.getHash ≠ block.hashPrevBlock)
    (hroot : block.getHash ∉ t.mapBlockIndex →
      block.getHash = g ∨ block.hashPrevBlock ∈ t.mapBlockIndex) :
    (t.addToBlockIndex block).Rooted g := by
  by_cases hmem : block.getHash ∈ t.mapBlockIndex
  · rwa [addToBlockIndex_of_mem hmem]
  obtain ⟨e,he,_,_,_,_,hpprev,_⟩ := addToBlockIndex_new hmem hself
  constructor
  · intro h hh hp
    by_cases hx : h = block.getHash
    · rw [hx,he] at hp
      rcases hroot hmem with hroot | hprev
      · exact hx.trans hroot
      · rw [(hpprev _).mpr ⟨hprev,rfl⟩] at hp
        cases hp
    · rw [addToBlockIndex_mapBlockIndex hmem,List.mem_cons,or_iff_right hx] at hh
      rw [addToBlockIndex_of_ne t hx] at hp
      exact hr.eq_genesis hh hp
  · intro h hp
    by_cases hx : h = block.getHash
    · subst hx
      unfold BlockTree.addToBlockIndex at hp ⊢
      dsimp only at hp ⊢
      rw [if_neg hmem] at hp ⊢
      simp only [Function.update_self] at hp ⊢
      rw [hp]
    · rw [addToBlockIndex_of_ne t hx] at hp ⊢
      exact hr.height hp

theorem ChainSound.addToBlockIndex (hi : ChainSound g t [])
    (hself : block.getHash ≠ block.hashPrevBlock)
    (hroot : block.getHash ∉ t.mapBlockIndex →
      block.getHash = g ∨ block.hashPrevBlock ∈ t.mapBlockIndex) :
    ChainSound g (t.addToBlockIndex block) [] := by
  obtain ⟨hchain,hcand⟩ := addToBlockIndex_chain t block
  have hlinked : ∀ {x}, (t.addToBlockIndex block).Linked x ↔ t.Linked x :=
    addToBlockIndex_linked t hi.tree hself
  have htip : (t.addToBlockIndex block).tip = t.tip := congrArg List.getLast? hchain
  have hpath : ∀ {tip}, t.tip = some tip → (t.addToBlockIndex block).path tip = t.path tip :=
    fun htip => hi.tree.path_addToBlockIndex hself (hi.linked_mem (hi.tip_linked htip))
  refine ⟨hi.toLinkSound.addToBlockIndex hself,hi.rooted.addToBlockIndex hself hroot,?_,?_,?_,?_⟩
  · intro x hr
    rw [addToBlockIndex_received t hi.tree hself] at hr
    by_cases hmem : block.getHash ∈ t.mapBlockIndex
    · rw [addToBlockIndex_of_mem hmem]
      exact hi.transactions hr
    · rw [addToBlockIndex_of_ne]
      · exact hi.transactions hr
      · rintro rfl
        exact hmem (hi.received_mem hr)
  · intro tip h
    rw [htip] at h
    rw [hchain,hpath h]
    exact hi.active tip h
  · intro tip a h ha
    rw [htip] at h
    rw [hpath h] at ha
    obtain ⟨hl,hf⟩ := hi.usable h ha
    refine ⟨hlinked.mpr hl,?_⟩
    unfold Unfailed
    rw [addToBlockIndex_of_linked hi.tree hl]
    exact hf
  · intro h hh
    rw [hcand] at hh
    exact hlinked.mpr (hi.candidate hh)

theorem Complete.addToBlockIndex (hc : Complete t addr t.tip) (hi : ChainSound g t [])
    (hself : block.getHash ≠ block.hashPrevBlock) :
    Complete (t.addToBlockIndex block) addr (t.addToBlockIndex block).tip := by
  obtain ⟨hchain,hcand⟩ := addToBlockIndex_chain t block
  rw [show (t.addToBlockIndex block).tip = t.tip from congrArg List.getLast? hchain]
  exact hc.congr (addToBlockIndex_linked t hi.tree hself).mp (fun _ => hi.tip_linked)
    (addToBlockIndex_of_linked hi.tree) hcand

end

section
variable {h q : Uint256} {n : ℕ} {queue : List Uint256}

theorem ChainSound.setReceived (hi : ChainSound g t []) (hnew : ¬ t.Received h)
    (hf : t.Unfailed h) (hs : SetReceived t t' h n) (hlink : LinkSound t' queue)
    (hmem : h ∈ t.mapBlockIndex) (hchain : t'.vChain = t.vChain)
    (hcand : t'.setBlockIndexCandidates = t.setBlockIndexCandidates) :
    ChainSound g t' queue ∧ (Complete t addr t.tip → Complete t' addr t'.tip) := by
  have hnot : ¬ t.Linked h := fun hl => hnew (hi.received hl)
  have hlinked : ∀ {x}, t'.Linked x ↔ t.Linked x := hs.linked hnot
  have hentry : ∀ {x}, t.Linked x → t'.entry x = t.entry x := by
    intro x hl
    refine hs.of_ne ?_
    rintro rfl
    exact hnot hl
  have hshape := hs.shape hmem
  have htip : t'.tip = t.tip := congrArg List.getLast? hchain
  refine ⟨⟨hlink,?_,?_,?_,?_,?_⟩,fun hc => ?_⟩
  · constructor
    · intro x hx hp
      rw [hs.mapBlockIndex] at hx
      rw [hshape.pprev] at hp
      exact hi.rooted.eq_genesis hx hp
    · intro x hp
      rw [hshape.pprev] at hp
      rw [hshape.nHeight]
      exact hi.rooted.height hp
  · intro x hr
    by_cases hx : x = h
    · have hstatus : ({ (t.entry h).nStatus with haveData := true } : BlockStatus).failed =
        false := hf
      rw [hx,hs.entry,setReceived_same]
      dsimp only
      unfold BlockStatus.raiseValidity
      rw [hstatus]
      exact le_max_right _ _
    · rw [hs.of_ne hx]
      exact hi.transactions ((hs.received.mp hr).resolve_right hx)
  · intro tip htip'
    rw [htip] at htip'
    rw [hchain,hshape.path]
    exact hi.active tip htip'
  · intro tip a htip' ha
    rw [htip] at htip'
    rw [hshape.path] at ha
    obtain ⟨hl,hfa⟩ := hi.usable htip' ha
    refine ⟨hlinked.mpr hl,?_⟩
    unfold Unfailed
    rw [hentry hl]
    exact hfa
  · intro x hx
    rw [hcand] at hx
    exact hlinked.mpr (hi.candidate hx)
  · rw [htip]
    exact hc.congr hlinked.mp (fun _ => hi.tip_linked) hentry hcand

theorem linkBlock_vChain (t : BlockTree) (addr : Uint256 → ℕ) (q : Uint256) :
    (t.linkBlock addr q).vChain = t.vChain := by
  unfold linkBlock insertCandidate
  dsimp only
  split
  · rfl
  · split_ifs <;> rfl

theorem mem_linkBlock_candidates (t : BlockTree) (addr : Uint256 → ℕ) (q h : Uint256) :
    h ∈ (t.linkBlock addr q).setBlockIndexCandidates ↔ h ∈ t.setBlockIndexCandidates ∨ h = q ∧
      ∀ tip, t.tip = some tip → (t.linkBlock addr q).rank addr tip ≤
        (t.linkBlock addr q).rank addr q := by
  have htip : ∀ (e : Uint256 → BlockTreeEntry) (n : UInt32), ({ t with
      entry := e, nBlockSequenceId := n } : BlockTree).tip = t.tip := fun _ _ => rfl
  have hrank : ∀ a b, (t.linkBlock addr q).rank addr a ≤ (t.linkBlock addr q).rank addr b ↔
      (t.linkBlock addr q).workLess addr b a = false := fun a b =>
    (workLess_eq_false _ _ _ _).symm
  simp only [hrank]
  unfold linkBlock insertCandidate modify
  dsimp only
  rw [htip]
  cases htop : t.tip with
  | none => simp [or_comm]
  | some tip =>
    dsimp only
    split_ifs with hless
    · simp only [Option.some.injEq,forall_eq']
      constructor
      · exact Or.inl
      · rintro (hh | ⟨_,hle⟩)
        · exact hh
        · exact absurd (hless.symm.trans hle) (by simp)
    · simp only [Finset.mem_insert,Option.some.injEq,forall_eq']
      rw [Bool.not_eq_true] at hless
      constructor
      · rintro (rfl | hh)
        · exact Or.inr ⟨rfl,hless⟩
        · exact Or.inl hh
      · rintro (hh | ⟨rfl,_⟩)
        · exact Or.inr hh
        · exact Or.inl rfl

/-- The step lemma of the queue: the block that is linked becomes a candidate if it has to. -/
theorem ChainSound.linkBlock (hi : ChainSound g t (q::queue)) (hc : Complete t addr t.tip)
    (hbound : t.totalTx < 2^32) :
    ChainSound g (t.linkBlock addr q) (queue ++ t.unlinkedChildren q) ∧
      Complete (t.linkBlock addr q) addr (t.linkBlock addr q).tip := by
  obtain ⟨_,hnot,_⟩ := hi.queue_ready List.mem_cons_self
  have hshape : SameShape t (t.linkBlock addr q) := hi.shape_linkBlock
  have hlinked : ∀ {h}, (t.linkBlock addr q).Linked h ↔ t.Linked h ∨ h = q :=
    hi.linked_linkBlock hbound
  have hunfailed : ∀ {h}, (t.linkBlock addr q).Unfailed h ↔ t.Unfailed h := by
    intro h
    unfold Unfailed
    rw [linkBlock_nStatus]
  have htip : (t.linkBlock addr q).tip = t.tip := congrArg List.getLast? (t.linkBlock_vChain addr q)
  have hrank : ∀ {h}, t.Linked h → (t.linkBlock addr q).rank addr h = t.rank addr h := by
    intro h hl
    have hne : h ≠ q := by
      rintro rfl
      exact hnot hl
    unfold rank
    rw [linkBlock_of_ne t addr hne]
  refine ⟨⟨hi.toLinkSound.linkBlock hbound,?_,?_,?_,?_,?_⟩,?_⟩
  · constructor
    · intro h hh hp
      rw [hshape.mapBlockIndex] at hh
      rw [hshape.pprev] at hp
      exact hi.rooted.eq_genesis hh hp
    · intro h hp
      rw [hshape.pprev] at hp
      rw [hshape.nHeight]
      exact hi.rooted.height hp
  · intro h hr
    rw [linkBlock_nStatus]
    exact hi.transactions ((t.linkBlock_received addr q).mp hr)
  · intro tip h
    rw [htip] at h
    rw [linkBlock_vChain,hshape.path]
    exact hi.active tip h
  · intro tip a h ha
    rw [htip] at h
    rw [hshape.path] at ha
    obtain ⟨hl,hf⟩ := hi.usable h ha
    exact ⟨hlinked.mpr (Or.inl hl),hunfailed.mpr hf⟩
  · intro h hh
    rw [hlinked]
    exact ((mem_linkBlock_candidates t addr q h).mp hh).imp hi.candidate And.left
  · intro h hl hf hle
    rw [htip] at hle
    rw [mem_linkBlock_candidates]
    by_cases hh : h = q
    · rw [hh] at hle
      exact Or.inr ⟨hh,hle⟩
    · have hl' := (hlinked.mp hl).resolve_right hh
      refine Or.inl (hc h hl' (hunfailed.mp hf) fun b hb => ?_)
      rw [← hrank hl',← hrank (hi.tip_linked hb)]
      exact hle b hb

theorem ChainSound.linkQueue {fuel : ℕ} (hi : ChainSound g t queue) (hc : Complete t addr t.tip)
    (hbound : t.totalTx < 2^32) (hfuel : queue.length + t.mapBlocksUnlinked.length ≤ fuel) :
    ChainSound g (linkQueue addr fuel queue t) [] ∧
      Complete (BlockTree.linkQueue addr fuel queue t) addr
        (BlockTree.linkQueue addr fuel queue t).tip := by
  refine and_assoc.mp (linkQueue_induct (P := fun t queue => (ChainSound g t queue ∧
    Complete t addr t.tip) ∧ t.totalTx < 2^32) ?_ ⟨⟨hi,hc⟩,hbound⟩ hfuel) |>.imp_right And.left
  intro t q queue h
  exact ⟨h.1.1.linkBlock h.1.2 h.2,(linkBlock_totalTx t addr q).trans_lt h.2⟩

end

end BlockTree
end Sidechain
