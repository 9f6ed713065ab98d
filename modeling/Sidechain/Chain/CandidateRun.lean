import Sidechain.Chain.ArrivalRun
import Sidechain.Chain.BestChain

/-! Any sequence of headers, blocks, activations and failures by hand: when nothing that could
become the tip is missing from the candidates, and how forgiving a block loses one. -/
namespace Sidechain
namespace BlockTree

variable {t t' : BlockTree} {addr : Uint256 → ℕ} {g : Uint256}

section
variable [Crypto]

/-- What happens to the index: a header or a requested block arrives, with the verdicts of its
checks, the best chain is activated, with the verdicts of `ConnectBlock`, or a block is marked or
forgiven by hand. -/
inductive ChainCall where
  | header (block : CBlockHeader) (passes : Bool)
  | block (block : CBlock) (headerPasses passes : Bool)
  | activate (connects : BlockTree → Uint256 → Bool)
  | invalidate (pindex : Uint256)
  | reconsider (pindex : Uint256)

def chainStep (addr : Uint256 → ℕ) (hashGenesisBlock : Uint256) (t : BlockTree) :
    ChainCall → Option BlockTree
  | .header block passes => some ((t.acceptBlockHeader hashGenesisBlock block passes).getD t)
  | .block block headerPasses passes =>
    some (t.processBlock addr hashGenesisBlock block headerPasses passes)
  | .activate connects => t.activateBestChain addr hashGenesisBlock connects
  | .invalidate pindex => t.invalidateBlock addr pindex
  | .reconsider pindex => t.reconsiderBlock addr pindex

/-- No header is its own parent, blocks that pass keep the size limits of `CheckBlock`, the genesis
block passes, and only entries of the index are marked or forgiven. -/
def ChainCall.WellFormed (hashGenesisBlock : Uint256) (t : BlockTree) : ChainCall → Prop
  | .header b _ => b.getHash ≠ b.hashPrevBlock
  | .block b _ passes => b.toCBlockHeader.getHash ≠ b.hashPrevBlock ∧
      (passes = true → 1 ≤ b.vtx.length ∧ b.vtx.length ≤ MAX_BLOCK_SIZE) ∧
      (b.toCBlockHeader.getHash = hashGenesisBlock → passes = true)
  | .activate _ => True
  | .invalidate pindex => pindex ∈ t.mapBlockIndex
  | .reconsider pindex => pindex ∈ t.mapBlockIndex

/-- The genesis block is not marked by hand, no forgiven ancestor is as good as the tip, what
connected connects again, and fewer than `2^32` transactions arrive. -/
def ChainCall.Careful (addr : Uint256 → ℕ) (hashGenesisBlock : Uint256) (t : BlockTree) :
    ChainCall → Prop
  | .header _ _ => True
  | .block b _ _ => t.totalTx + b.vtx.length < 2^32
  | .activate connects => t.ConnectsAgain connects
  | .invalidate pindex => pindex ≠ hashGenesisBlock
  | .reconsider pindex => t.ForgivesWorse addr pindex

/-- The states that well-formed calls reach, each of which satisfies `P`. -/
inductive ChainReached (addr : Uint256 → ℕ) (hashGenesisBlock : Uint256)
    (P : BlockTree → ChainCall → Prop) : BlockTree → Prop
  | start : ChainReached addr hashGenesisBlock P {}
  | step {t t' : BlockTree} {call : ChainCall} (h : ChainReached addr hashGenesisBlock P t)
      (hwf : call.WellFormed hashGenesisBlock t) (hP : P t call)
      (hstep : chainStep addr hashGenesisBlock t call = some t') :
      ChainReached addr hashGenesisBlock P t'

/-- What holds between two calls. -/
structure ChainInvariant (addr : Uint256 → ℕ) (g : Uint256) (t : BlockTree) : Prop where
  sound : ChainSound g t []
  complete : Complete t addr t.tip
  genesis : t.Unfailed g
  bound : t.totalTx < 2^32

omit [Crypto] in
theorem ChainInvariant.empty (addr : Uint256 → ℕ) (g : Uint256) : ChainInvariant addr g {} where
  sound :=
    { toLinkSound := LinkInvariant.empty.toLinkSound
      rooted :=
        { eq_genesis := fun hmem => absurd hmem List.not_mem_nil
          height := fun _ => rfl }
      transactions := fun hr => nomatch hr
      active := fun _ htip => nomatch htip
      usable := fun htip => nomatch htip
      candidate := fun hh => absurd hh (Finset.notMem_empty _) }
  complete _ hl := absurd rfl hl
  genesis := rfl
  bound := by decide

omit [Crypto] in
theorem totalTx_setReceived_le (hnodup : t.mapBlockIndex.Nodup) (h : Uint256) (n : ℕ) :
    (t.setReceived h n).totalTx ≤ t.totalTx + n := by
  have hentry : ∀ x, ((t.setReceived h n).entry x).nTx =
      if x = h then UInt32.ofNat n else (t.entry x).nTx := by
    intro x
    split_ifs with hx
    · rw [hx,setReceived_same]
    · rw [setReceived_of_ne t n hx]
  unfold totalTx
  simp only [hentry]
  rw [show (t.setReceived h n).mapBlockIndex = t.mapBlockIndex from rfl]
  generalize t.mapBlockIndex = index at hnodup
  induction index with
  | nil => simp
  | cons x hs ih =>
    obtain ⟨hout,hrest⟩ := List.nodup_cons.mp hnodup
    rw [List.map_cons,List.sum_cons,List.map_cons,List.sum_cons]
    by_cases hx : x = h
    · have hsame : (hs.map fun a => (if a = h then UInt32.ofNat n else (t.entry a).nTx).toNat) =
          hs.map fun a => (t.entry a).nTx.toNat := by
        refine List.map_congr_left fun a ha => ?_
        rw [if_neg]
        rintro rfl
        exact hout (hx ▸ ha)
      have hle : (UInt32.ofNat n).toNat ≤ n := Nat.mod_le _ _
      rw [hsame,if_pos hx]
      omega
    · have := ih hrest
      rw [if_neg hx]
      omega

theorem ChainInvariant.addToBlockIndex {block : CBlockHeader} (hi : ChainInvariant addr g t)
    (hself : block.getHash ≠ block.hashPrevBlock) (hroot : block.getHash ∉ t.mapBlockIndex →
      block.getHash = g ∨ block.hashPrevBlock ∈ t.mapBlockIndex) :
    ChainInvariant addr g (t.addToBlockIndex block) where
  sound := hi.sound.addToBlockIndex hself hroot
  complete := hi.complete.addToBlockIndex hi.sound hself
  genesis := unfailed_addToBlockIndex hi.genesis hself
  bound := by
    rw [addToBlockIndex_totalTx t hself]
    exact hi.bound

theorem ChainInvariant.acceptBlockHeader {block : CBlockHeader} {passes : Bool}
    (hi : ChainInvariant addr g t) (hself : block.getHash ≠ block.hashPrevBlock)
    (h : t.acceptBlockHeader g block passes = some t') :
    ChainInvariant addr g t' ∧ t'.Unfailed block.getHash ∧ block.getHash ∈ t'.mapBlockIndex ∧
      t'.totalTx = t.totalTx := by
  obtain ⟨rfl,hf,hroot⟩ := acceptBlockHeader_some hi.genesis hself h
  exact ⟨hi.addToBlockIndex hself hroot,hf,mem_addToBlockIndex t block,
    addToBlockIndex_totalTx t hself⟩

/-- A block that fails its own checks is marked, and so can not be the genesis block. -/
theorem ChainInvariant.processBlock {block : CBlock} {headerPasses passes : Bool}
    (hi : ChainInvariant addr g t)
    (hwf : (ChainCall.block block headerPasses passes).WellFormed g t)
    (hbound : t.totalTx + block.vtx.length < 2^32) :
    ChainInvariant addr g (t.processBlock addr g block headerPasses passes) := by
  obtain ⟨hself,hsize,hgenesis⟩ := hwf
  unfold BlockTree.processBlock
  cases haccept : t.acceptBlockHeader g block.toCBlockHeader headerPasses with
  | none => exact hi
  | some t1 =>
    obtain ⟨hi1,hf,hmem,htotal⟩ := hi.acceptBlockHeader hself haccept
    dsimp only
    split_ifs with hdata hpasses
    · exact hi1
    · have hlen := totalTx_setReceived_le hi1.sound.tree.nodup block.toCBlockHeader.getHash
        block.vtx.length
      have hbound1 := hlen.trans_lt (htotal ▸ hbound)
      obtain ⟨hpos,hmax⟩ := hsize hpasses
      obtain ⟨hs,hc⟩ := hi1.sound.receivedBlockTransactions hi1.complete hmem hdata hf hpos
        (lt_of_le_of_lt hmax (by decide)) hbound1
      refine ⟨hs,hc,?_,?_⟩
      · obtain ⟨_,hframe⟩ := receivedBlockTransactions_frame addr t1 block
          block.toCBlockHeader.getHash
        unfold Unfailed
        rw [(hframe g).2]
        by_cases hg : g = block.toCBlockHeader.getHash
        · rw [hg,setReceived_same,BlockStatus.raiseValidity_failed]
          exact hf
        · rw [setReceived_of_ne t1 _ hg]
          exact hi1.genesis
      · rw [receivedBlockTransactions_totalTx]
        exact hbound1
    · obtain ⟨hs,hc⟩ := hi1.sound.setFailedValid hi1.complete hmem hdata
      refine ⟨hs,hc,unfailed_setFailedValid.mpr ⟨?_,hi1.genesis⟩,?_⟩
      · rintro rfl
        exact hpasses (hgenesis rfl)
      · rw [(sameLinks_setFailedValid hmem).totalTx]
        exact hi1.bound

/-- The step lemma of the run. -/
theorem ChainInvariant.chainStep {call : ChainCall} (hi : ChainInvariant addr g t)
    (hwf : call.WellFormed g t) (hcareful : call.Careful addr g t)
    (hstep : chainStep addr g t call = some t') : ChainInvariant addr g t' := by
  cases call with
  | header block passes =>
    cases hstep
    cases haccept : t.acceptBlockHeader g block passes with
    | none => exact hi
    | some t1 => exact (hi.acceptBlockHeader hwf haccept).1
  | block block headerPasses passes =>
    cases hstep
    exact hi.processBlock hwf hcareful
  | activate connects =>
    obtain ⟨t1,heq,ha⟩ := hi.sound.activateBestChain hi.complete hi.genesis hcareful
    cases heq.symm.trans hstep
    exact ⟨ha.sound,ha.complete,ha.genesis,ha.totalTx ▸ hi.bound⟩
  | invalidate pindex =>
    obtain ⟨hs,hc,hg,hlinks⟩ := hi.sound.invalidateBlock hi.genesis hwf hcareful hstep
    exact ⟨hs,hc,hg,hlinks.totalTx ▸ hi.bound⟩
  | reconsider pindex =>
    obtain ⟨hs,hc,hg,hlinks⟩ :=
      hi.sound.reconsiderBlock hi.complete hi.genesis hi.bound hwf hcareful hstep
    exact ⟨hs,hc,hg,hlinks.totalTx ▸ hi.bound⟩

theorem ChainReached.invariant (h : ChainReached addr g (fun t call => call.Careful addr g t) t) :
    ChainInvariant addr g t := by
  induction h with
  | start => exact ChainInvariant.empty addr g
  | step _ hwf hcareful hstep ih => exact ih.chainStep hwf hcareful hstep

/-- An entry that could become the tip: all transactions up to it have arrived, and nothing on its
path has failed. -/
def Eligible (t : BlockTree) (h : Uint256) : Prop :=
  h ∈ t.mapBlockIndex ∧ BLOCK_VALID_TRANSACTIONS ≤ (t.entry h).nStatus.valid ∧
    (t.entry h).nChainTx ≠ 0 ∧ ∀ a ∈ t.path h, (t.entry a).nStatus.failed = false

/-- An entry that is at least as good as the tip, if there is one. -/
def NotWorse (t : BlockTree) (addr : Uint256 → ℕ) (h : Uint256) : Prop :=
  ∀ tip, t.tip = some tip → t.workLess addr h tip = false

/-- After any sequence of careful calls, an entry that could become the tip and is as good as the
tip is a candidate; and from there `ActivateBestChain` ends on such an entry, than which no other
one has more work. -/
theorem candidates_complete (addr : Uint256 → ℕ) (hashGenesisBlock : Uint256) (t : BlockTree)
    (h : ChainReached addr hashGenesisBlock
      (fun t call => call.Careful addr hashGenesisBlock t) t) :
    (∀ x, t.Eligible x → t.NotWorse addr x → x ∈ t.setBlockIndexCandidates) ∧
    ∀ connects, t.ConnectsAgain connects →
      ∃ t', t.activateBestChain addr hashGenesisBlock connects = some t' ∧
        (∀ tip, t'.tip = some tip → t'.Eligible tip) ∧
        ∀ x, t'.Eligible x → ∃ tip, t'.tip = some tip ∧
          (t'.entry x).nChainWork ≤ (t'.entry tip).nChainWork ∧ t'.workLess addr tip x = false := by
  have hi := h.invariant
  refine ⟨fun x hx hw => ?_,fun connects hagain => ?_⟩
  · refine hi.complete x hx.2.2.1 (hx.2.2.2 x (IsTree.self_mem_path t x)) fun tip htip => ?_
    exact (workLess_eq_false t addr x tip).mp (hw tip htip)
  · obtain ⟨t',heq,ha⟩ := hi.sound.activateBestChain hi.complete hi.genesis hagain
    refine ⟨t',heq,fun tip htip => ?_,fun x hx => ?_⟩
    · have hl := ha.sound.tip_linked htip
      exact ⟨ha.sound.linked_mem hl,ha.sound.transactions (ha.sound.received hl),hl,
        fun a ha' => (ha.sound.usable htip ha').2⟩
    · obtain ⟨tip,htip,hle⟩ := ha.best hx.2.2.1 (hx.2.2.2 x (IsTree.self_mem_path t' x))
      exact ⟨tip,htip,work_le_of_rank_le hle,(workLess_eq_false t' addr tip x).mpr hle⟩

end

section
local instance chainCrypto : Crypto := nonceCrypto

/-- A block on top of another one, with the least work. -/
def easyBlock (prev nonce : UInt32) : CBlock :=
  { hashPrevBlock := BitVec.ofNat 256 prev.toNat, nNonce := nonce, nBits := 0x207fffff, vtx := [{}] }

/-- The state after a call, where there is one. -/
def after (t : BlockTree) (call : ChainCall) : BlockTree := (chainStep (fun _ => 0) 1 t call).getD t

theorem chainStep_after (call : ChainCall)
    (hstep : (BlockTree.chainStep (fun _ => 0) 1 t call).isSome = true) :
    BlockTree.chainStep (fun _ => 0) 1 t call = some (t.after call) := by
  obtain ⟨t',ht'⟩ := Option.isSome_iff_exists.mp hstep
  rw [BlockTree.after,ht']
  rfl

theorem ChainReached.after {P : BlockTree → ChainCall → Prop}
    (h : ChainReached (fun _ => 0) 1 P t) (call : ChainCall) (hwf : call.WellFormed 1 t)
    (hP : P t call) (hstep : (BlockTree.chainStep (fun _ => 0) 1 t call).isSome = true) :
    ChainReached (fun _ => 0) 1 P (t.after call) :=
  h.step hwf hP (chainStep_after call hstep)

/-- Two blocks become the active chain, the header of a third one follows, and the second block is
marked. -/
def marked : BlockTree :=
  ((((({} : BlockTree).after (.block (easyBlock 0 1) true true)).after
    (.block (easyBlock 1 2) true true)).after (.activate fun _ _ => true)).after
      (.header (easyBlock 2 3).toCBlockHeader true)).after (.invalidate 2)

theorem marked_reached {P : BlockTree → ChainCall → Prop}
    (hP : ∀ t call, call.Careful (fun _ => 0) 1 t → P t call) :
    ChainReached (fun _ => 0) 1 P marked := by
  have h1 := (ChainReached.start (P := P)).after (.block (easyBlock 0 1) true true)
    ⟨by decide,fun _ => by decide,fun _ => rfl⟩ (hP _ _ (by change _ < _; decide)) rfl
  have h2 := h1.after (.block (easyBlock 1 2) true true)
    ⟨by decide,fun _ => by decide,fun _ => rfl⟩ (hP _ _ (by change _ < _; decide)) rfl
  have h3 := h2.after (.activate fun _ _ => true) trivial
    (hP _ _ fun _ _ _ => rfl) (by decide)
  have h4 := h3.after (.header (easyBlock 2 3).toCBlockHeader true)
    (by change CBlockHeader.getHash _ ≠ _; decide) (hP _ _ trivial) rfl
  exact h4.after (.invalidate 2) (by change _ ∈ _; decide)
    (hP _ _ (by change _ ≠ _; decide)) (by decide)

theorem eligible_of_all {h : Uint256} (hmem : h ∈ t.mapBlockIndex)
    (hvalid : BLOCK_VALID_TRANSACTIONS ≤ (t.entry h).nStatus.valid)
    (hchain : (t.entry h).nChainTx ≠ 0)
    (hall : ((t.path h).all fun a => !(t.entry a).nStatus.failed) = true) : t.Eligible h := by
  refine ⟨hmem,hvalid,hchain,fun a ha => ?_⟩
  have := List.all_eq_true.mp hall a ha
  rwa [Bool.not_eq_true'] at this

/-- Forgiving the block itself makes it a candidate again. -/
theorem forgiven_candidate : 2 ∈ (marked.after (.reconsider 2)).setBlockIndexCandidates := by
  have hreached : ChainReached (fun _ => 0) 1 (fun t call => call.Careful (fun _ => 0) 1 t)
      (marked.after (.reconsider 2)) := by
    refine (marked_reached fun _ _ h => h).after (.reconsider 2) (by change _ ∈ _; decide) ?_
      (by decide)
    have hall : ((marked.path 2).all fun a =>
      a == 2 || !(marked.entry a).nStatus.failed) = true := by decide
    intro a ha hne hfailed
    have := List.all_eq_true.mp hall a ha
    rw [hfailed,Bool.not_true,Bool.or_false,beq_iff_eq] at this
    exact absurd this hne
  refine (candidates_complete (fun _ => 0) 1 _ hreached).1 2
    (eligible_of_all (by decide) (by decide) (by decide)
      (by decide)) ?_
  have htip : (marked.after (.reconsider 2)).tip = some 1 := by decide
  intro tip h
  rw [htip] at h
  cases h
  decide

/-- Forgiving its child, of which only the header is known, leaves the block out: it could become
the tip and has more work, but `ActivateBestChain` stays where it is. -/
theorem forgiven_left_out : ∃ t, ChainReached (fun _ => 0) 1 (fun _ _ => True) t ∧
    ∃ x, t.Eligible x ∧ t.NotWorse (fun _ => 0) x ∧ x ∉ t.setBlockIndexCandidates ∧
      ∃ t', t.activateBestChain (fun _ => 0) 1 (fun _ _ => true) = some t' ∧ t'.Eligible x ∧
        ∃ tip, t'.tip = some tip ∧ (t'.entry tip).nChainWork < (t'.entry x).nChainWork := by
  have htip : (marked.after (.reconsider 3)).tip = some 1 := by decide
  have hactivate : (marked.after (.reconsider 3)).activateBestChain (fun _ => 0) 1
      (fun _ _ => true) = some ((marked.after (.reconsider 3)).after (.activate fun _ _ => true)) :=
    chainStep_after (t := marked.after (.reconsider 3)) (.activate fun _ _ => true)
      (by decide)
  refine ⟨marked.after (.reconsider 3),(marked_reached fun _ _ _ => trivial).after (.reconsider 3)
    (by change _ ∈ _; decide) trivial (by decide),2,
    eligible_of_all (by decide) (by decide) (by decide)
      (by decide),?_,by decide,_,hactivate,
    eligible_of_all (by decide) (by decide) (by decide)
      (by decide),1,by decide,by decide⟩
  intro tip h
  rw [htip] at h
  cases h
  decide

end

end BlockTree
end Sidechain
