import Sidechain.Chain.BlockArrival
import Sidechain.Validation.CheckBlock

/-! Headers and blocks in any order of arrival: which blocks are linked to genesis after any number
of calls, with how many transactions, and which ones wait for an ancestor. -/
namespace Sidechain
namespace BlockTree

variable {t : BlockTree} {addr : Uint256 → ℕ}

section
variable [Crypto]

/-- What happens to the index: a header or a block is accepted, or the active chain and its
candidates become others. -/
inductive ArrivalCall where
  | header (block : CBlockHeader)
  | block (block : CBlock)
  | activate (vChain : List Uint256) (candidates : Finset Uint256)

/-- No header is its own parent, and blocks keep the size limits of `CheckBlock`. -/
def ArrivalCall.WellFormed : ArrivalCall → Prop
  | .header b => b.getHash ≠ b.hashPrevBlock
  | .block b => b.toCBlockHeader.getHash ≠ b.hashPrevBlock ∧ 1 ≤ b.vtx.length ∧
      b.vtx.length ≤ MAX_BLOCK_SIZE
  | .activate _ _ => True

def arrivalStep (addr : Uint256 → ℕ) (t : BlockTree) : ArrivalCall → BlockTree
  | .header block => t.addToBlockIndex block
  | .block block => t.acceptBlock addr block
  | .activate vChain candidates => { t with vChain, setBlockIndexCandidates := candidates }

def arrivalRun (addr : Uint256 → ℕ) (calls : List ArrivalCall) : BlockTree :=
  calls.foldl (arrivalStep addr) {}

/-- A block with this hash is among the calls. -/
def Delivered (calls : List ArrivalCall) (h : Uint256) : Prop :=
  ∃ block : CBlock, .block block ∈ calls ∧ block.toCBlockHeader.getHash = h

omit [Crypto] in
theorem linkQueue_frame (addr : Uint256 → ℕ) (fuel : ℕ) (queue : List Uint256) (t : BlockTree) :
    (linkQueue addr fuel queue t).mapBlockIndex = t.mapBlockIndex ∧ ∀ h,
      ((linkQueue addr fuel queue t).entry h).nTx = (t.entry h).nTx ∧
      ((linkQueue addr fuel queue t).entry h).nStatus = (t.entry h).nStatus := by
  induction fuel generalizing queue t with
  | zero => exact ⟨rfl,fun _ => ⟨rfl,rfl⟩⟩
  | succ fuel ih =>
    cases queue with
    | nil => exact ⟨rfl,fun _ => ⟨rfl,rfl⟩⟩
    | cons q queue =>
      obtain ⟨h1,h2⟩ := ih (queue ++ t.unlinkedChildren q) (t.linkBlock addr q)
      refine ⟨h1.trans (linkBlock_mapBlockIndex t addr q),fun h => ?_⟩
      exact ⟨(h2 h).1.trans (linkBlock_nTx t addr q h),(h2 h).2.trans (linkBlock_nStatus t addr q h)⟩

omit [Crypto] in
/-- After the data is stored, only links change. -/
theorem receivedBlockTransactions_frame (addr : Uint256 → ℕ) (t : BlockTree) (block : CBlock) (h : Uint256) :
    let t1 := t.setReceived h block.vtx.length
    let t2 := t.receivedBlockTransactions addr block h
    t2.mapBlockIndex = t.mapBlockIndex ∧ ∀ x, (t2.entry x).nTx = (t1.entry x).nTx ∧
      (t2.entry x).nStatus = (t1.entry x).nStatus := by
  intro t1 t2
  have hlink := linkQueue_frame addr (t1.mapBlocksUnlinked.length + 1) [h] t1
  unfold t2 BlockTree.receivedBlockTransactions
  dsimp only
  cases hp : ((t.setReceived h block.vtx.length).entry h).pprev with
  | none => exact hlink
  | some p =>
    dsimp only
    split_ifs
    · exact hlink
    · exact ⟨rfl,fun _ => ⟨rfl,rfl⟩⟩
    · exact ⟨rfl,fun _ => ⟨rfl,rfl⟩⟩

omit [Crypto] in
theorem receivedBlockTransactions_totalTx (t : BlockTree) (block : CBlock) (h : Uint256) :
    (t.receivedBlockTransactions addr block h).totalTx =
      (t.setReceived h block.vtx.length).totalTx := by
  obtain ⟨hindex,hframe⟩ := receivedBlockTransactions_frame addr t block h
  unfold totalTx
  rw [hindex]
  exact congrArg List.sum (List.map_congr_left fun x _ => by rw [(hframe x).1])

/-- A block is either known with its data, or its data is received now. -/
theorem acceptBlock_cases (t : BlockTree) (addr : Uint256 → ℕ) (block : CBlock) :
    let h := block.toCBlockHeader.getHash
    let t1 := t.addToBlockIndex block.toCBlockHeader
    (t1.Received h ∧ t.acceptBlock addr block = t1) ∨
      (¬ t1.Received h ∧ t.acceptBlock addr block = t1.receivedBlockTransactions addr block h) := by
  intro h t1
  by_cases hdata : t1.Received h
  · exact Or.inl ⟨hdata,if_pos hdata⟩
  · exact Or.inr ⟨hdata,if_neg hdata⟩

omit [Crypto] in
theorem LinkInvariant.empty : LinkInvariant ({} : BlockTree) [] where
  tree :=
    { nodup := List.nodup_nil
      parent_mem := fun hp => nomatch hp
      height := fun hp => nomatch hp
      outside := fun _ => rfl }
  received_mem hr := nomatch hr
  nTx_pos hr := nomatch hr
  received hl := absurd rfl hl
  parent hl := absurd rfl hl
  queue_ready hmem := nomatch hmem
  queue_nodup := List.nodup_nil
  waiting hmem := nomatch hmem
  unlinked_nodup := List.nodup_nil
  chainTx hl := absurd rfl hl
  order := ⟨[],List.nodup_nil,fun _ => iff_of_false List.not_mem_nil fun hl => hl rfl,
    fun _ _ h => by simp at h,rfl⟩
  valid hmem := nomatch hmem
  linked hr := nomatch hr
  waits hr := nomatch hr

omit [Crypto] in
theorem LinkSound.congr {t' : BlockTree} {queue : List Uint256} (hi : LinkSound t queue)
    (hentry : t'.entry = t.entry) (hindex : t'.mapBlockIndex = t.mapBlockIndex)
    (hnext : t'.nBlockSequenceId = t.nBlockSequenceId)
    (hunlinked : t'.mapBlocksUnlinked = t.mapBlocksUnlinked) : LinkSound t' queue := by
  have hshape : SameShape t t' := by
    refine ⟨hindex,?_,?_,?_⟩ <;> intro h <;> rw [hentry]
    exact fun _ => rfl
  have hlinked : t'.Linked = t.Linked := by
    unfold Linked
    rw [hentry]
  have hreceived : t'.Received = t.Received := by
    unfold Received
    rw [hentry]
  have hpath : t'.pathTx = t.pathTx := by
    funext h
    unfold pathTx
    rw [hshape.path,hentry]
  obtain ⟨h1,h2,h3,h4,h5,h6,h7,h8,h9,h10,h11⟩ := hi
  refine ⟨hshape.isTree h1,?_,?_,?_,?_,?_,h7,?_,?_,?_,?_⟩
  all_goals
    simp only [hentry,hindex,hnext,hunlinked,hlinked,hreceived,hpath]
    assumption

omit [Crypto] in
theorem LinkInvariant.congr {t' : BlockTree} {queue : List Uint256} (hi : LinkInvariant t queue)
    (hentry : t'.entry = t.entry) (hindex : t'.mapBlockIndex = t.mapBlockIndex)
    (hnext : t'.nBlockSequenceId = t.nBlockSequenceId)
    (hunlinked : t'.mapBlocksUnlinked = t.mapBlocksUnlinked) : LinkInvariant t' queue := by
  refine ⟨hi.toLinkSound.congr hentry hindex hnext hunlinked,?_,?_,?_⟩
  · rw [hindex,hentry]
    exact hi.valid
  · unfold Received Linked
    rw [hentry]
    exact hi.linked
  · unfold Received Linked
    rw [hentry,hunlinked]
    exact hi.waits

/-- The step lemma of the run: accepting a header or a block keeps the links right. -/
theorem LinkInvariant.arrivalStep (hi : LinkInvariant t []) {call : ArrivalCall}
    (hwf : call.WellFormed) (hbound : (arrivalStep addr t call).totalTx < 2^32) :
    LinkInvariant (arrivalStep addr t call) [] := by
  cases call with
  | header block => exact hi.addToBlockIndex hwf
  | block block =>
    obtain ⟨hself,hpos,hsize⟩ := hwf
    have hi1 := hi.addToBlockIndex hself
    have hn : block.vtx.length < 2^32 := lt_of_le_of_lt hsize (by decide)
    unfold BlockTree.arrivalStep at hbound ⊢
    dsimp only at hbound ⊢
    rcases acceptBlock_cases t addr block with ⟨_,heq⟩ | ⟨hnew,heq⟩
    · rw [heq]
      exact hi1
    · rw [heq,receivedBlockTransactions_totalTx] at hbound
      rw [heq]
      exact hi1.receivedBlockTransactions (mem_addToBlockIndex t _) hnew hpos hn hbound
  | activate vChain candidates =>
    exact hi.congr rfl rfl rfl rfl

/-- What has no data has no transactions. -/
def NoDataNoTx (t : BlockTree) : Prop := ∀ h, ¬ t.Received h → (t.entry h).nTx = 0

theorem NoDataNoTx.addToBlockIndex (hn : NoDataNoTx t) {block : CBlockHeader}
    (hself : block.getHash ≠ block.hashPrevBlock) : NoDataNoTx (t.addToBlockIndex block) := by
  by_cases hmem : block.getHash ∈ t.mapBlockIndex
  · rwa [addToBlockIndex_of_mem hmem]
  · intro x hr
    by_cases hx : x = block.getHash
    · obtain ⟨e,he,hzero,_⟩ := addToBlockIndex_new hmem hself
      rw [hx,he,hzero]
    · unfold Received at hr
      rw [addToBlockIndex_of_ne t hx] at hr ⊢
      exact hn x hr

theorem addToBlockIndex_totalTx (t : BlockTree) {block : CBlockHeader}
    (hself : block.getHash ≠ block.hashPrevBlock) :
    (t.addToBlockIndex block).totalTx = t.totalTx := by
  by_cases hmem : block.getHash ∈ t.mapBlockIndex
  · rw [addToBlockIndex_of_mem hmem]
  · obtain ⟨e,he,hzero,_⟩ := addToBlockIndex_new hmem hself
    unfold totalTx
    rw [addToBlockIndex_mapBlockIndex hmem,List.map_cons,List.sum_cons,he,hzero]
    rw [UInt32.toNat_zero,Nat.zero_add]
    refine congrArg List.sum (List.map_congr_left fun x hx => ?_)
    rw [addToBlockIndex_of_ne t]
    rintro rfl
    exact hmem hx

omit [Crypto] in
theorem NoDataNoTx.totalTx_setReceived (hn : NoDataNoTx t) {h : Uint256} (hnew : ¬ t.Received h)
    (n : ℕ) : t.totalTx ≤ (t.setReceived h n).totalTx := by
  refine List.sum_le_sum fun x _ => ?_
  by_cases hx : x = h
  · rw [hx,hn h hnew]
    exact Nat.zero_le _
  · rw [setReceived_of_ne t n hx]

theorem NoDataNoTx.arrivalStep (hn : NoDataNoTx t) {call : ArrivalCall} (hwf : call.WellFormed) :
    NoDataNoTx (arrivalStep addr t call) ∧ t.totalTx ≤ (arrivalStep addr t call).totalTx := by
  cases call with
  | header block => exact ⟨hn.addToBlockIndex hwf,(addToBlockIndex_totalTx t hwf).ge⟩
  | block block =>
    have hn1 := hn.addToBlockIndex hwf.1
    have htotal := addToBlockIndex_totalTx t hwf.1
    unfold BlockTree.arrivalStep
    dsimp only
    rcases acceptBlock_cases t addr block with ⟨_,heq⟩ | ⟨hnew,heq⟩
    · rw [heq]
      exact ⟨hn1,htotal.ge⟩
    · rw [heq,receivedBlockTransactions_totalTx]
      refine ⟨fun x hr => ?_,htotal.ge.trans (hn1.totalTx_setReceived hnew _)⟩
      obtain ⟨_,hframe⟩ := receivedBlockTransactions_frame addr
        (t.addToBlockIndex block.toCBlockHeader) block block.toCBlockHeader.getHash
      unfold Received at hr
      rw [(hframe x).2] at hr
      rw [(hframe x).1]
      obtain ⟨hr1,hne⟩ := not_or.mp (mt (setReceived_received _ _ _).mpr hr)
      rw [setReceived_of_ne _ _ hne]
      exact hn1 x hr1
  | activate vChain candidates => exact ⟨hn,le_rfl⟩

theorem arrivalRun_append (addr : Uint256 → ℕ) (calls : List ArrivalCall) (call : ArrivalCall) :
    arrivalRun addr (calls ++ [call]) = arrivalStep addr (arrivalRun addr calls) call := by
  unfold arrivalRun
  rw [List.foldl_append]
  rfl

/-- The run lemma, for as long as the counters hold the transactions that arrived. -/
theorem arrivalRun_invariant {calls : List ArrivalCall}
    (hwf : ∀ call ∈ calls, call.WellFormed) :
    NoDataNoTx (arrivalRun addr calls) ∧
      ((arrivalRun addr calls).totalTx < 2^32 → LinkInvariant (arrivalRun addr calls) []) := by
  induction calls using List.reverseRecOn with
  | nil => exact ⟨fun _ _ => rfl,fun _ => LinkInvariant.empty⟩
  | append_singleton calls call ih =>
    obtain ⟨hn,hi⟩ := ih fun c hc => hwf c (List.mem_append_left _ hc)
    have hcall := hwf call (by simp)
    rw [arrivalRun_append]
    obtain ⟨hn',hle⟩ := hn.arrivalStep hcall
    exact ⟨hn',fun hbound => (hi (hle.trans_lt hbound)).arrivalStep hcall hbound⟩

theorem arrivalStep_received (ht : t.IsTree) {call : ArrivalCall} (hwf : call.WellFormed)
    {x : Uint256} : (arrivalStep addr t call).Received x ↔ t.Received x ∨ Delivered [call] x := by
  cases call with
  | header block =>
    rw [or_iff_left]
    · exact addToBlockIndex_received t ht hwf
    · simp [Delivered]
  | block block =>
    have hd : Delivered [.block block] x ↔ x = block.toCBlockHeader.getHash := by
      simp [Delivered,eq_comm]
    rw [hd]
    have h1 := addToBlockIndex_received t ht hwf.1 (x := x)
    unfold BlockTree.arrivalStep
    dsimp only
    rcases acceptBlock_cases t addr block with ⟨hold,heq⟩ | ⟨_,heq⟩
    · rw [heq,h1,iff_self_or]
      rintro rfl
      exact h1.mp hold
    · obtain ⟨_,hframe⟩ := receivedBlockTransactions_frame addr
        (t.addToBlockIndex block.toCBlockHeader) block block.toCBlockHeader.getHash
      rw [heq,Received,(hframe x).2,← h1]
      exact setReceived_received _ _ _
  | activate vChain candidates =>
    rw [or_iff_left]
    · rfl
    · simp [Delivered]

theorem arrivalRun_received {calls : List ArrivalCall} (hwf : ∀ call ∈ calls, call.WellFormed)
    (hbound : (arrivalRun addr calls).totalTx < 2^32) {x : Uint256} :
    (arrivalRun addr calls).Received x ↔ Delivered calls x := by
  induction calls using List.reverseRecOn with
  | nil => exact iff_of_false (fun hr => nomatch hr) (by simp [Delivered])
  | append_singleton calls call ih =>
    have hcalls : ∀ c ∈ calls, c.WellFormed := fun c hc => hwf c (List.mem_append_left _ hc)
    have hcall := hwf call (by simp)
    obtain ⟨hn,hi⟩ : NoDataNoTx (arrivalRun addr calls) ∧ _ := arrivalRun_invariant hcalls
    rw [arrivalRun_append] at hbound ⊢
    have hbound' := (hn.arrivalStep hcall).2.trans_lt hbound
    rw [arrivalStep_received (hi hbound').tree hcall,ih hcalls hbound']
    simp only [Delivered,List.mem_append,or_and_right,exists_or]

/-- As long as fewer than `2^32` transactions have arrived, in any order and with blocks delivered
any number of times: a block has `nChainTx` if and only if it and all its ancestors were delivered,
and then it is the sum of their `nTx`; the blocks that wait are the other delivered ones, once each
under its parent; and no two linked blocks share a sequence number. -/
theorem arrivalRun_links (addr : Uint256 → ℕ) (calls : List ArrivalCall)
    (hwf : ∀ call ∈ calls, call.WellFormed) (hbound : (arrivalRun addr calls).totalTx < 2^32) :
    let t := arrivalRun addr calls
    (∀ h, (t.entry h).nChainTx ≠ 0 ↔ ∀ a ∈ t.path h, Delivered calls a) ∧
    (∀ h, (t.entry h).nChainTx ≠ 0 →
      (t.entry h).nChainTx.toNat = ((t.path h).map fun a => (t.entry a).nTx.toNat).sum) ∧
    t.mapBlocksUnlinked.Nodup ∧
    (∀ p h, (p,h) ∈ t.mapBlocksUnlinked ↔
      Delivered calls h ∧ (t.entry h).pprev = some p ∧ (t.entry p).nChainTx = 0) ∧
    ∀ h h', (t.entry h).nChainTx ≠ 0 → (t.entry h').nChainTx ≠ 0 →
      (t.entry h).nSequenceId = (t.entry h').nSequenceId → h = h' := by
  intro t
  have hi : LinkInvariant t [] := (arrivalRun_invariant hwf).2 hbound
  have hreceived : ∀ {x}, t.Received x ↔ Delivered calls x := arrivalRun_received hwf hbound
  refine ⟨?_,fun h => hi.chainTx,hi.unlinked_nodup,?_,?_⟩
  · intro h
    simp only [← hreceived]
    exact hi.linked_iff h
  · intro p h
    rw [hi.unlinked,hreceived,Linked,not_not]
  · intro h h' hl hl' hseq
    exact hi.sequenceId_injective hbound hl hl' hseq

end

/-- A hash that reads the nonce of a header. -/
@[reducible] def nonceCrypto : Crypto where
  hash256 bs := BitVec.ofNat 256 (ofLeBytes (bs.drop 76))
  hash160 _ := 0
  sha256 _ := 0
  sha1 _ := 0
  ripemd160 _ := 0
  checkLowS _ := false
  verify _ _ _ := false

/-- The `i`-th block of a chain in which every block has 8192 transactions. -/
def fullBlock (i : ℕ) : CBlock :=
  { hashPrevBlock := BitVec.ofNat 256 i
    nNonce := UInt32.ofNat (i + 1)
    vtx := List.replicate 8192 {} }

section
local instance : Crypto := nonceCrypto

theorem nonceCrypto_getHash (header : CBlockHeader) :
    header.getHash = BitVec.ofNat 256 header.nNonce.toNat := by
  have hsplit : header.serialize = (serializeBits 4 header.nVersion.toBitVec ++
      (serializeBits 32 header.hashPrevBlock ++ (serializeBits 32 header.hashMerkleRoot ++
        (serializeBits 4 header.nTime.toBitVec ++ serializeBits 4 header.nBits.toBitVec)))) ++
      serializeBits 4 header.nNonce.toBitVec := by
    simp only [CBlockHeader.serialize,List.append_assoc]
  change BitVec.ofNat 256 (ofLeBytes (header.serialize.drop 76)) = _
  rw [hsplit,List.drop_left' (by simp [serializeBits]),serializeBits,ofLeBytes_leBytes,
    Nat.mod_eq_of_lt (by exact header.nNonce.toBitVec.isLt)]
  rfl

def smallBlock (i : UInt32) : CBlock :=
  { hashPrevBlock := BitVec.ofNat 256 i.toNat, nNonce := i + 1, vtx := [{}] }

/-- The second block comes before the first, and comes twice. -/
def outOfOrder : List ArrivalCall :=
  [.header (smallBlock 0).toCBlockHeader,.block (smallBlock 1),.block (smallBlock 1),
    .block (smallBlock 0)]

theorem outOfOrder_linked :
    ((arrivalRun (fun _ => 0) outOfOrder).entry 2).nChainTx = 2 ∧
      ∀ a ∈ (arrivalRun (fun _ => 0) outOfOrder).path 2, Delivered outOfOrder a := by
  have hwf : ∀ call ∈ outOfOrder, call.WellFormed := by
    intro call hcall
    simp only [outOfOrder,List.mem_cons,List.not_mem_nil,or_false] at hcall
    rcases hcall with rfl | rfl | rfl | rfl
    · change CBlockHeader.getHash _ ≠ _
      decide
    · exact ⟨by decide,by decide,by decide⟩
    · exact ⟨by decide,by decide,by decide⟩
    · exact ⟨by decide,by decide,by decide⟩
  have hchain : ((arrivalRun (fun _ => 0) outOfOrder).entry 2).nChainTx = 2 := by decide
  refine ⟨hchain,?_⟩
  refine ((arrivalRun_links (fun _ => 0) outOfOrder hwf (by decide)).1 2).mp ?_
  rw [hchain]
  decide

/-- The first blocks of the chain have arrived in order. -/
structure FullChain (n : ℕ) (t : BlockTree) : Prop where
  tree : t.IsTree
  mem : ∀ h, h ∈ t.mapBlockIndex ↔ ∃ i < n, h = BitVec.ofNat 256 (i + 1)
  unlinked : t.mapBlocksUnlinked = []
  chainTx : ∀ i < n,
    (t.entry (BitVec.ofNat 256 (i + 1))).nChainTx = UInt32.ofNat ((i + 1) * 8192)

theorem fullBlock_getHash {n : ℕ} (hn : n < 2^19) :
    (fullBlock n).toCBlockHeader.getHash = BitVec.ofNat 256 (n + 1) := by
  rw [nonceCrypto_getHash]
  congr 1
  exact UInt32.toNat_ofNat_of_lt' (show n + 1 < 2^32 by omega)

theorem fullBlock_ne_prev {n : ℕ} (hn : n < 2^19) :
    (fullBlock n).toCBlockHeader.getHash ≠ (fullBlock n).hashPrevBlock := by
  rw [fullBlock_getHash hn]
  intro h
  have := Uint256.ofNat_inj (by omega) (by omega) h
  omega

theorem FullChain.not_mem {n : ℕ} (hc : FullChain n t) (hn : n < 2^19) :
    BitVec.ofNat 256 (n + 1) ∉ t.mapBlockIndex := by
  rw [hc.mem]
  rintro ⟨i,hi,h⟩
  have := Uint256.ofNat_inj (by omega) (by omega) h
  omega

/-- The next block is linked at once, on top of the one before it. -/
theorem FullChain.acceptBlock_eq {n : ℕ} (hc : FullChain n t) (hn : n < 2^19) :
    let h := BitVec.ofNat 256 (n + 1)
    let t2 := (t.addToBlockIndex (fullBlock n).toCBlockHeader).setReceived h 8192
    t.acceptBlock addr (fullBlock n) = t2.linkBlock addr h ∧
      t2.parentChainTx h = UInt32.ofNat (n * 8192) := by
  intro h t2
  have hhash := fullBlock_getHash hn
  have hnew := hc.not_mem hn
  rw [← hhash] at hnew
  obtain ⟨e,he,_,_,hdata,_,hpprev,_⟩ := addToBlockIndex_new hnew (fullBlock_ne_prev hn)
  rw [hhash] at he
  have hsame : (((t.addToBlockIndex (fullBlock n).toCBlockHeader).setReceived h 8192).entry h).pprev =
      e.pprev := by
    rw [setReceived_same,he]
  have hunlinked : t2.mapBlocksUnlinked = [] := by
    rw [← hc.unlinked]
    exact (addToBlockIndex_unlinked t _).1
  have hreceive : t.acceptBlock addr (fullBlock n) =
      (t.addToBlockIndex (fullBlock n).toCBlockHeader).receivedBlockTransactions addr
        (fullBlock n) h := by
    rcases acceptBlock_cases t addr (fullBlock n) with ⟨hold,_⟩ | ⟨_,heq⟩
    · rw [hhash,Received,he,hdata] at hold
      cases hold
    · rwa [hhash] at heq
  have hlink : linkQueue addr (t2.mapBlocksUnlinked.length + 1) [h] t2 = t2.linkBlock addr h := by
    rw [hunlinked]
    rfl
  rw [hreceive]
  unfold t2 BlockTree.receivedBlockTransactions parentChainTx
  have hlen : (fullBlock n).vtx.length = 8192 := List.length_replicate
  rw [hlen]
  dsimp only
  rw [hsame]
  cases n with
  | zero =>
    have hnone : e.pprev = none := by
      rw [Option.eq_none_iff_forall_ne_some]
      intro p hp
      obtain ⟨i,hi,_⟩ := (hc.mem p).mp ((hpprev p).mp hp).1
      omega
    rw [hnone]
    exact ⟨hlink,rfl⟩
  | succ n =>
    have hsome : e.pprev = some (BitVec.ofNat 256 (n + 1)) :=
      (hpprev _).mpr ⟨(hc.mem _).mpr ⟨n,by omega,rfl⟩,rfl⟩
    have hne : BitVec.ofNat 256 (n + 1) ≠ h := by
      intro heq
      have := Uint256.ofNat_inj (by omega) (by omega) heq
      omega
    have hparent : (t2.entry (BitVec.ofNat 256 (n + 1))).nChainTx =
        UInt32.ofNat ((n + 1) * 8192) := by
      rw [setReceived_of_ne _ _ hne,addToBlockIndex_of_ne t (hhash.symm ▸ hne)]
      exact hc.chainTx n (by omega)
    have hlinked : (t2.entry (BitVec.ofNat 256 (n + 1))).nChainTx ≠ 0 := by
      rw [hparent]
      intro hzero
      have := congrArg UInt32.toNat hzero
      rw [UInt32.toNat_ofNat_of_lt' (show (n + 1) * 8192 < 2^32 by omega)] at this
      simp at this
    rw [hsome]
    exact ⟨(if_pos hlinked).trans hlink,hparent⟩

theorem FullChain.acceptBlock {n : ℕ} (hc : FullChain n t) (hn : n < 2^19) :
    FullChain (n + 1) (t.acceptBlock addr (fullBlock n)) := by
  obtain ⟨heq,hparent⟩ : t.acceptBlock addr (fullBlock n) = _ ∧ _ := hc.acceptBlock_eq hn
  have hnew := hc.not_mem hn
  have hhash := fullBlock_getHash hn
  have hnew' : (fullBlock n).toCBlockHeader.getHash ∉ t.mapBlockIndex := by rwa [hhash]
  have hindex := addToBlockIndex_mapBlockIndex hnew'
  rw [hhash] at hindex
  have htree := hc.tree.addToBlockIndex (fullBlock_ne_prev hn)
  have hmem : BitVec.ofNat 256 (n + 1) ∈
      (t.addToBlockIndex (fullBlock n).toCBlockHeader).mapBlockIndex := by
    rw [hindex]
    exact List.mem_cons_self
  rw [heq]
  refine ⟨?_,?_,?_,?_⟩
  · refine SameShape.isTree (sameShape_update (linkBlock_entry _ addr _)
      (linkBlock_mapBlockIndex _ addr _) hmem rfl rfl) ?_
    exact SameShape.isTree (sameShape_update rfl rfl hmem rfl rfl) htree
  · intro h
    rw [linkBlock_mapBlockIndex]
    change h ∈ (t.addToBlockIndex _).mapBlockIndex ↔ _
    rw [hindex,List.mem_cons,hc.mem]
    constructor
    · rintro (rfl | ⟨i,hi,rfl⟩)
      · exact ⟨n,by omega,rfl⟩
      · exact ⟨i,by omega,rfl⟩
    · rintro ⟨i,hi,rfl⟩
      by_cases hin : i = n
      · exact Or.inl (by rw [hin])
      · exact Or.inr ⟨i,by omega,rfl⟩
  · change List.filter _ (t.addToBlockIndex _).mapBlocksUnlinked = []
    rw [(addToBlockIndex_unlinked t _).1,hc.unlinked]
    rfl
  · intro i hi
    by_cases hin : i = n
    · rw [hin,linkBlock_same,hparent,setReceived_same,Nat.succ_mul,UInt32.ofNat_add]
    · have hne : BitVec.ofNat 256 (i + 1) ≠ BitVec.ofNat 256 (n + 1) := by
        intro h
        have := Uint256.ofNat_inj (by omega) (by omega) h
        omega
      rw [linkBlock_of_ne _ _ hne,setReceived_of_ne _ _ hne,
        addToBlockIndex_of_ne t (hhash.symm ▸ hne)]
      exact hc.chainTx i (by omega)

def fullCalls (n : ℕ) : List ArrivalCall := (List.range n).map fun i => .block (fullBlock i)

theorem fullChain_run (addr : Uint256 → ℕ) {n : ℕ} (hn : n ≤ 2^19) :
    FullChain n (arrivalRun addr (fullCalls n)) := by
  induction n with
  | zero =>
    exact ⟨LinkInvariant.empty.tree,fun h => iff_of_false List.not_mem_nil (by simp),rfl,
      fun i hi => absurd hi (Nat.not_lt_zero i)⟩
  | succ n ih =>
    rw [fullCalls,List.range_succ,List.map_append]
    exact arrivalRun_append addr (fullCalls n) _ ▸ (ih (by omega)).acceptBlock (by omega)

/-- The chain of `2^19` blocks has `2^32` transactions, so its last block counts as not linked. -/
theorem fullChain_wraps :
    ∃ calls : List ArrivalCall, (∀ call ∈ calls, call.WellFormed) ∧
      ∃ h, ((arrivalRun (fun _ => 0) calls).entry h).nChainTx = 0 ∧
        ∀ a ∈ (arrivalRun (fun _ => 0) calls).path h, Delivered calls a := by
  have hc := fullChain_run (fun _ => 0) (n := 2^19) le_rfl
  refine ⟨fullCalls (2^19),?_,BitVec.ofNat 256 (2^19 - 1 + 1),?_,?_⟩
  · intro call hcall
    obtain ⟨i,hi,rfl⟩ := List.mem_map.mp hcall
    rw [List.mem_range] at hi
    refine ⟨fullBlock_ne_prev hi,?_,?_⟩
    · change 1 ≤ (List.replicate 8192 _).length
      rw [List.length_replicate]
      omega
    · change (List.replicate 8192 _).length ≤ _
      rw [List.length_replicate]
      decide
  · rw [hc.chainTx (2^19 - 1) (by norm_num)]
    rfl
  · intro a ha
    have hmem := hc.tree.path_subset ((hc.mem _).mpr ⟨2^19 - 1,by norm_num,rfl⟩) ha
    obtain ⟨i,hi,rfl⟩ := (hc.mem a).mp hmem
    exact ⟨fullBlock i,List.mem_map.mpr ⟨i,List.mem_range.mpr hi,rfl⟩,fullBlock_getHash hi⟩

end

end BlockTree
end Sidechain
