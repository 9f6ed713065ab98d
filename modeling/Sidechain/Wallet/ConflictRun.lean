import Sidechain.Wallet.ConflictLoad

/-! The chain below a wallet changes, transactions arrive and are marked in any order: when what
spends a conflicted transaction is always conflicted as deeply. -/
namespace Sidechain
namespace BlockTree

variable {t : BlockTree} {g : Uint256}

theorem Grounded.exists_tip (h : Grounded g t) {x : Uint256} (hx : t.contains x = true) :
    ∃ tip, t.tip = some tip ∧ x ∈ t.path tip := by
  cases htip : t.tip with
  | none =>
    rw [contains_of_no_tip htip] at hx
    cases hx
  | some tip => exact ⟨tip,rfl,(h.contains_iff htip).mp hx⟩

theorem Grounded.mem_index (h : Grounded g t) {x : Uint256} (hx : t.contains x = true) :
    x ∈ t.mapBlockIndex := by
  obtain ⟨tip,htip,hpath⟩ := h.exists_tip hx
  exact h.tree.path_subset (h.tip_mem htip) hpath

theorem height_lt_of_contains {x : Uint256} (hx : t.contains x = true) :
    (t.entry x).nHeight < t.vChain.length :=
  (List.getElem?_eq_some_iff.mp (beq_iff_eq.mp hx)).1

/-- Of two blocks of the active chain the lower one is an ancestor of the other. -/
theorem Grounded.mem_path_of_height_le (h : Grounded g t) {a b : Uint256}
    (ha : t.contains a = true) (hb : t.contains b = true)
    (hle : (t.entry a).nHeight ≤ (t.entry b).nHeight) : a ∈ t.path b := by
  obtain ⟨tip,htip,hpathb⟩ := h.exists_tip hb
  obtain ⟨above,hpath⟩ := h.tree.path_eq_append hpathb
  have hmem := (h.contains_iff htip).mp ha
  rw [hpath] at hmem
  rcases List.mem_append.mp hmem with hmem | hmem
  · obtain ⟨before,after,habove⟩ := List.append_of_mem hmem
    -- the lower block is not above the other one
    have hba : b ∈ t.path a := by
      rw [habove,List.append_assoc,List.cons_append] at hpath
      rw [h.tree.path_of_eq_append hpath]
      exact List.mem_cons_of_mem _ (List.mem_append_right _ (IsTree.self_mem_path t b))
    have hheight := le_antisymm hle (h.tree.height_le_of_mem_path hba)
    unfold contains at ha hb
    rw [beq_iff_eq] at ha hb
    rw [hheight,hb] at ha
    cases ha
    exact IsTree.self_mem_path t a
  · exact hmem

end BlockTree

namespace WalletState
open BlockTree FiniteMap Run

variable {w w' : WalletState} {t t' : BlockTree} {g : Uint256}

/-- A block that comes to the active chain and that a transaction is marked with: what spends the
transaction is marked with the block or an ancestor of it. -/
def ChainKeeps (w : WalletState) (t t' : BlockTree) : Prop :=
  ∀ parent wp child wc, w.mapWallet.lookup parent = some wp → wp.nIndex = -1 →
    t.contains wp.hashBlock = false → t'.contains wp.hashBlock = true →
      w.SpendsFrom parent child → w.mapWallet.lookup child = some wc →
        wc.nIndex = -1 ∧ wc.hashBlock ∈ t'.path wp.hashBlock

theorem depth_of_conflict {wtx : CWalletTx} (hindex : wtx.nIndex = -1)
    (hmem : wtx.hashBlock ∈ t.mapBlockIndex) (hactive : t.contains wtx.hashBlock = true)
    (ht : PlainHashes t) :
    wtx.getDepthInMainChain t = -(t.height - (t.entry wtx.hashBlock).nHeight + 1) := by
  have hne : wtx.hashUnset = false := by
    unfold CWalletTx.hashUnset
    rw [Bool.or_eq_false_iff,beq_eq_false_iff_ne,beq_eq_false_iff_ne]
    exact ⟨fun h => ht.1 (h ▸ hmem),fun h => ht.2 (h ▸ hmem)⟩
  unfold CWalletTx.getDepthInMainChain
  rw [hne,hindex,if_neg Bool.false_ne_true,if_neg (not_not.mpr hmem),hactive]
  simp

theorem ConflictClosed.chain (hc : w.ConflictClosed t) (h : Grounded g t) (h' : Grounded g t')
    (hgrows : Grows t t') (ht : PlainHashes t) (ht' : PlainHashes t')
    (hkeeps : w.ChainKeeps t t') : w.ConflictClosed t' := by
  intro parent child hs hneg
  obtain ⟨wc,hwc,hspends⟩ := hs
  cases hwp : w.mapWallet.lookup parent with
  | none =>
    unfold WalletState.depth at hneg
    rw [hwp] at hneg
    exact absurd hneg (lt_irrefl 0)
  | some wp =>
    rw [depth_of_lookup hwp] at hneg ⊢
    rw [depth_of_lookup hwc]
    obtain ⟨hindex,_,hmem,hactive,_⟩ := depth_neg hneg
    obtain ⟨hchild,hpath⟩ : wc.nIndex = -1 ∧ wc.hashBlock ∈ t'.path wp.hashBlock := by
      cases hold : t.contains wp.hashBlock with
      | false => exact hkeeps parent wp child wc hwp hindex hold hactive ⟨wc,hwc,hspends⟩ hwc
      | true =>
        -- both were marked with blocks of the active chain
        have hwas := depth_of_conflict hindex (h.mem_index hold) hold ht
        have hlt := height_lt_of_contains hold
        have hwneg : wp.getDepthInMainChain t < 0 := by
          rw [hwas]
          unfold BlockTree.height
          omega
        have hle := hc parent child ⟨wc,hwc,hspends⟩
        rw [Follows,depth_of_lookup hwp,depth_of_lookup hwc] at hle
        obtain ⟨hcindex,_,hcmem,hcactive,_⟩ := depth_neg ((hle hwneg).trans_lt hwneg)
        have hdeep := hle hwneg
        rw [hwas,depth_of_conflict hcindex hcmem hcactive ht] at hdeep
        refine ⟨hcindex,?_⟩
        rw [hgrows.path (h.mem_index hold)]
        exact h.mem_path_of_height_le hcactive hold (by omega)
    obtain ⟨tip,htip,htippath⟩ := h'.exists_tip hactive
    have hcactive : t'.contains wc.hashBlock = true :=
      (h'.contains_iff htip).mpr (h'.tree.mem_path_trans hpath htippath)
    have hheight := h'.tree.height_le_of_mem_path hpath
    rw [depth_of_conflict hindex hmem hactive ht',
      depth_of_conflict hchild (h'.mem_index hcactive) hcactive ht']
    omega

section
variable [Crypto]

/-- The states of a wallet and its chain, from an empty wallet: records are loaded, transactions are
synchronised, alone or with a block they are in, transactions of the wallet are marked with any
block, and the chain changes. -/
inductive ConflictReached (g : Uint256) : BlockTree → WalletState → Prop
  | start {t : BlockTree} (isMine : CScript → IsMineType) (h : Grounded g t)
      (ht : PlainHashes t) : ConflictReached g t { isMine }
  | load {t : BlockTree} {w w' : WalletState} {wtxIn : CWalletTx} (run : ConflictReached g t w)
      (hkeeps : w.LoadKeeps t wtxIn) (hstep : w.addToWalletFromLoad t wtxIn = .ok w') :
      ConflictReached g t w'
  | sync {t : BlockTree} {w w' : WalletState} {tx : CTransaction} {pblock : Option CBlock}
      (run : ConflictReached g t w) (hblock : ∀ block ∈ pblock, tx ∈ block.vtx)
      (hkeeps : w.SyncKeeps t tx pblock) (hstep : w.syncTransaction t tx pblock = .ok w') :
      ConflictReached g t w'
  | mark {t : BlockTree} {w w' : WalletState} {hashBlock hashTx : Uint256}
      (run : ConflictReached g t w) (hmem : hashTx ∈ w.mapWallet)
      (hstep : w.markConflicted t hashBlock hashTx = .ok w') : ConflictReached g t w'
  | chain {t t' : BlockTree} {w : WalletState} (run : ConflictReached g t w) (h : Grounded g t')
      (hgrows : Grows t t') (ht : PlainHashes t') (hkeeps : w.ChainKeeps t t') :
      ConflictReached g t' w

/-- What every such run keeps. -/
structure ConflictSound (g : Uint256) (t : BlockTree) (w : WalletState) : Prop
    extends SpendsRecorded w where
  grounded : Grounded g t
  plain : PlainHashes t
  closed : w.ConflictClosed t

theorem ConflictReached.sound (h : ConflictReached g t w) : ConflictSound g t w := by
  induction h with
  | @start t isMine hg ht =>
    have hempty := FromRecords.empty (t := t) isMine
    exact ⟨hempty.toSpendsRecorded,hg,ht,hempty.closed⟩
  | load _ hkeeps hstep ih =>
    obtain ⟨hclosed,hrecorded⟩ := ih.closed.load ih.toSpendsRecorded ih.plain hkeeps hstep
    exact ⟨hrecorded,ih.grounded,ih.plain,hclosed⟩
  | sync _ hblock hkeeps hstep ih =>
    obtain ⟨hclosed,hrecorded⟩ := ih.closed.sync ih.toSpendsRecorded ih.plain hblock hkeeps hstep
    exact ⟨hrecorded,ih.grounded,ih.plain,hclosed⟩
  | @mark t w w' hashBlock hashTx _ hmem hstep ih =>
    obtain ⟨w1,hmark,h1⟩ := markConflicted_spec ih.plain ih.toSpendsRecorded hashBlock hmem
    cases hmark.symm.trans hstep
    exact ⟨ih.toSpendsRecorded.refreshed h1.toRefreshed,ih.grounded,ih.plain,
      (h1.markedBy ih.toSpendsRecorded).closed ih.closed⟩
  | chain _ h hgrows ht hkeeps ih =>
    exact ⟨ih.toSpendsRecorded,h,ht,ih.closed.chain ih.grounded h hgrows ih.plain ht hkeeps⟩

omit [Crypto] in
theorem ConflictClosed.descendants (hc : w.ConflictClosed t) {parent child : Uint256}
    (hs : Relation.TransGen w.SpendsFrom parent child) : w.Follows t parent child := by
  induction hs with
  | single hs => exact hc _ _ hs
  | tail _ hs ih => exact fun hneg => (hc _ _ hs ((ih hneg).trans_lt hneg)).trans (ih hneg)

/-- In every run under the conditions, what depends on a conflicted transaction is conflicted as
deeply; and two orders of the same records under the conditions give the same depths. -/
theorem conflicts_go_down (g : Uint256) (t : BlockTree) (w : WalletState)
    (h : ConflictReached g t w) :
    (∀ parent child, Relation.TransGen w.SpendsFrom parent child → w.depth t parent < 0 →
      w.depth t child ≤ w.depth t parent) ∧
    ∀ (records records' : List CWalletTx) (isMine : CScript → IsMineType)
      (w1 w2 : WalletState), records.Perm records' →
      (records.map fun record => record.tx.getHash).Nodup →
      (∀ record ∈ records, record.tx.getHash ≠ 0) →
      Loaded t { isMine } records w1 →
      Loaded t { isMine } records' w2 → ∀ x, w1.depth t x = w2.depth t x := by
  have hsound := h.sound
  refine ⟨fun parent child hs => hsound.closed.descendants hs,?_⟩
  intro records records' isMine w1 w2 hperm hnodup hnull h1 h2 x
  have hnodup' := (hperm.map fun record => record.tx.getHash).nodup_iff.mp hnodup
  have hnull' : ∀ record ∈ records', record.tx.getHash ≠ 0 :=
    fun record hin => hnull record (hperm.mem_iff.mpr hin)
  exact (h1.fromRecords hsound.plain hnodup hnull).depth_eq
    (h2.fromRecords hsound.plain hnodup' hnull') hperm x

theorem Loaded.reached {records : List CWalletTx} {isMine : CScript → IsMineType}
    (hg : Grounded g t) (ht : PlainHashes t) (h : Loaded t { isMine } records w) : ConflictReached g t w := by
  induction h with
  | nil => exact .start isMine hg ht
  | load _ hkeeps hstep ih => exact ih.load hkeeps hstep

end

section

/-- A chain of one block. -/
def genesisOnly : BlockTree := { mapBlockIndex := [7], vChain := [7] }

theorem genesisOnly_grounded : Grounded 7 genesisOnly where
  tree :=
    { nodup := by decide
      parent_mem := fun h => nomatch h
      height := fun h => nomatch h
      outside := fun _ => rfl }
  rooted :=
    { eq_genesis := fun hmem _ => List.mem_singleton.mp hmem
      height := fun _ => rfl }
  active := by
    rintro _ ⟨⟩
    rfl
  tip_mem := by
    rintro _ ⟨⟩
    decide
  unlinked_mem := fun hmem => absurd hmem List.not_mem_nil

theorem genesisOnly_plain : PlainHashes genesisOnly := by
  unfold PlainHashes
  decide

local instance conflictCrypto : Crypto := digitCrypto

/-- It conflicts with the block. -/
def conflictedParent : CWalletTx :=
  { tx := { vin := [{ prevout := ⟨5,0⟩ }], vout := [⟨1,[]⟩] }, hashBlock := 7 }

/-- It spends the parent and is in no block. -/
def unmarkedChild : CWalletTx := { tx := { vin := [{ prevout := ⟨conflictedParent.tx.getHash,0⟩ }] } }

def unrelated : CWalletTx := { tx := { vin := [{ prevout := ⟨6,0⟩ }] } }

def loadedAfter (w : WalletState) (record : CWalletTx) : WalletState :=
  (w.addToWalletFromLoad genesisOnly record).toOption.getD w

theorem Loaded.after {w0 : WalletState} {records : List CWalletTx}
    (h : Loaded genesisOnly w0 records w) (record : CWalletTx) (hkeeps : w.LoadKeeps genesisOnly record)
    (hok : (w.addToWalletFromLoad genesisOnly record).isOk = true) :
    Loaded genesisOnly w0 (records ++ [record]) (loadedAfter w record) := by
  obtain ⟨w',hw'⟩ := Run.isOk_iff.mp hok
  unfold loadedAfter
  rw [hw']
  exact h.load hkeeps hw'

/-- The parent is loaded first, then the others in both orders. -/
theorem conflicts_go_down_two : ∃ w w',
    Loaded genesisOnly {} [conflictedParent,unmarkedChild,unrelated] w ∧
    Loaded genesisOnly {} [conflictedParent,unrelated,unmarkedChild] w' ∧
    w.depth genesisOnly conflictedParent.tx.getHash = -1 ∧
    w.depth genesisOnly unmarkedChild.tx.getHash ≤ -1 ∧
    ∀ x, w.depth genesisOnly x = w'.depth genesisOnly x := by
  have hfirst : (({} : WalletState)).LoadKeeps genesisOnly conflictedParent := by
    intro _
    refine Or.inr fun child _ hs => ?_
    obtain ⟨_,hw,_⟩ := hs
    exact nomatch hw
  have hparent := (Loaded.nil (t := genesisOnly) (w := {})).after conflictedParent hfirst
    (by decide +kernel)
  have hkeeps : ∀ {w : WalletState} {record : CWalletTx},
      ¬ record.getDepthInMainChain genesisOnly < 0 → w.LoadKeeps genesisOnly record :=
    fun hpos hneg => absurd hneg hpos
  have h1 := (hparent.after unmarkedChild (hkeeps (by decide +kernel)) (by decide +kernel)).after
    unrelated (hkeeps (by decide +kernel)) (by decide +kernel)
  have h2 := (hparent.after unrelated (hkeeps (by decide +kernel)) (by decide +kernel)).after
    unmarkedChild (hkeeps (by decide +kernel)) (by decide +kernel)
  have hall := conflicts_go_down 7 genesisOnly _ (h1.reached genesisOnly_grounded genesisOnly_plain)
  have hdepth : (loadedAfter (loadedAfter (loadedAfter {} conflictedParent) unmarkedChild)
      unrelated).depth genesisOnly conflictedParent.tx.getHash = -1 := by decide +kernel
  have hspends : (loadedAfter (loadedAfter (loadedAfter {} conflictedParent) unmarkedChild)
      unrelated).SpendsFrom conflictedParent.tx.getHash unmarkedChild.tx.getHash := by
    have hfrom := h1.fromRecords genesisOnly_plain (by decide +kernel) (by decide +kernel)
    obtain ⟨wtx,hw,htx⟩ := hfrom.wallet (List.mem_cons_of_mem _ List.mem_cons_self)
    exact ⟨wtx,hw,⟨_,0⟩,by rw [htx]; decide +kernel,rfl⟩
  refine ⟨_,_,h1,h2,hdepth,?_,?_⟩
  · have hchild := hall.1 _ _ (.single hspends) (by rw [hdepth]; decide)
    rwa [hdepth] at hchild
  · exact hall.2 _ _ (fun _ => .no) _ _ (by decide +kernel) (by decide +kernel)
      (by decide +kernel) h1 h2

/-- The depths of the parent and the child when records are loaded in this order. -/
def loadedDepths (records : List CWalletTx) : Outcome (ℤ × ℤ) :=
  (records.foldlM (fun (w : WalletState) record => w.addToWalletFromLoad genesisOnly record) {}).map
    fun w => (w.depth genesisOnly conflictedParent.tx.getHash,
      w.depth genesisOnly unmarkedChild.tx.getHash)

/-- With the child's record before that of the parent the child is not conflicted. -/
theorem conflicts_missed :
    RecordSpends [unmarkedChild,conflictedParent] conflictedParent.tx.getHash
      unmarkedChild.tx.getHash ∧
    loadedDepths [conflictedParent,unmarkedChild] = .ok (-1,-1) ∧
    loadedDepths [unmarkedChild,conflictedParent] = .ok (-1,0) :=
  ⟨⟨unmarkedChild,List.mem_cons_self,rfl,⟨_,0⟩,by decide +kernel,rfl⟩,by decide +kernel,
    by decide +kernel⟩

end

end WalletState
end Sidechain
