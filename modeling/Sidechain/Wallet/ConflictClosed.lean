import Sidechain.Chain.Grounded
import Sidechain.Library.Run
import Sidechain.Wallet.ConflictMarks

/-! Conflicts go down to everything that spends a conflicted transaction: which calls keep this, and
under which conditions. -/
namespace Sidechain
open FiniteMap Run Worklist

namespace WalletState

variable {w w' : WalletState} {t t' : BlockTree}

/-- The second transaction is in the wallet and spends an output of the first one. -/
def SpendsFrom (w : WalletState) (parent child : Uint256) : Prop :=
  ∃ wtx, w.mapWallet.lookup child = some wtx ∧ ∃ o ∈ wtx.tx.spends, o.hash = parent

/-- If the first transaction is conflicted, the second one is as deeply. -/
def Follows (w : WalletState) (t : BlockTree) (parent child : Uint256) : Prop :=
  w.depth t parent < 0 → w.depth t child ≤ w.depth t parent

/-- Conflicts are closed under spending. -/
def ConflictClosed (w : WalletState) (t : BlockTree) : Prop :=
  ∀ parent child, w.SpendsFrom parent child → w.Follows t parent child

theorem SpendsRecorded.mem_spenders (hr : SpendsRecorded w) {parent child : Uint256}
    (h : w.SpendsFrom parent child) : child ∈ w.spenders parent := by
  obtain ⟨wtx,hw,o,ho,hhash⟩ := h
  exact WalletState.mem_spenders.mpr ⟨o,hr.recorded hw ho,hhash⟩

theorem Refreshed.spendsFrom (h : Refreshed w w') {parent child : Uint256} :
    w'.SpendsFrom parent child ↔ w.SpendsFrom parent child := by
  constructor
  · rintro ⟨wtx',hw',o,ho,hhash⟩
    obtain ⟨wtx,hw,hk⟩ := h.back hw'
    rw [hk.tx] at ho
    exact ⟨wtx,hw,o,ho,hhash⟩
  · rintro ⟨wtx,hw,o,ho,hhash⟩
    obtain ⟨wtx',hw',hk,_⟩ := h.present hw
    exact ⟨wtx',hw',o,hk.tx ▸ ho,hhash⟩

/-- Several calls of `MarkConflicted` for a block, each on one of the hashes `start`. -/
structure MarkedBy (t : BlockTree) (start : Uint256 → Prop) (w w' : WalletState) : Prop
    extends Refreshed w w' where
  le : ∀ x, w'.depth t x ≤ w.depth t x
  follows : ∀ {parent child}, w.SpendsFrom parent child → w.Follows t parent child →
    w'.Follows t parent child
  reached : ∀ {x}, w'.depth t x ≠ w.depth t x → ∃ s, start s ∧ Reaches w.spenders s x

theorem MarkedBy.refl (t : BlockTree) (start : Uint256 → Prop) (w : WalletState) :
    MarkedBy t start w w :=
  ⟨Refreshed.refl w,fun _ => le_rfl,fun _ h => h,fun hne => absurd rfl hne⟩

theorem MarkedBy.trans {start : Uint256 → Prop} {w'' : WalletState} (h : MarkedBy t start w w')
    (h' : MarkedBy t start w' w'') : MarkedBy t start w w'' where
  toRefreshed := h.toRefreshed.trans h'.toRefreshed
  le x := (h'.le x).trans (h.le x)
  follows hs hf := h'.follows (h.spendsFrom.mpr hs) (h.follows hs hf)
  reached {x} hne := by
    by_cases hx : w'.depth t x = w.depth t x
    · rw [← hx] at hne
      rw [← h.spenders]
      exact h'.reached hne
    · exact h.reached hx

theorem MarkedBy.mono {start start' : Uint256 → Prop} (h : MarkedBy t start w w')
    (hsub : ∀ s, start s → start' s) : MarkedBy t start' w w' where
  toRefreshed := h.toRefreshed
  le := h.le
  follows := h.follows
  reached hne := by
    obtain ⟨s,hs,hreach⟩ := h.reached hne
    exact ⟨s,hsub s hs,hreach⟩

theorem MarkedBy.closed {start : Uint256 → Prop} (h : MarkedBy t start w w')
    (hc : w.ConflictClosed t) : w'.ConflictClosed t :=
  fun parent child hs => h.follows (h.spendsFrom.mp hs) (hc parent child (h.spendsFrom.mp hs))

theorem Conflicted.markedBy {hashBlock hashTx : Uint256} (h : Conflicted t hashBlock hashTx w w')
    (hr : SpendsRecorded w) :
    MarkedBy t (fun s => s = hashTx ∧ conflictConfirms t hashBlock < 0) w w' where
  toRefreshed := h.toRefreshed
  le x := by
    rcases h.depth x with heq | ⟨_,hlt,heq,_⟩
    · exact heq.le
    · exact heq.trans_le hlt.le
  follows {parent child} hs hf hneg := by
    rcases h.depth parent with heq | ⟨_,_,heq,_,hspread⟩
    · rw [heq] at hneg ⊢
      refine le_trans ?_ (hf hneg)
      rcases h.depth child with hc | ⟨_,hlt,hc,_⟩
      · exact hc.le
      · exact hc.trans_le hlt.le
    · rw [heq]
      exact hspread child (hr.mem_spenders hs)
  reached {x} hne := by
    rcases h.depth x with heq | ⟨hneg,_,_,hreach,_⟩
    · exact absurd heq hne
    · exact ⟨hashTx,⟨rfl,hneg⟩,hreach⟩

/-- `MarkConflicted` for each of a list of spends but those of one transaction. -/
theorem markSpends_spec (ht : PlainHashes t) (hashBlock hash : Uint256)
    {spends : List (COutPoint × Uint256)} (hr : SpendsRecorded w) (hsub : spends ⊆ w.mapTxSpends) :
    ∃ w', spends.foldlM (fun w spend =>
        if spend.2 ≠ hash then w.markConflicted t hashBlock spend.2 else .ok w) w = .ok w' ∧
      MarkedBy t (fun s => conflictConfirms t hashBlock < 0 ∧ s ≠ hash ∧ ∃ o, (o,s) ∈ spends) w w' := by
  induction spends generalizing w with
  | nil => exact ⟨w,rfl,MarkedBy.refl t _ w⟩
  | cons spend spends ih =>
    obtain ⟨hin,hsub⟩ := List.cons_subset.mp hsub
    have hweaken : ∀ s, (conflictConfirms t hashBlock < 0 ∧ s ≠ hash ∧ ∃ o, (o,s) ∈ spends) →
        conflictConfirms t hashBlock < 0 ∧ s ≠ hash ∧ ∃ o, (o,s) ∈ spend::spends :=
      fun s ⟨h1,h2,o,ho⟩ => ⟨h1,h2,o,List.mem_cons_of_mem _ ho⟩
    by_cases hself : spend.2 ≠ hash
    · obtain ⟨w1,hmark,hc⟩ := markConflicted_spec ht hr hashBlock (hr.mem hin)
      have h1 := hc.markedBy hr
      obtain ⟨w2,hrest,h2⟩ := ih (hr.refreshed h1.toRefreshed) (h1.mapTxSpends ▸ hsub)
      refine ⟨w2,?_,(h1.mono ?_).trans (h2.mono hweaken)⟩
      · rw [List.foldlM_cons,if_pos hself]
        exact bind_ok.mpr ⟨w1,hmark,hrest⟩
      · rintro s ⟨rfl,hneg⟩
        exact ⟨hneg,hself,spend.1,List.mem_cons_self⟩
    · obtain ⟨w2,hrest,h2⟩ := ih hr hsub
      refine ⟨w2,?_,h2.mono hweaken⟩
      rw [List.foldlM_cons,if_neg hself]
      exact bind_ok.mpr ⟨w,rfl,hrest⟩

/-- Another transaction of the wallet spends what one in a block of the active chain spends. -/
def ConflictsWith [Crypto] (w : WalletState) (t : BlockTree) (tx : CTransaction) (block : CBlock)
    (s : Uint256) : Prop :=
  conflictConfirms t block.toCBlockHeader.getHash < 0 ∧ s ≠ tx.getHash ∧
    ∃ txin ∈ tx.vin, (txin.prevout,s) ∈ w.mapTxSpends

theorem markBlockConflicts_spec [Crypto] (ht : PlainHashes t) (hr : SpendsRecorded w)
    (tx : CTransaction) (block : CBlock) : ∃ w', w.markBlockConflicts t tx block = .ok w' ∧
      MarkedBy t (w.ConflictsWith t tx block) w w' := by
  unfold markBlockConflicts ConflictsWith
  generalize tx.vin = vin
  induction vin generalizing w with
  | nil => exact ⟨w,rfl,MarkedBy.refl t _ w⟩
  | cons txin vin ih =>
    obtain ⟨w1,hinner,h1⟩ := markSpends_spec ht block.toCBlockHeader.getHash tx.getHash hr
      (List.filter_subset_self (p := fun spend => decide (spend.1 = txin.prevout)) w.mapTxSpends)
    obtain ⟨w2,hrest,h2⟩ := ih (hr.refreshed h1.toRefreshed)
    refine ⟨w2,?_,(h1.mono ?_).trans (h2.mono ?_)⟩
    · rw [List.foldlM_cons]
      exact bind_ok.mpr ⟨w1,hinner,hrest⟩
    · rintro s ⟨hneg,hne,o,ho⟩
      obtain ⟨hmem,heq⟩ := List.mem_filter.mp ho
      refine ⟨hneg,hne,txin,List.mem_cons_self,?_⟩
      rw [← of_decide_eq_true heq]
      exact hmem
    · rintro s ⟨hneg,hne,i,hi,hmem⟩
      rw [h1.mapTxSpends] at hmem
      exact ⟨hneg,hne,i,List.mem_cons_of_mem _ hi,hmem⟩

theorem addToSpends_eq {hash : Uint256} {wtx : CWalletTx}
    (hw : w.mapWallet.lookup hash = some wtx) : w.addToSpends hash =
      .ok { w with mapTxSpends := w.mapTxSpends ++ wtx.tx.spends.map fun o => (o,hash) } := by
  unfold addToSpends CTransaction.spends
  simp only [hw]
  split_ifs
  · simp
  · rw [List.map_map]
    rfl

/-- One transaction of the wallet is new or has changed; what it spends is recorded. -/
structure Added (w w' : WalletState) (hash : Uint256) (wtx : CWalletTx) : Prop where
  isMine : w'.isMine = w.isMine
  lookup : w'.mapWallet.lookup hash = some wtx
  others : ∀ {h}, h ≠ hash → w'.mapWallet.lookup h = w.mapWallet.lookup h
  spends : w'.mapTxSpends = w.mapTxSpends ∨
    w'.mapTxSpends = w.mapTxSpends ++ wtx.tx.spends.map fun o => (o,hash)
  recorded : ∀ {o}, o ∈ wtx.tx.spends → (o,hash) ∈ w'.mapTxSpends

theorem Added.mem_spends {hash : Uint256} {wtx : CWalletTx} (h : Added w w' hash wtx)
    {o : COutPoint} {x : Uint256} (hmem : (o,x) ∈ w'.mapTxSpends) :
    (o,x) ∈ w.mapTxSpends ∨ x = hash := by
  rcases h.spends with heq | heq
  · exact Or.inl (heq ▸ hmem)
  · rw [heq] at hmem
    rcases List.mem_append.mp hmem with hmem | hmem
    · exact Or.inl hmem
    · obtain ⟨_,_,hpair⟩ := List.mem_map.mp hmem
      exact Or.inr (Prod.mk.inj hpair).2.symm

theorem Added.recorded_all {hash : Uint256} {wtx : CWalletTx} (h : Added w w' hash wtx)
    (hr : SpendsRecorded w) : SpendsRecorded w' where
  recorded {x wtx' o} hw ho := by
    by_cases hx : x = hash
    · subst hx
      cases h.lookup.symm.trans hw
      exact h.recorded ho
    · rw [h.others hx] at hw
      rcases h.spends with heq | heq
      · exact heq ▸ hr.recorded hw ho
      · rw [heq]
        exact List.mem_append_left _ (hr.recorded hw ho)
  mem {o x} hmem := by
    by_cases hx : x = hash
    · exact Finmap.mem_iff.mpr ⟨wtx,hx ▸ h.lookup⟩
    · have hold := hr.mem ((h.mem_spends hmem).resolve_right hx)
      rw [Finmap.mem_iff] at hold ⊢
      rwa [h.others hx]

theorem Added.depth {hash : Uint256} {wtx : CWalletTx} (h : Added w w' hash wtx) (x : Uint256) :
    w'.depth t x = if x = hash then wtx.getDepthInMainChain t else w.depth t x := by
  unfold WalletState.depth
  split_ifs with hx
  · rw [hx,h.lookup]
  · rw [h.others hx]

theorem Added.spendsFrom {hash : Uint256} {wtx : CWalletTx} (h : Added w w' hash wtx)
    {parent child : Uint256} (hne : child ≠ hash) :
    w'.SpendsFrom parent child ↔ w.SpendsFrom parent child := by
  unfold SpendsFrom
  rw [h.others hne]

theorem setTx_addToSpends (w : WalletState) (hash : Uint256) (wtx : CWalletTx) :
    ∃ w', (w.setTx hash wtx).addToSpends hash = .ok w' ∧ Added w w' hash wtx := by
  refine ⟨_,addToSpends_eq (lookup_setTx w hash wtx),rfl,lookup_setTx w hash wtx,?_,
    Or.inr rfl,fun ho => List.mem_append_right _ (List.mem_map_of_mem ho)⟩
  exact fun hne => lookup_setTx_of_ne w wtx hne

section
variable [Crypto] {tx : CTransaction}

/-- What `AddToWallet` leaves of a transaction the node has seen. -/
theorem addToWallet_spec (hr : SpendsRecorded w) (wtxIn : CWalletTx) :
    ∃ w' wtx', w.addToWallet wtxIn = .ok w' ∧ Added w w' wtxIn.tx.getHash wtx' ∧ wtx'.Dirty ∧
      (w.mapWallet.lookup wtxIn.tx.getHash = none ∧ wtx' = wtxIn.markDirty ∨
        ∃ wtx, w.mapWallet.lookup wtxIn.tx.getHash = some wtx ∧
          wtx' = (wtx.merge wtxIn).markDirty) := by
  unfold addToWallet
  dsimp only
  cases hw : w.mapWallet.lookup wtxIn.tx.getHash with
  | none =>
    obtain ⟨w',heq,h⟩ := w.setTx_addToSpends wtxIn.tx.getHash wtxIn.markDirty
    exact ⟨w',wtxIn.markDirty,heq,h,wtxIn.dirty_markDirty,Or.inl ⟨rfl,rfl⟩⟩
  | some wtx =>
    refine ⟨_,(wtx.merge wtxIn).markDirty,rfl,?_,CWalletTx.dirty_markDirty _,
      Or.inr ⟨wtx,rfl,rfl⟩⟩
    refine ⟨rfl,lookup_setTx ..,fun hne => lookup_setTx_of_ne w _ hne,Or.inl rfl,fun ho => ?_⟩
    rw [CWalletTx.markDirty_tx,CWalletTx.merge_tx] at ho
    exact hr.recorded hw ho

omit [Crypto] in
theorem depth_nonneg {wtx : CWalletTx} (hindex : wtx.nIndex ≠ -1) (t : BlockTree) :
    0 ≤ wtx.getDepthInMainChain t := by
  unfold CWalletTx.getDepthInMainChain
  rw [if_neg hindex]
  by_cases hactive : t.contains wtx.hashBlock = true
  · have hlt : (t.entry wtx.hashBlock).nHeight < t.vChain.length := by
      unfold BlockTree.contains at hactive
      exact (List.getElem?_eq_some_iff.mp (beq_iff_eq.mp hactive)).1
    unfold BlockTree.height
    split_ifs <;> omega
  · rw [Bool.not_eq_true] at hactive
    simp [hactive]

omit [Crypto] in
theorem merge_nIndex {wtx wtxIn : CWalletTx} (hindex : wtxIn.nIndex ≠ -1) :
    (wtx.merge wtxIn).nIndex ≠ -1 := by
  have hif : ∀ a : CWalletTx, (if wtxIn.nIndex != -1 && wtxIn.nIndex != a.nIndex then
      { a with nIndex := wtxIn.nIndex } else a).nIndex = wtxIn.nIndex := by
    intro a
    split_ifs with hne
    · rfl
    · rw [Bool.and_eq_true,bne_iff_ne,bne_iff_ne,not_and,not_not] at hne
      exact (hne hindex).symm
  unfold CWalletTx.merge
  dsimp only
  rw [hif]
  exact hindex

theorem setMerkleBranch_nIndex {block : CBlock} (hmem : tx ∈ block.vtx) :
    (({ tx } : CWalletTx).setMerkleBranch block).nIndex ≠ -1 := by
  unfold CWalletTx.setMerkleBranch
  cases hfind : block.vtx.findIdx? fun other => other.getHash == tx.getHash with
  | none =>
    rw [List.findIdx?_eq_none_iff] at hfind
    simpa using hfind tx hmem
  | some i =>
    dsimp only
    omega

omit [Crypto] in
theorem depth_merge_pool (wtx : CWalletTx) (tx : CTransaction) (t : BlockTree) :
    (wtx.merge { tx }).getDepthInMainChain t = wtx.getDepthInMainChain t := by
  unfold CWalletTx.merge
  by_cases ha : wtx.hashBlock = ABANDON_HASH
  · simp [CWalletTx.hashUnset,CWalletTx.isAbandoned,CWalletTx.getDepthInMainChain,ha]
  · simp [CWalletTx.hashUnset,CWalletTx.isAbandoned,ha]

end

theorem refreshed_markDirtyInputs (w : WalletState) (vin : List CTxIn) :
    Refreshed w (w.markDirtyInputs vin) ∧ ∀ t x, (w.markDirtyInputs vin).depth t x = w.depth t x := by
  rw [markDirtyInputs_eq]
  obtain ⟨h1,h2,h4⟩ := foldl_markDirtyAt w (vin.map fun txin => txin.prevout.hash)
  refine ⟨⟨h1,h2,fun hnone => ?_,fun {h wtx} hw => ?_⟩,fun t x => ?_⟩
  · rw [h4,hnone]
    rfl
  · rw [h4,hw]
    refine ⟨_,rfl,?_,Or.inl ?_⟩
    · split_ifs
      · exact CWalletTx.Kept.markDirty wtx
      · exact CWalletTx.Kept.refl wtx
    · split_ifs <;> exact ⟨rfl,rfl⟩
  · unfold depth
    rw [h4]
    cases w.mapWallet.lookup x with
    | none => rfl
    | some wtx =>
      rw [Option.map_some]
      dsimp only
      split_ifs
      · exact CWalletTx.depth_markDirty wtx t
      · rfl

theorem Refreshed.inputDebit (h : Refreshed w w') : w'.inputDebit = w.inputDebit := by
  funext txin filter
  unfold WalletState.inputDebit
  rw [h.isMine]
  cases hw : w.mapWallet.lookup txin.prevout.hash with
  | none => rw [h.absent hw]
  | some prev =>
    obtain ⟨prev',hw',hk,_⟩ := h.present hw
    rw [hw']
    dsimp only
    rw [hk.tx]

theorem Refreshed.getDebit (h : Refreshed w w') : w'.getDebit = w.getDebit := by
  funext tx filter
  unfold WalletState.getDebit
  rw [h.inputDebit]

section
variable [Crypto] {tx : CTransaction} {pblock : Option CBlock}

theorem Refreshed.involvesMe (h : Refreshed w w') : w'.involvesMe tx = w.involvesMe tx := by
  unfold WalletState.involvesMe isMineTx isFromMe
  simp only [h.mem_iff,h.isMine,h.getDebit]

theorem syncedTx_tx (tx : CTransaction) (pblock : Option CBlock) : (syncedTx tx pblock).tx = tx := by
  cases pblock <;> rfl

/-- A call of `SyncTransaction` marks what conflicts with the block, and adds the transaction if it
involves the wallet. -/
theorem sync_cases (ht : PlainHashes t) (hr : SpendsRecorded w)
    (hstep : w.syncTransaction t tx pblock = .ok w') :
    ∃ w1, MarkedBy t (fun s => ∃ block ∈ pblock, w.ConflictsWith t tx block s) w w1 ∧
      (w.involvesMe tx = .ok false ∧ w' = w1 ∨ w.involvesMe tx = .ok true ∧
        ∃ w2, w1.addToWallet (syncedTx tx pblock) = .ok w2 ∧ w' = w2.markDirtyInputs tx.vin) := by
  obtain ⟨w1,hmark,h1⟩ : ∃ w1, pblock.elim (.ok w) (w.markBlockConflicts t tx) = .ok w1 ∧
        MarkedBy t (fun s => ∃ block ∈ pblock, w.ConflictsWith t tx block s) w w1 := by
    cases pblock with
    | none => exact ⟨w,rfl,MarkedBy.refl t _ w⟩
    | some block =>
      obtain ⟨w1,hmark,h1⟩ := markBlockConflicts_spec ht hr tx block
      exact ⟨w1,hmark,h1.mono fun s hs => ⟨block,rfl,hs⟩⟩
  refine ⟨w1,h1,?_⟩
  obtain ⟨⟨w2,added⟩,hadd,hstep⟩ := bind_ok.mp hstep
  unfold addToWalletIfInvolvingMe at hadd
  obtain ⟨w1',hmark',hadd⟩ := bind_ok.mp hadd
  have hsame : (.ok w1 : Outcome WalletState) = .ok w1' := by
    rw [← hmark,← hmark']
    cases pblock <;> rfl
  cases hsame
  rw [if_neg (by simp)] at hadd
  obtain ⟨involved,hinv,hadd⟩ := bind_ok.mp hadd
  rw [h1.involvesMe] at hinv
  cases involved with
  | false =>
    cases hadd
    cases hstep
    exact Or.inl ⟨hinv,rfl⟩
  | true =>
    obtain ⟨w3,hw3,hadd⟩ := bind_ok.mp hadd
    cases hadd
    cases hstep
    exact Or.inr ⟨hinv,w2,hw3,rfl⟩

/-- The first transaction is one that `tx`, as the wallet has it or would have it, spends from. -/
def HasParent (w : WalletState) (tx : CTransaction) (parent : Uint256) : Prop :=
  ∃ o ∈ (match w.mapWallet.lookup tx.getHash with
    | none => tx.spends
    | some wtx => wtx.tx.spends), o.hash = parent

/-- When a transaction is added, or its block is set, nothing it spends from is conflicted or
conflicts with the block. -/
def SyncKeeps (w : WalletState) (t : BlockTree) (tx : CTransaction) (pblock : Option CBlock) : Prop :=
  w.involvesMe tx = .ok true → pblock.isSome ∨ tx.getHash ∉ w.mapWallet →
    ∀ parent, w.HasParent tx parent → 0 ≤ w.depth t parent ∧
      ∀ block ∈ pblock, ∀ s, w.ConflictsWith t tx block s → ¬ Reaches w.spenders s parent

theorem depth_synced {wtx' : CWalletTx} (hwf : ∀ block ∈ pblock, tx ∈ block.vtx)
    (hset : pblock.isSome ∨ w.mapWallet.lookup tx.getHash = none)
    (hcase : w.mapWallet.lookup tx.getHash = none ∧ wtx' = (syncedTx tx pblock).markDirty ∨
      ∃ wtx, w.mapWallet.lookup tx.getHash = some wtx ∧
        wtx' = (wtx.merge (syncedTx tx pblock)).markDirty) :
    0 ≤ wtx'.getDepthInMainChain t := by
  cases pblock with
  | none =>
    have hnone := hset.resolve_left (by simp)
    rcases hcase with ⟨_,rfl⟩ | ⟨wtx,hw,_⟩
    · rw [CWalletTx.depth_markDirty]
      exact le_of_eq rfl
    · cases hnone.symm.trans hw
  | some block =>
    have hin := setMerkleBranch_nIndex (hwf block rfl)
    rcases hcase with ⟨_,rfl⟩ | ⟨wtx,_,rfl⟩
    · exact depth_nonneg hin t
    · exact depth_nonneg (merge_nIndex hin) t

theorem ConflictClosed.sync (hc : w.ConflictClosed t) (hr : SpendsRecorded w) (ht : PlainHashes t)
    (hwf : ∀ block ∈ pblock, tx ∈ block.vtx) (hkeeps : w.SyncKeeps t tx pblock)
    (hstep : w.syncTransaction t tx pblock = .ok w') :
    w'.ConflictClosed t ∧ SpendsRecorded w' := by
  obtain ⟨w1,h1,⟨_,rfl⟩ | ⟨hinv,w2,hadd,rfl⟩⟩ := sync_cases ht hr hstep
  · exact ⟨h1.closed hc,hr.refreshed h1.toRefreshed⟩
  have hr1 := hr.refreshed h1.toRefreshed
  have hc1 := h1.closed hc
  obtain ⟨w2',wtx',hadd',h2,_,hcase⟩ := addToWallet_spec hr1 (syncedTx tx pblock)
  cases hadd.symm.trans hadd'
  rw [syncedTx_tx] at h2 hcase
  obtain ⟨h3,hdepth3⟩ := refreshed_markDirtyInputs w2 tx.vin
  refine ⟨fun parent child hs hneg => ?_,(h2.recorded_all hr1).refreshed h3⟩
  rw [hdepth3] at hneg ⊢
  rw [hdepth3]
  rw [h3.spendsFrom] at hs
  by_cases hset : pblock.isSome ∨ tx.getHash ∉ w.mapWallet
  · -- the transaction is not conflicted, and neither is what it spends from
    have hnew : pblock.isSome ∨ w1.mapWallet.lookup tx.getHash = none :=
      hset.imp_right fun hnot => Finmap.lookup_eq_none.mpr fun hmem => hnot (h1.mem_iff.mp hmem)
    have hpos : 0 ≤ wtx'.getDepthInMainChain t := depth_synced hwf hnew hcase
    have hparent : parent ≠ tx.getHash := by
      rintro rfl
      rw [h2.depth,if_pos rfl] at hneg
      exact absurd hneg (not_lt.mpr hpos)
    rw [h2.depth,if_neg hparent] at hneg
    by_cases hchild : child = tx.getHash
    · subst hchild
      have hhas : w.HasParent tx parent := by
        obtain ⟨_,hw2,o,ho,hhash⟩ := hs
        cases h2.lookup.symm.trans hw2
        refine ⟨o,?_,hhash⟩
        rcases hcase with ⟨hnone,rfl⟩ | ⟨wtx,hw,rfl⟩
        · cases hw0 : w.mapWallet.lookup tx.getHash with
          | none => rwa [CWalletTx.markDirty_tx,syncedTx_tx] at ho
          | some wtx0 =>
            obtain ⟨_,hsome,_⟩ := h1.present hw0
            cases hnone.symm.trans hsome
        · obtain ⟨wtx0,hw0,hk⟩ := h1.back hw
          rw [hw0]
          rwa [CWalletTx.markDirty_tx,CWalletTx.merge_tx,hk.tx] at ho
      obtain ⟨hsafe,hfar⟩ := hkeeps hinv hset parent hhas
      have hsame : w1.depth t parent = w.depth t parent := by
        by_contra hne
        obtain ⟨s,⟨block,hblock,hconflict⟩,hreach⟩ := h1.reached hne
        exact hfar block hblock s hconflict hreach
      omega
    · rw [h2.depth,if_neg hchild,h2.depth,if_neg hparent]
      exact hc1 parent child ((h2.spendsFrom hchild).mp hs) hneg
  · -- a transaction of the wallet enters the pool
    rw [not_or,not_not] at hset
    obtain ⟨hnone,hmem⟩ := hset
    have hsame : ∀ x, w2.depth t x = w1.depth t x := by
      intro x
      rw [h2.depth]
      split_ifs with hx
      · subst hx
        cases pblock with
        | some _ => simp at hnone
        | none =>
          obtain ⟨_,hw1⟩ := Finmap.mem_iff.mp (h1.mem_iff.mpr hmem)
          rcases hcase with ⟨habsent,_⟩ | ⟨wtx,hw,rfl⟩
          · cases habsent.symm.trans hw1
          · rw [CWalletTx.depth_markDirty,depth_of_lookup hw]
            exact depth_merge_pool wtx tx t
      · rfl
    rw [hsame] at hneg ⊢
    rw [hsame]
    refine hc1 parent child ?_ hneg
    by_cases hchild : child = tx.getHash
    · subst hchild
      obtain ⟨_,hw2,o,ho,hhash⟩ := hs
      cases h2.lookup.symm.trans hw2
      rcases hcase with ⟨habsent,_⟩ | ⟨wtx,hw,rfl⟩
      · obtain ⟨_,hw1⟩ := Finmap.mem_iff.mp (h1.mem_iff.mpr hmem)
        cases habsent.symm.trans hw1
      · rw [CWalletTx.markDirty_tx,CWalletTx.merge_tx] at ho
        exact ⟨wtx,hw,o,ho,hhash⟩
    · exact (h2.spendsFrom hchild).mp hs

end

end WalletState
end Sidechain
