import Sidechain.Library.FiniteMap
import Sidechain.Wallet.WalletState

/-! The walk of `MarkConflicted`: it reaches the transactions that depend on the first one and are
less deeply conflicted, and drops the kept amounts of what they spend. -/
namespace Sidechain
open FiniteMap Worklist

namespace CWalletTx

/-- No amount is kept, but for the immature credit. -/
def Dirty (wtx : CWalletTx) : Prop := wtx.markDirty = wtx

/-- The same transaction, whose kept amounts are as they were or dropped. -/
def Kept (wtx wtx' : CWalletTx) : Prop :=
  ∃ hashBlock nIndex, wtx' = { wtx with hashBlock, nIndex } ∨
    wtx' = { wtx.markDirty with hashBlock, nIndex }

theorem dirty_markDirty (wtx : CWalletTx) : wtx.markDirty.Dirty := rfl

theorem Kept.refl (wtx : CWalletTx) : wtx.Kept wtx := ⟨wtx.hashBlock,wtx.nIndex,Or.inl rfl⟩

theorem Kept.markDirty (wtx : CWalletTx) : wtx.Kept wtx.markDirty :=
  ⟨wtx.hashBlock,wtx.nIndex,Or.inr rfl⟩

theorem Kept.tx {wtx wtx' : CWalletTx} (h : wtx.Kept wtx') : wtx'.tx = wtx.tx := by
  obtain ⟨_,_,rfl | rfl⟩ := h <;> rfl

theorem Kept.trans {wtx wtx' wtx'' : CWalletTx} (h : wtx.Kept wtx') (h' : wtx'.Kept wtx'') :
    wtx.Kept wtx'' := by
  obtain ⟨_,_,rfl | rfl⟩ := h
  · obtain ⟨_,_,rfl | rfl⟩ := h'
    · exact ⟨_,_,Or.inl rfl⟩
    · exact ⟨_,_,Or.inr rfl⟩
  · obtain ⟨_,_,rfl | rfl⟩ := h'
    · exact ⟨_,_,Or.inr rfl⟩
    · exact ⟨_,_,Or.inr rfl⟩

theorem Kept.dirty {wtx wtx' : CWalletTx} (h : wtx.Kept wtx') (hd : wtx.Dirty) : wtx'.Dirty := by
  unfold Dirty at hd ⊢
  obtain ⟨_,_,rfl | rfl⟩ := h
  · rw [← hd]
    rfl
  · rfl

end CWalletTx

namespace WalletState

variable {w w' : WalletState} {t : BlockTree}

@[simp] theorem lookup_setTx (w : WalletState) (hash : Uint256) (wtx : CWalletTx) :
    (w.setTx hash wtx).mapWallet.lookup hash = some wtx := Finmap.lookup_insert _

theorem lookup_setTx_of_ne (w : WalletState) {hash h : Uint256} (wtx : CWalletTx) (hne : h ≠ hash) :
    (w.setTx hash wtx).mapWallet.lookup h = w.mapWallet.lookup h :=
  Finmap.lookup_insert_of_ne _ hne

theorem markDirtyAt_fields (w : WalletState) (hash : Uint256) :
    (w.markDirtyAt hash).mapTxSpends = w.mapTxSpends ∧ (w.markDirtyAt hash).isMine = w.isMine := by
  unfold markDirtyAt
  cases w.mapWallet.lookup hash <;> exact ⟨rfl,rfl⟩

@[simp] theorem lookup_markDirtyAt (w : WalletState) (hash h : Uint256) :
    (w.markDirtyAt hash).mapWallet.lookup h =
      (w.mapWallet.lookup h).map fun wtx => if h = hash then wtx.markDirty else wtx := by
  unfold markDirtyAt
  by_cases hh : h = hash
  · subst hh
    cases hw : w.mapWallet.lookup h with
    | none => simp [hw]
    | some wtx => simp
  · simp only [if_neg hh,Option.map_id']
    cases w.mapWallet.lookup hash with
    | none => rfl
    | some wtx => exact lookup_setTx_of_ne w _ hh

theorem foldl_markDirtyAt (w : WalletState) (hashes : List Uint256) :
    let w' := hashes.foldl (fun w hash => w.markDirtyAt hash) w
    w'.mapTxSpends = w.mapTxSpends ∧ w'.isMine = w.isMine ∧
      ∀ h, w'.mapWallet.lookup h = (w.mapWallet.lookup h).map fun wtx =>
        if h ∈ hashes then wtx.markDirty else wtx := by
  induction hashes generalizing w with
  | nil => simp
  | cons hash hashes ih =>
    obtain ⟨h1,h2,h4⟩ := ih (w.markDirtyAt hash)
    obtain ⟨hf1,hf2⟩ := w.markDirtyAt_fields hash
    refine ⟨h1.trans hf1,h2.trans hf2,fun h => ?_⟩
    rw [List.foldl_cons,h4,lookup_markDirtyAt,Option.map_map]
    congr 1
    funext wtx
    by_cases hh : h = hash
    · simp only [Function.comp_apply,hh,List.mem_cons,true_or,if_true]
      split_ifs <;> rfl
    · simp only [Function.comp_apply,List.mem_cons,hh,false_or,if_false]

theorem markDirtyInputs_eq (w : WalletState) (vin : List CTxIn) : w.markDirtyInputs vin =
    (vin.map fun txin => txin.prevout.hash).foldl (fun w hash => w.markDirtyAt hash) w := by
  rw [List.foldl_map]
  rfl

/-- The depth of a transaction of the wallet. -/
def depth (w : WalletState) (t : BlockTree) (hash : Uint256) : ℤ :=
  match w.mapWallet.lookup hash with
  | none => 0
  | some wtx => wtx.getDepthInMainChain t

theorem depth_of_lookup {hash : Uint256} {wtx : CWalletTx}
    (h : w.mapWallet.lookup hash = some wtx) : w.depth t hash = wtx.getDepthInMainChain t := by
  unfold depth
  rw [h]

/-- The blocks of transactions change, and where one does, its kept amounts and those of what it
spends are dropped. -/
structure Refreshed (w w' : WalletState) : Prop where
  mapTxSpends : w'.mapTxSpends = w.mapTxSpends
  isMine : w'.isMine = w.isMine
  absent : ∀ {h}, w.mapWallet.lookup h = none → w'.mapWallet.lookup h = none
  present : ∀ {h wtx}, w.mapWallet.lookup h = some wtx → ∃ wtx',
    w'.mapWallet.lookup h = some wtx' ∧ wtx.Kept wtx' ∧
      ((wtx'.hashBlock = wtx.hashBlock ∧ wtx'.nIndex = wtx.nIndex) ∨ (wtx'.Dirty ∧
        ∀ txin ∈ wtx.tx.vin, ∀ p, w'.mapWallet.lookup txin.prevout.hash = some p → p.Dirty))

namespace Refreshed

theorem refl (w : WalletState) : Refreshed w w :=
  ⟨rfl,rfl,id,fun {_ wtx} h => ⟨wtx,h,CWalletTx.Kept.refl wtx,Or.inl ⟨rfl,rfl⟩⟩⟩

theorem back (h : Refreshed w w') {hash : Uint256} {wtx' : CWalletTx}
    (hw : w'.mapWallet.lookup hash = some wtx') :
    ∃ wtx, w.mapWallet.lookup hash = some wtx ∧ wtx.Kept wtx' := by
  cases hold : w.mapWallet.lookup hash with
  | none => exact nomatch (h.absent hold).symm.trans hw
  | some wtx =>
    obtain ⟨_,hw',hk,_⟩ := h.present hold
    cases hw'.symm.trans hw
    exact ⟨wtx,rfl,hk⟩

theorem trans {w'' : WalletState} (h : Refreshed w w') (h' : Refreshed w' w'') :
    Refreshed w w'' where
  mapTxSpends := h'.mapTxSpends.trans h.mapTxSpends
  isMine := h'.isMine.trans h.isMine
  absent hw := h'.absent (h.absent hw)
  present hw := by
    obtain ⟨wtx',hw',hk,hor⟩ := h.present hw
    obtain ⟨wtx'',hw'',hk',hor'⟩ := h'.present hw'
    refine ⟨wtx'',hw'',hk.trans hk',?_⟩
    rcases hor' with hsame' | ⟨hd,hinputs⟩
    · rcases hor with hsame | ⟨hd,hinputs⟩
      · exact Or.inl ⟨hsame'.1.trans hsame.1,hsame'.2.trans hsame.2⟩
      · refine Or.inr ⟨hk'.dirty hd,fun txin hin p hp => ?_⟩
        obtain ⟨p',hp',hkp⟩ := h'.back hp
        exact hkp.dirty (hinputs txin hin p' hp')
    · rw [hk.tx] at hinputs
      exact Or.inr ⟨hd,hinputs⟩

theorem mem_iff (h : Refreshed w w') {hash : Uint256} :
    hash ∈ w'.mapWallet ↔ hash ∈ w.mapWallet := by
  rw [Finmap.mem_iff,Finmap.mem_iff]
  constructor
  · rintro ⟨wtx',hw⟩
    obtain ⟨wtx,hw,_⟩ := h.back hw
    exact ⟨wtx,hw⟩
  · rintro ⟨wtx,hw⟩
    obtain ⟨wtx',hw',_⟩ := h.present hw
    exact ⟨wtx',hw'⟩

theorem spenders (h : Refreshed w w') : w'.spenders = w.spenders := by
  funext hash
  unfold WalletState.spenders
  rw [h.mapTxSpends]

end Refreshed

/-- A transaction is set to a block, and what it spends has its kept amounts dropped. -/
theorem refreshed_setBlock {hash : Uint256} {wtx : CWalletTx} (hw : w.mapWallet.lookup hash = some wtx)
    (hashBlock : Uint256) (nIndex : ℤ) :
    Refreshed w ((w.setTx hash (wtx.setBlock hashBlock nIndex).markDirty).markDirtyInputs
      wtx.tx.vin) := by
  rw [markDirtyInputs_eq]
  obtain ⟨h1,h2,h4⟩ := foldl_markDirtyAt
    (w.setTx hash (wtx.setBlock hashBlock nIndex).markDirty)
    (wtx.tx.vin.map fun txin => txin.prevout.hash)
  refine ⟨h1,h2,fun {h} hnone => ?_,fun {h wtx0} hsome => ?_⟩
  · have hne : h ≠ hash := by
      rintro rfl
      rw [hw] at hnone
      cases hnone
    rw [h4,lookup_setTx_of_ne _ _ hne,hnone]
    rfl
  · rw [h4]
    by_cases hh : h = hash
    · subst hh
      cases hw.symm.trans hsome
      rw [lookup_setTx]
      refine ⟨_,rfl,?_,Or.inr ⟨?_,fun txin hin p hp => ?_⟩⟩
      · split_ifs
        · exact ⟨hashBlock,nIndex,Or.inr rfl⟩
        · exact ⟨hashBlock,nIndex,Or.inr rfl⟩
      · split_ifs <;> rfl
      · rw [h4] at hp
        obtain ⟨q,_,rfl⟩ := Option.map_eq_some_iff.mp hp
        rw [if_pos (List.mem_map_of_mem hin)]
        exact q.dirty_markDirty
    · rw [lookup_setTx_of_ne _ _ hh,hsome]
      refine ⟨_,rfl,?_,Or.inl ?_⟩
      · split_ifs
        · exact CWalletTx.Kept.markDirty wtx0
        · exact CWalletTx.Kept.refl wtx0
      · split_ifs <;> exact ⟨rfl,rfl⟩

/-- What a transaction spends is recorded, under the hash of a transaction of the wallet. -/
structure SpendsRecorded (w : WalletState) : Prop where
  recorded : ∀ {h wtx o}, w.mapWallet.lookup h = some wtx → o ∈ wtx.tx.spends →
    (o,h) ∈ w.mapTxSpends
  mem : ∀ {o h}, (o,h) ∈ w.mapTxSpends → h ∈ w.mapWallet

theorem mem_spenders {h now : Uint256} :
    h ∈ w.spenders now ↔ ∃ o, (o,h) ∈ w.mapTxSpends ∧ o.hash = now := by
  unfold spenders
  simp only [List.mem_toFinset,List.mem_map,List.mem_filter,decide_eq_true_eq,Prod.exists]
  constructor
  · rintro ⟨o,_,⟨hmem,hnow⟩,rfl⟩
    exact ⟨o,hmem,hnow⟩
  · rintro ⟨o,hmem,hnow⟩
    exact ⟨o,h,⟨hmem,hnow⟩,rfl⟩

theorem SpendsRecorded.spenders_sub (hr : SpendsRecorded w) (now : Uint256) :
    w.spenders now ⊆ w.mapWallet.keys := by
  intro h hh
  obtain ⟨o,hmem,_⟩ := mem_spenders.mp hh
  exact Finmap.mem_keys.mpr (hr.mem hmem)

theorem SpendsRecorded.refreshed (hr : SpendsRecorded w) (h : Refreshed w w') :
    SpendsRecorded w' where
  recorded hw ho := by
    obtain ⟨wtx,hw',hk⟩ := h.back hw
    rw [hk.tx] at ho
    rw [h.mapTxSpends]
    exact hr.recorded hw' ho
  mem hmem := by
    rw [h.mapTxSpends] at hmem
    exact h.mem_iff.mpr (hr.mem hmem)

/-- No block of the index has a hash that stands for no block, or for an abandoned transaction. -/
def PlainHashes (t : BlockTree) : Prop := 0 ∉ t.mapBlockIndex ∧ ABANDON_HASH ∉ t.mapBlockIndex

theorem depth_mark {hashBlock : Uint256} (ht : PlainHashes t) (hneg : conflictConfirms t hashBlock < 0)
    (wtx : CWalletTx) (hblock : wtx.hashBlock = hashBlock) (hindex : wtx.nIndex = -1) :
    wtx.getDepthInMainChain t = conflictConfirms t hashBlock := by
  unfold conflictConfirms at hneg ⊢
  split_ifs at hneg ⊢ with hactive
  · have hne : wtx.hashUnset = false := by
      unfold CWalletTx.hashUnset
      rw [hblock,Bool.or_eq_false_iff,beq_eq_false_iff_ne,beq_eq_false_iff_ne]
      exact ⟨fun h => ht.1 (h ▸ hactive.1),fun h => ht.2 (h ▸ hactive.1)⟩
    unfold CWalletTx.getDepthInMainChain
    rw [hne,hblock,hindex,if_neg Bool.false_ne_true,if_neg (not_not.mpr hactive.1),hactive.2]
    simp
  · exact absurd hneg (lt_irrefl 0)

/-- What a call of `MarkConflicted` does: a transaction keeps its depth, or is marked and was less
deeply conflicted, and then what spends it is conflicted as deeply. -/
structure Conflicted (t : BlockTree) (hashBlock hashTx : Uint256) (w w' : WalletState) : Prop
    extends Refreshed w w' where
  depth : ∀ x, w'.depth t x = w.depth t x ∨ (conflictConfirms t hashBlock < 0 ∧
    conflictConfirms t hashBlock < w.depth t x ∧ w'.depth t x = conflictConfirms t hashBlock ∧
      Reaches w.spenders hashTx x ∧
        ∀ y ∈ w.spenders x, w'.depth t y ≤ conflictConfirms t hashBlock)
  deep : conflictConfirms t hashBlock < 0 → w'.depth t hashTx ≤ conflictConfirms t hashBlock

/-- The walk on its way: what is done is conflicted as deeply, and what spends a marked transaction
is done or waits. -/
structure Marking (t : BlockTree) (hashBlock hashTx : Uint256) (w0 w : WalletState)
    (todo done : Finset Uint256) : Prop extends Refreshed w0 w where
  start : hashTx ∈ todo ∪ done
  sub : todo ∪ done ⊆ w0.mapWallet.keys
  disjoint : ∀ x ∈ todo, x ∉ done
  deep : ∀ x ∈ done, w.depth t x ≤ conflictConfirms t hashBlock
  reached : ∀ x ∈ todo ∪ done, Reaches w0.spenders hashTx x
  depth : ∀ x, w.depth t x = w0.depth t x ∨ (conflictConfirms t hashBlock < w0.depth t x ∧
    w.depth t x = conflictConfirms t hashBlock ∧ x ∈ done ∧ w0.spenders x ⊆ todo ∪ done)

theorem Marking.conflicted {hashBlock hashTx : Uint256} {done : Finset Uint256}
    (h : Marking t hashBlock hashTx w w' ∅ done) (hneg : conflictConfirms t hashBlock < 0) :
    Conflicted t hashBlock hashTx w w' where
  toRefreshed := h.toRefreshed
  depth x := (h.depth x).imp_right fun ⟨hlt,heq,hin,hsub⟩ =>
    ⟨hneg,hlt,heq,h.reached x (Finset.mem_union_right _ hin),fun y hy =>
      h.deep y (by simpa using hsub hy)⟩
  deep _ := h.deep hashTx (by simpa using h.start)

theorem depth_setBlock (w : WalletState) (t : BlockTree) (hash : Uint256) (wtx : CWalletTx)
    (hashBlock : Uint256) (nIndex : ℤ) (x : Uint256) :
    ((w.setTx hash (wtx.setBlock hashBlock nIndex).markDirty).markDirtyInputs
      wtx.tx.vin).depth t x =
      if x = hash then (wtx.setBlock hashBlock nIndex).getDepthInMainChain t
      else w.depth t x := by
  rw [markDirtyInputs_eq]
  obtain ⟨_,_,h4⟩ := foldl_markDirtyAt
    (w.setTx hash (wtx.setBlock hashBlock nIndex).markDirty)
    (wtx.tx.vin.map fun txin => txin.prevout.hash)
  unfold depth
  rw [h4]
  by_cases hx : x = hash
  · rw [if_pos hx,hx,lookup_setTx,Option.map_some]
    dsimp only
    split_ifs <;> exact CWalletTx.depth_congr rfl rfl t
  · rw [if_neg hx,lookup_setTx_of_ne _ _ hx]
    cases w.mapWallet.lookup x with
    | none => rfl
    | some wtx0 =>
      rw [Option.map_some]
      dsimp only
      split_ifs
      · exact CWalletTx.depth_markDirty wtx0 t
      · rfl

section
variable {hashBlock hashTx now : Uint256} {w0 : WalletState} {todo done : Finset Uint256}
  {wtx : CWalletTx}

theorem Marking.skip (h : Marking t hashBlock hashTx w0 w todo done) (hnow : now ∈ todo)
    (hdeep : w.depth t now ≤ conflictConfirms t hashBlock) :
    Marking t hashBlock hashTx w0 w (todo.erase now) (insert now done) := by
  have hunion : todo.erase now ∪ insert now done = todo ∪ done := by
    ext x
    by_cases hx : x = now <;> simp [hx,hnow]
  refine ⟨h.toRefreshed,hunion ▸ h.start,hunion ▸ h.sub,?_,?_,hunion ▸ h.reached,fun x => ?_⟩
  · intro x hx hin
    obtain ⟨hne,hx⟩ := Finset.mem_erase.mp hx
    exact h.disjoint x hx ((Finset.mem_insert.mp hin).resolve_left hne)
  · intro x hx
    rcases Finset.mem_insert.mp hx with rfl | hx
    · exact hdeep
    · exact h.deep x hx
  · rw [hunion]
    exact (h.depth x).imp_right fun ⟨h1,h2,h3,h4⟩ => ⟨h1,h2,Finset.mem_insert_of_mem h3,h4⟩

theorem Marking.mark (h : Marking t hashBlock hashTx w0 w todo done) (ht : PlainHashes t)
    (hneg : conflictConfirms t hashBlock < 0) (hr : SpendsRecorded w0) (hnow : now ∈ todo)
    (hw : w.mapWallet.lookup now = some wtx)
    (hless : conflictConfirms t hashBlock < wtx.getDepthInMainChain t) :
    Marking t hashBlock hashTx w0
      ((w.setTx now (wtx.setBlock hashBlock (-1)).markDirty).markDirtyInputs
        wtx.tx.vin)
      (todo.erase now ∪ (w.spenders now \ insert now done)) (insert now done) := by
  have hdepth := depth_setBlock w t now wtx hashBlock (-1)
  have hmark := depth_mark ht hneg (wtx.setBlock hashBlock (-1)) rfl rfl
  have hunion : ∀ {x}, x ∈ todo.erase now ∪ (w.spenders now \ insert now done) ∪ insert now done ↔
      x ∈ todo ∪ done ∨ x ∈ w0.spenders now := by
    intro x
    rw [h.spenders]
    by_cases hx : x = now
    · simp [hx,hnow]
    · simp only [Finset.mem_union,Finset.mem_erase,Finset.mem_sdiff,Finset.mem_insert,hx,false_or,
        ne_eq,not_false_eq_true,true_and]
      tauto
  have hnot : now ∉ done := h.disjoint now hnow
  have hold : w0.depth t now = w.depth t now := by
    rcases h.depth now with heq | ⟨_,_,hin,_⟩
    · exact heq.symm
    · exact absurd hin hnot
  refine ⟨h.toRefreshed.trans (refreshed_setBlock hw hashBlock (-1)),
    hunion.mpr (Or.inl h.start),fun x hx => ?_,?_,?_,fun x hx => ?_,fun x => ?_⟩
  · rcases hunion.mp hx with hx | hx
    · exact h.sub hx
    · exact hr.spenders_sub now hx
  · intro x hx
    rcases Finset.mem_union.mp hx with hx | hx
    · obtain ⟨hne,hx⟩ := Finset.mem_erase.mp hx
      exact fun hin => h.disjoint x hx ((Finset.mem_insert.mp hin).resolve_left hne)
    · exact (Finset.mem_sdiff.mp hx).2
  · intro x hx
    rw [hdepth]
    split_ifs with hx'
    · exact hmark.le
    · exact h.deep x ((Finset.mem_insert.mp hx).resolve_left hx')
  · rcases hunion.mp hx with hx | hx
    · exact h.reached x hx
    · exact (h.reached now (Finset.mem_union_left _ hnow)).tail hx
  · rw [hdepth]
    split_ifs with hx
    · subst hx
      refine Or.inr ⟨?_,hmark,Finset.mem_insert_self _ _,fun y hy => hunion.mpr (Or.inr hy)⟩
      rw [hold,depth_of_lookup hw]
      exact hless
    · exact (h.depth x).imp_right fun ⟨h1,h2,h3,h4⟩ =>
        ⟨h1,h2,Finset.mem_insert_of_mem h3,fun y hy => hunion.mpr (Or.inl (h4 hy))⟩

theorem Marking.loop {fuel : ℕ} (h : Marking t hashBlock hashTx w0 w todo done)
    (ht : PlainHashes t) (hneg : conflictConfirms t hashBlock < 0) (hr : SpendsRecorded w0)
    (hfuel : (w0.mapWallet.keys \ done).card ≤ fuel) : ∃ w',
      markConflictedLoop t hashBlock (conflictConfirms t hashBlock) fuel todo done w = .ok w' ∧
        Conflicted t hashBlock hashTx w0 w' := by
  have hin : ∀ {x}, x ∈ todo → x ∈ w0.mapWallet.keys \ done := fun hx =>
    Finset.mem_sdiff.mpr ⟨h.sub (Finset.mem_union_left _ hx),h.disjoint _ hx⟩
  induction fuel generalizing w todo done with
  | zero =>
    have hnil : todo = ∅ := Finset.eq_empty_of_forall_notMem fun x hx => by
      have hcard := Finset.card_pos.mpr ⟨x,hin hx⟩
      omega
    subst hnil
    exact ⟨w,rfl,h.conflicted hneg⟩
  | succ fuel ih =>
    unfold markConflictedLoop
    cases hlist : hashOrder.list todo with
    | nil =>
      have hnil := Enumeration.list_nil hlist
      subst hnil
      exact ⟨w,rfl,h.conflicted hneg⟩
    | cons now rest =>
      have hnow := Enumeration.mem_of_head hlist
      have hlt : (w0.mapWallet.keys \ insert now done).card ≤ fuel := by
        rw [Finset.sdiff_insert,Finset.card_erase_of_mem (hin hnow)]
        omega
      have hmem : now ∈ w.mapWallet := h.mem_iff.mpr
        (Finmap.mem_keys.mp (h.sub (Finset.mem_union_left _ hnow)))
      obtain ⟨wtx,hw⟩ := Finmap.mem_iff.mp hmem
      simp only [hw]
      split_ifs with hless
      · have h' := h.mark ht hneg hr hnow hw hless
        exact ih h' hlt fun hx => Finset.mem_sdiff.mpr
          ⟨h'.sub (Finset.mem_union_left _ hx),h'.disjoint _ hx⟩
      · have h' := h.skip hnow (by rw [depth_of_lookup hw]; exact not_lt.mp hless)
        exact ih h' hlt fun hx => Finset.mem_sdiff.mpr
          ⟨h'.sub (Finset.mem_union_left _ hx),h'.disjoint _ hx⟩

end

/-- `MarkConflicted` comes to an end on every transaction of the wallet. -/
theorem markConflicted_spec (ht : PlainHashes t) (hr : SpendsRecorded w) (hashBlock : Uint256)
    {hashTx : Uint256} (hmem : hashTx ∈ w.mapWallet) : ∃ w',
      w.markConflicted t hashBlock hashTx = .ok w' ∧ Conflicted t hashBlock hashTx w w' := by
  unfold markConflicted
  dsimp only
  split_ifs with hpos
  · exact ⟨w,rfl,Refreshed.refl w,fun x => Or.inl rfl,fun hneg => absurd hpos (not_le.mpr hneg)⟩
  · have hstart : Marking t hashBlock hashTx w w {hashTx} ∅ := by
      refine ⟨Refreshed.refl w,by simp,?_,?_,?_,?_,fun x => Or.inl rfl⟩
      · simpa [Finmap.mem_keys] using hmem
      · exact fun x _ => Finset.notMem_empty x
      · exact fun x hx => absurd hx (Finset.notMem_empty x)
      · intro x hx
        rw [Finset.union_empty,Finset.mem_singleton] at hx
        subst hx
        exact .refl x
    refine hstart.loop ht (not_le.mp hpos) hr ?_
    rw [Finset.sdiff_empty]
    exact Nat.le_succ _

end WalletState
end Sidechain
