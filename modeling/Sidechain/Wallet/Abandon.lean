import Sidechain.Wallet.ConflictClosed

/-! The walk of `AbandonTransaction`. Its iterator starts at the outputs of the first transaction on
every round, so that it meets the transactions that spend from the first one and no others. -/
namespace Sidechain
open Worklist

namespace WalletState

variable {w w' : WalletState} {t : BlockTree} {inMempool : Uint256 → Bool} {hashTx now : Uint256}
  {todo done : Finset Uint256}

theorem find_sorted {l : List Uint256} (hl : l.Pairwise hashLe) (hnow : now ∈ l) :
    l.find? (fun hash => decide (hashLe now hash)) = some now := by
  induction l with
  | nil => cases hnow
  | cons x l ih =>
    rw [List.pairwise_cons] at hl
    rcases List.mem_cons.mp hnow with rfl | hnow
    · exact List.find?_cons_of_pos (decide_eq_true (Std.Total.total now now |>.elim id id))
    · by_cases hx : hashLe now x
      · obtain rfl := Std.Antisymm.antisymm _ _ hx (hl.1 now hnow)
        exact List.find?_cons_of_pos (decide_eq_true hx)
      · rw [List.find?_cons_of_neg (by simpa using hx)]
        exact ih hl.2 hnow

theorem find_spent {hash : Uint256} (h : hash ∈ w.spenders hashTx) :
    (hashOrder.list (w.mapTxSpends.map fun spend => spend.1.hash).toFinset).find?
      (fun hash => decide (hashLe hashTx hash)) = some hashTx := by
  obtain ⟨o,hmem,ho⟩ := mem_spenders.mp h
  refine find_sorted (Iteration.pairwise_inOrder _) (hashOrder.mem_list.mpr ?_)
  exact List.mem_toFinset.mpr (List.mem_map.mpr ⟨_,hmem,ho⟩)

/-- From the first transaction the iterator meets everything that spends from it. -/
@[simp] theorem spendersFrom_self : w.spendersFrom hashTx hashTx = w.spenders hashTx := by
  unfold spendersFrom
  dsimp only
  split_ifs with hfind
  · rfl
  · refine (Finset.eq_empty_iff_forall_notMem.mpr fun hash hhash => ?_).symm
    exact hfind (find_spent hhash)

/-- From another one it meets nothing, if something spends from the first. -/
theorem spendersFrom_other {hash : Uint256} (h : hash ∈ w.spenders hashTx) (hne : now ≠ hashTx) :
    w.spendersFrom hashTx now = ∅ := by
  unfold spendersFrom
  dsimp only
  rw [find_spent h,if_neg fun heq => hne (Option.some.inj heq).symm]

/-- It can be abandoned: it is in no block, nor conflicted, nor abandoned. -/
def Pending (w : WalletState) (t : BlockTree) (hash : Uint256) : Prop :=
  ∃ wtx, w.mapWallet.lookup hash = some wtx ∧ wtx.getDepthInMainChain t = 0 ∧ wtx.isAbandoned = false

/-- Some transactions are abandoned, the others keep their block and index. -/
structure Abandoned (S : Uint256 → Prop) (w w' : WalletState) : Prop where
  mapTxSpends : w'.mapTxSpends = w.mapTxSpends
  absent : ∀ {hash}, w.mapWallet.lookup hash = none → w'.mapWallet.lookup hash = none
  present : ∀ {hash wtx}, w.mapWallet.lookup hash = some wtx → ∃ wtx',
    w'.mapWallet.lookup hash = some wtx' ∧ wtx'.tx = wtx.tx ∧
      (S hash → wtx'.hashBlock = ABANDON_HASH ∧ wtx'.nIndex = -1) ∧
      (¬ S hash → wtx'.hashBlock = wtx.hashBlock ∧ wtx'.nIndex = wtx.nIndex)

namespace Abandoned
variable {S S' : Uint256 → Prop}

theorem refl (w : WalletState) : Abandoned (fun _ => False) w w :=
  ⟨rfl,id,fun {_ wtx} h => ⟨wtx,h,rfl,False.elim,fun _ => ⟨rfl,rfl⟩⟩⟩

theorem congr (h : Abandoned S w w') (hS : ∀ hash, S hash ↔ S' hash) : Abandoned S' w w' := by
  obtain rfl : S = S' := funext fun hash => propext (hS hash)
  exact h

theorem trans {w'' : WalletState} (h : Abandoned S w w') (h' : Abandoned S' w' w'') :
    Abandoned (fun hash => S hash ∨ S' hash) w w'' where
  mapTxSpends := h'.mapTxSpends.trans h.mapTxSpends
  absent hw := h'.absent (h.absent hw)
  present {hash wtx} hw := by
    obtain ⟨wtx',hw',htx,hin,hout⟩ := h.present hw
    obtain ⟨wtx'',hw'',htx',hin',hout'⟩ := h'.present hw'
    refine ⟨wtx'',hw'',htx'.trans htx,fun hS => ?_,fun hS => ?_⟩
    · by_cases hS' : S' hash
      · exact hin' hS'
      · obtain ⟨hblock,hindex⟩ := hout' hS'
        rw [hblock,hindex]
        exact hin (hS.resolve_right hS')
    · obtain ⟨hblock,hindex⟩ := hout' fun hS' => hS (.inr hS')
      rw [hblock,hindex]
      exact hout fun hS' => hS (.inl hS')

theorem lookup_of_not (h : Abandoned S w w') {hash : Uint256} (hS : ¬ S hash) {wtx : CWalletTx}
    (hw : w.mapWallet.lookup hash = some wtx) (t : BlockTree) : ∃ wtx',
      w'.mapWallet.lookup hash = some wtx' ∧
        wtx'.getDepthInMainChain t = wtx.getDepthInMainChain t ∧
        wtx'.isAbandoned = wtx.isAbandoned := by
  obtain ⟨wtx',hw',-,-,hout⟩ := h.present hw
  obtain ⟨hblock,hindex⟩ := hout hS
  refine ⟨wtx',hw',CWalletTx.depth_congr hblock hindex t,?_⟩
  unfold CWalletTx.isAbandoned
  rw [hblock]

theorem pending_iff (h : Abandoned S w w') {hash : Uint256} (hS : ¬ S hash) (t : BlockTree) :
    w'.Pending t hash ↔ w.Pending t hash := by
  constructor
  · rintro ⟨wtx',hw',hdepth,hnot⟩
    cases hw : w.mapWallet.lookup hash with
    | none => exact nomatch (h.absent hw).symm.trans hw'
    | some wtx =>
      obtain ⟨_,heq,hdepth',hnot'⟩ := h.lookup_of_not hS hw t
      cases heq.symm.trans hw'
      exact ⟨wtx,hw,hdepth'.symm.trans hdepth,hnot'.symm.trans hnot⟩
  · rintro ⟨wtx,hw,hdepth,hnot⟩
    obtain ⟨wtx',hw',hdepth',hnot'⟩ := h.lookup_of_not hS hw t
    exact ⟨wtx',hw',hdepth'.trans hdepth,hnot'.trans hnot⟩

end Abandoned

/-- One transaction is abandoned, and the kept amounts of what it spends are dropped. -/
theorem abandoned_setBlock {wtx : CWalletTx} (hw : w.mapWallet.lookup now = some wtx) :
    Abandoned (· = now) w ((w.setTx now (wtx.setBlock ABANDON_HASH (-1)).markDirty).markDirtyInputs
      wtx.tx.vin) := by
  rw [markDirtyInputs_eq]
  obtain ⟨hspends,-,hlookup⟩ := foldl_markDirtyAt
    (w.setTx now (wtx.setBlock ABANDON_HASH (-1)).markDirty)
    (wtx.tx.vin.map fun txin => txin.prevout.hash)
  refine ⟨hspends,fun {hash} hnone => ?_,fun {hash wtx₀} hsome => ?_⟩
  · have hne : hash ≠ now := by
      rintro rfl
      cases hw.symm.trans hnone
    rw [hlookup,lookup_setTx_of_ne _ _ hne,hnone]
    rfl
  · rw [hlookup]
    by_cases hh : hash = now
    · subst hh
      cases hw.symm.trans hsome
      rw [lookup_setTx]
      refine ⟨_,rfl,?_,fun _ => ?_,fun hne => absurd rfl hne⟩
      · split_ifs <;> rfl
      · split_ifs <;> exact ⟨rfl,rfl⟩
    · rw [lookup_setTx_of_ne _ _ hh,hsome]
      refine ⟨_,rfl,?_,(fun heq => absurd heq hh),fun _ => ?_⟩
      · split_ifs <;> rfl
      · split_ifs <;> exact ⟨rfl,rfl⟩

/-- None of the assertions fails at this transaction. -/
def Safe (w : WalletState) (t : BlockTree) (inMempool : Uint256 → Bool) (hash : Uint256) : Prop :=
  ∃ wtx, w.mapWallet.lookup hash = some wtx ∧ wtx.getDepthInMainChain t ≤ 0 ∧ inMempool hash = false

/-- A transaction that is pending is abandoned, and what the iterator meets waits. -/
theorem abandonLoop_mark {rest : List Uint256} (hlist : hashOrder.list todo = now :: rest)
    {wtx : CWalletTx} (hw : w.mapWallet.lookup now = some wtx)
    (hdepth : wtx.getDepthInMainChain t = 0) (hnot : wtx.isAbandoned = false)
    (hpool : inMempool now = false) (fuel : ℕ) :
    abandonLoop t inMempool hashTx (fuel + 1) todo done w =
      abandonLoop t inMempool hashTx fuel
        (todo.erase now ∪ (w.spendersFrom hashTx now \ insert now done)) (insert now done)
        ((w.setTx now (wtx.setBlock ABANDON_HASH (-1)).markDirty).markDirtyInputs wtx.tx.vin) := by
  rw [abandonLoop,hlist]
  dsimp only
  rw [hw]
  dsimp only
  rw [if_neg hdepth.not_gt,if_pos ⟨hdepth,by rw [hnot]; rfl⟩,hpool]
  rfl

theorem abandonLoop_skip {rest : List Uint256} (hlist : hashOrder.list todo = now :: rest)
    {wtx : CWalletTx} (hw : w.mapWallet.lookup now = some wtx)
    (hdepth : wtx.getDepthInMainChain t ≤ 0) (hnot : ¬ w.Pending t now) (fuel : ℕ) :
    abandonLoop t inMempool hashTx (fuel + 1) todo done w =
      abandonLoop t inMempool hashTx fuel (todo.erase now) (insert now done) w := by
  rw [abandonLoop,hlist]
  dsimp only
  rw [hw]
  dsimp only
  rw [if_neg hdepth.not_gt,if_neg]
  rintro ⟨hzero,habandoned⟩
  exact hnot ⟨wtx,hw,hzero,by simpa using habandoned⟩

/-- While the iterator meets nothing, the transactions that wait are all there is to do. -/
theorem abandonLoop_waiting (hsafe : ∀ hash ∈ todo, w.Safe t inMempool hash)
    (hfrom : ∀ hash ∈ todo, w.spendersFrom hashTx hash = ∅) :
    ∃ w', (∀ fuel, todo.card < fuel →
        abandonLoop t inMempool hashTx fuel todo done w = .ok w') ∧
      Abandoned (fun hash => hash ∈ todo ∧ w.Pending t hash) w w' := by
  induction hcard : todo.card generalizing todo done w with
  | zero =>
    obtain rfl := Finset.card_eq_zero.mp hcard
    refine ⟨w,fun fuel hfuel => ?_,(Abandoned.refl w).congr fun hash => ?_⟩
    · obtain ⟨fuel,rfl⟩ := Nat.exists_eq_succ_of_ne_zero hfuel.ne'
      rw [abandonLoop]
      have hnil : hashOrder.list ∅ = [] := rfl
      rw [hnil]
    · exact ⟨False.elim,fun h => absurd h.1 (Finset.notMem_empty hash)⟩
  | succ n ih =>
    cases hlist : hashOrder.list todo with
    | nil =>
      rw [Enumeration.list_nil hlist] at hcard
      cases hcard
    | cons now rest =>
      have hnow : now ∈ todo := hashOrder.mem_list.mp (by rw [hlist]; exact List.mem_cons_self)
      have herase : (todo.erase now).card = n := by
        rw [Finset.card_erase_of_mem hnow,hcard]
        rfl
      obtain ⟨wtx,hw,hdepth,hpool⟩ := hsafe now hnow
      by_cases hpending : w.Pending t now
      · obtain ⟨_,hw₀,hzero,hnot⟩ := hpending
        cases hw.symm.trans hw₀
        have hstep := abandoned_setBlock hw
        generalize hw₁ : (w.setTx now (wtx.setBlock ABANDON_HASH (-1)).markDirty).markDirtyInputs
          wtx.tx.vin = w₁ at hstep
        obtain ⟨w',hrun,hrest⟩ := @ih w₁ (todo.erase now) (insert now done)
          (fun hash hhash => by
            obtain ⟨hne,hin⟩ := Finset.mem_erase.mp hhash
            obtain ⟨x,hx,hxdepth,hxpool⟩ := hsafe hash hin
            obtain ⟨x',hx',hxdepth',-⟩ := hstep.lookup_of_not hne hx t
            exact ⟨x',hx',hxdepth'.trans_le hxdepth,hxpool⟩)
          (fun hash hhash => by
            have h := hfrom hash (Finset.mem_of_mem_erase hhash)
            unfold spendersFrom spenders at h ⊢
            rw [hstep.mapTxSpends]
            exact h) herase
        refine ⟨w',fun fuel hfuel => ?_,(hstep.trans hrest).congr fun hash => ?_⟩
        · obtain ⟨fuel,rfl⟩ := Nat.exists_eq_succ_of_ne_zero (Nat.ne_zero_of_lt hfuel)
          rw [abandonLoop_mark hlist hw hzero hnot hpool,hfrom now hnow,Finset.empty_sdiff,
            Finset.union_empty,hw₁]
          exact hrun fuel (by omega)
        · by_cases hh : hash = now
          · subst hh
            exact ⟨fun _ => ⟨hnow,wtx,hw,hzero,hnot⟩,fun _ => .inl rfl⟩
          · rw [Finset.mem_erase,hstep.pending_iff hh]
            exact ⟨fun h => (h.resolve_left hh).imp_left And.right,fun h => .inr ⟨⟨hh,h.1⟩,h.2⟩⟩
      · obtain ⟨w',hrun,hrest⟩ := @ih w (todo.erase now) (insert now done)
          (fun hash hhash => hsafe hash (Finset.mem_of_mem_erase hhash))
          (fun hash hhash => hfrom hash (Finset.mem_of_mem_erase hhash)) herase
        refine ⟨w',fun fuel hfuel => ?_,hrest.congr fun hash => ?_⟩
        · obtain ⟨fuel,rfl⟩ := Nat.exists_eq_succ_of_ne_zero (Nat.ne_zero_of_lt hfuel)
          rw [abandonLoop_skip hlist hw hdepth hpending]
          exact hrun fuel (by omega)
        · rw [Finset.mem_erase]
          refine ⟨And.imp_left And.right,fun h => ⟨⟨?_,h.1⟩,h.2⟩⟩
          rintro rfl
          exact hpending h.2

/-- The transactions of depth 0 that are reached from the first one through such transactions. -/
inductive Family (w : WalletState) (t : BlockTree) (hashTx : Uint256) : Uint256 → Prop
  | first {wtx} (hw : w.mapWallet.lookup hashTx = some wtx)
      (hdepth : wtx.getDepthInMainChain t = 0) : Family w t hashTx hashTx
  | spends {parent child wtx} (hparent : Family w t hashTx parent)
      (hspends : w.SpendsFrom parent child) (hw : w.mapWallet.lookup child = some wtx)
      (hdepth : wtx.getDepthInMainChain t = 0) : Family w t hashTx child

/-- The spends of the wallet's transactions are recorded and no others. -/
structure SpendsListed (w : WalletState) : Prop extends SpendsRecorded w where
  listed : ∀ {o h}, (o,h) ∈ w.mapTxSpends → ∃ wtx, w.mapWallet.lookup h = some wtx ∧
    o ∈ wtx.tx.spends

/-- What a confirmed transaction spends from is confirmed, and what one in the pool spends from is
confirmed or in the pool. -/
structure ParentsFirst (w : WalletState) (t : BlockTree) (inMempool : Uint256 → Bool) : Prop where
  confirmed : ∀ {parent child}, w.SpendsFrom parent child → parent ∈ w.mapWallet →
    0 < w.depth t child → 0 < w.depth t parent
  pool : ∀ {parent child}, w.SpendsFrom parent child → parent ∈ w.mapWallet →
    inMempool child = true → 0 < w.depth t parent ∨ inMempool parent = true

def IsAbandoned (w : WalletState) (hash : Uint256) : Prop :=
  ∃ wtx, w.mapWallet.lookup hash = some wtx ∧ wtx.isAbandoned = true

/-- The family is abandoned, no other transaction has another block or index, and what only the family
spends is not spent any more. -/
structure FamilyAbandoned (w : WalletState) (t : BlockTree) (hashTx : Uint256) (w' : WalletState) :
    Prop where
  family : ∀ hash, w.Family t hashTx hash → w'.IsAbandoned hash
  others : ∀ hash, ¬ w.Family t hashTx hash →
    (w'.mapWallet.lookup hash).map (fun wtx => (wtx.hashBlock,wtx.nIndex)) =
      (w.mapWallet.lookup hash).map fun wtx => (wtx.hashBlock,wtx.nIndex)
  unspent : ∀ hash n, (∀ spender, (⟨hash,n⟩,spender) ∈ w.mapTxSpends → w.Family t hashTx spender) →
    w'.isSpent t hash n = false

/-- Every transaction of the family is abandoned already, or it is the first one or spends from it,
and the first one is not abandoned yet. -/
def OneStep (w : WalletState) (t : BlockTree) (hashTx : Uint256) : Prop :=
  ∀ hash, w.Family t hashTx hash → w.IsAbandoned hash ∨
    ¬ w.IsAbandoned hashTx ∧ (hash = hashTx ∨ w.SpendsFrom hashTx hash)

theorem SpendsListed.mem_spenders (hr : w.SpendsListed) {parent child : Uint256} :
    child ∈ w.spenders parent ↔ w.SpendsFrom parent child := by
  refine ⟨fun h => ?_,hr.toSpendsRecorded.mem_spenders⟩
  obtain ⟨o,hmem,ho⟩ := WalletState.mem_spenders.mp h
  obtain ⟨wtx,hw,hspends⟩ := hr.listed hmem
  exact ⟨wtx,hw,o,hspends,ho⟩

theorem Family.pending {hash : Uint256} (h : w.Family t hashTx hash) :
    w.IsAbandoned hash ∨ w.Pending t hash := by
  obtain ⟨wtx,hw,hdepth⟩ : ∃ wtx, w.mapWallet.lookup hash = some wtx ∧
      wtx.getDepthInMainChain t = 0 := by
    cases h with
    | first hw hdepth => exact ⟨_,hw,hdepth⟩
    | spends _ _ hw hdepth => exact ⟨_,hw,hdepth⟩
  cases habandoned : wtx.isAbandoned with
  | true => exact .inl ⟨wtx,hw,habandoned⟩
  | false => exact .inr ⟨wtx,hw,hdepth,habandoned⟩

theorem Family.start {hash : Uint256} (h : w.Family t hashTx hash) : w.Family t hashTx hashTx := by
  induction h with
  | first hw hdepth => exact .first hw hdepth
  | spends _ _ _ _ ih => exact ih

theorem Pending.not_abandoned {hash : Uint256} (h : w.Pending t hash) : ¬ w.IsAbandoned hash := by
  rintro ⟨wtx,hw,habandoned⟩
  obtain ⟨_,hw',-,hnot⟩ := h
  cases hw.symm.trans hw'
  cases hnot.symm.trans habandoned

theorem abandonTransaction_spec (hr : w.SpendsListed) (hp : w.ParentsFirst t inMempool)
    {origtx : CWalletTx} (hw : w.mapWallet.lookup hashTx = some origtx)
    (hdepth : origtx.getDepthInMainChain t ≤ 0) (hpool : inMempool hashTx = false) :
    ∃ w', (∀ fuel, w.mapWallet.keys.card < fuel →
        abandonLoop t inMempool hashTx fuel {hashTx} ∅ w = .ok w') ∧
      w.abandonTransaction t inMempool hashTx = .ok (w',true) ∧
      Abandoned (fun hash => w.Pending t hashTx ∧ w.Pending t hash ∧
        (hash = hashTx ∨ w.SpendsFrom hashTx hash)) w w' := by
  suffices hloop : ∃ w', (∀ fuel, w.mapWallet.keys.card < fuel →
        abandonLoop t inMempool hashTx fuel {hashTx} ∅ w = .ok w') ∧
      Abandoned (fun hash => w.Pending t hashTx ∧ w.Pending t hash ∧
        (hash = hashTx ∨ w.SpendsFrom hashTx hash)) w w' by
    obtain ⟨w',hrun,habandoned⟩ := hloop
    refine ⟨w',hrun,?_,habandoned⟩
    unfold abandonTransaction
    rw [hw]
    dsimp only
    rw [if_neg (by rw [hpool]; simp [hdepth.not_gt]),hrun _ (Nat.lt_succ_self _)]
    rfl
  have hlist : hashOrder.list {hashTx} = [hashTx] := rfl
  have hkey : hashTx ∈ w.mapWallet.keys := Finmap.mem_keys.mpr (Finmap.mem_of_lookup_eq_some hw)
  have hdepth' : ¬ 0 < w.depth t hashTx := by
    rw [depth_of_lookup hw]
    exact hdepth.not_gt
  by_cases hpending : w.Pending t hashTx
  · obtain ⟨_,hw₀,hzero,hnot⟩ := hpending
    cases hw.symm.trans hw₀
    have hpending : w.Pending t hashTx := ⟨origtx,hw,hzero,hnot⟩
    have hstep := abandoned_setBlock hw
    generalize hw₁ : (w.setTx hashTx (origtx.setBlock ABANDON_HASH (-1)).markDirty).markDirtyInputs
      origtx.tx.vin = w₁ at hstep
    have hspenders : w₁.spenders = w.spenders := by
      funext hash
      unfold spenders
      rw [hstep.mapTxSpends]
    obtain ⟨w',hrun,hrest⟩ := @abandonLoop_waiting w₁ t inMempool hashTx
      (w.spenders hashTx \ {hashTx}) {hashTx} (fun hash hhash => by
        obtain ⟨hin,hne⟩ := Finset.mem_sdiff.mp hhash
        rw [Finset.mem_singleton] at hne
        have hspends := hr.mem_spenders.mp hin
        obtain ⟨wtx,hx,-⟩ := hspends
        obtain ⟨wtx',hx',hxdepth,-⟩ := hstep.lookup_of_not hne hx t
        refine ⟨wtx',hx',?_,Bool.eq_false_iff.mpr fun hin => ?_⟩
        · by_contra hpos
          rw [hxdepth,← depth_of_lookup hx] at hpos
          exact hdepth' (hp.confirmed (hr.mem_spenders.mp (Finset.mem_sdiff.mp hhash).1)
            (Finmap.mem_keys.mp hkey) (not_le.mp hpos))
        · rcases hp.pool (hr.mem_spenders.mp (Finset.mem_sdiff.mp hhash).1)
            (Finmap.mem_keys.mp hkey) hin with hpos | hin
          · exact hdepth' hpos
          · cases hpool.symm.trans hin)
      (fun hash hhash => by
        obtain ⟨hin,hne⟩ := Finset.mem_sdiff.mp hhash
        exact spendersFrom_other (by rwa [hspenders]) fun h => hne (Finset.mem_singleton.mpr h))
    have hcard : (w.spenders hashTx \ {hashTx}).card < w.mapWallet.keys.card := by
      refine Finset.card_lt_card ⟨Finset.sdiff_subset.trans (hr.spenders_sub hashTx),fun h => ?_⟩
      exact (Finset.mem_sdiff.mp (h hkey)).2 (Finset.mem_singleton_self _)
    refine ⟨w',fun fuel hfuel => ?_,(hstep.trans hrest).congr fun hash => ?_⟩
    · obtain ⟨fuel,rfl⟩ := Nat.exists_eq_succ_of_ne_zero (Nat.ne_zero_of_lt hfuel)
      rw [abandonLoop_mark hlist hw hzero hnot hpool,spendersFrom_self,hw₁,
        Finset.erase_singleton,Finset.empty_union,insert_empty_eq]
      exact hrun fuel (by omega)
    · by_cases hh : hash = hashTx
      · subst hh
        exact ⟨fun _ => ⟨hpending,hpending,.inl rfl⟩,fun _ => .inl rfl⟩
      · rw [hstep.pending_iff hh,Finset.mem_sdiff,Finset.mem_singleton,hr.mem_spenders]
        exact ⟨fun h => ⟨hpending,(h.resolve_left hh).2,.inr (h.resolve_left hh).1.1⟩,
          fun h => .inr ⟨⟨h.2.2.resolve_left hh,hh⟩,h.2.1⟩⟩
  · obtain ⟨w',hrun,hrest⟩ := @abandonLoop_waiting w t inMempool hashTx ∅ {hashTx}
      (fun _ h => absurd h (Finset.notMem_empty _)) (fun _ h => absurd h (Finset.notMem_empty _))
    refine ⟨w',fun fuel hfuel => ?_,hrest.congr fun hash => ?_⟩
    · obtain ⟨fuel,rfl⟩ := Nat.exists_eq_succ_of_ne_zero (Nat.ne_zero_of_lt hfuel)
      rw [abandonLoop_skip hlist hw hdepth hpending,Finset.erase_singleton,insert_empty_eq]
      have hpos := Finset.card_pos.mpr ⟨hashTx,hkey⟩
      exact hrun fuel (by
        rw [Finset.card_empty]
        omega)
    · exact ⟨fun h => absurd h.1 (Finset.notMem_empty _),fun h => absurd h.1 hpending⟩

theorem isSpent_of_abandoned {hash : Uint256} {n : UInt32}
    (h : ∀ spender, (⟨hash,n⟩,spender) ∈ w.mapTxSpends → w.IsAbandoned spender) :
    w.isSpent t hash n = false := by
  refine List.any_eq_false.mpr ?_
  rintro ⟨outpoint,wtxid⟩ hmem
  dsimp only
  rw [Bool.and_eq_true,beq_iff_eq]
  rintro ⟨rfl,hspent⟩
  obtain ⟨wtx,hw,habandoned⟩ := h wtxid hmem
  have hdepth : wtx.getDepthInMainChain t = 0 := by
    unfold CWalletTx.getDepthInMainChain CWalletTx.hashUnset
    unfold CWalletTx.isAbandoned at habandoned
    rw [habandoned,Bool.or_true,if_pos rfl]
  rw [hw] at hspent
  dsimp only at hspent
  rw [hdepth,habandoned] at hspent
  cases hspent

/-- A call that returns true abandons the family exactly if it is in one step of the first
transaction, but for transactions that were abandoned before. The loop ends and no assertion fails. -/
theorem abandonTransaction_family (hr : w.SpendsListed) (hp : w.ParentsFirst t inMempool)
    {origtx : CWalletTx} (hw : w.mapWallet.lookup hashTx = some origtx)
    (hdepth : origtx.getDepthInMainChain t ≤ 0) (hpool : inMempool hashTx = false) :
    (∃ w', (∀ fuel, w.mapWallet.keys.card < fuel →
        abandonLoop t inMempool hashTx fuel {hashTx} ∅ w = .ok w') ∧
      w.abandonTransaction t inMempool hashTx = .ok (w',true) ∧ w.FamilyAbandoned t hashTx w') ↔
      w.OneStep t hashTx := by
  obtain ⟨w',hrun,hcall,habandoned⟩ := abandonTransaction_spec hr hp hw hdepth hpool
  have hkept : ∀ {hash}, ¬ (w.Pending t hashTx ∧ w.Pending t hash ∧
      (hash = hashTx ∨ w.SpendsFrom hashTx hash)) → (w'.IsAbandoned hash ↔ w.IsAbandoned hash) := by
    intro hash hnot
    constructor
    · rintro ⟨wtx',hw',h⟩
      cases hold : w.mapWallet.lookup hash with
      | none => exact nomatch (habandoned.absent hold).symm.trans hw'
      | some wtx =>
        obtain ⟨_,heq,-,hsame⟩ := habandoned.lookup_of_not hnot hold t
        cases heq.symm.trans hw'
        exact ⟨wtx,hold,hsame.symm.trans h⟩
    · rintro ⟨wtx,hold,h⟩
      obtain ⟨wtx',heq,-,hsame⟩ := habandoned.lookup_of_not hnot hold t
      exact ⟨wtx',heq,hsame.trans h⟩
  constructor
  · rintro ⟨w'',-,hcall',hfamily⟩ hash hhash
    cases hcall.symm.trans hcall'
    by_cases hmarked : w.Pending t hashTx ∧ w.Pending t hash ∧
        (hash = hashTx ∨ w.SpendsFrom hashTx hash)
    · exact .inr ⟨hmarked.1.not_abandoned,hmarked.2.2⟩
    · exact .inl ((hkept hmarked).mp (hfamily.family hash hhash))
  · intro hone
    have hfamily : ∀ hash, w.Family t hashTx hash → w'.IsAbandoned hash := by
      intro hash hhash
      by_cases hmarked : w.Pending t hashTx ∧ w.Pending t hash ∧
          (hash = hashTx ∨ w.SpendsFrom hashTx hash)
      · obtain ⟨wtx,hold,-⟩ := hmarked.2.1
        obtain ⟨wtx',hw',-,hin,-⟩ := habandoned.present hold
        exact ⟨wtx',hw',beq_iff_eq.mpr (hin hmarked).1⟩
      · refine (hkept hmarked).mpr ?_
        by_contra hnot
        obtain ⟨hfirst,hstep⟩ := (hone hash hhash).resolve_left hnot
        exact hmarked ⟨hhash.start.pending.resolve_left hfirst,hhash.pending.resolve_left hnot,hstep⟩
    refine ⟨w',hrun,hcall,hfamily,fun hash hhash => ?_,fun hash n hspends => ?_⟩
    · have hnot : ¬ (w.Pending t hashTx ∧ w.Pending t hash ∧
          (hash = hashTx ∨ w.SpendsFrom hashTx hash)) := by
        rintro ⟨⟨wtx,hw₁,hzero,-⟩,⟨wtx',hw₂,hzero',-⟩,rfl | hstep⟩
        · exact hhash (.first hw₁ hzero)
        · exact hhash (.spends (.first hw₁ hzero) hstep hw₂ hzero')
      cases hold : w.mapWallet.lookup hash with
      | none => rw [habandoned.absent hold]
      | some wtx =>
        obtain ⟨wtx',hw',-,-,hout⟩ := habandoned.present hold
        obtain ⟨hblock,hindex⟩ := hout hnot
        rw [hw',Option.map_some,Option.map_some,hblock,hindex]
    · refine isSpent_of_abandoned fun spender hmem => hfamily spender (hspends spender ?_)
      rwa [habandoned.mapTxSpends] at hmem

/-- The second transaction spends from the first one and the third one from the second. -/
def spendChain : WalletState where
  mapWallet := ((Finmap.singleton 1 ({ tx := { vout := [⟨1,[]⟩] } } : CWalletTx)).insert 2
    { tx := { vin := [{ prevout := ⟨1,0⟩ }], vout := [⟨1,[]⟩] } }).insert 3
    { tx := { vin := [{ prevout := ⟨2,0⟩ }], vout := [⟨1,[]⟩] } }
  mapTxSpends := [(⟨1,0⟩,2),(⟨2,0⟩,3)]

theorem spendChain_lookup (hash : Uint256) : spendChain.mapWallet.lookup hash =
    if hash = 3 then some { tx := { vin := [{ prevout := ⟨2,0⟩ }], vout := [⟨1,[]⟩] } }
    else if hash = 2 then some { tx := { vin := [{ prevout := ⟨1,0⟩ }], vout := [⟨1,[]⟩] } }
    else if hash = 1 then some { tx := { vout := [⟨1,[]⟩] } } else none := by
  unfold spendChain
  split_ifs with h3 h2 h1
  · rw [h3,Finmap.lookup_insert]
  · rw [h2,Finmap.lookup_insert_of_ne _ (by decide),Finmap.lookup_insert]
  · rw [h1,Finmap.lookup_insert_of_ne _ (by decide),Finmap.lookup_insert_of_ne _ (by decide)]
    exact Finmap.lookup_singleton_eq
  · rw [Finmap.lookup_insert_of_ne _ h3,Finmap.lookup_insert_of_ne _ h2]
    exact Finmap.lookup_eq_none.mpr fun h => h1 ((Finmap.mem_singleton ..).mp h)

theorem spendChain_spends {hash : Uint256} {wtx : CWalletTx} {o : COutPoint}
    (hw : spendChain.mapWallet.lookup hash = some wtx) (ho : o ∈ wtx.tx.spends) :
    hash = 3 ∧ o = ⟨2,0⟩ ∨ hash = 2 ∧ o = ⟨1,0⟩ := by
  rw [spendChain_lookup] at hw
  split_ifs at hw with h3 h2 h1
  · cases hw
    exact .inl ⟨h3,List.mem_singleton.mp ho⟩
  · cases hw
    exact .inr ⟨h2,List.mem_singleton.mp ho⟩
  · cases hw
    cases ho

theorem spendChain_listed : spendChain.SpendsListed where
  recorded hw ho := by
    rcases spendChain_spends hw ho with ⟨rfl,rfl⟩ | ⟨rfl,rfl⟩
    · exact List.mem_cons_of_mem _ List.mem_cons_self
    · exact List.mem_cons_self
  mem hmem := by
    refine Finmap.mem_iff.mpr ?_
    rcases List.mem_cons.mp hmem with heq | hmem
    · cases heq
      exact ⟨_,spendChain_lookup 2⟩
    · cases List.mem_singleton.mp hmem
      exact ⟨_,spendChain_lookup 3⟩
  listed hmem := by
    rcases List.mem_cons.mp hmem with heq | hmem
    · cases heq
      exact ⟨_,spendChain_lookup 2,List.mem_cons_self⟩
    · cases List.mem_singleton.mp hmem
      exact ⟨_,spendChain_lookup 3,List.mem_cons_self⟩

theorem spendChain_depth (t : BlockTree) {hash : Uint256} {wtx : CWalletTx}
    (hw : spendChain.mapWallet.lookup hash = some wtx) : wtx.getDepthInMainChain t = 0 := by
  rw [spendChain_lookup] at hw
  split_ifs at hw <;> cases hw <;> rfl

theorem spendChain_parents : spendChain.ParentsFirst {} fun _ => false where
  confirmed hspends _ hpos := by
    obtain ⟨wtx,hw,-⟩ := hspends
    rw [depth_of_lookup hw,spendChain_depth {} hw] at hpos
    exact absurd hpos (lt_irrefl _)
  pool _ _ h := nomatch h

theorem spendChain_second : spendChain.SpendsFrom 1 2 :=
  ⟨_,spendChain_lookup 2,⟨1,0⟩,List.mem_cons_self,rfl⟩

theorem spendChain_third : spendChain.SpendsFrom 2 3 :=
  ⟨_,spendChain_lookup 3,⟨2,0⟩,List.mem_cons_self,rfl⟩

/-- The last one but one is abandoned together with the last one. -/
theorem abandonTransaction_family_last :
    ∃ w', spendChain.abandonTransaction {} (fun _ => false) 2 = .ok (w',true) ∧
      spendChain.FamilyAbandoned {} 2 w' := by
  obtain ⟨w',-,hcall,hfamily⟩ := (abandonTransaction_family spendChain_listed spendChain_parents
    (spendChain_lookup 2) (spendChain_depth {} (spendChain_lookup 2)).le rfl).mpr (by
      have hnot : ¬ spendChain.IsAbandoned 2 := by
        rintro ⟨wtx,hw,h⟩
        cases (spendChain_lookup 2).symm.trans hw
        cases h
      intro hash hhash
      refine .inr ⟨hnot,?_⟩
      induction hhash with
      | first => exact .inl rfl
      | spends _ hspends hw _ ih =>
        obtain ⟨wtx,hw,o,ho,hhash⟩ := hspends
        rcases spendChain_spends hw ho with ⟨rfl,rfl⟩ | ⟨rfl,rfl⟩
        · exact .inr spendChain_third
        · exact .inl rfl)
  exact ⟨w',hcall,hfamily⟩

/-- When the first one is abandoned, the third one is not. -/
theorem abandonTransaction_leaves :
    spendChain.SpendsListed ∧ spendChain.ParentsFirst {} (fun _ => false) ∧
      spendChain.Family {} 1 3 ∧
      ∃ w', spendChain.abandonTransaction {} (fun _ => false) 1 = .ok (w',true) ∧
        ¬ w'.IsAbandoned 3 := by
  have hdepth := fun {hash wtx} => @spendChain_depth {} hash wtx
  refine ⟨spendChain_listed,spendChain_parents,?_,?_⟩
  · have hfirst : spendChain.Family {} 1 1 := .first (spendChain_lookup 1) (hdepth (spendChain_lookup 1))
    have hsecond := hfirst.spends spendChain_second (spendChain_lookup 2) (hdepth (spendChain_lookup 2))
    exact hsecond.spends spendChain_third (spendChain_lookup 3) (hdepth (spendChain_lookup 3))
  · obtain ⟨w',-,hcall,habandoned⟩ := abandonTransaction_spec spendChain_listed spendChain_parents
      (spendChain_lookup 1) (hdepth (spendChain_lookup 1)).le rfl
    refine ⟨w',hcall,?_⟩
    rintro ⟨wtx,hw,h⟩
    obtain ⟨wtx',hw',-,hsame⟩ := habandoned.lookup_of_not (by
      rintro ⟨-,-,heq | ⟨x,hx,o,ho,hhash⟩⟩
      · exact absurd heq (by decide)
      · rcases spendChain_spends hx ho with ⟨-,rfl⟩ | ⟨heq,-⟩
        · exact absurd hhash (by decide)
        · exact absurd heq (by decide)) (spendChain_lookup 3) {}
    cases hw'.symm.trans hw
    rw [hsame] at h
    cases h

end WalletState
end Sidechain
