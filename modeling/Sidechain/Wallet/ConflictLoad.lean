import Sidechain.Wallet.ConflictClosed

/-! Loading a record: it takes over the conflicts of the transactions it spends from, if they have
been loaded. -/
namespace Sidechain
open FiniteMap Run Worklist

namespace WalletState

variable {w w' : WalletState} {t t' : BlockTree}

theorem depth_neg {wtx : CWalletTx} (h : wtx.getDepthInMainChain t < 0) :
    wtx.nIndex = -1 ∧ wtx.hashUnset = false ∧ wtx.hashBlock ∈ t.mapBlockIndex ∧
      t.contains wtx.hashBlock = true ∧
        wtx.getDepthInMainChain t = conflictConfirms t wtx.hashBlock := by
  have hindex : wtx.nIndex = -1 := by
    by_contra hne
    exact absurd h (not_lt.mpr (depth_nonneg hne t))
  unfold CWalletTx.getDepthInMainChain conflictConfirms at *
  cases hunset : wtx.hashUnset with
  | true => simp [hunset] at h
  | false =>
    by_cases hmem : wtx.hashBlock ∈ t.mapBlockIndex
    · cases hactive : t.contains wtx.hashBlock with
      | false => simp [hunset,hmem,hactive] at h
      | true => simp [hindex,hmem]
    · simp [hunset,hmem] at h

/-- A property of depths goes down from a conflicted transaction to what spends it. -/
def Inherits (w : WalletState) (Q : Uint256 → ℤ → Prop) : Prop :=
  ∀ {x y d}, y ∈ w.spenders x → d < 0 → Q x d → Q y d

theorem Inherits.reaches {Q : Uint256 → ℤ → Prop} (hQ : w.Inherits Q) {x y : Uint256} {d : ℤ}
    (h : Reaches w.spenders x y) (hd : d < 0) (hx : Q x d) : Q y d := by
  induction h with
  | refl => exact hx
  | tail _ hmem ih => exact hQ hmem hd ih

/-- Some inputs of a record have been gone through. -/
structure Inherited (t : BlockTree) (hash : Uint256) (vin : List CTxIn) (w w' : WalletState) : Prop
    extends MarkedBy t (· = hash) w w' where
  parents : ∀ txin ∈ vin, w.SpendsFrom txin.prevout.hash hash →
    w'.Follows t txin.prevout.hash hash
  children : w'.depth t hash = w.depth t hash ∨
    ∀ child, w.SpendsFrom hash child → w'.Follows t hash child
  origin : ∀ Q : Uint256 → ℤ → Prop, w.Inherits Q →
    (∀ txin ∈ vin, txin.prevout.hash ∈ w.mapWallet → hash ∈ w.spenders txin.prevout.hash) →
      (∀ x, Q x (w.depth t x)) → ∀ x, Q x (w'.depth t x)

theorem Inherited.same {hash : Uint256} {vin : List CTxIn}
    (h : ∀ txin ∈ vin, ¬ w.depth t txin.prevout.hash < 0) : Inherited t hash vin w w :=
  ⟨MarkedBy.refl t _ w,fun txin hin _ hneg => absurd hneg (h txin hin),Or.inl rfl,
    fun _ _ _ hq => hq⟩

theorem Inherited.trans {hash : Uint256} {txin : CTxIn} {vin : List CTxIn} {w'' : WalletState}
    (h : Inherited t hash [txin] w w') (h' : Inherited t hash vin w' w'') :
    Inherited t hash (txin::vin) w w'' where
  toMarkedBy := h.toMarkedBy.trans h'.toMarkedBy
  parents i hi hs := by
    rcases List.mem_cons.mp hi with rfl | hi
    · exact h'.follows (h.spendsFrom.mpr hs) (h.parents i List.mem_cons_self hs)
    · exact h'.parents i hi (h.spendsFrom.mpr hs)
  children := by
    rcases h'.children with heq' | hall'
    · rcases h.children with heq | hall
      · exact Or.inl (heq'.trans heq)
      · exact Or.inr fun child hs => h'.follows (h.spendsFrom.mpr hs) (hall child hs)
    · exact Or.inr fun child hs => hall' child (h.spendsFrom.mpr hs)
  origin Q hQ hin hq := by
    refine h'.origin Q ?_ (fun i hi hmem => ?_) (h.origin Q hQ (fun i hi => ?_) hq)
    · rw [Inherits,h.spenders]
      exact hQ
    · rw [h.spenders]
      exact hin i (List.mem_cons_of_mem _ hi) (h.mem_iff.mp hmem)
    · rw [List.mem_singleton] at hi
      exact hin i (hi ▸ List.mem_cons_self)

theorem inheritConflict_spec (ht : PlainHashes t) (hr : SpendsRecorded w) {hash : Uint256}
    (hmem : hash ∈ w.mapWallet) (txin : CTxIn) :
    ∃ w', w.inheritConflict t hash txin = .ok w' ∧ Inherited t hash [txin] w w' := by
  unfold inheritConflict
  cases hprev : w.mapWallet.lookup txin.prevout.hash with
  | none =>
    refine ⟨w,rfl,Inherited.same fun i hi => ?_⟩
    rw [List.mem_singleton] at hi
    unfold depth
    rw [hi,hprev]
    exact lt_irrefl 0
  | some prevtx =>
    have hparent := depth_of_lookup (t := t) hprev
    dsimp only
    split_ifs with hmark
    swap
    · refine ⟨w,rfl,Inherited.same fun i hi hneg => ?_⟩
      rw [List.mem_singleton] at hi
      rw [hi,hparent] at hneg
      obtain ⟨hindex,hunset,_⟩ := depth_neg hneg
      exact hmark ⟨hindex,by rw [hunset]; rfl⟩
    obtain ⟨w',hw',h⟩ := markConflicted_spec ht hr prevtx.hashBlock hmem
    have hm := h.markedBy hr
    refine ⟨w',hw',hm.mono (fun s hs => hs.1),fun i hi hs hneg => ?_,?_,fun Q hQ hin hq x => ?_⟩
    · rw [List.mem_singleton] at hi
      subst hi
      rcases h.depth i.prevout.hash with heq | ⟨_,_,heq,_,hspread⟩
      · rw [heq,hparent] at hneg
        obtain ⟨_,_,_,_,hconf⟩ := depth_neg hneg
        rw [heq,hparent,hconf]
        exact h.deep (hconf ▸ hneg)
      · rw [heq]
        exact hspread hash (hr.mem_spenders hs)
    · rcases h.depth hash with heq | ⟨_,_,heq,_,hspread⟩
      · exact Or.inl heq
      · refine Or.inr fun child hs _ => ?_
        rw [heq]
        exact hspread child (hr.mem_spenders hs)
    · rcases h.depth x with heq | ⟨hneg,_,heq,hreach,_⟩
      · rw [heq]
        exact hq x
      · have hconf := depth_mark ht hneg prevtx rfl hmark.1
        have hself := hq txin.prevout.hash
        rw [hparent,hconf] at hself
        rw [heq]
        refine hQ.reaches hreach hneg (hQ (hin txin List.mem_cons_self ?_) hneg hself)
        exact Finmap.mem_iff.mpr ⟨prevtx,hprev⟩

theorem inheritConflicts_spec (ht : PlainHashes t) (hr : SpendsRecorded w) {hash : Uint256}
    (hmem : hash ∈ w.mapWallet) (vin : List CTxIn) :
    ∃ w', vin.foldlM (fun w txin => w.inheritConflict t hash txin) w = .ok w' ∧
      Inherited t hash vin w w' := by
  induction vin generalizing w with
  | nil => exact ⟨w,rfl,Inherited.same fun i hi => nomatch hi⟩
  | cons txin vin ih =>
    obtain ⟨w1,hone,h1⟩ := inheritConflict_spec ht hr hmem txin
    obtain ⟨w2,hrest,h2⟩ := ih (hr.refreshed h1.toRefreshed) (h1.mem_iff.mpr hmem)
    exact ⟨w2,by rw [List.foldlM_cons]; exact bind_ok.mpr ⟨w1,hone,hrest⟩,h1.trans h2⟩

section
variable [Crypto] {wtxIn : CWalletTx}

/-- A record that is loaded as conflicted has a parent that is more deeply conflicted, or finds what
spends it conflicted as deeply. -/
def LoadKeeps (w : WalletState) (t : BlockTree) (wtxIn : CWalletTx) : Prop :=
  wtxIn.getDepthInMainChain t < 0 →
    (∃ o ∈ wtxIn.tx.spends, o.hash ≠ wtxIn.tx.getHash ∧
      w.depth t o.hash < wtxIn.getDepthInMainChain t) ∨
    ∀ child, child ≠ wtxIn.tx.getHash → w.SpendsFrom wtxIn.tx.getHash child →
      w.depth t child ≤ wtxIn.getDepthInMainChain t

omit [Crypto] in
theorem spends_sub_vin {tx : CTransaction} {o : COutPoint} (ho : o ∈ tx.spends) :
    ∃ txin ∈ tx.vin, txin.prevout = o := by
  unfold CTransaction.spends at ho
  split_ifs at ho
  · cases ho
  · exact List.mem_map.mp ho

theorem load_cases (ht : PlainHashes t) (hr : SpendsRecorded w)
    (hstep : w.addToWalletFromLoad t wtxIn = .ok w') :
    ∃ w1, Added w w1 wtxIn.tx.getHash wtxIn.markDirty ∧
      Inherited t wtxIn.tx.getHash wtxIn.tx.vin w1 w' := by
  obtain ⟨w1,hadd,h1⟩ := w.setTx_addToSpends wtxIn.tx.getHash wtxIn.markDirty
  obtain ⟨w1',hadd',hrest⟩ := bind_ok.mp hstep
  cases hadd.symm.trans hadd'
  obtain ⟨w2,hfold,h2⟩ := inheritConflicts_spec ht (h1.recorded_all hr)
    (Finmap.mem_iff.mpr ⟨_,h1.lookup⟩) wtxIn.tx.vin
  cases hfold.symm.trans hrest
  exact ⟨w1,h1,h2⟩

theorem ConflictClosed.load (hc : w.ConflictClosed t) (hr : SpendsRecorded w) (ht : PlainHashes t)
    (hkeeps : w.LoadKeeps t wtxIn) (hstep : w.addToWalletFromLoad t wtxIn = .ok w') :
    w'.ConflictClosed t ∧ SpendsRecorded w' := by
  obtain ⟨w1,h1,h2⟩ := load_cases ht hr hstep
  refine ⟨fun parent child hs => ?_,(h1.recorded_all hr).refreshed h2.toRefreshed⟩
  have hs1 := h2.spendsFrom.mp hs
  have hparents : ∀ {p}, w1.SpendsFrom p wtxIn.tx.getHash → w'.Follows t p wtxIn.tx.getHash := by
    intro p hp
    have hp' := hp
    obtain ⟨_,hw,o,ho,rfl⟩ := hp
    cases h1.lookup.symm.trans hw
    obtain ⟨txin,hin,rfl⟩ := spends_sub_vin ho
    exact h2.parents txin hin hp'
  have hdepth : w1.depth t wtxIn.tx.getHash = wtxIn.getDepthInMainChain t := by
    rw [h1.depth,if_pos rfl,CWalletTx.depth_markDirty]
  by_cases hchild : child = wtxIn.tx.getHash
  · subst hchild
    exact hparents hs1
  by_cases hparent : parent = wtxIn.tx.getHash
  swap
  · refine h2.follows hs1 fun hneg => ?_
    rw [h1.depth,if_neg hparent] at hneg
    rw [h1.depth,if_neg hchild,h1.depth,if_neg hparent]
    exact hc parent child ((h1.spendsFrom hchild).mp hs1) hneg
  subst hparent
  rcases h2.children with hsame | hall
  swap
  · exact hall child hs1
  by_cases hneg : wtxIn.getDepthInMainChain t < 0
  swap
  · intro hneg'
    rw [hsame,hdepth] at hneg'
    exact absurd hneg' hneg
  rcases hkeeps hneg with ⟨o,ho,hne,hless⟩ | hchildren
  · -- a more deeply conflicted parent would have marked the record
    have hfollow := hparents ⟨_,h1.lookup,o,ho,rfl⟩
    have hle := h2.le o.hash
    rw [h1.depth,if_neg hne] at hle
    have := hfollow (by omega)
    rw [hsame,hdepth] at this
    omega
  · refine h2.follows hs1 fun _ => ?_
    rw [hdepth,h1.depth,if_neg hchild]
    exact hchildren child hchild ((h1.spendsFrom hchild).mp hs1)

/-- The second hash is that of a record that spends an output of the first one. -/
def RecordSpends (records : List CWalletTx) (parent child : Uint256) : Prop :=
  ∃ record ∈ records, record.tx.getHash = child ∧ ∃ o ∈ record.tx.spends, o.hash = parent

/-- Records are loaded one after the other, each of them under the condition. -/
inductive Loaded (t : BlockTree) (w : WalletState) : List CWalletTx → WalletState → Prop
  | nil : Loaded t w [] w
  | load {records : List CWalletTx} {w1 w2 : WalletState} {wtxIn : CWalletTx}
      (run : Loaded t w records w1) (hkeeps : w1.LoadKeeps t wtxIn)
      (hstep : w1.addToWalletFromLoad t wtxIn = .ok w2) : Loaded t w (records ++ [wtxIn]) w2

/-- The depths after loading come from the records: a transaction is as deep as its record says, or
as a conflicted record it depends on. -/
structure FromRecords (t : BlockTree) (records : List CWalletTx) (w : WalletState) : Prop
    extends SpendsRecorded w where
  closed : w.ConflictClosed t
  mem_wallet : ∀ x, x ∈ w.mapWallet ↔ ∃ record ∈ records, record.tx.getHash = x
  spends : ∀ {o x}, (o,x) ∈ w.mapTxSpends → ∃ record ∈ records, record.tx.getHash = x ∧
    o ∈ record.tx.spends
  wallet : ∀ {record}, record ∈ records → ∃ wtx,
    w.mapWallet.lookup record.tx.getHash = some wtx ∧ wtx.tx = record.tx
  le : ∀ record ∈ records, w.depth t record.tx.getHash ≤ record.getDepthInMainChain t
  same : ∀ record ∈ records, w.depth t record.tx.getHash < 0 ∨
    w.depth t record.tx.getHash = record.getDepthInMainChain t
  origin : ∀ x, w.depth t x < 0 → ∃ record ∈ records,
    record.getDepthInMainChain t = w.depth t x ∧
      Relation.ReflTransGen (RecordSpends records) record.tx.getHash x

theorem FromRecords.empty (isMine : CScript → IsMineType) : FromRecords t [] { isMine } where
  recorded hw _ := nomatch hw
  mem hmem := nomatch hmem
  closed := by
    rintro _ _ ⟨_,hw,_⟩
    exact nomatch hw
  mem_wallet x := ⟨fun h => absurd h (Finmap.notMem_empty),fun ⟨_,hin,_⟩ => nomatch hin⟩
  spends hmem := nomatch hmem
  wallet hin := nomatch hin
  le _ hin := nomatch hin
  same _ hin := nomatch hin
  origin x h := absurd h (lt_irrefl 0)

theorem RecordSpends.append {records : List CWalletTx} {parent child : Uint256}
    (h : RecordSpends records parent child) (more : List CWalletTx) :
    RecordSpends (records ++ more) parent child := by
  obtain ⟨record,hin,hrecord⟩ := h
  exact ⟨record,List.mem_append_left _ hin,hrecord⟩

omit [Crypto] in
theorem Added.mem_iff {hash : Uint256} {wtx : CWalletTx} (h : Added w w' hash wtx) {x : Uint256} :
    x ∈ w'.mapWallet ↔ x ∈ w.mapWallet ∨ x = hash := by
  rw [Finmap.mem_iff,Finmap.mem_iff]
  by_cases hx : x = hash
  · subst hx
    exact ⟨fun _ => Or.inr rfl,fun _ => ⟨wtx,h.lookup⟩⟩
  · rw [h.others hx]
    exact ⟨Or.inl,fun hor => hor.resolve_right hx⟩

omit [Crypto] in
theorem Added.input_recorded {hash : Uint256} {wtx : CWalletTx} (h : Added w w' hash wtx)
    (hnull : (0 : Uint256) ∉ w'.mapWallet) {txin : CTxIn} (hin : txin ∈ wtx.tx.vin)
    (hmem : txin.prevout.hash ∈ w'.mapWallet) : hash ∈ w'.spenders txin.prevout.hash := by
  refine mem_spenders.mpr ⟨txin.prevout,h.recorded ?_,rfl⟩
  unfold CTransaction.spends
  split_ifs with hcoinbase
  · unfold CTransaction.isCoinBase at hcoinbase
    split at hcoinbase
    · rename_i i hvin
      rw [hvin,List.mem_singleton] at hin
      subst hin
      unfold COutPoint.isNull at hcoinbase
      rw [Bool.and_eq_true,beq_iff_eq] at hcoinbase
      exact absurd (hcoinbase.1 ▸ hmem) hnull
    · cases hcoinbase
  · exact List.mem_map_of_mem hin

theorem FromRecords.added {records : List CWalletTx} (h : FromRecords t records w)
    (h1 : Added w w1 wtxIn.tx.getHash wtxIn.markDirty) :
    (∀ x, x ∈ w1.mapWallet ↔ ∃ record ∈ records ++ [wtxIn], record.tx.getHash = x) ∧
      ∀ {o x}, (o,x) ∈ w1.mapTxSpends → ∃ record ∈ records ++ [wtxIn],
        record.tx.getHash = x ∧ o ∈ record.tx.spends := by
  have hlast : wtxIn ∈ records ++ [wtxIn] := List.mem_append_right _ List.mem_cons_self
  constructor
  · intro x
    rw [h1.mem_iff,h.mem_wallet]
    constructor
    · rintro (⟨record,hin,hx⟩ | rfl)
      · exact ⟨record,List.mem_append_left _ hin,hx⟩
      · exact ⟨wtxIn,hlast,rfl⟩
    · rintro ⟨record,hin,hx⟩
      rcases List.mem_append.mp hin with hin | hin
      · exact Or.inl ⟨record,hin,hx⟩
      · exact Or.inr (List.mem_singleton.mp hin ▸ hx.symm)
  · intro o x hox
    rcases h1.spends with heq | heq
    · obtain ⟨record,hin,hrecord⟩ := h.spends (heq ▸ hox)
      exact ⟨record,List.mem_append_left _ hin,hrecord⟩
    · rw [heq] at hox
      rcases List.mem_append.mp hox with hox | hox
      · obtain ⟨record,hin,hrecord⟩ := h.spends hox
        exact ⟨record,List.mem_append_left _ hin,hrecord⟩
      · obtain ⟨_,ho,hpair⟩ := List.mem_map.mp hox
        obtain ⟨rfl,rfl⟩ := Prod.mk.inj hpair
        exact ⟨wtxIn,hlast,rfl,ho⟩

theorem FromRecords.load {records : List CWalletTx} (h : FromRecords t records w)
    (ht : PlainHashes t) (hkeeps : w.LoadKeeps t wtxIn)
    (hnew : ∀ record ∈ records, record.tx.getHash ≠ wtxIn.tx.getHash)
    (hnull : ∀ record ∈ records ++ [wtxIn], record.tx.getHash ≠ 0)
    (hstep : w.addToWalletFromLoad t wtxIn = .ok w') : FromRecords t (records ++ [wtxIn]) w' := by
  obtain ⟨w1,h1,h2⟩ := load_cases ht h.toSpendsRecorded hstep
  obtain ⟨hclosed,hrecorded⟩ := h.closed.load h.toSpendsRecorded ht hkeeps hstep
  have hlast : wtxIn ∈ records ++ [wtxIn] := List.mem_append_right _ List.mem_cons_self
  obtain ⟨hmem,hspends⟩ := h.added h1
  have hnull1 : (0 : Uint256) ∉ w1.mapWallet := by
    rw [hmem]
    rintro ⟨record,hin,hzero⟩
    exact hnull record hin hzero
  have hinputs : ∀ txin ∈ wtxIn.tx.vin, txin.prevout.hash ∈ w1.mapWallet →
      wtxIn.tx.getHash ∈ w1.spenders txin.prevout.hash :=
    fun _ hin hparent => h1.input_recorded hnull1 hin hparent
  have hdepth : ∀ record ∈ records, w1.depth t record.tx.getHash = w.depth t record.tx.getHash := by
    intro record hin
    rw [h1.depth,if_neg (hnew record hin)]
  have hself : w1.depth t wtxIn.tx.getHash = wtxIn.getDepthInMainChain t := by
    rw [h1.depth,if_pos rfl,CWalletTx.depth_markDirty]
  -- a depth that changes becomes negative
  have hsame : ∀ x, w'.depth t x < 0 ∨ w'.depth t x = w1.depth t x :=
    h2.origin (fun x d => d < 0 ∨ d = w1.depth t x) (fun _ hneg _ => Or.inl hneg) hinputs
      fun _ => Or.inr rfl
  refine ⟨hrecorded,hclosed,fun x => h2.mem_iff.trans (hmem x),fun hox => ?_,fun {record} hin => ?_,
    fun record hin => ?_,fun record hin => ?_,?_⟩
  · rw [h2.mapTxSpends] at hox
    exact hspends hox
  · obtain ⟨wtx,hw,htx⟩ : ∃ wtx, w1.mapWallet.lookup record.tx.getHash = some wtx ∧
        wtx.tx = record.tx := by
      rcases List.mem_append.mp hin with hin | hin
      · rw [h1.others (hnew record hin)]
        exact h.wallet hin
      · rw [List.mem_singleton.mp hin]
        exact ⟨_,h1.lookup,rfl⟩
    obtain ⟨wtx',hw',hk,_⟩ := h2.present hw
    exact ⟨wtx',hw',hk.tx.trans htx⟩
  · refine (h2.le _).trans ?_
    rcases List.mem_append.mp hin with hin | hin
    · exact (hdepth record hin).trans_le (h.le record hin)
    · rw [List.mem_singleton.mp hin]
      exact hself.le
  · rcases hsame record.tx.getHash with hneg | heq
    · exact Or.inl hneg
    · rw [heq]
      rcases List.mem_append.mp hin with hin | hin
      · rw [hdepth record hin]
        exact h.same record hin
      · rw [List.mem_singleton.mp hin]
        exact Or.inr hself
  · refine h2.origin (fun x d => d < 0 → ∃ record ∈ records ++ [wtxIn],
      record.getDepthInMainChain t = d ∧ Relation.ReflTransGen (RecordSpends (records ++ [wtxIn]))
        record.tx.getHash x) ?_ hinputs fun x hneg => ?_
    · intro x y d hy hneg hx _
      obtain ⟨record,hin,hd,hreach⟩ := hx hneg
      obtain ⟨o,hox,hhash⟩ := mem_spenders.mp hy
      obtain ⟨child,hchild,hy,ho⟩ := hspends hox
      exact ⟨record,hin,hd,hreach.tail ⟨child,hchild,hy,o,ho,hhash⟩⟩
    · by_cases hx : x = wtxIn.tx.getHash
      · rw [hx]
        exact ⟨wtxIn,hlast,hself.symm,.refl⟩
      · rw [h1.depth,if_neg hx] at hneg ⊢
        obtain ⟨record,hin,hd,hreach⟩ := h.origin x hneg
        exact ⟨record,List.mem_append_left _ hin,hd,
          Relation.ReflTransGen.mono (fun _ _ hs => hs.append _) _ _ hreach⟩

theorem Loaded.fromRecords {records : List CWalletTx} {isMine : CScript → IsMineType}
    (ht : PlainHashes t) (h : Loaded t { isMine } records w)
    (hnodup : (records.map fun record => record.tx.getHash).Nodup)
    (hnull : ∀ record ∈ records, record.tx.getHash ≠ 0) : FromRecords t records w := by
  induction h with
  | nil => exact FromRecords.empty isMine
  | load _ hkeeps hstep ih =>
    rw [List.map_append,List.nodup_append] at hnodup
    refine (ih hnodup.1 fun record hin => hnull record (List.mem_append_left _ hin)).load ht hkeeps
      (fun record hin => ?_) hnull hstep
    exact hnodup.2.2 _ (List.mem_map_of_mem hin) _ (List.mem_map_of_mem List.mem_cons_self)

theorem FromRecords.le_of_reaches {records : List CWalletTx} (h : FromRecords t records w)
    {record : CWalletTx} (hin : record ∈ records) (hneg : record.getDepthInMainChain t < 0)
    {x : Uint256} (hreach : Relation.ReflTransGen (RecordSpends records) record.tx.getHash x) :
    w.depth t x ≤ record.getDepthInMainChain t := by
  induction hreach with
  | refl => exact h.le record hin
  | tail _ hs ih =>
    obtain ⟨child,hchild,rfl,o,ho,rfl⟩ := hs
    obtain ⟨wtx,hw,htx⟩ := h.wallet hchild
    have hfollow := h.closed o.hash child.tx.getHash ⟨wtx,hw,o,htx ▸ ho,rfl⟩
    exact (hfollow (by omega)).trans ih

/-- Two wallets loaded from the same records: the second one has everything that is conflicted in
the first one as deeply. -/
theorem FromRecords.le_of_sub {records records' : List CWalletTx} {w1 w2 : WalletState}
    (h1 : FromRecords t records w1) (h2 : FromRecords t records' w2) (hsub : records ⊆ records')
    {x : Uint256} (hneg : w1.depth t x < 0) : w2.depth t x ≤ w1.depth t x := by
  obtain ⟨record,hin,hd,hreach⟩ := h1.origin x hneg
  rw [← hd] at hneg ⊢
  have hmono : ∀ a b, RecordSpends records a b → RecordSpends records' a b := by
    rintro _ _ ⟨child,hchild,hs⟩
    exact ⟨child,hsub hchild,hs⟩
  exact h2.le_of_reaches (hsub hin) hneg (Relation.ReflTransGen.mono hmono _ _ hreach)

theorem FromRecords.depth_eq {records records' : List CWalletTx} {w1 w2 : WalletState}
    (h1 : FromRecords t records w1) (h2 : FromRecords t records' w2)
    (hperm : records.Perm records') (x : Uint256) : w1.depth t x = w2.depth t x := by
  have hle : w1.depth t x < 0 → w2.depth t x ≤ w1.depth t x := h1.le_of_sub h2 hperm.subset
  have hge : w2.depth t x < 0 → w1.depth t x ≤ w2.depth t x := h2.le_of_sub h1 hperm.symm.subset
  by_cases hmem : ∃ record ∈ records, record.tx.getHash = x
  · obtain ⟨record,hin,rfl⟩ := hmem
    have hs1 := h1.same record hin
    have hs2 := h2.same record (hperm.subset hin)
    omega
  · have hnone : w1.depth t x = 0 := by
      unfold depth
      rw [Finmap.lookup_eq_none.mpr fun h => hmem ((h1.mem_wallet x).mp h)]
    have hnone' : w2.depth t x = 0 := by
      unfold depth
      rw [Finmap.lookup_eq_none.mpr fun h => ?_]
      obtain ⟨record,hin,hx⟩ := (h2.mem_wallet x).mp h
      exact hmem ⟨record,hperm.symm.subset hin,hx⟩
    rw [hnone,hnone']

end

end WalletState
end Sidechain
