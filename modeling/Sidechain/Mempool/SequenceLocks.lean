import Sidechain.Mempool.InputFinal
import Sidechain.Validation.ChainCoins

/-! The verdict on relative lock times in the pool is that of the next block, and it stays positive
while the chain only grows. -/
namespace Sidechain
open CBlockIndex Run

section
variable {block pprev block' pprev' : CBlockIndex} {txin : CTxIn}

/-- A lock on confirmed coins that is met once stays met. -/
theorem InputFinal.grow {nCoinHeight : ℕ} (h : InputFinal block block pprev txin nCoinHeight)
    (hpprev : block.pprev = some pprev) (hpprev' : block'.pprev = some pprev')
    (hext : Extends block.ancestors block'.ancestors) (hheight : nCoinHeight ≤ block.nHeight) :
    InputFinal block' block' pprev' txin nCoinHeight := by
  have hlen : block.nHeight ≤ block'.nHeight := hext.suffix.length_le
  have hpos : block.nHeight = pprev.nHeight + 1 := nHeight_ofPath hpprev
  have hmedian := hext.medianTimePast_le
  intro hon
  obtain ⟨htime,hblocks⟩ := h hon
  refine ⟨fun htype ancestor hancestor => ?_,fun htype => (hblocks htype).trans hlen⟩
  have hlt : nCoinHeight - 1 < block.nHeight := by omega
  rw [getAncestor_of_lt (hlt.trans_le hlen),upTo_of_suffix hext.suffix hlt,
    ← getAncestor_of_lt hlt] at hancestor
  have hmet := htime htype ancestor hancestor
  rw [getMedianTimePast_ofPath hpprev] at hmet
  rw [getMedianTimePast_ofPath hpprev']
  omega

/-- The input waits for nothing. -/
def CTxIn.NoLock (txin : CTxIn) : Prop := txin.lockDisabled = false → txin.lockValue = 0

theorem InputFinal.noLock (h : InputFinal block block pprev txin block.nHeight)
    (hpprev : block.pprev = some pprev) : txin.NoLock := by
  have hpos : block.nHeight = pprev.nHeight + 1 := nHeight_ofPath hpprev
  have hlen : block.ancestors.length = block.nHeight := rfl
  intro hon
  obtain ⟨htime,hblocks⟩ := h hon
  by_cases htype : txin.lockedByTime
  · have hself : block.getAncestor (block.nHeight - 1 : ℕ) = some pprev := by
      rw [getAncestor_of_lt (by omega),upTo,hlen,Nat.sub_self,List.drop_zero]
      exact hpprev
    have hmet := htime htype pprev hself
    rw [Nat.shiftLeft_eq,show SEQUENCE_LOCKTIME_GRANULARITY = 9 from rfl] at hmet
    omega
  · have := hblocks htype
    omega

theorem CTxIn.NoLock.final (h : txin.NoLock) {nCoinHeight : ℕ}
    (hmedian : ∀ ancestor, block.getAncestor (nCoinHeight - 1 : ℕ) = some ancestor →
      ancestor.getMedianTimePast ≤ pprev.getMedianTimePast)
    (hhigh : nCoinHeight ≤ block.nHeight) : InputFinal block block pprev txin nCoinHeight := by
  intro hon
  rw [h hon,Nat.zero_shiftLeft]
  refine ⟨fun _ ancestor hancestor => ?_,fun _ => hhigh⟩
  have := hmedian ancestor hancestor
  omega

theorem InputFinal.confirm (h : InputFinal block block pprev txin block.nHeight)
    (hpprev : block.pprev = some pprev) (hpprev' : block'.pprev = some pprev')
    (hext : Extends block.ancestors block'.ancestors) {nCoinHeight : ℕ}
    (hlow : block.nHeight ≤ nCoinHeight) (hhigh : nCoinHeight ≤ block'.nHeight) :
    InputFinal block' block' pprev' txin nCoinHeight := by
  have hpos : block.nHeight = pprev.nHeight + 1 := nHeight_ofPath hpprev
  have hlen : block.ancestors.length = block.nHeight := rfl
  refine (h.noLock hpprev).final (fun ancestor hancestor => ?_) hhigh
  have hlt : nCoinHeight - 1 < block'.nHeight := by omega
  rw [getAncestor_of_lt hlt] at hancestor
  have hmedian := hext.medianTimePast_upTo (by omega : _ ≤ nCoinHeight - 1 + 1) hlt
  rw [getMedianTimePast_ofPath hancestor,getMedianTimePast_ofPath hpprev']
  exact_mod_cast hmedian

end

/-- An input spends coins of the active chain, or a transaction of the pool, which is taken to be
in the next block. -/
inductive InputAt (view : CCoinsViewMemPool) (tip : CBlockIndex) (txin : CTxIn) : ℕ → Prop
  | confirmed {coins} (hpool : view.lookup txin.prevout.hash = none)
      (hcoins : view.base.getCoins txin.prevout.hash = some coins) (hunspent : coins.isPruned = false)
      (hheight : coins.nHeight ≤ tip.nHeight) : InputAt view tip txin coins.nHeight
  | inPool {tx} (hpool : view.lookup txin.prevout.hash = some tx) :
      InputAt view tip txin (tip.nHeight + 1)

variable {view : CCoinsViewMemPool} {tip : CBlockIndex}

theorem InputAt.le {txin : CTxIn} {height : ℕ} (h : InputAt view tip txin height) :
    height ≤ tip.nHeight + 1 := by
  cases h with
  | confirmed hpool hcoins hunspent hheight => omega
  | inPool hpool => exact le_rfl

theorem InputAt.unique {txin : CTxIn} {height height' : ℕ}
    (h : InputAt view tip txin height) (h' : InputAt view tip txin height') :
    height = height' := by
  cases h with
  | confirmed hpool hcoins =>
    cases h' with
    | confirmed hpool' hcoins' =>
      rw [hcoins] at hcoins'
      cases hcoins'
      rfl
    | inPool hpool' =>
      rw [hpool] at hpool'
      cases hpool'
  | inPool hpool =>
    cases h' with
    | confirmed hpool' =>
      rw [hpool] at hpool'
      cases hpool'
    | inPool hpool' => rfl

@[simp] theorem fromTx_nHeight (tx : CTransaction) (nHeight : ℕ) :
    (CCoins.fromTx tx nHeight).nHeight = nHeight := rfl

theorem InputAt.inputHeight_eq {txin : CTxIn} {height : ℕ} (h : InputAt view tip txin height)
    (hrange : tip.nHeight < MEMPOOL_HEIGHT) : inputHeight view tip txin = some height := by
  unfold inputHeight CCoinsViewMemPool.getCoins
  cases h with
  | @confirmed coins hpool hcoins hunspent hheight =>
    rw [hpool,hcoins]
    simp only [Option.filter_some,hunspent,Bool.not_false,if_true,Option.map_some]
    rw [if_neg (hheight.trans_lt hrange).ne]
  | inPool hpool =>
    rw [hpool]
    simp

theorem inputHeights_eq {vin : List CTxIn} {heights : List ℕ}
    (h : List.Forall₂ (InputAt view tip) vin heights) (hrange : tip.nHeight < MEMPOOL_HEIGHT) :
    vin.mapM (inputHeight view tip) = some heights := by
  induction h with
  | nil => rfl
  | cons hin hrest ih =>
    rw [List.mapM_cons,hin.inputHeight_eq hrange,ih]
    rfl

theorem InputAt.heights_le {vin : List CTxIn} {heights : List ℕ}
    (h : List.Forall₂ (InputAt view tip) vin heights) :
    ∀ height ∈ heights, height ≤ tip.nHeight + 1 := by
  induction h with
  | nil => simp
  | cons hin hrest ih => exact List.forall_mem_cons.mpr ⟨hin.le,ih⟩

section
variable [Crypto]

/-- Connecting the next block has come so far: some transactions have been connected to the coins
of the tip, none of which overwrites coins, and transactions of the pool are not confirmed. -/
structure NextBlock (view : CCoinsViewMemPool) (tip : CBlockIndex) (pindex : CBlockIndex)
    (done : List CTransaction) (v : CCoinsViewCache) : Prop where
  prev : pindex.pprev = some tip
  run : MapRun pindex.nHeight view.base.utxo done v.utxo
  free : ∀ tx ∈ done, view.base.utxo tx.getHash = fun _ => none
  pool : ∀ txid tx, view.lookup txid = some tx → view.base.utxo txid = fun _ => none

/-- The height that `ConnectBlock` reads is the one that was assumed. -/
theorem NextBlock.prevHeight_eq {pindex : CBlockIndex} {done : List CTransaction}
    {v : CCoinsViewCache} (h : NextBlock view tip pindex done v) {txin : CTxIn} {height : ℕ}
    (hin : InputAt view tip txin height)
    (hthere : v.utxo txin.prevout.hash txin.prevout.n.toNat ≠ none) :
    prevHeight v txin = .ok height := by
  obtain ⟨coin,hcoin⟩ := Option.ne_none_iff_exists'.mp hthere
  have hpindex : pindex.nHeight = tip.nHeight + 1 := nHeight_ofPath h.prev
  cases hfound : v.accessCoins txin.prevout.hash with
  | none => rw [CCoinsViewCache.utxo_of_accessCoins_none hfound] at hcoin; cases hcoin
  | some found =>
    have hread : found.nHeight = coin.nHeight := by
      rw [← CCoinsViewCache.accessCoins_coinAt hfound] at hcoin
      obtain ⟨_,_,rfl⟩ := CCoins.coinAt_eq_some.mp hcoin
      rfl
    unfold prevHeight
    rw [hfound]
    refine congrArg Except.ok (hread.trans ?_)
    have hsource := foldl_replaceTx_source (h.run.eq_foldl ▸ hcoin)
    cases hin with
    | @confirmed coins hpool hcoins hunspent hheight =>
      have hbase : view.base.utxo txin.prevout.hash = coins.coinAt :=
        (CCoinsViewCache.accessCoins_coinAt hcoins).symm
      rcases hsource with ⟨hnew,_⟩ | hold
      · obtain ⟨tx,htx,heq⟩ := List.mem_map.mp hnew
        rw [← heq,h.free tx htx] at hbase
        rw [CCoins.isPruned_iff.mpr hbase.symm] at hunspent
        cases hunspent
      · rw [hbase] at hold
        obtain ⟨_,_,rfl⟩ := CCoins.coinAt_eq_some.mp hold
        rfl
    | inPool hpool =>
      rcases hsource with ⟨_,hnew⟩ | hold
      · rw [hnew,hpindex]
      · rw [h.pool _ _ hpool] at hold
        cases hold

theorem NextBlock.prevHeights_eq {pindex : CBlockIndex} {done : List CTransaction}
    {v : CCoinsViewCache} (h : NextBlock view tip pindex done v) {vin : List CTxIn}
    {heights : List ℕ} (hin : List.Forall₂ (InputAt view tip) vin heights)
    (hthere : ∀ txin ∈ vin, v.utxo txin.prevout.hash txin.prevout.n.toNat ≠ none) :
    vin.mapM (prevHeight v) = .ok heights := by
  induction hin with
  | nil => rfl
  | cons hhead hrest ih =>
    obtain ⟨hfirst,hothers⟩ := List.forall_mem_cons.mp hthere
    rw [List.mapM_cons,h.prevHeight_eq hhead hfirst,ih hothers]
    rfl

end

/-- The inputs on an extension: coins stay at their height, and a transaction of the pool is still
there or was confirmed by a block of the extension. -/
def Moved (tip : CBlockIndex) (height height' : ℕ) : Prop :=
  height' = height ∨ height = tip.nHeight + 1 ∧ height ≤ height'

theorem InputsFinal.grow {tx : CTransaction} {fVerifySequence : Bool} {heights heights' : List ℕ}
    {block block' tip' : CBlockIndex} (h : InputsFinal tx fVerifySequence heights block block tip)
    (hprev : block.pprev = some tip) (hprev' : block'.pprev = some tip')
    (hext : Extends block.ancestors block'.ancestors)
    (hheights : ∀ height ∈ heights, height ≤ block.nHeight)
    (hheights' : ∀ height ∈ heights', height ≤ block'.nHeight)
    (hmoved : List.Forall₂ (Moved tip) heights heights') :
    InputsFinal tx fVerifySequence heights' block' block' tip' := by
  have hpos : block.nHeight = tip.nHeight + 1 := nHeight_ofPath hprev
  intro henforce
  have hall := h henforce
  clear h
  generalize tx.vin = vin at hall
  induction vin generalizing heights heights' with
  | nil => simp
  | cons txin vin ih =>
    cases hmoved with
    | nil => simp
    | @cons height height' _ _ hhead hrest =>
      obtain ⟨hle,hle'⟩ := List.forall_mem_cons.mp hheights
      obtain ⟨hhigh,hhigh'⟩ := List.forall_mem_cons.mp hheights'
      obtain ⟨hfirst,hothers⟩ := List.forall_mem_cons.mp hall
      refine List.forall_mem_cons.mpr ⟨?_,ih hle' hhigh' hrest hothers⟩
      rcases hhead with rfl | ⟨rfl,hlow⟩
      · exact hfirst.grow hprev hprev' hext hle
      · rw [← hpos] at hfirst hlow
        exact hfirst.confirm hprev hprev' hext hlow hhigh

/-- What is computed anew: the lock pair of the inputs, against the next block. -/
theorem checkSequenceLocks_eq {chain : CChain} (htip : chain.tip = some tip)
    (hrange : tip.nHeight < MEMPOOL_HEIGHT) {tx : CTransaction} {heights : List ℕ}
    (hin : List.Forall₂ (InputAt view tip) tx.vin heights) (fVerifySequence : Bool)
    (lp : Option LockPoints) : ∃ lock,
    calculateSequenceLocks tx fVerifySequence heights chain.nextIndex = .ok lock ∧
    checkSequenceLocks chain view tx fVerifySequence lp false =
      (fun fFinal => (fFinal,lp.map fun _ => ⟨lock.height,lock.time,
        tip.getAncestor (maxInputHeight tip (lockedHeights tx fVerifySequence heights))⟩)) <$>
        evaluateSequenceLocks chain.nextIndex lock := by
  have hne : chain.nextIndex.ancestors ≠ [] := by
    intro hnil
    rw [CChain.tip,show chain.entries = [] from hnil] at htip
    cases htip
  have hheight : chain.nextIndex.nHeight = tip.nHeight + 1 := nHeight_ofPath htip
  obtain ⟨lock,hlock⟩ := calculateSequenceLocks_ok tx fVerifySequence hne
    (hheight ▸ InputAt.heights_le hin)
  refine ⟨lock,hlock,?_⟩
  unfold checkSequenceLocks
  simp only [htip,inputHeights_eq hin hrange,hlock,Bool.false_eq_true,if_false]
  rw [map_eq_pure_bind]
  rfl

theorem checkSequenceLocks_iff {chain : CChain} (htip : chain.tip = some tip)
    (hrange : tip.nHeight < MEMPOOL_HEIGHT) {tx : CTransaction} {heights : List ℕ}
    (hin : List.Forall₂ (InputAt view tip) tx.vin heights) {next : CBlockIndex}
    (hnext : next.pprev = some tip) {fVerifySequence : Bool} {lp : Option LockPoints}
    {fFinal : Bool} :
    Prod.fst <$> checkSequenceLocks chain view tx fVerifySequence lp false = .ok fFinal ↔
      (fFinal = true ↔ InputsFinal tx fVerifySequence heights next next tip) := by
  obtain ⟨lock,hlock,hcheck⟩ := checkSequenceLocks_eq htip hrange hin fVerifySequence lp
  have hself : chain.nextIndex.pprev = some tip := htip
  have hsame : chain.nextIndex.ancestors = next.ancestors := ofPath_injective htip hnext
  have hheights := InputAt.heights_le hin
  have hindex : chain.nextIndex.nHeight = tip.nHeight + 1 := nHeight_ofPath htip
  have hheight : next.nHeight = tip.nHeight + 1 := nHeight_ofPath hnext
  have hstay : List.Forall₂ (Moved tip) heights heights :=
    List.forall₂_same.mpr fun height _ => .inl rfl
  have hmet : InputsFinal tx fVerifySequence heights chain.nextIndex chain.nextIndex tip ↔
      InputsFinal tx fVerifySequence heights next next tip :=
    ⟨fun h => h.grow hself hnext (hsame ▸ .refl) (hindex ▸ hheights) (hheight ▸ hheights) hstay,
      fun h => h.grow hnext hself (hsame ▸ .refl) (hheight ▸ hheights) (hindex ▸ hheights) hstay⟩
  have hfst : ∀ (verdict : Outcome Bool) (lp' : Option LockPoints),
      Prod.fst <$> ((fun fFinal => (fFinal,lp')) <$> verdict) = verdict := by
    intro verdict lp'
    cases verdict <;> rfl
  rw [hcheck,hfst,← hmet]
  exact (evaluateSequenceLocks_eq hself lock).trans
    (iff_congr Iff.rfl (calculateSequenceLocks_passes hlock))

/-- The pool and the next block agree on relative locks, whether inputs are confirmed already or by
that block itself, and what is final once stays final on every extension. -/
theorem relativeLocks_agree {chain : CChain} (htip : chain.tip = some tip)
    (hrange : tip.nHeight < MEMPOOL_HEIGHT) {tx : CTransaction} {heights : List ℕ}
    (hin : List.Forall₂ (InputAt view tip) tx.vin heights) {next : CBlockIndex}
    (hnext : next.pprev = some tip) :
    (∃ fFinal, sequenceLocks tx true heights next = .ok fFinal ∧
      (∀ lp, Prod.fst <$> checkSequenceLocks chain view tx true lp false = .ok fFinal) ∧
      ∀ [Crypto] done v, NextBlock view tip next done v →
        (∀ txin ∈ tx.vin, v.utxo txin.prevout.hash txin.prevout.n.toNat ≠ none) →
        (tx.vin.mapM (prevHeight v) >>= fun prevheights =>
          sequenceLocks tx true prevheights next) = .ok fFinal) ∧
    ∀ chain' tip' next', Extends chain.entries chain'.entries → chain'.tip = some tip' →
      next'.pprev = some tip' →
      (∀ fixed, (∀ height ∈ fixed, height ≤ next.nHeight) →
        sequenceLocks tx true fixed next = .ok true →
        sequenceLocks tx true fixed next' = .ok true) ∧
      ∀ view' heights' lp, List.Forall₂ (InputAt view' tip') tx.vin heights' →
        tip'.nHeight < MEMPOOL_HEIGHT → List.Forall₂ (Moved tip) heights heights' →
        Prod.fst <$> checkSequenceLocks chain view tx true none false = .ok true →
        Prod.fst <$> checkSequenceLocks chain' view' tx true lp false = .ok true := by
  have hchain : next.ancestors = chain.entries := ofPath_injective hnext htip
  have hheight : next.nHeight = tip.nHeight + 1 := nHeight_ofPath hnext
  have hheights : ∀ height ∈ heights, height ≤ next.nHeight := hheight ▸ InputAt.heights_le hin
  refine ⟨?_,fun chain' tip' next' hext htip' hnext' => ?_⟩
  · obtain ⟨fFinal,hfinal⟩ : ∃ fFinal : Bool, fFinal = true ↔
        InputsFinal tx true heights next next tip := by
      by_cases h : InputsFinal tx true heights next next tip
      · exact ⟨true,iff_of_true rfl h⟩
      · exact ⟨false,iff_of_false Bool.false_ne_true h⟩
    have hlocks := (sequenceLocks_iff hnext hheights).mpr hfinal
    refine ⟨fFinal,hlocks,fun lp => (checkSequenceLocks_iff htip hrange hin hnext).mpr hfinal,?_⟩
    intro _ done v hblock hthere
    rw [hblock.prevHeights_eq hin hthere]
    exact hlocks
  · have hchain' : next'.ancestors = chain'.entries := ofPath_injective hnext' htip'
    rw [← hchain,← hchain'] at hext
    have hlen : next.nHeight ≤ next'.nHeight := hext.suffix.length_le
    refine ⟨fun fixed hfixed hlocks => ?_,fun view' heights' lp hin' hrange' hmoved hcheck => ?_⟩
    · have hmet := ((sequenceLocks_iff hnext hfixed).mp hlocks).mp rfl
      have hfixed' : ∀ height ∈ fixed, height ≤ next'.nHeight := fun h hh => (hfixed h hh).trans hlen
      exact (sequenceLocks_iff hnext' hfixed').mpr (iff_of_true rfl (hmet.grow hnext hnext' hext
        hfixed hfixed' (List.forall₂_same.mpr fun height _ => .inl rfl)))
    · have hmet := ((checkSequenceLocks_iff htip hrange hin hnext).mp hcheck).mp rfl
      have hheight' : next'.nHeight = tip'.nHeight + 1 := nHeight_ofPath hnext'
      exact (checkSequenceLocks_iff htip' hrange' hin' hnext').mpr (iff_of_true rfl (hmet.grow hnext
        hnext' hext hheights (hheight' ▸ InputAt.heights_le hin') hmoved))

def lockChain : CChain := ⟨[⟨3,4,1200⟩,⟨2,4,1100⟩,⟨1,4,1000⟩]⟩

def lockTip : CBlockIndex := ⟨some 3,4,1200,[⟨2,4,1100⟩,⟨1,4,1000⟩]⟩

/-- It spends a coin two blocks after its confirmation, and a transaction of the pool. -/
def lockTx : CTransaction :=
  { nVersion := 2, vin := [{ prevout := ⟨5,0⟩, nSequence := 2 },{ prevout := ⟨6,0⟩, nSequence := 0 }] }

def lockView : CCoinsViewMemPool :=
  ⟨diskView [(5,spendableCoins 5000 1)],fun txid => if txid = 6 then some {} else none⟩

theorem lockTx_inputs : List.Forall₂ (InputAt lockView lockTip) lockTx.vin [1,3] := by
  refine .cons ?_ (.cons ?_ .nil)
  · exact @InputAt.confirmed _ _ _ (spendableCoins 5000 1) (by decide) (by decide) (by decide)
      (by decide)
  · exact @InputAt.inPool _ _ _ {} (by decide)

/-- The pool and the block on top agree to let it in. -/
theorem lockTx_agrees : sequenceLocks lockTx true [1,3] lockChain.nextIndex = .ok true ∧
    Prod.fst <$> checkSequenceLocks lockChain lockView lockTx true none false = .ok true := by
  obtain ⟨⟨fFinal,hblock,hpool,_⟩,_⟩ := relativeLocks_agree (by rfl : lockChain.tip = some lockTip)
    (by decide) lockTx_inputs (by rfl : lockChain.nextIndex.pprev = some lockTip)
  have hfinal : sequenceLocks lockTx true [1,3] lockChain.nextIndex = .ok true := by decide
  obtain rfl : fFinal = true := by simpa [hfinal] using hblock.symm
  exact ⟨hblock,hpool none⟩

end Sidechain
