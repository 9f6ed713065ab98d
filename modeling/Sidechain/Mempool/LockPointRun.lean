import Sidechain.Mempool.SequenceLocks

/-! Lock points kept across runs of connected and disconnected tips. They remember the highest block
with a locked input, but not the tip that an input of the pool was assumed to be on. As long as the
remembered block is in the chain, cached lock points and those computed anew differ only by the
inputs that were in the pool: these were taken to be on the tip of then, and the cached pair goes on
to ask for a tip that is as high and as late. -/
namespace Sidechain
open CBlockIndex Run

/-- The active chain, the coins of its tip and the pool over them. -/
structure PoolState where
  chain : CChain
  view : CCoinsViewMemPool

section
variable [Crypto]

/-- The view holds the coins of the chain, no transaction of the pool is in the chain, and an entry
of the pool finds its inputs. -/
structure PoolState.Consistent (txsOf : Uint256 → List CTransaction) (tx : CTransaction)
    (s : PoolState) : Prop where
  valid : ValidChain txsOf s.chain.entries
  range : s.chain.entries.length ≤ MEMPOOL_HEIGHT
  coins : s.view.base.utxo = coinsOf txsOf s.chain.entries
  apart : ∀ txid t, s.view.lookup txid = some t → txid ∉ txidsOf txsOf s.chain.entries
  inputs : ∀ txin ∈ tx.vin, s.view.lookup txin.prevout.hash = none →
    s.view.base.utxo txin.prevout.hash txin.prevout.n.toNat ≠ none

/-- `ConnectTip`, `DisconnectTip` and changes of the pool, as long as an entry stays in it. -/
inductive PoolRun (txsOf : Uint256 → List CTransaction) (tx : CTransaction) (start : PoolState) :
    PoolState → Prop
  | start (h : start.Consistent txsOf tx) : PoolRun txsOf tx start start
  | connectTip {s} (run : PoolRun txsOf tx start s) (e : BlockEntry) (s' : PoolState)
      (hchain : s'.chain.entries = e::s.chain.entries) (h : s'.Consistent txsOf tx) :
      PoolRun txsOf tx start s'
  | disconnectTip {s} (run : PoolRun txsOf tx start s) (e : BlockEntry) (s' : PoolState)
      (hchain : s.chain.entries = e::s'.chain.entries) (h : s'.Consistent txsOf tx) :
      PoolRun txsOf tx start s'
  | changePool {s} (run : PoolRun txsOf tx start s) (s' : PoolState)
      (hchain : s'.chain.entries = s.chain.entries) (h : s'.Consistent txsOf tx) :
      PoolRun txsOf tx start s'

variable {txsOf : Uint256 → List CTransaction} {tx : CTransaction} {start s : PoolState}

theorem PoolRun.consistent (h : PoolRun txsOf tx start s) : s.Consistent txsOf tx := by
  cases h <;> assumption

namespace PoolState.Consistent

variable {tip : CBlockIndex}

theorem tip_range (h : s.Consistent txsOf tx) (htip : s.chain.tip = some tip) :
    tip.nHeight < MEMPOOL_HEIGHT := by
  have := nHeight_ofPath htip
  have := h.range
  omega

theorem input_coin (h : s.Consistent txsOf tx) {txin : CTxIn} (hmem : txin ∈ tx.vin)
    (hpool : s.view.lookup txin.prevout.hash = none) : ∃ coin,
    coinsOf txsOf s.chain.entries txin.prevout.hash txin.prevout.n.toNat = some coin := by
  have hthere := h.inputs txin hmem hpool
  rw [h.coins] at hthere
  exact Option.ne_none_iff_exists'.mp hthere

theorem inputAt_of_coin (h : s.Consistent txsOf tx) (htip : s.chain.tip = some tip) {txin : CTxIn}
    (hpool : s.view.lookup txin.prevout.hash = none) {coin : Coin}
    (hcoin : coinsOf txsOf s.chain.entries txin.prevout.hash txin.prevout.n.toNat = some coin) :
    InputAt s.view tip txin coin.nHeight := by
  have hlen := nHeight_ofPath htip
  have hheight := (coinsOf_source hcoin).1
  rw [← h.coins] at hcoin
  cases hfound : s.view.base.getCoins txin.prevout.hash with
  | none =>
    rw [CCoinsViewCache.utxo_of_accessCoins_none hfound] at hcoin
    cases hcoin
  | some coins =>
    rw [← CCoinsViewCache.accessCoins_coinAt hfound] at hcoin
    have hunspent : coins.isPruned = false := by
      rw [← Bool.not_eq_true,CCoins.isPruned_iff]
      intro hnone
      rw [hnone] at hcoin
      cases hcoin
    obtain ⟨_,_,rfl⟩ := CCoins.coinAt_eq_some.mp hcoin
    have hlow : coins.nHeight < s.chain.entries.length := hheight
    exact .confirmed hpool hfound hunspent (by omega)

theorem exists_inputAt (h : s.Consistent txsOf tx) (htip : s.chain.tip = some tip) {txin : CTxIn}
    (hmem : txin ∈ tx.vin) : ∃ height, InputAt s.view tip txin height := by
  cases hpool : s.view.lookup txin.prevout.hash with
  | none =>
    obtain ⟨coin,hcoin⟩ := h.input_coin hmem hpool
    exact ⟨_,h.inputAt_of_coin htip hpool hcoin⟩
  | some t => exact ⟨_,.inPool hpool⟩

theorem exists_heights (h : s.Consistent txsOf tx) (htip : s.chain.tip = some tip) :
    ∃ heights, List.Forall₂ (InputAt s.view tip) tx.vin heights := by
  have hall : ∀ txin ∈ tx.vin, ∃ height, InputAt s.view tip txin height :=
    fun txin hmem => h.exists_inputAt htip hmem
  generalize tx.vin = vin at hall
  induction vin with
  | nil => exact ⟨[],.nil⟩
  | cons txin vin ih =>
    obtain ⟨hfirst,hrest⟩ := List.forall_mem_cons.mp hall
    obtain ⟨height,hheight⟩ := hfirst
    obtain ⟨heights,hheights⟩ := ih hrest
    exact ⟨height::heights,.cons hheight hheights⟩

end PoolState.Consistent

/-- While the entry is in the pool, no chain that holds the transaction of an input has its output
spent. -/
theorem PoolRun.unspent (h : PoolRun txsOf tx start s) {txin : CTxIn} (hmem : txin ∈ tx.vin)
    {coin : Coin} (hcoin : coinsOf txsOf start.chain.entries txin.prevout.hash
      txin.prevout.n.toNat = some coin) {mid : List BlockEntry} (hmid : mid <:+ s.chain.entries)
    (hheight : coin.nHeight < mid.length) (hthere : txin.prevout.hash ∈ txidsOf txsOf mid) :
    coinsOf txsOf mid txin.prevout.hash txin.prevout.n.toNat ≠ none := by
  induction h generalizing mid with
  | start h => simp [coinsOf_of_suffix hmid hcoin hheight]
  | connectTip run e s' hchain h ih =>
    rw [hchain] at hmid
    rcases List.suffix_cons_iff.mp hmid with rfl | hmid
    · rw [← hchain] at hthere ⊢
      have hpool : s'.view.lookup txin.prevout.hash = none := by
        rw [Option.eq_none_iff_forall_ne_some]
        exact fun t ht => h.apart _ t ht hthere
      rw [← h.coins]
      exact h.inputs txin hmem hpool
    · exact ih hmid hheight hthere
  | disconnectTip run e s' hchain h ih =>
    exact ih (hmid.trans (hchain ▸ List.suffix_cons e _)) hheight hthere
  | changePool run s' hchain h ih => exact ih (hchain ▸ hmid) hheight hthere

theorem PoolRun.input_kept (h : PoolRun txsOf tx start s) {txin : CTxIn} (hmem : txin ∈ tx.vin)
    {coin : Coin} (hcoin : coinsOf txsOf start.chain.entries txin.prevout.hash
      txin.prevout.n.toNat = some coin) {part : List BlockEntry}
    (hstart : part <:+ start.chain.entries) (hpart : part <:+ s.chain.entries)
    (hheight : coin.nHeight < part.length) : s.view.lookup txin.prevout.hash = none ∧
      coinsOf txsOf s.chain.entries txin.prevout.hash txin.prevout.n.toNat = some coin := by
  have hbelow := coinsOf_of_suffix hstart hcoin hheight
  have hthere := (coinsOf_source hbelow).2
  constructor
  · rw [Option.eq_none_iff_forall_ne_some]
    exact fun t ht => h.consistent.apart _ t ht (txidsOf_subset hpart hthere)
  · exact h.consistent.valid.coin_kept hpart hbelow fun mid hlow hhigh =>
      h.unspent hmem hcoin hhigh (hheight.trans_le hlow.length_le) (txidsOf_subset hlow hthere)

end

theorem foldl_maxInputHeight (tip : CBlockIndex) (heights : List ℕ) (start : ℕ) :
    start ≤ heights.foldl (fun maxInputHeight height =>
      if height ≠ tip.nHeight + 1 then max maxInputHeight height else maxInputHeight) start ∧
    ∀ height ∈ heights, height ≠ tip.nHeight + 1 → height ≤ heights.foldl
      (fun maxInputHeight height =>
        if height ≠ tip.nHeight + 1 then max maxInputHeight height else maxInputHeight) start := by
  induction heights generalizing start with
  | nil => simp
  | cons height heights ih =>
    rw [List.foldl_cons,List.forall_mem_cons]
    by_cases hpool : height ≠ tip.nHeight + 1
    · rw [if_pos hpool]
      obtain ⟨hstart,hall⟩ := ih (max start height)
      exact ⟨(le_max_left _ _).trans hstart,fun _ => (le_max_right _ _).trans hstart,hall⟩
    · rw [if_neg hpool]
      obtain ⟨hstart,hall⟩ := ih start
      exact ⟨hstart,fun h => absurd h hpool,hall⟩

theorem maxInputHeight_le {tip : CBlockIndex} {heights : List ℕ}
    (h : ∀ height ∈ heights, height ≤ tip.nHeight + 1) : maxInputHeight tip heights ≤ tip.nHeight := by
  unfold maxInputHeight
  have hgen : ∀ start ≤ tip.nHeight, heights.foldl (fun maxInputHeight height =>
      if height ≠ tip.nHeight + 1 then max maxInputHeight height else maxInputHeight) start ≤
        tip.nHeight := by
    induction heights with
    | nil => exact fun start hstart => hstart
    | cons height heights ih =>
      obtain ⟨hfirst,hrest⟩ := List.forall_mem_cons.mp h
      intro start hstart
      rw [List.foldl_cons]
      refine ih hrest _ ?_
      split_ifs with hpool
      · exact max_le hstart (by omega)
      · exact hstart
  exact hgen 0 (Nat.zero_le _)

theorem lockedHeights_le {tx : CTransaction} {heights : List ℕ} {fVerifySequence : Bool} {bound : ℕ}
    (h : ∀ height ∈ heights, height ≤ bound) :
    ∀ height ∈ lockedHeights tx fVerifySequence heights, height ≤ bound := by
  unfold lockedHeights
  split_ifs
  · intro height hheight
    obtain ⟨input,hinput,rfl⟩ := List.mem_map.mp hheight
    split_ifs
    · exact Nat.zero_le _
    · exact h _ (List.of_mem_zip hinput).2
  · exact h

theorem suffix_of_contains {chain : CChain} {part : List BlockEntry} {pindex : CBlockIndex}
    (hpart : ofPath part = some pindex) (h : chain.contains pindex = true) :
    part <:+ chain.entries := by
  unfold CChain.contains CChain.get at h
  rw [beq_iff_eq,Option.bind_eq_some_iff] at h
  obtain ⟨tip,htip,hget⟩ := h
  have hlt : pindex.nHeight < chain.entries.length := by
    rw [nHeight_ofPath htip]
    by_contra hhigh
    unfold getAncestor at hget
    rw [if_pos (.inl (by omega))] at hget
    cases hget
  rw [getAncestor_ofPath htip hlt] at hget
  rw [ofPath_injective hpart hget]
  exact upTo_suffix _ _

section
variable {source source' block pprev next₀ next tip₀ tip : CBlockIndex} {txin : CTxIn}

/-- For confirmed coins it does not matter on which of two chains with their block the lock was
computed. -/
theorem inputFinal_source_iff {part : List BlockEntry} (hsource : part <:+ source.ancestors)
    (hsource' : part <:+ source'.ancestors) {nCoinHeight : ℕ} (hlt : nCoinHeight < part.length) :
    InputFinal source block pprev txin nCoinHeight ↔
      InputFinal source' block pprev txin nCoinHeight := by
  have hlow : nCoinHeight - 1 < part.length := by omega
  have hsame : source.getAncestor (nCoinHeight - 1 : ℕ) =
      source'.getAncestor (nCoinHeight - 1 : ℕ) := by
    rw [getAncestor_of_lt (hlow.trans_le hsource.length_le),
      getAncestor_of_lt (hlow.trans_le hsource'.length_le),upTo_of_suffix hsource hlow,
      upTo_of_suffix hsource' hlow]
  unfold InputFinal
  rw [hsame]

/-- The tip is as late as another one, or as high, whichever the lock of the input counts. -/
def CTxIn.NotBelow (tip₀ tip : CBlockIndex) (txin : CTxIn) : Prop :=
  txin.lockDisabled = false →
    (txin.lockedByTime → tip₀.getMedianTimePast ≤ tip.getMedianTimePast) ∧
    (¬ txin.lockedByTime → tip₀.nHeight ≤ tip.nHeight)

theorem inputFinal_pool_iff (haccepted : InputFinal next₀ next₀ tip₀ txin next₀.nHeight)
    (hprev₀ : next₀.pprev = some tip₀) (hprev : next.pprev = some tip) :
    InputFinal next₀ next tip txin next₀.nHeight ↔ txin.NotBelow tip₀ tip := by
  have hheight₀ : next₀.nHeight = tip₀.nHeight + 1 := nHeight_ofPath hprev₀
  have hheight : next.nHeight = tip.nHeight + 1 := nHeight_ofPath hprev
  have hlen : next₀.ancestors.length = next₀.nHeight := rfl
  have hself : next₀.getAncestor (next₀.nHeight - 1 : ℕ) = some tip₀ := by
    rw [getAncestor_of_lt (by omega),upTo,hlen,Nat.sub_self,List.drop_zero]
    exact hprev₀
  have hnone := haccepted.noLock hprev₀
  unfold InputFinal CTxIn.NotBelow
  refine forall_congr' fun hon => ?_
  rw [hself,hnone hon,Nat.zero_shiftLeft]
  refine and_congr ?_ ?_
  · simp
  · rw [hheight₀,hheight]
    simp

theorem inputsFinal_iff {view : CCoinsViewMemPool} {tx : CTransaction} {heights : List ℕ}
    (hin : List.Forall₂ (InputAt view tip₀) tx.vin heights) {fVerifySequence : Bool} :
    InputsFinal tx fVerifySequence heights source block pprev ↔
      (tx.enforceBIP68 fVerifySequence = true → ∀ txin ∈ tx.vin, ∀ height,
        InputAt view tip₀ txin height → InputFinal source block pprev txin height) := by
  unfold InputsFinal
  refine forall_congr' fun _ => ?_
  generalize tx.vin = vin at hin
  induction hin with
  | nil => simp
  | @cons txin height vin heights hfirst hrest ih =>
    rw [List.zip_cons_cons,List.forall_mem_cons,List.forall_mem_cons,ih]
    refine and_congr_left' ⟨fun h height' hheight' => ?_,fun h => h height hfirst⟩
    rwa [hheight'.unique hfirst]

theorem checkSequenceLocks_cached {chain : CChain} (htip : chain.tip = some tip)
    {view : CCoinsViewMemPool} {tx : CTransaction} {fVerifySequence : Bool} {lp : LockPoints} :
    Prod.fst <$> checkSequenceLocks chain view tx fVerifySequence (some lp) true =
      evaluateSequenceLocks chain.nextIndex ⟨lp.height,lp.time⟩ := by
  unfold checkSequenceLocks
  rw [htip]
  cases h : evaluateSequenceLocks chain.nextIndex ⟨lp.height,lp.time⟩ <;> simp [h]

/-- The heights that count for the remembered block are at most its own. -/
theorem le_maxInputHeight {tx : CTransaction} {heights : List ℕ} {fVerifySequence : Bool}
    (henforce : tx.enforceBIP68 fVerifySequence = true) {view : CCoinsViewMemPool}
    (hin : List.Forall₂ (InputAt view tip₀) tx.vin heights) {txin : CTxIn} (hmem : txin ∈ tx.vin)
    (hon : txin.lockDisabled = false) {height : ℕ} (hat : InputAt view tip₀ txin height)
    (hne : height ≠ tip₀.nHeight + 1) :
    height ≤ maxInputHeight tip₀ (lockedHeights tx fVerifySequence heights) := by
  refine (foldl_maxInputHeight tip₀ _ 0).2 height ?_ hne
  unfold lockedHeights
  rw [if_pos henforce]
  generalize tx.vin = vin at hin hmem
  induction hin with
  | nil => cases hmem
  | cons hfirst hrest ih =>
    rw [List.zip_cons_cons,List.map_cons,List.mem_cons]
    rcases List.mem_cons.mp hmem with rfl | hmem
    · left
      rw [if_neg (by simp [hon])]
      exact hat.unique hfirst
    · exact .inr (ih hmem)

end

section
variable [Crypto] {txsOf : Uint256 → List CTransaction} {tx : CTransaction} {start s : PoolState}
  {tip₀ tip : CBlockIndex}

/-- No locked input was in the pool when the lock points were computed, or the tip is not below the
one of then. -/
def PoolState.TipNotBelow (tx : CTransaction) (fVerifySequence : Bool) (start : PoolState)
    (tip₀ tip : CBlockIndex) : Prop :=
  tx.enforceBIP68 fVerifySequence = true → ∀ txin ∈ tx.vin,
    start.view.lookup txin.prevout.hash ≠ none → txin.NotBelow tip₀ tip

theorem PoolRun.confirmed_iff (run : PoolRun txsOf tx start s)
    (htip₀ : start.chain.tip = some tip₀) (htip : s.chain.tip = some tip) {txin : CTxIn}
    (hmem : txin ∈ tx.vin) (hstart : start.Consistent txsOf tx)
    (hpool : start.view.lookup txin.prevout.hash = none) {part : List BlockEntry}
    (hpart₀ : part <:+ start.chain.entries) (hpart : part <:+ s.chain.entries)
    (hlow : ∀ height, InputAt start.view tip₀ txin height → height ≠ tip₀.nHeight + 1 →
      height < part.length) :
    (∀ height, InputAt start.view tip₀ txin height →
      InputFinal start.chain.nextIndex s.chain.nextIndex tip txin height) ↔
    ∀ height, InputAt s.view tip txin height →
      InputFinal s.chain.nextIndex s.chain.nextIndex tip txin height := by
  obtain ⟨coin,hcoin⟩ := hstart.input_coin hmem hpool
  have hat₀ := hstart.inputAt_of_coin htip₀ hpool hcoin
  have hne : coin.nHeight ≠ tip₀.nHeight + 1 := by
    have := (coinsOf_source hcoin).1
    have := nHeight_ofPath htip₀
    omega
  have hlt := hlow coin.nHeight hat₀ hne
  obtain ⟨hfree,hcoin'⟩ := run.input_kept hmem hcoin hpart₀ hpart hlt
  have hat := run.consistent.inputAt_of_coin htip hfree hcoin'
  have hsame : InputFinal start.chain.nextIndex s.chain.nextIndex tip txin coin.nHeight ↔
      InputFinal s.chain.nextIndex s.chain.nextIndex tip txin coin.nHeight :=
    inputFinal_source_iff hpart₀ hpart hlt
  constructor
  · intro h height hheight
    rw [hheight.unique hat]
    exact hsame.mp (h _ hat₀)
  · intro h height hheight
    rw [hheight.unique hat₀]
    exact hsame.mpr (h _ hat)

theorem PoolRun.noLock_final (run : PoolRun txsOf tx start s) (htip : s.chain.tip = some tip)
    {txin : CTxIn} (hnone : txin.NoLock) {height : ℕ} (hat : InputAt s.view tip txin height) :
    InputFinal s.chain.nextIndex s.chain.nextIndex tip txin height := by
  have hindex : s.chain.nextIndex.nHeight = tip.nHeight + 1 := nHeight_ofPath htip
  refine hnone.final (fun ancestor hancestor => ?_) (hindex ▸ hat.le)
  have hlt : height - 1 < s.chain.nextIndex.nHeight := by
    have := hat.le
    omega
  rw [getAncestor_of_lt hlt] at hancestor
  rw [getMedianTimePast_ofPath hancestor,getMedianTimePast_ofPath htip]
  exact_mod_cast run.consistent.valid.medianTimePast_upTo hlt

theorem PoolRun.input_iff (run : PoolRun txsOf tx start s) (htip₀ : start.chain.tip = some tip₀)
    (htip : s.chain.tip = some tip) (hstart : start.Consistent txsOf tx) {txin : CTxIn}
    (hmem : txin ∈ tx.vin) (haccepted : ∀ height, InputAt start.view tip₀ txin height →
      InputFinal start.chain.nextIndex start.chain.nextIndex tip₀ txin height)
    {part : List BlockEntry} (hpart₀ : part <:+ start.chain.entries)
    (hpart : part <:+ s.chain.entries) (hlow : txin.lockDisabled = false → ∀ height,
      InputAt start.view tip₀ txin height → height ≠ tip₀.nHeight + 1 → height < part.length) :
    (∀ height, InputAt start.view tip₀ txin height →
      InputFinal start.chain.nextIndex s.chain.nextIndex tip txin height) ↔
    (∀ height, InputAt s.view tip txin height →
      InputFinal s.chain.nextIndex s.chain.nextIndex tip txin height) ∧
    (start.view.lookup txin.prevout.hash ≠ none → txin.NotBelow tip₀ tip) := by
  by_cases hon : txin.lockDisabled = false
  · cases hpool : start.view.lookup txin.prevout.hash with
    | none =>
      rw [run.confirmed_iff htip₀ htip hmem hstart hpool hpart₀ hpart (hlow hon)]
      simp
    | some t =>
      have hindex₀ : start.chain.nextIndex.nHeight = tip₀.nHeight + 1 := nHeight_ofPath htip₀
      have hat₀ : InputAt start.view tip₀ txin start.chain.nextIndex.nHeight :=
        hindex₀ ▸ .inPool hpool
      have hmet := haccepted _ hat₀
      have hpoolIff : InputFinal start.chain.nextIndex s.chain.nextIndex tip txin
          start.chain.nextIndex.nHeight ↔ txin.NotBelow tip₀ tip :=
        inputFinal_pool_iff hmet htip₀ htip
      constructor
      · exact fun h => ⟨fun height hat => run.noLock_final htip (hmet.noLock htip₀) hat,
          fun _ => hpoolIff.mp (h _ hat₀)⟩
      · rintro ⟨_,h⟩ height hheight
        rw [hheight.unique hat₀]
        exact hpoolIff.mpr (h (by simp))
  · have hoff : ∀ source block pprev height, InputFinal source block pprev txin height :=
      fun _ _ _ _ h => absurd h hon
    exact iff_of_true (fun _ _ => hoff _ _ _ _)
      ⟨fun _ _ => hoff _ _ _ _,fun _ h => absurd h hon⟩

/-- All inputs: what the cached pair asks for against what a new one would. -/
theorem PoolRun.inputsFinal_iff (run : PoolRun txsOf tx start s)
    (htip₀ : start.chain.tip = some tip₀) (htip : s.chain.tip = some tip)
    (hstart : start.Consistent txsOf tx) {heights₀ heights : List ℕ} {fVerifySequence : Bool}
    (hin₀ : List.Forall₂ (InputAt start.view tip₀) tx.vin heights₀)
    (hin : List.Forall₂ (InputAt s.view tip) tx.vin heights)
    (haccepted : InputsFinal tx fVerifySequence heights₀ start.chain.nextIndex
      start.chain.nextIndex tip₀) {pindex : CBlockIndex}
    (hmax : tip₀.getAncestor
      (maxInputHeight tip₀ (lockedHeights tx fVerifySequence heights₀)) = some pindex)
    (hcontains : s.chain.contains pindex = true) :
    InputsFinal tx fVerifySequence heights₀ start.chain.nextIndex s.chain.nextIndex tip ↔
      InputsFinal tx fVerifySequence heights s.chain.nextIndex s.chain.nextIndex tip ∧
      start.TipNotBelow tx fVerifySequence tip₀ tip := by
  have hlt : maxInputHeight tip₀ (lockedHeights tx fVerifySequence heights₀) <
      start.chain.entries.length := by
    rw [nHeight_ofPath htip₀]
    exact Nat.lt_succ_of_le (maxInputHeight_le (lockedHeights_le (InputAt.heights_le hin₀)))
  rw [getAncestor_ofPath htip₀ hlt] at hmax
  have hpart := suffix_of_contains hmax hcontains
  have hlen := upTo_length hlt
  rw [Sidechain.inputsFinal_iff hin₀,Sidechain.inputsFinal_iff hin,PoolState.TipNotBelow,
    ← forall_and]
  rw [Sidechain.inputsFinal_iff hin₀] at haccepted
  refine forall_congr' fun henforce => ?_
  rw [← forall₂_and]
  refine forall₂_congr fun txin hmem => ?_
  refine run.input_iff htip₀ htip hstart hmem (haccepted henforce txin hmem) (upTo_suffix _ _) hpart
    fun hon height hat hne => ?_
  have := le_maxInputHeight henforce hin₀ hmem hon hat hne
  omega

theorem PoolRun.start_consistent (run : PoolRun txsOf tx start s) :
    start.Consistent txsOf tx := by
  induction run with
  | start h => exact h
  | connectTip run e s' hchain h ih => exact ih
  | disconnectTip run e s' hchain h ih => exact ih
  | changePool run s' hchain h ih => exact ih

theorem PoolRun.cached_iff (run : PoolRun txsOf tx start s) (htip₀ : start.chain.tip = some tip₀)
    (htip : s.chain.tip = some tip) {fVerifySequence : Bool} {lp₀ lp : LockPoints}
    (hlp : checkSequenceLocks start.chain start.view tx fVerifySequence (some lp₀) false =
      .ok (true,some lp)) (hvalid : testLockPointValidity s.chain lp = true) {heights : List ℕ}
    (hin : List.Forall₂ (InputAt s.view tip) tx.vin heights) {fFinal : Bool} :
    Prod.fst <$> checkSequenceLocks s.chain s.view tx fVerifySequence (some lp) true = .ok fFinal ↔
      (fFinal = true ↔
        InputsFinal tx fVerifySequence heights s.chain.nextIndex s.chain.nextIndex tip ∧
        start.TipNotBelow tx fVerifySequence tip₀ tip) := by
  have hstart := run.start_consistent
  obtain ⟨heights₀,hin₀⟩ := hstart.exists_heights htip₀
  have hprev₀ : start.chain.nextIndex.pprev = some tip₀ := htip₀
  have hprev : s.chain.nextIndex.pprev = some tip := htip
  obtain ⟨lock,hlock,hcheck⟩ := checkSequenceLocks_eq htip₀ (hstart.tip_range htip₀) hin₀
    fVerifySequence (some lp₀)
  rw [hcheck] at hlp
  obtain ⟨accepted,heval,hpair⟩ := map_ok.mp hlp
  obtain ⟨rfl,hpoints⟩ := Prod.mk.inj hpair
  cases hpoints
  have haccepted := ((evaluateSequenceLocks_eq hprev₀ lock).mp heval).mp rfl
  rw [calculateSequenceLocks_passes hlock] at haccepted
  have hlt : maxInputHeight tip₀ (lockedHeights tx fVerifySequence heights₀) <
      start.chain.entries.length := by
    rw [nHeight_ofPath htip₀]
    exact Nat.lt_succ_of_le (maxInputHeight_le (lockedHeights_le (InputAt.heights_le hin₀)))
  obtain ⟨pindex,hpindex⟩ := @exists_ofPath (upTo start.chain.entries _) (by
    rw [← List.length_pos_iff,upTo_length hlt]
    exact Nat.succ_pos _)
  have hmax := (getAncestor_ofPath htip₀ hlt).trans hpindex
  rw [testLockPointValidity,hmax] at hvalid
  rw [checkSequenceLocks_cached htip,evaluateSequenceLocks_eq hprev,
    calculateSequenceLocks_passes hlock,
    run.inputsFinal_iff htip₀ htip hstart hin₀ hin haccepted hmax hvalid]

/-- Lock points that are kept while the entry is in the pool, and whose block is in the chain. Where
no locked input was in the pool when they were computed, or the tip is not below the one of then,
they give the verdict that computing anew would give. Where it is below, the verdict is negative. -/
theorem PoolRun.lockPoints_agree (run : PoolRun txsOf tx start s)
    (htip₀ : start.chain.tip = some tip₀) (htip : s.chain.tip = some tip) {fVerifySequence : Bool}
    {lp₀ lp : LockPoints} (hlp : checkSequenceLocks start.chain start.view tx fVerifySequence
      (some lp₀) false = .ok (true,some lp)) :
    (start.TipNotBelow tx fVerifySequence tip₀ tip →
      (testLockPointValidity s.chain lp = true →
        Prod.fst <$> checkSequenceLocks s.chain s.view tx fVerifySequence (some lp) true =
          Prod.fst <$> checkSequenceLocks s.chain s.view tx fVerifySequence none false) ∧
      Prod.fst <$> reorgSequenceLocks s.chain s.view tx fVerifySequence lp =
        Prod.fst <$> checkSequenceLocks s.chain s.view tx fVerifySequence none false) ∧
    (¬ start.TipNotBelow tx fVerifySequence tip₀ tip → testLockPointValidity s.chain lp = true →
      Prod.fst <$> checkSequenceLocks s.chain s.view tx fVerifySequence (some lp) true =
        .ok false) := by
  have hs := run.consistent
  obtain ⟨heights,hin⟩ := hs.exists_heights htip
  have hprev : s.chain.nextIndex.pprev = some tip := htip
  obtain ⟨fFinal,hfinal⟩ : ∃ fFinal : Bool, fFinal = true ↔
      InputsFinal tx fVerifySequence heights s.chain.nextIndex s.chain.nextIndex tip := by
    by_cases h : InputsFinal tx fVerifySequence heights s.chain.nextIndex s.chain.nextIndex tip
    · exact ⟨true,iff_of_true rfl h⟩
    · exact ⟨false,iff_of_false Bool.false_ne_true h⟩
  have hanew : ∀ lp', Prod.fst <$> checkSequenceLocks s.chain s.view tx fVerifySequence lp' false =
      .ok fFinal := fun lp' => (checkSequenceLocks_iff htip (hs.tip_range htip) hin hprev).mpr hfinal
  refine ⟨fun hbelow => ?_,fun hbelow hvalid => ?_⟩
  · have hcached : testLockPointValidity s.chain lp = true →
        Prod.fst <$> checkSequenceLocks s.chain s.view tx fVerifySequence (some lp) true =
          .ok fFinal := fun hvalid =>
      (run.cached_iff htip₀ htip hlp hvalid hin).mpr (hfinal.trans (and_iff_left hbelow).symm)
    refine ⟨fun hvalid => (hcached hvalid).trans (hanew none).symm,?_⟩
    unfold reorgSequenceLocks
    cases hvalid : testLockPointValidity s.chain lp with
    | true => exact (hcached hvalid).trans (hanew none).symm
    | false => exact (hanew (some lp)).trans (hanew none).symm
  · exact (run.cached_iff htip₀ htip hlp hvalid hin).mpr
      (iff_of_false Bool.false_ne_true fun h => hbelow h.2)

end

def fundingTx : CTransaction := { vout := [⟨5000,[OP_1]⟩] }

def parentTx : CTransaction := { vin := [{ prevout := ⟨5,0⟩ }], vout := [⟨4000,[OP_1]⟩] }

/-- Its only lock is zero, on an output of the pool. -/
def zeroLockTx : CTransaction := { nVersion := 2, vin := [{ prevout := ⟨6,0⟩, nSequence := 0 }] }

@[reducible] def fundingCrypto : Crypto := tableCrypto [(fundingTx.serialize,5)]

/-- The block at height 1 made the coin that the parent spends. -/
def fundingTxs (hash : Uint256) : List CTransaction := if hash = 2 then [fundingTx] else []

/-- The parent is in the pool over the coins of a chain. -/
def parentState (entries : List BlockEntry) : PoolState :=
  ⟨⟨entries⟩,⟨{ cacheCoins := fun txid =>
      if txid = 5 then some ⟨CCoins.fromTx fundingTx 1,true,true⟩ else none },
    fun txid => if txid = 6 then some parentTx else none⟩⟩

def twoEntries : List BlockEntry := [⟨2,4,1100⟩,⟨1,4,1000⟩]

def threeEntries : List BlockEntry := ⟨3,4,1200⟩::twoEntries

theorem coinsOf_twoEntries : letI := fundingCrypto
    coinsOf fundingTxs twoEntries = (parentState []).view.base.utxo := by
  let := fundingCrypto
  have hhash : fundingTx.getHash = 5 := by decide
  have hcoins : coinsOf fundingTxs twoEntries = Utxo.replaceTx 1 (fun _ _ => none) fundingTx := by
    simp [coinsOf,twoEntries,fundingTxs]
  rw [hcoins,Utxo.replaceTx,hhash]
  funext txid
  by_cases htxid : txid = 5
  · subst htxid
    rw [Function.update_self]
    exact (CCoins.coinAt_fromTx fundingTx 1).symm
  · have hcache : (parentState []).view.base.cacheCoins txid = none := if_neg htxid
    rw [Function.update_of_ne htxid,CCoinsViewCache.utxo_of_none hcache]
    rfl

theorem coinsOf_threeEntries : letI := fundingCrypto
    coinsOf fundingTxs threeEntries = (parentState []).view.base.utxo := by
  let := fundingCrypto
  rw [← coinsOf_twoEntries]
  simp [coinsOf,threeEntries,fundingTxs]

theorem parentState_consistent {entries : List BlockEntry} (hrange : entries.length ≤ MEMPOOL_HEIGHT)
    (hvalid : letI := fundingCrypto; ValidChain fundingTxs entries)
    (hcoins : letI := fundingCrypto; coinsOf fundingTxs entries = (parentState []).view.base.utxo)
    (hapart : letI := fundingCrypto; (6 : Uint256) ∉ txidsOf fundingTxs entries) :
    letI := fundingCrypto
    (parentState entries).Consistent fundingTxs zeroLockTx := by
  let := fundingCrypto
  refine ⟨hvalid,hrange,hcoins.symm,fun txid t ht => ?_,fun txin hmem hpool => ?_⟩
  · by_cases htxid : txid = 6
    · exact htxid ▸ hapart
    · rw [show (parentState entries).view.lookup txid = none from if_neg htxid] at ht
      cases ht
  · rw [List.mem_singleton.mp hmem] at hpool
    simp [parentState] at hpool

theorem twoEntries_valid : letI := fundingCrypto; ValidChain fundingTxs twoEntries := by
  let := fundingCrypto
  exact .add (.genesis _) rfl (by decide) fun tx htx => rfl

theorem twoEntries_consistent : letI := fundingCrypto
    (parentState twoEntries).Consistent fundingTxs zeroLockTx :=
  parentState_consistent (by decide) twoEntries_valid coinsOf_twoEntries (by decide)

theorem threeEntries_consistent : letI := fundingCrypto
    (parentState threeEntries).Consistent fundingTxs zeroLockTx := by
  let := fundingCrypto
  refine parentState_consistent (by decide) (.add twoEntries_valid rfl (by decide) fun tx htx => ?_)
    coinsOf_threeEntries (by decide)
  rw [show fundingTxs 3 = [] by decide] at htx
  cases htx

/-- The entry is accepted on three blocks, and the tip is disconnected. Its lock points are valid,
and yet it is dropped, though it is final. -/
theorem zeroLockTx_dropped : letI := fundingCrypto
    PoolRun fundingTxs zeroLockTx (parentState threeEntries) (parentState twoEntries) ∧
    ∃ lp, checkSequenceLocks ⟨threeEntries⟩ (parentState threeEntries).view zeroLockTx true
        (some {}) false = .ok (true,some lp) ∧
      testLockPointValidity ⟨twoEntries⟩ lp = true ∧
      Prod.fst <$> checkSequenceLocks ⟨twoEntries⟩ (parentState twoEntries).view zeroLockTx true
        (some lp) true = .ok false ∧
      Prod.fst <$> reorgSequenceLocks ⟨twoEntries⟩ (parentState twoEntries).view zeroLockTx true
        lp = .ok false ∧
      Prod.fst <$> checkSequenceLocks ⟨twoEntries⟩ (parentState twoEntries).view zeroLockTx true
        none false = .ok true := by
  let := fundingCrypto
  refine ⟨.disconnectTip (.start threeEntries_consistent) ⟨3,4,1200⟩ _ rfl twoEntries_consistent,
    ⟨2,-1,some ⟨some 1,4,1000,[]⟩⟩,?_,?_,?_,?_,?_⟩ <;> decide

/-- Accepted on two blocks it is kept when a third one is connected. -/
theorem zeroLockTx_kept : letI := fundingCrypto
    Prod.fst <$> reorgSequenceLocks ⟨threeEntries⟩ (parentState threeEntries).view zeroLockTx true
      ⟨1,-1,some ⟨some 1,4,1000,[]⟩⟩ = .ok true := by
  let := fundingCrypto
  have hrun : PoolRun fundingTxs zeroLockTx (parentState twoEntries) (parentState threeEntries) :=
    .connectTip (.start twoEntries_consistent) ⟨3,4,1200⟩ _ rfl threeEntries_consistent
  have hlp : checkSequenceLocks (parentState twoEntries).chain (parentState twoEntries).view
      zeroLockTx true (some {}) false = .ok (true,some ⟨1,-1,some ⟨some 1,4,1000,[]⟩⟩) := by
    decide
  have hbelow : (parentState twoEntries).TipNotBelow zeroLockTx true
      ⟨some 2,4,1100,[⟨1,4,1000⟩]⟩ ⟨some 3,4,1200,twoEntries⟩ := by
    intro _ txin _ _ _
    exact ⟨fun _ => by decide,fun _ => by decide⟩
  exact ((hrun.lockPoints_agree rfl rfl hlp).1 hbelow).2.trans (by decide)

end Sidechain
