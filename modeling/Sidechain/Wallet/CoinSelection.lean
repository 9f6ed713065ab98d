import Sidechain.Library.SubsetSum
import Sidechain.Validation.CheckInputs
import Sidechain.Wallet.WalletState

/-! Which coins a wallet can spend and which of them it takes for an amount: a single coin, all the
smaller ones, or the best subset that a random search finds. A wallet transaction is named by the hash it is
stored under, a coin by its outpoint. -/
namespace Sidechain
open SubsetSum Worklist

def MIN_CHANGE : CAmount := CENT

/-- An output of a wallet transaction that is not spent. -/
structure COutput where
  tx : Uint256
  i : UInt32
  nDepth : ℤ
  fSpendable : Bool
  deriving DecidableEq, Repr

def COutput.coin (out : COutput) : COutPoint := ⟨out.tx,out.i⟩

/-- `destChange` is given by its script. -/
structure CCoinControl where
  destChange : Option CScript := none
  fAllowOtherInputs : Bool := false
  fAllowWatchOnly : Bool := false
  nMinimumTotalFee : CAmount := 0
  setSelected : Finset COutPoint := ∅

def CCoinControl.hasSelected (coinControl : CCoinControl) : Bool := coinControl.setSelected ≠ ∅

/-- What the choice of coins reads beside its arguments; sets of coins are gone through in the order of
the transactions' addresses. -/
structure CoinSource where
  wallet : WalletState
  chainActive : BlockTree
  checkFinalTx : CTransaction → Bool
  inMempool : Uint256 → Bool
  setLockedCoins : Finset COutPoint := ∅
  bSpendZeroConfChange : Bool := true
  coinOrder : Enumeration COutPoint

/-- The outcomes of random choices in a search for coins, and the order in which a sort leaves coins of
one value. -/
structure SearchChoices where
  shuffle : List COutput → List COutput
  shuffle_perm : ∀ l, (shuffle l).Perm l
  sort : List (CAmount × COutPoint) → List (CAmount × COutPoint)
  sort_perm : ∀ l, (sort l).Perm l
  sort_descending : ∀ l, (sort l).Pairwise fun a b => b.1.toInt ≤ a.1.toInt
  /-- The bit for a coin in a repetition of the first or the second approximation. -/
  insecureRand : ℕ → ℕ → ℕ → Bool

/-- The variables of `ApproximateBestSubset`; its sums are sums of coins whose total was formed before. -/
structure SubsetSearch where
  nTotal : ℤ := 0
  fReachedTarget : Bool := false
  vfIncluded : List Bool
  nBest : ℤ
  vfBest : List Bool
  deriving DecidableEq, Repr

namespace SubsetSearch

/-- A coin is put in; if the target is reached it is taken out again. -/
def insertCoin (nTargetValue value : ℤ) (i : ℕ) (s : SubsetSearch) : SubsetSearch :=
  let nTotal := s.nTotal + value
  let vfIncluded := s.vfIncluded.set i true
  if nTotal ≥ nTargetValue then
    { nTotal := nTotal - value
      fReachedTarget := true
      vfIncluded := vfIncluded.set i false
      nBest := if nTotal < s.nBest then nTotal else s.nBest
      vfBest := if nTotal < s.nBest then vfIncluded else s.vfBest }
  else { s with nTotal, vfIncluded }

/-- The first pass takes coins at random, the second the ones that are not in. -/
def pass (nTargetValue : ℤ) (take : ℕ → Option Bool → Bool) :
    List (ℤ × ℕ) → SubsetSearch → SubsetSearch
  | [],s => s
  | (value,i) :: coins,s =>
    pass nTargetValue take coins (if take i s.vfIncluded[i]? then s.insertCoin nTargetValue value i else s)

def repetition (vValue : List ℤ) (nTargetValue : ℤ) (insecureRand : ℕ → Bool) (s : SubsetSearch) :
    SubsetSearch :=
  let s := pass nTargetValue (fun i _ => insecureRand i) vValue.zipIdx
    { s with nTotal := 0, fReachedTarget := false, vfIncluded := List.replicate vValue.length false }
  if s.fReachedTarget then s
  else pass nTargetValue (fun _ included => included == some false) vValue.zipIdx s

def repetitions (vValue : List ℤ) (nTargetValue : ℤ) (insecureRand : ℕ → ℕ → Bool) :
    ℕ → ℕ → SubsetSearch → SubsetSearch
  | 0,_,s => s
  | iterations + 1,nRep,s =>
    if s.nBest = nTargetValue then s
    else repetitions vValue nTargetValue insecureRand iterations (nRep + 1)
      (s.repetition vValue nTargetValue (insecureRand nRep))

/-- Coins that are smaller than the surplus are removed. -/
def reduce (nTargetValue : ℤ) : List (ℤ × ℕ) → SubsetSearch → SubsetSearch
  | [],s => s
  | (value,i) :: coins,s =>
    reduce nTargetValue coins
      (if s.vfBest[i]? = some true ∧ s.nBest - value ≥ nTargetValue then
        { s with vfBest := s.vfBest.set i false, nBest := s.nBest - value }
      else s)

end SubsetSearch

/-- `vfBest` and `nBest`. -/
def approximateBestSubset (vValue : List ℤ) (nTotalLower nTargetValue : ℤ)
    (insecureRand : ℕ → ℕ → Bool) (iterations : ℕ := 1000) : List Bool × ℤ :=
  let s := SubsetSearch.repetitions vValue nTargetValue insecureRand iterations 0
    { vfIncluded := [], nBest := nTotalLower, vfBest := List.replicate vValue.length true }
  let s := s.reduce nTargetValue vValue.zipIdx
  (s.vfBest,s.nBest)

/-- Debits that are kept are not computed again. -/
def CWalletTx.getDebit (wtx : CWalletTx) (w : WalletState) : Outcome CAmount :=
  if wtx.tx.vin = [] then .ok 0
  else do
    let debit ← match wtx.nDebitCached with
      | some nDebit => .ok nDebit
      | none => w.getDebit wtx.tx ISMINE_SPENDABLE
    let watchDebit ← match wtx.nWatchDebitCached with
      | some nDebit => .ok nDebit
      | none => w.getDebit wtx.tx ISMINE_WATCH_ONLY
    addAmount debit watchDebit

/-- `IsFromMe(ISMINE_ALL)`. -/
def CWalletTx.isFromMe (wtx : CWalletTx) (w : WalletState) : Outcome Bool := do
  let debit ← wtx.getDebit w
  pure (decide (0 < debit.toInt))

def CWalletTx.getBlocksToMaturity (wtx : CWalletTx) (t : BlockTree) : ℤ :=
  if wtx.tx.isCoinBase then max 0 (COINBASE_MATURITY + 1 - wtx.getDepthInMainChain t) else 0

namespace CoinSource

def coinOut? (c : CoinSource) (coin : COutPoint) : Option CTxOut :=
  (c.wallet.mapWallet.lookup coin.hash).bind fun pcoin => pcoin.tx.vout[coin.n.toNat]?

/-- `pcoin->vout[i]`. -/
def coinOut (c : CoinSource) (coin : COutPoint) : Outcome CTxOut :=
  match c.coinOut? coin with
  | some txout => .ok txout
  | none => .error (.undefined "pcoin->vout[i]")

/-- All inputs are from the wallet. -/
def trustedInputs (c : CoinSource) : List CTxIn → Outcome Bool
  | [] => .ok true
  | txin :: vin =>
    match c.wallet.mapWallet.lookup txin.prevout.hash with
    | none => .ok false
    | some parent =>
      match parent.tx.vout[txin.prevout.n.toNat]? with
      | none => .error (.undefined "parent->vout[txin.prevout.n]")
      | some parentOut =>
        if c.wallet.isMine parentOut.scriptPubKey ≠ .spendable then .ok false else c.trustedInputs vin

def isTrusted (c : CoinSource) (hash : Uint256) (wtx : CWalletTx) : Outcome Bool :=
  let nDepth := wtx.getDepthInMainChain c.chainActive
  if !c.checkFinalTx wtx.tx then .ok false
  else if nDepth ≥ 1 then .ok true
  else if nDepth < 0 then .ok false
  else if !c.bSpendZeroConfChange then .ok false
  else do
    if !(← wtx.isFromMe c.wallet) then pure false
    else if !c.inMempool hash then pure false
    else c.trustedInputs wtx.tx.vin

/-- An output that is not spent or locked and that coin control allows. -/
def outputAt (c : CoinSource) (coinControl : Option CCoinControl) (hash : Uint256) (wtx : CWalletTx)
    (i : ℕ) : Option COutput :=
  wtx.tx.vout[i]?.bind fun txout =>
    let mine := c.wallet.isMine txout.scriptPubKey
    let coin : COutPoint := ⟨hash,UInt32.ofNat i⟩
    if !c.wallet.isSpent c.chainActive hash coin.n && mine != .no && decide (coin ∉ c.setLockedCoins) &&
        decide (0 < txout.nValue) &&
        coinControl.all (fun control => !control.hasSelected || control.fAllowOtherInputs ||
          decide (coin ∈ control.setSelected)) then
      some
        { tx := hash
          i := coin.n
          nDepth := wtx.getDepthInMainChain c.chainActive
          fSpendable := mine.passes ISMINE_SPENDABLE ||
            coinControl.any (fun control => control.fAllowWatchOnly && mine == .watchSolvable) }
    else none

/-- The outputs of a transaction; their index is an `unsigned int`. -/
def outputsOf (c : CoinSource) (coinControl : Option CCoinControl) (hash : Uint256) (wtx : CWalletTx) :
    List COutput :=
  (List.range (min wtx.tx.vout.length (2^32))).filterMap (c.outputAt coinControl hash wtx)

/-- The coins of one transaction, if it is final, trusted and mature. -/
def availableFrom (c : CoinSource) (coinControl : Option CCoinControl) (hash : Uint256) :
    Outcome (List COutput) :=
  match c.wallet.mapWallet.lookup hash with
  | none => .ok []
  | some wtx => do
    let nDepth := wtx.getDepthInMainChain c.chainActive
    if !c.checkFinalTx wtx.tx then pure []
    else
      let trusted ← c.isTrusted hash wtx
      if !trusted then pure []
      else if wtx.tx.isCoinBase && decide (wtx.getBlocksToMaturity c.chainActive > 0) then pure []
      else if nDepth < 0 then pure []
      else if nDepth = 0 ∧ c.inMempool hash = false then pure []
      else pure (c.outputsOf coinControl hash wtx)

/-- `AvailableCoins(vCoins, true, coinControl)`. -/
def availableCoins (c : CoinSource) (coinControl : Option CCoinControl) : Outcome (List COutput) :=
  (hashOrder.list c.wallet.mapWallet.keys).foldlM
    (fun vCoins hash => do pure (vCoins ++ (← c.availableFrom coinControl hash))) []

/-- The variables of the loop in `SelectCoinsMinConf`; no coin is the lowest larger one while its pointer
is null. -/
structure MinConfSearch where
  vValue : List (CAmount × COutPoint) := []
  nTotalLower : CAmount := 0
  coinLowestLarger : CAmount × Option COutPoint := (Int64.maxValue,none)
  deriving DecidableEq, Repr

def MinConfSearch.place (s : MinConfSearch) (nTargetValue : CAmount) (coin : CAmount × COutPoint) :
    Outcome MinConfSearch := do
  let limit ← addAmount nTargetValue MIN_CHANGE
  if coin.1.toInt < limit.toInt then
    let nTotalLower ← addAmount s.nTotalLower coin.1
    pure { s with vValue := s.vValue ++ [coin], nTotalLower }
  else if coin.1.toInt < s.coinLowestLarger.1.toInt then
    pure { s with coinLowestLarger := (coin.1,some coin.2) }
  else pure s

/-- A coin with its value, if it is spendable and deep enough. -/
def eligibleCoin (c : CoinSource) (nConfMine nConfTheirs : ℤ) (output : COutput) :
    Outcome (Option (CAmount × COutPoint)) :=
  if !output.fSpendable then .ok none
  else
    match c.wallet.mapWallet.lookup output.tx with
    | none => .error (.undefined "output.tx")
    | some pcoin => do
      let fromMe ← pcoin.isFromMe c.wallet
      if output.nDepth < (if fromMe then nConfMine else nConfTheirs) then pure none
      else
        let txout ← c.coinOut output.coin
        pure (some (txout.nValue,output.coin))

/-- The loop of `SelectCoinsMinConf`, which ends at a coin of exactly the value. -/
def minConfLoop (c : CoinSource) (nTargetValue : CAmount) (nConfMine nConfTheirs : ℤ) :
    List COutput → MinConfSearch → Outcome (MinConfSearch ⊕ CAmount × COutPoint)
  | [],s => .ok (.inl s)
  | output :: vCoins,s => do
    match ← c.eligibleCoin nConfMine nConfTheirs output with
    | none => c.minConfLoop nTargetValue nConfMine nConfTheirs vCoins s
    | some coin =>
      if coin.1 = nTargetValue then pure (.inr coin)
      else
        let s ← s.place nTargetValue coin
        c.minConfLoop nTargetValue nConfMine nConfTheirs vCoins s

/-- The coins go into `setCoinsRet` and their values into `nValueRet`. -/
def insertCoins (coins : List (CAmount × COutPoint)) (ret : Finset COutPoint × CAmount) :
    Outcome (Finset COutPoint × CAmount) :=
  coins.foldlM (fun ret coin => do pure (insert coin.2 ret.1,← addAmount ret.2 coin.1)) ret

/-- The best subset for the target, or for the target with the least change if that can be had. -/
def bestSubset (choices : SearchChoices) (values : List ℤ) (nTotalLower nTargetValue limit : ℤ) :
    List Bool × ℤ :=
  let best := approximateBestSubset values nTotalLower nTargetValue (choices.insecureRand 0)
  if best.2 ≠ nTargetValue ∧ nTotalLower ≥ limit then
    approximateBestSubset values nTotalLower limit (choices.insecureRand 1)
  else best

/-- The choice among smaller coins that are worth more than the target, and the lowest larger one. -/
def chooseCoins (choices : SearchChoices) (nTargetValue : CAmount) (s : MinConfSearch) :
    Outcome (Finset COutPoint × CAmount) := do
  let vValue := choices.sort s.vValue
  let limit ← addAmount nTargetValue MIN_CHANGE
  let best := bestSubset choices (vValue.map fun coin => coin.1.toInt) s.nTotalLower.toInt
    nTargetValue.toInt limit.toInt
  match s.coinLowestLarger with
  | (value,some coin) =>
    if (best.2 ≠ nTargetValue.toInt ∧ best.2 < limit.toInt) ∨ value.toInt ≤ best.2 then pure ({coin},value)
    else insertCoins (chosen best.1 vValue) (∅,0)
  | (_,none) => insertCoins (chosen best.1 vValue) (∅,0)

/-- `SelectCoinsMinConf`, with no coins where it returns false. -/
def selectCoinsMinConf (c : CoinSource) (choices : SearchChoices) (nTargetValue : CAmount)
    (nConfMine nConfTheirs : ℤ) (vCoins : List COutput) :
    Outcome (Option (Finset COutPoint × CAmount)) := do
  match ← c.minConfLoop nTargetValue nConfMine nConfTheirs (choices.shuffle vCoins) {} with
  | .inr coin => pure (some ({coin.2},coin.1))
  | .inl s =>
    if s.nTotalLower = nTargetValue then some <$> insertCoins s.vValue (∅,0)
    else if s.nTotalLower.toInt < nTargetValue.toInt then
      match s.coinLowestLarger with
      | (_,none) => pure none
      | (value,some coin) => pure (some ({coin},value))
    else some <$> chooseCoins choices nTargetValue s

/-- The loop over the selected outpoints; it fails at one that the wallet does not have. -/
def presetCoins (c : CoinSource) :
    List COutPoint → Finset COutPoint × CAmount → Outcome (Option (Finset COutPoint × CAmount))
  | [],preset => .ok (some preset)
  | outpoint :: vPresetInputs,preset =>
    match c.coinOut? outpoint with
    | none => .ok none
    | some txout => do
      let nValueFromPresetInputs ← addAmount preset.2 txout.nValue
      c.presetCoins vPresetInputs (insert outpoint preset.1,nValueFromPresetInputs)

/-- All the coins that can be spent, with their values. -/
def allCoins (c : CoinSource) (vCoins : List COutput) : Outcome (List (CAmount × COutPoint)) :=
  (vCoins.filter COutput.fSpendable).mapM fun out => do
    let txout ← c.coinOut out.coin
    pure (txout.nValue,out.coin)

/-- The three searches, each with weaker demands on the depth. -/
def searchCoins (c : CoinSource) (choices : ℕ → SearchChoices) (nTargetValue : CAmount)
    (vCoins : List COutput) : Outcome (Option (Finset COutPoint × CAmount)) := do
  match ← c.selectCoinsMinConf (choices 0) nTargetValue 1 6 vCoins with
  | some ret => pure (some ret)
  | none =>
    match ← c.selectCoinsMinConf (choices 1) nTargetValue 1 1 vCoins with
    | some ret => pure (some ret)
    | none =>
      if c.bSpendZeroConfChange then c.selectCoinsMinConf (choices 2) nTargetValue 0 1 vCoins
      else pure none

/-- Coins for what the preset ones leave open. -/
def otherCoins (c : CoinSource) (choices : ℕ → SearchChoices)
    (nTargetValue nValueFromPresetInputs : CAmount) (vCoins : List COutput) :
    Outcome (Option (Finset COutPoint × CAmount)) :=
  if nTargetValue.toInt ≤ nValueFromPresetInputs.toInt then .ok (some (∅,0))
  else do c.searchCoins choices (← subAmount nTargetValue nValueFromPresetInputs) vCoins

/-- `SelectCoins`, with no coins where it returns false. -/
def selectCoins (c : CoinSource) (choices : ℕ → SearchChoices) (nTargetValue : CAmount)
    (coinControl : Option CCoinControl) : Outcome (Option (Finset COutPoint × CAmount)) := do
  let vCoins ← c.availableCoins coinControl
  let hasSelected := coinControl.any CCoinControl.hasSelected
  if hasSelected && !coinControl.any CCoinControl.fAllowOtherInputs then
    let ret ← insertCoins (← c.allCoins vCoins) (∅,0)
    pure (if ret.2.toInt ≥ nTargetValue.toInt then some ret else none)
  else
    let setSelected := coinControl.elim ∅ CCoinControl.setSelected
    match ← c.presetCoins (c.coinOrder.list setSelected) (∅,0) with
    | none => pure none
    | some preset =>
      let vCoins := if hasSelected then vCoins.filter fun out => out.coin ∉ preset.1 else vCoins
      match ← c.otherCoins choices nTargetValue preset.2 vCoins with
      | none => pure none
      | some ret => pure (some (ret.1 ∪ preset.1,← addAmount ret.2 preset.2))

end CoinSource
end Sidechain
