import Sidechain.Script.Verify
import Sidechain.Wallet.CoinSelection
import Sidechain.Wallet.KeyPool

/-! How the wallet makes a payment: coins are chosen for a fee, the transaction is made and signed, and
with its size known the fee is raised and all of it done again, until the fee is enough. -/
namespace Sidechain

def MAX_FREE_TRANSACTION_CREATE_SIZE : ℕ := 1000
def MAX_STANDARD_TX_SIZE : ℕ := 100000

structure CRecipient where
  scriptPubKey : CScript
  nAmount : CAmount
  fSubtractFeeFromAmount : Bool := false
  deriving DecidableEq, Repr

/-- How a payment fails to be made: with a reason, or as any function can. -/
inductive CreateFailure where
  | failed (strFailReason : String)
  | halt (h : Halt)
  deriving DecidableEq, Repr

abbrev Creation (α : Type) := Except CreateFailure α

def Creation.lift {α : Type} (x : Outcome α) : Creation α := x.mapError CreateFailure.halt

/-- The fee rates of the wallet and the node. -/
structure FeePolicy where
  payTxFee : CFeeRate := ⟨0⟩
  minTxFee : CFeeRate := ⟨1000⟩
  fallbackFee : CFeeRate := ⟨20000⟩
  minRelayTxFee : CFeeRate := ⟨1000⟩
  maxTxFee : CAmount := 10000000
  fSendFreeTransactions : Bool := false

namespace FeePolicy

def getRequiredFee (p : FeePolicy) (nTxBytes : ℕ) : ℤ :=
  max (p.minTxFee.getFee nTxBytes) (p.minRelayTxFee.getFee nTxBytes)

/-- The estimate is that of the memory pool for the confirmation target. -/
def getMinimumFee (p : FeePolicy) (estimateSmartFee : CFeeRate) (nTxBytes : ℕ) : ℤ :=
  let nFeeNeeded := p.payTxFee.getFee nTxBytes
  let nFeeNeeded :=
    if nFeeNeeded = 0 then
      let nFeeNeeded := estimateSmartFee.getFee nTxBytes
      if nFeeNeeded = 0 then p.fallbackFee.getFee nTxBytes else nFeeNeeded
    else nFeeNeeded
  let nFeeNeeded := max nFeeNeeded (p.getRequiredFee nTxBytes)
  if nFeeNeeded > p.maxTxFee.toInt then p.maxTxFee.toInt else nFeeNeeded

/-- The minimum, or the total fee that coin control asks for. -/
def feeNeeded (p : FeePolicy) (estimateSmartFee : CFeeRate) (coinControl : Option CCoinControl)
    (nBytes : ℕ) : ℤ :=
  let nFeeNeeded := p.getMinimumFee estimateSmartFee nBytes
  match coinControl with
  | some control =>
    if nFeeNeeded > 0 ∧ control.nMinimumTotalFee.toInt > nFeeNeeded then control.nMinimumTotalFee.toInt
    else nFeeNeeded
  | none => nFeeNeeded

end FeePolicy

namespace CTxOut

def getDustThreshold (txout : CTxOut) (minRelayTxFee : CFeeRate) : ℤ :=
  if txout.scriptPubKey.isUnspendable then 0
  else 3 * minRelayTxFee.getFee (txout.serialize.length + 148)

def isDust (txout : CTxOut) (minRelayTxFee : CFeeRate) : Bool :=
  decide (txout.nValue.toInt < txout.getDustThreshold minRelayTxFee)

end CTxOut

/-- What a round depends on beside the wallet: random choices and what the memory pool estimates. -/
structure RoundChoices where
  search : ℕ → SearchChoices
  nChangePos : ℕ
  estimateSmartFee : CFeeRate
  /-- The priority of a transaction of this size with these coins is high enough to send it free. -/
  enoughPriority : Finset COutPoint → ℕ → Bool

/-- The wallet that makes payments. `produceSignature` signs, or fills in a dummy if its first argument is
false. -/
structure Payer extends CoinSource, FeePolicy where
  produceSignature : Bool → CTransaction → ℕ → CScript → Option CScript
  scriptForKey : CPubKey → CScript
  reservekey : ℕ := 0

/-- The arguments of `CreateTransaction`. -/
structure PaymentArgs where
  vecSend : List CRecipient
  coinControl : Option CCoinControl := none
  sign : Bool := true

/-- What a round of `CreateTransaction` has made. -/
structure CreatedTx where
  wtxNew : CTransaction
  nFeeRet : ℤ
  nChangePosRet : ℤ
  setCoins : Finset COutPoint
  /-- The size with the signatures. -/
  nBytes : ℕ
  keys : KeyPoolState

def PaymentArgs.nSubtractFeeFromAmount (args : PaymentArgs) : ℕ :=
  args.vecSend.countP CRecipient.fSubtractFeeFromAmount

/-- The sum of the amounts; a sum that is negative has overflown. -/
def sumAmounts : List CRecipient → CAmount → Creation CAmount
  | [],nValue => .ok nValue
  | recipient :: vecSend,nValue =>
    if nValue.toInt < 0 ∨ recipient.nAmount.toInt < 0 then
      .error (.failed "Transaction amounts must be positive")
    else do
      let nValue ← Creation.lift (addAmount nValue recipient.nAmount)
      sumAmounts vecSend nValue

/-- The lock time is the height, or now and then up to 99 blocks less. -/
def lockTime (nHeight : ℤ) (back : Option ℕ) : Outcome UInt32 := do
  let unsignedHeight := UInt32.ofNat (nHeight % 2^32).toNat
  let nLockTime :=
    match back with
    | none => unsignedHeight
    | some rand =>
      UInt32.ofNat (max 0 (unsignedHeight.toInt32.toInt - (rand % 100 : ℕ)) % 2^32).toNat
  require (nLockTime ≤ unsignedHeight)
    (.error (.assertion "txNew.nLockTime <= (unsigned int)chainActive.Height()"))
  require (nLockTime.toNat < LOCKTIME_THRESHOLD)
    (.error (.assertion "txNew.nLockTime < LOCKTIME_THRESHOLD"))
  pure nLockTime

/-- The fee is added unless recipients pay for it. -/
def PaymentArgs.valueToSelect (args : PaymentArgs) (nValue : CAmount) (nFeeRet : ℤ) : Creation CAmount :=
  if args.nSubtractFeeFromAmount = 0 then Creation.lift (checked (nValue.toInt + nFeeRet))
  else .ok nValue

/-- A recipient's amount without its part of the fee; the first one pays the remainder. -/
def payeeAmount (nFeeRet : ℤ) (nSubtractFeeFromAmount : ℕ) (fFirst : Bool) (recipient : CRecipient) :
    Outcome CAmount :=
  if !recipient.fSubtractFeeFromAmount then .ok recipient.nAmount
  else do
    let nValue ← checked (recipient.nAmount.toInt - nFeeRet.tdiv nSubtractFeeFromAmount)
    if fFirst then checked (nValue.toInt - nFeeRet.tmod nSubtractFeeFromAmount) else pure nValue

def tooSmall (nFeeRet : ℤ) (recipient : CRecipient) (nValue : CAmount) : String :=
  if recipient.fSubtractFeeFromAmount = true ∧ nFeeRet > 0 then
    if nValue.toInt < 0 then "The transaction amount is too small to pay the fee"
    else "The transaction amount is too small to send after the fee has been deducted"
  else "Transaction amount too small"

/-- The outputs to the payees. -/
def payeeOuts (minRelayTxFee : CFeeRate) (nFeeRet : ℤ) (nSubtractFeeFromAmount : ℕ) :
    Bool → List CRecipient → Creation (List CTxOut)
  | _,[] => .ok []
  | fFirst,recipient :: vecSend => do
    let nValue ← Creation.lift (payeeAmount nFeeRet nSubtractFeeFromAmount fFirst recipient)
    let txout : CTxOut := ⟨nValue,recipient.scriptPubKey⟩
    if txout.isDust minRelayTxFee then .error (.failed (tooSmall nFeeRet recipient nValue))
    else
      let vout ← payeeOuts minRelayTxFee nFeeRet nSubtractFeeFromAmount
        (fFirst && !recipient.fSubtractFeeFromAmount) vecSend
      pure (txout :: vout)

/-- The first recipient that pays the fee pays this amount too. -/
def deductFirst (minRelayTxFee : CFeeRate) (nDust : ℤ) :
    List CRecipient → List CTxOut → Creation (List CTxOut)
  | recipient :: vecSend,txout :: vout =>
    if recipient.fSubtractFeeFromAmount then do
      let nValue ← Creation.lift (checked (txout.nValue.toInt - nDust))
      let txout := { txout with nValue }
      if txout.isDust minRelayTxFee then
        .error (.failed "The transaction amount is too small to send after the fee has been deducted")
      else pure (txout :: vout)
    else do
      let vout ← deductFirst minRelayTxFee nDust vecSend vout
      pure (txout :: vout)
  | _,vout => .ok vout

/-- Change that is dust is raised until it is not, at the cost of a recipient. -/
def raiseChange (minRelayTxFee : CFeeRate) (vecSend : List CRecipient) (vout : List CTxOut)
    (newTxOut : CTxOut) : Creation (List CTxOut × CTxOut) := do
  let nDust := newTxOut.getDustThreshold minRelayTxFee - newTxOut.nValue.toInt
  let nValue ← Creation.lift (checked (newTxOut.nValue.toInt + nDust))
  let vout ← deductFirst minRelayTxFee nDust vecSend vout
  pure (vout,{ newTxOut with nValue })

namespace Payer

/-- Change goes to the address of coin control, or to a reserved key. -/
def scriptChange (p : Payer) (coinControl : Option CCoinControl) (keys : KeyPoolState) :
    Outcome (CScript × KeyPoolState) :=
  match coinControl.bind CCoinControl.destChange with
  | some script => .ok (script,keys)
  | none => do
    let keys ← keys.getReservedKey p.reservekey
    match keys.holders.lookup p.reservekey with
    | none => .error (.assertion "ret")
    | some (_,vchPubKey) => pure (p.scriptForKey vchPubKey,keys)

/-- Change that is dust is raised if recipients pay for the fee. -/
def raiseDust (p : Payer) (args : PaymentArgs) (vout : List CTxOut) (newTxOut : CTxOut) :
    Creation (List CTxOut × CTxOut) :=
  if args.nSubtractFeeFromAmount > 0 ∧ newTxOut.isDust p.minRelayTxFee then
    raiseChange p.minRelayTxFee args.vecSend vout newTxOut
  else .ok (vout,newTxOut)

/-- Dust is added to the fee, other change inserted at a random position. -/
def placeChange (p : Payer) (nRandPos : ℕ) (nFeeRet : ℤ) (nChange : CAmount) (vout : List CTxOut)
    (newTxOut : CTxOut) (keys : KeyPoolState) : Creation (List CTxOut × ℤ × ℤ × KeyPoolState) :=
  if newTxOut.isDust p.minRelayTxFee then do
    let nFeeRet ← Creation.lift (checked (nFeeRet + nChange.toInt))
    pure (vout,nFeeRet.toInt,-1,keys.returnKey p.reservekey)
  else
    let nChangePosRet := nRandPos % (vout.length + 1)
    .ok (vout.insertIdx nChangePosRet newTxOut,nFeeRet,nChangePosRet,keys)

/-- The outputs with the change, the fee, and where the change is. -/
def addChange (p : Payer) (args : PaymentArgs) (nRandPos : ℕ) (nFeeRet : ℤ) (nChange : CAmount)
    (vout : List CTxOut) (keys : KeyPoolState) : Creation (List CTxOut × ℤ × ℤ × KeyPoolState) :=
  if nChange.toInt > 0 then do
    let change ← Creation.lift (p.scriptChange args.coinControl keys)
    let raised ← p.raiseDust args vout ⟨nChange,change.1⟩
    p.placeChange nRandPos nFeeRet nChange raised.1 raised.2 change.2
  else .ok (vout,nFeeRet,-1,keys.returnKey p.reservekey)

/-- The age of the coins counts for the priority. -/
def checkAges (p : Payer) (coins : List COutPoint) : Outcome Unit :=
  coins.forM fun coin =>
    match p.wallet.mapWallet.lookup coin.hash with
    | none => .error (.undefined "pcoin.first->GetDepthInMainChain()")
    | some pcoin =>
      require (pcoin.getDepthInMainChain p.chainActive ≥ 0) (.error (.assertion "age >= 0"))

/-- The inputs with their signatures; the sequence number is set to max()-1 so that the lock time works. -/
def signInputs (p : Payer) (sign : Bool) (txNewConst : CTransaction) :
    ℕ → List COutPoint → Creation (List CTxIn)
  | _,[] => .ok []
  | nIn,coin :: coins => do
    let txout ← Creation.lift (p.coinOut coin)
    match p.produceSignature sign txNewConst nIn txout.scriptPubKey with
    | none => .error (.failed "Signing transaction failed")
    | some scriptSig =>
      let vin ← p.signInputs sign txNewConst (nIn + 1) coins
      pure (⟨coin,scriptSig,0xfffffffe⟩ :: vin)

/-- A round of the loop up to the transaction and its size. -/
def createRound (p : Payer) (args : PaymentArgs) (choices : RoundChoices) (nLockTime : UInt32)
    (nValue : CAmount) (nFeeRet : ℤ) (keys : KeyPoolState) : Creation CreatedTx := do
  let nValueToSelect ← args.valueToSelect nValue nFeeRet
  let vout ← payeeOuts p.minRelayTxFee nFeeRet args.nSubtractFeeFromAmount true args.vecSend
  match ← Creation.lift (p.selectCoins choices.search nValueToSelect args.coinControl) with
  | none => .error (.failed "Insufficient funds")
  | some (setCoins,nValueIn) =>
    let coins := p.coinOrder.list setCoins
    Creation.lift (p.checkAges coins)
    let nChange ← Creation.lift (subAmount nValueIn nValueToSelect)
    let (vout,nFeeRet,nChangePosRet,keys) ← p.addChange args choices.nChangePos nFeeRet nChange vout keys
    let txNew : CTransaction := { vin := coins.map fun coin => ⟨coin,[],0xfffffffe⟩, vout, nLockTime }
    let vin ← p.signInputs args.sign txNew 0 coins
    let nBytes := { txNew with vin }.getSerializeSize
    if nBytes ≥ MAX_STANDARD_TX_SIZE then .error (.failed "Transaction too large")
    else
      -- dummy signatures are removed again
      let wtxNew := if args.sign then { txNew with vin } else txNew
      pure { wtxNew, nFeeRet, nChangePosRet, setCoins, nBytes, keys }

/-- The transaction can be completed as a free one. -/
def free (p : Payer) (choices : RoundChoices) (r : CreatedTx) : Bool :=
  p.fSendFreeTransactions && decide (r.nBytes ≤ MAX_FREE_TRANSACTION_CREATE_SIZE) &&
    choices.enoughPriority r.setCoins r.nBytes

/-- Whether the round was the last one, or with which fee to go on. -/
def conclude (p : Payer) (args : PaymentArgs) (choices : RoundChoices) (r : CreatedTx) :
    Creation (Option ℤ) :=
  if p.free choices r then .ok none
  else
    let nFeeNeeded := p.feeNeeded choices.estimateSmartFee args.coinControl r.nBytes
    if nFeeNeeded < p.minRelayTxFee.getFee r.nBytes then
      .error (.failed "Transaction too large for fee policy")
    else if r.nFeeRet ≥ nFeeNeeded then .ok none
    else .ok (some nFeeNeeded)

/-- The loop; after this number of rounds it may not be done. -/
def createLoop (p : Payer) (args : PaymentArgs) (choices : ℕ → RoundChoices) (nLockTime : UInt32)
    (nValue : CAmount) : ℕ → ℕ → ℤ → KeyPoolState → Option (Creation CreatedTx)
  | 0,_,_,_ => none
  | rounds + 1,nRound,nFeeRet,keys =>
    match p.createRound args (choices nRound) nLockTime nValue nFeeRet keys with
    | .error e => some (.error e)
    | .ok r =>
      match p.conclude args (choices nRound) r with
      | .error e => some (.error e)
      | .ok none => some (.ok r)
      | .ok (some nFeeNeeded) =>
        p.createLoop args choices nLockTime nValue rounds (nRound + 1) nFeeNeeded r.keys

/-- `CreateTransaction` up to its loop: the sum of the amounts and the lock time. -/
def prepare (p : Payer) (args : PaymentArgs) (back : Option ℕ) : Creation (CAmount × UInt32) := do
  let nValue ← sumAmounts args.vecSend 0
  if args.vecSend = [] ∨ nValue.toInt < 0 then
    .error (.failed "Transaction amounts must be positive")
  else
    let nLockTime ← Creation.lift (lockTime p.chainActive.height back)
    pure (nValue,nLockTime)

/-- `CreateTransaction`, unless it goes on for more than a number of rounds. -/
def createTransaction (p : Payer) (args : PaymentArgs) (back : Option ℕ) (choices : ℕ → RoundChoices)
    (rounds : ℕ) (keys : KeyPoolState) : Option (Creation CreatedTx) :=
  match p.prepare args back with
  | .error e => some (.error e)
  | .ok (nValue,nLockTime) => p.createLoop args choices nLockTime nValue rounds 0 0 keys

end Payer
end Sidechain
