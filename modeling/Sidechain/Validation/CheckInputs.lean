import Sidechain.Validation.CheckBlock
import Sidechain.Coins.Update
import Sidechain.Script.Verify

/-! The checks of a transaction against the coins it spends: availability, maturity, amounts and
scripts, the latter done at once or queued for the end of the block. -/
namespace Sidechain
open Run

def COINBASE_MATURITY : ℤ := 100

def MANDATORY_SCRIPT_VERIFY_FLAGS : ScriptFlags := SCRIPT_VERIFY_P2SH
def STANDARD_SCRIPT_VERIFY_FLAGS : ScriptFlags :=
  MANDATORY_SCRIPT_VERIFY_FLAGS ||| SCRIPT_VERIFY_DERSIG ||| SCRIPT_VERIFY_STRICTENC |||
    SCRIPT_VERIFY_MINIMALDATA ||| SCRIPT_VERIFY_NULLDUMMY |||
    SCRIPT_VERIFY_DISCOURAGE_UPGRADABLE_NOPS ||| SCRIPT_VERIFY_CLEANSTACK |||
    SCRIPT_VERIFY_CHECKLOCKTIMEVERIFY ||| SCRIPT_VERIFY_CHECKSEQUENCEVERIFY ||| SCRIPT_VERIFY_LOW_S
def STANDARD_NOT_MANDATORY_VERIFY_FLAGS : ScriptFlags :=
  STANDARD_SCRIPT_VERIFY_FLAGS &&& ~~~MANDATORY_SCRIPT_VERIFY_FLAGS

/-- The checks of one input before any script is run. -/
def checkTxInput (inputs : CCoinsViewCache) (nSpendHeight : ℕ) (nValueIn : CAmount) (txin : CTxIn) :
    Outcome CAmount :=
  match inputs.accessCoins txin.prevout.hash with
  | none => .error (.assertion "coins")
  | some coins => do
    require (¬ (coins.fCoinBase ∧ (nSpendHeight : ℤ) - coins.nHeight < COINBASE_MATURITY))
      (invalid REJECT_INVALID "bad-txns-premature-spend-of-coinbase")
    match coins.vout[txin.prevout.n.toNat]? with
    | none => .error (.undefined "coins->vout[prevout.n]")
    | some out =>
      let nValueIn ← addAmount nValueIn out.nValue
      require (moneyRange out.nValue ∧ moneyRange nValueIn)
        (dos 100 REJECT_INVALID "bad-txns-inputvalues-outofrange")
      pure nValueIn

def checkTxInputs (tx : CTransaction) (inputs : CCoinsViewCache) (nSpendHeight : ℕ) :
    Outcome Unit := do
  require (inputs.haveInputs tx) (invalid 0 "")
  let nValueIn ← tx.vin.foldlM (checkTxInput inputs nSpendHeight) 0
  let nValueOut ← tx.getValueOut
  require (¬ nValueIn < nValueOut) (dos 100 REJECT_INVALID "bad-txns-in-belowout")
  let nTxFee ← subAmount nValueIn nValueOut
  require (¬ nTxFee < 0) (dos 100 REJECT_INVALID "bad-txns-fee-negative")
  let nFees ← addAmount 0 nTxFee
  require (moneyRange nFees) (dos 100 REJECT_INVALID "bad-txns-fee-outofrange")

/-- A script of one input that is still to be verified. -/
structure CScriptCheck where
  scriptPubKey : CScript
  ptxTo : CTransaction
  nIn : ℕ
  nFlags : ScriptFlags

/-- The height of the block after the one a view belongs to. -/
def getSpendHeight (mapBlockIndex : Uint256 → Option ℕ) (inputs : CCoinsViewCache) : Outcome ℕ :=
  match mapBlockIndex inputs.getBestBlock with
  | none => .error (.undefined "mapBlockIndex.find(inputs.GetBestBlock())->second")
  | some nHeight => .ok (nHeight + 1)

def scriptCheckFor (tx : CTransaction) (inputs : CCoinsViewCache) (flags : ScriptFlags) (i : ℕ) :
    Outcome CScriptCheck :=
  match tx.vin[i]? with
  | none => .error (.undefined "tx.vin[i]")
  | some txin =>
    match inputs.accessCoins txin.prevout.hash with
    | none => .error (.assertion "coins")
    | some coins =>
      match coins.vout[txin.prevout.n.toNat]? with
      | none => .error (.undefined "txFromIn.vout[txToIn.vin[nInIn].prevout.n]")
      | some out => .ok ⟨out.scriptPubKey,tx,i,flags⟩

section
variable [Crypto]

/-- `CScriptCheck::operator()` with the error it leaves. -/
def CScriptCheck.run (check : CScriptCheck) : Outcome (Except ScriptError Unit) :=
  match check.ptxTo.vin[check.nIn]? with
  | none => .error (.undefined "ptxTo->vin[nIn]")
  | some txin =>
    verifyScript txin.scriptSig check.scriptPubKey check.nFlags
      (transactionSignatureChecker check.ptxTo check.nIn txin)

/-- The second check of a failed script, without the flags that are not mandatory. -/
def checkMandatory (check : CScriptCheck) (e : ScriptError) : Outcome (Except ScriptError Unit) :=
  if hasFlag check.nFlags STANDARD_NOT_MANDATORY_VERIFY_FLAGS then
    { check with nFlags := check.nFlags &&& ~~~STANDARD_NOT_MANDATORY_VERIFY_FLAGS }.run
  else .ok (.error e)

/-- The verdict on a failed script is milder if the mandatory flags alone accept it. -/
def failedCheck (check : CScriptCheck) (e : ScriptError) : Outcome Unit := do
  match ← checkMandatory check e with
  | .ok () =>
    invalid REJECT_NONSTANDARD ("non-mandatory-script-verify-flag (" ++ scriptErrorString e ++ ")")
  | .error _ =>
    dos 100 REJECT_INVALID ("mandatory-script-verify-flag-failed (" ++ scriptErrorString e ++ ")")

def checkInline (tx : CTransaction) (inputs : CCoinsViewCache) (flags : ScriptFlags) (i : ℕ) :
    Outcome Unit := do
  let check ← scriptCheckFor tx inputs flags i
  match ← check.run with
  | .ok () => pure ()
  | .error e => failedCheck check e

/-- The checks it returns are left for a queue, when there is one. -/
def checkInputs (mapBlockIndex : Uint256 → Option ℕ) (tx : CTransaction)
    (inputs : CCoinsViewCache) (fScriptChecks : Bool) (flags : ScriptFlags) (fQueue : Bool) :
    Outcome (List CScriptCheck) :=
  if tx.isCoinBase then .ok []
  else do
    let nSpendHeight ← getSpendHeight mapBlockIndex inputs
    checkTxInputs tx inputs nSpendHeight
    if !fScriptChecks then pure []
    else if fQueue then (List.range tx.vin.length).mapM (scriptCheckFor tx inputs flags)
    else (fun _ => []) <$> forM (List.range tx.vin.length) (checkInline tx inputs flags)

end
end Sidechain
