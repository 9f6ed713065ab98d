import Sidechain.Script.SoftFork
import Sidechain.Validation.ConnectBlock

/-! The flags a block is connected with are among the standard ones, so the scripts of a
transaction that is accepted under the standard flags pass in a block as well. -/
namespace Sidechain
open Run

/-- Flags that standard verification makes harder only by adding checks. -/
structure SoftForkedByStandard (flags : ScriptFlags) : Prop where
  subset : FlagsSubset flags STANDARD_SCRIPT_VERIFY_FLAGS
  nops : hasFlag flags SCRIPT_VERIFY_DISCOURAGE_UPGRADABLE_NOPS = false
  cleanStack : CleanStackNeedsP2SH flags

instance (flags : ScriptFlags) : Decidable (CleanStackNeedsP2SH flags) :=
  inferInstanceAs (Decidable (_ → _))

instance (F1 F2 : ScriptFlags) : Decidable (FlagsSubset F1 F2) :=
  inferInstanceAs (Decidable (_ = _))

theorem mandatory_softForkedByStandard : SoftForkedByStandard MANDATORY_SCRIPT_VERIFY_FLAGS :=
  ⟨by decide,by decide,by decide⟩

theorem blockScriptFlags_softForkedByStandard (node : Node) (block : CBlockHeader)
    (pindex : CBlockIndex) : SoftForkedByStandard (blockScriptFlags node block pindex) := by
  unfold blockScriptFlags
  dsimp only
  constructor
  · split_ifs <;> decide
  · split_ifs <;> decide
  · split_ifs <;> decide

section
variable [Crypto]

theorem failedCheck_ne_ok {check : CScriptCheck} {e : ScriptError} {u : Unit} :
    failedCheck check e ≠ .ok u := by
  intro h
  obtain ⟨verdict,_,hverdict⟩ := bind_ok.mp h
  cases verdict <;> cases hverdict

omit [Crypto] in
theorem scriptCheckFor_flags {tx : CTransaction} {inputs : CCoinsViewCache} {F2 : ScriptFlags}
    {i : ℕ} {check : CScriptCheck} (h : scriptCheckFor tx inputs F2 i = .ok check)
    (F1 : ScriptFlags) : scriptCheckFor tx inputs F1 i = .ok { check with nFlags := F1 } := by
  unfold scriptCheckFor at h ⊢
  cases hin : tx.vin[i]? with
  | none => simp [hin] at h
  | some txin =>
    cases hcoins : inputs.accessCoins txin.prevout.hash with
    | none => simp [hin,hcoins] at h
    | some coins =>
      cases hout : coins.vout[txin.prevout.n.toNat]? with
      | none => simp [hin,hcoins,hout] at h
      | some out =>
        simp only [hin,hcoins,hout] at h ⊢
        cases h
        rfl

omit [Crypto] in
theorem scriptCheckFor_nFlags {tx : CTransaction} {inputs : CCoinsViewCache} {flags : ScriptFlags}
    {i : ℕ} {check : CScriptCheck} (h : scriptCheckFor tx inputs flags i = .ok check) :
    check.nFlags = flags := by
  rw [← Except.ok.inj ((scriptCheckFor_flags h flags).symm.trans h)]

theorem checkInline_ok {tx : CTransaction} {inputs : CCoinsViewCache} {flags : ScriptFlags}
    {i : ℕ} {u : Unit} : checkInline tx inputs flags i = .ok u ↔
      ∃ check, scriptCheckFor tx inputs flags i = .ok check ∧ check.run = .ok (.ok ()) := by
  unfold checkInline
  simp only [bind_ok]
  constructor
  · rintro ⟨check,hcheck,verdict,hrun,hverdict⟩
    cases verdict with
    | error e => exact absurd hverdict failedCheck_ne_ok
    | ok => exact ⟨check,hcheck,hrun⟩
  · rintro ⟨check,hcheck,hrun⟩
    exact ⟨check,hcheck,.ok (),hrun,rfl⟩

variable {flags : ScriptFlags} (hflags : SoftForkedByStandard flags)
include hflags

theorem CScriptCheck.run_softFork {check : CScriptCheck}
    (hnFlags : check.nFlags = STANDARD_SCRIPT_VERIFY_FLAGS) (h : check.run = .ok (.ok ())) :
    { check with nFlags := flags }.run = .ok (.ok ()) := by
  unfold CScriptCheck.run at h ⊢
  cases hin : check.ptxTo.vin[check.nIn]? with
  | none => simp [hin] at h
  | some txin =>
    simp only [hin,hnFlags] at h ⊢
    exact Verifies.softFork hflags.subset hflags.nops _ hflags.cleanStack h

/-- What passes `CheckInputs` under the standard flags passes it under a block's, whether its
scripts are run at once, run from a queue, or not at all. -/
theorem checkInputs_softFork {mapBlockIndex : Uint256 → Option ℕ} {tx : CTransaction}
    {inputs : CCoinsViewCache} {checks : List CScriptCheck}
    (h : checkInputs mapBlockIndex tx inputs true STANDARD_SCRIPT_VERIFY_FLAGS false = .ok checks)
    (fScriptChecks : Bool) :
    checkInputs mapBlockIndex tx inputs fScriptChecks flags false = .ok [] ∧
    ∃ queued, checkInputs mapBlockIndex tx inputs fScriptChecks flags true = .ok queued ∧
      ∀ check ∈ queued, check.run = .ok (.ok ()) := by
  unfold checkInputs at h ⊢
  by_cases hcoinbase : tx.isCoinBase = true
  · simp [hcoinbase]
  · simp only [hcoinbase,Bool.not_true,Bool.false_eq_true,if_false] at h ⊢
    obtain ⟨nSpendHeight,hheight,h⟩ := bind_ok.mp h
    obtain ⟨_,htx,h⟩ := bind_ok.mp h
    obtain ⟨_,hscripts,_⟩ := map_ok.mp h
    have hrun : ∀ i ∈ List.range tx.vin.length, ∃ check,
        scriptCheckFor tx inputs flags i = .ok check ∧ check.run = .ok (.ok ()) := by
      intro i hi
      obtain ⟨check,hcheck,hok⟩ := checkInline_ok.mp (forM_ok.mp hscripts i hi)
      refine ⟨_,scriptCheckFor_flags hcheck flags,?_⟩
      exact CScriptCheck.run_softFork hflags (scriptCheckFor_nFlags hcheck) hok
    have hinline : forM (List.range tx.vin.length) (checkInline tx inputs flags) = .ok () :=
      forM_ok.mpr fun i hi => checkInline_ok.mpr (hrun i hi)
    obtain ⟨queued,hqueued,hall⟩ := mapM_ok_of_forall hrun
    cases fScriptChecks with
    | false =>
      refine ⟨bind_ok.mpr ⟨_,hheight,bind_ok.mpr ⟨_,htx,rfl⟩⟩,[],?_,by simp⟩
      exact bind_ok.mpr ⟨_,hheight,bind_ok.mpr ⟨_,htx,rfl⟩⟩
    | true =>
      refine ⟨bind_ok.mpr ⟨_,hheight,bind_ok.mpr ⟨_,htx,map_ok.mpr ⟨_,hinline,rfl⟩⟩⟩,queued,?_,hall⟩
      exact bind_ok.mpr ⟨_,hheight,bind_ok.mpr ⟨_,htx,hqueued⟩⟩

end

section
variable [Crypto]

/-- How the script checks of `AcceptToMemoryPoolWorker` end; `bug` is the branch that asks to be
reported. -/
inductive ScriptsAnswer where
  | passed
  | failed (h : Halt)
  | bug (h : Halt)
  deriving DecidableEq, Repr

/-- The standard flags first, then only the mandatory ones. -/
def acceptScripts (mapBlockIndex : Uint256 → Option ℕ) (tx : CTransaction)
    (view : CCoinsViewCache) : ScriptsAnswer :=
  match checkInputs mapBlockIndex tx view true STANDARD_SCRIPT_VERIFY_FLAGS false with
  | .error h => .failed h
  | .ok _ =>
    match checkInputs mapBlockIndex tx view true MANDATORY_SCRIPT_VERIFY_FLAGS false with
    | .error h => .bug h
    | .ok _ => .passed

theorem acceptScripts_ne_bug (mapBlockIndex : Uint256 → Option ℕ) (tx : CTransaction)
    (view : CCoinsViewCache) (h : Halt) : acceptScripts mapBlockIndex tx view ≠ .bug h := by
  unfold acceptScripts
  cases hstandard : checkInputs mapBlockIndex tx view true STANDARD_SCRIPT_VERIFY_FLAGS false with
  | error e => simp
  | ok checks =>
    have hmandatory :=
      (checkInputs_softFork mandatory_softForkedByStandard hstandard true).1
    simp [hmandatory]

/-- Verification flags are soft forks. A script that verifies under some flags verifies under fewer
of them, as long as these do not discourage upgradable NOPs and ask for P2SH with a clean stack; a
transaction that passes `CheckInputs` under the standard flags passes it in any block, where the
checks it queues pass as well; and it does not meet the mandatory flags as a bug. -/
theorem verificationFlags_softFork :
    (∀ (scriptSig scriptPubKey : CScript) (checker : BaseSignatureChecker) (F1 F2 : ScriptFlags),
      FlagsSubset F1 F2 → hasFlag F1 SCRIPT_VERIFY_DISCOURAGE_UPGRADABLE_NOPS = false →
      CleanStackNeedsP2SH F1 → CleanStackNeedsP2SH F2 →
      verifyScript scriptSig scriptPubKey F2 checker = .ok (.ok ()) →
      verifyScript scriptSig scriptPubKey F1 checker = .ok (.ok ())) ∧
    (∀ (mapBlockIndex : Uint256 → Option ℕ) (tx : CTransaction) (view : CCoinsViewCache)
      (checks : List CScriptCheck),
      checkInputs mapBlockIndex tx view true STANDARD_SCRIPT_VERIFY_FLAGS false = .ok checks →
      ∀ (node : Node) (block : CBlockHeader) (pindex : CBlockIndex) (fScriptChecks : Bool),
        let flags := blockScriptFlags node block pindex
        checkInputs mapBlockIndex tx view fScriptChecks flags false = .ok [] ∧
        ∃ queued, checkInputs mapBlockIndex tx view fScriptChecks flags true = .ok queued ∧
          ∀ check ∈ queued, check.run = .ok (.ok ())) ∧
    ∀ (mapBlockIndex : Uint256 → Option ℕ) (tx : CTransaction) (view : CCoinsViewCache) (h : Halt),
      acceptScripts mapBlockIndex tx view ≠ .bug h := by
  refine ⟨?_,?_,acceptScripts_ne_bug⟩
  · intro scriptSig scriptPubKey checker F1 F2 hF hnops h1 _ hverify
    exact Verifies.softFork hF hnops checker h1 hverify
  · intro mapBlockIndex tx view checks h node block pindex fScriptChecks
    exact checkInputs_softFork (blockScriptFlags_softForkedByStandard node block pindex) h _

end

section
local instance : Crypto := tableCrypto []

/-- A coin that anyone may spend, and a transaction that does. -/
def openCoins : CCoinsViewCache :=
  { hashBlock := 1
    cacheCoins := fun txid =>
      if txid = 2 then some { coins := { vout := [⟨5000,[0x51]⟩], nHeight := 1 } } else none }

def openSpend : CTransaction := { vin := [{ prevout := ⟨2,0⟩ }], vout := [⟨4000,[]⟩] }

theorem openSpend_passes :
    verifyScript [] [0x51] MANDATORY_SCRIPT_VERIFY_FLAGS {} = .ok (.ok ()) ∧
    (∀ (node : Node) (block : CBlockHeader) (pindex : CBlockIndex),
      checkInputs (fun _ => some 1) openSpend openCoins true (blockScriptFlags node block pindex)
        false = .ok []) ∧
    ∀ h, acceptScripts (fun _ => some 1) openSpend openCoins ≠ .bug h := by
  have hpasses : (checkInputs (fun _ => some 1) openSpend openCoins true
      STANDARD_SCRIPT_VERIFY_FLAGS false).toBool = true := by decide
  obtain ⟨checks,hstandard⟩ : ∃ checks, checkInputs (fun _ => some 1) openSpend openCoins true
      STANDARD_SCRIPT_VERIFY_FLAGS false = .ok checks := by
    cases h : checkInputs (fun _ => some 1) openSpend openCoins true
      STANDARD_SCRIPT_VERIFY_FLAGS false with
    | error e =>
      rw [h] at hpasses
      cases hpasses
    | ok checks => exact ⟨checks,rfl⟩
  refine ⟨?_,?_,?_⟩
  · exact verificationFlags_softFork.1 [] [0x51] {} _ STANDARD_SCRIPT_VERIFY_FLAGS (by decide)
      (by decide) (by decide) (by decide) (by decide)
  · intro node block pindex
    exact (verificationFlags_softFork.2.1 _ _ _ _ hstandard node block pindex true).1
  · exact verificationFlags_softFork.2.2 _ _ _

end
end Sidechain
