import Sidechain.Wallet.CoinsReached
import Sidechain.Wallet.CreateTransaction

/-! What a payment that is made adds up to: the inputs are worth the outputs and the fee, every payee
has its amount or what the fee leaves of it, and the loop ends because the fee only grows. -/
namespace Sidechain
open Run

theorem Creation.lift_ok {α : Type} {x : Outcome α} {a : α} : Creation.lift x = .ok a ↔ x = .ok a := by
  cases x with
  | error e =>
    constructor
    · intro h
      cases h
    · intro h
      cases h
  | ok b =>
    constructor
    · intro h
      exact congrArg Except.ok (Except.ok.inj h)
    · intro h
      exact congrArg Except.ok (Except.ok.inj h)

/-- The sum of the amounts to pay. -/
def amountSum (vecSend : List CRecipient) : ℤ := (vecSend.map fun recipient => recipient.nAmount.toInt).sum

@[simp] theorem amountSum_nil : amountSum [] = 0 := rfl

@[simp] theorem amountSum_cons (recipient : CRecipient) (vecSend : List CRecipient) :
    amountSum (recipient :: vecSend) = recipient.nAmount.toInt + amountSum vecSend := List.sum_cons

theorem valueSum_insertIdx {vout : List CTxOut} {i : ℕ} (hi : i ≤ vout.length) (txout : CTxOut) :
    valueSum (vout.insertIdx i txout) = txout.nValue.toInt + valueSum vout := by
  have hperm := List.perm_insertIdx txout vout hi
  exact ((hperm.map _).sum_eq).trans List.sum_cons

/-- An output pays a recipient, who gets exactly the amount unless it pays for the fee. -/
structure PaysRecipient (recipient : CRecipient) (txout : CTxOut) : Prop where
  scriptPubKey : txout.scriptPubKey = recipient.scriptPubKey
  amount : recipient.fSubtractFeeFromAmount = false → txout.nValue = recipient.nAmount

variable {minRelayTxFee : CFeeRate} {nFeeRet : ℤ} {k : ℕ}

theorem payeeAmount_ok {fFirst : Bool} {recipient : CRecipient} {nValue : CAmount}
    (h : payeeAmount nFeeRet k fFirst recipient = .ok nValue) :
    nValue.toInt = recipient.nAmount.toInt -
      (if recipient.fSubtractFeeFromAmount then
        nFeeRet.tdiv k + (if fFirst then nFeeRet.tmod k else 0) else 0) := by
  unfold payeeAmount at h
  cases hflag : recipient.fSubtractFeeFromAmount with
  | false =>
    rw [hflag] at h
    obtain rfl := Except.ok.inj h
    exact (sub_zero _).symm
  | true =>
    rw [hflag] at h
    obtain ⟨part,hpart,h⟩ := bind_ok.mp h
    rw [checked_ok] at hpart
    cases fFirst with
    | false =>
      obtain rfl := pure_ok.mp h
      rw [hpart,if_pos rfl,if_neg Bool.false_ne_true,add_zero]
    | true =>
      have hvalue := checked_ok.mp h
      rw [hvalue,hpart,sub_sub]
      rfl

theorem payeeOuts_spec {fFirst : Bool} {vecSend : List CRecipient} {vout : List CTxOut}
    (h : payeeOuts minRelayTxFee nFeeRet k fFirst vecSend = .ok vout) :
    List.Forall₂ PaysRecipient vecSend vout ∧ (∀ txout ∈ vout, txout.isDust minRelayTxFee = false) ∧
      valueSum vout = amountSum vecSend -
        (vecSend.countP CRecipient.fSubtractFeeFromAmount) * nFeeRet.tdiv k -
        (if fFirst = true ∧ 0 < vecSend.countP CRecipient.fSubtractFeeFromAmount then
          nFeeRet.tmod k else 0) := by
  induction vecSend generalizing fFirst vout with
  | nil =>
    cases h
    refine ⟨.nil,(fun _ h => absurd h List.not_mem_nil),?_⟩
    simp
  | cons recipient vecSend ih =>
    rw [payeeOuts] at h
    obtain ⟨nValue,hvalue,h⟩ := bind_ok.mp h
    have hamount := payeeAmount_ok (Creation.lift_ok.mp hvalue)
    dsimp only at h
    split_ifs at h with hdust
    obtain ⟨rest,hrest,h⟩ := bind_ok.mp h
    cases h
    obtain ⟨hpays,hnodust,hsum⟩ := ih hrest
    refine ⟨.cons ⟨rfl,fun hflag => ?_⟩ hpays,fun txout htxout => ?_,?_⟩
    · rw [hflag] at hamount
      exact Int64.toInt_inj.mp (hamount.trans (sub_zero _))
    · rcases List.mem_cons.mp htxout with rfl | htxout
      · exact Bool.eq_false_iff.mpr hdust
      · exact hnodust txout htxout
    · rw [valueSum_cons,amountSum_cons,hsum,hamount]
      cases hflag : recipient.fSubtractFeeFromAmount with
      | false =>
        rw [List.countP_cons_of_neg (by rw [hflag]; exact Bool.false_ne_true),Bool.not_false,Bool.and_true,
          if_neg Bool.false_ne_true]
        ring
      | true =>
        rw [List.countP_cons_of_pos hflag]
        cases fFirst with
        | false =>
          simp only [Bool.false_and,Bool.false_eq_true,false_and,if_false,if_true,Nat.cast_succ]
          ring
        | true =>
          simp only [Bool.not_true,Bool.and_false,Bool.false_eq_true,false_and,if_false,if_true,true_and,
            Nat.succ_pos,Nat.cast_succ]
          ring

theorem deductFirst_spec {nDust : ℤ} {vecSend : List CRecipient} {vout vout' : List CTxOut}
    (h : deductFirst minRelayTxFee nDust vecSend vout = .ok vout') (hpays : List.Forall₂ PaysRecipient vecSend vout)
    (hnodust : ∀ txout ∈ vout, txout.isDust minRelayTxFee = false)
    (hsome : 0 < vecSend.countP CRecipient.fSubtractFeeFromAmount) :
    List.Forall₂ PaysRecipient vecSend vout' ∧ (∀ txout ∈ vout', txout.isDust minRelayTxFee = false) ∧
      valueSum vout' = valueSum vout - nDust := by
  induction hpays generalizing vout' with
  | nil => exact absurd hsome (lt_irrefl 0)
  | @cons recipient txout vecSend vout hpay hpays ih =>
    rw [deductFirst] at h
    split_ifs at h with hflag
    · obtain ⟨nValue,hvalue,h⟩ := bind_ok.mp h
      rw [Creation.lift_ok,checked_ok] at hvalue
      dsimp only at h
      split_ifs at h with hdust
      cases h
      refine ⟨.cons ⟨hpay.scriptPubKey,fun hno => absurd (hno.symm.trans hflag) Bool.false_ne_true⟩ hpays,
        fun x hx => ?_,?_⟩
      · rcases List.mem_cons.mp hx with rfl | hx
        · exact Bool.eq_false_iff.mpr hdust
        · exact hnodust x (List.mem_cons_of_mem txout hx)
      · rw [valueSum_cons,valueSum_cons,hvalue]
        ring
    · obtain ⟨rest,hrest,h⟩ := bind_ok.mp h
      cases h
      rw [List.countP_cons_of_neg hflag] at hsome
      obtain ⟨hpays',hnodust',hsum⟩ := ih hrest (fun x hx => hnodust x (List.mem_cons_of_mem txout hx)) hsome
      refine ⟨.cons hpay hpays',fun x hx => ?_,?_⟩
      · rcases List.mem_cons.mp hx with rfl | hx
        · exact hnodust x List.mem_cons_self
        · exact hnodust' x hx
      · rw [valueSum_cons,valueSum_cons,hsum]
        ring

/-- What the recipients that pay for the fee get. -/
def subtractedSum (vecSend : List CRecipient) (vout : List CTxOut) : ℤ :=
  valueSum (((vecSend.zip vout).filter fun pair => pair.1.fSubtractFeeFromAmount).map Prod.snd)

theorem subtractedSum_eq {vecSend : List CRecipient} {vout : List CTxOut}
    (hpays : List.Forall₂ PaysRecipient vecSend vout) : subtractedSum vecSend vout =
      amountSum (vecSend.filter CRecipient.fSubtractFeeFromAmount) -
        (amountSum vecSend - valueSum vout) := by
  induction hpays with
  | nil => rfl
  | @cons recipient txout vecSend vout hpay hpays ih =>
    unfold subtractedSum at ih ⊢
    rw [List.zip_cons_cons,amountSum_cons,valueSum_cons]
    cases hflag : recipient.fSubtractFeeFromAmount with
    | true =>
      rw [List.filter_cons_of_pos hflag,List.filter_cons_of_pos (by exact hflag),List.map_cons,
        valueSum_cons,amountSum_cons,ih]
      ring
    | false =>
      have hno : ¬ recipient.fSubtractFeeFromAmount = true := by
        rw [hflag]
        exact Bool.false_ne_true
      rw [List.filter_cons_of_neg hno,List.filter_cons_of_neg (by exact hno),ih,hpay.amount hflag]
      ring

theorem getDustThreshold_congr {a b : CTxOut} (h : a.scriptPubKey = b.scriptPubKey)
    (minRelayTxFee : CFeeRate) : a.getDustThreshold minRelayTxFee = b.getDustThreshold minRelayTxFee := by
  have hlength : a.serialize.length = b.serialize.length := by
    unfold CTxOut.serialize
    rw [List.length_append,List.length_append,h]
    congr 1
  unfold CTxOut.getDustThreshold
  rw [h,hlength]

/-- Where the change is, and by how much it was raised. -/
def ChangeAt (minRelayTxFee : CFeeRate) (vout paid : List CTxOut) (nChangePosRet nChange nDust : ℤ) :
    Prop :=
  (nChangePosRet = -1 ∧ vout = paid ∧ nDust = 0) ∨
    ∃ (i : ℕ) (change : CTxOut), nChangePosRet = i ∧ i ≤ paid.length ∧ vout = paid.insertIdx i change ∧
      change.nValue.toInt = nChange + nDust ∧
      (nDust ≠ 0 → change.nValue.toInt = change.getDustThreshold minRelayTxFee)

theorem raiseChange_spec {vecSend : List CRecipient} {vout vout' : List CTxOut} {newTxOut change : CTxOut}
    (h : raiseChange minRelayTxFee vecSend vout newTxOut = .ok (vout',change))
    (hdust : newTxOut.isDust minRelayTxFee = true) (hpays : List.Forall₂ PaysRecipient vecSend vout)
    (hnodust : ∀ txout ∈ vout, txout.isDust minRelayTxFee = false)
    (hsome : 0 < vecSend.countP CRecipient.fSubtractFeeFromAmount) :
    List.Forall₂ PaysRecipient vecSend vout' ∧ (∀ txout ∈ vout', txout.isDust minRelayTxFee = false) ∧
      change.nValue.toInt = change.getDustThreshold minRelayTxFee ∧
      newTxOut.nValue.toInt < change.nValue.toInt ∧
      valueSum vout' = valueSum vout - (change.nValue.toInt - newTxOut.nValue.toInt) := by
  obtain ⟨nValue,hvalue,h⟩ := bind_ok.mp h
  rw [Creation.lift_ok,checked_ok,add_sub_cancel] at hvalue
  obtain ⟨rest,hrest,h⟩ := bind_ok.mp h
  cases h
  obtain ⟨hpays',hnodust',hsum⟩ := deductFirst_spec hrest hpays hnodust hsome
  have hthreshold : nValue.toInt =
      CTxOut.getDustThreshold { newTxOut with nValue } minRelayTxFee := by
    rw [hvalue]
    exact getDustThreshold_congr rfl _
  refine ⟨hpays',hnodust',hthreshold,?_,?_⟩
  · dsimp only
    rw [hvalue]
    exact of_decide_eq_true hdust
  · dsimp only
    rw [hsum,hvalue]

namespace Payer
variable {p : Payer} {args : PaymentArgs}

theorem addChange_spec {nRandPos : ℕ} {nFeeRet' nChangePosRet : ℤ} {nChange : CAmount}
    {vout vout' : List CTxOut} {keys keys' : KeyPoolState}
    (h : p.addChange args nRandPos nFeeRet nChange vout keys = .ok (vout',nFeeRet',nChangePosRet,keys'))
    (hchange : 0 ≤ nChange.toInt) (hpays : List.Forall₂ PaysRecipient args.vecSend vout)
    (hnodust : ∀ txout ∈ vout, txout.isDust p.minRelayTxFee = false) :
    ∃ paid nDust, 0 ≤ nDust ∧ List.Forall₂ PaysRecipient args.vecSend paid ∧
      valueSum paid = valueSum vout - nDust ∧
      ChangeAt p.minRelayTxFee vout' paid nChangePosRet nChange.toInt nDust ∧
      (∀ txout ∈ vout', txout.isDust p.minRelayTxFee = false) ∧
      valueSum vout' = valueSum vout + nChange.toInt - (nFeeRet' - nFeeRet) ∧ nFeeRet ≤ nFeeRet' ∧
      (0 < args.nSubtractFeeFromAmount → nFeeRet' = nFeeRet) := by
  unfold addChange at h
  by_cases hsome : nChange.toInt > 0
  · rw [if_pos hsome] at h
    obtain ⟨script,-,h⟩ := bind_ok.mp h
    obtain ⟨⟨paid,change⟩,hraise,h⟩ := bind_ok.mp h
    unfold raiseDust at hraise
    by_cases hraised : args.nSubtractFeeFromAmount > 0 ∧
        CTxOut.isDust ⟨nChange,script.1⟩ p.minRelayTxFee = true
    · rw [if_pos hraised] at hraise
      obtain ⟨hpays',hnodust',hthreshold,hmore,hsum⟩ :=
        raiseChange_spec hraise hraised.2 hpays hnodust hraised.1
      have hno : change.isDust p.minRelayTxFee = false := decide_eq_false (by omega)
      unfold placeChange at h
      rw [hno,if_neg Bool.false_ne_true] at h
      cases h
      have hle : nRandPos % (paid.length + 1) ≤ paid.length :=
        Nat.le_of_lt_succ (Nat.mod_lt _ (Nat.succ_pos _))
      refine ⟨paid,change.nValue.toInt - nChange.toInt,by dsimp only at hmore; omega,hpays',hsum,
        .inr ⟨_,change,rfl,hle,rfl,by omega,fun _ => hthreshold⟩,fun x hx => ?_,?_,le_rfl,fun _ => rfl⟩
      · rcases (List.mem_insertIdx hle).mp hx with rfl | hx
        · exact hno
        · exact hnodust' x hx
      · rw [valueSum_insertIdx hle,hsum]
        ring
    · rw [if_neg hraised] at hraise
      cases hraise
      unfold placeChange at h
      by_cases hdust : CTxOut.isDust ⟨nChange,script.1⟩ p.minRelayTxFee = true
      · dsimp only at h
        rw [if_pos hdust] at h
        obtain ⟨fee,hfee,h⟩ := bind_ok.mp h
        rw [Creation.lift_ok,checked_ok] at hfee
        cases h
        refine ⟨vout,0,le_rfl,hpays,(sub_zero _).symm,.inl ⟨rfl,rfl,rfl⟩,hnodust,by omega,by omega,
          fun hk => absurd ⟨hk,hdust⟩ hraised⟩
      · dsimp only at h
        rw [if_neg hdust] at h
        cases h
        have hle : nRandPos % (vout.length + 1) ≤ vout.length :=
          Nat.le_of_lt_succ (Nat.mod_lt _ (Nat.succ_pos _))
        refine ⟨vout,0,le_rfl,hpays,(sub_zero _).symm,
          .inr ⟨_,⟨nChange,script.1⟩,rfl,hle,rfl,(add_zero _).symm,fun h => absurd rfl h⟩,fun x hx => ?_,?_,
          le_rfl,fun _ => rfl⟩
        · rcases (List.mem_insertIdx hle).mp hx with rfl | hx
          · exact Bool.eq_false_iff.mpr hdust
          · exact hnodust x hx
        · rw [valueSum_insertIdx hle]
          ring
  · rw [if_neg hsome] at h
    cases h
    exact ⟨vout,0,le_rfl,hpays,(sub_zero _).symm,.inl ⟨rfl,rfl,rfl⟩,hnodust,by omega,le_rfl,fun _ => rfl⟩

/-- The value of the coins that a transaction spends. -/
def inputSum (p : Payer) (tx : CTransaction) : ℤ := (tx.vin.map fun txin => p.value txin.prevout).sum

/-- A transaction without its signatures. -/
def unsigned (tx : CTransaction) : CTransaction :=
  { tx with vin := tx.vin.map fun txin => { txin with scriptSig := [] } }

/-- A payment accounts for what goes in and out of it. -/
structure Accounts (p : Payer) (args : PaymentArgs) (r : CreatedTx) : Prop where
  nodup : (r.wtxNew.vin.map CTxIn.prevout).Nodup
  inWallet : ∀ txin ∈ r.wtxNew.vin, ∃ txout, p.coinOut? txin.prevout = some txout
  balance : p.inputSum r.wtxNew - valueSum r.wtxNew.vout = r.nFeeRet
  payees : ∃ paid nDust nChange, 0 ≤ nDust ∧ List.Forall₂ PaysRecipient args.vecSend paid ∧
    ChangeAt p.minRelayTxFee r.wtxNew.vout paid r.nChangePosRet nChange nDust ∧
    (0 < args.nSubtractFeeFromAmount → subtractedSum args.vecSend paid =
        amountSum (args.vecSend.filter CRecipient.fSubtractFeeFromAmount) - r.nFeeRet - nDust ∧
      nChange = p.inputSum r.wtxNew - amountSum args.vecSend)
  noDust : ∀ txout ∈ r.wtxNew.vout, txout.isDust p.minRelayTxFee = false
  size : ∃ signed : CTransaction, signed.getSerializeSize = r.nBytes ∧
    r.wtxNew = if args.sign then signed else unsigned signed

theorem signInputs_spec {sign : Bool} {txNewConst : CTransaction} {nIn : ℕ} {coins : List COutPoint}
    {vin : List CTxIn} (h : p.signInputs sign txNewConst nIn coins = .ok vin) :
    vin.map CTxIn.prevout = coins ∧ vin.map (fun txin => { txin with scriptSig := [] }) =
      coins.map fun coin => ⟨coin,[],0xfffffffe⟩ := by
  induction coins generalizing nIn vin with
  | nil =>
    cases h
    exact ⟨rfl,rfl⟩
  | cons coin coins ih =>
    rw [signInputs] at h
    obtain ⟨txout,-,h⟩ := bind_ok.mp h
    split at h
    · cases h
    · obtain ⟨rest,hrest,h⟩ := bind_ok.mp h
      cases h
      obtain ⟨hprevout,hunsigned⟩ := ih hrest
      exact ⟨congrArg (coin :: ·) hprevout,
        congrArg ((⟨coin,[],0xfffffffe⟩ : CTxIn) :: ·) hunsigned⟩

theorem payeeOuts_total {vout : List CTxOut}
    (h : payeeOuts minRelayTxFee nFeeRet args.nSubtractFeeFromAmount true args.vecSend = .ok vout) :
    valueSum vout = amountSum args.vecSend -
      if 0 < args.nSubtractFeeFromAmount then nFeeRet else 0 := by
  have hsum := (payeeOuts_spec h).2.2
  rw [hsum,← PaymentArgs.nSubtractFeeFromAmount]
  split_ifs with hall hsome hsome
  · have hdivision := Int.mul_tdiv_add_tmod nFeeRet args.nSubtractFeeFromAmount
    omega
  · exact absurd hall.2 hsome
  · exact absurd ⟨rfl,hsome⟩ hall
  · rw [Nat.eq_zero_of_not_pos hsome,Nat.cast_zero,zero_mul]
    ring

theorem valueToSelect_ok {nValue nValueToSelect : CAmount}
    (h : args.valueToSelect nValue nFeeRet = .ok nValueToSelect) :
    nValueToSelect.toInt = nValue.toInt + if 0 < args.nSubtractFeeFromAmount then 0 else nFeeRet := by
  unfold PaymentArgs.valueToSelect at h
  split_ifs at h with hzero
  · rw [Creation.lift_ok,checked_ok] at h
    rw [h,hzero,if_neg (lt_irrefl 0)]
  · cases h
    rw [if_pos (Nat.pos_of_ne_zero hzero),add_zero]

/-- A round that ends with a transaction accounts for it; the fee has not become less. -/
theorem createRound_accounts {choices : RoundChoices} {nLockTime : UInt32} {nValue : CAmount}
    {nFeeRet : ℤ} {keys : KeyPoolState} {r : CreatedTx} (hvalue : nValue.toInt = amountSum args.vecSend)
    (h : p.createRound args choices nLockTime nValue nFeeRet keys = .ok r) :
    p.Accounts args r ∧ nFeeRet ≤ r.nFeeRet := by
  unfold createRound at h
  obtain ⟨nValueToSelect,hselect,h⟩ := bind_ok.mp h
  obtain ⟨vout,hvout,h⟩ := bind_ok.mp h
  obtain ⟨found,hfound,h⟩ := bind_ok.mp h
  cases found with
  | none => cases h
  | some ret =>
    obtain ⟨setCoins,nValueIn⟩ := ret
    obtain ⟨_,-,h⟩ := bind_ok.mp h
    obtain ⟨nChange,hchange,h⟩ := bind_ok.mp h
    obtain ⟨⟨vout',nFeeRet',nChangePosRet,keys'⟩,hadd,h⟩ := bind_ok.mp h
    obtain ⟨vin,hvin,h⟩ := bind_ok.mp h
    dsimp only at h
    split at h
    · cases h
    cases h
    rw [Creation.lift_ok] at hfound hchange
    rw [subAmount_ok] at hchange
    obtain ⟨hworth,henough⟩ := CoinSource.selectCoins_enough hfound
    obtain ⟨hprevout,hunsigned⟩ := signInputs_spec hvin
    obtain ⟨hpays,hnodust,hsum⟩ := payeeOuts_spec hvout
    obtain ⟨paid,nDust,hdust,hpays',hpaid,hat,hnodust',hsum',hle,hsame⟩ :=
      addChange_spec hadd (by dsimp only at henough; omega) hpays hnodust
    generalize hwtx : (if args.sign = true then _ else _ : CTransaction) = wtxNew
    have hvout' : wtxNew.vout = vout' := by
      rw [← hwtx]
      split_ifs <;> rfl
    have hcoins : wtxNew.vin.map CTxIn.prevout = p.coinOrder.list setCoins := by
      rw [← hwtx]
      split_ifs
      · exact hprevout
      · rw [List.map_map]
        exact List.map_id _
    have hinputs : p.inputSum wtxNew = nValueIn.toInt := by
      have htoFinset : (p.coinOrder.list setCoins).toFinset = setCoins := by
        ext x
        rw [List.mem_toFinset,p.coinOrder.mem_list]
      rw [hworth.total,← htoFinset,List.sum_toFinset _ (p.coinOrder.nodup setCoins),← hcoins,List.map_map]
      rfl
    have htotal := payeeOuts_total hvout
    have htarget := valueToSelect_ok hselect
    refine ⟨⟨?_,fun txin htxin => ?_,?_,⟨paid,nDust,nChange.toInt,hdust,hpays',?_,fun hsome => ?_⟩,?_,?_⟩,hle⟩
    · rw [hcoins]
      exact p.coinOrder.nodup setCoins
    · refine hworth.coins _ (p.coinOrder.mem_list.mp ?_)
      rw [← hcoins]
      exact List.mem_map_of_mem htxin
    · rw [hinputs,hvout',hsum',htotal,hchange,htarget,hvalue]
      split_ifs with hsome
      · rw [hsame hsome]
        ring
      · ring
    · rwa [hvout']
    · rw [if_pos hsome] at htotal htarget
      refine ⟨?_,?_⟩
      · rw [subtractedSum_eq hpays',hpaid,htotal,hsame hsome]
        ring
      · rw [hinputs,hchange,htarget,hvalue,add_zero]
    · rwa [hvout']
    · refine ⟨_,rfl,?_⟩
      rw [← hwtx]
      split_ifs
      · rfl
      · unfold unsigned
        rw [hunsigned]

theorem sumAmounts_ok {vecSend : List CRecipient} {nValue₀ nValue : CAmount}
    (h : sumAmounts vecSend nValue₀ = .ok nValue) : nValue.toInt = nValue₀.toInt + amountSum vecSend := by
  induction vecSend generalizing nValue₀ with
  | nil =>
    cases h
    exact (add_zero _).symm
  | cons recipient vecSend ih =>
    rw [sumAmounts] at h
    split_ifs at h
    obtain ⟨sum,hsum,h⟩ := bind_ok.mp h
    rw [Creation.lift_ok,addAmount_ok] at hsum
    rw [ih h,hsum,amountSum_cons,add_assoc]

theorem prepare_ok {back : Option ℕ} {ret : CAmount × UInt32} (h : p.prepare args back = .ok ret) :
    ret.1.toInt = amountSum args.vecSend := by
  obtain ⟨nValue,hsum,h⟩ := bind_ok.mp h
  split_ifs at h
  obtain ⟨nLockTime,-,h⟩ := bind_ok.mp h
  cases h
  exact (sumAmounts_ok hsum).trans (zero_add _)

/-- The highest fee that is ever needed. -/
def feeLimit (p : Payer) (args : PaymentArgs) : ℤ :=
  max p.maxTxFee.toInt (args.coinControl.elim 0 fun control => control.nMinimumTotalFee.toInt)

theorem feeNeeded_le (p : Payer) (args : PaymentArgs) (estimate : CFeeRate) (nBytes : ℕ) :
    p.feeNeeded estimate args.coinControl nBytes ≤ p.feeLimit args := by
  have hminimum : p.getMinimumFee estimate nBytes ≤ p.maxTxFee.toInt := by
    unfold FeePolicy.getMinimumFee
    dsimp only
    split_ifs <;> omega
  unfold FeePolicy.feeNeeded feeLimit
  cases args.coinControl with
  | none => exact hminimum.trans (le_max_left _ _)
  | some control =>
    dsimp only
    split_ifs
    · exact le_max_right _ _
    · exact hminimum.trans (le_max_left _ _)

/-- The fee is enough, or the transaction needs none. -/
def Paid (p : Payer) (args : PaymentArgs) (choices : RoundChoices) (r : CreatedTx) : Prop :=
  p.free choices r = true ∨
    p.feeNeeded choices.estimateSmartFee args.coinControl r.nBytes ≤ r.nFeeRet

theorem conclude_ok {choices : RoundChoices} {r : CreatedTx} {next : Option ℤ}
    (h : p.conclude args choices r = .ok next) : match next with
      | none => p.Paid args choices r
      | some nFeeNeeded => r.nFeeRet < nFeeNeeded ∧ nFeeNeeded ≤ p.feeLimit args := by
  unfold conclude at h
  dsimp only at h
  split_ifs at h with hfree hless henough
  · cases h
    exact .inl hfree
  · cases h
    exact .inr henough
  · cases h
    exact ⟨not_le.mp henough,feeNeeded_le p args _ _⟩

variable {choices : ℕ → RoundChoices} {nLockTime : UInt32} {nValue : CAmount}

/-- In each round but the last the fee grows, and it stays under a limit. -/
theorem createLoop_ends (hvalue : nValue.toInt = amountSum args.vecSend) {rounds nRound : ℕ}
    {nFeeRet : ℤ} {keys : KeyPoolState} (h : (p.feeLimit args - nFeeRet).toNat < rounds) :
    ∃ result, p.createLoop args choices nLockTime nValue rounds nRound nFeeRet keys = some result := by
  induction rounds generalizing nRound nFeeRet keys with
  | zero => omega
  | succ rounds ih =>
    rw [createLoop]
    cases hround : p.createRound args (choices nRound) nLockTime nValue nFeeRet keys with
    | error e => exact ⟨_,rfl⟩
    | ok r =>
      have hmore := (createRound_accounts hvalue hround).2
      dsimp only
      cases hnext : p.conclude args (choices nRound) r with
      | error e => exact ⟨_,rfl⟩
      | ok next =>
        cases next with
        | none => exact ⟨_,rfl⟩
        | some nFeeNeeded =>
          obtain ⟨hgrows,hlimit⟩ := conclude_ok hnext
          exact ih (by omega)

theorem createLoop_mono {rounds rounds' nRound : ℕ} (hle : rounds ≤ rounds') {nFeeRet : ℤ}
    {keys : KeyPoolState} {result : Creation CreatedTx}
    (h : p.createLoop args choices nLockTime nValue rounds nRound nFeeRet keys = some result) :
    p.createLoop args choices nLockTime nValue rounds' nRound nFeeRet keys = some result := by
  induction rounds generalizing rounds' nRound nFeeRet keys with
  | zero => cases h
  | succ rounds ih =>
    obtain ⟨rounds',rfl⟩ : ∃ n, rounds' = n + 1 := ⟨rounds' - 1,by omega⟩
    rw [createLoop] at h ⊢
    cases hround : p.createRound args (choices nRound) nLockTime nValue nFeeRet keys with
    | error e => rwa [hround] at h
    | ok r =>
      rw [hround] at h
      dsimp only at h ⊢
      cases hnext : p.conclude args (choices nRound) r with
      | error e => rwa [hnext] at h
      | ok next =>
        rw [hnext] at h
        cases next with
        | none => exact h
        | some nFeeNeeded => exact ih (Nat.le_of_succ_le_succ hle) h

/-- The transaction is made in the last round, with a fee that is enough there. -/
theorem createLoop_last {rounds nRound : ℕ} {nFeeRet : ℤ} {keys : KeyPoolState} {r : CreatedTx}
    (h : p.createLoop args choices nLockTime nValue rounds nRound nFeeRet keys = some (.ok r)) :
    ∃ n nFee k, p.createRound args (choices n) nLockTime nValue nFee k = .ok r ∧
      p.Paid args (choices n) r := by
  induction rounds generalizing nRound nFeeRet keys with
  | zero => cases h
  | succ rounds ih =>
    rw [createLoop] at h
    cases hround : p.createRound args (choices nRound) nLockTime nValue nFeeRet keys with
    | error e =>
      rw [hround] at h
      cases h
    | ok r' =>
      rw [hround] at h
      dsimp only at h
      cases hnext : p.conclude args (choices nRound) r' with
      | error e =>
        rw [hnext] at h
        cases h
      | ok next =>
        rw [hnext] at h
        cases next with
        | none =>
          cases h
          exact ⟨nRound,nFeeRet,keys,hround,conclude_ok hnext⟩
        | some nFeeNeeded => exact ih h

/-- `CreateTransaction` ends, and if it has made a transaction, that accounts for its inputs, outputs and
fee, and the fee is enough in the round that made it. -/
theorem createTransaction_accounts (p : Payer) (args : PaymentArgs) (back : Option ℕ)
    (choices : ℕ → RoundChoices) (keys : KeyPoolState) :
    ∃ rounds result,
      (∀ rounds' ≥ rounds, p.createTransaction args back choices rounds' keys = some result) ∧
      ∀ r, result = .ok r → p.Accounts args r ∧
        ∃ n start nFee k, p.prepare args back = .ok start ∧
          p.createRound args (choices n) start.2 start.1 nFee k = .ok r ∧ p.Paid args (choices n) r := by
  unfold createTransaction
  cases hprepare : p.prepare args back with
  | error e => exact ⟨0,.error e,(fun _ _ => rfl),fun r h => nomatch h⟩
  | ok start =>
    obtain ⟨nValue,nLockTime⟩ := start
    have hvalue := prepare_ok hprepare
    obtain ⟨result,hresult⟩ := @createLoop_ends p args choices nLockTime nValue hvalue _ 0 0 keys
      (Nat.lt_succ_self _)
    refine ⟨_,result,fun rounds' hle => createLoop_mono hle hresult,fun r hr => ?_⟩
    obtain ⟨n,nFee,k,hround,hpaid⟩ := createLoop_last (hr ▸ hresult)
    exact ⟨(createRound_accounts hvalue hround).1,n,_,nFee,k,rfl,hround,hpaid⟩

/-- By the hashes, and the outputs of one transaction by their positions. -/
def coinKey (coin : COutPoint) : ℕ := coin.hash.toNat * 2^32 + coin.n.toNat

theorem coinKey_inj {a b : COutPoint} (h : coinKey a = coinKey b) : a = b := by
  have ha := a.n.toNat_lt
  have hb := b.n.toNat_lt
  unfold coinKey at h
  have hhash : a.hash = b.hash := BitVec.eq_of_toNat_eq (by omega)
  have hn : a.n = b.n := UInt32.toNat_inj.mp (by omega)
  cases a
  cases b
  cases hhash
  cases hn
  rfl

def coinsByKey : Worklist.Enumeration COutPoint :=
  haveI : IsTrans COutPoint fun a b => coinKey a ≤ coinKey b := ⟨fun _ _ _ => le_trans⟩
  haveI : Std.Total fun a b => coinKey a ≤ coinKey b := ⟨fun _ _ => le_total _ _⟩
  haveI : Std.Antisymm fun a b => coinKey a ≤ coinKey b :=
    ⟨fun _ _ hab hba => coinKey_inj (le_antisymm hab hba)⟩
  .ofOrder fun a b => coinKey a ≤ coinKey b

/-- It has two coins, six blocks deep. -/
def twoCoins : Payer where
  wallet :=
    { mapWallet := Finmap.singleton 1
        { tx := { vout := [⟨1000000,[]⟩,⟨500000,[]⟩] }, hashBlock := 5, nIndex := 0 }
      isMine := fun _ => .spendable }
  chainActive := { mapBlockIndex := [5], vChain := [5,6,7,8,9,10] }
  checkFinalTx := fun _ => true
  inMempool := fun _ => false
  coinOrder := coinsByKey
  produceSignature := fun _ _ _ _ => some [OP_1]
  scriptForKey := fun _ => []

def plainRound : RoundChoices where
  search := fun _ => CoinSource.plainChoices
  nChangePos := 0
  estimateSmartFee := ⟨0⟩
  enoughPriority := fun _ _ => false

-- without a fee in the first round; the second has the fee, and change at the first position
example : ((twoCoins.createTransaction { vecSend := [⟨[OP_1],700000,false⟩]
                                         coinControl := some { destChange := some [0x52] } }
    none (fun _ => plainRound) 2 {}).bind fun result => result.toOption.map fun r =>
      (r.wtxNew.vout,r.nFeeRet,r.nChangePosRet)) =
    some ([⟨298560,[0x52]⟩,⟨700000,[OP_1]⟩],1440,0) := by decide +kernel

end Payer

end Sidechain
