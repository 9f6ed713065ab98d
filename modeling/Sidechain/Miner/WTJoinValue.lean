import Sidechain.Miner.WTJoin
import Sidechain.Library.Settle

/-! What the joined withdrawals (WT^) pay and spend: every withdrawal gets what its transaction
burned less its fee, and the deposits are taken in order until they settle the sum. -/
namespace Sidechain
open Run

theorem addInRange_ok {fault : Halt} {n c v : CAmount} : addInRange fault n c = .ok v ↔
    v.toInt = n.toInt + c.toInt ∧ (0 ≤ c.toInt ∧ c.toInt ≤ maxMoney) ∧
      0 ≤ v.toInt ∧ v.toInt ≤ maxMoney := by
  unfold addInRange
  simp only [bind_ok,addAmount_ok,require_error_ok,pure_ok,moneyRange_iff]
  constructor
  · rintro ⟨s,hs,_,hrange,rfl⟩
    exact ⟨hs,hrange⟩
  · rintro ⟨hs,hrange⟩
    exact ⟨v,hs,(),hrange,rfl⟩

/-- The output burns its value for a drivechain object. -/
def isBurned (out : CTxOut) : Bool :=
  match scanScript out.scriptPubKey with
  | .ok (some _) => true
  | _ => false

/-- What the drivechain outputs of a transaction burn. -/
def burned (tx : CTransaction) : ℤ := valueSum (tx.vout.filter isBurned)

/-- The burned values of a transaction are amounts of money. -/
structure BurnsMoney (tx : CTransaction) : Prop where
  nonneg : 0 ≤ burned tx
  le_maxMoney : burned tx ≤ maxMoney
  outputs : ∀ out ∈ tx.vout, isBurned out = true → 0 ≤ out.nValue.toInt

theorem isDrivechainScript_ok {script : CScript} {b : Bool}
    (h : script.isDrivechainScript = .ok b) (nValue : CAmount) : isBurned ⟨nValue,script⟩ = b := by
  rw [isDrivechainScript_eq,map_ok] at h
  obtain ⟨o,ho,rfl⟩ := h
  unfold isBurned
  rw [ho]
  cases o <;> rfl

theorem getValueOutToDrivechain_ok {tx : CTransaction} {v : CAmount}
    (h : tx.getValueOutToDrivechain = .ok v) : v.toInt = burned tx ∧ BurnsMoney tx := by
  have hfinal := foldlM_induct (fun done _ (m : CAmount) =>
    (m.toInt = valueSum (done.filter isBurned) ∧ 0 ≤ m.toInt ∧ m.toInt ≤ maxMoney) ∧
      ∀ out ∈ done, isBurned out = true → 0 ≤ out.nValue.toInt)
    (fun done out rest m m' hm hstep => by
      obtain ⟨b,hb,hstep⟩ := bind_ok.mp hstep
      have hburned : isBurned out = b := isDrivechainScript_ok hb out.nValue
      rw [List.filter_append,valueSum_append]
      cases b with
      | true =>
        obtain ⟨hsum,hnonneg,hrange⟩ := addInRange_ok.mp hstep
        refine ⟨⟨?_,hrange⟩,?_⟩
        · rw [hsum,hm.1.1]
          simp [hburned]
        · rw [List.forall_mem_append]
          simpa using ⟨hm.2,fun _ => hnonneg.1⟩
      | false =>
        obtain rfl := pure_ok.mp hstep
        refine ⟨⟨?_,hm.1.2⟩,?_⟩
        · rw [hm.1.1]
          simp [hburned]
        · rw [List.forall_mem_append]
          simpa [hburned] using hm.2)
    ⟨⟨rfl,by decide,by decide⟩,by simp⟩ h
  have hv : v.toInt = burned tx := hfinal.1.1
  exact ⟨hv,hv ▸ hfinal.1.2.1,hv ▸ hfinal.1.2.2,hfinal.2⟩

/-- The deposit outputs of a deposit with their outpoints. -/
def depositCoins [Crypto] (d : DrivechainDeposit) : List (COutPoint × CTxOut) :=
  (d.deposit.vout.zipIdx.filter fun p => p.1.scriptPubKey == SIDECHAIN_DEPOSITSCRIPT).map
    fun p => (⟨d.deposit.getHash,UInt32.ofNat p.2⟩,p.1)

def coinValue (c : COutPoint × CTxOut) : ℤ := c.2.nValue.toInt

/-- What the loops over the deposits make of a list of deposit outputs: their values are paid
against the debt, and every change, less the fees, goes back to a deposit script. -/
structure Paid (s s' : JoinState) (coins : List (COutPoint × CTxOut)) : Prop where
  joinAmount : s'.joinAmount.toInt = Settle.owedAfter coinValue s.joinAmount.toInt coins
  joinFee : s'.joinFee = s.joinFee
  vin : s'.vin = s.vin ++ coins.map fun c => { prevout := c.1 }
  vout : ∃ outs, s'.vout = s.vout ++ outs ∧ outs.map (fun out => out.nValue.toInt) =
    (Settle.changes coinValue s.joinAmount.toInt coins).map fun c => c - s.joinFee.toInt

theorem Paid.refl (s : JoinState) : Paid s s [] := ⟨rfl,rfl,by simp,[],by simp,rfl⟩

theorem Paid.trans {s s' s'' : JoinState} {coins coins' : List (COutPoint × CTxOut)}
    (h : Paid s s' coins) (h' : Paid s' s'' coins') : Paid s s'' (coins ++ coins') := by
  obtain ⟨outs,houts,hval⟩ := h.vout
  obtain ⟨outs',houts',hval'⟩ := h'.vout
  refine ⟨?_,h'.joinFee.trans h.joinFee,?_,outs ++ outs',?_,?_⟩
  · rw [Settle.owedAfter_append,← h.joinAmount,h'.joinAmount]
  · rw [h'.vin,h.vin,List.map_append,List.append_assoc]
  · rw [houts',houts,List.append_assoc]
  · rw [List.map_append,hval,hval',Settle.changes_append,List.map_append,h.joinAmount,h.joinFee]

theorem payFrom_ok {s s' : JoinState} {c : CAmount} (h : payFrom s c = .ok s') :
    s'.joinAmount.toInt = Settle.owed s.joinAmount.toInt c.toInt ∧ s'.joinFee = s.joinFee ∧
      s'.vin = s.vin ∧ ∃ outs, s'.vout = s.vout ++ outs ∧
        outs.map (fun out => out.nValue.toInt) =
          (Settle.changes id s.joinAmount.toInt [c.toInt]).map fun c => c - s.joinFee.toInt := by
  obtain ⟨diff,hdiff,h⟩ := bind_ok.mp h
  rw [subAmount_ok] at hdiff
  have hneg : diff < 0 ↔ s.joinAmount.toInt < c.toInt := by
    rw [int64_neg_iff,hdiff]
    omega
  unfold Settle.owed
  split_ifs at h with hlt
  · simp only [bind_ok,absAmount,checked_ok,subAmount_ok,addAmount_ok,pure_ok] at h
    obtain ⟨change,hchange,nValue,hvalue,joinAmount,hjoin,rfl⟩ := h
    have hless := hneg.mp hlt
    rw [abs_of_neg (by omega)] at hchange
    refine ⟨?_,rfl,rfl,_,rfl,?_⟩
    · rw [max_eq_left (by omega)]
      dsimp only
      omega
    · simp only [Settle.changes,id,if_pos hless,List.append_nil,List.map_cons,List.map_nil,hvalue]
      congr 1
      omega
  · obtain rfl := pure_ok.mp h
    have hle := mt hneg.mpr hlt
    refine ⟨?_,rfl,rfl,[],by simp,by simp [Settle.changes,hle]⟩
    rw [max_eq_right (by omega)]
    exact hdiff

/-- The loop over the outputs of one deposit, from any position on. -/
theorem joinDepositOutputs_ok {hash : Uint256} {outputs : List (CTxOut × ℕ)} {s s' : JoinState}
    (h : outputs.foldlM (joinDepositOutput hash) s = .ok s') :
    Paid s s' ((outputs.filter fun p => p.1.scriptPubKey == SIDECHAIN_DEPOSITSCRIPT).map
      fun p => (⟨hash,UInt32.ofNat p.2⟩,p.1)) := by
  induction outputs generalizing s with
  | nil =>
    obtain rfl := foldlM_nil_ok.mp h
    exact Paid.refl s
  | cons p outputs ih =>
    obtain ⟨m,hm,hrest⟩ := foldlM_cons_ok.mp h
    unfold joinDepositOutput at hm
    split_ifs at hm with hscript
    · cases hm
      simpa [List.filter_cons,hscript] using ih hrest
    · rw [not_not] at hscript
      obtain ⟨m₁,hpay,hm⟩ := bind_ok.mp hm
      obtain rfl := pure_ok.mp hm
      obtain ⟨hamount,hfee,hvin,outs,hout,hval⟩ := payFrom_ok hpay
      have hone : Paid s { m₁ with vin := m₁.vin ++ [{ prevout := ⟨hash,UInt32.ofNat p.2⟩ }] }
          [(⟨hash,UInt32.ofNat p.2⟩,p.1)] :=
        ⟨hamount,hfee,by simp [hvin],outs,hout,hval⟩
      simpa [List.filter_cons,hscript] using hone.trans (ih hrest)

theorem joinFeeOutput_value {fee : CAmount} :
    (joinFeeOutput fee).map (fun out => out.nValue.toInt) =
      if 0 < fee.toInt then [fee.toInt / 2] else [] := by
  have hpos : fee > 0 ↔ 0 < fee.toInt := Int64.lt_iff_toInt_lt
  unfold joinFeeOutput
  split_ifs with h h' h'
  · have htwo : (2 : CAmount).toInt = 2 := by decide
    have hhi := Int64.toInt_lt fee
    have hdiv : fee.toInt.tdiv 2 = fee.toInt / 2 := Int.tdiv_eq_ediv_of_nonneg h'.le
    simp only [List.map_cons,List.map_nil,Int64.toInt_div,htwo,hdiv]
    rw [Int.bmod_eq_of_le (by omega) (by omega)]
  · exact absurd (hpos.mp h) h'
  · exact absurd (hpos.mpr h') h
  · rfl

section
variable [Crypto]

/-- The loop over the deposits takes whole deposits until the debt is settled. -/
theorem joinDeposits_ok {s s' : JoinState} {vDeposit : List DrivechainDeposit}
    (h : joinDeposits s vDeposit = .ok s') : Paid s s'
      (Settle.taken coinValue s.joinAmount.toInt (vDeposit.map depositCoins)).flatten := by
  induction vDeposit generalizing s with
  | nil =>
    cases h
    exact Paid.refl _
  | cons d vDeposit ih =>
    have hpos : s.joinAmount > 0 ↔ 0 < s.joinAmount.toInt := Int64.lt_iff_toInt_lt
    unfold joinDeposits at h
    split_ifs at h with howed
    · obtain ⟨m,hm,hrest⟩ := bind_ok.mp h
      have hone := joinDepositOutputs_ok hm
      rw [List.map_cons,Settle.taken,if_pos (hpos.mp howed),List.flatten_cons]
      refine hone.trans ?_
      have hmore := ih hrest
      rw [hone.joinAmount] at hmore
      exact hmore
    · cases h
      rw [List.map_cons,Settle.taken,if_neg (mt hpos.mpr howed)]
      exact Paid.refl _

variable (node : NodeState)

/-- What the lookup of a withdrawal leaves in `wt`. -/
def withdrawTx (w : DrivechainWithdraw) : CTransaction := (getTransaction node w.txid true).txOut

def withdrawFee (w : DrivechainWithdraw) : ℤ :=
  2 * (node.getMinimumFee (withdrawTx node w).getSerializeSize).toInt

def withdrawAmount (w : DrivechainWithdraw) : ℤ := burned (withdrawTx node w) - withdrawFee node w

def joinAmount (toJoin : List DrivechainWithdraw) : ℤ := (toJoin.map (withdrawAmount node)).sum

def joinFee (toJoin : List DrivechainWithdraw) : ℤ := (toJoin.map (withdrawFee node)).sum

/-- The output that pays a withdrawal. -/
def Pays (w : DrivechainWithdraw) (out : CTxOut) : Prop :=
  out.nValue.toInt = withdrawAmount node w ∧ out.scriptPubKey = keyScript w.keyID

variable {node}

theorem Pays.map_eq {toJoin : List DrivechainWithdraw} {payments : List CTxOut}
    (h : List.Forall₂ (Pays node) toJoin payments) :
    payments.map (fun out => out.nValue.toInt) = toJoin.map (withdrawAmount node) := by
  induction h with
  | nil => rfl
  | cons hpays _ ih => rw [List.map_cons,List.map_cons,ih,hpays.1]

theorem joinWithdraw_ok {s s' : JoinState} {w : DrivechainWithdraw}
    (h : joinWithdraw node s w = .ok s') :
    s'.joinAmount.toInt = s.joinAmount.toInt + withdrawAmount node w ∧
      s'.joinFee.toInt = s.joinFee.toInt + withdrawFee node w ∧ s'.vin = s.vin ∧
      (∃ out, s'.vout = s.vout ++ [out] ∧ Pays node w out) ∧ BurnsMoney (withdrawTx node w) := by
  simp only [joinWithdraw,bind_ok,addAmount_ok,subAmount_ok,pure_ok] at h
  obtain ⟨v,hv,nFee,hfee,amount,hamount,joinAmount,hjoin,joinFee,hjoinFee,rfl⟩ := h
  obtain ⟨hburned,hrange⟩ := getValueOutToDrivechain_ok hv
  have hF : nFee.toInt = withdrawFee node w := by rw [hfee,withdrawFee,withdrawTx]; omega
  have hA : amount.toInt = withdrawAmount node w := by rw [hamount,hburned,hF]; rfl
  exact ⟨by rw [hjoin,hA],by rw [hjoinFee,hF],rfl,⟨_,rfl,hA,rfl⟩,hrange⟩

/-- The loop over the withdrawals. -/
theorem foldlM_joinWithdraw_ok {toJoin : List DrivechainWithdraw} {s s' : JoinState}
    (h : toJoin.foldlM (joinWithdraw node) s = .ok s') :
    s'.joinAmount.toInt = s.joinAmount.toInt + joinAmount node toJoin ∧
      s'.joinFee.toInt = s.joinFee.toInt + joinFee node toJoin ∧ s'.vin = s.vin ∧
      (∃ outs, s'.vout = s.vout ++ outs ∧ List.Forall₂ (Pays node) toJoin outs) ∧
      ∀ w ∈ toJoin, BurnsMoney (withdrawTx node w) := by
  induction toJoin generalizing s with
  | nil =>
    obtain rfl := foldlM_nil_ok.mp h
    exact ⟨by simp [joinAmount],by simp [joinFee],rfl,⟨[],by simp,.nil⟩,by simp⟩
  | cons w toJoin ih =>
    obtain ⟨m,hm,hrest⟩ := foldlM_cons_ok.mp h
    obtain ⟨hamount,hfee,hvin,⟨out,hout,hpays⟩,hrange⟩ := joinWithdraw_ok hm
    obtain ⟨hamount',hfee',hvin',⟨outs,houts,hpays'⟩,hrange'⟩ := ih hrest
    refine ⟨?_,?_,hvin'.trans hvin,⟨out::outs,by rw [houts,hout]; simp,.cons hpays hpays'⟩,?_⟩
    · rw [hamount',hamount]
      simp only [joinAmount,List.map_cons,List.sum_cons]
      omega
    · rw [hfee',hfee]
      simp only [joinFee,List.map_cons,List.sum_cons]
      omega
    · simpa using ⟨hrange,hrange'⟩

/-- The deposit outputs a WT^ takes. -/
def takenCoins (node : NodeState) (db : CDrivechainTreeDB) (toJoin : List DrivechainWithdraw) :
    List (COutPoint × CTxOut) :=
  (Settle.taken coinValue (joinAmount node toJoin) (db.getDeposits.map depositCoins)).flatten

/-- The values of the outputs a WT^ has besides the payments: the sidechain half of the fees, and
every change less all fees. -/
def otherValues (node : NodeState) (toJoin : List DrivechainWithdraw)
    (coins : List (COutPoint × CTxOut)) : List ℤ :=
  (if 0 < joinFee node toJoin then [joinFee node toJoin / 2] else []) ++
    (Settle.changes coinValue (joinAmount node toJoin) coins).map fun c => c - joinFee node toJoin

/-- A WT^ that joins the given withdrawals. -/
structure JoinedWT (node : NodeState) (db : CDrivechainTreeDB) (toJoin : List DrivechainWithdraw)
    (tx : CTransaction) : Prop where
  burns : ∀ w ∈ toJoin, BurnsMoney (withdrawTx node w)
  vin : tx.vin = (takenCoins node db toJoin).map fun c => { prevout := c.1 }
  settled : Settle.owedAfter coinValue (joinAmount node toJoin) (takenCoins node db toJoin) ≤ 0
  vout : ∃ payments others, tx.vout = payments ++ others ∧
    List.Forall₂ (Pays node) toJoin payments ∧
    others.map (fun out => out.nValue.toInt) =
      otherValues node toJoin (takenCoins node db toJoin)

theorem joinWithdraws_ok {db : CDrivechainTreeDB} {toJoin : List DrivechainWithdraw}
    {tx : CTransaction} (h : joinWithdraws node db toJoin = .ok tx) (hne : tx.isNull = false) :
    JoinedWT node db toJoin tx := by
  obtain ⟨s₁,h₁,h⟩ := bind_ok.mp h
  obtain ⟨s₂,h₂,h⟩ := bind_ok.mp h
  have htx := pure_ok.mp h
  obtain ⟨hamount,hfee,hvin,⟨payments,hpayments,hpays⟩,hrange⟩ := foldlM_joinWithdraw_ok h₁
  have hpaid := joinDeposits_ok h₂
  have hJ : s₁.joinAmount.toInt = joinAmount node toJoin := by rw [hamount]; exact Int.zero_add _
  have hF : s₁.joinFee.toInt = joinFee node toJoin := by rw [hfee]; exact Int.zero_add _
  dsimp only at hpaid
  rw [hJ] at hpaid
  obtain ⟨changes,hchanges,hvalues⟩ := hpaid.vout
  have hpos : s₂.joinAmount > 0 ↔ 0 < s₂.joinAmount.toInt := Int64.lt_iff_toInt_lt
  split_ifs at htx with hleft
  · rw [← htx] at hne
    cases hne
  · subst htx
    refine ⟨hrange,?_,?_,payments,joinFeeOutput s₁.joinFee ++ changes,?_,hpays,?_⟩
    · have h2 := hpaid.vin
      rw [hvin] at h2
      exact h2.trans (List.nil_append _)
    · have hdebt := hpaid.joinAmount
      dsimp only at hdebt
      rw [hJ] at hdebt
      rw [takenCoins,← hdebt]
      exact not_lt.mp (mt hpos.mpr hleft)
    · rw [hchanges,hpayments]
      simp
    · dsimp only at hvalues
      rw [List.map_append,joinFeeOutput_value,hvalues,hJ,hF]
      rfl

theorem getWTJoinTX_ok {nHeight : UInt32} {tx : CTransaction}
    (h : getWTJoinTX node nHeight = .ok tx) (hne : tx.isNull = false) : ∃ db toJoin,
      node.disk.pdrivechaintree = some db ∧ nHeight % UInt32.ofNat SIDECHAIN_TAU = 0 ∧
      filterPeriod node nHeight db.getWTs = .ok toJoin ∧ toJoin ≠ [] ∧
      JoinedWT node db toJoin tx := by
  unfold getWTJoinTX at h
  split at h
  · cases h
    cases hne
  · rename_i db hdb
    split_ifs at h with hperiod
    · cases h
      cases hne
    · obtain ⟨toJoin,hjoin,h⟩ := bind_ok.mp h
      split_ifs at h with hempty
      · obtain rfl := pure_ok.mp h
        cases hne
      · exact ⟨db,toJoin,hdb,not_not.mp hperiod,hjoin,by simpa using hempty,joinWithdraws_ok h hne⟩

theorem joinedWT_of_getWTJoinTX {nHeight : UInt32} {tx : CTransaction}
    (h : getWTJoinTX node nHeight = .ok tx) (hne : tx.isNull = false) {db : CDrivechainTreeDB}
    (hdb : node.disk.pdrivechaintree = some db) {toJoin : List DrivechainWithdraw}
    (hjoin : filterPeriod node nHeight db.getWTs = .ok toJoin) : JoinedWT node db toJoin tx := by
  obtain ⟨db',toJoin',hdb',_,hjoin',_,hwt⟩ := getWTJoinTX_ok h hne
  obtain rfl : db' = db := Option.some.inj (hdb'.symm.trans hdb)
  rw [hjoin] at hjoin'
  injection hjoin' with heq
  rwa [heq]

end
end Sidechain
