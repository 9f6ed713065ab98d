import Mathlib.Data.List.Sigma
import Sidechain.Miner.WTJoinValue

/-! When the mainchain can take the joined withdrawals (WT^). All fees are subtracted from every
change, so there must be change to subtract them from, and enough of it each time. -/
namespace Sidechain

theorem sum_map_sub_const (cs : List ℤ) (f : ℤ) :
    (cs.map fun c => c - f).sum = cs.sum - cs.length * f := by
  induction cs with
  | nil => simp
  | cons c cs ih =>
    simp only [List.map_cons,List.sum_cons,List.length_cons,ih]
    push_cast
    ring

theorem half_le_iff {F : ℤ} (h0 : 0 ≤ F) (heven : 2 ∣ F) {α : Type} (cs : List α) :
    (if 0 < F then F / 2 else 0) ≤ cs.length * F ↔ F = 0 ∨ cs ≠ [] := by
  cases cs with
  | nil =>
    split_ifs <;> simp <;> omega
  | cons c cs =>
    have hmul : F ≤ ((c::cs).length : ℤ) * F := by
      rw [List.length_cons]
      push_cast
      nlinarith [mul_nonneg (Int.natCast_nonneg cs.length) h0]
    refine iff_of_true ?_ (.inr (List.cons_ne_nil c cs))
    split_ifs <;> omega

section
variable [Crypto]

/-- The coin is an output of a listed deposit to the deposit script, under its outpoint. -/
def IsDepositCoin (db : CDrivechainTreeDB) (c : COutPoint × CTxOut) : Prop :=
  ∃ d ∈ db.getDeposits, c.1.hash = d.deposit.getHash ∧ d.deposit.vout[c.1.n.toNat]? = some c.2 ∧
    c.2.scriptPubKey = SIDECHAIN_DEPOSITSCRIPT

omit [Crypto] in
theorem vout_length_lt {db : CDrivechainTreeDB} {d : DrivechainDeposit} (hd : d ∈ db.getDeposits) :
    d.deposit.vout.length < 2^32 := by
  have hfits : d.deposit.Fits := depositKind.fits_of_mem_listDrivechain hd
  have hsize : d.deposit.vout.length ≤ 0x02000000 := hfits.vout.1
  omega

theorem isDepositCoin_of_mem {db : CDrivechainTreeDB} {d : DrivechainDeposit}
    (hd : d ∈ db.getDeposits) {c : COutPoint × CTxOut} (hc : c ∈ depositCoins d) :
    IsDepositCoin db c := by
  obtain ⟨⟨out,y⟩,hp,rfl⟩ := List.mem_map.mp hc
  obtain ⟨hmem,hscript⟩ := List.mem_filter.mp hp
  have hget : d.deposit.vout[y]? = some out := List.mem_zipIdx_iff_getElem?.mp hmem
  have hy : y < d.deposit.vout.length := (List.getElem?_eq_some_iff.mp hget).1
  refine ⟨d,hd,rfl,?_,by simpa using hscript⟩
  rw [UInt32.toNat_ofNat_of_lt' (hy.trans (vout_length_lt hd)),hget]

/-- A transaction that spends the coins, each once, for outputs they cover. -/
structure Spendable (tx : CTransaction) (coins : List (COutPoint × CTxOut)) : Prop where
  distinct : (coins.map Prod.fst).Nodup
  outputs : ∀ out ∈ tx.vout, 0 ≤ out.nValue.toInt ∧ out.nValue.toInt ≤ maxMoney
  covered : valueSum tx.vout ≤ (coins.map coinValue).sum

/-- The deposit has a deposit output at the position. -/
def LocksAt (d : DrivechainDeposit) (y : ℕ) : Prop :=
  ∃ out, d.deposit.vout[y]? = some out ∧ out.scriptPubKey = SIDECHAIN_DEPOSITSCRIPT

/-- Two deposits record one mainchain output. -/
def ShareOutput (d d' : DrivechainDeposit) : Prop :=
  d.deposit.getHash = d'.deposit.getHash ∧ ∃ y, LocksAt d y ∧ LocksAt d' y

/-- The deposit outputs of the first listed deposits. -/
def firstCoins (db : CDrivechainTreeDB) (k : ℕ) : List (COutPoint × CTxOut) :=
  ((db.getDeposits.take k).map depositCoins).flatten

def lockedValue (coins : List (COutPoint × CTxOut)) : ℤ := (coins.map coinValue).sum

/-- Two minimum fees for each withdrawal. -/
def totalFee (node : NodeState) (toJoin : List DrivechainWithdraw) : ℤ :=
  (toJoin.map (withdrawFee node)).sum

/-- What the withdrawals are due together: all they burned, less all fees. -/
def totalDue (node : NodeState) (toJoin : List DrivechainWithdraw) : ℤ :=
  (toJoin.map fun w => burned (withdrawTx node w)).sum - totalFee node toJoin

/-- A sum that the deposit outputs have to come up to: the amount due, or what the first of them
summed up to before. They may be negative, so the sums need not grow. -/
def IsMark (due : ℤ) (coins : List (COutPoint × CTxOut)) (x : ℤ) : Prop :=
  x = due ∨ ∃ first, first ≠ [] ∧ first <+: coins ∧ lockedValue first = x

/-- The first listed deposits are called on: before each of them the sum of the deposit outputs is
below one of the marks. -/
def CalledOn (db : CDrivechainTreeDB) (due : ℤ) (k : ℕ) : Prop :=
  k ≤ db.getDeposits.length ∧ ∀ j < k,
    ∃ x, IsMark due (firstCoins db j) x ∧ lockedValue (firstCoins db j) < x

/-- What the withdrawals and the deposits have to be like for their WT^ to be spendable. -/
structure Joinable (node : NodeState) (db : CDrivechainTreeDB)
    (toJoin : List DrivechainWithdraw) : Prop where
  distinct : ∀ k, CalledOn db (totalDue node toJoin) k →
    (db.getDeposits.take k).Pairwise fun d d' => ¬ ShareOutput d d'
  fee_le : ∀ w ∈ toJoin, withdrawFee node w ≤ burned (withdrawTx node w)
  half_le : totalFee node toJoin / 2 ≤ maxMoney
  change : ∀ k, CalledOn db (totalDue node toJoin) k → ∀ coins c,
    coins ++ [c] <+: firstCoins db k →
    (∀ x, IsMark (totalDue node toJoin) coins x → x < lockedValue (coins ++ [c])) →
    (∀ x, IsMark (totalDue node toJoin) coins x →
      x + totalFee node toJoin ≤ lockedValue (coins ++ [c])) ∧
    ∃ x, IsMark (totalDue node toJoin) coins x ∧
      lockedValue (coins ++ [c]) ≤ x + (totalFee node toJoin + maxMoney)
  change_or_free : totalFee node toJoin = 0 ∨ ∃ k, CalledOn db (totalDue node toJoin) k ∧
    ∃ coins, coins ≠ [] ∧ coins <+: firstCoins db k ∧ totalDue node toJoin < lockedValue coins

variable {node : NodeState} {db : CDrivechainTreeDB} {toJoin : List DrivechainWithdraw}

theorem mem_depositCoins_fst {d : DrivechainDeposit} (hd : d ∈ db.getDeposits) {o : COutPoint} :
    o ∈ (depositCoins d).map Prod.fst ↔ o.hash = d.deposit.getHash ∧ LocksAt d o.n.toNat := by
  have hlen := vout_length_lt hd
  constructor
  · intro ho
    obtain ⟨c,hc,rfl⟩ := List.mem_map.mp ho
    obtain ⟨⟨out,y⟩,hp,rfl⟩ := List.mem_map.mp hc
    obtain ⟨hmem,hscript⟩ := List.mem_filter.mp hp
    have hget : d.deposit.vout[y]? = some out := List.mem_zipIdx_iff_getElem?.mp hmem
    have hy := (List.getElem?_eq_some_iff.mp hget).1
    refine ⟨rfl,out,?_,by simpa using hscript⟩
    rw [UInt32.toNat_ofNat_of_lt' (hy.trans hlen),hget]
  · rintro ⟨hhash,out,hget,hscript⟩
    refine List.mem_map.mpr ⟨(o,out),List.mem_map.mpr ⟨(out,o.n.toNat),?_,?_⟩,rfl⟩
    · exact List.mem_filter.mpr ⟨List.mem_zipIdx_iff_getElem?.mpr hget,by simpa using hscript⟩
    · rw [← hhash,UInt32.ofNat_toNat]

theorem depositCoins_fst_nodup {d : DrivechainDeposit} (hd : d ∈ db.getDeposits) :
    ((depositCoins d).map Prod.fst).Nodup := by
  refine List.Nodup.of_map (fun o : COutPoint => o.n.toNat) ?_
  -- the positions come back, as none of them leaves 32 bits
  have hpos : ((depositCoins d).map Prod.fst).map (fun o => o.n.toNat) =
      (d.deposit.vout.zipIdx.filter fun p => p.1.scriptPubKey == SIDECHAIN_DEPOSITSCRIPT).map
        Prod.snd := by
    rw [depositCoins,List.map_map,List.map_map]
    refine List.map_congr_left fun p hp => ?_
    have hlt := List.snd_lt_of_mem_zipIdx (List.mem_of_mem_filter hp)
    exact UInt32.toNat_ofNat_of_lt' ((Nat.add_zero _ ▸ hlt).trans (vout_length_lt hd))
  rw [hpos]
  exact (List.nodup_zipIdx_map_snd _).sublist (List.filter_sublist.map _)

theorem firstCoins_nodup_iff (k : ℕ) : ((firstCoins db k).map Prod.fst).Nodup ↔
    (db.getDeposits.take k).Pairwise fun d d' => ¬ ShareOutput d d' := by
  rw [firstCoins,List.map_flatten,List.map_map,List.nodup_flatten,List.pairwise_map,and_iff_right]
  · refine List.Pairwise.iff_of_mem fun {d d'} hd hd' => ?_
    have hd := List.mem_of_mem_take hd
    have hd' := List.mem_of_mem_take hd'
    constructor
    · rintro hdisjoint ⟨hhash,y,hy,hy'⟩
      obtain ⟨out,hget,_⟩ := id hy
      have hlt : y < 2^32 := (List.getElem?_eq_some_iff.mp hget).1.trans (vout_length_lt hd)
      have hn : (UInt32.ofNat y).toNat = y := UInt32.toNat_ofNat_of_lt' hlt
      refine @hdisjoint ⟨d.deposit.getHash,UInt32.ofNat y⟩ ?_ ?_
      · exact (mem_depositCoins_fst hd).mpr ⟨rfl,hn.symm ▸ hy⟩
      · exact (mem_depositCoins_fst hd').mpr ⟨hhash,hn.symm ▸ hy'⟩
    · intro hshare o ho ho'
      obtain ⟨hhash,hlocks⟩ := (mem_depositCoins_fst hd).mp ho
      obtain ⟨hhash',hlocks'⟩ := (mem_depositCoins_fst hd').mp ho'
      exact hshare ⟨hhash.symm.trans hhash',_,hlocks,hlocks'⟩
  · intro l hl
    obtain ⟨d,hd,rfl⟩ := List.mem_map.mp hl
    exact depositCoins_fst_nodup (List.mem_of_mem_take hd)

theorem joinAmount_eq : joinAmount node toJoin = totalDue node toJoin := by
  unfold totalDue totalFee
  induction toJoin with
  | nil => rfl
  | cons w toJoin ih =>
    rw [joinAmount,List.map_cons,List.sum_cons,← joinAmount,ih,withdrawAmount]
    simp only [List.map_cons,List.sum_cons]
    ring

theorem calledOn_iff {k : ℕ} : CalledOn db (totalDue node toJoin) k ↔ k ≤ (Settle.taken coinValue
    (joinAmount node toJoin) (db.getDeposits.map depositCoins)).length := by
  rw [Settle.le_length_taken_iff,List.length_map,joinAmount_eq]
  refine and_congr_right fun _ => forall₂_congr fun j _ => ?_
  rw [← List.map_take]
  rfl

theorem prefix_takenCoins_iff {coins : List (COutPoint × CTxOut)} :
    coins <+: takenCoins node db toJoin ↔
      ∃ k, CalledOn db (totalDue node toJoin) k ∧ coins <+: firstCoins db k := by
  have htaken := Settle.taken_prefix coinValue (joinAmount node toJoin)
    (db.getDeposits.map depositCoins)
  constructor
  · intro h
    refine ⟨_,calledOn_iff.mpr le_rfl,?_⟩
    rw [firstCoins,List.map_take,← List.prefix_iff_eq_take.mp htaken]
    exact h
  · rintro ⟨k,hk,h⟩
    refine h.trans (List.IsPrefix.flatten ?_)
    rw [List.prefix_iff_eq_take.mp htaken,List.map_take]
    exact List.take_prefix_take_left (calledOn_iff.mp hk)

theorem takenCoins_nodup_iff : ((takenCoins node db toJoin).map Prod.fst).Nodup ↔
    ∀ k, CalledOn db (totalDue node toJoin) k →
      (db.getDeposits.take k).Pairwise fun d d' => ¬ ShareOutput d d' := by
  constructor
  · intro h k hk
    have hpre := prefix_takenCoins_iff.mpr ⟨k,hk,List.prefix_rfl⟩
    exact (firstCoins_nodup_iff k).mp (h.sublist (hpre.sublist.map Prod.fst))
  · intro h
    obtain ⟨k,hk,hpre⟩ := prefix_takenCoins_iff.mp (List.prefix_rfl (l := takenCoins node db toJoin))
    exact ((firstCoins_nodup_iff k).mpr (h k hk)).sublist (hpre.sublist.map Prod.fst)

theorem joinable_iff : Joinable node db toJoin ↔
    ((takenCoins node db toJoin).map Prod.fst).Nodup ∧
    (∀ w ∈ toJoin, withdrawFee node w ≤ burned (withdrawTx node w)) ∧
    joinFee node toJoin / 2 ≤ maxMoney ∧
    (∀ c ∈ Settle.changes coinValue (joinAmount node toJoin) (takenCoins node db toJoin),
      joinFee node toJoin ≤ c ∧ c ≤ joinFee node toJoin + maxMoney) ∧
    (joinFee node toJoin = 0 ∨
      Settle.changes coinValue (joinAmount node toJoin) (takenCoins node db toJoin) ≠ []) := by
  rw [takenCoins_nodup_iff,Settle.forall_changes_iff,Settle.changes_ne_nil_iff]
  simp only [prefix_takenCoins_iff,joinAmount_eq]
  constructor
  · rintro ⟨hdistinct,hfee,hhalf,hchange,hfree⟩
    refine ⟨hdistinct,hfee,hhalf,fun coins c ⟨k,hk,hpre⟩ => hchange k hk coins c hpre,?_⟩
    exact hfree.imp_right fun ⟨k,hk,coins,hne,hpre,hlt⟩ => ⟨coins,hne,⟨k,hk,hpre⟩,hlt⟩
  · rintro ⟨hdistinct,hfee,hhalf,hchange,hfree⟩
    refine ⟨hdistinct,hfee,hhalf,fun k hk coins c hpre => hchange coins c ⟨k,hk,hpre⟩,?_⟩
    exact hfree.imp_right fun ⟨coins,hne,⟨k,hk,hpre⟩,hlt⟩ => ⟨k,hk,coins,hne,hpre,hlt⟩

theorem joinFee_nonneg (hfee : ∀ n, 0 ≤ (node.getMinimumFee n).toInt) : 0 ≤ joinFee node toJoin := by
  refine List.sum_nonneg fun f hf => ?_
  obtain ⟨w,_,rfl⟩ := List.mem_map.mp hf
  exact mul_nonneg two_pos.le (hfee _)

theorem joinFee_even : 2 ∣ joinFee node toJoin :=
  List.dvd_sum fun f hf => by
    obtain ⟨w,_,rfl⟩ := List.mem_map.mp hf
    exact dvd_mul_right 2 _

theorem joinAmount_nonneg (h : ∀ w ∈ toJoin, withdrawFee node w ≤ burned (withdrawTx node w)) :
    0 ≤ joinAmount node toJoin := by
  refine List.sum_nonneg fun a ha => ?_
  obtain ⟨w,hw,rfl⟩ := List.mem_map.mp ha
  exact sub_nonneg.mpr (h w hw)

theorem JoinedWT.values {tx : CTransaction} (h : JoinedWT node db toJoin tx) :
    tx.vout.map (fun out => out.nValue.toInt) = toJoin.map (withdrawAmount node) ++
      otherValues node toJoin (takenCoins node db toJoin) := by
  obtain ⟨payments,others,hvout,hpays,hothers⟩ := h.vout
  rw [hvout,List.map_append,Pays.map_eq hpays,hothers]

/-- The outputs exceed the inputs by half the fees, less all fees for every change. -/
theorem JoinedWT.valueSum_eq {tx : CTransaction} (h : JoinedWT node db toJoin tx)
    (hJ : 0 ≤ joinAmount node toJoin) :
    valueSum tx.vout = ((takenCoins node db toJoin).map coinValue).sum +
      (if 0 < joinFee node toJoin then joinFee node toJoin / 2 else 0) -
      (Settle.changes coinValue (joinAmount node toJoin) (takenCoins node db toJoin)).length *
        joinFee node toJoin := by
  have howed : Settle.owedAfter coinValue (joinAmount node toJoin) (takenCoins node db toJoin) = 0 :=
    le_antisymm h.settled (Settle.owedAfter_nonneg coinValue hJ _)
  have hsettle := Settle.sum_eq coinValue (joinAmount node toJoin) hJ (takenCoins node db toJoin)
  have hhalf : (if 0 < joinFee node toJoin then [joinFee node toJoin / 2] else []).sum =
      if 0 < joinFee node toJoin then joinFee node toJoin / 2 else 0 := by
    split_ifs
    · exact List.sum_singleton
    · rfl
  rw [valueSum,h.values,List.sum_append,otherValues,List.sum_append,hhalf,sum_map_sub_const,hsettle,
    howed]
  change joinAmount node toJoin + _ = _
  ring

theorem JoinedWT.outputs_iff {tx : CTransaction} (h : JoinedWT node db toJoin tx)
    (hfee : ∀ n, 0 ≤ (node.getMinimumFee n).toInt) :
    (∀ out ∈ tx.vout, 0 ≤ out.nValue.toInt ∧ out.nValue.toInt ≤ maxMoney) ↔
      (∀ w ∈ toJoin, withdrawFee node w ≤ burned (withdrawTx node w)) ∧
      joinFee node toJoin / 2 ≤ maxMoney ∧
      ∀ c ∈ Settle.changes coinValue (joinAmount node toJoin) (takenCoins node db toJoin),
        joinFee node toJoin ≤ c ∧ c ≤ joinFee node toJoin + maxMoney := by
  have hF : 0 ≤ joinFee node toJoin := joinFee_nonneg hfee
  have hmoney : (0 : ℤ) ≤ maxMoney := by decide
  rw [← List.forall_mem_map (f := fun out : CTxOut => out.nValue.toInt)
    (P := fun v => 0 ≤ v ∧ v ≤ (maxMoney : ℤ)),h.values,otherValues,List.forall_mem_append,
    List.forall_mem_append,List.forall_mem_map,List.forall_mem_map]
  refine and_congr (forall₂_congr fun w hw => ?_) (and_congr ?_ (forall₂_congr fun c _ => ?_))
  · have hburned := (h.burns w hw).le_maxMoney
    have hpaid : 0 ≤ withdrawFee node w := mul_nonneg two_pos.le (hfee _)
    rw [withdrawAmount]
    omega
  · split_ifs with hpos
    · rw [List.forall_mem_singleton]
      omega
    · rw [le_antisymm (not_lt.mp hpos) hF]
      simpa using hmoney
  · omega

/-- The inputs of a WT^ are deposit outputs, and it is spendable exactly if what it joins is
joinable. -/
theorem getWTJoinTX_spendable {nHeight : UInt32} {tx : CTransaction}
    (h : getWTJoinTX node nHeight = .ok tx) (hne : tx.isNull = false)
    (hdb : node.disk.pdrivechaintree = some db)
    (hjoin : filterPeriod node nHeight db.getWTs = .ok toJoin)
    (hfee : ∀ nBytes, 0 ≤ (node.getMinimumFee nBytes).toInt) :
    tx.vin.map CTxIn.prevout = (takenCoins node db toJoin).map Prod.fst ∧
    (∀ c ∈ takenCoins node db toJoin, IsDepositCoin db c) ∧
    (Spendable tx (takenCoins node db toJoin) ↔ Joinable node db toJoin) := by
  have hwt := joinedWT_of_getWTJoinTX h hne hdb hjoin
  refine ⟨?_,?_,?_⟩
  · rw [hwt.vin,List.map_map]
    rfl
  · intro c hc
    obtain ⟨coins,hcoins,hc⟩ := List.mem_flatten.mp hc
    obtain ⟨d,hd,rfl⟩ := List.mem_map.mp ((Settle.taken_prefix _ _ _).subset hcoins)
    exact isDepositCoin_of_mem hd hc
  · constructor
    · intro hspend
      obtain ⟨hle,hhalf,hchange⟩ := (hwt.outputs_iff hfee).mp hspend.outputs
      have hcovered := hspend.covered
      rw [hwt.valueSum_eq (joinAmount_nonneg hle)] at hcovered
      exact joinable_iff.mpr ⟨hspend.distinct,hle,hhalf,hchange,
        (half_le_iff (joinFee_nonneg hfee) joinFee_even _).mp (by omega)⟩
    · intro hj
      obtain ⟨hdistinct,hle,hhalf,hchange,hfree⟩ := joinable_iff.mp hj
      refine ⟨hdistinct,(hwt.outputs_iff hfee).mpr ⟨hle,hhalf,hchange⟩,?_⟩
      have hpaid := (half_le_iff (joinFee_nonneg hfee) joinFee_even _).mpr hfree
      rw [hwt.valueSum_eq (joinAmount_nonneg hle)]
      omega

end

def lockedTx (nValue : CAmount) : CTransaction :=
  { vin := [{ prevout := ⟨1,0⟩ }], vout := [⟨nValue,SIDECHAIN_DEPOSITSCRIPT⟩] }

def lockedDeposit (nValue : CAmount) : DrivechainDeposit :=
  { sidechainid := SIDECHAIN_ID, keyID := 1, deposit := lockedTx nValue }

def burnedObj : DrivechainWithdraw :=
  { sidechainid := SIDECHAIN_ID, keyID := 2
    txid := 0xc85885a37d0fa1d2920ec9752ce33b24067a46e56e82de6f78d3f530c3c0a6f9 }

def burnedTx : CTransaction :=
  { vin := [{ prevout := ⟨2,0⟩ }], vout := [⟨100000,(DrivechainObj.withdraw burnedObj).getScript⟩] }

def burnedHeader : CBlockHeader := { nVersion := 1, hashPrevBlock := 3 }

@[reducible] def joinCrypto : Crypto := tableCrypto
  [((lockedTx 80000).serialize,
      0x4188c793460c5355b7132e8aaf5f802537239d9a33083d1864f6a5458feb7f7d),
    ((lockedDeposit 80000).serialize,
      0x570a3edda391043923bc1407653bb402ce88a9b7e59d3b5f81331b8cad496c24),
    ((lockedTx 200000).serialize,
      0xd8e179a4b5efa5aa032b56ddd0f1a2aa97d3203bc5bf896eb5441eb241aa0e30),
    ((lockedDeposit 200000).serialize,
      0x3a129c36f9fdecedeaa4fcbf4a43fb79f1867e11e66528b18d91721ceb3110bb),
    (burnedObj.serialize,0xbdfc509a49676e12da2dd9475726fee8474abcb183e135cb90a2fcec65728f51),
    (burnedTx.serialize,0xc85885a37d0fa1d2920ec9752ce33b24067a46e56e82de6f78d3f530c3c0a6f9),
    (burnedHeader.serialize,0x4e769432667251e4da6d371d624f32fdba146a15ae3015111aa74a93935905d7)]

def joinDB (nValue : CAmount) : CDrivechainTreeDB :=
  letI := joinCrypto
  .ofObjs [.withdraw burnedObj,.deposit (lockedDeposit nValue)]

def joinNode (nValue : CAmount) : NodeState :=
  letI := joinCrypto
  indexedNode burnedHeader [burnedTx] (joinDB nValue) 10000

def joinedTx (nValue : CAmount) : CTransaction :=
  letI := joinCrypto
  { vin := [{ prevout := ⟨(lockedTx nValue).getHash,0⟩ }]
    vout := [⟨80000,keyScript 2⟩,⟨10000,SIDECHAIN_FEESCRIPT⟩] ++
      if nValue = 80000 then [] else [⟨nValue - 100000,SIDECHAIN_DEPOSITSCRIPT⟩] }

/-- A deposit of exactly the amount less the fee leaves no change for the fee. -/
theorem exactDeposit_unspendable :
    letI := joinCrypto
    getWTJoinTX (joinNode 80000) 400 = .ok (joinedTx 80000) ∧
      (joinedTx 80000).isNull = false ∧
      ¬ Spendable (joinedTx 80000) (takenCoins (joinNode 80000) (joinDB 80000) [burnedObj]) := by
  refine ⟨by decide +kernel,by decide +kernel,?_⟩
  intro h
  exact absurd h.covered (by decide +kernel)

/-- A larger deposit pays the fee from its change. -/
theorem largeDeposit_spendable :
    letI := joinCrypto
    Spendable (joinedTx 200000) (takenCoins (joinNode 200000) (joinDB 200000) [burnedObj]) :=
  letI := joinCrypto
  have h : getWTJoinTX (joinNode 200000) 400 = .ok (joinedTx 200000) := by decide +kernel
  (getWTJoinTX_spendable h (by decide +kernel) rfl (by decide +kernel) fun _ => (by decide : (0 : ℤ) ≤ (10000 : CAmount).toInt)).2.2.mpr
    (joinable_iff.mpr ⟨by decide +kernel,by decide +kernel,by decide +kernel,by decide +kernel,
      by decide +kernel⟩)

end Sidechain
