import Sidechain.Miner.WTJoinSpendable

/-! What the joined withdrawals were burned for. The index has one object for each output, but a
payment is for all drivechain outputs of the transaction. -/
namespace Sidechain

/-- The output is one the withdrawal object was decoded from. -/
def standsFor (w : DrivechainWithdraw) (out : CTxOut) : Bool :=
  match scanScript out.scriptPubKey with
  | .ok (some obj) => obj == .withdraw { w with txid := 0 }
  | _ => false

theorem standsFor_iff {w : DrivechainWithdraw} {out : CTxOut} : standsFor w out = true ↔
    scanScript out.scriptPubKey = .ok (some (.withdraw { w with txid := 0 })) := by
  unfold standsFor
  split
  · rename_i obj h
    rw [h,beq_iff_eq]
    simp
  · rename_i h
    simp only [Bool.false_eq_true,false_iff]
    exact h _

theorem isBurned_of_standsFor {w : DrivechainWithdraw} {out : CTxOut}
    (h : standsFor w out = true) : isBurned out = true := by
  unfold isBurned
  rw [standsFor_iff.mp h]

/-- Two sums of which one is termwise at most the other agree only if all terms do. -/
theorem sum_eq_iff_of_le {α : Type} {f g : α → ℤ} {as : List α} (h : ∀ a ∈ as, f a ≤ g a) :
    (as.map g).sum = (as.map f).sum ↔ ∀ a ∈ as, g a = f a := by
  induction as with
  | nil => simp
  | cons a as ih =>
    have hrest := ih fun b hb => h b (List.mem_cons_of_mem a hb)
    have hle := h a List.mem_cons_self
    have hsum : (as.map f).sum ≤ (as.map g).sum :=
      List.sum_le_sum fun b hb => h b (List.mem_cons_of_mem a hb)
    rw [List.forall_mem_cons,← hrest,List.map_cons,List.map_cons,List.sum_cons,List.sum_cons]
    constructor
    · intro heq
      exact ⟨by omega,by omega⟩
    · rintro ⟨ha,has⟩
      rw [ha,has]

/-- Of outputs without negative values, a selection is worth as much as a larger one if what it
leaves out is worth nothing. -/
theorem valueSum_filter_eq_iff {outs : List CTxOut} {p q : CTxOut → Bool}
    (h0 : ∀ o ∈ outs, p o = true → 0 ≤ o.nValue.toInt) (hqp : ∀ o, q o = true → p o = true) :
    valueSum (outs.filter q) ≤ valueSum (outs.filter p) ∧
      (valueSum (outs.filter p) = valueSum (outs.filter q) ↔
        ∀ o ∈ outs, p o = true → o.nValue.toInt ≠ 0 → q o = true) := by
  induction outs with
  | nil => simp
  | cons o outs ih =>
    obtain ⟨hle,hiff⟩ := ih fun o' ho' => h0 o' (List.mem_cons_of_mem o ho')
    rw [List.forall_mem_cons,List.filter_cons,List.filter_cons]
    cases hp : p o with
    | false =>
      have hq : q o = false := by
        by_contra hq
        rw [hqp o (by simpa using hq)] at hp
        cases hp
      simpa [hq] using ⟨hle,hiff⟩
    | true =>
      have hval := h0 o List.mem_cons_self hp
      cases hq : q o with
      | true =>
        simp only [if_true,valueSum_cons]
        exact ⟨by omega,by rw [← hiff]; simp⟩
      | false =>
        simp only [if_true,Bool.false_eq_true,if_false,valueSum_cons,forall_const,imp_false,not_not]
        refine ⟨by omega,?_⟩
        rw [← hiff]
        omega

theorem zipIdx_filter_map {α β : Type} (p : α → Bool) (f : α → β) (as : List α) :
    (as.zipIdx.filter fun x => p x.1).map (fun x => f x.1) = (as.filter p).map f := by
  have hfilter : (as.zipIdx.map Prod.fst).filter p = (as.zipIdx.filter fun x => p x.1).map Prod.fst :=
    List.filter_map
  rw [List.zipIdx_map_fst] at hfilter
  rw [hfilter,List.map_map]
  rfl

section
variable [Crypto] {node : NodeState}

theorem filterPeriod_sublist {nHeight : UInt32} {vWithdraw toJoin : List DrivechainWithdraw}
    (h : filterPeriod node nHeight vWithdraw = .ok toJoin) : toJoin.Sublist vWithdraw := by
  induction vWithdraw generalizing toJoin with
  | nil =>
    cases h
    exact .slnil
  | cons w vWithdraw ih =>
    obtain ⟨keep,_,h⟩ := Run.bind_ok.mp h
    obtain ⟨rest,hrest,h⟩ := Run.bind_ok.mp h
    obtain rfl := Run.pure_ok.mp h
    cases keep with
    | true => exact (ih hrest).cons_cons w
    | false => exact (ih hrest).cons w

theorem found_of_filterPeriod {nHeight : UInt32} (hperiod : nHeight % UInt32.ofNat SIDECHAIN_TAU = 0)
    {vWithdraw toJoin : List DrivechainWithdraw}
    (h : filterPeriod node nHeight vWithdraw = .ok toJoin) {w : DrivechainWithdraw}
    (hw : w ∈ toJoin) : (getTransaction node w.txid true).found = true := by
  induction vWithdraw generalizing toJoin with
  | nil =>
    cases h
    cases hw
  | cons w' vWithdraw ih =>
    obtain ⟨keep,hkeep,h⟩ := Run.bind_ok.mp h
    obtain ⟨rest,hrest,h⟩ := Run.bind_ok.mp h
    obtain rfl := Run.pure_ok.mp h
    cases keep with
    | false => exact ih hrest hw
    | true =>
      rcases List.mem_cons.mp hw with rfl | hw
      · by_contra hlost
        rw [inPeriod,getDrivechainObjectHeight,if_pos (by simpa using hlost)] at hkeep
        have hmax : ¬ 0xffffffff > nHeight := by
          have h := (Bool.and_eq_true_iff.mp (Run.pure_ok.mp hkeep)).1
          simpa using h
        have hlast : nHeight.toNat = 4294967295 :=
          le_antisymm (Nat.le_of_lt_succ nHeight.toNat_lt) (UInt32.not_lt.mp hmax)
        have hmod := congrArg UInt32.toNat hperiod
        rw [UInt32.toNat_mod,hlast] at hmod
        revert hmod
        decide
      · exact ih hrest hw

/-- The outputs that joined objects stand for, with their txids and positions. -/
def stoodFor (node : NodeState) (toJoin : List DrivechainWithdraw) :
    List (Uint256 × CTxOut × ℕ) :=
  toJoin.flatMap fun w =>
    ((withdrawTx node w).vout.zipIdx.filter fun p => standsFor w p.1).map fun p => (w.txid,p)

/-- No output is stood for twice, because objects with the same content have one entry. -/
theorem stoodFor_nodup {db : CDrivechainTreeDB} {objs : List DrivechainObj} (hdb : db.Holds objs)
    {toJoin : List DrivechainWithdraw} (hsub : toJoin.Sublist db.getWTs) :
    (stoodFor node toJoin).Nodup := by
  have hsorted := (hdb.listDrivechain_sorted withdrawKind).sublist hsub
  rw [stoodFor,List.nodup_flatMap]
  constructor
  · intro w _
    refine (List.Nodup.filter _ ?_).map fun p q hpq => congrArg Prod.snd hpq
    refine List.Nodup.of_map Prod.snd ?_
    rw [List.zipIdx_map_snd]
    exact List.nodup_range'
  · refine hsorted.imp ?_
    intro w w' hlt x hx hx'
    obtain ⟨p,hp,rfl⟩ := List.mem_map.mp hx
    obtain ⟨p',hp',heq⟩ := List.mem_map.mp hx'
    obtain rfl : p' = p := congrArg Prod.snd heq
    have h1 := standsFor_iff.mp (List.mem_filter.mp hp).2
    have h2 := standsFor_iff.mp (List.mem_filter.mp hp').2
    rw [h1] at h2
    have hobj : DrivechainObj.withdraw { w with txid := 0 } = .withdraw { w' with txid := 0 } := by
      injection h2 with h2
      injection h2
    have hhash : (DrivechainObj.withdraw w).getHash = (DrivechainObj.withdraw w').getHash :=
      (congrArg DrivechainObj.getHash hobj :)
    change compare (dbKey _ (DrivechainObj.withdraw w).getHash) (dbKey _ _) = .lt at hlt
    rw [hhash] at hlt
    exact absurd (Std.ReflCmp.compare_self.symm.trans hlt) (by decide)

theorem stoodFor_value {toJoin : List DrivechainWithdraw} :
    ((stoodFor node toJoin).map fun x => x.2.1.nValue.toInt).sum =
      (toJoin.map fun w => valueSum ((withdrawTx node w).vout.filter (standsFor w))).sum := by
  induction toJoin with
  | nil => rfl
  | cons w toJoin ih =>
    have hone := zipIdx_filter_map (standsFor w) (fun out => out.nValue.toInt) (withdrawTx node w).vout
    rw [List.map_cons,List.sum_cons,← ih,stoodFor,List.flatMap_cons,List.map_append,List.sum_append,
      List.map_map]
    exact congrArg (List.sum · + _) hone

/-- The payments and fees of a WT^ are what the objects it joins were burned for, exactly when each
of their transactions burned for nothing else. -/
theorem getWTJoinTX_withdrawnValue {nHeight : UInt32} {tx : CTransaction}
    (h : getWTJoinTX node nHeight = .ok tx) (hne : tx.isNull = false) {db : CDrivechainTreeDB}
    (hdb : node.disk.pdrivechaintree = some db) {objs : List DrivechainObj} (hholds : db.Holds objs)
    {toJoin : List DrivechainWithdraw} (hjoin : filterPeriod node nHeight db.getWTs = .ok toJoin) :
    (∀ w ∈ toJoin, (getTransaction node w.txid true).found = true) ∧
    (stoodFor node toJoin).Nodup ∧
    (valueSum (tx.vout.take toJoin.length) + joinFee node toJoin =
        ((stoodFor node toJoin).map fun x => x.2.1.nValue.toInt).sum ↔
      ∀ w ∈ toJoin, ∀ out ∈ (withdrawTx node w).vout, isBurned out = true → out.nValue.toInt ≠ 0 →
        standsFor w out = true) := by
  have hwt := joinedWT_of_getWTJoinTX h hne hdb hjoin
  obtain ⟨_,_,_,hperiod,_⟩ := getWTJoinTX_ok h hne
  refine ⟨fun w => found_of_filterPeriod hperiod hjoin,
    stoodFor_nodup hholds (filterPeriod_sublist hjoin),?_⟩
  obtain ⟨payments,others,hvout,hpays,_⟩ := hwt.vout
  have hpaid : valueSum (tx.vout.take toJoin.length) + joinFee node toJoin =
      (toJoin.map fun w => burned (withdrawTx node w)).sum := by
    rw [hvout,hpays.length_eq,List.take_left,valueSum,Pays.map_eq hpays,joinFee,← List.sum_map_add]
    exact congrArg List.sum (List.map_congr_left fun w _ => sub_add_cancel _ _)
  have hterm := fun w (hw : w ∈ toJoin) =>
    valueSum_filter_eq_iff (p := isBurned) (q := standsFor w) (hwt.burns w hw).outputs
      fun _ => isBurned_of_standsFor
  rw [hpaid,stoodFor_value]
  refine (sum_eq_iff_of_le fun w hw => (hterm w hw).1).trans ?_
  exact forall₂_congr fun w hw => (hterm w hw).2

end

/-- The one output of the transaction is the one its object stands for. -/
theorem burnedTx_paidOnce :
    letI := joinCrypto
    valueSum ((joinedTx 200000).vout.take 1) + joinFee (joinNode 200000) [burnedObj] =
      ((stoodFor (joinNode 200000) [burnedObj]).map fun x => x.2.1.nValue.toInt).sum :=
  letI := joinCrypto
  have h : getWTJoinTX (joinNode 200000) 400 = .ok (joinedTx 200000) := by decide +kernel
  have hholds : (joinDB 200000).Holds [.withdraw burnedObj,.deposit (lockedDeposit 200000)] :=
    CDrivechainTreeDB.holds_ofObjs (by
      simpa [DrivechainObj.Fits] using CTransaction.fits_of_size (by decide +kernel))
  have hjoin : filterPeriod (joinNode 200000) 400 (joinDB 200000).getWTs = .ok [burnedObj] := by
    decide +kernel
  (getWTJoinTX_withdrawnValue h (by decide +kernel) rfl hholds hjoin).2.2.mpr (by decide +kernel)

/-- A withdrawal that the transaction below makes for one of its two keys. -/
def splitObj (keyID : Uint160) : DrivechainWithdraw :=
  { sidechainid := SIDECHAIN_ID, keyID
    txid := 0x66195d936a4d71c8c8f642b632e62e457609ee997c0734b48b4bb3a08ad68e34 }

def splitTx : CTransaction :=
  { vin := [{ prevout := ⟨2,0⟩ }]
    vout := [⟨50000,(DrivechainObj.withdraw (splitObj 2)).getScript⟩,
      ⟨50000,(DrivechainObj.withdraw (splitObj 3)).getScript⟩] }

@[reducible] def splitCrypto : Crypto := tableCrypto
  [((lockedTx 200000).serialize,
      0xd8e179a4b5efa5aa032b56ddd0f1a2aa97d3203bc5bf896eb5441eb241aa0e30),
    ((lockedDeposit 200000).serialize,
      0x3a129c36f9fdecedeaa4fcbf4a43fb79f1867e11e66528b18d91721ceb3110bb),
    ((splitObj 2).serialize,0xbdfc509a49676e12da2dd9475726fee8474abcb183e135cb90a2fcec65728f51),
    ((splitObj 3).serialize,0x61cfd28e688f5d1ffd6041daa364e4e3c5d7f6a18dbed8b57db4221664f30140),
    (splitTx.serialize,0x66195d936a4d71c8c8f642b632e62e457609ee997c0734b48b4bb3a08ad68e34),
    (burnedHeader.serialize,0x4e769432667251e4da6d371d624f32fdba146a15ae3015111aa74a93935905d7)]

def splitNode : NodeState :=
  letI := splitCrypto
  indexedNode burnedHeader [splitTx] (.ofObjs [.withdraw (splitObj 2),.withdraw (splitObj 3),
    .deposit (lockedDeposit 200000)]) 10000

/-- Each of the two withdrawals of one transaction is paid what both burned. -/
theorem splitTx_paidTwice :
    letI := splitCrypto
    ∃ tx, getWTJoinTX splitNode 400 = .ok tx ∧ tx.isNull = false ∧
      filterPeriod splitNode 400 (splitNode.disk.pdrivechaintree.getD ∅).getWTs =
        .ok [splitObj 3,splitObj 2] ∧
      valueSum (tx.vout.take 2) + joinFee splitNode [splitObj 3,splitObj 2] = 200000 ∧
      ((stoodFor splitNode [splitObj 3,splitObj 2]).map fun x => x.2.1.nValue.toInt).sum = 100000 :=
  letI := splitCrypto
  ⟨{ vin := [{ prevout := ⟨(lockedTx 200000).getHash,0⟩ }]
     vout := [⟨80000,keyScript 3⟩,⟨80000,keyScript 2⟩,⟨20000,SIDECHAIN_FEESCRIPT⟩,
      ⟨0,SIDECHAIN_DEPOSITSCRIPT⟩] },by decide +kernel⟩

end Sidechain
