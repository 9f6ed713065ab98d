import Sidechain.Coins.View

/-! Spending and creating coins for a transaction, the undo data this leaves, and applying it
backwards. Each operation is described by its effect on the map from outpoints to coins. -/
namespace Sidechain
open Run

/-- Undo information for an input: height, version and coinbase flag are stored only when the
last output of the transaction was spent. -/
structure CTxInUndo where
  txout : CTxOut
  fCoinBase : Bool := false
  nHeight : ℕ := 0
  nVersion : Int32 := 0
  deriving DecidableEq, Repr

structure CTxUndo where
  vprevout : List CTxInUndo := []
  deriving DecidableEq, Repr

structure CBlockUndo where
  vtxundo : List CTxUndo := []
  deriving DecidableEq, Repr

namespace CCoinsViewCache

/-- The output an input spends; the caller has checked that it is there. -/
def getOutputFor (v : CCoinsViewCache) (input : CTxIn) : Outcome CTxOut :=
  match v.accessCoins input.prevout.hash with
  | none => .error (.assertion "coins && coins->IsAvailable(input.prevout.n)")
  | some coins =>
    match coins.vout[input.prevout.n.toNat]? with
    | none => .error (.assertion "coins && coins->IsAvailable(input.prevout.n)")
    | some out =>
      if out.isNull then .error (.assertion "coins && coins->IsAvailable(input.prevout.n)")
      else .ok out

def getValueIn (v : CCoinsViewCache) (tx : CTransaction) : Outcome CAmount :=
  if tx.isCoinBase then .ok 0
  else tx.vin.foldlM (fun nResult txin => do
    let out ← v.getOutputFor txin
    addAmount nResult out.nValue) 0

def haveInput (v : CCoinsViewCache) (prevout : COutPoint) : Bool :=
  match v.accessCoins prevout.hash with
  | none => false
  | some coins => coins.isAvailable prevout.n.toNat

def haveInputs (v : CCoinsViewCache) (tx : CTransaction) : Bool :=
  tx.isCoinBase || tx.vin.all fun txin => v.haveInput txin.prevout

/-- Mark one outpoint spent and construct its undo information. -/
def spendInput (v : CCoinsViewCache) (prevout : COutPoint) :
    Outcome (CCoinsViewCache × CTxInUndo) :=
  let entry := v.modifyCoins prevout.hash
  let nPos := prevout.n.toNat
  match entry.coins.vout[nPos]? with
  | none => .error (.assertion "false")
  | some out =>
    if out.isNull then .error (.assertion "false")
    else
      let coins := entry.coins.spend nPos
      let undo : CTxInUndo := if coins.vout = [] then
        ⟨out,coins.fCoinBase,coins.nHeight,coins.nVersion⟩ else { txout := out }
      .ok (v.closeModifier prevout.hash { entry with coins },undo)

/-- The loop over the inputs. -/
def spendInputs : CCoinsViewCache → List COutPoint → Outcome (CCoinsViewCache × List CTxInUndo)
  | v,[] => .ok (v,[])
  | v,prevout::prevouts => do
    let (v,undo) ← v.spendInput prevout
    let (v,undos) ← spendInputs v prevouts
    pure (v,undo::undos)

/-- The outputs of a coinbase may overwrite older ones, so its entry is looked up. -/
def addOutputs [Crypto] (v : CCoinsViewCache) (tx : CTransaction) (nHeight : ℕ) : CCoinsViewCache :=
  let txid := tx.getHash
  let entry := if tx.isCoinBase then v.modifyCoins txid else v.modifyNewCoins txid
  v.closeModifier txid { entry with coins := CCoins.fromTx tx nHeight }

def updateCoins [Crypto] (tx : CTransaction) (v : CCoinsViewCache) (nHeight : ℕ) :
    Outcome (CCoinsViewCache × CTxUndo) :=
  if tx.isCoinBase then .ok (v.addOutputs tx nHeight,{})
  else do
    let (v,vprevout) ← v.spendInputs (tx.vin.map CTxIn.prevout)
    pure (v.addOutputs tx nHeight,{ vprevout })

/-- A record with a height starts the entry anew. -/
def undoEntry (undo : CTxInUndo) (coins : CCoins) : CCoins :=
  if undo.nHeight ≠ 0 then ⟨undo.fCoinBase,[],undo.nHeight,undo.nVersion⟩ else coins

/-- A record with a height belongs to an empty entry, one without to an entry that is not. -/
def undoFits (undo : CTxInUndo) (coins : CCoins) : Bool :=
  if undo.nHeight ≠ 0 then coins.isPruned else !coins.isPruned

/-- Put back the output an undo record holds; the flag says whether nothing was in the way. -/
def applyTxInUndo (undo : CTxInUndo) (v : CCoinsViewCache) (out : COutPoint) :
    CCoinsViewCache × Bool :=
  let entry := v.modifyCoins out.hash
  let coins := undoEntry undo entry.coins
  (v.closeModifier out.hash { entry with coins := coins.setOutput out.n.toNat undo.txout },
    undoFits undo entry.coins && !coins.isAvailable out.n.toNat)

/-- The loop over the inputs of a disconnected transaction, last one first. -/
def restoreInputs (v : CCoinsViewCache) : List (CTxInUndo × COutPoint) → CCoinsViewCache × Bool
  | [] => (v,true)
  | (undo,out)::rest =>
    let (v,fClean) := v.restoreInputs rest
    let (v,clean) := applyTxInUndo undo v out
    (v,fClean && clean)

/-- The outputs left of a transaction are the ones in the block. A negative version is taken
over before comparing, because it is not serialized. -/
def outsMatch (coins : CCoins) (tx : CTransaction) (nHeight : ℕ) : Bool :=
  let outs := coins.clearUnspendable
  let outsBlock := CCoins.fromTx tx nHeight
  CCoins.eqv (if outsBlock.nVersion < 0 then { outs with nVersion := outsBlock.nVersion } else outs)
    outsBlock

/-- Remove the outputs of a disconnected transaction after comparing them with the block's. -/
def removeOutputs [Crypto] (v : CCoinsViewCache) (tx : CTransaction) (nHeight : ℕ) :
    CCoinsViewCache × Bool :=
  let entry := v.modifyCoins tx.getHash
  (v.closeModifier tx.getHash { entry with coins := {} },outsMatch entry.coins tx nHeight)

end CCoinsViewCache

/-- A map from txid and position to coins. -/
abbrev Utxo := Uint256 → ℕ → Option Coin

namespace Utxo

def spend (m : Utxo) (o : COutPoint) : Utxo :=
  Function.update m o.hash (Function.update (m o.hash) o.n.toNat none)

def put (m : Utxo) (o : COutPoint) (coin : Coin) : Utxo :=
  Function.update m o.hash (Function.update (m o.hash) o.n.toNat (some coin))

def spendAll (m : Utxo) : List COutPoint → Utxo
  | [] => m
  | o::os => spendAll (m.spend o) os

/-- Coins are not null outputs, and coins of one transaction share its data. -/
structure Uniform (m : Utxo) : Prop where
  not_null : ∀ {txid n coin}, m txid n = some coin → coin.out.isNull = false
  shared : ∀ {txid n k a b}, m txid n = some a → m txid k = some b →
    a.fCoinBase = b.fCoinBase ∧ a.nHeight = b.nHeight ∧ a.nVersion = b.nVersion

open Classical in
/-- The undo record of spending a coin. -/
noncomputable def undoFor (m : Utxo) (o : COutPoint) (coin : Coin) : CTxInUndo :=
  if m.spend o o.hash = fun _ => none then ⟨coin.out,coin.fCoinBase,coin.nHeight,coin.nVersion⟩
  else { txout := coin.out }

theorem put_spend {m : Utxo} {o : COutPoint} {coin : Coin} (h : m o.hash o.n.toNat = some coin) :
    (m.spend o).put o coin = m := by
  unfold spend put
  rw [Function.update_self,Function.update_idem,Function.update_idem,← h,Function.update_eq_self,
    Function.update_eq_self]

@[simp] theorem spend_self (m : Utxo) (o : COutPoint) : m.spend o o.hash o.n.toNat = none := by
  simp [spend]

theorem spend_of_ne {m : Utxo} {o p : COutPoint} (h : p ≠ o) :
    m.spend o p.hash p.n.toNat = m p.hash p.n.toNat := by
  unfold spend
  by_cases hh : p.hash = o.hash
  · have hn : p.n.toNat ≠ o.n.toNat := by
      intro hn
      apply h
      cases p
      cases o
      exact congr (congrArg COutPoint.mk hh) (UInt32.toNat_inj.mp hn)
    rw [hh,Function.update_self,Function.update_of_ne hn]
  · rw [Function.update_of_ne hh]

theorem spend_le (m : Utxo) (o : COutPoint) {txid : Uint256} {n : ℕ} {coin : Coin}
    (h : m.spend o txid n = some coin) : m txid n = some coin := by
  unfold spend at h
  by_cases ht : txid = o.hash
  · subst ht
    rw [Function.update_self] at h
    by_cases hn : n = o.n.toNat
    · subst hn
      rw [Function.update_self] at h
      cases h
    · rwa [Function.update_of_ne hn] at h
  · rwa [Function.update_of_ne ht] at h

theorem Uniform.spend {m : Utxo} (h : m.Uniform) (o : COutPoint) : (m.spend o).Uniform :=
  ⟨fun hc => h.not_null (spend_le m o hc),
    fun ha hb => h.shared (spend_le m o ha) (spend_le m o hb)⟩

theorem spendAll_le {m : Utxo} {os : List COutPoint} {txid : Uint256} {n : ℕ} {coin : Coin}
    (h : m.spendAll os txid n = some coin) : m txid n = some coin := by
  induction os generalizing m with
  | nil => exact h
  | cons o os ih => exact spend_le m o (ih h)

theorem spendAll_of_not_mem {m : Utxo} {os : List COutPoint} {p : COutPoint} (h : p ∉ os) :
    m.spendAll os p.hash p.n.toNat = m p.hash p.n.toNat := by
  induction os generalizing m with
  | nil => rfl
  | cons o os ih =>
    rw [List.mem_cons,not_or] at h
    rw [spendAll,ih h.2,spend_of_ne h.1]

theorem spendAll_of_mem {m : Utxo} {os : List COutPoint} {p : COutPoint} (h : p ∈ os) :
    m.spendAll os p.hash p.n.toNat = none := by
  induction os generalizing m with
  | nil => cases h
  | cons o os ih =>
    by_cases hos : p ∈ os
    · exact ih hos
    · obtain rfl : p = o := by simpa [hos] using h
      rw [spendAll,spendAll_of_not_mem hos,spend_self]

/-- The undo records of spending outpoints in order. -/
inductive Undoes : Utxo → List COutPoint → List CTxInUndo → Prop
  | nil (m : Utxo) : Undoes m [] []
  | cons {m : Utxo} {o : COutPoint} {os : List COutPoint} {coin : Coin} {undos : List CTxInUndo}
      (here : m o.hash o.n.toNat = some coin) (rest : Undoes (m.spend o) os undos) :
      Undoes m (o::os) (m.undoFor o coin :: undos)

theorem Undoes.length {m : Utxo} {os : List COutPoint} {undos : List CTxInUndo}
    (h : Undoes m os undos) : undos.length = os.length := by
  induction h with
  | nil => rfl
  | cons _ _ ih => simp [ih]

end Utxo

namespace CCoinsViewCache

theorem utxo_uniform (v : CCoinsViewCache) : Utxo.Uniform v.utxo := by
  refine ⟨?_,utxo_meta⟩
  intro txid n coin h
  unfold utxo at h
  cases hc : v.getCoins txid with
  | none => simp [hc] at h
  | some coins =>
    rw [hc] at h
    obtain ⟨out,hout,rfl⟩ := CCoins.coinAt_eq_some.mp h
    exact (unspentAt_eq_some.mp hout).2

theorem haveInput_iff {v : CCoinsViewCache} {o : COutPoint} :
    v.haveInput o = true ↔ v.utxo o.hash o.n.toNat ≠ none := by
  unfold haveInput
  cases h : v.accessCoins o.hash with
  | none => simp [utxo_of_accessCoins_none h]
  | some coins => rw [CCoins.isAvailable_iff,accessCoins_coinAt h]

theorem haveInputs_iff {v : CCoinsViewCache} {tx : CTransaction} :
    v.haveInputs tx = true ↔ ∀ o ∈ tx.spends, v.utxo o.hash o.n.toNat ≠ none := by
  unfold haveInputs CTransaction.spends
  cases tx.isCoinBase <;> simp [haveInput_iff]

/-- What is common to the views before and after an operation, besides the map. -/
def Same (v v' : CCoinsViewCache) : Prop := v'.base = v.base ∧ v'.hashBlock = v.hashBlock

theorem Same.trans {v v' v'' : CCoinsViewCache} (h : Same v v') (h' : Same v' v'') : Same v v'' :=
  ⟨h'.1.trans h.1,h'.2.trans h.2⟩

/-- The end of a spending, with the flags the entry came with. -/
def spentEntry (v : CCoinsViewCache) (o : COutPoint) : CCoinsViewCache :=
  v.closeModifier o.hash
    { v.modifyCoins o.hash with coins := (v.modifyCoins o.hash).coins.spend o.n.toNat }

/-- A property that spending keeps, and under which fresh entries hide nothing. -/
structure SpendInvariant (I : CCoinsViewCache → Prop) : Prop where
  fresh : ∀ {v txid}, I v → (v.modifyCoins txid).fresh = true → v.base.utxo txid = fun _ => none
  spent : ∀ {v}, I v → ∀ o, I (v.spentEntry o)

variable {I : CCoinsViewCache → Prop}

theorem SpendInvariant.spendInput (hI : SpendInvariant I) {v : CCoinsViewCache} (hv : I v)
    {o : COutPoint} {coin : Coin} (h : v.utxo o.hash o.n.toNat = some coin) :
    v.spendInput o = .ok (v.spentEntry o,Utxo.undoFor v.utxo o coin) ∧
      (v.spentEntry o).utxo = Utxo.spend v.utxo o := by
  have hcoins := modifyCoins_coinAt v o.hash
  have hfresh : (v.modifyCoins o.hash).fresh = true → v.base.utxo o.hash = fun _ => none :=
    fun hf => hI.fresh hv hf
  unfold CCoinsViewCache.spendInput spentEntry
  generalize v.modifyCoins o.hash = entry at hcoins hfresh ⊢
  rw [← hcoins] at h
  obtain ⟨out,hout,rfl⟩ := CCoins.coinAt_eq_some.mp h
  obtain ⟨hget,hnull⟩ := unspentAt_eq_some.mp hout
  have hspend := CCoins.coinAt_spend (c := entry.coins) (n := o.n.toNat)
    (CCoins.isAvailable_iff.mpr (by simp [h]))
  have hmap : Utxo.spend v.utxo o o.hash = (entry.coins.spend o.n.toNat).coinAt := by
    rw [hspend,hcoins,Utxo.spend,Function.update_self]
  have hlast : (entry.coins.spend o.n.toNat).vout = [] ↔
      Utxo.spend v.utxo o o.hash = fun _ => none := by
    rw [hmap]
    exact CCoins.cleanup_vout_eq_nil
  constructor
  · simp only [hget,hnull,Bool.false_eq_true,if_false,Utxo.undoFor]
    by_cases hl : Utxo.spend v.utxo o o.hash = fun _ => none
    · rw [if_pos (hlast.mpr hl),if_pos hl]
      rfl
    · rw [if_neg (mt hlast.mp hl),if_neg hl]
  · rw [closeModifier_utxo (e := { entry with coins := entry.coins.spend o.n.toNat }) hfresh,hspend,
      hcoins]
    rfl

theorem SpendInvariant.spendInputs (hI : SpendInvariant I) {v : CCoinsViewCache} (hv : I v)
    {os : List COutPoint} (hnodup : os.Nodup)
    (h : ∀ o ∈ os, v.utxo o.hash o.n.toNat ≠ none) : ∃ v' undos,
      v.spendInputs os = .ok (v',undos) ∧ v'.utxo = Utxo.spendAll v.utxo os ∧
      Utxo.Undoes v.utxo os undos ∧ I v' ∧ Same v v' := by
  induction os generalizing v with
  | nil => exact ⟨v,[],rfl,rfl,.nil _,hv,rfl,rfl⟩
  | cons o os ih =>
    obtain ⟨coin,hcoin⟩ := Option.ne_none_iff_exists'.mp (h o (by simp))
    obtain ⟨hrun,hmap⟩ := hI.spendInput hv hcoin
    rw [List.nodup_cons] at hnodup
    have hrest : ∀ p ∈ os, (v.spentEntry o).utxo p.hash p.n.toNat ≠ none := by
      intro p hp
      have hne : p ≠ o := by
        rintro rfl
        exact hnodup.1 hp
      rw [hmap,Utxo.spend_of_ne hne]
      exact h p (List.mem_cons_of_mem o hp)
    obtain ⟨v₂,undos,hrun₂,hmap₂,hundo,hv₂,hsame₂⟩ := ih (hI.spent hv o) hnodup.2 hrest
    have hsame : Same v (v.spentEntry o) := ⟨rfl,rfl⟩
    refine ⟨v₂,_,?_,?_,.cons hcoin (hmap ▸ hundo),hv₂,hsame.trans hsame₂⟩
    · rw [CCoinsViewCache.spendInputs,hrun]
      change (do let (v,undos) ← (v.spentEntry o).spendInputs os; _) = _
      rw [hrun₂]
      rfl
    · rw [hmap₂,hmap]
      rfl

theorem SpendInvariant.addOutputs_utxo [Crypto] (hI : SpendInvariant I) {v : CCoinsViewCache}
    (hv : I v) {tx : CTransaction} {nHeight : ℕ}
    (hfresh : tx.isCoinBase = false → v.base.utxo tx.getHash = fun _ => none) :
    (v.addOutputs tx nHeight).utxo =
      Function.update v.utxo tx.getHash (CCoins.created tx nHeight) := by
  have hf : (if tx.isCoinBase then v.modifyCoins tx.getHash else v.modifyNewCoins tx.getHash).fresh =
      true → v.base.utxo tx.getHash = fun _ => none := by
    cases hcb : tx.isCoinBase with
    | true => exact fun h => hI.fresh hv h
    | false => exact fun _ => hfresh hcb
  unfold CCoinsViewCache.addOutputs
  dsimp only
  rw [closeModifier_utxo (by exact hf),CCoins.coinAt_fromTx]

/-- A transaction whose inputs are there takes them and puts its outputs under its txid. -/
theorem SpendInvariant.updateCoins [Crypto] (hI : SpendInvariant I) {v : CCoinsViewCache}
    (hv : I v) {tx : CTransaction} {nHeight : ℕ} (hnodup : tx.spends.Nodup)
    (h : ∀ o ∈ tx.spends, v.utxo o.hash o.n.toNat ≠ none)
    (hfresh : tx.isCoinBase = false → v.base.utxo tx.getHash = fun _ => none)
    (hadd : ∀ v', I v' → v'.base = v.base → I (v'.addOutputs tx nHeight)) : ∃ v' undo,
      v.updateCoins tx nHeight = .ok (v',undo) ∧
      v'.utxo = Function.update (Utxo.spendAll v.utxo tx.spends) tx.getHash
        (CCoins.created tx nHeight) ∧
      Utxo.Undoes v.utxo tx.spends undo.vprevout ∧ I v' ∧ Same v v' := by
  unfold CCoinsViewCache.updateCoins
  unfold CTransaction.spends at hnodup h ⊢
  cases hcb : tx.isCoinBase with
  | true =>
    exact ⟨_,_,rfl,hI.addOutputs_utxo hv hfresh,.nil _,hadd v hv rfl,rfl,rfl⟩
  | false =>
    rw [hcb] at hnodup h
    simp only [Bool.false_eq_true,if_false] at hnodup h ⊢
    obtain ⟨v₁,undos,hrun,hmap₁,hundo,hv₁,hsame₁⟩ := hI.spendInputs hv hnodup h
    have hmap : (v₁.addOutputs tx nHeight).utxo = _ :=
      hI.addOutputs_utxo hv₁ fun _ => by rw [hsame₁.1]; exact hfresh hcb
    refine ⟨v₁.addOutputs tx nHeight,⟨undos⟩,?_,by rw [hmap,hmap₁],hundo,hadd v₁ hv₁ hsame₁.1,
      hsame₁.trans ⟨rfl,rfl⟩⟩
    rw [hrun]
    rfl

theorem wf_spendInvariant : SpendInvariant Wf where
  fresh hv hf := hv.modifyCoins_fresh hf
  spent hv o := hv.closeModifier (fun hf => hv.modifyCoins_fresh hf)
    (CCoins.canonical_spend (hv.modifyCoins_canonical o.hash) _)

theorem Wf.updateCoins [Crypto] {v : CCoinsViewCache} (hv : v.Wf) {tx : CTransaction}
    {nHeight : ℕ} (hnodup : tx.spends.Nodup)
    (h : ∀ o ∈ tx.spends, v.utxo o.hash o.n.toNat ≠ none)
    (hfresh : tx.isCoinBase = false → v.base.utxo tx.getHash = fun _ => none)
    (hcanon : (CCoins.fromTx tx nHeight).Canonical) : ∃ v' undo,
      v.updateCoins tx nHeight = .ok (v',undo) ∧
      v'.utxo = Function.update (Utxo.spendAll v.utxo tx.spends) tx.getHash
        (CCoins.created tx nHeight) ∧
      Utxo.Undoes v.utxo tx.spends undo.vprevout ∧ v'.Wf ∧ Same v v' := by
  refine wf_spendInvariant.updateCoins hv hnodup h hfresh fun v' hv' hbase => ?_
  refine hv'.closeModifier ?_ hcanon
  cases hcb : tx.isCoinBase with
  | true => exact fun h => hv'.modifyCoins_fresh h
  | false => exact fun _ => hbase ▸ hfresh hcb

theorem undoEntry_undoFor {m : Utxo} (hm : m.Uniform) {o : COutPoint} {coin : Coin}
    (hcoin : m o.hash o.n.toNat = some coin) (hheight : coin.nHeight ≠ 0) {coins : CCoins}
    (hcoins : coins.coinAt = m.spend o o.hash) (hcanon : coins.Canonical) :
    ∃ vout, undoEntry (m.undoFor o coin) coins =
        ⟨coin.fCoinBase,vout,coin.nHeight,coin.nVersion⟩ ∧
      (undoEntry (m.undoFor o coin) coins).coinAt = m.spend o o.hash ∧
      (undoEntry (m.undoFor o coin) coins).Canonical ∧
      undoFits (m.undoFor o coin) coins = true := by
  unfold Utxo.undoFor
  split_ifs with hlast
  · -- the last output was spent: the record holds everything and the entry is empty
    unfold undoEntry undoFits
    rw [if_pos hheight,if_pos hheight,hlast]
    refine ⟨[],rfl,?_,?_,CCoins.isPruned_iff.mpr (hcoins.trans hlast)⟩
    · funext n
      simp [CCoins.coinAt,unspentAt]
    · intro out hout
      cases hout
  · -- other outputs are left, and the entry has their data
    obtain ⟨k,hk⟩ := Function.ne_iff.mp hlast
    obtain ⟨other,hother⟩ := Option.ne_none_iff_exists'.mp hk
    have hentry := hother
    rw [← hcoins] at hentry
    obtain ⟨_,_,rfl⟩ := CCoins.coinAt_eq_some.mp hentry
    have hshared := hm.shared hcoin (Utxo.spend_le m o hother)
    refine ⟨coins.vout,?_,hcoins,hcanon,?_⟩
    · rw [hshared.1,hshared.2.1,hshared.2.2]
      rfl
    · simp only [undoFits,ne_eq,not_true_eq_false,if_false,Bool.not_eq_true']
      by_contra hp
      exact hlast (hcoins ▸ CCoins.isPruned_iff.mp (by simpa using hp))

theorem Wf.applyTxInUndo {v : CCoinsViewCache} (hv : v.Wf) {m : Utxo} (hm : m.Uniform)
    {o : COutPoint} {coin : Coin} (hcoin : m o.hash o.n.toNat = some coin)
    (hheight : coin.nHeight ≠ 0) (hmap : v.utxo = m.spend o) : ∃ v',
      CCoinsViewCache.applyTxInUndo (m.undoFor o coin) v o = (v',true) ∧ v'.utxo = m ∧ v'.Wf ∧
      Same v v' := by
  have hcoins := modifyCoins_coinAt v o.hash
  have hfresh : (v.modifyCoins o.hash).fresh = true → v.base.utxo o.hash = fun _ => none :=
    fun hf => hv.modifyCoins_fresh hf
  have hcanon := hv.modifyCoins_canonical o.hash
  unfold CCoinsViewCache.applyTxInUndo
  generalize v.modifyCoins o.hash = entry at hcoins hfresh hcanon ⊢
  rw [hmap] at hcoins
  obtain ⟨vout,hentry,hat,hcan,hfits⟩ := undoEntry_undoFor hm hcoin hheight hcoins hcanon
  have hnull := hm.not_null hcoin
  have hout : (m.undoFor o coin).txout = coin.out := by
    unfold Utxo.undoFor
    split_ifs <;> rfl
  have hgone : (undoEntry (m.undoFor o coin) entry.coins).isAvailable o.n.toNat = false := by
    rw [← Bool.not_eq_true,CCoins.isAvailable_iff,hat,Utxo.spend_self,not_not]
  have hput : ((undoEntry (m.undoFor o coin) entry.coins).setOutput o.n.toNat coin.out).coinAt =
      Function.update (m.spend o o.hash) o.n.toNat (some coin) := by
    rw [CCoins.coinAt_setOutput _ _ hnull,hat,hentry]
  refine ⟨v.closeModifier o.hash { entry with coins :=
      (undoEntry (m.undoFor o coin) entry.coins).setOutput o.n.toNat (m.undoFor o coin).txout },?_,?_,
    hv.closeModifier hfresh (CCoins.canonical_setOutput hcan _ (hout ▸ hnull)),rfl,rfl⟩
  · dsimp only
    rw [hfits,hgone]
    rfl
  · rw [closeModifier_utxo (by exact hfresh),hout,hput,hmap]
    exact Utxo.put_spend hcoin

theorem Wf.restoreInputs {v : CCoinsViewCache} (hv : v.Wf) {m : Utxo} (hm : m.Uniform)
    {os : List COutPoint} {undos : List CTxInUndo} (h : Utxo.Undoes m os undos)
    (hheight : ∀ {txid n coin}, m txid n = some coin → coin.nHeight ≠ 0)
    (hmap : v.utxo = m.spendAll os) : ∃ v',
      v.restoreInputs (undos.zip os) = (v',true) ∧ v'.utxo = m ∧ v'.Wf ∧ Same v v' := by
  induction h with
  | nil m => exact ⟨v,rfl,hmap,hv,rfl,rfl⟩
  | @cons m o os coin undos here rest ih =>
    obtain ⟨v₁,hrun₁,hmap₁,hv₁,hsame₁⟩ := ih (hm.spend o)
      (fun hc => hheight (Utxo.spend_le m o hc)) hmap
    obtain ⟨v₂,hrun₂,hmap₂,hv₂,hsame₂⟩ := hv₁.applyTxInUndo hm here (hheight here) hmap₁
    refine ⟨v₂,?_,hmap₂,hv₂,hsame₁.trans hsame₂⟩
    rw [List.zip_cons_cons,CCoinsViewCache.restoreInputs,hrun₁]
    simp only [hrun₂,Bool.and_self]

theorem outsMatch_of_coinAt {coins : CCoins} {tx : CTransaction} {nHeight : ℕ}
    (hcan : coins.Canonical) (hcanon : (CCoins.fromTx tx nHeight).Canonical)
    (h : coins.coinAt = CCoins.created tx nHeight) : outsMatch coins tx nHeight = true := by
  have hclear : coins.clearUnspendable.coinAt = (CCoins.fromTx tx nHeight).coinAt := by
    rw [CCoins.coinAt_clearUnspendable_of_spendable,h,CCoins.coinAt_fromTx]
    intro n out hout
    have hcoin := CCoins.coinAt_eq_some.mpr ⟨out,hout,rfl⟩
    rw [h] at hcoin
    exact (CCoins.created_eq_some hcoin).2
  have hclean : coins.clearUnspendable.cleanup = coins.clearUnspendable := CCoins.cleanup_cleanup _
  have hblock : (CCoins.fromTx tx nHeight).cleanup = CCoins.fromTx tx nHeight :=
    CCoins.cleanup_cleanup _
  have hcc := CCoins.canonical_clearUnspendable hcan
  unfold outsMatch
  dsimp only
  split_ifs with hneg
  · have hversion := congrArg
      (fun c : CCoins => { c with nVersion := (CCoins.fromTx tx nHeight).nVersion }) hclean
    exact CCoins.eqv_of_coinAt hversion hblock hcc hcanon (CCoins.coinAt_with_version hclear)
  · exact CCoins.eqv_of_coinAt hclean hblock hcc hcanon hclear

theorem Wf.removeOutputs [Crypto] {v : CCoinsViewCache} (hv : v.Wf) {tx : CTransaction}
    {nHeight : ℕ} (hcanon : (CCoins.fromTx tx nHeight).Canonical)
    (hmap : v.utxo tx.getHash = CCoins.created tx nHeight) : ∃ v',
      v.removeOutputs tx nHeight = (v',true) ∧
      v'.utxo = Function.update v.utxo tx.getHash (fun _ => none) ∧ v'.Wf ∧ Same v v' := by
  have hfresh : (v.modifyCoins tx.getHash).fresh = true → v.base.utxo tx.getHash = fun _ => none :=
    fun hf => hv.modifyCoins_fresh hf
  have hcoins := (modifyCoins_coinAt v tx.getHash).trans hmap
  refine ⟨_,Prod.ext rfl (outsMatch_of_coinAt (hv.modifyCoins_canonical _) hcanon hcoins),?_,
    hv.closeModifier hfresh CCoins.canonical_empty,rfl,rfl⟩
  change (v.closeModifier tx.getHash { v.modifyCoins tx.getHash with coins := {} }).utxo = _
  rw [closeModifier_utxo (by exact hfresh),CCoins.coinAt_empty]

end CCoinsViewCache
end Sidechain
