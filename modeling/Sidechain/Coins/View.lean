import Sidechain.Coins.CCoins
import Mathlib.Logic.Function.Basic

/-! A cache of coins over a base view, and the map from outpoints to coins it stands for. Entries
carry the flags by which a later flush decides what to write, and a modified entry that is empty
and unknown to the base is forgotten when its modifier goes out of scope. -/
namespace Sidechain

/-- The answers of a `CCoinsView` that is only read. -/
structure CCoinsView where
  getCoins : Uint256 → Option CCoins := fun _ => none
  getBestBlock : Uint256 := 0

/-- `DIRTY`: potentially different from the parent's version; `FRESH`: the parent has no
unspent outputs under this txid. -/
structure CCoinsCacheEntry where
  coins : CCoins := {}
  dirty : Bool := false
  fresh : Bool := false
  deriving DecidableEq, Repr

structure CCoinsViewCache where
  base : CCoinsView := {}
  hashBlock : Uint256 := 0
  cacheCoins : Uint256 → Option CCoinsCacheEntry := fun _ => none

namespace CCoinsViewCache

/-- The coins a lookup through the cache finds. -/
def getCoins (v : CCoinsViewCache) (txid : Uint256) : Option CCoins :=
  match v.cacheCoins txid with
  | some e => some e.coins
  | none => v.base.getCoins txid

def accessCoins (v : CCoinsViewCache) (txid : Uint256) : Option CCoins := v.getCoins txid

def setEntry (v : CCoinsViewCache) (txid : Uint256) (e : Option CCoinsCacheEntry) :
    CCoinsViewCache :=
  { v with cacheCoins := Function.update v.cacheCoins txid e }

/-- The entry a lookup leaves in the cache when it had to ask the base. -/
def fetchCoins (v : CCoinsViewCache) (txid : Uint256) : CCoinsViewCache :=
  match v.cacheCoins txid with
  | some _ => v
  | none =>
    match v.base.getCoins txid with
    | none => v
    | some coins => v.setEntry txid (some ⟨coins,false,coins.isPruned⟩)

def haveCoins (v : CCoinsViewCache) (txid : Uint256) : Bool :=
  match v.getCoins txid with
  | some coins => !coins.vout.isEmpty
  | none => false

/-- A null hash stands for "not known yet". -/
def getBestBlock (v : CCoinsViewCache) : Uint256 :=
  if v.hashBlock = 0 then v.base.getBestBlock else v.hashBlock

def setBestBlock (v : CCoinsViewCache) (hashBlockIn : Uint256) : CCoinsViewCache :=
  { v with hashBlock := hashBlockIn }

/-- The entry `ModifyCoins` hands out. -/
def modifyCoins (v : CCoinsViewCache) (txid : Uint256) : CCoinsCacheEntry :=
  match v.cacheCoins txid with
  | some e => { e with dirty := true }
  | none =>
    match v.base.getCoins txid with
    | none => ⟨{},true,true⟩
    | some coins => ⟨coins,true,coins.isPruned⟩

/-- The entry `ModifyNewCoins` hands out. -/
def modifyNewCoins (_v : CCoinsViewCache) (_txid : Uint256) : CCoinsCacheEntry := ⟨{},true,true⟩

/-- The end of a modifier's life: clean up, and drop an entry that is fresh and empty. -/
def closeModifier (v : CCoinsViewCache) (txid : Uint256) (e : CCoinsCacheEntry) : CCoinsViewCache :=
  let coins := e.coins.cleanup
  v.setEntry txid (if e.fresh && coins.isPruned then none else some { e with coins })

end CCoinsViewCache

/-- The coin a view has under an outpoint. -/
def CCoinsView.utxo (base : CCoinsView) (txid : Uint256) : ℕ → Option Coin :=
  match base.getCoins txid with
  | some coins => coins.coinAt
  | none => fun _ => none

namespace CCoinsViewCache

def utxo (v : CCoinsViewCache) (txid : Uint256) : ℕ → Option Coin :=
  match v.getCoins txid with
  | some coins => coins.coinAt
  | none => fun _ => none

/-- Fresh entries hide nothing, and null outputs carry nothing. -/
structure Wf (v : CCoinsViewCache) : Prop where
  fresh : ∀ txid e, v.cacheCoins txid = some e → e.fresh = true → v.base.utxo txid = fun _ => none
  base_canonical : ∀ txid coins, v.base.getCoins txid = some coins → coins.Canonical
  canonical : ∀ txid e, v.cacheCoins txid = some e → e.coins.Canonical

theorem utxo_of_entry {v : CCoinsViewCache} {txid : Uint256} {e : CCoinsCacheEntry}
    (h : v.cacheCoins txid = some e) : v.utxo txid = e.coins.coinAt := by
  simp [utxo,getCoins,h]

theorem utxo_of_none {v : CCoinsViewCache} {txid : Uint256} (h : v.cacheCoins txid = none) :
    v.utxo txid = v.base.utxo txid := by
  simp [utxo,getCoins,h,CCoinsView.utxo]

theorem accessCoins_coinAt {v : CCoinsViewCache} {txid : Uint256} {coins : CCoins}
    (h : v.accessCoins txid = some coins) : coins.coinAt = v.utxo txid := by
  rw [accessCoins] at h
  simp [utxo,h]

theorem utxo_of_accessCoins_none {v : CCoinsViewCache} {txid : Uint256}
    (h : v.accessCoins txid = none) : v.utxo txid = fun _ => none := by
  rw [accessCoins] at h
  simp [utxo,h]

theorem utxo_meta {v : CCoinsViewCache} {txid : Uint256} {n m : ℕ} {a b : Coin}
    (ha : v.utxo txid n = some a) (hb : v.utxo txid m = some b) :
    a.fCoinBase = b.fCoinBase ∧ a.nHeight = b.nHeight ∧ a.nVersion = b.nVersion := by
  unfold utxo at ha hb
  cases hc : v.getCoins txid with
  | none => simp [hc] at ha
  | some coins =>
    rw [hc] at ha hb
    exact CCoins.coinAt_meta ha hb

theorem Wf.setBestBlock {v : CCoinsViewCache} (h : v.Wf) (hash : Uint256) :
    (v.setBestBlock hash).Wf := ⟨h.fresh,h.base_canonical,h.canonical⟩

theorem getBestBlock_setBestBlock (v : CCoinsViewCache) {h : Uint256} (hne : h ≠ 0) :
    (v.setBestBlock h).getBestBlock = h := if_neg hne

theorem setBestBlock_getBestBlock {v w : CCoinsViewCache} (h : w.base = v.base) :
    (w.setBestBlock v.getBestBlock).getBestBlock = v.getBestBlock := by
  by_cases hzero : v.getBestBlock = 0
  · have hbest : v.base.getBestBlock = 0 := by
      unfold getBestBlock at hzero
      split_ifs at hzero with hv
      · exact hzero
      · exact absurd hzero hv
    rw [hzero]
    exact (congrArg CCoinsView.getBestBlock h).trans hbest
  · exact getBestBlock_setBestBlock w hzero

@[simp] theorem closeModifier_base (v : CCoinsViewCache) (txid : Uint256) (e : CCoinsCacheEntry) :
    (v.closeModifier txid e).base = v.base := rfl

theorem closeModifier_cacheCoins (v : CCoinsViewCache) (txid : Uint256) (e : CCoinsCacheEntry) :
    (v.closeModifier txid e).cacheCoins = Function.update v.cacheCoins txid
      (if e.fresh && e.coins.isPruned then none else some { e with coins := e.coins.cleanup }) := by
  simp [closeModifier,setEntry]

theorem closeModifier_utxo {v : CCoinsViewCache} {txid : Uint256} {e : CCoinsCacheEntry}
    (hfresh : e.fresh = true → v.base.utxo txid = fun _ => none) :
    (v.closeModifier txid e).utxo = Function.update v.utxo txid e.coins.coinAt := by
  funext t
  by_cases ht : t = txid
  · subst ht
    rw [Function.update_self]
    by_cases hdrop : (e.fresh && e.coins.isPruned) = true
    · have hcache : (v.closeModifier t e).cacheCoins t = none := by
        rw [closeModifier_cacheCoins,Function.update_self,if_pos hdrop]
      rw [Bool.and_eq_true] at hdrop
      rw [utxo_of_none hcache,closeModifier_base,hfresh hdrop.1,CCoins.isPruned_iff.mp hdrop.2]
    · have hcache : (v.closeModifier t e).cacheCoins t = some { e with coins := e.coins.cleanup } := by
        rw [closeModifier_cacheCoins,Function.update_self,if_neg hdrop]
      rw [utxo_of_entry hcache,CCoins.coinAt_cleanup]
  · rw [Function.update_of_ne ht]
    simp [utxo,getCoins,closeModifier_cacheCoins,Function.update_of_ne ht]

theorem Wf.closeModifier {v : CCoinsViewCache} (h : v.Wf) {txid : Uint256} {e : CCoinsCacheEntry}
    (hfresh : e.fresh = true → v.base.utxo txid = fun _ => none) (hcanon : e.coins.Canonical) :
    (v.closeModifier txid e).Wf := by
  refine ⟨?_,h.base_canonical,?_⟩
  · intro t e' he' hf
    rw [closeModifier_cacheCoins] at he'
    rw [closeModifier_base]
    by_cases ht : t = txid
    · subst ht
      rw [Function.update_self] at he'
      split_ifs at he' with hdrop
      cases he'
      exact hfresh hf
    · rw [Function.update_of_ne ht] at he'
      exact h.fresh t e' he' hf
  · intro t e' he'
    rw [closeModifier_cacheCoins] at he'
    by_cases ht : t = txid
    · subst ht
      rw [Function.update_self] at he'
      split_ifs at he' with hdrop
      cases he'
      exact CCoins.canonical_cleanup hcanon
    · rw [Function.update_of_ne ht] at he'
      exact h.canonical t e' he'

/-- What `ModifyCoins` hands out are the coins the view has. -/
theorem modifyCoins_coinAt (v : CCoinsViewCache) (txid : Uint256) :
    (v.modifyCoins txid).coins.coinAt = v.utxo txid := by
  unfold modifyCoins utxo getCoins
  cases v.cacheCoins txid with
  | some e => rfl
  | none => cases v.base.getCoins txid <;> simp

theorem Wf.modifyCoins_fresh {v : CCoinsViewCache} (h : v.Wf) {txid : Uint256}
    (hf : (v.modifyCoins txid).fresh = true) : v.base.utxo txid = fun _ => none := by
  unfold modifyCoins at hf
  cases hc : v.cacheCoins txid with
  | some e =>
    rw [hc] at hf
    exact h.fresh txid e hc hf
  | none =>
    simp only [hc] at hf
    cases hb : v.base.getCoins txid with
    | none => simp [CCoinsView.utxo,hb]
    | some coins =>
      simp only [hb] at hf
      simpa [CCoinsView.utxo,hb] using CCoins.isPruned_iff.mp hf

theorem Wf.modifyCoins_canonical {v : CCoinsViewCache} (h : v.Wf) (txid : Uint256) :
    (v.modifyCoins txid).coins.Canonical := by
  unfold modifyCoins
  cases hc : v.cacheCoins txid with
  | some e => exact h.canonical txid e hc
  | none =>
    cases hb : v.base.getCoins txid with
    | none => exact CCoins.canonical_empty
    | some coins => exact h.base_canonical txid coins hb

/-- Looking something up changes no answer. -/
theorem fetchCoins_getCoins (v : CCoinsViewCache) (txid : Uint256) :
    (v.fetchCoins txid).getCoins = v.getCoins := by
  unfold fetchCoins
  split
  · rfl
  · rename_i hc
    split
    · rfl
    · rename_i coins hb
      funext t
      by_cases ht : t = txid
      · subst ht
        simp [getCoins,setEntry,hc,hb]
      · simp [getCoins,setEntry,Function.update_of_ne ht]

end CCoinsViewCache
end Sidechain
