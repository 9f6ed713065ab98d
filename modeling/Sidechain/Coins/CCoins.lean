import Sidechain.Primitives.Transaction
import Mathlib.Data.List.DropRight

/-! The unspent outputs of one transaction, as the code stores them and as the coins a spender
sees: a position is empty when it is past the end or holds a null output. -/
namespace Sidechain

/-- Heights and versions are those of the transaction; spent outputs are null and dropped at
the end of `vout`. -/
structure CCoins where
  fCoinBase : Bool := false
  vout : List CTxOut := []
  nHeight : ℕ := 0
  nVersion : Int32 := 0
  deriving DecidableEq, Repr

/-- One unspent output with what spending it is checked against. -/
structure Coin where
  out : CTxOut
  fCoinBase : Bool
  nHeight : ℕ
  nVersion : Int32
  deriving DecidableEq, Repr

namespace CCoins

/-- Remove spent outputs at the end. -/
def cleanup (c : CCoins) : CCoins := { c with vout := c.vout.rdropWhile CTxOut.isNull }

def clearUnspendable (c : CCoins) : CCoins :=
  cleanup { c with
    vout := c.vout.map fun txout => if txout.scriptPubKey.isUnspendable then CTxOut.null else txout }

def fromTx (tx : CTransaction) (nHeight : ℕ) : CCoins :=
  clearUnspendable { fCoinBase := tx.isCoinBase, vout := tx.vout, nHeight, nVersion := tx.nVersion }

def isPruned (c : CCoins) : Bool := c.vout.all CTxOut.isNull

def isAvailable (c : CCoins) (nPos : ℕ) : Bool :=
  match c.vout[nPos]? with
  | none => false
  | some out => !out.isNull

/-- `Spend` of an available output. -/
def spend (c : CCoins) (nPos : ℕ) : CCoins := cleanup { c with vout := c.vout.set nPos CTxOut.null }

/-- `operator==`: empty objects are always equal. -/
def eqv (a b : CCoins) : Bool := (a.isPruned && b.isPruned) || a == b

/-- Grow `vout` with default outputs if the position is past its end, and store there. -/
def setOutput (c : CCoins) (nPos : ℕ) (out : CTxOut) : CCoins :=
  { c with vout := (c.vout ++ List.replicate (nPos + 1 - c.vout.length) CTxOut.null).set nPos out }

end CCoins

/-- The output a position still holds. -/
def unspentAt (vout : List CTxOut) (nPos : ℕ) : Option CTxOut :=
  vout[nPos]?.filter fun out => !out.isNull

theorem unspentAt_eq_some {vout : List CTxOut} {n : ℕ} {out : CTxOut} :
    unspentAt vout n = some out ↔ vout[n]? = some out ∧ out.isNull = false := by
  simp [unspentAt,Option.filter_eq_some_iff]

theorem unspentAt_eq_none {vout : List CTxOut} {n : ℕ} :
    unspentAt vout n = none ↔ ∀ out, vout[n]? = some out → out.isNull = true := by
  simp [unspentAt,Option.filter_eq_none_iff]

theorem unspentAt_append_null {vout : List CTxOut} {x : CTxOut} (hx : x.isNull = true) :
    unspentAt (vout ++ [x]) = unspentAt vout := by
  funext n
  unfold unspentAt
  rw [List.getElem?_append]
  split_ifs with hn
  · rfl
  · rw [List.getElem?_eq_none (Nat.not_lt.mp hn)]
    cases hs : [x][n - vout.length]? with
    | none => rfl
    | some out =>
      obtain rfl : out = x := by simpa using List.mem_of_getElem? hs
      simp [hx]

@[simp] theorem unspentAt_rdropWhile (vout : List CTxOut) :
    unspentAt (vout.rdropWhile CTxOut.isNull) = unspentAt vout := by
  induction vout using List.reverseRecOn with
  | nil => simp
  | append_singleton vout x ih =>
    rw [List.rdropWhile_concat]
    split_ifs with hx
    · rw [ih,unspentAt_append_null hx]
    · rfl

@[simp] theorem unspentAt_append_replicate (vout : List CTxOut) (k : ℕ) :
    unspentAt (vout ++ List.replicate k CTxOut.null) = unspentAt vout := by
  induction k with
  | zero => simp
  | succ k ih => rw [List.replicate_succ',← List.append_assoc,unspentAt_append_null rfl,ih]

theorem unspentAt_set {vout : List CTxOut} {i : ℕ} (hi : i < vout.length) (out : CTxOut) :
    unspentAt (vout.set i out) =
      Function.update (unspentAt vout) i (if out.isNull then none else some out) := by
  funext n
  unfold unspentAt
  rw [List.getElem?_set]
  by_cases hn : n = i
  · subst hn
    rw [Function.update_self,if_pos rfl,if_pos hi]
    cases hout : out.isNull <;> simp [hout]
  · rw [Function.update_of_ne hn,if_neg (Ne.symm hn)]

/-- Two lists without trailing nulls, whose null outputs carry nothing else, are determined by
what is unspent in them. -/
theorem eq_of_unspentAt {a b : List CTxOut} (ha : a.rdropWhile CTxOut.isNull = a)
    (hb : b.rdropWhile CTxOut.isNull = b) (hca : ∀ out ∈ a, out.isNull = true → out = CTxOut.null)
    (hcb : ∀ out ∈ b, out.isNull = true → out = CTxOut.null) (h : unspentAt a = unspentAt b) :
    a = b := by
  have hlen : ∀ {x y : List CTxOut}, x.rdropWhile CTxOut.isNull = x → unspentAt x = unspentAt y →
      x.length ≤ y.length := by
    intro x y hx hxy
    rcases List.eq_nil_or_concat x with rfl | ⟨front,o,rfl⟩
    · simp
    · rw [List.concat_eq_append] at hx hxy ⊢
      have ho : o.isNull = false := by
        by_contra hnull
        rw [List.rdropWhile_concat,if_pos (by simpa using hnull)] at hx
        have := congrArg List.length hx
        have hle := (List.rdropWhile_prefix CTxOut.isNull front).length_le
        simp only [List.length_append,List.length_singleton] at this
        omega
      have hy := congrFun hxy front.length
      rw [unspentAt_eq_some.mpr (⟨by simp,ho⟩ : _ ∧ o.isNull = false)] at hy
      have hlt := (List.getElem?_eq_some_iff.mp (unspentAt_eq_some.mp hy.symm).1).1
      simp only [List.length_append,List.length_singleton]
      omega
  have hlenEq : a.length = b.length := le_antisymm (hlen ha h) (hlen hb h.symm)
  apply List.ext_getElem hlenEq
  intro n hna hnb
  cases hu : unspentAt a n with
  | some out =>
    have h1 := (unspentAt_eq_some.mp hu).1
    have h2 := (unspentAt_eq_some.mp (h ▸ hu : unspentAt b n = some out)).1
    rw [List.getElem?_eq_getElem hna] at h1
    rw [List.getElem?_eq_getElem hnb] at h2
    exact (Option.some.inj h1).trans (Option.some.inj h2).symm
  | none =>
    have h1 := unspentAt_eq_none.mp hu _ (List.getElem?_eq_getElem hna)
    have h2 := unspentAt_eq_none.mp (h ▸ hu : unspentAt b n = none) _ (List.getElem?_eq_getElem hnb)
    rw [hca _ (List.getElem_mem hna) h1,hcb _ (List.getElem_mem hnb) h2]

namespace CCoins

/-- The coin a spender of a position gets. -/
def coinAt (c : CCoins) (nPos : ℕ) : Option Coin :=
  (unspentAt c.vout nPos).map fun out => ⟨out,c.fCoinBase,c.nHeight,c.nVersion⟩

/-- Null outputs carry nothing else. -/
def Canonical (c : CCoins) : Prop := ∀ out ∈ c.vout, out.isNull = true → out = CTxOut.null

theorem coinAt_eq_some {c : CCoins} {n : ℕ} {coin : Coin} : c.coinAt n = some coin ↔
    ∃ out, unspentAt c.vout n = some out ∧ ⟨out,c.fCoinBase,c.nHeight,c.nVersion⟩ = coin :=
  Option.map_eq_some_iff

theorem isAvailable_iff {c : CCoins} {n : ℕ} : c.isAvailable n = true ↔ c.coinAt n ≠ none := by
  unfold isAvailable coinAt unspentAt
  cases c.vout[n]? with
  | none => simp
  | some out => cases hout : out.isNull <;> simp [hout]

theorem isPruned_iff {c : CCoins} : c.isPruned = true ↔ c.coinAt = fun _ => none := by
  simp only [isPruned,List.all_eq_true,funext_iff,coinAt,Option.map_eq_none_iff]
  constructor
  · exact fun h n => unspentAt_eq_none.mpr fun out hout => h out (List.mem_of_getElem? hout)
  · intro h out hout
    obtain ⟨n,hn⟩ := List.getElem?_of_mem hout
    exact unspentAt_eq_none.mp (h n) out hn

/-- Coins of one entry agree in everything but the output. -/
theorem coinAt_meta {c : CCoins} {n m : ℕ} {a b : Coin} (ha : c.coinAt n = some a)
    (hb : c.coinAt m = some b) :
    a.fCoinBase = b.fCoinBase ∧ a.nHeight = b.nHeight ∧ a.nVersion = b.nVersion := by
  obtain ⟨_,_,rfl⟩ := coinAt_eq_some.mp ha
  obtain ⟨_,_,rfl⟩ := coinAt_eq_some.mp hb
  exact ⟨rfl,rfl,rfl⟩

@[simp] theorem coinAt_cleanup (c : CCoins) : c.cleanup.coinAt = c.coinAt := by
  funext n
  simp [coinAt,cleanup]

@[simp] theorem coinAt_empty : coinAt {} = fun _ => none := by
  funext n
  simp [coinAt,unspentAt]

@[simp] theorem isPruned_cleanup (c : CCoins) : c.cleanup.isPruned = c.isPruned := by
  rw [Bool.eq_iff_iff,isPruned_iff,isPruned_iff,coinAt_cleanup]

theorem cleanup_vout_eq_nil {c : CCoins} : c.cleanup.vout = [] ↔ c.cleanup.coinAt = fun _ => none := by
  rw [← isPruned_iff,isPruned_cleanup]
  unfold cleanup isPruned
  rw [List.rdropWhile_eq_nil_iff,List.all_eq_true]

theorem canonical_cleanup {c : CCoins} (h : c.Canonical) : c.cleanup.Canonical :=
  fun out hout => h out ((List.rdropWhile_prefix _ _).subset hout)

theorem canonical_empty : Canonical {} := by
  intro out hout
  cases hout

theorem coinAt_spend {c : CCoins} {n : ℕ} (h : c.isAvailable n = true) :
    (c.spend n).coinAt = Function.update c.coinAt n none := by
  have hlt : n < c.vout.length := by
    unfold isAvailable at h
    cases hc : c.vout[n]? with
    | none => simp [hc] at h
    | some out => exact (List.getElem?_eq_some_iff.mp hc).1
  unfold spend
  rw [coinAt_cleanup]
  funext m
  simp only [coinAt,unspentAt_set hlt]
  by_cases hm : m = n
  · subst hm
    rw [Function.update_self,Function.update_self]
    rfl
  · rw [Function.update_of_ne hm,Function.update_of_ne hm]
    rfl

theorem canonical_spend {c : CCoins} (h : c.Canonical) (n : ℕ) : (c.spend n).Canonical := by
  apply canonical_cleanup
  intro out hout
  rcases List.mem_or_eq_of_mem_set hout with hout | rfl
  · exact h out hout
  · exact fun _ => rfl

theorem coinAt_setOutput (c : CCoins) (n : ℕ) {out : CTxOut} (hout : out.isNull = false) :
    (c.setOutput n out).coinAt =
      Function.update c.coinAt n (some ⟨out,c.fCoinBase,c.nHeight,c.nVersion⟩) := by
  have hlt : n < (c.vout ++ List.replicate (n + 1 - c.vout.length) CTxOut.null).length := by
    simp only [List.length_append,List.length_replicate]
    omega
  funext m
  simp only [coinAt,setOutput,unspentAt_set hlt,unspentAt_append_replicate,hout]
  by_cases hm : m = n
  · subst hm
    simp
  · rw [Function.update_of_ne hm,Function.update_of_ne hm]
    rfl

theorem canonical_setOutput {c : CCoins} (h : c.Canonical) (n : ℕ) {out : CTxOut}
    (hout : out.isNull = false) : (c.setOutput n out).Canonical := by
  intro o ho hnull
  rcases List.mem_or_eq_of_mem_set ho with ho | rfl
  · rcases List.mem_append.mp ho with ho | ho
    · exact h o ho hnull
    · exact (List.mem_replicate.mp ho).2
  · rw [hout] at hnull
    cases hnull

/-- What a transaction leaves to spend: its outputs, apart from the unspendable ones. -/
def created (tx : CTransaction) (nHeight : ℕ) (n : ℕ) : Option Coin :=
  (tx.vout[n]?.filter fun out => !out.isNull && !out.scriptPubKey.isUnspendable).map
    fun out => ⟨out,tx.isCoinBase,nHeight,tx.nVersion⟩

theorem coinAt_clearUnspendable (c : CCoins) (n : ℕ) : c.clearUnspendable.coinAt n =
    (c.vout[n]?.filter fun out => !out.isNull && !out.scriptPubKey.isUnspendable).map
      fun out => ⟨out,c.fCoinBase,c.nHeight,c.nVersion⟩ := by
  unfold clearUnspendable
  rw [coinAt_cleanup]
  simp only [coinAt,unspentAt,List.getElem?_map]
  cases c.vout[n]? with
  | none => rfl
  | some out =>
    have hnull : CTxOut.null.isNull = true := rfl
    cases hu : out.scriptPubKey.isUnspendable <;> cases ho : out.isNull <;>
      simp [Option.filter,hu,ho,hnull]

theorem created_eq_some {tx : CTransaction} {nHeight n : ℕ} {coin : Coin} :
    created tx nHeight n = some coin →
      tx.vout[n]? = some coin.out ∧ coin.out.scriptPubKey.isUnspendable = false := by
  unfold created
  intro h
  obtain ⟨out,hout,rfl⟩ := Option.map_eq_some_iff.mp h
  rw [Option.filter_eq_some_iff,Bool.and_eq_true,Bool.not_eq_true',Bool.not_eq_true'] at hout
  exact ⟨hout.1,hout.2.2⟩

theorem coinAt_clearUnspendable_of_spendable {c : CCoins}
    (h : ∀ n out, unspentAt c.vout n = some out → out.scriptPubKey.isUnspendable = false) :
    c.clearUnspendable.coinAt = c.coinAt := by
  funext n
  rw [coinAt_clearUnspendable,coinAt,unspentAt]
  cases hout : c.vout[n]? with
  | none => rfl
  | some out =>
    cases ho : out.isNull with
    | true => simp [Option.filter,ho]
    | false =>
      have hu := h n out (unspentAt_eq_some.mpr ⟨hout,ho⟩)
      simp [Option.filter,ho,hu]

theorem coinAt_with_version {a b : CCoins} (h : a.coinAt = b.coinAt) :
    coinAt { a with nVersion := b.nVersion } = b.coinAt := by
  funext n
  rw [← h]
  unfold coinAt
  dsimp only
  cases ha : unspentAt a.vout n with
  | none => rfl
  | some out =>
    have hcoin : b.coinAt n = some ⟨out,a.fCoinBase,a.nHeight,a.nVersion⟩ :=
      h ▸ coinAt_eq_some.mpr ⟨out,ha,rfl⟩
    obtain ⟨_,_,hb⟩ := coinAt_eq_some.mp hcoin
    rw [(Coin.mk.inj hb).2.2.2]

theorem coinAt_fromTx (tx : CTransaction) (nHeight : ℕ) :
    (fromTx tx nHeight).coinAt = created tx nHeight := by
  funext n
  exact coinAt_clearUnspendable _ n

theorem canonical_clearUnspendable {c : CCoins} (h : c.Canonical) :
    c.clearUnspendable.Canonical := by
  apply canonical_cleanup
  intro out hout hnull
  obtain ⟨o,ho,rfl⟩ := List.mem_map.mp hout
  split_ifs with hu
  · rfl
  · rw [if_neg hu] at hnull
    exact h o ho hnull

theorem cleanup_cleanup (c : CCoins) : c.cleanup.cleanup = c.cleanup := by
  simp [cleanup,List.rdropWhile_idempotent]

/-- Clean canonical entries with the same coins are equal as far as `operator==` looks. -/
theorem eqv_of_coinAt {a b : CCoins} (ha : a.cleanup = a) (hb : b.cleanup = b)
    (hca : a.Canonical) (hcb : b.Canonical) (h : a.coinAt = b.coinAt) : a.eqv b = true := by
  unfold eqv
  rw [Bool.or_eq_true]
  by_cases hp : a.isPruned = true
  · left
    have hb' : b.isPruned = true := isPruned_iff.mpr (h ▸ isPruned_iff.mp hp)
    simp [hp,hb']
  · right
    have hne : a.coinAt ≠ fun _ => none := fun hnone => hp (isPruned_iff.mpr hnone)
    obtain ⟨n,hn⟩ := Function.ne_iff.mp hne
    obtain ⟨coin,hcoin⟩ := Option.ne_none_iff_exists'.mp hn
    obtain ⟨out,_,h1⟩ := coinAt_eq_some.mp hcoin
    obtain ⟨out',_,h2⟩ := coinAt_eq_some.mp (h ▸ hcoin : b.coinAt n = some coin)
    have hmeta := h1.trans h2.symm
    simp only [Coin.mk.injEq] at hmeta
    have hunspent : unspentAt a.vout = unspentAt b.vout := by
      funext m
      have hm := congrFun h m
      simp only [coinAt,hmeta.2.1,hmeta.2.2.1,hmeta.2.2.2] at hm
      exact Option.map_injective (fun x y hxy => (Coin.mk.inj hxy).1) hm
    have hvout := eq_of_unspentAt (congrArg vout ha) (congrArg vout hb) hca hcb hunspent
    rw [beq_iff_eq]
    cases a
    cases b
    simp_all

end CCoins
end Sidechain
