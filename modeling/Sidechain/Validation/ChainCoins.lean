import Sidechain.Chain.Extension
import Sidechain.Validation.FlushBlock

/-! The coins of a chain as a function of its blocks: a coin has the height of the block that made
it, and chains with the same lower part agree on the coins made there. -/
namespace Sidechain
open CBlockIndex

variable [Crypto]

/-- The unspent coins after the blocks of a path, where `txsOf` gives the transactions with which
the block of a hash updates the coins; for the genesis block these are none. -/
def coinsOf (txsOf : Uint256 → List CTransaction) : List BlockEntry → Utxo
  | [] => fun _ _ => none
  | e::path => (txsOf e.hash).foldl (Utxo.replaceTx path.length) (coinsOf txsOf path)

/-- The txids of the blocks of a path. -/
def txidsOf (txsOf : Uint256 → List CTransaction) (path : List BlockEntry) : List Uint256 :=
  path.flatMap fun e => (txsOf e.hash).map CTransaction.getHash

/-- Every block is newer than the median time past of its parent and overwrites no coins. -/
inductive ValidChain (txsOf : Uint256 → List CTransaction) : List BlockEntry → Prop
  | genesis (e : BlockEntry) : ValidChain txsOf [e]
  | add {path e parent} (run : ValidChain txsOf path) (hparent : ofPath path = some parent)
      (htime : parent.getMedianTimePast < e.nTime.toNat)
      (hfree : ∀ tx ∈ txsOf e.hash, coinsOf txsOf path tx.getHash = fun _ => none) :
      ValidChain txsOf (e::path)

variable {txsOf : Uint256 → List CTransaction} {path part : List BlockEntry}

theorem ValidChain.extends (h : ValidChain txsOf path) (hpart : part <:+ path)
    (hne : part ≠ []) : Extends part path := by
  induction h with
  | genesis e =>
    rcases List.suffix_cons_iff.mp hpart with rfl | hnil
    · exact .refl
    · exact absurd (List.suffix_nil.mp hnil) hne
  | add run hparent htime hfree ih =>
    rcases List.suffix_cons_iff.mp hpart with rfl | hpart
    · exact .refl
    · exact .add (ih hpart) hparent htime

theorem ValidChain.medianTimePast_upTo (h : ValidChain txsOf path) {height : ℕ}
    (hlt : height < path.length) : medianTimePast (upTo path height) ≤ medianTimePast path := by
  refine (h.extends (upTo_suffix path height) ?_).medianTimePast_le
  rw [← List.length_pos_iff,upTo_length hlt]
  exact Nat.succ_pos height

theorem foldl_replaceTx_source {nHeight : ℕ} {vtx : List CTransaction} {m : Utxo}
    {txid : Uint256} {n : ℕ} {coin : Coin}
    (h : vtx.foldl (Utxo.replaceTx nHeight) m txid n = some coin) :
    (txid ∈ vtx.map CTransaction.getHash ∧ coin.nHeight = nHeight) ∨ m txid n = some coin := by
  induction vtx generalizing m with
  | nil => exact .inr h
  | cons tx vtx ih =>
    rw [List.map_cons,List.mem_cons]
    rcases ih h with ⟨hnew,hheight⟩ | hold
    · exact .inl ⟨.inr hnew,hheight⟩
    · unfold Utxo.replaceTx at hold
      by_cases htxid : txid = tx.getHash
      · subst htxid
        rw [Function.update_self] at hold
        obtain ⟨out,_,rfl⟩ := Option.map_eq_some_iff.mp hold
        exact .inl ⟨.inl rfl,rfl⟩
      · rw [Function.update_of_ne htxid] at hold
        exact .inr (Utxo.spendAll_le hold)

theorem coinsOf_source {txid : Uint256} {n : ℕ} {coin : Coin}
    (h : coinsOf txsOf path txid n = some coin) :
    coin.nHeight < path.length ∧ txid ∈ txidsOf txsOf path := by
  induction path with
  | nil => cases h
  | cons e path ih =>
    rw [List.length_cons,txidsOf,List.flatMap_cons,List.mem_append]
    rcases foldl_replaceTx_source h with ⟨hnew,hheight⟩ | hold
    · exact ⟨by omega,.inl hnew⟩
    · obtain ⟨hlt,hmem⟩ := ih hold
      exact ⟨by omega,.inr hmem⟩

theorem coinsOf_of_suffix (hpart : part <:+ path) {txid : Uint256} {n : ℕ} {coin : Coin}
    (h : coinsOf txsOf path txid n = some coin) (hheight : coin.nHeight < part.length) :
    coinsOf txsOf part txid n = some coin := by
  induction path with
  | nil => rwa [List.suffix_nil.mp hpart]
  | cons e path ih =>
    rcases List.suffix_cons_iff.mp hpart with rfl | hpart
    · exact h
    · rcases foldl_replaceTx_source h with ⟨_,heq⟩ | hold
      · have := hpart.length_le
        omega
      · exact ih hpart hold

theorem txidsOf_subset (hpart : part <:+ path) : txidsOf txsOf part ⊆ txidsOf txsOf path := by
  intro txid htxid
  obtain ⟨e,he,hmem⟩ := List.mem_flatMap.mp htxid
  exact List.mem_flatMap.mpr ⟨e,hpart.subset he,hmem⟩

/-- A coin that is never spent on the way up is still the same coin, as no block overwrites it. -/
theorem ValidChain.coin_kept (h : ValidChain txsOf path) (hpart : part <:+ path)
    {txid : Uint256} {n : ℕ} {coin : Coin} (hcoin : coinsOf txsOf part txid n = some coin)
    (hkept : ∀ mid, part <:+ mid → mid <:+ path → coinsOf txsOf mid txid n ≠ none) :
    coinsOf txsOf path txid n = some coin := by
  induction h with
  | genesis e =>
    rcases List.suffix_cons_iff.mp hpart with rfl | hnil
    · exact hcoin
    · rw [List.suffix_nil.mp hnil] at hcoin
      cases hcoin
  | @add path e parent run hparent htime hfree ih =>
    rcases List.suffix_cons_iff.mp hpart with rfl | hpart
    · exact hcoin
    · have hbelow := ih hpart fun mid hlow hhigh =>
        hkept mid hlow (hhigh.trans (List.suffix_cons e path))
      obtain ⟨found,hfound⟩ := Option.ne_none_iff_exists'.mp
        (hkept (e::path) (hpart.trans (List.suffix_cons e path)) (List.suffix_refl _))
      rcases foldl_replaceTx_source hfound with ⟨hnew,_⟩ | hold
      · obtain ⟨tx,htx,rfl⟩ := List.mem_map.mp hnew
        rw [hfree tx htx] at hbelow
        cases hbelow
      · rw [hfound,← hold,hbelow]

end Sidechain
