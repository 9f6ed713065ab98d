import Sidechain.Wallet.CoinSelection

/-! Coins that are selected for an amount are distinct coins of the wallet whose values add up to the
value that is reported, and this is at least the amount, however the random choices turn out. -/
namespace Sidechain
open Run SubsetSum

namespace SubsetSearch
variable {v : List ℤ} {nTargetValue : ℤ} {s : SubsetSearch}

/-- The best choice so far has its value, which is enough. -/
structure Enough (v : List ℤ) (nTargetValue : ℤ) (s : SubsetSearch) : Prop where
  best : s.nBest = (chosen s.vfBest v).sum
  enough : nTargetValue ≤ s.nBest

/-- The coins that are in have the total. -/
structure Sound (v : List ℤ) (nTargetValue : ℤ) (s : SubsetSearch) : Prop
    extends Enough v nTargetValue s where
  total : s.nTotal = (chosen s.vfIncluded v).sum

theorem Sound.insertCoin (hs : s.Sound v nTargetValue) {value : ℤ} {i : ℕ} (hv : v[i]? = some value)
    (hout : s.vfIncluded[i]? = some false) : (s.insertCoin nTargetValue value i).Sound v nTargetValue := by
  have henter := sum_chosen_enter hv hout
  have hback : (s.vfIncluded.set i true).set i false = s.vfIncluded := set_set_same hout
  rw [SubsetSearch.insertCoin]
  split_ifs with hreached hbetter
  · refine ⟨⟨?_,hreached⟩,?_⟩
    · dsimp only
      rw [henter,hs.total]
    · dsimp only
      rw [hback,hs.total,add_sub_cancel_right]
  · refine ⟨⟨hs.best,hs.enough⟩,?_⟩
    dsimp only
    rw [hback,hs.total,add_sub_cancel_right]
  · refine ⟨⟨hs.best,hs.enough⟩,?_⟩
    dsimp only
    rw [henter,hs.total]

theorem insertCoin_vfIncluded {value : ℤ} {i j : ℕ} (hne : i ≠ j) :
    (s.insertCoin nTargetValue value i).vfIncluded[j]? = s.vfIncluded[j]? := by
  rw [insertCoin]
  split_ifs
  · dsimp only
    rw [List.getElem?_set_ne hne,List.getElem?_set_ne hne]
  · dsimp only
    rw [List.getElem?_set_ne hne,List.getElem?_set_ne hne]
  · exact List.getElem?_set_ne hne

theorem Sound.firstPass {coins : List (ℤ × ℕ)} (hcoins : ∀ x ∈ coins, v[x.2]? = some x.1)
    (hnodup : (coins.map Prod.snd).Nodup) (hs : s.Sound v nTargetValue)
    (hout : ∀ x ∈ coins, s.vfIncluded[x.2]? = some false) (insecureRand : ℕ → Bool) :
    (pass nTargetValue (fun i _ => insecureRand i) coins s).Sound v nTargetValue := by
  induction coins generalizing s with
  | nil => exact hs
  | cons x coins ih =>
    rw [List.map_cons,List.nodup_cons] at hnodup
    have hrest := fun {s} (hs : Sound v nTargetValue s) hout =>
      ih (fun y hy => hcoins y (List.mem_cons_of_mem x hy)) hnodup.2 hs hout
    rw [pass]
    split_ifs
    · refine hrest (hs.insertCoin (hcoins x List.mem_cons_self) (hout x List.mem_cons_self))
        fun y hy => ?_
      rw [insertCoin_vfIncluded fun h : x.2 = y.2 => hnodup.1 (h ▸ List.mem_map_of_mem hy)]
      exact hout y (List.mem_cons_of_mem x hy)
    · exact hrest hs fun y hy => hout y (List.mem_cons_of_mem x hy)

theorem Sound.secondPass {coins : List (ℤ × ℕ)} (hcoins : ∀ x ∈ coins, v[x.2]? = some x.1)
    (hs : s.Sound v nTargetValue) :
    (pass nTargetValue (fun _ included => included == some false) coins s).Sound v nTargetValue := by
  induction coins generalizing s with
  | nil => exact hs
  | cons x coins ih =>
    rw [pass]
    split_ifs with hout
    · exact ih (fun y hy => hcoins y (List.mem_cons_of_mem x hy))
        (hs.insertCoin (hcoins x List.mem_cons_self) (beq_iff_eq.mp hout))
    · exact ih (fun y hy => hcoins y (List.mem_cons_of_mem x hy)) hs

theorem mem_zipIdx {x : ℤ × ℕ} (hx : x ∈ v.zipIdx) : v[x.2]? = some x.1 :=
  List.mem_zipIdx_iff_getElem?.mp hx

theorem Enough.repetition (hs : s.Enough v nTargetValue) (insecureRand : ℕ → Bool) :
    (s.repetition v nTargetValue insecureRand).Enough v nTargetValue := by
  have hstart : Sound v nTargetValue
      { s with nTotal := 0, fReachedTarget := false, vfIncluded := List.replicate v.length false } := by
    refine ⟨⟨hs.best,hs.enough⟩,?_⟩
    dsimp only
    rw [chosen_none,List.sum_nil]
  have hfirst := hstart.firstPass (fun x hx => mem_zipIdx hx)
    (by rw [List.zipIdx_map_snd]; exact List.nodup_range') (fun x hx => by
      have hlt := (List.getElem?_eq_some_iff.mp (mem_zipIdx hx)).1
      rw [List.getElem?_replicate,if_pos hlt]) insecureRand
  rw [SubsetSearch.repetition]
  split_ifs
  · exact hfirst.toEnough
  · exact (hfirst.secondPass fun x hx => mem_zipIdx hx).toEnough

theorem Enough.repetitions (hs : s.Enough v nTargetValue) (insecureRand : ℕ → ℕ → Bool)
    (iterations nRep : ℕ) :
    (repetitions v nTargetValue insecureRand iterations nRep s).Enough v nTargetValue := by
  induction iterations generalizing nRep s with
  | zero => exact hs
  | succ iterations ih =>
    rw [SubsetSearch.repetitions]
    split_ifs
    · exact hs
    · exact ih (hs.repetition _) _

theorem Enough.reduce {coins : List (ℤ × ℕ)} (hcoins : ∀ x ∈ coins, v[x.2]? = some x.1)
    (hs : s.Enough v nTargetValue) : (reduce nTargetValue coins s).Enough v nTargetValue := by
  induction coins generalizing s with
  | nil => exact hs
  | cons x coins ih =>
    rw [SubsetSearch.reduce]
    refine ih (fun y hy => hcoins y (List.mem_cons_of_mem x hy)) ?_
    split_ifs with hin
    · refine ⟨?_,hin.2⟩
      dsimp only
      rw [sum_chosen_leave (hcoins x List.mem_cons_self) hin.1,hs.best]
    · exact hs

end SubsetSearch

theorem approximateBestSubset_enough {v : List ℤ} {nTotalLower nTargetValue : ℤ}
    (htotal : nTotalLower = v.sum) (henough : nTargetValue ≤ nTotalLower)
    (insecureRand : ℕ → ℕ → Bool) :
    let best := approximateBestSubset v nTotalLower nTargetValue insecureRand
    best.2 = (chosen best.1 v).sum ∧ nTargetValue ≤ best.2 := by
  have hstart : SubsetSearch.Enough v nTargetValue
      { vfIncluded := [], nBest := nTotalLower, vfBest := List.replicate v.length true } := by
    refine ⟨?_,henough⟩
    dsimp only
    rw [chosen_all,htotal]
  have hend := (hstart.repetitions insecureRand 1000 0).reduce fun x hx => SubsetSearch.mem_zipIdx hx
  exact ⟨hend.best,hend.enough⟩

namespace CoinSource
variable {c : CoinSource}

/-- The value of a coin of the wallet. -/
def value (c : CoinSource) (coin : COutPoint) : ℤ :=
  match c.coinOut? coin with
  | some txout => txout.nValue.toInt
  | none => 0

/-- A coin is listed with its value. -/
def Priced (c : CoinSource) (coin : CAmount × COutPoint) : Prop :=
  ∃ txout, c.coinOut? coin.2 = some txout ∧ txout.nValue = coin.1

theorem Priced.value_eq {coin : CAmount × COutPoint} (h : c.Priced coin) :
    c.value coin.2 = coin.1.toInt := by
  obtain ⟨txout,hout,hvalue⟩ := h
  rw [value,hout,← hvalue]

theorem coinOut_ok {coin : COutPoint} {txout : CTxOut} :
    c.coinOut coin = .ok txout ↔ c.coinOut? coin = some txout := by
  rw [coinOut]
  cases c.coinOut? coin with
  | none =>
    constructor
    · intro h
      cases h
    · intro h
      cases h
  | some out =>
    constructor
    · intro h
      exact congrArg some (Except.ok.inj h)
    · intro h
      exact congrArg Except.ok (Option.some.inj h)

/-- Coins of the wallet, and what they are worth together. -/
structure Worth (c : CoinSource) (ret : Finset COutPoint × CAmount) : Prop where
  coins : ∀ coin ∈ ret.1, ∃ txout, c.coinOut? coin = some txout
  total : ret.2.toInt = ∑ coin ∈ ret.1, c.value coin

theorem worth_empty : c.Worth (∅,0) := ⟨fun _ h => absurd h (Finset.notMem_empty _),rfl⟩

theorem worth_singleton {coin : CAmount × COutPoint} (h : c.Priced coin) : c.Worth ({coin.2},coin.1) := by
  refine ⟨fun x hx => ?_,?_⟩
  · rw [Finset.mem_singleton.mp hx]
    exact ⟨_,h.choose_spec.1⟩
  · rw [Finset.sum_singleton,h.value_eq]

theorem Worth.union {a b : Finset COutPoint × CAmount} (ha : c.Worth a) (hb : c.Worth b)
    (hdisjoint : Disjoint a.1 b.1) {sum : CAmount} (hsum : sum.toInt = a.2.toInt + b.2.toInt) :
    c.Worth (a.1 ∪ b.1,sum) := by
  refine ⟨fun x hx => (Finset.mem_union.mp hx).elim (ha.coins x) (hb.coins x),?_⟩
  rw [Finset.sum_union hdisjoint,hsum,ha.total,hb.total]

theorem insertCoins_worth {coins : List (CAmount × COutPoint)} (hpriced : ∀ coin ∈ coins, c.Priced coin)
    (hnodup : (coins.map Prod.snd).Nodup) {a ret : Finset COutPoint × CAmount} (ha : c.Worth a)
    (hnew : ∀ coin ∈ coins, coin.2 ∉ a.1) (h : insertCoins coins a = .ok ret) :
    c.Worth ret ∧ ret.1 = a.1 ∪ (coins.map Prod.snd).toFinset ∧
      ret.2.toInt = a.2.toInt + (coins.map fun coin => coin.1.toInt).sum := by
  induction coins generalizing a with
  | nil =>
    obtain rfl := foldlM_nil_ok.mp h
    refine ⟨ha,?_,?_⟩
    · rw [List.map_nil,List.toFinset_nil,Finset.union_empty]
    · rw [List.map_nil,List.sum_nil,add_zero]
  | cons coin coins ih =>
    obtain ⟨m,hm,hrest⟩ := foldlM_cons_ok.mp h
    simp only [bind_ok,pure_ok,addAmount_ok] at hm
    obtain ⟨sum,hsum,rfl⟩ := hm
    rw [List.map_cons,List.nodup_cons] at hnodup
    have hcoin := hpriced coin List.mem_cons_self
    have hinsert : c.Worth (insert coin.2 a.1,sum) := by
      rw [Finset.insert_eq]
      exact (worth_singleton hcoin).union ha
        (Finset.disjoint_singleton_left.mpr (hnew coin List.mem_cons_self)) (by rw [hsum,add_comm])
    obtain ⟨hworth,hset,hvalue⟩ := ih (fun x hx => hpriced x (List.mem_cons_of_mem coin hx)) hnodup.2
      hinsert (fun x hx hin => by
        rcases Finset.mem_insert.mp hin with heq | hin
        · exact hnodup.1 (heq ▸ List.mem_map_of_mem hx)
        · exact hnew x (List.mem_cons_of_mem coin hx) hin) hrest
    refine ⟨hworth,?_,?_⟩
    · rw [hset,List.map_cons,List.toFinset_cons,Finset.insert_union,Finset.union_insert]
    · rw [hvalue,hsum,List.map_cons,List.sum_cons,add_assoc]

variable {nTargetValue : CAmount}

/-- What the loop has found in the coins that it has seen. -/
structure SearchSound (c : CoinSource) (nTargetValue : CAmount) (seen : List COutPoint)
    (s : MinConfSearch) : Prop where
  coins : (s.vValue.map Prod.snd).Sublist seen
  priced : ∀ coin ∈ s.vValue, c.Priced coin
  total : s.nTotalLower.toInt = (s.vValue.map fun coin => coin.1.toInt).sum
  larger : ∀ coin, s.coinLowestLarger.2 = some coin → coin ∈ seen ∧
    c.Priced (s.coinLowestLarger.1,coin) ∧ nTargetValue.toInt ≤ s.coinLowestLarger.1.toInt

theorem eligibleCoin_priced {nConfMine nConfTheirs : ℤ} {output : COutput} {coin : CAmount × COutPoint}
    (h : c.eligibleCoin nConfMine nConfTheirs output = .ok (some coin)) :
    c.Priced coin ∧ coin.2 = output.coin := by
  unfold eligibleCoin at h
  split_ifs at h
  · cases h
  · split at h
    · cases h
    · obtain ⟨fromMe,-,h⟩ := bind_ok.mp h
      generalize (if fromMe then nConfMine else nConfTheirs) = nConf at h
      split_ifs at h
      · cases h
      · obtain ⟨txout,hout,h⟩ := bind_ok.mp h
        cases h
        exact ⟨⟨txout,coinOut_ok.mp hout,rfl⟩,rfl⟩

theorem SearchSound.skip {seen : List COutPoint} {s : MinConfSearch}
    (hs : c.SearchSound nTargetValue seen s) (coin : COutPoint) :
    c.SearchSound nTargetValue (seen ++ [coin]) s where
  coins := hs.coins.trans (List.sublist_append_left _ _)
  priced := hs.priced
  total := hs.total
  larger x hx := by
    obtain ⟨hseen,hrest⟩ := hs.larger x hx
    exact ⟨List.mem_append_left _ hseen,hrest⟩

theorem SearchSound.place {seen : List COutPoint} {s s' : MinConfSearch} {coin : CAmount × COutPoint}
    (hs : c.SearchSound nTargetValue seen s) (hcoin : c.Priced coin)
    (h : s.place nTargetValue coin = .ok s') : c.SearchSound nTargetValue (seen ++ [coin.2]) s' := by
  obtain ⟨limit,hlimit,h⟩ := bind_ok.mp h
  rw [addAmount_ok] at hlimit
  have hchange : MIN_CHANGE.toInt = 1000000 := by decide
  split_ifs at h with hsmall hlower
  · obtain ⟨total,htotal,h⟩ := bind_ok.mp h
    rw [addAmount_ok] at htotal
    obtain rfl := pure_ok.mp h
    refine ⟨?_,?_,?_,?_⟩
    · rw [List.map_append]
      exact hs.coins.append (List.Sublist.refl _)
    · intro x hx
      rcases List.mem_append.mp hx with hx | hx
      · exact hs.priced x hx
      · rwa [List.mem_singleton.mp hx]
    · dsimp only
      rw [htotal,hs.total,List.map_append,List.sum_append,List.map_singleton,List.sum_singleton]
    · exact (hs.skip coin.2).larger
  · obtain rfl := pure_ok.mp h
    refine ⟨(hs.skip coin.2).coins,hs.priced,hs.total,?_⟩
    rintro _ ⟨⟩
    refine ⟨List.mem_append_right _ List.mem_cons_self,hcoin,?_⟩
    dsimp only
    omega
  · obtain rfl := pure_ok.mp h
    exact hs.skip coin.2

/-- The loop ends with what it has found, or with a coin of exactly the value. -/
theorem minConfLoop_sound {nConfMine nConfTheirs : ℤ} {vCoins : List COutput} {seen : List COutPoint}
    {s : MinConfSearch} {found : MinConfSearch ⊕ CAmount × COutPoint}
    (hs : c.SearchSound nTargetValue seen s)
    (h : c.minConfLoop nTargetValue nConfMine nConfTheirs vCoins s = .ok found) :
    (∀ s', found = .inl s' → c.SearchSound nTargetValue (seen ++ vCoins.map COutput.coin) s') ∧
      ∀ coin, found = .inr coin → c.Priced coin ∧ coin.1 = nTargetValue ∧
        coin.2 ∈ vCoins.map COutput.coin := by
  induction vCoins generalizing seen s with
  | nil =>
    cases h
    refine ⟨?_,(fun coin h => nomatch h)⟩
    rintro _ ⟨⟩
    rwa [List.map_nil,List.append_nil]
  | cons output vCoins ih =>
    have hrest : ∀ {s'}, c.SearchSound nTargetValue (seen ++ [output.coin]) s' →
        c.minConfLoop nTargetValue nConfMine nConfTheirs vCoins s' = .ok found →
        (∀ s', found = .inl s' →
          c.SearchSound nTargetValue (seen ++ (output :: vCoins).map COutput.coin) s') ∧
        ∀ coin, found = .inr coin → c.Priced coin ∧ coin.1 = nTargetValue ∧
          coin.2 ∈ (output :: vCoins).map COutput.coin := fun hs' h' => by
      obtain ⟨hleft,hright⟩ := ih hs' h'
      rw [List.append_assoc] at hleft
      exact ⟨hleft,fun coin hcoin => (hright coin hcoin).imp_right
        (And.imp_right (List.mem_cons_of_mem output.coin))⟩
    rw [minConfLoop] at h
    obtain ⟨eligible,heligible,h⟩ := bind_ok.mp h
    cases eligible with
    | none => exact hrest (hs.skip output.coin) h
    | some coin =>
      obtain ⟨hpriced,hcoin⟩ := eligibleCoin_priced heligible
      dsimp only at h
      split_ifs at h with hexact
      · cases h
        refine ⟨(fun s' h => nomatch h),?_⟩
        rintro _ ⟨⟩
        exact ⟨hpriced,hexact,hcoin ▸ List.mem_cons_self⟩
      · obtain ⟨s',hplace,h⟩ := bind_ok.mp h
        exact hrest (hcoin ▸ hs.place hpriced hplace) h

/-- A result of a search: coins of the list that are worth enough. -/
structure Suffices (c : CoinSource) (nTargetValue : CAmount) (listed : List COutPoint)
    (ret : Finset COutPoint × CAmount) : Prop extends Worth c ret where
  subset : ret.1 ⊆ listed.toFinset
  enough : nTargetValue.toInt ≤ ret.2.toInt

theorem SearchSound.insertCoins {coins : List COutPoint} (hnodup : coins.Nodup) {s : MinConfSearch}
    (hs : c.SearchSound nTargetValue coins s) {part : List (CAmount × COutPoint)}
    (hpart : part.Subperm s.vValue)
    (henough : nTargetValue.toInt ≤ (part.map fun coin => coin.1.toInt).sum)
    {ret : Finset COutPoint × CAmount} (h : Sidechain.CoinSource.insertCoins part (∅,0) = .ok ret) :
    c.Suffices nTargetValue coins ret := by
  obtain ⟨l,hperm,hsublist⟩ := hpart
  have hcoins : (l.map Prod.snd).Sublist coins := (hsublist.map Prod.snd).trans hs.coins
  have hmap := hperm.map Prod.snd
  obtain ⟨hworth,hset,hvalue⟩ := insertCoins_worth
    (fun x hx => hs.priced x (hsublist.subset (hperm.symm.subset hx)))
    (hmap.nodup_iff.mp (hcoins.nodup hnodup)) worth_empty (fun _ _ => Finset.notMem_empty _) h
  refine ⟨hworth,?_,?_⟩
  · rw [hset]
    intro x hx
    rw [Finset.empty_union,List.mem_toFinset] at hx
    exact List.mem_toFinset.mpr (hcoins.subset (hmap.symm.subset hx))
  · rw [hvalue]
    exact henough.trans_eq (zero_add _).symm

theorem bestSubset_enough {values : List ℤ} {nTotalLower target limit : ℤ}
    (htotal : nTotalLower = values.sum) (henough : target ≤ nTotalLower) (hlimit : target ≤ limit)
    (choices : SearchChoices) :
    let best := bestSubset choices values nTotalLower target limit
    best.2 = (chosen best.1 values).sum ∧ target ≤ best.2 := by
  unfold bestSubset
  dsimp only
  split_ifs with hsecond
  · obtain ⟨hsum,hmore⟩ := approximateBestSubset_enough htotal hsecond.2 (choices.insecureRand 1)
    exact ⟨hsum,hlimit.trans hmore⟩
  · exact approximateBestSubset_enough htotal henough (choices.insecureRand 0)

theorem chooseCoins_suffices {choices : SearchChoices} {coins : List COutPoint} (hnodup : coins.Nodup)
    {s : MinConfSearch} (hs : c.SearchSound nTargetValue coins s)
    (hmore : nTargetValue.toInt < s.nTotalLower.toInt) {ret : Finset COutPoint × CAmount}
    (h : chooseCoins choices nTargetValue s = .ok ret) : c.Suffices nTargetValue coins ret := by
  have hperm := choices.sort_perm s.vValue
  have htotal : s.nTotalLower.toInt = ((choices.sort s.vValue).map fun coin => coin.1.toInt).sum := by
    rw [hs.total]
    exact ((hperm.map _).sum_eq).symm
  unfold chooseCoins at h
  dsimp only at h
  obtain ⟨limit,hlimit,h⟩ := bind_ok.mp h
  rw [addAmount_ok] at hlimit
  have hchange : MIN_CHANGE.toInt = 1000000 := by decide
  have hfound := bestSubset_enough htotal hmore.le
    (show nTargetValue.toInt ≤ limit.toInt by omega) choices
  generalize bestSubset choices _ _ _ _ = best at h hfound
  have hpart : ∀ {ret}, insertCoins (chosen best.1 (choices.sort s.vValue)) (∅,0) = .ok ret →
      c.Suffices nTargetValue coins ret := fun hret => by
    refine hs.insertCoins hnodup ((chosen_sublist _ _).subperm.trans hperm.subperm) ?_ hret
    rw [← chosen_map,← hfound.1]
    exact hfound.2
  split at h
  next value coin hlarger =>
    have hcoin := hs.larger coin (by rw [hlarger])
    rw [hlarger] at hcoin
    split_ifs at h
    · cases h
      refine ⟨worth_singleton hcoin.2.1,?_,hcoin.2.2⟩
      exact Finset.singleton_subset_iff.mpr (List.mem_toFinset.mpr hcoin.1)
    · exact hpart h
  next => exact hpart h

theorem selectCoinsMinConf_suffices {choices : SearchChoices} {nConfMine nConfTheirs : ℤ}
    {vCoins : List COutput} (hnodup : (vCoins.map COutput.coin).Nodup)
    {ret : Finset COutPoint × CAmount}
    (h : c.selectCoinsMinConf choices nTargetValue nConfMine nConfTheirs vCoins = .ok (some ret)) :
    c.Suffices nTargetValue (vCoins.map COutput.coin) ret := by
  have hshuffle := (choices.shuffle_perm vCoins).map COutput.coin
  have hback : ∀ {ret}, c.Suffices nTargetValue ((choices.shuffle vCoins).map COutput.coin) ret →
      c.Suffices nTargetValue (vCoins.map COutput.coin) ret := fun hret =>
    { hret with subset := fun x hx =>
        List.mem_toFinset.mpr (hshuffle.subset (List.mem_toFinset.mp (hret.subset hx))) }
  have hnodup' := hshuffle.nodup_iff.mpr hnodup
  have hstart : c.SearchSound nTargetValue [] {} :=
    ⟨List.Sublist.refl [],(fun _ h => nomatch h),rfl,fun _ h => nomatch h⟩
  unfold selectCoinsMinConf at h
  obtain ⟨found,hloop,h⟩ := bind_ok.mp h
  obtain ⟨hleft,hright⟩ := minConfLoop_sound hstart hloop
  refine hback ?_
  cases found with
  | inr coin =>
    obtain ⟨hpriced,hexact,hmem⟩ := hright coin rfl
    cases h
    refine ⟨worth_singleton hpriced,?_,?_⟩
    · exact Finset.singleton_subset_iff.mpr (List.mem_toFinset.mpr hmem)
    · dsimp only
      rw [hexact]
  | inl s =>
    have hs := hleft s rfl
    rw [List.nil_append] at hs
    dsimp only at h
    split_ifs at h with hall hless
    · obtain ⟨r,hr,hsome⟩ := map_ok.mp h
      cases hsome
      refine hs.insertCoins hnodup' (List.Subperm.refl _) ?_ hr
      rw [← hs.total,hall]
    · split at h
      · cases h
      next value coin hlarger =>
        cases h
        have hcoin := hs.larger coin (by rw [hlarger])
        rw [hlarger] at hcoin
        refine ⟨worth_singleton hcoin.2.1,?_,hcoin.2.2⟩
        exact Finset.singleton_subset_iff.mpr (List.mem_toFinset.mpr hcoin.1)
    · obtain ⟨r,hr,hsome⟩ := map_ok.mp h
      cases hsome
      have hne : s.nTotalLower.toInt ≠ nTargetValue.toInt := fun h => hall (Int64.toInt_inj.mp h)
      exact chooseCoins_suffices hnodup' hs (by omega) hr

theorem outputAt_coin {coinControl : Option CCoinControl} {hash : Uint256} {wtx : CWalletTx} {i : ℕ}
    {out : COutput} (h : c.outputAt coinControl hash wtx i = some out) :
    out.coin = ⟨hash,UInt32.ofNat i⟩ := by
  obtain ⟨txout,-,h⟩ := Option.bind_eq_some_iff.mp h
  dsimp only at h
  split_ifs at h
  cases h
  rfl

theorem outputsOf_nodup (c : CoinSource) (coinControl : Option CCoinControl) (hash : Uint256)
    (wtx : CWalletTx) : ((c.outputsOf coinControl hash wtx).map COutput.coin).Nodup := by
  have hrange : (List.range (min wtx.tx.vout.length (2^32))).Pairwise fun a b => a < b ∧ b < 2^32 :=
    List.pairwise_lt_range.imp_of_mem fun _ hb hlt =>
      ⟨hlt,(List.mem_range.mp hb).trans_le (min_le_right _ _)⟩
  unfold outputsOf List.Nodup
  rw [List.pairwise_map]
  refine hrange.filterMap _ fun a b hab out hout out' hout' heq => ?_
  rw [outputAt_coin hout,outputAt_coin hout'] at heq
  have hindex := congrArg UInt32.toNat (COutPoint.mk.inj heq).2
  rw [UInt32.toNat_ofNat',UInt32.toNat_ofNat',Nat.mod_eq_of_lt (by omega),
    Nat.mod_eq_of_lt hab.2] at hindex
  omega

theorem availableFrom_nodup (c : CoinSource) (coinControl : Option CCoinControl) (hash : Uint256) :
    Leaves (fun vCoins => (vCoins.map COutput.coin).Nodup ∧ ∀ out ∈ vCoins, out.coin.hash = hash)
      (c.availableFrom coinControl hash) := by
  have hnil : Leaves (fun vCoins => (vCoins.map COutput.coin).Nodup ∧
      ∀ out ∈ vCoins, out.coin.hash = hash) (.ok [] : Outcome (List COutput)) :=
    leaves_ok.mpr ⟨List.nodup_nil,fun _ h => nomatch h⟩
  unfold availableFrom
  cases c.wallet.mapWallet.lookup hash with
  | none => exact hnil
  | some wtx =>
    refine leaves_ite (fun _ => hnil) fun _ => leaves_bind fun trusted _ => ?_
    refine leaves_ite (fun _ => hnil) fun _ => leaves_ite (fun _ => hnil) fun _ =>
      leaves_ite (fun _ => hnil) fun _ => leaves_ite (fun _ => hnil) fun _ => leaves_ok.mpr ?_
    refine ⟨outputsOf_nodup c coinControl hash wtx,fun out hout => ?_⟩
    obtain ⟨i,-,hi⟩ := List.mem_filterMap.mp hout
    rw [outputAt_coin hi]

theorem availableCoins_nodup {coinControl : Option CCoinControl} {vCoins : List COutput}
    (h : c.availableCoins coinControl = .ok vCoins) : (vCoins.map COutput.coin).Nodup := by
  refine (foldlM_induct (fun seen rest vCoins => (vCoins.map COutput.coin).Nodup ∧
    (∀ out ∈ vCoins, out.coin.hash ∈ seen) ∧ (seen ++ rest).Nodup) ?_
    ⟨List.nodup_nil,(fun _ h => absurd h List.not_mem_nil),hashOrder.nodup _⟩ h).1
  rintro seen hash rest m m' ⟨hnodup,hseen,hlist⟩ hstep
  obtain ⟨new,hnew,hstep⟩ := bind_ok.mp hstep
  obtain rfl := pure_ok.mp hstep
  obtain ⟨hnodup',hhash⟩ := availableFrom_nodup c coinControl hash new hnew
  refine ⟨?_,fun out hout => ?_,by rwa [List.append_assoc]⟩
  · rw [List.map_append,List.nodup_append]
    refine ⟨hnodup,hnodup',?_⟩
    rintro x hx y hy rfl
    obtain ⟨out,hout,rfl⟩ := List.mem_map.mp hx
    obtain ⟨out',hout',heq⟩ := List.mem_map.mp hy
    have hin := hseen out hout
    rw [← heq,hhash out' hout'] at hin
    exact (List.nodup_append.mp hlist).2.2 hash hin hash List.mem_cons_self rfl
  · rcases List.mem_append.mp hout with hout | hout
    · exact List.mem_append_left _ (hseen out hout)
    · rw [hhash out hout]
      exact List.mem_append_right _ List.mem_cons_self

theorem allCoins_priced {vCoins : List COutput} {coins : List (CAmount × COutPoint)}
    (h : c.allCoins vCoins = .ok coins) : (∀ coin ∈ coins, c.Priced coin) ∧
      coins.map Prod.snd = (vCoins.filter COutput.fSpendable).map COutput.coin := by
  unfold allCoins at h
  generalize vCoins.filter COutput.fSpendable = outs at h ⊢
  induction outs generalizing coins with
  | nil =>
    cases h
    exact ⟨(fun _ h => nomatch h),rfl⟩
  | cons out outs ih =>
    rw [List.mapM_cons] at h
    obtain ⟨coin,hcoin,h⟩ := bind_ok.mp h
    obtain ⟨rest,hrest,h⟩ := bind_ok.mp h
    obtain ⟨txout,hout,hcoin⟩ := bind_ok.mp hcoin
    cases h
    cases hcoin
    obtain ⟨hpriced,hmap⟩ := ih hrest
    refine ⟨fun x hx => ?_,congrArg (out.coin :: ·) hmap⟩
    rcases List.mem_cons.mp hx with rfl | hx
    · exact ⟨txout,coinOut_ok.mp hout,rfl⟩
    · exact hpriced x hx

theorem presetCoins_worth {vPresetInputs : List COutPoint} (hnodup : vPresetInputs.Nodup)
    {preset ret : Finset COutPoint × CAmount} (hpreset : c.Worth preset)
    (hnew : ∀ outpoint ∈ vPresetInputs, outpoint ∉ preset.1)
    (h : c.presetCoins vPresetInputs preset = .ok (some ret)) : c.Worth ret := by
  induction vPresetInputs generalizing preset with
  | nil =>
    cases h
    exact hpreset
  | cons outpoint vPresetInputs ih =>
    rw [List.nodup_cons] at hnodup
    rw [presetCoins] at h
    split at h
    · cases h
    next txout hout =>
      obtain ⟨sum,hsum,h⟩ := bind_ok.mp h
      rw [addAmount_ok] at hsum
      have hcoin : c.Priced (txout.nValue,outpoint) := ⟨txout,hout,rfl⟩
      refine ih hnodup.2 ?_ (fun x hx hin => ?_) h
      · rw [Finset.insert_eq]
        exact (worth_singleton hcoin).union hpreset
          (Finset.disjoint_singleton_left.mpr (hnew outpoint List.mem_cons_self)) (by rw [hsum,add_comm])
      · rcases Finset.mem_insert.mp hin with rfl | hin
        · exact hnodup.1 hx
        · exact hnew x (List.mem_cons_of_mem outpoint hx) hin

theorem searchCoins_suffices {choices : ℕ → SearchChoices} {vCoins : List COutput}
    (hnodup : (vCoins.map COutput.coin).Nodup) {ret : Finset COutPoint × CAmount}
    (h : c.searchCoins choices nTargetValue vCoins = .ok (some ret)) :
    c.Suffices nTargetValue (vCoins.map COutput.coin) ret := by
  unfold searchCoins at h
  obtain ⟨first,hfirst,h⟩ := bind_ok.mp h
  cases first with
  | some ret' =>
    cases h
    exact selectCoinsMinConf_suffices hnodup hfirst
  | none =>
    obtain ⟨second,hsecond,h⟩ := bind_ok.mp h
    cases second with
    | some ret' =>
      cases h
      exact selectCoinsMinConf_suffices hnodup hsecond
    | none =>
      dsimp only at h
      split_ifs at h
      · exact selectCoinsMinConf_suffices hnodup h
      · cases h

theorem noneSelected {coinControl : Option CCoinControl}
    (h : ¬ coinControl.any CCoinControl.hasSelected = true) :
    c.coinOrder.list (coinControl.elim ∅ CCoinControl.setSelected) = [] := by
  have hempty : coinControl.elim ∅ CCoinControl.setSelected = ∅ := by
    cases coinControl with
    | none => rfl
    | some control =>
      by_contra hne
      exact h (decide_eq_true hne)
  rw [hempty]
  exact List.eq_nil_iff_forall_not_mem.mpr fun x hx =>
    Finset.notMem_empty x (c.coinOrder.mem_list.mp hx)

theorem otherCoins_enough {choices : ℕ → SearchChoices} {vCoins : List COutput}
    (hnodup : (vCoins.map COutput.coin).Nodup) {preset : CAmount} {ret : Finset COutPoint × CAmount}
    (h : c.otherCoins choices nTargetValue preset vCoins = .ok (some ret)) :
    c.Worth ret ∧ ret.1 ⊆ (vCoins.map COutput.coin).toFinset ∧
      nTargetValue.toInt ≤ ret.2.toInt + preset.toInt := by
  unfold otherCoins at h
  split_ifs at h with hpreset
  · cases h
    exact ⟨worth_empty,Finset.empty_subset _,hpreset.trans_eq (zero_add _).symm⟩
  · obtain ⟨rest,hrest,h⟩ := bind_ok.mp h
    rw [subAmount_ok] at hrest
    have hfound := searchCoins_suffices hnodup h
    have henough := hfound.enough
    exact ⟨hfound.toWorth,hfound.subset,by omega⟩

theorem selectCoins_enough {choices : ℕ → SearchChoices} {coinControl : Option CCoinControl}
    {ret : Finset COutPoint × CAmount}
    (h : c.selectCoins choices nTargetValue coinControl = .ok (some ret)) :
    c.Worth ret ∧ nTargetValue.toInt ≤ ret.2.toInt := by
  unfold selectCoins at h
  obtain ⟨vCoins,havailable,h⟩ := bind_ok.mp h
  have hnodup := availableCoins_nodup havailable
  dsimp only at h
  by_cases hall : (coinControl.any CCoinControl.hasSelected &&
      !coinControl.any CCoinControl.fAllowOtherInputs) = true
  · rw [if_pos hall] at h
    obtain ⟨coins,hcoins,h⟩ := bind_ok.mp h
    obtain ⟨set,hset,h⟩ := bind_ok.mp h
    obtain ⟨hpriced,hmap⟩ := allCoins_priced hcoins
    have hworth := (insertCoins_worth hpriced
      (hmap ▸ (List.filter_sublist.map COutput.coin).nodup hnodup) worth_empty
      (fun _ _ => Finset.notMem_empty _) hset).1
    split_ifs at h with henough
    · cases h
      exact ⟨hworth,henough⟩
    · cases h
  · rw [if_neg hall] at h
    obtain ⟨preset,hpreset,h⟩ := bind_ok.mp h
    cases preset with
    | none => cases h
    | some preset =>
      have hworth := presetCoins_worth (c.coinOrder.nodup _) worth_empty
        (fun _ _ => Finset.notMem_empty _) hpreset
      dsimp only at h
      obtain ⟨others,hothers,h⟩ := bind_ok.mp h
      cases others with
      | none => cases h
      | some others =>
        obtain ⟨sum,hsum,h⟩ := bind_ok.mp h
        rw [addAmount_ok] at hsum
        cases h
        have hsub : ∀ {l : List COutput}, l.Sublist vCoins → (l.map COutput.coin).Nodup := fun hl =>
          (hl.map COutput.coin).nodup hnodup
        by_cases hselected : coinControl.any CCoinControl.hasSelected = true
        · -- the preset coins were taken out of the list
          rw [if_pos hselected] at hothers
          obtain ⟨hfound,hin,henough⟩ := otherCoins_enough (hsub List.filter_sublist) hothers
          refine ⟨hfound.union hworth (Finset.disjoint_left.mpr fun x hx hx' => ?_) hsum,by
            dsimp only
            omega⟩
          obtain ⟨out,hout,rfl⟩ := List.mem_map.mp (List.mem_toFinset.mp (hin hx))
          exact of_decide_eq_true (List.mem_filter.mp hout).2 hx'
        · rw [if_neg hselected] at hothers
          obtain ⟨hfound,-,henough⟩ := otherCoins_enough hnodup hothers
          rw [noneSelected hselected] at hpreset
          obtain rfl : (∅,0) = preset := Option.some.inj (Except.ok.inj hpreset)
          exact ⟨hfound.union hworth (Finset.disjoint_empty_right _) hsum,by
            dsimp only
            omega⟩

end CoinSource

end Sidechain
