import Sidechain.Wallet.CoinsSelected

/-! One search for coins of enough depth succeeds exactly if the coins it may take reach the amount,
except for a coin of the highest value an amount can have, which is never the lowest larger one. None
of the coins it takes can be left out. -/
namespace Sidechain
open Run SubsetSum

namespace SubsetSearch
variable {nTargetValue : ℤ} {s : SubsetSearch}

theorem reduce_falls (nTargetValue : ℤ) {coins : List (ℤ × ℕ)} (hpos : ∀ x ∈ coins, 0 ≤ x.1) :
    (reduce nTargetValue coins s).nBest ≤ s.nBest ∧ ∀ j : ℕ,
      (reduce nTargetValue coins s).vfBest[j]? = some true → s.vfBest[j]? = some true := by
  induction coins generalizing s with
  | nil => exact ⟨le_rfl,fun _ h => h⟩
  | cons x coins ih =>
    have hx := hpos x List.mem_cons_self
    rw [reduce]
    obtain ⟨hbest,hin⟩ := ih (fun y hy => hpos y (List.mem_cons_of_mem x hy))
      (s := if s.vfBest[x.2]? = some true ∧ s.nBest - x.1 ≥ nTargetValue then
        { s with vfBest := s.vfBest.set x.2 false, nBest := s.nBest - x.1 } else s)
    split_ifs at hbest hin ⊢ with hout
    · refine ⟨hbest.trans (by dsimp only; omega),fun j hj => ?_⟩
      have hset := hin j hj
      by_cases hjx : x.2 = j
      · subst hjx
        exact hout.1
      · rwa [List.getElem?_set_ne hjx] at hset
    · exact ⟨hbest,hin⟩

/-- A coin that is still in after its turn was not smaller than the surplus, which has only become
smaller since. -/
theorem reduce_tight {coins : List (ℤ × ℕ)} (hpos : ∀ x ∈ coins, 0 ≤ x.1) {x : ℤ × ℕ}
    (hx : x ∈ coins) (hin : (reduce nTargetValue coins s).vfBest[x.2]? = some true) :
    (reduce nTargetValue coins s).nBest - x.1 < nTargetValue := by
  induction coins generalizing s with
  | nil => cases hx
  | cons y coins ih =>
    have hrest : ∀ z ∈ coins, 0 ≤ z.1 := fun z hz => hpos z (List.mem_cons_of_mem y hz)
    rw [reduce] at hin ⊢
    rcases List.mem_cons.mp hx with rfl | hx
    · obtain ⟨hbest,hkept⟩ := reduce_falls nTargetValue hrest
        (s := if s.vfBest[x.2]? = some true ∧ s.nBest - x.1 ≥ nTargetValue then
          { s with vfBest := s.vfBest.set x.2 false, nBest := s.nBest - x.1 } else s)
      have hstill := hkept x.2 hin
      split_ifs at hbest hstill ⊢ with hout
      · have hlt := (List.getElem?_eq_some_iff.mp hout.1).1
        rw [List.getElem?_set_self hlt] at hstill
        cases hstill
      · have hnot : ¬ s.nBest - x.1 ≥ nTargetValue := fun h => hout ⟨hstill,h⟩
        omega
    · exact ih hrest hx hin

end SubsetSearch

/-- No coin that is found can be left out without missing the target. -/
theorem approximateBestSubset_tight {v : List ℤ} (hpos : ∀ value ∈ v, 0 ≤ value)
    (nTotalLower nTargetValue : ℤ) (insecureRand : ℕ → ℕ → Bool) {i : ℕ} {value : ℤ}
    (hv : v[i]? = some value)
    (hin : (approximateBestSubset v nTotalLower nTargetValue insecureRand).1[i]? = some true) :
    (approximateBestSubset v nTotalLower nTargetValue insecureRand).2 - value < nTargetValue := by
  have hcoins : ∀ x ∈ v.zipIdx, 0 ≤ x.1 := fun x hx =>
    hpos x.1 (List.mem_of_getElem? (SubsetSearch.mem_zipIdx hx))
  exact SubsetSearch.reduce_tight hcoins (x := (value,i)) (List.mem_zipIdx_iff_getElem?.mpr hv) hin

/-- The target the last approximation was for. -/
def lastTarget (choices : SearchChoices) (values : List ℤ) (nTotalLower nTargetValue limit : ℤ) : ℤ :=
  if (approximateBestSubset values nTotalLower nTargetValue (choices.insecureRand 0)).2 ≠
      nTargetValue ∧ nTotalLower ≥ limit then limit
  else nTargetValue

namespace CoinSource
variable {c : CoinSource} {nTargetValue limit : CAmount} {nConfMine nConfTheirs : ℤ}

theorem bestSubset_tight {values : List ℤ} (hpos : ∀ value ∈ values, 0 ≤ value)
    (nTotalLower nTargetValue limit : ℤ) (choices : SearchChoices) {i : ℕ} {value : ℤ}
    (hv : values[i]? = some value)
    (hin : (bestSubset choices values nTotalLower nTargetValue limit).1[i]? = some true) :
    (bestSubset choices values nTotalLower nTargetValue limit).2 - value <
      lastTarget choices values nTotalLower nTargetValue limit := by
  unfold bestSubset lastTarget at *
  dsimp only at hin ⊢
  split_ifs at hin ⊢
  · exact approximateBestSubset_tight hpos _ _ _ hv hin
  · exact approximateBestSubset_tight hpos _ _ _ hv hin

/-- The coins that are spendable and deep enough, with their values. -/
def eligibleCoins (c : CoinSource) (nConfMine nConfTheirs : ℤ) (vCoins : List COutput) :
    List (CAmount × COutPoint) :=
  vCoins.filterMap fun output => (c.eligibleCoin nConfMine nConfTheirs output).toOption.join

/-- The target `ApproximateBestSubset` was last given, or the amount if it was not called. -/
def searchTarget (c : CoinSource) (choices : SearchChoices) (nTargetValue : CAmount)
    (nConfMine nConfTheirs : ℤ) (vCoins : List COutput) : Outcome ℤ := do
  let limit ← addAmount nTargetValue MIN_CHANGE
  match ← c.minConfLoop nTargetValue nConfMine nConfTheirs (choices.shuffle vCoins) {} with
  | .inr _ => pure nTargetValue.toInt
  | .inl s =>
    pure (if s.nTotalLower.toInt ≤ nTargetValue.toInt then nTargetValue.toInt
      else lastTarget choices ((choices.sort s.vValue).map fun coin => coin.1.toInt)
        s.nTotalLower.toInt nTargetValue.toInt limit.toInt)

/-- What coins are worth together. -/
def total (coins : List (CAmount × COutPoint)) : ℤ := (coins.map fun coin => coin.1.toInt).sum

@[simp] theorem total_nil : total [] = 0 := rfl

@[simp] theorem total_cons (coin : CAmount × COutPoint) (coins : List (CAmount × COutPoint)) :
    total (coin :: coins) = coin.1.toInt + total coins := rfl

theorem total_perm {a b : List (CAmount × COutPoint)} (h : a.Perm b) : total a = total b :=
  (h.map _).sum_eq

theorem total_nonneg {coins : List (CAmount × COutPoint)} (h : ∀ coin ∈ coins, 0 < coin.1.toInt) :
    0 ≤ total coins := by
  induction coins with
  | nil => exact le_rfl
  | cons coin coins ih =>
    have hcoin := h coin List.mem_cons_self
    have hrest := ih fun x hx => h x (List.mem_cons_of_mem coin hx)
    rw [total_cons]
    omega

theorem total_sublist {a b : List (CAmount × COutPoint)} (h : a.Sublist b)
    (hpos : ∀ coin ∈ b, 0 < coin.1.toInt) : total a ≤ total b := by
  induction h with
  | slnil => exact le_rfl
  | cons x _ ih =>
    have hx := hpos x List.mem_cons_self
    have hrest := ih fun y hy => hpos y (List.mem_cons_of_mem x hy)
    rw [total_cons]
    omega
  | cons_cons x _ ih =>
    have hrest := ih fun y hy => hpos y (List.mem_cons_of_mem x hy)
    rw [total_cons,total_cons]
    omega

/-- Of two different coins in a list, none is worth as much as the list. -/
theorem value_le_total {coins : List (CAmount × COutPoint)} (hpos : ∀ coin ∈ coins, 0 < coin.1.toInt)
    {coin : CAmount × COutPoint} (hcoin : coin ∈ coins) : coin.1.toInt ≤ total coins := by
  have h := total_sublist (List.singleton_sublist.mpr hcoin) hpos
  rwa [total_cons,total_nil,add_zero] at h

theorem exists_amount {n : ℤ} (hlo : 0 ≤ n) (hhi : n < 2^63) : ∃ a : CAmount, a.toInt = n :=
  ⟨Int64.ofInt n,Int64.toInt_ofInt_of_le (by omega) (by omega)⟩

theorem insertCoins_total {coins : List (CAmount × COutPoint)}
    (hpos : ∀ coin ∈ coins, 0 < coin.1.toInt) {a : Finset COutPoint × CAmount} (ha : 0 ≤ a.2.toInt)
    (hfit : a.2.toInt + total coins < 2^63) : ∃ ret, insertCoins coins a = .ok ret := by
  induction coins generalizing a with
  | nil => exact ⟨a,rfl⟩
  | cons coin coins ih =>
    have hcoin := hpos coin List.mem_cons_self
    have hrest := fun x hx => hpos x (List.mem_cons_of_mem coin hx)
    have hnonneg := total_nonneg hrest
    rw [total_cons] at hfit
    obtain ⟨sum,hsum⟩ := exists_amount (n := a.2.toInt + coin.1.toInt) (by omega) (by omega)
    obtain ⟨ret,hret⟩ := ih hrest (a := (insert coin.2 a.1,sum)) (by dsimp only; omega)
      (by dsimp only; omega)
    refine ⟨ret,foldlM_cons_ok.mpr ⟨(insert coin.2 a.1,sum),?_,hret⟩⟩
    exact bind_ok.mpr ⟨sum,addAmount_ok.mpr hsum,rfl⟩

/-- The variables after the loop has gone through coins none of which is worth exactly the amount. -/
structure Searched (nTargetValue limit : CAmount) (coins : List (CAmount × COutPoint))
    (s s' : MinConfSearch) : Prop where
  inexact : ∀ coin ∈ coins, coin.1 ≠ nTargetValue
  smaller : s'.vValue = s.vValue ++ coins.filter fun coin => coin.1.toInt < limit.toInt
  total : s'.nTotalLower.toInt =
    s.nTotalLower.toInt + total (coins.filter fun coin => coin.1.toInt < limit.toInt)
  larger : s'.coinLowestLarger.2 = none ↔ s.coinLowestLarger.2 = none ∧
    ∀ coin ∈ coins, limit.toInt ≤ coin.1.toInt → coin.1 = Int64.maxValue
  largest : s'.coinLowestLarger = s.coinLowestLarger ∨ ∃ coin ∈ coins,
    limit.toInt ≤ coin.1.toInt ∧ s'.coinLowestLarger = (coin.1,some coin.2)

theorem Searched.append {coins coins' : List (CAmount × COutPoint)} {s s₁ s' : MinConfSearch}
    (h : Searched nTargetValue limit coins s s₁) (h' : Searched nTargetValue limit coins' s₁ s') :
    Searched nTargetValue limit (coins ++ coins') s s' where
  inexact := List.forall_mem_append.mpr ⟨h.inexact,h'.inexact⟩
  smaller := by rw [h'.smaller,h.smaller,List.filter_append,List.append_assoc]
  total := by
    rw [h'.total,h.total,List.filter_append,add_assoc]
    simp only [CoinSource.total,List.map_append,List.sum_append]
  larger := by rw [h'.larger,h.larger,List.forall_mem_append,and_assoc]
  largest := by
    rcases h'.largest with heq | ⟨coin,hcoin,hlarge,heq⟩
    · rw [heq]
      exact h.largest.imp_right fun ⟨coin,hcoin,hc⟩ => ⟨coin,List.mem_append_left _ hcoin,hc⟩
    · exact .inr ⟨coin,List.mem_append_right _ hcoin,hlarge,heq⟩

/-- What a coin that is not worth exactly the amount does to the variables of the loop. -/
theorem place_total (hlimit : addAmount nTargetValue MIN_CHANGE = .ok limit) {s : MinConfSearch}
    {coin : CAmount × COutPoint} (hexact : coin.1 ≠ nTargetValue) (hlow : 0 ≤ s.nTotalLower.toInt)
    (hpos : 0 < coin.1.toInt) (hfit : s.nTotalLower.toInt + coin.1.toInt < 2^63)
    (hmax : s.coinLowestLarger.2 = none → s.coinLowestLarger.1 = Int64.maxValue) :
    ∃ s', s.place nTargetValue coin = .ok s' ∧ Searched nTargetValue limit [coin] s s' ∧
      (s'.coinLowestLarger.2 = none → s'.coinLowestLarger.1 = Int64.maxValue) := by
  have hle : coin.1.toInt ≤ Int64.maxValue.toInt := Int64.toInt_le coin.1
  have hinexact : ∀ x ∈ [coin], x.1 ≠ nTargetValue := List.forall_mem_singleton.mpr hexact
  by_cases hsmall : coin.1.toInt < limit.toInt
  · obtain ⟨sum,hsum⟩ := exists_amount (n := s.nTotalLower.toInt + coin.1.toInt) (by omega) hfit
    have hfilter : [coin].filter (fun coin => decide (coin.1.toInt < limit.toInt)) = [coin] :=
      List.filter_cons_of_pos (by simpa using hsmall)
    refine ⟨{ s with vValue := s.vValue ++ [coin], nTotalLower := sum },?_,
      ⟨hinexact,by rw [hfilter],?_,?_,.inl rfl⟩,hmax⟩
    · refine bind_ok.mpr ⟨limit,hlimit,?_⟩
      rw [if_pos hsmall]
      exact bind_ok.mpr ⟨sum,addAmount_ok.mpr hsum,rfl⟩
    · rw [hfilter,total_cons,total_nil,add_zero]
      exact hsum
    · rw [List.forall_mem_singleton]
      exact ⟨fun h => ⟨h,fun hle => absurd hsmall (not_lt.mpr hle)⟩,And.left⟩
  · have hfilter : [coin].filter (fun coin => decide (coin.1.toInt < limit.toInt)) = [] :=
      List.filter_cons_of_neg (by simpa using hsmall)
    have hsmaller : s.vValue = s.vValue ++ [coin].filter fun coin => coin.1.toInt < limit.toInt := by
      rw [hfilter,List.append_nil]
    have htotal : s.nTotalLower.toInt = s.nTotalLower.toInt +
        total ([coin].filter fun coin => coin.1.toInt < limit.toInt) := by
      rw [hfilter,total_nil,add_zero]
    by_cases hlower : coin.1.toInt < s.coinLowestLarger.1.toInt
    · refine ⟨{ s with coinLowestLarger := (coin.1,some coin.2) },?_,⟨hinexact,hsmaller,htotal,?_,
        .inr ⟨coin,List.mem_singleton_self coin,not_lt.mp hsmall,rfl⟩⟩,fun h => nomatch h⟩
      · refine bind_ok.mpr ⟨limit,hlimit,?_⟩
        rw [if_neg hsmall,if_pos hlower]
        rfl
      · refine ⟨(fun h => nomatch h),fun ⟨hnone,hcoin⟩ => ?_⟩
        rw [hmax hnone,hcoin coin (List.mem_singleton_self coin) (not_lt.mp hsmall)] at hlower
        exact absurd hlower (lt_irrefl _)
    · refine ⟨s,?_,⟨hinexact,hsmaller,htotal,?_,.inl rfl⟩,hmax⟩
      · refine bind_ok.mpr ⟨limit,hlimit,?_⟩
        rw [if_neg hsmall,if_neg hlower]
        rfl
      · rw [List.forall_mem_singleton]
        refine ⟨fun hnone => ⟨hnone,fun _ => ?_⟩,And.left⟩
        rw [hmax hnone] at hlower
        exact Int64.toInt_inj.mp (by omega)

theorem eligibleCoins_cons {output : COutput} {vCoins : List COutput}
    {eligible : Option (CAmount × COutPoint)}
    (h : c.eligibleCoin nConfMine nConfTheirs output = .ok eligible) :
    c.eligibleCoins nConfMine nConfTheirs (output :: vCoins) =
      eligible.toList ++ c.eligibleCoins nConfMine nConfTheirs vCoins := by
  have hjoin : (c.eligibleCoin nConfMine nConfTheirs output).toOption.join = eligible := by
    rw [h]
    rfl
  rw [eligibleCoins,List.filterMap_cons,hjoin]
  cases eligible with
  | none => rfl
  | some coin => rfl

/-- The loop ends at a coin that is worth exactly the amount, or goes through all coins. -/
theorem minConfLoop_total (hlimit : addAmount nTargetValue MIN_CHANGE = .ok limit)
    {vCoins : List COutput} (hanswers : ∀ output ∈ vCoins, ∃ eligible,
      c.eligibleCoin nConfMine nConfTheirs output = .ok eligible)
    (hpos : ∀ coin ∈ c.eligibleCoins nConfMine nConfTheirs vCoins, 0 < coin.1.toInt)
    {s : MinConfSearch} (hlow : 0 ≤ s.nTotalLower.toInt)
    (hfit : s.nTotalLower.toInt + total (c.eligibleCoins nConfMine nConfTheirs vCoins) < 2^63)
    (hmax : s.coinLowestLarger.2 = none → s.coinLowestLarger.1 = Int64.maxValue) :
    (∃ coin ∈ c.eligibleCoins nConfMine nConfTheirs vCoins, coin.1 = nTargetValue ∧
      c.minConfLoop nTargetValue nConfMine nConfTheirs vCoins s = .ok (.inr coin)) ∨
    ∃ s', c.minConfLoop nTargetValue nConfMine nConfTheirs vCoins s = .ok (.inl s') ∧
      Searched nTargetValue limit (c.eligibleCoins nConfMine nConfTheirs vCoins) s s' := by
  induction vCoins generalizing s with
  | nil =>
    refine .inr ⟨s,rfl,List.forall_mem_nil _,(List.append_nil _).symm,(add_zero _).symm,?_,?_⟩
    · exact ⟨fun h => ⟨h,List.forall_mem_nil _⟩,And.left⟩
    · exact .inl rfl
  | cons output vCoins ih =>
    obtain ⟨eligible,heligible⟩ := hanswers output List.mem_cons_self
    have hrest := fun out hout => hanswers out (List.mem_cons_of_mem output hout)
    rw [eligibleCoins_cons heligible] at hpos hfit ⊢
    generalize hcoins : c.eligibleCoins nConfMine nConfTheirs vCoins = coins at *
    cases eligible with
    | none =>
      have hloop : c.minConfLoop nTargetValue nConfMine nConfTheirs (output :: vCoins) s =
          c.minConfLoop nTargetValue nConfMine nConfTheirs vCoins s := by
        rw [minConfLoop,heligible]
        rfl
      rw [hloop]
      exact ih hrest hpos hlow hfit hmax
    | some coin =>
      have hcoin := hpos coin List.mem_cons_self
      have hpos' : ∀ x ∈ coins, 0 < x.1.toInt := fun x hx => hpos x (List.mem_cons_of_mem coin hx)
      have hnonneg := total_nonneg hpos'
      change s.nTotalLower.toInt + total (coin :: coins) < 2^63 at hfit
      rw [total_cons] at hfit
      have hloop : c.minConfLoop nTargetValue nConfMine nConfTheirs (output :: vCoins) s =
          if coin.1 = nTargetValue then .ok (.inr coin)
          else s.place nTargetValue coin >>= fun s =>
            c.minConfLoop nTargetValue nConfMine nConfTheirs vCoins s := by
        rw [minConfLoop,heligible]
        rfl
      rw [hloop]
      by_cases hexact : coin.1 = nTargetValue
      · rw [if_pos hexact]
        exact .inl ⟨coin,List.mem_cons_self,hexact,rfl⟩
      · rw [if_neg hexact]
        obtain ⟨s₁,hplace,hsearched,hmax₁⟩ := place_total hlimit hexact hlow hcoin (by omega) hmax
        have hle : total ([coin].filter fun coin => coin.1.toInt < limit.toInt) ≤ coin.1.toInt := by
          have h := total_sublist (List.filter_sublist (l := [coin])
            (p := fun coin => coin.1.toInt < limit.toInt)) fun x hx => List.mem_singleton.mp hx ▸ hcoin
          rwa [total_cons,total_nil,add_zero] at h
        have hge : 0 ≤ total ([coin].filter fun coin => coin.1.toInt < limit.toInt) := total_nonneg
          fun x hx => List.mem_singleton.mp (List.mem_of_mem_filter hx) ▸ hcoin
        have htotal := hsearched.total
        rw [hplace]
        change (∃ x ∈ coin :: coins, _ ∧ c.minConfLoop nTargetValue nConfMine nConfTheirs vCoins s₁ = _) ∨
          ∃ s', c.minConfLoop nTargetValue nConfMine nConfTheirs vCoins s₁ = _ ∧ _
        rcases ih hrest hpos' (by omega) (by omega) hmax₁ with ⟨x,hx,hxexact,hend⟩ | ⟨s',hend,hs'⟩
        · exact .inl ⟨x,List.mem_cons_of_mem coin hx,hxexact,hend⟩
        · exact .inr ⟨s',hend,hsearched.append hs'⟩

/-- None of the coins can be left out without missing the target. -/
def Tight (c : CoinSource) (target : ℤ) (ret : Finset COutPoint × CAmount) : Prop :=
  ∀ coin ∈ ret.1, ret.2.toInt - c.value coin < target

theorem tight_singleton {coin : CAmount × COutPoint} (h : c.Priced coin) {target : ℤ}
    (htarget : 0 < target) : c.Tight target ({coin.2},coin.1) := by
  intro x hx
  rwa [Finset.mem_singleton.mp hx,h.value_eq,sub_self]

theorem tight_exact {ret : Finset COutPoint × CAmount} (hpos : ∀ coin ∈ ret.1, 0 < c.value coin)
    {target : ℤ} (h : ret.2.toInt = target) : c.Tight target ret := by
  intro coin hcoin
  have := hpos coin hcoin
  omega

theorem mem_insertCoins {coins : List (CAmount × COutPoint)} (hpriced : ∀ coin ∈ coins, c.Priced coin)
    (hnodup : (coins.map Prod.snd).Nodup) {ret : Finset COutPoint × CAmount}
    (h : insertCoins coins (∅,0) = .ok ret) {x : COutPoint} (hx : x ∈ ret.1) :
    ∃ coin ∈ coins, coin.2 = x ∧ c.value x = coin.1.toInt := by
  obtain ⟨-,hset,-⟩ := insertCoins_worth hpriced hnodup worth_empty
    (fun _ _ => Finset.notMem_empty _) h
  rw [hset,Finset.empty_union,List.mem_toFinset] at hx
  obtain ⟨coin,hcoin,rfl⟩ := List.mem_map.mp hx
  exact ⟨coin,hcoin,rfl,(hpriced coin hcoin).value_eq⟩

theorem insertChosen_tight {coins : List COutPoint} (hnodup : coins.Nodup) {s : MinConfSearch}
    (hs : c.SearchSound nTargetValue coins s) (hpos : ∀ coin ∈ s.vValue, 0 < coin.1.toInt)
    {sorted : List (CAmount × COutPoint)} (hperm : sorted.Perm s.vValue) {best : List Bool × ℤ}
    (hbest : best.2 = (chosen best.1 (sorted.map fun coin => coin.1.toInt)).sum) {target : ℤ}
    (htight : ∀ (i : ℕ) value, (sorted.map fun coin => coin.1.toInt)[i]? = some value →
      best.1[i]? = some true → best.2 - value < target) :
    ∃ ret, insertCoins (chosen best.1 sorted) (∅,0) = .ok ret ∧ c.Tight target ret := by
  have hsub := chosen_sublist best.1 sorted
  have hin : ∀ coin ∈ chosen best.1 sorted, coin ∈ s.vValue := fun coin hcoin =>
    hperm.subset (hsub.subset hcoin)
  have hpriced : ∀ coin ∈ chosen best.1 sorted, c.Priced coin := fun coin hcoin =>
    hs.priced coin (hin coin hcoin)
  have hdistinct : ((chosen best.1 sorted).map Prod.snd).Nodup :=
    (hsub.map Prod.snd).nodup ((hperm.map Prod.snd).nodup_iff.mpr (hs.coins.nodup hnodup))
  have hbound := total_sublist hsub fun coin hcoin => hpos coin (hperm.subset hcoin)
  have hall : total sorted = s.nTotalLower.toInt := (total_perm hperm).trans hs.total.symm
  have hlt := Int64.toInt_lt s.nTotalLower
  obtain ⟨ret,hret⟩ := insertCoins_total (fun coin hcoin => hpos coin (hin coin hcoin))
    (a := (∅,0)) le_rfl (by
      change 0 + _ < _
      omega)
  obtain ⟨-,-,hsum⟩ := insertCoins_worth hpriced hdistinct worth_empty
    (fun _ _ => Finset.notMem_empty _) hret
  have hvalue : ret.2.toInt = best.2 := by
    rw [hsum,hbest,chosen_map]
    exact zero_add _
  refine ⟨ret,hret,fun x hx => ?_⟩
  obtain ⟨coin,hcoin,rfl,hcoinValue⟩ := mem_insertCoins hpriced hdistinct hret hx
  obtain ⟨i,hi,hmask⟩ := mem_chosen hcoin
  rw [hcoinValue,hvalue]
  refine htight i coin.1.toInt ?_ hmask
  rw [List.getElem?_map,hi]
  rfl

/-- Among smaller coins that are worth more than the amount something is chosen, and nothing of it
can be left out. -/
theorem chooseCoins_total (hlimit : addAmount nTargetValue MIN_CHANGE = .ok limit)
    (choices : SearchChoices) {coins : List COutPoint} (hnodup : coins.Nodup) {s : MinConfSearch}
    (hs : c.SearchSound nTargetValue coins s) (hpos : ∀ coin ∈ s.vValue, 0 < coin.1.toInt)
    (htarget : 0 < nTargetValue.toInt) (hmore : nTargetValue.toInt < s.nTotalLower.toInt) :
    ∃ ret, chooseCoins choices nTargetValue s = .ok ret ∧
      c.Tight (lastTarget choices ((choices.sort s.vValue).map fun coin => coin.1.toInt)
        s.nTotalLower.toInt nTargetValue.toInt limit.toInt) ret := by
  have hperm := choices.sort_perm s.vValue
  obtain ⟨values,hvalues⟩ : ∃ values, values = (choices.sort s.vValue).map fun coin => coin.1.toInt :=
    ⟨_,rfl⟩
  have hnonneg : ∀ value ∈ values, 0 ≤ value := by
    intro value hvalue
    rw [hvalues] at hvalue
    obtain ⟨coin,hcoin,rfl⟩ := List.mem_map.mp hvalue
    exact (hpos coin (hperm.subset hcoin)).le
  have htotal : s.nTotalLower.toInt = values.sum := by
    rw [hs.total,hvalues]
    exact ((hperm.map _).sum_eq).symm
  have hmore' : nTargetValue.toInt ≤ limit.toInt := by
    have hchange : MIN_CHANGE.toInt = 1000000 := by decide
    have := addAmount_ok.mp hlimit
    omega
  have hlast : 0 < lastTarget choices values s.nTotalLower.toInt nTargetValue.toInt limit.toInt := by
    unfold lastTarget
    split_ifs
    · exact htarget.trans_le hmore'
    · exact htarget
  obtain ⟨best,hbest⟩ : ∃ best, best =
    bestSubset choices values s.nTotalLower.toInt nTargetValue.toInt limit.toInt := ⟨_,rfl⟩
  have hworth : best.2 = (chosen best.1 values).sum := by
    rw [hbest]
    exact (bestSubset_enough htotal hmore.le hmore' choices).1
  have htight : ∀ (i : ℕ) value, values[i]? = some value → best.1[i]? = some true → best.2 - value <
      lastTarget choices values s.nTotalLower.toInt nTargetValue.toInt limit.toInt := by
    intro i value hv hin
    rw [hbest] at hin ⊢
    exact bestSubset_tight hnonneg _ _ _ choices hv hin
  rw [← hvalues]
  have hpart := insertChosen_tight hnodup hs hpos hperm (hvalues ▸ hworth) (hvalues ▸ htight)
  rw [← hvalues] at hpart
  rcases hlarger : s.coinLowestLarger with ⟨value,_ | coin⟩
  · have hopen : chooseCoins choices nTargetValue s =
        insertCoins (chosen best.1 (choices.sort s.vValue)) (∅,0) := by
      unfold chooseCoins
      rw [hlimit,hlarger,hbest,hvalues]
      rfl
    rw [hopen]
    exact hpart
  · have hopen : chooseCoins choices nTargetValue s =
        if (best.2 ≠ nTargetValue.toInt ∧ best.2 < limit.toInt) ∨ value.toInt ≤ best.2 then
          pure ({coin},value)
        else insertCoins (chosen best.1 (choices.sort s.vValue)) (∅,0) := by
      unfold chooseCoins
      rw [hlimit,hlarger,hbest,hvalues]
      rfl
    have hcoin := hs.larger coin (by rw [hlarger])
    rw [hlarger] at hcoin
    rw [hopen]
    split_ifs
    · exact ⟨({coin},value),rfl,tight_singleton hcoin.2.1 hlast⟩
    · exact hpart

theorem two_le_total {coins : List (CAmount × COutPoint)} (hpos : ∀ coin ∈ coins, 0 < coin.1.toInt)
    {a b : CAmount × COutPoint} (ha : a ∈ coins) (hb : b ∈ coins) (hne : a.1 ≠ b.1) :
    a.1.toInt + b.1.toInt ≤ total coins := by
  induction coins with
  | nil => cases ha
  | cons coin coins ih =>
    have hrest : ∀ x ∈ coins, 0 < x.1.toInt := fun x hx => hpos x (List.mem_cons_of_mem coin hx)
    have hcoin := hpos coin List.mem_cons_self
    rw [total_cons]
    rcases List.mem_cons.mp ha with rfl | ha'
    · rcases List.mem_cons.mp hb with rfl | hb'
      · exact absurd rfl hne
      · have := value_le_total hrest hb'
        omega
    · rcases List.mem_cons.mp hb with rfl | hb'
      · have := value_le_total hrest ha'
        omega
      · have := ih hrest ha' hb'
        omega

theorem notMax {coins : List (CAmount × COutPoint)} (hpos : ∀ coin ∈ coins, 0 < coin.1.toInt)
    (hfit : total coins < 2^63) {a : CAmount × COutPoint} (ha : a ∈ coins)
    (hne : a.1 ≠ Int64.maxValue) : ∀ b ∈ coins, b.1 ≠ Int64.maxValue := by
  intro b hb hmax
  have htwo := two_le_total hpos ha hb (hmax ▸ hne)
  have hapos := hpos a ha
  have hvalue : Int64.maxValue.toInt = 2^63 - 1 := by decide
  rw [hmax,hvalue] at htwo
  omega

theorem eligibleCoins_sublist (c : CoinSource) (nConfMine nConfTheirs : ℤ) (vCoins : List COutput) :
    ((c.eligibleCoins nConfMine nConfTheirs vCoins).map Prod.snd).Sublist
      (vCoins.map COutput.coin) ∧
      ∀ coin ∈ c.eligibleCoins nConfMine nConfTheirs vCoins, c.Priced coin := by
  induction vCoins with
  | nil => exact ⟨List.Sublist.refl [],fun _ h => nomatch h⟩
  | cons output vCoins ih =>
    obtain ⟨hsub,hpriced⟩ := ih
    cases heligible : c.eligibleCoin nConfMine nConfTheirs output with
    | error e =>
      have hskip : c.eligibleCoins nConfMine nConfTheirs (output :: vCoins) =
          c.eligibleCoins nConfMine nConfTheirs vCoins := by
        rw [eligibleCoins,List.filterMap_cons,heligible]
        rfl
      rw [hskip]
      exact ⟨hsub.cons _,hpriced⟩
    | ok eligible =>
      rw [eligibleCoins_cons heligible]
      cases eligible with
      | none => exact ⟨hsub.cons _,hpriced⟩
      | some coin =>
        obtain ⟨hcoin,hout⟩ := eligibleCoin_priced heligible
        refine ⟨?_,fun x hx => ?_⟩
        · change (coin.2 :: _).Sublist (output.coin :: _)
          rw [hout]
          exact hsub.cons_cons _
        · rcases List.mem_cons.mp hx with rfl | hx
          · exact hcoin
          · exact hpriced x hx

/-- What the loop has found is sound for the coins that may be taken. -/
theorem Searched.sound {coins : List (CAmount × COutPoint)} (hpriced : ∀ coin ∈ coins, c.Priced coin)
    (hlimit : nTargetValue.toInt ≤ limit.toInt) {s : MinConfSearch}
    (hs : Searched nTargetValue limit coins {} s) :
    c.SearchSound nTargetValue (coins.map Prod.snd) s where
  coins := by
    rw [hs.smaller]
    exact List.filter_sublist.map Prod.snd
  priced coin hcoin := by
    rw [hs.smaller] at hcoin
    exact hpriced coin (List.mem_of_mem_filter hcoin)
  total := by
    rw [hs.total,hs.smaller]
    exact zero_add _
  larger x hx := by
    rcases hs.largest with heq | ⟨coin,hcoin,hlarge,heq⟩
    · rw [heq] at hx
      cases hx
    · rw [heq] at hx ⊢
      cases hx
      exact ⟨List.mem_map_of_mem hcoin,hpriced coin hcoin,hlimit.trans hlarge⟩

theorem Searched.reaches {coins : List (CAmount × COutPoint)} {s : MinConfSearch}
    (hs : Searched nTargetValue limit coins {} s) (hpos : ∀ coin ∈ coins, 0 < coin.1.toInt)
    (hfit : CoinSource.total coins < 2^63) (htarget : 0 < nTargetValue.toInt)
    (hlimit : nTargetValue.toInt ≤ limit.toInt) (hmax : limit.toInt < 2^63 - 1) :
    nTargetValue.toInt ≤ s.nTotalLower.toInt ∨ s.coinLowestLarger.2 ≠ none ↔
      nTargetValue.toInt ≤ CoinSource.total coins ∧ ∀ coin ∈ coins, coin.1 ≠ Int64.maxValue := by
  have hvalue : Int64.maxValue.toInt = 2^63 - 1 := by decide
  have hlower : s.nTotalLower.toInt =
      CoinSource.total (coins.filter fun coin => coin.1.toInt < limit.toInt) := by
    rw [hs.total]
    exact zero_add _
  have hle := total_sublist (List.filter_sublist (l := coins)
    (p := fun coin => coin.1.toInt < limit.toInt)) hpos
  constructor
  · rintro (hreach | hlarger)
    · refine ⟨by omega,?_⟩
      -- a smaller coin is there
      obtain ⟨coin,hcoin⟩ : ∃ coin, coin ∈ coins.filter fun coin => coin.1.toInt < limit.toInt := by
        refine List.exists_mem_of_ne_nil _ fun hnil => ?_
        rw [hnil,total_nil] at hlower
        omega
      have hsmall := of_decide_eq_true (List.mem_filter.mp hcoin).2
      refine notMax hpos hfit (List.mem_of_mem_filter hcoin) fun hcoinMax => ?_
      rw [hcoinMax,hvalue] at hsmall
      omega
    · have hnot : ¬ ∀ coin ∈ coins, limit.toInt ≤ coin.1.toInt → coin.1 = Int64.maxValue :=
        fun hall => hlarger (hs.larger.mpr ⟨rfl,hall⟩)
      push Not at hnot
      obtain ⟨coin,hcoin,hlarge,hne⟩ := hnot
      have hreach := value_le_total hpos hcoin
      exact ⟨by omega,notMax hpos hfit hcoin hne⟩
  · rintro ⟨hreach,hnone⟩
    by_contra hnot
    push Not at hnot
    obtain ⟨hless,hlarger⟩ := hnot
    have hsmall : ∀ coin ∈ coins, coin.1.toInt < limit.toInt := fun coin hcoin =>
      not_le.mp fun hlarge => hnone coin hcoin ((hs.larger.mp hlarger).2 coin hcoin hlarge)
    rw [List.filter_eq_self.mpr fun coin hcoin => decide_eq_true (hsmall coin hcoin)] at hlower
    omega

/-- A search that has gone through all coins returns coins of enough value, none of which can be left
out, unless it has found too little. -/
theorem Searched.returns {coins : List (CAmount × COutPoint)} {s : MinConfSearch}
    (hs : Searched nTargetValue limit coins {} s) (hpos : ∀ coin ∈ coins, 0 < coin.1.toInt)
    (hpriced : ∀ coin ∈ coins, c.Priced coin) (hnodup : (coins.map Prod.snd).Nodup)
    (hlimit : addAmount nTargetValue MIN_CHANGE = .ok limit) (htarget : 0 < nTargetValue.toInt)
    (hle : nTargetValue.toInt ≤ limit.toInt) {choices : SearchChoices} {vCoins : List COutput}
    (hloop : c.minConfLoop nTargetValue nConfMine nConfTheirs (choices.shuffle vCoins) {} =
      .ok (.inl s)) :
    ∃ found, c.selectCoinsMinConf choices nTargetValue nConfMine nConfTheirs vCoins = .ok found ∧
      (found.isSome = true ↔
        nTargetValue.toInt ≤ s.nTotalLower.toInt ∨ s.coinLowestLarger.2 ≠ none) ∧
      ∀ ret, found = some ret → c.Suffices nTargetValue (coins.map Prod.snd) ret ∧
        ∃ target, c.searchTarget choices nTargetValue nConfMine nConfTheirs vCoins = .ok target ∧
          c.Tight target ret := by
  have hsound := hs.sound hpriced hle
  have hpos' : ∀ coin ∈ s.vValue, 0 < coin.1.toInt := fun coin hcoin => by
    rw [hs.smaller] at hcoin
    exact hpos coin (List.mem_of_mem_filter hcoin)
  have hsearch : c.searchTarget choices nTargetValue nConfMine nConfTheirs vCoins =
      .ok (if s.nTotalLower.toInt ≤ nTargetValue.toInt then nTargetValue.toInt
        else lastTarget choices ((choices.sort s.vValue).map fun coin => coin.1.toInt)
          s.nTotalLower.toInt nTargetValue.toInt limit.toInt) := by
    unfold searchTarget
    rw [hlimit]
    change (c.minConfLoop nTargetValue nConfMine nConfTheirs (choices.shuffle vCoins) {} >>= _) = _
    rw [hloop]
    rfl
  have hopen : c.selectCoinsMinConf choices nTargetValue nConfMine nConfTheirs vCoins =
      (if s.nTotalLower = nTargetValue then some <$> insertCoins s.vValue (∅,0)
      else if s.nTotalLower.toInt < nTargetValue.toInt then
        pure (s.coinLowestLarger.2.map fun coin => ({coin},s.coinLowestLarger.1))
      else some <$> chooseCoins choices nTargetValue s) := by
    unfold selectCoinsMinConf
    rw [hloop]
    dsimp only [bind,Except.bind]
    rcases s.coinLowestLarger with ⟨value,_ | coin⟩ <;> rfl
  rw [hopen,hsearch]
  by_cases hall : s.nTotalLower = nTargetValue
  · rw [if_pos hall,if_pos (congrArg Int64.toInt hall).le]
    have htotal : CoinSource.total s.vValue = nTargetValue.toInt :=
      hsound.total.symm.trans (congrArg Int64.toInt hall)
    have hlt := Int64.toInt_lt nTargetValue
    obtain ⟨ret,hret⟩ := insertCoins_total hpos' (a := (∅,0)) le_rfl (by
      change 0 + _ < _
      omega)
    refine ⟨some ret,map_ok.mpr ⟨ret,hret,rfl⟩,⟨fun _ => .inl (congrArg Int64.toInt hall).ge,
      fun _ => rfl⟩,?_⟩
    rintro _ ⟨⟩
    have hsuffices := hsound.insertCoins hnodup (List.Subperm.refl _) htotal.ge hret
    refine ⟨hsuffices,_,rfl,?_⟩
    have hdistinct := hsound.coins.nodup hnodup
    obtain ⟨-,-,hsum⟩ := insertCoins_worth hsound.priced hdistinct worth_empty
      (fun _ _ => Finset.notMem_empty _) hret
    refine tight_exact (fun x hx => ?_) ((hsum.trans (zero_add _)).trans htotal)
    obtain ⟨coin,hcoin,rfl,hvalue⟩ := mem_insertCoins hsound.priced hdistinct hret hx
    rw [hvalue]
    exact hpos' coin hcoin
  · rw [if_neg hall]
    have hne : s.nTotalLower.toInt ≠ nTargetValue.toInt := fun h => hall (Int64.toInt_inj.mp h)
    by_cases hless : s.nTotalLower.toInt < nTargetValue.toInt
    · rw [if_pos hless,if_pos hless.le]
      rcases hlarger : s.coinLowestLarger with ⟨value,_ | coin⟩
      · refine ⟨none,rfl,⟨fun h => absurd h Bool.false_ne_true,?_⟩,
          fun ret h => absurd h.symm (Option.some_ne_none ret)⟩
        rintro (hreach | hsome)
        · exact absurd hless (not_lt.mpr hreach)
        · exact absurd rfl hsome
      · have hcoin := hsound.larger coin (by rw [hlarger])
        rw [hlarger] at hcoin
        refine ⟨some ({coin},value),rfl,⟨fun _ => .inr (Option.some_ne_none coin),fun _ => rfl⟩,?_⟩
        rintro _ ⟨⟩
        refine ⟨⟨worth_singleton hcoin.2.1,?_,hcoin.2.2⟩,_,rfl,tight_singleton hcoin.2.1 htarget⟩
        exact Finset.singleton_subset_iff.mpr (List.mem_toFinset.mpr hcoin.1)
    · rw [if_neg hless,if_neg (by omega)]
      obtain ⟨ret,hret,htight⟩ := chooseCoins_total hlimit choices hnodup hsound hpos' htarget
        (by omega)
      refine ⟨some ret,map_ok.mpr ⟨ret,hret,rfl⟩,⟨fun _ => .inl (by omega),fun _ => rfl⟩,?_⟩
      rintro _ ⟨⟩
      exact ⟨chooseCoins_suffices hnodup hsound (by omega) hret,_,rfl,htight⟩

/-- A search for an amount that money can have succeeds exactly if the coins it may take reach the
amount and none of them has the highest value there is. What it returns are some of these coins with
their total, which is at least the amount, and none can be left out of what was last searched for. -/
theorem selectCoinsMinConf_reaches (c : CoinSource) (choices : SearchChoices)
    {nTargetValue : CAmount} (htarget : 0 < nTargetValue.toInt)
    (hmoney : nTargetValue.toInt ≤ MAX_MONEY.toInt) (nConfMine nConfTheirs : ℤ)
    {vCoins : List COutput} (hnodup : (vCoins.map COutput.coin).Nodup)
    (hanswers : ∀ output ∈ vCoins, ∃ eligible,
      c.eligibleCoin nConfMine nConfTheirs output = .ok eligible)
    (hpos : ∀ coin ∈ c.eligibleCoins nConfMine nConfTheirs vCoins, 0 < coin.1.toInt)
    (hfit : total (c.eligibleCoins nConfMine nConfTheirs vCoins) < 2^63) :
    ∃ found, c.selectCoinsMinConf choices nTargetValue nConfMine nConfTheirs vCoins = .ok found ∧
      (found.isSome = true ↔
        nTargetValue.toInt ≤ total (c.eligibleCoins nConfMine nConfTheirs vCoins) ∧
          ∀ coin ∈ c.eligibleCoins nConfMine nConfTheirs vCoins, coin.1 ≠ Int64.maxValue) ∧
      ∀ ret, found = some ret →
        (∀ x ∈ ret.1, ∃ coin ∈ c.eligibleCoins nConfMine nConfTheirs vCoins, coin.2 = x) ∧
        ret.2.toInt = ∑ x ∈ ret.1, c.value x ∧ nTargetValue.toInt ≤ ret.2.toInt ∧
        ∃ target, c.searchTarget choices nTargetValue nConfMine nConfTheirs vCoins = .ok target ∧
          ∀ x ∈ ret.1, ret.2.toInt - c.value x < target := by
  have hmax : MAX_MONEY.toInt = 2100000000000000 := by decide
  have hchange : MIN_CHANGE.toInt = 1000000 := by decide
  have hperm : (c.eligibleCoins nConfMine nConfTheirs (choices.shuffle vCoins)).Perm
      (c.eligibleCoins nConfMine nConfTheirs vCoins) := (choices.shuffle_perm vCoins).filterMap _
  rw [hmax] at hmoney
  obtain ⟨limit,hsum⟩ := exists_amount (n := nTargetValue.toInt + MIN_CHANGE.toInt) (by omega)
    (by omega)
  have hlimit := addAmount_ok.mpr hsum
  obtain ⟨hsub,hpriced⟩ := eligibleCoins_sublist c nConfMine nConfTheirs (choices.shuffle vCoins)
  have hdistinct := hsub.nodup (((choices.shuffle_perm vCoins).map COutput.coin).nodup_iff.mpr hnodup)
  have hback : ∀ {ret}, c.Suffices nTargetValue
      ((c.eligibleCoins nConfMine nConfTheirs (choices.shuffle vCoins)).map Prod.snd) ret →
      ∀ x ∈ ret.1, ∃ coin ∈ c.eligibleCoins nConfMine nConfTheirs vCoins, coin.2 = x := by
    intro ret hret x hx
    obtain ⟨coin,hcoin,rfl⟩ := List.mem_map.mp (List.mem_toFinset.mp (hret.subset hx))
    exact ⟨coin,hperm.subset hcoin,rfl⟩
  have hpos' : ∀ coin ∈ c.eligibleCoins nConfMine nConfTheirs (choices.shuffle vCoins),
      0 < coin.1.toInt := fun coin hcoin => hpos coin (hperm.subset hcoin)
  have hfit' := (total_perm hperm).trans_lt hfit
  rcases minConfLoop_total hlimit (fun output hout => hanswers output
      ((choices.shuffle_perm vCoins).subset hout)) hpos' (s := {}) le_rfl
      ((zero_add _).trans_lt hfit') (fun _ => rfl) with ⟨coin,hcoin,hexact,hloop⟩ | ⟨s,hloop,hs⟩
  · have hworth := hpriced coin hcoin
    refine ⟨some ({coin.2},coin.1),?_,⟨fun _ => ⟨?_,?_⟩,fun _ => rfl⟩,?_⟩
    · unfold selectCoinsMinConf
      rw [hloop]
      rfl
    · exact hexact ▸ value_le_total hpos (hperm.subset hcoin)
    · refine notMax hpos hfit (hperm.subset hcoin) fun h => ?_
      rw [← hexact,h] at hmoney
      exact absurd hmoney (by decide)
    · rintro _ ⟨⟩
      refine ⟨fun x hx => ⟨coin,hperm.subset hcoin,(Finset.mem_singleton.mp hx).symm⟩,
        (worth_singleton hworth).total,(congrArg Int64.toInt hexact).ge,nTargetValue.toInt,?_,
        tight_singleton hworth htarget⟩
      unfold searchTarget
      rw [hlimit]
      change (c.minConfLoop nTargetValue nConfMine nConfTheirs (choices.shuffle vCoins) {} >>= _) = _
      rw [hloop]
      rfl
  · obtain ⟨found,hfound,hsome,hret⟩ := hs.returns hpos' hpriced hdistinct hlimit htarget (by omega)
      hloop
    refine ⟨found,hfound,?_,fun ret h => ?_⟩
    · rw [hsome,hs.reaches hpos' hfit' htarget (by omega) (by omega),total_perm hperm]
      exact and_congr_right fun _ => ⟨fun h coin hcoin => h coin (hperm.symm.subset hcoin),
        fun h coin hcoin => h coin (hperm.subset hcoin)⟩
    · obtain ⟨hsuffices,htight⟩ := hret ret h
      exact ⟨hback hsuffices,hsuffices.total,hsuffices.enough,htight⟩

/-- A wallet with the outputs of one transaction that has been deep in the chain for long. -/
noncomputable def coinWallet (values : List CAmount) : CoinSource where
  wallet := { mapWallet := Finmap.singleton 1 { tx := { vout := values.map fun value => ⟨value,[]⟩ } } }
  chainActive := {}
  checkFinalTx := fun _ => true
  inMempool := fun _ => false
  coinOrder := ⟨Finset.toList,Finset.mem_toList,Finset.nodup_toList⟩

/-- Coins are left in their order and sorted by insertion; one of them is left out each time. -/
def plainChoices : SearchChoices where
  shuffle l := l
  shuffle_perm := List.Perm.refl
  sort := List.insertionSort fun a b => b.1.toInt ≤ a.1.toInt
  sort_perm := List.perm_insertionSort _
  sort_descending l :=
    haveI : IsTrans (CAmount × COutPoint) fun a b => b.1.toInt ≤ a.1.toInt :=
      ⟨fun _ _ _ hab hbc => hbc.trans hab⟩
    haveI : Std.Total fun a b : CAmount × COutPoint => b.1.toInt ≤ a.1.toInt :=
      ⟨fun a b => le_total b.1.toInt a.1.toInt⟩
    List.pairwise_insertionSort _ l
  insecureRand _ nRep i := i != nRep

def deepCoin (i : UInt32) : COutput := ⟨1,i,10,true⟩

theorem coinWallet_eligible {values : List CAmount} {i : UInt32} {value : CAmount}
    (h : values[i.toNat]? = some value) :
    (coinWallet values).eligibleCoin 1 6 (deepCoin i) = .ok (some (value,⟨1,i⟩)) := by
  have hout : (coinWallet values).coinOut ⟨1,i⟩ = .ok ⟨value,[]⟩ := by
    have hfound : (coinWallet values).coinOut? ⟨1,i⟩ = some ⟨value,[]⟩ := by
      change (values.map fun value => (⟨value,[]⟩ : CTxOut))[i.toNat]? = _
      rw [List.getElem?_map,h]
      rfl
    rw [coinOut,hfound]
  change (do
    let txout ← (coinWallet values).coinOut ⟨1,i⟩
    pure (some (txout.nValue,(⟨1,i⟩ : COutPoint)))) = _
  rw [hout]
  rfl

/-- Three small coins and a large one. -/
noncomputable def mixedWallet : CoinSource := coinWallet [3,2000000,6,4]

def mixedCoins : List COutput := [deepCoin 0,deepCoin 1,deepCoin 2,deepCoin 3]

theorem mixedWallet_eligible {i : UInt32} (hi : i.toNat < 4) :
    mixedWallet.eligibleCoin 1 6 (deepCoin i) =
      .ok (some (([3,2000000,6,4] : List CAmount).get ⟨i.toNat,hi⟩,⟨1,i⟩)) :=
  coinWallet_eligible (List.getElem?_eq_getElem hi)

theorem mixedCoins_eligible : mixedWallet.eligibleCoins 1 6 mixedCoins =
    [(3,⟨1,0⟩),(2000000,⟨1,1⟩),(6,⟨1,2⟩),(4,⟨1,3⟩)] := by
  rw [mixedCoins,eligibleCoins_cons (mixedWallet_eligible (i := 0) (by decide)),
    eligibleCoins_cons (mixedWallet_eligible (i := 1) (by decide)),
    eligibleCoins_cons (mixedWallet_eligible (i := 2) (by decide)),
    eligibleCoins_cons (mixedWallet_eligible (i := 3) (by decide))]
  rfl

/-- For 7 the small ones are too much together, so that the best subset of them is searched. -/
theorem selectCoinsMinConf_reaches_subset :
    mixedWallet.minConfLoop 7 1 6 (plainChoices.shuffle mixedCoins) {} =
      .ok (.inl ⟨[(3,⟨1,0⟩),(6,⟨1,2⟩),(4,⟨1,3⟩)],13,2000000,some ⟨1,1⟩⟩) ∧
    (bestSubset plainChoices [6,4,3] 13 7 1000007) = ([false,true,true],7) ∧
    ∃ ret, mixedWallet.selectCoinsMinConf plainChoices 7 1 6 mixedCoins = .ok (some ret) ∧
      (∀ x ∈ ret.1, ∃ coin ∈ mixedWallet.eligibleCoins 1 6 mixedCoins, coin.2 = x) ∧
      ret.2.toInt = ∑ x ∈ ret.1, mixedWallet.value x ∧ 7 ≤ ret.2.toInt := by
  have hloop : mixedWallet.minConfLoop 7 1 6 (plainChoices.shuffle mixedCoins) {} =
      .ok (.inl ⟨[(3,⟨1,0⟩),(6,⟨1,2⟩),(4,⟨1,3⟩)],13,2000000,some ⟨1,1⟩⟩) := by
    change mixedWallet.minConfLoop 7 1 6 [deepCoin 0,deepCoin 1,deepCoin 2,deepCoin 3] {} = _
    simp only [minConfLoop]
    rw [mixedWallet_eligible (i := 0) (by decide),mixedWallet_eligible (i := 1) (by decide),
      mixedWallet_eligible (i := 2) (by decide),mixedWallet_eligible (i := 3) (by decide)]
    rfl
  obtain ⟨found,hfound,hsome,hret⟩ := selectCoinsMinConf_reaches mixedWallet plainChoices
    (show 0 < (7 : CAmount).toInt by decide) (by decide) 1 6
    (show (mixedCoins.map COutput.coin).Nodup by decide)
    (by
      simp only [mixedCoins,List.forall_mem_cons,List.not_mem_nil,false_implies,implies_true,and_true]
      exact ⟨⟨_,mixedWallet_eligible (by decide)⟩,⟨_,mixedWallet_eligible (by decide)⟩,
        ⟨_,mixedWallet_eligible (by decide)⟩,_,mixedWallet_eligible (by decide)⟩)
    (by
      rw [mixedCoins_eligible]
      decide)
    (by
      rw [mixedCoins_eligible]
      decide)
  obtain ⟨ret,rfl⟩ := Option.isSome_iff_exists.mp (hsome.mpr (by
    rw [mixedCoins_eligible]
    decide))
  obtain ⟨hcoins,htotal,henough,-⟩ := hret ret rfl
  exact ⟨hloop,by decide,ret,hfound,hcoins,htotal,henough⟩

/-- A coin of the highest value is not found, whatever the amount. -/
theorem selectCoinsMinConf_misses :
    (coinWallet [Int64.maxValue]).selectCoinsMinConf plainChoices 5 1 6 [deepCoin 0] = .ok none ∧
      ([deepCoin 0].map COutput.coin).Nodup ∧
      (coinWallet [Int64.maxValue]).eligibleCoin 1 6 (deepCoin 0) = .ok (some (Int64.maxValue,⟨1,0⟩)) ∧
      total ((coinWallet [Int64.maxValue]).eligibleCoins 1 6 [deepCoin 0]) < 2^63 ∧
      (5 : CAmount).toInt ≤ total ((coinWallet [Int64.maxValue]).eligibleCoins 1 6 [deepCoin 0]) := by
  have heligible : (coinWallet [Int64.maxValue]).eligibleCoin 1 6 (deepCoin 0) =
      .ok (some (Int64.maxValue,⟨1,0⟩)) := coinWallet_eligible rfl
  have hcoins : (coinWallet [Int64.maxValue]).eligibleCoins 1 6 [deepCoin 0] =
      [(Int64.maxValue,⟨1,0⟩)] := by
    rw [eligibleCoins_cons heligible]
    rfl
  rw [hcoins]
  refine ⟨?_,List.nodup_singleton _,heligible,by decide,by decide⟩
  unfold selectCoinsMinConf
  change (minConfLoop _ _ _ _ [deepCoin 0] {} >>= _) = _
  rw [minConfLoop,heligible]
  rfl

end CoinSource

end Sidechain
