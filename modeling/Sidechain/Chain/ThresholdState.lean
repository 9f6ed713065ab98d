import Sidechain.Chain.Extension
import Sidechain.Chain.VersionBits

/-! What the cached computation of a deployment's state returns: a recursion over the period
boundaries of the chain, whatever the cache was filled with. A block is given by its path to
genesis, the empty path stands for `NULL`. -/
namespace Sidechain
open CBlockIndex

/-- The path up to the block that is the `n`-th from genesis. -/
def oldest (n : ℕ) (path : List BlockEntry) : List BlockEntry := path.drop (path.length - n)

theorem oldest_suffix (n : ℕ) (path : List BlockEntry) : oldest n path <:+ path :=
  List.drop_suffix _ _

theorem length_oldest {n : ℕ} {path : List BlockEntry} (h : n ≤ path.length) :
    (oldest n path).length = n := by
  rw [oldest,List.length_drop]
  omega

theorem oldest_of_suffix {n : ℕ} {path path' : List BlockEntry} (h : path <:+ path')
    (hn : n ≤ path.length) : oldest n path' = oldest n path := by
  obtain ⟨newer,rfl⟩ := h
  unfold oldest
  rw [List.drop_append,List.drop_eq_nil_of_le (by rw [List.length_append]; omega),List.nil_append]
  congr 1
  rw [List.length_append]
  omega

@[simp] theorem oldest_length (path : List BlockEntry) : oldest path.length path = path := by
  rw [oldest,Nat.sub_self,List.drop_zero]

theorem getAncestor_oldest {path : List BlockEntry} {pindex : CBlockIndex}
    (h : ofPath path = some pindex) {n : ℕ} (hn : n ≤ path.length) :
    pindex.getAncestor ((n : ℤ) - 1) = ofPath (oldest n path) := by
  cases n with
  | zero =>
    rw [oldest,Nat.sub_zero,List.drop_length,getAncestor,if_pos (by simp)]
    rfl
  | succ n =>
    rw [show ((n + 1 : ℕ) : ℤ) - 1 = n by omega,getAncestor_ofPath h hn,upTo,oldest,
      show path.length - 1 - n = path.length - (n + 1) by omega]

namespace AbstractThresholdConditionChecker

variable (checker : AbstractThresholdConditionChecker)

/-- How many blocks of the last period meet the condition. -/
def signals (path : List BlockEntry) : ℕ :=
  (List.range checker.period).countP fun i => (ofPath (path.drop i)).any checker.condition

/-- The transition at the end of a period. -/
def transition (state : ThresholdState) (path : List BlockEntry) : ThresholdState :=
  match state with
  | .DEFINED =>
    if medianTimePast path ≥ checker.endTime then .FAILED
    else if medianTimePast path ≥ checker.beginTime then .STARTED
    else .DEFINED
  | .STARTED =>
    if medianTimePast path ≥ checker.endTime then .FAILED
    else if checker.signals path ≥ checker.threshold then .LOCKED_IN
    else .STARTED
  | .LOCKED_IN => .ACTIVE
  | .FAILED => .FAILED
  | .ACTIVE => .ACTIVE

/-- The transition after a period that ends before the start time goes back to the first state. -/
def startedTransition (state : ThresholdState) (path : List BlockEntry) : ThresholdState :=
  if medianTimePast path < checker.beginTime then .DEFINED else checker.transition state path

variable {checker}

/-- The state after so many periods of a chain. -/
def afterPeriods (step : ThresholdState → List BlockEntry → ThresholdState) (period : ℕ)
    (path : List BlockEntry) : ℕ → ThresholdState
  | 0 => .DEFINED
  | k + 1 => step (afterPeriods step period path k) (oldest ((k + 1) * period) path)

variable (checker)

/-- BIP9: each period ends with a transition. -/
def bip9State (path : List BlockEntry) : ThresholdState :=
  afterPeriods checker.transition checker.period path (path.length / checker.period)

/-- What the code computes, without its cache. -/
def state (path : List BlockEntry) : ThresholdState :=
  afterPeriods checker.startedTransition checker.period path (path.length / checker.period)

variable {checker}

theorem afterPeriods_of_suffix {step : ThresholdState → List BlockEntry → ThresholdState}
    {period : ℕ} {path path' : List BlockEntry} (h : path <:+ path') {k : ℕ}
    (hk : k * period ≤ path.length) :
    afterPeriods step period path' k = afterPeriods step period path k := by
  induction k with
  | zero => rfl
  | succ k ih =>
    have hprev : k * period ≤ path.length :=
      (Nat.mul_le_mul_right period (Nat.le_succ k)).trans hk
    rw [afterPeriods,afterPeriods,ih hprev,oldest_of_suffix h hk]

@[simp] theorem state_nil : checker.state [] = .DEFINED := by
  rw [state,List.length_nil,Nat.zero_div,afterPeriods]

theorem state_of_suffix {path path' : List BlockEntry} (h : path <:+ path')
    (hperiod : path.length / checker.period = path'.length / checker.period) :
    checker.state path = checker.state path' := by
  rw [state,state,← hperiod,afterPeriods_of_suffix h (Nat.div_mul_le_self _ _)]

theorem state_periodEnd {path : List BlockEntry} (hpos : 0 < checker.period) (hne : path ≠ [])
    (hdvd : checker.period ∣ path.length) :
    checker.state path = checker.startedTransition
      (checker.state (oldest (path.length - checker.period) path)) path := by
  obtain ⟨k,hk⟩ := hdvd
  cases k with
  | zero =>
    rw [Nat.mul_zero,List.length_eq_zero_iff] at hk
    exact absurd hk hne
  | succ k =>
    have hk' : path.length = (k + 1) * checker.period := by rw [hk,Nat.mul_comm]
    have hprev : path.length - checker.period = k * checker.period := by
      rw [hk',Nat.succ_mul,Nat.add_sub_cancel]
    have hlen : (oldest (k * checker.period) path).length = k * checker.period :=
      length_oldest (by rw [← hprev]; exact Nat.sub_le _ _)
    rw [hprev,state,state,hk',hlen,Nat.mul_div_cancel _ hpos,Nat.mul_div_cancel _ hpos,
      afterPeriods,← hk',oldest_length,afterPeriods_of_suffix (oldest_suffix _ _) hlen.ge]

theorem countLoop_ok {n : ℕ} {path : List BlockEntry} (h : n ≤ path.length) {count : ℤ} :
    checker.countLoop n (ofPath path) count = .ok (count +
      ((List.range n).countP fun i => (ofPath (path.drop i)).any checker.condition : ℕ)) := by
  induction n generalizing path count with
  | zero => simp [countLoop]
  | succ n ih =>
    cases path with
    | nil => simp at h
    | cons e path =>
      rw [List.length_cons,Nat.add_le_add_iff_right] at h
      rw [ofPath,countLoop,show CBlockIndex.pprev ⟨some e.hash,e.nVersion,e.nTime,path⟩ =
        ofPath path from rfl,ih h,List.range_succ_eq_map,List.countP_cons,List.countP_map]
      have hdrop : ((fun i => (ofPath ((e::path).drop i)).any checker.condition) ∘ Nat.succ) =
          fun i => (ofPath (path.drop i)).any checker.condition := rfl
      rw [hdrop,List.drop_zero,ofPath,Option.any_some]
      split_ifs
      · simp
        omega
      · simp

theorem stateNext_ok {path : List BlockEntry} {pindex : CBlockIndex}
    (h : ofPath path = some pindex) (hperiod : checker.period ≤ path.length)
    (state : ThresholdState) :
    checker.stateNext state pindex = .ok (checker.transition state path) := by
  have hcount : checker.countLoop checker.period (some pindex) 0 = .ok (checker.signals path) := by
    rw [← h,countLoop_ok hperiod,signals,zero_add]
  cases state with
  | DEFINED =>
    unfold stateNext transition
    rw [getMedianTimePast_ofPath h]
    split_ifs <;> rfl
  | STARTED =>
    simp only [stateNext,transition,getMedianTimePast_ofPath h,hcount]
    split
    · rfl
    · rfl
  | LOCKED_IN => rfl
  | ACTIVE => rfl
  | FAILED => rfl

/-- Every cached answer is that of the recursion, and stands at the end of a period. -/
def Faithful (checker : AbstractThresholdConditionChecker) (cache : ThresholdConditionCache) :
    Prop :=
  ∀ path state, cache.lookup (ofPath path) = some state → state = checker.state path

theorem Faithful.insert {cache : ThresholdConditionCache} (h : Faithful checker cache)
    (path : List BlockEntry) :
    Faithful checker (cache.insert (ofPath path) (checker.state path)) := by
  intro path' state hlookup
  by_cases hp : ofPath path' = ofPath path
  · have hpath : path' = path := by
      cases path with
      | nil =>
        cases path' with
        | nil => rfl
        | cons e path' => cases hp
      | cons e path => exact ofPath_injective (hp.trans rfl) rfl
    rw [hpath,Finmap.lookup_insert,Option.some.injEq] at hlookup
    rw [hpath,hlookup]
  · rw [Finmap.lookup_insert_of_ne _ hp] at hlookup
    exact h path' state hlookup

theorem Faithful.empty : Faithful checker ∅ := by
  intro path state h
  simp at h

/-- The walk back ends at a block whose state is known, and the walk forward from there comes to the
state of the block it began with. -/
theorem walkBack_spec (hpos : 0 < checker.period) {fuel : ℕ} :
    ∀ {path : List BlockEntry} {cache : ThresholdConditionCache} (vToCompute : List CBlockIndex),
      path.length < fuel → checker.period ∣ path.length → Faithful checker cache →
      ∃ cache' start passed, checker.walkBack fuel cache (ofPath path) vToCompute =
          (cache',ofPath start,passed ++ vToCompute) ∧
        Faithful checker cache' ∧ cache'.lookup (ofPath start) = some (checker.state start) ∧
        ∀ cache, Faithful checker cache → ∃ cache', Faithful checker cache' ∧
          checker.walkForward (passed ++ vToCompute) (checker.state start) cache =
            checker.walkForward vToCompute (checker.state path) cache' := by
  induction fuel with
  | zero => exact fun _ h => absurd h (Nat.not_lt_zero _)
  | succ fuel ih =>
    intro path cache vToCompute hfuel hdvd hcache
    unfold walkBack
    split_ifs with hin
    · obtain ⟨s,hs⟩ := Finmap.mem_iff.mp hin
      exact ⟨cache,path,[],rfl,hcache,hcache path s hs ▸ hs,fun c hc => ⟨c,hc,rfl⟩⟩
    · cases path with
      | nil =>
        have hinsert := hcache.insert []
        rw [state_nil] at hinsert
        refine ⟨_,[],[],rfl,hinsert,?_,fun c hc => ⟨c,hc,rfl⟩⟩
        rw [state_nil]
        exact Finmap.lookup_insert _
      | cons e path =>
        generalize hp : e::path = whole at *
        obtain ⟨pindex,hpindex⟩ := exists_ofPath (show whole ≠ [] by simp [← hp])
        have hwhole : whole ≠ [] := by simp [← hp]
        have hstate := state_periodEnd hpos hwhole hdvd
        rw [hpindex]
        dsimp only
        split_ifs with hbefore
        · rw [getMedianTimePast_ofPath hpindex] at hbefore
          rw [startedTransition,if_pos hbefore] at hstate
          have hinsert := hcache.insert whole
          rw [hstate,hpindex] at hinsert
          refine ⟨_,whole,[],by rw [hpindex]; rfl,hinsert,?_,fun c hc => ⟨c,hc,rfl⟩⟩
          rw [hstate,hpindex]
          exact Finmap.lookup_insert _
        · rw [getMedianTimePast_ofPath hpindex] at hbefore
          rw [startedTransition,if_neg hbefore] at hstate
          have hlen := nHeight_ofPath hpindex
          have hperiod : checker.period ≤ whole.length := Nat.le_of_dvd (by omega) hdvd
          have hprev : (oldest (whole.length - checker.period) whole).length =
              whole.length - checker.period := length_oldest (Nat.sub_le _ _)
          rw [show (pindex.nHeight : ℤ) - checker.period =
              ((whole.length - checker.period : ℕ) : ℤ) - 1 by omega,
            getAncestor_oldest hpindex (Nat.sub_le _ _)]
          obtain ⟨cache',start,passed,hback,hcache',hlookup,hforward⟩ :=
            ih (pindex::vToCompute) (by omega)
              (show checker.period ∣ (oldest (whole.length - checker.period) whole).length by
                rw [hprev]
                exact Nat.dvd_sub hdvd dvd_rfl) hcache
          refine ⟨cache',start,passed ++ [pindex],by rw [hback,List.append_assoc]; rfl,hcache',
            hlookup,fun c hc => ?_⟩
          obtain ⟨c',hc',heq⟩ := hforward c hc
          refine ⟨c'.insert (ofPath whole) (checker.state whole),hc'.insert whole,?_⟩
          rw [List.append_assoc,List.singleton_append,heq,walkForward,
            stateNext_ok hpindex hperiod,← hstate,hpindex]
          rfl

/-- A query answers with the recursion's state, whatever is cached. -/
theorem getStateFor_ok (hpos : 0 < checker.period) {cache : ThresholdConditionCache}
    (hcache : Faithful checker cache) (path : List BlockEntry) :
    ∃ cache', Faithful checker cache' ∧
      checker.getStateFor (ofPath path) cache = .ok (checker.state path,cache') := by
  have hend : checker.periodEnd (ofPath path) =
      .ok (ofPath (oldest (path.length / checker.period * checker.period) path)) := by
    cases hp : ofPath path with
    | none =>
      cases path with
      | nil => simp [periodEnd,oldest,ofPath]
      | cons e path => cases hp
    | some pindex =>
      have hlen := nHeight_ofPath hp
      have hdiv := Nat.div_add_mod' path.length checker.period
      rw [periodEnd,if_neg hpos.ne',← getAncestor_oldest hp (Nat.div_mul_le_self _ _),← hlen]
      congr 2
      omega
  have hle := Nat.div_mul_le_self path.length checker.period
  have hsame : checker.state (oldest (path.length / checker.period * checker.period) path) =
      checker.state path := by
    refine state_of_suffix (oldest_suffix _ _) ?_
    rw [length_oldest hle,Nat.mul_div_cancel _ hpos]
  generalize hlast : oldest (path.length / checker.period * checker.period) path = last at *
  have hdvd : checker.period ∣ last.length := by
    rw [← hlast,length_oldest hle]
    exact Nat.dvd_mul_left _ _
  have hrounds : last.length < rounds (ofPath last) := by
    cases hp : ofPath last with
    | none =>
      cases last with
      | nil => exact Nat.one_pos
      | cons e last => cases hp
    | some pindex =>
      have hlen := nHeight_ofPath hp
      rw [rounds]
      omega
  obtain ⟨cache',start,passed,hback,hcache',hlookup,hforward⟩ :=
    walkBack_spec hpos [] hrounds hdvd hcache
  obtain ⟨cache'',hcache'',heq⟩ := hforward cache' hcache'
  refine ⟨cache'',hcache'',?_⟩
  rw [getStateFor,hend]
  change checker.computeStates (checker.walkBack (rounds (ofPath last)) cache (ofPath last) []) = _
  rw [hback,computeStates,hlookup]
  change checker.walkForward (passed ++ []) (checker.state start) cache' = _
  rw [heq,hsame]
  rfl

theorem getStatesFor_ok (hpos : 0 < checker.period) (queries : List (List BlockEntry)) :
    ∀ {cache : ThresholdConditionCache}, Faithful checker cache →
      ∃ cache', checker.getStatesFor (queries.map ofPath) cache =
        .ok (queries.map checker.state,cache') := by
  induction queries with
  | nil => exact fun {cache} _ => ⟨cache,rfl⟩
  | cons path queries ih =>
    intro cache hcache
    obtain ⟨cache',hcache',hstate⟩ := getStateFor_ok hpos hcache path
    obtain ⟨cache'',hstates⟩ := ih hcache'
    refine ⟨cache'',?_⟩
    rw [List.map_cons,getStatesFor,hstate]
    change (checker.getStatesFor (queries.map ofPath) cache' >>= _) = _
    rw [hstates]
    rfl

end AbstractThresholdConditionChecker

end Sidechain
