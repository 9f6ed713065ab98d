import Sidechain.Chain.ThresholdState

/-! The state of a deployment along a chain: when it is the one BIP9 defines, that it is the same
for the blocks of a period, and that it only goes forward. -/
namespace Sidechain
open CBlockIndex

/-- On the way from genesis the median time past never falls. -/
def MedianNeverFalls (path : List BlockEntry) : Prop :=
  ∀ {older newer : List BlockEntry}, older ≠ [] → older <:+ newer → newer <:+ path →
    medianTimePast older ≤ medianTimePast newer

/-- A chain of blocks newer than the median time past of their parents. -/
theorem Extends.medianNeverFalls {e : BlockEntry} {path : List BlockEntry}
    (h : Extends [e] path) : MedianNeverFalls path := by
  intro older newer hne hnewer hpath
  have hlen : 0 < older.length := List.length_pos_iff.mpr hne
  obtain ⟨hstart,_⟩ := h.split hpath (hlen.trans_le hnewer.length_le)
  exact (hstart.split hnewer hlen).2.medianTimePast_le

theorem MedianNeverFalls.of_suffix {path path' : List BlockEntry} (h : MedianNeverFalls path')
    (hsuffix : path <:+ path') : MedianNeverFalls path :=
  fun hne hnewer hpath => h hne hnewer (hpath.trans hsuffix)

namespace ThresholdState

/-- The order of the states a deployment goes through unless it fails. -/
def rank : ThresholdState → ℕ
  | DEFINED => 0
  | STARTED => 1
  | LOCKED_IN => 2
  | ACTIVE => 3
  | FAILED => 4

/-- A later state of the same chain. -/
structure Follows (earlier later : ThresholdState) : Prop where
  active : earlier = ACTIVE → later = ACTIVE
  failed : earlier = FAILED → later = FAILED
  rank_le : later ≠ FAILED → earlier.rank ≤ later.rank

theorem Follows.refl (s : ThresholdState) : Follows s s := ⟨id,id,fun _ => le_rfl⟩

theorem Follows.trans {s t u : ThresholdState} (h : Follows s t) (h' : Follows t u) :
    Follows s u where
  active := h'.active ∘ h.active
  failed := h'.failed ∘ h.failed
  rank_le hu := (h.rank_le fun ht => hu (h'.failed ht)).trans (h'.rank_le hu)

end ThresholdState

namespace AbstractThresholdConditionChecker
open ThresholdState

variable {checker : AbstractThresholdConditionChecker}

theorem transition_follows (state : ThresholdState) (path : List BlockEntry) :
    Follows state (checker.transition state path) := by
  cases state with
  | DEFINED => exact ⟨nofun,nofun,fun _ => Nat.zero_le _⟩
  | STARTED =>
    refine ⟨nofun,nofun,?_⟩
    unfold transition
    dsimp only
    split_ifs
    · exact fun h => absurd rfl h
    · exact fun _ => by decide
    · exact fun _ => le_rfl
  | LOCKED_IN => exact ⟨nofun,nofun,fun _ => Nat.le_succ 2⟩
  | ACTIVE => exact .refl _
  | FAILED => exact .refl _

section
variable {path : List BlockEntry} (hmedian : MedianNeverFalls path) (hpos : 0 < checker.period)
include hmedian hpos

theorem afterPeriods_of_before {k : ℕ} (hk : (k + 1) * checker.period ≤ path.length)
    (hbefore : medianTimePast (oldest ((k + 1) * checker.period) path) < checker.beginTime) :
    afterPeriods checker.startedTransition checker.period path k = .DEFINED := by
  cases k with
  | zero => rfl
  | succ k =>
    have hle : (k + 1) * checker.period ≤ (k + 1 + 1) * checker.period :=
      Nat.mul_le_mul_right _ (Nat.le_succ _)
    have hlen := length_oldest hk
    have hlen' := length_oldest (hle.trans hk)
    have hsuffix : oldest ((k + 1) * checker.period) path <:+
        oldest ((k + 1 + 1) * checker.period) path := by
      rw [oldest_of_suffix (oldest_suffix _ path) (hle.trans hlen.ge)]
      exact oldest_suffix _ _
    have hne : oldest ((k + 1) * checker.period) path ≠ [] := by
      rw [← List.length_pos_iff,hlen']
      exact Nat.mul_pos (Nat.succ_pos k) hpos
    have hmono := hmedian hne hsuffix (oldest_suffix _ _)
    rw [afterPeriods,startedTransition,if_pos (by omega)]

theorem afterPeriods_follows {k : ℕ} (hk : (k + 1) * checker.period ≤ path.length) :
    Follows (afterPeriods checker.startedTransition checker.period path k)
      (afterPeriods checker.startedTransition checker.period path (k + 1)) := by
  rw [afterPeriods,startedTransition]
  split_ifs with hbefore
  · rw [afterPeriods_of_before hmedian hpos hk hbefore]
    exact .refl _
  · exact transition_follows _ _

theorem state_follows {path' : List BlockEntry} (hsuffix : path' <:+ path) :
    Follows (checker.state path') (checker.state path) := by
  rw [state,state,← afterPeriods_of_suffix hsuffix (Nat.div_mul_le_self _ _)]
  have hle : path'.length / checker.period ≤ path.length / checker.period :=
    Nat.div_le_div_right hsuffix.length_le
  have hend := Nat.div_mul_le_self path.length checker.period
  generalize path.length / checker.period = periods at hle hend
  induction hle with
  | refl => exact .refl _
  | @step k hle ih =>
    exact (ih ((Nat.mul_le_mul_right _ (Nat.le_succ k)).trans hend)).trans
      (afterPeriods_follows hmedian hpos hend)

/-- No period ends when the timeout has been reached and the start time has not. -/
def NoEarlyTimeout (checker : AbstractThresholdConditionChecker) (path : List BlockEntry) : Prop :=
  ∀ older, older ≠ [] → older <:+ path → checker.period ∣ older.length →
    medianTimePast older < checker.beginTime → medianTimePast older < checker.endTime

omit hmedian hpos in
theorem noEarlyTimeout_of_le (h : checker.beginTime ≤ checker.endTime) :
    checker.NoEarlyTimeout path := fun _ _ _ _ hbefore => hbefore.trans_le h

theorem state_eq_bip9State (htimeout : checker.NoEarlyTimeout path) :
    checker.state path = checker.bip9State path := by
  have hgen : ∀ k, k * checker.period ≤ path.length →
      afterPeriods checker.startedTransition checker.period path k =
        afterPeriods checker.transition checker.period path k := by
    intro k
    induction k with
    | zero => exact fun _ => rfl
    | succ k ih =>
      intro hk
      have hprev := ih ((Nat.mul_le_mul_right _ (Nat.le_succ k)).trans hk)
      have hlen := length_oldest hk
      rw [afterPeriods,afterPeriods,← hprev,startedTransition]
      split_ifs with hbefore
      · have hne : oldest ((k + 1) * checker.period) path ≠ [] := by
          rw [← List.length_pos_iff,hlen]
          exact Nat.mul_pos (Nat.succ_pos k) hpos
        have hearly := htimeout _ hne (oldest_suffix _ _) (by rw [hlen]; exact Nat.dvd_mul_left _ _)
          hbefore
        rw [afterPeriods_of_before hmedian hpos hk hbefore,transition,if_neg (by omega),
          if_neg (by omega)]
      · rfl
  exact hgen _ (Nat.div_mul_le_self _ _)

end

end AbstractThresholdConditionChecker

open AbstractThresholdConditionChecker

/-- Queries that share a cache are answered one by one as if there were no others. On a chain whose
median time past never falls and where no period ends between an early timeout and the start time,
the answer is the state of BIP9; it is the same within a period and only goes forward. -/
theorem getStateFor_answers (checker : AbstractThresholdConditionChecker)
    (hpos : 0 < checker.period) :
    ∃ answer : List BlockEntry → ThresholdState,
      (∀ queries : List (List BlockEntry), ∃ cache,
        checker.getStatesFor (queries.map ofPath) ∅ = .ok (queries.map answer,cache)) ∧
      (∀ path, MedianNeverFalls path → checker.NoEarlyTimeout path →
        answer path = checker.bip9State path) ∧
      (∀ path path', path <:+ path' →
        path.length / checker.period = path'.length / checker.period →
        answer path = answer path') ∧
      ∀ path path', path <:+ path' → MedianNeverFalls path' →
        ThresholdState.Follows (answer path) (answer path') := by
  refine ⟨checker.state,fun queries => getStatesFor_ok hpos queries .empty,?_,?_,?_⟩
  · exact fun path hmedian htimeout => state_eq_bip9State hmedian hpos htimeout
  · exact fun path path' hsuffix hperiod => state_of_suffix hsuffix hperiod
  · exact fun path path' hsuffix hmedian => state_follows hmedian hpos hsuffix

/-- A genesis block and a deployment that starts before it. -/
def startedDeployment : BIP9Deployment := ⟨0,0,999999999999⟩

def deploymentGenesis : BlockEntry := ⟨1,1,5⟩

/-- Six blocks, the last one first, of which those of the second period signal. -/
def signalledChain : List BlockEntry :=
  [⟨6,1,10⟩,⟨5,1,9⟩,⟨4,0x20000001,8⟩,⟨3,0x20000001,7⟩,⟨2,1,6⟩,deploymentGenesis]

/-- A deployment with periods of two blocks is locked in and gets active on that chain. -/
theorem getStateFor_answers_activated : 0 < (startedDeployment.checker 2 2).period ∧
    ∃ cache, (startedDeployment.checker 2 2).getStatesFor
        ((signalledChain.tails ++ [signalledChain]).map ofPath) ∅ =
      .ok ((signalledChain.tails ++ [signalledChain]).map (startedDeployment.checker 2 2).bip9State,
        cache) ∧
    signalledChain.tails.map (startedDeployment.checker 2 2).bip9State =
      [.ACTIVE,.LOCKED_IN,.LOCKED_IN,.STARTED,.STARTED,.DEFINED,.DEFINED] := by
  obtain ⟨answer,hanswer,hbip9,_,_⟩ :=
    getStateFor_answers (startedDeployment.checker 2 2) (by decide)
  have hmedian : MedianNeverFalls signalledChain := Extends.medianNeverFalls
    (((((Extends.refl.add rfl (by decide)).add rfl (by decide)).add rfl (by decide)).add rfl
      (by decide)).add rfl (by decide))
  have htimeout : ∀ path, (startedDeployment.checker 2 2).NoEarlyTimeout path :=
    fun path => noEarlyTimeout_of_le (by decide)
  obtain ⟨cache,hcache⟩ := hanswer (signalledChain.tails ++ [signalledChain])
  refine ⟨by decide,cache,?_,by decide⟩
  refine hcache.trans (congrArg (fun states => Except.ok (states,cache)) ?_)
  refine List.map_congr_left fun path hpath => hbip9 path (hmedian.of_suffix ?_) (htimeout path)
  rcases List.mem_append.mp hpath with hpath | hpath
  · exact (List.mem_tails _ _).mp hpath
  · rw [List.mem_singleton.mp hpath]

/-- A deployment that times out before it starts, and one on a chain whose median falls: BIP9 does
not give the answers of the code. -/
theorem getStateFor_differs :
    (((BIP9Deployment.checker ⟨0,10,3⟩ 1 1).getStateFor (ofPath [deploymentGenesis]) ∅).map
        Prod.fst = .ok .DEFINED ∧
      (BIP9Deployment.checker ⟨0,10,3⟩ 1 1).bip9State [deploymentGenesis] = .FAILED) ∧
    (((BIP9Deployment.checker ⟨0,3,9⟩ 1 2).getStateFor
        (ofPath [⟨3,1,0⟩,⟨2,1,0⟩,deploymentGenesis]) ∅).map Prod.fst = .ok .DEFINED ∧
      (BIP9Deployment.checker ⟨0,3,9⟩ 1 2).bip9State [⟨3,1,0⟩,⟨2,1,0⟩,deploymentGenesis] =
        .STARTED) := by
  decide

end Sidechain
