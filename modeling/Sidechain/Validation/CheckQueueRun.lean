import Sidechain.Validation.CheckQueue
import Mathlib.Algebra.BigOperators.Group.Finset.Basic
import Mathlib.Algebra.BigOperators.Group.Multiset.Basic
import Mathlib.Algebra.Order.BigOperators.Group.Finset
import Mathlib.Data.Fintype.Option

/-! The accounts of the queue: what is queued, taken by threads, run and skipped. They balance
whenever the lock is free, through every section, so in every run with any number of threads what
`Wait` returns is the verdict on the checks added for it. -/
namespace Sidechain
open Finset

theorem sum_threads_update {ι P M : Type} [Fintype ι] [DecidableEq ι] [AddCommMonoid M] (g : P → M)
    (thread : ι → P) (t : ι) (p : P) :
    (∑ u, g (Function.update thread t p u)) + g (thread t) = (∑ u, g (thread u)) + g p := by
  rw [← add_sum_erase _ _ (mem_univ t),← add_sum_erase univ (fun u => g (thread u)) (mem_univ t),
    Function.update_self,sum_congr rfl fun u hu => by
      rw [Function.update_of_ne (ne_of_mem_erase hu)]]
  ac_rfl

/-- Nothing changes in the sum if the new state counts as much as the old one. -/
theorem sum_threads_update_of_eq {ι P M : Type} [Fintype ι] [DecidableEq ι] [AddCommMonoid M]
    {g : P → M} {thread : ι → P} {t : ι} {p : P} (h : g p = g (thread t)) :
    (∑ u, g (Function.update thread t p u)) = ∑ u, g (thread u) := by
  refine sum_congr rfl fun u _ => ?_
  by_cases hut : u = t
  · rw [hut,Function.update_self,h]
  · rw [Function.update_of_ne hut]

namespace LoopPhase
variable {T : Type}

def idle : LoopPhase T → ℤ
  | .waiting => 1
  | _ => 0

def total : LoopPhase T → ℤ
  | .outside => 0
  | _ => 1

/-- The checks of a batch that are still to be run. -/
def remaining : LoopPhase T → Multiset T
  | .working vChecks _ _ => vChecks
  | _ => 0

/-- A batch in which a check has failed, or which was taken after a failure. -/
def Bad (p : LoopPhase T) : Prop := ∃ vChecks nNow, p = .working vChecks nNow false

@[simp] theorem not_bad_outside : ¬ (outside : LoopPhase T).Bad := fun ⟨_,_,h⟩ => nomatch h

@[simp] theorem not_bad_locked : ¬ (locked : LoopPhase T).Bad := fun ⟨_,_,h⟩ => nomatch h

@[simp] theorem not_bad_waiting : ¬ (waiting : LoopPhase T).Bad := fun ⟨_,_,h⟩ => nomatch h

@[simp] theorem bad_working {vChecks : List T} {nNow : ℕ} {fOk : Bool} :
    (working vChecks nNow fOk).Bad ↔ fOk = false := by
  constructor
  · rintro ⟨_,_,h⟩
    exact (LoopPhase.working.inj h).2.2
  · rintro rfl
    exact ⟨_,_,rfl⟩

end LoopPhase

namespace CheckThreads
variable {ι T : Type} [DecidableEq ι] {check : T → Bool} {s : CheckThreads ι T} {t : Option ι}

/-- A failure is known, or will be when the batch is counted. -/
def Failed (s : CheckThreads ι T) : Prop := s.q.fAllOk = false ∨ ∃ u, (s.thread u).Bad

theorem failed_iff (t : Option ι) : s.Failed ↔
    s.q.fAllOk = false ∨ (s.thread t).Bad ∨ ∃ u, u ≠ t ∧ (s.thread u).Bad := by
  refine or_congr_right ⟨fun ⟨u,hu⟩ => ?_,fun h => ?_⟩
  · by_cases hut : u = t
    · exact .inl (hut ▸ hu)
    · exact .inr ⟨u,hut,hu⟩
  · exact h.elim (fun hbad => ⟨t,hbad⟩) fun ⟨u,_,hbad⟩ => ⟨u,hbad⟩

theorem failed_update {q : CCheckQueue T} {p : LoopPhase T} {notified : Bool}
    {added ran skipped : Multiset T} {rounds : List (CheckRound T)} :
    (⟨q,Function.update s.thread t p,notified,added,ran,skipped,rounds⟩ :
      CheckThreads ι T).Failed ↔
      q.fAllOk = false ∨ p.Bad ∨ ∃ u, u ≠ t ∧ (s.thread u).Bad :=
  or_congr_right (Function.exists_update_iff s.thread fun _ (p : LoopPhase T) => p.Bad)

/-- Only this thread holds the lock. -/
def LockedBy (s : CheckThreads ι T) (t : Option ι) : Prop := ∀ u, s.thread u = .locked ↔ u = t

def Unlocked (s : CheckThreads ι T) : Prop := ∀ u, s.thread u ≠ .locked

theorem lockedBy_update (h : s.Unlocked) (u : Option ι) :
    Function.update s.thread t .locked u = .locked ↔ u = t := by
  by_cases hut : u = t
  · subst hut
    simp
  · rw [Function.update_of_ne hut]
    exact iff_of_false (h u) hut

theorem unlocked_update (h : s.LockedBy t) {p : LoopPhase T} (hp : p ≠ .locked) (u : Option ι) :
    Function.update s.thread t p u ≠ .locked := by
  by_cases hut : u = t
  · subst hut
    rwa [Function.update_self]
  · rw [Function.update_of_ne hut]
    exact fun hlocked => hut ((h u).mp hlocked)

theorem waiting_of_update {p : LoopPhase T} (hp : p ≠ .waiting)
    (h : Function.update s.thread t p none = .waiting) : t ≠ none ∧ s.thread none = .waiting := by
  by_cases ht : t = none
  · subst ht
    rw [Function.update_self] at h
    exact absurd h hp
  · rw [Function.update_of_ne (Ne.symm ht)] at h
    exact ⟨ht,h⟩

theorem unlocked_execute (h : s.Unlocked) {vChecks : List T} {nNow : ℕ} {fOk : Bool}
    (u : Option ι) : Function.update s.thread t (.working vChecks nNow fOk) u ≠ .locked := by
  by_cases hut : u = t
  · subst hut
    simp
  · rw [Function.update_of_ne hut]
    exact h u

theorem unlocked_turn (hl : s.LockedBy t) : (s.turn t).Unlocked := by
  unfold CheckThreads.turn
  split_ifs
  · unfold CheckThreads.leave
    split_ifs
    · exact unlocked_update hl (by simp)
    · exact unlocked_update hl (by simp)
  · exact unlocked_update hl (by simp)
  · exact unlocked_update hl (by simp)

end CheckThreads

/-- `Wait` has returned the verdict on its checks, and each was run at most once. -/
structure CheckRound.Correct {T : Type} (check : T → Bool) (r : CheckRound T) : Prop where
  verdict : r.fRet = true ↔ ∀ c ∈ r.added, check c = true
  once : r.ran ≤ r.added
  all : r.fRet = true → r.ran = r.added

theorem CCheckQueue.batchSize_pos {T : Type} (q : CCheckQueue T) : 0 < q.batchSize :=
  lt_of_lt_of_le one_pos (le_max_left ..)

theorem CCheckQueue.batchSize_le {T : Type} {q : CCheckQueue T} (h : q.queue ≠ []) :
    q.batchSize ≤ q.queue.length := by
  refine max_le (List.length_pos_of_ne_nil h) ((min_le_right _ _).trans ?_)
  exact (Nat.div_le_self _ _).trans (Nat.mod_le _ _)

namespace CheckThreads
variable {ι T : Type} [Fintype ι] {check : T → Bool} {s : CheckThreads ι T} {t : Option ι}

/-- All checks that have not been counted as done. -/
def pending (s : CheckThreads ι T) : ℕ := s.q.queue.length + ∑ u, (s.thread u).held

/-- What holds of the queue, also while one thread holds the lock. -/
structure Balanced (check : T → Bool) (s : CheckThreads ι T) : Prop where
  todo : s.q.nTodo.toNat = s.pending
  idle : s.q.nIdle = ∑ u, (s.thread u).idle
  total : s.q.nTotal = ∑ u, (s.thread u).total
  batch : ∀ u vChecks nNow fOk, s.thread u = .working vChecks nNow fOk →
    0 < nNow ∧ vChecks.length ≤ nNow
  account : s.added = s.q.queue + (∑ u, (s.thread u).remaining) + s.ran + s.skipped
  failed : (∃ c ∈ s.ran, check c = false) ↔ s.Failed
  skipped : s.skipped ≠ 0 → s.Failed
  waits : s.thread none = .waiting → s.q.queue = [] ∧ (s.notified = false → s.q.nTodo ≠ 0)
  rounds : ∀ r ∈ s.rounds, r.Correct check

theorem held_le_pending (u : Option ι) : (s.thread u).held ≤ s.pending :=
  (single_le_sum (f := fun u => (s.thread u).held) (fun _ _ => Nat.zero_le _) (mem_univ u)).trans
    (Nat.le_add_left _ _)

theorem Balanced.add (h : Balanced check s) (hmaster : s.thread none = .outside)
    {vChecks : List T} (hfits : s.pending + vChecks.length < 2^32) :
    Balanced check (s.add vChecks) where
  todo := by
    have hpending : (s.add vChecks).pending = s.pending + vChecks.length := by
      simp only [pending,CheckThreads.add,CCheckQueue.add,List.length_append,List.length_reverse]
      omega
    have htodo := h.todo
    rw [hpending]
    simp only [CheckThreads.add,CCheckQueue.add,UInt32.toNat_add,UInt32.toNat_ofNat']
    omega
  idle := h.idle
  total := h.total
  batch := h.batch
  account := by
    simp only [CheckThreads.add,CCheckQueue.add,h.account,← Multiset.coe_add,
      Multiset.coe_reverse]
    ac_rfl
  failed := h.failed
  skipped := h.skipped
  waits := fun hwaits => nomatch hmaster.symm.trans hwaits
  rounds := h.rounds

theorem Balanced.not_working (h : Balanced check s) (hzero : s.q.nTodo = 0) (u : Option ι)
    (vChecks : List T) (nNow : ℕ) (fOk : Bool) : s.thread u ≠ .working vChecks nNow fOk := by
  intro hu
  have hpos := (h.batch u _ _ _ hu).1
  have hle := s.held_le_pending u
  rw [← h.todo,hzero,hu] at hle
  exact absurd hle (by simpa [LoopPhase.held] using hpos.ne')

theorem Balanced.remaining_eq_zero (h : Balanced check s) (hzero : s.q.nTodo = 0) :
    ∑ u, (s.thread u).remaining = 0 := by
  refine sum_eq_zero fun u _ => ?_
  cases hu : s.thread u with
  | working vChecks nNow fOk => exact absurd hu (h.not_working hzero u _ _ _)
  | _ => rfl

theorem Balanced.failed_iff_of_done (h : Balanced check s) (hzero : s.q.nTodo = 0) :
    s.Failed ↔ s.q.fAllOk = false :=
  or_iff_left fun ⟨u,_,_,hu⟩ => h.not_working hzero u _ _ _ hu

theorem Balanced.correct (h : Balanced check s) (hqueue : s.q.queue = []) (hzero : s.q.nTodo = 0) :
    CheckRound.Correct check ⟨s.added,s.ran,s.q.fAllOk⟩ := by
  have hfailed := h.failed_iff_of_done hzero
  have haccount : s.added = s.ran + s.skipped := by
    rw [h.account,hqueue,h.remaining_eq_zero hzero]
    simp
  have hall : s.q.fAllOk = true → s.ran = s.added := by
    intro hok
    have hskipped : s.skipped = 0 := by
      by_contra hskipped
      exact Bool.false_ne_true ((hfailed.mp (h.skipped hskipped)).symm.trans hok)
    rw [haccount,hskipped,add_zero]
  refine ⟨⟨fun hok c hc => ?_,fun hgood => ?_⟩,?_,hall⟩
  · by_contra hbad
    rw [← hall hok] at hc
    exact Bool.false_ne_true
      ((hfailed.mp (h.failed.mp ⟨c,hc,Bool.eq_false_iff.mpr hbad⟩)).symm.trans hok)
  · by_contra hbad
    obtain ⟨c,hc,hfalse⟩ := h.failed.mpr (hfailed.mpr (Bool.eq_false_iff.mpr hbad))
    have hadded : c ∈ s.added := by
      rw [haccount]
      exact Multiset.mem_add.mpr (.inl hc)
    exact Bool.false_ne_true (hfalse.symm.trans (hgood c hadded))
  · rw [haccount]
    exact Multiset.le_add_right _ _

/-- Then all threads in `Loop` wait. -/
theorem Balanced.total_eq_idle (h : Balanced check s) (hfree : s.Unlocked) (hzero : s.q.nTodo = 0) :
    s.q.nTotal = s.q.nIdle := by
  rw [h.total,h.idle]
  refine sum_congr rfl fun u _ => ?_
  cases hu : s.thread u with
  | locked => exact absurd hu (hfree u)
  | working vChecks nNow fOk => exact absurd hu (h.not_working hzero u _ _ _)
  | _ => rfl

theorem Balanced.worker (h : Balanced check s) (hwaits : s.thread none = .waiting)
    (hnotified : s.notified = false) : ∃ w, 0 < (s.thread (some w)).held := by
  obtain ⟨hqueue,htodo⟩ := h.waits hwaits
  by_contra hnone
  push Not at hnone
  refine htodo hnotified (UInt32.toNat_inj.mp (h.todo.trans ?_))
  rw [pending,hqueue,sum_eq_zero fun u _ => ?_]
  · rfl
  · cases u with
    | none => rw [hwaits]; rfl
    | some w => exact Nat.le_zero.mp (hnone w)

variable [DecidableEq ι]

/-- A thread moves on, and what it gives up or takes is in the queue before or after. -/
theorem Balanced.move (h : Balanced check s) {q : CCheckQueue T} {p : LoopPhase T} {notified : Bool}
    (hqueue : (q.queue : Multiset T) + p.remaining = s.q.queue + (s.thread t).remaining)
    (htodo : q.nTodo.toNat + s.q.queue.length + (s.thread t).held =
      s.q.nTodo.toNat + q.queue.length + p.held)
    (hidle : q.nIdle + (s.thread t).idle = s.q.nIdle + p.idle)
    (htotal : q.nTotal + (s.thread t).total = s.q.nTotal + p.total)
    (hbatch : ∀ vChecks nNow fOk, p = .working vChecks nNow fOk →
      0 < nNow ∧ vChecks.length ≤ nNow)
    (hok : q.fAllOk = false ∨ p.Bad ↔ s.q.fAllOk = false ∨ (s.thread t).Bad)
    (hwaits : Function.update s.thread t p none = .waiting →
      q.queue = [] ∧ (notified = false → q.nTodo ≠ 0)) :
    Balanced check
      ⟨q,Function.update s.thread t p,notified,s.added,s.ran,s.skipped,s.rounds⟩ where
  todo := by
    have hsum := sum_threads_update LoopPhase.held s.thread t p
    have hold := h.todo
    simp only [pending] at hold ⊢
    omega
  idle := by
    have hsum := sum_threads_update LoopPhase.idle s.thread t p
    have hold := h.idle
    dsimp only
    omega
  total := by
    have hsum := sum_threads_update LoopPhase.total s.thread t p
    have hold := h.total
    dsimp only
    omega
  batch u vChecks nNow fOk hu := by
    dsimp only at hu
    by_cases hut : u = t
    · subst hut
      rw [Function.update_self] at hu
      exact hbatch _ _ _ hu
    · rw [Function.update_of_ne hut] at hu
      exact h.batch u _ _ _ hu
  account := by
    have hsum := sum_threads_update LoopPhase.remaining s.thread t p
    refine h.account.trans (congrArg (· + s.ran + s.skipped) ?_)
    refine add_right_cancel (b := (s.thread t).remaining) ?_
    rw [add_assoc (q.queue : Multiset T),hsum,add_right_comm,← hqueue]
    ac_rfl
  failed := by
    rw [failed_update,h.failed,failed_iff t,← or_assoc,← or_assoc,hok]
  skipped hskipped := by
    rw [failed_update,← or_assoc,hok,or_assoc]
    exact (failed_iff t).mp (h.skipped hskipped)
  waits := hwaits
  rounds := h.rounds

theorem Balanced.settle (h : Balanced check s) {nNow : ℕ} {fOk : Bool}
    (ht : s.thread t = .working [] nNow fOk) : Balanced check (s.settle t nNow fOk) := by
  have hpos := (h.batch t _ _ _ ht).1
  have hle : nNow ≤ s.q.nTodo.toNat := by
    rw [h.todo]
    simpa [ht,LoopPhase.held] using s.held_le_pending t
  have hlt := s.q.nTodo.toNat_lt
  have hnow : (UInt32.ofNat nNow).toNat = nNow := by
    rw [UInt32.toNat_ofNat']
    omega
  have htodo : (s.q.nTodo - UInt32.ofNat nNow).toNat = s.q.nTodo.toNat - nNow := by
    rw [UInt32.toNat_sub_of_le _ _ (by rw [UInt32.le_iff_toNat_le,hnow]; exact hle),hnow]
  unfold CheckThreads.settle CCheckQueue.cleanUp
  rw [if_pos hpos.ne']
  refine h.move ?_ ?_ ?_ ?_ (fun _ _ _ hlocked => nomatch hlocked) ?_ ?_
  · rw [ht]
    rfl
  · rw [ht,htodo]
    simp only [LoopPhase.held]
    omega
  · rw [ht]
    rfl
  · rw [ht]
    rfl
  · rw [ht,Bool.and_eq_false_iff,LoopPhase.bad_working]
    exact or_iff_left LoopPhase.not_bad_locked
  · intro hwaits
    obtain ⟨hne,hmaster⟩ := waiting_of_update (by simp) hwaits
    refine ⟨(h.waits hmaster).1,fun hnotified hzero => ?_⟩
    dsimp only at hzero
    rw [hzero] at hnotified
    simp [hpos.ne',Option.isSome_iff_ne_none.mpr hne] at hnotified

/-- A thread that comes into `Loop`. -/
theorem Balanced.enter (h : Balanced check s) (ht : s.thread t = .outside) :
    Balanced check (s.settle t 0 true) := by
  unfold CheckThreads.settle CCheckQueue.cleanUp
  rw [if_neg (not_not_intro rfl)]
  refine h.move ?_ ?_ ?_ ?_ (fun _ _ _ hlocked => nomatch hlocked) ?_ ?_
  · rw [ht]
    rfl
  · rw [ht]
    rfl
  · rw [ht]
    rfl
  · rw [ht]
    simp [LoopPhase.total]
  · rw [ht]
    simp
  · intro hwaits
    simpa using h.waits (waiting_of_update (by simp) hwaits).2

theorem Balanced.awake (h : Balanced check s) (ht : s.thread t = .waiting) :
    Balanced check (s.awake t) := by
  refine h.move ?_ ?_ ?_ ?_ (fun _ _ _ hlocked => nomatch hlocked) ?_ ?_
  · rw [ht]
    rfl
  · rw [ht]
    rfl
  · rw [ht]
    simp [LoopPhase.idle]
  · rw [ht]
    rfl
  · rw [ht]
    simp
  · exact fun hwaits => h.waits (waiting_of_update (by simp) hwaits).2

theorem Balanced.wait (h : Balanced check s) (hl : s.LockedBy t) (hqueue : s.q.queue = [])
    (hturn : t = none → s.q.nTodo ≠ 0) : Balanced check (s.wait t) := by
  have ht : s.thread t = .locked := (hl t).mpr rfl
  refine h.move ?_ ?_ ?_ ?_ (fun _ _ _ hwaits => nomatch hwaits) ?_ ?_
  · rw [ht]
    rfl
  · rw [ht]
    rfl
  · rw [ht]
    simp [LoopPhase.idle]
  · rw [ht]
    rfl
  · rw [ht]
    simp
  · intro hwaits
    refine ⟨hqueue,fun hnotified => ?_⟩
    by_cases hmaster : t = none
    · exact hturn hmaster
    · rw [Function.update_of_ne (Ne.symm hmaster)] at hwaits
      exact (h.waits hwaits).2 (by simpa [Option.isSome_iff_ne_none.mpr hmaster] using hnotified)

theorem Balanced.take (h : Balanced check s) (hl : s.LockedBy t) (hqueue : s.q.queue ≠ []) :
    Balanced check (s.take t) := by
  have ht : s.thread t = .locked := (hl t).mpr rfl
  have hle := CCheckQueue.batchSize_le hqueue
  refine h.move ?_ ?_ ?_ ?_ ?_ ?_ ?_
  · rw [ht,add_comm]
    simp only [LoopPhase.remaining,Multiset.coe_add,List.take_append_drop,add_zero]
  · rw [ht]
    simp only [LoopPhase.held,List.length_drop]
    omega
  · rw [ht]
    rfl
  · rw [ht]
    rfl
  · intro vChecks nNow fOk hworking
    obtain ⟨rfl,rfl,_⟩ := LoopPhase.working.inj hworking
    exact ⟨s.q.batchSize_pos,List.length_take_le _ _⟩
  · rw [ht]
    simp
  · exact fun hwaits =>
      absurd (h.waits (waiting_of_update (by simp) hwaits).2).1 hqueue

theorem Balanced.leave_worker (h : Balanced check s) (hl : s.LockedBy t) (hne : t ≠ none) :
    Balanced check (s.leave t) := by
  have ht : s.thread t = .locked := (hl t).mpr rfl
  have hsome : t.isNone = false := by simpa using Option.isSome_iff_ne_none.mpr hne
  unfold CheckThreads.leave
  rw [hsome,Bool.or_false,if_neg Bool.false_ne_true]
  refine h.move ?_ ?_ ?_ ?_ (fun _ _ _ hleft => nomatch hleft) ?_ ?_
  · rw [ht]
    rfl
  · rw [ht]
    rfl
  · rw [ht]
    rfl
  · rw [ht]
    simp [LoopPhase.total]
  · rw [ht]
    simp
  · exact fun hwaits => h.waits (waiting_of_update (by simp) hwaits).2

/-- After `Wait` all accounts are empty. -/
theorem Balanced.leave_master (h : Balanced check s) (hl : s.LockedBy none)
    (hqueue : s.q.queue = []) (hzero : s.q.nTodo = 0) : Balanced check (s.leave none) := by
  have ht : s.thread none = .locked := (hl none).mpr rfl
  have hleft : Balanced check { s with
      q := { s.q with nTotal := s.q.nTotal - 1 }
      thread := Function.update s.thread none .outside } := by
    refine h.move ?_ ?_ ?_ ?_ (fun _ _ _ hleft => nomatch hleft) ?_ ?_
    · rw [ht]
      rfl
    · rw [ht]
      rfl
    · rw [ht]
      rfl
    · rw [ht]
      simp [LoopPhase.total]
    · rw [ht]
      simp
    · exact fun hwaits => h.waits (waiting_of_update (by simp) hwaits).2
  have hgood : ¬ (s.leave none).Failed := by
    rintro (hfalse | ⟨u,_,_,hu⟩)
    · simp [CheckThreads.leave] at hfalse
    · exact hleft.not_working hzero u _ _ _ hu
  refine ⟨hleft.todo,hleft.idle,hleft.total,hleft.batch,?_,?_,?_,hleft.waits,?_⟩
  · have hremaining := hleft.remaining_eq_zero hzero
    simp only [CheckThreads.leave,Option.isNone_none,if_true,hqueue]
    rw [hremaining]
    rfl
  · exact iff_of_false (fun ⟨_,hc,_⟩ => Multiset.notMem_zero _ hc) hgood
  · exact fun hskipped => absurd rfl hskipped
  · intro r hr
    rcases List.mem_cons.mp hr with rfl | hr
    · exact h.correct hqueue hzero
    · exact h.rounds r hr

theorem Balanced.turn (h : Balanced check s) (hl : s.LockedBy t) : Balanced check (s.turn t) := by
  unfold CheckThreads.turn
  split_ifs with hqueue hdone
  · rw [List.isEmpty_iff] at hqueue
    rw [Bool.and_eq_true,beq_iff_eq] at hdone
    by_cases ht : t = none
    · subst ht
      exact h.leave_master hl hqueue hdone.2
    · exact h.leave_worker hl ht
  · rw [List.isEmpty_iff] at hqueue
    refine h.wait hl hqueue fun ht hzero => hdone ?_
    rw [ht,hzero]
    rfl
  · exact h.take hl fun hnil => hqueue (List.isEmpty_iff.mpr hnil)

theorem Balanced.execute (h : Balanced check s) {c : T} {rest : List T} {nNow : ℕ} {fOk : Bool}
    (ht : s.thread t = .working (c::rest) nNow fOk) :
    Balanced check (s.execute check t c rest nNow fOk) := by
  have hbatch := h.batch t _ _ _ ht
  rw [List.length_cons] at hbatch
  have hsum : (∑ u, (Function.update s.thread t (.working rest nNow (fOk && check c)) u).remaining)
      + {c} = ∑ u, (s.thread u).remaining := by
    refine add_right_cancel (b := (rest : Multiset T)) ?_
    have hsum := sum_threads_update LoopPhase.remaining s.thread t
      (.working rest nNow (fOk && check c))
    rw [ht] at hsum
    rw [add_assoc,Multiset.singleton_add]
    exact hsum
  have hmoved : ∀ ran skipped : Multiset T,
      ran + skipped = s.ran + s.skipped + {c} →
      ((∃ c' ∈ ran, check c' = false) ↔
        s.q.fAllOk = false ∨ (fOk && check c) = false ∨ ∃ u, u ≠ t ∧ (s.thread u).Bad) →
      (skipped ≠ 0 →
        s.q.fAllOk = false ∨ (fOk && check c) = false ∨ ∃ u, u ≠ t ∧ (s.thread u).Bad) →
      Balanced check ⟨s.q,Function.update s.thread t (.working rest nNow (fOk && check c)),
        s.notified,s.added,ran,skipped,s.rounds⟩ := by
    intro ran skipped hghost hran hskipped
    refine ⟨?_,?_,?_,?_,?_,?_,?_,?_,h.rounds⟩
    · have hheld := sum_threads_update LoopPhase.held s.thread t
        (.working rest nNow (fOk && check c))
      rw [ht] at hheld
      have hold := h.todo
      simp only [pending,LoopPhase.held] at hheld hold ⊢
      omega
    · refine h.idle.trans (sum_threads_update_of_eq ?_).symm
      rw [ht]
      rfl
    · refine h.total.trans (sum_threads_update_of_eq ?_).symm
      rw [ht]
      rfl
    · intro u vChecks n fOk' hu
      dsimp only at hu
      by_cases hut : u = t
      · subst hut
        rw [Function.update_self] at hu
        obtain ⟨rfl,rfl,_⟩ := LoopPhase.working.inj hu
        exact ⟨hbatch.1,by omega⟩
      · rw [Function.update_of_ne hut] at hu
        exact h.batch u _ _ _ hu
    · rw [h.account,← hsum]
      dsimp only
      rw [add_assoc _ ran,hghost]
      ac_rfl
    · rw [failed_update,LoopPhase.bad_working]
      exact hran
    · rw [failed_update,LoopPhase.bad_working]
      exact hskipped
    · exact fun hwaits => h.waits (waiting_of_update (by simp) hwaits).2
  have hfailed := failed_iff (s := s) t
  rw [ht,LoopPhase.bad_working] at hfailed
  unfold CheckThreads.execute
  split_ifs with hok
  · subst hok
    refine hmoved (c ::ₘ s.ran) s.skipped ?_ ?_ fun hskipped => ?_
    · rw [← Multiset.singleton_add]
      ac_rfl
    · simp only [Multiset.mem_cons,or_and_right,exists_or,exists_eq_left,h.failed,hfailed,
        Bool.true_and,Bool.true_eq_false,false_or]
      exact or_left_comm
    · have hold := hfailed.mp (h.skipped hskipped)
      simp only [Bool.true_eq_false,false_or] at hold
      exact hold.imp_right .inr
  · rw [Bool.not_eq_true] at hok
    subst hok
    refine hmoved s.ran (c ::ₘ s.skipped) ?_ ?_ fun _ => .inr (.inl rfl)
    · rw [← Multiset.singleton_add]
      ac_rfl
    · rw [h.failed,hfailed,Bool.false_and]

/-- The counter does not overflow. -/
def Fits (s : CheckThreads ι T) (vChecks : List T) : Prop := s.pending + vChecks.length < 2^32

theorem Balanced.step (h : Balanced check s) (hfree : s.Unlocked) {s' : CheckThreads ι T}
    (hstep : Step check Fits s s') : Balanced check s' ∧ s'.Unlocked := by
  cases hstep with
  | add vChecks master ok => exact ⟨h.add master ok,hfree⟩
  | enter t outside =>
    exact ⟨(h.enter outside).turn (lockedBy_update hfree),unlocked_turn (lockedBy_update hfree)⟩
  | wake t waiting =>
    exact ⟨(h.awake waiting).turn (lockedBy_update hfree),unlocked_turn (lockedBy_update hfree)⟩
  | next done =>
    exact ⟨(h.settle done).turn (lockedBy_update hfree),unlocked_turn (lockedBy_update hfree)⟩
  | run working =>
    refine ⟨h.execute working,fun u => ?_⟩
    unfold CheckThreads.execute
    split_ifs
    · exact unlocked_execute hfree u
    · exact unlocked_execute hfree u

theorem Reachable.balanced (h : Reachable check Fits s) : Balanced check s ∧ s.Unlocked := by
  induction h with
  | new nBatchSize =>
    refine ⟨⟨?_,?_,?_,?_,?_,?_,?_,?_,?_⟩,?_⟩
    · simp [pending,LoopPhase.held]
    · simp [LoopPhase.idle]
    · simp [LoopPhase.total]
    · rintro _ _ _ _ ⟨⟩
    · simp [LoopPhase.remaining]
    · refine iff_of_false ?_ ?_
      · rintro ⟨_,hc,_⟩
        exact Multiset.notMem_zero _ hc
      · rintro (hfalse | ⟨_,_,_,hbad⟩)
        · cases hfalse
        · cases hbad
    · exact fun hskipped => absurd rfl hskipped
    · rintro ⟨⟩
    · rintro _ ⟨⟩
    · rintro _ ⟨⟩
  | step _ next ih => exact ih.1.step ih.2 next

/-- `Wait` returns only when everything is done, and then a new round begins. -/
theorem Balanced.turn_rounds (h : Balanced check (s.turn t)) (hfree : (s.turn t).Unlocked) :
    (s.turn t).rounds = s.rounds ∨
      (∃ r, (s.turn t).rounds = r::s.rounds ∧ r.added = s.added) ∧ (s.turn t).added = 0 ∧
        (s.turn t).q.queue = [] ∧ (s.turn t).q.IsIdle = true := by
  unfold CheckThreads.turn at h hfree ⊢
  split_ifs at h hfree ⊢ with hqueue hdone
  · rw [List.isEmpty_iff] at hqueue
    rw [Bool.and_eq_true,beq_iff_eq] at hdone
    cases t with
    | some w => exact .inl rfl
    | none =>
      refine .inr ⟨⟨_,rfl,rfl⟩,rfl,hqueue,?_⟩
      have hidle := h.total_eq_idle hfree hdone.2
      have hok : (s.leave none).q.fAllOk = true := Bool.or_true _
      have hzero : (s.leave none).q.nTodo = 0 := hdone.2
      rw [CCheckQueue.IsIdle,hidle,hok,hzero]
      simp
  · exact .inl rfl
  · exact .inl rfl

/-- In all runs the counter is right and no check is run twice; `Wait` returns the verdict on what
was added for it and leaves the queue as if it were new. -/
theorem reachable_checked (h : Reachable check Fits s) :
    s.q.nTodo.toNat = s.pending ∧ (∀ t, (s.thread t).held ≤ s.q.nTodo.toNat) ∧
    s.ran ≤ s.added ∧ (∀ r ∈ s.rounds, r.Correct check) ∧
    (s.thread none = .waiting → s.notified = false → ∃ w, 0 < (s.thread (some w)).held) ∧
    ∀ s', Step check Fits s s' → s'.rounds = s.rounds ∨
      (∃ r, s'.rounds = r::s.rounds ∧ r.added = s.added) ∧ s'.added = 0 ∧ s'.q.queue = [] ∧
        s'.q.IsIdle = true := by
  obtain ⟨hs,hfree⟩ := h.balanced
  refine ⟨hs.todo,fun t => hs.todo ▸ s.held_le_pending t,?_,hs.rounds,hs.worker,fun s' hstep => ?_⟩
  · rw [hs.account,add_right_comm]
    exact Multiset.le_add_left _ _
  · have hnext := hs.step hfree hstep
    cases hstep with
    | add vChecks master ok => exact .inl rfl
    | enter t outside => exact hnext.1.turn_rounds hnext.2
    | wake t waiting => exact hnext.1.turn_rounds hnext.2
    | next done => exact hnext.1.turn_rounds hnext.2
    | run working =>
      left
      unfold CheckThreads.execute
      split_ifs
      · rfl
      · rfl

/-- A worker runs the only check, which fails, and the master waits for it. -/
theorem reachable_checked_failure : ∃ s : CheckThreads Unit Bool,
    s.rounds.map CheckRound.fRet = [false] ∧ ∀ r ∈ s.rounds, r.Correct id :=
  have h0 : Reachable id Fits ({ q := { nBatchSize := 128 } } : CheckThreads Unit Bool) := .new 128
  have h1 := h0.step (.add [false] rfl (by unfold Fits pending; decide))
  have h2 := h1.step (.enter (some ()) rfl)
  have h3 := h2.step (.enter none rfl)
  have h4 := h3.step (.run (t := some ()) rfl)
  have h5 := h4.step (.next (t := some ()) rfl)
  have h6 := h5.step (.wake none rfl)
  ⟨_,rfl,(reachable_checked h6).2.2.2.1⟩

/-- With 2^32 checks in the queue the counter says that there are none. -/
theorem reachable_overflow : ∃ s : CheckThreads Unit Bool,
    Reachable id (fun _ _ => True) s ∧ s.q.nTodo.toNat ≠ s.pending := by
  have hmany : ∀ vChecks : List Bool, 2^32 ≤ vChecks.length →
      (CheckThreads.add { q := { nBatchSize := 128 } } vChecks : CheckThreads Unit Bool).q.nTodo.toNat
        < (CheckThreads.add { q := { nBatchSize := 128 } } vChecks :
            CheckThreads Unit Bool).pending := by
    intro vChecks hlen
    refine (UInt32.toNat_lt _).trans_le (hlen.trans ?_)
    simp [pending,CheckThreads.add,CCheckQueue.add]
  have hnew : Reachable id (fun _ _ => True)
      ({ q := { nBatchSize := 128 } } : CheckThreads Unit Bool) := .new 128
  refine ⟨_,hnew.step (.add (List.replicate (2^32) true) rfl trivial),(hmany _ ?_).ne⟩
  rw [List.length_replicate]

end CheckThreads

end Sidechain
