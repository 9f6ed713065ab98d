import Mathlib.Data.Multiset.Basic
import Mathlib.Data.UInt

/-! A queue of checks that several threads run. Each thread goes through sections that hold the
lock; in between it runs the checks it has taken. The thread `none` is the master. -/
namespace Sidechain

/-- `queue` is a stack, its back first. -/
structure CCheckQueue (T : Type) where
  queue : List T := []
  nIdle : ℤ := 0
  nTotal : ℤ := 0
  fAllOk : Bool := true
  nTodo : UInt32 := 0
  fQuit : Bool := false
  nBatchSize : ℕ

namespace CCheckQueue
variable {T : Type}

def add (q : CCheckQueue T) (vChecks : List T) : CCheckQueue T :=
  { q with
    queue := vChecks.reverse ++ q.queue
    nTodo := q.nTodo + UInt32.ofNat vChecks.length }

/-- The start of a section: what the thread has done is counted, or the thread itself. -/
def cleanUp (q : CCheckQueue T) (nNow : ℕ) (fOk : Bool) : CCheckQueue T :=
  if nNow ≠ 0 then { q with fAllOk := q.fAllOk && fOk, nTodo := q.nTodo - UInt32.ofNat nNow }
  else { q with nTotal := q.nTotal + 1 }

def batchSize (q : CCheckQueue T) : ℕ :=
  max 1 (min q.nBatchSize (q.queue.length % 2^32 / (q.nTotal + q.nIdle + 1).toNat))

def IsIdle (q : CCheckQueue T) : Bool := q.nTotal == q.nIdle && q.nTodo == 0 && q.fAllOk

end CCheckQueue

/-- Where a thread is in `Loop`. -/
inductive LoopPhase (T : Type) where
  | outside
  | locked
  | waiting
  | working (vChecks : List T) (nNow : ℕ) (fOk : Bool)

/-- The checks added for one `Wait`, those of them that were run, and what it returned. -/
structure CheckRound (T : Type) where
  added : Multiset T
  ran : Multiset T
  fRet : Bool

/-- The queue and its threads. `notified` is whether the master has been notified since it waits;
`added`, `ran` and `skipped` tell the checks since the last `Wait`, and `rounds` what there was up
to it. -/
structure CheckThreads (ι T : Type) where
  q : CCheckQueue T
  thread : Option ι → LoopPhase T := fun _ => .outside
  notified : Bool := false
  added : Multiset T := 0
  ran : Multiset T := 0
  skipped : Multiset T := 0
  rounds : List (CheckRound T) := []

namespace CheckThreads
variable {ι T : Type} [DecidableEq ι]

def add (s : CheckThreads ι T) (vChecks : List T) : CheckThreads ι T :=
  { s with q := s.q.add vChecks, added := s.added + vChecks }

/-- `Loop` returns. After the master has, a new round begins. -/
def leave (s : CheckThreads ι T) (t : Option ι) : CheckThreads ι T :=
  let s' := { s with
    q := { s.q with nTotal := s.q.nTotal - 1, fAllOk := s.q.fAllOk || t.isNone }
    thread := Function.update s.thread t .outside }
  if t.isNone then
    { s' with added := 0, ran := 0, skipped := 0,
              rounds := ⟨s.added,s.ran,s.q.fAllOk⟩::s.rounds }
  else s'

/-- The thread releases the lock until it is woken. -/
def wait (s : CheckThreads ι T) (t : Option ι) : CheckThreads ι T :=
  { s with
    q := { s.q with nIdle := s.q.nIdle + 1 }
    thread := Function.update s.thread t .waiting
    notified := s.notified && t.isSome }

/-- The thread takes a batch. -/
def take (s : CheckThreads ι T) (t : Option ι) : CheckThreads ι T :=
  { s with
    q := { s.q with queue := s.q.queue.drop s.q.batchSize }
    thread := Function.update s.thread t
      (.working (s.q.queue.take s.q.batchSize) s.q.batchSize s.q.fAllOk) }

/-- A section from the test of the queue on. -/
def turn (s : CheckThreads ι T) (t : Option ι) : CheckThreads ι T :=
  if s.q.queue.isEmpty then
    if (t.isNone || s.q.fQuit) && s.q.nTodo == 0 then s.leave t else s.wait t
  else s.take t

/-- The thread has the lock again and counts what it has done. A worker that leaves nothing to do
notifies the master. -/
def settle (s : CheckThreads ι T) (t : Option ι) (nNow : ℕ) (fOk : Bool) : CheckThreads ι T :=
  let q := s.q.cleanUp nNow fOk
  { s with
    q
    thread := Function.update s.thread t .locked
    notified := s.notified || (nNow != 0 && q.nTodo == 0 && t.isSome) }

def awake (s : CheckThreads ι T) (t : Option ι) : CheckThreads ι T :=
  { s with
    q := { s.q with nIdle := s.q.nIdle - 1 }
    thread := Function.update s.thread t .locked }

/-- One check is run, or skipped after a failure. -/
def execute (check : T → Bool) (s : CheckThreads ι T) (t : Option ι) (c : T) (rest : List T)
    (nNow : ℕ) (fOk : Bool) : CheckThreads ι T :=
  let s' := { s with thread := Function.update s.thread t (.working rest nNow (fOk && check c)) }
  if fOk then { s' with ran := c ::ₘ s.ran } else { s' with skipped := c ::ₘ s.skipped }

/-- What may happen next. The master adds checks while it is not in `Wait`; a thread that waits may
be woken at any time. -/
inductive Step (check : T → Bool) (allowed : CheckThreads ι T → List T → Prop)
    (s : CheckThreads ι T) : CheckThreads ι T → Prop
  | add (vChecks) (master : s.thread none = .outside) (ok : allowed s vChecks) :
      Step check allowed s (s.add vChecks)
  | enter (t) (outside : s.thread t = .outside) :
      Step check allowed s ((s.settle t 0 true).turn t)
  | wake (t) (waiting : s.thread t = .waiting) : Step check allowed s ((s.awake t).turn t)
  | run {t c rest nNow fOk} (working : s.thread t = .working (c::rest) nNow fOk) :
      Step check allowed s (s.execute check t c rest nNow fOk)
  | next {t nNow fOk} (done : s.thread t = .working [] nNow fOk) :
      Step check allowed s ((s.settle t nNow fOk).turn t)

/-- Any number of workers, from a queue that is new. -/
inductive Reachable (check : T → Bool) (allowed : CheckThreads ι T → List T → Prop) :
    CheckThreads ι T → Prop
  | new (nBatchSize : ℕ) : Reachable check allowed { q := { nBatchSize } }
  | step {s s'} (h : Reachable check allowed s) (next : Step check allowed s s') :
      Reachable check allowed s'

end CheckThreads

/-- How many checks a thread has taken and not counted yet. -/
def LoopPhase.held {T : Type} : LoopPhase T → ℕ
  | .working _ nNow _ => nNow
  | _ => 0

end Sidechain
