import Mathlib.Data.List.Basic

/-! Segments handed out one on top of the other, as by an allocator that only moves forward, and
logs of such segments in several places. -/
namespace Stacked

structure Segment where
  start : ℕ
  size : ℕ
  deriving DecidableEq, Repr

def Segment.stop (s : Segment) : ℕ := s.start + s.size

/-- The segments lie one on top of the other, the first at zero, up to the given height. -/
inductive StackedTo : List Segment → ℕ → Prop
  | nil : StackedTo [] 0
  | push {segments : List Segment} {top : ℕ} (h : StackedTo segments top) (size : ℕ) :
      StackedTo (segments ++ [⟨top,size⟩]) (top + size)

namespace StackedTo

variable {segments : List Segment} {top : ℕ}

theorem stop_le (h : StackedTo segments top) : ∀ s ∈ segments, s.stop ≤ top := by
  induction h with
  | nil => exact fun s hs => nomatch hs
  | push h size ih =>
    intro s hs
    rcases List.mem_append.mp hs with hs | hs
    · exact Nat.le_trans (ih s hs) (Nat.le_add_right _ _)
    · rw [List.mem_singleton.mp hs]
      exact Nat.le_refl _

theorem pairwise (h : StackedTo segments top) :
    segments.Pairwise fun a b => a.stop ≤ b.start := by
  induction h with
  | nil => exact .nil
  | push h size ih =>
    refine List.pairwise_append.mpr ⟨ih,List.pairwise_singleton _ _,?_⟩
    intro a ha b hb
    rw [List.mem_singleton.mp hb]
    exact h.stop_le a ha

theorem top_eq (h : StackedTo segments top) :
    top = (segments.getLast?.map Segment.stop).getD 0 := by
  cases h with
  | nil => rfl
  | push h size => rw [List.getLast?_concat]; rfl

end StackedTo

variable {α κ : Type} [DecidableEq κ] {place : α → κ} {segment : α → Segment} {top : κ → ℕ}
  {log : List α}

/-- What was handed out in a place. -/
def at? (place : α → κ) (k : κ) (log : List α) : List α := log.filter fun a => place a = k

theorem at?_concat_of_eq {k : κ} {a : α} (h : place a = k) :
    at? place k (log ++ [a]) = at? place k log ++ [a] := by
  simp [at?,h]

theorem at?_concat_of_ne {k : κ} {a : α} (h : place a ≠ k) :
    at? place k (log ++ [a]) = at? place k log := by
  simp [at?,h]

theorem pairwise_at (place : α → κ) (segment : α → Segment)
    (h : ∀ k, StackedTo ((at? place k log).map segment) (top k)) :
    log.Pairwise fun a b => place a = place b → (segment a).stop ≤ (segment b).start := by
  rw [List.pairwise_iff_forall_sublist]
  intro a b hsub hplace
  have hpair : [a,b].Sublist (at? place (place b) log) := by
    have hfilter := hsub.filter fun x => decide (place x = place b)
    simpa [at?,hplace] using hfilter
  have hsegments := (h (place b)).pairwise.sublist (hpair.map segment)
  simpa using hsegments

end Stacked
