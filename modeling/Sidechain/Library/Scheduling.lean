import Mathlib.Data.Finset.Basic
import Mathlib.Data.List.Nodup
import Mathlib.Data.List.Perm.Basic

/-! Queues that give out a greatest element, and lists in which everything stands behind what it
needs. -/
namespace Scheduling

variable {α : Type}

/-- An element of a nonempty list that no later one exceeds and that exceeds all earlier ones, and
the other elements. -/
def popTop (less : α → α → Bool) : α → List α → α × List α
  | a,[] => (a,[])
  | a,b::l =>
    let p := popTop less b l
    if less a p.1 then (p.1,a::p.2) else (a,p.1::p.2)

theorem popTop_perm (less : α → α → Bool) (a : α) (l : List α) :
    ((popTop less a l).1::(popTop less a l).2).Perm (a::l) := by
  induction l generalizing a with
  | nil => exact .refl _
  | cons b l ih =>
    rw [popTop]
    split_ifs
    · exact (List.Perm.swap a (popTop less b l).1 (popTop less b l).2).trans ((ih b).cons a)
    · exact (ih b).cons a

theorem popTop_mem (less : α → α → Bool) (a : α) (l : List α) :
    (popTop less a l).1 ∈ a::l :=
  (popTop_perm less a l).mem_iff.mp List.mem_cons_self

theorem popTop_sub (less : α → α → Bool) (a : α) (l : List α) :
    (popTop less a l).2 ⊆ a::l := fun _ hx =>
  (popTop_perm less a l).mem_iff.mp (List.mem_cons_of_mem _ hx)

theorem popTop_length (less : α → α → Bool) (a : α) (l : List α) :
    (popTop less a l).2.length = l.length := by
  simpa using (popTop_perm less a l).length_eq

variable (needs : α → Finset α)

/-- Nothing is listed twice, and everything stands behind all it needs. -/
structure InOrder (l : List α) : Prop where
  nodup : l.Nodup
  needs_before : ∀ before x after, l = before ++ x::after → ∀ y ∈ needs x, y ∈ before

variable {needs} {l : List α}

theorem InOrder.nil : InOrder needs [] where
  nodup := List.nodup_nil
  needs_before before x after h := absurd h (by simp)

theorem InOrder.append (h : InOrder needs l) {x : α} (hnew : x ∉ l) (hneeds : ∀ y ∈ needs x, y ∈ l) :
    InOrder needs (l ++ [x]) where
  nodup := List.nodup_append.mpr ⟨h.nodup,List.nodup_singleton x,by
    rintro a ha b hb rfl
    exact hnew (List.mem_singleton.mp hb ▸ ha)⟩
  needs_before before y after heq := by
    rcases List.append_eq_append_iff.mp heq with ⟨more,hbefore,hmore⟩ | ⟨more,hl,hmore⟩
    · cases more with
      | nil =>
        obtain ⟨rfl,rfl⟩ := List.cons_eq_cons.mp hmore
        rw [hbefore,List.append_nil]
        exact hneeds
      | cons z more =>
        have hlen := congrArg List.length hmore
        simp at hlen
    · cases more with
      | nil =>
        obtain ⟨rfl,rfl⟩ := List.cons_eq_cons.mp hmore
        rw [List.append_nil] at hl
        exact hl ▸ hneeds
      | cons z more =>
        obtain ⟨rfl,rfl⟩ := List.cons_eq_cons.mp hmore
        exact h.needs_before before y more hl

end Scheduling
