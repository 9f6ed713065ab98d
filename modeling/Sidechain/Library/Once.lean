import Mathlib.Data.List.Nodup
import Mathlib.Data.List.Infix

/-! Handling every item of a sequence of batches exactly once. A batch skips the items it knows
when it is handled, and knows at least those handled in batches before it. -/
namespace Sidechain.Once

variable {α : Type}

/-- The items of a batch and which of them it takes to be handled already. -/
structure Batch (α : Type) where
  items : List α
  known : α → Bool

def Batch.fresh (b : Batch α) : List α := b.items.filter fun a => !b.known a

/-- What batches, the latest first, have handled. -/
def handled (bs : List (Batch α)) : List α := bs.flatMap Batch.fresh

theorem Batch.mem_fresh {b : Batch α} {a : α} : a ∈ b.fresh ↔ a ∈ b.items ∧ b.known a = false := by
  rw [Batch.fresh,List.mem_filter,Bool.not_eq_true']

@[simp] theorem mem_handled_cons {b : Batch α} {bs : List (Batch α)} {a : α} :
    a ∈ handled (b::bs) ↔ a ∈ b.fresh ∨ a ∈ handled bs := by
  rw [handled,List.flatMap_cons,List.mem_append]
  rfl

theorem mem_items_of_mem_handled {bs : List (Batch α)} {a : α} (h : a ∈ handled bs) :
    ∃ b ∈ bs, a ∈ b.items := by
  obtain ⟨b,hb,ha⟩ := List.mem_flatMap.mp h
  exact ⟨b,hb,(Batch.mem_fresh.mp ha).1⟩

/-- A batch knows what was handled before it. -/
def Remembers (bs : List (Batch α)) : Prop :=
  ∀ b before, b::before <:+ bs → ∀ a ∈ handled before, b.known a = true

theorem remembers_nil : Remembers ([] : List (Batch α)) := by
  intro b before hs
  cases List.suffix_nil.mp hs

theorem remembers_cons {b : Batch α} {bs : List (Batch α)} :
    Remembers (b::bs) ↔ (∀ a ∈ handled bs, b.known a = true) ∧ Remembers bs := by
  constructor
  · exact fun h => ⟨h b bs List.suffix_rfl,
      fun c before hs => h c before (hs.trans (List.suffix_cons b bs))⟩
  · rintro ⟨hb,hbs⟩ c before hs
    rcases List.suffix_cons_iff.mp hs with heq | hs
    · cases heq
      exact hb
    · exact hbs c before hs

/-- A batch adds no item twice, and what it skips was handled. -/
structure Batch.Clean (b : Batch α) (before : List (Batch α)) : Prop where
  nodup : b.fresh.Nodup
  skipped : ∀ a ∈ b.items, b.known a = true → a ∈ handled before

variable [DecidableEq α]

/-- Every item that came in some batch was handled exactly once. -/
def ExactlyOnce (bs : List (Batch α)) : Prop :=
  ∀ a, (∃ b ∈ bs, a ∈ b.items) → (handled bs).count a = 1

@[simp] theorem count_handled_cons (b : Batch α) (bs : List (Batch α)) (a : α) :
    (handled (b::bs)).count a = b.fresh.count a + (handled bs).count a := by
  rw [handled,List.flatMap_cons,List.count_append]
  rfl

theorem ExactlyOnce.cons {b : Batch α} {bs : List (Batch α)} (h : ExactlyOnce bs)
    (hknown : ∀ a ∈ handled bs, b.known a = true) (hclean : b.Clean bs) :
    ExactlyOnce (b::bs) := by
  rintro a ⟨c,hc,ha⟩
  rw [count_handled_cons]
  by_cases hfresh : a ∈ b.fresh
  · have hold : a ∉ handled bs := by
      intro hmem
      rw [Batch.mem_fresh,hknown a hmem] at hfresh
      cases hfresh.2
    rw [List.count_eq_one_of_mem hclean.nodup hfresh,List.count_eq_zero_of_not_mem hold]
  · rw [List.count_eq_zero_of_not_mem hfresh,Nat.zero_add]
    rcases List.mem_cons.mp hc with rfl | hc
    · -- the batch skipped the item
      have hskip : c.known a = true := by
        by_contra hnew
        exact hfresh (Batch.mem_fresh.mpr ⟨ha,by simpa using hnew⟩)
      exact h a (mem_items_of_mem_handled (hclean.skipped a ha hskip))
    · exact h a ⟨c,hc,ha⟩

theorem ExactlyOnce.clean {b : Batch α} {bs : List (Batch α)} (h : ExactlyOnce (b::bs)) :
    b.Clean bs := by
  have hcount : ∀ a ∈ b.items, b.fresh.count a + (handled bs).count a = 1 := by
    intro a ha
    rw [← count_handled_cons]
    exact h a ⟨b,List.mem_cons_self,ha⟩
  constructor
  · refine List.nodup_iff_count_le_one.mpr fun a => ?_
    by_cases ha : a ∈ b.fresh
    · have := hcount a (Batch.mem_fresh.mp ha).1
      omega
    · rw [List.count_eq_zero_of_not_mem ha]
      exact Nat.zero_le 1
  · intro a ha hskip
    have hnot : a ∉ b.fresh := by
      rw [Batch.mem_fresh,hskip]
      simp
    have hone := hcount a ha
    rw [List.count_eq_zero_of_not_mem hnot] at hone
    exact List.count_pos_iff.mp (by omega)

theorem exactlyOnce_iff {bs : List (Batch α)} (hmem : Remembers bs) :
    (∀ cs, cs <:+ bs → ExactlyOnce cs) ↔ ∀ b before, b::before <:+ bs → b.Clean before := by
  constructor
  · exact fun h b before hs => (h _ hs).clean
  · intro h cs
    induction cs with
    | nil =>
      rintro _ a ⟨b,hb,_⟩
      cases hb
    | cons b cs ih =>
      intro hs
      exact (ih ((List.suffix_cons b cs).trans hs)).cons (hmem b cs hs) (h b cs hs)

end Sidechain.Once
