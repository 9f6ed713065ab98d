import Sidechain.Library.Selection
import Mathlib.Data.List.TakeWhile

/-! Ordered maps with several entries of one key, as lists in the order of the keys. -/
namespace Multimap
open Selection

/-- A comparison of keys. -/
structure WeakOrder (ν : Type) where
  less : ν → ν → Bool
  comparison : Comparison less

variable {ν β : Type} (order : WeakOrder ν)

/-- No entry stands behind a greater one. -/
def Sorted (l : List (ν × β)) : Prop := l.Pairwise fun a b => order.less b.1 a.1 = false

/-- The position of the first entry that is not below the key. -/
def lowerBound (v : ν) (l : List (ν × β)) : ℕ := (l.takeWhile fun e => order.less e.1 v).length

/-- The position of the first entry above the key. -/
def upperBound (v : ν) (l : List (ν × β)) : ℕ := (l.takeWhile fun e => !order.less v e.1).length

/-- A new entry stands behind those of the same key. -/
def insert (v : ν) (b : β) (l : List (ν × β)) : List (ν × β) :=
  l.take (upperBound order v l) ++ (v,b)::l.drop (upperBound order v l)

variable {order} {l : List (ν × β)} {v : ν} {b : β} {p : ℕ}

theorem WeakOrder.irrefl (order : WeakOrder ν) (v : ν) : order.less v v = false :=
  Bool.eq_false_iff.mpr (order.comparison.irrefl v)

theorem insert_perm : (insert order v b l).Perm ((v,b)::l) := by
  rw [insert]
  refine List.perm_middle.trans ?_
  rw [List.take_append_drop]

/-- The entries in front of the upper bound are not above the key, those behind are. -/
theorem Sorted.split (h : Sorted order l) (v : ν) :
    (∀ e ∈ l.take (upperBound order v l), order.less v e.1 = false) ∧
      ∀ e ∈ l.drop (upperBound order v l), order.less v e.1 = true := by
  have htake : l.take (upperBound order v l) = l.takeWhile fun e => !order.less v e.1 :=
    (List.prefix_iff_eq_take.mp (List.takeWhile_prefix _)).symm
  have hsplit := List.takeWhile_append_dropWhile (p := fun e => !order.less v e.1) (l := l)
  have hdrop : l.drop (upperBound order v l) = l.dropWhile fun e => !order.less v e.1 :=
    List.append_cancel_left ((List.take_append_drop _ l).trans (htake ▸ hsplit).symm)
  constructor
  · intro e he
    rw [htake] at he
    simpa using List.mem_takeWhile_imp he
  · intro e he
    rw [hdrop] at he
    have hsorted : Sorted order (l.dropWhile fun e => !order.less v e.1) :=
      h.sublist (List.dropWhile_sublist _)
    cases hlist : l.dropWhile fun e => !order.less v e.1 with
    | nil =>
      rw [hlist] at he
      exact nomatch he
    | cons c rest =>
      have hc := List.head?_dropWhile_not (fun e : ν × β => !order.less v e.1) l
      rw [hlist] at hc he hsorted
      have hc : order.less v c.1 = true := by simpa using hc
      obtain rfl | hbehind := List.mem_cons.mp he
      · exact hc
      · by_contra habove
        have hrel := List.rel_of_pairwise_cons hsorted hbehind
        rw [not_less_trans order.comparison hrel (Bool.eq_false_iff.mpr habove)] at hc
        exact nomatch hc

theorem Sorted.insert (h : Sorted order l) (v : ν) (b : β) : Sorted order (insert order v b l) := by
  obtain ⟨hfront,hback⟩ := h.split v
  have hparts := h
  rw [Sorted,← List.take_append_drop (upperBound order v l) l,List.pairwise_append] at hparts
  obtain ⟨htake,hdrop,hacross⟩ := hparts
  rw [Sorted,Multimap.insert,List.pairwise_append,List.pairwise_cons]
  refine ⟨htake,⟨fun e he => ?_,hdrop⟩,fun a ha e he => ?_⟩
  · by_contra hbelow
    rw [Bool.not_eq_false] at hbelow
    have hcycle := order.comparison.trans v e.1 v (hback e he) hbelow
    exact order.comparison.irrefl v hcycle
  · obtain rfl | he := List.mem_cons.mp he
    · exact hfront a ha
    · exact hacross a ha e he

theorem Sorted.bounds (h : Sorted order l) (hp : l[p]? = some (v,b)) :
    lowerBound order v l ≤ p ∧ p < upperBound order v l := by
  constructor
  · by_contra hbefore
    have htake : l.takeWhile (fun e => order.less e.1 v) =
        l.take (lowerBound order v l) := List.prefix_iff_eq_take.mp (List.takeWhile_prefix _)
    have hmem : (v,b) ∈ l.takeWhile fun e => order.less e.1 v := by
      rw [htake]
      refine List.mem_of_getElem? (i := p) ?_
      rw [List.getElem?_take_of_lt (not_le.mp hbefore),hp]
    have hbelow := List.mem_takeWhile_imp hmem
    change order.less v v = true at hbelow
    rw [order.irrefl] at hbelow
    exact nomatch hbelow
  · by_contra hbehind
    have hmem : (v,b) ∈ l.drop (upperBound order v l) := by
      refine List.mem_of_getElem? (i := p - upperBound order v l) ?_
      rw [List.getElem?_drop,Nat.add_sub_cancel' (not_lt.mp hbehind),hp]
    have habove := (h.split v).2 _ hmem
    rw [order.irrefl] at habove
    exact nomatch habove

theorem Sorted.front_least {e : ν × β} (h : Sorted order (e::l)) :
    ∀ x ∈ e::l, order.less x.1 e.1 = false :=
  List.forall_mem_cons.mpr ⟨order.irrefl e.1,(List.pairwise_cons.mp h).1⟩

end Multimap
