import Mathlib.Data.Finset.Card
import Mathlib.Data.List.Sort
import Mathlib.Logic.Relation

/-! Sets that are gone through in an order, and the traversal of a finite graph from a set of
waiting elements: what is known while some elements still wait, and what has been found when none is
left. A loop over an ordered map that moves its iterator on before it deals with an element may
erase that element: it still goes through the keys there were at the start. -/
namespace Worklist

variable {α : Type}

/-- A way to list the elements of a set. -/
structure Enumeration (α : Type) where
  list : Finset α → List α
  mem_list : ∀ {s x}, x ∈ list s ↔ x ∈ s
  nodup : ∀ s, (list s).Nodup

/-- The elements in the order of a relation. -/
def Enumeration.ofOrder (r : α → α → Prop) [DecidableRel r] [IsTrans α r] [Std.Total r]
    [Std.Antisymm r] : Enumeration α where
  list s := Quot.liftOn s.1 (List.insertionSort r) fun as bs h =>
    List.Perm.eq_of_pairwise (fun _ _ _ _ hab hba => Std.Antisymm.antisymm _ _ hab hba)
      (List.pairwise_insertionSort r as) (List.pairwise_insertionSort r bs)
      ((List.perm_insertionSort r as).trans (h.trans (List.perm_insertionSort r bs).symm))
  mem_list := by
    rintro ⟨⟨l⟩,hl⟩ x
    exact (List.perm_insertionSort r l).mem_iff
  nodup := by
    rintro ⟨⟨l⟩,hl⟩
    exact (List.perm_insertionSort r l).nodup_iff.mpr hl

theorem Enumeration.list_nil {E : Enumeration α} {s : Finset α} (h : E.list s = []) : s = ∅ :=
  Finset.eq_empty_of_forall_notMem fun x hx => by
    have hmem := E.mem_list.mpr hx
    rw [h] at hmem
    cases hmem

theorem Enumeration.mem_of_head {E : Enumeration α} {s : Finset α} {x : α} {xs : List α}
    (h : E.list s = x::xs) : x ∈ s :=
  E.mem_list.mp (h ▸ List.mem_cons_self)

@[simp] theorem Enumeration.length_list [DecidableEq α] (E : Enumeration α) (s : Finset α) :
    (E.list s).length = s.card := by
  have hset : (E.list s).toFinset = s := by
    ext x
    rw [List.mem_toFinset,E.mem_list]
  rw [← List.toFinset_card_of_nodup (E.nodup s),hset]

variable (next : α → Finset α)

/-- A path of any length. -/
def Reaches (a b : α) : Prop := Relation.ReflTransGen (fun x y => y ∈ next x) a b

variable {next}

theorem Reaches.refl (a : α) : Reaches next a a := Relation.ReflTransGen.refl

theorem Reaches.tail {a b c : α} (h : Reaches next a b) (hc : c ∈ next b) : Reaches next a c :=
  Relation.ReflTransGen.tail h hc

theorem Reaches.mem_of_closed {s : Finset α} (hs : ∀ x ∈ s, next x ⊆ s) {a b : α}
    (h : Reaches next a b) (ha : a ∈ s) : b ∈ s := by
  induction h with
  | refl => exact ha
  | tail _ hc ih => exact hs _ ih hc

/-- Paths of a graph and of the graph with its edges turned round. -/
theorem Reaches.swap {prev : α → Finset α} (h : ∀ x y, y ∈ next x → x ∈ prev y) {a b : α}
    (hab : Reaches next a b) : Reaches prev b a := by
  induction hab with
  | refl => exact .refl _
  | tail _ hc ih => exact Relation.ReflTransGen.head (h _ _ hc) ih

section
variable {next' : α → Finset α}

/-- No path leads back to where it began. -/
def Acyclic (next : α → Finset α) : Prop := ∀ x, ∀ y ∈ next x, ¬ Reaches next y x

theorem Reaches.mono (h : ∀ x y, y ∈ next x → y ∈ next' x) {a b : α} (hab : Reaches next a b) :
    Reaches next' a b := Relation.ReflTransGen.mono h _ _ hab

theorem Reaches.eq_of_sink {a b : α} (hsink : ∀ y, y ∉ next a) (hab : Reaches next a b) :
    b = a := by
  rcases Relation.ReflTransGen.cases_head hab with heq | ⟨y,hy,_⟩
  · exact heq.symm
  · exact absurd hy (hsink y)

section
variable {new : α} {into : α → Prop}
  (hedge : ∀ x y, y ∈ next' x ↔ y ∈ next x ∨ (y = new ∧ into x)) (hsink : ∀ y, y ∉ next' new)
include hedge hsink

theorem reaches_insert {a b : α} : Reaches next' a b ↔
    Reaches next a b ∨ (b = new ∧ ∃ p, into p ∧ Reaches next a p) := by
  have hmono : ∀ x y, y ∈ next x → y ∈ next' x := fun x y hy => (hedge x y).mpr (.inl hy)
  constructor
  · intro h
    induction h with
    | refl => exact .inl (.refl a)
    | tail _ hc ih =>
      rcases ih with ih | ⟨rfl,_⟩
      · rcases (hedge _ _).mp hc with hc | ⟨rfl,hinto⟩
        · exact .inl (ih.tail hc)
        · exact .inr ⟨rfl,_,hinto,ih⟩
      · exact absurd hc (hsink _)
  · rintro (h | ⟨rfl,p,hinto,h⟩)
    · exact h.mono hmono
    · exact (h.mono hmono).tail ((hedge p b).mpr (.inr ⟨rfl,hinto⟩))

theorem Acyclic.insert (hacyclic : Acyclic next) : Acyclic next' := by
  intro x y hy hback
  have hx : x ≠ new := fun hx => hsink y (hx ▸ hy)
  rcases (hedge x y).mp hy with hy | ⟨rfl,_⟩
  · rcases (reaches_insert hedge hsink).mp hback with hback | ⟨hx',_⟩
    · exact hacyclic x y hy hback
    · exact hx hx'
  · exact hx (hback.eq_of_sink hsink)

end

section
variable {gone : α → Prop} (hedge : ∀ x y, y ∈ next' x ↔ y ∈ next x ∧ ¬ gone x ∧ ¬ gone y)
include hedge

theorem Acyclic.remove (hacyclic : Acyclic next) : Acyclic next' := fun x y hy hback =>
  hacyclic x y ((hedge x y).mp hy).1 (hback.mono fun x y hy => ((hedge x y).mp hy).1)

/-- Elements between which nothing is lost reach one another as before. -/
theorem reaches_remove {a b : α} (ha : ¬ gone a)
    (hconvex : ∀ r, gone r → ∀ b, ¬ gone b → Reaches next a r → ¬ Reaches next r b) :
    Reaches next' a b ↔ Reaches next a b ∧ ¬ gone b := by
  constructor
  · intro h
    refine ⟨h.mono fun x y hy => ((hedge x y).mp hy).1,?_⟩
    rcases Relation.ReflTransGen.cases_tail h with heq | ⟨m,_,hm⟩
    · exact heq ▸ ha
    · exact ((hedge m b).mp hm).2.2
  · rintro ⟨h,hb⟩
    induction h with
    | refl => exact .refl a
    | @tail m c ham hc ih =>
      have hm : ¬ gone m := fun hm => hconvex m hm c hb ham ((Reaches.refl m).tail hc)
      exact (ih hm).tail ((hedge m c).mpr ⟨hc,hm,hb⟩)

end

end

variable [DecidableEq α]

/-- What is known while the elements of `stage` wait and those of `done` are dealt with. Those of
`known` were there before, those of `start` are what the traversal began with. -/
structure Frontier (next : α → Finset α) (known start stage done : Finset α) : Prop where
  known_sub : known ⊆ done
  start_sub : start ⊆ stage ∪ done
  closed : ∀ x ∈ done, next x ⊆ stage ∪ done
  disjoint : ∀ x ∈ stage, x ∉ done
  reached : ∀ x ∈ stage ∪ done, x ∈ known ∨ ∃ s ∈ start, Reaches next s x

variable {known start stage done : Finset α}

theorem Frontier.init (hknown : ∀ x ∈ known, next x ⊆ known) :
    Frontier next known start (start \ known) known where
  known_sub := subset_rfl
  start_sub x hx := by
    by_cases hk : x ∈ known <;> simp [hx,hk]
  closed x hx := (hknown x hx).trans Finset.subset_union_right
  disjoint x hx := (Finset.mem_sdiff.mp hx).2
  reached x hx := by
    rcases Finset.mem_union.mp hx with hx | hx
    · exact .inr ⟨x,(Finset.mem_sdiff.mp hx).1,.refl x⟩
    · exact .inl hx

/-- The elements waiting after `x` has been dealt with. -/
def after (next : Finset α) (x : α) (stage done : Finset α) : Finset α :=
  stage.erase x ∪ (next \ insert x done)

theorem mem_after {ys : Finset α} {x y : α} : y ∈ after ys x stage done ↔
    (y ≠ x ∧ y ∈ stage) ∨ (y ∈ ys ∧ y ≠ x ∧ y ∉ done) := by
  simp [after]

theorem Frontier.step (h : Frontier next known start stage done) {x : α} (hx : x ∈ stage) :
    Frontier next known start (after (next x) x stage done) (insert x done) where
  known_sub := h.known_sub.trans (Finset.subset_insert x done)
  start_sub y hy := by
    have := h.start_sub hy
    simp only [Finset.mem_union,Finset.mem_insert,mem_after] at this ⊢
    tauto
  closed y hy z hz := by
    simp only [Finset.mem_union,Finset.mem_insert,mem_after]
    rcases Finset.mem_insert.mp hy with rfl | hy
    · tauto
    · have := h.closed y hy hz
      rw [Finset.mem_union] at this
      tauto
  disjoint y hy := by
    have := h.disjoint y
    simp only [Finset.mem_insert,mem_after] at hy ⊢
    tauto
  reached y hy := by
    simp only [Finset.mem_union,Finset.mem_insert,mem_after] at hy
    have hold : y ∈ stage ∪ done → y ∈ known ∨ ∃ s ∈ start, Reaches next s y := h.reached y
    rw [Finset.mem_union] at hold
    rcases hy with (⟨_,hy⟩ | ⟨hy,_,_⟩) | (rfl | hy)
    · exact hold (.inl hy)
    · rcases h.reached x (Finset.mem_union_left _ hx) with hk | ⟨s,hs,hreach⟩
      · exact absurd (h.known_sub hk) (h.disjoint x hx)
      · exact .inr ⟨s,hs,hreach.tail hy⟩
    · exact hold (.inl hx)
    · exact hold (.inr hy)

/-- When nothing waits, everything that can be reached has been found, and nothing else. -/
theorem Frontier.finish (h : Frontier next known start ∅ done) (x : α) :
    x ∈ done ↔ x ∈ known ∨ ∃ s ∈ start, Reaches next s x := by
  have hclosed : ∀ y ∈ done, next y ⊆ done := by simpa using h.closed
  constructor
  · exact fun hx => h.reached x (by simpa using hx)
  · rintro (hx | ⟨s,hs,hreach⟩)
    · exact h.known_sub hx
    · exact hreach.mem_of_closed hclosed (by simpa using h.start_sub hs)

/-- A traversal stays within a universe that no edge leaves. -/
theorem Frontier.subset {univ : Finset α} (h : Frontier next known start stage done)
    (hknown : known ⊆ univ) (hstart : start ⊆ univ) (hnext : ∀ x ∈ univ, next x ⊆ univ) :
    stage ∪ done ⊆ univ := by
  intro x hx
  rcases h.reached x hx with hk | ⟨s,hs,hreach⟩
  · exact hknown hk
  · exact hreach.mem_of_closed hnext (hstart hs)

/-- Nothing waits when the whole universe has been dealt with. -/
theorem Frontier.exhausted {univ : Finset α} (h : Frontier next known start stage done)
    (huniv : stage ∪ done ⊆ univ) (hcard : (univ \ done).card = 0) : stage = ∅ :=
  Finset.eq_empty_of_forall_notMem fun x hx => h.disjoint x hx
    (Finset.sdiff_eq_empty_iff_subset.mp (Finset.card_eq_zero.mp hcard)
      (huniv (Finset.mem_union_left _ hx)))

theorem Frontier.card_lt {univ : Finset α} (h : Frontier next known start stage done)
    (huniv : stage ∪ done ⊆ univ) {x : α} (hx : x ∈ stage) :
    (univ \ insert x done).card < (univ \ done).card := by
  refine Finset.card_lt_card (Finset.ssubset_iff_subset_ne.mpr ⟨?_,fun heq => ?_⟩)
  · exact Finset.sdiff_subset_sdiff subset_rfl (Finset.subset_insert x done)
  · have hmem : x ∈ univ \ done :=
      Finset.mem_sdiff.mpr ⟨huniv (Finset.mem_union_left _ hx),h.disjoint x hx⟩
    rw [← heq] at hmem
    exact (Finset.mem_sdiff.mp hmem).2 (Finset.mem_insert_self x done)

end Worklist

namespace Iteration
open Worklist

variable {κ σ : Type} (r : κ → κ → Prop) [DecidableRel r] [IsTrans κ r] [Std.Total r]
  [Std.Antisymm r]

/-- The keys as an iterator meets them. -/
def inOrder (s : Finset κ) : List κ := (Enumeration.ofOrder r).list s

/-- The first key; there is none at the end. -/
def begin (s : Finset κ) : Option κ := (inOrder r s).head?

/-- The first key that is not less. -/
def lowerBound (s : Finset κ) (x : κ) : Option κ := (inOrder r s).find? fun k => decide (r x k)

/-- The key an iterator is moved on to. -/
def next (s : Finset κ) (x : κ) : Option κ := (inOrder r s).find? fun k => !decide (r k x)

/-- The loop, for as many rounds at most. -/
def visit (keys : σ → Finset κ) (body : σ → κ → σ) : ℕ → Option κ → σ → σ
  | 0,_,s => s
  | _ + 1,none,s => s
  | fuel + 1,some k,s => visit keys body fuel (next r (keys s) k) (body s k)

variable {r}

@[simp] theorem mem_inOrder {s : Finset κ} {x : κ} : x ∈ inOrder r s ↔ x ∈ s :=
  (Enumeration.ofOrder r).mem_list

theorem nodup_inOrder (s : Finset κ) : (inOrder r s).Nodup := (Enumeration.ofOrder r).nodup s

@[simp] theorem length_inOrder [DecidableEq κ] (s : Finset κ) : (inOrder r s).length = s.card := by
  have h : (inOrder r s).toFinset = s := by
    ext x
    simp
  rw [← List.toFinset_card_of_nodup (nodup_inOrder s),h]

theorem pairwise_inOrder (s : Finset κ) : (inOrder r s).Pairwise r := by
  obtain ⟨⟨l⟩,hl⟩ := s
  exact List.pairwise_insertionSort r l

theorem inOrder_eq {s : Finset κ} {l : List κ} (hsorted : l.Pairwise r) (hnodup : l.Nodup)
    (hmem : ∀ x, x ∈ l ↔ x ∈ s) : inOrder r s = l := by
  refine List.Perm.eq_of_pairwise (fun _ _ _ _ => Std.Antisymm.antisymm _ _) (pairwise_inOrder s)
    hsorted ?_
  rw [List.perm_ext_iff_of_nodup (nodup_inOrder s) hnodup]
  exact fun x => by rw [mem_inOrder,hmem x]

theorem begin_eq_none {s : Finset κ} : begin r s = none ↔ s = ∅ := by
  rw [begin,List.head?_eq_none_iff]
  exact ⟨fun h => Enumeration.list_nil h,fun h => inOrder_eq .nil .nil (by simp [h])⟩

theorem mem_of_begin {s : Finset κ} {k : κ} (h : begin r s = some k) : k ∈ s :=
  mem_inOrder.mp (List.mem_of_head? h)

theorem mem_of_lowerBound {s : Finset κ} {x k : κ} (h : lowerBound r s x = some k) : k ∈ s :=
  mem_inOrder.mp (List.mem_of_find?_eq_some h)

theorem next_of_inOrder {s : Finset κ} {before rest : List κ} {k : κ}
    (h : inOrder r s = before ++ k::rest) : next r s k = rest.head? := by
  have hsorted := pairwise_inOrder (r := r) s
  have hnodup := nodup_inOrder (r := r) s
  rw [h] at hsorted hnodup
  rw [List.pairwise_append,List.pairwise_cons] at hsorted
  rw [List.nodup_append,List.nodup_cons] at hnodup
  have hbefore : before.find? (fun x => !decide (r x k)) = none := by
    rw [List.find?_eq_none]
    intro x hx
    simpa using hsorted.2.2 x hx k (by simp)
  have hk : r k k := by simpa using Std.Total.total (r := r) k k
  rw [next,h,List.find?_append,hbefore,Option.none_or,List.find?_cons_of_neg (by simpa using hk)]
  cases rest with
  | nil => rfl
  | cons y ys =>
    refine List.find?_cons_of_pos ?_
    have hne : y ≠ k := fun he => hnodup.2.1.1 (he ▸ List.mem_cons_self)
    simp only [Bool.not_eq_eq_eq_not,Bool.not_true,decide_eq_false_iff_not]
    exact fun hyk => hne (Std.Antisymm.antisymm _ _ hyk (hsorted.2.1.1 y (by simp)))

theorem inOrder_erase [DecidableEq κ] {s : Finset κ} {before rest : List κ} {k : κ}
    (h : inOrder r s = before ++ k::rest) : inOrder r (s.erase k) = before ++ rest := by
  have hnodup := nodup_inOrder (r := r) s
  have hsorted := pairwise_inOrder (r := r) s
  rw [h] at hnodup hsorted
  have hsub : (before ++ rest).Sublist (before ++ k::rest) :=
    (List.sublist_cons_self k rest).append_left before
  have hk : k ∉ before ++ rest := (List.nodup_middle.mp hnodup).notMem
  refine inOrder_eq (hsorted.sublist hsub) (hnodup.sublist hsub) fun x => ?_
  rw [Finset.mem_erase,← mem_inOrder (r := r) (s := s),h]
  simp only [List.mem_append,List.mem_cons] at hk ⊢
  constructor
  · exact fun hmem => ⟨fun he => hk (he ▸ hmem),by tauto⟩
  · tauto

section
variable [DecidableEq κ] {keys : σ → Finset κ} (body : σ → κ → σ) {P : σ → Prop}
  (hkeep : ∀ s k, P s → k ∈ keys s →
    P (body s k) ∧ (keys (body s k) = keys s ∨ keys (body s k) = (keys s).erase k))
include hkeep

theorem visit_rest {rest : List κ} : ∀ {fuel : ℕ} {before : List κ} {s : σ},
    P s → inOrder r (keys s) = before ++ rest → rest.length ≤ fuel →
      visit r keys body fuel rest.head? s = rest.foldl body s := by
  induction rest with
  | nil =>
    intro fuel before s _ _ _
    cases fuel <;> rfl
  | cons k rest ih =>
    intro fuel before s hs hlist hfuel
    cases fuel with
    | zero => simp at hfuel
    | succ fuel =>
      have hk : k ∈ keys s := by
        rw [← mem_inOrder (r := r),hlist]
        simp
      obtain ⟨hbody,hkeys⟩ := hkeep s k hs hk
      have hlist' : ∃ before', inOrder r (keys (body s k)) = before' ++ rest := by
        rcases hkeys with hkeys | hkeys
        · exact ⟨before ++ [k],by rw [hkeys,hlist,List.append_assoc,List.singleton_append]⟩
        · exact ⟨before,by rw [hkeys,inOrder_erase hlist]⟩
      obtain ⟨before',hlist'⟩ := hlist'
      rw [List.head?_cons,visit,next_of_inOrder hlist,
        ih hbody hlist' (Nat.le_of_succ_le_succ hfuel),List.foldl_cons]

/-- A loop whose body erases the current key at most deals with each key of the start once. -/
theorem visit_eq_foldl {s : σ} (hs : P s) :
    visit r keys body (keys s).card (begin r (keys s)) s
      = (inOrder r (keys s)).foldl body s :=
  visit_rest body hkeep hs (List.nil_append _).symm (length_inOrder (keys s)).le

end

end Iteration
