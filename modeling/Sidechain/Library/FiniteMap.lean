import Mathlib.Algebra.BigOperators.Group.Finset.Basic
import Mathlib.Algebra.Order.BigOperators.Group.Finset
import Mathlib.Data.Finmap
import Mathlib.Data.Finset.Card
import Mathlib.Data.Fintype.EquivFin
import Mathlib.Data.Int.Basic
import Mathlib.Data.Finset.Sort
import Mathlib.Data.List.ProdSigma

/-! Finite maps: what is found after an entry was written or erased, the number of entries with a
property, and lists of all entries. The number is followed as a counter that may be decremented, so
it is an integer. -/
namespace FiniteMap

section
variable {α κ ν : Type} [DecidableEq κ]

theorem lookup_insert_cases {m : Finmap fun _ : κ => ν} {k a : κ} {v x : ν}
    (h : (m.insert k v).lookup a = some x) : (a = k ∧ x = v) ∨ (a ≠ k ∧ m.lookup a = some x) := by
  by_cases ha : a = k
  · subst ha
    rw [Finmap.lookup_insert,Option.some.injEq] at h
    exact .inl ⟨rfl,h.symm⟩
  · rw [Finmap.lookup_insert_of_ne _ ha] at h
    exact .inr ⟨ha,h⟩

theorem lookup_of_erase {m : Finmap fun _ : κ => ν} {k a : κ} {x : ν}
    (h : (m.erase k).lookup a = some x) : a ≠ k ∧ m.lookup a = some x := by
  by_cases ha : a = k
  · rw [ha,Finmap.lookup_erase] at h
    cases h
  · rw [Finmap.lookup_erase_ne ha] at h
    exact ⟨ha,h⟩

theorem erase_insert_of_new {m : Finmap fun _ : κ => ν} {k : κ} {v : ν} (h : m.lookup k = none) :
    (m.insert k v).erase k = m := by
  refine Finmap.ext_lookup fun x => ?_
  by_cases hx : x = k
  · rw [hx,Finmap.lookup_erase,h]
  · rw [Finmap.lookup_erase_ne hx,Finmap.lookup_insert_of_ne _ hx]

theorem erase_insert_of_ne {m : Finmap fun _ : κ => ν} {k a : κ} {v : ν} (h : a ≠ k) :
    (m.insert k v).erase a = (m.erase a).insert k v := by
  refine Finmap.ext_lookup fun b => ?_
  by_cases hba : b = a
  · rw [hba,Finmap.lookup_erase,Finmap.lookup_insert_of_ne _ h,Finmap.lookup_erase]
  · rw [Finmap.lookup_erase_ne hba]
    by_cases hbk : b = k
    · rw [hbk,Finmap.lookup_insert,Finmap.lookup_insert]
    · rw [Finmap.lookup_insert_of_ne _ hbk,Finmap.lookup_insert_of_ne _ hbk,
        Finmap.lookup_erase_ne hba]

theorem exists_new [Infinite κ] (m : Finmap fun _ : κ => ν) : ∃ k, m.lookup k = none := by
  obtain ⟨k,hk⟩ := Infinite.exists_notMem_finset m.keys
  exact ⟨k,Finmap.lookup_eq_none.mpr fun h => hk (Finmap.mem_keys.mpr h)⟩

theorem forall_insert {P : κ → ν → Prop} {m : Finmap fun _ : κ => ν} {k : κ} {v : ν} (hnew : P k v)
    (hothers : ∀ a, a ≠ k → ∀ x, m.lookup a = some x → P a x) (a : κ) (x : ν)
    (h : (m.insert k v).lookup a = some x) : P a x := by
  rcases lookup_insert_cases h with ⟨rfl,rfl⟩ | ⟨ha,h⟩
  · exact hnew
  · exact hothers a ha x h

theorem lookup_foldl_erase {f : α → κ} {as : List α} {m : Finmap fun _ : κ => ν} {k : κ} :
    (as.foldl (fun m a => m.erase (f a)) m).lookup k =
      if ∃ a ∈ as, f a = k then none else m.lookup k := by
  induction as generalizing m with
  | nil => simp
  | cons a as ih =>
    rw [List.foldl_cons,ih]
    by_cases ha : k = f a
    · subst ha
      simp
    · rw [Finmap.lookup_erase_ne ha]
      simp only [List.exists_mem_cons_iff,Ne.symm ha,false_or]

/-- How many entries have the property. -/
def tally (p : ν → Bool) (m : Finmap fun _ : κ => ν) : ℕ :=
  (m.keys.filter fun k => (m.lookup k).any p).card

variable {p : ν → Bool} {m : Finmap fun _ : κ => ν} {k : κ} {v old : ν}

@[simp] theorem tally_empty : tally p (∅ : Finmap fun _ : κ => ν) = 0 := by
  simp [tally]

theorem tally_of_keys (h : m.keys = ∅) : tally p m = 0 := by
  rw [tally,h,Finset.filter_empty,Finset.card_empty]

/-- The number depends only on which keys have an entry with the property. -/
theorem tally_congr {m' : Finmap fun _ : κ => ν}
    (h : ∀ a, (m'.lookup a).any p = (m.lookup a).any p) : tally p m' = tally p m := by
  have hkeys : ∀ l : Finmap fun _ : κ => ν, ∀ a, (l.lookup a).any p = true → a ∈ l.keys := by
    intro l a ha
    obtain ⟨v,hv,_⟩ := (Option.any_eq_true _ _).mp ha
    exact Finmap.mem_keys.mpr (Finmap.mem_iff.mpr ⟨v,hv⟩)
  refine congrArg Finset.card (Finset.ext fun a => ?_)
  rw [Finset.mem_filter,Finset.mem_filter,h]
  exact and_congr_left fun ha => iff_of_true (hkeys m' a ((h a).trans ha)) (hkeys m a ha)

theorem tally_agree {q : ν → Bool} (h : ∀ a v, m.lookup a = some v → p v = q v) :
    tally p m = tally q m := by
  refine congrArg Finset.card (Finset.filter_congr fun a _ => ?_)
  cases ha : m.lookup a with
  | none => rfl
  | some v => rw [Option.any_some,Option.any_some,h a v ha]

theorem tally_erase (h : m.lookup k = some old) :
    (tally p (m.erase k) : ℤ) = tally p m - (p old).toNat := by
  have hkeys : (m.erase k).keys.filter (fun x => ((m.erase k).lookup x).any p) =
      (m.keys.filter fun x => (m.lookup x).any p).erase k := by
    ext x
    rw [Finset.mem_filter,Finset.mem_erase,Finset.mem_filter,Finmap.mem_keys,Finmap.mem_erase,
      Finmap.mem_keys]
    by_cases hx : x = k
    · simp [hx]
    · rw [Finmap.lookup_erase_ne hx]
      tauto
  have hmem : k ∈ m.keys := Finmap.mem_keys.mpr (Finmap.mem_iff.mpr ⟨old,h⟩)
  unfold tally
  rw [hkeys]
  cases hp : p old with
  | true =>
    rw [← Finset.card_erase_add_one (s := m.keys.filter _) (a := k) (by simp [hmem,h,hp])]
    simp
  | false =>
    rw [Finset.erase_eq_of_notMem (by simp [h,hp])]
    simp

theorem tally_insert_new (h : m.lookup k = none) :
    (tally p (m.insert k v) : ℤ) = tally p m + (p v).toNat := by
  have herase := tally_erase (p := p) (Finmap.lookup_insert (b := v) (a := k) m)
  rw [erase_insert_of_new h] at herase
  omega

theorem tally_insert (h : m.lookup k = some old) :
    (tally p (m.insert k v) : ℤ) = tally p m - (p old).toNat + (p v).toNat := by
  have hinsert : m.insert k v = (m.erase k).insert k v := by
    refine Finmap.ext_lookup fun x => ?_
    by_cases hx : x = k
    · rw [hx,Finmap.lookup_insert,Finmap.lookup_insert]
    · rw [Finmap.lookup_insert_of_ne _ hx,Finmap.lookup_insert_of_ne _ hx,Finmap.lookup_erase_ne hx]
  rw [hinsert,tally_insert_new (Finmap.lookup_erase _ _),tally_erase h]

theorem tally_eq_zero : tally p m = 0 ↔ ∀ k v, m.lookup k = some v → p v = false := by
  rw [tally,Finset.card_eq_zero,Finset.filter_eq_empty_iff]
  constructor
  · intro h k v hv
    have hk := h (Finmap.mem_keys.mpr (Finmap.mem_iff.mpr ⟨v,hv⟩))
    simpa [hv] using hk
  · intro h k hk
    obtain ⟨v,hv⟩ := Finmap.mem_iff.mp (Finmap.mem_keys.mp hk)
    simp [hv,h k v hv]

theorem tally_add_tally {q : ν → Bool} (h : ∀ k v, m.lookup k = some v → q v = !p v) :
    tally p m + tally q m = m.keys.card := by
  have hq : (m.keys.filter fun k => (m.lookup k).any q) =
      m.keys.filter fun k => ¬ (m.lookup k).any p := by
    refine Finset.filter_congr fun k hk => ?_
    obtain ⟨v,hv⟩ := Finmap.mem_iff.mp (Finmap.mem_keys.mp hk)
    simp [hv,h k v hv]
  rw [tally,tally,hq]
  exact Finset.card_filter_add_card_filter_not _

theorem tally_split (p q : ν → Bool) (m : Finmap fun _ : κ => ν) :
    tally (fun v => p v && q v) m + tally (fun v => p v && !q v) m = tally p m := by
  have hsplit := Finset.card_filter_add_card_filter_not
    (s := m.keys.filter fun k => (m.lookup k).any p) fun k => (m.lookup k).any q = true
  rw [Finset.filter_filter,Finset.filter_filter] at hsplit
  rw [tally,tally,tally,← hsplit]
  congr 2 <;> refine Finset.filter_congr fun k _ => ?_ <;> cases m.lookup k <;> simp

theorem sum_tally {f : ν → ℕ} {n : ℕ} (hf : ∀ v, f v < n) (p : ν → Bool)
    (m : Finmap fun _ : κ => ν) :
    ∑ r ∈ Finset.range n, tally (fun v => p v && f v == r) m = tally p m := by
  have hrange : ∀ k ∈ m.keys.filter fun k => (m.lookup k).any p,
      (m.lookup k).elim 0 f ∈ Finset.range n := by
    intro k hk
    obtain ⟨v,hv,-⟩ := (Option.any_eq_true _ _).mp (Finset.mem_filter.mp hk).2
    rw [hv]
    exact Finset.mem_range.mpr (hf v)
  rw [tally,Finset.card_eq_sum_card_fiberwise hrange]
  refine Finset.sum_congr rfl fun r _ => ?_
  rw [tally,Finset.filter_filter]
  refine congrArg Finset.card (Finset.filter_congr fun k _ => ?_)
  cases m.lookup k <;> simp

end

section
variable {κ ν : Type} [DecidableEq κ] {l : List (κ × ν)} {m : Finmap fun _ : κ => ν} {k : κ} {v : ν}

/-- The list has every entry of the map, and each key once. -/
structure Lists (l : List (κ × ν)) (m : Finmap fun _ : κ => ν) : Prop where
  nodup : (l.map Prod.fst).Nodup
  mem : ∀ {k v}, (k,v) ∈ l ↔ m.lookup k = some v

theorem Lists.empty : Lists ([] : List (κ × ν)) ∅ :=
  ⟨List.nodup_nil,by simp⟩

theorem Lists.snoc (h : Lists l m) (hk : m.lookup k = none) : Lists (l ++ [(k,v)]) (m.insert k v) := by
  refine ⟨?_,fun {k' v'} => ?_⟩
  · rw [List.map_append,List.map_singleton,List.nodup_append]
    refine ⟨h.nodup,List.nodup_singleton _,fun a ha b hb => ?_⟩
    obtain ⟨⟨k',x⟩,hx,rfl⟩ := List.mem_map.mp ha
    rintro rfl
    obtain rfl : k' = k := List.mem_singleton.mp hb
    rw [h.mem,hk] at hx
    cases hx
  · rw [List.mem_append,List.mem_singleton,h.mem]
    by_cases hkk : k' = k
    · subst hkk
      rw [hk,Finmap.lookup_insert]
      simp [eq_comm]
    · rw [Finmap.lookup_insert_of_ne _ hkk]
      simp [hkk]

theorem Lists.perm {l' : List (κ × ν)} (h : Lists l m) (hperm : l'.Perm l) : Lists l' m :=
  ⟨(hperm.map Prod.fst).nodup_iff.mpr h.nodup,hperm.mem_iff.trans h.mem⟩

theorem Lists.cons (h : Lists l m) (hk : m.lookup k = none) : Lists ((k,v)::l) (m.insert k v) :=
  (h.snoc hk).perm (List.perm_append_singleton (k,v) l).symm

/-- Without its first entry the list has the entries that are left. -/
theorem Lists.tail (h : Lists ((k,v)::l) m) : Lists l (m.erase k) := by
  obtain ⟨hk,hnodup⟩ := List.nodup_cons.mp h.nodup
  refine ⟨hnodup,fun {a x} => ?_⟩
  by_cases hak : a = k
  · subst hak
    rw [Finmap.lookup_erase]
    exact ⟨fun hmem => absurd (List.mem_map_of_mem hmem) hk,nofun⟩
  · rw [Finmap.lookup_erase_ne hak,← h.mem,List.mem_cons]
    exact ⟨.inr,fun hmem => hmem.resolve_left fun heq => hak (congrArg Prod.fst heq)⟩

/-- An entry that is in the list for its key can be given a new value. -/
theorem Lists.replace {old : ν} (h : Lists ((k,old)::l) m) : Lists ((k,v)::l) (m.insert k v) := by
  obtain ⟨hk,hnodup⟩ := List.nodup_cons.mp h.nodup
  refine ⟨h.nodup,fun {a x} => ?_⟩
  by_cases hak : a = k
  · subst hak
    rw [Finmap.lookup_insert,List.mem_cons,Option.some.injEq]
    constructor
    · rintro (heq | hmem)
      · exact (congrArg Prod.snd heq).symm
      · exact absurd (List.mem_map_of_mem hmem) hk
    · rintro rfl
      exact .inl rfl
  · rw [Finmap.lookup_insert_of_ne _ hak,← h.mem,List.mem_cons,List.mem_cons]
    have hne : ∀ y, (a,x) ≠ (k,y) := fun y heq => hak (congrArg Prod.fst heq)
    rw [or_iff_right (hne v),or_iff_right (hne old)]

theorem Lists.length (h : Lists l m) : m.keys.card = l.length := by
  have hkeys : m.keys = (l.map Prod.fst).toFinset := by
    ext k
    rw [Finmap.mem_keys,Finmap.mem_iff,List.mem_toFinset,List.mem_map]
    constructor
    · rintro ⟨v,hv⟩
      exact ⟨(k,v),h.mem.mpr hv,rfl⟩
    · rintro ⟨⟨_,v⟩,hv,rfl⟩
      exact ⟨v,h.mem.mp hv⟩
  rw [hkeys,List.toFinset_card_of_nodup h.nodup,List.length_map]

theorem Lists.tally (h : Lists l m) (p : ν → Bool) : tally p m = l.countP fun e => p e.2 := by
  have hkeys : (m.keys.filter fun k => (m.lookup k).any p) =
      ((l.filter fun e => p e.2).map Prod.fst).toFinset := by
    ext k
    rw [Finset.mem_filter,List.mem_toFinset,List.mem_map]
    constructor
    · rintro ⟨_,hany⟩
      obtain ⟨v,hv,hp⟩ := (Option.any_eq_true _ _).mp hany
      exact ⟨(k,v),List.mem_filter.mpr ⟨h.mem.mpr hv,hp⟩,rfl⟩
    · rintro ⟨⟨_,v⟩,hv,rfl⟩
      obtain ⟨hmem,hp⟩ := List.mem_filter.mp hv
      have hlookup := h.mem.mp hmem
      exact ⟨Finmap.mem_keys.mpr (Finmap.mem_iff.mpr ⟨v,hlookup⟩),by rw [hlookup]; exact hp⟩
  rw [FiniteMap.tally,hkeys,List.toFinset_card_of_nodup,List.length_map,List.countP_eq_length_filter]
  exact h.nodup.sublist (List.filter_sublist.map _)

theorem lists_of_keys {keys : List κ} (hnodup : keys.Nodup)
    (hall : ∀ k v, m.lookup k = some v → k ∈ keys) :
    Lists (keys.filterMap fun k => (m.lookup k).map fun v => (k,v)) m := by
  refine ⟨?_,fun {k v} => ?_⟩
  · rw [List.map_filterMap]
    refine hnodup.filterMap fun a b c ha hb => ?_
    simp only [Option.map_map,Option.mem_def,Option.map_eq_some_iff,Function.comp_apply] at ha hb
    obtain ⟨_,_,rfl⟩ := ha
    obtain ⟨_,_,hc⟩ := hb
    exact hc.symm
  · rw [List.mem_filterMap]
    constructor
    · rintro ⟨k',_,hk'⟩
      obtain ⟨v',hv',heq⟩ := Option.map_eq_some_iff.mp hk'
      cases heq
      exact hv'
    · intro hv
      exact ⟨k,hall k v hv,by rw [hv]; rfl⟩

/-- Going through pairs is two loops. -/
theorem filterMap_product {α β γ : Type} (as : List α) (bs : List β) (f : α × β → Option γ) :
    (as ×ˢ bs).filterMap f = as.flatMap fun a => bs.filterMap fun b => f (a,b) := by
  induction as with
  | nil => rfl
  | cons a as ih =>
    rw [List.product_cons,List.filterMap_append,List.filterMap_map,ih,List.flatMap_cons]
    rfl

theorem lists_sorted [LinearOrder κ] (m : Finmap fun _ : κ => ν) :
    Lists ((m.keys.sort (· ≤ ·)).filterMap fun k => (m.lookup k).map fun v => (k,v)) m :=
  lists_of_keys (Finset.sort_nodup _ _) fun _ v hv =>
    (Finset.mem_sort _).mpr (Finmap.mem_keys.mpr (Finmap.mem_iff.mpr ⟨v,hv⟩))

end

end FiniteMap
