import Mathlib.Data.List.Nodup
import Mathlib.Data.List.Basic

/-! Ledgers of entries that create outputs under an identifier and spend outputs of entries before
them. What can be spent is kept as a set that a new entry with an old identifier overwrites. In a
ledger whose spends were all available no output of any entry is spent twice. -/
namespace Sidechain

/-- How entries name themselves, what they spend and what they create. -/
structure Ledger (α κ : Type) where
  id : α → κ
  spends : α → List (κ × ℕ)
  creates : α → ℕ → Prop

namespace Ledger

variable {α κ : Type} [DecidableEq κ] (L : Ledger α κ)

/-- What is available after an entry. -/
def after (avail : κ → ℕ → Prop) (e : α) : κ → ℕ → Prop := fun k n =>
  if k = L.id e then L.creates e n else avail k n ∧ (k,n) ∉ L.spends e

/-- The ledger, whose latest entry comes first, spends only what is available, and that once; it
starts from nothing. -/
inductive Valid : List α → (κ → ℕ → Prop) → Prop
  | nil : Valid [] fun _ _ => False
  | cons {before : List α} {avail : κ → ℕ → Prop} (e : α) (run : Valid before avail)
      (nodup : (L.spends e).Nodup) (available : ∀ s ∈ L.spends e, avail s.1 s.2) :
      Valid (e::before) (L.after avail e)

/-- The latest entry with an identifier, with its position in the ledger. -/
def source (k : κ) : List α → Option (ℕ × α)
  | [] => none
  | e::before => if L.id e = k then some (before.length,e) else source k before

/-- The spends of all entries, each with the entry whose output it spends and the output's number. -/
def spent : List α → List (Option (ℕ × α) × ℕ)
  | [] => []
  | e::before => (L.spends e).map (fun s => (L.source s.1 before,s.2)) ++ spent before

variable {L}

theorem source_spec {k : κ} {es : List α} {j : ℕ} {e : α} (h : L.source k es = some (j,e)) :
    e ∈ es ∧ L.id e = k ∧ j < es.length := by
  induction es with
  | nil => cases h
  | cons e' before ih =>
    unfold source at h
    split_ifs at h with hid
    · cases h
      exact ⟨List.mem_cons_self,hid,Nat.lt_succ_self _⟩
    · obtain ⟨he,hk,hj⟩ := ih h
      exact ⟨List.mem_cons_of_mem e' he,hk,Nat.lt_succ_of_lt hj⟩

theorem source_injective {k k' : κ} {es : List α} {p : ℕ × α} (h : L.source k es = some p)
    (h' : L.source k' es = some p) : k = k' :=
  (source_spec h).2.1.symm.trans (source_spec h').2.1

/-- What a valid ledger keeps: everything available was created by the latest entry with its
identifier and not spent since. -/
structure Inv (es : List α) (avail : κ → ℕ → Prop) : Prop where
  unspent : ∀ k n, avail k n → ∃ j e, L.source k es = some (j,e) ∧ L.creates e n ∧
    (some (j,e),n) ∉ L.spent es
  created : ∀ s ∈ L.spent es, ∃ j e, s.1 = some (j,e) ∧ j < es.length ∧ e ∈ es ∧ L.creates e s.2
  nodup : (L.spent es).Nodup

theorem Inv.nil : Inv (L := L) [] fun _ _ => False :=
  ⟨fun _ _ h => h.elim,by simp [spent],List.nodup_nil⟩

/-- A spend of something available takes an output that was not spent before. -/
theorem Inv.cons {before : List α} {avail : κ → ℕ → Prop} (h : Inv (L := L) before avail) (e : α)
    (nodup : (L.spends e).Nodup) (available : ∀ s ∈ L.spends e, avail s.1 s.2) :
    Inv (L := L) (e::before) (L.after avail e) := by
  constructor
  · intro k n hav
    unfold after at hav
    split_ifs at hav with hk
    · -- outputs of the new entry come from a position nothing was spent from
      refine ⟨before.length,e,if_pos hk.symm,hav,fun hs => ?_⟩
      rcases List.mem_append.mp hs with hs | hs
      · obtain ⟨s,hs,heq⟩ := List.mem_map.mp hs
        obtain ⟨j,e',hsource,_⟩ := h.unspent _ _ (available s hs)
        rw [Prod.mk.injEq,hsource,Option.some.injEq,Prod.mk.injEq] at heq
        exact absurd (source_spec hsource).2.2 (by omega)
      · obtain ⟨j,e',heq,hj,_⟩ := h.created _ hs
        rw [Option.some.injEq,Prod.mk.injEq] at heq
        omega
    · obtain ⟨j,e',hsource,hcreates,hfree⟩ := h.unspent k n hav.1
      refine ⟨j,e',(if_neg (Ne.symm hk)).trans hsource,hcreates,fun hs => ?_⟩
      rcases List.mem_append.mp hs with hs | hs
      · obtain ⟨⟨k',n'⟩,ho,heq⟩ := List.mem_map.mp hs
        rw [Prod.mk.injEq] at heq
        obtain rfl := source_injective heq.1 hsource
        obtain rfl : n' = n := heq.2
        exact hav.2 ho
      · exact hfree hs
  · intro s hs
    rcases List.mem_append.mp hs with hs | hs
    · obtain ⟨o,ho,rfl⟩ := List.mem_map.mp hs
      obtain ⟨j,e',hsource,hcreates,_⟩ := h.unspent _ _ (available o ho)
      obtain ⟨hmem,_,hj⟩ := source_spec hsource
      exact ⟨j,e',hsource,Nat.lt_succ_of_lt hj,List.mem_cons_of_mem e hmem,hcreates⟩
    · obtain ⟨j,e',heq,hj,hmem,hcreates⟩ := h.created s hs
      exact ⟨j,e',heq,Nat.lt_succ_of_lt hj,List.mem_cons_of_mem e hmem,hcreates⟩
  · refine List.Nodup.append (nodup.map_on ?_) h.nodup ?_
    · rintro ⟨k,n⟩ hs ⟨k',n'⟩ hs' heq
      obtain ⟨j,e',hsource,_⟩ := h.unspent _ _ (available _ hs)
      rw [Prod.mk.injEq] at heq
      have hk := source_injective hsource (heq.1 ▸ hsource)
      exact Prod.ext hk heq.2
    · intro s hs hold
      obtain ⟨o,ho,rfl⟩ := List.mem_map.mp hs
      obtain ⟨j,e',hsource,_,hfree⟩ := h.unspent _ _ (available o ho)
      exact hfree (hsource ▸ hold)

theorem Valid.inv {es : List α} {avail : κ → ℕ → Prop} (h : L.Valid es avail) :
    Inv (L := L) es avail := by
  induction h with
  | nil => exact .nil
  | cons e run nodup available ih => exact ih.cons e nodup available

theorem Valid.created_before {later before : List α} {e : α} {avail : κ → ℕ → Prop}
    (h : L.Valid (later ++ e::before) avail) {s : κ × ℕ} (hs : s ∈ L.spends e) :
    ∃ e' ∈ before, L.id e' = s.1 ∧ L.creates e' s.2 := by
  induction later generalizing avail with
  | nil =>
    cases h with
    | cons _ run nodup available =>
      obtain ⟨j,e',hsource,hcreates,_⟩ := run.inv.unspent _ _ (available s hs)
      obtain ⟨hmem,hid,_⟩ := source_spec hsource
      exact ⟨e',hmem,hid,hcreates⟩
  | cons _ later ih =>
    cases h with
    | cons _ run _ _ => exact ih run

/-- Where all entries have different identifiers, later ones do not change what a spend refers to. -/
theorem Valid.spent_eq_map {es : List α} {avail : κ → ℕ → Prop} (h : L.Valid es avail)
    (hids : (es.map L.id).Nodup) :
    L.spent es = (es.flatMap L.spends).map fun s => (L.source s.1 es,s.2) := by
  have hstable : ∀ (e : α) (before : List α), ((e::before).map L.id).Nodup →
      ∀ k p, L.source k before = some p → L.source k (e::before) = some p := by
    intro e before hids k p hsource
    obtain ⟨hmem,hid,_⟩ := source_spec (j := p.1) (e := p.2) hsource
    have hne : L.id e ≠ k := by
      rintro rfl
      exact (List.nodup_cons.mp hids).1 (List.mem_map.mpr ⟨p.2,hmem,hid⟩)
    exact (if_neg hne).trans hsource
  induction h with
  | nil => rfl
  | @cons before avail e run nodup available ih =>
    rw [List.map_cons] at hids
    have hinv := run.inv
    rw [spent,List.flatMap_cons,List.map_append,ih (List.nodup_cons.mp hids).2]
    congr 1
    · refine List.map_congr_left fun s hs => ?_
      obtain ⟨j,e',hsource,_⟩ := hinv.unspent _ _ (available s hs)
      rw [hstable e before hids _ _ hsource,hsource]
    · refine List.map_congr_left fun s hs => ?_
      have hmem : (L.source s.1 before,s.2) ∈ L.spent before := by
        rw [ih (List.nodup_cons.mp hids).2]
        exact List.mem_map_of_mem hs
      obtain ⟨j,e',hsource,_⟩ := hinv.created _ hmem
      rw [hstable e before hids _ _ hsource]
      exact congrArg (·,s.2) hsource

theorem Valid.spends_nodup {es : List α} {avail : κ → ℕ → Prop} (h : L.Valid es avail)
    (hids : (es.map L.id).Nodup) : (es.flatMap L.spends).Nodup := by
  have hspent := h.inv.nodup
  rw [h.spent_eq_map hids] at hspent
  exact hspent.of_map _

end Ledger
end Sidechain
