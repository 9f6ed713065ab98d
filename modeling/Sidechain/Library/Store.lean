import Mathlib.Data.List.Basic
import Std.Data.TreeMap

/-! Key-value stores filled by writes that are never taken back: a store read by key or listed in
key order shows, for each key, the value of the last write in the log. -/
namespace Sidechain.Store

variable {κ ν : Type}

section
variable [DecidableEq κ]

/-- The value the last write to a key left. -/
def latest (k : κ) : List (κ × ν) → Option ν
  | [] => none
  | e::log => (latest k log).or (if e.1 = k then some e.2 else none)

@[simp] theorem latest_nil (k : κ) : latest k ([] : List (κ × ν)) = none := rfl

theorem latest_cons (k : κ) (e : κ × ν) (log : List (κ × ν)) :
    latest k (e::log) = (latest k log).or (if e.1 = k then some e.2 else none) := rfl

@[simp] theorem latest_append (k : κ) (log log' : List (κ × ν)) :
    latest k (log ++ log') = (latest k log').or (latest k log) := by
  induction log with
  | nil => simp
  | cons e log ih => rw [List.cons_append,latest_cons,latest_cons,ih,Option.or_assoc]

theorem mem_of_latest {k : κ} {v : ν} {log : List (κ × ν)} (h : latest k log = some v) :
    (k,v) ∈ log := by
  induction log with
  | nil => cases h
  | cons e log ih =>
    rw [latest_cons,Option.or_eq_some_iff] at h
    rcases h with h | ⟨_,h⟩
    · exact List.mem_cons_of_mem e (ih h)
    · split_ifs at h with hk
      cases h
      exact hk ▸ List.mem_cons_self

theorem latest_isSome_of_mem {k : κ} {v : ν} {log : List (κ × ν)} (h : (k,v) ∈ log) :
    ∃ w, latest k log = some w := by
  induction log with
  | nil => cases h
  | cons e log ih =>
    rw [latest_cons]
    rcases List.mem_cons.mp h with rfl | h
    · cases latest k log <;> simp
    · obtain ⟨w,hw⟩ := ih h
      simp [hw]

/-- The value that was written last has no other write to its key after it. -/
theorem latest_eq_some_iff {k : κ} {v : ν} {log : List (κ × ν)} : latest k log = some v ↔
    ∃ before after, log = before ++ (k,v) :: after ∧ ∀ e ∈ after, e.1 ≠ k := by
  constructor
  · intro h
    induction log with
    | nil => cases h
    | cons e log ih =>
      rw [latest_cons] at h
      cases hlog : latest k log with
      | some w =>
        rw [hlog,Option.some_or] at h
        obtain ⟨before,after,rfl,hafter⟩ := ih (hlog.trans h)
        exact ⟨e::before,after,rfl,hafter⟩
      | none =>
        rw [hlog,Option.none_or] at h
        split_ifs at h with hk
        cases h
        subst hk
        refine ⟨[],log,rfl,fun e' he' hk => ?_⟩
        obtain ⟨w,hw⟩ := latest_isSome_of_mem (show (e.1,e'.2) ∈ log from hk ▸ he')
        rw [hlog] at hw
        cases hw
  · rintro ⟨before,after,rfl,hafter⟩
    have hnone : latest k after = none := by
      rw [Option.eq_none_iff_forall_ne_some]
      exact fun w hw => hafter _ (mem_of_latest hw) rfl
    rw [latest_append,latest_cons,hnone,Option.none_or,if_pos rfl,Option.some_or]

theorem latest_map_key {κ' : Type} [DecidableEq κ'] {f : κ → κ'} (hf : Function.Injective f)
    {ν' : Type} (g : ν → ν') (k : κ) (log : List (κ × ν)) :
    latest (f k) (log.map fun e => (f e.1,g e.2)) = (latest k log).map g := by
  induction log with
  | nil => rfl
  | cons e log ih =>
    rw [List.map_cons,latest_cons,latest_cons,ih]
    by_cases h : e.1 = k
    · cases latest k log <;> simp [h]
    · have hne : f e.1 ≠ f k := fun he => h (hf he)
      cases latest k log <;> simp [h,hne]

end

section
variable {cmp : κ → κ → Ordering} [Std.TransCmp cmp] [Std.LawfulEqCmp cmp] [DecidableEq κ]

/-- Apply a batch of writes. -/
def writeAll (t : Std.TreeMap κ ν cmp) (log : List (κ × ν)) : Std.TreeMap κ ν cmp :=
  log.foldl (fun t e => t.insert e.1 e.2) t

theorem getElem?_writeAll (t : Std.TreeMap κ ν cmp) (log : List (κ × ν)) (k : κ) :
    (writeAll t log)[k]? = (latest k log).or t[k]? := by
  induction log generalizing t with
  | nil => rfl
  | cons e log ih =>
    change (writeAll (t.insert e.1 e.2) log)[k]? = _
    rw [ih,Std.TreeMap.getElem?_insert,latest_cons,Option.or_assoc]
    congr 1
    by_cases h : e.1 = k
    · rw [if_pos (Std.LawfulEqCmp.compare_eq_iff_eq.mpr h),if_pos h]
      rfl
    · rw [if_neg (fun hc => h (Std.LawfulEqCmp.compare_eq_iff_eq.mp hc)),if_neg h]
      rfl

end
/-- A field that some steps of a fold write has the value one of them wrote, or none of them did. -/
theorem foldl_field {σ ε ν : Type} {get : σ → ν} {sets : ε → Option ν} {step : σ → ε → σ}
    (hstep : ∀ s e, get (step s e) = (sets e).getD (get s)) (s : σ) (es : List ε) :
    (∃ e ∈ es, sets e = some (get (es.foldl step s))) ∨
      (∀ e ∈ es, sets e = none) ∧ get (es.foldl step s) = get s := by
  induction es generalizing s with
  | nil => exact .inr ⟨nofun,rfl⟩
  | cons e es ih =>
    rw [List.foldl_cons]
    rcases ih (step s e) with ⟨e',he',hset⟩ | ⟨hnone,hget⟩
    · exact .inl ⟨e',List.mem_cons_of_mem e he',hset⟩
    · rw [hstep] at hget
      cases he : sets e with
      | some v =>
        rw [he] at hget
        exact .inl ⟨e,List.mem_cons_self,he.trans (congrArg some hget.symm)⟩
      | none =>
        rw [he] at hget
        refine .inr ⟨fun e' he' => ?_,hget⟩
        rcases List.mem_cons.mp he' with rfl | hrest
        · exact he
        · exact hnone e' hrest

end Sidechain.Store
