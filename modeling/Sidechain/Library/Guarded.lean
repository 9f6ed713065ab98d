import Sidechain.Library.Run

/-! Code with every access to a vector checked: an access outside of it is a fault, told apart
from the errors that the code reports. -/
namespace Sidechain.Guarded

/-- Why guarded code stops. -/
inductive Stop (ε : Type) where
  | failed (e : ε)
  | fault (what : String)
  deriving DecidableEq, Repr

variable {ε α β : Type}

def fail (e : ε) : Except (Stop ε) α := .error (.failed e)
def fault (what : String) : Except (Stop ε) α := .error (.fault what)

/-- What the code relies on without checking it. -/
def ensure (c : Prop) [Decidable c] (what : String) : Except (Stop ε) Unit :=
  if c then .ok () else fault what

/-- Code that has no faults. -/
def lift : Except ε α → Except (Stop ε) α
  | .ok a => .ok a
  | .error e => fail e

@[simp] theorem lift_ok (a : α) : (lift (.ok a) : Except (Stop ε) α) = .ok a := rfl
@[simp] theorem lift_error (e : ε) : (lift (.error e) : Except (Stop ε) α) = fail e := rfl
@[simp] theorem fail_bind (e : ε) (f : α → Except (Stop ε) β) : (fail e >>= f) = fail e := rfl
@[simp] theorem fault_bind (what : String) (f : α → Except (Stop ε) β) :
    (fault what >>= f) = fault what := rfl
@[simp] theorem ok_bind (a : α) (f : α → Except (Stop ε) β) : (Except.ok a >>= f) = f a := rfl

theorem lift_bind (x : Except ε α) (f : α → Except ε β) :
    lift (x >>= f) = lift x >>= fun a => lift (f a) := by
  cases x <;> rfl

/-- Guarded code without faults, followed by such code. -/
theorem bind_eq_lift {x : Except (Stop ε) α} {x' : Except ε α} {f : α → Except (Stop ε) β}
    {f' : α → Except ε β} (hx : x = lift x') (hf : ∀ a, x' = .ok a → f a = lift (f' a)) :
    (x >>= f) = lift (x' >>= f') := by
  rw [hx,lift_bind]
  cases x' with
  | error e => rfl
  | ok a => exact hf a rfl

theorem ite_eq_lift {c : Prop} [Decidable c] {x y : Except (Stop ε) α} {x' y' : Except ε α}
    (hx : c → x = lift x') (hy : ¬ c → y = lift y') :
    (if c then x else y) = lift (if c then x' else y') := by
  by_cases hc : c
  · rw [if_pos hc,if_pos hc,hx hc]
  · rw [if_neg hc,if_neg hc,hy hc]

/-- The same branch under a condition that is put in another way. -/
theorem ite_eq_lift' {c d : Prop} [Decidable c] [Decidable d] {x y : Except (Stop ε) α}
    {x' y' : Except ε α} (hcd : c ↔ d) (hx : d → x = lift x') (hy : ¬ d → y = lift y') :
    (if c then x else y) = lift (if d then x' else y') := by
  by_cases hd : d
  · rw [if_pos (hcd.mpr hd),if_pos hd,hx hd]
  · rw [if_neg (mt hcd.mp hd),if_neg hd,hy hd]

theorem lift_ne_fault (x : Except ε α) (what : String) : lift x ≠ fault what := by
  cases x <;> simp [lift,fail,fault]

theorem lift_eq_ok {x : Except ε α} {a : α} : lift x = .ok a ↔ x = .ok a := by
  cases x <;> simp [lift,fail]

@[simp] theorem ensure_true {c : Prop} [Decidable c] (hc : c) (what : String) :
    (ensure c what : Except (Stop ε) Unit) = .ok () := if_pos hc

/-- `v.at(v.size() - i)` -/
def top (v : List α) : ℕ → Except (Stop ε) α
  | 0 => fault "v.at(v.size())"
  | i+1 =>
    match v[i]? with
    | none => fault "v.at(v.size() - i)"
    | some a => .ok a

/-- `v.pop_back()` -/
def pop (v : List α) : Except (Stop ε) (List α) :=
  match v with
  | [] => fault "v.pop_back()"
  | _::v => .ok v

def popTimes : ℕ → List α → Except (Stop ε) (List α)
  | 0,v => .ok v
  | n+1,v => do
    let v ← pop v
    popTimes n v

/-- `v.at(v.size() - i) = a` -/
def setTop (v : List α) (i : ℕ) (a : α) : Except (Stop ε) (List α) := do
  let _ ← top v i
  .ok (v.set (i - 1) a)

/-- `swap(v.at(v.size() - i), v.at(v.size() - j))` -/
def swapTops (v : List α) (i j : ℕ) : Except (Stop ε) (List α) := do
  let a ← top v i
  let b ← top v j
  .ok ((v.set (i - 1) b).set (j - 1) a)

/-- `v.erase(v.end() - i)` -/
def eraseTop (v : List α) (i : ℕ) : Except (Stop ε) (List α) := do
  ensure (1 ≤ i ∧ i ≤ v.length) "v.erase(v.end() - i)"
  .ok (v.eraseIdx (i - 1))

/-- `v.erase(v.end() - i, v.end() - j)` -/
def eraseTops (v : List α) (i j : ℕ) : Except (Stop ε) (List α) := do
  ensure (j ≤ i ∧ i ≤ v.length) "v.erase(v.end() - i, v.end() - j)"
  .ok (v.take j ++ v.drop i)

/-- `v.insert(v.end() - i, a)` -/
def insertTop (v : List α) (i : ℕ) (a : α) : Except (Stop ε) (List α) := do
  ensure (i ≤ v.length) "v.insert(v.end() - i, a)"
  .ok (v.take i ++ a :: v.drop i)

@[simp] theorem top_succ_cons (a : α) (v : List α) (i : ℕ) :
    (top (a::v) (i + 2) : Except (Stop ε) α) = top v (i + 1) := rfl
@[simp] theorem top_one_cons (a : α) (v : List α) :
    (top (a::v) 1 : Except (Stop ε) α) = .ok a := rfl
@[simp] theorem pop_cons (a : α) (v : List α) : (pop (a::v) : Except (Stop ε) _) = .ok v := rfl

theorem top_of_getElem? {v : List α} {i : ℕ} {a : α} (h : v[i]? = some a) :
    (top v (i + 1) : Except (Stop ε) α) = .ok a := by
  simp only [top,h]

theorem popTimes_eq_drop {n : ℕ} {v : List α} (hn : n ≤ v.length) :
    (popTimes n v : Except (Stop ε) _) = .ok (v.drop n) := by
  induction n generalizing v with
  | zero => rfl
  | succ n ih =>
    cases v with
    | nil => simp at hn
    | cons a v =>
      rw [popTimes,pop_cons,ok_bind,ih (by simpa using hn),List.drop_succ_cons]

end Sidechain.Guarded
