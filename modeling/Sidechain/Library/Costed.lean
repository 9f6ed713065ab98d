import Sidechain.Library.Run
import Mathlib.Tactic.SplitIfs

/-! Code that counts its calls of one operation. Forgetting the count gives plain code back, and a
bound on the calls follows the sequence of steps. -/

/-- A result with the number of calls made on the way, whether it failed or not. -/
structure Costed (ε α : Type) where
  result : Except ε α
  calls : ℕ

namespace Costed

variable {ε δ α β : Type}

/-- Code that makes no call. -/
def lift (x : Except ε α) : Costed ε α := ⟨x,0⟩

/-- One call that has returned a value. -/
def call (a : α) : Costed ε α := ⟨.ok a,1⟩

/-- The outcome as a value: a failure does not stop what follows. -/
def attempt (x : Costed ε α) : Costed δ (Except ε α) := ⟨.ok x.result,x.calls⟩

/-- What follows an error is not run. -/
def bind (x : Costed ε α) (f : α → Costed ε β) : Costed ε β :=
  match x.result with
  | .ok a => ⟨(f a).result,x.calls + (f a).calls⟩
  | .error e => ⟨.error e,x.calls⟩

instance : Monad (Costed ε) where
  pure a := lift (.ok a)
  bind := bind

@[simp] theorem result_lift (x : Except ε α) : (lift x).result = x := rfl
@[simp] theorem calls_lift (x : Except ε α) : (lift x).calls = 0 := rfl
@[simp] theorem result_call (a : α) : (call a : Costed ε α).result = .ok a := rfl
@[simp] theorem calls_call (a : α) : (call a : Costed ε α).calls = 1 := rfl

@[simp] theorem result_attempt (x : Costed ε α) :
    (attempt x : Costed δ (Except ε α)).result = .ok x.result := rfl
@[simp] theorem calls_attempt (x : Costed ε α) :
    (attempt x : Costed δ (Except ε α)).calls = x.calls := rfl

@[simp] theorem result_bind (x : Costed ε α) (f : α → Costed ε β) :
    (x >>= f).result = x.result >>= fun a => (f a).result := by
  change (bind x f).result = _
  unfold bind
  cases x.result <;> rfl

@[simp] theorem result_pure (a : α) : (pure a : Costed ε α).result = .ok a := rfl
@[simp] theorem calls_pure (a : α) : (pure a : Costed ε α).calls = 0 := rfl

theorem result_bind_ok {x : Costed ε α} {f : α → Costed ε β} {a : α} (h : x.result = .ok a) :
    (x >>= f).result = (f a).result := by
  rw [result_bind,h]
  rfl

theorem result_ite (c : Prop) [Decidable c] (x y : Costed ε α) :
    (if c then x else y).result = if c then x.result else y.result := by
  split_ifs <;> rfl

theorem calls_bind {x : Costed ε α} {f : α → Costed ε β} {a : α} (h : x.result = .ok a) :
    (x >>= f).calls = x.calls + (f a).calls := by
  change (bind x f).calls = _
  unfold bind
  rw [h]

/-- Calls of two steps, where the second one is only run after success. -/
theorem calls_bind_le {x : Costed ε α} {f : α → Costed ε β} {m n : ℕ} (hx : x.calls ≤ m)
    (hf : ∀ a, x.result = .ok a → (f a).calls ≤ n) : (x >>= f).calls ≤ m + n := by
  cases h : x.result with
  | ok a =>
    rw [calls_bind h]
    exact Nat.add_le_add hx (hf a h)
  | error e =>
    change (bind x f).calls ≤ _
    unfold bind
    rw [h]
    exact Nat.le_trans hx (Nat.le_add_right m n)

theorem calls_lift_bind_le {x : Except ε α} {f : α → Costed ε β} {n : ℕ}
    (hf : ∀ a, x = .ok a → (f a).calls ≤ n) : (lift x >>= f).calls ≤ n := by
  have h := calls_bind_le (x := lift x) (f := f) (m := 0) (n := n) (Nat.le_refl 0) hf
  rwa [Nat.zero_add] at h

end Costed
