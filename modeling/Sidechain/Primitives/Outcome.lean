import Sidechain.Library.Run
import Mathlib.Algebra.Order.Ring.Int

/-! How a modelled C++ function ends, and int64 arithmetic whose overflow is undefined. -/
namespace Sidechain

inductive ValidationMode where
  | valid
  | invalid
  | error
  deriving DecidableEq, Repr

/-- The verdict a `CValidationState` carries; its debug message is only logged. -/
structure CValidationState where
  mode : ValidationMode := .valid
  nDoS : ℕ := 0
  chRejectCode : ℕ := 0
  strRejectReason : String := ""
  corruptionPossible : Bool := false
  deriving DecidableEq, Repr

/-- Every way a function can end without its result: a verdict against its argument,
an escaping exception, a failed assertion, or undefined behaviour. -/
inductive Halt where
  | rejected (state : CValidationState)
  | exception (what : String)
  | assertion (expression : String)
  | undefined (what : String)
  deriving DecidableEq, Repr

abbrev Outcome (α : Type) := Except Halt α

def REJECT_INVALID : ℕ := 0x10
def REJECT_NONSTANDARD : ℕ := 0x40

/-- `return state.DoS(...)` on a state that holds no earlier verdict. -/
def dos {α : Type} (level code : ℕ) (reason : String) (corruption : Bool := false) : Outcome α :=
  .error (.rejected ⟨.invalid,level,code,reason,corruption⟩)

/-- `return state.Invalid(...)` is a rejection of level zero. -/
def invalid {α : Type} (code : ℕ) (reason : String) : Outcome α := dos 0 code reason

/-- `return state.Error(...)`. -/
def stateError {α : Type} (reason : String) : Outcome α :=
  .error (.rejected ⟨.error,0,0,reason,false⟩)

/-- Go on only if the condition holds. -/
def require (c : Prop) [Decidable c] (otherwise : Outcome Unit) : Outcome Unit :=
  if c then .ok () else otherwise

@[simp] theorem require_dos_ok {c : Prop} [Decidable c] {level code : ℕ} {reason : String}
    {corruption : Bool} {u : Unit} :
    require c (dos level code reason corruption) = .ok u ↔ c := by
  unfold require dos
  split_ifs with h <;> simp [h]

@[simp] theorem require_error_ok {c : Prop} [Decidable c] {h : Halt} {u : Unit} :
    require c (.error h) = .ok u ↔ c := by
  unfold require
  split_ifs with hc <;> simp [hc]

/-- Amounts in satoshis: `typedef int64_t CAmount`. -/
abbrev CAmount := Int64

def COIN : CAmount := 100000000
def CENT : CAmount := 1000000
def MAX_MONEY : CAmount := 21000000 * COIN

def moneyRange (nValue : CAmount) : Bool := decide (0 ≤ nValue) && decide (nValue ≤ MAX_MONEY)

@[simp] theorem moneyRange_iff (n : CAmount) :
    moneyRange n = true ↔ 0 ≤ n.toInt ∧ n.toInt ≤ 2100000000000000 := by
  have hmax : MAX_MONEY.toInt = 2100000000000000 := by decide
  simp [moneyRange,Int64.le_iff_toInt_le,hmax]

/-- The result of a signed 64-bit operation, when it has one. -/
def checked (n : ℤ) : Outcome CAmount :=
  if -2^63 ≤ n ∧ n < 2^63 then .ok (Int64.ofInt n) else .error (.undefined "signed overflow")

theorem checked_ok {n : ℤ} {a : CAmount} : checked n = .ok a ↔ a.toInt = n := by
  unfold checked
  split_ifs with h
  · have hn : (Int64.ofInt n).toInt = n := Int64.toInt_ofInt_of_le (by omega) (by omega)
    constructor
    · intro ha
      cases ha
      exact hn
    · rintro rfl
      exact congrArg Except.ok (Int64.ofInt_toInt a)
  · simp only [false_iff]
    rintro rfl
    exact h ⟨Int64.le_toInt a,Int64.toInt_lt a⟩

def addAmount (a b : CAmount) : Outcome CAmount := checked (a.toInt + b.toInt)
def subAmount (a b : CAmount) : Outcome CAmount := checked (a.toInt - b.toInt)

@[simp] theorem addAmount_ok {a b c : CAmount} :
    addAmount a b = .ok c ↔ c.toInt = a.toInt + b.toInt := checked_ok
@[simp] theorem subAmount_ok {a b c : CAmount} :
    subAmount a b = .ok c ↔ c.toInt = a.toInt - b.toInt := checked_ok

end Sidechain
