import Mathlib.Algebra.BigOperators.Group.List.Basic
import Mathlib.Algebra.Order.Ring.Int
import Mathlib.Data.List.Basic

/-! The part of a list that a mask chooses, and its sum as single entries enter and leave it. -/
namespace SubsetSum

variable {α β : Type}

/-- The entries that are chosen. -/
def chosen : List Bool → List α → List α
  | true :: mask,a :: as => a :: chosen mask as
  | false :: mask,_ :: as => chosen mask as
  | _,_ => []

@[simp] theorem chosen_nil_right (mask : List Bool) : chosen mask ([] : List α) = [] := by
  cases mask with
  | nil => rfl
  | cons b mask => cases b <;> rfl

theorem chosen_sublist (mask : List Bool) (as : List α) : (chosen mask as).Sublist as := by
  induction as generalizing mask with
  | nil =>
    rw [chosen_nil_right]
  | cons a as ih =>
    cases mask with
    | nil => exact List.nil_sublist _
    | cons b mask =>
      cases b with
      | true => exact (ih mask).cons_cons a
      | false => exact (ih mask).cons a

theorem chosen_map (f : α → β) (mask : List Bool) (as : List α) :
    chosen mask (as.map f) = (chosen mask as).map f := by
  induction as generalizing mask with
  | nil => rw [List.map_nil,chosen_nil_right,chosen_nil_right,List.map_nil]
  | cons a as ih =>
    cases mask with
    | nil => rfl
    | cons b mask =>
      cases b with
      | true => exact congrArg (f a :: ·) (ih mask)
      | false => exact ih mask

theorem chosen_all (as : List α) : chosen (List.replicate as.length true) as = as := by
  induction as with
  | nil => rfl
  | cons a as ih => exact congrArg (a :: ·) ih

theorem chosen_none (as : List α) : chosen (List.replicate as.length false) as = [] := by
  induction as with
  | nil => rfl
  | cons a as ih => exact ih

theorem mem_chosen {mask : List Bool} {as : List α} {x : α} (hx : x ∈ chosen mask as) :
    ∃ i : ℕ, as[i]? = some x ∧ mask[i]? = some true := by
  induction as generalizing mask with
  | nil =>
    rw [chosen_nil_right] at hx
    cases hx
  | cons a as ih =>
    cases mask with
    | nil => cases hx
    | cons b mask =>
      cases b with
      | true =>
        rcases List.mem_cons.mp hx with rfl | hx
        · exact ⟨0,rfl,rfl⟩
        · obtain ⟨i,ha,hmask⟩ := ih hx
          exact ⟨i+1,ha,hmask⟩
      | false =>
        obtain ⟨i,ha,hmask⟩ := ih hx
        exact ⟨i+1,ha,hmask⟩

theorem sum_chosen_enter {mask : List Bool} {as : List ℤ} {i : ℕ} {a : ℤ} (ha : as[i]? = some a)
    (hout : mask[i]? = some false) :
    (chosen (mask.set i true) as).sum = (chosen mask as).sum + a := by
  induction as generalizing mask i with
  | nil => cases ha
  | cons x as ih =>
    cases mask with
    | nil => cases hout
    | cons b mask =>
      cases i with
      | zero =>
        cases ha
        cases hout
        change (a :: chosen mask as).sum = _
        rw [List.sum_cons,add_comm]
        rfl
      | succ i =>
        have hrest : (chosen (mask.set i true) as).sum = (chosen mask as).sum + a := ih ha hout
        cases b with
        | true =>
          change (x :: chosen (mask.set i true) as).sum = (x :: chosen mask as).sum + a
          rw [List.sum_cons,List.sum_cons,hrest,add_assoc]
        | false => exact hrest

theorem set_set_same {mask : List Bool} {i : ℕ} {a b : Bool} (hb : mask[i]? = some b) :
    (mask.set i a).set i b = mask := by
  obtain ⟨hlt,rfl⟩ := List.getElem?_eq_some_iff.mp hb
  rw [List.set_set,List.set_getElem_self]

theorem sum_chosen_leave {mask : List Bool} {as : List ℤ} {i : ℕ} {a : ℤ} (ha : as[i]? = some a)
    (hin : mask[i]? = some true) :
    (chosen (mask.set i false) as).sum = (chosen mask as).sum - a := by
  have hlt := (List.getElem?_eq_some_iff.mp hin).1
  have henter := sum_chosen_enter ha (List.getElem?_set_self hlt (a := false))
  rw [set_set_same hin] at henter
  rw [henter,add_sub_cancel_right]

end SubsetSum
