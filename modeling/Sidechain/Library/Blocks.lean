import Mathlib.Algebra.Order.Ring.Nat
import Mathlib.Data.List.Basic

/-! A list cut into blocks of one size: the whole blocks, and the rest that fills none. What a
fold over the blocks has reached goes on from the rest when more is appended. Below it, a list
written over from a position on. -/
namespace Sidechain.Blocks

variable {α σ : Type} {size : ℕ}

/-- The whole blocks of a list, in order. -/
def blocks (size : ℕ) (xs : List α) : List (List α) :=
  (List.range (xs.length / size)).map fun i => (xs.drop (i*size)).take size

/-- What is left behind the last whole block. -/
def rest (size : ℕ) (xs : List α) : List α := xs.drop (xs.length / size*size)

/-- A fold over the whole blocks. -/
def absorb (size : ℕ) (f : σ → List α → σ) (s : σ) (xs : List α) : σ :=
  (blocks size xs).foldl f s

@[simp] theorem length_rest (xs : List α) : (rest size xs).length = xs.length % size := by
  rw [rest,List.length_drop,Nat.mod_eq_sub,Nat.mul_comm]

theorem blocks_of_lt {xs : List α} (h : xs.length < size) : blocks size xs = [] := by
  simp [blocks,Nat.div_eq_of_lt h]

theorem rest_of_lt {xs : List α} (h : xs.length < size) : rest size xs = xs := by
  simp [rest,Nat.div_eq_of_lt h]

theorem blocks_of_length {xs : List α} (hpos : 0 < size) (h : xs.length = size) :
    blocks size xs = [xs] := by
  simp [blocks,h,Nat.div_self hpos,List.take_of_length_le h.le]

theorem rest_of_length {xs : List α} (hpos : 0 < size) (h : xs.length = size) :
    rest size xs = [] := by
  simp [rest,h,Nat.div_self hpos,List.drop_eq_nil_of_le h.le]

variable (xs ys : List α)

private theorem length_div_append (hpos : 0 < size) :
    (xs ++ ys).length / size = xs.length / size + (rest size xs ++ ys).length / size := by
  rw [List.length_append,List.length_append,length_rest,← Nat.mul_add_div hpos]
  rw [← Nat.add_assoc,Nat.div_add_mod]

theorem blocks_append (hpos : 0 < size) :
    blocks size (xs ++ ys) = blocks size xs ++ blocks size (rest size xs ++ ys) := by
  have hle := Nat.div_mul_le_self xs.length size
  rw [blocks,length_div_append xs ys hpos,List.range_add,List.map_append,List.map_map]
  refine congrArg₂ _ (List.map_congr_left fun i hi => ?_) (List.map_congr_left fun i _ => ?_)
  · have hend : (i + 1)*size ≤ xs.length / size*size :=
      Nat.mul_le_mul_right _ (List.mem_range.mp hi)
    rw [Nat.add_mul,Nat.one_mul] at hend
    rw [List.drop_append_of_le_length (by omega),List.take_append_of_le_length]
    rw [List.length_drop]
    omega
  · rw [Function.comp_apply,Nat.add_mul,← List.drop_drop,List.drop_append_of_le_length hle]
    rfl

theorem rest_append (hpos : 0 < size) :
    rest size (xs ++ ys) = rest size (rest size xs ++ ys) := by
  have hle := Nat.div_mul_le_self xs.length size
  rw [rest,length_div_append xs ys hpos,Nat.add_mul,← List.drop_drop,
    List.drop_append_of_le_length hle]
  rfl

/-- A fold goes on from where it stopped, the rest coming before what is appended. -/
theorem absorb_append (hpos : 0 < size) (f : σ → List α → σ) (s : σ) :
    absorb size f s (xs ++ ys) = absorb size f (absorb size f s xs) (rest size xs ++ ys) := by
  rw [absorb,blocks_append xs ys hpos,List.foldl_append]
  rfl

theorem absorb_block {xs : List α} (hpos : 0 < size) (h : xs.length = size)
    (f : σ → List α → σ) (s : σ) : absorb size f s xs = f s xs := by
  rw [absorb,blocks_of_length hpos h]
  rfl

theorem absorb_of_lt {xs : List α} (h : xs.length < size) (f : σ → List α → σ) (s : σ) :
    absorb size f s xs = s := by
  rw [absorb,blocks_of_lt h]
  rfl

/-- `memcpy(buf + pos, data, ...)`. -/
def writeAt (buf : List α) (pos : ℕ) (data : List α) : List α :=
  buf.take pos ++ data ++ buf.drop (pos + data.length)

theorem length_writeAt {buf data : List α} {pos : ℕ} (h : pos + data.length ≤ buf.length) :
    (writeAt buf pos data).length = buf.length := by
  simp only [writeAt,List.length_append,List.length_take,List.length_drop]
  omega

theorem take_writeAt {buf data : List α} {pos : ℕ} (h : pos ≤ buf.length) :
    (writeAt buf pos data).take (pos + data.length) = buf.take pos ++ data := by
  have hlen : (buf.take pos ++ data).length = pos + data.length := by simp [h]
  rw [writeAt,← hlen,List.take_left]

theorem getElem?_writeAt_of_lt {buf data : List α} {pos i : ℕ} (hpos : pos ≤ buf.length)
    (hi : i < pos) : (writeAt buf pos data)[i]? = buf[i]? := by
  have hlen : (buf.take pos).length = pos := by simp [hpos]
  rw [writeAt,List.append_assoc,List.getElem?_append_left (by omega),List.getElem?_take_of_lt hi]

theorem getElem?_writeAt_data {buf data : List α} {pos j : ℕ} (hpos : pos ≤ buf.length)
    (hj : j < data.length) : (writeAt buf pos data)[pos + j]? = data[j]? := by
  have hlen : (buf.take pos).length = pos := by simp [hpos]
  rw [writeAt,List.append_assoc,List.getElem?_append_right (by omega),hlen,
    Nat.add_sub_cancel_left,List.getElem?_append_left hj]

theorem getElem?_writeAt_of_le {buf data : List α} {pos i : ℕ} (hpos : pos ≤ buf.length)
    (hi : pos + data.length ≤ i) : (writeAt buf pos data)[i]? = buf[i]? := by
  have hlen : (buf.take pos ++ data).length = pos + data.length := by simp [hpos]
  rw [writeAt,List.getElem?_append_right (by omega),hlen,List.getElem?_drop,
    Nat.add_sub_cancel' hi]

end Sidechain.Blocks
