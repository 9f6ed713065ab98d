import Sidechain.Library.Run
import Sidechain.Primitives.Outcome
import Mathlib.Data.List.Forall2
import Mathlib.Logic.Function.Basic
import Mathlib.Tactic.Linarith

/-! A vector that keeps few elements in itself and more of them in a block of the heap, beside the
list of its elements. Allocation does not fail. -/
namespace Sidechain.Prevectors
open Run

/-- The parameters of `prevector`: how many elements are kept directly, `sizeof(T)`, the bytes of
the union that `capacity` and `indirect` take, and `T()`. -/
structure Layout where
  N : ℕ
  size_T : ℕ
  overlay : ℕ
  init : Fin size_T → UInt8
  N_lt : N < 2^31

/-- A value by its object representation: elements are moved as bytes. -/
abbrev Obj (L : Layout) := Fin L.size_T → UInt8

/-- What lies in the place of an element; `none` is a byte that nothing determines. -/
abbrev Cell (L : Layout) := Fin L.size_T → Option UInt8

abbrev Memory (L : Layout) := ℕ → Cell L

/-- A block of the heap; when it is reallocated its address changes. -/
structure Block (L : Layout) where
  address : ℕ
  capacity : ℕ
  data : Memory L

/-- The union: its bytes as elements, and as a capacity and a pointer if that is what they are. -/
structure DirectOrIndirect (L : Layout) where
  direct : Memory L
  indirect : Option (Block L)

structure Prevector (L : Layout) where
  _size : ℕ
  _union : DirectOrIndirect L

variable {L : Layout}

/-- `size_type`. -/
def u32 (n : ℕ) : ℕ := n % 2^32

def stored (t : Obj L) : Cell L := fun k => some (t k)

def undetermined : Memory L := fun _ _ => none

def undefined {α : Type} : Outcome α := .error (.undefined "prevector")

def deref (c : Cell L) : Outcome (Obj L) :=
  if ∀ k, (c k).isSome = true then .ok fun k => (c k).getD 0 else undefined

/-- `memmove` or `memcpy` of `n` elements. -/
def moved (dst src n : ℕ) (m : Memory L) : Memory L := fun i =>
  if dst ≤ i ∧ i < dst + n then m (src + (i - dst)) else m i

/-- The bytes that a capacity and a pointer are written over. -/
def clobbered (m : Memory L) : Memory L := fun i k =>
  if i * L.size_T + k < L.overlay then none else m i k

namespace Prevector

def is_direct (v : Prevector L) : Bool := decide (v._size ≤ L.N)

def size (v : Prevector L) : ℕ := if v.is_direct then v._size else v._size - L.N - 1

def capacity (v : Prevector L) : ℕ :=
  if v.is_direct then L.N else v._union.indirect.elim 0 Block.capacity

/-- The memory behind `item_ptr`. -/
def items (v : Prevector L) : Memory L :=
  if v.is_direct then v._union.direct else v._union.indirect.elim undetermined Block.data

def setItems (v : Prevector L) (m : Memory L) : Prevector L :=
  if v.is_direct then {v with _union := ⟨m,none⟩}
  else {v with _union.indirect := v._union.indirect.map fun b => {b with data := m}}

/-- A position is converted to `difference_type`. -/
def Within (v : Prevector L) (n : ℕ) : Prop := n ≤ v.capacity ∧ n ≤ 2^31

instance (v : Prevector L) (n : ℕ) : Decidable (v.Within n) :=
  inferInstanceAs (Decidable (n ≤ v.capacity ∧ n ≤ 2^31))

/-- `*item_ptr(pos)`. -/
def item (v : Prevector L) (pos : ℕ) : Outcome (Obj L) :=
  if v.Within (pos + 1) then deref (v.items pos) else undefined

/-- `new(item_ptr(pos)) T(t)`. -/
def construct (v : Prevector L) (pos : ℕ) (t : Obj L) : Outcome (Prevector L) :=
  if v.Within (pos + 1) then .ok (v.setItems (Function.update v.items pos (stored t)))
  else undefined

/-- `memmove(item_ptr(dst), item_ptr(src), n * sizeof(T))`. -/
def move (v : Prevector L) (dst src n : ℕ) : Outcome (Prevector L) :=
  if n = 0 ∨ v.Within (dst + n) ∧ v.Within (src + n) then
    .ok (v.setItems (moved dst src n v.items))
  else undefined

/-- `_size += n`. -/
def addSize (v : Prevector L) (n : ℕ) : Prevector L := {v with _size := u32 (v._size + n)}

/-- `_size--`. -/
def pop_back (v : Prevector L) : Prevector L :=
  {v with _size := if v._size = 0 then 2^32 - 1 else v._size - 1}

def change_capacity (v : Prevector L) (new_capacity : ℕ) : Outcome (Prevector L) :=
  if new_capacity ≤ L.N then
    if v.is_direct then .ok v
    else
      match v._union.indirect with
      | none => undefined
      | some b =>
        if v.size ≤ L.N then
          .ok ⟨v._size - (L.N + 1),
            ⟨fun i => if i < v.size then b.data i else v._union.direct i,none⟩⟩
        else undefined
  else if v.is_direct then
    .ok ⟨u32 (v._size + (L.N + 1)),⟨clobbered v._union.direct,
      some ⟨0,new_capacity,fun i => if i < v.size then v._union.direct i else fun _ => none⟩⟩⟩
  else
    match v._union.indirect with
    | none => undefined
    | some b => .ok {v with _union.indirect := some ⟨b.address + 1,new_capacity,
        fun i => if i < min b.capacity new_capacity then b.data i else fun _ => none⟩}

def reserve (v : Prevector L) (new_capacity : ℕ) : Outcome (Prevector L) :=
  if new_capacity > v.capacity then v.change_capacity new_capacity else .ok v

/-- The loop that appends copies one by one. -/
def appendAll : List (Obj L) → Prevector L → Outcome (Prevector L)
  | [],v => .ok v
  | t::ts,v => do
    let v := v.addSize 1
    let v ← v.construct (v.size - 1) t
    appendAll ts v

def resize (v : Prevector L) (new_size : ℕ) : Outcome (Prevector L) := do
  let v := pop_back^[v.size - new_size] v
  let v ← v.reserve new_size
  appendAll (List.replicate (new_size - v.size) L.init) v

def clear (v : Prevector L) : Outcome (Prevector L) := v.resize 0

def shrink_to_fit (v : Prevector L) : Outcome (Prevector L) := v.change_capacity v.size

/-- `prevector()`. -/
def empty : Prevector L := ⟨0,⟨undetermined,none⟩⟩

def assign (v : Prevector L) (n : ℕ) (val : Obj L) : Outcome (Prevector L) := do
  let v ← v.clear
  let v ← v.reserve n
  appendAll (List.replicate (n - v.size) val) v

def assignRange (v : Prevector L) (range : List (Obj L)) : Outcome (Prevector L) := do
  let v ← v.clear
  let v ← v.reserve (u32 range.length)
  appendAll range v

def ofSize (n : ℕ) : Outcome (Prevector L) := empty.resize n

def ofValue (n : ℕ) (val : Obj L) : Outcome (Prevector L) := do
  let v ← empty.change_capacity n
  appendAll (List.replicate (n - v.size) val) v

def ofRange (range : List (Obj L)) : Outcome (Prevector L) := do
  let v ← empty.change_capacity (u32 range.length)
  appendAll range v

/-- From `begin()` to `end()`. -/
def elements (v : Prevector L) : Outcome (List (Obj L)) := (List.range v.size).mapM v.item

/-- From `rbegin()` to `rend()`. -/
def reversed (v : Prevector L) : Outcome (List (Obj L)) := (List.range v.size).reverse.mapM v.item

def ofOther (other : Prevector L) : Outcome (Prevector L) := do
  let v ← empty.change_capacity other.size
  let range ← other.elements
  appendAll range v

/-- `operator=`, for another vector. -/
def assignOther (v other : Prevector L) : Outcome (Prevector L) := do
  let v ← v.resize 0
  let v ← v.change_capacity other.size
  let range ← other.elements
  appendAll range v

/-- Before an insertion. -/
def grow (v : Prevector L) (new_size : ℕ) : Outcome (Prevector L) :=
  if v.capacity < new_size then v.change_capacity (u32 (new_size + new_size / 2)) else .ok v

end Prevector

/-- An argument of type `const T&`: a value elsewhere or an element of the vector itself. -/
inductive Argument (L : Layout) where
  | value (t : Obj L)
  | element (pos : ℕ)

/-- The memory that a reference into the vector as it was sees now: none when it dangles. -/
def view (before now : Prevector L) : Memory L :=
  if before.is_direct then now._union.direct
  else
    match before._union.indirect,now._union.indirect with
    | some b,some b' => if b.address = b'.address then b'.data else undetermined
    | _,_ => undetermined

def Argument.read (before now : Prevector L) : Argument L → Outcome (Obj L)
  | .value t => .ok t
  | .element pos => deref (view before now pos)

namespace Prevector

/-- The loop over `count` copies of an argument. -/
def placeCopies (before : Prevector L) (value : Argument L) :
    ℕ → ℕ → Prevector L → Outcome (Prevector L)
  | 0,_,v => .ok v
  | count+1,p,v => do
    let t ← value.read before v
    let v ← v.construct p t
    placeCopies before value count (p + 1) v

def placeRange : List (Obj L) → ℕ → Prevector L → Outcome (Prevector L)
  | [],_,v => .ok v
  | t::range,p,v => do
    let v ← v.construct p t
    placeRange range (p + 1) v

/-- The room for `count` elements at `p`. -/
def open_gap (v : Prevector L) (p count : ℕ) : Outcome (Prevector L) := do
  let new_size := u32 (v.size + count)
  let v ← v.grow new_size
  let v ← v.move (p + count) p (v.size - p)
  .ok (v.addSize count)

def insert (v : Prevector L) (p : ℕ) (value : Argument L) : Outcome (Prevector L) := do
  let now ← v.open_gap p 1
  let t ← value.read v now
  now.construct p t

def insertCount (v : Prevector L) (p count : ℕ) (value : Argument L) : Outcome (Prevector L) := do
  let now ← v.open_gap p count
  placeCopies v value count p now

def insertRange (v : Prevector L) (p : ℕ) (range : List (Obj L)) : Outcome (Prevector L) := do
  let now ← v.open_gap p range.length
  placeRange range p now

def erase (v : Prevector L) (p : ℕ) : Outcome (Prevector L) := do
  let v ← v.move p (p + 1) (v.size - (p + 1))
  .ok v.pop_back

def eraseRange (v : Prevector L) (first last : ℕ) : Outcome (Prevector L) :=
  (pop_back^[last - first] v).move first last (v.size - last)

def push_back (v : Prevector L) (value : Argument L) : Outcome (Prevector L) := do
  let new_size := u32 (v.size + 1)
  let now ← v.grow new_size
  let t ← value.read v now
  let now ← now.construct now.size t
  .ok (now.addSize 1)

end Prevector

/-- Only the bytes of the capacity and the pointer come from the other union. -/
def DirectOrIndirect.withHead (u other : DirectOrIndirect L) : DirectOrIndirect L :=
  ⟨fun i k => if i * L.size_T + k < L.overlay then other.direct i k else u.direct i k,
    other.indirect⟩

/-- `swap`: the condition is `_size & other._size & 1`. -/
def Prevector.swap (v other : Prevector L) : Prevector L × Prevector L :=
  if v._size % 2 = 1 ∧ other._size % 2 = 1 then
    (⟨other._size,v._union.withHead other._union⟩,⟨v._size,other._union.withHead v._union⟩)
  else (⟨other._size,other._union⟩,⟨v._size,v._union⟩)

/-- An operation on one vector. -/
inductive Edit (L : Layout) where
  | construct
  | constructSize (n : ℕ)
  | constructValue (n : ℕ) (val : Obj L)
  | constructRange (range : List (Obj L))
  | assign (n : ℕ) (val : Obj L)
  | assignRange (range : List (Obj L))
  | resize (n : ℕ)
  | reserve (n : ℕ)
  | shrink_to_fit
  | clear
  | insert (p : ℕ) (value : Argument L)
  | insertCount (p count : ℕ) (value : Argument L)
  | insertRange (p : ℕ) (range : List (Obj L))
  | erase (p : ℕ)
  | eraseRange (first last : ℕ)
  | push_back (value : Argument L)
  | pop_back
  | update (p : ℕ) (t : Obj L)

def Edit.run (v : Prevector L) : Edit L → Outcome (Prevector L)
  | .construct => .ok Prevector.empty
  | .constructSize n => Prevector.ofSize n
  | .constructValue n val => Prevector.ofValue n val
  | .constructRange range => Prevector.ofRange range
  | .assign n val => v.assign n val
  | .assignRange range => v.assignRange range
  | .resize n => v.resize n
  | .reserve n => v.reserve n
  | .shrink_to_fit => v.shrink_to_fit
  | .clear => v.clear
  | .insert p value => v.insert p value
  | .insertCount p count value => v.insertCount p count value
  | .insertRange p range => v.insertRange p range
  | .erase p => v.erase p
  | .eraseRange first last => v.eraseRange first last
  | .push_back value => v.push_back value
  | .pop_back => .ok v.pop_back
  | .update p t => v.construct p t

/-- What an argument stands for in a list. -/
def Argument.get (xs : List (Obj L)) : Argument L → Obj L
  | .value t => t
  | .element pos => xs.getD pos L.init

/-- The same operation of `std::vector`. -/
def Edit.apply (xs : List (Obj L)) : Edit L → List (Obj L)
  | .construct => []
  | .constructSize n => List.replicate n L.init
  | .constructValue n val => List.replicate n val
  | .constructRange range => range
  | .assign n val => List.replicate n val
  | .assignRange range => range
  | .resize n => xs.take n ++ List.replicate (n - xs.length) L.init
  | .reserve _ => xs
  | .shrink_to_fit => xs
  | .clear => []
  | .insert p value => xs.take p ++ ([value.get xs] ++ xs.drop p)
  | .insertCount p count value =>
    xs.take p ++ (List.replicate count (value.get xs) ++ xs.drop p)
  | .insertRange p range => xs.take p ++ (range ++ xs.drop p)
  | .erase p => xs.eraseIdx p
  | .eraseRange first last => xs.take first ++ xs.drop last
  | .push_back value => xs ++ [value.get xs]
  | .pop_back => xs.dropLast
  | .update p t => xs.set p t

def Argument.Valid (xs : List (Obj L)) : Argument L → Prop
  | .value _ => True
  | .element pos => pos < xs.length

/-- The positions are valid, and a capacity is of `size_type`. -/
def Edit.Valid (xs : List (Obj L)) : Edit L → Prop
  | .reserve n => n < 2^32
  | .insert p value => p ≤ xs.length ∧ value.Valid xs
  | .insertCount p _ value => p ≤ xs.length ∧ value.Valid xs
  | .insertRange p _ => p ≤ xs.length
  | .erase p => p < xs.length
  | .eraseRange first last => first ≤ last ∧ last ≤ xs.length
  | .push_back value => value.Valid xs
  | .pop_back => xs ≠ []
  | .update p _ => p < xs.length
  | _ => True

/-- A reference into the vector itself outlives the insertion of `count` elements at `p`: with room
the element must not move away from it, unless an equal one moves there; without room the vector
must be direct and the element lie behind the bytes that the pointer is written over. -/
def Argument.Survives (v : Prevector L) (xs : List (Obj L)) (p count : ℕ) : Argument L → Prop
  | .value _ => True
  | .element pos =>
    if xs.length + count ≤ v.capacity then pos < p + count ∨ xs[pos - count]? = xs[pos]?
    else v.is_direct = true ∧ L.overlay ≤ pos * L.size_T

/-- The condition on an operation: the number of elements fits in `difference_type`, and a reference
into the vector itself survives. -/
def Edit.Met (v : Prevector L) (xs : List (Obj L)) (e : Edit L) : Prop :=
  (e.apply xs).length < 2^31 ∧
    match e with
    | .insert p value => value.Survives v xs p 1
    | .insertCount p count value => value.Survives v xs p count
    | .push_back value => value.Survives v xs xs.length 1
    | _ => True

/-- The elements of a direct vector behind the bytes of a capacity and a pointer are those that the
other vector has there. -/
def KeepsTail (v other : Prevector L) : Prop :=
  v.is_direct = true → ∀ i < v.size, ∀ k : Fin L.size_T, L.overlay ≤ i * L.size_T + k →
    other._union.direct i k = v._union.direct i k

/-- The condition on `swap`: the encoded sizes are not both odd, or no element is cut. -/
def SwapMet (v other : Prevector L) : Prop :=
  v._size % 2 = 1 ∧ other._size % 2 = 1 → KeepsTail v other ∧ KeepsTail other v

/-- Vectors by their names. -/
abbrev Vectors (L : Layout) := ℕ → Prevector L

inductive Op (L : Layout) where
  | edit (v : ℕ) (e : Edit L)
  | copy (v other : ℕ)
  | assign (v other : ℕ)
  | swap (v other : ℕ)

def Op.run (s : Vectors L) : Op L → Outcome (Vectors L)
  | .edit v e => do
    let now ← e.run (s v)
    .ok (Function.update s v now)
  | .copy v other => do
    let now ← Prevector.ofOther (s other)
    .ok (Function.update s v now)
  | .assign v other =>
    if v = other then .ok s
    else do
      let now ← (s v).assignOther (s other)
      .ok (Function.update s v now)
  | .swap v other =>
    let now := (s v).swap (s other)
    .ok (Function.update (Function.update s v now.1) other now.2)

def Op.apply (s : ℕ → List (Obj L)) : Op L → ℕ → List (Obj L)
  | .edit v e => Function.update s v (e.apply (s v))
  | .copy v other => Function.update s v (s other)
  | .assign v other => Function.update s v (s other)
  | .swap v other => Function.update (Function.update s v (s other)) other (s v)

def Op.Valid (xs : ℕ → List (Obj L)) : Op L → Prop
  | .edit v e => e.Valid (xs v)
  | _ => True

/-- The condition on an operation. -/
def Op.Met (s : Vectors L) (xs : ℕ → List (Obj L)) : Op L → Prop
  | .edit v e => e.Met (s v) (xs v)
  | .swap v other => SwapMet (s v) (s other)
  | _ => True

def run (s : Vectors L) (ops : List (Op L)) : Outcome (Vectors L) := ops.foldlM Op.run s

def apply (xs : ℕ → List (Obj L)) (ops : List (Op L)) : ℕ → List (Obj L) := ops.foldl Op.apply xs

/-- The positions of all operations are valid. -/
def Valid (xs : ℕ → List (Obj L)) : List (Op L) → Prop
  | [] => True
  | op::ops => op.Valid xs ∧ Valid (op.apply xs) ops

/-- Each operation of a run meets the condition in the state that it finds. -/
def Meets (s : Vectors L) (xs : ℕ → List (Obj L)) : List (Op L) → Prop
  | [] => True
  | op::ops => op.Met s xs ∧ ∀ s', op.run s = .ok s' → Meets s' (op.apply xs) ops

/-- No vector holds anything. -/
def start : Vectors L := fun _ => Prevector.empty

/-- A vector looks like a list: its size, its capacity, every element, and both orders. -/
structure Looks (v : Prevector L) (xs : List (Obj L)) : Prop where
  size : v.size = xs.length
  capacity : v.size ≤ v.capacity
  item : ∀ p t, xs[p]? = some t → v.item p = .ok t
  elements : v.elements = .ok xs
  reversed : v.reversed = .ok xs.reverse

/-- A vector of a size, with room for so many elements, over a memory. -/
inductive Rep : Prevector L → ℕ → ℕ → Memory L → Prop
  | direct {k : ℕ} {m : Memory L} {h : Option (Block L)} (hk : k ≤ L.N) : Rep ⟨k,⟨m,h⟩⟩ k L.N m
  | indirect {k room a : ℕ} {m d : Memory L} (hk : k ≤ room) (hroom : L.N < room)
      (hroom_lt : room < 2^32) (hk_lt : k < 2^31) :
      Rep ⟨k + (L.N + 1),⟨d,some ⟨a,room,m⟩⟩⟩ k room m

variable {v now : Prevector L} {k room n p : ℕ} {m : Memory L} {xs ys ts : List (Obj L)}

theorem direct_iff {k : ℕ} {u : DirectOrIndirect L} :
    (⟨k,u⟩ : Prevector L).is_direct = true ↔ k ≤ L.N := decide_eq_true_iff

theorem is_direct_of_le {u : DirectOrIndirect L} (h : k ≤ L.N) :
    (⟨k,u⟩ : Prevector L).is_direct = true := direct_iff.mpr h

theorem not_direct {u : DirectOrIndirect L} : (⟨k + (L.N + 1),u⟩ : Prevector L).is_direct = false :=
  decide_eq_false (by change ¬k + (L.N + 1) ≤ L.N; omega)

namespace Rep

theorem size_le (h : Rep v k room m) : k ≤ room := by
  cases h with
  | direct hk => exact hk
  | indirect hk => exact hk

theorem size_lt (h : Rep v k room m) : k < 2^31 := by
  cases h with
  | direct hk => exact Nat.lt_of_le_of_lt hk L.N_lt
  | indirect _ _ _ hk => exact hk

theorem size (h : Rep v k room m) : v.size = k := by
  cases h with
  | direct hk => rw [Prevector.size,is_direct_of_le hk,if_pos rfl]
  | indirect =>
    rw [Prevector.size,not_direct,if_neg Bool.false_ne_true]
    change k + (L.N + 1) - L.N - 1 = k
    omega

theorem capacity (h : Rep v k room m) : v.capacity = room := by
  cases h with
  | direct hk => rw [Prevector.capacity,is_direct_of_le hk,if_pos rfl]
  | indirect => rw [Prevector.capacity,not_direct,if_neg Bool.false_ne_true]; rfl

theorem items (h : Rep v k room m) : v.items = m := by
  cases h with
  | direct hk => rw [Prevector.items,is_direct_of_le hk,if_pos rfl]
  | indirect => rw [Prevector.items,not_direct,if_neg Bool.false_ne_true]; rfl

theorem setItems (h : Rep v k room m) (m' : Memory L) : Rep (v.setItems m') k room m' := by
  cases h with
  | direct hk =>
    rw [Prevector.setItems,is_direct_of_le hk,if_pos rfl]
    exact .direct hk
  | indirect hk hroom hroom_lt hk_lt =>
    rw [Prevector.setItems,not_direct,if_neg Bool.false_ne_true]
    exact .indirect hk hroom hroom_lt hk_lt

theorem addSize (h : Rep v k room m) (hroom : k + n ≤ room) (hlt : k + n < 2^31) :
    Rep (v.addSize n) (k + n) room m := by
  have hN := L.N_lt
  cases h with
  | direct hk =>
    have hsize : u32 (k + n) = k + n := Nat.mod_eq_of_lt (by omega)
    rw [Prevector.addSize,hsize]
    exact .direct hroom
  | indirect hk hN' hroom_lt hk_lt =>
    have hsize : u32 (k + (L.N + 1) + n) = k + n + (L.N + 1) := by
      rw [u32,Nat.mod_eq_of_lt (by omega)]
      omega
    rw [Prevector.addSize,hsize]
    exact .indirect hroom hN' hroom_lt hlt

theorem pop_back (h : Rep v (k + 1) room m) : Rep v.pop_back k room m := by
  rw [Prevector.pop_back]
  cases h with
  | direct hk => exact .direct (Nat.le_of_succ_le hk)
  | indirect hk hN hroom_lt hk_lt =>
    rw [Nat.add_right_comm k 1]
    exact .indirect (Nat.le_of_succ_le hk) hN hroom_lt (Nat.lt_of_succ_lt hk_lt)

theorem pop_backs (h : Rep v (k + n) room m) : Rep (Prevector.pop_back^[n] v) k room m := by
  induction n generalizing v with
  | zero => exact h
  | succ n ih => exact ih h.pop_back

theorem within (h : Rep v k room m) (hn : n ≤ room) (hlt : n ≤ 2^31) : v.Within n :=
  ⟨h.capacity ▸ hn,hlt⟩

theorem construct (h : Rep v k room m) (hp : p < room) (hlt : p < 2^31) (t : Obj L) :
    v.construct p t = .ok (v.setItems (Function.update m p (stored t))) := by
  rw [Prevector.construct,if_pos (h.within hp hlt),h.items]

theorem move (h : Rep v k room m) (dst src n : ℕ)
    (hin : n = 0 ∨ dst + n ≤ room ∧ src + n ≤ room ∧ dst + n ≤ 2^31 ∧ src + n ≤ 2^31) :
    v.move dst src n = .ok (v.setItems (moved dst src n m)) := by
  rw [Prevector.move,if_pos (hin.imp_right fun hin =>
    ⟨h.within hin.1 hin.2.2.1,h.within hin.2.1 hin.2.2.2⟩),h.items]

end Rep

/-- The memory has the elements of a list. -/
def Stores (m : Memory L) (xs : List (Obj L)) : Prop := ∀ i t, xs[i]? = some t → m i = stored t

/-- The vector holds a list. -/
def Holds (v : Prevector L) (xs : List (Obj L)) (room : ℕ) : Prop :=
  ∃ m, Rep v xs.length room m ∧ Stores m xs

/-- An operation ends with a vector that holds a list. -/
def Becomes (x : Outcome (Prevector L)) (xs : List (Obj L)) : Prop :=
  ∃ now room, x = .ok now ∧ Holds now xs room

theorem deref_stored (t : Obj L) : deref (stored t) = .ok t := if_pos fun _ => rfl

theorem Stores.congr {m' : Memory L} (h : Stores m xs) (heq : ∀ i < xs.length, m' i = m i) :
    Stores m' xs := by
  intro i t ht
  obtain ⟨hi,-⟩ := List.getElem?_eq_some_iff.mp ht
  rw [heq i hi]
  exact h i t ht

theorem Stores.of_append (h : Stores m (xs ++ ys)) : Stores m xs := by
  intro i t ht
  obtain ⟨hi,-⟩ := List.getElem?_eq_some_iff.mp ht
  exact h i t (by rw [List.getElem?_append_left hi]; exact ht)

theorem Stores.snoc (h : Stores m xs) (t : Obj L) :
    Stores (Function.update m xs.length (stored t)) (xs ++ [t]) := by
  intro i t' ht
  rcases Nat.lt_trichotomy i xs.length with hi | rfl | hi
  · rw [List.getElem?_append_left hi] at ht
    rw [Function.update_of_ne hi.ne]
    exact h i t' ht
  · rw [List.getElem?_concat_length] at ht
    rw [Function.update_self,Option.some.inj ht]
  · rw [List.getElem?_eq_none (by rw [List.length_append,List.length_singleton]; exact hi)] at ht
    exact nomatch ht

theorem Stores.set (h : Stores m xs) (p : ℕ) (t : Obj L) :
    Stores (Function.update m p (stored t)) (xs.set p t) := by
  intro i t' ht
  by_cases hi : i = p
  · subst hi
    obtain ⟨hlt,hget⟩ := List.getElem?_eq_some_iff.mp ht
    rw [List.getElem_set_self] at hget
    rw [Function.update_self,hget]
  · rw [List.getElem?_set_ne (Ne.symm hi)] at ht
    rw [Function.update_of_ne hi]
    exact h i t' ht

theorem holds_empty : Holds (Prevector.empty : Prevector L) [] L.N :=
  ⟨undetermined,.direct (Nat.zero_le _),fun _ _ h => nomatch h⟩

theorem change_capacity_holds (h : Holds v xs room) (hn : n < 2^32) (hle : xs.length ≤ n) :
    ∃ now room', v.change_capacity n = .ok now ∧ Holds now xs room' ∧ n ≤ room' := by
  obtain ⟨m,hrep,hstores⟩ := h
  have hsize := hrep.size
  have hlt := hrep.size_lt
  have hN := L.N_lt
  rw [Prevector.change_capacity]
  cases hrep with
  | direct hk =>
    rw [is_direct_of_le hk,if_pos rfl,if_pos rfl]
    split_ifs with hnN
    · exact ⟨_,_,rfl,⟨m,.direct hk,hstores⟩,hnN⟩
    · have hencoded : u32 (xs.length + (L.N + 1)) = xs.length + (L.N + 1) :=
        Nat.mod_eq_of_lt (by omega)
      rw [hsize,hencoded]
      exact ⟨_,n,rfl,⟨_,.indirect hle (by omega) hn hlt,hstores.congr fun i hi => if_pos hi⟩,
        le_refl n⟩
  | indirect hk hroom hroom_lt hk_lt =>
    rw [not_direct,if_neg Bool.false_ne_true,if_neg Bool.false_ne_true]
    by_cases hnN : n ≤ L.N
    · rw [if_pos hnN,hsize]
      dsimp only
      rw [if_pos (hle.trans hnN),Nat.add_sub_cancel]
      exact ⟨_,_,rfl,⟨_,.direct (hle.trans hnN),hstores.congr fun i hi => if_pos hi⟩,hnN⟩
    · rw [if_neg hnN]
      exact ⟨_,n,rfl,⟨_,.indirect hle (by omega) hn hlt,
        hstores.congr fun i hi => if_pos (lt_min (hi.trans_le hk) (hi.trans_le hle))⟩,le_refl n⟩

theorem reserve_holds (h : Holds v xs room) (hn : n < 2^32) :
    ∃ now room', v.reserve n = .ok now ∧ Holds now xs room' ∧ n ≤ room' := by
  obtain ⟨m,hrep,hstores⟩ := h
  rw [Prevector.reserve,hrep.capacity]
  split_ifs with hcap
  · exact change_capacity_holds ⟨m,hrep,hstores⟩ hn (hrep.size_le.trans hcap.le)
  · exact ⟨v,room,rfl,⟨m,hrep,hstores⟩,not_lt.mp hcap⟩

theorem appendAll_holds (ts : List (Obj L)) (h : Holds v xs room)
    (hroom : xs.length + ts.length ≤ room) (hlt : xs.length + ts.length < 2^31) :
    ∃ now, Prevector.appendAll ts v = .ok now ∧ Holds now (xs ++ ts) room := by
  induction ts generalizing v xs with
  | nil => exact ⟨v,rfl,(List.append_nil xs).symm ▸ h⟩
  | cons t ts ih =>
    rw [List.length_cons] at hroom hlt
    obtain ⟨m,hrep,hstores⟩ := h
    have hgrown := hrep.addSize (n := 1) (by omega) (by omega)
    rw [Prevector.appendAll,hgrown.size,Nat.add_sub_cancel,hgrown.construct (by omega) (by omega)]
    have hlength : (xs ++ [t]).length = xs.length + 1 := by
      rw [List.length_append,List.length_singleton]
    have hone : Holds ((v.addSize 1).setItems (Function.update m xs.length (stored t)))
        (xs ++ [t]) room := ⟨_,hlength ▸ hgrown.setItems _,hstores.snoc t⟩
    obtain ⟨now,hnow,hholds⟩ := ih hone (by omega) (by omega)
    rw [List.append_assoc] at hholds
    exact ⟨now,hnow,hholds⟩

theorem pop_backs_holds (h : Holds v xs room) (hn : n ≤ xs.length) :
    Holds (Prevector.pop_back^[n] v) (xs.take (xs.length - n)) room := by
  obtain ⟨m,hrep,hstores⟩ := h
  have hlength : (xs.take (xs.length - n)).length = xs.length - n := by
    rw [List.length_take]
    omega
  refine ⟨m,?_,?_⟩
  · rw [hlength]
    rw [← Nat.sub_add_cancel hn] at hrep
    exact hrep.pop_backs
  · rw [← List.take_append_drop (xs.length - n) xs] at hstores
    exact hstores.of_append

theorem resize_becomes (h : Holds v xs room) (hn : n < 2^31) :
    Becomes (v.resize n) (xs.take n ++ List.replicate (n - xs.length) L.init) := by
  have hsize : v.size = xs.length := h.choose_spec.1.size
  have hpops := pop_backs_holds h (Nat.sub_le xs.length n)
  have hkept : xs.take (xs.length - (xs.length - n)) = xs.take n := by
    rcases Nat.le_total n xs.length with hle | hle
    · rw [Nat.sub_sub_self hle]
    · rw [Nat.sub_eq_zero_of_le hle,Nat.sub_zero,List.take_length,List.take_of_length_le hle]
  rw [hkept] at hpops
  obtain ⟨now,room',hnow,hholds,hroom⟩ := reserve_holds hpops (n := n) (by omega)
  have hlength : (xs.take n).length = min n xs.length := List.length_take
  have hmissing : n - now.size = n - xs.length := by
    rw [hholds.choose_spec.1.size,hlength]
    omega
  obtain ⟨last,hlast,hdone⟩ :=
    appendAll_holds (List.replicate (n - xs.length) L.init) hholds
    (by rw [hlength,List.length_replicate]; omega) (by rw [hlength,List.length_replicate]; omega)
  refine ⟨last,room',bind_ok.mpr ⟨now,?_,?_⟩,hdone⟩
  · rw [hsize]
    exact hnow
  · rw [hmissing]
    exact hlast

theorem clear_becomes (h : Holds v xs room) : Becomes v.clear [] := by
  obtain ⟨now,room',hnow,hholds⟩ := resize_becomes h (n := 0) (by norm_num)
  rw [List.take_zero,Nat.zero_sub] at hholds
  exact ⟨now,room',hnow,hholds⟩

theorem fill (ts : List (Obj L)) (h : Holds v [] room) (hroom : ts.length ≤ room)
    (hlt : ts.length < 2^31) :
    ∃ now, Prevector.appendAll ts v = .ok now ∧ Holds now ts room :=
  appendAll_holds ts h (by rwa [List.length_nil,Nat.zero_add])
    (by rwa [List.length_nil,Nat.zero_add])

theorem assign_becomes (h : Holds v xs room) (hn : n < 2^31) (val : Obj L) :
    Becomes (v.assign n val) (List.replicate n val) := by
  obtain ⟨v1,room1,hv1,h1⟩ := clear_becomes h
  obtain ⟨v2,room2,hv2,h2,hroom⟩ := reserve_holds h1 (n := n) (by omega)
  have hlength : (List.replicate n val).length = n := List.length_replicate
  obtain ⟨now,hnow,hholds⟩ := fill (List.replicate n val) h2 (by omega) (by omega)
  refine ⟨now,room2,bind_ok.mpr ⟨v1,hv1,bind_ok.mpr ⟨v2,hv2,?_⟩⟩,hholds⟩
  rw [h2.choose_spec.1.size]
  exact hnow

theorem assignRange_becomes (h : Holds v xs room) (hlt : ts.length < 2^31) :
    Becomes (v.assignRange ts) ts := by
  have hu32 : u32 ts.length = ts.length := Nat.mod_eq_of_lt (by omega)
  obtain ⟨v1,room1,hv1,h1⟩ := clear_becomes h
  obtain ⟨v2,room2,hv2,h2,hroom⟩ := reserve_holds h1 (n := ts.length) (by omega)
  obtain ⟨now,hnow,hholds⟩ := fill ts h2 hroom hlt
  refine ⟨now,room2,bind_ok.mpr ⟨v1,hv1,bind_ok.mpr ⟨v2,?_,hnow⟩⟩,hholds⟩
  rw [hu32]
  exact hv2

theorem refill (h : Holds v [] room) (hn : n = ts.length) (hlt : ts.length < 2^31) :
    Becomes (v.change_capacity n >>= Prevector.appendAll ts) ts := by
  obtain ⟨now,room',hnow,hholds,hroom⟩ :=
    change_capacity_holds h (n := n) (by omega) (Nat.zero_le n)
  obtain ⟨last,hlast,hdone⟩ := fill ts hholds (by omega) hlt
  exact ⟨last,room',bind_ok.mpr ⟨now,hnow,hlast⟩,hdone⟩

theorem ofValue_becomes (hn : n < 2^31) (val : Obj L) :
    Becomes (Prevector.ofValue n val) (List.replicate n val) := by
  have hlength : (List.replicate n val).length = n := List.length_replicate
  obtain ⟨v1,room1,hv1,h1,hroom⟩ := change_capacity_holds (holds_empty (L := L)) (n := n) (by omega)
    (Nat.zero_le n)
  obtain ⟨now,hnow,hholds⟩ := fill (List.replicate n val) h1 (by omega) (by omega)
  refine ⟨now,room1,bind_ok.mpr ⟨v1,hv1,?_⟩,hholds⟩
  rw [h1.choose_spec.1.size]
  exact hnow

theorem ofRange_becomes (hlt : ts.length < 2^31) : Becomes (Prevector.ofRange ts) ts :=
  refill holds_empty (Nat.mod_eq_of_lt (by omega)) hlt

theorem Rep.item (h : Rep v k room m) (hstores : Stores m xs) (hk : xs.length = k) {t : Obj L}
    (ht : xs[p]? = some t) : v.item p = .ok t := by
  obtain ⟨hp,-⟩ := List.getElem?_eq_some_iff.mp ht
  have hle := h.size_le
  have hlt := h.size_lt
  rw [Prevector.item,if_pos (h.within (by omega) (by omega)),h.items,hstores p t ht,deref_stored]

theorem mapM_of_forall₂ {α β : Type} {f : α → Outcome β} {is : List α} {bs : List β}
    (h : List.Forall₂ (fun i b => f i = .ok b) is bs) : is.mapM f = .ok bs := by
  induction h with
  | nil => rfl
  | cons hb _ ih =>
    rw [List.mapM_cons,hb]
    exact bind_ok.mpr ⟨_,rfl,bind_ok.mpr ⟨_,ih,rfl⟩⟩

theorem looks (h : Holds v xs room) : Looks v xs := by
  obtain ⟨m,hrep,hstores⟩ := h
  have hitem : ∀ p t, xs[p]? = some t → v.item p = .ok t := fun p t => hrep.item hstores rfl
  have hall : List.Forall₂ (fun p t => v.item p = .ok t) (List.range v.size) xs := by
    rw [List.forall₂_iff_get,hrep.size]
    refine ⟨List.length_range,fun p hp hp' => ?_⟩
    rw [List.get_eq_getElem,List.getElem_range]
    exact hitem p _ (List.getElem?_eq_getElem hp')
  refine ⟨hrep.size,?_,hitem,mapM_of_forall₂ hall,
    mapM_of_forall₂ (List.forall₂_reverse_iff.mpr hall)⟩
  rw [hrep.size,hrep.capacity]
  exact hrep.size_le

theorem copyInto (h : Holds v ys room) {room' : ℕ} (hnow : Holds now [] room') :
    Becomes (now.change_capacity v.size >>= fun w => v.elements >>= fun range =>
      Prevector.appendAll range w) ys := by
  have hlooks := looks h
  obtain ⟨last,last_room,hrefill,hdone⟩ := refill hnow hlooks.size h.choose_spec.1.size_lt
  obtain ⟨w,hw,hlast⟩ := bind_ok.mp hrefill
  exact ⟨last,last_room,bind_ok.mpr ⟨w,hw,bind_ok.mpr ⟨ys,hlooks.elements,hlast⟩⟩,hdone⟩

theorem assignOther_becomes (h : Holds v ys room) {room' : ℕ} (hnow : Holds now xs room') :
    Becomes (now.assignOther v) ys := by
  obtain ⟨empty,empty_room,hempty,hholds⟩ := clear_becomes hnow
  obtain ⟨last,last_room,hlast,hdone⟩ := copyInto h hholds
  exact ⟨last,last_room,bind_ok.mpr ⟨empty,hempty,hlast⟩,hdone⟩

/-- Elements put over a memory from a position on. -/
def placed (p : ℕ) (ts : List (Obj L)) (m : Memory L) : Memory L := fun i =>
  if p ≤ i then (ts[i - p]?).elim (m i) stored else m i

theorem placed_cons (p : ℕ) (t : Obj L) (ts : List (Obj L)) (m : Memory L) :
    placed p (t::ts) m = placed (p + 1) ts (Function.update m p (stored t)) := by
  funext i
  rw [placed,placed]
  rcases Nat.lt_trichotomy i p with hi | rfl | hi
  · rw [if_neg (by omega),if_neg (by omega),Function.update_of_ne hi.ne]
  · rw [if_pos (le_refl i),if_neg (by omega),Nat.sub_self,Function.update_self]
    rfl
  · obtain ⟨j,rfl⟩ := Nat.exists_eq_add_of_lt hi
    have hj : p + j + 1 - p = j + 1 := by omega
    have hj' : p + j + 1 - (p + 1) = j := by omega
    rw [if_pos hi.le,if_pos (Nat.succ_le_of_lt hi),Function.update_of_ne hi.ne',hj,hj',
      List.getElem?_cons_succ]

theorem placeRange_holds (p : ℕ) (ts : List (Obj L)) (h : Rep v k room m) (hp : p + ts.length ≤ k) :
    ∃ now, Prevector.placeRange ts p v = .ok now ∧ Rep now k room (placed p ts m) := by
  induction ts generalizing v p m with
  | nil =>
    have hsame : placed p [] m = m := funext fun i => ite_self _
    exact ⟨v,rfl,by rw [hsame]; exact h⟩
  | cons t ts ih =>
    rw [List.length_cons] at hp
    obtain ⟨now,hnow,hrep⟩ := ih (p + 1)
      (h.setItems (Function.update m p (stored t))) (by omega)
    refine ⟨now,?_,placed_cons p t ts m ▸ hrep⟩
    have hle := h.size_le
    have hlt := h.size_lt
    rw [Prevector.placeRange,h.construct (by omega) (by omega)]
    exact hnow

/-- What an open gap filled with elements holds. -/
theorem stores_placed (h : Stores m xs) (hp : p ≤ xs.length) :
    Stores (placed p ts (moved (p + ts.length) p (xs.length - p) m))
      (xs.take p ++ (ts ++ xs.drop p)) := by
  have htake : (xs.take p).length = p := List.length_take_of_le hp
  intro i t ht
  rw [placed]
  rcases Nat.lt_or_ge i p with hi | hi
  · rw [List.getElem?_append_left (by omega),List.getElem?_take_of_lt hi] at ht
    rw [if_neg (by omega),moved,if_neg (by omega)]
    exact h i t ht
  · rw [List.getElem?_append_right (by omega),htake] at ht
    rw [if_pos hi]
    rcases Nat.lt_or_ge (i - p) ts.length with hj | hj
    · rw [List.getElem?_append_left hj] at ht
      rw [ht]
      rfl
    · rw [List.getElem?_append_right hj,List.getElem?_drop] at ht
      obtain ⟨hlt,-⟩ := List.getElem?_eq_some_iff.mp ht
      rw [List.getElem?_eq_none hj]
      change moved _ _ _ m i = _
      have hsource : p + (i - (p + ts.length)) = p + (i - p - ts.length) := by omega
      rw [moved,if_pos (by omega),hsource]
      exact h _ t ht

theorem setItems_setItems (v : Prevector L) (m m' : Memory L) :
    (v.setItems m).setItems m' = v.setItems m' := by
  cases hv : v.is_direct with
  | true =>
    have hsame : (v.setItems m).is_direct = true := by
      rw [Prevector.setItems,hv]
      exact hv
    rw [Prevector.setItems,hsame,Prevector.setItems,Prevector.setItems,hv]
    rfl
  | false =>
    have hsame : (v.setItems m).is_direct = false := by
      rw [Prevector.setItems,hv]
      exact hv
    rw [Prevector.setItems,hsame,Prevector.setItems,Prevector.setItems,hv]
    cases hu : v._union.indirect <;> rfl

/-- Where a reference leads after the vector has changed. -/
inductive Follows (before now : Prevector L) : Prop
  /-- The elements are where they were. -/
  | same (hview : ∀ m, view before (now.setItems m) = m) (hitems : view before now = now.items)
  /-- The elements have left the vector for the heap. -/
  | left (hbefore : before.is_direct = true) (hnow : now.is_direct = false)

/-- An argument is read as a value, and it is so after copies of this value are stored. -/
def Reads (before now : Prevector L) (t : Obj L) : Argument L → Prop
  | .value t' => t' = t
  | .element pos => Follows before now ∧ view before now pos = stored t

variable {before : Prevector L} {value : Argument L} {t : Obj L}

theorem Reads.read (h : Reads before now t value) : value.read before now = .ok t := by
  cases value with
  | value t' => exact congrArg Except.ok h
  | element pos =>
    rw [Argument.read,h.2,deref_stored]

theorem Reads.setItems (h : Reads before now t value) (hrep : Rep now k room m) (p : ℕ) :
    Reads before (now.setItems (Function.update m p (stored t))) t value := by
  cases value with
  | value t' => exact h
  | element pos =>
    obtain ⟨hfollows,hpos⟩ := h
    cases hfollows with
    | same hview hitems =>
      refine ⟨.same (fun m' => ?_) ?_,?_⟩
      · rw [setItems_setItems,hview]
      · rw [hview,(hrep.setItems _).items]
      · rw [hview]
        by_cases hp : pos = p
        · rw [hp,Function.update_self]
        · rw [Function.update_of_ne hp,← hpos,hitems,hrep.items]
    | left hbefore hnow =>
      have hkept : now.setItems (Function.update m p (stored t)) = {now with
          _union.indirect := now._union.indirect.map fun b =>
            {b with data := Function.update m p (stored t)}} := by
        rw [Prevector.setItems,hnow]
        rfl
      rw [hkept]
      rw [view,hbefore] at hpos
      exact ⟨.left hbefore hnow,by rw [view,hbefore]; exact hpos⟩

theorem placeCopies_eq (h : Reads before now t value) (hrep : Rep now k room m)
    (hp : p + n ≤ k) :
    Prevector.placeCopies before value n p now =
      Prevector.placeRange (List.replicate n t) p now := by
  induction n generalizing now p m with
  | zero => rfl
  | succ n ih =>
    have hle := hrep.size_le
    have hlt := hrep.size_lt
    rw [Prevector.placeCopies,h.read,List.replicate_succ,Prevector.placeRange]
    change (now.construct p t >>= _) = _
    rw [hrep.construct (by omega) (by omega)]
    exact ih (h.setItems hrep p) (hrep.setItems _) (by omega)

/-- What `grow` gives: the vector itself when there is room, and else another storage. -/
theorem grow_holds (h : Holds v xs room) (hlt : xs.length + n < 2^31) :
    ∃ now room' m', v.grow (u32 (v.size + n)) = .ok now ∧ Rep now xs.length room' m' ∧
      Stores m' xs ∧ xs.length + n ≤ room' ∧
      (xs.length + n ≤ v.capacity → now = v) ∧
      (¬xs.length + n ≤ v.capacity → v.is_direct = true →
        now.is_direct = false ∧ now._union.direct = clobbered v._union.direct) := by
  obtain ⟨m,hrep,hstores⟩ := h
  have hnew : u32 (v.size + n) = xs.length + n := by
    rw [hrep.size]
    exact Nat.mod_eq_of_lt (by omega)
  rw [hnew,Prevector.grow]
  by_cases hcap : xs.length + n ≤ v.capacity
  · rw [if_neg (not_lt.mpr hcap)]
    refine ⟨v,room,m,rfl,hrep,hstores,hrep.capacity ▸ hcap,fun _ => rfl,fun h => absurd hcap h⟩
  · have hgrown : u32 (xs.length + n + (xs.length + n) / 2) =
        xs.length + n + (xs.length + n) / 2 := Nat.mod_eq_of_lt (by omega)
    rw [if_pos (not_le.mp hcap),hgrown]
    obtain ⟨now,room',hnow,⟨m',hrep',hstores'⟩,hroom⟩ := change_capacity_holds ⟨m,hrep,hstores⟩
      (n := xs.length + n + (xs.length + n) / 2) (by omega) (by omega)
    refine ⟨now,room',m',hnow,hrep',hstores',by omega,fun h => absurd h hcap,
      fun _ hdirect => ?_⟩
    have hN : v.capacity = L.N := by rw [Prevector.capacity,hdirect,if_pos rfl]
    have hsize : v._size ≤ L.N := decide_eq_true_iff.mp hdirect
    have hN_lt := L.N_lt
    rw [Prevector.change_capacity,if_neg (by omega),hdirect,if_pos rfl] at hnow
    have hencoded : u32 (v._size + (L.N + 1)) = v._size + (L.N + 1) := Nat.mod_eq_of_lt (by omega)
    rw [hencoded] at hnow
    rw [← Except.ok.inj hnow]
    exact ⟨not_direct,rfl⟩

theorem view_self (h : Rep v k room m) (m' : Memory L) : view v (v.setItems m') = m' := by
  cases h with
  | direct hk =>
    rw [view,Prevector.setItems,is_direct_of_le hk]
    rfl
  | indirect =>
    rw [view,Prevector.setItems,not_direct]
    exact if_pos rfl

theorem follows_self (h : Rep v k room m) (m' : Memory L) : Follows v (v.setItems m') :=
  .same (fun m'' => by rw [setItems_setItems,view_self h])
    (by rw [view_self h,(h.setItems m').items])

theorem is_direct_addSize (h : Rep v k room m) (hroom : k + n ≤ room) (hlt : k + n < 2^31) :
    (v.addSize n).is_direct = v.is_direct := by
  have hN := L.N_lt
  cases h with
  | direct hk =>
    have hsize : u32 (k + n) = k + n := Nat.mod_eq_of_lt (by omega)
    rw [Prevector.addSize,hsize,is_direct_of_le hk,is_direct_of_le hroom]
  | indirect =>
    have hsize : u32 (k + (L.N + 1) + n) = k + n + (L.N + 1) := by
      rw [u32,Nat.mod_eq_of_lt (by omega)]
      omega
    rw [Prevector.addSize,hsize,not_direct,not_direct]

theorem Follows.addSize (h : Follows before now)
    (hdirect : (now.addSize n).is_direct = now.is_direct) : Follows before (now.addSize n) := by
  cases h with
  | same hview hitems =>
    refine .same (fun m => ?_) ?_
    · have hswap : (now.addSize n).setItems m = (now.setItems m).addSize n := by
        rw [Prevector.setItems,hdirect,Prevector.setItems]
        split_ifs <;> rfl
      rw [hswap]
      exact hview m
    · rw [Prevector.items,hdirect]
      exact hitems
  | left hbefore hnow => exact .left hbefore (hdirect.trans hnow)

/-- Behind the bytes of the pointer a direct element stays where it was. -/
theorem view_left (h : Rep v k room m) (hdirect : v.is_direct = true)
    (hnow : now._union.direct = clobbered v._union.direct) (hp : L.overlay ≤ p * L.size_T) :
    view v now p = m p := by
  have hclear : clobbered v._union.direct p = v._union.direct p :=
    funext fun k => if_neg (by omega)
  have hitems : v._union.direct = m := by
    rw [← h.items,Prevector.items,hdirect,if_pos rfl]
  rw [view,hdirect,if_pos rfl,hnow,hclear,hitems]

theorem get_of_valid {pos : ℕ} (h : (Argument.element pos).Valid xs) :
    xs[pos]? = some ((Argument.element pos).get xs) := by
  have hpos : pos < xs.length := h
  rw [Argument.get,List.getD_eq_getElem?_getD,List.getElem?_eq_getElem hpos]
  rfl

theorem open_gap_holds (h : Holds v xs room) (hp : p ≤ xs.length) (hlt : xs.length + n < 2^31) :
    ∃ now room' m', v.open_gap p n = .ok now ∧
      Rep now (xs.length + n) room' (moved (p + n) p (xs.length - p) m') ∧ Stores m' xs ∧
      ∀ value, value.Valid xs → value.Survives v xs p n → Reads v now (value.get xs) value := by
  obtain ⟨now,room',m',hnow,hrep,hstores,hroom,hsame,hleft⟩ := grow_holds h hlt
  obtain ⟨m,hrep_v,hstores_v⟩ := h
  have hmove := hrep.move (p + n) p (xs.length - p) (.inr (by omega))
  have hdirect_gap :=
    is_direct_addSize (hrep.setItems (moved (p + n) p (xs.length - p) m')) hroom hlt
  refine ⟨(now.setItems (moved (p + n) p (xs.length - p) m')).addSize n,room',m',?_,
    (hrep.setItems _).addSize hroom hlt,hstores,?_⟩
  · refine bind_ok.mpr ⟨now,hnow,?_⟩
    rw [hrep.size]
    exact bind_ok.mpr ⟨_,hmove,rfl⟩
  · intro value hvalid hsurvives
    cases value with
    | value t => rfl
    | element pos =>
      have hget := get_of_valid hvalid
      have hpos : pos < xs.length := hvalid
      rw [Argument.Survives] at hsurvives
      split_ifs at hsurvives with hcap
      · obtain rfl := hsame hcap
        refine ⟨(follows_self hrep_v _).addSize hdirect_gap,?_⟩
        change view now (now.setItems _) pos = _
        rw [view_self hrep_v,moved]
        split_ifs with hin
        · have hsource : p + (pos - (p + n)) = pos - n := by omega
          rw [hsource]
          refine hstores _ _ ?_
          rw [← hget]
          exact hsurvives.resolve_left (by omega)
        · exact hstores _ _ hget
      · obtain ⟨hdirect,hoverlay⟩ := hsurvives
        obtain ⟨hnow_direct,hdirect_eq⟩ := hleft hcap hdirect
        have hkept : (now.setItems (moved (p + n) p (xs.length - p) m'))._union.direct =
            now._union.direct := by
          rw [Prevector.setItems,hnow_direct]
          rfl
        have hstill : (now.setItems (moved (p + n) p (xs.length - p) m')).is_direct = false := by
          rw [Prevector.setItems,hnow_direct]
          exact hnow_direct
        exact ⟨.left hdirect (hdirect_gap.trans hstill),
          (view_left hrep_v hdirect (hkept.trans hdirect_eq) hoverlay).trans (hstores_v pos _ hget)⟩

theorem length_spliced (hp : p ≤ xs.length) :
    (xs.take p ++ (ts ++ xs.drop p)).length = xs.length + ts.length := by
  rw [List.length_append,List.length_append,List.length_take,List.length_drop]
  omega

theorem fill_gap (hrep : Rep now (xs.length + ts.length) room
    (moved (p + ts.length) p (xs.length - p) m)) (h : Stores m xs) (hp : p ≤ xs.length) :
    Becomes (Prevector.placeRange ts p now) (xs.take p ++ (ts ++ xs.drop p)) := by
  obtain ⟨last,hlast,hdone⟩ := placeRange_holds p ts hrep (by omega)
  exact ⟨last,room,hlast,_,(length_spliced hp).symm ▸ hdone,stores_placed h hp⟩

theorem insertCount_becomes (h : Holds v xs room) (hp : p ≤ xs.length)
    (hlt : xs.length + n < 2^31) (hvalid : value.Valid xs) (hsurvives : value.Survives v xs p n) :
    Becomes (v.insertCount p n value)
      (xs.take p ++ (List.replicate n (value.get xs) ++ xs.drop p)) := by
  have hlength : (List.replicate n (value.get xs)).length = n := List.length_replicate
  obtain ⟨now,room',m',hnow,hrep,hstores,hreads⟩ := open_gap_holds h hp hlt
  have hcopies := placeCopies_eq (hreads value hvalid hsurvives) hrep (p := p) (n := n) (by omega)
  rw [← hlength] at hrep
  obtain ⟨last,last_room,hlast,hdone⟩ := fill_gap hrep hstores hp
  exact ⟨last,last_room,bind_ok.mpr ⟨now,hnow,hcopies.trans hlast⟩,hdone⟩

theorem insert_eq (v : Prevector L) (p : ℕ) (value : Argument L) :
    v.insert p value = v.insertCount p 1 value := by
  rw [Prevector.insert,Prevector.insertCount]
  refine bind_congr fun now => ?_
  rw [Prevector.placeCopies]
  refine bind_congr fun t => ?_
  change _ = now.construct p t >>= fun last => .ok last
  cases now.construct p t <;> rfl

theorem insertRange_becomes (h : Holds v xs room) (hp : p ≤ xs.length)
    (hlt : xs.length + ts.length < 2^31) :
    Becomes (v.insertRange p ts) (xs.take p ++ (ts ++ xs.drop p)) := by
  obtain ⟨now,room',m',hnow,hrep,hstores,-⟩ := open_gap_holds h hp hlt
  obtain ⟨last,last_room,hlast,hdone⟩ := fill_gap hrep hstores hp
  exact ⟨last,last_room,bind_ok.mpr ⟨now,hnow,hlast⟩,hdone⟩

theorem push_back_becomes (h : Holds v xs room) (hlt : xs.length + 1 < 2^31)
    (hvalid : value.Valid xs) (hsurvives : value.Survives v xs xs.length 1) :
    Becomes (v.push_back value) (xs ++ [value.get xs]) := by
  obtain ⟨now,room',m',hnow,hrep,hstores,hroom,hsame,hleft⟩ := grow_holds h hlt
  obtain ⟨m,hrep_v,hstores_v⟩ := h
  have hread : value.read v now = .ok (value.get xs) := by
    cases value with
    | value t => rfl
    | element pos =>
      have hget := get_of_valid hvalid
      rw [Argument.Survives] at hsurvives
      split_ifs at hsurvives with hcap
      · obtain rfl := hsame hcap
        have hself : view now now = m := by
          cases hrep_v with
          | direct hk => exact if_pos (is_direct_of_le hk)
          | indirect =>
            rw [view,not_direct,if_neg Bool.false_ne_true]
            exact if_pos rfl
        rw [Argument.read,hself,hstores_v pos _ hget,deref_stored]
      · obtain ⟨-,hdirect_eq⟩ := hleft hcap hsurvives.1
        rw [Argument.read,view_left hrep_v hsurvives.1 hdirect_eq hsurvives.2,hstores_v pos _ hget,
          deref_stored]
  refine ⟨(now.setItems (Function.update m' xs.length (stored (value.get xs)))).addSize 1,room',
    bind_ok.mpr ⟨now,hnow,bind_ok.mpr ⟨_,hread,?_⟩⟩,_,?_,hstores.snoc (value.get xs)⟩
  · rw [hrep.size,hrep.construct (by omega) (by omega)]
    rfl
  · rw [List.length_append,List.length_singleton]
    exact (hrep.setItems _).addSize hroom hlt

theorem stores_erased {first last : ℕ} (h : Stores m xs) (hle : first ≤ last)
    (hlast : last ≤ xs.length) :
    Stores (moved first last (xs.length - last) m) (xs.take first ++ xs.drop last) := by
  have htake : (xs.take first).length = first := List.length_take_of_le (hle.trans hlast)
  intro i t ht
  rw [moved]
  rcases Nat.lt_or_ge i first with hi | hi
  · rw [List.getElem?_append_left (by omega),List.getElem?_take_of_lt hi] at ht
    rw [if_neg (by omega)]
    exact h i t ht
  · rw [List.getElem?_append_right (by omega),htake,List.getElem?_drop] at ht
    obtain ⟨hlt,-⟩ := List.getElem?_eq_some_iff.mp ht
    rw [if_pos (by omega)]
    exact h _ t ht

theorem eraseRange_becomes {first last : ℕ} (h : Holds v xs room) (hle : first ≤ last)
    (hlast : last ≤ xs.length) :
    Becomes (v.eraseRange first last) (xs.take first ++ xs.drop last) := by
  obtain ⟨m,hrep,hstores⟩ := h
  have hsize := hrep.size
  have hlt := hrep.size_lt
  have hle_room := hrep.size_le
  have hlength : (xs.take first ++ xs.drop last).length = xs.length - (last - first) := by
    rw [List.length_append,List.length_take,List.length_drop]
    omega
  have hkept : xs.length = xs.length - (last - first) + (last - first) := by omega
  rw [hkept] at hrep
  have hpops := hrep.pop_backs
  refine ⟨(Prevector.pop_back^[last - first] v).setItems (moved first last (xs.length - last) m),
    room,?_,_,?_,stores_erased hstores hle hlast⟩
  · rw [Prevector.eraseRange,hsize,hpops.move first last (xs.length - last) (.inr (by omega))]
  · rw [hlength]
    exact hpops.setItems _

theorem erase_becomes (h : Holds v xs room) (hp : p < xs.length) :
    Becomes (v.erase p) (xs.eraseIdx p) := by
  obtain ⟨m,hrep,hstores⟩ := h
  have hlt := hrep.size_lt
  have hle_room := hrep.size_le
  have hmove := hrep.move p (p + 1) (xs.length - (p + 1)) (.inr (by omega))
  have hlength : (xs.take p ++ xs.drop (p + 1)).length + 1 = xs.length := by
    rw [List.length_append,List.length_take,List.length_drop]
    omega
  rw [List.eraseIdx_eq_take_drop_succ]
  refine ⟨(v.setItems (moved p (p + 1) (xs.length - (p + 1)) m)).pop_back,room,
    bind_ok.mpr ⟨_,?_,rfl⟩,_,?_,stores_erased hstores (Nat.le_succ p) hp⟩
  · rw [hrep.size]
    exact hmove
  · rw [← hlength] at hrep
    exact (hrep.setItems _).pop_back

theorem Edit.becomes (h : Holds v xs room) (e : Edit L) (hvalid : e.Valid xs) (hmet : e.Met v xs) :
    Becomes (e.run v) (e.apply xs) := by
  obtain ⟨hlt,hsurvives⟩ := hmet
  obtain ⟨m,hrep,hstores⟩ := id h
  cases e with
  | construct => exact ⟨_,_,rfl,holds_empty⟩
  | constructSize n =>
    rw [Edit.apply,List.length_replicate] at hlt
    have hresize := resize_becomes (holds_empty (L := L)) hlt
    rwa [List.take_nil,List.nil_append] at hresize
  | constructValue n val =>
    exact ofValue_becomes (by rwa [Edit.apply,List.length_replicate] at hlt) val
  | constructRange range => exact ofRange_becomes hlt
  | assign n val => exact assign_becomes h (by rwa [Edit.apply,List.length_replicate] at hlt) val
  | assignRange range => exact assignRange_becomes h hlt
  | resize n =>
    refine resize_becomes h ?_
    rw [Edit.apply,List.length_append,List.length_take,List.length_replicate] at hlt
    omega
  | reserve n =>
    obtain ⟨now,room',hnow,hholds,-⟩ := reserve_holds h hvalid
    exact ⟨now,room',hnow,hholds⟩
  | shrink_to_fit =>
    obtain ⟨now,room',hnow,hholds,-⟩ := change_capacity_holds h (n := xs.length)
      (Nat.lt_trans hrep.size_lt (by norm_num)) (le_refl _)
    refine ⟨now,room',?_,hholds⟩
    rw [Edit.run,Prevector.shrink_to_fit,hrep.size]
    exact hnow
  | clear => exact clear_becomes h
  | insert p value =>
    have hlength : ([value.get xs] : List (Obj L)).length = 1 := rfl
    rw [Edit.apply,length_spliced hvalid.1,hlength] at hlt
    rw [Edit.run,insert_eq]
    exact insertCount_becomes h hvalid.1 hlt hvalid.2 hsurvives
  | insertCount p count value =>
    rw [Edit.apply,length_spliced hvalid.1,List.length_replicate] at hlt
    exact insertCount_becomes h hvalid.1 hlt hvalid.2 hsurvives
  | insertRange p range =>
    rw [Edit.apply,length_spliced hvalid] at hlt
    exact insertRange_becomes h hvalid hlt
  | erase p => exact erase_becomes h hvalid
  | eraseRange first last => exact eraseRange_becomes h hvalid.1 hvalid.2
  | push_back value =>
    rw [Edit.apply,List.length_append,List.length_singleton] at hlt
    exact push_back_becomes h hlt hvalid hsurvives
  | pop_back =>
    have hlength : xs.dropLast.length + 1 = xs.length := by
      rw [List.length_dropLast]
      exact Nat.sub_add_cancel (List.length_pos_iff.mpr hvalid)
    rw [← List.dropLast_append_getLast hvalid] at hstores
    rw [← hlength] at hrep
    exact ⟨_,_,rfl,m,hrep.pop_back,hstores.of_append⟩
  | update p t =>
    have hp : p < xs.length := hvalid
    refine ⟨_,room,hrep.construct (hp.trans_le hrep.size_le) (hp.trans hrep.size_lt) t,_,?_,
      hstores.set p t⟩
    rw [Edit.apply,List.length_set]
    exact hrep.setItems _

theorem withHead_holds {other : Prevector L} (h : Holds other ys room)
    (hkeeps : KeepsTail other v) :
    ∃ room', Holds ⟨other._size,v._union.withHead other._union⟩ ys room' := by
  obtain ⟨m,hrep,hstores⟩ := h
  have hsize := hrep.size
  cases hrep with
  | direct hk =>
    refine ⟨_,_,.direct hk,hstores.congr fun i hi => funext fun k => ?_⟩
    dsimp only
    split_ifs with hoverlay
    · rfl
    · exact hkeeps (is_direct_of_le hk) i (by rw [hsize]; exact hi) k (not_lt.mp hoverlay)
  | indirect hk hroom hroom_lt hk_lt => exact ⟨_,_,.indirect hk hroom hroom_lt hk_lt,hstores⟩

theorem swap_holds {other : Prevector L} {room' : ℕ} (h : Holds v xs room)
    (hother : Holds other ys room') (hmet : SwapMet v other) :
    (∃ r, Holds (v.swap other).1 ys r) ∧ ∃ r, Holds (v.swap other).2 xs r := by
  rw [Prevector.swap]
  split_ifs with hodd
  · obtain ⟨hv,hother_keeps⟩ := hmet hodd
    exact ⟨withHead_holds hother hother_keeps,withHead_holds h hv⟩
  · exact ⟨⟨room',hother⟩,⟨room,h⟩⟩

/-- Every vector holds the list of its name. -/
def Refines (s : Vectors L) (xs : ℕ → List (Obj L)) : Prop := ∀ i, ∃ room, Holds (s i) (xs i) room

variable {s : Vectors L} {lists : ℕ → List (Obj L)}

theorem Refines.update (h : Refines s lists) (i : ℕ) (hnow : ∃ room, Holds now ys room) :
    Refines (Function.update s i now) (Function.update lists i ys) := by
  intro j
  by_cases hj : j = i
  · subst hj
    rw [Function.update_self,Function.update_self]
    exact hnow
  · rw [Function.update_of_ne hj,Function.update_of_ne hj]
    exact h j

theorem Op.step (h : Refines s lists) (op : Op L) (hvalid : op.Valid lists)
    (hmet : op.Met s lists) : ∃ s', op.run s = .ok s' ∧ Refines s' (op.apply lists) := by
  cases op with
  | edit v e =>
    obtain ⟨now,room,hnow,hholds⟩ := Edit.becomes (h v).choose_spec e hvalid hmet
    exact ⟨_,bind_ok.mpr ⟨now,hnow,rfl⟩,h.update v ⟨room,hholds⟩⟩
  | copy v other =>
    obtain ⟨now,room,hnow,hholds⟩ := copyInto (h other).choose_spec holds_empty
    exact ⟨_,bind_ok.mpr ⟨now,hnow,rfl⟩,h.update v ⟨room,hholds⟩⟩
  | assign v other =>
    rw [Op.run]
    split_ifs with hsame
    · refine ⟨s,rfl,?_⟩
      rw [Op.apply,hsame,Function.update_eq_self]
      exact h
    · obtain ⟨now,room,hnow,hholds⟩ := assignOther_becomes (h other).choose_spec (h v).choose_spec
      exact ⟨_,bind_ok.mpr ⟨now,hnow,rfl⟩,h.update v ⟨room,hholds⟩⟩
  | swap v other =>
    obtain ⟨hv,hother⟩ := swap_holds (h v).choose_spec (h other).choose_spec hmet
    exact ⟨_,rfl,(h.update v hv).update other hother⟩

theorem run_refines (ops : List (Op L)) (h : Refines s lists) (hvalid : Valid lists ops)
    (hmeets : Meets s lists ops) : ∃ s', run s ops = .ok s' ∧ Refines s' (apply lists ops) := by
  induction ops generalizing s lists with
  | nil => exact ⟨s,rfl,h⟩
  | cons op ops ih =>
    obtain ⟨hmet,hrest⟩ := hmeets
    obtain ⟨s1,hs1,h1⟩ := op.step h hvalid.1 hmet
    obtain ⟨s2,hs2,h2⟩ := ih h1 hvalid.2 (hrest s1 hs1)
    exact ⟨s2,foldlM_cons_ok.mpr ⟨s1,hs1,hs2⟩,h2⟩

/-- Through every run whose operations meet the condition every vector looks like its list. -/
theorem prevector_run (ops : List (Op L)) (hvalid : Valid (fun _ => []) ops)
    (hmeets : Meets start (fun _ => []) ops) :
    ∃ s, run start ops = .ok s ∧ ∀ i, Looks (s i) (apply (fun _ => []) ops i) := by
  obtain ⟨s,hs,hrefines⟩ := run_refines ops (fun _ => ⟨_,holds_empty⟩) hvalid hmeets
  exact ⟨s,hs,fun i => looks (hrefines i).choose_spec⟩

/-- The vector of scripts. -/
def scriptLayout : Layout := ⟨28,1,12,fun _ => 0,by norm_num⟩

/-- A direct vector is filled, moves to the heap with one more element, and is swapped. -/
def crossing : List (Op scriptLayout) :=
  [.edit 0 (.assign 28 fun _ => 1),.edit 0 (.push_back (.value fun _ => 2)),.swap 0 1]

theorem prevector_sample : ∃ s, run start crossing = .ok s ∧
    (∀ i, Looks (s i) (apply (fun _ => []) crossing i)) ∧
    (apply (fun _ => []) crossing 1).length = 29 := by
  have hother : ∀ {s s' : Vectors scriptLayout} {e : Edit scriptLayout},
      Op.run s (.edit 0 e) = .ok s' → s' 1 = s 1 := by
    intro s s' e h
    obtain ⟨now,-,h⟩ := bind_ok.mp h
    rw [← Except.ok.inj h]
    exact Function.update_of_ne (by decide) _ _
  have hmeets : Meets start (fun _ => []) crossing := by
    refine ⟨⟨by decide,trivial⟩,fun s₁ h₁ => ⟨⟨by decide,trivial⟩,fun s₂ h₂ => ⟨fun hodd => ?_,
      fun _ _ => trivial⟩⟩⟩
    -- the second vector is empty still
    rw [hother h₂,hother h₁] at hodd
    exact absurd hodd.2 (by decide)
  obtain ⟨s,hs,hlooks⟩ := prevector_run crossing ⟨trivial,trivial,trivial,trivial⟩ hmeets
  exact ⟨s,hs,hlooks,by decide⟩

/-- Thirteen bytes of one value in one vector and of another in a second one are swapped. -/
def thirteens : List (Op scriptLayout) :=
  [.edit 0 (.assign 13 fun _ => 1),.edit 1 (.assign 13 fun _ => 2),.swap 0 1]

theorem prevector_swap : Valid (fun _ => []) thirteens ∧
    ¬∃ s, run start thirteens = .ok s ∧ ∀ i, Looks (s i) (apply (fun _ => []) thirteens i) := by
  refine ⟨⟨trivial,trivial,trivial,trivial⟩,?_⟩
  rintro ⟨s,hs,hlooks⟩
  have hcode : ((run start thirteens).bind fun s => (s 0).item 12).map
      (fun t => t (⟨0,by decide⟩ : Fin 1)) = .ok 1 := by
    decide
  have hitem := (hlooks 0).item 12 (fun _ => 2) rfl
  rw [hs] at hcode
  change ((s 0).item 12).map _ = _ at hcode
  rw [hitem] at hcode
  exact absurd hcode (by decide)

/-- A reference into a full direct vector is lost when the vector leaves for the heap. -/
example : (run (L := scriptLayout) start [.edit 0 (.assign 28 fun _ => 1),
    .edit 0 (.push_back (.element 0))]).isOk = false := by
  decide

end Sidechain.Prevectors
