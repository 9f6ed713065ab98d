import Sidechain.Primitives.Outcome
import Sidechain.Primitives.Serialize

/-! `CDataStream` as a queue of unread bytes that remembers the bytes a rewind can put back. -/
namespace Sidechain

/-- The buffer and the offset of its first unread byte. Iterators are offsets from `begin()`. -/
@[ext] structure CDataStream where
  vch : Bytes
  nReadPos : UInt32
  readable : nReadPos.toNat ≤ vch.length

namespace CDataStream

def size (s : CDataStream) : ℕ := s.vch.length - s.nReadPos.toNat

/-- The visible content, from `begin()` to `end()`. -/
def str (s : CDataStream) : Bytes := s.vch.drop s.nReadPos.toNat

def clear : CDataStream := ⟨[],0,Nat.le_refl 0⟩

/-- `memcpy(pch, &vch[pos], n)` reads inside the buffer or anywhere. -/
def copyOut (s : CDataStream) (pos n : ℕ) : Outcome Bytes :=
  if pos + n ≤ s.vch.length then .ok ((s.vch.drop pos).take n)
  else .error (.undefined "memcpy past the buffer")

/-- `operator+=`. -/
def append (s b : CDataStream) : CDataStream :=
  ⟨s.vch ++ b.str,s.nReadPos,by have := s.readable; simp; omega⟩

def write (s : CDataStream) (pch : Bytes) : CDataStream :=
  ⟨s.vch ++ pch,s.nReadPos,by have := s.readable; simp; omega⟩

/-- `s << b` for a stream `b` writes the whole buffer of `b`. -/
def serializeTo (b s : CDataStream) : CDataStream := if b.vch ≠ [] then s.write b.vch else s

/-- The sum of offset and size is kept in 32 bits. -/
def read (s : CDataStream) (nSize : ℕ) : Outcome (Bytes × CDataStream) :=
  let nReadPosNext := UInt32.ofNat (s.nReadPos.toNat + nSize)
  if h : s.vch.length ≤ nReadPosNext.toNat then
    if s.vch.length < nReadPosNext.toNat then
      .error (.exception "CDataStream::read(): end of data")
    else do
      let pch ← s.copyOut s.nReadPos.toNat nSize
      return (pch,clear)
  else do
    let pch ← s.copyOut s.nReadPos.toNat nSize
    return (pch,⟨s.vch,nReadPosNext,Nat.le_of_not_le h⟩)

def ignore (s : CDataStream) (nSize : Int32) : Outcome CDataStream :=
  if nSize.toInt < 0 then .error (.assertion "nSize >= 0")
  else
    let nReadPosNext := s.nReadPos + nSize.toUInt32
    if h : s.vch.length ≤ nReadPosNext.toNat then
      if s.vch.length < nReadPosNext.toNat then
        .error (.exception "CDataStream::ignore(): end of data")
      else .ok clear
    else .ok ⟨s.vch,nReadPosNext,Nat.le_of_not_le h⟩

/-- `vch.insert(it, ...)`. -/
def insertAt (s : CDataStream) (it : ℕ) (bytes : Bytes) : Outcome CDataStream :=
  if it ≤ s.size then
    .ok ⟨s.vch.take (s.nReadPos.toNat + it) ++ bytes ++ s.vch.drop (s.nReadPos.toNat + it),
      s.nReadPos,by
        have := s.readable
        simp only [List.length_append,List.length_take,List.length_drop]
        omega⟩
  else .error (.undefined "insert past the end")

def insertFill (s : CDataStream) (it n : ℕ) (x : UInt8) : Outcome CDataStream :=
  s.insertAt it (List.replicate n x)

/-- The range version uses the room before `begin()` when the range fits there. -/
def insert (s : CDataStream) (it : ℕ) (bytes : Bytes) : Outcome CDataStream :=
  if it = 0 ∧ UInt32.ofNat bytes.length ≤ s.nReadPos then
    let nReadPos := s.nReadPos - UInt32.ofNat bytes.length
    if h : nReadPos.toNat + bytes.length ≤ s.vch.length then
      .ok ⟨s.vch.take nReadPos.toNat ++ bytes ++ s.vch.drop (nReadPos.toNat + bytes.length),
        nReadPos,by
          simp only [List.length_append,List.length_take,List.length_drop]
          omega⟩
    else .error (.undefined "memcpy past the buffer")
  else s.insertAt it bytes

/-- `vch.erase(first, last)`. -/
def eraseAt (s : CDataStream) (first last : ℕ) : Outcome CDataStream :=
  if first ≤ last ∧ last ≤ s.size then
    .ok ⟨s.vch.take (s.nReadPos.toNat + first) ++ s.vch.drop (s.nReadPos.toNat + last),
      s.nReadPos,by
        have := s.readable
        simp only [List.length_append,List.length_take,List.length_drop]
        omega⟩
  else .error (.undefined "erase outside the buffer")

/-- `erase(it)`. -/
def erase (s : CDataStream) (it : ℕ) : Outcome CDataStream :=
  if it = 0 then
    let nReadPos := s.nReadPos + 1
    if h : s.vch.length ≤ nReadPos.toNat then .ok clear
    else .ok ⟨s.vch,nReadPos,Nat.le_of_not_le h⟩
  else s.eraseAt it (it + 1)

/-- `erase(first, last)`. -/
def eraseRange (s : CDataStream) (first last : ℕ) : Outcome CDataStream :=
  if first = 0 then
    if last = s.size then .ok clear
    else
      let nReadPos := UInt32.ofNat (s.nReadPos.toNat + last)
      if h : nReadPos.toNat ≤ s.vch.length then .ok ⟨s.vch,nReadPos,h⟩
      else .error (.undefined "iterator past the end")
  else s.eraseAt first last

def compact (s : CDataStream) : CDataStream := ⟨s.vch.drop s.nReadPos.toNat,0,Nat.zero_le _⟩

def rewind (s : CDataStream) (n : ℕ) : Bool × CDataStream :=
  if h : s.nReadPos.toNat < n then (false,s)
  else (true,⟨s.vch,s.nReadPos - UInt32.ofNat n,by
    have := s.readable
    have hn : n < 2^32 := Nat.lt_of_le_of_lt (Nat.le_of_not_lt h) s.nReadPos.toNat_lt
    rw [UInt32.toNat_sub_of_le _ _ (by
      rw [UInt32.le_iff_toNat_le,UInt32.toNat_ofNat_of_lt' hn]; omega)]
    omega⟩)

/-- The loop of `Xor`, which counts the key's index `j` by itself. -/
def xorLoop (key : Bytes) : ℕ → Bytes → Bytes
  | _,[] => []
  | j,b::rest =>
    (b ^^^ key.getD j 0)::xorLoop key (if j + 1 = key.length then 0 else j + 1) rest

@[simp] theorem length_xorLoop (key : Bytes) (j : ℕ) (bytes : Bytes) :
    (xorLoop key j bytes).length = bytes.length := by
  induction bytes generalizing j with
  | nil => rfl
  | cons b rest ih => simp [xorLoop,ih]

/-- `Xor` runs over as many bytes as are unread, from the start of the buffer. -/
def xor (s : CDataStream) (key : Bytes) : CDataStream :=
  if key.length = 0 then s
  else ⟨xorLoop key 0 (s.vch.take s.size) ++ s.vch.drop s.size,s.nReadPos,by
    have := s.readable
    simp only [List.length_append,length_xorLoop,List.length_take,List.length_drop]
    omega⟩

inductive Operation where
  | write (pch : Bytes)
  | read (nSize : ℕ)
  | ignore (nSize : Int32)
  | insert (it : ℕ) (bytes : Bytes)
  | insertFill (it n : ℕ) (x : UInt8)
  | erase (it : ℕ)
  | eraseRange (first last : ℕ)
  | rewind (n : ℕ)
  | compact
  | xor (key : Bytes)
  | append (b : CDataStream)
  | shift (b : CDataStream)

inductive Answer where
  | done
  | bytes (pch : Bytes)
  | flag (b : Bool)
  | failure (what : String)
  deriving DecidableEq, Repr

/-- A caller that catches the failure goes on with the stream as it was. -/
def caught (s : CDataStream) : Outcome (Answer × CDataStream) → Outcome (Answer × CDataStream)
  | .error (.exception what) => .ok (.failure what,s)
  | x => x

def step (s : CDataStream) : Operation → Outcome (Answer × CDataStream)
  | .write pch => .ok (.done,s.write pch)
  | .read nSize => s.caught ((s.read nSize).map fun r => (.bytes r.1,r.2))
  | .ignore nSize => s.caught ((s.ignore nSize).map fun s' => (.done,s'))
  | .insert it bytes => (s.insert it bytes).map fun s' => (.done,s')
  | .insertFill it n x => (s.insertFill it n x).map fun s' => (.done,s')
  | .erase it => (s.erase it).map fun s' => (.done,s')
  | .eraseRange first last => (s.eraseRange first last).map fun s' => (.done,s')
  | .rewind n => .ok (.flag (s.rewind n).1,(s.rewind n).2)
  | .compact => .ok (.done,s.compact)
  | .xor key => .ok (.done,s.xor key)
  | .append b => .ok (.done,s.append b)
  | .shift b => .ok (.done,b.serializeTo s)

/-- The answers of a whole sequence of operations, and the stream after it. -/
def run (s : CDataStream) : List Operation → Outcome (List Answer × CDataStream)
  | [] => .ok ([],s)
  | op::ops => do
    let (a,s') ← s.step op
    let (answers,s'') ← s'.run ops
    return (a::answers,s'')

/-- The position after `n` more bytes is not taken for one inside the buffer by its low bits. -/
def Reaches (s : CDataStream) (n : ℕ) : Prop :=
  (s.nReadPos.toNat + n) % 2^32 ≤ s.vch.length → s.nReadPos.toNat + n < 2^32

/-- Iterators lie inside the stream, no position that is used has wrapped around `2^32`, and a
stream whose bytes are xored or written to another has none of them read. -/
def Fits (s : CDataStream) : Operation → Prop
  | .read nSize => s.Reaches nSize
  | .ignore nSize => 0 ≤ nSize.toInt ∧ s.Reaches nSize.toInt.toNat
  | .insert it bytes =>
    it ≤ s.size ∧ (it = 0 → bytes.length % 2^32 ≤ s.nReadPos.toNat → bytes.length < 2^32)
  | .insertFill it _ _ => it ≤ s.size
  | .erase it => it < s.size ∧ (it = 0 → s.nReadPos.toNat + 1 < 2^32)
  | .eraseRange first last =>
    first ≤ last ∧ last ≤ s.size ∧ (first = 0 → last < s.size → s.nReadPos.toNat + last < 2^32)
  | .xor key => s.nReadPos = 0 ∨ key = []
  | .shift b => b.nReadPos = 0
  | _ => True

def FitsRun (s : CDataStream) : List Operation → Prop
  | [] => True
  | op::ops => s.Fits op ∧ ∀ a s', s.step op = .ok (a,s') → s'.FitsRun ops

end CDataStream

/-- The unread bytes, behind the taken ones that a rewind can still put back. -/
@[ext] structure ByteQueue where
  taken : Bytes
  unread : Bytes
  deriving DecidableEq, Repr

namespace ByteQueue
open CDataStream (Operation Answer)

/-- Taking the last byte forgets the taken ones. -/
def takeFront (q : ByteQueue) (n : ℕ) : ByteQueue :=
  if n = q.unread.length then ⟨[],[]⟩ else ⟨q.taken ++ q.unread.take n,q.unread.drop n⟩

/-- Bytes put before the first unread one replace the last taken ones. -/
def putFront (q : ByteQueue) (bytes : Bytes) : ByteQueue :=
  ⟨if bytes.length ≤ q.taken.length then q.taken.take (q.taken.length - bytes.length)
    else q.taken,bytes ++ q.unread⟩

def step (q : ByteQueue) : Operation → Answer × ByteQueue
  | .write pch => (.done,⟨q.taken,q.unread ++ pch⟩)
  | .read nSize =>
    if q.unread.length < nSize then (.failure "CDataStream::read(): end of data",q)
    else (.bytes (q.unread.take nSize),q.takeFront nSize)
  | .ignore nSize =>
    if (q.unread.length : ℤ) < nSize.toInt then (.failure "CDataStream::ignore(): end of data",q)
    else (.done,q.takeFront nSize.toInt.toNat)
  | .insert it bytes =>
    (.done,if it = 0 then q.putFront bytes
      else ⟨q.taken,q.unread.take it ++ bytes ++ q.unread.drop it⟩)
  | .insertFill it n x => (.done,⟨q.taken,q.unread.take it ++ List.replicate n x ++ q.unread.drop it⟩)
  | .erase it => (.done,if it = 0 then q.takeFront 1 else ⟨q.taken,q.unread.eraseIdx it⟩)
  | .eraseRange first last =>
    (.done,if first = 0 then q.takeFront last
      else ⟨q.taken,q.unread.take first ++ q.unread.drop last⟩)
  | .rewind n =>
    if q.taken.length < n then (.flag false,q)
    else (.flag true,⟨q.taken.take (q.taken.length - n),
      q.taken.drop (q.taken.length - n) ++ q.unread⟩)
  | .compact => (.done,⟨[],q.unread⟩)
  | .xor key => (.done,⟨q.taken,q.unread.mapIdx fun i b => b ^^^ key.getD (i % key.length) 0⟩)
  | .append b => (.done,⟨q.taken,q.unread ++ b.str⟩)
  | .shift b => (.done,⟨q.taken,q.unread ++ b.str⟩)

def run (q : ByteQueue) : List Operation → List Answer × ByteQueue
  | [] => ([],q)
  | op::ops =>
    let (a,q') := q.step op
    let (answers,q'') := q'.run ops
    (a::answers,q'')

end ByteQueue

namespace CDataStream

/-- The stream, seen as a queue. -/
def queue (s : CDataStream) : ByteQueue := ⟨s.vch.take s.nReadPos.toNat,s.str⟩

@[simp] theorem length_str (s : CDataStream) : s.str.length = s.size := List.length_drop

@[simp] theorem length_taken (s : CDataStream) : s.queue.taken.length = s.nReadPos.toNat := by
  have := s.readable
  simp only [queue,List.length_take]
  omega

@[simp] theorem queue_unread (s : CDataStream) : s.queue.unread = s.str := rfl

theorem size_add (s : CDataStream) : s.nReadPos.toNat + s.size = s.vch.length := by
  have := s.readable
  unfold size
  omega

@[simp] theorem queue_clear : clear.queue = ⟨[],[]⟩ := rfl

theorem queue_write (s : CDataStream) (pch : Bytes) :
    (s.write pch).queue = ⟨s.queue.taken,s.str ++ pch⟩ := by
  have := s.readable
  simp only [queue,str,write]
  rw [List.take_append_of_le_length this,List.drop_append_of_le_length this]

@[simp] theorem queue_append (s b : CDataStream) : (s.append b).queue = ⟨s.queue.taken,s.str ++ b.str⟩ :=
  s.queue_write b.str

/-- Writing a stream with `<<` appends its whole buffer. -/
theorem queue_serializeTo (b s : CDataStream) :
    (b.serializeTo s).queue = ⟨s.queue.taken,s.str ++ b.vch⟩ := by
  unfold serializeTo
  split_ifs with h
  · exact s.queue_write b.vch
  · rw [not_not.mp h,List.append_nil]
    rfl

/-- Moving the offset forward takes bytes from the front. -/
theorem queue_takeFront {s s' : CDataStream} {n : ℕ} (hn : n < s.size) (hv : s'.vch = s.vch)
    (hp : s'.nReadPos.toNat = s.nReadPos.toNat + n) : s'.queue = s.queue.takeFront n := by
  have hne : ¬ n = s.size := by omega
  simp only [ByteQueue.takeFront,queue_unread,length_str,if_neg hne]
  simp only [queue,str,hv,hp,List.take_add,List.drop_drop]

theorem queue_takeAll (s : CDataStream) : clear.queue = s.queue.takeFront s.size := by
  simp [ByteQueue.takeFront]

theorem Reaches.next {s : CDataStream} {n : ℕ} (h : s.Reaches n) :
    (s.size < n ∧ s.vch.length < (s.nReadPos.toNat + n) % 2^32) ∨
      (n ≤ s.size ∧ (s.nReadPos.toNat + n) % 2^32 = s.nReadPos.toNat + n) := by
  have hadd := s.size_add
  by_cases hlen : (s.nReadPos.toNat + n) % 2^32 ≤ s.vch.length
  · have hmod := Nat.mod_eq_of_lt (h hlen)
    exact .inr ⟨by omega,hmod⟩
  · have := Nat.mod_le (s.nReadPos.toNat + n) (2^32)
    exact .inl ⟨by omega,by omega⟩

theorem read_of_reaches {s : CDataStream} {n : ℕ} (h : s.Reaches n) :
    if s.size < n then s.read n = .error (.exception "CDataStream::read(): end of data")
    else ∃ s', s.read n = .ok (s.str.take n,s') ∧ s'.queue = s.queue.takeFront n := by
  have hadd := s.size_add
  have hmod : (UInt32.ofNat (s.nReadPos.toNat + n)).toNat = (s.nReadPos.toNat + n) % 2^32 :=
    UInt32.toNat_ofNat'
  unfold read copyOut
  simp only [hmod]
  obtain ⟨hlt,hnext⟩ | ⟨hle,hnext⟩ := h.next
  · rw [if_pos hlt,dif_pos hnext.le,if_pos hnext]
  · have hin : s.nReadPos.toNat + n ≤ s.vch.length := by omega
    simp only [hnext,if_neg hle.not_gt,if_pos hin,if_neg hin.not_gt]
    split_ifs with hend
    · have hn : n = s.size := by omega
      exact ⟨clear,rfl,hn ▸ s.queue_takeAll⟩
    · exact ⟨_,rfl,queue_takeFront (by omega) rfl (hmod.trans hnext)⟩

theorem ignore_of_reaches {s : CDataStream} {nSize : Int32} (h0 : 0 ≤ nSize.toInt)
    (h : s.Reaches nSize.toInt.toNat) :
    if (s.size : ℤ) < nSize.toInt then
      s.ignore nSize = .error (.exception "CDataStream::ignore(): end of data")
    else ∃ s', s.ignore nSize = .ok s' ∧ s'.queue = s.queue.takeFront nSize.toInt.toNat := by
  have hadd := s.size_add
  have hsize : nSize.toUInt32.toNat = nSize.toInt.toNat :=
    Int32.toNat_toUInt32_of_le (Int32.le_iff_toInt_le.mpr h0)
  have hmod : (s.nReadPos + nSize.toUInt32).toNat =
      (s.nReadPos.toNat + nSize.toInt.toNat) % 2^32 := by
    rw [UInt32.toNat_add,hsize]
  unfold ignore
  simp only [if_neg (not_lt.mpr h0),hmod]
  obtain ⟨hlt,hnext⟩ | ⟨hle,hnext⟩ := h.next
  · rw [if_pos (by omega),dif_pos hnext.le,if_pos hnext]
  · have hin : s.nReadPos.toNat + nSize.toInt.toNat ≤ s.vch.length := by omega
    rw [if_neg (by omega)]
    simp only [hnext,if_neg hin.not_gt]
    split_ifs with hend
    · have hn : nSize.toInt.toNat = s.size := by omega
      exact ⟨clear,rfl,hn ▸ s.queue_takeAll⟩
    · exact ⟨_,rfl,queue_takeFront (by omega) rfl (hmod.trans hnext)⟩

theorem queue_insertAt {s : CDataStream} {it : ℕ} (hit : it ≤ s.size) (bytes : Bytes) :
    ∃ s', s.insertAt it bytes = .ok s' ∧
      s'.queue = ⟨s.queue.taken,s.str.take it ++ bytes ++ s.str.drop it⟩ := by
  have hadd := s.size_add
  refine ⟨_,if_pos hit,?_⟩
  simp only [queue,str,List.append_assoc,List.drop_drop]
  rw [List.take_append_of_le_length (by simp; omega),
    List.drop_append_of_le_length (by simp; omega),List.take_take,List.drop_take]
  simp

theorem queue_insert {s : CDataStream} {it : ℕ} {bytes : Bytes} (hit : it ≤ s.size)
    (hlen : it = 0 → bytes.length % 2^32 ≤ s.nReadPos.toNat → bytes.length < 2^32) :
    ∃ s', s.insert it bytes = .ok s' ∧ s'.queue = if it = 0 then s.queue.putFront bytes
      else ⟨s.queue.taken,s.str.take it ++ bytes ++ s.str.drop it⟩ := by
  have hadd := s.size_add
  have hn : (UInt32.ofNat bytes.length).toNat = bytes.length % 2^32 := UInt32.toNat_ofNat'
  unfold insert
  by_cases hfits : it = 0 ∧ UInt32.ofNat bytes.length ≤ s.nReadPos
  · obtain ⟨rfl,hle⟩ := hfits
    have hlt := hlen rfl (by rwa [UInt32.le_iff_toNat_le,hn] at hle)
    rw [Nat.mod_eq_of_lt hlt] at hn
    have hpos := UInt32.toNat_sub_of_le _ _ hle
    rw [hn] at hpos
    rw [UInt32.le_iff_toNat_le,hn] at hle
    have hroom : (s.nReadPos - UInt32.ofNat bytes.length).toNat + bytes.length =
        s.nReadPos.toNat := by omega
    simp only [true_and,UInt32.le_iff_toNat_le,hn,hle,if_true]
    rw [dif_pos (by omega)]
    refine ⟨_,rfl,?_⟩
    simp only [ByteQueue.putFront,length_taken,if_pos hle,queue_unread,hroom]
    simp only [queue,str,List.append_assoc]
    rw [List.take_append_of_le_length (by simp; omega),
      List.drop_append_of_le_length (by simp; omega),List.take_take,List.drop_take,List.take_take,
      hpos]
    simp
  · rw [if_neg hfits]
    obtain ⟨s',hs',hq⟩ := queue_insertAt hit bytes
    refine ⟨s',hs',hq.trans ?_⟩
    split_ifs with h0
    · subst h0
      have hnot : ¬ bytes.length ≤ s.nReadPos.toNat := fun hle => hfits ⟨rfl,by
        rw [UInt32.le_iff_toNat_le,hn]
        exact (Nat.mod_le _ _).trans hle⟩
      simp [ByteQueue.putFront,hnot]
    · rfl

theorem queue_eraseAt {s : CDataStream} {first last : ℕ} (hle : first ≤ last)
    (hlast : last ≤ s.size) :
    ∃ s', s.eraseAt first last = .ok s' ∧
      s'.queue = ⟨s.queue.taken,s.str.take first ++ s.str.drop last⟩ := by
  have hadd := s.size_add
  refine ⟨_,if_pos ⟨hle,hlast⟩,?_⟩
  simp only [queue,str,List.drop_drop]
  rw [List.take_append_of_le_length (by simp; omega),
    List.drop_append_of_le_length (by simp; omega),List.take_take,List.drop_take]
  simp

theorem queue_erase {s : CDataStream} {it : ℕ} (hit : it < s.size)
    (hpos : it = 0 → s.nReadPos.toNat + 1 < 2^32) :
    ∃ s', s.erase it = .ok s' ∧ s'.queue =
      if it = 0 then s.queue.takeFront 1 else ⟨s.queue.taken,s.str.eraseIdx it⟩ := by
  have hadd := s.size_add
  unfold erase
  split_ifs with h0
  · have hnext : (s.nReadPos + 1).toNat = s.nReadPos.toNat + 1 := by
      rw [UInt32.toNat_add]
      exact Nat.mod_eq_of_lt (hpos h0)
    simp only [hnext]
    split_ifs with hend
    · have h1 : 1 = s.size := by omega
      exact ⟨clear,rfl,h1 ▸ s.queue_takeAll⟩
    · exact ⟨_,rfl,queue_takeFront (by omega) rfl hnext⟩
  · obtain ⟨s',hs',hq⟩ := queue_eraseAt (Nat.le_add_right it 1) hit
    exact ⟨s',hs',by rw [hq,List.eraseIdx_eq_take_drop_succ]⟩

theorem queue_eraseRange {s : CDataStream} {first last : ℕ} (hle : first ≤ last)
    (hlast : last ≤ s.size)
    (hpos : first = 0 → last < s.size → s.nReadPos.toNat + last < 2^32) :
    ∃ s', s.eraseRange first last = .ok s' ∧ s'.queue =
      if first = 0 then s.queue.takeFront last
      else ⟨s.queue.taken,s.str.take first ++ s.str.drop last⟩ := by
  have hadd := s.size_add
  unfold eraseRange
  split_ifs with h0 hend
  · exact ⟨clear,rfl,hend ▸ s.queue_takeAll⟩
  · have hlt : last < s.size := by omega
    have hnext : (UInt32.ofNat (s.nReadPos.toNat + last)).toNat = s.nReadPos.toNat + last :=
      UInt32.toNat_ofNat_of_lt' (hpos h0 hlt)
    simp only [hnext]
    rw [dif_pos (by omega)]
    exact ⟨_,rfl,queue_takeFront hlt rfl hnext⟩
  · exact queue_eraseAt hle hlast

theorem queue_rewind (s : CDataStream) (n : ℕ) :
    (.flag (s.rewind n).1,(s.rewind n).2.queue) = s.queue.step (.rewind n) := by
  have hread := s.readable
  have hlt := s.nReadPos.toNat_lt
  simp only [rewind,ByteQueue.step,length_taken]
  split_ifs with h
  · rfl
  · have hn : (UInt32.ofNat n).toNat = n := UInt32.toNat_ofNat_of_lt' (by rw [UInt32.size]; omega)
    have hpos : (s.nReadPos - UInt32.ofNat n).toNat = s.nReadPos.toNat - n := by
      rw [UInt32.toNat_sub_of_le _ _ (by rw [UInt32.le_iff_toNat_le,hn]; omega),hn]
    simp only [queue,str,hpos,List.take_take,List.drop_take,Prod.mk.injEq,ByteQueue.mk.injEq,
      true_and]
    refine ⟨by rw [Nat.min_eq_left (Nat.sub_le _ _)],?_⟩
    -- the bytes between the new and the old position, then those from the old one on
    rw [Nat.sub_sub_self (Nat.le_of_not_lt h)]
    conv_lhs => rw [← List.take_append_drop n (s.vch.drop (s.nReadPos.toNat - n)),List.drop_drop,
      Nat.sub_add_cancel (Nat.le_of_not_lt h)]

@[simp] theorem queue_compact (s : CDataStream) : s.compact.queue = ⟨[],s.str⟩ := rfl

/-- The index the loop counts is that of the byte, modulo the length of the key. -/
theorem xorLoop_eq {key : Bytes} (hkey : key ≠ []) {j : ℕ} (hj : j < key.length) (bytes : Bytes) :
    xorLoop key j bytes = bytes.mapIdx fun i b => b ^^^ key.getD ((j + i) % key.length) 0 := by
  induction bytes generalizing j with
  | nil => rfl
  | cons b rest ih =>
    simp only [xorLoop,List.mapIdx_cons,Nat.add_zero,Nat.mod_eq_of_lt hj]
    refine congrArg _ ?_
    split_ifs with hend
    · rw [ih (List.length_pos_iff.mpr hkey)]
      refine congrArg (List.mapIdx · rest) (funext fun i => funext fun c => ?_)
      rw [← Nat.add_assoc,Nat.add_right_comm,hend,Nat.add_comm key.length,Nat.add_mod_right,
        Nat.zero_add]
    · rw [ih (by omega)]
      refine congrArg (List.mapIdx · rest) (funext fun i => funext fun c => ?_)
      rw [Nat.add_assoc,Nat.add_comm 1 i]

/-- Where nothing has been read, `Xor` changes exactly the unread bytes. -/
theorem queue_xor {s : CDataStream} {key : Bytes} (h : s.nReadPos = 0 ∨ key = []) :
    (.done,(s.xor key).queue) = s.queue.step (.xor key) := by
  simp only [xor,ByteQueue.step]
  split_ifs with hkey
  · have hself : s.str = s.str.mapIdx fun i b => b ^^^ key.getD (i % key.length) 0 := by
      rw [List.length_eq_zero_iff.mp hkey]
      exact List.ext_getElem (by simp) (by simp)
    rw [queue_unread,← hself]
    rfl
  · have h0 : s.nReadPos.toNat = 0 := by
      rw [h.resolve_right (by simpa using hkey)]
      rfl
    have hpos := Nat.pos_of_ne_zero hkey
    simp only [queue,str,size,h0,List.take_zero,List.drop_zero,Nat.sub_zero,List.take_length,
      List.drop_length,List.append_nil]
    rw [xorLoop_eq (by simpa using hkey) hpos]
    simp

theorem step_queue {s : CDataStream} {op : Operation} (h : s.Fits op) :
    ∃ a s', s.step op = .ok (a,s') ∧ s.queue.step op = (a,s'.queue) := by
  cases op with
  | write pch => exact ⟨_,_,rfl,by rw [queue_write]; rfl⟩
  | read nSize =>
    have hr := read_of_reaches h
    simp only [step,ByteQueue.step,queue_unread,length_str]
    split_ifs at hr ⊢ with hlt
    · exact ⟨_,s,by rw [hr]; rfl,rfl⟩
    · obtain ⟨s',hs',hq⟩ := hr
      exact ⟨_,s',by rw [hs']; rfl,by rw [hq]⟩
  | ignore nSize =>
    have hr := ignore_of_reaches h.1 h.2
    simp only [step,ByteQueue.step,queue_unread,length_str]
    split_ifs at hr ⊢ with hlt
    · exact ⟨_,s,by rw [hr]; rfl,rfl⟩
    · obtain ⟨s',hs',hq⟩ := hr
      exact ⟨_,s',by rw [hs']; rfl,by rw [hq]⟩
  | insert it bytes =>
    obtain ⟨s',hs',hq⟩ := queue_insert h.1 h.2
    exact ⟨_,s',by rw [step,hs']; rfl,by rw [hq]; rfl⟩
  | insertFill it n x =>
    obtain ⟨s',hs',hq⟩ := queue_insertAt h (List.replicate n x)
    exact ⟨_,s',by rw [step,insertFill,hs']; rfl,by rw [hq]; rfl⟩
  | erase it =>
    obtain ⟨s',hs',hq⟩ := queue_erase h.1 h.2
    exact ⟨_,s',by rw [step,hs']; rfl,by rw [hq]; rfl⟩
  | eraseRange first last =>
    obtain ⟨s',hs',hq⟩ := queue_eraseRange h.1 h.2.1 h.2.2
    exact ⟨_,s',by rw [step,hs']; rfl,by rw [hq]; rfl⟩
  | rewind n => exact ⟨_,_,rfl,(s.queue_rewind n).symm⟩
  | compact => exact ⟨_,_,rfl,by rw [queue_compact]; rfl⟩
  | xor key => exact ⟨_,_,rfl,(queue_xor h).symm⟩
  | append b => exact ⟨_,_,rfl,by rw [queue_append]; rfl⟩
  | shift b =>
    have hb : b.str = b.vch := by
      have h0 : b.nReadPos = 0 := h
      simp [str,h0]
    exact ⟨_,_,rfl,by rw [queue_serializeTo,← hb]; rfl⟩

/-- `<<` does what `+=` does exactly if nothing of the written stream has been read. -/
theorem serializeTo_eq_append (s b : CDataStream) :
    b.serializeTo s = s.append b ↔ b.nReadPos = 0 := by
  have hread := b.readable
  constructor
  · intro h
    have hq := congrArg (List.length ∘ ByteQueue.unread ∘ queue) h
    simp only [Function.comp_apply,queue_serializeTo,queue_append,List.length_append,length_str,
      size] at hq
    exact UInt32.toNat_inj.mp (by rw [UInt32.toNat_zero]; omega)
  · intro h0
    have hb : b.str = b.vch := by simp [str,h0]
    unfold serializeTo append write
    split_ifs with hne
    · simp [hb]
    · simp [hb,not_not.mp hne]

theorem fitsRun_cons {s s' : CDataStream} {op : Operation} {ops : List Operation} {a : Answer}
    (hstep : s.step op = .ok (a,s')) (hop : s.Fits op) (hops : s'.FitsRun ops) :
    s.FitsRun (op::ops) := by
  refine ⟨hop,fun a' s'' h => ?_⟩
  obtain ⟨rfl,rfl⟩ := Prod.mk.inj (Except.ok.inj (hstep.symm.trans h))
  exact hops

theorem run_queue_of_fits (ops : List Operation) (s : CDataStream) (h : s.FitsRun ops) :
    ∃ answers s', s.run ops = .ok (answers,s') ∧ s.queue.run ops = (answers,s'.queue) := by
  induction ops generalizing s with
  | nil => exact ⟨[],s,rfl,rfl⟩
  | cons op ops ih =>
    obtain ⟨hop,hops⟩ := h
    obtain ⟨a,s',hs',hq⟩ := step_queue hop
    obtain ⟨answers,s'',hs'',hq'⟩ := ih s' (hops a s' hs')
    refine ⟨a::answers,s'',?_,?_⟩
    · simp only [run,Run.bind_ok]
      exact ⟨_,hs',_,hs'',rfl⟩
    · simp only [ByteQueue.run,hq,hq']

/-- In every sequence of operations that fit, the stream answers as the queue and shows the
queue's bytes; and writing one stream to another appends its unread bytes exactly if none of
it has been read. -/
theorem run_queue (ops : List Operation) (s b : CDataStream) :
    (s.FitsRun ops →
      ∃ answers s', s.run ops = .ok (answers,s') ∧ s.queue.run ops = (answers,s'.queue)) ∧
      (b.serializeTo s = s.append b ↔ b.nReadPos = 0) :=
  ⟨run_queue_of_fits ops s,serializeTo_eq_append s b⟩

/-- Xor before the first byte is read, then reading, rewinding and appending. -/
theorem run_queue_xorFirst :
    ∃ answers s', CDataStream.run ⟨[0x61,0x62,0x63],0,by decide⟩
        [.xor [1],.read 2,.rewind 1,.append ⟨[0x61,0x62],1,by decide⟩] = .ok (answers,s') ∧
      ByteQueue.run ⟨[],[0x61,0x62,0x63]⟩
        [.xor [1],.read 2,.rewind 1,.append ⟨[0x61,0x62],1,by decide⟩] = (answers,s'.queue) :=
  (run_queue _ ⟨[0x61,0x62,0x63],0,by decide⟩ clear).1 <|
    fitsRun_cons rfl (.inl rfl) <| fitsRun_cons rfl (fun _ => by decide) <|
    fitsRun_cons rfl trivial <| fitsRun_cons rfl trivial trivial

/-- After one byte is read, `Xor` misses the last unread byte, and `<<` writes the read one. -/
theorem run_differs :
    (CDataStream.run ⟨[0x61,0x62,0x63],0,by decide⟩ [.read 1,.xor [1]]).map (str ·.2) =
        .ok [0x63,0x63] ∧
      (ByteQueue.run ⟨[],[0x61,0x62,0x63]⟩ [.read 1,.xor [1]]).2.unread = [0x63,0x62] ∧
      (clear.run [.shift ⟨[0x61,0x62],1,by decide⟩]).map (str ·.2) = .ok [0x61,0x62] ∧
      (clear.run [.append ⟨[0x61,0x62],1,by decide⟩]).map (str ·.2) = .ok [0x62] :=
  ⟨rfl,rfl,rfl,rfl⟩

end CDataStream
end Sidechain
