import Sidechain.Library.Blocks
import Sidechain.Primitives.Serialize
import Mathlib.Logic.Relation

/-! `CBufferedFile`: a file read through a ring buffer that lets the reader go back. Positions are
natural numbers, file sizes being far below `2^64`; only the position given to `SetPos` can make a
64-bit sum wrap around. -/
namespace Sidechain
open Blocks

/-- The source file is its content, and the flag `feof` that a short read sets. -/
structure CBufferedFile where
  content : Bytes
  feof : Bool
  nSrcPos : ℕ
  nReadPos : ℕ
  nReadLimit : ℕ
  nRewind : ℕ
  vchBuf : Bytes
  deriving DecidableEq, Repr

/-- How a member ends: with a value, with an exception, or not within the fuel of its loop. -/
inductive FileResult (α : Type) where
  | ok (a : α) (file : CBufferedFile)
  | failure (what : String) (file : CBufferedFile)
  | running
  deriving DecidableEq, Repr

namespace FileResult
variable {α β : Type}

def bind (x : FileResult α) (k : α → CBufferedFile → FileResult β) : FileResult β :=
  match x with
  | ok a file => k a file
  | failure what file => failure what file
  | running => running

/-- The member ends, with a value as `Q` says or with an exception as `E` says. -/
def Ends (x : FileResult α) (Q : α → CBufferedFile → Prop) (E : CBufferedFile → Prop) : Prop :=
  match x with
  | ok a file => Q a file
  | failure _ file => E file
  | running => False

variable {x : FileResult α} {Q Q' : α → CBufferedFile → Prop} {E E' : CBufferedFile → Prop}

theorem Ends.mono (h : x.Ends Q E) (hQ : ∀ a f, Q a f → Q' a f) (hE : ∀ f, E f → E' f) :
    x.Ends Q' E' := by
  cases x with
  | ok a f => exact hQ a f h
  | failure what f => exact hE f h
  | running => exact h.elim

theorem Ends.bind {k : α → CBufferedFile → FileResult β} {R : β → CBufferedFile → Prop}
    (h : x.Ends Q E) (hk : ∀ a f, Q a f → (k a f).Ends R E) : (x.bind k).Ends R E := by
  cases x with
  | ok a f => exact hk a f h
  | failure what f => exact h
  | running => exact h.elim

end FileResult

namespace CBufferedFile

/-- The constructor, on a file just opened. -/
def opened (content : Bytes) (nBufSize nRewind : ℕ) : CBufferedFile :=
  ⟨content,false,0,0,2^64 - 1,nRewind,List.replicate nBufSize 0⟩

/-- `pos`, `readNow` and `nAvail` are 32 bits wide. -/
def fill (f : CBufferedFile) : FileResult Bool :=
  let size := f.vchBuf.length
  let pos := f.nSrcPos % size % 2^32
  let room := (size - pos) % 2^32
  let nAvail := (((size : ℤ) - (f.nSrcPos - f.nReadPos) - f.nRewind) % 2^32).toNat
  let readNow := if nAvail < room then nAvail else room
  if readNow = 0 then .ok false f
  else
    let data := (f.content.drop f.nSrcPos).take readNow
    let f := {f with feof := f.feof || decide (data.length < readNow)}
    if data = [] then
      .failure (if f.feof then "CBufferedFile::Fill: end of file"
        else "CBufferedFile::Fill: fread failed") f
    else .ok true
      {f with vchBuf := writeAt f.vchBuf pos data, nSrcPos := f.nSrcPos + data.length}

/-- `if (nReadPos == nSrcPos) Fill();` -/
def refill (f : CBufferedFile) : FileResult Unit :=
  if f.nReadPos = f.nSrcPos then f.fill.bind fun _ f => .ok () f else .ok () f

def eof (f : CBufferedFile) : Bool := decide (f.nReadPos = f.nSrcPos) && f.feof

def getPos (f : CBufferedFile) : ℕ := f.nReadPos

/-- The number of bytes one round of `read` copies. -/
def readNow (f : CBufferedFile) (nSize : ℕ) : ℕ :=
  let pos := f.nReadPos % f.vchBuf.length % 2^32
  let nNow := if nSize + pos > f.vchBuf.length then f.vchBuf.length - pos else nSize
  if nNow + f.nReadPos > f.nSrcPos then f.nSrcPos - f.nReadPos else nNow

/-- The loop of `read`. -/
def readLoop : ℕ → CBufferedFile → ℕ → FileResult Bytes
  | _,f,0 => .ok [] f
  | 0,_,_ => .running
  | fuel + 1,f,nSize => f.refill.bind fun _ f =>
    let nNow := f.readNow nSize
    let pch := (f.vchBuf.drop (f.nReadPos % f.vchBuf.length % 2^32)).take nNow
    (readLoop fuel {f with nReadPos := f.nReadPos + nNow} (nSize - nNow)).bind fun rest f =>
      .ok (pch ++ rest) f

theorem readLoop_succ (fuel : ℕ) (f : CBufferedFile) {nSize : ℕ} (h : nSize ≠ 0) :
    f.readLoop (fuel + 1) nSize = f.refill.bind fun _ f =>
      (readLoop fuel {f with nReadPos := f.nReadPos + f.readNow nSize}
        (nSize - f.readNow nSize)).bind fun rest g =>
          .ok ((f.vchBuf.drop (f.nReadPos % f.vchBuf.length % 2^32)).take (f.readNow nSize) ++ rest)
            g := by
  obtain ⟨n,rfl⟩ := Nat.exists_eq_succ_of_ne_zero h
  rfl

/-- Every round of the loop copies a byte, so that the size is fuel enough. -/
def read (f : CBufferedFile) (nSize : ℕ) : FileResult Bytes :=
  if nSize + f.nReadPos > f.nReadLimit then .failure "Read attempted past buffer limit" f
  else if nSize + f.nRewind > f.vchBuf.length then .failure "Read larger than buffer size" f
  else readLoop nSize f nSize

/-- The returned flag says whether the position asked for was taken. -/
def setPos (f : CBufferedFile) (nPos : ℕ) : Bool × CBufferedFile :=
  if (nPos + f.nRewind) % 2^64 < f.nSrcPos then
    (false,{f with nReadPos := (f.nSrcPos + 2^64 - f.nRewind) % 2^64})
  else if nPos > f.nSrcPos then (false,{f with nReadPos := f.nSrcPos})
  else (true,{f with nReadPos := nPos})

def setLimit (f : CBufferedFile) (nPos : ℕ) : Bool × CBufferedFile :=
  if nPos < f.nReadPos then (false,f) else (true,{f with nReadLimit := nPos})

/-- The loop of `FindByte`. -/
def findByteLoop (ch : UInt8) : ℕ → CBufferedFile → FileResult Unit
  | 0,_ => .running
  | fuel + 1,f => f.refill.bind fun _ f =>
    if f.vchBuf[f.nReadPos % f.vchBuf.length]? = some ch then .ok () f
    else findByteLoop ch fuel {f with nReadPos := f.nReadPos + 1}

/-- Every round passes a byte of the file. -/
def findByte (f : CBufferedFile) (ch : UInt8) : FileResult Unit :=
  findByteLoop ch (f.content.length - f.nReadPos + 1) f

/-- The positions are in order, and the ring holds the last bytes read from the file. A file's size
is a signed 64-bit number. -/
structure Inv (f : CBufferedFile) : Prop where
  rewind : f.nRewind < f.vchBuf.length
  small : f.vchBuf.length < 2^32
  file : f.content.length < 2^63
  read_le : f.nReadPos ≤ f.nSrcPos
  src_le : f.nSrcPos ≤ f.content.length
  ahead : f.nSrcPos ≤ f.nReadPos + f.vchBuf.length
  ring : ∀ i < f.nSrcPos, f.nSrcPos ≤ i + f.vchBuf.length →
    f.vchBuf[i % f.vchBuf.length]? = f.content[i]?

theorem inv_opened (content : Bytes) {nBufSize nRewind : ℕ} (h : nRewind < nBufSize)
    (hsmall : nBufSize < 2^32) (hfile : content.length < 2^63) :
    (opened content nBufSize nRewind).Inv where
  rewind := by simpa [opened] using h
  small := by simpa [opened] using hsmall
  file := hfile
  read_le := Nat.le_refl 0
  src_le := Nat.zero_le _
  ahead := Nat.zero_le _
  ring i hi := absurd hi (Nat.not_lt_zero i)

/-- The file and the two parameters stay as they are, the source is read on. -/
structure Same (f f' : CBufferedFile) : Prop where
  content : f'.content = f.content
  limit : f'.nReadLimit = f.nReadLimit
  rewind : f'.nRewind = f.nRewind
  size : f'.vchBuf.length = f.vchBuf.length
  src : f.nSrcPos ≤ f'.nSrcPos

theorem Same.refl (f : CBufferedFile) : f.Same f := ⟨rfl,rfl,rfl,rfl,Nat.le_refl _⟩

theorem Same.trans {f g h : CBufferedFile} (hfg : f.Same g) (hgh : g.Same h) : f.Same h :=
  ⟨hgh.content.trans hfg.content,hgh.limit.trans hfg.limit,hgh.rewind.trans hfg.rewind,
    hgh.size.trans hfg.size,hfg.src.trans hgh.src⟩

theorem same_advance (f : CBufferedFile) (nPos : ℕ) : f.Same {f with nReadPos := nPos} :=
  ⟨rfl,rfl,rfl,rfl,Nat.le_refl _⟩

variable {f : CBufferedFile}

theorem Inv.take_ring (h : f.Inv) {n : ℕ} (hn : f.nReadPos + n ≤ f.nSrcPos)
    (hend : f.nReadPos % f.vchBuf.length + n ≤ f.vchBuf.length) :
    (f.vchBuf.drop (f.nReadPos % f.vchBuf.length)).take n = (f.content.drop f.nReadPos).take n := by
  refine List.ext_getElem? fun j => ?_
  rcases Nat.lt_or_ge j n with hj | hj
  · have hmod : (f.nReadPos + j) % f.vchBuf.length = f.nReadPos % f.vchBuf.length + j := by
      rw [Nat.add_mod,Nat.mod_eq_of_lt (a := j) (by omega),Nat.mod_eq_of_lt (by omega)]
    rw [List.getElem?_take_of_lt hj,List.getElem?_take_of_lt hj,List.getElem?_drop,
      List.getElem?_drop,← hmod]
    exact h.ring _ (by omega) (by have := h.ahead; omega)
  · simp [List.getElem?_take_eq_none hj]

theorem Inv.ring_writeAt (h : f.Inv) {data : Bytes}
    (hdata : data = (f.content.drop f.nSrcPos).take data.length)
    (hend : f.nSrcPos % f.vchBuf.length + data.length ≤ f.vchBuf.length) {i : ℕ}
    (hi : i < f.nSrcPos + data.length)
    (hback : f.nSrcPos + data.length ≤ i + f.vchBuf.length) :
    (writeAt f.vchBuf (f.nSrcPos % f.vchBuf.length) data)[i % f.vchBuf.length]?
      = f.content[i]? := by
  have hpos : 0 < f.vchBuf.length := by have := h.rewind; omega
  have hlt := Nat.mod_lt f.nSrcPos hpos
  rcases Nat.lt_or_ge i f.nSrcPos with hold | hnew
  · -- an old byte, before the place written or behind it
    have hring := h.ring i hold (by omega)
    rw [← hring]
    have hmod : i % f.vchBuf.length < f.nSrcPos % f.vchBuf.length ∨
        f.nSrcPos % f.vchBuf.length + data.length ≤ i % f.vchBuf.length := by
      have hback' : i + f.vchBuf.length - f.nSrcPos < f.vchBuf.length := by omega
      have hsum : (f.nSrcPos + (i + f.vchBuf.length - f.nSrcPos)) % f.vchBuf.length
          = i % f.vchBuf.length := by
        rw [Nat.add_sub_cancel' (by omega),Nat.add_mod_right]
      rw [Nat.add_mod,Nat.mod_eq_of_lt hback'] at hsum
      rcases Nat.lt_or_ge (f.nSrcPos % f.vchBuf.length + (i + f.vchBuf.length - f.nSrcPos))
        f.vchBuf.length with hwrap | hwrap
      · rw [Nat.mod_eq_of_lt hwrap] at hsum
        omega
      · rw [Nat.mod_eq_sub_mod hwrap,Nat.mod_eq_of_lt (by omega)] at hsum
        omega
    rcases hmod with hlow | hhigh
    · exact getElem?_writeAt_of_lt hlt.le hlow
    · exact getElem?_writeAt_of_le hlt.le hhigh
  · obtain ⟨j,rfl⟩ := Nat.exists_eq_add_of_le hnew
    have hj : j < data.length := by omega
    have hmod : (f.nSrcPos + j) % f.vchBuf.length = f.nSrcPos % f.vchBuf.length + j := by
      rw [Nat.add_mod,Nat.mod_eq_of_lt (a := j) (by omega),Nat.mod_eq_of_lt (by omega)]
    rw [hmod,getElem?_writeAt_data hlt.le hj,hdata,List.getElem?_take_of_lt (by omega),
      List.getElem?_drop]

/-- Storing what follows in the file, as far as the byte to be read next is not overwritten. -/
theorem Inv.store (h : f.Inv) {data : Bytes} (feof : Bool)
    (hdata : data = (f.content.drop f.nSrcPos).take data.length)
    (hend : f.nSrcPos % f.vchBuf.length + data.length ≤ f.vchBuf.length)
    (hahead : f.nSrcPos + data.length ≤ f.nReadPos + f.vchBuf.length) :
    {f with
      feof := feof
      vchBuf := writeAt f.vchBuf (f.nSrcPos % f.vchBuf.length) data
      nSrcPos := f.nSrcPos + data.length}.Inv := by
  have hsize := length_writeAt hend
  have hlen := congrArg List.length hdata
  rw [List.length_take,List.length_drop] at hlen
  have hsrc := h.src_le
  refine ⟨?_,?_,h.file,Nat.le_add_right_of_le h.read_le,?_,?_,fun i hi hback => ?_⟩
  · simpa only [hsize] using h.rewind
  · simpa only [hsize] using h.small
  · simp only
    omega
  · simpa only [hsize] using hahead
  · simp only [hsize] at hback ⊢
    exact h.ring_writeAt hdata hend hi hback

/-- Where the reader has caught up there is room, so that only the end of the file stops it. -/
theorem Inv.refill (h : f.Inv) : f.refill.Ends
    (fun _ g => f.Same g ∧ g.Inv ∧ g.nReadPos = f.nReadPos ∧ g.nReadPos < g.nSrcPos)
    (fun g => f.Same g ∧ g.Inv ∧ g.nReadPos = f.nReadPos ∧ f.nReadPos = f.content.length) := by
  have hrewind := h.rewind
  have hsmall := h.small
  by_cases hcaught : f.nReadPos = f.nSrcPos
  · have hlt : f.nSrcPos % f.vchBuf.length < f.vchBuf.length := Nat.mod_lt _ (by omega)
    have hpos : f.nSrcPos % f.vchBuf.length % 2^32 = f.nSrcPos % f.vchBuf.length :=
      Nat.mod_eq_of_lt (by omega)
    have hroom : (f.vchBuf.length - f.nSrcPos % f.vchBuf.length) % 2^32
        = f.vchBuf.length - f.nSrcPos % f.vchBuf.length := Nat.mod_eq_of_lt (by omega)
    have havail : (((f.vchBuf.length : ℤ) - (f.nSrcPos - f.nReadPos) - f.nRewind) % 2^32).toNat
        = f.vchBuf.length - f.nRewind := by
      rw [hcaught]
      omega
    simp only [CBufferedFile.refill,if_pos hcaught,fill,hpos,hroom,havail]
    generalize hnow : (if f.vchBuf.length - f.nRewind
      < f.vchBuf.length - f.nSrcPos % f.vchBuf.length then f.vchBuf.length - f.nRewind
      else f.vchBuf.length - f.nSrcPos % f.vchBuf.length) = readNow
    have hread : 0 < readNow ∧ readNow ≤ f.vchBuf.length - f.nRewind ∧
        f.nSrcPos % f.vchBuf.length + readNow ≤ f.vchBuf.length := by
      split at hnow <;> omega
    rw [if_neg (by omega)]
    generalize hdata : (f.content.drop f.nSrcPos).take readNow = data
    have hlen : data.length = min readNow (f.content.length - f.nSrcPos) := by
      rw [← hdata,List.length_take,List.length_drop]
    have hsrc := h.src_le
    split
    · next hnil =>
      rw [hnil,List.length_nil] at hlen
      have hend : f.nReadPos = f.content.length := by omega
      exact ⟨⟨rfl,rfl,rfl,rfl,Nat.le_refl _⟩,⟨h.rewind,h.small,h.file,h.read_le,h.src_le,h.ahead,
        h.ring⟩,
        rfl,hend⟩
    · next hsome =>
      have hne := List.length_pos_iff.mpr hsome
      have hfit : f.nSrcPos % f.vchBuf.length + data.length ≤ f.vchBuf.length := by omega
      have hself : data = (f.content.drop f.nSrcPos).take data.length := by
        rw [hlen,← List.length_drop,← hdata,List.take_eq_take_iff]
        simp
      have hstored := h.store (f.feof || decide (data.length < readNow)) hself hfit (by omega)
      refine ⟨⟨rfl,rfl,rfl,length_writeAt hfit,by simp⟩,hstored,rfl,?_⟩
      simp only
      omega
  · simp only [CBufferedFile.refill,if_neg hcaught]
    exact ⟨Same.refl f,h,rfl,by have := h.read_le; omega⟩

theorem Inv.advance (h : f.Inv) {nPos : ℕ} (hle : nPos ≤ f.nSrcPos)
    (hahead : f.nSrcPos ≤ nPos + f.vchBuf.length) : {f with nReadPos := nPos}.Inv :=
  ⟨h.rewind,h.small,h.file,hle,h.src_le,hahead,h.ring⟩

/-- What the `nNow` of a round is good for: it is positive, and the block lies in the ring. -/
theorem Inv.readNow_bounds (h : f.Inv) (hlt : f.nReadPos < f.nSrcPos) {nSize : ℕ}
    (hpos : 0 < nSize) : 0 < f.readNow nSize ∧ f.readNow nSize ≤ nSize ∧
      f.nReadPos + f.readNow nSize ≤ f.nSrcPos ∧
      f.nReadPos % f.vchBuf.length + f.readNow nSize ≤ f.vchBuf.length := by
  have hsmall := h.small
  have hmod : f.nReadPos % f.vchBuf.length < f.vchBuf.length :=
    Nat.mod_lt _ (by have := h.rewind; omega)
  have hpos32 : f.nReadPos % f.vchBuf.length % 2^32 = f.nReadPos % f.vchBuf.length :=
    Nat.mod_eq_of_lt (by omega)
  simp only [readNow,hpos32]
  split_ifs <;> omega

theorem Inv.readLoop {fuel nSize : ℕ} (h : f.Inv) (hfuel : nSize ≤ fuel) :
    (f.readLoop fuel nSize).Ends
      (fun data g => f.Same g ∧ g.Inv ∧ g.nReadPos = f.nReadPos + nSize ∧
        f.nReadPos + nSize ≤ f.content.length ∧ data = (f.content.drop f.nReadPos).take nSize)
      (fun g => f.Same g ∧ g.Inv ∧ f.nReadPos ≤ g.nReadPos ∧
        f.content.length < f.nReadPos + nSize) := by
  induction fuel generalizing f nSize with
  | zero =>
    obtain rfl := Nat.le_zero.mp hfuel
    exact ⟨Same.refl f,h,rfl,h.read_le.trans h.src_le,rfl⟩
  | succ fuel ih =>
    rcases Nat.eq_zero_or_pos nSize with rfl | hpos
    · rw [CBufferedFile.readLoop]
      exact ⟨Same.refl f,h,rfl,h.read_le.trans h.src_le,rfl⟩
    · rw [readLoop_succ _ _ hpos.ne']
      refine (h.refill.mono (fun _ _ => id) fun g ⟨hsame,hg,hread,hend⟩ =>
        ⟨hsame,hg,hread.ge,by omega⟩).bind fun _ g ⟨hsame,hg,hread,hlt⟩ => ?_
      obtain ⟨hnow,hle,hsrc,hfit⟩ := hg.readNow_bounds hlt hpos
      have hpos32 : g.nReadPos % g.vchBuf.length % 2^32 = g.nReadPos % g.vchBuf.length := by
        have hsmall := hg.small
        have hmod := Nat.mod_lt g.nReadPos (Nat.zero_lt_of_lt hg.rewind)
        exact Nat.mod_eq_of_lt (by omega)
      rw [hpos32,hg.take_ring hsrc hfit]
      have hadv := hg.advance hsrc (by have := hg.ahead; omega)
      refine ((ih hadv (by omega : nSize - g.readNow nSize ≤ fuel)).mono (fun _ _ => id) ?_).bind ?_
      · rintro e ⟨hrest,he,hback,hshort⟩
        simp only [hread,hsame.content] at hback hshort
        exact ⟨hsame.trans ((same_advance g _).trans hrest),he,by omega,by omega⟩
      · rintro data e ⟨hrest,he,hback,hshort,hdata⟩
        simp only [hread,hsame.content] at hback hshort hdata hnow hle hsrc
        refine ⟨hsame.trans ((same_advance g _).trans hrest),he,by omega,by omega,?_⟩
        rw [hdata,hread,hsame.content,← List.drop_drop,← List.take_add,Nat.add_sub_cancel' hle]

/-- Why a read of `nSize` bytes cannot be served. -/
def Barred (f : CBufferedFile) (nSize : ℕ) : Prop :=
  f.content.length < f.nReadPos + nSize ∨ f.nReadLimit < f.nReadPos + nSize ∨
    f.vchBuf.length < nSize + f.nRewind

theorem Inv.read (h : f.Inv) (nSize : ℕ) : (f.read nSize).Ends
    (fun data g => f.Same g ∧ g.Inv ∧ g.nReadPos = f.nReadPos + nSize ∧ ¬f.Barred nSize ∧
      data = (f.content.drop f.nReadPos).take nSize)
    (fun g => f.Same g ∧ g.Inv ∧ f.nReadPos ≤ g.nReadPos ∧ f.Barred nSize) := by
  rw [CBufferedFile.read]
  split
  · exact ⟨Same.refl f,h,Nat.le_refl _,.inr (.inl (by omega))⟩
  split
  · exact ⟨Same.refl f,h,Nat.le_refl _,.inr (.inr (by omega))⟩
  refine (h.readLoop (Nat.le_refl nSize)).mono ?_ fun g ⟨hsame,hg,hread,hshort⟩ =>
    ⟨hsame,hg,hread,.inl hshort⟩
  rintro data g ⟨hsame,hg,hread,hfits,hdata⟩
  exact ⟨hsame,hg,hread,by unfold Barred; omega,hdata⟩

theorem Inv.ring_read (h : f.Inv) (hlt : f.nReadPos < f.nSrcPos) :
    f.vchBuf[f.nReadPos % f.vchBuf.length]? = f.content[f.nReadPos]? := h.ring _ hlt h.ahead

theorem Inv.findByteLoop (h : f.Inv) {ch : UInt8} {fuel : ℕ}
    (hfuel : f.content.length - f.nReadPos < fuel) : (f.findByteLoop ch fuel).Ends
      (fun _ g => f.Same g ∧ g.Inv ∧ f.nReadPos ≤ g.nReadPos ∧ g.nReadPos < g.nSrcPos ∧
        f.content[g.nReadPos]? = some ch ∧
        ∀ i, f.nReadPos ≤ i → i < g.nReadPos → f.content[i]? ≠ some ch)
      (fun g => f.Same g ∧ g.Inv ∧ f.nReadPos ≤ g.nReadPos ∧
        ∀ i, f.nReadPos ≤ i → f.content[i]? ≠ some ch) := by
  induction fuel generalizing f with
  | zero => exact absurd hfuel (Nat.not_lt_zero _)
  | succ fuel ih =>
    rw [CBufferedFile.findByteLoop]
    refine (h.refill.mono (fun _ _ => id) fun g ⟨hsame,hg,hread,hend⟩ =>
      ⟨hsame,hg,hread.ge,fun i hi => by simp [List.getElem?_eq_none (hend ▸ hi)]⟩).bind
        fun _ g ⟨hsame,hg,hread,hlt⟩ => ?_
    have hbyte := hg.ring_read hlt
    rw [hsame.content] at hbyte
    split
    · next hch =>
      exact ⟨hsame,hg,hread.ge,hlt,hbyte ▸ hch,fun i hlo hhi => by omega⟩
    · next hch =>
      have hadv := hg.advance (Nat.succ_le_of_lt hlt) (by have := hg.ahead; omega)
      rw [hbyte,hread] at hch
      have hskip : ∀ i, f.nReadPos ≤ i → i < f.nReadPos + 1 → f.content[i]? ≠ some ch := by
        intro i hlo hhi
        rwa [show i = f.nReadPos by omega]
      have hsrc := hg.src_le
      rw [hsame.content] at hsrc
      refine (ih hadv ?_).mono ?_ ?_
      · simp only [hsame.content]
        omega
      · rintro - e ⟨hrest,he,hback,hin,hfound,hbefore⟩
        simp only [hread,hsame.content] at hback hfound hbefore
        refine ⟨hsame.trans ((same_advance g _).trans hrest),he,by omega,hin,hfound,
          fun i hlo hhi => ?_⟩
        rcases Nat.lt_or_ge i (f.nReadPos + 1) with hfirst | hlater
        · exact hskip i hlo hfirst
        · exact hbefore i hlater hhi
      · rintro e ⟨hrest,he,hback,hnone⟩
        simp only [hread,hsame.content] at hback hnone
        refine ⟨hsame.trans ((same_advance g _).trans hrest),he,by omega,fun i hlo => ?_⟩
        rcases Nat.lt_or_ge i (f.nReadPos + 1) with hfirst | hlater
        · exact hskip i hlo hfirst
        · exact hnone i hlater

/-- The first byte `ch` of the file from the reading position on is found, if there is one. -/
theorem Inv.findByte (h : f.Inv) (ch : UInt8) : (f.findByte ch).Ends
    (fun _ g => f.Same g ∧ g.Inv ∧ f.nReadPos ≤ g.nReadPos ∧ g.nReadPos < g.nSrcPos ∧
      f.content[g.nReadPos]? = some ch ∧
      ∀ i, f.nReadPos ≤ i → i < g.nReadPos → f.content[i]? ≠ some ch)
    (fun g => f.Same g ∧ g.Inv ∧ f.nReadPos ≤ g.nReadPos ∧
      ∀ i, f.nReadPos ≤ i → f.content[i]? ≠ some ch) :=
  h.findByteLoop (Nat.lt_succ_self _)

/-- Without wrap-around the position lands where it was asked for, or at an end of the window. -/
theorem Inv.setPos_eq (h : f.Inv) {nPos : ℕ} (hwrap : nPos + f.nRewind < 2^64) :
    f.setPos nPos = (decide (f.nSrcPos ≤ nPos + f.nRewind ∧ nPos ≤ f.nSrcPos),
      {f with nReadPos := min (max nPos (f.nSrcPos - f.nRewind)) f.nSrcPos}) := by
  have hfile := h.file
  have hsrc := h.src_le
  rw [setPos,Nat.mod_eq_of_lt hwrap]
  split
  · rw [show (f.nSrcPos + 2^64 - f.nRewind) % 2^64 = f.nSrcPos - f.nRewind by omega,
      Nat.max_eq_right (by omega),Nat.min_eq_left (by omega)]
    simp only [Prod.mk.injEq,and_true]
    exact (decide_eq_false (by omega)).symm
  split
  · rw [Nat.min_eq_right (by omega)]
    simp only [Prod.mk.injEq,and_true]
    exact (decide_eq_false (by omega)).symm
  · rw [Nat.min_eq_left (by omega),Nat.max_eq_left (by omega)]
    simp only [Prod.mk.injEq,and_true]
    exact (decide_eq_true (by omega)).symm

theorem Inv.setPos (h : f.Inv) {nPos : ℕ} (hwrap : nPos + f.nRewind < 2^64) :
    (f.setPos nPos).2.Inv ∧ f.Same (f.setPos nPos).2 := by
  have hrewind := h.rewind
  rw [h.setPos_eq hwrap]
  exact ⟨h.advance (by omega) (by omega),same_advance f _⟩

/-- A position that is taken never made the sum wrap around. -/
theorem setPos_taken {nPos : ℕ} (htaken : (f.setPos nPos).1 = true) :
    f.nSrcPos ≤ nPos + f.nRewind ∧ nPos ≤ f.nSrcPos ∧
      (f.setPos nPos).2 = {f with nReadPos := nPos} := by
  rw [CBufferedFile.setPos] at htaken ⊢
  split at htaken
  · cases htaken
  next hback =>
    split at htaken
    · cases htaken
    next hahead =>
      rw [if_neg hback,if_neg hahead]
      exact ⟨by have := Nat.mod_le (nPos + f.nRewind) (2^64); omega,by omega,rfl⟩

theorem Inv.setLimit (h : f.Inv) (nPos : ℕ) : (f.setLimit nPos).2.Inv := by
  rw [CBufferedFile.setLimit]
  split
  · exact h
  · exact ⟨h.rewind,h.small,h.file,h.read_le,h.src_le,h.ahead,h.ring⟩

/-- A later state of the stream, in which no position has gone back. -/
structure Onward (f g : CBufferedFile) : Prop where
  inv : g.Inv
  content : g.content = f.content
  rewind : g.nRewind = f.nRewind
  src : f.nSrcPos ≤ g.nSrcPos
  read : f.nReadPos ≤ g.nReadPos

theorem Same.onward {g : CBufferedFile} (h : f.Same g) (hg : g.Inv)
    (hread : f.nReadPos ≤ g.nReadPos) : f.Onward g := ⟨hg,h.content,h.rewind,h.src,hread⟩

theorem Onward.trans {g e : CBufferedFile} (h : f.Onward g) (h' : g.Onward e) : f.Onward e :=
  ⟨h'.inv,h'.content.trans h.content,h'.rewind.trans h.rewind,h.src.trans h'.src,
    h.read.trans h'.read⟩

theorem Inv.onward_setLimit (h : f.Inv) (nPos : ℕ) : f.Onward (f.setLimit nPos).2 := by
  refine ⟨h.setLimit nPos,?_,?_,?_,?_⟩ <;>
  · rw [CBufferedFile.setLimit]
    split <;> rfl

theorem Inv.onward_setPos (h : f.Inv) : f.Onward (f.setPos f.nReadPos).2 := by
  have hsmall := h.small
  have hrewind := h.rewind
  have hfile := h.file
  have hsrc := h.src_le
  have hread := h.read_le
  have hwrap : f.nReadPos + f.nRewind < 2^64 := by omega
  refine (h.setPos hwrap).2.onward (h.setPos hwrap).1 ?_
  rw [h.setPos_eq hwrap]
  simp only
  omega

/-- Reads one after the other, their bytes put together. -/
def reads (f : CBufferedFile) : List ℕ → FileResult Bytes
  | [] => .ok [] f
  | nSize :: sizes => (f.read nSize).bind fun data g =>
    (g.reads sizes).bind fun rest e => .ok (data ++ rest) e

/-- Why reads cannot be served: the file or the limit ends, or one of them is too large. -/
def BarredReads (f : CBufferedFile) (sizes : List ℕ) : Prop :=
  f.content.length < f.nReadPos + sizes.sum ∨ f.nReadLimit < f.nReadPos + sizes.sum ∨
    ∃ nSize ∈ sizes, f.vchBuf.length < nSize + f.nRewind

theorem Inv.reads (h : f.Inv) (sizes : List ℕ) : (f.reads sizes).Ends
    (fun data _ => data = (f.content.drop f.nReadPos).take sizes.sum)
    (fun _ => f.BarredReads sizes) := by
  induction sizes generalizing f with
  | nil => rfl
  | cons nSize sizes ih =>
    simp only [CBufferedFile.reads,BarredReads,List.sum_cons,List.mem_cons,exists_eq_or_imp]
    refine ((h.read nSize).mono (fun _ _ => id) ?_).bind ?_
    · rintro g ⟨-,-,-,hbarred⟩
      unfold Barred at hbarred
      omega
    · rintro data g ⟨hsame,hg,hread,-,rfl⟩
      refine ((ih hg).mono (fun _ _ => id) fun e hbarred => ?_).bind fun rest e hrest => ?_
      · simp only [BarredReads,hread,hsame.content,hsame.limit,hsame.rewind,hsame.size,
          Nat.add_assoc] at hbarred
        exact hbarred.imp_right (Or.imp_right .inr)
      · rw [hrest,hread,hsame.content,← List.drop_drop]
        exact List.take_add.symm

/-- A call that goes well: positions that make the sum wrap around must not be refused. -/
inductive Step (f : CBufferedFile) : CBufferedFile → Prop
  | read {nSize : ℕ} {data : Bytes} {g : CBufferedFile} (h : f.read nSize = .ok data g) : Step f g
  | findByte {ch : UInt8} {g : CBufferedFile} (h : f.findByte ch = .ok () g) : Step f g
  | setPos {nPos : ℕ} (h : (f.setPos nPos).1 = true ∨ nPos + f.nRewind < 2^64) :
    Step f (f.setPos nPos).2
  | setLimit {nPos : ℕ} : Step f (f.setLimit nPos).2

theorem Step.inv {g : CBufferedFile} (step : f.Step g) (h : f.Inv) :
    g.Inv ∧ g.content = f.content ∧ g.nRewind = f.nRewind := by
  cases step with
  | @read nSize data _ hread =>
    have hends := h.read nSize
    rw [hread] at hends
    exact ⟨hends.2.1,hends.1.content,hends.1.rewind⟩
  | @findByte ch _ hfind =>
    have hends := h.findByte ch
    rw [hfind] at hends
    exact ⟨hends.2.1,hends.1.content,hends.1.rewind⟩
  | @setPos nPos hpos =>
    rcases hpos with htaken | hwrap
    · obtain ⟨hback,hle,heq⟩ := setPos_taken htaken
      have hrewind := h.rewind
      rw [heq]
      exact ⟨h.advance hle (by omega),rfl,rfl⟩
    · obtain ⟨hinv,hsame⟩ := h.setPos hwrap
      exact ⟨hinv,hsame.content,hsame.rewind⟩
  | @setLimit nPos =>
    have honward := h.onward_setLimit nPos
    exact ⟨honward.inv,honward.content,honward.rewind⟩

theorem inv_reached {g : CBufferedFile} (h : f.Inv) (run : Relation.ReflTransGen Step f g) :
    g.Inv ∧ g.content = f.content ∧ g.nRewind = f.nRewind := by
  induction run with
  | refl => exact ⟨h,rfl,rfl⟩
  | tail _ step ih =>
    obtain ⟨hinv,hcontent,hrewind⟩ := step.inv ih.1
    exact ⟨hinv,hcontent.trans ih.2.1,hrewind.trans ih.2.2⟩

/-- Going back to `p` works: the position is taken, and the file is read from there on. -/
def Rewinds (f : CBufferedFile) (p : ℕ) : Prop :=
  (f.setPos p).1 = true ∧ ∀ sizes, ((f.setPos p).2.reads sizes).Ends
    (fun data _ => data = (f.content.drop p).take sizes.sum)
    (fun _ => (f.setPos p).2.BarredReads sizes)

theorem Inv.rewinds_window (h : f.Inv) {p : ℕ} (hp : p ≤ f.getPos) :
    f.Rewinds p ↔ f.nSrcPos ≤ p + f.nRewind := by
  refine ⟨fun hrewinds => (setPos_taken hrewinds.1).1,fun hback => ?_⟩
  have hle : p ≤ f.nSrcPos := hp.trans h.read_le
  have hrewind := h.rewind
  have heq : f.setPos p = (true,{f with nReadPos := p}) := by
    have hsmall := h.small
    have hfile := h.file
    have hsrc := h.src_le
    rw [h.setPos_eq (by omega),decide_eq_true ⟨hback,hle⟩,Nat.max_eq_left (by omega),
      Nat.min_eq_left hle]
  rw [Rewinds,heq]
  exact ⟨rfl,(h.advance hle (by omega)).reads⟩

end CBufferedFile
end Sidechain
