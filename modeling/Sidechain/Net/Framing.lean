import Sidechain.Primitives.Outcome
import Sidechain.Primitives.Serialize
import Mathlib.Data.List.Basic

/-! Messages as they come in from a peer: a header is collected in a buffer of its own, then the
payload it declares. Copying past the end of a buffer is undefined. What is received in pieces of
any sizes is compared with a stream that is cut into messages byte by byte, with no buffers. -/
namespace Sidechain
open Codec

def MAX_PROTOCOL_MESSAGE_LENGTH : ℕ := 2 * 1024 * 1024

structure CMessageHeader where
  pchMessageStart : Bytes
  pchCommand : Bytes := List.replicate 12 0
  nMessageSize : ℕ := 2^32 - 1
  nChecksum : ℕ := 0
  deriving DecidableEq, Repr

def CMessageHeader.unserialize : Reader CMessageHeader := do
  let pchMessageStart ← readBytes 4
  let pchCommand ← readBytes 12
  let nMessageSize ← ser_readdata 4
  let nChecksum ← ser_readdata 4
  pure { pchMessageStart, pchCommand, nMessageSize, nChecksum }

/-- The stream `hdrbuf` is what is left to read of it. -/
structure CNetMessage where
  in_data : Bool := false
  hdrbuf : Bytes := List.replicate 24 0
  hdr : CMessageHeader
  nHdrPos : ℕ := 0
  vRecv : Bytes := []
  nDataPos : ℕ := 0
  deriving DecidableEq, Repr

/-- `memcpy` into a buffer at a position. -/
def overwrite (buf : Bytes) (pos : ℕ) (src : Bytes) : Outcome Bytes :=
  if pos + src.length ≤ buf.length then
    .ok (buf.take pos ++ (src ++ buf.drop (pos + src.length)))
  else .error (.undefined "memcpy")

/-- `resize` fills up with zeros. -/
def resizeBytes (buf : Bytes) (n : ℕ) : Bytes := buf.take n ++ List.replicate (n - buf.length) 0

/-- Subtraction of an `unsigned int`. -/
def subUInt (a b : ℕ) : ℕ := (a + (2^32 - b)) % 2^32

namespace CNetMessage

def complete (msg : CNetMessage) : Bool := msg.in_data && msg.hdr.nMessageSize == msg.nDataPos

/-- The answer is the number of bytes handled, or `-1`. -/
def readHeader (msg : CNetMessage) (pch : Bytes) : Outcome (CNetMessage × ℤ) := do
  let nRemaining := subUInt 24 msg.nHdrPos
  let nCopy := min nRemaining pch.length
  let hdrbuf ← overwrite msg.hdrbuf msg.nHdrPos (pch.take nCopy)
  let nHdrPos := msg.nHdrPos + nCopy
  if nHdrPos < 24 then pure ({ msg with hdrbuf, nHdrPos },nCopy)
  else match CMessageHeader.unserialize.run hdrbuf with
  | .error _ => pure ({ msg with hdrbuf, nHdrPos },-1)
  | .ok (hdr,rest) =>
    if hdr.nMessageSize > MAX_SIZE then pure ({ msg with hdrbuf := rest, nHdrPos, hdr },-1)
    else pure ({ msg with hdrbuf := rest, nHdrPos, hdr, in_data := true },nCopy)

/-- The buffer grows up to 256 KiB ahead of the data, but not past the size in the header. -/
def readData (msg : CNetMessage) (pch : Bytes) : Outcome (CNetMessage × ℤ) := do
  let nRemaining := subUInt msg.hdr.nMessageSize msg.nDataPos
  let nCopy := min nRemaining pch.length
  let vRecv :=
    if msg.vRecv.length < (msg.nDataPos + nCopy) % 2^32 then
      resizeBytes msg.vRecv (min msg.hdr.nMessageSize ((msg.nDataPos + nCopy + 256 * 1024) % 2^32))
    else msg.vRecv
  let vRecv ← overwrite vRecv msg.nDataPos (pch.take nCopy)
  pure ({ msg with vRecv, nDataPos := msg.nDataPos + nCopy },nCopy)

end CNetMessage

/-- The message that is being received behind those before it, a new one if the last is complete. -/
def openMessage (start : Bytes) (vRecvMsg : List CNetMessage) : List CNetMessage × CNetMessage :=
  match vRecvMsg.getLast? with
  | none => ([],{ hdr := { pchMessageStart := start } })
  | some msg =>
    if msg.complete then (vRecvMsg,{ hdr := { pchMessageStart := start } })
    else (vRecvMsg.dropLast,msg)

/-- The loop of `ReceiveMsgBytes`, for as many rounds as there is fuel; `none` if it is not over
then. -/
def receiveLoop (start : Bytes) :
    ℕ → List CNetMessage → Bytes → Outcome (Option (Bool × List CNetMessage))
  | 0,vRecvMsg,pch => .ok (if pch = [] then some (true,vRecvMsg) else none)
  | fuel + 1,vRecvMsg,pch =>
    if pch = [] then .ok (some (true,vRecvMsg))
    else do
      let (front,msg) := openMessage start vRecvMsg
      let (msg,handled) ← if msg.in_data then msg.readData pch else msg.readHeader pch
      let vRecvMsg := front ++ [msg]
      if handled < 0 then pure (some (false,vRecvMsg))
      else if msg.in_data ∧ msg.hdr.nMessageSize > MAX_PROTOCOL_MESSAGE_LENGTH then
        pure (some (false,vRecvMsg))
      else receiveLoop start fuel vRecvMsg (pch.drop handled.toNat)

def receiveMsgBytes (start : Bytes) (vRecvMsg : List CNetMessage) (pch : Bytes) :
    Outcome (Option (Bool × List CNetMessage)) := receiveLoop start pch.length vRecvMsg pch

/-- Successive calls, up to the first that returns false. -/
def receiveAll (start : Bytes) :
    List CNetMessage → List Bytes → Outcome (Option (Bool × List CNetMessage))
  | vRecvMsg,[] => .ok (some (true,vRecvMsg))
  | vRecvMsg,pch::rest => do
    match ← receiveMsgBytes start vRecvMsg pch with
    | some (true,vRecvMsg) => receiveAll start vRecvMsg rest
    | stopped => pure stopped

/-- What a message holds: its flags and positions, and the bytes that have been received. -/
def CNetMessage.received (msg : CNetMessage) : Bool × ℕ × Bytes × CMessageHeader × ℕ × Bytes :=
  (msg.in_data,msg.nHdrPos,msg.hdrbuf.take msg.nHdrPos,msg.hdr,msg.nDataPos,
    msg.vRecv.take msg.nDataPos)

/-- How many bytes have been copied into messages. -/
def bytesTaken (vRecvMsg : List CNetMessage) : ℕ :=
  (vRecvMsg.map fun msg => msg.nHdrPos + msg.nDataPos).sum

/-- The message that is being received. -/
inductive Current where
  | header (bytes : Bytes)
  | data (hdr : CMessageHeader) (bytes : Bytes)
  | refused (hdr : CMessageHeader)
  deriving DecidableEq

def Current.taken : Current → ℕ
  | .header bytes => bytes.length
  | .data _ bytes => 24 + bytes.length
  | .refused _ => 24

structure Framing where
  done : List (CMessageHeader × Bytes) := []
  current : Current := .header []

/-- The header that 24 bytes make up. -/
def headerOf (start bytes : Bytes) : CMessageHeader :=
  match CMessageHeader.unserialize.run bytes with
  | .ok (hdr,_) => hdr
  | .error _ => { pchMessageStart := start }

namespace Framing

/-- After a header: a message may be too large, or complete without any payload. -/
def opened (done : List (CMessageHeader × Bytes)) (hdr : CMessageHeader) : Framing :=
  if hdr.nMessageSize > MAX_PROTOCOL_MESSAGE_LENGTH then ⟨done,.refused hdr⟩
  else if hdr.nMessageSize = 0 then ⟨done ++ [(hdr,[])],.header []⟩
  else ⟨done,.data hdr []⟩

/-- One byte. After a header that is refused nothing is taken. -/
def feed (start : Bytes) (f : Framing) (b : UInt8) : Framing :=
  match f.current with
  | .refused _ => f
  | .header bytes =>
    if bytes.length + 1 < 24 then ⟨f.done,.header (bytes ++ [b])⟩
    else opened f.done (headerOf start (bytes ++ [b]))
  | .data hdr bytes =>
    if bytes.length + 1 = hdr.nMessageSize then ⟨f.done ++ [(hdr,bytes ++ [b])],.header []⟩
    else ⟨f.done,.data hdr (bytes ++ [b])⟩

variable {start : Bytes} {done : List (CMessageHeader × Bytes)}

theorem foldl_refused (hdr : CMessageHeader) (xs : Bytes) :
    xs.foldl (feed start) ⟨done,.refused hdr⟩ = ⟨done,.refused hdr⟩ := by
  induction xs with
  | nil => rfl
  | cons x xs ih => exact ih

theorem foldl_header {bytes xs : Bytes} (h : bytes.length + xs.length < 24) :
    xs.foldl (feed start) ⟨done,.header bytes⟩ = ⟨done,.header (bytes ++ xs)⟩ := by
  induction xs generalizing bytes with
  | nil => rw [List.append_nil]; rfl
  | cons x xs ih =>
    rw [List.length_cons] at h
    have hstep : feed start ⟨done,.header bytes⟩ x = ⟨done,.header (bytes ++ [x])⟩ :=
      if_pos (by omega)
    rw [List.foldl_cons,hstep,ih (by simp; omega),List.append_assoc,List.singleton_append]

theorem foldl_header_full {bytes xs : Bytes} (h : bytes.length + xs.length = 24) (hxs : xs ≠ []) :
    xs.foldl (feed start) ⟨done,.header bytes⟩ = opened done (headerOf start (bytes ++ xs)) := by
  obtain ⟨front,x,rfl⟩ := (List.eq_nil_or_concat' xs).resolve_left hxs
  rw [List.length_append,List.length_singleton] at h
  rw [List.foldl_append,foldl_header (by omega),← List.append_assoc]
  exact if_neg (by rw [List.length_append]; omega)

theorem foldl_data {hdr : CMessageHeader} {bytes xs : Bytes}
    (h : bytes.length + xs.length < hdr.nMessageSize) :
    xs.foldl (feed start) ⟨done,.data hdr bytes⟩ = ⟨done,.data hdr (bytes ++ xs)⟩ := by
  induction xs generalizing bytes with
  | nil => rw [List.append_nil]; rfl
  | cons x xs ih =>
    rw [List.length_cons] at h
    have hstep : feed start ⟨done,.data hdr bytes⟩ x = ⟨done,.data hdr (bytes ++ [x])⟩ :=
      if_neg (by omega)
    rw [List.foldl_cons,hstep,ih (by simp; omega),List.append_assoc,List.singleton_append]

theorem foldl_data_full {hdr : CMessageHeader} {bytes xs : Bytes}
    (h : bytes.length + xs.length = hdr.nMessageSize) (hxs : xs ≠ []) :
    xs.foldl (feed start) ⟨done,.data hdr bytes⟩ = ⟨done ++ [(hdr,bytes ++ xs)],.header []⟩ := by
  obtain ⟨front,x,rfl⟩ := (List.eq_nil_or_concat' xs).resolve_left hxs
  rw [List.length_append,List.length_singleton] at h
  rw [List.foldl_append,foldl_data (by omega),← List.append_assoc]
  exact if_pos (by rw [List.length_append]; omega)

def taken (f : Framing) : ℕ := (f.done.map fun m => 24 + m.2.length).sum + f.current.taken

def Refused (f : Framing) : Prop := ∃ hdr, f.current = .refused hdr

/-- A header that is being collected is not complete. -/
def Short (f : Framing) : Prop := ∀ bytes, f.current = .header bytes → bytes.length < 24

theorem taken_opened (hdr : CMessageHeader) :
    (opened done hdr).taken = (done.map fun m => 24 + m.2.length).sum + 24 := by
  unfold opened taken
  split_ifs <;> simp [Current.taken]

theorem taken_feed {f : Framing} (h : ¬ f.Refused) (hshort : f.Short) (b : UInt8) :
    (feed start f b).taken = f.taken + 1 := by
  obtain ⟨done,current⟩ := f
  cases current with
  | refused hdr => exact absurd ⟨hdr,rfl⟩ h
  | header bytes =>
    have hlt := hshort bytes rfl
    unfold feed
    dsimp only
    split_ifs with hend
    · simp [taken,Current.taken,Nat.add_assoc]
    · rw [taken_opened]
      simp only [taken,Current.taken]
      omega
  | data hdr bytes =>
    unfold feed
    dsimp only
    split_ifs with hend
    · simp [taken,Current.taken]
      omega
    · simp [taken,Current.taken]
      omega

theorem short_opened (hdr : CMessageHeader) : (opened done hdr).Short := by
  intro bytes hbytes
  unfold opened at hbytes
  split_ifs at hbytes
  obtain rfl := Current.header.inj hbytes
  exact Nat.zero_lt_succ _

theorem short_feed {f : Framing} (h : f.Short) (b : UInt8) : (feed start f b).Short := by
  obtain ⟨done,current⟩ := f
  cases current with
  | refused hdr => exact h
  | header bytes =>
    unfold feed
    dsimp only
    split_ifs with hend
    · intro bytes' hbytes
      cases hbytes
      simpa using hend
    · exact short_opened _
  | data hdr bytes =>
    unfold feed
    dsimp only
    split_ifs with hend
    · rintro _ ⟨⟩
      exact Nat.zero_lt_succ _
    · rintro _ ⟨⟩

theorem foldl_of_refused {f : Framing} (h : f.Refused) (xs : Bytes) :
    xs.foldl (feed start) f = f := by
  obtain ⟨done,current⟩ := f
  obtain ⟨hdr,rfl⟩ := h
  exact foldl_refused hdr xs

theorem taken_foldl {f : Framing} (hshort : f.Short) {xs : Bytes}
    (h : ¬ (xs.foldl (feed start) f).Refused) :
    (xs.foldl (feed start) f).taken = f.taken + xs.length := by
  induction xs generalizing f with
  | nil => rfl
  | cons x xs ih =>
    have hlive : ¬ f.Refused := fun hrefused => h (by rwa [foldl_of_refused hrefused])
    rw [List.foldl_cons] at h ⊢
    rw [ih (short_feed hshort x) h,taken_feed hlive hshort,List.length_cons]
    omega

end Framing

theorem readBytes_run {n : ℕ} {input : Bytes} (h : n ≤ input.length) :
    (readBytes n).run input = .ok (input.take n,input.drop n) := if_pos h

theorem ser_readdata_run {n : ℕ} {input : Bytes} (h : n ≤ input.length) :
    (ser_readdata n).run input = .ok (ofLeBytes (input.take n),input.drop n) := by
  rw [ser_readdata,run_bind_of_ok (readBytes_run h)]
  rfl

theorem headerOf_run (start : Bytes) {bytes : Bytes} (h : bytes.length = 24) :
    CMessageHeader.unserialize.run bytes = .ok (headerOf start bytes,[]) := by
  have hrun : ∃ hdr, CMessageHeader.unserialize.run bytes = .ok (hdr,[]) := by
    rw [CMessageHeader.unserialize,run_bind_of_ok (readBytes_run (by omega)),
      run_bind_of_ok (readBytes_run (by simp [h])),run_bind_of_ok (ser_readdata_run (by simp [h])),
      run_bind_of_ok (ser_readdata_run (by simp [h]))]
    refine ⟨_,congrArg (fun rest => Except.ok (_,rest)) ?_⟩
    simp [h]
  obtain ⟨hdr,hrun⟩ := hrun
  rw [headerOf,hrun]

end Sidechain
