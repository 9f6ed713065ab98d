import Sidechain.Crypto.Compression
import Sidechain.Library.Blocks
import Mathlib.Tactic.SplitIfs

/-! The hash classes over their compression functions: a digest does not depend on how the
message was cut into writes, nor on what the buffer holds beyond its fill. -/
namespace Sidechain
open Blocks

/-- The members of a hash object. -/
structure Hasher (σ : Type) where
  s : σ
  buf : Bytes
  bytes : UInt64
  deriving DecidableEq, Repr

/-- What tells the hash classes apart: the compression function and the size of its chunks, the
constant of the padding formula, and the forms of the bit length and of the digest. -/
structure HashClass (σ : Type) where
  Initialize : σ
  Transform : σ → Bytes → σ
  chunk : ℕ
  padTo : ℕ
  sizedesc : UInt64 → Bytes
  output : σ → Bytes

def CSHA256 : HashClass (Words8 UInt32) where
  Initialize := sha256.Initialize
  Transform := sha256.Transform
  chunk := 64
  padTo := 119
  sizedesc := writeBE64
  output s := [s.a,s.b,s.c,s.d,s.e,s.f,s.g,s.h].flatMap writeBE32

def CSHA512 : HashClass (Words8 UInt64) where
  Initialize := sha512.Initialize
  Transform := sha512.Transform
  chunk := 128
  padTo := 239
  sizedesc n := List.replicate 8 0 ++ writeBE64 n
  output s := [s.a,s.b,s.c,s.d,s.e,s.f,s.g,s.h].flatMap writeBE64

def CSHA1 : HashClass Words5 where
  Initialize := sha1.Initialize
  Transform := sha1.Transform
  chunk := 64
  padTo := 119
  sizedesc := writeBE64
  output s := [s.a,s.b,s.c,s.d,s.e].flatMap writeBE32

def CRIPEMD160 : HashClass Words5 where
  Initialize := ripemd160.Initialize
  Transform := ripemd160.Transform
  chunk := 64
  padTo := 119
  sizedesc := writeLE64
  output s := [s.a,s.b,s.c,s.d,s.e].flatMap writeLE32

namespace HashClass

variable {σ : Type} (H : HashClass σ)

/-- Process full chunks directly from the source. -/
def processChunks (h : Hasher σ) (data : Bytes) : Hasher σ × Bytes :=
  if _h : 0 < H.chunk ∧ H.chunk ≤ data.length then
    processChunks ⟨H.Transform h.s (data.take H.chunk),h.buf,h.bytes + .ofNat H.chunk⟩
      (data.drop H.chunk)
  else (h,data)
termination_by data.length
decreasing_by
  rw [List.length_drop]
  omega

/-- Fill the buffer with what remains. -/
def keepRest (bufsize : ℕ) (h : Hasher σ) (data : Bytes) : Hasher σ :=
  if data ≠ [] then
    {h with buf := writeAt h.buf bufsize data, bytes := h.bytes + .ofNat data.length}
  else h

/-- Fill the buffer, and process it. -/
def fillBuffer (bufsize : ℕ) (h : Hasher σ) (data : Bytes) : Hasher σ :=
  let buf := writeAt h.buf bufsize data
  ⟨H.Transform h.s buf,buf,h.bytes + .ofNat (H.chunk - bufsize)⟩

/-- The part of `Write` behind its first branch. -/
def writeFrom (bufsize : ℕ) (h : Hasher σ) (data : Bytes) : Hasher σ :=
  let r := H.processChunks h data
  keepRest bufsize r.1 r.2

def Write (h : Hasher σ) (data : Bytes) : Hasher σ :=
  let bufsize := h.bytes.toNat % H.chunk
  if bufsize ≠ 0 ∧ H.chunk ≤ bufsize + data.length then
    H.writeFrom 0 (H.fillBuffer bufsize h (data.take (H.chunk - bufsize)))
      (data.drop (H.chunk - bufsize))
  else H.writeFrom bufsize h data

def pad : Bytes := 0x80::List.replicate (H.chunk - 1) 0

def Finalize (h : Hasher σ) : Bytes :=
  let sizedesc := H.sizedesc (h.bytes <<< 3)
  let h' := H.Write h (H.pad.take (1 + (H.padTo - h.bytes.toNat % H.chunk) % H.chunk))
  H.output (H.Write h' sizedesc).s

/-- The state, the bytes that fill no chunk yet, and the counter. -/
@[ext] structure HashStream (σ : Type) where
  s : σ
  pending : Bytes
  bytes : UInt64

def stream (h : Hasher σ) : HashStream σ := ⟨h.s,h.buf.take (h.bytes.toNat % H.chunk),h.bytes⟩

def HashStream.write (p : HashStream σ) (data : Bytes) : HashStream σ where
  s := absorb H.chunk H.Transform p.s (p.pending ++ data)
  pending := rest H.chunk (p.pending ++ data)
  bytes := p.bytes + .ofNat data.length

def HashStream.finalize (p : HashStream σ) : Bytes :=
  let padding := H.pad.take (1 + (H.padTo - p.bytes.toNat % H.chunk) % H.chunk)
  H.output ((p.write H padding).write H (H.sizedesc (p.bytes <<< 3))).s

/-- Chunks tile the range of the counter. -/
structure Tiles : Prop where
  pos : 0 < H.chunk
  dvd : H.chunk ∣ 2^64

section
variable {H}

theorem keepRest_eq (bufsize : ℕ) (h : Hasher σ) (data : Bytes) :
    keepRest bufsize h data =
      ⟨h.s,writeAt h.buf bufsize data,h.bytes + .ofNat data.length⟩ := by
  unfold keepRest
  split_ifs with hdata
  · rfl
  · rw [not_not.mp hdata]
    simp [writeAt]

theorem processChunks_eq (hH : H.Tiles) (h : Hasher σ) (data : Bytes) :
    H.processChunks h data =
      (⟨absorb H.chunk H.Transform h.s data,h.buf,
        h.bytes + .ofNat (data.length / H.chunk*H.chunk)⟩,rest H.chunk data) := by
  induction hn : data.length using Nat.strong_induction_on generalizing h data with
  | _ n ih =>
    subst hn
    rw [processChunks]
    split_ifs with hfull
    · have hlen : (data.take H.chunk).length = H.chunk := by simp [hfull.2]
      have hdrop : (data.drop H.chunk).length = data.length - H.chunk := List.length_drop
      have hs := absorb_append (data.take H.chunk) (data.drop H.chunk) hH.pos H.Transform h.s
      have hr := rest_append (data.take H.chunk) (data.drop H.chunk) hH.pos
      rw [rest_of_length hH.pos hlen,List.nil_append,List.take_append_drop] at hs hr
      rw [absorb_block hH.pos hlen] at hs
      have hdiv : data.length / H.chunk = (data.length - H.chunk) / H.chunk + 1 :=
        Nat.div_eq_sub_div hH.pos hfull.2
      rw [ih _ (by omega) _ _ hdrop,hs,hr,hdiv,Nat.add_mul,Nat.one_mul,UInt64.ofNat_add,
        UInt64.add_assoc,UInt64.add_comm (.ofNat H.chunk)]
    · have hlt : data.length < H.chunk := by
        have := hH.pos
        omega
      rw [absorb_of_lt hlt,rest_of_lt hlt,Nat.div_eq_of_lt hlt]
      simp

/-- The counter stays right modulo the size of a chunk, also where it wraps around. -/
theorem count_mod (hH : H.Tiles) (n : UInt64) (k : ℕ) :
    (n + .ofNat k).toNat % H.chunk = (n.toNat % H.chunk + k) % H.chunk := by
  rw [UInt64.toNat_add,UInt64.toNat_ofNat',Nat.mod_mod_of_dvd _ hH.dvd,Nat.add_mod,
    Nat.mod_mod_of_dvd _ hH.dvd,← Nat.add_mod,Nat.mod_add_mod]

theorem length_pending (h : Hasher σ) (hH : H.Tiles) (hbuf : h.buf.length = H.chunk) :
    (H.stream h).pending.length = h.bytes.toNat % H.chunk := by
  have := Nat.mod_lt h.bytes.toNat hH.pos
  simp only [stream,List.length_take]
  omega

theorem writeFrom_eq (hH : H.Tiles) (bufsize : ℕ) (h : Hasher σ) (data : Bytes) :
    H.writeFrom bufsize h data =
      ⟨absorb H.chunk H.Transform h.s data,writeAt h.buf bufsize (rest H.chunk data),
        h.bytes + .ofNat data.length⟩ := by
  rw [writeFrom,processChunks_eq hH,keepRest_eq]
  simp only [Hasher.mk.injEq,true_and,length_rest]
  rw [UInt64.add_assoc,← UInt64.ofNat_add,Nat.mul_comm,Nat.div_add_mod]

theorem write_write (hH : H.Tiles) (p : HashStream σ) (xs ys : Bytes) :
    (p.write H xs).write H ys = p.write H (xs ++ ys) := by
  refine HashStream.ext ?_ ?_ ?_
  · simp only [HashStream.write]
    rw [← absorb_append _ _ hH.pos,List.append_assoc]
  · simp only [HashStream.write]
    rw [← rest_append _ _ hH.pos,List.append_assoc]
  · simp only [HashStream.write,UInt64.add_assoc,← UInt64.ofNat_add,List.length_append]

theorem stream_writeFrom (hH : H.Tiles) {h : Hasher σ} (hbuf : h.buf.length = H.chunk)
    {data : Bytes}
    (hfit : h.bytes.toNat % H.chunk = 0 ∨ h.bytes.toNat % H.chunk + data.length < H.chunk) :
    H.stream (H.writeFrom (h.bytes.toNat % H.chunk) h data) = (H.stream h).write H data ∧
      (H.writeFrom (h.bytes.toNat % H.chunk) h data).buf.length = H.chunk := by
  have hlt := Nat.mod_lt h.bytes.toNat hH.pos
  have hpend := length_pending h hH hbuf
  have hboth : absorb H.chunk H.Transform h.s ((H.stream h).pending ++ data) =
        absorb H.chunk H.Transform h.s data ∧
      rest H.chunk ((H.stream h).pending ++ data) =
        (H.stream h).pending ++ rest H.chunk data := by
    obtain h0 | hsum := hfit
    · rw [List.length_eq_zero_iff.mp (hpend.trans h0)]
      exact ⟨rfl,rfl⟩
    · have hall : ((H.stream h).pending ++ data).length < H.chunk := by
        rw [List.length_append,hpend]
        exact hsum
      have hdata : data.length < H.chunk := by omega
      rw [absorb_of_lt hall,absorb_of_lt hdata,rest_of_lt hall,rest_of_lt hdata]
      exact ⟨rfl,rfl⟩
  have hlen := congrArg List.length hboth.2
  rw [List.length_append,length_rest,List.length_append,hpend] at hlen
  have hin : h.bytes.toNat % H.chunk + (rest H.chunk data).length ≤ h.buf.length := by
    rw [hbuf,← hlen]
    exact (Nat.mod_lt _ hH.pos).le
  rw [writeFrom_eq hH]
  refine ⟨HashStream.ext hboth.1.symm ?_ rfl,(length_writeAt hin).trans hbuf⟩
  simp only [stream,HashStream.write]
  rw [count_mod hH,hlen,take_writeAt (by omega)]
  exact hboth.2.symm

theorem stream_fill (hH : H.Tiles) {h : Hasher σ} (hbuf : h.buf.length = H.chunk)
    {data : Bytes} (hlen : h.bytes.toNat % H.chunk + data.length = H.chunk) :
    let h' := H.fillBuffer (h.bytes.toNat % H.chunk) h data
    H.stream h' = (H.stream h).write H data ∧ h'.bytes.toNat % H.chunk = 0 ∧
      h'.buf.length = H.chunk := by
  have hpend := length_pending h hH hbuf
  have hbuf' : writeAt h.buf (h.bytes.toNat % H.chunk) data = (H.stream h).pending ++ data := by
    rw [writeAt,hlen,List.drop_eq_nil_of_le hbuf.le,List.append_nil]
    rfl
  have hfull : ((H.stream h).pending ++ data).length = H.chunk := by
    rw [List.length_append,hpend]
    exact hlen
  have hmod : (h.bytes + .ofNat data.length).toNat % H.chunk = 0 := by
    rw [count_mod hH,hlen,Nat.mod_self]
  have hn : H.chunk - h.bytes.toNat % H.chunk = data.length := by omega
  simp only [fillBuffer,hn]
  refine ⟨HashStream.ext ?_ ?_ rfl,hmod,(congrArg List.length hbuf').trans hfull⟩
  · simp only [stream,HashStream.write] at hfull hbuf' ⊢
    rw [absorb_block hH.pos hfull,hbuf']
  · simp only [stream,HashStream.write,hmod,List.take_zero] at hfull ⊢
    rw [rest_of_length hH.pos hfull]

theorem stream_write (hH : H.Tiles) {h : Hasher σ} (hbuf : h.buf.length = H.chunk)
    (data : Bytes) :
    H.stream (H.Write h data) = (H.stream h).write H data ∧
      (H.Write h data).buf.length = H.chunk := by
  have hlt := Nat.mod_lt h.bytes.toNat hH.pos
  simp only [Write]
  split_ifs with hfull
  · have htake : h.bytes.toNat % H.chunk +
        (data.take (H.chunk - h.bytes.toNat % H.chunk)).length = H.chunk := by
      rw [List.length_take]
      omega
    obtain ⟨hs,h0,hlen⟩ := stream_fill hH hbuf htake
    have hw := @stream_writeFrom _ H hH _ hlen (data.drop (H.chunk - h.bytes.toNat % H.chunk))
      (.inl h0)
    rw [h0,hs,write_write hH,List.take_append_drop] at hw
    exact hw
  · exact stream_writeFrom hH hbuf (by omega)

theorem stream_foldl_write (hH : H.Tiles) {h : Hasher σ} (hbuf : h.buf.length = H.chunk)
    (parts : List Bytes) :
    H.stream (parts.foldl H.Write h) = (H.stream h).write H parts.flatten ∧
      (parts.foldl H.Write h).buf.length = H.chunk := by
  induction parts generalizing h with
  | nil =>
    have hlt : (H.stream h).pending.length < H.chunk :=
      (length_pending h hH hbuf).trans_lt (Nat.mod_lt _ hH.pos)
    refine ⟨HashStream.ext ?_ ?_ ?_,hbuf⟩
    · simp [HashStream.write,absorb_of_lt hlt]
    · simp [HashStream.write,rest_of_lt hlt]
    · simp [HashStream.write]
  | cons part parts ih =>
    obtain ⟨hs,hlen⟩ := stream_write hH hbuf part
    obtain ⟨hss,hlens⟩ := ih hlen
    rw [hs,write_write hH] at hss
    exact ⟨hss,hlens⟩

theorem finalize_stream (hH : H.Tiles) {h : Hasher σ} (hbuf : h.buf.length = H.chunk) :
    H.Finalize h = (H.stream h).finalize H := by
  obtain ⟨hs,hlen⟩ := stream_write hH hbuf
    (H.pad.take (1 + (H.padTo - h.bytes.toNat % H.chunk) % H.chunk))
  obtain ⟨hs',-⟩ := stream_write hH hlen (H.sizedesc (h.bytes <<< 3))
  rw [hs] at hs'
  exact congrArg (fun p => H.output p.s) hs'

/-- The message, a one bit, the fewest zeros that fill the last chunk, and the bit length. -/
def paddedMessage (chunk : ℕ) (lengthField : ℕ → Bytes) (msg : Bytes) : Bytes :=
  let field := lengthField (8*msg.length)
  let zeros := (chunk - (msg.length + 1 + field.length) % chunk) % chunk
  msg ++ 0x80::List.replicate zeros 0 ++ field

end

def oneShot (lengthField : ℕ → Bytes) (msg : Bytes) : Bytes :=
  H.output (absorb H.chunk H.Transform H.Initialize (paddedMessage H.chunk lengthField msg))

example : (CSHA256.oneShot (fun n => (leBytes 8 n).reverse) [0x61,0x62,0x63]).take 4 =
    [0xba,0x78,0x16,0xbf] := by decide +kernel

/-- The padding formula of the code reaches the length field of the definition. -/
structure Pads (lengthField : ℕ → Bytes) (size : ℕ) : Prop extends H.Tiles where
  length : ∀ n, (lengthField n).length = size
  padTo : H.padTo + 1 + size = 2*H.chunk
  fits : size < H.chunk
  sizedesc : ∀ n, n < 2^64 → H.sizedesc (.ofNat n) = lengthField n

section
variable {H}

theorem zeros_eq {chunk size padTo : ℕ} (hpad : padTo + 1 + size = 2*chunk) (hfits : size < chunk)
    (n : ℕ) : (padTo - n % chunk) % chunk = (chunk - (n + 1 + size) % chunk) % chunk := by
  have hlt := Nat.mod_lt n (Nat.zero_lt_of_lt hfits)
  have hmod : (n + 1 + size) % chunk = (n % chunk + 1 + size) % chunk := by
    rw [Nat.add_assoc,Nat.add_assoc,Nat.mod_add_mod]
  rw [hmod]
  obtain hsmall | hlarge := Nat.lt_or_ge (n % chunk + 1 + size) chunk
  · rw [Nat.mod_eq_of_lt hsmall,show padTo - n % chunk = chunk - (n % chunk + 1 + size) + chunk by
      omega,Nat.add_mod_right]
  · rw [Nat.mod_eq_sub_mod hlarge,Nat.mod_eq_of_lt (by omega : n % chunk + 1 + size - chunk < chunk)]
    congr 1
    omega

theorem Pads.padding_eq {lengthField : ℕ → Bytes} {size : ℕ} (hH : H.Pads lengthField size)
    (n : ℕ) : H.pad.take (1 + (H.padTo - n % H.chunk) % H.chunk) =
      0x80::List.replicate ((H.chunk - (n + 1 + size) % H.chunk) % H.chunk) 0 := by
  have hlt := Nat.mod_lt (H.chunk - (n + 1 + size) % H.chunk) hH.pos
  rw [zeros_eq hH.padTo hH.fits,pad,Nat.add_comm,List.take_succ_cons,List.take_replicate,
    Nat.min_eq_left (by omega)]

theorem Pads.sizedesc_eq {lengthField : ℕ → Bytes} {size : ℕ} (hH : H.Pads lengthField size)
    {n : ℕ} (hn : n < 2^61) : H.sizedesc (UInt64.ofNat n <<< 3) = lengthField (8*n) := by
  rw [← hH.sizedesc (8*n) (by omega)]
  refine congrArg _ (UInt64.toNat_inj.mp ?_)
  rw [UInt64.toNat_shiftLeft,UInt64.toNat_ofNat_of_lt' (by rw [UInt64.size]; omega),
    UInt64.toNat_ofNat_of_lt' (by rw [UInt64.size]; omega),show (3 : UInt64).toNat % 64 = 3 from rfl,
    Nat.shiftLeft_eq,Nat.mul_comm]
  exact Nat.mod_eq_of_lt (by omega)

theorem finalize_eq_oneShot {lengthField : ℕ → Bytes} {size : ℕ} (hH : H.Pads lengthField size)
    {msg : Bytes} (hmsg : msg.length < 2^61) :
    ((HashStream.mk H.Initialize [] 0).write H msg).finalize H = H.oneShot lengthField msg := by
  have hbytes : ((HashStream.mk H.Initialize [] 0).write H msg).bytes = .ofNat msg.length :=
    UInt64.zero_add _
  have hn : (UInt64.ofNat msg.length).toNat = msg.length :=
    UInt64.toNat_ofNat_of_lt' (by rw [UInt64.size]; omega)
  simp only [HashStream.finalize,hbytes,hn]
  rw [hH.padding_eq,hH.sizedesc_eq hmsg,write_write hH.toTiles,write_write hH.toTiles,oneShot,
    paddedMessage,hH.length,List.append_assoc]
  rfl

end

/-- For every message, however it is cut into writes, the digest is the one-shot one. -/
def Digests (lengthField : ℕ → Bytes) : Prop :=
  ∀ (buf : Bytes) (parts : List Bytes), buf.length = H.chunk → parts.flatten.length < 2^61 →
    H.Finalize (parts.foldl H.Write ⟨H.Initialize,buf,0⟩) = H.oneShot lengthField parts.flatten

/-- Objects that differ only in the buffer beyond its fill give the same digests. -/
def IgnoresStale : Prop :=
  ∀ h h' : Hasher σ, h.s = h'.s → h.bytes = h'.bytes → h.buf.length = H.chunk →
    h'.buf.length = H.chunk →
    h.buf.take (h.bytes.toNat % H.chunk) = h'.buf.take (h.bytes.toNat % H.chunk) →
    ∀ parts : List Bytes, H.Finalize (parts.foldl H.Write h) = H.Finalize (parts.foldl H.Write h')

section
variable {H}

theorem Pads.digests {lengthField : ℕ → Bytes} {size : ℕ} (hH : H.Pads lengthField size) :
    H.Digests lengthField := by
  intro buf parts hbuf hlen
  obtain ⟨hs,hbuf'⟩ := stream_foldl_write hH.toTiles (h := ⟨H.Initialize,buf,0⟩) hbuf parts
  have h0 : H.stream ⟨H.Initialize,buf,0⟩ = ⟨H.Initialize,[],0⟩ := by simp [stream]
  rw [finalize_stream hH.toTiles hbuf',hs,h0,finalize_eq_oneShot hH hlen]

theorem Tiles.ignoresStale (hH : H.Tiles) : H.IgnoresStale := by
  intro h h' hs hbytes hbuf hbuf' hfill parts
  obtain ⟨hp,hlen⟩ := stream_foldl_write hH hbuf parts
  obtain ⟨hp',hlen'⟩ := stream_foldl_write hH hbuf' parts
  have hstream : H.stream h = H.stream h' := by
    refine HashStream.ext hs ?_ hbytes
    simp only [stream,← hbytes]
    exact hfill
  rw [finalize_stream hH hlen,finalize_stream hH hlen',hp,hp',hstream]

end

theorem writeBE64_ofNat {n : ℕ} (hn : n < 2^64) : writeBE64 (.ofNat n) = (leBytes 8 n).reverse := by
  rw [writeBE64,UInt64.toNat_ofNat_of_lt' hn]

theorem pads_sha256 : CSHA256.Pads (fun n => (leBytes 8 n).reverse) 8 where
  pos := by decide
  dvd := by decide
  length n := by simp
  padTo := rfl
  fits := by decide
  sizedesc _ hn := writeBE64_ofNat hn

theorem pads_sha1 : CSHA1.Pads (fun n => (leBytes 8 n).reverse) 8 where
  pos := by decide
  dvd := by decide
  length n := by simp
  padTo := rfl
  fits := by decide
  sizedesc _ hn := writeBE64_ofNat hn

theorem pads_sha512 : CSHA512.Pads (fun n => (leBytes 16 n).reverse) 16 where
  pos := by decide
  dvd := by decide
  length n := by simp
  padTo := rfl
  fits := by decide
  sizedesc n hn := by
    rw [leBytes_add 8 8 n,Nat.div_eq_of_lt (by simpa using hn),List.reverse_append]
    exact congrArg (List.replicate 8 0 ++ ·) (writeBE64_ofNat hn)

theorem pads_ripemd160 : CRIPEMD160.Pads (leBytes 8) 8 where
  pos := by decide
  dvd := by decide
  length n := by simp
  padTo := rfl
  fits := by decide
  sizedesc n hn := congrArg (leBytes 8) (UInt64.toNat_ofNat_of_lt' hn)

/-- All four classes, with the length as 64 bits big endian, 128 for SHA-512, and 64 little
endian for RIPEMD-160. -/
theorem hashers_digest :
    (CSHA256.Digests (fun n => (leBytes 8 n).reverse) ∧ CSHA256.IgnoresStale) ∧
      (CSHA512.Digests (fun n => (leBytes 16 n).reverse) ∧ CSHA512.IgnoresStale) ∧
      (CSHA1.Digests (fun n => (leBytes 8 n).reverse) ∧ CSHA1.IgnoresStale) ∧
      CRIPEMD160.Digests (leBytes 8) ∧ CRIPEMD160.IgnoresStale :=
  ⟨⟨pads_sha256.digests,pads_sha256.toTiles.ignoresStale⟩,
    ⟨pads_sha512.digests,pads_sha512.toTiles.ignoresStale⟩,
    ⟨pads_sha1.digests,pads_sha1.toTiles.ignoresStale⟩,
    pads_ripemd160.digests,pads_ripemd160.toTiles.ignoresStale⟩

/-- The message "abc", written in three parts over a buffer that holds other bytes. -/
theorem hashers_digest_abc :
    CSHA256.Finalize ([[0x61],[],[0x62,0x63]].foldl CSHA256.Write
        ⟨CSHA256.Initialize,List.replicate 64 7,0⟩) =
      CSHA256.oneShot (fun n => (leBytes 8 n).reverse) [0x61,0x62,0x63] :=
  hashers_digest.1.1 (List.replicate 64 7) [[0x61],[],[0x62,0x63]] (by decide) (by decide)

end HashClass
end Sidechain
