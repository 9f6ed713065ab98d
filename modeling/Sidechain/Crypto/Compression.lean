import Sidechain.Primitives.Serialize
import Mathlib.Data.UInt

/-! The compression functions of SHA-256, SHA-512, SHA-1 and RIPEMD-160. The source unrolls the
rounds and renames the working variables from line to line; here a round returns them in the
order in which the next line takes them. -/
namespace Sidechain

theorem leBytes_add (j k n : ℕ) : leBytes (j + k) n = leBytes j n ++ leBytes k (n / 256^j) := by
  induction j generalizing n with
  | zero => simp [leBytes,Codec.digitsLE]
  | succ j ih =>
    have h := ih (n / 256)
    rw [Nat.div_div_eq_div_mul,← Nat.pow_succ'] at h
    rw [Nat.add_right_comm]
    exact congrArg (UInt8.ofNat (n % 256)::·) h

def readLE32 (chunk : Bytes) (i : ℕ) : UInt32 :=
  .ofNat (ofLeBytes ((chunk.drop i).take 4))
def readBE32 (chunk : Bytes) (i : ℕ) : UInt32 :=
  .ofNat (ofLeBytes ((chunk.drop i).take 4).reverse)
def readBE64 (chunk : Bytes) (i : ℕ) : UInt64 :=
  .ofNat (ofLeBytes ((chunk.drop i).take 8).reverse)

def writeLE32 (x : UInt32) : Bytes := leBytes 4 x.toNat
def writeBE32 (x : UInt32) : Bytes := (leBytes 4 x.toNat).reverse
def writeLE64 (x : UInt64) : Bytes := leBytes 8 x.toNat
def writeBE64 (x : UInt64) : Bytes := (leBytes 8 x.toNat).reverse

/-- The words of successive rounds, from a window of sixteen that `next` replaces one by one. -/
def schedule {w : Type} [Zero w] (next : List w → w) : ℕ → List w → List w
  | 0,_ => []
  | n + 1,window => window.headD 0::schedule next n (window.tail ++ [next window])

structure Words8 (w : Type) where
  (a b c d e f g h : w)
  deriving DecidableEq, Repr

/-- What tells the two word sizes apart. -/
structure Sha2 (w : Type) where
  (Sigma0 Sigma1 sigma0 sigma1 : w → w)
  constants : List w
  read : Bytes → List w

namespace Sha2

variable {w : Type} [Add w] [AndOp w] [OrOp w] [XorOp w] [Zero w]

def Ch (x y z : w) : w := z ^^^ (x &&& (y ^^^ z))
def Maj (x y z : w) : w := (x &&& y) ||| (z &&& (x ||| y))

def Round (F : Sha2 w) (s : Words8 w) (kw : w × w) : Words8 w :=
  let t1 := s.h + F.Sigma1 s.e + Ch s.e s.f s.g + kw.1 + kw.2
  let t2 := F.Sigma0 s.a + Maj s.a s.b s.c
  ⟨t1 + t2,s.a,s.b,s.c,s.d + t1,s.e,s.f,s.g⟩

/-- `w0 += sigma1(w14) + w9 + sigma0(w1)`, on the window that starts at `w0`. -/
def next (F : Sha2 w) (window : List w) : w :=
  window.getD 0 0 + (F.sigma1 (window.getD 14 0) + window.getD 9 0 + F.sigma0 (window.getD 1 0))

def Transform (F : Sha2 w) (s : Words8 w) (chunk : Bytes) : Words8 w :=
  let r := (F.constants.zip (schedule F.next F.constants.length (F.read chunk))).foldl F.Round s
  ⟨s.a + r.a,s.b + r.b,s.c + r.c,s.d + r.d,s.e + r.e,s.f + r.f,s.g + r.g,s.h + r.h⟩

end Sha2

namespace sha256

def functions : Sha2 UInt32 where
  Sigma0 x := (x >>> 2 ||| x <<< 30) ^^^ (x >>> 13 ||| x <<< 19) ^^^ (x >>> 22 ||| x <<< 10)
  Sigma1 x := (x >>> 6 ||| x <<< 26) ^^^ (x >>> 11 ||| x <<< 21) ^^^ (x >>> 25 ||| x <<< 7)
  sigma0 x := (x >>> 7 ||| x <<< 25) ^^^ (x >>> 18 ||| x <<< 14) ^^^ (x >>> 3)
  sigma1 x := (x >>> 17 ||| x <<< 15) ^^^ (x >>> 19 ||| x <<< 13) ^^^ (x >>> 10)
  constants := [
    0x428a2f98,0x71374491,0xb5c0fbcf,0xe9b5dba5,0x3956c25b,0x59f111f1,
   0x923f82a4,0xab1c5ed5,0xd807aa98,0x12835b01,0x243185be,0x550c7dc3,
   0x72be5d74,0x80deb1fe,0x9bdc06a7,0xc19bf174,0xe49b69c1,0xefbe4786,
   0x0fc19dc6,0x240ca1cc,0x2de92c6f,0x4a7484aa,0x5cb0a9dc,0x76f988da,
   0x983e5152,0xa831c66d,0xb00327c8,0xbf597fc7,0xc6e00bf3,0xd5a79147,
   0x06ca6351,0x14292967,0x27b70a85,0x2e1b2138,0x4d2c6dfc,0x53380d13,
   0x650a7354,0x766a0abb,0x81c2c92e,0x92722c85,0xa2bfe8a1,0xa81a664b,
   0xc24b8b70,0xc76c51a3,0xd192e819,0xd6990624,0xf40e3585,0x106aa070,
   0x19a4c116,0x1e376c08,0x2748774c,0x34b0bcb5,0x391c0cb3,0x4ed8aa4a,
   0x5b9cca4f,0x682e6ff3,0x748f82ee,0x78a5636f,0x84c87814,0x8cc70208,
   0x90befffa,0xa4506ceb,0xbef9a3f7,0xc67178f2]
  read chunk := (List.range 16).map fun i => readBE32 chunk (4*i)

def Initialize : Words8 UInt32 :=
  ⟨0x6a09e667,0xbb67ae85,0x3c6ef372,0xa54ff53a,0x510e527f,0x9b05688c,0x1f83d9ab,0x5be0cd19⟩

def Transform : Words8 UInt32 → Bytes → Words8 UInt32 := functions.Transform

end sha256

namespace sha512

def functions : Sha2 UInt64 where
  Sigma0 x := (x >>> 28 ||| x <<< 36) ^^^ (x >>> 34 ||| x <<< 30) ^^^ (x >>> 39 ||| x <<< 25)
  Sigma1 x := (x >>> 14 ||| x <<< 50) ^^^ (x >>> 18 ||| x <<< 46) ^^^ (x >>> 41 ||| x <<< 23)
  sigma0 x := (x >>> 1 ||| x <<< 63) ^^^ (x >>> 8 ||| x <<< 56) ^^^ (x >>> 7)
  sigma1 x := (x >>> 19 ||| x <<< 45) ^^^ (x >>> 61 ||| x <<< 3) ^^^ (x >>> 6)
  constants := [
   0x428a2f98d728ae22,0x7137449123ef65cd,0xb5c0fbcfec4d3b2f,0xe9b5dba58189dbbc,
   0x3956c25bf348b538,0x59f111f1b605d019,0x923f82a4af194f9b,0xab1c5ed5da6d8118,
   0xd807aa98a3030242,0x12835b0145706fbe,0x243185be4ee4b28c,0x550c7dc3d5ffb4e2,
   0x72be5d74f27b896f,0x80deb1fe3b1696b1,0x9bdc06a725c71235,0xc19bf174cf692694,
   0xe49b69c19ef14ad2,0xefbe4786384f25e3,0x0fc19dc68b8cd5b5,0x240ca1cc77ac9c65,
   0x2de92c6f592b0275,0x4a7484aa6ea6e483,0x5cb0a9dcbd41fbd4,0x76f988da831153b5,
   0x983e5152ee66dfab,0xa831c66d2db43210,0xb00327c898fb213f,0xbf597fc7beef0ee4,
   0xc6e00bf33da88fc2,0xd5a79147930aa725,0x06ca6351e003826f,0x142929670a0e6e70,
   0x27b70a8546d22ffc,0x2e1b21385c26c926,0x4d2c6dfc5ac42aed,0x53380d139d95b3df,
   0x650a73548baf63de,0x766a0abb3c77b2a8,0x81c2c92e47edaee6,0x92722c851482353b,
   0xa2bfe8a14cf10364,0xa81a664bbc423001,0xc24b8b70d0f89791,0xc76c51a30654be30,
   0xd192e819d6ef5218,0xd69906245565a910,0xf40e35855771202a,0x106aa07032bbd1b8,
   0x19a4c116b8d2d0c8,0x1e376c085141ab53,0x2748774cdf8eeb99,0x34b0bcb5e19b48a8,
   0x391c0cb3c5c95a63,0x4ed8aa4ae3418acb,0x5b9cca4f7763e373,0x682e6ff3d6b2b8a3,
   0x748f82ee5defb2fc,0x78a5636f43172f60,0x84c87814a1f0ab72,0x8cc702081a6439ec,
   0x90befffa23631e28,0xa4506cebde82bde9,0xbef9a3f7b2c67915,0xc67178f2e372532b,
   0xca273eceea26619c,0xd186b8c721c0c207,0xeada7dd6cde0eb1e,0xf57d4f7fee6ed178,
   0x06f067aa72176fba,0x0a637dc5a2c898a6,0x113f9804bef90dae,0x1b710b35131c471b,
   0x28db77f523047d84,0x32caab7b40c72493,0x3c9ebe0a15c9bebc,0x431d67c49c100d4c,
   0x4cc5d4becb3e42b6,0x597f299cfc657e2a,0x5fcb6fab3ad6faec,0x6c44198c4a475817]
  read chunk := (List.range 16).map fun i => readBE64 chunk (8*i)

def Initialize : Words8 UInt64 :=
  ⟨0x6a09e667f3bcc908,0xbb67ae8584caa73b,0x3c6ef372fe94f82b,0xa54ff53a5f1d36f1,
   0x510e527fade682d1,0x9b05688c2b3e6c1f,0x1f83d9abfb41bd6b,0x5be0cd19137e2179⟩

def Transform : Words8 UInt64 → Bytes → Words8 UInt64 := functions.Transform

end sha512

structure Words5 where
  (a b c d e : UInt32)
  deriving DecidableEq, Repr

namespace sha1

def Round (s : Words5) (f k w : UInt32) : Words5 :=
  ⟨s.e + ((s.a <<< 5 ||| s.a >>> 27) + f + k + w),s.a,s.b <<< 30 ||| s.b >>> 2,s.c,s.d⟩

def f1 (b c d : UInt32) : UInt32 := d ^^^ (b &&& (c ^^^ d))
def f2 (b c d : UInt32) : UInt32 := b ^^^ c ^^^ d
def f3 (b c d : UInt32) : UInt32 := (b &&& c) ||| (d &&& (b ||| c))

def left (x : UInt32) : UInt32 := x <<< 1 ||| x >>> 31

def Initialize : Words5 := ⟨0x67452301,0xEFCDAB89,0x98BADCFE,0x10325476,0xC3D2E1F0⟩

def k1 : UInt32 := 0x5A827999
def k2 : UInt32 := 0x6ED9EBA1
def k3 : UInt32 := 0x8F1BBCDC
def k4 : UInt32 := 0xCA62C1D6

/-- `w0 = left(w0 ^ w13 ^ w8 ^ w2)`, on the window that starts at `w0`. -/
def next (window : List UInt32) : UInt32 :=
  left (window.getD 0 0 ^^^ window.getD 13 0 ^^^ window.getD 8 0 ^^^ window.getD 2 0)

/-- The function and the constant of each group of twenty rounds. -/
def groups : List ((UInt32 → UInt32 → UInt32 → UInt32) × UInt32) :=
  [(f1,k1),(f2,k2),(f3,k3),(f2,k4)].flatMap (List.replicate 20)

def Transform (s : Words5) (chunk : Bytes) : Words5 :=
  let w := schedule next 80 ((List.range 16).map fun i => readBE32 chunk (4*i))
  let r := (groups.zip w).foldl (fun s x => Round s (x.1.1 s.b s.c s.d) x.1.2 x.2) s
  ⟨s.a + r.a,s.b + r.b,s.c + r.c,s.d + r.d,s.e + r.e⟩

end sha1

namespace ripemd160

def f1 (x y z : UInt32) : UInt32 := x ^^^ y ^^^ z
def f2 (x y z : UInt32) : UInt32 := (x &&& y) ||| (~~~x &&& z)
def f3 (x y z : UInt32) : UInt32 := (x ||| ~~~y) ^^^ z
def f4 (x y z : UInt32) : UInt32 := (x &&& z) ||| (y &&& ~~~z)
def f5 (x y z : UInt32) : UInt32 := x ^^^ (y ||| ~~~z)

def Initialize : Words5 := ⟨0x67452301,0xEFCDAB89,0x98BADCFE,0x10325476,0xC3D2E1F0⟩

def rol (x i : UInt32) : UInt32 := x <<< i ||| x >>> (32 - i)

def Round (s : Words5) (f x k r : UInt32) : Words5 :=
  ⟨s.e,rol (s.a + f + x + k) r + s.e,s.b,rol s.c 10,s.d⟩

/-- One line of rounds: a function and a constant, and for each round the number of its word
and the rotation. -/
structure Group where
  f : UInt32 → UInt32 → UInt32 → UInt32
  k : UInt32
  rounds : List (ℕ × UInt32)

/-- `R11` to `R51`. -/
def line1 : List Group :=
  [⟨f1,0,
    [(0,11),(1,14),(2,15),(3,12),(4,5),(5,8),(6,7),(7,9),
     (8,11),(9,13),(10,14),(11,15),(12,6),(13,7),(14,9),(15,8)]⟩,
   ⟨f2,0x5A827999,
    [(7,7),(4,6),(13,8),(1,13),(10,11),(6,9),(15,7),(3,15),
     (12,7),(0,12),(9,15),(5,9),(2,11),(14,7),(11,13),(8,12)]⟩,
   ⟨f3,0x6ED9EBA1,
    [(3,11),(10,13),(14,6),(4,7),(9,14),(15,9),(8,13),(1,15),
     (2,14),(7,8),(0,13),(6,6),(13,5),(11,12),(5,7),(12,5)]⟩,
   ⟨f4,0x8F1BBCDC,
    [(1,11),(9,12),(11,14),(10,15),(0,14),(8,15),(12,9),(4,8),
     (13,9),(3,14),(7,5),(15,6),(14,8),(5,6),(6,5),(2,12)]⟩,
   ⟨f5,0xA953FD4E,
    [(4,9),(0,15),(5,5),(9,11),(7,6),(12,8),(2,13),(10,12),
     (14,5),(1,12),(3,13),(8,14),(11,11),(6,8),(15,5),(13,6)]⟩]

/-- `R12` to `R52`. -/
def line2 : List Group :=
  [⟨f5,0x50A28BE6,
    [(5,8),(14,9),(7,9),(0,11),(9,13),(2,15),(11,15),(4,5),
     (13,7),(6,7),(15,8),(8,11),(1,14),(10,14),(3,12),(12,6)]⟩,
   ⟨f4,0x5C4DD124,
    [(6,9),(11,13),(3,15),(7,7),(0,12),(13,8),(5,9),(10,11),
     (14,7),(15,7),(8,12),(12,7),(4,6),(9,15),(1,13),(2,11)]⟩,
   ⟨f3,0x6D703EF3,
    [(15,9),(5,7),(1,15),(3,11),(7,8),(14,6),(6,6),(9,14),
     (11,12),(8,13),(12,5),(2,14),(10,13),(0,13),(4,7),(13,5)]⟩,
   ⟨f2,0x7A6D76E9,
    [(8,15),(6,5),(4,8),(1,11),(3,14),(11,14),(15,6),(0,14),
     (5,6),(12,9),(2,12),(13,9),(9,12),(7,5),(10,15),(14,8)]⟩,
   ⟨f1,0,
    [(12,8),(15,5),(10,12),(4,9),(1,12),(5,5),(8,14),(7,6),
     (6,8),(2,13),(13,6),(14,5),(0,15),(3,13),(9,11),(11,11)]⟩]

/-- The two lines of the source alternate, on variables of their own. -/
def run (line : List Group) (w : List UInt32) (s : Words5) : Words5 :=
  line.foldl (fun s g => g.rounds.foldl
    (fun s r => Round s (g.f s.b s.c s.d) (w.getD r.1 0) g.k r.2) s) s

def Transform (s : Words5) (chunk : Bytes) : Words5 :=
  let w := (List.range 16).map fun i => readLE32 chunk (4*i)
  let x := run line1 w s
  let y := run line2 w s
  ⟨s.b + x.c + y.d,s.c + x.d + y.e,s.d + x.e + y.a,s.e + x.a + y.b,s.a + x.b + y.c⟩

end ripemd160
end Sidechain
