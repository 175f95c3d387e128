import Mathlib
import Dframework.Library.BlockStream

/-!
# The MD5 message digest of RFC 1321

A message is padded to blocks of sixteen words, and every block is mixed into four words by
64 steps. The bytes of a word come with the low-order byte first.
-/

namespace Rfc1321

open BlockStream

structure Words where
  a : UInt32
  b : UInt32
  c : UInt32
  d : UInt32
  deriving DecidableEq, Repr

/-- The number that bytes make, the low-order byte first. -/
def littleEndian (bs : List UInt8) : Nat :=
  bs.foldr (fun b n => b.toNat + 256 * n) 0

/-- The `len` low-order bytes of a number. -/
def bytesOf (len n : Nat) : List UInt8 :=
  (List.range len).map fun i => UInt8.ofNat (n / 256 ^ i)

def word (block : List UInt8) (k : Nat) : UInt32 :=
  UInt32.ofNat (littleEndian ((block.drop (4 * k)).take 4))

/-- The auxiliary functions of the four rounds. -/
def aux : Nat → UInt32 → UInt32 → UInt32 → UInt32
  | 0, x, y, z => x &&& y ||| ~~~x &&& z
  | 1, x, y, z => x &&& z ||| y &&& ~~~z
  | 2, x, y, z => x ^^^ y ^^^ z
  | _, x, y, z => y ^^^ (x ||| ~~~z)

/-- The table `T`: `2 ^ 32 * abs (sin i)` for `i` from 1 to 64. -/
def T : List UInt32 := [
  0xd76aa478, 0xe8c7b756, 0x242070db, 0xc1bdceee, 0xf57c0faf, 0x4787c62a,
  0xa8304613, 0xfd469501, 0x698098d8, 0x8b44f7af, 0xffff5bb1, 0x895cd7be,
  0x6b901122, 0xfd987193, 0xa679438e, 0x49b40821, 0xf61e2562, 0xc040b340,
  0x265e5a51, 0xe9b6c7aa, 0xd62f105d, 0x02441453, 0xd8a1e681, 0xe7d3fbc8,
  0x21e1cde6, 0xc33707d6, 0xf4d50d87, 0x455a14ed, 0xa9e3e905, 0xfcefa3f8,
  0x676f02d9, 0x8d2a4c8a, 0xfffa3942, 0x8771f681, 0x6d9d6122, 0xfde5380c,
  0xa4beea44, 0x4bdecfa9, 0xf6bb4b60, 0xbebfbc70, 0x289b7ec6, 0xeaa127fa,
  0xd4ef3085, 0x04881d05, 0xd9d4d039, 0xe6db99e5, 0x1fa27cf8, 0xc4ac5665,
  0xf4292244, 0x432aff97, 0xab9423a7, 0xfc93a039, 0x655b59c3, 0x8f0ccc92,
  0xffeff47d, 0x85845dd1, 0x6fa87e4f, 0xfe2ce6e0, 0xa3014314, 0x4e0811a1,
  0xf7537e82, 0xbd3af235, 0x2ad7d2bb, 0xeb86d391]

/-- One step: the round it belongs to, the word it takes, its shift and its constant. -/
structure Op where
  round : Nat
  k : Nat
  s : Nat
  t : UInt32
  deriving DecidableEq, Repr

/-- The shifts of a round. -/
def shiftOf : Nat → Nat → Nat
  | 0, i => [7, 12, 17, 22].getD (i % 4) 0
  | 1, i => [5, 9, 14, 20].getD (i % 4) 0
  | 2, i => [4, 11, 16, 23].getD (i % 4) 0
  | _, i => [6, 10, 15, 21].getD (i % 4) 0

/-- The order in which a round takes the words. -/
def wordOf : Nat → Nat → Nat
  | 0, i => i % 16
  | 1, i => (5 * i + 1) % 16
  | 2, i => (3 * i + 5) % 16
  | _, i => 7 * i % 16

def ops : List Op :=
  (List.range 64).map fun i => ⟨i / 16, wordOf (i / 16) i, shiftOf (i / 16) i, T.getD i 0⟩

def rotl (x : UInt32) (s : Nat) : UInt32 :=
  ⟨x.toBitVec.rotateLeft s⟩

/-- `a = b + ((a + F(b, c, d) + X[k] + T[i]) <<< s)`. The next step finds the registers in
each other's places. -/
def step (x : Nat → UInt32) (v : Words) (op : Op) : Words :=
  ⟨v.d, v.b + rotl (v.a + aux op.round v.b v.c v.d + x op.k + op.t) op.s, v.b, v.c⟩

def processBlock (v : Words) (block : List UInt8) : Words :=
  let w := ops.foldl (step (word block)) v
  ⟨v.a + w.a, v.b + w.b, v.c + w.c, v.d + w.d⟩

def init : Words :=
  ⟨0x67452301, 0xefcdab89, 0x98badcfe, 0x10325476⟩

/-- A one, zeros, and the number of bits of the message in 64 bits. -/
def padding (len : Nat) : List UInt8 :=
  0x80 :: List.replicate ((119 - len % 64) % 64) 0 ++ bytesOf 8 (8 * len)

def digest (m : List UInt8) : List UInt8 :=
  let v := (absorb processBlock 64 init (m ++ padding m.length)).1
  bytesOf 4 v.a.toNat ++ bytesOf 4 v.b.toNat ++ bytesOf 4 v.c.toNat ++ bytesOf 4 v.d.toNat

end Rfc1321
