import Mathlib.Data.Nat.Notation
import Mathlib.Algebra.Group.Nat.Defs

/-!
# SHA-256

The digest of a text, as hexadecimal digits. Words are numbers below `2 ^ 32`.
-/

namespace Csc512

namespace Sha256

/-- The first bits of the fractional parts of the cube roots of the first primes. -/
def roundConstants : List ℕ :=
  [0x428a2f98, 0x71374491, 0xb5c0fbcf, 0xe9b5dba5, 0x3956c25b, 0x59f111f1, 0x923f82a4, 0xab1c5ed5,
    0xd807aa98, 0x12835b01, 0x243185be, 0x550c7dc3, 0x72be5d74, 0x80deb1fe, 0x9bdc06a7, 0xc19bf174,
    0xe49b69c1, 0xefbe4786, 0x0fc19dc6, 0x240ca1cc, 0x2de92c6f, 0x4a7484aa, 0x5cb0a9dc, 0x76f988da,
    0x983e5152, 0xa831c66d, 0xb00327c8, 0xbf597fc7, 0xc6e00bf3, 0xd5a79147, 0x06ca6351, 0x14292967,
    0x27b70a85, 0x2e1b2138, 0x4d2c6dfc, 0x53380d13, 0x650a7354, 0x766a0abb, 0x81c2c92e, 0x92722c85,
    0xa2bfe8a1, 0xa81a664b, 0xc24b8b70, 0xc76c51a3, 0xd192e819, 0xd6990624, 0xf40e3585, 0x106aa070,
    0x19a4c116, 0x1e376c08, 0x2748774c, 0x34b0bcb5, 0x391c0cb3, 0x4ed8aa4a, 0x5b9cca4f, 0x682e6ff3,
    0x748f82ee, 0x78a5636f, 0x84c87814, 0x8cc70208, 0x90befffa, 0xa4506ceb, 0xbef9a3f7, 0xc67178f2]

/-- The eight words that are carried from block to block. -/
structure State where
  (a b c d e f g h : ℕ)

/-- The first bits of the fractional parts of the square roots of the first primes. -/
def initial : State :=
  ⟨0x6a09e667, 0xbb67ae85, 0x3c6ef372, 0xa54ff53a, 0x510e527f, 0x9b05688c, 0x1f83d9ab, 0x5be0cd19⟩

/-- Addition of words. -/
def add (x y : ℕ) : ℕ := (x + y) % 2 ^ 32

/-- Rotation to the right. -/
def rotateRight (n x : ℕ) : ℕ := (x >>> n) ||| ((x <<< (32 - n)) % 2 ^ 32)

/-- Expand the sixteen words of a block, the last ones first, by `n` words. -/
def expand : ℕ → List ℕ → List ℕ
  | 0, ws => ws
  | n + 1, ws =>
    let s0 (x : ℕ) := (rotateRight 7 x ^^^ rotateRight 18 x) ^^^ (x >>> 3)
    let s1 (x : ℕ) := (rotateRight 17 x ^^^ rotateRight 19 x) ^^^ (x >>> 10)
    let w (i : ℕ) := ws.getD i 0
    expand n (add (add (s1 (w 1)) (w 6)) (add (s0 (w 14)) (w 15)) :: ws)

/-- One round, with its constant and its word. -/
def round (s : State) (kw : ℕ × ℕ) : State :=
  let s1 := (rotateRight 6 s.e ^^^ rotateRight 11 s.e) ^^^ rotateRight 25 s.e
  let choice := (s.e &&& s.f) ^^^ ((0xffffffff ^^^ s.e) &&& s.g)
  let t1 := (s.h + s1 + choice + kw.1 + kw.2) % 2 ^ 32
  let s0 := (rotateRight 2 s.a ^^^ rotateRight 13 s.a) ^^^ rotateRight 22 s.a
  let majority := ((s.a &&& s.b) ^^^ (s.a &&& s.c)) ^^^ (s.b &&& s.c)
  ⟨add t1 (add s0 majority), s.a, s.b, s.c, add s.d t1, s.e, s.f, s.g⟩

/-- Take in one block of sixteen words. -/
def compress (s : State) (block : List ℕ) : State :=
  let t := (roundConstants.zip (expand 48 block.reverse).reverse).foldl round s
  ⟨add s.a t.a, add s.b t.b, add s.c t.c, add s.d t.d, add s.e t.e, add s.f t.f, add s.g t.g,
    add s.h t.h⟩

/-- `n` bytes of a number, the highest one first. -/
def bigEndian (n x : ℕ) : List ℕ := (List.range n).reverse.map fun i => (x >>> (8 * i)) % 256

/-- Fill up some bytes to whole blocks, with their number of bits at the end. -/
def pad (bytes : List ℕ) : List ℕ :=
  bytes ++ 0x80 :: List.replicate ((119 - bytes.length % 64) % 64) 0
    ++ bigEndian 8 (8 * bytes.length)

/-- The digits of a number to the base `b`, written in groups of `n` digits. -/
def groups (n : ℕ) (xs : List ℕ) : List (List ℕ) :=
  (List.range (xs.length / n)).map fun i => (xs.drop (n * i)).take n

/-- The eight words of the digest of some bytes. -/
def digest (bytes : List ℕ) : List ℕ :=
  let ws := (groups 4 (pad bytes)).map fun bs => bs.foldl (fun x b => 256 * x + b) 0
  let s := (groups 16 ws).foldl compress initial
  [s.a, s.b, s.c, s.d, s.e, s.f, s.g, s.h]

/-- The digest of a text in hexadecimal digits. -/
def hexDigest (s : List Char) : List Char :=
  let bytes := s.flatMap fun c => (String.utf8EncodeChar c).map UInt8.toNat
  (digest bytes).flatMap fun w =>
    (List.range 8).reverse.map fun i => Nat.digitChar ((w >>> (4 * i)) % 16)

end Sha256

end Csc512
