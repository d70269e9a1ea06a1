/-!
The SHA-256 digest of a list of bytes: the message is padded to blocks of sixteen words, and each
block is mixed into eight words of state in 64 rounds.
-/

namespace TypedTree.Sha256

structure State where
  a : UInt32
  b : UInt32
  c : UInt32
  d : UInt32
  e : UInt32
  f : UInt32
  g : UInt32
  h : UInt32
deriving DecidableEq, Repr

/-- The fractions of the square roots of the first eight primes. -/
def start : State :=
  ⟨0x6a09e667, 0xbb67ae85, 0x3c6ef372, 0xa54ff53a, 0x510e527f, 0x9b05688c, 0x1f83d9ab, 0x5be0cd19⟩

/-- The fractions of the cube roots of the first 64 primes, one a round. -/
def constants : List UInt32 := [
  0x428a2f98, 0x71374491, 0xb5c0fbcf, 0xe9b5dba5, 0x3956c25b, 0x59f111f1, 0x923f82a4, 0xab1c5ed5,
  0xd807aa98, 0x12835b01, 0x243185be, 0x550c7dc3, 0x72be5d74, 0x80deb1fe, 0x9bdc06a7, 0xc19bf174,
  0xe49b69c1, 0xefbe4786, 0x0fc19dc6, 0x240ca1cc, 0x2de92c6f, 0x4a7484aa, 0x5cb0a9dc, 0x76f988da,
  0x983e5152, 0xa831c66d, 0xb00327c8, 0xbf597fc7, 0xc6e00bf3, 0xd5a79147, 0x06ca6351, 0x14292967,
  0x27b70a85, 0x2e1b2138, 0x4d2c6dfc, 0x53380d13, 0x650a7354, 0x766a0abb, 0x81c2c92e, 0x92722c85,
  0xa2bfe8a1, 0xa81a664b, 0xc24b8b70, 0xc76c51a3, 0xd192e819, 0xd6990624, 0xf40e3585, 0x106aa070,
  0x19a4c116, 0x1e376c08, 0x2748774c, 0x34b0bcb5, 0x391c0cb3, 0x4ed8aa4a, 0x5b9cca4f, 0x682e6ff3,
  0x748f82ee, 0x78a5636f, 0x84c87814, 0x8cc70208, 0x90befffa, 0xa4506ceb, 0xbef9a3f7, 0xc67178f2]

/-- The bits of `x` turned right by `n` places, `0 < n < 32`. -/
def rotateRight (x n : UInt32) : UInt32 := x >>> n ||| x <<< (32 - n)

/-! ### Blocks -/

/-- The byte of `n` that `k` bytes follow. -/
def byteAt (n k : Nat) : UInt8 := (n >>> (8 * k)).toUInt8

/-- A one bit, zeros, and the length in bits as eight bytes, so that whole blocks of 64 bytes come out. -/
def padding (length : Nat) : List UInt8 :=
  0x80 :: (List.replicate ((119 - length % 64) % 64) 0 ++
    [7, 6, 5, 4, 3, 2, 1, 0].map (byteAt (8 * length)))

/-- Big-endian words; fewer than four bytes at the end are left out. -/
def words : List UInt8 → List UInt32
  | a :: b :: c :: d :: rest =>
    (a.toUInt32 <<< 24 ||| b.toUInt32 <<< 16 ||| c.toUInt32 <<< 8 ||| d.toUInt32) :: words rest
  | _ => []

/-- Blocks of sixteen words, the last of them shorter if the words run out. -/
def blocks : List UInt32 → List (List UInt32)
  | [] => []
  | w :: ws => (w :: ws.take 15) :: blocks (ws.drop 15)
termination_by ws => ws.length
decreasing_by simp only [List.length_drop, List.length_cons]; omega

/-! ### Rounds -/

/-- The word sixteen places after the window's first. -/
def nextWord (window : List UInt32) : UInt32 :=
  let w0 := window.getD 0 0
  let w1 := window.getD 1 0
  let w9 := window.getD 9 0
  let w14 := window.getD 14 0
  let s0 := rotateRight w1 7 ^^^ rotateRight w1 18 ^^^ w1 >>> 3
  let s1 := rotateRight w14 17 ^^^ rotateRight w14 19 ^^^ w14 >>> 10
  w0 + s0 + w9 + s1

/-- One round with the word `w` and the constant `k`. -/
def round (s : State) (k w : UInt32) : State :=
  let s1 := rotateRight s.e 6 ^^^ rotateRight s.e 11 ^^^ rotateRight s.e 25
  let choice := (s.e &&& s.f) ^^^ (~~~s.e &&& s.g)
  let t1 := s.h + s1 + choice + k + w
  let s0 := rotateRight s.a 2 ^^^ rotateRight s.a 13 ^^^ rotateRight s.a 22
  let majority := (s.a &&& s.b) ^^^ (s.a &&& s.c) ^^^ (s.b &&& s.c)
  ⟨t1 + (s0 + majority), s.a, s.b, s.c, s.d + t1, s.e, s.f, s.g⟩

/-- One round for each constant; the window slides over the words of the message schedule. -/
def rounds (s : State) (window : List UInt32) : List UInt32 → State
  | [] => s
  | k :: ks => rounds (round s k (window.getD 0 0)) (window.drop 1 ++ [nextWord window]) ks

def absorb (s : State) (block : List UInt32) : State :=
  let t := rounds s block constants
  ⟨s.a + t.a, s.b + t.b, s.c + t.c, s.d + t.d, s.e + t.e, s.f + t.f, s.g + t.g, s.h + t.h⟩

def digest (message : List UInt8) : List UInt32 :=
  let s := (blocks (words (message ++ padding message.length))).foldl absorb start
  [s.a, s.b, s.c, s.d, s.e, s.f, s.g, s.h]

def hexWord (w : UInt32) : List Char :=
  [7, 6, 5, 4, 3, 2, 1, 0].map fun k => Nat.digitChar (w.toNat >>> (4 * k) % 16)

/-- The digest of a text in UTF-8, as 64 lower-case hexadecimal digits. -/
def hexDigest (text : String) : String :=
  String.ofList ((digest text.toUTF8.toList).flatMap hexWord)

end TypedTree.Sha256
