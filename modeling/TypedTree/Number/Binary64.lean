/-!
Double-precision numbers as their 64 bits: one sign bit, eleven exponent bits and 52 fraction bits. Two numbers
may compare equal without being the same bits (the zeros) and the same bits may differ from themselves (the
NaNs), so the comparison `numericEq` stands apart from equality.
-/

namespace TypedTree

/-- A double-precision number, by its bits. -/
structure Binary64 where
  bits : UInt64
deriving DecidableEq, Repr, Inhabited

namespace Binary64

/-- The weight of the bit above the fraction, which numbers that are not subnormal leave out: two to the power 52. -/
def hiddenBit : Nat := 0x10000000000000

def isNegative (x : Binary64) : Bool := decide (0x8000000000000000 ≤ x.bits.toNat)

def exponentBits (x : Binary64) : Nat := x.bits.toNat / hiddenBit % 2048

def fractionBits (x : Binary64) : Nat := x.bits.toNat % hiddenBit

/-- Neither an infinity nor a NaN. -/
def isFinite (x : Binary64) : Bool := x.exponentBits != 2047

/-- The largest exponent with a fraction: no number at all. -/
def isNaN (x : Binary64) : Bool := x.exponentBits == 2047 && x.fractionBits != 0

def isZero (x : Binary64) : Bool := x.exponentBits == 0 && x.fractionBits == 0

/-- The significand `m` of a finite number `± m · 2 ^ power`: subnormal numbers have no hidden bit. -/
def significand (x : Binary64) : Nat :=
  if x.exponentBits = 0 then x.fractionBits else hiddenBit + x.fractionBits

/-- The power of two that goes with the significand. -/
def power (x : Binary64) : Int :=
  if x.exponentBits = 0 then -1074 else x.exponentBits - 1075

/-- Numeric equality: a NaN equals nothing, and the zeros equal each other. -/
def numericEq (x y : Binary64) : Bool :=
  !x.isNaN && !y.isNaN && (x == y || x.isZero && y.isZero)

theorem numericEq_comm (x y : Binary64) : x.numericEq y = y.numericEq x := by
  simp only [numericEq, Bool.and_comm, BEq.comm]

theorem numericEq_self (x : Binary64) : x.numericEq x = !x.isNaN := by
  simp [numericEq]

end Binary64

end TypedTree
