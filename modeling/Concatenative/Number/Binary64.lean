/-! Floating-point numbers of the language are carried, compared and printed, and never computed
with, so a number is its binary64 bit pattern. The fields of the pattern, the classes of numbers
and the comparison of the format are read off the bits. -/

namespace Concatenative

/-- A floating-point number in the binary64 format. -/
structure Binary64 where
  bits : UInt64
  deriving DecidableEq

namespace Binary64

def negative (x : Binary64) : Bool := x.bits >>> 63 == 1

/-- The biased exponent, below `2048`. -/
def exponent (x : Binary64) : Nat := ((x.bits >>> 52) &&& 0x7ff).toNat

/-- The stored bits of the significand. -/
def fraction (x : Binary64) : Nat := (x.bits &&& 0xfffffffffffff).toNat

def isNaN (x : Binary64) : Bool := x.exponent == 2047 && x.fraction != 0

def isInfinite (x : Binary64) : Bool := x.exponent == 2047 && x.fraction == 0

def isZero (x : Binary64) : Bool := x.exponent == 0 && x.fraction == 0

/-- The magnitude of a finite number is `significand * 2 ^ power`. -/
def significand (x : Binary64) : Nat :=
  if x.exponent = 0 then x.fraction else Nat.pow 2 52 + x.fraction

def power (x : Binary64) : Int := (max x.exponent 1 : Nat) - 1075

/-- Numeric equality: the two zeros are equal, and a NaN differs from every number. -/
def equal (x y : Binary64) : Bool :=
  !x.isNaN && !y.isNaN && (x.bits == y.bits || x.isZero && y.isZero)

end Binary64

end Concatenative
