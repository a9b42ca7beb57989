set_option autoImplicit false

/-! # Binary floating-point numbers of 64 bits

A `Binary64` is kept as its bit pattern: one sign bit, eleven exponent bits and fifty-two fraction
bits. Two numbers are the same datum exactly when their bits are equal, and that is what `=` says
here. The comparison of numeric values is `Binary64.numEq`: a NaN equals nothing, and the two zeros
equal each other.
-/

namespace LocalRecovery

/-- A floating-point number, given by its bits. -/
structure Binary64 where
  bits : UInt64
  deriving DecidableEq

namespace Binary64

/-- Is the sign bit set? -/
def negative (x : Binary64) : Bool :=
  x.bits.toNat / Nat.pow 2 63 == 1

/-- The eleven exponent bits. -/
def exponentBits (x : Binary64) : Nat :=
  x.bits.toNat / Nat.pow 2 52 % Nat.pow 2 11

/-- The fifty-two fraction bits. -/
def fractionBits (x : Binary64) : Nat :=
  x.bits.toNat % Nat.pow 2 52

/-- All exponent bits are set and the fraction is not zero. -/
def isNaN (x : Binary64) : Bool :=
  x.exponentBits == 2047 && x.fractionBits != 0

/-- All exponent bits are set and the fraction is zero. -/
def isInfinite (x : Binary64) : Bool :=
  x.exponentBits == 2047 && x.fractionBits == 0

/-- One of the two zeros. -/
def isZero (x : Binary64) : Bool :=
  x.exponentBits == 0 && x.fractionBits == 0

/-- Equality of numeric values. It is neither reflexive (at a NaN) nor finer than equality of
bits (at the zeros). -/
def numEq (x y : Binary64) : Bool :=
  !x.isNaN && !y.isNaN && (x.bits == y.bits || (x.isZero && y.isZero))

/-- The whole number `m` in the magnitude `m * 2 ^ q` of a finite number. -/
def significand (x : Binary64) : Nat :=
  if x.exponentBits = 0 then x.fractionBits else x.fractionBits + Nat.pow 2 52

/-- The power `q` in the magnitude `m * 2 ^ q` of a finite number. -/
def scale (x : Binary64) : Int :=
  if x.exponentBits = 0 then -1074 else (x.exponentBits : Int) - 1075

end Binary64

end LocalRecovery
