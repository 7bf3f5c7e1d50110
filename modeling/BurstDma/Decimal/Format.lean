/-!
# The 64-bit format of binary fractions

A number has a sign bit, eleven bits of exponent and fifty-two bits of fraction. The
fraction of most numbers has a leading one that is not written; the smallest numbers do
without it.
-/

namespace BurstDma.Decimal

/-- A power of `base`, or one if the exponent is below zero. -/
def power (base : Nat) (e : Int) : Nat :=
  Nat.pow base e.toNat

/-- The number of fractions. -/
def fractionRange : Nat := 4503599627370496

/-- The number of exponents. -/
def exponentRange : Nat := 2048

/-- The place of the sign bit. -/
def signBit : Nat := 9223372036854775808

/-- The power of two by which the last bit of the smallest number counts. -/
def lowestPlace : Int := -1074

/-- The bits of infinity: no finite number has more. -/
def infinityBits : Nat := (exponentRange - 1) * fractionRange

end BurstDma.Decimal
