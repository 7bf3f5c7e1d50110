import BurstDma.Decimal.Format
import BurstDma.Text.Numeral

/-!
# Binary fractions from decimal text

A decimal number becomes the 64-bit binary fraction **nearest to it**, and the even one
of two that are equally near. The work is done on whole numbers: a number `num / den` is
scaled by a power of two until its whole part has 53 bits, and then rounded once.
-/

namespace BurstDma.Decimal

/-- The whole number nearest to `num / den`, the even one of two. -/
def roundHalfEven (num den : Nat) : Nat :=
  let whole := num / den
  let rest := num % den
  if den < 2 * rest ∨ (den = 2 * rest ∧ whole % 2 = 1) then whole + 1 else whole

/-- The power of two by which the last of 53 bits counts in `num / den`, but not below
that of the smallest number. -/
def lastPlace (num den : Nat) : Int :=
  let guess := (num.log2 : Int) - den.log2 - 52
  let whole := num * power 2 (-guess) / (den * power 2 guess)
  max (if whole < fractionRange then guess - 1 else guess) lowestPlace

/-- The bits of the number nearest to `num / den`. A carry out of the fraction becomes
part of the exponent by itself. -/
def nearestBits (num den : Nat) : Nat :=
  let q := lastPlace num den
  let m := roundHalfEven (num * power 2 (-q)) (den * power 2 q)
  min ((q - lowestPlace).toNat * fractionRange + m) infinityBits

/-- The number nearest to `digits * 10 ^ exponent`. Exponents far outside the range are
settled without computing the power. -/
def ofDigits (digits : Nat) (exponent : Int) : Float :=
  let size := (Radix.ten.write digits).length + exponent
  let bits :=
    if digits = 0 ∨ size < -400 then 0
    else if 400 < size then infinityBits
    else nearestBits (digits * power 10 exponent) (power 10 (-exponent))
  Float.ofBits (UInt64.ofNat bits)

/-- A text cut at a sign in front: whether the sign is a minus, and the rest. -/
def splitSign : List Char → Bool × List Char
  | '-' :: rest => (true, rest)
  | '+' :: rest => (false, rest)
  | s => (false, s)

/-- The number with the sign. -/
def withSign (negative : Bool) (f : Float) : Float :=
  if negative then -f else f

/-- The value of digits, of which there may be none. -/
def digitsValue? (s : List Char) : Option Nat :=
  s.foldlM (fun n c => (Radix.ten.digit? c).map (n * 10 + ·)) 0

/-- The exponent behind an `e`, or zero if the text ends. -/
def readExponent? : List Char → Option Int
  | [] => some 0
  | _ :: rest =>
    let (negative, digits) := splitSign rest
    if digits.isEmpty then none
    else (digitsValue? digits).map fun n => if negative then -(n : Int) else n

/-- The number without sign that a text denotes: digits around a point, of which there
has to be one, and an exponent. -/
def readPlain? (s : List Char) : Option Float := do
  let isMark (c : Char) : Bool := c == 'e' || c == 'E'
  let mantissa := s.takeWhile (!isMark ·)
  let whole := mantissa.takeWhile (· != '.')
  let places := (mantissa.dropWhile (· != '.')).drop 1
  if (whole ++ places).isEmpty then none
  let digits ← digitsValue? (whole ++ places)
  let exponent ← readExponent? (s.dropWhile (!isMark ·))
  return ofDigits digits (exponent - places.length)

/-- The number that a text denotes. Letters of infinity and of no number count in either
case. -/
def read? (s : List Char) : Option Float :=
  let (negative, size) := splitSign s
  let word := String.ofList (size.map Char.toLower)
  if word = "inf" ∨ word = "infinity" then some (withSign negative (1 / 0))
  else if word = "nan" then some (withSign negative (0 / 0))
  else (readPlain? size).map (withSign negative)

end BurstDma.Decimal
