import BurstDma.Decimal.Format
import BurstDma.Text.Numeral

/-!
# Decimal text of binary fractions

A 64-bit binary fraction is written with **the fewest digits that read back as the same
number**, and of those with the digits nearest to it. The number is taken apart into
`m * 2 ^ q` with whole `m`; the reals that round to it then form an interval whose ends
are half-way to its neighbours, and the search compares whole numbers only.

The notation is positional throughout: no exponent, no point behind a whole number.
-/

namespace BurstDma.Decimal

/-- A positive number `m * 2 ^ q` and the distance to the number below it, which is half
as long at a power of two. -/
structure Binary where
  m : Nat
  q : Int
  /-- Whether the number below lies at half the distance of the number above. -/
  narrowBelow : Bool
deriving Repr, DecidableEq, Inhabited

/-- The parts of a positive finite number from its 64 bits. -/
def Binary.ofBits (bits : Nat) : Binary :=
  let exponent : Nat := bits / fractionRange % exponentRange
  let fraction : Nat := bits % fractionRange
  if exponent = 0 then ⟨fraction, lowestPlace, false⟩
  else ⟨fraction + fractionRange, lowestPlace + exponent - 1, fraction == 0 && exponent != 1⟩

/-- A number `digits * 10 ^ exponent`. -/
structure Digits where
  digits : Nat
  exponent : Int
deriving Repr, DecidableEq, Inhabited

/-- `a * 2 ^ p * 10 ^ e` as a fraction. -/
def scaled (a : Nat) (p e : Int) : Nat × Nat :=
  (a * power 2 p * power 10 e, power 2 (-p) * power 10 (-e))

/-- Whether `a / b ≤ c / d`, or `<` if the ends do not count. -/
def within (closed : Bool) (a b c d : Nat) : Bool :=
  if closed then decide (a * d ≤ c * b) else decide (a * d < c * b)

/-- Whether `n * 10 ^ e` rounds to the number. The ends of the interval belong to it if
`m` is even. Everything is measured in quarters of the last binary place. -/
def Binary.roundsFrom (x : Binary) (n : Nat) (e : Int) : Bool :=
  let closed := x.m % 2 == 0
  let (num, den) := scaled (4 * n) (-x.q) e
  let low := 4 * x.m - (if x.narrowBelow then 1 else 2)
  let high := 4 * x.m + 2
  within closed low 1 num den && within closed num den high 1

/-- The point of the grid of multiples of `10 ^ e` that rounds to the number, the nearer
one if both neighbours do. -/
def Binary.onGrid (x : Binary) (e : Int) : Option Digits :=
  let (num, den) := scaled x.m x.q (-e)
  let below := num / den
  let rest := num % den
  match x.roundsFrom below e, x.roundsFrom (below + 1) e with
  | true, true =>
    if 2 * rest < den ∨ (2 * rest = den ∧ below % 2 = 0) then some ⟨below, e⟩
    else some ⟨below + 1, e⟩
  | true, false => some ⟨below, e⟩
  | false, true => some ⟨below + 1, e⟩
  | false, false => none

/-- The coarsest of `n` ever finer grids that has a point for the number. -/
def Binary.search (x : Binary) : Nat → Int → Digits
  | 0, e => ⟨0, e⟩
  | n + 1, e =>
    match x.onGrid e with
    | some d => d
    | none => x.search n (e - 1)

/-- A decimal exponent above that of every 64-bit number. -/
def topExponent : Int := 309

/-- The fewest digits that read back. -/
def Binary.shortest (x : Binary) : Digits :=
  x.search 640 topExponent

/-- Positional notation. -/
def Digits.text (d : Digits) : List Char :=
  let cs := Radix.ten.write d.digits
  if 0 ≤ d.exponent then cs ++ List.replicate d.exponent.toNat '0'
  else
    let places := (-d.exponent).toNat
    let cs := List.replicate (places + 1 - cs.length) '0' ++ cs
    cs.take (cs.length - places) ++ '.' :: cs.drop (cs.length - places)

/-- The text of a 64-bit number. -/
def text (f : Float) : String :=
  if f.isNaN then "NaN"
  else
    let bits := f.toBits.toNat
    let sign := if bits < signBit then "" else "-"
    let size := bits % signBit
    if f.isInf then sign ++ "inf"
    else if size = 0 then sign ++ "0"
    else sign ++ String.ofList (Binary.ofBits size).shortest.text

end BurstDma.Decimal
