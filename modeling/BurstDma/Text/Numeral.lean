/-!
# Numerals

Reading and writing natural numbers in base ten and sixteen. A numeral is read
from the left, and the first thing wrong with it is what is reported: the
character at hand is looked at before the size of the number so far. One `+` may
stand in front.
-/

namespace BurstDma

/-- Why a numeral was refused. -/
inductive NumeralError where
  | empty
  | badDigit
  | tooLarge
deriving Repr, DecidableEq

/-- The wording of a refused numeral. -/
def NumeralError.message : NumeralError → String
  | .empty => "cannot parse integer from empty string"
  | .badDigit => "invalid digit found in string"
  | .tooLarge => "number too large to fit in target type"

/-- The bases that occur. -/
inductive Radix where
  | ten
  | sixteen
deriving Repr, DecidableEq

namespace Radix

/-- The number of digits of the base. -/
def base : Radix → Nat
  | ten => 10
  | sixteen => 16

theorem two_le_base (r : Radix) : 2 ≤ r.base := by cases r <;> decide

/-- What a character counts as a digit; letters count in either case. -/
def digit? (r : Radix) (c : Char) : Option Nat :=
  let value :=
    if '0' ≤ c ∧ c ≤ '9' then some (c.toNat - '0'.toNat)
    else if 'a' ≤ c ∧ c ≤ 'f' then some (c.toNat - 'a'.toNat + 10)
    else if 'A' ≤ c ∧ c ≤ 'F' then some (c.toNat - 'A'.toNat + 10)
    else none
  value.filter (· < r.base)

/-- Reads digits on top of the number `n` that stands to their left. -/
def readDigits (r : Radix) (limit : Nat) : Nat → List Char → Except NumeralError Nat
  | n, [] => .ok n
  | n, c :: rest =>
    match r.digit? c with
    | none => .error .badDigit
    | some d =>
      if n * r.base + d < limit then readDigits r limit (n * r.base + d) rest
      else .error .tooLarge

/-- The number below `limit` that a text denotes. -/
def read (r : Radix) (limit : Nat) : List Char → Except NumeralError Nat
  | [] => .error .empty
  | ['+'] => .error .badDigit
  | '+' :: rest => r.readDigits limit 0 rest
  | s => r.readDigits limit 0 s

/-- The digits of a number: as few as possible, at least one, letters small. -/
def write (r : Radix) (n : Nat) : List Char :=
  if n < r.base then [Nat.digitChar n]
  else r.write (n / r.base) ++ [Nat.digitChar (n % r.base)]
termination_by n
decreasing_by
  have := r.two_le_base
  exact Nat.div_lt_self (by omega) (by omega)

/-- The digits of a number, filled up with zeros to at least `width`. -/
def writeWide (r : Radix) (width n : Nat) : List Char :=
  let digits := r.write n
  List.replicate (width - digits.length) '0' ++ digits

end Radix

namespace Numeral

/-- Decimal text. -/
def decimal (n : Nat) : String :=
  String.ofList (Radix.ten.write n)

/-- Hexadecimal digits, at least `width` of them. -/
def hexDigits (width n : Nat) : String :=
  String.ofList (Radix.sixteen.writeWide width n)

/-- Hexadecimal text after `0x`, with at least `width` digits. -/
def hex (width n : Nat) : String :=
  "0x" ++ hexDigits width n

/-- The text filled up with blanks on the left to at least `width` characters. -/
def rightAligned (width : Nat) (s : String) : String :=
  String.ofList (List.replicate (width - s.length) ' ') ++ s

end Numeral

end BurstDma
