import BurstDma.Decimal.Nearest
import BurstDma.Fault
import BurstDma.Toml.Layout
import BurstDma.Toml.Value

/-!
# Numbers, truth values and moments

These are words without quotes. A word ends where a character stands that no such word
can hold, and it has to make sense as a whole: there is no `12` in `12th`.
-/

namespace BurstDma.Toml

/-- The characters of words without quotes. -/
def isWordChar (c : Char) : Bool :=
  c.isAlphanum || c == '_' || c == '+' || c == '-' || c == '.' || c == ':'

/-! ## Numbers -/

/-- The digits of a number. Underscores may stand between two digits. -/
def ungrouped (isDigit : Char → Bool) : List Char → Option (List Char)
  | [] => none
  | [c] => if isDigit c then some [c] else none
  | c :: '_' :: rest => if isDigit c then (c :: ·) <$> ungrouped isDigit rest else none
  | c :: rest => if isDigit c then (c :: ·) <$> ungrouped isDigit rest else none

/-- The value of digits in a base up to sixteen. -/
def valueIn (base : Nat) (digits : List Char) : Nat :=
  digits.foldl (fun n c => n * base + (Radix.sixteen.digit? c).getD 0) 0

/-- Whether a character is a digit of the base. -/
def isDigitIn (base : Nat) (c : Char) : Bool :=
  (Radix.sixteen.digit? c).any (· < base)

/-- A number without sign in the base. -/
def readBase (base : Nat) (s : List Char) : Option Nat :=
  (ungrouped (isDigitIn base) s).map (valueIn base)

/-- Decimal digits without zeros in front. -/
def readPlainDigits (s : List Char) : Option (List Char) :=
  (ungrouped Char.isDigit s).filter fun digits =>
    digits.length == 1 || digits.head? != some '0'

/-- The magnitude of a number, with a mark for other bases than ten. -/
def readInteger (s : List Char) : Option Int := do
  let n : Int ← match s with
    | '0' :: 'x' :: digits => (readBase 16 digits).map Int.ofNat
    | '0' :: 'o' :: digits => (readBase 8 digits).map Int.ofNat
    | '0' :: 'b' :: digits => (readBase 2 digits).map Int.ofNat
    | '-' :: digits => (readPlainDigits digits).map fun ds => -(valueIn 10 ds : Int)
    | '+' :: digits => (readPlainDigits digits).map fun ds => (valueIn 10 ds : Int)
    | digits => (readPlainDigits digits).map fun ds => (valueIn 10 ds : Int)
  if fitsSigned64 n then some n else none

/-- The exponent behind an `e`. -/
def readExponent (s : List Char) : Option Int :=
  let (negative, digits) := Decimal.splitSign s
  (ungrouped Char.isDigit digits).map fun ds =>
    if negative then -(valueIn 10 ds : Int) else valueIn 10 ds

/-- A decimal number with a fraction, an exponent or both. -/
def readFraction (s : List Char) : Option Float := do
  let isMark (c : Char) : Bool := c == 'e' || c == 'E'
  if !s.any fun c => c == '.' || isMark c then none
  let mantissa := s.takeWhile (!isMark ·)
  let whole ← readPlainDigits (mantissa.takeWhile (· != '.'))
  let places ← match mantissa.dropWhile (· != '.') with
    | [] => some []
    | _ :: digits => ungrouped Char.isDigit digits
  let exponent ← match s.dropWhile (!isMark ·) with
    | [] => some 0
    | _ :: digits => readExponent digits
  return Decimal.ofDigits (valueIn 10 (whole ++ places)) (exponent - places.length)

/-- A number that is no integer. Too large a positive one is refused, too large a
negative one is infinite. -/
def readFloat (s : List Char) : Option Float := do
  let (negative, size) := Decimal.splitSign s
  match size with
  | ['i', 'n', 'f'] => return Decimal.withSign negative (1 / 0)
  | ['n', 'a', 'n'] => return Decimal.withSign negative (0 / 0)
  | _ =>
    let f ← readFraction size
    if f.isInf && !negative then none else return Decimal.withSign negative f

/-- What a word without quotes denotes. -/
def readWord (s : List Char) : Option Value :=
  if s = ['t', 'r', 'u', 'e'] then some (.boolean true)
  else if s = ['f', 'a', 'l', 's', 'e'] then some (.boolean false)
  else (readInteger s).map .integer <|> (readFloat s).map .float

/-! ## Moments -/

/-- A number of exactly `width` digits, not below `low` and not above `high`. -/
def digits (width low high : Nat) : Scanner Nat := do
  let ds ← (List.range width).mapM fun _ => Scanner.satisfy Char.isDigit
  let n := valueIn 10 ds
  if low ≤ n ∧ n ≤ high then return n else failure

/-- The number of days of a month. -/
def daysIn (year month : Nat) : Nat :=
  let leap := year % 4 == 0 && (year % 100 != 0 || year % 400 == 0)
  match month with
  | 2 => if leap then 29 else 28
  | 4 | 6 | 9 | 11 => 30
  | _ => 31

def date : Scanner Date := do
  let year ← digits 4 0 9999
  Scanner.expect '-'
  let month ← digits 2 1 12
  Scanner.expect '-'
  let day ← digits 2 1 (daysIn year month)
  return { year, month, day }

/-- The fraction of a second in nanoseconds; further digits are cut off. -/
def fraction : Scanner Nat := do
  Scanner.expect '.'
  let ds ← Scanner.run1 Char.isDigit
  return valueIn 10 ((ds ++ List.replicate 9 '0').take 9)

def time : Scanner Time := do
  let hour ← digits 2 0 23
  Scanner.expect ':'
  let minute ← digits 2 0 59
  Scanner.expect ':'
  let second ← digits 2 0 60
  let nanosecond := (← Scanner.optional fraction).getD 0
  return { hour, minute, second, nanosecond }

def offset : Scanner Offset := do
  match ← Scanner.satisfy fun c => c == 'Z' || c == 'z' || c == '+' || c == '-' with
  | '+' => return .ahead (← minutes)
  | '-' => return .ahead (-(← minutes))
  | _ => return .universal
where
  /-- Hours and minutes, in minutes. -/
  minutes : Scanner Int := do
    let hour ← digits 2 0 23
    Scanner.expect ':'
    let minute ← digits 2 0 59
    return (hour * 60 + minute : Nat)

/-- A time behind a date. -/
def timeOfDay : Scanner (Time × Option Offset) := do
  let _ ← Scanner.satisfy fun c => c == 'T' || c == 't' || c == ' '
  return (← time, ← Scanner.optional offset)

/-- A date, a time, or a date with a time behind it. -/
def moment : Scanner Moment :=
  (do
    let date ← date
    match ← Scanner.optional timeOfDay with
    | none => return { date := some date }
    | some (time, offset) => return { date := some date, time := some time, offset })
  <|> (do return { time := some (← time) })

/-- A word without quotes. -/
def word : Scanner Value :=
  (do
    let m ← moment
    Scanner.notBefore isWordChar
    return .moment m)
  <|> (do
    let s ← Scanner.run1 isWordChar
    match readWord s with
    | some v => return v
    | none => failure)

end BurstDma.Toml
