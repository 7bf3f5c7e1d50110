import BurstDma.Text.Numeral

/-!
# TOML values

A TOML document denotes a tree of tables and arrays with scalars at its leaves. Tables
and arrays remember how they came about, because that decides **what may still be added
to them** further down in the document; whoever only reads the tree does not look at it.
-/

namespace BurstDma.Toml

structure Date where
  year : Nat
  month : Nat
  day : Nat
deriving Repr, DecidableEq, Inhabited

/-- A time of day; there may be a sixtieth second. -/
structure Time where
  hour : Nat
  minute : Nat
  second : Nat
  nanosecond : Nat := 0
deriving Repr, DecidableEq, Inhabited

/-- How far a time is ahead of universal time. -/
inductive Offset where
  | universal
  | ahead (minutes : Int)
deriving Repr, DecidableEq, Inhabited

/-- A date, a time of day, or both; only both together can have an offset. -/
structure Moment where
  date : Option Date := none
  time : Option Time := none
  offset : Option Offset := none
deriving Repr, DecidableEq, Inhabited

/-- How a table came about. -/
inductive Origin where
  /-- Written between braces: complete. -/
  | braces
  /-- Named by a header of its own. -/
  | header
  /-- Passed through by the header of a table inside it. -/
  | implied
  /-- Passed through by a dotted key. -/
  | dotted
deriving Repr, DecidableEq, Inhabited

/-- A value. -/
inductive Value where
  /-- A place without a value. No document denotes it; it arises where a place behind
  the end of an array is filled. -/
  | gap
  | boolean (b : Bool)
  | integer (n : Int)
  | float (f : Float)
  | string (s : String)
  | moment (m : Moment)
  /-- `growing` arrays get another table with every double header. -/
  | array (growing : Bool) (items : List Value)
  | table (origin : Origin) (entries : List (String × Value))
deriving Inhabited

/-- The entries of a table, in the order in which they came. -/
abbrev Entries := List (String × Value)

/-- The entries of a table; other values have none. -/
def Value.entries : Value → Entries
  | .table _ entries => entries
  | _ => []

/-- The items of an array; other values have none. -/
def Value.items : Value → List Value
  | .array _ items => items
  | _ => []

/-! ## Moments in text -/

/-- A decimal number with at least `width` digits. -/
def padded (width n : Nat) : String :=
  String.ofList (Radix.ten.writeWide width n)

def Date.text (d : Date) : String :=
  s!"{padded 4 d.year}-{padded 2 d.month}-{padded 2 d.day}"

/-- The digits of a second's fraction behind the point, without zeros at their end. -/
def fractionText (nanosecond : Nat) : String :=
  if nanosecond = 0 then ""
  else
    let digits := Radix.ten.writeWide 9 nanosecond
    "." ++ String.ofList (digits.reverse.dropWhile (· == '0')).reverse

def Time.text (t : Time) : String :=
  s!"{padded 2 t.hour}:{padded 2 t.minute}:{padded 2 t.second}{fractionText t.nanosecond}"

def Offset.text : Offset → String
  | .universal => "Z"
  | .ahead minutes =>
    let size := minutes.natAbs
    let sign := if minutes < 0 then "-" else "+"
    sign ++ padded 2 (size / 60) ++ ":" ++ padded 2 (size % 60)

/-- The text of a moment: date and time around a `T`. -/
def Moment.text (m : Moment) : String :=
  let mark := if m.date.isSome && m.time.isSome then "T" else ""
  (m.date.map Date.text).getD "" ++ mark ++ (m.time.map Time.text).getD ""
    ++ (m.offset.map Offset.text).getD ""

end BurstDma.Toml
