import BurstDma.Decimal.Shortest
import BurstDma.Toml.Value

/-!
# Writing documents

A document is written in blocks with blank lines between them: first the keys of the
root, then a block under a header for each of its tables. Tables further inside are
written between braces. An array of several items has a line for each of them.
-/

namespace BurstDma.Toml

/-- A character of a string between double quotes. -/
def escaped (c : Char) : List Char :=
  if c = '"' ∨ c = '\\' then ['\\', c]
  else if c = '\n' then ['\\', 'n']
  else if c = '\r' then ['\\', 'r']
  else if c = '\t' then ['\\', 't']
  else if c.toNat < 0x20 ∨ c.toNat = 0x7f then
    ['\\', 'u'] ++ Radix.sixteen.writeWide 4 c.toNat
  else [c]

/-- A string between double quotes. -/
def stringText (s : String) : String :=
  "\"" ++ String.ofList (s.toList.flatMap escaped) ++ "\""

/-- A float, which always has a point. -/
def floatText (f : Float) : String :=
  let text := Decimal.text f
  if text.toList.all fun c => c.isDigit || c == '-' then text ++ ".0" else text

mutual

/-- A value within a line. -/
def inlineText : Value → String
  | .gap => "\"\""
  | .boolean b => toString b
  | .integer n => toString n
  | .float f => floatText f
  | .string s => stringText s
  | .moment m => m.text
  | .array _ items => "[" ++ itemsText items ++ "]"
  | .table _ entries => "\x7b " ++ entriesText entries ++ " \x7d"

def itemsText : List Value → String
  | [] => ""
  | [v] => inlineText v
  | v :: rest => inlineText v ++ ", " ++ itemsText rest

def entriesText : Entries → String
  | [] => ""
  | [(key, v)] => key ++ " = " ++ inlineText v
  | (key, v) :: rest => key ++ " = " ++ inlineText v ++ ", " ++ entriesText rest

end

/-- A value behind a key. -/
def valueText : Value → String
  | .array _ (a :: b :: rest) =>
    "[\n" ++ String.join ((a :: b :: rest).map fun v => "    " ++ inlineText v ++ ",\n") ++ "]"
  | v => inlineText v

/-- The lines of some keys. -/
def keyLines (entries : Entries) : String :=
  String.join (entries.map fun (key, v) => key ++ " = " ++ valueText v ++ "\n")

/-- Whether a value is a table. -/
def isTable : Value → Bool
  | .table .. => true
  | _ => false

/-- The blocks of a key of the root, if it has blocks of its own. -/
def blocks : String × Value → List String
  | (key, .table _ entries) => ["[" ++ key ++ "]\n" ++ keyLines entries]
  | (key, .array _ items) =>
    if items.all isTable then items.map fun v => "[[" ++ key ++ "]]\n" ++ keyLines v.entries
    else []
  | _ => []

/-- The text of a document with the given root. -/
def write (root : Entries) : String :=
  let plain := root.filter fun e => (blocks e).isEmpty
  let first := if plain.isEmpty then [] else [keyLines plain]
  "\n".intercalate (first ++ root.flatMap blocks)

end BurstDma.Toml
