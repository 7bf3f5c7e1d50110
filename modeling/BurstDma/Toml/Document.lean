import BurstDma.Toml.Quoted
import BurstDma.Toml.Scalar
import BurstDma.Toml.Table

/-!
# Documents

A document is a list of statements, one per line: headers name the table that the
assignments below them go into. Reading it has two stages. `statements` is the grammar
and knows nothing about tables; `build` lets the tables grow and knows nothing about
characters.
-/

namespace BurstDma.Toml

/-- Why a text is no document. -/
inductive Error where
  /-- A line is no statement. -/
  | malformed (line : Nat)
  /-- A key or a table is given twice. -/
  | repeated (path : Path)
deriving Repr, DecidableEq, Inhabited

/-- The wording of an error. -/
def Error.message : Error → String
  | .malformed line => s!"invalid statement at line {line}"
  | .repeated path => "duplicate key: " ++ ".".intercalate path

/-- One line. -/
inductive Statement where
  | blank
  | tableHeader (path : Path) (key : String)
  | itemHeader (path : Path) (key : String)
  | assignment (path : Path) (key : String) (v : Value)
deriving Inhabited

/-! ## Grammar -/

/-- Neither arrays nor dotted keys go deeper than this. -/
def maxDepth : Nat := 79

/-- The characters of keys without quotes. -/
def isKeyChar (c : Char) : Bool :=
  c.isAlphanum || c == '_' || c == '-'

/-- A key without dots. -/
def simpleKey : Scanner String := do
  blanks
  let key ← quotedLine <|> Scanner.run1 isKeyChar
  blanks
  return String.ofList key

/-- A key: the path to its table and its last part. -/
def key : Scanner (Path × String) := do
  let parts ← Scanner.sepBy1 simpleKey '.'
  if maxDepth < parts.length then failure
  match parts.getLast? with
  | some last => return (parts.dropLast, last)
  | none => failure

/-- A key and its value, without the end of the line. -/
def keyValue (value : Scanner Value) : Scanner (Path × String × Value) := do
  let (path, key) ← key
  Scanner.expect '='
  blanks
  return (path, key, ← value)

/-- An array behind its opening bracket. The last item may have a comma. -/
def arrayRest (value : Scanner Value) : Scanner Value := do
  let item : Scanner Value := do
    spacing
    let v ← value
    spacing
    return v
  let items ← Scanner.optional do
    let items ← Scanner.sepBy1 item ','
    let _ ← Scanner.optional (Scanner.expect ',')
    return items
  spacing
  Scanner.expect ']'
  return .array false (items.getD [])

/-- A table behind its opening brace. -/
def bracesRest (value : Scanner Value) : Scanner Value := do
  let entry := do
    let e ← keyValue value
    blanks
    return e
  let entries := (← Scanner.optional (Scanner.sepBy1 entry ',')).getD []
  blanks
  Scanner.expect '\x7d'
  let t ← (entries.foldlM (fun t (path, key, v) => OpenTable.assign path key v t)
    { origin := .braces } : Option OpenTable)
  return t.value

/-- A value with at most the given depth of arrays and tables. -/
def value : Nat → Scanner Value
  | 0 => (.string ∘ String.ofList) <$> quoted <|> word
  | depth + 1 => fun s =>
    match s with
    | '[' :: rest => arrayRest (value depth) rest
    | '\x7b' :: rest => bracesRest (value depth) rest
    | _ => value 0 s

/-- A statement without blanks before it. -/
def statement : Scanner Statement := fun s =>
  match s with
  | '[' :: '[' :: rest => itemHeader rest
  | '[' :: rest => tableHeader rest
  | '#' :: _ => blankLine s
  | '\n' :: _ => blankLine s
  | '\r' :: _ => blankLine s
  | _ => assignment s
where
  blankLine : Scanner Statement := do
    lineEnd
    return .blank
  itemHeader : Scanner Statement := do
    let (path, key) ← key
    Scanner.expectAll [']', ']']
    lineEnd
    return .itemHeader path key
  tableHeader : Scanner Statement := do
    let (path, key) ← key
    Scanner.expect ']'
    lineEnd
    return .tableHeader path key
  assignment : Scanner Statement := do
    let (path, key, v) ← keyValue (value maxDepth)
    lineEnd
    return .assignment path key v

/-- The number of the line that a text stands on, if `rest` is left of it. -/
def lineAt (text rest : List Char) : Nat :=
  text.count '\n' - rest.count '\n' + 1

/-- The statements of a text. -/
def statements (text : List Char) : Except Error (List Statement) :=
  match Scanner.many (do blanks; statement) text with
  | none => .ok []
  | some (found, rest) =>
    match rest.dropWhile isBlank with
    | [] => .ok found
    | rest => .error (.malformed (lineAt text rest))

/-! ## Meaning -/

/-- A document being read: the root, and the path to the table of the last header. -/
structure Draft where
  root : OpenTable := {}
  current : Path := []
deriving Inhabited

/-- The draft after a statement. -/
def Draft.obey (d : Draft) : Statement → Except Error Draft
  | .blank => .ok d
  | .tableHeader path key => do
    let root ← orRepeated (path ++ [key]) (d.root.change false (OpenTable.openTable key) path)
    return { root, current := path ++ [key] }
  | .itemHeader path key => do
    let root ← orRepeated (path ++ [key]) (d.root.change false (OpenTable.openItem key) path)
    return { root, current := path ++ [key] }
  | .assignment path key v => do
    let root ← orRepeated (d.current ++ path ++ [key])
      (d.root.change false (OpenTable.assign path key v) d.current)
    return { d with root }
where
  orRepeated (path : Path) : Option OpenTable → Except Error OpenTable
    | some t => .ok t
    | none => .error (.repeated path)

/-- The table that statements make. -/
def build (ss : List Statement) : Except Error OpenTable := do
  return (← ss.foldlM Draft.obey {}).root

/-- The text without a byte order mark. -/
def withoutMark : List Char → List Char
  | '\ufeff' :: rest => rest
  | s => s

/-- The table that a text denotes. -/
def read (text : String) : Except Error Value := do
  let t ← build (← statements (withoutMark text.toList))
  return t.value

end BurstDma.Toml
