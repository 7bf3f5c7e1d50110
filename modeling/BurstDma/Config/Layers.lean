import BurstDma.Config.Decode
import BurstDma.Fault
import BurstDma.Text.Case
import BurstDma.Toml.Document

/-!
# Layers

A configuration is put together from layers: the built-in settings, a file, and the
environment. **A later layer wins setting by setting**: tables are merged key by key,
and everything else, arrays included, is replaced as a whole.

A layer names its places by paths such as `bus.word_bytes` or `ports[0].scripts`. A path
makes whatever is missing on its way; an array that is too short is filled up with gaps,
and an index below zero counts from the end.
-/

namespace BurstDma.Config

open Toml (Value Entries)

/-- One step of a path. -/
inductive Step where
  | child (key : String)
  | index (i : Int)
deriving Repr, DecidableEq, Inhabited

namespace Layer

/-! ## Paths -/

/-- The characters of a key in a path. -/
def isKeyChar (c : Char) : Bool :=
  c.isAlphanum || c == ' ' || c == '_' || c == '-'

def child : Toml.Scanner Step := do
  return .child (String.ofList (← Toml.Scanner.run1 isKeyChar))

/-- An index between brackets. -/
def index : Toml.Scanner Step := do
  Toml.Scanner.expect '['
  Toml.blanks
  let sign ← Toml.Scanner.optional (Toml.Scanner.expect '-')
  let digits ← Toml.Scanner.run1 Char.isDigit
  Toml.blanks
  Toml.Scanner.expect ']'
  let n : Int := (Toml.valueIn 10 digits : Nat)
  let i := if sign.isSome then -n else n
  if fitsSigned64 i then return .index i else failure

/-- A path with at least one step. -/
def path : Toml.Scanner (List Step) := do
  let first ← child
  return first :: (← Toml.Scanner.many ((do Toml.Scanner.expect '.'; child) <|> index))

/-- The path that a name means. A name that is no path is a key as it stands. -/
def pathOf (name : String) : List Step :=
  (Toml.Scanner.whole path name.toList).getD [.child name]

/-! ## Setting values -/

/-- The value as a table with another value of a key. -/
def put (key : String) (v : Value) (target : Value) : Value :=
  (Toml.OpenTable.put { entries := target.entries } key v).value

mutual

/-- Gives a key a value. A table is merged into what the key has. -/
def assign (key : String) : Value → Value → Value
  | .table _ incoming, target =>
    let old := (target.entries.lookup key).getD (.table .header [])
    put key (assignAll incoming old) target
  | v, target => put key v target

/-- Gives keys their values, one after the other. -/
def assignAll : Entries → Value → Value
  | [], target => target
  | (key, v) :: rest, target => assignAll rest (assign key v target)

end

/-- The position that an index means in an array of a length. -/
def position (length : Nat) : Int → Except Fault Nat
  | .ofNat i => .ok i
  | .negSucc i => Checked.sub length (i + 1)

/-- Changes the value at the end of a path. -/
def change (f : Value → Value) : List Step → Value → Except Fault Value
  | [], v => .ok (f v)
  | .child key :: rest, v => do
    let inner ← change f rest ((v.entries.lookup key).getD .gap)
    return put key inner v
  | .index i :: rest, v => do
    let items := v.items
    let at_ ← position items.length i
    let padded := items ++ List.replicate (at_ + 1 - items.length) .gap
    let inner ← change f rest (padded[at_]?.getD .gap)
    return .array false (padded.set at_ inner)

/-- Gives a place a value. -/
def set (name : String) (v : Value) (root : Value) : Except Fault Value :=
  let steps := pathOf name
  match steps.getLast? with
  | some (.child key) => change (assign key v) steps.dropLast root
  | _ => change (fun _ => v) steps root

/-- The values with a layer over them. -/
def apply (root : Value) (layer : Entries) : Except Fault Value :=
  layer.foldlM (fun root e => set e.1 e.2 root) root

/-! ## The environment -/

/-- What the names of settings in the environment begin with. -/
def environmentMark : List Char :=
  "axidma_".toList

/-- Two underscores separate the steps of a path. -/
def withDots : List Char → List Char
  | '_' :: '_' :: rest => '.' :: withDots rest
  | c :: rest => c :: withDots rest
  | [] => []

/-- The setting that a variable names, if it names one. Case does not matter. -/
def settingName? (name : String) : Option String :=
  let name := (Text.lower name).toList
  if environmentMark.isPrefixOf name then
    some (String.ofList (withDots (name.drop environmentMark.length)))
  else none

/-- A number with a sign, if the text is one that fits into 64 bits. -/
def integer? (s : List Char) : Option Int :=
  let (negative, digits) := Decimal.splitSign s
  if digits.isEmpty || !digits.all Char.isDigit then none
  else
    let n : Int := (Toml.valueIn 10 digits : Nat)
    let i := if negative then -n else n
    if fitsSigned64 i then some i else none

/-- The value that the text of a variable looks like. -/
def valueOf (text : String) : Value :=
  let word := Text.lower text
  if word = "true" then .boolean true
  else if word = "false" then .boolean false
  else
    match integer? text.toList, Decimal.read? text.toList with
    | some n, _ => .integer n
    | none, some f => .float f
    | none, none => .string text

/-- The layer of the environment. -/
def ofEnvironment (environ : List (String × String)) : Entries :=
  environ.filterMap fun (name, text) =>
    (settingName? name).map fun setting => (setting, valueOf text)

end Layer

/-! ## All layers -/

/-- The built-in settings. -/
def defaultText : String :=
  "[simulation]
max_cycles = 1000000
quiet = false
step_mode = false
trace_file = \"\"

[bus]
word_bytes = 8
read_outstanding = 4
input_register = false
output_register = false

[memory]
size_words = 16384
read_latency = 4
write_latency = 2
init_file = \"\"
ref_file = \"\"
dump_file = \"\"

[[ports]]
fifo_depth = 32
frame_mode = false
source_throttle = 0
sink_throttle = 0
input_file = \"\"
ref_file = \"\"
scripts = []
"

/-- The layer in the text of a file. -/
def layerOfText (text : String) : Attempt Entries :=
  match Toml.read text with
  | .error e => .error (.badLayers e.message)
  | .ok v => .ok v.entries

/-- The configuration that layers make, the last of which wins. -/
def ofLayers (layers : List Entries) : Except Stop Config :=
  match layers.foldlM Layer.apply (.table .header []) with
  | .error fault => .error (.fault fault)
  | .ok root =>
    match decode .loose root with
    | none => .error (.problem (.badLayers "a setting has the wrong type or is missing"))
    | some c => .ok c

end BurstDma.Config
