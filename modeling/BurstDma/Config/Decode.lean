import BurstDma.Config.Basic
import BurstDma.Decimal.Shortest
import BurstDma.Text.Case
import BurstDma.Toml.Document

/-!
# Configurations from values

A configuration can be read from a tree of values. Sections are tables; an array gives
their fields by position instead. **Settings that are missing have their defaults, and
settings nobody knows are passed over.**

There are two ways to read a scalar. The *exact* one takes it only as what it is. The
*loose* one lets it stand for what it looks like, because the environment knows nothing
but text: `"on"` is true, and `"8"` is eight.
-/

namespace BurstDma

/-- A way to read scalars. -/
structure Reading where
  /-- A number below a limit. -/
  number : Nat → Toml.Value → Option Nat
  flag : Toml.Value → Option Bool
  text : Toml.Value → Option String
  resp : Toml.Value → Option Resp
  /-- Whether a moment is a section without settings. -/
  momentIsSection : Bool

namespace Reading

/-! ## Exactly -/

def exactNumber (limit : Nat) : Toml.Value → Option Nat
  | .integer n => if 0 ≤ n ∧ n < limit then some n.toNat else none
  | _ => none

def exactFlag : Toml.Value → Option Bool
  | .boolean b => some b
  | _ => none

def exactText : Toml.Value → Option String
  | .string s => some s
  | _ => none

/-- All responses. -/
def responses : List Resp :=
  [.okay, .exOkay, .slvErr, .decErr]

/-- Whether a value has nothing inside. -/
def isHollow : Toml.Value → Bool
  | .array _ items => items.isEmpty
  | .table _ entries => entries.isEmpty
  | _ => false

/-- A response by its name, which may be the only key of a table with nothing in it. -/
def exactResp : Toml.Value → Option Resp
  | .string s => responses.find? (·.name == s)
  | .table _ [(s, v)] => if isHollow v then responses.find? (·.name == s) else none
  | _ => none

/-- Every scalar is what it is. -/
def exact : Reading where
  number := exactNumber
  flag := exactFlag
  text := exactText
  resp := exactResp
  momentIsSection := true

/-! ## Loosely -/

/-- Words for yes and no. -/
def looseWord (s : String) : Option Bool :=
  if s = "true" ∨ s = "on" ∨ s = "yes" then some true
  else if s = "false" ∨ s = "off" ∨ s = "no" then some false
  else none

/-- The number that a text stands for. -/
def looseNumeral (s : String) : Option Nat :=
  match looseWord (Text.lower s) with
  | some b => some b.toNat
  | none => (Radix.ten.read limit64 s.toList).toOption

def looseNumber (limit : Nat) (v : Toml.Value) : Option Nat :=
  let n := match v with
    | .integer n => if 0 ≤ n then some n.toNat else none
    | .boolean b => some b.toNat
    | .float f => some f.round.toUInt64.toNat
    | .string s => looseNumeral s
    | _ => none
  n.filter (· < limit)

/-- The truth value that a text stands for. -/
def looseFlagText (s : String) : Option Bool :=
  if s = "1" then some true
  else if s = "0" then some false
  else looseWord (Text.lower s)

def looseFlag : Toml.Value → Option Bool
  | .boolean b => some b
  | .integer n => some (n != 0)
  | .float f => some (f != 0)
  | .string s => looseFlagText s
  | _ => none

def looseText : Toml.Value → Option String
  | .string s => some s
  | .boolean b => some (toString b)
  | .integer n => some (toString n)
  | .float f => some (Decimal.text f)
  | .moment m => some m.text
  | _ => none

/-- A response by its name in letters of either case, which may be the only key of a
table. -/
def looseResp : Toml.Value → Option Resp
  | .string s => responses.find? (·.name == Text.lower s)
  | .table _ [(s, _)] => responses.find? (·.name == Text.lower s)
  | _ => none

/-- A scalar can be what it looks like. -/
def loose : Reading where
  number := looseNumber
  flag := looseFlag
  text := looseText
  resp := looseResp
  momentIsSection := false

end Reading

namespace Config

/-- The settings of a section by the names of its fields. -/
structure Section where
  values : List (String × Toml.Value)

/-- A value as a section with the given fields. -/
def section? (r : Reading) (fields : List String) : Toml.Value → Option Section
  | .table _ entries => some ⟨entries⟩
  | .array _ items => some ⟨fields.zip items⟩
  | .moment _ => if r.momentIsSection then some ⟨[]⟩ else none
  | _ => none

/-- A field, or its default if it is missing. -/
def Section.get {α : Type} (s : Section) (name : String) (default : α)
    (read : Toml.Value → Option α) : Option α :=
  match s.values.lookup name with
  | none => some default
  | some v => read v

/-- A field that has to be there. -/
def Section.need {α : Type} (s : Section) (name : String) (read : Toml.Value → Option α) :
    Option α :=
  s.values.lookup name >>= read

/-- The items of an array. -/
def items {α : Type} (read : Toml.Value → Option α) : Toml.Value → Option (List α)
  | .array _ values => values.mapM read
  | _ => none

def readRun (r : Reading) (v : Toml.Value) : Option RunOptions := do
  let s ← section? r ["max_cycles", "quiet", "step_mode", "trace_file"] v
  let d : RunOptions := {}
  return {
    maxCycles := ← s.get "max_cycles" d.maxCycles (r.number limit64)
    quiet := ← s.get "quiet" d.quiet r.flag
    stepMode := ← s.get "step_mode" d.stepMode r.flag
    traceFile := ← s.get "trace_file" d.traceFile r.text }

def readBus (r : Reading) (v : Toml.Value) : Option BusOptions := do
  let s ← section? r ["word_bytes", "read_outstanding", "input_register", "output_register"] v
  let d : BusOptions := {}
  return {
    wordBytes := ← s.get "word_bytes" d.wordBytes (r.number limit32)
    readOutstanding := ← s.get "read_outstanding" d.readOutstanding (r.number limit64)
    inputRegister := ← s.get "input_register" d.inputRegister r.flag
    outputRegister := ← s.get "output_register" d.outputRegister r.flag }

def readRegion (r : Reading) (v : Toml.Value) : Option ErrorRegion := do
  let s ← section? r ["start", "end", "resp"] v
  return {
    first := ← s.need "start" (r.number limit64)
    limit := ← s.need "end" (r.number limit64)
    resp := ← s.need "resp" r.resp }

def readMemory (r : Reading) (v : Toml.Value) : Option MemoryOptions := do
  let s ← section? r ["size_words", "read_latency", "write_latency", "init_file", "ref_file",
    "dump_file", "error_regions"] v
  let d : MemoryOptions := {}
  return {
    sizeWords := ← s.get "size_words" d.sizeWords (r.number limit64)
    readLatency := ← s.get "read_latency" d.readLatency (r.number limit32)
    writeLatency := ← s.get "write_latency" d.writeLatency (r.number limit32)
    initFile := ← s.get "init_file" d.initFile r.text
    refFile := ← s.get "ref_file" d.refFile r.text
    dumpFile := ← s.get "dump_file" d.dumpFile r.text
    errorRegions := ← s.get "error_regions" d.errorRegions (items (readRegion r)) }

def readPort (r : Reading) (v : Toml.Value) : Option PortOptions := do
  let s ← section? r ["fifo_depth", "frame_mode", "source_throttle", "sink_throttle",
    "input_file", "ref_file", "scripts"] v
  let d : PortOptions := {}
  return {
    fifoDepth := ← s.get "fifo_depth" d.fifoDepth (r.number limit64)
    frameMode := ← s.get "frame_mode" d.frameMode r.flag
    sourceThrottle := ← s.get "source_throttle" d.sourceThrottle (r.number limit32)
    sinkThrottle := ← s.get "sink_throttle" d.sinkThrottle (r.number limit32)
    inputFile := ← s.get "input_file" d.inputFile r.text
    refFile := ← s.get "ref_file" d.refFile r.text
    scripts := ← s.get "scripts" d.scripts (items r.text) }

/-- The configuration that a tree of values denotes. -/
def decode (r : Reading) (v : Toml.Value) : Option Config := do
  let s ← section? r ["simulation", "bus", "memory", "ports"] v
  let d : Config := {}
  return {
    run := ← s.get "simulation" d.run (readRun r)
    bus := ← s.get "bus" d.bus (readBus r)
    memory := ← s.get "memory" d.memory (readMemory r)
    ports := ← s.get "ports" d.ports (items (readPort r)) }

/-- The configuration in the text of a file of its own. -/
def ofText (text : String) : Attempt Config :=
  match Toml.read text with
  | .error e => .error (.badToml e.message)
  | .ok v =>
    match decode .exact v with
    | none => .error (.badToml "a setting has the wrong type or is missing")
    | some c => .ok c

end Config

end BurstDma
