import BurstDma.Cli.Grammar
import BurstDma.Config.Basic
import BurstDma.Loopback.Vectors
import BurstDma.Stream.Text

/-!
# Invocations

The program has three commands: `run` runs a configuration, `plan` shows the bursts of
one transfer, and `gen` writes the files of a self-check. `Invocation.ofWords` turns a
command line into what it asks for.
-/

namespace BurstDma.Cli

/-- What the program is asked to do. -/
inductive Request where
  | run (config : Option String) (overrides : Overrides)
  | plan (start words maxBurst wordBytes : Nat)
  | generate (size : Loopback) (dir : String)
deriving Repr, DecidableEq, Inhabited

/-- A request, and whether only warnings and errors are wanted. -/
structure Invocation where
  quiet : Bool
  request : Request
deriving Repr, DecidableEq, Inhabited

/-! ## Values -/

/-- A number of 32 bits. It may have a sign as long as it is not below zero. -/
def readWord32 (s : String) : Option Nat :=
  match s.toList with
  | '-' :: digits => do
    let c ← digits.head?
    if c.isDigit then (Radix.ten.read limit32 digits).toOption.filter (· == 0) else none
  | digits => (Radix.ten.read limit32 digits).toOption

/-- A number of 64 bits. -/
def readWord64 (s : String) : Option Nat :=
  (Radix.ten.read limit64 s.toList).toOption

/-- An address, decimal or hexadecimal. -/
def readAddress (s : String) : Option Nat :=
  (StreamText.readWord s.toList).toOption

/-- An option with a number. -/
def numberOption (long : String) (short : Option Char) (read : String → Option Nat) : Opt where
  long := long
  short := short
  action := .value fun s => (read s).isSome

/-- An option with a path, which is not empty. -/
def pathOption (long : String) (short : Char) : Opt where
  long := long
  short := some short
  action := .value fun s => !s.isEmpty

/-- The options of every line. -/
def commonOptions : List Opt :=
  [{ long := "quiet", short := some 'q' }, { long := "help", short := some 'h', action := .help }]

/-! ## Grammars -/

/-- The line up to the command. -/
def programGrammar : Grammar where
  options := { long := "version", short := some 'V', action := .version } :: commonOptions
  hasCommands := true

def runGrammar : Grammar where
  options :=
    [pathOption "config" 'c',
     { long := "step", short := some 's' },
     { long := "trace-file", action := .value fun _ => true },
     numberOption "max-cycles" none readWord64] ++ commonOptions

def planGrammar : Grammar where
  options :=
    [numberOption "burst" (some 'b') readWord32,
     numberOption "word-bytes" (some 'w') readWord32] ++ commonOptions
  positionals :=
    [⟨"<ADDRESS>", fun s => (readAddress s).isSome⟩, ⟨"<LENGTH>", fun s => (readWord32 s).isSome⟩]

def genGrammar : Grammar where
  options :=
    [pathOption "out" 'o',
     numberOption "ports" none readWord64,
     numberOption "frames" none readWord64,
     numberOption "words" none readWord64,
     { long := "frame-mode" }] ++ commonOptions

/-! ## Requests -/

/-- The number that an option has, or else its default. -/
def numberOf (g : Given) (long : String) (read : String → Option Nat) (default : Nat) : Nat :=
  ((g.value? long).bind read).getD default

def runRequest (quiet : Bool) (g : Given) : Request :=
  .run (g.value? "config") {
    quiet
    stepMode := g.has "step"
    traceFile := g.value? "trace-file"
    maxCycles := (g.value? "max-cycles").bind readWord64 }

def planRequest (g : Given) : Except Ending Request :=
  match g.positionals.map readAddress, g.positionals.map readWord32 with
  | [some start, _], [_, some words] =>
    .ok (.plan start words (numberOf g "burst" readWord32 maxBurstWords)
      (numberOf g "word-bytes" readWord32 8))
  | _, _ => .error (.misuse "the required arguments <ADDRESS> and <LENGTH> were not provided")

def genRequest (g : Given) : Request :=
  let size : Loopback := {}
  .generate {
    ports := numberOf g "ports" readWord64 size.ports
    frames := numberOf g "frames" readWord64 size.frames
    words := numberOf g "words" readWord64 size.words
    frameMode := g.has "frame-mode" } ((g.value? "out").getD "loopback")

/-- The names of the commands. -/
def commandNames : List String :=
  ["run", "plan", "gen", "help"]

/-- How a request for the help of a command ends. -/
def helpEnding : List String → Ending
  | [] => .help
  | [name] =>
    if commandNames.contains name then .help
    else .misuse s!"unrecognized subcommand '{name}'"
  | _ :: name :: _ => .misuse s!"unrecognized subcommand '{name}'"

/-- Reads the words behind a command. -/
def readCommand (grammar : Grammar) (outerQuiet : Bool) (words : List String)
    (request : Bool → Given → Except Ending Request) : Except Ending Invocation := do
  let (g, _) ← grammar.read words
  let quiet := outerQuiet || g.has "quiet"
  return { quiet, request := ← request quiet g }

/-- What a command line asks for. -/
def Invocation.ofWords (words : List String) : Except Ending Invocation := do
  let (outer, rest) ← programGrammar.read words
  let quiet := outer.has "quiet"
  match rest with
  | [] => .error (.misuse "'axidma' requires a subcommand but one was not provided")
  | "run" :: rest => readCommand runGrammar quiet rest fun quiet g => .ok (runRequest quiet g)
  | "plan" :: rest => readCommand planGrammar quiet rest fun _ g => planRequest g
  | "gen" :: rest => readCommand genGrammar quiet rest fun _ g => .ok (genRequest g)
  | "help" :: rest => .error (helpEnding rest)
  | name :: _ => .error (.misuse s!"unrecognized subcommand '{name}'")

end BurstDma.Cli
