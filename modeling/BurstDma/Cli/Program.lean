import BurstDma.Cli.Invocation
import BurstDma.Cli.Screen
import BurstDma.Config.Load
import BurstDma.Loopback.Files
import BurstDma.Simulation.Session

/-!
# The program

What the program does with a command line, in whatever workplace. It ends with 0 if all
went well, 1 if a run did not pass, 2 if something has to be mended first, and 101 if
the machine stopped at a fault.
-/

namespace BurstDma.Cli

/-- The version of the program. -/
def versionText : String := "axidma 0.1.0\n"

/-- How the program is used. -/
def helpText : String :=
  "Cycle-level AXI3 burst DMA simulator

Usage: axidma [OPTIONS] <COMMAND>

Commands:
  run   Run a simulation described by a TOML config
          -c, --config <FILE>  -s, --step  --trace-file <FILE>  --max-cycles <N>
  plan  Print the burst decomposition of one descriptor
          <ADDRESS> <LENGTH>  -b, --burst <BURST>  -w, --word-bytes <WORD_BYTES>
  gen   Generate loopback vectors, scripts and a config
          -o, --out <OUT>  --ports <N>  --frames <N>  --words <N>  --frame-mode
  help  Print this message

Options:
  -q, --quiet    Quiet mode (warnings and errors only)
  -h, --help     Print help
  -V, --version  Print version
"

/-- The variable that can name a filter. -/
def filterVariable : String := "RUST_LOG"

/-- The filter of an invocation, and the parts of its text that make no sense. -/
def filterOf (quiet : Bool) (environ : List (String × String)) : Filter × List (List Char) :=
  match environ.lookup filterVariable with
  | some text => Filter.read text
  | none => (Filter.ofLevel (if quiet then .warn else .info), [])

/-- The screen for a command line. -/
def screenOf (words : List String) (environ : List (String × String)) : Screen where
  filter :=
    match Invocation.ofWords words with
    | .ok i => (filterOf i.quiet environ).1
    | .error _ => Filter.ofLevel .error

/-- The line of a burst. -/
def planLine (index : Nat) (b : Burst) : String :=
  Numeral.rightAligned 4 (Numeral.decimal index) ++ "  addr=" ++ Numeral.hex 8 b.addr
    ++ "  len=" ++ Numeral.rightAligned 2 (Numeral.decimal b.words) ++ "\n"

section

variable {m : Type → Type} [Monad m] [Workplace m]

/-- Runs a configuration. The answer is whether the run passed. -/
def runConfig (path : Option String) (o : Overrides) : Task m Bool := do
  let config ← Config.loadMerged path o
  if config.run.quiet then Task.tell [.hushed]
  let (report, _) ← (← Session.ofConfig config).run
  Task.tell [.printed report.text]
  return report.passed

/-- Shows the bursts of a transfer; those before a fault are shown too. -/
def showPlan (start words maxBurst wordBytes : Nat) : Task m Unit := do
  match Geometry.ofWordBytes? wordBytes with
  | none => Task.refuse (.refused (.planWordBytes wordBytes))
  | some geometry =>
    let (bursts, fault) := ((Descriptor.clamped start words maxBurst).plan geometry).bursts
    Task.tell (bursts.zipIdx.map fun (b, i) => .printed (planLine i b))
    match fault with
    | some fault => throw (.fault fault)
    | none => pure ()

/-- Does what is asked for. The answer is whether all went well. -/
def carryOut : Request → Task m Bool
  | .run config overrides => runConfig config overrides
  | .plan start words maxBurst wordBytes => do
    showPlan start words maxBurst wordBytes
    return true
  | .generate size dir => do
    let path ← size.writeFiles dir
    Task.tell [.printed s!"config written to {path}\n"]
    return true

/-- How the program ends after its work. -/
def exitCode : Except Stop Bool → Nat
  | .ok true => 0
  | .ok false => 1
  | .error (.problem _) => 2
  | .error (.fault _) => 101

/-- The whole program. The answer is its exit code. -/
def execute (words : List String) : m Nat := do
  match Invocation.ofWords words with
  | .error .help =>
    Workplace.tell [.printed helpText]
    return 0
  | .error .version =>
    Workplace.tell [.printed versionText]
    return 0
  | .error (.misuse text) =>
    Workplace.tell [.complained s!"error: {text}\n"]
    return 2
  | .ok i =>
    let complaints := (filterOf i.quiet (← Workplace.environment)).2
    Workplace.tell (complaints.map fun part => .complained (Filter.complaint part))
    let result ← (carryOut i.request).run
    if let .error (.problem p) := result then Workplace.tell [.notice (.gaveUp p.message)]
    return exitCode result

end

end BurstDma.Cli
