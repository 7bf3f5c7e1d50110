import BurstDma.Text.Blank
import BurstDma.Text.Numeral
import BurstDma.Fault

/-!
# Commands of step mode

An empty line makes one step, `si N` makes `N`, `c` runs on to the end and `q` stops.
-/

namespace BurstDma

/-- What the user of step mode can ask for. -/
inductive StepCommand where
  /-- At least one cycle. -/
  | step (cycles : Nat)
  | quit
  | continue_
deriving Repr, DecidableEq, Inhabited

/-- Why a line is no command. -/
inductive StepCommandError where
  | numberMissing
  | zeroSteps
  | badNumber (text : String) (cause : NumeralError)
  | unknown (text : String)
deriving Repr, DecidableEq, Inhabited

/-- The wording of a refused command. -/
def StepCommandError.message : StepCommandError → String
  | .numberMissing => "'si' requires a number, e.g., 'si 100'"
  | .zeroSteps => "step count must be greater than 0"
  | .badNumber text cause => s!"invalid number '{text}': {cause.message}"
  | .unknown text =>
    s!"Unknown command: '{text}'. Use Enter to step, 'q' to quit, 'c' to continue, or 'si 100' to step N cycles"

namespace StepCommand

/-- The command behind `si`. -/
def readCount (text : List Char) : Except StepCommandError StepCommand :=
  if text.isEmpty then .error .numberMissing
  else
    match Radix.ten.read limit32 text with
    | .error cause => .error (.badNumber (String.ofList text) cause)
    | .ok 0 => .error .zeroSteps
    | .ok n => .ok (.step n)

/-- The command on a line. -/
def read (line : String) : Except StepCommandError StepCommand :=
  match Text.trim line.toList with
  | [] => .ok (.step 1)
  | 's' :: 'i' :: rest => readCount (Text.trim rest)
  | ['q'] => .ok .quit
  | ['c'] => .ok .continue_
  | other => .error (.unknown (String.ofList other))

end StepCommand

end BurstDma
