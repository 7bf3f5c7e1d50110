import BurstDma.Fault
import BurstDma.Text.Line
import BurstDma.Text.Numeral
import BurstDma.Text.Quoted

/-!
# Problems

What the user can get wrong: a file that is not there, a text that does not parse, a
system that cannot be built. A problem is a cause with its particulars; the wording is
in the `message` functions. Problems and faults are different things: after a problem
the work can go on with what was there before, after a fault nothing is left to go on
with. `Stop` is either.
-/

namespace BurstDma

/-- Why a file could not be used. -/
inductive FileError where
  | missing
  /-- A file that was promised is not there. -/
  | notFound
  | exists
  | notDirectory
  | isDirectory
  | notText
  /-- Any other reason, in the words of the system. -/
  | other (text : String)
deriving Repr, DecidableEq, Inhabited

/-- The wording of a file error. -/
def FileError.message : FileError → String
  | .missing => "No such file or directory (os error 2)"
  | .notFound => "entity not found"
  | .exists => "File exists (os error 17)"
  | .notDirectory => "Not a directory (os error 20)"
  | .isDirectory => "Is a directory (os error 21)"
  | .notText => "stream did not contain valid UTF-8"
  | .other text => text

/-- Why a line of a text was refused. -/
inductive LineError where
  /-- An image line is no word. -/
  | imageWord (text : String) (cause : NumeralError)
  /-- A stream line starts with something other than a word. -/
  | streamWord (token : String) (cause : NumeralError)
  /-- A stream line goes on with something other than the end-of-frame tag. -/
  | unexpected (token : String)
  | scriptWord (token : String) (cause : NumeralError)
  | scriptCount (token : String) (cause : NumeralError)
  | argumentCount (command : String) (wanted got : Nat)
  | unknownCommand (command : String)
deriving Repr, DecidableEq, Inhabited

/-- The wording of a refused line. -/
def LineError.message : LineError → String
  | .imageWord text cause => s!"bad hex word '{text}': {cause.message}"
  | .streamWord token cause => s!"bad word '{token}': {cause.message}"
  | .unexpected token => s!"unexpected token '{token}'"
  | .scriptWord token cause => s!"bad hex value '{token}': {cause.message}"
  | .scriptCount token cause => s!"bad count '{token}': {cause.message}"
  | .argumentCount command wanted got => s!"{command} takes {wanted} argument(s), got {got}"
  | .unknownCommand command => s!"unknown command '{command}'"

/-- Why a system, a configuration or a request was refused. -/
inductive Refusal where
  | portCount (n : Nat)
  | noReadOutstanding
  | zeroDepthFifo (port : Nat)
  | imageOverflow (words base size : Nat)
  | geometryWordBytes (n : Nat)
  | configWordBytes (n : Nat)
  | configReadOutstanding
  | configSizeWords
  | configNoPorts
  | configEmptyRegion (first limit : Nat)
  | configFifoDepth (port : Nat)
  | layoutTooLarge (ports frames words : Nat)
  | planWordBytes (n : Nat)
deriving Repr, DecidableEq, Inhabited

/-- The wording of a refusal. -/
def Refusal.message : Refusal → String
  | .portCount n => s!"port count {n} not in 1..=32"
  | .noReadOutstanding => "read_outstanding must be at least 1"
  | .zeroDepthFifo port => s!"port {port} has a zero-depth FIFO"
  | .imageOverflow words base size =>
    s!"image of {words} words at {base} overflows memory of {size} words"
  | .geometryWordBytes n => s!"word_bytes {n} is not 1, 2, 4 or 8"
  | .configWordBytes n => s!"word_bytes must be 1, 2, 4 or 8, got {n}"
  | .configReadOutstanding => "read_outstanding cannot be 0"
  | .configSizeWords => "memory size_words cannot be 0"
  | .configNoPorts => "at least one [[ports]] entry is required"
  | .configEmptyRegion first limit =>
    s!"error region {Numeral.hex 1 first}..{Numeral.hex 1 limit} is empty"
  | .configFifoDepth port => s!"port {port} fifo_depth cannot be 0"
  | .layoutTooLarge ports frames words =>
    s!"{ports} port(s) x {frames} frame(s) x {words} words do not fit a 32-bit address space"
  | .planWordBytes n => s!"bad word size {n}"

/-- What the user can mend. -/
inductive Problem where
  | file (path : String) (cause : FileError)
  | refused (why : Refusal)
  | badLine (source : String) (found : Text.Located LineError)
  /-- A configuration file is no valid TOML, or its values do not fit. -/
  | badToml (detail : String)
  /-- The layers of a configuration do not fit together. -/
  | badLayers (detail : String)
deriving Repr, DecidableEq, Inhabited

/-- The wording of a problem. -/
def Problem.message : Problem → String
  | .file path cause => s!"io error on {Text.quoted path}: {cause.message}"
  | .refused why => s!"invalid config: {why.message}"
  | .badLine source found => s!"{source}:{found.line}: {found.item.message}"
  | .badToml detail => s!"failed to parse TOML config: {detail}"
  | .badLayers detail => s!"config layering failed: {detail}"

/-- Why a piece of work ended early. -/
inductive Stop where
  | fault (f : Fault)
  | problem (p : Problem)
deriving Repr, DecidableEq, Inhabited

/-- A computation that may be refused. -/
abbrev Attempt := Except Problem

end BurstDma
