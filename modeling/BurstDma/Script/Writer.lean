import BurstDma.Script.Command

/-!
# Writing scripts

The text of a script: one command per line, addresses and data with eight digits, and a
remark behind `#` where there is something to say.
-/

namespace BurstDma.Script

/-- A line of a script: a command, a remark or both. -/
structure Line where
  command : Option Command := none
  remark : String := ""
deriving Repr, DecidableEq, Inhabited

/-- The text of a command. -/
def commandText : Command → String
  | .write addr data => s!"WR {Numeral.hexDigits 8 addr.toNat} {Numeral.hexDigits 8 data.toNat}"
  | .read addr expected =>
    s!"RD {Numeral.hexDigits 8 addr.toNat} {Numeral.hexDigits 8 expected.toNat}"
  | .poll addr expected =>
    s!"RP {Numeral.hexDigits 8 addr.toNat} {Numeral.hexDigits 8 expected.toNat}"
  | .waitIrq line => "WT " ++ Numeral.decimal line
  | .stall cycles => "ST " ++ Numeral.decimal cycles

/-- The text of a line with its end. A remark behind a command stands two blanks apart. -/
def lineText (l : Line) : String :=
  match l.command with
  | none => "# " ++ l.remark ++ "\n"
  | some c =>
    if l.remark.isEmpty then commandText c ++ "\n"
    else commandText c ++ "  # " ++ l.remark ++ "\n"

/-- The text of a script. -/
def write (lines : List Line) : String :=
  String.join (lines.map lineText)

end BurstDma.Script
