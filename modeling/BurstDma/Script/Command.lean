import BurstDma.Memory.Image
import BurstDma.Problem

/-!
# Register scripts

A script programs the engines. It has one command per line:

* `WR address data` writes a register,
* `RD address data` reads a register and compares,
* `RP address data` waits until a register has a value,
* `WT line` waits for an interrupt line,
* `ST count` waits for some cycles.

Addresses and data are hexadecimal, lines and counts decimal, commands in letters of
either case.
-/

namespace BurstDma

/-- One command. -/
inductive Command where
  | write (addr data : UInt32)
  | read (addr expected : UInt32)
  | poll (addr expected : UInt32)
  | waitIrq (line : Nat)
  | stall (cycles : Nat)
deriving Repr, DecidableEq, Inhabited

/-- A script: its name, and its commands with the lines they stand on. -/
structure Script where
  name : String
  commands : List (Text.Located Command)
deriving Repr, DecidableEq

namespace Script

/-- A hexadecimal argument. -/
def readHex (token : List Char) : Except LineError UInt32 :=
  match Radix.sixteen.read limit32 (Text.withoutHexMarks token) with
  | .ok n => .ok (UInt32.ofNat n)
  | .error cause => .error (.scriptWord (String.ofList token) cause)

/-- A decimal argument. -/
def readCount (token : List Char) : Except LineError Nat :=
  match Radix.ten.read limit64 token with
  | .ok n => .ok n
  | .error cause => .error (.scriptCount (String.ofList token) cause)

/-- The only argument of a command. `op` is the command as it was written. -/
def oneArgument (op : List Char) : List (List Char) → Except LineError (List Char)
  | [a] => .ok a
  | args => .error (.argumentCount (String.ofList op) 1 args.length)

/-- The two arguments of a command. `op` is the command as it was written. -/
def twoArguments (op : List Char) :
    List (List Char) → Except LineError (List Char × List Char)
  | [a, b] => .ok (a, b)
  | args => .error (.argumentCount (String.ofList op) 2 args.length)

/-- A command over an address and data. -/
def readAccess (make : UInt32 → UInt32 → Command) (op : List Char)
    (args : List (List Char)) : Except LineError Command := do
  let (addr, data) ← twoArguments op args
  return make (← readHex addr) (← readHex data)

/-- A command over a number. -/
def readNumber (make : Nat → Command) (op : List Char) (args : List (List Char)) :
    Except LineError Command := do
  return make (← readCount (← oneArgument op args))

/-- Reads a command from the tokens of its line. The number of arguments is looked at
before the arguments. -/
def readCommand (op : List Char) (args : List (List Char)) : Except LineError Command :=
  match op.map Char.toUpper with
  | ['W', 'R'] => readAccess .write op args
  | ['R', 'D'] => readAccess .read op args
  | ['R', 'P'] => readAccess .poll op args
  | ['W', 'T'] => readNumber .waitIrq op args
  | ['S', 'T'] => readNumber .stall op args
  | other => .error (.unknownCommand (String.ofList other))

/-- Reads a line: nothing, or one command. -/
def readLine (line : List Char) : Except LineError (Option Command) :=
  match Text.tokens line with
  | [] => .ok none
  | op :: args => (readCommand op args).map some

/-- The script in a text. `name` is where the text came from. -/
def read (text name : String) : Attempt Script :=
  match Text.readLines readLine text.toList with
  | .ok commands => .ok { name, commands }
  | .error e => .error (.badLine name e)

end Script

end BurstDma
