import BurstDma.Script.Command
import BurstDma.Machine.Basic

/-!
# Playing a script

A player works through a script, one step per clock cycle. A command is finished in
the step in which it has done what it says; until then the player stays on it. Players
of several scripts take their steps in turn and see what the others just wrote.
-/

namespace BurstDma

/-- A register read that did not return what the script expected. -/
structure Mismatch where
  script : String
  line : Nat
  cycle : Nat
  addr : UInt32
  expected : UInt32
  got : UInt32
deriving Repr, DecidableEq, Inhabited

/-- A script being played. -/
structure Player where
  name : String
  /-- The commands not finished yet. -/
  todo : List (Text.Located Command)
  /-- The steps still to wait, once a stall has begun. -/
  stallLeft : Option Nat := none
  /-- The mismatches so far, newest first. -/
  newestMismatches : List Mismatch := []
deriving Repr, DecidableEq

namespace Player

/-- A player at the beginning of a script. -/
def ofScript (s : Script) : Player where
  name := s.name
  todo := s.commands

def isDone (p : Player) : Bool :=
  p.todo.isEmpty

/-- The line of the command being played. -/
def currentLine (p : Player) : Option Nat :=
  p.todo.head?.map (·.line)

/-- The mismatches so far, in order. -/
def mismatches (p : Player) : List Mismatch :=
  p.newestMismatches.reverse

/-- The player on the next command. -/
def advance (p : Player) : Player :=
  { p with todo := p.todo.tail }

/-- Takes note of a read that returned something else than it should. -/
def compare (p : Player) (line cycle : Nat) (addr expected got : UInt32) : Run Player :=
  if got = expected then pure p
  else do
    Run.note (.readDiffers p.name line addr.toNat expected.toNat got.toNat)
    return { p with
      newestMismatches := ⟨p.name, line, cycle, addr, expected, got⟩ :: p.newestMismatches }

/-- One step of a stall: the last of them finishes it. -/
def stall (p : Player) (cycles : Nat) : Player :=
  match p.stallLeft.getD cycles with
  | 0 => { p with stallLeft := none }.advance
  | left + 1 => { p with stallLeft := some left }

/-- Plays one step. -/
def step (p : Player) (s : Machine) : Run (Player × Machine) :=
  match p.todo with
  | [] => pure (p, s)
  | ⟨line, command⟩ :: _ =>
    match command with
    | .write addr data => do
      return (p.advance, ← s.writeRegister addr data)
    | .read addr expected => do
      let got ← s.readRegister addr
      return ((← p.compare line s.cycle addr expected got).advance, s)
    | .poll addr expected => do
      let got ← s.readRegister addr
      return (if got = expected then p.advance else p, s)
    | .waitIrq irq => pure (if s.irq irq then p.advance else p, s)
    | .stall cycles => pure (p.stall cycles, s)

/-- Plays one step of every script, in order. -/
def stepAll : List Player → Machine → Run (List Player × Machine)
  | [], s => pure ([], s)
  | p :: rest, s => do
    let (p, s) ← p.step s
    let (rest, s) ← stepAll rest s
    return (p :: rest, s)

/-- `n` cycles in each of which every script takes a step and then the machine ticks;
with the lines that the scripts are on after each cycle. -/
def playCycles (n : Nat) (players : List Player) (s : Machine) :
    Run (List (List (Option Nat)) × List Player × Machine) := do
  let (lines, players, s) ← Run.stepTimes (fun (lines, players, s) => do
    let (players, s) ← stepAll players s
    let s ← s.tick
    return (players.map (·.currentLine) :: lines, players, s)) n
    (([], players, s) : List (List (Option Nat)) × List Player × Machine)
  return (lines.reverse, players, s)

end Player

end BurstDma
