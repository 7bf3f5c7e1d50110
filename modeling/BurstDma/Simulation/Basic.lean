import BurstDma.Simulation.Console
import BurstDma.Simulation.Report

/-!
# Simulations

A simulation is a machine, the scripts played against it and the references that it is
held to. In each cycle every script takes a step and then the machine ticks. It is
*finished* when all scripts are done and nothing moves any more.

It can run on by itself up to a bound, or step by step under commands. Both modes tick
only while the simulation is not finished.
-/

namespace BurstDma

/-- A machine with its scripts and references. -/
structure Simulation where
  machine : Machine
  players : List Player := []
  /-- Whether the handshakes of every cycle go into the transcript. -/
  traced : Bool := false
  /-- What every port's sink should see, where it matters. -/
  streamRefs : List (Option (List Beat)) := []
  /-- What the first words of the memory should be, if it matters. -/
  memoryRef : Option (List Word) := none
  /-- The bound on the cycles of a run. -/
  maxCycles : Nat
deriving Repr, DecidableEq

namespace Simulation

/-- A simulation without references. -/
def ofMachine (s : Machine) (players : List Player) (maxCycles : Nat) : Simulation where
  machine := s
  players := players
  streamRefs := s.ports.map fun _ => none
  maxCycles := maxCycles

/-- Says what a port's sink should see. -/
def setStreamRef (sim : Simulation) (port : Nat) (beats : List Beat) :
    Except Fault Simulation :=
  if port < sim.streamRefs.length then
    .ok { sim with streamRefs := sim.streamRefs.set port (some beats) }
  else .error .index

/-- Whether all scripts are done and nothing moves. -/
def finished (sim : Simulation) : Bool :=
  sim.players.all (·.isDone) && sim.machine.isQuiescent

/-- Passes the records of the last cycle on to the transcript. -/
def handOver (sim : Simulation) : Run Simulation :=
  if sim.traced then
    let (records, machine) := sim.machine.takeEvents
    ⟨records.map .traced, .ok { sim with machine }⟩
  else pure sim

/-- One cycle. -/
def step (sim : Simulation) : Run Simulation := do
  let (players, machine) ← Player.stepAll sim.players sim.machine
  let machine ← machine.tick
  { sim with players, machine }.handOver

/-- Whether the simulation may go on by itself. -/
def goesOn (sim : Simulation) : Bool :=
  !sim.finished && decide (sim.machine.cycle < sim.maxCycles)

/-- Runs on until the simulation is finished or the bound is reached. A cycle more is
counted in each step, so the bound is reached after as many steps as it is away. -/
def runOn (sim : Simulation) : Run Simulation := do
  Run.note (.runStarted sim.maxCycles)
  Run.stepWhile goesOn step (sim.maxCycles - sim.machine.cycle) sim

/-! ## Step mode -/

/-- The line that tells a port's state. -/
def portStatus (p : Port) : String :=
  s!"[port{p.index}] rd {p.reader.core.phase.label} pending={p.reader.core.pending.words} fifo={p.readFifo.level} | wr {p.writer.core.phase.label} pending={p.writer.core.pending.words} fifo={p.writeFifo.level}"

/-- The lines that tell the state of the machine. -/
def statusLines (sim : Simulation) : List String :=
  sim.machine.ports.map portStatus
    ++ [s!"[arb] rd sel={sim.machine.readArbiter.selected} outstanding={sim.machine.readArbiter.outstanding} | wr {sim.machine.writeArbiter.lock.label}"]

/-- Prints a line. -/
def printLine (line : String) : Run Unit :=
  Run.say (.printed (line ++ "\n"))

/-- The greeting of step mode. -/
def banner : String :=
  "Step mode - Enter to step, 'si N' to step N cycles, 'c' to continue, 'q' to quit"

/-- Obeys the lines typed, until the simulation is finished, the user leaves or there
are no more lines. -/
def obey : List String → Simulation → Run Simulation
  | [], sim => pure sim
  | line :: rest, sim =>
    match StepCommand.read line with
    | .error e => do
      Run.say (.complained s!"Error: {e.message}\n")
      obey rest sim
    | .ok .quit => pure sim
    | .ok .continue_ => sim.runOn
    | .ok (.step n) => do
      let sim ← Run.stepWhile (!·.finished) step n sim
      sim.statusLines.forM printLine
      if sim.finished then
        printLine s!"all scripts done and system idle at cycle {sim.machine.cycle}"
        return sim
      else obey rest sim

/-- Runs in step mode. -/
def runSteps (lines : List String) (sim : Simulation) : Run Simulation := do
  printLine banner
  obey lines sim

/-! ## The summary -/

/-- Whether a port's sink saw what it should; a difference is told. -/
def sinkVerdict (p : Port) : Option (List Beat) → Run (Option Bool)
  | none => pure none
  | some expected => do
    let same := decide (expected = p.sink.received)
    Run.noteIf (!same) (.sinkDiffers p.index p.sink.count expected.length)
    return some same

/-- The first index at which two lists differ, with the two elements. -/
def firstDifference {α : Type} [BEq α] : Nat → List α → List α → Option (Nat × α × α)
  | n, a :: as, b :: bs => if a == b then firstDifference (n + 1) as bs else some (n, a, b)
  | _, _, _ => none

/-- Whether the memory holds what it should; the first difference is told. -/
def memoryVerdict (s : Store) : Option (List Word) → Run (Option Bool)
  | none => pure none
  | some expected =>
    match firstDifference 0 expected s.words.toList with
    | some (i, wanted, got) => do
      Run.note (.memoryDiffers i got wanted)
      return some false
    | none => pure (some (decide (expected.length ≤ s.size)))

/-- The summary of a port. -/
def portReport (sim : Simulation) (p : Port) : Run PortReport := do
  let sinkMatch ← sinkVerdict p (sim.streamRefs[p.index]?.join)
  return {
    port := p.index
    reader := p.reader.stats
    writer := p.writer.stats
    readError := p.reader.core.error
    writeError := p.writer.core.error
    readGrants := (sim.machine.readArbiter.grants[p.index]?).getD 0
    writeGrants := (sim.machine.writeArbiter.grants[p.index]?).getD 0
    droppedDescriptors := p.readRegs.dropped + p.writeRegs.dropped
    sinkWords := p.sink.count
    sinkMatch }

/-- The summary of the run so far. -/
def report (sim : Simulation) : Run Report := do
  let ports ← sim.machine.ports.mapM sim.portReport
  let memoryMatch ← memoryVerdict sim.machine.memory.store sim.memoryRef
  return {
    cycles := sim.machine.cycle
    timedOut := !sim.finished
    ports
    memory := sim.machine.memory.stats
    memoryMatch
    mismatches := sim.players.flatMap (·.mismatches) }

end Simulation

end BurstDma
