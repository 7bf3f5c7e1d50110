import BurstDma.Engine.Reader
import BurstDma.Engine.Writer
import BurstDma.Stream.Endpoint
import BurstDma.Transfer.Register

/-!
# Ports

A port has a read engine that feeds a sink and a write engine that is fed by a source,
with a buffer and a register file each:

    memory → read engine → read buffer → sink
    source → write buffer → write engine → memory

In a clock edge the engines move first, then the ends of the streams. A beat can
therefore pass through a buffer in the cycle in which it entered it, but only towards
the sink.
-/

namespace BurstDma

/-- The options of a port. -/
structure PortParams where
  /-- The capacity of either buffer. -/
  fifoDepth : Nat := 32
  /-- Whether the stream says where a written transfer ends. -/
  frameMode : Bool := false
  sourceThrottle : Nat := 0
  sinkThrottle : Nat := 0
deriving Repr, DecidableEq, Inhabited

/-- The state of a port. -/
structure Port where
  index : Nat
  reader : ReadEngine
  writer : WriteEngine
  readFifo : Fifo
  writeFifo : Fifo
  readRegs : RegisterFile := {}
  writeRegs : RegisterFile := {}
  source : Source
  sink : Sink
deriving Repr, DecidableEq, Inhabited

namespace Port

/-- A port at rest. -/
def ofParams (g : Geometry) (index : Nat) (p : PortParams) : Port where
  index := index
  reader := { name := s!"port{index}.rd", geometry := g }
  writer := { name := s!"port{index}.wr", geometry := g, core := { frameMode := p.frameMode } }
  readFifo := { capacity := p.fifoDepth, frameLatch := false }
  writeFifo := { capacity := p.fifoDepth, frameLatch := p.frameMode }
  source := { throttle := p.sourceThrottle }
  sink := { throttle := p.sinkThrottle }

/-- What the reader's registers show of it. -/
def readStatus (p : Port) : Except Fault EngineStatus := do
  let remaining ← p.reader.core.remainingWords
  return { remaining, error := p.reader.core.error, fifoLevel := p.readFifo.level }

/-- What the writer's registers show of it. -/
def writeStatus (p : Port) : Except Fault EngineStatus := do
  let remaining ← p.writer.core.remainingWords
  return { remaining, error := p.writer.core.error, fifoLevel := p.writeFifo.level }

/-- Whether nothing is left to do here, apart from what the source still queues. -/
def isQuiescent (p : Port) : Bool :=
  p.reader.isIdle && p.writer.isIdle && p.readRegs.holding.isNone && p.writeRegs.holding.isNone
    && p.readFifo.isEmpty && p.writeFifo.isEmpty

/-- What the write engine drives. -/
def writeOutputs (p : Port) : WriteOutputs :=
  p.writer.core.outputs p.writeFifo.head?

/-- The read wires it drives. -/
def readWires (p : Port) : ReadMaster where
  ar := p.reader.core.outputs.ar
  rReady := p.reader.core.outputs.rReady

/-- The write wires it drives. -/
def writeWires (p : Port) : WriteMaster where
  aw := p.writeOutputs.aw
  w := p.writeOutputs.w
  bReady := p.writeOutputs.bReady

/-- What the read engine sees at a clock edge. -/
def readInputs (p : Port) (bus : ReadBus) : ReadInputs where
  desc := if p.reader.core.outputs.descReady then p.readRegs.holding else none
  fifoFree := p.readFifo.free
  arFires := bus.arFired.isSome
  beat := bus.rFired
  clearError := p.readRegs.clearError

/-- What the write engine sees at a clock edge. -/
def writeInputs (p : Port) (bus : WriteBus) : WriteInputs where
  desc := if p.writeOutputs.descReady then p.writeRegs.holding else none
  fifoLevel := p.writeFifo.level
  frameHeld := p.writeFifo.frameHeld
  awFires := bus.awFired.isSome
  wFires := bus.wFired.isSome
  b := bus.bFired
  clearError := p.writeRegs.clearError

/-- The registers after a clock edge of their engine. -/
def nextRegs (f : RegisterFile) (done taken : Bool) : RegisterFile :=
  let f := f.cleared
  let f := if done then f.raiseIrq else f
  if taken then f.consume else f

/-- The reader's share of a clock edge. -/
def tickReader (p : Port) (bus : ReadBus) : Run Port := do
  let (reader, step) ← p.reader.tick (p.readInputs bus)
  let readRegs := nextRegs p.readRegs p.reader.core.outputs.done step.taken
  match step.push with
  | none => return { p with reader, readRegs }
  | some beat =>
    match p.readFifo.push? beat with
    | some readFifo => return { p with reader, readRegs, readFifo }
    | none =>
      Run.note (.beatLost p.index beat.data)
      return { p with reader, readRegs }

/-- The writer's share of a clock edge. -/
def tickWriter (p : Port) (bus : WriteBus) : Run Port := do
  let (writer, step) ← p.writer.tick (p.writeInputs bus)
  let writeRegs := nextRegs p.writeRegs p.writeOutputs.done step.taken
  let writeFifo ←
    (if step.pop then p.writeFifo.pop.map (·.2) else .ok p.writeFifo : Except Fault Fifo)
  return { p with writer, writeRegs, writeFifo }

/-- The streams' share of a clock edge. -/
def tickStreams (p : Port) : Except Fault Port := do
  let (_, source, writeFifo) := p.source.tick p.writeFifo
  let (_, sink, readFifo) ← p.sink.tick p.readFifo
  return { p with source, writeFifo, sink, readFifo }

/-- One clock edge. -/
def tick (p : Port) (reads : ReadBus) (writes : WriteBus) : Run Port := do
  let p ← p.tickReader reads
  let p ← p.tickWriter writes
  p.tickStreams

/-- The port at rest, its streams and buffers empty; its counts stay. -/
def reset (p : Port) : Port :=
  { p with
    reader := p.reader.reset
    writer := p.writer.reset
    readFifo := p.readFifo.clear
    writeFifo := p.writeFifo.clear
    readRegs := {}
    writeRegs := {}
    source := p.source.clear
    sink := p.sink.clear }

end Port

end BurstDma
