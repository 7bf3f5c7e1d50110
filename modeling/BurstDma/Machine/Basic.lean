import BurstDma.Arbiter.Read
import BurstDma.Arbiter.Write
import BurstDma.Memory.Responder
import BurstDma.Machine.Port

/-!
# The machine

Ports that share one memory through a read and a write arbiter. **A tick is one clock
cycle**: everyone drives its wires from its state, the arbiters settle all handshakes,
and then everyone moves on. Nothing else in the machine ever moves by itself, so what it
does is a function of its state and of the register accesses between the ticks.
-/

namespace BurstDma

/-- What a machine is made from. -/
structure MachineParams where
  geometry : Geometry := {}
  ports : List PortParams := []
  memory : MemoryParams := {}
  inputRegister : Bool := false
  outputRegister : Bool := false
deriving Repr, DecidableEq, Inhabited

/-- Whether the buffers of a machine can be counted in bytes: a beat takes sixteen of them, the
number of a requester and a word of the memory take eight. -/
def MachineParams.Reservable (p : MachineParams) : Prop :=
  (∀ port ∈ p.ports, port.fifoDepth * 16 < limitBytes)
    ∧ p.memory.readOutstanding * 8 < limitBytes ∧ p.memory.sizeWords * 8 < limitBytes

instance (p : MachineParams) : Decidable p.Reservable :=
  inferInstanceAs (Decidable (_ ∧ _ ∧ _))

/-- The state of a machine. -/
structure Machine where
  cycle : Nat := 0
  ports : List Port
  readArbiter : ReadArbiter
  writeArbiter : WriteArbiter
  memory : Memory
  /-- Whether handshakes are recorded. -/
  capture : Bool := false
  /-- The records not yet taken, newest first. -/
  newestEvents : List TraceRecord := []
deriving Repr, DecidableEq, Inhabited

/-- The wires of one cycle. -/
structure MachineWires where
  reads : ReadWires
  writes : WriteWires
deriving Repr, DecidableEq, Inhabited

namespace Machine

/-- Why parameters are no machine, if they are none. -/
def refusal? (p : MachineParams) : Option Refusal :=
  if p.ports.isEmpty || decide (maxRequesters < p.ports.length) then
    some (.portCount p.ports.length)
  else if p.memory.readOutstanding = 0 then some .noReadOutstanding
  else (p.ports.findIdx? (·.fifoDepth == 0)).map .zeroDepthFifo

/-- A machine at rest with a memory of zeros. -/
def ofParams (p : MachineParams) : Except Stop Machine :=
  match refusal? p with
  | some why => .error (.problem (.refused why))
  | none =>
    if ¬ p.Reservable then .error (.fault (.violation .capacityOverflow))
    else
      let arbiters : Except Fault (ReadArbiter × WriteArbiter) := do
        let reads ← ReadArbiter.ofParams {
          requesters := p.ports.length
          maxOutstanding := p.memory.readOutstanding
          inputRegister := p.inputRegister
          outputRegister := p.outputRegister }
        return (reads, ← WriteArbiter.ofRequesters p.ports.length)
      match arbiters with
      | .error fault => .error (.fault fault)
      | .ok (readArbiter, writeArbiter) => .ok {
          ports := p.ports.zipIdx.map fun (port, i) => Port.ofParams p.geometry i port
          readArbiter
          writeArbiter
          memory := Memory.ofParams p.memory p.geometry }

/-! ## Registers and interrupts -/

/-- The port, the side and the register index that a register address means. -/
def decode (s : Machine) (addr : UInt32) : Run (Option (Port × Side × Nat)) :=
  match s.ports[((addr >>> 16) &&& 0xff).toNat]? with
  | none => do
    Run.note (.noSuchPort addr.toNat)
    return none
  | some port =>
    let side := if addr &&& Register.readerSelect = 0 then Side.writer else Side.reader
    pure (some (port, side, Register.indexOfOffset addr))

/-- The machine with the port at its index replaced. -/
def setPort (s : Machine) (p : Port) : Machine :=
  { s with ports := s.ports.set p.index p }

/-- Writes a register. An address without a port is told and otherwise ignored. -/
def writeRegister (s : Machine) (addr value : UInt32) : Run Machine := do
  match ← s.decode addr with
  | none => return s
  | some (port, .reader, index) =>
    return s.setPort { port with readRegs := ← port.readRegs.write index value }
  | some (port, .writer, index) =>
    return s.setPort { port with writeRegs := ← port.writeRegs.write index value }

/-- Reads a register. An address without a port is told and reads zero. -/
def readRegister (s : Machine) (addr : UInt32) : Run UInt32 := do
  match ← s.decode addr with
  | none => return 0
  | some (port, .reader, index) =>
    return port.readRegs.read index (← (port.readStatus : Except Fault EngineStatus))
  | some (port, .writer, index) =>
    return port.writeRegs.read index (← (port.writeStatus : Except Fault EngineStatus))

/-- An interrupt line: line `2p` is that of the writer of port `p`, line `2p + 1` that
of its reader. -/
def irq (s : Machine) (line : Nat) : Bool :=
  match s.ports[line / 2]? with
  | none => false
  | some p => if line % 2 = 0 then p.writeRegs.irq else p.readRegs.irq

/-- Programs an engine with a descriptor. -/
def start (s : Machine) (port : Nat) (side : Side) (addr words burst : UInt32) : Run Machine := do
  let s ← s.writeRegister (Register.address port side Register.start.index) addr
  let s ← s.writeRegister (Register.address port side Register.length.index) words
  let s ← s.writeRegister (Register.address port side Register.burst.index) burst
  s.writeRegister (Register.address port side Register.valid.index) 1

/-! ## Streams and memory -/

/-- Queues beats at a port's source. -/
def pushStream (s : Machine) (port : Nat) (beats : List Beat) : Except Fault Machine :=
  match s.ports[port]? with
  | none => .error .index
  | some p => .ok (s.setPort { p with source := p.source.extend beats })

/-- Hands over what a port's sink kept. -/
def takeOutput (s : Machine) (port : Nat) : Except Fault (List Beat × Machine) :=
  match s.ports[port]? with
  | none => .error .index
  | some p =>
    let (beats, sink) := p.sink.take
    .ok (beats, s.setPort { p with sink })

/-- Copies words into the memory. -/
def loadMemory (s : Machine) (base : Nat) (words : List Word) : Except Stop Machine :=
  (s.memory.store.load base words).map fun store => { s with memory := { s.memory with store } }

/-- Whether nothing moves and nothing is left to do. -/
def isQuiescent (s : Machine) : Bool :=
  s.ports.all (fun p => p.isQuiescent && p.source.isDrained)
    && s.readArbiter.isIdle && s.writeArbiter.isIdle && s.memory.isIdle

/-! ## Recording -/

/-- The records not yet taken, in order. -/
def events (s : Machine) : List TraceRecord :=
  s.newestEvents.reverse

/-- Hands over the records. -/
def takeEvents (s : Machine) : List TraceRecord × Machine :=
  (s.events, { s with newestEvents := [] })

/-- What happens at a port in a cycle. -/
def portEvents (p : Port) (reads : ReadBus) (writes : WriteBus) : List BusEvent :=
  (reads.arFired.map fun r => BusEvent.ar r.addr r.len).toList
    ++ (reads.rFired.map fun r => BusEvent.r r.data r.resp r.last).toList
    ++ (writes.awFired.map fun r => BusEvent.aw r.addr r.len).toList
    ++ (writes.wFired.map fun w => BusEvent.w w.data w.last).toList
    ++ (writes.bFired.map fun b => BusEvent.b b.resp).toList
    ++ (if p.reader.core.outputs.done then [.done .reader] else [])
    ++ (if p.writeOutputs.done then [.done .writer] else [])

/-- What happens in a cycle, port by port. -/
def cycleEvents (s : Machine) (w : MachineWires) : List TraceRecord :=
  ((s.ports.zip (w.reads.up.zip w.writes.up)).map fun (p, reads, writes) =>
    (portEvents p reads writes).map fun event => ⟨s.cycle, p.index, event⟩).flatten

/-! ## The clock -/

/-- Settles the wires of a cycle. -/
def wires (s : Machine) : Except Fault MachineWires := do
  let slave ← s.memory.readWires
  return {
    reads := s.readArbiter.resolve (s.ports.map (·.readWires)) slave
    writes := s.writeArbiter.resolve (s.ports.map (·.writeWires)) s.memory.writeWires }

/-- The ports after a clock edge. -/
def tickPorts : List Port → List ReadBus → List WriteBus → Run (List Port)
  | p :: ps, r :: rs, w :: ws => do
    let p ← p.tick r w
    return p :: (← tickPorts ps rs ws)
  | _, _, _ => pure []

/-- One clock cycle. -/
def tick (s : Machine) : Run Machine := do
  let w ← (s.wires : Except Fault MachineWires)
  let newestEvents :=
    if s.capture then (s.cycleEvents w).reverse ++ s.newestEvents else s.newestEvents
  let memory ← s.memory.tick w.reads.down w.writes.down
  let readArbiter ← s.readArbiter.tick w.reads
  let writeArbiter ← s.writeArbiter.tick w.writes
  let ports ← tickPorts s.ports w.reads.up w.writes.up
  return { s with cycle := s.cycle + 1, ports, readArbiter, writeArbiter, memory, newestEvents }

/-- `n` clock cycles. -/
def ticks (n : Nat) (s : Machine) : Run Machine :=
  Run.stepTimes tick n s

/-- `n` clock cycles, and a look at the system after each of them. -/
def ticksWith {α : Type} (look : Machine → α) (n : Nat) (s : Machine) :
    Run (List α × Machine) := do
  let (seen, s) ← Run.stepTimes (fun (seen, s) => do
    let s ← tick s
    return (look s :: seen, s)) n (([], s) : List α × Machine)
  return (seen.reverse, s)

/-- Clock cycles until `done` holds, but at most `n` of them; says whether it holds in
the end. -/
def runUntil (n : Nat) (s : Machine) (done : Machine → Bool) : Run (Bool × Machine) := do
  let s ← Run.stepWhile (fun s => !done s) tick n s
  return (done s, s)

/-- Back to rest: what was in flight and what was queued is dropped, the memory keeps
its words. -/
def reset (s : Machine) : Run Machine := do
  Run.note (.machineReset s.cycle)
  return { s with
    memory := s.memory.reset
    readArbiter := s.readArbiter.reset
    writeArbiter := s.writeArbiter.reset
    ports := s.ports.map (·.reset)
    newestEvents := [] }

end Machine

end BurstDma
