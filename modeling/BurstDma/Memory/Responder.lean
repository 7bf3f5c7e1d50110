import BurstDma.Journal.Run
import BurstDma.Memory.Store

/-!
# The memory at the end of the bus

Reads are pipelined: up to `readOutstanding` bursts wait in order, and each may start
once its latency has passed. Writes go one at a time: address and data are collected
independently, **stored together when both are complete**, and answered after the write
latency. Until the answer is taken, no other write begins.
-/

namespace BurstDma

/-- A read burst that is waiting or being sent. -/
structure ReadJob where
  request : AddrReq
  /-- The first cycle in which it may be answered. -/
  readyAt : Nat
  /-- The beats sent. -/
  beat : Nat := 0
deriving Repr, DecidableEq, Inhabited

/-- What a memory has done since it was built; a reset keeps it. -/
structure MemoryStats where
  readBursts : Nat := 0
  writeBursts : Nat := 0
  readWords : Nat := 0
  writeWords : Nat := 0
  /-- The error responses given. -/
  errors : Nat := 0
deriving Repr, DecidableEq, Inhabited

/-- The state of a memory. -/
structure Memory where
  params : MemoryParams
  store : Store
  cycle : Nat := 0
  /-- The read bursts accepted and not finished, oldest first. -/
  reads : List ReadJob := []
  /-- The write address accepted. -/
  aw : Option AddrReq := none
  /-- The write data accepted, oldest first. -/
  collected : List WriteBeat := []
  /-- Whether the last beat of the write data was accepted. -/
  dataDone : Bool := false
  /-- The response that waits, and the first cycle in which it may be given. -/
  response : Option (WriteResp × Nat) := none
  stats : MemoryStats := {}
deriving Repr, DecidableEq, Inhabited

namespace Memory

/-- A memory of zeros. -/
def ofParams (p : MemoryParams) (g : Geometry) : Memory where
  params := p
  store := Store.zeros g p

def isIdle (m : Memory) : Bool :=
  m.reads.isEmpty && m.aw.isNone && m.collected.isEmpty && m.response.isNone

/-- The beat that a read burst is at. -/
def readBeat (m : Memory) (job : ReadJob) : Except Fault ReadBeat := do
  let addr ← m.store.geometry.advance job.request.addr job.beat
  let (data, resp) ← m.store.readAt addr
  return { id := job.request.id, data, resp, last := job.beat + 1 == job.request.beats }

/-- The read wires it drives. -/
def readWires (m : Memory) : Except Fault ReadSlave := do
  let arReady := decide (m.reads.length < m.params.readOutstanding)
  match m.reads.head?.filter (·.readyAt ≤ m.cycle) with
  | none => return { arReady, r := none }
  | some job => return { arReady, r := some (← m.readBeat job) }

/-- The write wires it drives. -/
def writeWires (m : Memory) : WriteSlave where
  awReady := m.aw.isNone && m.response.isNone
  wReady := !m.dataDone && m.response.isNone
  b := (m.response.filter (·.2 ≤ m.cycle)).map (·.1)

/-- Stores beats at consecutive words from `addr` on, the first of them being beat
`i` of its burst; the response is the worst there was. The number of a beat is taken as
a 32-bit word. -/
def storeBeats (addr : Nat) : Nat → Store → Resp → List WriteBeat →
    Except Fault (Store × Resp)
  | _, s, worst, [] => .ok (s, worst)
  | i, s, worst, beat :: rest => do
    let at_ ← s.geometry.advance addr (i % limit32)
    let (s, resp) ← s.writeAt at_ beat.data
    storeBeats addr (i + 1) s (worst.worse resp) rest

/-- The read side of a clock edge: the burst being sent moves on, and a new one may
queue. -/
def tickReads (m : Memory) (bus : ReadBus) : Memory :=
  let m :=
    match bus.rFired with
    | none => m
    | some beat =>
      { m with
        reads :=
          if beat.last then m.reads.tail
          else m.reads.modifyHead fun job => { job with beat := job.beat + 1 }
        stats := { m.stats with
          readWords := m.stats.readWords + 1
          errors := m.stats.errors + if beat.resp.isError then 1 else 0 } }
  match bus.arFired with
  | none => m
  | some request =>
    { m with
      reads := m.reads ++ [⟨request, m.cycle + max m.params.readLatency 1, 0⟩]
      stats := { m.stats with readBursts := m.stats.readBursts + 1 } }

/-- What a clock edge collects of a write. -/
def collect (m : Memory) (bus : WriteBus) : Memory :=
  let m := if bus.bFired.isSome then { m with response := none } else m
  let m :=
    match bus.awFired with
    | none => m
    | some request => { m with aw := some request }
  match bus.wFired with
  | none => m
  | some beat => { m with collected := m.collected ++ [beat], dataDone := beat.last }

/-- Stores a collected write whose address is `aw` and schedules its response. -/
def commit (m : Memory) (aw : AddrReq) : Run Memory := do
  let count := m.collected.length
  Run.noteIf (count % limit32 != aw.beats) (.beatCountDiffers aw.beats count)
  let (store, resp) ← (storeBeats aw.addr 0 m.store .okay m.collected : Except Fault _)
  Run.noteIf resp.isError (.writeAnswered aw.addr resp)
  return { m with
    store
    aw := none
    collected := []
    dataDone := false
    response := some (⟨aw.id, resp⟩, m.cycle + max m.params.writeLatency 1)
    stats := { m.stats with
      writeBursts := m.stats.writeBursts + 1
      writeWords := m.stats.writeWords + count
      errors := m.stats.errors + if resp.isError then 1 else 0 } }

/-- The write side of a clock edge. -/
def tickWrites (m : Memory) (bus : WriteBus) : Run Memory :=
  let m := m.collect bus
  match m.dataDone, m.aw with
  | true, some aw => m.commit aw
  | _, _ => pure m

/-- One clock edge. -/
def tick (m : Memory) (reads : ReadBus) (writes : WriteBus) : Run Memory := do
  let m ← (m.tickReads reads).tickWrites writes
  return { m with cycle := m.cycle + 1 }

/-- The memory with nothing in flight. Its words, its counts and its clock stay. -/
def reset (m : Memory) : Memory :=
  { m with reads := [], aw := none, collected := [], dataDone := false, response := none }

end Memory

end BurstDma
