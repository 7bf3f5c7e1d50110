import BurstDma.Script.Player

/-!
# What a simulation leaves behind

The summary at the end of a run: the counters of every engine, what the memory and the
arbiters did, and whether everything came out as the references say. A run *passes* if
it ended by itself and nothing differed.
-/

namespace BurstDma

/-- The summary of a port. -/
structure PortReport where
  port : Nat
  reader : EngineStats
  writer : EngineStats
  readError : Resp
  writeError : Resp
  readGrants : Nat
  writeGrants : Nat
  droppedDescriptors : Nat
  /-- The beats that reached the sink. -/
  sinkWords : Nat
  /-- Whether the sink saw the reference, if there is one. -/
  sinkMatch : Option Bool
deriving Repr, DecidableEq, Inhabited

/-- The summary of a run. -/
structure Report where
  cycles : Nat
  /-- Whether work was left when the run ended. -/
  timedOut : Bool
  ports : List PortReport
  memory : MemoryStats
  /-- Whether the memory holds the reference, if there is one. -/
  memoryMatch : Option Bool
  mismatches : List Mismatch
deriving Repr, DecidableEq, Inhabited

namespace Report

/-- Whether the run ended by itself and nothing differed. -/
def passed (r : Report) : Bool :=
  !r.timedOut && r.mismatches.isEmpty && r.memoryMatch != some false
    && r.ports.all fun p => p.sinkMatch != some false

/-- One side of a port's line. -/
def engineText (s : EngineStats) (error : Resp) : String :=
  s!"{s.transfers} transfers, {s.bursts} bursts, {s.words} words, error {error.label}"

/-- The lines of a port. -/
def portLines (p : PortReport) : List String :=
  let verdict :=
    match p.sinkMatch with
    | some true => ", sink matches reference"
    | some false => ", SINK MISMATCH"
    | none => ""
  [s!"[port{p.port}] rd: {engineText p.reader p.readError} | wr: {engineText p.writer p.writeError}",
   s!"[port{p.port}] grants rd={p.readGrants} wr={p.writeGrants}, dropped descriptors={p.droppedDescriptors}, sink words={p.sinkWords}{verdict}"]

/-- The line of a mismatch. -/
def mismatchLine (m : Mismatch) : String :=
  s!"[script] {m.script}:{m.line} @{m.cycle} RD {Numeral.hexDigits 8 m.addr.toNat}: expected {Numeral.hexDigits 8 m.expected.toNat}, got {Numeral.hexDigits 8 m.got.toNat}"

/-- The lines of the report. -/
def lines (r : Report) : List String :=
  let bound := if r.timedOut then " (max_cycles reached)" else ""
  let verdict :=
    match r.memoryMatch with
    | some true => ["[mem] contents match reference"]
    | some false => ["[mem] CONTENTS MISMATCH"]
    | none => []
  ["", "--- Simulation Report ---", s!"cycles: {r.cycles}{bound}"]
    ++ r.ports.flatMap portLines
    ++ [s!"[mem] read bursts={r.memory.readBursts} write bursts={r.memory.writeBursts} error responses={r.memory.errors}"]
    ++ verdict
    ++ r.mismatches.map mismatchLine
    ++ [if r.passed then "result: PASS" else "result: FAIL", "--- End Report ---", ""]

/-- The text of the report. -/
def text (r : Report) : String :=
  String.join (r.lines.map (· ++ "\n"))

end Report

end BurstDma
