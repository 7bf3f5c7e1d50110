import BurstDma.Engine.Stats
import BurstDma.Stream.Fifo
import BurstDma.Transfer.Credit
import BurstDma.Transfer.Plan

/-!
# The read engine

Moves words from memory into a stream buffer. An engine that has taken a descriptor
sizes a burst in three cycles, waits for credit, asks for the burst and goes on to
the next one; when the last burst is granted it waits until all its data is there.

Two things happen in one cycle and do not wait for each other. `receive` takes in a
beat of data, in every phase. `proceed` moves the phase on. **The engine is always
ready for data**, because the room for it was reserved before the burst was asked
for.
-/

namespace BurstDma

/-- What the engine is busy with. -/
inductive ReadPhase where
  | idle
  /-- Sizing, against what is left and the burst limit. -/
  | sizing
  /-- Sizing, against the next 4096-byte boundary. -/
  | clamping
  /-- The request is put together. -/
  | encoding
  | waitForCredit
  | issueBurst
  | transferBurst
  | waitForCompletion
  | done
deriving Repr, DecidableEq, Inhabited

/-- The name of a phase in messages. -/
def ReadPhase.label : ReadPhase → String
  | .idle => "Idle"
  | .sizing => "PrepareBurst(1)"
  | .clamping => "PrepareBurst(2)"
  | .encoding => "PrepareBurst(3)"
  | .waitForCredit => "WaitForCredit"
  | .issueBurst => "IssueBurst"
  | .transferBurst => "TransferBurst"
  | .waitForCompletion => "WaitForCompletion"
  | .done => "Done"

/-- The registers of a read engine. -/
structure ReadCore where
  phase : ReadPhase := .idle
  /-- Where the next burst starts. -/
  addr : Nat := 0
  /-- The words not yet asked for. -/
  remaining : Nat := 0
  /-- The words of the transfer. -/
  length : Nat := 0
  /-- The words that have arrived. -/
  delivered : Nat := 0
  maxBurst : Nat := 0
  /-- The size of the next burst, before the boundary is looked at. -/
  candidate : Nat := 0
  /-- The size of the next burst. -/
  burst : Nat := 0
  request : AddrReq := {}
  pending : Pending := {}
  /-- The last error response. -/
  error : Resp := .okay
deriving Repr, DecidableEq, Inhabited

/-- The inputs of one clock edge. -/
structure ReadInputs where
  desc : Option Descriptor := none
  /-- The free places of the stream buffer. -/
  fifoFree : Nat := 0
  /-- Whether the address request was accepted. -/
  arFires : Bool := false
  /-- The data beat that arrived. -/
  beat : Option ReadBeat := none
  clearError : Bool := false
deriving Repr, DecidableEq, Inhabited

/-- What the engine drives, from its registers alone. -/
structure ReadOutputs where
  descReady : Bool := false
  ar : Option AddrReq := none
  rReady : Bool := false
  done : Bool := false
deriving Repr, DecidableEq, Inhabited

/-- What a clock edge did beside changing the registers. -/
structure ReadStep where
  taken : Bool := false
  issued : Option Burst := none
  /-- The beat for the stream buffer. -/
  push : Option Beat := none
deriving Repr, DecidableEq, Inhabited

namespace ReadCore

/-- The words that have not arrived yet. -/
def remainingWords (c : ReadCore) : Except Fault Nat :=
  Checked.sub c.length c.delivered

def outputs (c : ReadCore) : ReadOutputs where
  descReady := c.phase == .idle
  ar := if c.phase = .issueBurst then some c.request else none
  rReady := true
  done := c.phase == .done

/-- Takes in what arrived: the error latch is cleared first, so that an error in
the same cycle stays. The beat goes to the stream, and the last word of the transfer
ends the frame. -/
def receive (c : ReadCore) (i : ReadInputs) : Run (ReadCore × Option Beat) := do
  let c := if i.clearError then { c with error := .okay } else c
  match i.beat with
  | none => return (c, none)
  | some beat =>
    let pending ← c.pending.retire beat.last
    let delivered ← (Checked.add limit32 c.delivered 1 : Except Fault Nat)
    let error := if beat.resp.isError then beat.resp else c.error
    return ({ c with pending, delivered, error }, some ⟨beat.data, delivered == c.length⟩)

/-- Moves the phase on. `c` holds what arrived in this cycle; credit is counted
with what was on its way before, `before`. -/
def proceed (g : Geometry) (before : Pending) (c : ReadCore) (i : ReadInputs) :
    Except Fault (ReadCore × ReadStep) :=
  match c.phase with
  | .idle =>
    match i.desc with
    | none => .ok (c, {})
    | some d =>
      .ok ({ c with
              phase := if d.words = 0 then .done else .sizing
              addr := g.align d.start
              length := d.words
              remaining := d.words
              delivered := 0
              maxBurst := clampBurst d.maxBurst }, { taken := true })
  | .sizing =>
    .ok ({ c with phase := .clamping, candidate := burstCandidate c.remaining c.maxBurst }, {})
  | .clamping =>
    .ok ({ c with phase := .encoding, burst := min c.candidate (g.wordsUntilBoundary c.addr) }, {})
  | .encoding => do
    let request ← AddrReq.incrementing c.addr c.burst g
    return ({ c with phase := .waitForCredit, request }, {})
  | .waitForCredit => do
    let granted ← before.readCredit i.fifoFree c.burst
    return ({ c with phase := if granted then .issueBurst else .waitForCredit }, {})
  | .issueBurst =>
    if i.arFires then do
      let pending ← c.pending.issue c.burst
      let addr ← g.advance c.addr c.burst
      let remaining ← Checked.sub c.remaining c.burst
      return ({ c with phase := .transferBurst, pending, addr, remaining },
        { issued := some ⟨c.addr, c.burst⟩ })
    else .ok (c, {})
  | .transferBurst =>
    .ok ({ c with phase := if 0 < c.remaining then .sizing else .waitForCompletion }, {})
  | .waitForCompletion =>
    .ok ({ c with phase := if c.pending.isIdle then .done else .waitForCompletion }, {})
  | .done => .ok ({ c with phase := .idle }, {})

/-- One clock edge. -/
def next (g : Geometry) (c : ReadCore) (i : ReadInputs) : Run (ReadCore × ReadStep) := do
  let (received, push) ← c.receive i
  let (core, step) ← (proceed g c.pending received i : Except Fault _)
  return (core, { step with push })

end ReadCore

/-- A read engine with its name and counters. -/
structure ReadEngine where
  name : String
  geometry : Geometry := {}
  core : ReadCore := {}
  stats : EngineStats := {}
deriving Repr, DecidableEq, Inhabited

namespace ReadEngine

def isIdle (e : ReadEngine) : Bool :=
  e.core.phase == .idle

/-- Whether a clock edge from `before` to `after` finishes a transfer. -/
def finishes (before after : ReadPhase) : Bool :=
  after == .done && before != .done

/-- The counters after a clock edge. -/
def count (s : EngineStats) (i : ReadInputs) (step : ReadStep) (finished : Bool) : EngineStats where
  bursts := s.bursts + if step.issued.isSome then 1 else 0
  words := s.words + if i.beat.isSome then 1 else 0
  transfers := s.transfers + if finished then 1 else 0
  errors := s.errors + if i.beat.any (·.resp.isError) then 1 else 0

/-- Tells what a clock edge did. -/
def report (e : ReadEngine) (i : ReadInputs) (core : ReadCore) (step : ReadStep) : Run Unit := do
  if let some d := i.desc then
    Run.noteIf (step.taken && !e.geometry.isAligned d.start)
      (.startMoved .reader e.name d.start core.addr)
  if let some b := step.issued then
    Run.note (.burstIssued .reader e.name b.addr b.words)
  if let some b := i.beat then
    Run.noteIf b.resp.isError (.errorLatched .reader e.name b.resp)
  Run.noteIf (finishes e.core.phase core.phase) (.transferDone .reader e.name)

/-- One clock edge. -/
def tick (e : ReadEngine) (i : ReadInputs) : Run (ReadEngine × ReadStep) := do
  let (core, step) ← e.core.next e.geometry i
  e.report i core step
  return ({ e with core, stats := count e.stats i step (finishes e.core.phase core.phase) }, step)

/-- The engine at rest; its counters stay. -/
def reset (e : ReadEngine) : ReadEngine :=
  { e with core := {} }

end ReadEngine

end BurstDma
