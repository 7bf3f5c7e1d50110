import BurstDma.Engine.Stats
import BurstDma.Stream.Fifo
import BurstDma.Transfer.Credit
import BurstDma.Transfer.Plan

/-!
# The write engine

Moves words from a stream buffer into memory. A burst is asked for only when all its
words are buffered, so that it never stalls half-way on the bus; the transfer is done
when every burst has been answered.

In *length mode* the descriptor says how many words to move. In *frame mode* the
stream does: the engine sends bursts of the longest size until the buffer holds the
end of the frame, and **the burst that empties the buffer then is the last one**.
-/

namespace BurstDma

/-- What the engine is busy with. -/
inductive WritePhase where
  | idle
  /-- Sizing, against what is left and the burst limit. -/
  | sizing
  /-- Sizing, against the next 4096-byte boundary. -/
  | clamping
  | waitForCredit
  | issueBurst
  | transferBurst
  | waitForCompletion
  | done
deriving Repr, DecidableEq, Inhabited

/-- The name of a phase in messages. -/
def WritePhase.label : WritePhase → String
  | .idle => "Idle"
  | .sizing => "PrepareBurst(1)"
  | .clamping => "PrepareBurst(2)"
  | .waitForCredit => "WaitForCredit"
  | .issueBurst => "IssueBurst"
  | .transferBurst => "TransferBurst"
  | .waitForCompletion => "WaitForCompletion"
  | .done => "Done"

/-- The registers of a write engine. -/
structure WriteCore where
  phase : WritePhase := .idle
  /-- Whether the stream says where the transfer ends. -/
  frameMode : Bool := false
  /-- Where the next burst starts. -/
  addr : Nat := 0
  /-- The words not yet sent, in length mode. -/
  remaining : Nat := 0
  /-- The words of the transfer, in length mode. -/
  length : Nat := 0
  /-- The words sent. -/
  written : Nat := 0
  maxBurst : Nat := 0
  /-- The largest size the next burst can have. -/
  candidate : Nat := 0
  /-- The size of the burst being sent. -/
  burst : Nat := 0
  /-- The beats of the burst that were accepted. -/
  beat : Nat := 0
  /-- Whether the transfer ends with this burst. -/
  finalBurst : Bool := false
  request : AddrReq := {}
  pending : Pending := {}
  /-- The bursts not answered yet. -/
  outstanding : Nat := 0
  /-- The last error response. -/
  error : Resp := .okay
deriving Repr, DecidableEq, Inhabited

/-- The inputs of one clock edge. -/
structure WriteInputs where
  desc : Option Descriptor := none
  /-- The buffered words. -/
  fifoLevel : Nat := 0
  /-- Whether the end of a frame is buffered. -/
  frameHeld : Bool := false
  awFires : Bool := false
  wFires : Bool := false
  /-- The response that arrived. -/
  b : Option WriteResp := none
  clearError : Bool := false
deriving Repr, DecidableEq, Inhabited

/-- What the engine drives, from its registers and the oldest buffered beat. -/
structure WriteOutputs where
  descReady : Bool := false
  aw : Option AddrReq := none
  w : Option WriteBeat := none
  bReady : Bool := false
  done : Bool := false
deriving Repr, DecidableEq, Inhabited

/-- What a clock edge did beside changing the registers. -/
structure WriteStep where
  taken : Bool := false
  issued : Option Burst := none
  /-- Whether the oldest buffered beat was sent. -/
  pop : Bool := false
deriving Repr, DecidableEq, Inhabited

namespace WriteCore

/-- What the status register shows: the words left in length mode, the words sent in
frame mode. -/
def remainingWords (c : WriteCore) : Except Fault Nat :=
  if c.frameMode then .ok c.written else Checked.sub c.length c.written

/-- Whether the beat being sent ends its burst. -/
def onLastBeat (c : WriteCore) : Bool :=
  c.beat + 1 == c.burst

def outputs (c : WriteCore) (head : Option Beat) : WriteOutputs where
  descReady := c.phase == .idle
  aw := if c.phase = .issueBurst then some c.request else none
  w := if c.phase = .transferBurst then head.map fun h => ⟨h.data, c.onLastBeat⟩ else none
  bReady := true
  done := c.phase == .done

/-- Takes in what arrived: the error latch is cleared first, so that an error in
the same cycle stays. -/
def receive (c : WriteCore) (i : WriteInputs) : Run WriteCore := do
  let c := if i.clearError then { c with error := .okay } else c
  match i.b with
  | none => return c
  | some b =>
    Run.noteIf (c.outstanding == 0) .responseWithoutBurst
    return { c with
      outstanding := c.outstanding - 1
      error := if b.resp.isError then b.resp else c.error }

/-- The size of the next burst and whether it is the last one, once the buffer holds
enough. With the end of the frame in the buffer, the rest of the frame is all there
is, and it is sized from that. -/
def sized? (c : WriteCore) (i : WriteInputs) : Option (Nat × Bool) :=
  if c.frameMode && i.frameHeld then
    let words := min c.candidate i.fifoLevel
    if 0 < words then some (words, decide (i.fifoLevel ≤ c.candidate)) else none
  else if Pending.writeCredit i.fifoLevel c.candidate then
    some (c.candidate, !c.frameMode && c.remaining == c.candidate)
  else none

/-- Sends a beat of the burst. -/
def sendBeat (g : Geometry) (c : WriteCore) : Run WriteCore := do
  let pending ← c.pending.retire c.onLastBeat
  let beat ← (Checked.add limit32 c.beat 1 : Except Fault Nat)
  let written ← (Checked.add limit32 c.written 1 : Except Fault Nat)
  let c' := { c with pending, beat, written }
  if c.onLastBeat then
    let addr ← (g.advance c.addr c.burst : Except Fault Nat)
    return { c' with
      addr
      remaining := c.remaining - c.burst
      phase := if c.finalBurst then .waitForCompletion else .sizing }
  else return c'

/-- Moves the phase on. `c` holds what arrived in this cycle. -/
def proceed (g : Geometry) (c : WriteCore) (i : WriteInputs) : Run (WriteCore × WriteStep) :=
  match c.phase with
  | .idle =>
    match i.desc with
    | none => pure (c, {})
    | some d =>
      pure ({ c with
              phase := if !c.frameMode && d.words == 0 then .done else .sizing
              addr := g.align d.start
              length := d.words
              remaining := d.words
              written := 0
              maxBurst := clampBurst d.maxBurst }, { taken := true })
  | .sizing =>
    pure ({ c with
            phase := .clamping
            candidate :=
              if c.frameMode then c.maxBurst else burstCandidate c.remaining c.maxBurst }, {})
  | .clamping =>
    pure ({ c with
            phase := .waitForCredit
            candidate := min c.candidate (g.wordsUntilBoundary c.addr) }, {})
  | .waitForCredit =>
    match c.sized? i with
    | none => pure (c, {})
    | some (burst, finalBurst) => do
      let request ← (AddrReq.incrementing c.addr burst g : Except Fault AddrReq)
      return ({ c with phase := .issueBurst, burst, finalBurst, request }, {})
  | .issueBurst =>
    if i.awFires then do
      let pending ← (c.pending.issue c.burst : Except Fault Pending)
      let outstanding ← (Checked.add limit32 c.outstanding 1 : Except Fault Nat)
      return ({ c with phase := .transferBurst, pending, outstanding, beat := 0 },
        { issued := some ⟨c.addr, c.burst⟩ })
    else pure (c, {})
  | .transferBurst =>
    if i.wFires then do
      return (← c.sendBeat g, { pop := true })
    else pure (c, {})
  | .waitForCompletion =>
    pure ({ c with phase := if c.outstanding = 0 then .done else .waitForCompletion }, {})
  | .done => pure ({ c with phase := .idle }, {})

/-- One clock edge. -/
def next (g : Geometry) (c : WriteCore) (i : WriteInputs) : Run (WriteCore × WriteStep) := do
  (← c.receive i).proceed g i

end WriteCore

/-- A write engine with its name and counters. -/
structure WriteEngine where
  name : String
  geometry : Geometry := {}
  core : WriteCore := {}
  stats : EngineStats := {}
deriving Repr, DecidableEq, Inhabited

namespace WriteEngine

def isIdle (e : WriteEngine) : Bool :=
  e.core.phase == .idle

/-- Whether a clock edge from `before` to `after` finishes a transfer. -/
def finishes (before after : WritePhase) : Bool :=
  after == .done && before != .done

/-- The counters after a clock edge. -/
def count (s : EngineStats) (i : WriteInputs) (step : WriteStep) (finished : Bool) :
    EngineStats where
  bursts := s.bursts + if step.issued.isSome then 1 else 0
  words := s.words + if step.pop then 1 else 0
  transfers := s.transfers + if finished then 1 else 0
  errors := s.errors + if i.b.any (·.resp.isError) then 1 else 0

/-- Tells what a clock edge did. -/
def report (e : WriteEngine) (i : WriteInputs) (core : WriteCore) (step : WriteStep) :
    Run Unit := do
  if let some d := i.desc then
    Run.noteIf (step.taken && !e.geometry.isAligned d.start)
      (.startMoved .writer e.name d.start core.addr)
  if let some b := step.issued then
    Run.note (.burstIssued .writer e.name b.addr b.words)
  if let some b := i.b then
    Run.noteIf b.resp.isError (.errorLatched .writer e.name b.resp)
  Run.noteIf (finishes e.core.phase core.phase) (.transferDone .writer e.name)

/-- One clock edge. -/
def tick (e : WriteEngine) (i : WriteInputs) : Run (WriteEngine × WriteStep) := do
  let (core, step) ← e.core.next e.geometry i
  e.report i core step
  return ({ e with core, stats := count e.stats i step (finishes e.core.phase core.phase) }, step)

/-- The engine at rest; its mode and its counters stay. -/
def reset (e : WriteEngine) : WriteEngine :=
  { e with core := { frameMode := e.core.frameMode } }

end WriteEngine

end BurstDma
