import BurstDma.Grant.RoundRobin
import BurstDma.Journal.Run
import BurstDma.Queue.Ownership
import BurstDma.Queue.Skid

/-!
# The read arbiter

Many requesters share one read bus. Address requests are granted in turn and go to
the memory one at a time, stamped with their requester. Each granted burst leaves its
requester in the ownership queue, and since the memory answers in order, **the oldest
owner gets every beat until the last of its burst**.

Two options put registers in the way: skid buffers on the address requests of every
requester, and skid buffers between the arbiter and the memory.

A cycle has two halves. `resolve` settles the wires, from the state and from what the
other parties drive; `tick` moves the state on, given those wires.
-/

namespace BurstDma

/-- The options of a read arbiter. -/
structure ReadArbiterParams where
  requesters : Nat
  /-- The bound on the bursts in flight. -/
  maxOutstanding : Nat
  /-- Whether every requester's addresses go through a register. -/
  inputRegister : Bool := false
  /-- Whether the wires to the memory go through registers. -/
  outputRegister : Bool := false
deriving Repr, DecidableEq, Inhabited

/-- The state of a read arbiter. -/
structure ReadArbiter where
  inputRegister : Bool
  outputRegister : Bool
  turn : RoundRobin
  owners : Ownership
  /-- The address requests held back, per requester. -/
  inputs : List (Skid AddrReq)
  /-- The granted requests held back. -/
  granted : Skid AddrReq := {}
  /-- The data held back. -/
  data : Skid ReadBeat := {}
  /-- The grants so far, per requester. -/
  grants : List Nat
deriving Repr, DecidableEq, Inhabited

/-- The wires of one cycle. -/
structure ReadWires where
  /-- Between each requester and the arbiter. -/
  up : List ReadBus
  /-- Between the arbiter and the memory. -/
  down : ReadBus
  /-- The request granted in this cycle. -/
  grant : Option AddrReq := none
deriving Repr, DecidableEq, Inhabited

namespace ReadArbiter

/-- An arbiter with nothing in flight. -/
def ofParams (p : ReadArbiterParams) : Except Fault ReadArbiter := do
  let turn ← RoundRobin.ofLanes p.requesters
  return {
    inputRegister := p.inputRegister
    outputRegister := p.outputRegister
    turn
    owners := { depth := p.maxOutstanding }
    inputs := List.replicate p.requesters {}
    grants := List.replicate p.requesters 0 }

def selected (a : ReadArbiter) : Nat :=
  a.turn.selected

/-- The number of bursts in flight. -/
def outstanding (a : ReadArbiter) : Nat :=
  a.owners.size

def isIdle (a : ReadArbiter) : Bool :=
  a.owners.isEmpty && a.granted.isEmpty && a.data.isEmpty && a.inputs.all (·.isEmpty)

/-- The address requests that compete in this cycle, per requester. -/
def offers (a : ReadArbiter) (masters : List ReadMaster) : List (Option AddrReq) :=
  if a.inputRegister then a.inputs.map (·.peek) else masters.map (·.ar)

/-- The selected requester's request, stamped with its requester. -/
def selectedOffer (a : ReadArbiter) (masters : List ReadMaster) : Option AddrReq :=
  ((a.offers masters)[a.selected]?.join).map fun ar => { ar with id := a.selected }

/-- The data beat that is steered to its owner. -/
def incoming (a : ReadArbiter) (slave : ReadSlave) : Option ReadBeat :=
  if a.outputRegister then a.data.peek else slave.r

/-- Whether a granted request can go on towards the memory. -/
def accepts (a : ReadArbiter) (slave : ReadSlave) : Bool :=
  if a.outputRegister then a.granted.ready else slave.arReady

/-- What requester `i` sees. -/
def toRequester (a : ReadArbiter) (slave : ReadSlave) (i : Nat) : ReadSlave where
  arReady :=
    if a.inputRegister then (a.inputs[i]?.map (·.ready)).getD false
    else i == a.selected && !a.owners.isFull && a.accepts slave
  r := if a.owners.head? = some i then a.incoming slave else none

/-- What the memory sees. -/
def toMemory (a : ReadArbiter) (masters : List ReadMaster) : ReadMaster where
  ar :=
    if a.outputRegister then a.granted.peek
    else if a.owners.isFull then none else a.selectedOffer masters
  rReady :=
    if a.outputRegister then a.data.ready
    else (a.owners.head?.bind fun h => masters[h]?.map (·.rReady)).getD false

/-- Settles the wires of a cycle. -/
def resolve (a : ReadArbiter) (masters : List ReadMaster) (slave : ReadSlave) : ReadWires where
  up := masters.zipIdx.map fun (m, i) => ⟨m, a.toRequester slave i⟩
  down := ⟨a.toMemory masters, slave⟩
  grant := if !a.owners.isFull && a.accepts slave then a.selectedOffer masters else none

/-- The requests of a cycle as a vector. -/
def requests (a : ReadArbiter) (w : ReadWires) : UInt32 :=
  Grant.ofLines ((a.offers (w.up.map (·.master))).map (·.isSome))

/-- The beat that reaches its owner in this cycle. -/
def delivered (owners : Ownership) (w : ReadWires) : Option ReadBeat :=
  owners.head?.bind fun h => w.up[h]?.bind (·.rFired)

/-- The input registers after a clock edge. -/
def nextInputs (a : ReadArbiter) (w : ReadWires) : Except Fault (List (Skid AddrReq)) :=
  if a.inputRegister then
    (a.inputs.zip w.up).zipIdx.mapM fun ((skid, bus), i) =>
      skid.tick bus.arFired (i == a.selected && w.grant.isSome)
  else .ok a.inputs

/-- The turn moves on after a grant, and when the selected requester asks for
nothing. -/
def nextTurn (a : ReadArbiter) (w : ReadWires) : RoundRobin :=
  let requests := a.requests w
  if w.grant.isSome || requests &&& Grant.oneHot a.selected = 0 then a.turn.advance requests
  else a.turn

/-- One clock edge, with the wires that `resolve` settled. -/
def tick (a : ReadArbiter) (w : ReadWires) : Run ReadArbiter := do
  let inputs ← (a.nextInputs w : Except Fault _)
  Run.noteIf w.grant.isSome (.readGranted a.selected)
  let owners := if w.grant.isSome then (a.owners.push? a.selected).getD a.owners else a.owners
  let grants := if w.grant.isSome then a.grants.modify a.selected (· + 1) else a.grants
  let granted ←
    (if a.outputRegister then a.granted.tick w.grant w.down.arFired.isSome
     else .ok a.granted : Except Fault _)
  let beat := delivered owners w
  let owners ←
    (match beat with
     | none => .ok owners
     | some b =>
       if owners.head? = some b.id then .ok (if b.last then owners.pop else owners)
       else .error (.violation .readOutOfOrder) : Except Fault _)
  let data ←
    (if a.outputRegister then a.data.tick w.down.rFired beat.isSome
     else .ok a.data : Except Fault _)
  return { a with turn := a.nextTurn w, owners, inputs, granted, data, grants }

/-- The arbiter with nothing in flight; its counts stay. -/
def reset (a : ReadArbiter) : ReadArbiter :=
  { a with
    turn := a.turn.reset
    owners := a.owners.clear
    inputs := a.inputs.map fun _ => {}
    granted := {}
    data := {} }

end ReadArbiter

end BurstDma
