import BurstDma.Grant.RoundRobin
import BurstDma.Journal.Run

/-!
# The write arbiter

Many requesters share one write bus. The first handshake of the selected requester
locks it in, whether an address or data; its address, its data and its response then
complete before anyone else is connected. **Write bursts of different requesters
therefore never mix.**

As for reads, `resolve` settles the wires of a cycle and `tick` moves the state on.
-/

namespace BurstDma

/-- How far the burst on the bus is. -/
inductive WriteLock where
  /-- No burst is open; the selected requester is connected. -/
  | select
  /-- Data is flowing; `addrDone` once the address was accepted. -/
  | writeChannel (id : Nat) (addrDone : Bool)
  /-- All data was accepted, the address was not. -/
  | addressChannel (id : Nat)
  | responseChannel (id : Nat)
deriving Repr, DecidableEq, Inhabited

namespace WriteLock

/-- The name of a state in messages. -/
def label : WriteLock → String
  | select => "Select"
  | writeChannel id addrDone =>
    "WaitWriteChannel \x7b id: " ++ Numeral.decimal id ++ ", addr_done: "
      ++ (if addrDone then "true" else "false") ++ " \x7d"
  | addressChannel id => "WaitAddressChannel \x7b id: " ++ Numeral.decimal id ++ " \x7d"
  | responseChannel id => "WaitResponseChannel \x7b id: " ++ Numeral.decimal id ++ " \x7d"

/-- The requester connected to the bus. -/
def owner (selected : Nat) : WriteLock → Nat
  | select => selected
  | writeChannel id _ => id
  | addressChannel id => id
  | responseChannel id => id

/-- Whether the address channel is connected. -/
def addressOpen : WriteLock → Bool
  | select => true
  | writeChannel _ addrDone => !addrDone
  | addressChannel _ => true
  | responseChannel _ => false

/-- Whether the data channel is connected. -/
def dataOpen : WriteLock → Bool
  | select => true
  | writeChannel .. => true
  | _ => false

/-- Whether the response channel is connected. -/
def responseOpen : WriteLock → Bool
  | responseChannel _ => true
  | _ => false

end WriteLock

/-- The state of a write arbiter. -/
structure WriteArbiter where
  turn : RoundRobin
  lock : WriteLock := .select
  /-- The bursts started so far, per requester. -/
  grants : List Nat
deriving Repr, DecidableEq, Inhabited

/-- The wires of one cycle. -/
structure WriteWires where
  /-- Between each requester and the arbiter. -/
  up : List WriteBus
  /-- Between the arbiter and the memory. -/
  down : WriteBus
deriving Repr, DecidableEq, Inhabited

namespace WriteArbiter

/-- An arbiter with no burst open. -/
def ofRequesters (n : Nat) : Except Fault WriteArbiter := do
  let turn ← RoundRobin.ofLanes n
  return { turn, grants := List.replicate n 0 }

def selected (a : WriteArbiter) : Nat :=
  a.turn.selected

/-- The requester connected to the bus. -/
def owner (a : WriteArbiter) : Nat :=
  a.lock.owner a.selected

def isIdle (a : WriteArbiter) : Bool :=
  a.lock == .select

/-- What the owner drives; nothing if there is no such requester. -/
def ownerWires (a : WriteArbiter) (masters : List WriteMaster) : WriteMaster :=
  (masters[a.owner]?).getD {}

/-- What requester `i` sees. -/
def toRequester (a : WriteArbiter) (slave : WriteSlave) (i : Nat) : WriteSlave :=
  if i = a.owner then
    { awReady := a.lock.addressOpen && slave.awReady
      wReady := a.lock.dataOpen && slave.wReady
      b := if a.lock.responseOpen then slave.b else none }
  else {}

/-- What the memory sees: the owner's wires as far as they are connected, its address
stamped with its requester. -/
def toMemory (a : WriteArbiter) (masters : List WriteMaster) : WriteMaster :=
  let m := a.ownerWires masters
  { aw := if a.lock.addressOpen then m.aw.map fun r => { r with id := a.owner } else none
    w := if a.lock.dataOpen then m.w else none
    bReady := a.lock.responseOpen && m.bReady }

/-- Settles the wires of a cycle. -/
def resolve (a : WriteArbiter) (masters : List WriteMaster) (slave : WriteSlave) :
    WriteWires where
  up := masters.zipIdx.map fun (m, i) => ⟨m, a.toRequester slave i⟩
  down := ⟨a.toMemory masters, slave⟩

/-- The requests of a cycle as a vector: an address or data asks for the bus. -/
def requests (w : WriteWires) : UInt32 :=
  Grant.ofLines (w.up.map fun b => b.master.aw.isSome || b.master.w.isSome)

/-- The lock once a burst of `id` is open, given whether its address and its last data
beat have been accepted. -/
def lockFor (id : Nat) (addrDone dataDone : Bool) : WriteLock :=
  if dataDone then if addrDone then .responseChannel id else .addressChannel id
  else .writeChannel id addrDone

/-- One clock edge, with the wires that `resolve` settled. -/
def tick (a : WriteArbiter) (w : WriteWires) : Run WriteArbiter :=
  let requests := requests w
  let awFires := w.down.awFired.isSome
  let wFires := w.down.wFired.isSome
  let wLast := w.down.wFired.any (·.last)
  match a.lock with
  | .select =>
    if awFires || wFires then do
      Run.note (.writeLocked a.selected)
      return { a with
        lock := lockFor a.selected awFires wLast
        grants := a.grants.modify a.selected (· + 1) }
    else if requests &&& Grant.oneHot a.selected = 0 then
      pure { a with turn := a.turn.advance requests }
    else pure a
  | .writeChannel id addrDone => pure { a with lock := lockFor id (addrDone || awFires) wLast }
  | .addressChannel id => pure { a with lock := lockFor id awFires true }
  | .responseChannel _ =>
    if w.down.bFired.isSome then
      pure { a with lock := .select, turn := a.turn.advance requests }
    else pure a

/-- The arbiter with no burst open; its counts stay. -/
def reset (a : WriteArbiter) : WriteArbiter :=
  { a with turn := a.turn.reset, lock := .select }

end WriteArbiter

end BurstDma
