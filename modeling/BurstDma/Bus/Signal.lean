import BurstDma.Bus.Geometry

/-!
# What travels on the bus

Five channels connect a master with a slave: read addresses and read data, write
addresses, write data and write responses. In every cycle each side drives a half
of the wires: the sender offers a payload or nothing, the receiver says whether it
is ready. **A payload moves in the cycle where it is offered and the other side is
ready**; `ReadBus.arFired` and its siblings name that payload.
-/

namespace BurstDma

/-- One word of data. -/
abbrev Word := UInt64

/-- The response code on the read data and write response channels. -/
inductive Resp where
  | okay
  | exOkay
  | slvErr
  | decErr
deriving Repr, DecidableEq, Inhabited

namespace Resp

/-- The two-bit code. -/
def code : Resp → Nat
  | okay => 0
  | exOkay => 1
  | slvErr => 2
  | decErr => 3

/-- The response with a code; only the low two bits count. -/
def ofCode (c : Nat) : Resp :=
  match c % 4 with
  | 0 => okay
  | 1 => exOkay
  | 2 => slvErr
  | _ => decErr

/-- Every response but `okay` is an error. -/
def isError (r : Resp) : Bool :=
  r != okay

/-- The response with the greater code. -/
def worse (a b : Resp) : Resp :=
  if a.code < b.code then b else a

/-- The name in configurations and traces. -/
def name : Resp → String
  | okay => "okay"
  | exOkay => "exokay"
  | slvErr => "slverr"
  | decErr => "decerr"

/-- The name in messages. -/
def label : Resp → String
  | okay => "Okay"
  | exOkay => "ExOkay"
  | slvErr => "SlvErr"
  | decErr => "DecErr"

/-- All responses, by code. -/
def all : List Resp :=
  [okay, exOkay, slvErr, decErr]

theorem ofCode_code (r : Resp) : ofCode r.code = r := by cases r <;> rfl

end Resp

/-- How the address moves from beat to beat. Only incrementing bursts are ever
sent. -/
inductive BurstKind where
  | incrementing
deriving Repr, DecidableEq, Inhabited

/-- An address request. -/
structure AddrReq where
  /-- The requester; the arbiter fills it in. -/
  id : Nat := 0
  addr : Nat := 0
  /-- The number of beats less one. -/
  len : Nat := 0
  /-- The binary logarithm of the bytes of a beat. -/
  size : Nat := 0
  kind : BurstKind := .incrementing
deriving Repr, DecidableEq, Inhabited

namespace AddrReq

/-- A full-width incrementing burst of `beats` words. -/
def incrementing (addr beats : Nat) (g : Geometry) : Except Fault AddrReq :=
  if 1 ≤ beats ∧ beats ≤ maxBurstWords then
    .ok { id := 0, addr := addr, len := beats - 1, size := g.sizeCode, kind := .incrementing }
  else .error (.violation (.burstLength beats))

/-- The number of beats. -/
def beats (r : AddrReq) : Nat :=
  r.len + 1

end AddrReq

/-- A beat of read data. -/
structure ReadBeat where
  id : Nat := 0
  data : Word := 0
  resp : Resp := .okay
  /-- Whether the burst ends here. -/
  last : Bool := false
deriving Repr, DecidableEq, Inhabited

/-- A beat of write data; every byte of it is written. -/
structure WriteBeat where
  data : Word := 0
  last : Bool := false
deriving Repr, DecidableEq, Inhabited

/-- One bit per byte of a write beat, all set. -/
def WriteBeat.strobe (_ : WriteBeat) : Nat := 0xff

/-- The response to a write burst. -/
structure WriteResp where
  id : Nat := 0
  resp : Resp := .okay
deriving Repr, DecidableEq, Inhabited

/-- The read wires a master drives. -/
structure ReadMaster where
  ar : Option AddrReq := none
  rReady : Bool := false
deriving Repr, DecidableEq, Inhabited

/-- The read wires a slave drives. -/
structure ReadSlave where
  arReady : Bool := false
  r : Option ReadBeat := none
deriving Repr, DecidableEq, Inhabited

/-- All read wires between one master and one slave. -/
structure ReadBus where
  master : ReadMaster := {}
  slave : ReadSlave := {}
deriving Repr, DecidableEq, Inhabited

namespace ReadBus

/-- The address request that moves in this cycle. -/
def arFired (b : ReadBus) : Option AddrReq :=
  if b.slave.arReady then b.master.ar else none

/-- The data beat that moves in this cycle. -/
def rFired (b : ReadBus) : Option ReadBeat :=
  if b.master.rReady then b.slave.r else none

end ReadBus

/-- The write wires a master drives. -/
structure WriteMaster where
  aw : Option AddrReq := none
  w : Option WriteBeat := none
  bReady : Bool := false
deriving Repr, DecidableEq, Inhabited

/-- The write wires a slave drives. -/
structure WriteSlave where
  awReady : Bool := false
  wReady : Bool := false
  b : Option WriteResp := none
deriving Repr, DecidableEq, Inhabited

/-- All write wires between one master and one slave. -/
structure WriteBus where
  master : WriteMaster := {}
  slave : WriteSlave := {}
deriving Repr, DecidableEq, Inhabited

namespace WriteBus

/-- The address request that moves in this cycle. -/
def awFired (b : WriteBus) : Option AddrReq :=
  if b.slave.awReady then b.master.aw else none

/-- The data beat that moves in this cycle. -/
def wFired (b : WriteBus) : Option WriteBeat :=
  if b.slave.wReady then b.master.w else none

/-- The response that moves in this cycle. -/
def bFired (b : WriteBus) : Option WriteResp :=
  if b.master.bReady then b.slave.b else none

end WriteBus

end BurstDma
