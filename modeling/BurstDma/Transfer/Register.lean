import BurstDma.Journal.Run
import BurstDma.Transfer.Plan

/-!
# The registers of an engine

Eight 32-bit registers. START, LENGTH and BURST stage a descriptor; writing a one to
VALID copies them into a holding place for one descriptor, which the engine empties
when it is idle. A descriptor handed over while the place is taken is dropped and
counted. IRQ is set by a finished transfer and stays set until it is written.
-/

namespace BurstDma

/-- The registers by their meaning. -/
inductive Register where
  | start
  | length
  | burst
  | valid
  | remaining
  | error
  | fifo
  | irq
deriving Repr, DecidableEq, Inhabited

namespace Register

/-- All registers, by index. -/
def all : List Register :=
  [start, length, burst, valid, remaining, error, fifo, irq]

/-- The index of a register. -/
def index : Register → Nat
  | start => 0
  | length => 1
  | burst => 2
  | valid => 3
  | remaining => 4
  | error => 5
  | fifo => 6
  | irq => 7

/-- The register with an index. -/
def ofIndex? (i : Nat) : Option Register :=
  all[i]?

/-- The index that a byte offset addresses: registers lie four bytes apart, and
there are eight. -/
def indexOfOffset (offset : UInt32) : Nat :=
  ((offset >>> 2) &&& 7).toNat

/-- The bit of a register address that selects the reader of a port. -/
def readerSelect : UInt32 :=
  0x80000000

/-- The byte address of a register of one engine. Of the port only the low eight
bits count, and of the index what still fits the word. -/
def address (port : Nat) (side : Side) (index : Nat) : UInt32 :=
  (if side = .reader then readerSelect else 0)
    ||| ((UInt32.ofNat port &&& 0xff) <<< 16)
    ||| (UInt32.ofNat index <<< 2)

end Register

/-- The live state of an engine that its registers show. -/
structure EngineStatus where
  remaining : Nat := 0
  error : Resp := .okay
  fifoLevel : Nat := 0
deriving Repr, DecidableEq, Inhabited

/-- The register file of one engine. -/
structure RegisterFile where
  start : UInt32 := 0
  length : UInt32 := 0
  burst : UInt32 := 0
  /-- The descriptor that waits for the engine. -/
  holding : Option Descriptor := none
  irq : Bool := false
  /-- Whether the engine's error latch is to be cleared in the next cycle. -/
  clearError : Bool := false
  /-- The number of descriptors dropped. -/
  dropped : Nat := 0
deriving Repr, DecidableEq, Inhabited

namespace RegisterFile

/-- The staged descriptor. -/
def staged (f : RegisterFile) : Descriptor :=
  Descriptor.clamped f.start.toNat f.length.toNat f.burst.toNat

/-- Hands the staged descriptor over. -/
def submit (f : RegisterFile) : Run RegisterFile :=
  match f.holding with
  | none => pure { f with holding := some f.staged }
  | some _ => do
    Run.note (.descriptorDropped f.staged.start f.staged.words)
    return { f with dropped := f.dropped + 1 }

/-- Writes a register by its index. The registers that only show something refuse
to be written. -/
def write (f : RegisterFile) (index : Nat) (value : UInt32) : Run RegisterFile :=
  match Register.ofIndex? index with
  | some .start => pure { f with start := value }
  | some .length => pure { f with length := value }
  | some .burst => pure { f with burst := value }
  | some .valid => if value &&& 1 = 0 then pure f else f.submit
  | some .error => pure { f with clearError := true }
  | some .irq => pure { f with irq := value &&& 1 != 0 }
  | _ => do
    Run.note (.readOnlyWrite index)
    return f

/-- Reads a register by its index; an index without a register reads zero. -/
def read (f : RegisterFile) (index : Nat) (status : EngineStatus) : UInt32 :=
  match Register.ofIndex? index with
  | some .start => f.start
  | some .length => f.length
  | some .burst => f.burst
  | some .valid => if f.holding.isSome then 1 else 0
  | some .remaining => UInt32.ofNat status.remaining
  | some .error => UInt32.ofNat status.error.code
  | some .fifo => UInt32.ofNat status.fifoLevel
  | some .irq => if f.irq then 1 else 0
  | none => 0

/-- The engine took the waiting descriptor. -/
def consume (f : RegisterFile) : RegisterFile :=
  { f with holding := none }

/-- A transfer is done. -/
def raiseIrq (f : RegisterFile) : RegisterFile :=
  { f with irq := true }

/-- The request to clear the error latch has been passed on. -/
def cleared (f : RegisterFile) : RegisterFile :=
  { f with clearError := false }

end RegisterFile

end BurstDma
