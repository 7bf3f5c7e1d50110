import BurstDma.Fault

/-!
# Skid buffers

Two places between a sender and a receiver. The first drives the output, the
second catches what arrives while the output is stalled. Whether the buffer is
ready depends on its state alone, so no ready signal runs through it within a
cycle. `contents` shows it as the queue that it is.
-/

namespace BurstDma

/-- Two places, `first` before `second`. -/
structure Skid (α : Type) where
  first : Option α := none
  second : Option α := none
deriving Repr, DecidableEq, Inhabited

namespace Skid

variable {α : Type}

/-- Whether a payload can be taken in. -/
def ready (s : Skid α) : Bool :=
  s.second.isNone

/-- The payload offered to the receiver. -/
def peek (s : Skid α) : Option α :=
  s.first

/-- Whether both places are free. -/
def isEmpty (s : Skid α) : Bool :=
  s.first.isNone && s.second.isNone

/-- The queued payloads, oldest first. -/
def contents (s : Skid α) : List α :=
  s.first.toList ++ s.second.toList

/-- The number of payloads held. -/
def size (s : Skid α) : Nat :=
  s.contents.length

/-- The receiver took the offered payload, or not. -/
def drop (s : Skid α) (popped : Bool) : Skid α :=
  if popped then ⟨s.second, none⟩ else s

/-- The sender handed over a payload. -/
def push (s : Skid α) (a : α) : Except Fault (Skid α) :=
  if s.first.isNone then .ok { s with first := some a }
  else if s.second.isNone then .ok { s with second := some a }
  else .error (.violation .skidOverrun)

/-- One clock edge: what left goes first, then what arrived goes in. -/
def tick (s : Skid α) (pushed : Option α) (popped : Bool) : Except Fault (Skid α) :=
  match pushed with
  | none => .ok (s.drop popped)
  | some a => (s.drop popped).push a

end Skid

end BurstDma
