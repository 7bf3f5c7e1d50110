import BurstDma.Bus.Signal

/-!
# Stream buffers

Words wait in a bounded buffer between an engine and the stream it serves. A beat
carries a tag that ends a frame. **With the frame latch on, a buffer that holds the
end of a frame takes nothing more**, so it never holds beats of two frames. A
counter of the tagged beats inside keeps that decision cheap.
-/

namespace BurstDma

/-- One word of a stream. -/
structure Beat where
  data : Word := 0
  /-- Whether a frame ends here. -/
  last : Bool := false
deriving Repr, DecidableEq, Inhabited

/-- A bounded buffer of beats. -/
structure Fifo where
  capacity : Nat
  /-- Whether the end of a frame closes the entrance. -/
  frameLatch : Bool
  /-- The buffered beats, oldest first. -/
  beats : List Beat := []
  /-- The number of buffered beats that end a frame. -/
  endsHeld : Nat := 0
deriving Repr, DecidableEq, Inhabited

namespace Fifo

/-- The number of buffered beats, as a 32-bit word. -/
def level (f : Fifo) : Nat :=
  f.beats.length % limit32

/-- The number of free places, as a 32-bit word. -/
def free (f : Fifo) : Nat :=
  (f.capacity - f.beats.length) % limit32

def isEmpty (f : Fifo) : Bool :=
  f.beats.isEmpty

/-- Whether the end of a frame inside keeps the entrance closed. -/
def frameHeld (f : Fifo) : Bool :=
  f.frameLatch && decide (0 < f.endsHeld)

/-- Whether a beat can enter. -/
def canPush (f : Fifo) : Bool :=
  decide (f.beats.length < f.capacity) && !f.frameHeld

/-- The buffer with one more beat, if it can enter. -/
def push? (f : Fifo) (b : Beat) : Option Fifo :=
  if f.canPush then
    some { f with beats := f.beats ++ [b], endsHeld := f.endsHeld + if b.last then 1 else 0 }
  else none

/-- The oldest beat. -/
def head? (f : Fifo) : Option Beat :=
  f.beats.head?

/-- Takes out the oldest beat, if there is one. -/
def pop (f : Fifo) : Except Fault (Option Beat × Fifo) :=
  match f.beats with
  | [] => .ok (none, f)
  | b :: rest =>
    if b.last then do
      let ends ← Checked.sub f.endsHeld 1
      return (some b, { f with beats := rest, endsHeld := ends })
    else .ok (some b, { f with beats := rest })

/-- The buffer with nothing in it. -/
def clear (f : Fifo) : Fifo :=
  { f with beats := [], endsHeld := 0 }

end Fifo

end BurstDma
