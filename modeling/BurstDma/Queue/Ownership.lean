/-!
# Who owns the next read beat

The memory answers reads in the order it accepted them. It is therefore enough to
remember, per accepted burst, which requester it belongs to: the oldest entry owns
the beat on the data channel, and it leaves with the last beat of its burst. The
depth of the queue bounds the reads in flight.
-/

namespace BurstDma

/-- Requesters of the bursts in flight, oldest first. -/
structure Ownership where
  depth : Nat
  ids : List Nat := []
deriving Repr, DecidableEq, Inhabited

namespace Ownership

/-- The number of bursts in flight. -/
def size (q : Ownership) : Nat :=
  q.ids.length

def isEmpty (q : Ownership) : Bool :=
  q.ids.isEmpty

def isFull (q : Ownership) : Bool :=
  q.depth ≤ q.size

/-- The owner of the beat on the data channel. -/
def head? (q : Ownership) : Option Nat :=
  q.ids.head?

/-- The queue with one more burst, unless it is full. -/
def push? (q : Ownership) (id : Nat) : Option Ownership :=
  if q.isFull then none else some { q with ids := q.ids ++ [id] }

/-- The queue without its oldest burst. -/
def pop (q : Ownership) : Ownership :=
  { q with ids := q.ids.tail }

def clear (q : Ownership) : Ownership :=
  { q with ids := [] }

end Ownership

end BurstDma
