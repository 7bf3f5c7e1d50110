import BurstDma.Stream.Fifo

/-!
# The two ends of a stream

A source feeds queued beats into a buffer, a sink takes beats out of one and keeps
them. Both may be throttled: after each beat they rest for some cycles. A beat that
the buffer refuses stays queued and starts no rest.
-/

namespace BurstDma

/-- Where a stream comes from. -/
structure Source where
  /-- The cycles of rest between two beats. -/
  throttle : Nat := 0
  queue : List Beat := []
  /-- The cycles of rest still to go. -/
  wait : Nat := 0
  /-- The number of beats that entered the buffer. -/
  pushed : Nat := 0
deriving Repr, DecidableEq, Inhabited

namespace Source

/-- Queues more beats. -/
def extend (s : Source) (beats : List Beat) : Source :=
  { s with queue := s.queue ++ beats }

def isDrained (s : Source) : Bool :=
  s.queue.isEmpty

/-- One cycle: the beat that entered the buffer, and both ends after it. -/
def tick (s : Source) (f : Fifo) : Option Beat × Source × Fifo :=
  if 0 < s.wait then (none, { s with wait := s.wait - 1 }, f)
  else
    match s.queue with
    | [] => (none, s, f)
    | b :: rest =>
      match f.push? b with
      | none => (none, s, f)
      | some f =>
        (some b, { s with queue := rest, pushed := s.pushed + 1, wait := s.throttle }, f)

/-- Drops what is queued, and any rest. -/
def clear (s : Source) : Source :=
  { s with queue := [], wait := 0 }

end Source

/-- Where a stream goes. -/
structure Sink where
  /-- The cycles of rest between two beats. -/
  throttle : Nat := 0
  /-- The beats kept, newest first. -/
  newestFirst : List Beat := []
  /-- The cycles of rest still to go. -/
  wait : Nat := 0
deriving Repr, DecidableEq, Inhabited

namespace Sink

/-- The beats kept, in the order of their arrival. -/
def received (s : Sink) : List Beat :=
  s.newestFirst.reverse

/-- The number of beats kept. -/
def count (s : Sink) : Nat :=
  s.newestFirst.length

/-- One cycle: the beat that left the buffer, and both ends after it. -/
def tick (s : Sink) (f : Fifo) : Except Fault (Option Beat × Sink × Fifo) :=
  if 0 < s.wait then .ok (none, { s with wait := s.wait - 1 }, f)
  else do
    let (beat, f) ← f.pop
    match beat with
    | none => return (none, s, f)
    | some b =>
      return (some b, { s with newestFirst := b :: s.newestFirst, wait := s.throttle }, f)

/-- Hands over the beats kept. -/
def take (s : Sink) : List Beat × Sink :=
  (s.received, { s with newestFirst := [] })

/-- Drops what was kept, and any rest. -/
def clear (s : Sink) : Sink :=
  { s with newestFirst := [], wait := 0 }

@[simp] theorem length_received (s : Sink) : s.received.length = s.count := by
  simp [received, count]

end Sink

end BurstDma
