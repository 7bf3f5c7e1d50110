import BurstDma.Bus.Geometry

/-!
# Cutting a transfer into bursts

A descriptor asks for some words from an address on. The bus moves them in bursts,
and **each burst is as long as it may be**: up to the limit of the descriptor, the
end of the transfer or the next 4096-byte boundary, whichever comes first. `Plan` is
what is left to cut; `Plan.next?` cuts off one burst.
-/

namespace BurstDma

/-- A transfer as the registers hand it over. -/
structure Descriptor where
  /-- The byte address of the first word. -/
  start : Nat := 0
  /-- The number of words. -/
  words : Nat := 0
  /-- The longest burst wanted. -/
  maxBurst : Nat := 0
deriving Repr, DecidableEq, Inhabited

/-- A burst limit within what the bus allows. -/
def clampBurst (n : Nat) : Nat :=
  max 1 (min n maxBurstWords)

/-- One burst. -/
structure Burst where
  addr : Nat
  words : Nat
deriving Repr, DecidableEq, Inhabited

namespace Burst

/-- The address just behind the burst. -/
def endAddr (b : Burst) (g : Geometry) : Except Fault Nat :=
  g.advance b.addr b.words

/-- Whether the first and the last byte lie in one 4096-byte window. -/
def withinBoundary (b : Burst) (g : Geometry) : Except Fault Bool := do
  let lastByte ← Checked.sub (← b.endAddr g) 1
  return b.addr / boundaryBytes == lastByte / boundaryBytes

end Burst

/-- The first sizing step: what is left, up to the limit. -/
def burstCandidate (remaining maxBurst : Nat) : Nat :=
  min remaining maxBurst

/-- The words of the next burst from `addr` on. -/
def burstLength (addr remaining maxBurst : Nat) (g : Geometry) : Nat :=
  min (burstCandidate remaining maxBurst) (g.wordsUntilBoundary addr)

/-- What is left of a transfer. -/
structure Plan where
  geometry : Geometry
  addr : Nat
  remaining : Nat
  maxBurst : Nat
deriving Repr, DecidableEq, Inhabited

namespace Descriptor

/-- A descriptor whose burst limit is within what the bus allows. -/
def clamped (start words maxBurst : Nat) : Descriptor :=
  ⟨start, words, clampBurst maxBurst⟩

/-- The whole transfer; a start inside a word moves down to the word. -/
def plan (d : Descriptor) (g : Geometry) : Plan :=
  { geometry := g
    addr := g.align d.start
    remaining := d.words
    maxBurst := clampBurst d.maxBurst }

end Descriptor

namespace Plan

/-- The next burst and what is left after it, or nothing at the end. -/
def next? (p : Plan) : Except Fault (Option (Burst × Plan)) :=
  if p.remaining = 0 then .ok none
  else do
    let words := burstLength p.addr p.remaining p.maxBurst p.geometry
    let addr ← p.geometry.advance p.addr words
    return some (⟨p.addr, words⟩, { p with addr := addr, remaining := p.remaining - words })

/-- Up to `count` bursts in order, and the fault that stopped the cutting, if one
did. -/
def take : Nat → Plan → List Burst × Option Fault
  | 0, _ => ([], none)
  | count + 1, p =>
    match p.next? with
    | .error fault => ([], some fault)
    | .ok none => ([], none)
    | .ok (some (burst, rest)) =>
      let (bursts, fault) := take count rest
      (burst :: bursts, fault)

/-- All bursts. A burst has a word at least, so there are no more bursts than
words. -/
def bursts (p : Plan) : List Burst × Option Fault :=
  p.take p.remaining

end Plan

end BurstDma
