import BurstDma.Bus.Geometry

/-!
# Round-robin grants

A grant is a one-hot vector over the requesters, so 32 of them can take part at
most. The next grant goes to the first requester after the last one, counting
upward and around.

The search is done on whole vectors. Write the request vector twice in a row, so
that counting around becomes counting upward, and subtract the last grant moved up
by one place: the borrow runs from that place up to the first request at or above
it, and flips exactly that request bit. What was set before and is clear after the
subtraction is the grant.
-/

namespace BurstDma

/-- The number of bits of a grant vector. -/
def maxRequesters : Nat := 32

namespace Grant

/-- A vector whose lowest `n` bits are set. -/
def laneMask (n : Nat) : UInt64 :=
  (1 <<< UInt64.ofNat n) - 1

/-- The grant after `last` among `n` requesters. Without a request the last grant
stays. -/
def pick (requests last : UInt32) (n : Nat) : UInt32 :=
  let mask := laneMask n
  let req := requests.toUInt64 &&& mask
  if req = 0 then last
  else
    let kept := last.toUInt64 &&& mask
    let previous := if kept = 0 then 1 else kept
    let start := ((previous <<< 1) ||| (previous >>> UInt64.ofNat (n - 1))) &&& mask
    let double := req ||| (req <<< UInt64.ofNat n)
    let found := double &&& ~~~(double - start)
    ((found ||| (found >>> UInt64.ofNat n)) &&& mask).toUInt32

/-- `pick` for a number of requesters that a vector can hold. -/
def next (requests last : UInt32) (n : Nat) : Except Fault UInt32 :=
  if 1 ≤ n ∧ n ≤ maxRequesters then .ok (pick requests last n)
  else .error (.violation (.requesterCount n))

/-- The requester that a one-hot grant names; 32 for the empty vector. -/
def index (grant : UInt32) : Nat :=
  lowestBit 32 grant.toNat

/-- The vector with exactly bit `i` set. -/
def oneHot (i : Nat) : UInt32 :=
  1 <<< UInt32.ofNat i

/-- The vector of a list of request lines, the first of them in bit 0. -/
def ofLines (lines : List Bool) : UInt32 :=
  lines.zipIdx.foldl (fun acc (asking, i) => if asking then acc ||| oneHot i else acc) 0

end Grant

/-- A grant register. -/
structure RoundRobin where
  /-- The number of requesters. -/
  lanes : Nat
  /-- The last grant. -/
  grant : UInt32 := 1
deriving Repr, DecidableEq, Inhabited

namespace RoundRobin

/-- A register for `n` requesters that last granted the first of them. -/
def ofLanes (n : Nat) : Except Fault RoundRobin :=
  if 1 ≤ n ∧ n ≤ maxRequesters then .ok { lanes := n }
  else .error (.violation (.requesterCount n))

/-- The requester granted last. -/
def selected (r : RoundRobin) : Nat :=
  Grant.index r.grant

/-- One decision over a request vector. -/
def advance (r : RoundRobin) (requests : UInt32) : RoundRobin :=
  { r with grant := Grant.pick requests r.grant r.lanes }

/-- The register as it was made. -/
def reset (r : RoundRobin) : RoundRobin :=
  { r with grant := 1 }

end RoundRobin

end BurstDma
