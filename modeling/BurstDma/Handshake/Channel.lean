/-!
# Wires that keep their value

A wire carries a value and says whether the value counts. Clearing a wire leaves
the value in place, and comparing two wires sees it. A channel is a wire from the
sender and a ready line from the receiver; the value moves in a cycle in which both
are set.
-/

namespace BurstDma

/-- A value, and whether it counts. -/
structure Wire (α : Type) where
  value : α
  valid : Bool := false
deriving Repr, DecidableEq, Inhabited

namespace Wire

variable {α : Type}

/-- Drives a value. -/
def set (_ : Wire α) (a : α) : Wire α :=
  ⟨a, true⟩

/-- The value stays but no longer counts. -/
def clear (w : Wire α) : Wire α :=
  { w with valid := false }

/-- Drives a value or none. -/
def drive (w : Wire α) : Option α → Wire α
  | some a => w.set a
  | none => w.clear

/-- The value if it counts. -/
def get? (w : Wire α) : Option α :=
  if w.valid then some w.value else none

@[simp] theorem get?_drive (w : Wire α) (a : Option α) : (w.drive a).get? = a := by
  cases a <;> rfl

end Wire

/-- A wire from the sender and a ready line from the receiver. -/
structure Channel (α : Type) where
  data : Wire α
  ready : Bool := false
deriving Repr, DecidableEq, Inhabited

namespace Channel

variable {α : Type}

/-- Whether the value moves in this cycle. -/
def fires (c : Channel α) : Bool :=
  c.data.valid && c.ready

/-- The value that moves in this cycle. -/
def fired? (c : Channel α) : Option α :=
  if c.fires then some c.data.value else none

/-- Takes the sender's half from another channel. -/
def forwardFrom (c other : Channel α) : Channel α :=
  { c with data := other.data }

/-- Takes the receiver's half from another channel. -/
def backwardFrom (c other : Channel α) : Channel α :=
  { c with ready := other.ready }

end Channel

end BurstDma
