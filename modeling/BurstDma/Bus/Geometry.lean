import BurstDma.Fault

/-!
# The shape of the bus

A bus moves words of 1, 2, 4 or 8 bytes. The geometry turns byte addresses into
word indices and back; its arithmetic is that of 64-bit addresses. A geometry can
be written down with any number of bytes, and only `ofWordBytes?` says which of
them are legal.
-/

namespace BurstDma

/-- No burst moves more words than this. -/
def maxBurstWords : Nat := 16

/-- No burst crosses a multiple of this many bytes. -/
def boundaryBytes : Nat := 4096

/-- The width of the data path. -/
structure Geometry where
  /-- The bytes of one word. -/
  wordBytes : Nat := 8
deriving Repr, DecidableEq, Inhabited

/-- The index of the lowest set bit among `width` bits, or `width` if none is
set. -/
def lowestBit : Nat → Nat → Nat
  | 0, _ => 0
  | width + 1, n => if n % 2 = 1 then 0 else lowestBit width (n / 2) + 1

namespace Geometry

/-- The geometries that a bus can have. -/
def Legal (g : Geometry) : Prop :=
  g.wordBytes = 1 ∨ g.wordBytes = 2 ∨ g.wordBytes = 4 ∨ g.wordBytes = 8

instance (g : Geometry) : Decidable g.Legal := by
  unfold Legal
  infer_instance

/-- The geometry with words of `bytes` bytes, if a bus can have it. -/
def ofWordBytes? (bytes : Nat) : Option Geometry :=
  if (Geometry.mk bytes).Legal then some ⟨bytes⟩ else none

/-- The size field of an address request: the binary logarithm of the bytes of
a beat. -/
def sizeCode (g : Geometry) : Nat :=
  lowestBit 32 g.wordBytes

/-- The word that holds the byte at `addr`. -/
def wordIndex (g : Geometry) (addr : Nat) : Except Fault Nat :=
  Checked.div addr g.wordBytes

/-- The address of the first byte of the word at `addr`: the low bits that lie
inside a word are cleared. -/
def align (g : Geometry) (addr : Nat) : Nat :=
  addr - (addr &&& (max g.wordBytes 1 - 1))

/-- Whether `addr` is the first byte of a word. -/
def isAligned (g : Geometry) (addr : Nat) : Bool :=
  g.align addr == addr

/-- The address `words` words after `addr`. -/
def advance (g : Geometry) (addr words : Nat) : Except Fault Nat :=
  Checked.add limit64 addr (words * g.wordBytes)

/-- The whole words between `addr` and the next 4096-byte boundary, but never
fewer than one. -/
def wordsUntilBoundary (g : Geometry) (addr : Nat) : Nat :=
  max ((boundaryBytes - addr % boundaryBytes) / max g.wordBytes 1) 1

theorem ofWordBytes?_eq_some_iff {bytes : Nat} {g : Geometry} :
    ofWordBytes? bytes = some g ↔ g.wordBytes = bytes ∧ g.Legal := by
  unfold ofWordBytes?
  constructor
  · intro h
    split at h
    · rename_i hl
      injection h with h
      subst h
      exact ⟨rfl, hl⟩
    · simp at h
  · rintro ⟨rfl, hl⟩
    rw [if_pos hl]

end Geometry

end BurstDma
