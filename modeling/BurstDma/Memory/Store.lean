import BurstDma.Problem
import BurstDma.Bus.Signal

/-!
# The words of a memory

A store is an array of words. A byte range of it can be declared faulty: every access
to such a region is answered with the region's response. `locate` is the one place that
decides where an address leads.
-/

namespace BurstDma

/-- The addresses from `first` on and below `limit` answer every access with `resp`. -/
structure ErrorRegion where
  first : Nat
  limit : Nat
  resp : Resp
deriving Repr, DecidableEq, Inhabited

def ErrorRegion.contains (r : ErrorRegion) (addr : Nat) : Bool :=
  decide (r.first ≤ addr) && decide (addr < r.limit)

/-- What a memory is made from. -/
structure MemoryParams where
  sizeWords : Nat := 16384
  /-- The cycles from a read address to its first beat, at least one. -/
  readLatency : Nat := 4
  /-- The cycles from a committed write to its response, at least one. -/
  writeLatency : Nat := 2
  /-- The bound on the read bursts in flight. -/
  readOutstanding : Nat := 4
  errorRegions : List ErrorRegion := []
deriving Repr, DecidableEq, Inhabited

/-- Words, and the regions that fail. -/
structure Store where
  geometry : Geometry
  regions : List ErrorRegion
  words : Array Word
deriving Repr, DecidableEq, Inhabited

namespace Store

/-- A store of zeros. -/
def zeros (g : Geometry) (p : MemoryParams) : Store where
  geometry := g
  regions := p.errorRegions
  words := Array.replicate p.sizeWords 0

/-- The number of words. -/
def size (s : Store) : Nat :=
  s.words.size

/-- The word at an index. -/
def get? (s : Store) (i : Nat) : Option Word :=
  s.words[i]?

/-- Changes the word at an index; an index outside changes nothing. -/
def set (s : Store) (i : Nat) (w : Word) : Store :=
  { s with words := s.words.setIfInBounds i w }

/-- Copies words to the indices from `base` on. -/
def fill (s : Store) (base : Nat) : List Word → Store
  | [] => s
  | w :: rest => (s.set base w).fill (base + 1) rest

/-- Copies words to the indices from `base` on, which all have to exist. -/
def load (s : Store) (base : Nat) (words : List Word) : Except Stop Store :=
  if limit64 ≤ base + words.length then .error (.fault .arithmetic)
  else if s.size < base + words.length then
    .error (.problem (.refused (.imageOverflow words.length base s.size)))
  else .ok (s.fill base words)

/-- The words other than zero with their indices. -/
def nonzero (s : Store) : List (Nat × Word) :=
  (s.words.toList.zipIdx.filter (·.1 != 0)).map fun (w, i) => (i, w)

/-- Where an address leads: to a word, or to the response that an access gets
instead. -/
def locate (s : Store) (addr : Nat) : Except Fault (Except Resp Nat) :=
  match s.regions.find? (·.contains addr) with
  | some region => .ok (.error region.resp)
  | none => do
    let index ← s.geometry.wordIndex addr
    return if index < s.size then .ok index else .error .decErr

/-- The data and response of a read access. -/
def readAt (s : Store) (addr : Nat) : Except Fault (Word × Resp) := do
  match ← s.locate addr with
  | .ok index => return ((s.get? index).getD 0, .okay)
  | .error resp => return (0, resp)

/-- A write access: the store after it, and the response if it was not stored. -/
def writeAt (s : Store) (addr : Nat) (w : Word) : Except Fault (Store × Resp) := do
  match ← s.locate addr with
  | .ok index => return (s.set index w, .okay)
  | .error resp => return (s, resp)

@[simp] theorem size_set (s : Store) (i : Nat) (w : Word) : (s.set i w).size = s.size := by
  simp [size, set]

@[simp] theorem get?_set_self (s : Store) {i : Nat} (w : Word) (h : i < s.size) :
    (s.set i w).get? i = some w := by
  have h' : i < s.words.size := h
  simp [get?, set, h']

@[simp] theorem get?_set_of_ne (s : Store) {i j : Nat} (w : Word) (h : i ≠ j) :
    (s.set i w).get? j = s.get? j := by
  simp [get?, set, h]

end Store

end BurstDma
