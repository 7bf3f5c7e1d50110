import BurstDma.Script.Writer
import BurstDma.Stream.Fifo
import BurstDma.Transfer.Register

/-!
# Loopback vectors

A self-check of the whole system. Every port streams frames into memory with its writer
and reads each of them back with its reader, so **its sink has to see what its source
sent**, and the memory has to hold all frames side by side.

Two scripts per port keep in step over the writer's interrupt bit. The reader's script
clears it once it has seen it, and the writer's script waits for that before it hands
over the next frame. Two completions therefore never merge into one bit.
-/

namespace BurstDma

/-- The size of a self-check. -/
structure Loopback where
  ports : Nat := 2
  /-- The frames of every port. -/
  frames : Nat := 4
  /-- The words of every frame. -/
  words : Nat := 40
  /-- Whether the writers take the length of a frame from the stream. -/
  frameMode : Bool := false
  wordBytes : Nat := 8
deriving Repr, DecidableEq, Inhabited

/-- What a self-check consists of. -/
structure LoopbackVectors where
  /-- What every port's source sends. -/
  inputs : List (List Beat)
  writerScripts : List String
  readerScripts : List String
  /-- What the memory has to hold in the end. -/
  memoryRef : List Word
  memoryWords : Nat
deriving Repr, DecidableEq, Inhabited

namespace Loopback

/-- The smallest memory of a self-check, in words. -/
def minMemoryWords : Nat := 1024

/-- The data of word `i` on a port. -/
def pattern (port i : Nat) : Except Fault Word := do
  let factor ← Checked.add limit64 port 1
  let product ← Checked.mul limit64 factor i
  return UInt64.ofNat (product % 256)

/-- The burst limit of a frame; all limits take their turn. -/
def frameBurst (frame : Nat) : Nat :=
  frame % 16 + 1

/-- The words of all frames. -/
def totalWords (l : Loopback) : Nat :=
  l.ports * l.frames * l.words

/-- Whether every frame has an address that the START register can hold. -/
def fits (l : Loopback) : Bool :=
  decide (l.ports * l.frames < limit64) && decide (l.totalWords < limit64)
    && decide (l.totalWords * l.wordBytes < limit32)

/-- The index of the first word of a frame: the frames of all ports lie side by side. -/
def frameBase (l : Loopback) (port frame : Nat) : Nat :=
  (port * l.frames + frame) * l.words

/-- The byte address of a frame. -/
def frameAddress (l : Loopback) (port frame : Nat) : Nat :=
  l.frameBase port frame * l.wordBytes

/-- The beats of a frame. -/
def frameBeats (l : Loopback) (port frame : Nat) : Except Fault (List Beat) :=
  (List.range l.words).mapM fun w => do
    return ⟨← pattern port (frame * l.words + w), w + 1 == l.words⟩

/-- What a port's source sends. -/
def portBeats (l : Loopback) (port : Nat) : Except Fault (List Beat) := do
  return (← (List.range l.frames).mapM (l.frameBeats port)).flatten

/-! ## Scripts -/

/-- A line that writes a register. -/
def writeLine (port : Nat) (side : Side) (r : Register) (data : Nat) (remark : String) :
    Script.Line where
  command := some (.write (Register.address port side r.index) (UInt32.ofNat data))
  remark := remark

/-- Hands a frame over to an engine. -/
def submitLines (l : Loopback) (port : Nat) (side : Side) (frame words : Nat)
    (remark : String) : List Script.Line :=
  [writeLine port side .start (l.frameAddress port frame) remark,
   writeLine port side .length words "",
   writeLine port side .burst (frameBurst frame) "",
   writeLine port side .valid 1 "",
   writeLine port side .valid 0 ""]

/-- Stores a frame, and waits until the reader's script has seen it stored. -/
def writerFrame (l : Loopback) (port frame : Nat) : List Script.Line :=
  l.submitLines port .writer frame (if l.frameMode then 0 else l.words) s!"write frame {frame}"
    ++ [⟨some (.waitIrq (2 * port)), s!"wait for writer (frame {frame})"⟩,
        ⟨some (.poll (Register.address port .writer Register.irq.index) 0),
          s!"reader took frame {frame}"⟩]

/-- Waits until a frame is stored, and reads it back. -/
def readerFrame (l : Loopback) (port frame : Nat) : List Script.Line :=
  [⟨some (.waitIrq (2 * port)), s!"wait for writer (frame {frame})"⟩,
   writeLine port .writer .irq 0 "clear writer irq"]
    ++ l.submitLines port .reader frame l.words s!"read frame {frame}"
    ++ [⟨some (.waitIrq (2 * port + 1)), s!"wait for reader (frame {frame})"⟩,
        writeLine port .reader .irq 0 "clear reader irq"]

/-- The script of a port's writer. -/
def writerScript (l : Loopback) (port : Nat) : List Script.Line :=
  ⟨none, s!"port {port} writer"⟩ :: (List.range l.frames).flatMap (l.writerFrame port)

/-- The script of a port's reader. -/
def readerScript (l : Loopback) (port : Nat) : List Script.Line :=
  ⟨none, s!"port {port} reader"⟩ :: (List.range l.frames).flatMap (l.readerFrame port)

/-! ## All together -/

/-- Whether there is a frame at all. -/
def hasFrames (l : Loopback) : Bool :=
  decide (0 < l.ports) && decide (0 < l.frames)

/-- The vectors of a self-check. Frames have no place in a memory of words without
bytes. -/
def generate (l : Loopback) : Except Stop LoopbackVectors :=
  if !l.fits then .error (.problem (.refused (.layoutTooLarge l.ports l.frames l.words)))
  else if l.hasFrames && l.wordBytes == 0 then .error (.fault .arithmetic)
  else
    let ports := List.range l.ports
    match ports.mapM l.portBeats with
    | .error fault => .error (.fault fault)
    | .ok inputs =>
      let memoryWords := max l.totalWords minMemoryWords
      .ok {
        inputs
        writerScripts := ports.map fun p => Script.write (l.writerScript p)
        readerScripts := ports.map fun p => Script.write (l.readerScript p)
        memoryRef :=
          inputs.flatten.map (·.data) ++ List.replicate (memoryWords - l.totalWords) 0
        memoryWords }

end Loopback

end BurstDma
