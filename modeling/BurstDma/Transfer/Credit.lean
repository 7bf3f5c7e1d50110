import BurstDma.Journal.Run

/-!
# Credit

An engine keeps count of what it was granted and has not moved yet. A reader may
ask for a burst only if its buffer has room for that burst **and for every word
already on its way**; a writer may ask only when its buffer holds the whole burst.
-/

namespace BurstDma

/-- Words and bursts granted whose data has not moved yet. -/
structure Pending where
  words : Nat := 0
  bursts : Nat := 0
deriving Repr, DecidableEq, Inhabited

namespace Pending

/-- Whether nothing is on its way. -/
def isIdle (p : Pending) : Bool :=
  p.words == 0 && p.bursts == 0

/-- A burst was granted. -/
def issue (p : Pending) (beats : Nat) : Except Fault Pending := do
  let words ← Checked.add limit32 p.words beats
  let bursts ← Checked.add limit32 p.bursts 1
  return ⟨words, bursts⟩

/-- A word moved, and with it the burst if it was the last one. Data that nobody
awaited is told and otherwise ignored. -/
def retire (p : Pending) (last : Bool) : Run Pending := do
  Run.noteIf (p.words == 0) .beatWithoutPending
  Run.noteIf (last && p.bursts == 0) .burstEndWithoutPending
  return ⟨p.words - 1, if last then p.bursts - 1 else p.bursts⟩

/-- Whether the free places cover what is on its way and a burst more. -/
def readCredit (p : Pending) (free burst : Nat) : Except Fault Bool := do
  let needed ← Checked.add limit32 p.words burst
  return needed ≤ free

/-- Whether the buffered words cover a burst. -/
def writeCredit (level burst : Nat) : Bool :=
  burst ≤ level

end Pending

end BurstDma
