/-!
# Engine counters
-/

namespace BurstDma

/-- What an engine has done since it was built; a reset keeps it. -/
structure EngineStats where
  bursts : Nat := 0
  words : Nat := 0
  transfers : Nat := 0
  /-- The error responses seen. -/
  errors : Nat := 0
deriving Repr, DecidableEq, Inhabited

end BurstDma
