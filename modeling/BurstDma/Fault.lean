/-!
# Faults

The hardware model computes with words of fixed width. A sum that does not fit
its word, a difference below zero, an index outside an array and a broken
protocol rule all stop the model at once: there is no state after them. A
computation that may end so lives in `Except Fault`.
-/

namespace BurstDma

/-- A rule that the model checks when it is built and while it runs. -/
inductive Violation where
  /-- A grant is a one-hot 32-bit vector, so 1 to 32 requesters can take part. -/
  | requesterCount (n : Nat)
  /-- A burst has 1 to 16 beats. -/
  | burstLength (beats : Nat)
  /-- A skid buffer was pushed while both its places were taken. -/
  | skidOverrun
  /-- A read beat came back for another requester than the oldest waiting one. -/
  | readOutOfOrder
  /-- A buffer of more bytes was asked for than can be counted. -/
  | capacityOverflow
deriving Repr, DecidableEq

/-- The wording of a broken rule. -/
def Violation.message : Violation → String
  | .requesterCount n => s!"requester count {n} out of range"
  | .burstLength beats => s!"illegal burst length {beats}"
  | .skidOverrun => "skid buffer overrun"
  | .readOutOfOrder => "read data out of order"
  | .capacityOverflow => "capacity overflow"

/-- Why the model stopped. -/
inductive Fault where
  /-- A result outside its word, or a division by zero. -/
  | arithmetic
  /-- An index outside its array. -/
  | index
  /-- A broken rule. -/
  | violation (v : Violation)
deriving Repr, DecidableEq

namespace Checked

/-- `a + b`, which has to stay below `limit`. -/
def add (limit a b : Nat) : Except Fault Nat :=
  if a + b < limit then .ok (a + b) else .error .arithmetic

/-- `a - b`, which has to exist. -/
def sub (a b : Nat) : Except Fault Nat :=
  if b ≤ a then .ok (a - b) else .error .arithmetic

/-- `a * b`, which has to stay below `limit`. -/
def mul (limit a b : Nat) : Except Fault Nat :=
  if a * b < limit then .ok (a * b) else .error .arithmetic

/-- `a / b` for a `b` other than zero. -/
def div (a b : Nat) : Except Fault Nat :=
  if b = 0 then .error .arithmetic else .ok (a / b)

theorem add_eq_ok_iff {limit a b c : Nat} :
    add limit a b = .ok c ↔ a + b < limit ∧ c = a + b := by
  unfold add
  split
  · simp_all [eq_comm]
  · simp only [reduceCtorEq, false_iff]
    omega

theorem add_eq_error_iff {limit a b : Nat} {fault : Fault} :
    add limit a b = .error fault ↔ limit ≤ a + b ∧ fault = .arithmetic := by
  unfold add
  split
  · simp only [reduceCtorEq, false_iff]
    omega
  · simp_all [eq_comm]

theorem sub_eq_ok_iff {a b c : Nat} : sub a b = .ok c ↔ b ≤ a ∧ c = a - b := by
  unfold sub
  split
  · simp_all [eq_comm]
  · simp only [reduceCtorEq, false_iff]
    omega

end Checked

/-- The numbers of a 32-bit word lie below this. -/
def limit32 : Nat := 4294967296

/-- The numbers of a 64-bit word lie below this. -/
def limit64 : Nat := 18446744073709551616

/-- The bytes of a buffer lie below this. -/
def limitBytes : Nat := 9223372036854775808

/-- Whether a number fits into a 64-bit word with a sign. -/
def fitsSigned64 (n : Int) : Bool :=
  decide (-9223372036854775808 ≤ n) && decide (n ≤ 9223372036854775807)

end BurstDma
