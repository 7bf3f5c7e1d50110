import BurstDma.Memory.Image
import BurstDma.Text.Blank

/-!
# Numerals that were written can be read

A written numeral is a row of digit characters, small letters among them, that may begin
with zeros. **Reading it gives the number back**, as long as the number is within the limit.
The reader looks at the size of the number after every digit; what it sees then is the
number without its last digits, and that is no larger.
-/

namespace BurstDma

/-- A character that stands for a digit in what is written. -/
def IsWrittenDigit (c : Char) : Prop :=
  ∃ d : Fin 16, c = Nat.digitChar d

/-- No digit is a blank or a sign with a meaning of its own. -/
theorem IsWrittenDigit.plain {c : Char} (h : IsWrittenDigit c) :
    Text.isBlank c = false ∧ c ≠ '#' ∧ c ≠ '+' ∧ c ≠ 'x' ∧ c ≠ 'X' := by
  obtain ⟨d, rfl⟩ := h
  revert d
  decide

namespace Radix

variable {r : Radix} {limit n : Nat}

theorem base_le (r : Radix) : r.base ≤ 16 := by
  cases r <;> decide

/-- A digit character stands for its digit. -/
theorem digit?_digitChar {d : Nat} (h : d < r.base) : r.digit? (Nat.digitChar d) = some d := by
  have hten : ∀ d : Fin 10, ten.digit? (Nat.digitChar d) = some d.val := by decide
  have hsixteen : ∀ d : Fin 16, sixteen.digit? (Nat.digitChar d) = some d.val := by decide
  cases r with
  | ten => exact hten ⟨d, h⟩
  | sixteen => exact hsixteen ⟨d, h⟩

/-! ## Digit after digit -/

theorem readDigits_append (r : Radix) (limit m : Nat) (cs ds : List Char) :
    r.readDigits limit m (cs ++ ds)
      = (r.readDigits limit m cs).bind fun k => r.readDigits limit k ds := by
  induction cs generalizing m with
  | nil => rfl
  | cons c cs ih =>
      rw [List.cons_append, readDigits, readDigits]
      cases r.digit? c with
      | none => rfl
      | some d =>
          dsimp only
          split
          · exact ih _
          · rfl

theorem readDigits_digitChar {m d : Nat} (hd : d < r.base) (h : m * r.base + d < limit) :
    r.readDigits limit m [Nat.digitChar d] = .ok (m * r.base + d) := by
  rw [readDigits, digit?_digitChar hd]
  dsimp only
  rw [if_pos h]
  rfl

/-- Zeros in front count for nothing. -/
theorem readDigits_zeros (h : 0 < limit) (k : Nat) (cs : List Char) :
    r.readDigits limit 0 (List.replicate k '0' ++ cs) = r.readDigits limit 0 cs := by
  induction k with
  | zero => rfl
  | succ k ih =>
      have hzero : r.digit? '0' = some 0 := by cases r <;> rfl
      rw [List.replicate_succ, List.cons_append, readDigits, hzero]
      dsimp only
      rw [Nat.zero_mul, Nat.zero_add, if_pos h, ih]

/-- **What is written as a number reads as the number.** -/
theorem readDigits_write (h : n < limit) : r.readDigits limit 0 (r.write n) = .ok n := by
  have hbase := r.two_le_base
  induction n using Nat.strongRecOn with
  | ind n ih =>
      unfold write
      by_cases hn : n < r.base
      · rw [if_pos hn, readDigits_digitChar hn (by omega), Nat.zero_mul, Nat.zero_add]
      · -- all digits but the last are the number without its last digit
        have hdiv : n / r.base < n := Nat.div_lt_self (by omega) (by omega)
        have hwhole : n / r.base * r.base + n % r.base = n := Nat.div_add_mod' n r.base
        rw [if_neg hn, readDigits_append, ih _ hdiv (Nat.lt_trans hdiv h)]
        exact (readDigits_digitChar (Nat.mod_lt _ (by omega)) (by omega)).trans
          (congrArg Except.ok hwhole)

/-! ## What is written -/

theorem isWrittenDigit_of_mem_write {c : Char} (h : c ∈ r.write n) : IsWrittenDigit c := by
  have hbase := r.base_le
  induction n using Nat.strongRecOn with
  | ind n ih =>
      unfold write at h
      by_cases hn : n < r.base
      · rw [if_pos hn] at h
        exact ⟨⟨n, by omega⟩, List.mem_singleton.mp h⟩
      · have htwo := r.two_le_base
        rw [if_neg hn] at h
        rcases List.mem_append.mp h with h | h
        · exact ih _ (Nat.div_lt_self (by omega) (by omega)) h
        · have hlast : n % r.base < r.base := Nat.mod_lt _ (by omega)
          exact ⟨⟨n % r.base, by omega⟩, List.mem_singleton.mp h⟩

theorem write_ne_nil (r : Radix) (n : Nat) : r.write n ≠ [] := by
  unfold write
  split
  · exact List.cons_ne_nil _ _
  · exact List.append_ne_nil_of_right_ne_nil _ (List.cons_ne_nil _ _)

theorem isWrittenDigit_of_mem_writeWide {width : Nat} {c : Char}
    (h : c ∈ r.writeWide width n) : IsWrittenDigit c := by
  rcases List.mem_append.mp h with h | h
  · rw [List.eq_of_mem_replicate h]
    exact ⟨0, rfl⟩
  · exact isWrittenDigit_of_mem_write h

theorem writeWide_ne_nil (r : Radix) (width n : Nat) : r.writeWide width n ≠ [] :=
  List.append_ne_nil_of_right_ne_nil _ (r.write_ne_nil n)

/-! ## Reading it back -/

/-- A row of digits has no sign in front, so all of it is read. -/
theorem read_of_digits {cs : List Char} (hne : cs ≠ []) (hcs : ∀ c ∈ cs, IsWrittenDigit c) :
    r.read limit cs = r.readDigits limit 0 cs := by
  unfold read
  split
  · exact absurd rfl hne
  · exact absurd rfl (hcs '+' List.mem_cons_self).plain.2.2.1
  · exact absurd rfl (hcs '+' List.mem_cons_self).plain.2.2.1
  · rfl

theorem read_write (h : n < limit) : r.read limit (r.write n) = .ok n := by
  rw [read_of_digits (r.write_ne_nil n) fun c hc => isWrittenDigit_of_mem_write hc]
  exact readDigits_write h

theorem read_writeWide (width : Nat) (h : n < limit) :
    r.read limit (r.writeWide width n) = .ok n := by
  rw [read_of_digits (r.writeWide_ne_nil width n) fun c hc => isWrittenDigit_of_mem_writeWide hc]
  unfold writeWide
  rw [readDigits_zeros (Nat.zero_lt_of_lt h)]
  exact readDigits_write h

end Radix

/-! ## Marks -/

namespace Text

/-- In a row of digits no mark is found. -/
theorem dropMarks_of_digits {mark : Char} {cs : List Char} (hmark : ¬ IsWrittenDigit mark)
    (hcs : ∀ c ∈ cs, IsWrittenDigit c) : dropMarks mark cs = cs := by
  unfold dropMarks
  split
  · rename_i c rest
    have hc : c ≠ mark := by
      rintro rfl
      exact hmark (hcs _ (List.mem_cons_of_mem _ List.mem_cons_self))
    exact if_neg hc
  · rfl

theorem withoutHexMarks_of_digits {cs : List Char} (hcs : ∀ c ∈ cs, IsWrittenDigit c) :
    withoutHexMarks cs = cs := by
  unfold withoutHexMarks
  rw [dropMarks_of_digits (fun h => h.plain.2.2.2.1 rfl) hcs,
    dropMarks_of_digits (fun h => h.plain.2.2.2.2 rfl) hcs]

end Text

end BurstDma
