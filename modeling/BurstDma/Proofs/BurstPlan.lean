import BurstDma.Proofs.Range

/-!
# One burst of a plan at a time

A plan is cut with a bound on the number of bursts, which is the number of words. Here the
bound disappears: **a plan that is not used up is its first burst and the plan of the
rest**, and cutting never fails while the transfer ends below the top of the address space.
-/

namespace BurstDma

namespace Plan

/-- The words of the next burst. -/
def firstWords (p : Plan) : Nat :=
  burstLength p.addr p.remaining p.maxBurst p.geometry

/-- The next burst. -/
def first (p : Plan) : Burst :=
  ⟨p.addr, p.firstWords⟩

/-- What is left behind the next burst. -/
def rest (p : Plan) : Plan :=
  { p with addr := p.addr + p.firstWords * p.geometry.wordBytes
           remaining := p.remaining - p.firstWords }

/-- The plan allows bursts, and ends below the top of the address space. -/
structure Fits (p : Plan) : Prop where
  maxBurst : 1 ≤ p.maxBurst
  top : p.addr + p.remaining * p.geometry.wordBytes < limit64

variable {p : Plan}

theorem firstWords_le (p : Plan) : p.firstWords ≤ p.remaining :=
  Nat.le_trans (Nat.min_le_left _ _) (Nat.min_le_left _ _)

/-- A burst has a word at least. -/
theorem firstWords_pos (hmax : 1 ≤ p.maxBurst) (hpos : 0 < p.remaining) : 0 < p.firstWords := by
  have hbound := wordsUntilBoundary_pos p.geometry p.addr
  unfold firstWords burstLength burstCandidate
  omega

theorem rest_remaining_lt (hmax : 1 ≤ p.maxBurst) (hpos : 0 < p.remaining) :
    p.rest.remaining < p.remaining :=
  Nat.sub_lt hpos (firstWords_pos hmax hpos)

/-- The rest of a plan ends where the plan ends. -/
theorem rest_top (p : Plan) :
    p.rest.addr + p.rest.remaining * p.rest.geometry.wordBytes
      = p.addr + p.remaining * p.geometry.wordBytes := by
  show p.addr + p.firstWords * p.geometry.wordBytes
    + (p.remaining - p.firstWords) * p.geometry.wordBytes = _
  rw [Nat.add_assoc, ← Nat.add_mul, Nat.add_sub_cancel' p.firstWords_le]

theorem Fits.rest (h : p.Fits) : p.rest.Fits :=
  ⟨h.maxBurst, by rw [rest_top]; exact h.top⟩

/-- Cutting ends where nothing is left. -/
theorem next?_eq_none_iff : p.next? = .ok none ↔ p.remaining = 0 := by
  unfold next?
  split
  · rename_i hz
    exact iff_of_true rfl hz
  · rename_i hpos
    refine iff_of_false (fun h => ?_) hpos
    obtain ⟨addr, _, h⟩ := except_bind_eq_ok.mp h
    cases h

/-- A burst is cut off if there is an address behind it. -/
theorem next?_eq_some_iff {b : Burst} {q : Plan} : p.next? = .ok (some (b, q)) ↔
    0 < p.remaining ∧ p.rest.addr < limit64 ∧ b = p.first ∧ q = p.rest := by
  unfold next?
  split
  · rename_i hz
    exact iff_of_false nofun fun h => absurd hz (Nat.ne_of_gt h.1)
  · rename_i hpos
    rw [except_bind_eq_ok]
    constructor
    · rintro ⟨addr, hadvance, h⟩
      obtain ⟨hlt, rfl⟩ := Checked.add_eq_ok_iff.mp hadvance
      cases h
      exact ⟨Nat.pos_of_ne_zero hpos, hlt, rfl, rfl⟩
    · rintro ⟨_, hlt, rfl, rfl⟩
      exact ⟨_, Checked.add_ok hlt, rfl⟩

/-- Cutting fails if there is none. -/
theorem next?_eq_error_iff {fault : Fault} : p.next? = .error fault ↔
    0 < p.remaining ∧ limit64 ≤ p.rest.addr ∧ fault = .arithmetic := by
  unfold next?
  split
  · rename_i hz
    exact iff_of_false nofun fun h => absurd hz (Nat.ne_of_gt h.1)
  · rename_i hpos
    rw [except_bind_eq_error]
    constructor
    · rintro (h | ⟨addr, _, h⟩)
      · obtain ⟨htop, rfl⟩ := Checked.add_eq_error_iff.mp h
        exact ⟨Nat.pos_of_ne_zero hpos, htop, rfl⟩
      · cases h
    · rintro ⟨_, htop, rfl⟩
      exact Or.inl (Checked.add_eq_error_iff.mpr ⟨htop, rfl⟩)

theorem next?_first (h : p.Fits) (hpos : 0 < p.remaining) :
    p.next? = .ok (some (p.first, p.rest)) := by
  refine next?_eq_some_iff.mpr ⟨hpos, ?_, rfl, rfl⟩
  have htop := h.rest.top
  omega

theorem take_end (n : Nat) (hz : p.remaining = 0) : p.take n = ([], none) := by
  cases n with
  | zero => rfl
  | succ n => rw [take, next?_eq_none_iff.mpr hz]

theorem take_succ (h : p.Fits) (hpos : 0 < p.remaining) (n : Nat) :
    p.take (n + 1) = (p.first :: (p.rest.take n).1, (p.rest.take n).2) := by
  rw [take, next?_first h hpos]

/-- **More bursts than words are never cut**, so a bound that is large enough does not
matter. -/
theorem take_eq_take (h : p.Fits) {m n : Nat} (hm : p.remaining ≤ m) (hn : p.remaining ≤ n) :
    p.take m = p.take n := by
  rcases Nat.eq_zero_or_pos p.remaining with hz | hpos
  · rw [take_end _ hz, take_end _ hz]
  · have hless := rest_remaining_lt h.maxBurst hpos
    induction m generalizing p n with
    | zero => exact absurd hm (Nat.not_le_of_lt hpos)
    | succ m ih =>
        obtain ⟨n, rfl⟩ := Nat.exists_eq_succ_of_ne_zero (show n ≠ 0 by omega)
        rw [take_succ h hpos, take_succ h hpos]
        have hrest : p.rest.take m = p.rest.take n := by
          rcases Nat.eq_zero_or_pos p.rest.remaining with hz | hpos'
          · rw [take_end _ hz, take_end _ hz]
          · exact ih h.rest (by omega) (by omega) hpos' (rest_remaining_lt h.maxBurst hpos')
        rw [hrest]

/-- Nothing is cut from a plan that is used up. -/
theorem bursts_end (hz : p.remaining = 0) : p.bursts = ([], none) :=
  take_end _ hz

/-- **A plan is its first burst and the plan of the rest.** -/
theorem bursts_cons (h : p.Fits) (hpos : 0 < p.remaining) :
    p.bursts = (p.first :: p.rest.bursts.1, p.rest.bursts.2) := by
  have hless := rest_remaining_lt h.maxBurst hpos
  obtain ⟨n, hn⟩ := Nat.exists_eq_succ_of_ne_zero (Nat.ne_of_gt hpos)
  unfold bursts
  rw [hn, take_succ h hpos, take_eq_take h.rest (show p.rest.remaining ≤ n by omega) (Nat.le_refl _)]

/-- A plan can be cut to its end. -/
theorem bursts_ok (h : p.Fits) : p.bursts.2 = none := by
  induction hk : p.remaining using Nat.strongRecOn generalizing p with
  | ind k ih =>
      subst hk
      rcases Nat.eq_zero_or_pos p.remaining with hz | hpos
      · rw [bursts_end hz]
      · rw [bursts_cons h hpos]
        exact ih _ (rest_remaining_lt h.maxBurst hpos) h.rest rfl

/-- The plan of the rest is used up exactly if the first burst is all that is left. -/
theorem rest_bursts_eq_nil (h : p.Fits) : p.rest.bursts.1 = [] ↔ p.remaining ≤ p.firstWords := by
  constructor
  · intro hnil
    rcases Nat.eq_zero_or_pos p.rest.remaining with hz | hpos
    · exact Nat.sub_eq_zero_iff_le.mp hz
    · rw [bursts_cons h.rest hpos] at hnil
      cases hnil
  · intro hle
    rw [bursts_end (Nat.sub_eq_zero_of_le hle)]

end Plan

theorem Descriptor.plan_fits {d : Descriptor} {g : Geometry}
    (h : g.align d.start + d.words * g.wordBytes < limit64) : (d.plan g).Fits :=
  ⟨clampBurst_pos d.maxBurst, h⟩

/-- The request for a burst. -/
theorem AddrReq.incrementing_eq {g : Geometry} {addr beats : Nat} {r : AddrReq}
    (h : AddrReq.incrementing addr beats g = .ok r) :
    r = { id := 0, addr := addr, len := beats - 1, size := g.sizeCode, kind := .incrementing } := by
  unfold incrementing at h
  split at h
  · cases h
    rfl
  · cases h

end BurstDma
