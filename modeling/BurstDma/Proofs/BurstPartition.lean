import BurstDma.Proofs.BurstPlan

/-!
# The bursts partition the transfer

The bursts of a transfer lie one behind the other, from its first word to its last, and none
of them could be longer. `Plan.Cuts` is what comes of asking a plan for one burst after the
other, with no bound on how often; what it says about the bursts is found by induction on it.

A plan moves on when it hands out a burst, and so it needs the address behind the burst.
**There is such an address unless the transfer ends at the top of the address space**: then
all words but those of the last burst are handed out, and the last burst is a fault, although
each of its bytes has an address.
-/

namespace BurstDma

/-- `g.Tiles stop addr bursts`: the first burst starts at `addr`, each of the others where the
one before it ends, and the last one ends at `stop`. -/
inductive Geometry.Tiles (g : Geometry) (stop : Nat) : Nat → List Burst → Prop where
  | done : g.Tiles stop stop []
  | burst {b : Burst} {next : Nat} {bursts : List Burst} : b.endAddr g = .ok next →
      g.Tiles stop next bursts → g.Tiles stop b.addr (b :: bursts)

/-- A burst of a transfer that ends at `stop`, where a burst has at most `limit` words: it stays
in its window, and it could not be longer. -/
structure Burst.WellCut (g : Geometry) (limit stop : Nat) (b : Burst) : Prop where
  words : 1 ≤ b.words ∧ b.words ≤ limit
  window : b.withinBoundary g = .ok true
  longest : b.words = limit ∨
    ∃ next, b.endAddr g = .ok next ∧ (next = stop ∨ next % boundaryBytes = 0)

theorem Burst.WellCut.endAddr_ok {g : Geometry} {limit stop : Nat} {b : Burst}
    (h : b.WellCut g limit stop) : ∃ next, b.endAddr g = .ok next := by
  obtain ⟨next, hnext, _⟩ := except_bind_eq_ok.mp h.window
  exact ⟨next, hnext⟩

/-- As many whole words as fit before the next boundary end at the boundary. -/
theorem Geometry.add_wordsUntilBoundary {g : Geometry} (h : g.Legal) {addr : Nat}
    (ha : addr % g.wordBytes = 0) :
    (addr + g.wordsUntilBoundary addr * g.wordBytes) % boundaryBytes = 0 := by
  have hmax : max g.wordBytes 1 = g.wordBytes := Nat.max_eq_left h.wordBytes_pos
  have hb : boundaryBytes = 4096 := rfl
  unfold wordsUntilBoundary
  rw [hmax, hb]
  rcases h with h | h | h | h <;> rw [h] at ha ⊢ <;> omega

namespace Plan

/-- `p.Cuts bursts fault`: asked for one burst after the other, `p` hands out `bursts`, and then
it is at its end or there is a fault. -/
inductive Cuts : Plan → List Burst → Option Fault → Prop where
  | finish {p : Plan} : p.next? = .ok none → Cuts p [] none
  | fail {p : Plan} {fault : Fault} : p.next? = .error fault → Cuts p [] (some fault)
  | cut {p q : Plan} {b : Burst} {bursts : List Burst} {fault : Option Fault} :
      p.next? = .ok (some (b, q)) → Cuts q bursts fault → Cuts p (b :: bursts) fault

variable {p : Plan} {bursts : List Burst} {fault : Option Fault}

/-- No plan can be asked more often than it has words. -/
theorem cuts_take (hmax : 1 ≤ p.maxBurst) {n : Nat} (hn : p.remaining ≤ n) :
    p.Cuts (p.take n).1 (p.take n).2 := by
  induction n generalizing p with
  | zero => exact .finish (next?_eq_none_iff.mpr (Nat.le_zero.mp hn))
  | succ n ih =>
      unfold take
      split
      · rename_i hnext
        exact .fail hnext
      · rename_i hnext
        exact .finish hnext
      · rename_i b q hnext
        obtain ⟨hpos, _, rfl, rfl⟩ := next?_eq_some_iff.mp hnext
        have hless := rest_remaining_lt hmax hpos
        exact .cut hnext (ih hmax (by omega))

theorem cuts_bursts (hmax : 1 ≤ p.maxBurst) : p.Cuts p.bursts.1 p.bursts.2 :=
  cuts_take hmax (Nat.le_refl _)

theorem firstWords_le_maxBurst (p : Plan) : p.firstWords ≤ p.maxBurst :=
  Nat.le_trans (Nat.min_le_left _ _) (Nat.min_le_right _ _)

/-! ## The bursts that are handed out -/

/-- They lie one behind the other from the address of the plan on. -/
theorem Cuts.tiles (h : p.Cuts bursts fault) :
    p.geometry.Tiles (p.addr + (bursts.map (·.words)).sum * p.geometry.wordBytes) p.addr
      bursts := by
  induction h with
  | @finish p =>
      rw [List.map_nil, List.sum_nil, Nat.zero_mul, Nat.add_zero]
      exact .done
  | @fail p =>
      rw [List.map_nil, List.sum_nil, Nat.zero_mul, Nat.add_zero]
      exact .done
  | @cut p q b bursts fault hnext _ ih =>
      obtain ⟨_, hlt, rfl, rfl⟩ := next?_eq_some_iff.mp hnext
      rw [List.map_cons, List.sum_cons, Nat.add_mul, ← Nat.add_assoc]
      exact .burst (b := p.first) (Checked.add_ok hlt) ih

/-- A first burst is as long as it may be. -/
theorem first_wellCut (hg : p.geometry.Legal) (haligned : p.addr % p.geometry.wordBytes = 0)
    (hmax : 1 ≤ p.maxBurst) (hpos : 0 < p.remaining) (hlt : p.rest.addr < limit64) :
    p.first.WellCut p.geometry p.maxBurst (p.addr + p.remaining * p.geometry.wordBytes) := by
  have hwords : 1 ≤ p.firstWords := firstWords_pos hmax hpos
  have hbound : p.firstWords ≤ p.geometry.wordsUntilBoundary p.addr := Nat.min_le_right _ _
  have hend : p.first.endAddr p.geometry = .ok p.rest.addr := Checked.add_ok hlt
  refine ⟨⟨hwords, p.firstWords_le_maxBurst⟩, ?_, ?_⟩
  · have hsome : 1 ≤ p.rest.addr :=
      Nat.le_trans (Nat.mul_pos hwords hg.wordBytes_pos) (Nat.le_add_left _ _)
    have hwindow := Geometry.window_of_wordsUntilBoundary hg haligned hwords hbound
    refine except_bind_eq_ok.mpr ⟨_, hend, except_bind_eq_ok.mpr ⟨_, Checked.sub_ok hsome, ?_⟩⟩
    exact congrArg Except.ok (beq_iff_eq.mpr hwindow.symm)
  · -- the length is the least of three numbers, and each of them is one of the cases
    have hcase : p.firstWords = p.maxBurst ∨ p.firstWords = p.remaining
        ∨ p.firstWords = p.geometry.wordsUntilBoundary p.addr := by
      unfold firstWords burstLength burstCandidate
      omega
    have hrest : p.rest.addr = p.addr + p.firstWords * p.geometry.wordBytes := rfl
    rcases hcase with hlimit | hall | hline
    · exact Or.inl hlimit
    · refine Or.inr ⟨_, hend, Or.inl ?_⟩
      rw [hrest, hall]
    · refine Or.inr ⟨_, hend, Or.inr ?_⟩
      rw [hrest, hline]
      exact Geometry.add_wordsUntilBoundary hg haligned

/-- None of them could be longer. -/
theorem Cuts.wellCut (h : p.Cuts bursts fault) (hg : p.geometry.Legal)
    (haligned : p.addr % p.geometry.wordBytes = 0) (hmax : 1 ≤ p.maxBurst) :
    ∀ b ∈ bursts,
      b.WellCut p.geometry p.maxBurst (p.addr + p.remaining * p.geometry.wordBytes) := by
  induction h with
  | finish => exact fun b hb => absurd hb List.not_mem_nil
  | fail => exact fun b hb => absurd hb List.not_mem_nil
  | @cut p q b bursts fault hnext _ ih =>
      obtain ⟨hpos, hlt, rfl, rfl⟩ := next?_eq_some_iff.mp hnext
      have hrest : p.rest.addr % p.rest.geometry.wordBytes = 0 :=
        (Nat.add_mul_mod_self_right _ _ _).trans haligned
      intro b hb
      rcases List.mem_cons.mp hb with rfl | hb
      · exact first_wellCut hg haligned hmax hpos hlt
      · rw [← rest_top]
        exact ih hg hrest hmax b hb

/-! ## How it ends -/

/-- **A plan hands out all its words, or it ends at the top of the address space** and keeps
those of the last burst. -/
theorem Cuts.outcome (h : p.Cuts bursts fault) (hwb : 0 < p.geometry.wordBytes)
    (htop : p.addr + p.remaining * p.geometry.wordBytes ≤ limit64) :
    (fault = none ∧ (bursts.map (·.words)).sum = p.remaining
      ∧ (p.addr + p.remaining * p.geometry.wordBytes < limit64 ∨ p.remaining = 0))
    ∨ (fault = some .arithmetic ∧ p.addr + p.remaining * p.geometry.wordBytes = limit64
      ∧ ∃ last, 1 ≤ last ∧ last ≤ p.maxBurst
          ∧ (bursts.map (·.words)).sum + last = p.remaining) := by
  induction h with
  | @finish p hnext =>
      have hz := next?_eq_none_iff.mp hnext
      exact Or.inl ⟨rfl, hz.symm, Or.inr hz⟩
  | @fail p fault hnext =>
      obtain ⟨hpos, hover, rfl⟩ := next?_eq_error_iff.mp hnext
      -- the burst ends no further than the transfer, so it ends with the transfer
      have hover : limit64 ≤ p.addr + p.firstWords * p.geometry.wordBytes := hover
      have hle := Nat.mul_le_mul_right p.geometry.wordBytes p.firstWords_le
      have hall : p.firstWords = p.remaining := Nat.eq_of_mul_eq_mul_right hwb (by omega)
      exact Or.inr ⟨rfl, by omega, p.remaining, hpos, hall ▸ p.firstWords_le_maxBurst,
        Nat.zero_add _⟩
  | @cut p q b bursts fault hnext _ ih =>
      obtain ⟨_, hlt, rfl, rfl⟩ := next?_eq_some_iff.mp hnext
      have hwords : p.first.words + p.rest.remaining = p.remaining :=
        Nat.add_sub_cancel' p.firstWords_le
      have hstop := rest_top p
      rw [List.map_cons, List.sum_cons]
      rcases ih hwb (hstop ▸ htop) with ⟨hf, hsum, hend⟩ | ⟨hf, hend, last, hmin, hmax, hsum⟩
      · refine Or.inl ⟨hf, by rw [hsum, hwords], Or.inl ?_⟩
        rcases hend with hend | hend
        · exact hstop ▸ hend
        · rw [← hstop, hend, Nat.zero_mul]
          exact hlt
      · exact Or.inr ⟨hf, hstop ▸ hend, last, hmin, hmax, by rw [Nat.add_assoc, hsum, hwords]⟩

end Plan

/-! ## Transfers -/

variable {g : Geometry}

/-- **The bursts of a transfer partition it.** If the transfer ends below the top of the address
space, its plan hands out bursts up to its end. They lie one behind the other from the aligned
start to the end, have all words of the transfer, and none of them could be longer. -/
theorem bursts_partition (hg : g.Legal) (d : Descriptor)
    (htop : g.align d.start + d.words * g.wordBytes < limit64) :
    (d.plan g).Cuts (d.plan g).bursts.1 none
      ∧ g.Tiles (g.align d.start + d.words * g.wordBytes) (g.align d.start) (d.plan g).bursts.1
      ∧ ((d.plan g).bursts.1.map (·.words)).sum = d.words
      ∧ ∀ b ∈ (d.plan g).bursts.1,
          b.WellCut g (clampBurst d.maxBurst) (g.align d.start + d.words * g.wordBytes) := by
  have hmax := clampBurst_pos d.maxBurst
  have hcuts := Plan.cuts_bursts (p := d.plan g) hmax
  have hwell := hcuts.wellCut hg (Geometry.align_mod hg d.start) hmax
  have htiles := hcuts.tiles
  rcases hcuts.outcome hg.wordBytes_pos (Nat.le_of_lt htop) with ⟨hf, hsum, _⟩ | ⟨_, hend, _⟩
  · rw [hf] at hcuts
    rw [hsum] at htiles
    exact ⟨hcuts, htiles, hsum, hwell⟩
  · exact absurd hend (Nat.ne_of_lt htop)

/-- Four words from inside the last word of a window on: one of them lies in that window. -/
theorem bursts_partition_unaligned :
    (Geometry.mk 8).align 4092 + 4 * 8 < limit64
      ∧ (Descriptor.plan ⟨4092, 4, 99⟩ ⟨8⟩).bursts.1 = [⟨4088, 1⟩, ⟨4096, 3⟩]
      ∧ (Descriptor.plan ⟨4092, 4, 99⟩ ⟨8⟩).Cuts [⟨4088, 1⟩, ⟨4096, 3⟩] none
      ∧ (Geometry.mk 8).Tiles 4120 4088 [⟨4088, 1⟩, ⟨4096, 3⟩] := by
  obtain ⟨hcuts, htiles, _⟩ := bursts_partition (g := ⟨8⟩) (by decide) ⟨4092, 4, 99⟩ (by decide)
  exact ⟨by decide, by decide, hcuts, htiles⟩

/-- **A transfer whose bytes all have addresses** is handed out to its end exactly if it has no
words or ends below the top of the address space. If it ends at the top, the last burst is a
fault, and no other. What is handed out is well cut in either case, with an address behind it. -/
theorem bursts_up_to_top (hg : g.Legal) (d : Descriptor)
    (htop : g.align d.start + d.words * g.wordBytes ≤ limit64) :
    (d.plan g).Cuts (d.plan g).bursts.1 (d.plan g).bursts.2
      ∧ (∀ b ∈ (d.plan g).bursts.1,
          b.WellCut g (clampBurst d.maxBurst) (g.align d.start + d.words * g.wordBytes)
            ∧ ∃ next, b.endAddr g = .ok next)
      ∧ if g.align d.start + d.words * g.wordBytes < limit64 ∨ d.words = 0 then
          (d.plan g).bursts.2 = none ∧ ((d.plan g).bursts.1.map (·.words)).sum = d.words
        else
          (d.plan g).bursts.2 = some .arithmetic
            ∧ ∃ last, 1 ≤ last ∧ last ≤ clampBurst d.maxBurst
              ∧ ((d.plan g).bursts.1.map (·.words)).sum + last = d.words := by
  have hmax := clampBurst_pos d.maxBurst
  have hcuts := Plan.cuts_bursts (p := d.plan g) hmax
  refine ⟨hcuts, fun b hb => ?_, ?_⟩
  · have hwell := hcuts.wellCut hg (Geometry.align_mod hg d.start) hmax b hb
    exact ⟨hwell, hwell.endAddr_ok⟩
  · rcases hcuts.outcome hg.wordBytes_pos htop with
      ⟨hf, hsum, hend⟩ | ⟨hf, hend, last, hmin, hlast, hsum⟩
    · have hend : g.align d.start + d.words * g.wordBytes < limit64 ∨ d.words = 0 := hend
      rw [if_pos hend]
      exact ⟨hf, hsum⟩
    · have hsum : ((d.plan g).bursts.1.map (·.words)).sum + last = d.words := hsum
      have hover : ¬ (g.align d.start + d.words * g.wordBytes < limit64 ∨ d.words = 0) := by
        rintro (hlt | hz)
        · exact absurd hend (Nat.ne_of_lt hlt)
        · omega
      rw [if_neg hover]
      exact ⟨hf, last, hmin, hlast, hsum⟩

/-- Of twenty words at the top, the last four are lost. -/
theorem bursts_up_to_top_twenty :
    (Geometry.mk 8).align (limit64 - 157) + 20 * 8 = limit64
      ∧ (Descriptor.plan ⟨limit64 - 157, 20, 16⟩ ⟨8⟩).Cuts [⟨limit64 - 160, 16⟩]
          (some .arithmetic) := by
  have hbursts : (Descriptor.plan ⟨limit64 - 157, 20, 16⟩ ⟨8⟩).bursts
      = ([⟨limit64 - 160, 16⟩], some .arithmetic) := by decide
  obtain ⟨hcuts, _⟩ := bursts_up_to_top (g := ⟨8⟩) (by decide) ⟨limit64 - 157, 20, 16⟩ (by decide)
  rw [hbursts] at hcuts
  exact ⟨by decide, hcuts⟩

/-- One word at the top has eight addresses, and yet its plan does not end. -/
theorem topmost_word_unfinished :
    (Geometry.mk 8).Legal ∧ (Geometry.mk 8).align (limit64 - 8) + 1 * 8 ≤ limit64
      ∧ ¬ ∃ bursts, (Descriptor.plan ⟨limit64 - 8, 1, 16⟩ ⟨8⟩).Cuts bursts none := by
  refine ⟨by decide, by decide, ?_⟩
  have hnext : (Descriptor.plan ⟨limit64 - 8, 1, 16⟩ ⟨8⟩).next? = .error .arithmetic :=
    Plan.next?_eq_error_iff.mpr (by decide)
  rintro ⟨bursts, hcuts⟩
  cases hcuts with
  | finish h => cases hnext.symm.trans h
  | cut h _ => cases hnext.symm.trans h

end BurstDma
