import BurstDma.Proofs.ReadEngine
import BurstDma.Proofs.WriteEngine
import BurstDma.Transfer.Register

/-!
# The engines compute within their words

The registers can ask for any start and any length below 2^32. Whatever they ask for, the
engines stay within their words: a burst is never longer than what is left, so no
subtraction fails, and **no address lies more than 2^32 words behind a start**, far below
the end of the 64-bit address space. `Fits` collects what the arithmetic of an engine relies
on, and `next_ok` says that a clock edge then has a next state.

Two sums are not bounded by the engine alone. The bursts on their way to a reader are
counted by the machine, and in frame mode the stream decides how many words a transfer has;
both come in as hypotheses.
-/

namespace BurstDma

/-- Every address of a transfer lies below this. -/
def reach (g : Geometry) : Nat :=
  limit32 + limit32 * g.wordBytes

/-- A descriptor holds the numbers of two 32-bit registers. -/
structure Descriptor.Fits (d : Descriptor) : Prop where
  start : d.start < limit32
  words : d.words < limit32

theorem RegisterFile.staged_fits (f : RegisterFile) : f.staged.Fits :=
  ⟨f.start.toNat_lt, f.length.toNat_lt⟩

theorem clampBurst_le (n : Nat) : clampBurst n ≤ maxBurstWords :=
  Nat.max_le.mpr ⟨by decide, Nat.min_le_right _ _⟩

theorem Geometry.align_le (g : Geometry) (addr : Nat) : g.align addr ≤ addr :=
  Nat.sub_le _ _

theorem Geometry.Legal.wordBytes_le {g : Geometry} (h : g.Legal) : g.wordBytes ≤ 8 := by
  rcases h with h | h | h | h <;> omega

/-- Far enough below the end of the address space for a burst more. -/
theorem reach_le {g : Geometry} (h : g.Legal) : reach g + maxBurstWords * 8 < limit64 := by
  have := Nat.mul_le_mul_left limit32 h.wordBytes_le
  unfold reach
  have h32 : limit32 = 4294967296 := rfl
  have h64 : limit64 = 18446744073709551616 := rfl
  have hmax : maxBurstWords = 16 := rfl
  omega

theorem Checked.add_ok {limit a b : Nat} (h : a + b < limit) : add limit a b = .ok (a + b) :=
  if_pos h

theorem Checked.sub_ok {a b : Nat} (h : b ≤ a) : sub a b = .ok (a - b) :=
  if_pos h

/-- A burst within the limits of the bus has a request. -/
theorem AddrReq.incrementing_ok (addr : Nat) {beats : Nat} (g : Geometry)
    (h : 1 ≤ beats ∧ beats ≤ maxBurstWords) : ∃ r, incrementing addr beats g = .ok r :=
  ⟨_, if_pos h⟩

/-- Retiring a word never fails. -/
theorem Pending.retire_ok (p : Pending) (last : Bool) :
    (p.retire last).result = .ok ⟨p.words - 1, if last then p.bursts - 1 else p.bursts⟩ := by
  unfold retire
  cases p.words == 0 <;> cases last && p.bursts == 0 <;> rfl

theorem Pending.issue_ok {p : Pending} {beats : Nat} (hw : p.words + beats < limit32)
    (hb : p.bursts + 1 < limit32) : p.issue beats = .ok ⟨p.words + beats, p.bursts + 1⟩ := by
  unfold issue
  rw [Checked.add_ok hw, Checked.add_ok hb]
  rfl

/-! ## Readers -/

namespace ReadCore

/-- The phases in which a burst is sized and offered. -/
def Sizes (c : ReadCore) : Prop :=
  c.phase = .sizing ∨ c.phase = .clamping ∨ c.phase = .encoding ∨ c.phase = .waitForCredit
    ∨ c.phase = .issueBurst

/-- The numbers of a reader stay within their words. -/
structure Fits (g : Geometry) (c : ReadCore) : Prop where
  length : c.length < limit32
  /-- What is left lies within reach. -/
  reach : c.addr + c.remaining * g.wordBytes ≤ reach g
  maxBurst : c.phase ≠ .idle → 1 ≤ c.maxBurst ∧ c.maxBurst ≤ maxBurstWords
  left : c.Sizes → 0 < c.remaining
  candidate : c.phase = .clamping →
    1 ≤ c.candidate ∧ c.candidate ≤ maxBurstWords ∧ c.candidate ≤ c.remaining
  burst : c.phase = .encoding ∨ c.phase = .waitForCredit ∨ c.phase = .issueBurst →
    1 ≤ c.burst ∧ c.burst ≤ maxBurstWords ∧ c.burst ≤ c.remaining

variable {g : Geometry} {c c' : ReadCore} {i : ReadInputs} {step : ReadStep} {awaited : Nat}

theorem fits_init (g : Geometry) : Fits g {} :=
  ⟨by decide, by simp, fun h => absurd rfl h, by simp [Sizes], by simp, by simp⟩

/-- The sizes of a reader are those of a burst within what is left. -/
structure Sized (c : ReadCore) : Prop where
  maxBurst : c.phase ≠ .idle → 1 ≤ c.maxBurst ∧ c.maxBurst ≤ maxBurstWords
  left : c.Sizes → 0 < c.remaining
  candidate : c.phase = .clamping →
    1 ≤ c.candidate ∧ c.candidate ≤ maxBurstWords ∧ c.candidate ≤ c.remaining
  burst : c.phase = .encoding ∨ c.phase = .waitForCredit ∨ c.phase = .issueBurst →
    1 ≤ c.burst ∧ c.burst ≤ maxBurstWords ∧ c.burst ≤ c.remaining

theorem Fits.sized (hf : c.Fits g) : c.Sized :=
  ⟨hf.maxBurst, hf.left, hf.candidate, hf.burst⟩

theorem sized_init : Sized {} :=
  (fits_init {}).sized

/-- Outside the sizing phases there is no burst to size. -/
theorem sized_of_quiet (hm : c.phase ≠ .idle → 1 ≤ c.maxBurst ∧ c.maxBurst ≤ maxBurstWords)
    (hph : c.phase = .idle ∨ c.phase = .transferBurst ∨ c.phase = .waitForCompletion
      ∨ c.phase = .done) : c.Sized := by
  refine ⟨hm, ?_, ?_, ?_⟩
  · unfold Sizes
    rcases hph with hph | hph | hph | hph <;> simp [hph]
  · rcases hph with hph | hph | hph | hph <;> simp [hph]
  · rcases hph with hph | hph | hph | hph <;> simp [hph]

/-- The first cycle of sizing has no burst to look at yet. -/
theorem sized_of_sizing (hm : 1 ≤ c.maxBurst ∧ c.maxBurst ≤ maxBurstWords)
    (hph : c.phase = .sizing) (hpos : 0 < c.remaining) : c.Sized := by
  refine ⟨fun _ => hm, fun _ => hpos, ?_, ?_⟩
  all_goals simp [hph]

/-- A clock edge keeps the sizes of a reader. -/
theorem Sized.next (hs : c.Sized) (h : (c.next g i).result = .ok (c', step)) : c'.Sized := by
  obtain ⟨⟨r, push⟩, hrec, h⟩ := Run.result_bind_eq_ok.mp h
  obtain ⟨⟨core, st⟩, hproc, h⟩ := Run.result_bind_eq_ok.mp h
  cases h
  obtain ⟨⟨bursts, error, rfl⟩, _⟩ := receive_eq hrec
  obtain ⟨hmax, hleft, hcand, hburst⟩ := hs
  -- what arrives does not touch these numbers
  cases proceed_moves hproc with
  | rest hph _ => exact sized_of_quiet hmax (Or.inl hph)
  | take d hph hdesc =>
      have hm := And.intro (clampBurst_pos d.maxBurst) (clampBurst_le d.maxBurst)
      by_cases hz : d.words = 0
      · exact sized_of_quiet (fun _ => hm) (Or.inr (Or.inr (Or.inr (if_pos hz))))
      · exact sized_of_sizing hm (if_neg hz) (Nat.pos_of_ne_zero hz)
  | size hph =>
      have hm := hmax (by rw [hph]; nofun)
      have hpos := hleft (Or.inl hph)
      refine ⟨fun _ => hm, fun _ => hpos, fun _ => ?_, ?_⟩
      · unfold burstCandidate
        dsimp only
        omega
      · rintro (hc | hc | hc) <;> cases hc
  | clamp hph =>
      have hm := hmax (by rw [hph]; nofun)
      have hpos := hleft (Or.inr (Or.inl hph))
      obtain ⟨hone, hle, hrem⟩ := hcand hph
      have hbound := wordsUntilBoundary_pos g c.addr
      refine ⟨fun _ => hm, fun _ => hpos, nofun, fun _ => ?_⟩
      dsimp only
      omega
  | encode request hph _ =>
      have hm := hmax (by rw [hph]; nofun)
      exact ⟨fun _ => hm, fun _ => hleft (Or.inr (Or.inr (Or.inl hph))), nofun,
        fun _ => hburst (Or.inl hph)⟩
  | grant hph _ =>
      have hm := hmax (by rw [hph]; nofun)
      exact ⟨fun _ => hm, fun _ => hleft (Or.inr (Or.inr (Or.inr (Or.inl hph)))), nofun,
        fun _ => hburst (Or.inr (Or.inl hph))⟩
  | starve hph _ =>
      have hm := hmax (by rw [hph]; nofun)
      exact ⟨fun _ => hm, fun _ => hleft (Or.inr (Or.inr (Or.inr (Or.inl hph)))), nofun,
        fun _ => hburst (Or.inr (Or.inl hph))⟩
  | stall hph _ => exact ⟨hmax, hleft, hcand, hburst⟩
  | issue hph _ _ =>
      exact sized_of_quiet (fun _ => hmax (by rw [hph]; nofun)) (Or.inr (Or.inl rfl))
  | again hph hpos => exact sized_of_sizing (hmax (by rw [hph]; nofun)) rfl hpos
  | last hph _ =>
      exact sized_of_quiet (fun _ => hmax (by rw [hph]; nofun)) (Or.inr (Or.inr (Or.inl rfl)))
  | await hph _ =>
      exact sized_of_quiet (fun _ => hmax (by rw [hph]; nofun)) (Or.inr (Or.inr (Or.inl rfl)))
  | complete hph _ =>
      exact sized_of_quiet (fun _ => hmax (by rw [hph]; nofun)) (Or.inr (Or.inr (Or.inr rfl)))
  | settle hph => exact sized_of_quiet (fun hc => absurd rfl hc) (Or.inl rfl)

/-- The length of a transfer and the address behind it are those of its descriptor. -/
theorem extent_next (h : (c.next g i).result = .ok (c', step)) :
    (step.taken = false → c'.length = c.length
        ∧ c'.addr + c'.remaining * g.wordBytes = c.addr + c.remaining * g.wordBytes)
      ∧ (step.taken = true → ∃ d, i.desc = some d ∧ c'.length = d.words
        ∧ c'.addr + c'.remaining * g.wordBytes = g.align d.start + d.words * g.wordBytes) := by
  obtain ⟨⟨r, push⟩, hrec, h⟩ := Run.result_bind_eq_ok.mp h
  obtain ⟨⟨core, st⟩, hproc, h⟩ := Run.result_bind_eq_ok.mp h
  cases h
  obtain ⟨⟨bursts, error, rfl⟩, _⟩ := receive_eq hrec
  cases proceed_moves hproc with
  | take d _ hdesc => exact ⟨nofun, fun _ => ⟨d, hdesc, rfl, rfl⟩⟩
  | issue _ _ hle =>
      have hsplit : c.remaining * g.wordBytes
          = c.burst * g.wordBytes + (c.remaining - c.burst) * g.wordBytes := by
        rw [← Nat.add_mul, Nat.add_sub_cancel' hle]
      refine ⟨fun _ => ⟨rfl, ?_⟩, nofun⟩
      dsimp only
      omega
  | _ => exact ⟨fun _ => ⟨rfl, rfl⟩, nofun⟩

/-- **The numbers of a reader stay within their words.** -/
theorem fits_next (hf : c.Fits g) (hd : ∀ d, i.desc = some d → d.Fits)
    (h : (c.next g i).result = .ok (c', step)) : c'.Fits g := by
  obtain ⟨hmax, hleft, hcand, hburst⟩ := hf.sized.next h
  have hextent : c'.length < limit32
      ∧ c'.addr + c'.remaining * g.wordBytes ≤ BurstDma.reach g := by
    obtain ⟨hkept, htaken⟩ := extent_next h
    cases ht : step.taken with
    | false =>
        obtain ⟨hlen, hstop⟩ := hkept ht
        rw [hlen, hstop]
        exact ⟨hf.length, hf.reach⟩
    | true =>
        obtain ⟨d, hdesc, hlen, hstop⟩ := htaken ht
        obtain ⟨hstart, hwords⟩ := hd d hdesc
        have haligned := Nat.lt_of_le_of_lt (g.align_le d.start) hstart
        rw [hlen, hstop]
        exact ⟨hwords, Nat.add_le_add (Nat.le_of_lt haligned)
          (Nat.mul_le_mul_right g.wordBytes (Nat.le_of_lt hwords))⟩
  exact ⟨hextent.1, hextent.2, hmax, hleft, hcand, hburst⟩

/-- What arrives was awaited, so it is counted within the length. -/
theorem receive_ok (hlen : c.length < limit32) (hs : c.Sound awaited)
    (hb : i.beat.toList.length ≤ awaited) :
    ∃ r push, (c.receive i).result = .ok (r, push)
      ∧ r.pending.bursts ≤ c.pending.bursts := by
  have hacc := hs.account
  unfold receive
  cases hbeat : i.beat with
  | none => cases i.clearError <;> exact ⟨_, _, rfl, Nat.le_refl _⟩
  | some beat =>
      rw [hbeat, Option.toList_some, List.length_singleton] at hb
      have hsum : c.delivered + 1 < limit32 := by omega
      have hle : (if beat.last then c.pending.bursts - 1 else c.pending.bursts)
          ≤ c.pending.bursts := by
        split
        · exact Nat.sub_le _ _
        · exact Nat.le_refl _
      have hadd : (liftM (Checked.add limit32 c.delivered 1) : Run Nat).result
          = .ok (c.delivered + 1) := Checked.add_ok hsum
      cases i.clearError <;>
        exact ⟨_, _, Run.result_bind_eq_ok.mpr ⟨_, Pending.retire_ok _ _,
          Run.result_bind_eq_ok.mpr ⟨_, hadd, rfl⟩⟩, hle⟩

/-- **A reader has a next state** while what is left ends below the top of the address space.
The bursts on their way are no more than the words. -/
theorem Sized.next_ok (hz : c.Sized) (hlen : c.length < limit32)
    (htop : c.phase = .issueBurst → c.addr + c.remaining * g.wordBytes < limit64)
    (hs : c.Sound awaited) (hb : i.beat.toList.length ≤ awaited)
    (hbursts : c.pending.bursts ≤ awaited) :
    ∃ c' step, (c.next g i).result = .ok (c', step) := by
  obtain ⟨r, push, hrec, hless⟩ := receive_ok hlen hs hb
  obtain ⟨⟨bursts, error, rfl⟩, _⟩ := receive_eq hrec
  obtain ⟨hpend, hacc, _, _, _⟩ := hs
  have hproc : ∃ core st, proceed g c.pending
      { c with
        pending := ⟨c.pending.words - i.beat.toList.length, bursts⟩
        delivered := c.delivered + i.beat.toList.length
        error } i = .ok (core, st) := by
    unfold proceed
    dsimp only
    cases hph : c.phase with
    | idle => cases i.desc <;> exact ⟨_, _, rfl⟩
    | sizing => exact ⟨_, _, rfl⟩
    | clamping => exact ⟨_, _, rfl⟩
    | encoding =>
        obtain ⟨hone, hmax, _⟩ := hz.burst (Or.inl hph)
        obtain ⟨request, hr⟩ := AddrReq.incrementing_ok c.addr g ⟨hone, hmax⟩
        dsimp only
        rw [hr]
        exact ⟨_, _, rfl⟩
    | waitForCredit =>
        obtain ⟨_, _, hle⟩ := hz.burst (Or.inr (Or.inl hph))
        have hsum : c.pending.words + c.burst < limit32 := by omega
        dsimp only [Pending.readCredit]
        rw [Checked.add_ok hsum]
        exact ⟨_, _, rfl⟩
    | issueBurst =>
        dsimp only
        split
        · obtain ⟨hone, hmax, hle⟩ := hz.burst (Or.inr (Or.inr hph))
          dsimp only at hless
          have hwords : c.pending.words - i.beat.toList.length + c.burst < limit32 := by omega
          have hcount : bursts + 1 < limit32 := by omega
          have haddr : c.addr + c.burst * g.wordBytes < limit64 := by
            have hmul := Nat.mul_le_mul_right g.wordBytes hle
            have hlim := htop hph
            omega
          rw [Pending.issue_ok hwords hcount]
          dsimp only [Geometry.advance]
          rw [Checked.add_ok haddr, Checked.sub_ok hle]
          exact ⟨_, _, rfl⟩
        · exact ⟨_, _, rfl⟩
    | transferBurst => exact ⟨_, _, rfl⟩
    | waitForCompletion => exact ⟨_, _, rfl⟩
    | done => exact ⟨_, _, rfl⟩
  obtain ⟨core, st, hproc⟩ := hproc
  refine ⟨core, { st with push }, Run.result_bind_eq_ok.mpr ⟨_, hrec, ?_⟩⟩
  exact Run.result_bind_eq_ok.mpr ⟨_, hproc, rfl⟩

/-- **A reader whose numbers fit has a next state.** -/
theorem next_ok (hg : g.Legal) (hf : c.Fits g) (hs : c.Sound awaited)
    (hb : i.beat.toList.length ≤ awaited) (hbursts : c.pending.bursts ≤ awaited) :
    ∃ c' step, (c.next g i).result = .ok (c', step) := by
  have htop : c.addr + c.remaining * g.wordBytes < limit64 := by
    have hreach := hf.reach
    have hlim := reach_le hg
    omega
  exact hf.sized.next_ok hf.length (fun _ => htop) hs hb hbursts

/-- What a reader offers lies within reach. -/
theorem request_reach (hf : c.Fits g) (hs : c.Sound awaited) (hph : c.phase = .issueBurst) :
    ∀ a ∈ c.request.addresses g, a ≤ BurstDma.reach g := by
  obtain ⟨haddr, hbeats⟩ := hs.request (Or.inr hph)
  obtain ⟨_, _, hle⟩ := hf.burst (Or.inr (Or.inr hph))
  have hreach := hf.reach
  intro a ha
  unfold AddrReq.addresses at ha
  rw [haddr, hbeats, Geometry.span_eq_range] at ha
  obtain ⟨k, hk, rfl⟩ := List.mem_map.mp ha
  have hmul := Nat.mul_le_mul_right g.wordBytes
    (Nat.le_of_lt (Nat.lt_of_lt_of_le (List.mem_range.mp hk) hle))
  omega

/-- The status register can always be read. -/
theorem remainingWords_ok (hs : c.Sound awaited) : ∃ n, c.remainingWords = .ok n := by
  have hacc := hs.account
  exact ⟨_, Checked.sub_ok (by omega)⟩

end ReadCore

/-! ## Writers -/

namespace WriteCore

/-- The numbers of a writer stay within their words. -/
structure Fits (g : Geometry) (c : WriteCore) : Prop where
  length : c.length < limit32
  written : c.written < limit32
  /-- The next word lies behind the start by what was written. -/
  reach : c.nextAddr g ≤ limit32 + c.written * g.wordBytes
  maxBurst : c.phase ≠ .idle → 1 ≤ c.maxBurst ∧ c.maxBurst ≤ maxBurstWords
  candidate : c.phase = .clamping ∨ c.phase = .waitForCredit →
    1 ≤ c.candidate ∧ c.candidate ≤ maxBurstWords
  burst : c.phase = .issueBurst ∨ c.phase = .transferBurst →
    1 ≤ c.burst ∧ c.burst ≤ maxBurstWords
  beat : c.phase = .transferBurst → c.beat < c.burst
  /-- At most the open burst is on its way. -/
  pending : c.pending = ⟨c.openWords, if c.phase = .transferBurst then 1 else 0⟩
  /-- In length mode the words written and the words left make up the transfer. -/
  account : c.frameMode = false → c.written ≤ c.length ∧ c.Sound g (c.length - c.written)

variable {g : Geometry} {c c' : WriteCore} {i : WriteInputs} {step : WriteStep}

theorem fits_init (g : Geometry) (frameMode : Bool) : Fits g { frameMode } := by
  have hzero : 0 < limit32 := by decide
  refine ⟨hzero, hzero, Nat.zero_le _, fun h => absurd rfl h, by simp, by simp, by simp, rfl, ?_⟩
  · intro _
    exact ⟨Nat.le_refl _, sound_init g frameMode⟩

/-- What a clock edge makes of the burst on its way, and that the count of a word that was
sent has fitted. -/
theorem proceed_counts (h : (c.proceed g i).result = .ok (c', step)) :
    (c'.pending = if step.pop then
        ⟨c.pending.words - 1, if c.onLastBeat then c.pending.bursts - 1 else c.pending.bursts⟩
      else match step.issued with
        | none => c.pending
        | some b => ⟨c.pending.words + b.words, c.pending.bursts + 1⟩)
      ∧ (step.pop = true → c.written + 1 < limit32) := by
  have still : ∀ {core : WriteCore} {st : WriteStep}, core.pending = c.pending →
      st.pop = false → st.issued = none →
      (core.pending = if st.pop then
          ⟨c.pending.words - 1, if c.onLastBeat then c.pending.bursts - 1 else c.pending.bursts⟩
        else match st.issued with
          | none => c.pending
          | some b => ⟨c.pending.words + b.words, c.pending.bursts + 1⟩)
        ∧ (st.pop = true → c.written + 1 < limit32) := by
    intro core st hp hpop hissued
    rw [hpop, hissued, hp]
    exact ⟨rfl, (by intro hc; cases hc)⟩
  unfold proceed at h
  cases hph : c.phase with
  | idle =>
      simp only [hph] at h
      cases hd : i.desc <;> rw [hd] at h <;> cases h <;> exact still rfl rfl rfl
  | sizing =>
      simp only [hph] at h
      cases h
      exact still rfl rfl rfl
  | clamping =>
      simp only [hph] at h
      cases h
      exact still rfl rfl rfl
  | waitForCredit =>
      simp only [hph] at h
      cases hs : c.sized? i with
      | none =>
          rw [hs] at h
          cases h
          exact still rfl rfl rfl
      | some sized =>
          rw [hs] at h
          obtain ⟨request, _, h⟩ := Run.result_bind_eq_ok.mp h
          cases h
          exact still rfl rfl rfl
  | issueBurst =>
      simp only [hph] at h
      split at h
      · obtain ⟨pending, hp, h⟩ := Run.result_bind_eq_ok.mp h
        obtain ⟨outstanding, _, h⟩ := Run.result_bind_eq_ok.mp h
        obtain ⟨words, hw, hp⟩ := except_bind_eq_ok.mp hp
        obtain ⟨bursts, hb, hp⟩ := except_bind_eq_ok.mp hp
        obtain ⟨_, rfl⟩ := Checked.add_eq_ok_iff.mp hw
        obtain ⟨_, rfl⟩ := Checked.add_eq_ok_iff.mp hb
        cases hp
        cases h
        exact ⟨rfl, (by intro hc; cases hc)⟩
      · cases h
        exact still rfl rfl rfl
  | transferBurst =>
      simp only [hph] at h
      split at h
      · obtain ⟨sent, hs, h⟩ := Run.result_bind_eq_ok.mp h
        cases h
        obtain ⟨pending, hp, hs⟩ := Run.result_bind_eq_ok.mp hs
        obtain ⟨beat, _, hs⟩ := Run.result_bind_eq_ok.mp hs
        obtain ⟨written, hw, hs⟩ := Run.result_bind_eq_ok.mp hs
        obtain ⟨hlt, rfl⟩ := Checked.add_eq_ok_iff.mp hw
        rw [Pending.retire_ok] at hp
        cases hp
        cases hl : c.onLastBeat with
        | true =>
            rw [hl, if_pos rfl, if_pos rfl] at hs
            obtain ⟨addr, _, hs⟩ := Run.result_bind_eq_ok.mp hs
            cases hs
            exact ⟨rfl, fun _ => hlt⟩
        | false =>
            rw [hl] at hs
            cases hs
            exact ⟨rfl, fun _ => hlt⟩
      · cases h
        exact still rfl rfl rfl
  | waitForCompletion =>
      simp only [hph] at h
      cases h
      exact still rfl rfl rfl
  | done =>
      simp only [hph] at h
      cases h
      exact still rfl rfl rfl

/-- Only the open burst is on its way: it comes with its address, and goes word by word. -/
theorem pending_next (hbeat : c.phase = .transferBurst → c.beat < c.burst)
    (hp : c.pending = ⟨c.openWords, if c.phase = .transferBurst then 1 else 0⟩)
    (haw : i.awFires = true → c.phase = .issueBurst)
    (hw : i.wFires = true → c.phase = .transferBurst)
    (h : (c.next g i).result = .ok (c', step)) :
    c'.pending = ⟨c'.openWords, if c'.phase = .transferBurst then 1 else 0⟩ := by
  have hv := next_served haw hw h
  obtain ⟨r, hr, h⟩ := Run.result_bind_eq_ok.mp h
  obtain ⟨error, rfl⟩ := receive_eq hr
  have hnext := (proceed_counts h).1
  rw [hv.pop, hv.issued] at hnext
  have hlast : WriteCore.onLastBeat
      { c with outstanding := c.outstanding - i.b.toList.length, error } = c.onLastBeat := rfl
  rw [hlast] at hnext
  dsimp only at hnext
  rw [hp] at hnext
  rw [hnext]
  unfold openWords
  cases hd : i.wFires with
  | true =>
      have hph := hw hd
      have hlt := hbeat hph
      have ha : i.awFires = false :=
        Bool.eq_false_iff.mpr fun hc => by have := haw hc; rw [hph] at this; cases this
      have hsend := hv.sending
      rw [ha, hd] at hsend
      rw [if_pos rfl, if_pos hph, if_pos hph]
      cases hl : c.onLastBeat with
      | true =>
          -- the last word closes the burst
          have hph' : c'.phase ≠ .transferBurst := fun hc => by
            have := hsend.mp hc
            simp [hl] at this
          have hdone : c.beat + 1 = c.burst := beq_iff_eq.mp hl
          rw [if_neg hph', if_neg hph', if_pos rfl, ← hdone]
          dsimp only
          rw [Nat.add_sub_cancel_left]
      | false =>
          have hph' : c'.phase = .transferBurst := hsend.mpr (Or.inr ⟨hph, by simp [hl]⟩)
          obtain ⟨hbeat', _, hburst'⟩ := hv.kept hph hph'
          rw [if_pos hph', if_pos hph', hbeat', hburst', hd]
          rfl
  | false =>
      rw [if_neg Bool.false_ne_true]
      have hsend := hv.sending
      rw [hd] at hsend
      cases ha : i.awFires with
      | true =>
          have hph := haw ha
          have hph' := hsend.mpr (Or.inl ha)
          obtain ⟨hbeat', _, hburst'⟩ := hv.opened ha
          rw [if_pos rfl, if_pos hph', if_pos hph', hbeat', hburst', hph]
          simp
      | false =>
          rw [ha] at hsend
          have hsame : c'.phase = .transferBurst ↔ c.phase = .transferBurst := by
            rw [hsend]
            simp
          rw [if_neg Bool.false_ne_true]
          by_cases hph : c.phase = .transferBurst
          · have hph' := hsame.mpr hph
            obtain ⟨hbeat', _, hburst'⟩ := hv.kept hph hph'
            rw [if_pos hph, if_pos hph, if_pos hph', if_pos hph', hbeat', hburst', hd]
            rfl
          · have hph' : c'.phase ≠ .transferBurst := fun hc => hph (hsame.mp hc)
            rw [if_neg hph, if_neg hph, if_neg hph', if_neg hph']

/-- The length of a transfer is that of its descriptor. -/
theorem length_next (h : (c.next g i).result = .ok (c', step)) :
    (step.taken = false → c'.length = c.length)
      ∧ ∀ d, i.desc = some d → step.taken = true → c'.length = d.words := by
  obtain ⟨error, hmove⟩ := next_moves h
  cases hmove with
  | take d _ hd =>
      refine ⟨(by intro hc; cases hc), fun d' hd' _ => ?_⟩
      rw [hd] at hd'
      cases hd'
      rfl
  | _ => exact ⟨fun _ => rfl, (by intro d _ hc; cases hc)⟩

/-- In length mode the words written and the words left still make up the transfer. -/
theorem account_next (ha : c.frameMode = false → c.written ≤ c.length
      ∧ c.Sound g (c.length - c.written)) (h : (c.next g i).result = .ok (c', step)) :
    c'.frameMode = false → c'.written ≤ c'.length ∧ c'.Sound g (c'.length - c'.written) := by
  intro hm'
  have hm : c.frameMode = false := (frameMode_next h).symm.trans hm'
  obtain ⟨hle, hs⟩ := ha hm
  have hlength := length_next h
  rcases next_transfer hs (sizedRight_of_length hs hm) h with ⟨_, d, hbegin⟩ | hgo
  · obtain ⟨hdesc, htaken⟩ := hbegin.taken
    have hsound := hbegin.sound d.words ⟨fun _ => rfl, fun hc => by rw [hm] at hc; cases hc⟩
    rw [hlength.2 d hdesc htaken, hbegin.written]
    exact ⟨Nat.zero_le _, hsound⟩
  · have hsound := hgo.sound
    have hfits := hgo.fits
    rw [hlength.1 hgo.taken, hgo.written]
    cases hpop : step.pop with
    | false =>
        rw [hpop] at hsound
        exact ⟨hle, hsound⟩
    | true =>
        rw [hpop, if_pos rfl] at hsound
        obtain ⟨_, hpos⟩ := hfits hpop
        rw [if_pos rfl, Nat.sub_add_eq]
        exact ⟨by omega, hsound⟩

/-- The next word of a writer moves up by what was written. -/
theorem reach_next (hr : c.nextAddr g ≤ limit32 + c.written * g.wordBytes)
    (hd : ∀ d, i.desc = some d → d.Fits) (h : (c.next g i).result = .ok (c', step)) :
    c'.nextAddr g ≤ limit32 + c'.written * g.wordBytes := by
  obtain ⟨error, hm⟩ := next_moves h
  have closed : ∀ {core : WriteCore} {ph : WritePhase}, c.phase = ph → ph ≠ .transferBurst →
      core.phase ≠ .transferBurst → core.addr = c.addr → core.written = c.written →
      core.nextAddr g ≤ limit32 + core.written * g.wordBytes := by
    intro core ph hph hne hne' ha hw
    rw [nextAddr_of_closed (by rw [hph]; exact hne) hne' ha, hw]
    exact hr
  have hstep : c.phase = .transferBurst →
      c.addr + (c.beat + 1) * g.wordBytes ≤ limit32 + (c.written + 1) * g.wordBytes := by
    intro hph
    rw [nextAddr, if_pos hph] at hr
    rw [Nat.add_mul, Nat.add_mul]
    omega
  cases hm with
  | rest hph _ => exact hr
  | starve hph _ => exact hr
  | stall hph _ => exact hr
  | wait hph _ => exact hr
  | take d hph hdesc =>
      have hopen : (if !c.frameMode && d.words == 0 then WritePhase.done else .sizing)
          ≠ .transferBurst := by
        cases !c.frameMode && d.words == 0 <;> simp
      have hstart := Nat.lt_of_le_of_lt (g.align_le d.start) (hd d hdesc).start
      rw [nextAddr, if_neg hopen]
      dsimp only
      omega
  | size hph => exact closed hph (by simp) (by simp) rfl rfl
  | clamp hph => exact closed hph (by simp) (by simp) rfl rfl
  | offer _ _ _ hph _ _ => exact closed hph (by simp) (by simp) rfl rfl
  | issue pending hph _ =>
      rw [nextAddr, if_neg (by rw [hph]; simp)] at hr
      rw [nextAddr, if_pos rfl]
      dsimp only
      rw [Nat.zero_mul, Nat.add_zero]
      exact hr
  | send pending hph _ _ =>
      rw [nextAddr, if_pos hph]
      exact hstep hph
  | close pending hph _ hlast =>
      have hlast' : c.beat + 1 = c.burst := beq_iff_eq.mp hlast
      have hleave : (if c.finalBurst then WritePhase.waitForCompletion else .sizing)
          ≠ .transferBurst := by
        cases c.finalBurst <;> simp
      rw [nextAddr, if_neg hleave]
      dsimp only
      rw [← hlast']
      exact hstep hph
  | await hph _ => exact closed hph (by simp) (by simp) rfl rfl
  | complete hph _ => exact closed hph (by simp) (by simp) rfl rfl
  | settle hph => exact closed hph (by simp) (by simp) rfl rfl

/-- The sizes of a writer are those of a burst, wherever its addresses lie. -/
structure Sized (g : Geometry) (c : WriteCore) : Prop where
  maxBurst : c.phase ≠ .idle → 1 ≤ c.maxBurst ∧ c.maxBurst ≤ maxBurstWords
  candidate : c.phase = .clamping ∨ c.phase = .waitForCredit →
    1 ≤ c.candidate ∧ c.candidate ≤ maxBurstWords
  burst : c.phase = .issueBurst ∨ c.phase = .transferBurst →
    1 ≤ c.burst ∧ c.burst ≤ maxBurstWords
  beat : c.phase = .transferBurst → c.beat < c.burst
  account : c.frameMode = false → c.written ≤ c.length ∧ c.Sound g (c.length - c.written)

theorem Fits.sized (hf : c.Fits g) : c.Sized g :=
  ⟨hf.maxBurst, hf.candidate, hf.burst, hf.beat, hf.account⟩

theorem sized_init (g : Geometry) (frameMode : Bool) : Sized g { frameMode } :=
  (fits_init g frameMode).sized

/-- A clock edge keeps the sizes of a writer. -/
theorem Sized.next (hf : c.Sized g) (h : (c.next g i).result = .ok (c', step)) :
    c'.Sized g := by
  have hacc := account_next hf.account h
  obtain ⟨error, hm⟩ := next_moves h
  have hmax : ∀ {ph : WritePhase}, c.phase = ph → ph ≠ .idle →
      1 ≤ c.maxBurst ∧ c.maxBurst ≤ maxBurstWords := by
    intro ph hph hne
    exact hf.maxBurst (by rw [hph]; exact hne)
  -- most phases have no sizes of their own
  have none : ∀ {core : WriteCore}, (core.phase ≠ .idle → 1 ≤ core.maxBurst
        ∧ core.maxBurst ≤ maxBurstWords) →
      core.phase = .idle ∨ core.phase = .sizing ∨ core.phase = .waitForCompletion
        ∨ core.phase = .done →
      (core.frameMode = false → core.written ≤ core.length
        ∧ core.Sound g (core.length - core.written)) → core.Sized g := by
    intro core hm hph hacc
    rcases hph with hph | hph | hph | hph <;>
      exact ⟨hm, by simp [hph], by simp [hph], by simp [hph], hacc⟩
  cases hm with
  | rest hph _ => exact none hf.maxBurst (Or.inl hph) hacc
  | take d hph hd =>
      refine none (fun _ => ⟨clampBurst_pos _, clampBurst_le _⟩) ?_ hacc
      dsimp only
      cases !c.frameMode && d.words == 0 <;> simp
  | size hph =>
      have hm := hmax hph nofun
      refine ⟨fun _ => hm, fun _ => ?_, by simp, by simp, hacc⟩
      dsimp only
      split
      · exact hm
      · rename_i hlength
        -- in length mode there is something left to size
        obtain ⟨_, hs⟩ := hf.account (Bool.eq_false_iff.mpr hlength)
        have hrem := hs.remaining (Bool.eq_false_iff.mpr hlength) (by rw [hph]; nofun)
        have hpos := (hs.busy (Or.inl hph)).1
        unfold burstCandidate
        omega
  | clamp hph =>
      obtain ⟨hone, hle⟩ := hf.candidate (Or.inl hph)
      have hbound := wordsUntilBoundary_pos g c.addr
      refine ⟨fun _ => hmax hph nofun, fun _ => ?_, by simp, by simp, hacc⟩
      dsimp only
      omega
  | starve hph _ =>
      exact ⟨hf.maxBurst, hf.candidate, hf.burst, hf.beat, hacc⟩
  | offer burst finalBurst request hph hsize _ =>
      obtain ⟨hone, hle⟩ := hf.candidate (Or.inr hph)
      obtain ⟨hpos, hfit⟩ := sized?_le hone hsize
      exact ⟨fun _ => hmax hph nofun, by simp, fun _ => ⟨hpos, Nat.le_trans hfit hle⟩, by simp,
        hacc⟩
  | stall hph _ => exact ⟨hf.maxBurst, hf.candidate, hf.burst, hf.beat, hacc⟩
  | issue pending hph _ =>
      have hb := hf.burst (Or.inl hph)
      exact ⟨fun _ => hmax hph nofun, by simp, fun _ => hb, fun _ => hb.1, hacc⟩
  | wait hph _ => exact ⟨hf.maxBurst, hf.candidate, hf.burst, hf.beat, hacc⟩
  | send pending hph _ hlast =>
      have hlt := hf.beat hph
      have hmore : c.beat + 1 ≠ c.burst := beq_eq_false_iff_ne.mp hlast
      have hquiet : ¬ (c.phase = .clamping ∨ c.phase = .waitForCredit) := by
        have hph' : c.phase = .transferBurst := hph
        rw [hph']
        rintro (hc | hc) <;> cases hc
      exact ⟨fun _ => hmax hph nofun, fun hc => absurd hc hquiet,
        fun _ => hf.burst (Or.inr hph), fun _ => by dsimp only; omega, hacc⟩
  | close pending hph _ _ =>
      refine none (fun _ => hmax hph nofun) ?_ hacc
      dsimp only
      cases c.finalBurst <;> simp
  | await hph _ => exact none (fun _ => hmax hph nofun) (by simp) hacc
  | complete hph _ => exact none (fun _ => hmax hph nofun) (by simp) hacc
  | settle hph => exact none (fun hc => absurd rfl hc) (by simp) hacc

/-- The counts of words after a clock edge are words again. -/
theorem counts_next (hf : c.Fits g) (hd : ∀ d, i.desc = some d → d.Fits)
    (h : (c.next g i).result = .ok (c', step)) :
    c'.length < limit32 ∧ c'.written < limit32 := by
  obtain ⟨r, hr, h⟩ := Run.result_bind_eq_ok.mp h
  obtain ⟨error, rfl⟩ := receive_eq hr
  have hcount := (proceed_counts h).2
  have hlen := hf.length
  have hwr := hf.written
  cases proceed_moves h with
  | take d _ hdesc => exact ⟨(hd d hdesc).words, Nat.zero_lt_of_lt hlen⟩
  | send pending _ _ _ => exact ⟨hlen, hcount rfl⟩
  | close pending _ _ _ => exact ⟨hlen, hcount rfl⟩
  | _ => exact ⟨hlen, hwr⟩

/-- **The numbers of a writer stay within their words.** -/
theorem fits_next (hf : c.Fits g) (hd : ∀ d, i.desc = some d → d.Fits)
    (haw : i.awFires = true → c.phase = .issueBurst)
    (hw : i.wFires = true → c.phase = .transferBurst)
    (h : (c.next g i).result = .ok (c', step)) : c'.Fits g := by
  obtain ⟨hmax, hcand, hburst, hbeat, haccount⟩ := hf.sized.next h
  obtain ⟨hlength, hwritten⟩ := counts_next hf hd h
  exact ⟨hlength, hwritten, reach_next hf.reach hd h, hmax, hcand, hburst, hbeat,
    pending_next hf.beat hf.pending haw hw h, haccount⟩

/-- In length mode the count of words stays below the length. -/
theorem Fits.written_lt (hf : c.Fits g) (hm : c.frameMode = false)
    (hph : c.phase = .transferBurst) : c.written + 1 < limit32 := by
  obtain ⟨hle, hs⟩ := hf.account hm
  obtain ⟨hbeat, hfit, _⟩ := hs.sending hph
  have hlen := hf.length
  omega

theorem sendBeat_ok (hb : c.beat + 1 < limit32) (hw : c.written + 1 < limit32)
    (ha : c.onLastBeat = true → c.addr + c.burst * g.wordBytes < limit64) :
    ∃ c', (c.sendBeat g).result = .ok c' := by
  have hbeat : (liftM (Checked.add limit32 c.beat 1) : Run Nat).result = .ok (c.beat + 1) :=
    Checked.add_ok hb
  have hwritten : (liftM (Checked.add limit32 c.written 1) : Run Nat).result
      = .ok (c.written + 1) := Checked.add_ok hw
  have haddr : c.onLastBeat = true → (liftM (g.advance c.addr c.burst) : Run Nat).result
      = .ok (c.addr + c.burst * g.wordBytes) := fun hlast => Checked.add_ok (ha hlast)
  -- the end of the sending, with the counts that fitted
  have hend : ∀ c' : WriteCore, ∃ c'', (if c.onLastBeat then do
        let addr ← (g.advance c.addr c.burst : Except Fault Nat)
        return { c' with
          addr
          remaining := c.remaining - c.burst
          phase := if c.finalBurst then .waitForCompletion else .sizing }
      else return c' : Run WriteCore).result = .ok c'' := by
    intro c'
    split
    · rename_i hlast
      exact ⟨_, Run.result_bind_eq_ok.mpr ⟨_, haddr hlast, rfl⟩⟩
    · exact ⟨_, rfl⟩
  obtain ⟨c'', hc''⟩ := hend { c with
    pending := ⟨c.pending.words - 1,
      if c.onLastBeat then c.pending.bursts - 1 else c.pending.bursts⟩
    beat := c.beat + 1
    written := c.written + 1 }
  exact ⟨c'', Run.result_bind_eq_ok.mpr ⟨_, Pending.retire_ok _ _,
    Run.result_bind_eq_ok.mpr ⟨_, hbeat, Run.result_bind_eq_ok.mpr ⟨_, hwritten, hc''⟩⟩⟩⟩

/-- **A writer has a next state**, as long as its counts and its address do not run over. -/
theorem Sized.next_ok (hf : c.Sized g)
    (hp : c.pending = ⟨c.openWords, if c.phase = .transferBurst then 1 else 0⟩)
    (hout : i.awFires = true → c.phase = .issueBurst → c.outstanding + 1 < limit32)
    (hw : i.wFires = true → c.phase = .transferBurst → c.written + 1 < limit32)
    (ha : i.wFires = true → c.phase = .transferBurst → c.onLastBeat = true →
      c.addr + c.burst * g.wordBytes < limit64) :
    ∃ c' step, (c.next g i).result = .ok (c', step) := by
  have hmax : maxBurstWords < limit32 := by decide
  have hrec : ∃ r, (c.receive i).result = .ok r := by
    unfold receive
    cases i.b with
    | none => exact ⟨_, rfl⟩
    | some b => exact ⟨_, Run.result_bind_eq_ok.mpr ⟨_, Run.result_noteIf _ _, rfl⟩⟩
  obtain ⟨r, hrec⟩ := hrec
  obtain ⟨error, rfl⟩ := receive_eq hrec
  have hproc : ∃ core st, (proceed g
      { c with outstanding := c.outstanding - i.b.toList.length, error } i).result
        = .ok (core, st) := by
    unfold proceed
    dsimp only
    cases hph : c.phase with
    | idle => cases i.desc <;> exact ⟨_, _, rfl⟩
    | sizing => exact ⟨_, _, rfl⟩
    | clamping => exact ⟨_, _, rfl⟩
    | waitForCredit =>
        dsimp only
        split
        · exact ⟨_, _, rfl⟩
        · rename_i burst finalBurst hsize
          obtain ⟨hone, hle⟩ := hf.candidate (Or.inr hph)
          obtain ⟨hpos, hfit⟩ := sized?_le hone hsize
          obtain ⟨request, hr⟩ :=
            AddrReq.incrementing_ok c.addr g ⟨hpos, Nat.le_trans hfit hle⟩
          exact ⟨_, _, Run.result_bind_eq_ok.mpr ⟨_, hr, rfl⟩⟩
    | issueBurst =>
        dsimp only
        split
        · rename_i hfire
          -- no burst is on its way yet
          have hnone : c.pending = ⟨0, 0⟩ := by
            rw [hp, openWords, hph]
            rfl
          have hbound := (hf.burst (Or.inl hph)).2
          have hone := hout hfire hph
          have hissue : (liftM (c.pending.issue c.burst) : Run Pending).result
              = .ok ⟨0 + c.burst, 0 + 1⟩ := by
            rw [hnone]
            exact Pending.issue_ok (by dsimp only; omega) (by decide)
          have hadd : (liftM (Checked.add limit32 (c.outstanding - i.b.toList.length) 1)
              : Run Nat).result = .ok (c.outstanding - i.b.toList.length + 1) :=
            Checked.add_ok (by omega)
          exact ⟨_, _, Run.result_bind_eq_ok.mpr ⟨_, hissue,
            Run.result_bind_eq_ok.mpr ⟨_, hadd, rfl⟩⟩⟩
        · exact ⟨_, _, rfl⟩
    | transferBurst =>
        dsimp only
        split
        · rename_i hfire
          have hbeat := hf.beat hph
          have hbound := (hf.burst (Or.inr hph)).2
          obtain ⟨sent, hs⟩ := sendBeat_ok (g := g) (c := { c with
            phase := .transferBurst
            outstanding := c.outstanding - i.b.toList.length
            error }) (by dsimp only; omega) (hw hfire hph) (ha hfire hph)
          exact ⟨_, _, Run.result_bind_eq_ok.mpr ⟨_, hs, rfl⟩⟩
        · exact ⟨_, _, rfl⟩
    | waitForCompletion => exact ⟨_, _, rfl⟩
    | done => exact ⟨_, _, rfl⟩
  obtain ⟨core, st, hproc⟩ := hproc
  exact ⟨core, st, Run.result_bind_eq_ok.mpr ⟨_, hrec, hproc⟩⟩

/-- **A writer whose numbers fit has a next state**, as long as its count of words does not
run over. -/
theorem next_ok (hg : g.Legal) (hf : c.Fits g) (hout : c.outstanding + 1 < limit32)
    (hw : i.wFires = true → c.written + 1 < limit32) :
    ∃ c' step, (c.next g i).result = .ok (c', step) := by
  refine hf.sized.next_ok hf.pending (fun _ _ => hout) (fun hfire _ => hw hfire) ?_
  intro _ hph _
  have hbound := (hf.burst (Or.inr hph)).2
  have hreach := hf.reach
  rw [nextAddr, if_pos hph] at hreach
  have hwr := Nat.mul_le_mul_right g.wordBytes (Nat.le_of_lt hf.written)
  have hburst := Nat.mul_le_mul hbound hg.wordBytes_le
  have hlim := reach_le hg
  unfold BurstDma.reach at hlim
  omega

/-- The status register can always be read. -/
theorem remainingWords_ok (hf : c.Fits g) : ∃ n, c.remainingWords = .ok n := by
  unfold remainingWords
  cases hm : c.frameMode with
  | true => exact ⟨_, rfl⟩
  | false => exact ⟨_, Checked.sub_ok (hf.account hm).1⟩

end WriteCore

end BurstDma
