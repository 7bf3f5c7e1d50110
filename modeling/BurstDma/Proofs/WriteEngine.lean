import BurstDma.Engine.Writer
import BurstDma.Proofs.Place

/-!
# The account of a write engine

What a write engine has left to do is one number, the words of the transfer that were not
sent yet. In length mode the engine keeps that number itself, in frame mode the stream
knows it. **Either way a burst is sized so that it fits what is left, and it is marked as
the last one exactly if it is all that is left**; that is the only place where the two
modes differ, and the hypothesis `SizedRight` of the laws below.
-/

namespace BurstDma

namespace WriteCore

/-- What arrived in a cycle changes the count of unanswered bursts, and nothing else that
matters. -/
theorem receive_eq {c r : WriteCore} {i : WriteInputs} (h : (c.receive i).result = .ok r) :
    ∃ error, r = { c with outstanding := c.outstanding - i.b.toList.length, error } := by
  unfold receive at h
  cases hb : i.b with
  | none =>
      rw [hb] at h
      cases hc : i.clearError <;> rw [hc] at h <;> cases h <;> exact ⟨_, rfl⟩
  | some b =>
      rw [hb] at h
      obtain ⟨_, _, h⟩ := Run.result_bind_eq_ok.mp h
      cases hc : i.clearError <;> rw [hc] at h <;> cases h <;> exact ⟨_, rfl⟩

/-- The moves of a write engine. `c` holds what arrived in the cycle. -/
inductive Moves (g : Geometry) (c : WriteCore) (i : WriteInputs) :
    WriteCore → WriteStep → Prop where
  | rest : c.phase = .idle → i.desc = none → Moves g c i c {}
  | take (d : Descriptor) : c.phase = .idle → i.desc = some d →
      Moves g c i { c with
        phase := if !c.frameMode && d.words == 0 then .done else .sizing
        addr := g.align d.start
        length := d.words
        remaining := d.words
        written := 0
        maxBurst := clampBurst d.maxBurst } { taken := true }
  | size : c.phase = .sizing →
      Moves g c i { c with
        phase := .clamping
        candidate :=
          if c.frameMode then c.maxBurst else burstCandidate c.remaining c.maxBurst } {}
  | clamp : c.phase = .clamping →
      Moves g c i { c with
        phase := .waitForCredit
        candidate := min c.candidate (g.wordsUntilBoundary c.addr) } {}
  | starve : c.phase = .waitForCredit → c.sized? i = none → Moves g c i c {}
  | offer (burst : Nat) (finalBurst : Bool) (request : AddrReq) : c.phase = .waitForCredit →
      c.sized? i = some (burst, finalBurst) →
      AddrReq.incrementing c.addr burst g = .ok request →
      Moves g c i { c with phase := .issueBurst, burst, finalBurst, request } {}
  | stall : c.phase = .issueBurst → i.awFires = false → Moves g c i c {}
  | issue (pending : Pending) : c.phase = .issueBurst → i.awFires = true →
      Moves g c i { c with
        phase := .transferBurst
        pending
        outstanding := c.outstanding + 1
        beat := 0 } { issued := some ⟨c.addr, c.burst⟩ }
  | wait : c.phase = .transferBurst → i.wFires = false → Moves g c i c {}
  | send (pending : Pending) : c.phase = .transferBurst → i.wFires = true →
      c.onLastBeat = false →
      Moves g c i { c with pending, beat := c.beat + 1, written := c.written + 1 }
        { pop := true }
  | close (pending : Pending) : c.phase = .transferBurst → i.wFires = true →
      c.onLastBeat = true →
      Moves g c i { c with
        pending
        beat := c.beat + 1
        written := c.written + 1
        addr := c.addr + c.burst * g.wordBytes
        remaining := c.remaining - c.burst
        phase := if c.finalBurst then .waitForCompletion else .sizing } { pop := true }
  | await : c.phase = .waitForCompletion → c.outstanding ≠ 0 →
      Moves g c i { c with phase := .waitForCompletion } {}
  | complete : c.phase = .waitForCompletion → c.outstanding = 0 →
      Moves g c i { c with phase := .done } {}
  | settle : c.phase = .done → Moves g c i { c with phase := .idle } {}

theorem proceed_moves {g : Geometry} {c c' : WriteCore} {i : WriteInputs} {step : WriteStep}
    (h : (c.proceed g i).result = .ok (c', step)) : Moves g c i c' step := by
  unfold proceed at h
  cases hph : c.phase with
  | idle =>
      simp only [hph] at h
      cases hd : i.desc with
      | none =>
          rw [hd] at h
          cases h
          exact .rest hph hd
      | some d =>
          rw [hd] at h
          cases h
          exact .take d hph hd
  | sizing =>
      simp only [hph] at h
      cases h
      exact .size hph
  | clamping =>
      simp only [hph] at h
      cases h
      exact .clamp hph
  | waitForCredit =>
      simp only [hph] at h
      cases hs : c.sized? i with
      | none =>
          rw [hs] at h
          cases h
          exact .starve hph hs
      | some sized =>
          obtain ⟨burst, finalBurst⟩ := sized
          rw [hs] at h
          obtain ⟨request, hr, h⟩ := Run.result_bind_eq_ok.mp h
          cases h
          exact .offer burst finalBurst request hph hs hr
  | issueBurst =>
      simp only [hph] at h
      split at h
      · rename_i hf
        obtain ⟨pending, _, h⟩ := Run.result_bind_eq_ok.mp h
        obtain ⟨outstanding, ho, h⟩ := Run.result_bind_eq_ok.mp h
        obtain ⟨_, rfl⟩ := Checked.add_eq_ok_iff.mp ho
        cases h
        exact .issue pending hph hf
      · rename_i hf
        cases h
        exact .stall hph (Bool.eq_false_iff.mpr hf)
  | transferBurst =>
      simp only [hph] at h
      split at h
      · rename_i hf
        obtain ⟨sent, hs, h⟩ := Run.result_bind_eq_ok.mp h
        cases h
        obtain ⟨pending, _, hs⟩ := Run.result_bind_eq_ok.mp hs
        obtain ⟨beat, hb, hs⟩ := Run.result_bind_eq_ok.mp hs
        obtain ⟨written, hw, hs⟩ := Run.result_bind_eq_ok.mp hs
        obtain ⟨_, rfl⟩ := Checked.add_eq_ok_iff.mp hb
        obtain ⟨_, rfl⟩ := Checked.add_eq_ok_iff.mp hw
        split at hs
        · rename_i hlast
          obtain ⟨addr, ha, hs⟩ := Run.result_bind_eq_ok.mp hs
          obtain ⟨_, rfl⟩ := Checked.add_eq_ok_iff.mp ha
          cases hs
          exact .close pending hph hf hlast
        · rename_i hlast
          cases hs
          exact .send pending hph hf (Bool.eq_false_iff.mpr hlast)
      · rename_i hf
        cases h
        exact .wait hph (Bool.eq_false_iff.mpr hf)
  | waitForCompletion =>
      simp only [hph] at h
      cases h
      split
      · rename_i hz
        exact .complete hph hz
      · rename_i hopen
        exact .await hph hopen
  | done =>
      simp only [hph] at h
      cases h
      exact .settle hph

/-- A clock edge is the arrival of a response and a move. -/
theorem next_moves {g : Geometry} {c c' : WriteCore} {i : WriteInputs} {step : WriteStep}
    (h : (c.next g i).result = .ok (c', step)) :
    ∃ error, Moves g { c with outstanding := c.outstanding - i.b.toList.length, error } i
      c' step := by
  obtain ⟨r, hr, h⟩ := Run.result_bind_eq_ok.mp h
  obtain ⟨error, rfl⟩ := receive_eq hr
  exact ⟨error, proceed_moves h⟩

/-- The mode of an engine never changes. -/
theorem frameMode_next {g : Geometry} {c c' : WriteCore} {i : WriteInputs} {step : WriteStep}
    (h : (c.next g i).result = .ok (c', step)) : c'.frameMode = c.frameMode := by
  obtain ⟨error, hm⟩ := next_moves h
  cases hm <;> rfl

/-- The count of words starts with a transfer, and goes up with every word sent. -/
theorem written_next {g : Geometry} {c c' : WriteCore} {i : WriteInputs} {step : WriteStep}
    (h : (c.next g i).result = .ok (c', step)) :
    c'.written = (if step.taken then 0 else c.written + if step.pop then 1 else 0)
      ∧ (step.taken = true → step.pop = false) := by
  obtain ⟨error, hmove⟩ := next_moves h
  cases hmove <;> exact ⟨rfl, by simp⟩

/-- A beat is sent only if its number fits its word. -/
theorem beat_lt_of_pop {g : Geometry} {c c' : WriteCore} {i : WriteInputs} {step : WriteStep}
    (h : (c.next g i).result = .ok (c', step)) (hpop : step.pop = true) : c.beat < limit32 := by
  obtain ⟨r, hr, h⟩ := Run.result_bind_eq_ok.mp h
  obtain ⟨error, rfl⟩ := receive_eq hr
  have hph : c.phase = .transferBurst := by
    cases proceed_moves h with
    | send _ hph _ _ => exact hph
    | close _ hph _ _ => exact hph
    | _ => cases hpop
  unfold proceed at h
  simp only [hph] at h
  split at h
  · obtain ⟨sent, hs, _⟩ := Run.result_bind_eq_ok.mp h
    obtain ⟨pending, _, hs⟩ := Run.result_bind_eq_ok.mp hs
    obtain ⟨beat, hb, _⟩ := Run.result_bind_eq_ok.mp hs
    exact Nat.lt_of_succ_lt (Checked.add_eq_ok_iff.mp hb).1
  · cases h
    cases hpop

/-- What an engine takes was handed to it. -/
theorem desc_of_taken {g : Geometry} {c c' : WriteCore} {i : WriteInputs} {step : WriteStep}
    (h : (c.next g i).result = .ok (c', step))
    (ht : step.taken = true) : ∃ d, i.desc = some d := by
  obtain ⟨error, hm⟩ := next_moves h
  cases hm with
  | take d _ hd => exact ⟨d, hd⟩
  | _ => cases ht

/-! ## The account -/

/-- The account of a writer with `left` words of its transfer not sent yet. -/
structure Sound (g : Geometry) (left : Nat) (c : WriteCore) : Prop where
  resting : c.phase = .idle ∨ c.phase = .done ∨ c.phase = .waitForCompletion → left = 0
  /-- While a burst is being sized there is something left. -/
  busy : c.phase = .sizing ∨ c.phase = .clamping ∨ c.phase = .waitForCredit →
    0 < left ∧ 1 ≤ c.maxBurst
  /-- In length mode the engine knows what is left. -/
  remaining : c.frameMode = false → c.phase ≠ .transferBurst → c.remaining = left
  candidate : c.phase = .clamping ∨ c.phase = .waitForCredit →
    1 ≤ c.candidate ∧ c.candidate ≤ c.maxBurst ∧ (c.frameMode = false → c.candidate ≤ left)
  boundary : c.phase = .waitForCredit → c.candidate ≤ g.wordsUntilBoundary c.addr
  offered : c.phase = .issueBurst →
    1 ≤ c.burst ∧ c.burst ≤ left ∧ (c.finalBurst = true ↔ c.burst = left)
      ∧ c.request.addr = c.addr ∧ c.request.beats = c.burst
      ∧ c.burst ≤ c.maxBurst ∧ c.burst ≤ g.wordsUntilBoundary c.addr
  sending : c.phase = .transferBurst →
    c.beat < c.burst ∧ c.burst ≤ left + c.beat ∧ (c.finalBurst = true ↔ c.burst = left + c.beat)
      ∧ (c.frameMode = false → c.remaining = left + c.beat) ∧ c.burst ≤ c.maxBurst

/-- Whenever a burst is sized it fits what is left, and it is marked as the last one
exactly if it is all that is left. -/
def SizedRight (left : Nat) (c : WriteCore) (i : WriteInputs) : Prop :=
  c.phase = .waitForCredit → ∀ burst finalBurst, c.sized? i = some (burst, finalBurst) →
    burst ≤ left ∧ (finalBurst = true ↔ burst = left)

/-- In length mode bursts are sized right. -/
theorem sizedRight_of_length {g : Geometry} {left : Nat} {c : WriteCore} {i : WriteInputs}
    (hs : c.Sound g left) (hm : c.frameMode = false) : c.SizedRight left i := by
  intro hph burst finalBurst hsize
  obtain ⟨_, _, hle⟩ := hs.candidate (Or.inr hph)
  have hrem : c.remaining = left := hs.remaining hm (by rw [hph]; nofun)
  unfold sized? at hsize
  rw [hm, Bool.false_and, if_neg Bool.false_ne_true] at hsize
  split at hsize
  · cases hsize
    refine ⟨hle hm, ?_⟩
    rw [Bool.not_false, Bool.true_and, beq_iff_eq, hrem]
    exact eq_comm
  · cases hsize

/-- A burst is at most as long as the candidate, and it is not empty. -/
theorem sized?_le {c : WriteCore} {i : WriteInputs} {burst : Nat} {finalBurst : Bool}
    (hpos : 1 ≤ c.candidate) (h : c.sized? i = some (burst, finalBurst)) :
    1 ≤ burst ∧ burst ≤ c.candidate := by
  unfold sized? at h
  split at h
  · dsimp only at h
    split at h
    · rename_i hw
      cases h
      exact ⟨hw, Nat.min_le_left _ _⟩
    · cases h
  · split at h
    · cases h
      exact ⟨hpos, Nat.le_refl _⟩
    · cases h

/-- The number of words of the transfer that a descriptor begins: in length mode it says
so, in frame mode there is at least one. -/
def Begun (c : WriteCore) (d : Descriptor) (words : Nat) : Prop :=
  (c.frameMode = false → words = d.words) ∧ (c.frameMode = true → 0 < words)

/-- The address at which the next beat will lie. -/
def nextAddr (g : Geometry) (c : WriteCore) : Nat :=
  if c.phase = .transferBurst then c.addr + c.beat * g.wordBytes else c.addr

/-- A clock edge begins a transfer. -/
structure Begins (g : Geometry) (c : WriteCore) (i : WriteInputs) (d : Descriptor)
    (c' : WriteCore) (step : WriteStep) : Prop where
  taken : i.desc = some d ∧ step.taken = true
  still : step.pop = false ∧ step.issued = none
  nextAddr : c'.nextAddr g = g.align d.start
  written : c'.written = 0
  maxBurst : c'.maxBurst = clampBurst d.maxBurst
  sound : ∀ words, c.Begun d words → c'.Sound g words

/-- A clock edge goes on with a transfer of which `left` words were not sent. -/
structure Continues (g : Geometry) (left : Nat) (c : WriteCore) (c' : WriteCore)
    (step : WriteStep) : Prop where
  taken : step.taken = false
  /-- A beat is sent to the address that was next. -/
  toSend : g.span (c.nextAddr g) left
    = (if step.pop then [c.nextAddr g] else [])
      ++ g.span (c'.nextAddr g) (left - if step.pop then 1 else 0)
  fits : step.pop = true → c.phase = .transferBurst ∧ 0 < left
  written : c'.written = c.written + if step.pop then 1 else 0
  maxBurst : c'.maxBurst = c.maxBurst
  sound : c'.Sound g (left - if step.pop then 1 else 0)

/-! ### What each phase has to say -/

section

variable {g : Geometry} {left : Nat} {c : WriteCore}

theorem sound_of_sizing (hph : c.phase = .sizing) (hpos : 0 < left ∧ 1 ≤ c.maxBurst)
    (hrem : c.frameMode = false → c.remaining = left) : c.Sound g left :=
  ⟨by simp [hph], fun _ => hpos, fun hm _ => hrem hm, by simp [hph], by simp [hph],
    by simp [hph], by simp [hph]⟩

theorem sound_of_clamping (hph : c.phase = .clamping) (hpos : 0 < left ∧ 1 ≤ c.maxBurst)
    (hrem : c.frameMode = false → c.remaining = left)
    (hcand : 1 ≤ c.candidate ∧ c.candidate ≤ c.maxBurst
      ∧ (c.frameMode = false → c.candidate ≤ left)) : c.Sound g left :=
  ⟨by simp [hph], fun _ => hpos, fun hm _ => hrem hm, fun _ => hcand, by simp [hph],
    by simp [hph], by simp [hph]⟩

theorem sound_of_waiting (hph : c.phase = .waitForCredit) (hpos : 0 < left ∧ 1 ≤ c.maxBurst)
    (hrem : c.frameMode = false → c.remaining = left)
    (hcand : 1 ≤ c.candidate ∧ c.candidate ≤ c.maxBurst
      ∧ (c.frameMode = false → c.candidate ≤ left))
    (hbound : c.candidate ≤ g.wordsUntilBoundary c.addr) : c.Sound g left :=
  ⟨by simp [hph], fun _ => hpos, fun hm _ => hrem hm, fun _ => hcand, fun _ => hbound,
    by simp [hph], by simp [hph]⟩

theorem sound_of_offer (hph : c.phase = .issueBurst)
    (hrem : c.frameMode = false → c.remaining = left)
    (hoffer : 1 ≤ c.burst ∧ c.burst ≤ left ∧ (c.finalBurst = true ↔ c.burst = left)
      ∧ c.request.addr = c.addr ∧ c.request.beats = c.burst
      ∧ c.burst ≤ c.maxBurst ∧ c.burst ≤ g.wordsUntilBoundary c.addr) : c.Sound g left :=
  ⟨by simp [hph], by simp [hph], fun hm _ => hrem hm, by simp [hph], by simp [hph],
    fun _ => hoffer, by simp [hph]⟩

theorem sound_of_sending (hph : c.phase = .transferBurst)
    (hsend : c.beat < c.burst ∧ c.burst ≤ left + c.beat
      ∧ (c.finalBurst = true ↔ c.burst = left + c.beat)
      ∧ (c.frameMode = false → c.remaining = left + c.beat) ∧ c.burst ≤ c.maxBurst) :
    c.Sound g left :=
  ⟨by simp [hph], by simp [hph], fun _ hne => absurd hph hne, by simp [hph], by simp [hph],
    by simp [hph], fun _ => hsend⟩

/-- The phases in which nothing is left to send. -/
theorem sound_of_resting (hph : c.phase = .idle ∨ c.phase = .done ∨ c.phase = .waitForCompletion)
    (hrem : c.frameMode = false → c.remaining = 0) : c.Sound g 0 := by
  rcases hph with hph | hph | hph
  · exact ⟨fun _ => rfl, by simp [hph], fun hm _ => hrem hm, by simp [hph], by simp [hph],
      by simp [hph], by simp [hph]⟩
  · exact ⟨fun _ => rfl, by simp [hph], fun hm _ => hrem hm, by simp [hph], by simp [hph],
      by simp [hph], by simp [hph]⟩
  · exact ⟨fun _ => rfl, by simp [hph], fun hm _ => hrem hm, by simp [hph], by simp [hph],
      by simp [hph], by simp [hph]⟩

theorem sound_init (g : Geometry) (frameMode : Bool) : Sound g 0 { frameMode } :=
  sound_of_resting (Or.inl rfl) fun _ => rfl

/-- The account does not look at the answers. -/
theorem Sound.received (hs : c.Sound g left) (outstanding : Nat) (error : Resp) :
    Sound g left { c with outstanding, error } :=
  ⟨hs.resting, hs.busy, hs.remaining, hs.candidate, hs.boundary, hs.offered, hs.sending⟩

end

/-! ### What each move makes of the account -/

section

variable {g : Geometry} {left : Nat} {c core : WriteCore} {i : WriteInputs}

theorem nextAddr_of_closed (hne : c.phase ≠ .transferBurst) (hne' : core.phase ≠ .transferBurst)
    (ha : core.addr = c.addr) : core.nextAddr g = c.nextAddr g := by
  unfold nextAddr
  rw [if_neg hne, if_neg hne', ha]

/-- A move that sends nothing only has to keep the account. -/
theorem continues_of_still (ha : core.nextAddr g = c.nextAddr g) (hw : core.written = c.written)
    (hmax : core.maxBurst = c.maxBurst) (hsound : core.Sound g left) :
    Continues g left c core {} := by
  refine ⟨rfl, ?_, ?_, hw, hmax, hsound⟩
  · rw [ha]
    rfl
  · intro hc; cases hc

theorem begins_of_take (d : Descriptor) (hd : i.desc = some d) (outstanding : Nat)
    (error : Resp) :
    Begins g c i d { c with
      phase := if !c.frameMode && d.words == 0 then .done else .sizing
      addr := g.align d.start
      length := d.words
      remaining := d.words
      written := 0
      maxBurst := clampBurst d.maxBurst
      outstanding, error } { taken := true } := by
  refine ⟨⟨hd, rfl⟩, ⟨rfl, rfl⟩, ?_, rfl, rfl, ?_⟩
  · unfold nextAddr
    refine if_neg ?_
    dsimp only
    cases !c.frameMode && d.words == 0 <;> nofun
  · intro words hw
    cases hz : !c.frameMode && d.words == 0 with
    | true =>
        simp only [Bool.and_eq_true, Bool.not_eq_true', beq_iff_eq] at hz
        -- an empty transfer is done at once
        have hwords : words = 0 := (hw.1 hz.1).trans hz.2
        rw [hwords]
        exact sound_of_resting (Or.inr (Or.inl rfl)) fun _ => hz.2
    | false =>
        refine sound_of_sizing rfl ⟨?_, clampBurst_pos _⟩ fun hm => (hw.1 hm).symm
        cases hm : c.frameMode with
        | true => exact hw.2 hm
        | false =>
            rw [hm] at hz
            simp only [Bool.not_false, Bool.true_and, beq_eq_false_iff_ne] at hz
            rw [hw.1 hm]
            exact Nat.pos_of_ne_zero hz

/-- A word of the open burst, but not its last one. -/
theorem continues_of_send (hs : c.Sound g left) (hph : c.phase = .transferBurst)
    (hlast : c.onLastBeat = false) (pending : Pending) (outstanding : Nat) (error : Resp) :
    Continues g left c { c with
      pending, outstanding, error
      beat := c.beat + 1
      written := c.written + 1 } { pop := true } := by
  obtain ⟨hbeat, hfit, hfinal, hrem, hmax⟩ := hs.sending hph
  -- the burst has another word, and so has the transfer
  have hmore : c.beat + 1 ≠ c.burst := beq_eq_false_iff_ne.mp hlast
  have hsplit : left = 1 + (left - 1) := by omega
  have hnext : c.nextAddr g + 1 * g.wordBytes = c.addr + (c.beat + 1) * g.wordBytes := by
    rw [nextAddr, if_pos hph, Nat.add_mul]; omega
  refine ⟨rfl, ?_, fun _ => ⟨hph, by omega⟩, rfl, rfl, ?_⟩
  · rw [if_pos rfl, if_pos rfl]
    conv => lhs; rw [hsplit, Geometry.span_add, hnext]
    rw [nextAddr, nextAddr, if_pos hph, if_pos hph]
    rfl
  · have hsum : left - 1 + (c.beat + 1) = left + c.beat := by omega
    rw [if_pos rfl]
    refine sound_of_sending hph ?_
    dsimp only
    rw [hsum]
    exact ⟨by omega, hfit, hfinal, hrem, hmax⟩

/-- The last word of the open burst. -/
theorem continues_of_close (hs : c.Sound g left) (hph : c.phase = .transferBurst)
    (hlast : c.onLastBeat = true) (pending : Pending) (outstanding : Nat) (error : Resp) :
    Continues g left c { c with
      pending, outstanding, error
      beat := c.beat + 1
      written := c.written + 1
      addr := c.addr + c.burst * g.wordBytes
      remaining := c.remaining - c.burst
      phase := if c.finalBurst then .waitForCompletion else .sizing } { pop := true } := by
  obtain ⟨hbeat, hfit, hfinal, hrem, hmax⟩ := hs.sending hph
  have hdone : c.beat + 1 = c.burst := beq_iff_eq.mp hlast
  have hsplit : left = 1 + (left - 1) := by omega
  have hnext : c.nextAddr g + 1 * g.wordBytes = c.addr + c.burst * g.wordBytes := by
    rw [nextAddr, if_pos hph, ← hdone, Nat.add_mul]; omega
  refine ⟨rfl, ?_, fun _ => ⟨hph, by omega⟩, rfl, rfl, ?_⟩
  · rw [if_pos rfl, if_pos rfl]
    conv => lhs; rw [hsplit, Geometry.span_add, hnext]
    rw [nextAddr, nextAddr, if_pos hph]
    cases c.finalBurst <;> rfl
  · rw [if_pos rfl]
    cases hf : c.finalBurst with
    | true =>
        -- the last burst ends with the last word
        have hall := hfinal.mp hf
        have hzero : left - 1 = 0 := by omega
        rw [hzero]
        refine sound_of_resting (Or.inr (Or.inr rfl)) fun hm => ?_
        have := hrem hm
        dsimp only
        omega
    | false =>
        -- behind any other burst something is left
        have hmore : c.burst ≠ left + c.beat := by
          intro heq
          rw [hfinal.mpr heq] at hf
          cases hf
        refine sound_of_sizing rfl ⟨?_, ?_⟩ fun hm => ?_
        · omega
        · exact Nat.le_trans (by omega) hmax
        · have := hrem hm
          dsimp only
          omega

end

/-- **The account stays sound**, and the words of a transfer go to consecutive
addresses. -/
theorem next_transfer {g : Geometry} {c c' : WriteCore} {i : WriteInputs} {step : WriteStep}
    {left : Nat} (hs : c.Sound g left) (hr : c.SizedRight left i)
    (h : (c.next g i).result = .ok (c', step)) :
    (c.phase = .idle ∧ ∃ d, Begins g c i d c' step) ∨ Continues g left c c' step := by
  obtain ⟨error, hm⟩ := next_moves h
  have same := hs.received (c.outstanding - i.b.toList.length) error
  -- outside an open burst the engine knows in length mode what is left
  have hrem : ∀ {ph : WritePhase}, c.phase = ph → ph ≠ .transferBurst →
      c.frameMode = false → c.remaining = left := by
    intro ph hph hne hm
    exact hs.remaining hm (by rw [hph]; exact hne)
  have addrs : ∀ {core : WriteCore} {ph : WritePhase}, c.phase = ph → ph ≠ .transferBurst →
      core.phase ≠ .transferBurst → core.addr = c.addr → core.nextAddr g = c.nextAddr g := by
    intro core ph hph hne hne' ha
    exact nextAddr_of_closed (by rw [hph]; exact hne) hne' ha
  cases hm with
  | rest hph _ => exact Or.inr (continues_of_still rfl rfl rfl same)
  | starve hph _ => exact Or.inr (continues_of_still rfl rfl rfl same)
  | stall hph _ => exact Or.inr (continues_of_still rfl rfl rfl same)
  | wait hph _ => exact Or.inr (continues_of_still rfl rfl rfl same)
  | take d hph hd => exact Or.inl ⟨hph, d, begins_of_take d hd _ _⟩
  | size hph =>
      obtain ⟨hpos, hmax⟩ := hs.busy (Or.inl hph)
      refine Or.inr (continues_of_still (addrs hph nofun nofun rfl) rfl rfl ?_)
      refine sound_of_clamping rfl ⟨hpos, hmax⟩ (hrem hph nofun) ?_
      dsimp only
      split
      · rename_i hm
        exact ⟨hmax, Nat.le_refl _, by intro hm'; rw [hm] at hm'; cases hm'⟩
      · rename_i hm
        have := hrem hph nofun (Bool.eq_false_iff.mpr hm)
        unfold burstCandidate
        refine ⟨?_, ?_, fun _ => ?_⟩ <;> omega
  | clamp hph =>
      obtain ⟨hpos, hmax⟩ := hs.busy (Or.inr (Or.inl hph))
      obtain ⟨h1, h2, h3⟩ := hs.candidate (Or.inl hph)
      have hbound := wordsUntilBoundary_pos g c.addr
      refine Or.inr (continues_of_still (addrs hph nofun nofun rfl) rfl rfl ?_)
      refine sound_of_waiting rfl ⟨hpos, hmax⟩ (hrem hph nofun) ⟨?_, ?_, fun hm => ?_⟩
        (Nat.min_le_right _ _)
      · dsimp only; omega
      · dsimp only; omega
      · have := h3 hm
        dsimp only
        omega
  | offer burst finalBurst request hph hsize hreq =>
      obtain ⟨hone, hcm, _⟩ := hs.candidate (Or.inr hph)
      have hbound := hs.boundary hph
      obtain ⟨hfit, hlast⟩ := hr hph burst finalBurst hsize
      obtain ⟨hpos, hcand⟩ := sized?_le hone hsize
      obtain ⟨haddr, hbeats, _, _⟩ := AddrReq.incrementing_eq_ok hreq
      refine Or.inr (continues_of_still (addrs hph nofun nofun rfl) rfl rfl ?_)
      exact sound_of_offer rfl (hrem hph nofun) ⟨hpos, hfit, hlast, haddr, hbeats,
        Nat.le_trans hcand hcm, Nat.le_trans hcand hbound⟩
  | issue pending hph _ =>
      obtain ⟨hpos, hfit, hlast, _, _, hmax, _⟩ := hs.offered hph
      refine Or.inr ⟨rfl, ?_, (by intro hc; cases hc), rfl, rfl, ?_⟩
      · unfold nextAddr
        rw [hph]
        simp
      · exact sound_of_sending rfl ⟨hpos, hfit, hlast, hrem hph nofun, hmax⟩
  | send pending hph _ hlast => exact Or.inr (continues_of_send hs hph hlast pending _ error)
  | close pending hph _ hlast => exact Or.inr (continues_of_close hs hph hlast pending _ error)
  | await hph _ =>
      have hleft := hs.resting (Or.inr (Or.inr hph))
      subst hleft
      exact Or.inr (continues_of_still (addrs hph nofun nofun rfl) rfl rfl
        (sound_of_resting (Or.inr (Or.inr rfl)) (hrem hph nofun)))
  | complete hph _ =>
      have hleft := hs.resting (Or.inr (Or.inr hph))
      subst hleft
      exact Or.inr (continues_of_still (addrs hph nofun nofun rfl) rfl rfl
        (sound_of_resting (Or.inr (Or.inl rfl)) (hrem hph nofun)))
  | settle hph =>
      have hleft := hs.resting (Or.inr (Or.inl hph))
      subst hleft
      exact Or.inr (continues_of_still (addrs hph nofun nofun rfl) rfl rfl
        (sound_of_resting (Or.inl rfl) (hrem hph nofun)))

/-! ## What the bus sees of a writer -/

/-- What a writer offers is the burst that it was sized to. -/
def Offers (c : WriteCore) : Prop :=
  c.phase = .issueBurst → c.request.addr = c.addr ∧ c.request.beats = c.burst

/-- What the handshakes of a cycle make of a writer. -/
structure Served (c : WriteCore) (i : WriteInputs) (c' : WriteCore) (step : WriteStep) : Prop where
  pop : step.pop = i.wFires
  issued : step.issued = if i.awFires then some ⟨c.addr, c.burst⟩ else none
  outstanding : c'.outstanding
    = c.outstanding - i.b.toList.length + if i.awFires then 1 else 0
  /-- A burst is open from its address to its last beat. -/
  sending : c'.phase = .transferBurst ↔
    i.awFires = true ∨ c.phase = .transferBurst ∧ ¬ (i.wFires = true ∧ c.onLastBeat = true)
  opened : i.awFires = true → c'.beat = 0 ∧ c'.addr = c.addr ∧ c'.burst = c.burst
  kept : c.phase = .transferBurst → c'.phase = .transferBurst →
    c'.beat = c.beat + (if i.wFires then 1 else 0) ∧ c'.addr = c.addr ∧ c'.burst = c.burst
  offers : c.Offers → c'.Offers

/-- Without a handshake only the count of open bursts changes. -/
theorem served_of_quiet {c core : WriteCore} {i : WriteInputs} {step : WriteStep}
    (ha : i.awFires = false) (hd : i.wFires = false) (hph : c.phase ≠ .transferBurst)
    (hph' : core.phase ≠ .transferBurst)
    (hout : core.outstanding = c.outstanding - i.b.toList.length) (hpop : step.pop = false)
    (hissued : step.issued = none) (hoff : c.Offers → core.Offers) : Served c i core step := by
  refine ⟨?_, ?_, ?_, ?_, ?_, ?_, hoff⟩
  · rw [hpop, hd]
  · rw [hissued, ha]
    rfl
  · rw [hout, ha]
    rfl
  · rw [ha]
    simp [hph, hph']
  · rw [ha]
    intro hc; cases hc
  · intro hc
    exact absurd hc hph

theorem offers_of_ne {c : WriteCore} (hne : c.phase ≠ .issueBurst) : c.Offers :=
  fun hph => absurd hph hne

/-- **A writer does what the handshakes say**: an address goes only while it is offered, and
data only while a burst is open. -/
theorem next_served {g : Geometry} {c c' : WriteCore} {i : WriteInputs} {step : WriteStep}
    (haw : i.awFires = true → c.phase = .issueBurst)
    (hw : i.wFires = true → c.phase = .transferBurst)
    (h : (c.next g i).result = .ok (c', step)) : Served c i c' step := by
  obtain ⟨error, hm⟩ := next_moves h
  have noAddress : ∀ {ph : WritePhase}, c.phase = ph → ph ≠ .issueBurst → i.awFires = false := by
    intro ph hph hne
    exact Bool.eq_false_iff.mpr fun hfire => hne (hph.symm.trans (haw hfire))
  have noData : ∀ {ph : WritePhase}, c.phase = ph → ph ≠ .transferBurst → i.wFires = false := by
    intro ph hph hne
    exact Bool.eq_false_iff.mpr fun hfire => hne (hph.symm.trans (hw hfire))
  -- in most phases the bus sees nothing of the writer
  have quiet : ∀ {ph : WritePhase} {core : WriteCore} {st : WriteStep}, c.phase = ph →
      ph ≠ .issueBurst → ph ≠ .transferBurst → core.phase ≠ .transferBurst →
      core.outstanding = c.outstanding - i.b.toList.length → st.pop = false →
      st.issued = none → core.Offers → Served c i core st := by
    intro ph core st hph hni hnt hnt' ho hp hi hoff
    exact served_of_quiet (noAddress hph hni) (noData hph hnt) (by rw [hph]; exact hnt) hnt' ho
      hp hi fun _ => hoff
  cases hm with
  | rest hph _ =>
      refine quiet hph nofun nofun ?_ rfl rfl rfl (offers_of_ne ?_)
      · dsimp only; rw [hph]; nofun
      · dsimp only; rw [hph]; nofun
  | take d hph _ =>
      refine quiet hph nofun nofun ?_ rfl rfl rfl (offers_of_ne ?_)
      · dsimp only
        cases !c.frameMode && d.words == 0 <;> nofun
      · dsimp only
        cases !c.frameMode && d.words == 0 <;> nofun
  | size hph => exact quiet hph nofun nofun nofun rfl rfl rfl (offers_of_ne nofun)
  | clamp hph => exact quiet hph nofun nofun nofun rfl rfl rfl (offers_of_ne nofun)
  | starve hph _ =>
      refine quiet hph nofun nofun ?_ rfl rfl rfl (offers_of_ne ?_)
      · dsimp only; rw [hph]; nofun
      · dsimp only; rw [hph]; nofun
  | offer burst finalBurst request hph _ hreq =>
      obtain ⟨haddr, hbeats, _, _⟩ := AddrReq.incrementing_eq_ok hreq
      exact quiet hph nofun nofun nofun rfl rfl rfl fun _ => ⟨haddr, hbeats⟩
  | stall hph hfire =>
      have hopen : c.phase ≠ .transferBurst := by rw [hph]; nofun
      exact served_of_quiet hfire (noData hph nofun) hopen hopen rfl rfl rfl fun hoff => hoff
  | issue pending hph hfire =>
      refine ⟨?_, ?_, ?_, ?_, fun _ => ⟨rfl, rfl, rfl⟩, ?_, fun _ => offers_of_ne nofun⟩
      · rw [noData hph nofun]
      · rw [hfire]; rfl
      · rw [hfire]; rfl
      · exact ⟨fun _ => Or.inl hfire, fun _ => rfl⟩
      · rw [hph]; intro hc; cases hc
  | wait hph hfire =>
      have ha := noAddress hph nofun
      refine ⟨?_, ?_, ?_, ?_, ?_, ?_, fun hoff => hoff⟩
      · rw [hfire]
      · rw [ha]; rfl
      · rw [ha]; rfl
      · rw [ha, hfire]
        simp
      · rw [ha]; intro hc; cases hc
      · intro _ _
        rw [hfire]
        exact ⟨rfl, rfl, rfl⟩
  | send pending hph hfire hlast =>
      have ha := noAddress hph nofun
      have hlast' : c.onLastBeat = false := hlast
      refine ⟨?_, ?_, ?_, ?_, ?_, ?_, fun hoff => offers_of_ne ?_⟩
      · rw [hfire]
      · rw [ha]; rfl
      · rw [ha]; rfl
      · rw [ha, hlast']
        simp
      · rw [ha]; intro hc; cases hc
      · intro _ _
        rw [hfire]
        exact ⟨rfl, rfl, rfl⟩
      · dsimp only; rw [hph]; nofun
  | close pending hph hfire hlast =>
      have ha := noAddress hph nofun
      have hlast' : c.onLastBeat = true := hlast
      have hleave : (if c.finalBurst then WritePhase.waitForCompletion else .sizing)
          ≠ .transferBurst := by
        cases c.finalBurst <;> nofun
      refine ⟨?_, ?_, ?_, ?_, ?_, ?_, fun _ => offers_of_ne ?_⟩
      · rw [hfire]
      · rw [ha]; rfl
      · rw [ha]; rfl
      · rw [ha, hfire, hlast']
        simp [hleave]
      · rw [ha]; intro hc; cases hc
      · intro _ hc; exact absurd hc hleave
      · dsimp only
        cases c.finalBurst <;> nofun
  | await hph _ => exact quiet hph nofun nofun nofun rfl rfl rfl (offers_of_ne nofun)
  | complete hph _ => exact quiet hph nofun nofun nofun rfl rfl rfl (offers_of_ne nofun)
  | settle hph => exact quiet hph nofun nofun nofun rfl rfl rfl (offers_of_ne nofun)

/-- At rest no burst is unanswered. -/
def Settled (c : WriteCore) : Prop :=
  c.phase = .idle ∨ c.phase = .done → c.outstanding = 0

theorem settled_next {g : Geometry} {c c' : WriteCore} {i : WriteInputs} {step : WriteStep}
    (hs : c.Settled) (h : (c.next g i).result = .ok (c', step)) : c'.Settled := by
  obtain ⟨error, hm⟩ := next_moves h
  have still : c.phase = .idle ∨ c.phase = .done → c.outstanding - i.b.toList.length = 0 := by
    intro hph
    rw [hs hph, Nat.zero_sub]
  -- only an engine at rest, or one that saw its last answer, comes to rest
  cases hm with
  | rest hph _ => exact fun _ => still (Or.inl hph)
  | take d hph _ => exact fun _ => still (Or.inl hph)
  | settle hph => exact fun _ => still (Or.inr hph)
  | complete hph hz => exact fun _ => hz
  | size hph => rintro (hc | hc) <;> cases hc
  | clamp hph => rintro (hc | hc) <;> cases hc
  | offer _ _ _ hph _ _ => rintro (hc | hc) <;> cases hc
  | issue _ hph _ => rintro (hc | hc) <;> cases hc
  | await hph _ => rintro (hc | hc) <;> cases hc
  | starve hph _ => unfold Settled; rw [hph]; rintro (hc | hc) <;> cases hc
  | stall hph _ => unfold Settled; rw [hph]; rintro (hc | hc) <;> cases hc
  | wait hph _ => unfold Settled; rw [hph]; rintro (hc | hc) <;> cases hc
  | send _ hph _ _ => unfold Settled; rw [hph]; rintro (hc | hc) <;> cases hc
  | close _ hph _ _ =>
      unfold Settled
      dsimp only
      cases c.finalBurst <;> rintro (hc | hc) <;> cases hc

/-! ## The words of an open burst -/

/-- The words of the open burst that were not sent. -/
def openWords (c : WriteCore) : Nat :=
  if c.phase = .transferBurst then c.burst - c.beat else 0

/-- A burst is issued with all its words, and a beat sends one. -/
theorem openWords_next {g : Geometry} {c c' : WriteCore} {i : WriteInputs} {step : WriteStep}
    (hopen : c.phase = .transferBurst → c.beat < c.burst)
    (haw : i.awFires = true → c.phase = .issueBurst)
    (hw : i.wFires = true → c.phase = .transferBurst)
    (h : (c.next g i).result = .ok (c', step)) :
    (step.issued.toList.map (·.words)).sum + c.openWords
      = c'.openWords + if step.pop then 1 else 0 := by
  have hv := next_served haw hw h
  rw [hv.issued, hv.pop]
  unfold openWords
  cases ha : i.awFires with
  | true =>
      have hph := haw ha
      obtain ⟨hbeat, _, hburst⟩ := hv.opened ha
      have hph' := hv.sending.mpr (Or.inl ha)
      -- an address and a word never go in the same cycle
      have hd : i.wFires = false := by
        cases hd : i.wFires with
        | false => rfl
        | true =>
            have := hw hd
            rw [hph] at this
            cases this
      rw [if_pos hph', hph, hbeat, hburst, hd]
      simp
  | false =>
      have hsend := hv.sending
      rw [ha] at hsend
      by_cases hph : c.phase = .transferBurst
      · have hlt := hopen hph
        rw [if_pos hph]
        by_cases hclose : i.wFires = true ∧ c.onLastBeat = true
        · have hph' : c'.phase ≠ .transferBurst := by
            intro hc
            rcases hsend.mp hc with hc | ⟨_, hc⟩
            · cases hc
            · exact hc hclose
          have hlast : c.beat + 1 = c.burst := beq_iff_eq.mp hclose.2
          rw [if_neg hph', hclose.1]
          simp
          omega
        · have hph' := hsend.mpr (Or.inr ⟨hph, hclose⟩)
          obtain ⟨hbeat, _, hburst⟩ := hv.kept hph hph'
          rw [if_pos hph', hbeat, hburst]
          cases hd : i.wFires with
          | false => simp
          | true =>
              have hmore : c.beat + 1 ≠ c.burst := fun hc => hclose ⟨hd, beq_iff_eq.mpr hc⟩
              simp
              omega
      · have hph' : c'.phase ≠ .transferBurst := by
          intro hc
          rcases hsend.mp hc with hc | ⟨hc, _⟩
          · cases hc
          · exact hph hc
        have hd : i.wFires = false := by
          cases hd : i.wFires with
          | false => rfl
          | true => exact absurd (hw hd) hph
        rw [if_neg hph, if_neg hph', hd]
        simp

/-- A buffer with `held` beats has all the words of the burst on offer, and all the words
of the open one that were not sent. -/
def Backed (held : Nat) (c : WriteCore) : Prop :=
  (c.phase = .issueBurst → c.burst ≤ held) ∧ c.openWords ≤ held

/-- A burst is sized to what the buffer holds. -/
theorem sized?_le_level {c : WriteCore} {i : WriteInputs} {burst : Nat} {finalBurst : Bool}
    (h : c.sized? i = some (burst, finalBurst)) : burst ≤ i.fifoLevel := by
  unfold sized? at h
  split at h
  · dsimp only at h
    split at h
    · cases h
      exact Nat.min_le_right _ _
    · cases h
  · split at h
    · rename_i hcredit
      cases h
      exact of_decide_eq_true hcredit
    · cases h

/-- **An open burst never waits for data**: what it needs was there when it was sized, and
stays. -/
theorem backed_next {g : Geometry} {held : Nat} {c c' : WriteCore} {i : WriteInputs}
    {step : WriteStep} (hs : c.phase = .transferBurst → c.beat < c.burst) (hb : c.Backed held)
    (hlevel : i.fifoLevel ≤ held) (haw : i.awFires = true → c.phase = .issueBurst)
    (hw : i.wFires = true → c.phase = .transferBurst)
    (h : (c.next g i).result = .ok (c', step)) :
    c'.Backed (held - if step.pop then 1 else 0) := by
  have hwords := openWords_next hs haw hw h
  obtain ⟨hoffer, hopen⟩ := hb
  obtain ⟨error, hm⟩ := next_moves h
  refine ⟨?_, ?_⟩
  · cases hm with
    | offer burst finalBurst request hph hsize _ =>
        intro _
        exact Nat.le_trans (sized?_le_level hsize) hlevel
    | stall hph _ => exact hoffer
    | rest hph _ => dsimp only; rw [hph]; intro hc; cases hc
    | take d hph _ => dsimp only; cases !c.frameMode && d.words == 0 <;> intro hc <;> cases hc
    | size hph => intro hc; cases hc
    | clamp hph => intro hc; cases hc
    | starve hph _ => dsimp only; rw [hph]; intro hc; cases hc
    | issue pending hph _ => intro hc; cases hc
    | wait hph _ => dsimp only; rw [hph]; intro hc; cases hc
    | send pending hph _ _ => dsimp only; rw [hph]; intro hc; cases hc
    | close pending hph _ _ => dsimp only; cases c.finalBurst <;> intro hc <;> cases hc
    | await hph _ => intro hc; cases hc
    | complete hph _ => intro hc; cases hc
    | settle hph => intro hc; cases hc
  -- a burst on offer stays within what is held, also once it is open
  · have hissued : (step.issued.toList.map (·.words)).sum ≤ held - c.openWords := by
      rw [(next_served haw hw h).issued]
      split
      · rename_i hfire
        have hph := haw hfire
        have hclosed : c.openWords = 0 := by
          unfold openWords
          rw [hph]
          rfl
        have := hoffer hph
        rw [hclosed]
        simpa using this
      · exact Nat.zero_le _
    omega

end WriteCore

/-- The clock edge of an engine is that of its core. -/
theorem WriteEngine.tick_core {e e' : WriteEngine} {i : WriteInputs} {step : WriteStep}
    (h : (e.tick i).result = .ok (e', step)) :
    (e.core.next e.geometry i).result = .ok (e'.core, step) ∧ e'.geometry = e.geometry := by
  obtain ⟨⟨core, st⟩, hn, h⟩ := Run.result_bind_eq_ok.mp h
  obtain ⟨_, _, h⟩ := Run.result_bind_eq_ok.mp h
  cases h
  exact ⟨hn, rfl⟩

/-- What an engine tells does not stop it. -/
theorem WriteEngine.report_ok (e : WriteEngine) (i : WriteInputs) (core : WriteCore)
    (step : WriteStep) : (e.report i core step).result = .ok () := by
  unfold report
  cases i.desc <;> cases step.issued <;> cases i.b <;> simp [Except.bind]

end BurstDma
