import BurstDma.Proofs.BurstPlan

/-!
# A writer in length mode asks for the bursts of the plan

A write engine sizes a burst in two cycles and moves on in its transfer only when the last
beat is sent, so while a burst is being sent it still stands in front of it. **Behind every
burst it asked for it sends just the words of that burst**, and it marks the burst that ends
the plan, and no other. Nothing is assumed about the buffer, the bus or the responses.
-/

namespace BurstDma

namespace WriteCore

/-- `Transfer g d steps c`: an idle engine in length mode took `d`, took the clock edges
`steps` (the first of them is the one that took `d`) and did not come to rest before `c`. -/
inductive Transfer (g : Geometry) (d : Descriptor) : List WriteStep → WriteCore → Prop where
  | take {c c' : WriteCore} {i : WriteInputs} {step : WriteStep} : c.phase = .idle →
      c.frameMode = false → i.desc = some d → (c.next g i).result = .ok (c', step) →
      Transfer g d [step] c'
  | go {steps : List WriteStep} {c c' : WriteCore} {i : WriteInputs} {step : WriteStep} :
      Transfer g d steps c → c.phase ≠ .idle → (c.next g i).result = .ok (c', step) →
      Transfer g d (steps ++ [step]) c'

/-- The bursts that were asked for. -/
def issued (steps : List WriteStep) : List Burst :=
  steps.filterMap (·.issued)

/-- The number of words that were sent. -/
def pops (steps : List WriteStep) : Nat :=
  steps.countP (·.pop)

/-- The number of words in some bursts. -/
def wordsOf (bursts : List Burst) : Nat :=
  (bursts.map (·.words)).sum

/-- What is left to cut; a burst under way is still part of it. -/
def left (g : Geometry) (c : WriteCore) : Plan :=
  ⟨g, c.addr, c.remaining, c.maxBurst⟩

/-- The phases in which there is something left to send. -/
def Busy (c : WriteCore) : Prop :=
  c.phase = .sizing ∨ c.phase = .clamping ∨ c.phase = .waitForCredit ∨ c.phase = .issueBurst
    ∨ c.phase = .transferBurst

/-- The burst register holds the first burst of what is left, and says whether it is all. -/
def Holds (g : Geometry) (c : WriteCore) : Prop :=
  c.burst = (c.left g).firstWords ∧ (c.finalBurst = true ↔ c.remaining = c.burst)

/-- The engine stands behind the bursts `done` of the plan `plan`, with `sent` words sent. -/
structure Follows (g : Geometry) (plan done : List Burst) (sent : Nat) (c : WriteCore) :
    Prop where
  lengthMode : c.frameMode = false
  fits : (c.left g).Fits
  busy : c.Busy → 0 < c.remaining
  cut : c.phase ≠ .transferBurst → plan = done ++ (c.left g).bursts.1
  counted : c.phase ≠ .transferBurst → sent = wordsOf done
  candidate : c.phase = .clamping → c.candidate = burstCandidate c.remaining c.maxBurst
  clamped : c.phase = .waitForCredit → c.candidate = (c.left g).firstWords
  offered : c.phase = .issueBurst → c.Holds g
    ∧ AddrReq.incrementing c.addr c.burst g = .ok c.request
  /-- The burst under way is the last of those that were asked for. -/
  sending : c.phase = .transferBurst → c.Holds g ∧ c.beat < c.burst
    ∧ ∃ earlier, done = earlier ++ [(c.left g).first]
      ∧ plan = done ++ (c.left g).rest.bursts.1 ∧ sent = wordsOf earlier + c.beat
  finished : c.phase = .waitForCompletion ∨ c.phase = .done ∨ c.phase = .idle →
    c.remaining = 0

variable {g : Geometry} {d : Descriptor} {plan done : List Burst} {sent : Nat}
  {c c' : WriteCore} {i : WriteInputs} {step : WriteStep} {steps : List WriteStep}

theorem follows_of_sizing (hm : c.frameMode = false) (hfits : (c.left g).Fits)
    (hcut : plan = done ++ (c.left g).bursts.1) (hsent : sent = wordsOf done)
    (hph : c.phase = .sizing) (hpos : 0 < c.remaining) : Follows g plan done sent c := by
  refine ⟨hm, hfits, fun _ => hpos, fun _ => hcut, fun _ => hsent, ?_, ?_, ?_, ?_, ?_⟩
  all_goals simp [hph]

theorem follows_of_finished (hm : c.frameMode = false) (hfits : (c.left g).Fits)
    (hcut : plan = done ++ (c.left g).bursts.1) (hsent : sent = wordsOf done)
    (hph : c.phase = .waitForCompletion ∨ c.phase = .done ∨ c.phase = .idle)
    (hz : c.remaining = 0) : Follows g plan done sent c := by
  refine ⟨hm, hfits, ?_, fun _ => hcut, fun _ => hsent, ?_, ?_, ?_, ?_, fun _ => hz⟩
  · rcases hph with hph | hph | hph <;> simp [Busy, hph]
  all_goals rcases hph with hph | hph | hph <;> simp [hph]

theorem follows_of_sending (hm : c.frameMode = false) (hfits : (c.left g).Fits)
    (hpos : 0 < c.remaining) (hph : c.phase = .transferBurst)
    (hsend : c.Holds g ∧ c.beat < c.burst
      ∧ ∃ earlier, done = earlier ++ [(c.left g).first]
        ∧ plan = done ++ (c.left g).rest.bursts.1 ∧ sent = wordsOf earlier + c.beat) :
    Follows g plan done sent c := by
  refine ⟨hm, hfits, fun _ => hpos, fun hne => absurd hph hne, fun hne => absurd hph hne,
    ?_, ?_, ?_, fun _ => hsend, ?_⟩
  all_goals simp [hph]

theorem wordsOf_concat (bursts : List Burst) (b : Burst) :
    wordsOf (bursts ++ [b]) = wordsOf bursts + b.words := by
  simp [wordsOf]

theorem issued_concat (steps : List WriteStep) (step : WriteStep) :
    issued (steps ++ [step]) = issued steps ++ step.issued.toList := by
  unfold issued
  rw [List.filterMap_append]
  cases h : step.issued <;> simp [h]

theorem pops_concat (steps : List WriteStep) (step : WriteStep) :
    pops (steps ++ [step]) = pops steps + if step.pop then 1 else 0 := by
  unfold pops
  rw [List.countP_append, List.countP_singleton]

/-- A descriptor is taken with its whole plan ahead. -/
theorem follows_take (hrange : g.align d.start + d.words * g.wordBytes < limit64)
    (hidle : c.phase = .idle) (hm : c.frameMode = false) (hd : i.desc = some d)
    (h : (c.next g i).result = .ok (c', step)) :
    step.issued = none ∧ step.pop = false ∧ Follows g (d.plan g).bursts.1 [] 0 c' := by
  obtain ⟨error, hmoves⟩ := next_moves h
  cases hmoves with
  | take d' _ hd' =>
      cases hd.symm.trans hd'
      have hfits := Descriptor.plan_fits hrange
      refine ⟨rfl, rfl, ?_⟩
      by_cases hz : d.words = 0
      · have hdone : (if !c.frameMode && d.words == 0 then WritePhase.done else .sizing) = .done := by
          rw [hm, hz]
          rfl
        exact follows_of_finished hm hfits rfl rfl (Or.inr (Or.inl hdone)) hz
      · have hsizing : (if !c.frameMode && d.words == 0 then WritePhase.done else .sizing)
            = .sizing := by
          rw [beq_eq_false_iff_ne.mpr hz, Bool.and_false]
          rfl
        exact follows_of_sizing hm hfits rfl rfl hsizing (Nat.pos_of_ne_zero hz)
  | rest _ hnone => cases hd.symm.trans hnone
  | size hph => cases hidle.symm.trans hph
  | clamp hph => cases hidle.symm.trans hph
  | starve hph _ => cases hidle.symm.trans hph
  | offer _ _ _ hph _ _ => cases hidle.symm.trans hph
  | stall hph _ => cases hidle.symm.trans hph
  | issue _ hph _ => cases hidle.symm.trans hph
  | wait hph _ => cases hidle.symm.trans hph
  | send _ hph _ _ => cases hidle.symm.trans hph
  | close _ hph _ _ => cases hidle.symm.trans hph
  | await hph _ => cases hidle.symm.trans hph
  | complete hph _ => cases hidle.symm.trans hph
  | settle hph => cases hidle.symm.trans hph

/-- In length mode the candidate is the burst. -/
theorem sized?_length {burst : Nat} {finalBurst : Bool} (hm : c.frameMode = false)
    (h : c.sized? i = some (burst, finalBurst)) :
    burst = c.candidate ∧ (finalBurst = true ↔ c.remaining = c.candidate) := by
  unfold sized? at h
  rw [hm, Bool.false_and, if_neg Bool.false_ne_true] at h
  split at h
  · cases h
    exact ⟨rfl, by simp⟩
  · cases h

namespace Follows

/-- What was answered does not matter. -/
theorem answered (hf : Follows g plan done sent c) (outstanding : Nat) (error : Resp) :
    Follows g plan done sent { c with outstanding, error } :=
  ⟨hf.lengthMode, hf.fits, hf.busy, hf.cut, hf.counted, hf.candidate, hf.clamped, hf.offered,
    hf.sending, hf.finished⟩

/-- Between two bursts nothing is under way. -/
theorem between (hf : Follows g plan done sent c) {ph : WritePhase} (hph : c.phase = ph)
    (hne : ph ≠ .transferBurst) :
    plan = done ++ (c.left g).bursts.1 ∧ sent = wordsOf done := by
  have hout : c.phase ≠ .transferBurst := hph ▸ hne
  exact ⟨hf.cut hout, hf.counted hout⟩

/-- The burst on offer is the first of what is left; once it is accepted, it is under way. -/
theorem issue (hf : Follows g plan done sent c) (hph : c.phase = .issueBurst)
    (pending : Pending) :
    Follows g plan (done ++ [⟨c.addr, c.burst⟩]) sent { c with
      phase := .transferBurst
      pending
      outstanding := c.outstanding + 1
      beat := 0 } := by
  have hleft : 0 < c.remaining := hf.busy (Or.inr (Or.inr (Or.inr (Or.inl hph))))
  obtain ⟨hcut, hsent⟩ := hf.between hph (by decide)
  obtain ⟨⟨hburst, hfinal⟩, _⟩ := hf.offered hph
  have hfirst : Burst.mk c.addr c.burst = (c.left g).first := by
    rw [hburst]
    rfl
  refine follows_of_sending hf.lengthMode hf.fits hleft rfl
    ⟨⟨hburst, hfinal⟩, ?_, done, ?_, ?_, hsent⟩
  · show 0 < c.burst
    rw [hburst]
    exact Plan.firstWords_pos hf.fits.maxBurst hleft
  · exact congrArg (done ++ [·]) hfirst
  · rw [hcut, Plan.bursts_cons hf.fits hleft, hfirst, List.append_assoc]
    rfl

/-- A beat before the last one stays in the burst. -/
theorem send (hf : Follows g plan done sent c) (hph : c.phase = .transferBurst)
    (hlast : c.onLastBeat = false) (pending : Pending) :
    Follows g plan done (sent + 1) { c with
      pending, beat := c.beat + 1, written := c.written + 1 } := by
  have hleft : 0 < c.remaining := hf.busy (Or.inr (Or.inr (Or.inr (Or.inr hph))))
  obtain ⟨⟨hburst, hfinal⟩, hbeat, earlier, hdone, hplan, hcount⟩ := hf.sending hph
  have hmore : c.beat + 1 ≠ c.burst := by
    unfold onLastBeat at hlast
    exact beq_eq_false_iff_ne.mp hlast
  have hnext : c.beat + 1 < c.burst := by omega
  exact follows_of_sending hf.lengthMode hf.fits hleft hph
    ⟨⟨hburst, hfinal⟩, hnext, earlier, hdone, hplan, congrArg (· + 1) hcount⟩

/-- The last beat ends the burst, and perhaps the plan: then the burst was marked so. -/
theorem close (hf : Follows g plan done sent c) (hph : c.phase = .transferBurst)
    (hlast : c.onLastBeat = true) (pending : Pending) :
    Follows g plan done (sent + 1) { c with
      pending
      beat := c.beat + 1
      written := c.written + 1
      addr := c.addr + c.burst * g.wordBytes
      remaining := c.remaining - c.burst
      phase := if c.finalBurst then .waitForCompletion else .sizing } := by
  obtain ⟨⟨hburst, hfinal⟩, hbeat, earlier, hdone, hplan, hcount⟩ := hf.sending hph
  have hend : c.beat + 1 = c.burst := by
    unfold onLastBeat at hlast
    exact beq_iff_eq.mp hlast
  have hwords : sent + 1 = wordsOf done := by
    rw [hdone, wordsOf_concat, hcount]
    show wordsOf earlier + c.beat + 1 = wordsOf earlier + (c.left g).firstWords
    omega
  have hle : c.burst ≤ c.remaining := by
    rw [hburst]
    exact (c.left g).firstWords_le
  -- what is left now is the rest of what was left
  have hrest : Plan.mk g (c.addr + c.burst * g.wordBytes) (c.remaining - c.burst) c.maxBurst
      = (c.left g).rest := by
    rw [hburst]
    rfl
  have hfits : (Plan.mk g (c.addr + c.burst * g.wordBytes) (c.remaining - c.burst)
      c.maxBurst).Fits := hrest ▸ hf.fits.rest
  have hcut : plan = done ++ (Plan.mk g (c.addr + c.burst * g.wordBytes)
      (c.remaining - c.burst) c.maxBurst).bursts.1 := hrest ▸ hplan
  by_cases hmark : c.finalBurst = true
  · have hz : c.remaining - c.burst = 0 := by
      have := hfinal.mp hmark
      omega
    exact follows_of_finished hf.lengthMode hfits hcut hwords (Or.inl (if_pos hmark)) hz
  · have hmore : 0 < c.remaining - c.burst := by
      have hne : c.remaining ≠ c.burst := mt hfinal.mpr hmark
      omega
    exact follows_of_sizing hf.lengthMode hfits hcut hwords (if_neg hmark) hmore

theorem moves (hf : Follows g plan done sent c) (hbusy : c.phase ≠ .idle)
    (h : Moves g c i c' step) :
    Follows g plan (done ++ step.issued.toList) (sent + if step.pop then 1 else 0) c' := by
  -- most moves neither issue nor send
  have hquiet : done ++ (none : Option Burst).toList = done := List.append_nil done
  cases h with
  | rest hph _ => exact absurd hph hbusy
  | take _ hph _ => exact absurd hph hbusy
  | starve _ _ | stall _ _ | wait _ _ =>
      rw [hquiet]
      exact hf
  | size hph =>
      rw [hquiet]
      have hleft := hf.busy (Or.inl hph)
      obtain ⟨hcut, hsent⟩ := hf.between hph (by decide)
      refine ⟨hf.lengthMode, hf.fits, fun _ => hleft, fun _ => hcut, fun _ => hsent, fun _ => ?_,
        by simp, by simp, by simp, by simp⟩
      dsimp only
      rw [hf.lengthMode]
      rfl
  | clamp hph =>
      rw [hquiet]
      have hleft := hf.busy (Or.inr (Or.inl hph))
      obtain ⟨hcut, hsent⟩ := hf.between hph (by decide)
      refine ⟨hf.lengthMode, hf.fits, fun _ => hleft, fun _ => hcut, fun _ => hsent, by simp,
        fun _ => ?_, by simp, by simp, by simp⟩
      dsimp only
      rw [hf.candidate hph]
      rfl
  | offer burst finalBurst request hph hsize hr =>
      rw [hquiet]
      have hleft := hf.busy (Or.inr (Or.inr (Or.inl hph)))
      obtain ⟨hcut, hsent⟩ := hf.between hph (by decide)
      obtain ⟨hburst, hfinal⟩ := sized?_length hf.lengthMode hsize
      refine ⟨hf.lengthMode, hf.fits, fun _ => hleft, fun _ => hcut, fun _ => hsent, by simp,
        by simp, fun _ => ⟨⟨hburst.trans (hf.clamped hph), ?_⟩, hr⟩, by simp, by simp⟩
      rw [hburst]
      exact hfinal
  | issue pending hph _ => exact hf.issue hph pending
  | send pending hph _ hlast =>
      rw [hquiet]
      exact hf.send hph hlast pending
  | close pending hph _ hlast =>
      rw [hquiet]
      exact hf.close hph hlast pending
  | await hph _ =>
      rw [hquiet]
      obtain ⟨hcut, hsent⟩ := hf.between hph (by decide)
      exact follows_of_finished hf.lengthMode hf.fits hcut hsent (Or.inl rfl)
        (hf.finished (Or.inl hph))
  | complete hph _ =>
      rw [hquiet]
      obtain ⟨hcut, hsent⟩ := hf.between hph (by decide)
      exact follows_of_finished hf.lengthMode hf.fits hcut hsent (Or.inr (Or.inl rfl))
        (hf.finished (Or.inl hph))
  | settle hph =>
      rw [hquiet]
      obtain ⟨hcut, hsent⟩ := hf.between hph (by decide)
      exact follows_of_finished hf.lengthMode hf.fits hcut hsent (Or.inr (Or.inr rfl))
        (hf.finished (Or.inr (Or.inl hph)))

/-- **A clock edge stays in the plan.** -/
theorem next (hf : Follows g plan done sent c) (hbusy : c.phase ≠ .idle)
    (h : (c.next g i).result = .ok (c', step)) :
    Follows g plan (done ++ step.issued.toList) (sent + if step.pop then 1 else 0) c' := by
  obtain ⟨error, hmoves⟩ := next_moves h
  exact (hf.answered _ error).moves hbusy hmoves

end Follows

/-- **At every moment of a transfer the engine stands in its plan.** -/
theorem Transfer.follows (hrange : g.align d.start + d.words * g.wordBytes < limit64)
    (h : Transfer g d steps c) : Follows g (d.plan g).bursts.1 (issued steps) (pops steps) c := by
  induction h with
  | take hidle hm hd hnext =>
      obtain ⟨hissued, hpop, hf⟩ := follows_take hrange hidle hm hd hnext
      rw [← List.nil_append [_], issued_concat, pops_concat, hissued, hpop]
      exact hf
  | go _ hbusy hnext ih =>
      rw [issued_concat, pops_concat]
      exact ih.next hbusy hnext

/-- A burst is issued from the phase that offers it, and nothing is sent in that cycle. -/
theorem Transfer.at_issue {before after : List WriteStep} {s : WriteStep} {b : Burst}
    (h : Transfer g d steps c) (hsteps : steps = before ++ s :: after)
    (hissued : s.issued = some b) :
    s.pop = false ∧ ∃ c₁, Transfer g d before c₁ ∧ c₁.phase = .issueBurst := by
  induction h generalizing after with
  | take hidle _ _ hnext =>
      obtain ⟨error, hmoves⟩ := next_moves hnext
      rcases List.eq_nil_or_concat before with rfl | ⟨init, last, rfl⟩
      · cases hsteps
        cases hmoves with
        | issue _ hph _ => cases hidle.symm.trans hph
        | _ => cases hissued
      · have hlen := congrArg List.length hsteps
        simp only [List.length_append, List.length_concat, List.length_cons, List.length_nil]
          at hlen
        omega
  | @go steps c₀ c' i step hrun _ hnext ih =>
      rcases List.eq_nil_or_concat after with rfl | ⟨init, last, rfl⟩
      · obtain ⟨rfl, hlast⟩ := List.append_inj' hsteps rfl
        cases hlast
        obtain ⟨error, hmoves⟩ := next_moves hnext
        cases hmoves with
        | issue _ hph _ => exact ⟨rfl, c₀, hrun, hph⟩
        | _ => cases hissued
      · rw [List.concat_eq_append, ← List.cons_append, ← List.append_assoc] at hsteps
        exact ih (List.append_inj' hsteps rfl).1

/-- **Between two bursts just the words of the first are sent.** -/
theorem Transfer.pops_between {before mid after : List WriteStep} {s s' : WriteStep}
    {b b' : Burst} (hrange : g.align d.start + d.words * g.wordBytes < limit64)
    (h : Transfer g d steps c) (hsteps : steps = before ++ s :: mid ++ s' :: after)
    (hs : s.issued = some b) (hs' : s'.issued = some b') (hmid : ∀ m ∈ mid, m.issued = none) :
    pops mid = b.words := by
  have hsplit : before ++ s :: mid ++ s' :: after = before ++ s :: (mid ++ s' :: after) := by
    rw [List.append_assoc, List.cons_append]
  obtain ⟨hpop, c₁, hrun₁, hph₁⟩ := h.at_issue (hsteps.trans hsplit) hs
  obtain ⟨_, c₂, hrun₂, hph₂⟩ := h.at_issue hsteps hs'
  -- at both ends all words of the bursts so far have been sent
  have hfirst := (hrun₁.follows hrange).counted (by rw [hph₁]; nofun)
  have hsecond := (hrun₂.follows hrange).counted (by rw [hph₂]; nofun)
  have hquiet : issued mid = [] := by
    unfold issued
    rw [List.filterMap_eq_nil_iff]
    exact hmid
  have hissued : issued (before ++ s :: mid) = issued before ++ [b] := by
    unfold issued at hquiet ⊢
    rw [List.filterMap_append, List.filterMap_cons_some hs, hquiet]
  have hpops : pops (before ++ s :: mid) = pops before + pops mid := by
    unfold pops
    rw [List.countP_append, List.countP_cons_of_neg (by rw [hpop]; decide)]
  rw [hissued, wordsOf_concat, hpops, hfirst] at hsecond
  omega

/-- **A writer in length mode issues exactly the bursts of the plan**, in order, sends the
words of one before it issues the next, and marks the last one. -/
theorem sends_plan (hrange : g.align d.start + d.words * g.wordBytes < limit64)
    (h : Transfer g d steps c) :
    ∃ plan, (d.plan g).bursts = (plan, none)
      ∧ issued steps <+: plan
      ∧ (c.phase = .waitForCompletion ∨ c.phase = .done ∨ c.phase = .idle → issued steps = plan)
      ∧ (∀ (before mid after : List WriteStep) (s s' : WriteStep) (b b' : Burst),
          steps = before ++ s :: mid ++ s' :: after → s.issued = some b → s'.issued = some b' →
          (∀ m ∈ mid, m.issued = none) → pops mid = b.words)
      ∧ (c.phase = .issueBurst →
          (c.finalBurst = true ↔ plan.length = (issued steps).length + 1))
      ∧ (c.phase = .transferBurst → (c.finalBurst = true ↔ issued steps = plan)) := by
  have hf := h.follows hrange
  have hplan : (d.plan g).bursts = ((d.plan g).bursts.1, none) := by
    rw [← Plan.bursts_ok (Descriptor.plan_fits hrange)]
  -- the burst in the registers is the last one if nothing is left behind it
  have hlast : c.Holds g → (c.finalBurst = true ↔ (c.left g).rest.bursts.1 = []) := by
    intro hholds
    rw [Plan.rest_bursts_eq_nil hf.fits, hholds.2, hholds.1]
    have hle := (c.left g).firstWords_le
    show c.remaining = _ ↔ c.remaining ≤ _
    have hrem : (c.left g).remaining = c.remaining := rfl
    omega
  refine ⟨(d.plan g).bursts.1, hplan, ?_, fun hph => ?_,
    fun before mid after s s' b b' hsteps hs hs' hmid =>
      h.pops_between hrange hsteps hs hs' hmid, fun hph => ?_, fun hph => ?_⟩
  · by_cases hph : c.phase = .transferBurst
    · obtain ⟨_, _, _, _, hcut, _⟩ := hf.sending hph
      exact ⟨_, hcut.symm⟩
    · exact ⟨_, (hf.cut hph).symm⟩
  · have hcut := hf.cut (by rcases hph with hph | hph | hph <;> rw [hph] <;> nofun)
    have hnil : (c.left g).bursts = ([], none) := Plan.bursts_end (hf.finished hph)
    rw [hnil, List.append_nil] at hcut
    exact hcut.symm
  · have hpos := hf.busy (Or.inr (Or.inr (Or.inr (Or.inl hph))))
    rw [hlast (hf.offered hph).1, hf.cut (by rw [hph]; nofun), Plan.bursts_cons hf.fits hpos,
      List.length_append, List.length_cons, ← List.length_eq_zero_iff]
    omega
  · obtain ⟨hholds, _, _, _, hcut, _⟩ := hf.sending hph
    rw [hlast hholds, hcut, List.self_eq_append_right]

/-- Three words from 16 bytes below a boundary on: two are sent in a burst that is not the
last one, and the third in one that is. -/
theorem sends_plan_across_boundary :
    ∃ (steps : List WriteStep) (c : WriteCore),
      Transfer {} ⟨4080, 3, 16⟩ steps c ∧ c.phase = .transferBurst ∧ c.finalBurst = true
        ∧ pops steps = 2
        ∧ (Descriptor.plan ⟨4080, 3, 16⟩ {}).bursts = ([⟨4080, 2⟩, ⟨4096, 1⟩], none)
        ∧ issued steps = [⟨4080, 2⟩, ⟨4096, 1⟩] := by
  have taken := @Transfer.take {} ⟨4080, 3, 16⟩ {} _ { desc := some ⟨4080, 3, 16⟩ } _ rfl rfl rfl rfl
  have sized := @Transfer.go {} _ _ _ _ {} _ taken (by decide) rfl
  have clamped := @Transfer.go {} _ _ _ _ {} _ sized (by decide) rfl
  have offered := @Transfer.go {} _ _ _ _ { fifoLevel := 2 } _ clamped (by decide) rfl
  have first := @Transfer.go {} _ _ _ _ { awFires := true } _ offered (by decide) rfl
  have sent := @Transfer.go {} _ _ _ _ { wFires := true } _ first (by decide) rfl
  have closed := @Transfer.go {} _ _ _ _ { wFires := true } _ sent (by decide) rfl
  have sized := @Transfer.go {} _ _ _ _ {} _ closed (by decide) rfl
  have clamped := @Transfer.go {} _ _ _ _ {} _ sized (by decide) rfl
  have offered := @Transfer.go {} _ _ _ _ { fifoLevel := 1 } _ clamped (by decide) rfl
  have second := @Transfer.go {} _ _ _ _ { awFires := true } _ offered (by decide) rfl
  have hplan : (Descriptor.plan ⟨4080, 3, 16⟩ {}).bursts = ([⟨4080, 2⟩, ⟨4096, 1⟩], none) := by
    decide
  obtain ⟨plan, hcut, _, _, _, _, hfinal⟩ := sends_plan (by decide) second
  cases hcut.symm.trans hplan
  exact ⟨_, _, second, by decide, by decide, by decide, hplan, (hfinal (by decide)).mp (by decide)⟩

end WriteCore

end BurstDma
