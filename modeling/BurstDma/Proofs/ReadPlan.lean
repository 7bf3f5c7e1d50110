import BurstDma.Proofs.BurstPlan

/-!
# A reader asks for the bursts of the plan

A read engine sizes a burst over three cycles in registers of their own, and moves its
address on when the request is accepted. The plan of the transfer does all that in one step.
**The engine always stands at a point of the plan**: what it has asked for, followed by the
plan of what it has left, is the whole plan, and each sizing register holds its part of the
next burst. Nothing is assumed about the buffer, the bus or what arrives.
-/

namespace BurstDma

namespace ReadCore

/-- `Transfer g d steps c`: an idle engine took `d`, took the clock edges `steps` (the first
of them is the one that took `d`) and did not come to rest before `c`. -/
inductive Transfer (g : Geometry) (d : Descriptor) : List ReadStep → ReadCore → Prop where
  | take {c c' : ReadCore} {i : ReadInputs} {step : ReadStep} : c.phase = .idle →
      i.desc = some d → (c.next g i).result = .ok (c', step) → Transfer g d [step] c'
  | go {steps : List ReadStep} {c c' : ReadCore} {i : ReadInputs} {step : ReadStep} :
      Transfer g d steps c → c.phase ≠ .idle → (c.next g i).result = .ok (c', step) →
      Transfer g d (steps ++ [step]) c'

/-- The bursts that were asked for. -/
def issued (steps : List ReadStep) : List Burst :=
  steps.filterMap (·.issued)

/-- What is left to cut. -/
def left (g : Geometry) (c : ReadCore) : Plan :=
  ⟨g, c.addr, c.remaining, c.maxBurst⟩

/-- The engine stands behind the bursts `done` of the plan `plan`. -/
structure Follows (g : Geometry) (plan done : List Burst) (c : ReadCore) : Prop where
  cut : plan = done ++ (c.left g).bursts.1
  fits : (c.left g).Fits
  sizes : c.Sizes → 0 < c.remaining
  candidate : c.phase = .clamping → c.candidate = burstCandidate c.remaining c.maxBurst
  burst : c.phase = .encoding ∨ c.phase = .waitForCredit ∨ c.phase = .issueBurst →
    c.burst = (c.left g).firstWords
  request : c.phase = .waitForCredit ∨ c.phase = .issueBurst →
    AddrReq.incrementing c.addr c.burst g = .ok c.request
  finished : c.phase = .waitForCompletion ∨ c.phase = .done ∨ c.phase = .idle →
    c.remaining = 0

variable {g : Geometry} {d : Descriptor} {plan done : List Burst} {c c' : ReadCore}
  {i : ReadInputs} {step : ReadStep} {steps : List ReadStep}

/-- Between two bursts only the place in the plan counts. -/
theorem follows_of_transferBurst (hcut : plan = done ++ (c.left g).bursts.1)
    (hfits : (c.left g).Fits) (hph : c.phase = .transferBurst) : Follows g plan done c := by
  refine ⟨hcut, hfits, ?_, ?_, ?_, ?_, ?_⟩
  · simp [Sizes, hph]
  all_goals simp [hph]

/-- The first cycle of sizing. -/
theorem follows_of_sizing (hcut : plan = done ++ (c.left g).bursts.1)
    (hfits : (c.left g).Fits) (hph : c.phase = .sizing) (hpos : 0 < c.remaining) :
    Follows g plan done c := by
  refine ⟨hcut, hfits, fun _ => hpos, ?_, ?_, ?_, ?_⟩
  all_goals simp [hph]

/-- The end of the plan. -/
theorem follows_of_finished (hcut : plan = done ++ (c.left g).bursts.1)
    (hfits : (c.left g).Fits)
    (hph : c.phase = .waitForCompletion ∨ c.phase = .done ∨ c.phase = .idle)
    (hz : c.remaining = 0) : Follows g plan done c := by
  refine ⟨hcut, hfits, ?_, ?_, ?_, ?_, fun _ => hz⟩
  · rcases hph with hph | hph | hph <;> simp [Sizes, hph]
  all_goals rcases hph with hph | hph | hph <;> simp [hph]

/-- A descriptor is taken with its whole plan ahead. -/
theorem follows_take (hrange : g.align d.start + d.words * g.wordBytes < limit64)
    (hidle : c.phase = .idle) (hd : i.desc = some d)
    (h : (c.next g i).result = .ok (c', step)) :
    Follows g (d.plan g).bursts.1 step.issued.toList c' := by
  obtain ⟨⟨r, push⟩, hrec, h⟩ := Run.result_bind_eq_ok.mp h
  obtain ⟨⟨core, st⟩, hproc, h⟩ := Run.result_bind_eq_ok.mp h
  cases h
  obtain ⟨⟨bursts, error, rfl⟩, _⟩ := receive_eq hrec
  cases proceed_moves hproc with
  | take d' _ hd' =>
      cases hd.symm.trans hd'
      by_cases hz : d.words = 0
      · exact follows_of_finished rfl (Descriptor.plan_fits hrange) (Or.inr (Or.inl (if_pos hz))) hz
      · exact follows_of_sizing rfl (Descriptor.plan_fits hrange) (if_neg hz) (Nat.pos_of_ne_zero hz)
  | rest _ hnone => cases hd.symm.trans hnone
  | size hph => cases hidle.symm.trans hph
  | clamp hph => cases hidle.symm.trans hph
  | encode _ hph _ => cases hidle.symm.trans hph
  | grant hph _ => cases hidle.symm.trans hph
  | starve hph _ => cases hidle.symm.trans hph
  | stall hph _ => cases hidle.symm.trans hph
  | issue hph _ _ => cases hidle.symm.trans hph
  | again hph _ => cases hidle.symm.trans hph
  | last hph _ => cases hidle.symm.trans hph
  | await hph _ => cases hidle.symm.trans hph
  | complete hph _ => cases hidle.symm.trans hph
  | settle hph => cases hidle.symm.trans hph

/-- **A clock edge stays in the plan**: it asks for the next burst or for none. -/
theorem Follows.next (hf : Follows g plan done c) (hbusy : c.phase ≠ .idle)
    (h : (c.next g i).result = .ok (c', step)) :
    Follows g plan (done ++ step.issued.toList) c' := by
  obtain ⟨⟨r, push⟩, hrec, h⟩ := Run.result_bind_eq_ok.mp h
  obtain ⟨⟨core, st⟩, hproc, h⟩ := Run.result_bind_eq_ok.mp h
  cases h
  obtain ⟨⟨bursts, error, rfl⟩, _⟩ := receive_eq hrec
  obtain ⟨hcut, hfits, hsizes, hcand, hburst, hreq, hfin⟩ := hf
  -- all moves but one issue nothing
  have hsame : plan = done ++ (none : Option Burst).toList ++ (c.left g).bursts.1 := by
    rw [Option.toList_none, List.append_nil]
    exact hcut
  cases proceed_moves hproc with
  | rest hph _ => exact absurd hph hbusy
  | take _ hph _ => exact absurd hph hbusy
  | size hph =>
      have hpos := hsizes (Or.inl hph)
      exact ⟨hsame, hfits, fun _ => hpos, fun _ => rfl, by simp, by simp, by simp⟩
  | clamp hph =>
      have hpos := hsizes (Or.inr (Or.inl hph))
      have hsized : min c.candidate (g.wordsUntilBoundary c.addr) = (c.left g).firstWords := by
        rw [hcand hph]
        rfl
      exact ⟨hsame, hfits, fun _ => hpos, nofun, fun _ => hsized, by simp, by simp⟩
  | encode request hph hr =>
      have hpos := hsizes (Or.inr (Or.inr (Or.inl hph)))
      exact ⟨hsame, hfits, fun _ => hpos, nofun, fun _ => hburst (Or.inl hph), fun _ => hr, by simp⟩
  | grant hph _ =>
      have hpos := hsizes (Or.inr (Or.inr (Or.inr (Or.inl hph))))
      exact ⟨hsame, hfits, fun _ => hpos, nofun, fun _ => hburst (Or.inr (Or.inl hph)),
        fun _ => hreq (Or.inl hph), by simp⟩
  | starve hph _ =>
      have hpos := hsizes (Or.inr (Or.inr (Or.inr (Or.inl hph))))
      exact ⟨hsame, hfits, fun _ => hpos, nofun, fun _ => hburst (Or.inr (Or.inl hph)),
        fun _ => hreq (Or.inl hph), by simp⟩
  | stall hph _ =>
      exact ⟨hsame, hfits, hsizes, hcand, hburst, hreq, hfin⟩
  | issue hph _ _ =>
      -- the burst on offer is the first of what is left
      have hpos := hsizes (Or.inr (Or.inr (Or.inr (Or.inr hph))))
      have hfirst : c.burst = (c.left g).firstWords := hburst (Or.inr (Or.inr hph))
      have hcut' : plan = done ++ [(c.left g).first] ++ (c.left g).rest.bursts.1 := by
        rw [List.append_assoc, List.singleton_append, hcut, Plan.bursts_cons hfits hpos]
      refine follows_of_transferBurst ?_ ?_ rfl
      · rw [hcut']
        simp only [hfirst]
        rfl
      · have := hfits.rest
        simp only [hfirst]
        exact this
  | again hph hpos => exact follows_of_sizing hsame hfits rfl hpos
  | last hph hz => exact follows_of_finished hsame hfits (Or.inl rfl) hz
  | await hph _ => exact follows_of_finished hsame hfits (Or.inl rfl) (hfin (Or.inl hph))
  | complete hph _ => exact follows_of_finished hsame hfits (Or.inr (Or.inl rfl)) (hfin (Or.inl hph))
  | settle hph =>
      exact follows_of_finished hsame hfits (Or.inr (Or.inr rfl)) (hfin (Or.inr (Or.inl hph)))

theorem issued_concat (steps : List ReadStep) (step : ReadStep) :
    issued (steps ++ [step]) = issued steps ++ step.issued.toList := by
  unfold issued
  rw [List.filterMap_append]
  cases h : step.issued <;> simp [h]

/-- **At every moment of a transfer the engine stands in its plan.** -/
theorem Transfer.follows (hrange : g.align d.start + d.words * g.wordBytes < limit64)
    (h : Transfer g d steps c) : Follows g (d.plan g).bursts.1 (issued steps) c := by
  induction h with
  | take hidle hd hnext =>
      rw [← List.nil_append [_], issued_concat]
      exact follows_take hrange hidle hd hnext
  | go _ hbusy hnext ih =>
      rw [issued_concat]
      exact ih.next hbusy hnext

/-- **A reader issues exactly the bursts of the plan**, in order, whatever the buffer and the
bus do; and what it offers is the next of them. -/
theorem issues_plan
    (hrange : g.align d.start + d.words * g.wordBytes < limit64) (h : Transfer g d steps c) :
    ∃ plan, (d.plan g).bursts = (plan, none)
      ∧ issued steps <+: plan
      ∧ (c.phase = .waitForCompletion ∨ c.phase = .done ∨ c.phase = .idle → issued steps = plan)
      ∧ (c.phase = .issueBurst → ∃ next behind, plan = issued steps ++ next :: behind
        ∧ c.outputs.ar = some { id := 0, addr := next.addr, len := next.words - 1,
                                size := g.sizeCode, kind := .incrementing }) := by
  have hf := h.follows hrange
  have hplan : (d.plan g).bursts = ((d.plan g).bursts.1, none) := by
    rw [← Plan.bursts_ok (Descriptor.plan_fits hrange)]
  refine ⟨(d.plan g).bursts.1, hplan, ⟨_, hf.cut.symm⟩, fun hph => ?_, fun hph => ?_⟩
  · have hcut := hf.cut
    have hnil : (c.left g).bursts = ([], none) := Plan.bursts_end (hf.finished hph)
    rw [hnil, List.append_nil] at hcut
    exact hcut.symm
  · have hpos := hf.sizes (Or.inr (Or.inr (Or.inr (Or.inr hph))))
    have hcut := hf.cut
    rw [Plan.bursts_cons hf.fits hpos] at hcut
    refine ⟨(c.left g).first, _, hcut, ?_⟩
    have hreq := AddrReq.incrementing_eq (hf.request (Or.inr hph))
    show (if c.phase = .issueBurst then some c.request else none) = _
    rw [if_pos hph, hreq, hf.burst (Or.inr (Or.inr hph))]
    rfl

/-- Three words from 16 bytes below a boundary on: two are asked for, and then the third is
offered by itself. -/
theorem issues_plan_at_boundary :
    ∃ (steps : List ReadStep) (c : ReadCore),
      Transfer {} ⟨4080, 3, 16⟩ steps c ∧ c.phase = .issueBurst
        ∧ (Descriptor.plan ⟨4080, 3, 16⟩ {}).bursts = ([⟨4080, 2⟩, ⟨4096, 1⟩], none)
        ∧ issued steps = [⟨4080, 2⟩]
        ∧ c.outputs.ar
          = some { id := 0, addr := 4096, len := 0, size := 3, kind := .incrementing } := by
  have taken := @Transfer.take {} ⟨4080, 3, 16⟩ {} _ { desc := some ⟨4080, 3, 16⟩ } _ rfl rfl rfl
  have sized := @Transfer.go {} _ _ _ _ {} _ taken (by decide) rfl
  have clamped := @Transfer.go {} _ _ _ _ {} _ sized (by decide) rfl
  have encoded := @Transfer.go {} _ _ _ _ {} _ clamped (by decide) rfl
  have granted := @Transfer.go {} _ _ _ _ { fifoFree := 3 } _ encoded (by decide) rfl
  have first := @Transfer.go {} _ _ _ _ { arFires := true } _ granted (by decide) rfl
  have moved := @Transfer.go {} _ _ _ _ {} _ first (by decide) rfl
  have sized := @Transfer.go {} _ _ _ _ {} _ moved (by decide) rfl
  have clamped := @Transfer.go {} _ _ _ _ {} _ sized (by decide) rfl
  have encoded := @Transfer.go {} _ _ _ _ {} _ clamped (by decide) rfl
  have second := @Transfer.go {} _ _ _ _ { fifoFree := 3 } _ encoded (by decide) rfl
  have hplan : (Descriptor.plan ⟨4080, 3, 16⟩ {}).bursts = ([⟨4080, 2⟩, ⟨4096, 1⟩], none) := by
    decide
  obtain ⟨plan, hcut, _, _, hoffer⟩ := issues_plan (by decide) second
  cases hcut.symm.trans hplan
  obtain ⟨next, behind, hsplit, har⟩ := hoffer (by decide)
  -- what is offered stands in the plan behind what was asked for
  obtain ⟨rfl, _⟩ : (⟨4096, 1⟩ : Burst) = next ∧ [] = behind :=
    List.cons.inj (List.cons.inj hsplit).2
  exact ⟨_, _, second, by decide, hplan, by decide, har⟩

end ReadCore

end BurstDma
