import BurstDma.Proofs.Rest

/-!
# Every transfer comes to its end

While the clock runs and nobody asks for more, a machine comes closer to its rest with every
cycle: `Machine.Closer` compares the work that is left, and what the delays are if the work
is the same. **No state can be the last one but a state of rest**, `Machine.advance`, and so
after some number of cycles the machine is there. Nothing bounds that number in advance, but
the work and the delay of the first state do.
-/

namespace BurstDma

namespace Machine

variable {params : MachineParams} {s s' t : Machine} {slave : ReadSlave} {i : Nat} {p : Port}

/-- A clock cycle leads to a machine that can be reached. -/
theorem Reachable.tick (hr : Machine.Reachable params s) (h : s.tick.result = .ok s') :
    Machine.Reachable params s' := by
  obtain ⟨s₀, past, h₀, hist⟩ := hr
  have hop : Operation.tick.apply s = .ok s' := h
  exact ⟨s₀, _, h₀, hist.step hop⟩

theorem ticks_succ {n : Nat} (h : s.tick.result = .ok s')
    (hrest : (s'.ticks n).result = .ok t) : (s.ticks (n + 1)).result = .ok t := by
  unfold ticks at hrest ⊢
  rw [Run.stepTimes_succ]
  exact Run.result_bind_eq_ok.mpr ⟨s', h, hrest⟩

/-- `s'` is closer to rest than `s`: less is left to do, or as much and less delay before
it. -/
def Closer (s' s : Machine) : Prop :=
  s'.work < s.work ∨ s'.work = s.work ∧ s'.delay < s.delay

theorem closer_wf : WellFounded Closer := by
  have hlex := InvImage.wf (fun s : Machine => (s.work, s.delay))
    (WellFounded.prod_lex Nat.lt_wfRel.wf Nat.lt_wfRel.wf)
  refine Subrelation.wf (fun {s' s} hless => ?_) hlex
  exact Prod.lex_iff.mpr hless

/-- The buffer of a port in frame mode is cut and latched as it should be. -/
theorem framed_reachable (hdepth : ∀ q ∈ params.ports, q.fifoDepth < limit32)
    (hr : Machine.Reachable params s) (hp : s.ports[i]? = some p)
    (hmode : p.writer.core.frameMode = true) : ∃ given, p.Framed given := by
  obtain ⟨q, hq, hb⟩ := hr.formed.port i p hp
  obtain ⟨s₀, past, h₀, h⟩ := hr
  exact ⟨_, h.portFramed h₀ hq (hb.frameMode.symm.trans hmode) (hdepth q (List.mem_of_getElem? hq))
    p hp⟩

/-- The streams go on to hold what is wanted. -/
theorem supplied_edge (hdepth : ∀ q ∈ params.ports, q.fifoDepth < limit32)
    (hr : Machine.Reachable params s) (hsupplied : ∀ p ∈ s.ports, p.Supplied)
    (h : s.Edge slave s') : ∀ p ∈ s'.ports, p.Supplied := by
  intro p' hmem
  obtain ⟨i, hp'⟩ := List.mem_iff_getElem?.mp hmem
  obtain ⟨p, rstep, wstep, hp, hedge⟩ := h.port' hp'
  refine (hsupplied p (List.mem_of_getElem? hp)).edge ((bounded_reachable hr).port i p hp).writer
    (fun hmode => ?_) hedge
  obtain ⟨_, hframed⟩ := framed_reachable hdepth hr hp hmode
  exact hframed.cut

/-- **A supplied machine is at rest, or the next cycle brings it closer to it.** -/
theorem advance (hg : params.geometry.Legal)
    (hdepth : ∀ q ∈ params.ports, maxBurstWords ≤ q.fifoDepth ∧ q.fifoDepth < limit32)
    (hr : Machine.Reachable params s) (hsupplied : ∀ p ∈ s.ports, p.Supplied) :
    s.AtRest ∨ ∃ s', s.tick.result = .ok s' ∧ (∀ p ∈ s'.ports, p.Supplied) ∧ s'.Closer s := by
  have hshort : ∀ q ∈ params.ports, q.fifoDepth < limit32 := fun q hq => (hdepth q hq).2
  obtain ⟨s', htick⟩ := tick_ok hg hr fun i p hp hph _ =>
    (hsupplied p (List.mem_of_getElem? hp)).written_lt ((bounded_reachable hr).port i p hp).writer
      hph
  obtain ⟨slave, h⟩ := tick_edge htick
  have hsupplied' := supplied_edge hshort hr hsupplied h
  rcases work_edge hr h with hless | ⟨hsame, hstill⟩
  · exact Or.inr ⟨s', htick, hsupplied', Or.inl hless⟩
  · rcases delay_edge hr h hstill with hless | hexpired
    · exact Or.inr ⟨s', htick, hsupplied', Or.inr ⟨hsame, hless⟩⟩
    · refine Or.inl (rest_of_expired hexpired hr h hstill hdepth fun i p hp => ?_)
      refine ⟨hsupplied p (List.mem_of_getElem? hp), fun hmode => ?_⟩
      obtain ⟨_, hframed⟩ := framed_reachable hshort hr hp hmode
      exact hframed.latched

/-- **The clock alone brings a machine to rest.** Whatever was asked for, in whatever state
it is: if every stream holds what its writer still has to send, some number of cycles later
every engine is idle with nothing to do, every read buffer is empty, and nothing is under way
between the ports and the memory.

A buffer has to hold the longest burst, and its free places have to fit the 32-bit word in
which a reader sees them: with 2^32 places it would show none when it is empty. A frame that a
writer is to send has fewer than 2^32 beats; the count of its words holds no more. -/
theorem comes_to_rest (hg : params.geometry.Legal)
    (hdepth : ∀ q ∈ params.ports, maxBurstWords ≤ q.fifoDepth ∧ q.fifoDepth < limit32)
    (hr : Machine.Reachable params s) (hsupplied : ∀ p ∈ s.ports, p.Supplied) :
    ∃ n t, (s.ticks n).result = .ok t ∧ t.AtRest := by
  -- by induction on how far the rest is
  induction s using closer_wf.induction with
  | _ s ih =>
      rcases advance hg hdepth hr hsupplied with hrest | ⟨s', htick, hsupplied', hless⟩
      · exact ⟨0, s, rfl, hrest⟩
      · obtain ⟨n, t, hrun, hrest⟩ := ih s' hless (hr.tick htick) hsupplied'
        exact ⟨n + 1, t, ticks_succ htick hrun, hrest⟩

/-- A reader, a writer in length mode and one in frame mode, each in the middle of its
transfer, come to rest. -/
theorem comes_to_rest_three_transfers :
    ∃ s₀ past s, ofParams { ports := [{}, { frameMode := true }] } = .ok s₀
      ∧ History s₀ past s ∧ s.isQuiescent = false ∧ (∀ p ∈ s.ports, p.Supplied)
      ∧ ∃ n t, (s.ticks n).result = .ok t ∧ t.AtRest := by
  have hrun : trial { ports := [{}, { frameMode := true }] }
      ([.push 0 [⟨5, false⟩, ⟨6, false⟩, ⟨7, false⟩, ⟨8, false⟩],
          .push 1 [⟨9, false⟩, ⟨10, false⟩, ⟨11, true⟩]]
        ++ Operation.program 0 .reader 64 4 2 ++ Operation.program 0 .writer 8 4 2
        ++ Operation.program 1 .writer 128 0 16 ++ List.replicate 9 .tick)
      (fun _ s => !s.isQuiescent && s.ports.all fun p =>
        if p.writer.core.frameMode then
          decide (p.HasFrames [[⟨9, false⟩, ⟨10, false⟩, ⟨11, true⟩]])
        else decide (p.writer.core.length - p.writer.core.written
          + (p.writeRegs.holding.toList.map (·.words)).sum ≤ p.backlog.length)) = true := by
    decide +kernel
  obtain ⟨s₀, past, s, h₀, h, hlook⟩ := exists_of_trial hrun
  rw [Bool.and_eq_true, Bool.not_eq_true', List.all_eq_true] at hlook
  obtain ⟨hbusy, hall⟩ := hlook
  have hsupplied : ∀ p ∈ s.ports, p.Supplied := by
    intro p hp
    have hcheck := hall p hp
    cases hmode : p.writer.core.frameMode with
    | true =>
        rw [hmode, if_pos rfl] at hcheck
        exact .frames _ hmode (of_decide_eq_true hcheck)
    | false =>
        rw [hmode, if_neg Bool.false_ne_true] at hcheck
        exact .words hmode (of_decide_eq_true hcheck)
  exact ⟨s₀, past, s, h₀, h, hbusy, hsupplied,
    comes_to_rest (by decide) (by decide) ⟨s₀, past, h₀, h⟩ hsupplied⟩

end Machine

end BurstDma
