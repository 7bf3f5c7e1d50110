import Mathlib.Algebra.BigOperators.Group.Finset.Piecewise
import BurstDma.Proofs.Termination
import BurstDma.Proofs.WriteCredit

/-!
# Where a word of 32 bits is too small

Two numbers of the machine are words of 32 bits, although what they count may be more: the free
places that a reader sees of its buffer, and the words that a writer has sent of a frame.

* A buffer of 2^32 places shows none of them when it is empty. **Its reader waits for ever.**
* A frame of 2^32 beats is sent up to its last one. **The count of that one stops the machine**,
  and it is reached: as long as the frame is not sent, every cycle brings the machine closer to a
  rest that it cannot have, and the work and the delays bound the cycles that are left.
-/

namespace BurstDma

namespace Machine

variable {params : MachineParams} {s t : Machine} {i n : Nat} {p : Port}

/-- What a port keeps in every cycle it has after any number of them. -/
theorem port_ticks {Q : Port → Prop}
    (hstep : ∀ {s s' : Machine} {p : Port}, Machine.Reachable params s → s.ports[i]? = some p →
      Q p → s.tick.result = .ok s' → ∃ p', s'.ports[i]? = some p' ∧ Q p')
    (hr : Machine.Reachable params s) (hp : s.ports[i]? = some p) (hq : Q p)
    (hrun : (s.ticks n).result = .ok t) : ∃ p', t.ports[i]? = some p' ∧ Q p' := by
  unfold ticks at hrun
  induction n generalizing s p with
  | zero =>
      cases hrun
      exact ⟨p, hp, hq⟩
  | succ n ih =>
      rw [Run.stepTimes_succ] at hrun
      obtain ⟨s', htick, hrun⟩ := Run.result_bind_eq_ok.mp hrun
      obtain ⟨p', hp', hq'⟩ := hstep hr hp hq htick
      exact ih (hr.tick htick) hp' hq' hrun

end Machine

/-! ## A buffer without free places -/

/-- The phases between the taking of a descriptor and the granting of a burst. -/
def ReadPhase.seeks : ReadPhase → Bool
  | .sizing | .clamping | .encoding | .waitForCredit => true
  | _ => false

/-- **A reader that sees no free place is granted no burst.** -/
theorem ReadCore.starved_next {g : Geometry} {c c' : ReadCore} {i : ReadInputs} {step : ReadStep}
    (hf : c.Fits g) (hb : i.beat = none) (hfree : i.fifoFree = 0) (hquiet : c.pending.words = 0)
    (hseeks : c.phase.seeks = true ∨ c.phase = .idle ∧ ∃ d, i.desc = some d ∧ d.words ≠ 0)
    (h : (c.next g i).result = .ok (c', step)) :
    c'.phase.seeks = true ∧ c'.pending.words = 0 ∧ step.push = none := by
  obtain ⟨⟨r, push⟩, hrec, h⟩ := Run.result_bind_eq_ok.mp h
  obtain ⟨⟨core, st⟩, hproc, h⟩ := Run.result_bind_eq_ok.mp h
  cases h
  obtain ⟨⟨bursts, error, rfl⟩, rfl⟩ := receive_eq hrec
  rw [hb]
  have hwords : c.pending.words - i.beat.toList.length = 0 := by
    rw [hquiet, Nat.zero_sub]
  -- a phase that does not seek is idle
  have other : ∀ {ph : ReadPhase}, c.phase = ph → ph.seeks = false → ph = .idle := by
    intro ph hph hno
    rcases hseeks with hyes | ⟨hidle, _⟩
    · rw [hph, hno] at hyes
      cases hyes
    · exact hph.symm.trans hidle
  cases proceed_moves hproc with
  | size _ => exact ⟨rfl, hwords, rfl⟩
  | clamp _ => exact ⟨rfl, hwords, rfl⟩
  | encode _ _ _ => exact ⟨rfl, hwords, rfl⟩
  | starve _ _ => exact ⟨rfl, hwords, rfl⟩
  | grant hph hroom =>
      obtain ⟨hone, _⟩ := hf.burst (Or.inr (Or.inl hph))
      rw [hfree] at hroom
      have hburst : c.pending.words + c.burst ≤ 0 := hroom
      omega
  | take d hph hd =>
      rcases hseeks with hyes | ⟨_, d', hd', hsome⟩
      · rw [show c.phase = .idle from hph] at hyes
        cases hyes
      · cases hd'.symm.trans hd
        refine ⟨?_, hwords, rfl⟩
        dsimp only
        rw [if_neg hsome]
        rfl
  | rest hph hd =>
      rcases hseeks with hyes | ⟨_, d, hd', _⟩
      · rw [show c.phase = .idle from hph] at hyes
        cases hyes
      · cases hd'.symm.trans hd
  | stall hph _ => cases other hph rfl
  | issue hph _ _ => cases other hph rfl
  | again hph _ => cases other hph rfl
  | last hph _ => cases other hph rfl
  | await hph _ => cases other hph rfl
  | complete hph _ => cases other hph rfl
  | settle hph => cases other hph rfl

/-- One port, whose buffers have 2^32 places. -/
def MachineParams.roomy : MachineParams := { ports := [{ fifoDepth := limit32 }] }

/-- The reader of a port has a burst to ask for, nothing is on its way, and its empty buffer has a
number of places that a word of 32 bits shows as zero. -/
structure Port.Starved (p : Port) : Prop where
  capacity : p.readFifo.capacity % limit32 = 0
  drained : p.readFifo.beats = []
  quiet : p.reader.core.pending.words = 0
  seeks : p.reader.core.phase.seeks = true
    ∨ p.reader.core.phase = .idle ∧ ∃ d, p.readRegs.holding = some d ∧ d.words ≠ 0

namespace Machine

variable {params : MachineParams} {s s' t : Machine} {slave : ReadSlave} {i n : Nat} {p p' : Port}
  {rstep : ReadStep} {wstep : WriteStep}

/-- A starved port stays one. -/
theorem starved_edge (hr : Machine.Reachable params s) (h : s.Edge slave s')
    (hp : s.ports[i]? = some p)
    (hedge : p.Edge (s.readBus slave i p) (s.writeBus i p) rstep wstep p') (hs : p.Starved) :
    p'.Starved := by
  obtain ⟨hf, _⟩ := mirrored_reachable hr
  obtain ⟨hsound, _⟩ := (credited_reachable hr).2 i p hp
  have hfits := ((bounded_reachable hr).port i p hp).reader
  obtain ⟨q, _, hbuilt⟩ := hf.port i p hp
  obtain ⟨hcore, _⟩ := ReadEngine.tick_core hedge.reader
  rw [hbuilt.readGeometry] at hcore
  -- nothing is on its way, so nothing arrives
  have hbeat : (s.readBus slave i p).rFired = none := by
    have hfired := fired_le_awaited hf.reads h.drives h.readArbiter hp
    have hnone : s.awaited i = 0 := hsound.pending.symm.trans hs.quiet
    unfold awaited at hnone
    rw [hnone] at hfired
    exact Option.toList_eq_nil_iff.mp (List.eq_nil_of_length_eq_zero (Nat.le_zero.mp hfired))
  have hfree : p.readFifo.free = 0 := by
    unfold Fifo.free
    rw [hs.drained, List.length_nil, Nat.sub_zero, hs.capacity]
  have hseeks : p.reader.core.phase.seeks = true ∨ p.reader.core.phase = .idle
      ∧ ∃ d, (p.readInputs (s.readBus slave i p)).desc = some d ∧ d.words ≠ 0 := by
    refine hs.seeks.imp_right ?_
    rintro ⟨hidle, d, hd, hsome⟩
    have hready : p.reader.core.outputs.descReady = true := beq_iff_eq.mpr hidle
    exact ⟨hidle, d, (if_pos hready).trans hd, hsome⟩
  obtain ⟨hphase, hwords, hpush⟩ := ReadCore.starved_next hfits hbeat hfree hs.quiet hseeks hcore
  obtain ⟨_, hdrain⟩ := hedge.drain
  rw [hpush, Option.bind_none, Option.getD_none] at hdrain
  obtain ⟨_, hcapacity, _, hlen⟩ := Sink.tick_contents hdrain
  rw [hs.drained] at hlen
  exact ⟨hcapacity ▸ hs.capacity, List.eq_nil_of_length_eq_zero (Nat.le_zero.mp hlen), hwords,
    Or.inl hphase⟩

theorem starved_tick (hr : Machine.Reachable params s) (hp : s.ports[i]? = some p)
    (hs : p.Starved) (htick : s.tick.result = .ok s') :
    ∃ p', s'.ports[i]? = some p' ∧ p'.Starved := by
  obtain ⟨slave, h⟩ := tick_edge htick
  obtain ⟨rstep, wstep, p', hp', hedge⟩ := h.port i p hp
  exact ⟨p', hp', starved_edge hr h hp hedge hs⟩

/-- **A machine with a starved port never comes to rest.** -/
theorem starved_never_rests (hr : Machine.Reachable params s) (hp : s.ports[i]? = some p)
    (hs : p.Starved) (hrun : (s.ticks n).result = .ok t) : ¬ t.AtRest := by
  obtain ⟨p, hp, hs⟩ := port_ticks starved_tick hr hp hs hrun
  intro hrest
  obtain ⟨hidle, _, hheld, _⟩ := hrest.port p (List.mem_of_getElem? hp)
  have hphase : p.reader.core.phase = .idle := beq_iff_eq.mp hidle
  rcases hs.seeks with hyes | ⟨_, d, hd, _⟩
  · rw [hphase] at hyes
    cases hyes
  · cases hheld.symm.trans hd

/-- In a machine with such buffers a reader starves as soon as it is asked for a word. -/
theorem starved_roomy : ∃ (s : Machine) (p : Port), Machine.Reachable .roomy s
    ∧ s.ports = [p] ∧ p.Starved ∧ p.Supplied := by
  have hrun : trial .roomy (Operation.program 0 .reader 0 1 1 ++ [.tick]) (fun _ s =>
      decide (s.ports.length = 1 ∧ ∀ p ∈ s.ports, p.readFifo.capacity % limit32 = 0
        ∧ p.readFifo.beats = [] ∧ p.reader.core.pending.words = 0
        ∧ p.reader.core.phase.seeks = true ∧ p.writer.core.frameMode = false
        ∧ p.writer.core.length - p.writer.core.written
          + (p.writeRegs.holding.toList.map (·.words)).sum ≤ p.backlog.length)) = true := by
    decide +kernel
  obtain ⟨s₀, past, s, h₀, h, hlook⟩ := exists_of_trial hrun
  obtain ⟨hone, hall⟩ := of_decide_eq_true hlook
  obtain ⟨p, hports⟩ := List.length_eq_one_iff.mp hone
  have hmem : p ∈ s.ports := by
    rw [hports]
    exact List.mem_cons_self
  obtain ⟨hcapacity, hdrained, hquiet, hseeks, hmode, henough⟩ := hall p hmem
  exact ⟨s, p, ⟨s₀, past, h₀, h⟩, hports, ⟨hcapacity, hdrained, hquiet, Or.inl hseeks⟩,
    .words hmode henough⟩

end Machine

/-! ## Cycles are counted -/

/-- A wait that was short, or has just begun with a short throttle, is short. -/
theorem Rests.le {throttle wait wait' most : Nat} {edge : Bool} {moved : List Beat}
    (h : Rests throttle wait edge moved wait') (hwait : wait ≤ most) (hthrottle : throttle ≤ most) :
    wait' ≤ most := by
  cases h with
  | goes_on => exact Nat.le_trans (Nat.sub_le _ _) hwait
  | begins b _ => exact hthrottle
  | stands => exact hwait

/-- Neither stream of a port rests for more than `most` cycles. -/
structure Port.DelaysWithin (most : Nat) (p : Port) : Prop where
  source : p.source.wait ≤ most ∧ p.source.throttle ≤ most
  sink : p.sink.wait ≤ most ∧ p.sink.throttle ≤ most

/-- What waits in a memory comes due within `most` cycles. -/
structure Memory.DelaysWithin (most : Nat) (m : Memory) : Prop where
  reads : ∀ job ∈ m.reads, job.readyAt ≤ m.cycle + most
  response : ∀ r ∈ m.response, r.2 ≤ m.cycle + most
  latency : max m.params.readLatency 1 ≤ most ∧ max m.params.writeLatency 1 ≤ most

instance (most : Nat) (p : Port) : Decidable (p.DelaysWithin most) :=
  decidable_of_iff (_ ∧ _) ⟨fun h => ⟨h.1, h.2⟩, fun h => ⟨h.source, h.sink⟩⟩

instance (most : Nat) (m : Memory) : Decidable (m.DelaysWithin most) :=
  decidable_of_iff ((∀ job ∈ m.reads, job.readyAt ≤ m.cycle + most)
      ∧ (∀ r ∈ m.response, r.2 ≤ m.cycle + most)
      ∧ max m.params.readLatency 1 ≤ most ∧ max m.params.writeLatency 1 ≤ most)
    ⟨fun h => ⟨h.1, h.2.1, h.2.2⟩, fun h => ⟨h.reads, h.response, h.latency⟩⟩

theorem Port.DelaysWithin.edge {most : Nat} {p p' : Port} {reads : ReadBus} {writes : WriteBus}
    {rstep : ReadStep} {wstep : WriteStep} (hd : p.DelaysWithin most)
    (h : p.Edge reads writes rstep wstep p') : p'.DelaysWithin most := by
  obtain ⟨_, _, _, hfill⟩ := h.fill
  obtain ⟨_, hdrain⟩ := h.drain
  have hfed := Source.tick_fed hfill
  have hdrained := Sink.tick_drained hdrain
  obtain ⟨⟨hw, ht⟩, ⟨hw', ht'⟩⟩ := hd
  exact ⟨⟨hfed.rest.le hw ht, hfed.throttle ▸ ht⟩,
    ⟨hdrained.rest.le hw' ht', hdrained.throttle ▸ ht'⟩⟩

theorem Memory.DelaysWithin.tick {most : Nat} {m m' : Memory} {reads : ReadBus}
    {writes : WriteBus} (hd : m.DelaysWithin most) (h : (m.tick reads writes).result = .ok m') :
    m'.DelaysWithin most := by
  have hcycle := Memory.tick_cycle h
  obtain ⟨hparams, hdue⟩ := Memory.tick_due h
  obtain ⟨hjobs, hresponse, hread, hwrite⟩ := hd
  refine ⟨fun job hjob => ?_, fun r hr => ?_, ?_⟩
  · obtain ⟨t, ht, h⟩ := Run.result_bind_eq_ok.mp h
    cases h
    have hjob' : job ∈ (m.tickReads reads).reads := (Memory.tickWrites_reads ht).1 ▸ hjob
    rcases m.tickReads_ready reads job hjob' with ⟨old, hmem, hsame⟩ | hnew
    · have hold := hjobs old hmem
      omega
    · omega
  · rcases hdue r hr with hkept | hnew
    · have hold := hresponse r hkept
      omega
    · omega
  · rw [hparams]
    exact ⟨hread, hwrite⟩

namespace Machine

variable {params : MachineParams} {s s' t : Machine} {slave : ReadSlave} {most i n : Nat}
  {p p' : Port} {rstep : ReadStep} {wstep : WriteStep}

/-- No delay of a machine is longer than `most` cycles, and none will be. -/
structure DelaysWithin (most : Nat) (s : Machine) : Prop where
  port : ∀ p ∈ s.ports, p.DelaysWithin most
  memory : s.memory.DelaysWithin most

instance (most : Nat) (s : Machine) : Decidable (s.DelaysWithin most) :=
  decidable_of_iff (_ ∧ _) ⟨fun h => ⟨h.1, h.2⟩, fun h => ⟨h.port, h.memory⟩⟩

theorem DelaysWithin.edge (hd : s.DelaysWithin most) (h : s.Edge slave s') :
    s'.DelaysWithin most := by
  refine ⟨fun p' hmem => ?_, hd.memory.tick h.memory⟩
  obtain ⟨i, hp'⟩ := List.mem_iff_getElem?.mp hmem
  obtain ⟨p, rstep, wstep, hp, hedge⟩ := h.port' hp'
  exact (hd.port p (List.mem_of_getElem? hp)).edge hedge

/-- All delays together. -/
theorem DelaysWithin.delay_le (hd : s.DelaysWithin most) :
    s.delay ≤ s.ports.length * (2 * most) + 2 * most + 2 := by
  have hports : ∀ i ∈ Finset.range s.ports.length, s.delayAt i ≤ 2 * most := by
    intro i hi
    have hp := List.getElem?_eq_getElem (Finset.mem_range.mp hi)
    obtain ⟨⟨hsource, _⟩, hsink, _⟩ := hd.port _ (List.mem_of_getElem? hp)
    unfold delayAt
    rw [hp, Option.elim_some, Port.delay]
    omega
  have hsum := Finset.sum_le_card_nsmul _ _ _ hports
  rw [Finset.card_range] at hsum
  have hall : ∑ i ∈ Finset.range s.ports.length, s.delayAt i ≤ s.ports.length * (2 * most) := hsum
  have hread : s.memory.readDelay ≤ most := by
    unfold Memory.readDelay
    cases hhead : s.memory.reads.head? with
    | none => exact Nat.zero_le _
    | some job =>
        have hdue := hd.memory.reads job (List.mem_of_mem_head? hhead)
        exact Nat.sub_le_iff_le_add'.mpr hdue
  have hwrite : s.memory.writeDelay ≤ most := by
    unfold Memory.writeDelay
    cases hresponse : s.memory.response with
    | none => exact Nat.zero_le _
    | some r => exact Nat.sub_le_iff_le_add'.mpr (hd.memory.response r hresponse)
  have hreadTurn : s.readAstray ≤ 1 := by
    unfold readAstray
    split <;> decide
  have hwriteTurn : s.writeAstray ≤ 1 := by
    unfold writeAstray
    split
    · split <;> decide
    · decide
  unfold delay
  omega

/-- The cycles that a machine can come closer to its rest, if no delay is longer than `most`. -/
def budget (most : Nat) (s : Machine) : Nat :=
  s.work * (s.ports.length * (2 * most) + 2 * most + 3) + s.delay

theorem Closer.budget_lt (h : s'.Closer s) (hlength : s'.ports.length = s.ports.length)
    (hd : s'.DelaysWithin most) : s'.budget most < s.budget most := by
  have hdelay := hd.delay_le
  unfold budget
  rw [hlength] at hdelay ⊢
  generalize s.ports.length * (2 * most) + 2 * most = longest at hdelay
  rcases h with hwork | ⟨hwork, hless⟩
  · -- what a delay can grow is less than what a piece of work is worth
    have hmul := Nat.mul_le_mul_right (longest + 3) (Nat.succ_le_of_lt hwork)
    rw [Nat.succ_mul] at hmul
    omega
  · rw [hwork]
    omega

/-- A beat that a source is given adds eight to the work. -/
theorem work_push (hi : s.Indexed) (hp : s.ports[i]? = some p) (beats : List Beat) :
    (s.setPort (p.extend beats)).work = s.work + 8 * beats.length := by
  have hlength : (s.setPort (p.extend beats)).ports.length = s.ports.length := List.length_set
  have hat : ∀ j, (s.setPort (p.extend beats)).workAt j
      = s.workAt j + if j = i then 8 * beats.length else 0 := by
    intro j
    have hport := setPort_getElem? hi hp (q := p.extend beats) rfl j
    unfold workAt
    rw [hport]
    by_cases hj : j = i
    · subst hj
      have hread : (s.setPort (p.extend beats)).readWork j (p.extend beats) = s.readWork j p := rfl
      have hwrite : (s.setPort (p.extend beats)).writeWork j (p.extend beats)
          = s.writeWork j p + 8 * beats.length := by
        have hqueue : (p.extend beats).source.queue.length
            = p.source.queue.length + beats.length := List.length_append
        unfold writeWork
        rw [hqueue, Nat.mul_add, ← Nat.add_assoc, Nat.add_right_comm _ (8 * beats.length)]
        rfl
      rw [if_pos rfl, if_pos rfl, hp, Option.elim_some, Option.elim_some, hread, hwrite,
        Nat.add_assoc]
    · rw [if_neg hj, if_neg hj]
      rfl
  have hlt : i ∈ Finset.range s.ports.length :=
    Finset.mem_range.mpr (List.getElem?_eq_some_iff.mp hp).1
  unfold work
  rw [hlength, Finset.sum_congr rfl fun j _ => hat j, Finset.sum_add_distrib,
    Finset.sum_ite_eq', if_pos hlt]

/-- A push adds nothing to the delays. -/
theorem DelaysWithin.push (hd : s.DelaysWithin most) (hi : s.Indexed) (hp : s.ports[i]? = some p)
    (beats : List Beat) : (s.setPort (p.extend beats)).DelaysWithin most := by
  refine ⟨fun q hmem => ?_, hd.memory⟩
  obtain ⟨j, hq⟩ := List.mem_iff_getElem?.mp hmem
  rw [setPort_getElem? hi hp (q := p.extend beats) rfl] at hq
  split at hq
  · cases hq
    obtain ⟨hsource, hsink⟩ := hd.port p (List.mem_of_getElem? hp)
    exact ⟨hsource, hsink⟩
  · exact hd.port q (List.mem_of_getElem? hq)

end Machine

/-! ## A frame that does not fit its count -/

/-- The next frame that a writer has to send has more beats than its count can still hold. -/
structure Port.Overlong (p : Port) : Prop where
  mode : p.writer.core.frameMode = true
  wanted : p.writer.core.Midway ∨ p.writeRegs.holding ≠ none
  frame : ∃ run b rest, p.backlog = run ++ b :: rest ∧ (∀ x ∈ run, x.last = false)
    ∧ b.last = true
    ∧ limit32 ≤ (if p.writer.core.Midway then p.writer.core.written else 0) + run.length + 1

theorem WriteCore.idle_of_taken {g : Geometry} {c c' : WriteCore} {i : WriteInputs}
    {step : WriteStep} (h : (c.next g i).result = .ok (c', step)) (ht : step.taken = true) :
    c.phase = .idle := by
  obtain ⟨error, hm⟩ := next_moves h
  cases hm with
  | take d hph _ => exact hph
  | _ => cases ht

namespace Port

variable {g : Geometry} {s : Machine} {slave : ReadSlave} {i : Nat} {p p' : Port}
  {rstep : ReadStep} {wstep : WriteStep}

/-- **An overlong frame stays one**, as long as the count holds what is sent of it. -/
theorem Overlong.edge (ho : p.Overlong) (hf : p.writer.core.Fits g)
    (hcut : p.writer.core.CutRight p.writeFifo.beats) (hcount : p'.writer.core.written < limit32)
    (h : p.Edge (s.readBus slave i p) (s.writeBus i p) rstep wstep p') : p'.Overlong := by
  obtain ⟨hmode, hwanted, run, b, rest, hrow, hopen, hlast, hlong⟩ := ho
  obtain ⟨hcore, _⟩ := WriteEngine.tick_core h.writer
  have hmid := WriteCore.midway_next hmode hcore
  obtain ⟨hwritten, hquiet⟩ := WriteCore.written_next hcore
  have hmode' := (WriteCore.frameMode_next hcore).trans hmode
  have hbacklog := backlog_edge h
  cases ht : wstep.taken with
  | true =>
      -- the frame is that of the descriptor that was taken
      have hnow : p'.writer.core.Midway := hmid.mpr (Or.inl ht)
      rw [hquiet ht, if_neg Bool.false_ne_true, List.nil_append] at hbacklog
      have hnot : ¬ p.writer.core.Midway := fun hm => hm.1 (WriteCore.idle_of_taken hcore ht)
      rw [if_neg hnot] at hlong
      refine ⟨hmode', Or.inl hnow, run, b, rest, hbacklog ▸ hrow, hopen, hlast, ?_⟩
      rw [if_pos hnow, hwritten, ht, if_pos rfl]
      exact hlong
  | false =>
      rw [ht] at hmid hwritten
      have hheld : p'.writeRegs.holding = p.writeRegs.holding := by
        rw [h.writeRegs, nextRegs_holding, ht]
        rfl
      cases hpop : wstep.pop with
      | false =>
          rw [hpop] at hbacklog hmid hwritten
          rw [if_neg Bool.false_ne_true, List.nil_append] at hbacklog
          have hsame : p'.writer.core.Midway ↔ p.writer.core.Midway := by
            rw [hmid]
            simp
          refine ⟨hmode', by rwa [hsame, hheld], run, b, rest, hbacklog ▸ hrow, hopen, hlast, ?_⟩
          rw [if_congr hsame rfl rfl, hwritten]
          exact hlong
      | true =>
          obtain ⟨head, hhead, hcons, hph⟩ := sends_head hpop h
          have hm := WriteCore.midway_of_phase hph (by decide)
          rw [hpop] at hwritten
          rw [hpop, ← head_of_cut hcut hf.beat hph hhead] at hmid
          rw [if_pos hm] at hlong
          replace hwritten : p'.writer.core.written = p.writer.core.written + 1 := hwritten
          cases run with
          | nil =>
              -- the count of the last beat would be 2^32
              rw [List.length_nil] at hlong
              omega
          | cons x run =>
              obtain ⟨rfl, hrow'⟩ := List.cons.inj (hcons.symm.trans hrow)
              have hgoes : p'.writer.core.Midway := by
                refine hmid.mpr (Or.inr ⟨hm, fun hc => ?_⟩)
                rw [hopen head List.mem_cons_self] at hc
                cases hc.2
              refine ⟨hmode', Or.inl hgoes, run, b, rest, hrow',
                fun x hx => hopen x (List.mem_cons_of_mem _ hx), hlast, ?_⟩
              rw [List.length_cons] at hlong
              rw [if_pos hgoes, hwritten]
              omega

end Port

namespace Machine

variable {params : MachineParams} {s s' t : Machine} {slave : ReadSlave} {most i n : Nat}
  {p : Port}

theorem overlong_tick (hshort : ∀ q ∈ params.ports, q.fifoDepth < limit32)
    (hr : Machine.Reachable params s) (hp : s.ports[i]? = some p) (ho : p.Overlong)
    (htick : s.tick.result = .ok s') : ∃ p', s'.ports[i]? = some p' ∧ p'.Overlong := by
  obtain ⟨slave, h⟩ := tick_edge htick
  obtain ⟨rstep, wstep, p', hp', hedge⟩ := h.port i p hp
  obtain ⟨_, hframed⟩ := framed_reachable hshort hr hp ho.mode
  have hfits := ((bounded_reachable hr).port i p hp).writer
  have hfits' := ((bounded_reachable (hr.tick htick)).port i p' hp').writer
  exact ⟨p', hp', ho.edge hfits hframed.cut hfits'.written hedge⟩

/-- **A machine with an overlong frame never comes to rest.** -/
theorem overlong_never_rests (hshort : ∀ q ∈ params.ports, q.fifoDepth < limit32)
    (hr : Machine.Reachable params s) (hp : s.ports[i]? = some p) (ho : p.Overlong)
    (hrun : (s.ticks n).result = .ok t) : ¬ t.AtRest := by
  obtain ⟨p, hp, ho⟩ := port_ticks (overlong_tick hshort) hr hp ho hrun
  intro hrest
  obtain ⟨_, hidle, _, hheld, _⟩ := hrest.port p (List.mem_of_getElem? hp)
  rcases ho.wanted with hmid | hwaits
  · exact hmid.1 (beq_iff_eq.mp hidle)
  · exact hwaits hheld

/-- While the frame is not sent, every cycle brings the machine closer to rest: its writer finds
a burst, or the end of the frame. -/
theorem overlong_closer
    (hdepth : ∀ q ∈ params.ports, maxBurstWords ≤ q.fifoDepth ∧ q.fifoDepth < limit32)
    (hr : Machine.Reachable params s) (h : s.Edge slave s') (hp : s.ports[i]? = some p)
    (ho : p.Overlong) : s'.Closer s := by
  rcases work_edge hr h with hless | ⟨hsame, hstill⟩
  · exact Or.inl hless
  rcases delay_edge hr h hstill with hless | hexpired
  · exact Or.inr ⟨hsame, hless⟩
  exfalso
  obtain ⟨q, hq, hb⟩ := hr.formed.port i p hp
  have hd := hdepth q (List.mem_of_getElem? hq)
  obtain ⟨_, hframed⟩ := framed_reachable (fun q hq => (hdepth q hq).2) hr hp ho.mode
  have hbounded := (bounded_reachable hr).port i p hp
  obtain ⟨run, b, rest, hrow, _, hlast, _⟩ := ho.frame
  have hmem : b ∈ p.backlog := by
    rw [hrow]
    exact List.mem_append_right run List.mem_cons_self
  obtain ⟨hidle, hheld⟩ := hexpired.writer_idle hr h hstill hp fun hph =>
    Port.sized_of_candidate_le hbounded.writer hb hbounded.writeFifo (fun _ => hframed.latched) hd.2
      hph (Port.candidate_le_of_last hbounded.writer hb ho.mode (fun _ => hframed.latched) hd.1
        (hexpired.port i p hp).fed hph hmem hlast)
  rcases ho.wanted with hmid | hwaits
  · exact hmid.1 hidle
  · exact hwaits hheld

/-- **An overlong frame stops the machine**, as soon as all that can be done is done. -/
theorem overlong_stops
    (hdepth : ∀ q ∈ params.ports, maxBurstWords ≤ q.fifoDepth ∧ q.fifoDepth < limit32)
    (hr : Machine.Reachable params s) (hd : s.DelaysWithin most) (hp : s.ports[i]? = some p)
    (ho : p.Overlong) (hrun : (s.ticks n).result = .ok t) : n ≤ s.budget most := by
  have hshort : ∀ q ∈ params.ports, q.fifoDepth < limit32 := fun q hq => (hdepth q hq).2
  unfold ticks at hrun
  induction n generalizing s p with
  | zero => exact Nat.zero_le _
  | succ n ih =>
      rw [Run.stepTimes_succ] at hrun
      obtain ⟨s', htick, hrun⟩ := Run.result_bind_eq_ok.mp hrun
      obtain ⟨slave, h⟩ := tick_edge htick
      obtain ⟨p', hp', ho'⟩ := overlong_tick hshort hr hp ho htick
      have hcloser := overlong_closer hdepth hr h hp ho
      have hless := hcloser.budget_lt h.length (hd.edge h)
      have hrest := ih (hr.tick htick) (hd.edge h) hp' ho' hrun
      omega

end Machine

/-! ## One frame, programmed and given -/

/-- `n` beats, and one that ends their frame. -/
def Beat.frameOf (n : Nat) : List Beat :=
  List.replicate n ⟨0, false⟩ ++ [⟨0, true⟩]

theorem Beat.frameOf_length (n : Nat) : (Beat.frameOf n).length = n + 1 := by
  unfold frameOf
  rw [List.length_append, List.length_replicate]
  rfl

/-- No more than `n` of its beats follow each other without a mark. -/
theorem Beat.frameOf_run {n : Nat} {run : List Beat} (hrun : run <:+: Beat.frameOf n)
    (hopen : ∀ b ∈ run, b.last = false) : run.length ≤ n := by
  have hle := hrun.length_le
  rw [frameOf_length] at hle
  refine Nat.le_of_lt_succ (Nat.lt_of_le_of_ne hle fun heq => ?_)
  -- a longer run is the whole frame, the mark included
  obtain rfl := hrun.eq_of_length (heq.trans (frameOf_length n).symm)
  cases hopen ⟨0, true⟩ (List.mem_append_right _ List.mem_cons_self)

/-- Programs the writer of port 0, gives it such a frame, and lets the clock run. -/
def Operation.sendFrame (n cycles : Nat) : List Operation :=
  Operation.program 0 .writer 0 0 16 ++ .push 0 (Beat.frameOf n) :: List.replicate cycles .tick

theorem Operation.sendFrame_length (n cycles : Nat) :
    (Operation.sendFrame n cycles).length = cycles + 5 := by
  unfold sendFrame
  rw [List.length_append, List.length_cons, List.length_replicate]
  exact Nat.add_comm 4 (cycles + 1)

theorem Operation.sendFrame_offers (n cycles : Nat) :
    (Operation.sendFrame n cycles).flatMap (Operation.offers 0) = Beat.frameOf n := by
  have hticks : (List.replicate cycles Operation.tick).flatMap (Operation.offers 0) = [] :=
    List.flatMap_eq_nil_iff.mpr fun op hop => List.eq_of_mem_replicate hop ▸ rfl
  unfold sendFrame
  rw [List.flatMap_append, List.flatMap_cons, hticks, List.append_nil]
  rfl

theorem Operation.sendFrame_admissible (n cycles : Nat) {params : MachineParams}
    (hport : 0 < params.ports.length) :
    ∀ op ∈ Operation.sendFrame n cycles, op.Admissible params := by
  intro op hop
  rcases List.mem_append.mp hop with hprog | hrest
  · simp only [program, List.mem_cons, List.not_mem_nil, or_false] at hprog
    rcases hprog with rfl | rfl | rfl | rfl <;> trivial
  · rcases List.mem_cons.mp hrest with rfl | htick
    · exact hport
    · rw [List.eq_of_mem_replicate htick]
      trivial

/-- A writer in frame mode is idle, a descriptor waits for it, and it has been given `beats`. -/
structure Port.Given (p : Port) (beats : List Beat) : Prop where
  mode : p.writer.core.frameMode = true
  idle : p.writer.core.phase = .idle
  waits : p.writeRegs.holding ≠ none
  backlog : p.backlog = beats

instance (p : Port) (beats : List Beat) : Decidable (p.Given beats) :=
  decidable_of_iff (p.writer.core.frameMode = true ∧ p.writer.core.phase = .idle
      ∧ p.writeRegs.holding ≠ none ∧ p.backlog = beats)
    ⟨fun h => ⟨h.1, h.2.1, h.2.2.1, h.2.2.2⟩, fun h => ⟨h.mode, h.idle, h.waits, h.backlog⟩⟩

theorem Port.Given.overlong {p : Port} {n : Nat} (h : p.Given (Beat.frameOf n))
    (hn : limit32 ≤ n + 1) : p.Overlong := by
  refine ⟨h.mode, Or.inr h.waits, List.replicate n ⟨0, false⟩, ⟨0, true⟩, [], h.backlog, ?_, rfl,
    ?_⟩
  · intro x hx
    rw [List.eq_of_mem_replicate hx]
  · rw [List.length_replicate]
    omega

theorem Port.Given.extend {p : Port} {beats more : List Beat} (h : p.Given beats) :
    (p.extend more).Given (beats ++ more) := by
  refine ⟨h.mode, h.idle, h.waits, ?_⟩
  rw [← h.backlog]
  exact (List.append_assoc _ _ _).symm

/-- One port, whose writer works in frame mode. -/
def MachineParams.framed : MachineParams := { ports := [{ frameMode := true }] }

namespace Machine

variable {s s₀ t : Machine} {past : List Moment} {n : Nat}

theorem ticks_of_replay (h : s.replay (List.replicate n .tick) = .ok (past, t)) :
    (s.ticks n).result = .ok t := by
  induction n generalizing s past with
  | zero =>
      cases h
      rfl
  | succ n ih =>
      rw [List.replicate_succ] at h
      obtain ⟨next, hop, h⟩ := except_bind_eq_ok.mp h
      obtain ⟨⟨later, last⟩, hlater, h⟩ := except_bind_eq_ok.mp h
      cases h
      exact ticks_succ hop (ih hlater)

/-- The one port of the machine waits for its frame, and little is to be done until then. -/
structure AwaitsFrame (s : Machine) : Prop where
  work : s.work ≤ 7
  delays : s.DelaysWithin 4
  lanes : s.ports.length = 1
  given : ∀ p ∈ s.ports, p.Given []

instance (s : Machine) : Decidable s.AwaitsFrame :=
  decidable_of_iff (s.work ≤ 7 ∧ s.DelaysWithin 4 ∧ s.ports.length = 1 ∧ ∀ p ∈ s.ports, p.Given [])
    ⟨fun h => ⟨h.1, h.2.1, h.2.2.1, h.2.2.2⟩, fun h => ⟨h.work, h.delays, h.lanes, h.given⟩⟩

/-- A machine in frame mode waits so when it has been programmed. -/
theorem awaits_programmed :
    trial .framed (Operation.program 0 .writer 0 0 16)
      (fun _ s => decide s.AwaitsFrame) = true := by
  decide +kernel

/-- The frame can be given. -/
theorem AwaitsFrame.push (h : s.AwaitsFrame) (hr : Machine.Reachable .framed s) (n : Nat) :
    ∃ s' p, (Operation.push 0 (Beat.frameOf n)).apply s = .ok s' ∧ Machine.Reachable .framed s'
      ∧ s'.ports = [p] ∧ p.Given (Beat.frameOf n) ∧ s'.DelaysWithin 4
      ∧ s'.budget 4 ≤ (7 + 8 * (n + 1)) * 19 + 18 := by
  obtain ⟨p, hports⟩ := List.length_eq_one_iff.mp h.lanes
  have hi := hr.formed.indexed
  have hp : s.ports[0]? = some p := by
    rw [hports]
    rfl
  have hpush := apply_push hp (Beat.frameOf n)
  have hports' : (s.setPort (p.extend (Beat.frameOf n))).ports = [p.extend (Beat.frameOf n)] := by
    show s.ports.set p.index _ = _
    rw [hi 0 p hp, hports]
    rfl
  have hgiven : (p.extend (Beat.frameOf n)).Given ([] ++ Beat.frameOf n) :=
    (h.given p (List.mem_of_getElem? hp)).extend
  have hdelays := h.delays.push hi hp (Beat.frameOf n)
  have hwork := work_push hi hp (Beat.frameOf n)
  have hdelay := hdelays.delay_le
  have hlittle := h.work
  obtain ⟨s₀, past, h₀, hist⟩ := hr
  refine ⟨_, _, hpush, ⟨s₀, _, h₀, hist.step hpush⟩, hports', hgiven, hdelays, ?_⟩
  unfold budget
  rw [hports', List.length_singleton] at hdelay ⊢
  rw [hwork, Beat.frameOf_length]
  have hmul : (s.work + 8 * (n + 1)) * 19 ≤ (7 + 8 * (n + 1)) * 19 :=
    Nat.mul_le_mul_right 19 (Nat.add_le_add_right hlittle _)
  exact Nat.add_le_add hmul hdelay

/-- **A frame of 2^32 beats stops the machine**, although no more than 2^32 - 1 of them follow
each other without a mark: the count of the last beat does not fit its word. -/
theorem marked_beat_overruns :
    ∃ s₀, ofParams .framed = .ok s₀
      ∧ (Operation.sendFrame (limit32 - 1) (2 ^ 40)).length < 2 ^ 62
      ∧ (∀ op ∈ Operation.sendFrame (limit32 - 1) (2 ^ 40), op.Admissible .framed)
      ∧ (∀ run, run <:+: (Operation.sendFrame (limit32 - 1) (2 ^ 40)).flatMap (Operation.offers 0) →
        (∀ b ∈ run, b.last = false) → run.length < limit32)
      ∧ ¬ ∃ past t, s₀.replay (Operation.sendFrame (limit32 - 1) (2 ^ 40)) = .ok (past, t) := by
  obtain ⟨s₀, h₀⟩ : ∃ s₀, ofParams .framed = .ok s₀ := ⟨_, rfl⟩
  refine ⟨s₀, h₀, ?_, Operation.sendFrame_admissible _ _ (by decide), fun run hrun hopen => ?_, ?_⟩
  · rw [Operation.sendFrame_length]
    decide
  · rw [Operation.sendFrame_offers] at hrun
    exact Nat.lt_of_le_of_lt (Beat.frameOf_run hrun hopen) (by decide)
  · rintro ⟨past, t, h⟩
    obtain ⟨first, s, rest, hprogram, h⟩ := replay_append h
    have hlook := trial_eq h₀ hprogram (fun _ s => decide s.AwaitsFrame)
    rw [awaits_programmed] at hlook
    have hawaits := of_decide_eq_true hlook.symm
    obtain ⟨s', p, hpush, hr, hports, hgiven, hdelays, hbudget⟩ :=
      hawaits.push ⟨s₀, first, h₀, history_of_replay hprogram⟩ (limit32 - 1)
    obtain ⟨next, hop, h⟩ := except_bind_eq_ok.mp h
    obtain ⟨⟨later, last⟩, hlater, _⟩ := except_bind_eq_ok.mp h
    cases hop.symm.trans hpush
    have hp : s'.ports[0]? = some p := by
      rw [hports]
      rfl
    have hstop := overlong_stops (by decide) hr hdelays hp (hgiven.overlong (by decide))
      (ticks_of_replay hlater)
    exact absurd (Nat.le_trans hstop hbudget) (by decide)

/-- **Two machines that never come to rest**, although every stream holds what its writer still
has to send: in the first a reader waits for a free place of an empty buffer, in the second a
writer sends a frame of 2^32 beats. -/
theorem never_at_rest :
    (∃ s, Machine.Reachable .roomy s ∧ (∀ p ∈ s.ports, p.Supplied)
      ∧ ∀ n t, (s.ticks n).result = .ok t → ¬ t.AtRest)
    ∧ ∃ s, Machine.Reachable .framed s ∧ (∀ p ∈ s.ports, p.Given (Beat.frameOf (limit32 - 1)))
      ∧ ∀ n t, (s.ticks n).result = .ok t → ¬ t.AtRest := by
  constructor
  · obtain ⟨s, p, hr, hports, hs, hsupplied⟩ := starved_roomy
    have hp : s.ports[0]? = some p := by
      rw [hports]
      rfl
    refine ⟨s, hr, fun q hq => ?_, fun n t hrun => starved_never_rests hr hp hs hrun⟩
    rw [hports] at hq
    rw [List.mem_singleton.mp hq]
    exact hsupplied
  · obtain ⟨s₀, past, s, h₀, h, hlook⟩ := exists_of_trial awaits_programmed
    obtain ⟨s', p, _, hr, hports, hgiven, _⟩ :=
      (of_decide_eq_true hlook).push ⟨s₀, past, h₀, h⟩ (limit32 - 1)
    have hp : s'.ports[0]? = some p := by
      rw [hports]
      rfl
    refine ⟨s', hr, fun q hq => ?_, fun n t hrun =>
      overlong_never_rests (by decide) hr hp (hgiven.overlong (by decide)) hrun⟩
    rw [hports] at hq
    rw [List.mem_singleton.mp hq]
    exact hgiven

end Machine

end BurstDma
