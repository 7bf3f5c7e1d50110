import Mathlib.Algebra.Order.BigOperators.Group.Finset
import BurstDma.Proofs.Bounds

/-!
# The work that is left

A transfer passes through many hands, and each of them may have to wait for another. What
can be said of all of them at once is how far everything still has to go. `Machine.work`
adds that up: the phases that an engine has before it, the words it has not asked for, and
every request, word and beat by the stations that still lie ahead of it. **No clock cycle
adds to the work, and one that moves anything takes from it**; so a cycle that leaves the
work as it was has moved nothing, and `Machine.Still` lists what that means.

The weights are chosen once, here. A station weighs one more than the next one, and what an
engine takes apart weighs more than its parts.
-/

namespace BurstDma

/-! ## Readers -/

/-- What an engine in a phase has before it until it has to look at the words that are
left. -/
def ReadPhase.weight : ReadPhase → Nat
  | .idle => 0
  | .done => 1
  | .waitForCompletion => 2
  | .issueBurst => 2
  | .waitForCredit => 3
  | .encoding => 4
  | .clamping => 5
  | .sizing => 6
  | .transferBurst => 7

/-- The work that a reader makes of a descriptor, and one more for taking it. -/
def Descriptor.readWork (d : Descriptor) : Nat :=
  12 * d.words + 7

namespace ReadCore

/-- A word that was not asked for weighs as much as the sizing of a burst and the way of a
word through the machine. -/
def work (c : ReadCore) : Nat :=
  12 * c.remaining + c.phase.weight

variable {g : Geometry} {c c' : ReadCore} {i : ReadInputs} {step : ReadStep} {awaited : Nat}

/-- **A reader works its transfers off.** A request that was accepted is no work of the
reader any more: a word of it weighs three, the request itself two. -/
theorem work_next (hs : c.Sound awaited) (hf : c.Fits g)
    (hfire : i.arFires = true → c.phase = .issueBurst)
    (h : (c.next g i).result = .ok (c', step)) :
    c'.work + 3 * c.asked i + (if i.arFires then 2 else 0)
        + (if c'.phase = c.phase then 0 else 1)
      ≤ c.work + ((taken i step).map Descriptor.readWork).sum := by
  obtain ⟨⟨r, push⟩, hrec, h⟩ := Run.result_bind_eq_ok.mp h
  obtain ⟨⟨core, st⟩, hproc, h⟩ := Run.result_bind_eq_ok.mp h
  cases h
  obtain ⟨⟨bursts, error, rfl⟩, _⟩ := receive_eq hrec
  -- where nothing is asked for, only the phase counts
  have still : ∀ {core : ReadCore} {st : ReadStep} {ph : ReadPhase} (next : ReadPhase),
      c.phase = ph → i.arFires = false → core.phase = next → core.remaining = c.remaining →
      next.weight + (if next = ph then 0 else 1) ≤ ph.weight →
      core.work + 3 * c.asked i + (if i.arFires then 2 else 0)
          + (if core.phase = c.phase then 0 else 1)
        ≤ c.work + ((taken i st).map Descriptor.readWork).sum := by
    intro core st ph next hph hno hnext hrem hle
    unfold work asked
    rw [hno, hrem, hph, hnext, if_neg Bool.false_ne_true, if_neg Bool.false_ne_true]
    omega
  have quiet : ∀ {ph : ReadPhase}, c.phase = ph → ph ≠ .issueBurst → i.arFires = false := by
    intro ph hph hne
    exact Bool.eq_false_iff.mpr fun hc => hne (hph.symm.trans (hfire hc))
  cases proceed_moves hproc with
  | rest hph _ => exact still .idle hph (quiet hph (by decide)) hph rfl (by decide)
  | take d hph hd =>
      have hph' : c.phase = .idle := hph
      have hrem := (hs.resting (Or.inl hph')).1
      have htaken : taken i { taken := true, push } = [d] := by
        unfold taken
        rw [if_pos rfl, hd]
        rfl
      rw [htaken, work, work, asked, quiet hph (by decide), hph', hrem]
      by_cases hz : d.words = 0
      · simp [hz, ReadPhase.weight, Descriptor.readWork]
      · simp [hz, ReadPhase.weight, Descriptor.readWork]
  | issue hph hyes hle =>
      have hph' : c.phase = .issueBurst := hph
      obtain ⟨hone, _, _⟩ := hf.burst (Or.inr (Or.inr hph'))
      obtain ⟨_, hbeats⟩ := hs.request (Or.inr hph')
      have hle' : c.burst ≤ c.remaining := hle
      have hleave : ¬ ReadPhase.transferBurst = .issueBurst := by decide
      rw [work, work, asked, hyes, if_pos rfl, if_pos rfl, hbeats, hph', if_neg hleave]
      simp only [ReadPhase.weight]
      omega
  | stall hph hno => exact still .issueBurst hph hno hph rfl (by decide)
  | size hph => exact still .clamping hph (quiet hph (by decide)) rfl rfl (by decide)
  | clamp hph => exact still .encoding hph (quiet hph (by decide)) rfl rfl (by decide)
  | encode _ hph _ => exact still .waitForCredit hph (quiet hph (by decide)) rfl rfl (by decide)
  | grant hph _ => exact still .issueBurst hph (quiet hph (by decide)) rfl rfl (by decide)
  | starve hph _ => exact still .waitForCredit hph (quiet hph (by decide)) rfl rfl (by decide)
  | again hph _ => exact still .sizing hph (quiet hph (by decide)) rfl rfl (by decide)
  | last hph _ => exact still .waitForCompletion hph (quiet hph (by decide)) rfl rfl (by decide)
  | await hph _ => exact still .waitForCompletion hph (quiet hph (by decide)) rfl rfl (by decide)
  | complete hph _ => exact still .done hph (quiet hph (by decide)) rfl rfl (by decide)
  | settle hph => exact still .idle hph (quiet hph (by decide)) rfl rfl (by decide)

/-- What a reader can wait for: a descriptor, places in its buffer, the bus, or its data. -/
inductive Waits (c : ReadCore) (i : ReadInputs) : Prop where
  | work : c.phase = .idle → i.desc = none → Waits c i
  | room : c.phase = .waitForCredit → i.fifoFree < c.pending.words + c.burst → Waits c i
  | bus : c.phase = .issueBurst → i.arFires = false → Waits c i
  | data : c.phase = .waitForCompletion → c.pending.isIdle = false → Waits c i

/-- **A reader that stays in its phase waits for something.** -/
theorem waits_next (hb : i.beat = none) (h : (c.next g i).result = .ok (c', step))
    (hsame : c'.phase = c.phase) : c.Waits i := by
  obtain ⟨⟨r, push⟩, hrec, h⟩ := Run.result_bind_eq_ok.mp h
  obtain ⟨⟨core, st⟩, hproc, h⟩ := Run.result_bind_eq_ok.mp h
  cases h
  have hbursts := receive_bursts hrec
  obtain ⟨⟨bursts, error, rfl⟩, _⟩ := receive_eq hrec
  rw [hb] at hbursts
  -- any other move leaves the phase
  have leaves : ∀ {ph : ReadPhase} (next : ReadPhase), c.phase = ph → next = c.phase → next ≠ ph →
      c.Waits i := by
    intro ph next hph hnext hne
    exact absurd (hnext.trans hph) hne
  cases proceed_moves hproc with
  | rest hph hd => exact .work hph hd
  | starve hph hlow => exact .room hph hlow
  | stall hph hno => exact .bus hph hno
  | await hph hbusy =>
      refine .data hph ?_
      rw [hb] at hbusy
      have hsame : bursts = c.pending.bursts := hbursts
      rw [hsame] at hbusy
      exact hbusy
  | take d hph _ =>
      refine leaves _ hph hsame ?_
      dsimp only
      split <;> decide
  | size hph => exact leaves .clamping hph hsame (by decide)
  | clamp hph => exact leaves .encoding hph hsame (by decide)
  | encode _ hph _ => exact leaves .waitForCredit hph hsame (by decide)
  | grant hph _ => exact leaves .issueBurst hph hsame (by decide)
  | issue hph _ _ => exact leaves .transferBurst hph hsame (by decide)
  | again hph _ => exact leaves .sizing hph hsame (by decide)
  | last hph _ => exact leaves .waitForCompletion hph hsame (by decide)
  | complete hph _ => exact leaves .done hph hsame (by decide)
  | settle hph => exact leaves .idle hph hsame (by decide)

end ReadCore

/-! ## Writers -/

/-- What an engine in a phase has before it until it has to look at the buffer. -/
def WritePhase.weight : WritePhase → Nat
  | .idle => 0
  | .done => 1
  | .waitForCompletion => 2
  | .transferBurst => 2
  | .issueBurst => 3
  | .waitForCredit => 4
  | .clamping => 5
  | .sizing => 6

namespace WriteCore

variable {g : Geometry} {c c' : WriteCore} {i : WriteInputs} {step : WriteStep}

/-- **A writer works the stream off.** What it has before it comes back only with a beat
that it sends, or with a descriptor. -/
theorem work_next (h : (c.next g i).result = .ok (c', step)) :
    c'.phase.weight + (if c'.phase = c.phase then 0 else 1)
      ≤ c.phase.weight + 5 * (if step.pop then 1 else 0) + 7 * (if step.taken then 1 else 0) := by
  obtain ⟨error, hm⟩ := next_moves h
  have still : ∀ {core : WriteCore} {st : WriteStep} {ph : WritePhase} (next : WritePhase),
      c.phase = ph → core.phase = next → next.weight + (if next = ph then 0 else 1) ≤ ph.weight →
      core.phase.weight + (if core.phase = c.phase then 0 else 1)
        ≤ c.phase.weight + 5 * (if st.pop then 1 else 0) + 7 * (if st.taken then 1 else 0) := by
    intro core st ph next hph hnext hle
    rw [hph, hnext]
    omega
  cases hm with
  | rest hph _ => exact still .idle hph hph (by decide)
  | starve hph _ => exact still .waitForCredit hph hph (by decide)
  | stall hph _ => exact still .issueBurst hph hph (by decide)
  | wait hph _ => exact still .transferBurst hph hph (by decide)
  | send _ hph _ _ => simp
  | take d hph _ =>
      have hph' : c.phase = .idle := hph
      rw [hph']
      dsimp only
      split <;> decide
  | close _ hph _ _ =>
      have hph' : c.phase = .transferBurst := hph
      rw [hph']
      dsimp only
      split <;> decide
  | size hph => exact still .clamping hph rfl (by decide)
  | clamp hph => exact still .waitForCredit hph rfl (by decide)
  | offer _ _ _ hph _ _ => exact still .issueBurst hph rfl (by decide)
  | issue _ hph _ => exact still .transferBurst hph rfl (by decide)
  | await hph _ => exact still .waitForCompletion hph rfl (by decide)
  | complete hph _ => exact still .done hph rfl (by decide)
  | settle hph => exact still .idle hph rfl (by decide)

/-- What a writer can wait for: a descriptor, words in its buffer, the bus, or its
answers. -/
inductive Waits (c : WriteCore) (i : WriteInputs) : Prop where
  | work : c.phase = .idle → i.desc = none → Waits c i
  | words : c.phase = .waitForCredit → c.sized? i = none → Waits c i
  | bus : c.phase = .issueBurst → i.awFires = false → Waits c i
  | beat : c.phase = .transferBurst → i.wFires = false → Waits c i
  | answer : c.phase = .waitForCompletion → c.outstanding ≠ 0 → Waits c i

/-- **A writer that stays in its phase and sends nothing waits for something.** -/
theorem waits_next (hb : i.b = none) (h : (c.next g i).result = .ok (c', step))
    (hsame : c'.phase = c.phase) (hpop : step.pop = false) : c.Waits i := by
  obtain ⟨error, hm⟩ := next_moves h
  rw [hb] at hm
  -- any other move leaves the phase
  have leaves : ∀ {ph : WritePhase} (next : WritePhase), c.phase = ph → next = c.phase → next ≠ ph →
      c.Waits i := by
    intro ph next hph hnext hne
    exact absurd (hnext.trans hph) hne
  cases hm with
  | rest hph hd => exact .work hph hd
  | starve hph hs => exact .words hph hs
  | stall hph hno => exact .bus hph hno
  | wait hph hno => exact .beat hph hno
  | await hph hopen => exact .answer hph hopen
  | send _ hph _ _ => cases hpop
  | close _ hph _ _ => cases hpop
  | take d hph _ =>
      refine leaves _ hph hsame ?_
      dsimp only
      split <;> decide
  | size hph => exact leaves .clamping hph hsame (by decide)
  | clamp hph => exact leaves .waitForCredit hph hsame (by decide)
  | offer _ _ _ hph _ _ => exact leaves .issueBurst hph hsame (by decide)
  | issue _ hph _ => exact leaves .transferBurst hph hsame (by decide)
  | complete hph _ => exact leaves .done hph hsame (by decide)
  | settle hph => exact leaves .idle hph hsame (by decide)

end WriteCore

/-! ## Ports -/

namespace Machine

variable {params : MachineParams} {s s' : Machine} {slave : ReadSlave} {i : Nat} {p p' : Port}
  {rstep : ReadStep} {wstep : WriteStep}

/-- What the reader of port `i` has before it. A word to be sent passes the memory, the
register of the data and the buffer; a request waits at its port and before the memory. -/
def readWork (s : Machine) (i : Nat) (p : Port) : Nat :=
  p.reader.core.work + (p.readRegs.holding.toList.map Descriptor.readWork).sum
    + 3 * (s.unsent i).length + 2 * (s.held i).length + p.readFifo.beats.length
    + 2 * (s.readArbiter.waiting i).length
    + (s.readArbiter.granted.contents.filter (·.id == i)).length

/-- For the reader of port `i` nothing moves, wherever it is. -/
structure ReadStill (s : Machine) (slave : ReadSlave) (i : Nat) (p p' : Port) : Prop where
  phase : p'.reader.core.phase = p.reader.core.phase
  received : (s.readBus slave i p).rFired = none
  sent : ∀ b, (s.reads slave).down.rFired = some b → b.id ≠ i
  granted : ∀ r, (s.reads slave).grant = some r → r.id ≠ i
  queued : ∀ r, (s.reads slave).down.arFired = some r → r.id ≠ i
  drained : p'.readFifo.beats.length = p.readFifo.beats.length

/-- A request goes from its port to the arbiter, and from there to the memory. -/
theorem requests_flow (hf : s.ReadPathFormed) (h : s.Edge slave s') (hp : s.ports[i]? = some p) :
    (s.readArbiter.waiting i).length + (s.readBus slave i p).arFired.toList.length
        = ((s.reads slave).grant.toList.filter (·.id == i)).length
          + (s'.readArbiter.waiting i).length
      ∧ (s.readArbiter.granted.contents.filter (·.id == i)).length
          + ((s.reads slave).grant.toList.filter (·.id == i)).length
        = ((s.reads slave).down.arFired.toList.filter (·.id == i)).length
          + (s'.readArbiter.granted.contents.filter (·.id == i)).length := by
  have hedge : s.readArbiter.Edge (s.readArbiter.resolve (s.ports.map (·.readWires)) slave)
      s'.readArbiter := ReadArbiter.tick_edge h.readArbiter
  have hm : (s.ports.map (·.readWires))[i]? = some p.readWires := by simp [hp]
  obtain ⟨_, _, _, hinputs⟩ := ReadArbiter.inputs_flow hf.arbiter (by simp) hedge
  obtain ⟨_, _, hgranted⟩ := ReadArbiter.granted_flow hf.arbiter hedge
  have hwait := congrArg List.length (hinputs i _ hm)
  have hfilter := congrArg (fun l => (l.filter (fun r : AddrReq => r.id == i)).length) hgranted
  have hcount : ((s.reads slave).grant.toList.filter (·.id == i)).length
      = (s.readArbiter.grantTo (s.ports.map (·.readWires)) slave i).toList.length := by
    rw [← ReadArbiter.count_map_eq]
    exact ReadArbiter.grant_count i
  simp only [List.filter_append, List.length_append] at hwait hfilter
  refine ⟨?_, hfilter⟩
  rw [hcount]
  exact hwait

/-- A beat enters the buffer of a reader when it arrives, and the sink only takes. -/
theorem readFifo_length (hs : p.reader.core.Sound (s.awaited i))
    (h : p.Edge (s.readBus slave i p) (s.writeBus i p) rstep wstep p') :
    p'.readFifo.beats.length
      ≤ p.readFifo.beats.length + (s.readBus slave i p).rFired.toList.length := by
  obtain ⟨hcore, _⟩ := ReadEngine.tick_core h.reader
  obtain ⟨hoffer, _⟩ := s.arFired_readBus slave i p
  obtain ⟨hpush, _⟩ := ReadCore.next_transfer hs hoffer hcore
  obtain ⟨_, hdrain⟩ := h.drain
  obtain ⟨_, _, _, hlen⟩ := Sink.tick_contents hdrain
  refine Nat.le_trans hlen ?_
  cases hb : (s.readBus slave i p).rFired with
  | none =>
      have hnone : rstep.push = none := by
        rw [hpush]
        exact congrArg (Option.map _) hb
      rw [hnone]
      exact Nat.le_refl _
  | some b =>
      cases hfit : rstep.push.bind p.readFifo.push? with
      | none => exact Nat.le_add_right _ _
      | some f =>
          obtain ⟨beat, _, hf⟩ := Option.bind_eq_some_iff.mp hfit
          rw [Option.getD_some, (Fifo.push?_eq_some hf).2.1, List.length_append]
          exact Nat.le_refl _

/-- The register file gives away what the reader takes. -/
theorem holding_edge (h : p.Edge (s.readBus slave i p) (s.writeBus i p) rstep wstep p') :
    (p'.readRegs.holding.toList.map Descriptor.readWork).sum
        + ((ReadCore.taken (p.readInputs (s.readBus slave i p)) rstep).map
          Descriptor.readWork).sum
      ≤ (p.readRegs.holding.toList.map Descriptor.readWork).sum := by
  rw [h.readRegs, Port.nextRegs_holding]
  unfold ReadCore.taken
  cases rstep.taken with
  | false => simp
  | true =>
      rw [if_pos rfl, if_pos rfl]
      unfold Port.readInputs
      dsimp only
      split
      · simp
      · simp

/-- **A clock cycle adds nothing to the work of a reader, and takes from it whatever it
moves.** -/
theorem readWork_edge (hr : Machine.Reachable params s) (h : s.Edge slave s')
    (hp : s.ports[i]? = some p)
    (hedge : p.Edge (s.readBus slave i p) (s.writeBus i p) rstep wstep p') :
    s'.readWork i p' ≤ s.readWork i p
      ∧ (s'.readWork i p' = s.readWork i p → s.ReadStill slave i p p') := by
  have hf := hr.formed.reads
  obtain ⟨hsound, _⟩ := (credited_reachable hr).2 i p hp
  have hfits := ((bounded_reachable hr).port i p hp).reader
  obtain ⟨hcore, _⟩ := ReadEngine.tick_core hedge.reader
  obtain ⟨q, _, hbuilt⟩ := hr.formed.port i p hp
  rw [hbuilt.readGeometry] at hcore
  obtain ⟨hoffer, _⟩ := s.arFired_readBus slave i p
  -- every station hands on what it does not keep
  have hwork := ReadCore.work_next hsound hfits hoffer hcore
  have hhold := holding_edge hedge
  have hfifo := readFifo_length hsound hedge
  obtain ⟨hwaiting, hgranted⟩ := requests_flow hf h hp
  obtain ⟨sent, hsends, _, hunsent, hheld⟩ := read_flow hf h hp
  have hwords := congrArg List.length hunsent
  have hbeats := congrArg List.length hheld
  have hasked := s.asked_length slave i p
  have hfires : (if (p.readInputs (s.readBus slave i p)).arFires then 2 else 0)
      = 2 * (s.readBus slave i p).arFired.toList.length := by
    show (if (s.readBus slave i p).arFired.isSome then 2 else 0) = _
    cases (s.readBus slave i p).arFired <;> rfl
  simp only [List.length_append, List.length_map] at hwords hbeats
  rw [hfires] at hwork
  refine ⟨?_, fun hsame => ?_⟩
  · unfold readWork
    omega
  · unfold readWork at hsame
    have hphase : p'.reader.core.phase = p.reader.core.phase := by
      by_contra hne
      rw [if_neg hne] at hwork
      omega
    have hsent : sent = [] := List.eq_nil_of_length_eq_zero (by omega)
    have hgrant : (s.reads slave).grant.toList.filter (·.id == i) = [] :=
      List.eq_nil_of_length_eq_zero (by omega)
    have hqueue : (s.reads slave).down.arFired.toList.filter (·.id == i) = [] :=
      List.eq_nil_of_length_eq_zero (by omega)
    refine ⟨hphase, ?_, ?_, ?_, ?_, by omega⟩
    · exact Option.toList_eq_nil_iff.mp (List.eq_nil_of_length_eq_zero (by omega))
    · intro b hb hid
      rw [hsent, List.map_nil, Moment.memorySends, Moment.wires?_tick h.drives,
        Option.bind_some, hb] at hsends
      simp [hid] at hsends
    · intro r hr' hid
      rw [hr'] at hgrant
      simp [hid] at hgrant
    · intro r hr' hid
      rw [hr'] at hqueue
      simp [hid] at hqueue

/-! ### Writers -/

/-- What the writer of port `i` has before it: its transfer, the one that waits, every beat
of its stream, and the answer of the bus. -/
def writeWork (s : Machine) (i : Nat) (p : Port) : Nat :=
  p.writer.core.phase.weight + 7 * p.writeRegs.holding.toList.length
    + 7 * p.writeFifo.beats.length + 8 * p.source.queue.length
    + (if s.writeArbiter.lock = .responseChannel i then 1 else 0)

/-- For the writer of port `i` nothing moves. -/
structure WriteStill (s : Machine) (i : Nat) (p p' : Port) (wstep : WriteStep) : Prop where
  phase : p'.writer.core.phase = p.writer.core.phase
  kept : wstep.pop = false
  answered : (s.writeBus i p).bFired = none
  fed : p'.source.queue.length = p.source.queue.length

/-- A port waits for its answer from its last word on until the answer is there. -/
theorem answer_flow (hm : WriteMove s s') (hp : s.ports[i]? = some p)
    (h : p.Edge (s.readBus slave i p) (s.writeBus i p) rstep wstep p') :
    (if s'.writeArbiter.lock = .responseChannel i then 1 else 0)
        + (s.writeBus i p).bFired.toList.length
      ≤ (if s.writeArbiter.lock = .responseChannel i then 1 else 0)
        + if wstep.pop then 1 else 0 := by
  cases hm with
  | rest hfires hlock _ _ _ =>
      rw [(hfires i p hp).b, hlock]
      exact Nat.le_add_right _ _
  | start id q _ _ hfires _ hl' _ _ _ =>
      rw [(hfires i p hp).b, hl']
      exact Nat.zero_le _
  | send id q head _ _ _ hfires _ hl' _ _ _ =>
      rw [(hfires i p hp).b, hl']
      exact Nat.zero_le _
  | close id q head r _ _ _ hfires hl hl' _ _ _ =>
      have hf := hfires i p hp
      obtain ⟨_, _, _, _, hpop, _⟩ := fires_edge hf h
      rw [hf.b, hpop, hl, hl']
      by_cases hi : i = id
      · simp [hi]
      · simp [Ne.symm hi]
  | answer id resp hfires hl hl' _ =>
      rw [(hfires i p hp).b, hl, hl']
      by_cases hi : i = id
      · simp [hi]
      · simp [hi]

/-- **A clock cycle adds nothing to the work of a writer, and takes from it whatever it
moves.** -/
theorem writeWork_edge (ho : s.WriteOrderly) (h : s.Edge slave s') (hp : s.ports[i]? = some p)
    (hedge : p.Edge (s.readBus slave i p) (s.writeBus i p) rstep wstep p') :
    s'.writeWork i p' ≤ s.writeWork i p
      ∧ (s'.writeWork i p' = s.writeWork i p → s.WriteStill i p p' wstep) := by
  obtain ⟨hcore, _⟩ := WriteEngine.tick_core hedge.writer
  obtain ⟨hm, _⟩ := write_move ho h
  have hwork := WriteCore.work_next hcore
  have hlock := answer_flow hm hp hedge
  -- what the engine takes leaves the register file
  have hhold : p'.writeRegs.holding.toList.length + (if wstep.taken then 1 else 0)
      = p.writeRegs.holding.toList.length := by
    rw [hedge.writeRegs, Port.nextRegs_holding]
    cases ht : wstep.taken with
    | false => rfl
    | true =>
        obtain ⟨d, hd⟩ := WriteCore.desc_of_taken hcore ht
        have hheld : p.writeRegs.holding = some d := by
          dsimp only [Port.writeInputs] at hd
          split at hd
          · exact hd
          · cases hd
        rw [hheld]
        rfl
  -- a beat that is sent leaves the buffer, and the source fills it up
  obtain ⟨more, hbeats, hqueue⟩ := hedge.moves
  have hfifo : p'.writeFifo.beats.length + (if wstep.pop then 1 else 0)
      = p.writeFifo.beats.length + more.length := by
    rw [hbeats, List.length_append]
    cases hpop : wstep.pop with
    | false => exact Nat.add_zero _
    | true =>
        have hfire : (s.writeBus i p).wFired.isSome = true :=
          (served_edge hedge).pop.symm.trans hpop
        obtain ⟨head, hhead⟩ :=
          Option.isSome_iff_exists.mp ((s.phase_of_fires i p).2 hfire).2
        obtain ⟨rest, hcons⟩ := List.head?_eq_some_iff.mp hhead
        rw [hcons, if_pos rfl, if_pos rfl, List.tail_cons, List.length_cons]
        omega
  have hlen := congrArg List.length hqueue
  rw [List.length_append] at hlen
  unfold writeWork
  refine ⟨by omega, fun hsame => ⟨?_, ?_, ?_, by omega⟩⟩
  · by_contra hne
    rw [if_neg hne] at hwork
    omega
  · refine Bool.eq_false_iff.mpr fun hpop => ?_
    rw [if_pos hpop] at hwork hlock hfifo
    omega
  · exact Option.toList_eq_nil_iff.mp (List.eq_nil_of_length_eq_zero (by omega))

/-! ## The machine -/

/-- The work of port `i`. -/
def workAt (s : Machine) (i : Nat) : Nat :=
  (s.ports[i]?).elim 0 fun p => s.readWork i p + s.writeWork i p

/-- The work of all ports. -/
def work (s : Machine) : Nat :=
  ∑ i ∈ Finset.range s.ports.length, s.workAt i

/-- A clock cycle that moves nothing. -/
structure Still (s : Machine) (slave : ReadSlave) (s' : Machine) : Prop where
  sent : (s.reads slave).down.rFired = none
  queued : (s.reads slave).down.arFired = none
  granted : (s.reads slave).grant = none
  port : ∀ (i : Nat) (p : Port), s.ports[i]? = some p → ∃ rstep wstep p',
    s'.ports[i]? = some p'
      ∧ p.Edge (s.readBus slave i p) (s.writeBus i p) rstep wstep p'
      ∧ s.ReadStill slave i p p' ∧ s.WriteStill i p p' wstep

theorem workAt_edge (hr : Machine.Reachable params s) (h : s.Edge slave s')
    (hp : s.ports[i]? = some p) :
    s'.workAt i ≤ s.workAt i ∧ (s'.workAt i = s.workAt i → ∃ rstep wstep p',
      s'.ports[i]? = some p'
        ∧ p.Edge (s.readBus slave i p) (s.writeBus i p) rstep wstep p'
        ∧ s.ReadStill slave i p p' ∧ s.WriteStill i p p' wstep) := by
  obtain ⟨rstep, wstep, p', hp', hedge⟩ := h.port i p hp
  obtain ⟨hread, hreadStill⟩ := readWork_edge hr h hp hedge
  obtain ⟨hwrite, hwriteStill⟩ := writeWork_edge (writeOrderly_reachable hr) h hp hedge
  unfold workAt
  rw [hp, hp', Option.elim_some, Option.elim_some]
  refine ⟨Nat.add_le_add hread hwrite, fun hsame => ⟨rstep, wstep, p', rfl, hedge, ?_, ?_⟩⟩
  · exact hreadStill (by omega)
  · exact hwriteStill (by omega)

/-- **If nothing moves at any port, nothing moves between them.** -/
theorem still_of_ports (hr : Machine.Reachable params s) (h : s.Edge slave s')
    (hport : ∀ (i : Nat) (p : Port), s.ports[i]? = some p → ∃ rstep wstep p',
      s'.ports[i]? = some p'
        ∧ p.Edge (s.readBus slave i p) (s.writeBus i p) rstep wstep p'
        ∧ s.ReadStill slave i p p' ∧ s.WriteStill i p p' wstep) : s.Still slave s' := by
  obtain ⟨hf, hm⟩ := mirrored_reachable hr
  have hedge : s.readArbiter.Edge (s.readArbiter.resolve (s.ports.map (·.readWires)) slave)
      s'.readArbiter := ReadArbiter.tick_edge h.readArbiter
  have hdown : s.memory.readWires = .ok (s.reads slave).down.slave := h.drives
  -- whatever moves carries the number of a port
  have noGrant : (s.reads slave).grant = none := by
    cases hg : (s.reads slave).grant with
    | none => rfl
    | some r =>
        obtain ⟨p, _, hp, _⟩ := granted_port hf.reads hg
        obtain ⟨_, _, _, _, _, hread, _⟩ := hport r.id p hp
        exact absurd rfl (hread.granted r hg)
  refine ⟨?_, ?_, noGrant, hport⟩
  · cases hb : (s.reads slave).down.rFired with
    | none => rfl
    | some b =>
        obtain ⟨job, rest, hcons, hid, _⟩ := Memory.sends?_of_fired hdown hb
        have hlt : b.id < s.ports.length := by
          refine inFlight_lt hm ?_
          unfold inFlight
          rw [hcons, hid]
          simp
        obtain ⟨_, _, _, _, _, hread, _⟩ := hport b.id _ (List.getElem?_eq_getElem hlt)
        exact absurd rfl (hread.sent b hb)
  · cases hq : (s.reads slave).down.arFired with
    | none => rfl
    | some r =>
        have hflow : s.readArbiter.granted.contents ++ (s.reads slave).grant.toList
            = (s.reads slave).down.arFired.toList ++ s'.readArbiter.granted.contents :=
          (ReadArbiter.granted_flow hf.reads.arbiter hedge).2.2
        rw [noGrant, hq] at hflow
        have hlt : r.id < s.ports.length := by
          refine inFlight_lt hm ?_
          unfold inFlight
          rw [show s.readArbiter.granted.contents = _ from (List.append_nil _).symm.trans hflow]
          simp
        obtain ⟨_, _, _, _, _, hread, _⟩ := hport r.id _ (List.getElem?_eq_getElem hlt)
        exact absurd rfl (hread.queued r hq)

/-- **A clock cycle takes from the work, or it moves nothing.** -/
theorem work_edge (hr : Machine.Reachable params s) (h : s.Edge slave s') :
    s'.work < s.work ∨ s'.work = s.work ∧ s.Still slave s' := by
  have hle : ∀ i ∈ Finset.range s.ports.length, s'.workAt i ≤ s.workAt i := by
    intro i hi
    exact (workAt_edge hr h (List.getElem?_eq_getElem (Finset.mem_range.mp hi))).1
  have hsum : s'.work = ∑ i ∈ Finset.range s.ports.length, s'.workAt i := by
    unfold work
    rw [h.length]
  rw [hsum]
  rcases Nat.lt_or_eq_of_le (Finset.sum_le_sum hle) with hlt | heq
  · exact Or.inl hlt
  · have hsame := (Finset.sum_eq_sum_iff_of_le hle).mp heq
    refine Or.inr ⟨heq, still_of_ports hr h fun i p hp => ?_⟩
    have hi := Finset.mem_range.mpr (List.getElem?_eq_some_iff.mp hp).1
    exact (workAt_edge hr h hp).2 (hsame i hi)

end Machine

end BurstDma
