import BurstDma.Proofs.Delay
import BurstDma.Proofs.Supply

/-!
# Nothing waits for ever

Everyone in the machine may have to wait for another. Here nothing moves and no delay is
left, and the question is who can still be waiting. The answer starts at the far end of each
path, where there is nobody left to wait for. Data that comes back would be taken, so there
is none; then the memory has no burst to answer; then it takes the next request, so none is
on its way; then the arbiter has a place for one more, so no reader offers any. On the write
bus an open burst has its words and an answer comes when it is due, so no burst is open, and
then no writer offers one.

What is left is an engine that waits for its buffer, and **a buffer of the longest burst is
large enough for either side**: an empty one has room for a burst, and a supplied one holds
one. So the engines are idle, and with them the machine: `rest_of_expired`.
-/

namespace BurstDma

namespace Memory

variable {m : Memory} {slave : ReadSlave}

/-- A read burst that is due is answered. -/
theorem answers_due (h : m.readWires = .ok slave) (hdelay : m.readDelay = 0)
    (hjobs : m.reads ≠ []) : ∃ b, slave.r = some b := by
  obtain ⟨job, rest, hcons⟩ := List.exists_cons_of_ne_nil hjobs
  have hdue : decide (job.readyAt ≤ m.cycle) = true := by
    unfold readDelay at hdelay
    rw [hcons] at hdelay
    exact decide_eq_true (Nat.le_of_sub_eq_zero hdelay)
  unfold readWires at h
  rw [hcons, List.head?_cons, Option.filter_some, if_pos hdue] at h
  obtain ⟨b, _, h⟩ := except_bind_eq_ok.mp h
  cases h
  exact ⟨b, rfl⟩

theorem arReady_of_idle (h : m.readWires = .ok slave) (hjobs : m.reads = [])
    (hpos : 0 < m.params.readOutstanding) : slave.arReady = true := by
  rw [arReady_eq h, hjobs]
  exact decide_eq_true hpos

end Memory

/-- An idle memory has nothing in flight. -/
theorem Memory.isIdle_iff {m : Memory} : m.isIdle = true ↔
    m.reads = [] ∧ m.aw = none ∧ m.collected = [] ∧ m.response = none := by
  unfold isIdle
  simp only [Bool.and_eq_true, List.isEmpty_iff, Option.isNone_iff_eq_none, and_assoc]

/-- An idle arbiter knows of no burst in flight, and its registers are empty. -/
theorem ReadArbiter.isIdle_iff {a : ReadArbiter} : a.isIdle = true ↔
    a.owners.ids = [] ∧ a.granted = {} ∧ a.data = {} ∧ ∀ skid ∈ a.inputs, skid = {} := by
  unfold isIdle Ownership.isEmpty
  simp only [Bool.and_eq_true, List.isEmpty_iff, List.all_eq_true, Skid.isEmpty_iff, and_assoc]

/-- Nothing is left to do at a port, and its source has nothing for it. -/
structure Port.Quiet (p : Port) : Prop where
  reader : p.reader.isIdle = true
  writer : p.writer.isIdle = true
  readHolding : p.readRegs.holding = none
  writeHolding : p.writeRegs.holding = none
  readFifo : p.readFifo.beats = []
  writeFifo : p.writeFifo.beats = []
  queue : p.source.queue = []

theorem Port.quiet_iff {p : Port} :
    (p.isQuiescent && p.source.isDrained) = true ↔ p.Quiet := by
  unfold isQuiescent Source.isDrained Fifo.isEmpty
  simp only [Bool.and_eq_true, Option.isNone_iff_eq_none, List.isEmpty_iff]
  constructor
  · rintro ⟨⟨⟨⟨⟨⟨hr, hw⟩, hrh⟩, hwh⟩, hrf⟩, hwf⟩, hq⟩
    exact ⟨hr, hw, hrh, hwh, hrf, hwf, hq⟩
  · rintro ⟨hr, hw, hrh, hwh, hrf, hwf, hq⟩
    exact ⟨⟨⟨⟨⟨⟨hr, hw⟩, hrh⟩, hwh⟩, hrf⟩, hwf⟩, hq⟩

namespace Machine

variable {params : MachineParams} {s s' : Machine} {slave : ReadSlave} {i : Nat} {p : Port}

/-! ## Reads -/

/-- Any machine can have a read in flight. -/
theorem readOutstanding_pos (hr : Machine.Reachable params s) :
    0 < s.memory.params.readOutstanding
      ∧ s.readArbiter.owners.depth = s.memory.params.readOutstanding := by
  obtain ⟨_, hm⟩ := mirrored_reachable hr
  obtain ⟨s₀, past, h₀, h⟩ := hr
  rw [(h.counted h₀).memory.params]
  exact ⟨readOutstanding_ofParams h₀, hm.depth⟩

/-- No data is offered to a port: it would be taken. -/
theorem Still.incoming (hr : Machine.Reachable params s) (h : s.Edge slave s')
    (hs : s.Still slave s') : s.readArbiter.incoming slave = none := by
  obtain ⟨hf, hm⟩ := mirrored_reachable hr
  cases hb : s.readArbiter.incoming slave with
  | none => rfl
  | some b =>
      obtain ⟨⟨p, hp, hfired⟩, _⟩ := beat_delivered hf.reads hm h.drives hb
      obtain ⟨_, _, _, _, _, hread, _⟩ := hs.port b.id p hp
      rw [hread.received] at hfired
      cases hfired

theorem Still.data (hr : Machine.Reachable params s) (h : s.Edge slave s')
    (hs : s.Still slave s') : s.readArbiter.data.contents = [] := by
  have hf := hr.formed.reads.arbiter
  have hnone := hs.incoming hr h
  unfold ReadArbiter.incoming at hnone
  cases hreg : s.readArbiter.outputRegister with
  | true =>
      rw [hreg, if_pos rfl] at hnone
      exact Skid.empty_of_packed hf.packedData hnone
  | false => exact (hf.bypassOutputs hreg).2

/-- The memory has no read burst: it would answer it. -/
theorem Still.jobs (hr : Machine.Reachable params s) (h : s.Edge slave s')
    (hs : s.Still slave s') (hdelay : s.memory.readDelay = 0) : s.memory.reads = [] := by
  by_contra hjobs
  obtain ⟨b, hb⟩ := Memory.answers_due h.drives hdelay hjobs
  cases hreg : s.readArbiter.outputRegister with
  | true =>
      have hready : (s.reads slave).down.master.rReady = true := by
        show (s.readArbiter.toMemory (s.ports.map (·.readWires))).rReady = true
        unfold ReadArbiter.toMemory
        dsimp only
        rw [hreg, if_pos rfl, Skid.eq_of_empty (hs.data hr h)]
        rfl
      have hsent := hs.sent
      unfold ReadBus.rFired at hsent
      rw [if_pos hready] at hsent
      rw [show (s.reads slave).down.slave.r = some b from hb] at hsent
      cases hsent
  | false =>
      have hnone := hs.incoming hr h
      unfold ReadArbiter.incoming at hnone
      rw [hreg, if_neg Bool.false_ne_true, hb] at hnone
      cases hnone

/-- No granted request waits for the memory: it would be taken. -/
theorem Still.granted_empty (hr : Machine.Reachable params s) (h : s.Edge slave s')
    (hs : s.Still slave s') (hdelay : s.memory.readDelay = 0) :
    s.readArbiter.granted.contents = [] := by
  have hf := hr.formed.reads.arbiter
  have hready := Memory.arReady_of_idle h.drives (hs.jobs hr h hdelay) (readOutstanding_pos hr).1
  cases hreg : s.readArbiter.outputRegister with
  | true =>
      refine Skid.empty_of_packed hf.packedGranted ?_
      have hqueued := hs.queued
      unfold ReadBus.arFired at hqueued
      rw [if_pos (show (s.reads slave).down.slave.arReady = true from hready)] at hqueued
      have hpeek : (s.reads slave).down.master.ar = s.readArbiter.granted.first := by
        show (s.readArbiter.toMemory (s.ports.map (·.readWires))).ar = _
        unfold ReadArbiter.toMemory
        dsimp only
        rw [hreg, if_pos rfl]
        rfl
      exact hpeek.symm.trans hqueued
  | false => exact (hf.bypassOutputs hreg).1

/-- The owners are in flight, and nothing is. -/
theorem Still.owners (hr : Machine.Reachable params s) (h : s.Edge slave s')
    (hs : s.Still slave s') (hdelay : s.memory.readDelay = 0) :
    s.readArbiter.owners.ids = [] := by
  obtain ⟨_, hm⟩ := mirrored_reachable hr
  rw [hm.owners, inFlight, hs.data hr h, hs.jobs hr h hdelay, hs.granted_empty hr h hdelay]
  rfl

/-- No port competes for the read bus: the one whose turn it is would win. -/
theorem Expired.reads_unasked (he : s.Expired) (hr : Machine.Reachable params s)
    (h : s.Edge slave s') (hs : s.Still slave s') {k : Nat} (hk : k < s.ports.length) :
    s.readAsks k = false := by
  obtain ⟨hpos, hdepth⟩ := readOutstanding_pos hr
  refine Bool.eq_false_iff.mpr fun hask => ?_
  have hturn := he.readTurn k hk hask
  have hopen : s.readArbiter.owners.isFull = false := by
    unfold Ownership.isFull Ownership.size
    rw [hs.owners hr h he.reads, hdepth, decide_eq_false_iff_not]
    exact Nat.not_le.mpr hpos
  have haccepts : s.readArbiter.accepts slave = true := by
    unfold ReadArbiter.accepts
    rw [Skid.eq_of_empty (hs.granted_empty hr h he.reads),
      Memory.arReady_of_idle h.drives (hs.jobs hr h he.reads) hpos]
    exact ite_self _
  have hgrant : (s.reads slave).grant = s.readArbiter.selectedOffer (s.ports.map (·.readWires)) := by
    show (if !s.readArbiter.owners.isFull && s.readArbiter.accepts slave then _ else none) = _
    rw [hopen, haccepts]
    rfl
  rw [← offer_isSome hr.formed.reads, Option.isSome_iff_exists] at hturn
  obtain ⟨offer, hoffer⟩ := hturn
  have hnone := hs.granted
  rw [hgrant, ReadArbiter.selectedOffer, hoffer] at hnone
  cases hnone

/-- No request is left, at the arbiter or at a port: it would be accepted. -/
theorem Expired.unrequested (he : s.Expired) (hr : Machine.Reachable params s)
    (h : s.Edge slave s') (hs : s.Still slave s') (hp : s.ports[i]? = some p) :
    s.readArbiter.waiting i = [] ∧ p.reader.core.phase ≠ .issueBurst := by
  have hf := hr.formed.reads.arbiter
  have hlt := (List.getElem?_eq_some_iff.mp hp).1
  have hask := he.reads_unasked hr h hs hlt
  unfold readAsks at hask
  cases hreg : s.readArbiter.inputRegister with
  | true =>
      rw [hreg, if_pos rfl, Bool.not_eq_false', List.isEmpty_iff] at hask
      refine ⟨hask, fun hph => ?_⟩
      -- an empty register is ready
      obtain ⟨_, _, _, _, hedge, hread, _⟩ := hs.port i p hp
      obtain ⟨skid, hskid⟩ : ∃ skid, s.readArbiter.inputs[i]? = some skid :=
        ⟨_, List.getElem?_eq_getElem (hf.inputs.symm ▸ hlt)⟩
      unfold ReadArbiter.waiting at hask
      rw [hskid, Option.map_some, Option.getD_some] at hask
      have hready : (s.readArbiter.toRequester slave i).arReady = true := by
        unfold ReadArbiter.toRequester
        dsimp only
        rw [hreg, if_pos rfl, hskid, Skid.eq_of_empty hask]
        rfl
      have hfired : (s.readBus slave i p).arFired = p.readWires.ar := if_pos hready
      have hoffer : p.readWires.ar = some p.reader.core.request := if_pos hph
      rw [hread.request hedge, hoffer] at hfired
      cases hfired
  | false =>
      rw [hreg, if_neg Bool.false_ne_true, hp, Option.any_some, beq_eq_false_iff_ne] at hask
      exact ⟨ReadArbiter.waiting_eq_nil (hf.bypassInputs hreg), hask⟩

/-- **A reader is idle.** What it asked for has arrived, and an empty buffer has room for
what it asks for next. -/
theorem Expired.reader_idle (he : s.Expired) (hr : Machine.Reachable params s)
    (h : s.Edge slave s') (hs : s.Still slave s') (hp : s.ports[i]? = some p)
    (hdepth : maxBurstWords ≤ p.readFifo.capacity ∧ p.readFifo.capacity < limit32) :
    p.reader.core.phase = .idle ∧ p.readRegs.holding = none := by
  obtain ⟨_, hm⟩ := mirrored_reachable hr
  obtain ⟨hsound, _⟩ := (credited_reachable hr).2 i p hp
  have hfits := ((bounded_reachable hr).port i p hp).reader
  obtain ⟨hwaiting, hoffer⟩ := he.unrequested hr h hs hp
  obtain ⟨_, _, _, _, hedge, hread, _⟩ := hs.port i p hp
  obtain ⟨hcore, _⟩ := ReadEngine.tick_core hedge.reader
  have hwords : p.reader.core.pending.words = 0 := by
    rw [hsound.pending, awaited, unsent, held, Memory.unsent, hs.data hr h,
      hs.jobs hr h he.reads, hs.granted_empty hr h he.reads, hwaiting]
    rfl
  have hbursts : p.reader.core.pending.bursts = 0 := by
    rw [hm.counted i p hp, hs.owners hr h he.reads, hwaiting]
    rfl
  cases ReadCore.waits_next hread.received hcore hread.phase with
  | work hph hd =>
      have hready : p.reader.core.outputs.descReady = true := beq_iff_eq.mpr hph
      dsimp only [Port.readInputs] at hd
      rw [hready, if_pos rfl] at hd
      exact ⟨hph, hd⟩
  | room hph hlow =>
      obtain ⟨_, hburst, _⟩ := hfits.burst (Or.inr (Or.inl hph))
      have hfree : p.readFifo.free = p.readFifo.capacity := by
        rw [Fifo.free_eq_room hdepth.2, Fifo.room, (he.port i p hp).drained]
        rfl
      have hlow' : p.readFifo.free < p.reader.core.pending.words + p.reader.core.burst := hlow
      omega
  | bus hph _ => exact absurd hph hoffer
  | data hph hbusy =>
      unfold Pending.isIdle at hbusy
      rw [hwords, hbursts] at hbusy
      cases hbusy

/-! ## Writes -/

/-- No burst is open. One that is being sent has its words in the buffer, and one that was
sent is answered when the answer is due. -/
theorem Expired.lock_free (he : s.Expired) (hr : Machine.Reachable params s)
    (h : s.Edge slave s') (hs : s.Still slave s') : s.writeArbiter.lock = .select := by
  have ho := writeOrderly_reachable hr
  obtain ⟨hfires, _⟩ := hs.writes hr h
  have hstage := ho.stage
  cases hl : s.writeArbiter.lock with
  | select => rfl
  | addressChannel id =>
      rw [hl] at hstage
      cases hstage
  | writeChannel id addrDone =>
      rw [hl] at hstage
      cases hstage
      obtain ⟨p, hp, _, _, hw, _⟩ := owner_of_data ho hl
      have hph := (ho.port id p hp).sending.mpr hl
      have hbeat := ((bounded_reachable hr).port id p hp).writer.beat hph
      obtain ⟨_, hheld⟩ := backed_reachable hr id p hp
      unfold WriteCore.openWords at hheld
      rw [if_pos hph] at hheld
      obtain ⟨head, rest, hcons⟩ :=
        List.exists_cons_of_length_pos (l := p.writeFifo.beats) (by omega)
      have hfire := (hfires id p hp).w
      rw [hw, Fifo.head?, hcons] at hfire
      cases hfire
  | responseChannel id =>
      rw [hl] at hstage
      obtain ⟨hlt, resp, due, _, _, _, hresp⟩ := hstage.answer_inv
      have hp := List.getElem?_eq_getElem hlt
      have howner : s.writeArbiter.owner = id := WriteArbiter.owner_eq hl
      have hdue : due ≤ s.memory.cycle := by
        have hdelay := he.response
        unfold Memory.writeDelay at hdelay
        rw [hresp] at hdelay
        exact Nat.le_of_sub_eq_zero hdelay
      have hanswer : s.memory.writeWires.b = some ⟨id, resp⟩ := by
        show (s.memory.response.filter (·.2 ≤ s.memory.cycle)).map (·.1) = _
        rw [hresp]
        simp [hdue]
      have hfire := (hfires id _ hp).b
      obtain ⟨_, _, hb⟩ := s.owner_bus s.ports[id]
      rw [howner, hl, hanswer] at hb
      rw [hb] at hfire
      cases hfire

/-- No writer offers a burst: the one whose turn it is would open it. -/
theorem Expired.writes_unasked (he : s.Expired) (hr : Machine.Reachable params s)
    (h : s.Edge slave s') (hs : s.Still slave s') {k : Nat} (hk : k < s.ports.length) :
    s.writeAsks k = false := by
  have ho := writeOrderly_reachable hr
  have hl := he.lock_free hr h hs
  refine Bool.eq_false_iff.mpr fun hask => ?_
  have hturn := he.writeTurn hl k hk hask
  unfold writeAsks at hturn
  obtain ⟨p, hp, hph⟩ := (Option.any_eq_true _ _).mp hturn
  have howner : s.writeArbiter.selected = s.writeArbiter.owner :=
    (WriteArbiter.owner_eq hl).symm
  have hstage := ho.stage
  rw [hl] at hstage
  obtain ⟨haw, _, _, hresp⟩ := hstage
  have hready : s.memory.writeWires.awReady = true := by
    unfold Memory.writeWires
    rw [haw, hresp]
    rfl
  have hoffer : p.writeWires.aw = some p.writer.core.request := if_pos (beq_iff_eq.mp hph)
  obtain ⟨hfires, _⟩ := hs.writes hr h
  have hfire := (hfires _ p hp).aw
  rw [howner, (s.owner_bus p).1, hl, hready, hoffer] at hfire
  cases hfire

/-- **A writer is idle** if its buffer holds what it sends next: its bursts are answered. -/
theorem Expired.writer_idle (he : s.Expired) (hr : Machine.Reachable params s)
    (h : s.Edge slave s') (hs : s.Still slave s') (hp : s.ports[i]? = some p)
    (hsized : p.writer.core.phase = .waitForCredit →
      ∀ bus, p.writer.core.sized? (p.writeInputs bus) ≠ none) :
    p.writer.core.phase = .idle ∧ p.writeRegs.holding = none := by
  have hl := he.lock_free hr h hs
  have hlt := (List.getElem?_eq_some_iff.mp hp).1
  have hk := (writeOrderly_reachable hr).port i p hp
  obtain ⟨_, _, _, _, hedge, _, hwrite⟩ := hs.port i p hp
  obtain ⟨hcore, _⟩ := WriteEngine.tick_core hedge.writer
  cases WriteCore.waits_next hwrite.answered hcore hwrite.phase hwrite.kept with
  | work hph hd =>
      have hready : p.writeOutputs.descReady = true := beq_iff_eq.mpr hph
      dsimp only [Port.writeInputs] at hd
      rw [hready, if_pos rfl] at hd
      exact ⟨hph, hd⟩
  | words hph hnone => exact absurd hnone (hsized hph _)
  | bus hph _ =>
      have hask := he.writes_unasked hr h hs hlt
      unfold writeAsks at hask
      rw [hp, Option.any_some, hph] at hask
      cases hask
  | beat hph _ =>
      have hopen := hk.sending.mp hph
      rw [hl] at hopen
      cases hopen
  | answer hph hopen =>
      rw [hk.outstanding, hl] at hopen
      exact absurd rfl hopen

/-! ## The machine -/

/-- Every engine is idle and has nothing to do, every read buffer is empty, and nothing is
under way between the ports and the memory. What a source still queues, and what a write
buffer holds of it, is nobody's work. -/
structure AtRest (s : Machine) : Prop where
  port : ∀ p ∈ s.ports, p.reader.isIdle = true ∧ p.writer.isIdle = true
    ∧ p.readRegs.holding = none ∧ p.writeRegs.holding = none ∧ p.readFifo.isEmpty = true
  readArbiter : s.readArbiter.isIdle = true
  writeArbiter : s.writeArbiter.isIdle = true
  memory : s.memory.isIdle = true

/-- A quiescent machine is at rest, and its streams are empty. -/
theorem AtRest.of_quiescent (h : s.isQuiescent = true) : s.AtRest ∧ ∀ p ∈ s.ports, p.Quiet := by
  unfold isQuiescent at h
  rw [Bool.and_eq_true, Bool.and_eq_true, Bool.and_eq_true, List.all_eq_true] at h
  obtain ⟨⟨⟨hports, hreads⟩, hwrites⟩, hmemory⟩ := h
  have hquiet : ∀ p ∈ s.ports, p.Quiet := fun p hp => Port.quiet_iff.mp (hports p hp)
  refine ⟨⟨fun p hp => ?_, hreads, hwrites, hmemory⟩, hquiet⟩
  obtain ⟨hr, hw, hrh, hwh, hrf, _, _⟩ := hquiet p hp
  exact ⟨hr, hw, hrh, hwh, List.isEmpty_iff.mpr hrf⟩

/-- **If nothing moves and no delay is left, the machine is at rest.** -/
theorem rest_of_expired (he : s.Expired) (hr : Machine.Reachable params s)
    (h : s.Edge slave s') (hs : s.Still slave s')
    (hdepth : ∀ q ∈ params.ports, maxBurstWords ≤ q.fifoDepth ∧ q.fifoDepth < limit32)
    (hport : ∀ (i : Nat) (p : Port), s.ports[i]? = some p →
      p.Supplied ∧ (p.writer.core.frameMode = true → p.writeFifo.Latched)) : s.AtRest := by
  have hf := hr.formed
  have hl := he.lock_free hr h hs
  refine ⟨fun p hmem => ?_, ?_, ?_, ?_⟩
  · obtain ⟨i, hp⟩ := List.mem_iff_getElem?.mp hmem
    obtain ⟨q, hq, hb⟩ := hf.port i p hp
    have hd := hdepth q (List.mem_of_getElem? hq)
    obtain ⟨hsupplied, hlatched⟩ := hport i p hp
    obtain ⟨hreader, hreadHeld⟩ := he.reader_idle hr h hs hp (by rw [hb.readCapacity]; exact hd)
    have hbounded := (bounded_reachable hr).port i p hp
    have hlatched' : q.frameMode = true → p.writeFifo.Latched :=
      fun hmode => hlatched (hb.frameMode.trans hmode)
    obtain ⟨hwriter, hwriteHeld⟩ := he.writer_idle hr h hs hp fun hph =>
      Port.sized_of_candidate_le hbounded.writer hb hbounded.writeFifo hlatched' hd.2 hph
        (hsupplied.candidate_le hbounded.writer hb hlatched' hd.1 (he.port i p hp).fed hph)
    refine ⟨beq_iff_eq.mpr hreader, beq_iff_eq.mpr hwriter, hreadHeld, hwriteHeld, ?_⟩
    exact List.isEmpty_iff.mpr (he.port i p hp).drained
  · refine ReadArbiter.isIdle_iff.mpr ⟨hs.owners hr h he.reads,
      Skid.eq_of_empty (hs.granted_empty hr h he.reads), Skid.eq_of_empty (hs.data hr h),
      fun skid hskid => ?_⟩
    obtain ⟨i, hi⟩ := List.mem_iff_getElem?.mp hskid
    have hlt := (List.getElem?_eq_some_iff.mp hi).1
    rw [hf.reads.arbiter.inputs] at hlt
    obtain ⟨hwaiting, _⟩ := he.unrequested hr h hs (List.getElem?_eq_getElem hlt)
    unfold ReadArbiter.waiting at hwaiting
    rw [hi, Option.map_some, Option.getD_some] at hwaiting
    exact Skid.eq_of_empty hwaiting
  · unfold WriteArbiter.isIdle
    rw [hl]
    rfl
  · have hstage := (writeOrderly_reachable hr).stage
    rw [hl] at hstage
    obtain ⟨haw, hcollected, _, hresp⟩ := hstage
    exact Memory.isIdle_iff.mpr ⟨hs.jobs hr h he.reads, haw, hcollected, hresp⟩

end Machine

end BurstDma
