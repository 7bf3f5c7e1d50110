import BurstDma.Proofs.Safety
import BurstDma.Proofs.Work

/-!
# The delays that run out

A machine in which nothing moves may still be counting: the streams rest between two beats,
the memory lets its latencies pass, and either turn may be with a port that asks for
nothing. `Machine.delay` adds up what is left of all that. **A cycle that moves nothing
takes from the delay, unless all of it has run out**; `Machine.Expired` is what then holds.
-/

namespace BurstDma

/-! ## Streams -/

namespace Port

/-- The rests of the two streams of a port. -/
def delay (p : Port) : Nat :=
  p.source.wait + p.sink.wait

/-- Neither stream rests; the sink has nothing to take, and the source has nothing to put in
or no place for it. -/
structure Ready (p : Port) : Prop where
  wait : p.delay = 0
  drained : p.readFifo.beats = []
  fed : p.source.queue = [] ∨ p.writeFifo.canPush = false

end Port

namespace Machine

variable {params : MachineParams} {s s' : Machine} {slave : ReadSlave} {i : Nat} {p p' : Port}
  {rstep : ReadStep} {wstep : WriteStep}

/-- A sink from whose buffer nothing goes rests, or it finds the buffer empty. -/
theorem sink_still (hs : p.reader.core.Sound (s.awaited i))
    (h : p.Edge (s.readBus slave i p) (s.writeBus i p) rstep wstep p')
    (hstill : s.ReadStill slave i p p') :
    p'.sink.wait = p.sink.wait - 1 ∧ (p.sink.wait = 0 → p.readFifo.beats = []) := by
  obtain ⟨hcore, _⟩ := ReadEngine.tick_core h.reader
  obtain ⟨hoffer, _⟩ := s.arFired_readBus slave i p
  obtain ⟨hpush, _⟩ := ReadCore.next_transfer hs hoffer hcore
  have hnone : rstep.push = none := by
    rw [hpush]
    exact congrArg (Option.map _) hstill.received
  obtain ⟨_, hdrain⟩ := h.drain
  rw [hnone, Option.bind_none, Option.getD_none] at hdrain
  rcases Sink.tick_eq hdrain with ⟨hw, hw', _⟩ | ⟨hw, hempty, hsame, _⟩ | ⟨_, _, a, hpop⟩
  · exact ⟨hw', fun hz => by omega⟩
  · rw [hsame, hw]
    exact ⟨rfl, fun _ => hempty⟩
  · -- a beat that is taken would be missing
    have hlen := congrArg List.length (Fifo.pop_eq_ok hpop).1
    have hkept := hstill.drained
    rw [Option.toList_some, List.length_append, List.length_singleton] at hlen
    omega

/-- A source that puts nothing in rests, or it cannot. -/
theorem source_still (h : p.Edge (s.readBus slave i p) (s.writeBus i p) rstep wstep p')
    (hstill : s.WriteStill i p p' wstep) :
    p'.source.wait = p.source.wait - 1
      ∧ (p.source.wait = 0 → p.source.queue = [] ∨ p.writeFifo.canPush = false) := by
  obtain ⟨f, _, hpop, hfill⟩ := h.fill
  rw [hstill.kept, if_neg Bool.false_ne_true] at hpop
  cases hpop
  rcases Source.tick_cases hfill with ⟨hw, hs, _⟩ | ⟨hw, hblocked, hs, _⟩ | ⟨a, rest, _, hq, _, hs⟩
  · rw [hs]
    exact ⟨rfl, fun hz => by omega⟩
  · rw [hs, hw]
    exact ⟨rfl, fun _ => hblocked⟩
  · -- a beat that is put in would be missing in the queue
    have hkept : p'.source.queue.length = p.source.queue.length := hstill.fed
    rw [hq, List.length_cons, hs] at hkept
    dsimp only at hkept
    omega

theorem port_delay (hr : Machine.Reachable params s) (hp : s.ports[i]? = some p)
    (h : p.Edge (s.readBus slave i p) (s.writeBus i p) rstep wstep p')
    (hread : s.ReadStill slave i p p') (hwrite : s.WriteStill i p p' wstep) :
    p'.delay ≤ p.delay ∧ (p'.delay = p.delay → p.Ready) := by
  obtain ⟨hsound, _⟩ := (credited_reachable hr).2 i p hp
  obtain ⟨hsink, hdrained⟩ := sink_still hsound h hread
  obtain ⟨hsource, hfed⟩ := source_still h hwrite
  unfold Port.delay
  refine ⟨by omega, fun hsame => ⟨?_, hdrained (by omega), hfed (by omega)⟩⟩
  unfold Port.delay
  omega

end Machine

/-! ## The memory -/

namespace Memory

/-- The cycles until the oldest read burst may be answered. -/
def readDelay (m : Memory) : Nat :=
  (m.reads.head?).elim 0 fun job => job.readyAt - m.cycle

/-- The cycles until the response that waits may be given. -/
def writeDelay (m : Memory) : Nat :=
  (m.response).elim 0 fun r => r.2 - m.cycle

variable {m m' : Memory}

/-- A response that is neither given nor replaced stays. -/
theorem response_kept {bus : WriteBus} (h : m.WriteEdge bus m') (hnone : m.completes? bus = none)
    (hb : bus.bFired = none) : m'.response = m.response := by
  obtain ⟨_, _, _, hcr⟩ := m.collect_eq rfl rfl hb
  cases h with
  | wait _ _ _ _ _ hresp => exact hresp.trans hcr
  | store aw beats resp due hsome =>
      rw [hnone] at hsome
      cases hsome

/-- What waits in the memory comes due. -/
theorem delay_tick (hreads : m'.reads = m.reads) (hresponse : m'.response = m.response)
    (hcycle : m'.cycle = m.cycle + 1) :
    m'.readDelay = m.readDelay - 1 ∧ m'.writeDelay = m.writeDelay - 1 := by
  unfold readDelay writeDelay
  rw [hreads, hresponse, hcycle]
  refine ⟨?_, ?_⟩
  · cases m.reads.head? with
    | none => rfl
    | some job => exact (Nat.sub_sub _ _ _).symm
  · cases m.response with
    | none => rfl
    | some r => exact (Nat.sub_sub _ _ _).symm

end Memory

namespace Machine

variable {params : MachineParams} {s s' : Machine} {slave : ReadSlave} {i : Nat} {p p' : Port}
  {rstep : ReadStep} {wstep : WriteStep}

/-- **Without a handshake the write bus stays as it is.** -/
theorem Still.writes (hr : Machine.Reachable params s) (h : s.Edge slave s')
    (hs : s.Still slave s') :
    (∀ (i : Nat) (p : Port), s.ports[i]? = some p → (s.writeBus i p).Fires false false none)
      ∧ s'.writeArbiter.lock = s.writeArbiter.lock ∧ s'.memory.response = s.memory.response := by
  have ho := writeOrderly_reachable hr
  obtain ⟨hm, _⟩ := write_move ho h
  have hedge := Memory.tick_writeEdge h.memory
  -- a port that opened a burst would leave its phase, one that sent a word would have lost it
  have noWord : ∀ {id : Nat} {q : Port} {aw : Bool}, s.ports[id]? = some q →
      ¬ (s.writeBus id q).Fires aw true none := by
    intro id q aw hq hf
    obtain ⟨rstep, wstep, q', _, hport, _, hwrite⟩ := hs.port id q hq
    obtain ⟨_, _, _, _, hpop, _⟩ := fires_edge hf hport
    rw [hwrite.kept] at hpop
    cases hpop
  cases hm with
  | start id q hq hph hfires _ _ _ _ _ =>
      have hf := hfires id q hq
      rw [beq_self_eq_true] at hf
      obtain ⟨rstep, wstep, q', _, hport, _, hwrite⟩ := hs.port id q hq
      obtain ⟨_, hsend, _⟩ := fires_edge hf hport
      have hph' := hsend.mpr (Or.inl rfl)
      rw [hwrite.phase, hph] at hph'
      cases hph'
  | send id q head hq _ _ hfires _ _ _ _ _ =>
      have hf := hfires id q hq
      rw [beq_self_eq_true] at hf
      exact absurd hf (noWord hq)
  | close id q head r hq _ _ hfires _ _ _ _ _ =>
      have hf := hfires id q hq
      rw [beq_self_eq_true] at hf
      exact absurd hf (noWord hq)
  | answer id resp hfires hl _ _ =>
      have hstage := ho.stage
      rw [hl] at hstage
      have hq := List.getElem?_eq_getElem hstage.answer_inv.1
      obtain ⟨_, _, _, _, _, _, hwrite⟩ := hs.port id _ hq
      have hf := (hfires id _ hq).b
      rw [hwrite.answered, if_pos rfl] at hf
      cases hf
  | rest hfires hlock _ _ hnone =>
      refine ⟨hfires, hlock, ?_⟩
      have howner := List.getElem?_eq_getElem (owner_lt hr)
      have hb : s.writes.down.bFired = none :=
        (owner_fires howner).2.2.trans (hfires _ _ howner).b
      exact Memory.response_kept hedge hnone hb

theorem Still.reads (h : s.Edge slave s') (hs : s.Still slave s') :
    s'.memory.reads = s.memory.reads := by
  have hdown : s.memory.readWires = .ok (s.reads slave).down.slave := h.drives
  obtain ⟨_, hqueue⟩ := Memory.tick_reads hdown h.memory
  rw [hqueue, hs.sent, hs.queued]
  exact List.append_nil _

/-! ## The turns -/

/-- Port `i` competes for the read bus. -/
def readAsks (s : Machine) (i : Nat) : Bool :=
  if s.readArbiter.inputRegister then !(s.readArbiter.waiting i).isEmpty
  else (s.ports[i]?).any (·.reader.core.phase == .issueBurst)

/-- Port `i` competes for the write bus while no burst is open. -/
def writeAsks (s : Machine) (i : Nat) : Bool :=
  (s.ports[i]?).any (·.writer.core.phase == .issueBurst)

/-- A port competes with the request that it offers. -/
theorem offer_isSome (hf : s.ReadPathFormed) (i : Nat) :
    ((s.readArbiter.offers (s.ports.map (·.readWires)))[i]?.join).isSome = s.readAsks i := by
  unfold readAsks ReadArbiter.offers
  cases hreg : s.readArbiter.inputRegister with
  | true =>
      rw [if_pos rfl, if_pos rfl, List.getElem?_map]
      unfold ReadArbiter.waiting
      cases hskid : s.readArbiter.inputs[i]? with
      | none => rfl
      | some skid =>
          have hpacked := hf.arbiter.packedInputs skid (List.mem_of_getElem? hskid)
          show skid.peek.isSome = !skid.contents.isEmpty
          rw [hpacked.peek_eq]
          cases skid.contents <;> rfl
  | false =>
      rw [if_neg Bool.false_ne_true, if_neg Bool.false_ne_true, List.getElem?_map,
        List.getElem?_map]
      cases s.ports[i]? with
      | none => rfl
      | some p =>
          show (if p.reader.core.phase = .issueBurst then some p.reader.core.request
            else none).isSome = (p.reader.core.phase == .issueBurst)
          by_cases hph : p.reader.core.phase = .issueBurst
          · rw [if_pos hph, hph]
            rfl
          · rw [if_neg hph, beq_eq_false_iff_ne.mpr hph]
            rfl

theorem asks_read (hf : s.ReadPathFormed) (hn : s.ports.length ≤ maxRequesters)
    (hi : i < s.ports.length) :
    Grant.asks (s.readArbiter.requests (s.reads slave)) i = s.readAsks i := by
  rw [← offer_isSome hf]
  exact ReadArbiter.asks_offers hn hf.arbiter (List.length_map _) hi

theorem asks_write (ho : s.WriteOrderly) (hl : s.writeArbiter.lock = .select)
    (hn : s.ports.length ≤ maxRequesters) (hi : i < s.ports.length) :
    Grant.asks (WriteArbiter.requests s.writes) i = s.writeAsks i := by
  have hlength : s.writes.up.length = s.ports.length := by
    simp [writes, WriteArbiter.resolve]
  have hp := List.getElem?_eq_getElem hi
  unfold WriteArbiter.requests writeAsks
  rw [Grant.asks_ofLines (by rw [List.length_map, hlength]; exact hn) (Nat.lt_of_lt_of_le hi hn),
    List.getElem?_map, writes_up_getElem? hp, hp]
  show ((s.ports[i]).writeWires.aw.isSome || (s.ports[i]).writeWires.w.isSome) = _
  rw [no_data_of_select ho hl hp, Option.isSome_none, Bool.or_false]
  show (if (s.ports[i]).writer.core.phase = .issueBurst then
    some (s.ports[i]).writer.core.request else none).isSome = _
  by_cases hph : (s.ports[i]).writer.core.phase = .issueBurst
  · rw [if_pos hph, Option.any_some, hph]
    rfl
  · rw [if_neg hph, Option.any_some, beq_eq_false_iff_ne.mpr hph]
    rfl

/-- A reader that stays in its phase has no request accepted. -/
theorem ReadStill.request (hstill : s.ReadStill slave i p p')
    (h : p.Edge (s.readBus slave i p) (s.writeBus i p) rstep wstep p') :
    (s.readBus slave i p).arFired = none := by
  obtain ⟨hcore, _⟩ := ReadEngine.tick_core h.reader
  obtain ⟨hoffer, _⟩ := s.arFired_readBus slave i p
  cases hfire : (s.readBus slave i p).arFired with
  | none => rfl
  | some r =>
      have hph := hoffer (congrArg Option.isSome hfire)
      cases ReadCore.waits_next hstill.received hcore hstill.phase with
      | bus _ hno =>
          have hyes : (p.readInputs (s.readBus slave i p)).arFires = true :=
            congrArg Option.isSome hfire
          rw [hyes] at hno
          cases hno
      | work hph' _ => rw [hph'] at hph; cases hph
      | room hph' _ => rw [hph'] at hph; cases hph
      | data hph' _ => rw [hph'] at hph; cases hph

/-- A cycle that moves nothing leaves everyone asking for what they asked for. -/
theorem Still.asks (hr : Machine.Reachable params s) (h : s.Edge slave s')
    (hs : s.Still slave s') (hi : i < s.ports.length) :
    s'.readAsks i = s.readAsks i ∧ s'.writeAsks i = s.writeAsks i := by
  have hp := List.getElem?_eq_getElem hi
  obtain ⟨rstep, wstep, p', hp', hedge, hread, hwrite⟩ := hs.port i _ hp
  have harb : s.readArbiter.Edge (s.readArbiter.resolve (s.ports.map (·.readWires)) slave)
      s'.readArbiter := ReadArbiter.tick_edge h.readArbiter
  obtain ⟨hwaiting, _⟩ := requests_flow hr.formed.reads h hp
  have hno := hread.request hedge
  rw [hs.granted, hno] at hwaiting
  have hempty : (s'.readArbiter.waiting i).isEmpty = (s.readArbiter.waiting i).isEmpty := by
    rw [Bool.eq_iff_iff, List.isEmpty_iff_length_eq_zero, List.isEmpty_iff_length_eq_zero]
    simp only [Option.toList_none, List.filter_nil, List.length_nil] at hwaiting
    omega
  unfold readAsks writeAsks
  rw [harb.inputRegister, hempty, hp, hp', Option.any_some, Option.any_some, Option.any_some,
    Option.any_some, hread.phase, hwrite.phase]
  exact ⟨rfl, rfl⟩

/-- Whether the turn of the read bus is with a port that asks for nothing. -/
def readAstray (s : Machine) : Nat :=
  if s.readAsks s.readArbiter.selected then 0 else 1

/-- Whether the write bus is free and its turn with a port that asks for nothing. -/
def writeAstray (s : Machine) : Nat :=
  if s.writeArbiter.lock = .select then
    if s.writeAsks s.writeArbiter.selected then 0 else 1
  else 0

theorem readAstray_still (hr : Machine.Reachable params s) (h : s.Edge slave s')
    (hs : s.Still slave s') :
    s'.readAstray ≤ s.readAstray ∧ (s'.readAstray = s.readAstray →
      ∀ k < s.ports.length, s.readAsks k = true →
        s.readAsks s.readArbiter.selected = true) := by
  have hn := hr.length_le
  have hnext := ReadArbiter.tick_turn h.readArbiter
  unfold ReadArbiter.nextTurn at hnext
  rw [hs.granted] at hnext
  simp only [Option.isSome_none, Bool.false_or, decide_eq_true_eq] at hnext
  have hasks : ∀ k < s.ports.length,
      Grant.asks (s.readArbiter.requests (s.reads slave)) k = s.readAsks k := by
    intro k hk
    exact asks_read hr.formed.reads hn hk
  exact (bounded_reachable hr).readTurn.settle hn hasks (fun k hk => (hs.asks hr h hk).1) hnext

theorem writeAstray_still (hr : Machine.Reachable params s) (h : s.Edge slave s')
    (hs : s.Still slave s') :
    s'.writeAstray ≤ s.writeAstray ∧ (s'.writeAstray = s.writeAstray →
      s.writeArbiter.lock = .select → ∀ k < s.ports.length, s.writeAsks k = true →
        s.writeAsks s.writeArbiter.selected = true) := by
  have hn := hr.length_le
  have ho := writeOrderly_reachable hr
  obtain ⟨hfires, hlock, _⟩ := hs.writes hr h
  unfold writeAstray
  rw [hlock]
  by_cases hl : s.writeArbiter.lock = .select
  · have howner := List.getElem?_eq_getElem (owner_lt hr)
    obtain ⟨hdaw, hdw, _⟩ := owner_fires howner
    have hf := hfires _ _ howner
    have hnext := WriteArbiter.tick_turn h.writeArbiter
    unfold WriteArbiter.nextTurn at hnext
    rw [hl, hdaw, hdw, Option.isSome_map, hf.aw, hf.w] at hnext
    rw [if_pos hl, if_pos hl]
    obtain ⟨hle, heq⟩ := (bounded_reachable hr).writeTurn.settle hn
      (fun k hk => asks_write ho hl hn hk) (fun k hk => (hs.asks hr h hk).2) hnext
    exact ⟨hle, fun hsame _ => heq hsame⟩
  · rw [if_neg hl, if_neg hl]
    exact ⟨Nat.le_refl _, fun _ hc => absurd hc hl⟩

/-! ## The machine -/

/-- The delay of port `i`. -/
def delayAt (s : Machine) (i : Nat) : Nat :=
  (s.ports[i]?).elim 0 Port.delay

/-- All delays together. -/
def delay (s : Machine) : Nat :=
  ∑ i ∈ Finset.range s.ports.length, s.delayAt i + s.memory.readDelay + s.memory.writeDelay
    + s.readAstray + s.writeAstray

/-- No delay is left: nothing rests, nothing has to come due, and either turn is with a port
that asks if there is one. -/
structure Expired (s : Machine) : Prop where
  port : ∀ (i : Nat) (p : Port), s.ports[i]? = some p → p.Ready
  reads : s.memory.readDelay = 0
  response : s.memory.writeDelay = 0
  readTurn : ∀ k < s.ports.length, s.readAsks k = true →
    s.readAsks s.readArbiter.selected = true
  writeTurn : s.writeArbiter.lock = .select → ∀ k < s.ports.length, s.writeAsks k = true →
    s.writeAsks s.writeArbiter.selected = true

/-- **A cycle that moves nothing takes from the delay, or no delay is left.** -/
theorem delay_edge (hr : Machine.Reachable params s) (h : s.Edge slave s')
    (hs : s.Still slave s') : s'.delay < s.delay ∨ s.Expired := by
  have hport : ∀ (i : Nat) (p : Port), s.ports[i]? = some p →
      s'.delayAt i ≤ s.delayAt i ∧ (s'.delayAt i = s.delayAt i → p.Ready) := by
    intro i p hp
    obtain ⟨rstep, wstep, p', hp', hedge, hread, hwrite⟩ := hs.port i p hp
    unfold delayAt
    rw [hp, hp']
    exact port_delay hr hp hedge hread hwrite
  have hle : ∀ i ∈ Finset.range s.ports.length, s'.delayAt i ≤ s.delayAt i := by
    intro i hi
    exact (hport i _ (List.getElem?_eq_getElem (Finset.mem_range.mp hi))).1
  have hsum := Finset.sum_le_sum hle
  obtain ⟨_, _, hresponse⟩ := hs.writes hr h
  obtain ⟨hreads, hwrites⟩ :=
    Memory.delay_tick (hs.reads h) hresponse (Memory.tick_cycle h.memory)
  obtain ⟨hreadTurn, hreadSettled⟩ := readAstray_still hr h hs
  obtain ⟨hwriteTurn, hwriteSettled⟩ := writeAstray_still hr h hs
  unfold delay
  rw [h.length]
  by_cases hless : ∑ i ∈ Finset.range s.ports.length, s'.delayAt i + s'.memory.readDelay
      + s'.memory.writeDelay + s'.readAstray + s'.writeAstray
    < ∑ i ∈ Finset.range s.ports.length, s.delayAt i + s.memory.readDelay
      + s.memory.writeDelay + s.readAstray + s.writeAstray
  · exact Or.inl hless
  · have hsame := (Finset.sum_eq_sum_iff_of_le hle).mp (by omega)
    refine Or.inr ⟨fun i p hp => ?_, by omega, by omega, ?_, ?_⟩
    · have hi := Finset.mem_range.mpr (List.getElem?_eq_some_iff.mp hp).1
      exact (hport i p hp).2 (hsame i hi)
    · exact hreadSettled (by omega)
    · exact hwriteSettled (by omega)

end Machine

end BurstDma
