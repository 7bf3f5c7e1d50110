import BurstDma.Proofs.Restart

/-!
# What is recorded

A machine that records handshakes does in every other respect what it does anyway, and **its
records are what its cycles show**, port by port and cycle by cycle. Laws about a trace are
therefore laws about the history of a machine that records nothing: `History.traced` leads
from the one to the other.

A trace is read in two ways: `TraceRecord.eventsOf` picks the events of one port, and
`TraceRecord.writes` the write channels of all ports, in record order. What a cycle adds to
either is told by the wires of the ports.
-/

namespace BurstDma

/-- Whether an event is one of the write channels. -/
def BusEvent.isWrite : BusEvent → Bool
  | .aw _ _ => true
  | .w _ _ => true
  | .b _ => true
  | _ => false

namespace TraceRecord

/-- The events of port `i`, in order. -/
def eventsOf (i : Nat) (trace : List TraceRecord) : List BusEvent :=
  (trace.filter (·.port == i)).map (·.event)

/-- The events of the write channels, in order, each with its port. -/
def writes (trace : List TraceRecord) : List (Nat × BusEvent) :=
  (trace.filter (·.event.isWrite)).map fun r => (r.port, r.event)

theorem eventsOf_append (i : Nat) (before after : List TraceRecord) :
    eventsOf i (before ++ after) = eventsOf i before ++ eventsOf i after := by
  unfold eventsOf
  rw [List.filter_append, List.map_append]

theorem writes_append (before after : List TraceRecord) :
    writes (before ++ after) = writes before ++ writes after := by
  unfold writes
  rw [List.filter_append, List.map_append]

theorem eventsOf_map (i cycle port : Nat) (events : List BusEvent) :
    eventsOf i (events.map fun event => ⟨cycle, port, event⟩)
      = if port = i then events else [] := by
  unfold eventsOf
  by_cases h : port = i <;> simp [List.filter_map, Function.comp_def, h]

theorem writes_map (cycle port : Nat) (events : List BusEvent) :
    writes (events.map fun event => ⟨cycle, port, event⟩)
      = (events.filter (·.isWrite)).map (port, ·) := by
  unfold writes
  simp [List.filter_map, Function.comp_def]

end TraceRecord

/-! ## The records of a cycle -/

/-- What moves on the write channels of a port in a cycle. -/
def WriteBus.events (bus : WriteBus) : List BusEvent :=
  (bus.awFired.map fun r => BusEvent.aw r.addr r.len).toList
    ++ (bus.wFired.map fun w => BusEvent.w w.data w.last).toList
    ++ (bus.bFired.map fun b => BusEvent.b b.resp).toList

theorem Machine.portEvents_writes (p : Port) (reads : ReadBus) (bus : WriteBus) :
    (portEvents p reads bus).filter (·.isWrite) = bus.events := by
  unfold portEvents WriteBus.events
  simp only [List.filter_append]
  cases reads.arFired <;> cases reads.rFired <;> cases bus.awFired <;> cases bus.wFired <;>
    cases bus.bFired <;> cases p.reader.core.outputs.done <;> cases p.writeOutputs.done <;> rfl

namespace Moment

/-- What a moment adds to the records, if handshakes are recorded. -/
def records (e : Moment) : List TraceRecord :=
  match e.wires? with
  | some w => e.1.cycleEvents w
  | none => []

/-- The moment of a machine that records nothing. -/
def unrecorded (e : Moment) : Moment :=
  (e.1.unrecorded, e.2)

theorem records_unrecorded (e : Moment) : e.unrecorded.records = e.records := by
  obtain ⟨s, op⟩ := e
  cases op <;> rfl

theorem records_of_ne_tick {s : Machine} {op : Operation} (h : op ≠ .tick) :
    records (s, op) = [] := by
  unfold records
  rw [wires?_of_ne_tick h]

section

variable {s : Machine} {slave : ReadSlave}

/-- The records of a cycle, port by port. -/
theorem records_tick (hi : s.Indexed) (hs : s.memory.readWires = .ok slave) :
    records (s, .tick) = s.ports.zipIdx.flatMap fun x =>
      (Machine.portEvents x.1 (s.readBus slave x.2 x.1) (s.writeBus x.2 x.1)).map
        fun event => ⟨s.cycle, x.2, event⟩ := by
  unfold records
  rw [wires?_tick hs, List.flatMap_def]
  refine congrArg List.flatten (List.ext_getElem? fun i => ?_)
  rw [List.getElem?_map, List.getElem?_map, List.getElem?_zipIdx, Nat.zero_add]
  cases hp : s.ports[i]? with
  | none =>
      have hlen : (s.ports.zip ((s.reads slave).up.zip s.writes.up)).length ≤ i := by
        rw [List.length_zip]
        exact Nat.le_trans (Nat.min_le_left _ _) (List.getElem?_eq_none_iff.mp hp)
      rw [List.getElem?_eq_none hlen]
      rfl
  | some p =>
      have hzip : (s.ports.zip ((s.reads slave).up.zip s.writes.up))[i]?
          = some (p, s.readBus slave i p, s.writeBus i p) :=
        List.getElem?_zip_eq_some.mpr ⟨hp, List.getElem?_zip_eq_some.mpr
          ⟨Machine.reads_up_getElem? hp, Machine.writes_up_getElem? hp⟩⟩
      rw [hzip]
      simp only [Option.map_some, hi i p hp]

/-- A cycle adds to the events of a port what happens there. -/
theorem eventsOf_tick (hi : s.Indexed) (hs : s.memory.readWires = .ok slave) {i : Nat} {p : Port}
    (hp : s.ports[i]? = some p) :
    TraceRecord.eventsOf i (records (s, .tick))
      = Machine.portEvents p (s.readBus slave i p) (s.writeBus i p) := by
  rw [records_tick hi hs, TraceRecord.eventsOf, List.filter_flatMap, List.map_flatMap,
    flatMap_eq_of_only (i := i)]
  · rw [List.getElem?_zipIdx, Nat.zero_add, hp]
    exact (TraceRecord.eventsOf_map i s.cycle i _).trans (if_pos rfl)
  · -- the others leave their records under other numbers
    intro j x hx hj
    rw [List.getElem?_zipIdx, Nat.zero_add] at hx
    obtain ⟨q, _, rfl⟩ := Option.map_eq_some_iff.mp hx
    exact (TraceRecord.eventsOf_map i s.cycle j _).trans (if_neg hj)

/-- What a cycle adds to the write events, port by port. -/
theorem writes_tick (hi : s.Indexed) (hs : s.memory.readWires = .ok slave) :
    TraceRecord.writes (records (s, .tick))
      = s.ports.zipIdx.flatMap fun x => (s.writeBus x.2 x.1).events.map (x.2, ·) := by
  rw [records_tick hi hs, TraceRecord.writes, List.filter_flatMap, List.map_flatMap]
  congr 1
  funext x
  rw [← Machine.portEvents_writes]
  exact TraceRecord.writes_map s.cycle x.2 _

end

end Moment

/-! ## The records of a history -/

namespace Machine

variable {s s' : Machine}

theorem events_setPort (s : Machine) (p : Port) :
    (s.setPort p).capture = s.capture ∧ (s.setPort p).events = s.events :=
  ⟨rfl, rfl⟩

theorem events_writeRegister {addr value : UInt32}
    (h : (s.writeRegister addr value).result = .ok s') :
    s'.capture = s.capture ∧ s'.events = s.events := by
  obtain ⟨found, _, h⟩ := Run.result_bind_eq_ok.mp h
  split at h
  · cases h
    exact ⟨rfl, rfl⟩
  · obtain ⟨regs, _, h⟩ := Run.result_bind_eq_ok.mp h
    cases h
    exact s.events_setPort _
  · obtain ⟨regs, _, h⟩ := Run.result_bind_eq_ok.mp h
    cases h
    exact s.events_setPort _

theorem events_tick (h : s.tick.result = .ok s') :
    s'.capture = s.capture
      ∧ s'.events = s.events ++ if s.capture then Moment.records (s, .tick) else [] := by
  obtain ⟨w, hw, h⟩ := Run.result_bind_eq_ok.mp h
  obtain ⟨memory, _, h⟩ := Run.result_bind_eq_ok.mp h
  obtain ⟨readArbiter, _, h⟩ := Run.result_bind_eq_ok.mp h
  obtain ⟨writeArbiter, _, h⟩ := Run.result_bind_eq_ok.mp h
  obtain ⟨ports, _, h⟩ := Run.result_bind_eq_ok.mp h
  cases h
  obtain ⟨slave, hs, rfl⟩ := wires_eq_ok hw
  have hrecords : Moment.records (s, .tick) = s.cycleEvents ⟨s.reads slave, s.writes⟩ := by
    unfold Moment.records
    rw [Moment.wires?_tick hs]
  refine ⟨rfl, ?_⟩
  rw [hrecords]
  unfold events
  cases hc : s.capture <;> simp

/-- **A machine that records its handshakes records what its cycles show**, and forgets
nothing before a reset. -/
theorem events_apply {op : Operation} (h : op.apply s = .ok s') (hr : op ≠ .reset) :
    s'.capture = s.capture
      ∧ s'.events = s.events ++ if s.capture then Moment.records (s, op) else [] := by
  by_cases ht : op = .tick
  · subst ht
    exact events_tick h
  · rw [Moment.records_of_ne_tick ht, ite_self, List.append_nil]
    cases op with
    | write addr value => exact events_writeRegister h
    | read addr =>
        obtain ⟨_, _, rfl⟩ := except_map_eq_ok.mp h
        exact ⟨rfl, rfl⟩
    | push port beats =>
        simp only [Operation.apply, pushStream] at h
        split at h
        · cases h
        · cases h
          exact s.events_setPort _
    | take port =>
        obtain ⟨⟨beats, t⟩, htake, rfl⟩ := except_map_eq_ok.mp h
        unfold takeOutput at htake
        split at htake
        · cases htake
        · cases htake
          exact s.events_setPort _
    | load base words =>
        simp only [Operation.apply, loadMemory] at h
        split at h
        · rename_i t hl
          obtain ⟨store, _, rfl⟩ := except_map_eq_ok.mp hl
          cases h
          exact ⟨rfl, rfl⟩
        · cases h
          exact ⟨rfl, rfl⟩
        · cases h
    | tick => exact absurd rfl ht
    | reset => exact absurd rfl hr

end Machine

section

variable {params : MachineParams} {s₀ s : Machine} {past : List Moment}

theorem History.events_eq (h : History s₀ past s) (hu : Uninterrupted past)
    (hc : s₀.capture = true) :
    s.capture = true ∧ s.events = s₀.events ++ past.flatMap Moment.records := by
  induction h with
  | start => exact ⟨hc, (List.append_nil _).symm⟩
  | @step past s s' op hist hop ih =>
      obtain ⟨hpast, hreset⟩ := uninterrupted_concat.mp hu
      obtain ⟨hcapture, hevents⟩ := ih hpast
      obtain ⟨hcapture', hevents'⟩ := Machine.events_apply hop hreset
      refine ⟨hcapture'.trans hcapture, ?_⟩
      rw [hevents', hevents, if_pos hcapture, log_concat, List.append_assoc]

theorem History.unrecorded (h : History s₀ past s) :
    History s₀.unrecorded (past.map Moment.unrecorded) s.unrecorded := by
  induction h with
  | start => exact .start
  | step _ hop ih =>
      rw [List.map_append]
      exact ih.step (Machine.unrecorded_apply hop)

/-- **A trace is read off the history of a machine that records nothing.** -/
theorem History.traced (h₀ : Machine.ofParams params = .ok s₀)
    (h : History { s₀ with capture := true } past s) (hu : Uninterrupted past) :
    ∃ past', History s₀ past' s.unrecorded ∧ Uninterrupted past'
      ∧ s.events = past'.flatMap Moment.records := by
  have hnew : ({ s₀ with capture := true } : Machine).events = []
      ∧ ({ s₀ with capture := true } : Machine).unrecorded = s₀ := by
    obtain ⟨_, _, _, _, rfl⟩ := Machine.ofParams_eq_ok h₀
    exact ⟨rfl, rfl⟩
  obtain ⟨_, hevents⟩ := h.events_eq hu rfl
  have hist := h.unrecorded
  rw [hnew.2] at hist
  refine ⟨past.map Moment.unrecorded, hist, ?_, ?_⟩
  · intro e he
    obtain ⟨e', he', rfl⟩ := List.mem_map.mp he
    exact hu e' he'
  · rw [hevents, hnew.1, List.nil_append, List.flatMap_map]
    exact (congrArg (past.flatMap ·) (funext Moment.records_unrecorded)).symm

end

end BurstDma
