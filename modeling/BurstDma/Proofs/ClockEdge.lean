import BurstDma.Proofs.Buffer
import BurstDma.Proofs.History

/-!
# What one clock cycle does

A tick is a long program, and every law about it needs only a part. It is taken apart
once: `Machine.Edge` names what the memory, the arbiters and each port make of the wires
of the cycle, `Port.Edge` what the two engines and the two streams of a port make of
theirs. No later proof looks inside `Machine.tick` or `Port.tick`.
-/

namespace BurstDma

/-! ## Ports -/

/-- A clock edge takes a port from `p` to `p'`, the reader doing `rstep` and the writer
`wstep`. -/
structure Port.Edge (p : Port) (reads : ReadBus) (writes : WriteBus) (rstep : ReadStep)
    (wstep : WriteStep) (p' : Port) : Prop where
  index : p'.index = p.index
  reader : (p.reader.tick (p.readInputs reads)).result = .ok (p'.reader, rstep)
  writer : (p.writer.tick (p.writeInputs writes)).result = .ok (p'.writer, wstep)
  readRegs : p'.readRegs = Port.nextRegs p.readRegs p.reader.core.outputs.done rstep.taken
  writeRegs : p'.writeRegs = Port.nextRegs p.writeRegs p.writeOutputs.done wstep.taken
  /-- The reader's beat enters its buffer, and then the sink may take one out. -/
  drain : ∃ b, p.sink.tick ((rstep.push.bind p.readFifo.push?).getD p.readFifo)
    = .ok (b, p'.sink, p'.readFifo)
  /-- The writer's beat leaves its buffer, and then the source may put one in. -/
  fill : ∃ f b, (if wstep.pop then p.writeFifo.pop.map (·.2) else .ok p.writeFifo) = .ok f
    ∧ p.source.tick f = (b, p'.source, p'.writeFifo)

theorem Port.tick_edge {p p' : Port} {reads : ReadBus} {writes : WriteBus}
    (h : (p.tick reads writes).result = .ok p') :
    ∃ rstep wstep, p.Edge reads writes rstep wstep p' := by
  obtain ⟨p₁, h₁, h⟩ := Run.result_bind_eq_ok.mp h
  obtain ⟨p₂, h₂, h⟩ := Run.result_bind_eq_ok.mp h
  obtain ⟨⟨reader, rstep⟩, hr, h₁⟩ := Run.result_bind_eq_ok.mp h₁
  obtain ⟨⟨writer, wstep⟩, hw, h₂⟩ := Run.result_bind_eq_ok.mp h₂
  obtain ⟨f, hf, h₂⟩ := Run.result_bind_eq_ok.mp h₂
  cases h₂
  -- whether or not the beat found a place, the port differs in three fields
  have hp₁ : p₁ = { p with
      reader
      readRegs := Port.nextRegs p.readRegs p.reader.core.outputs.done rstep.taken
      readFifo := (rstep.push.bind p.readFifo.push?).getD p.readFifo } := by
    cases hpush : rstep.push with
    | none =>
        simp only [hpush] at h₁
        cases h₁
        rfl
    | some beat =>
        simp only [hpush] at h₁
        cases hfit : p.readFifo.push? beat with
        | some g =>
            simp only [hfit] at h₁
            cases h₁
            simp [hfit]
        | none =>
            simp only [hfit] at h₁
            cases h₁
            simp [hfit]
  subst hp₁
  obtain ⟨⟨b, sink, readFifo⟩, hsink, h⟩ := except_bind_eq_ok.mp h
  cases h
  exact ⟨rstep, wstep, rfl, hr, hw, rfl, rfl, ⟨b, hsink⟩, ⟨f, _, hf, rfl⟩⟩

/-- The buffer of a writer loses the beat that is sent, and gains what the source moves in. -/
theorem Port.Edge.moves {p p' : Port} {reads : ReadBus} {writes : WriteBus} {rstep : ReadStep}
    {wstep : WriteStep} (h : p.Edge reads writes rstep wstep p') :
    ∃ more, p'.writeFifo.beats
        = (if wstep.pop then p.writeFifo.beats.tail else p.writeFifo.beats) ++ more
      ∧ p.source.queue = more ++ p'.source.queue := by
  obtain ⟨f, b, hpop, hfill⟩ := h.fill
  have hf : f.beats = if wstep.pop then p.writeFifo.beats.tail else p.writeFifo.beats := by
    split at hpop
    · rename_i hp'
      obtain ⟨⟨a, f'⟩, hf, rfl⟩ := except_map_eq_ok.mp hpop
      obtain ⟨hbeats, ha, _⟩ := Fifo.pop_eq_ok hf
      rw [if_pos hp']
      cases hh : p.writeFifo.beats with
      | nil =>
          rw [hh] at hbeats
          exact (List.append_eq_nil_iff.mp hbeats.symm).2
      | cons b' rest =>
          rw [hh, ha, Fifo.head?, hh] at hbeats
          exact (List.cons.inj hbeats).2.symm
    · rename_i hp'
      cases hpop
      rw [if_neg hp']
  rcases Source.tick_eq hfill with ⟨hq, hsame⟩ | ⟨a, hq, hpush⟩
  · exact ⟨[], by rw [hsame, hf, List.append_nil], by rw [hq]; rfl⟩
  · exact ⟨[a], by rw [(Fifo.push?_eq_some hpush).2.1, hf], hq⟩

theorem tickPorts_eq_ok {ps ps' : List Port} {rs : List ReadBus} {ws : List WriteBus}
    (h : (Machine.tickPorts ps rs ws).result = .ok ps') (hr : rs.length = ps.length)
    (hw : ws.length = ps.length) :
    ps'.length = ps.length ∧
      ∀ (i : Nat) (p : Port), ps[i]? = some p →
        ∃ r w p', rs[i]? = some r ∧ ws[i]? = some w ∧ ps'[i]? = some p'
          ∧ (p.tick r w).result = .ok p' := by
  induction ps generalizing rs ws ps' with
  | nil =>
      rw [Machine.tickPorts] at h
      · cases h
        exact ⟨rfl, by intro i p hp; simp at hp⟩
      · intro p ps r rs w ws hp; cases hp
  | cons p ps ih =>
      obtain ⟨r, rs, rfl⟩ : ∃ r rs', rs = r :: rs' := List.exists_cons_of_length_eq_add_one hr
      obtain ⟨w, ws, rfl⟩ : ∃ w ws', ws = w :: ws' := List.exists_cons_of_length_eq_add_one hw
      rw [Machine.tickPorts] at h
      obtain ⟨p', hp', h⟩ := Run.result_bind_eq_ok.mp h
      obtain ⟨rest, hrest, h⟩ := Run.result_bind_eq_ok.mp h
      cases h
      obtain ⟨hlen, hget⟩ := ih hrest (by simpa using hr) (by simpa using hw)
      refine ⟨by simp [hlen], ?_⟩
      intro i q hq
      cases i with
      | zero =>
          simp only [List.getElem?_cons_zero, Option.some.injEq] at hq
          subst hq
          exact ⟨r, w, p', rfl, rfl, rfl, hp'⟩
      | succ i =>
          simp only [List.getElem?_cons_succ] at hq ⊢
          exact hget i q hq

/-! ## The machine -/

namespace Machine

/-- The read wires of port `i` when the memory drives `slave`. -/
def readBus (s : Machine) (slave : ReadSlave) (i : Nat) (p : Port) : ReadBus :=
  ⟨p.readWires, s.readArbiter.toRequester slave i⟩

/-- The write wires of port `i`. -/
def writeBus (s : Machine) (i : Nat) (p : Port) : WriteBus :=
  ⟨p.writeWires, s.writeArbiter.toRequester s.memory.writeWires i⟩

/-- All read wires when the memory drives `slave`. -/
def reads (s : Machine) (slave : ReadSlave) : ReadWires :=
  s.readArbiter.resolve (s.ports.map (·.readWires)) slave

/-- All write wires. -/
def writes (s : Machine) : WriteWires :=
  s.writeArbiter.resolve (s.ports.map (·.writeWires)) s.memory.writeWires

theorem wires_eq_ok {s : Machine} {w : MachineWires} (h : s.wires = .ok w) :
    ∃ slave, s.memory.readWires = .ok slave ∧ w = ⟨s.reads slave, s.writes⟩ := by
  obtain ⟨slave, hs, h⟩ := except_bind_eq_ok.mp h
  cases h
  exact ⟨slave, hs, rfl⟩

theorem wires_of_slave {s : Machine} {slave : ReadSlave} (h : s.memory.readWires = .ok slave) :
    s.wires = .ok ⟨s.reads slave, s.writes⟩ := by
  unfold wires
  rw [h]
  rfl

theorem reads_up_getElem? {s : Machine} {slave : ReadSlave} {i : Nat} {p : Port}
    (hp : s.ports[i]? = some p) : (s.reads slave).up[i]? = some (s.readBus slave i p) := by
  simp [reads, ReadArbiter.resolve, readBus, List.getElem?_zipIdx, hp]

theorem writes_up_getElem? {s : Machine} {i : Nat} {p : Port} (hp : s.ports[i]? = some p) :
    s.writes.up[i]? = some (s.writeBus i p) := by
  simp [writes, WriteArbiter.resolve, writeBus, List.getElem?_zipIdx, hp]

/-- A clock cycle takes a machine from `s` to `s'`, the memory driving `slave`. -/
structure Edge (s : Machine) (slave : ReadSlave) (s' : Machine) : Prop where
  drives : s.memory.readWires = .ok slave
  cycle : s'.cycle = s.cycle + 1
  memory : (s.memory.tick (s.reads slave).down s.writes.down).result = .ok s'.memory
  readArbiter : (s.readArbiter.tick (s.reads slave)).result = .ok s'.readArbiter
  writeArbiter : (s.writeArbiter.tick s.writes).result = .ok s'.writeArbiter
  length : s'.ports.length = s.ports.length
  /-- Every port goes through an edge of its own. -/
  port : ∀ (i : Nat) (p : Port), s.ports[i]? = some p →
    ∃ rstep wstep p', s'.ports[i]? = some p'
      ∧ p.Edge (s.readBus slave i p) (s.writeBus i p) rstep wstep p'

/-- Every port takes part in a clock cycle, on its own wires. -/
theorem tick_port {s s' : Machine} {slave : ReadSlave} (h : s.tick.result = .ok s')
    (hs : s.memory.readWires = .ok slave) :
    s'.ports.length = s.ports.length ∧
      ∀ (i : Nat) (p : Port), s.ports[i]? = some p →
        ∃ p', s'.ports[i]? = some p'
          ∧ (p.tick (s.readBus slave i p) (s.writeBus i p)).result = .ok p' := by
  obtain ⟨w, hw, h⟩ := Run.result_bind_eq_ok.mp h
  obtain ⟨memory, hm, h⟩ := Run.result_bind_eq_ok.mp h
  obtain ⟨readArbiter, hr, h⟩ := Run.result_bind_eq_ok.mp h
  obtain ⟨writeArbiter, hwa, h⟩ := Run.result_bind_eq_ok.mp h
  obtain ⟨ports, hp, h⟩ := Run.result_bind_eq_ok.mp h
  cases h
  obtain rfl : w = ⟨s.reads slave, s.writes⟩ := Except.ok.inj (hw.symm.trans (wires_of_slave hs))
  obtain ⟨hlen, hget⟩ := tickPorts_eq_ok hp (by simp [reads, ReadArbiter.resolve])
    (by simp [writes, WriteArbiter.resolve])
  refine ⟨hlen, fun i p hi => ?_⟩
  obtain ⟨r, w, p', hr', hw', hp', htick⟩ := hget i p hi
  rw [reads_up_getElem? hi] at hr'
  rw [writes_up_getElem? hi] at hw'
  cases hr'
  cases hw'
  exact ⟨p', hp', htick⟩

theorem tick_edge {s s' : Machine} (h : s.tick.result = .ok s') :
    ∃ slave, s.Edge slave s' := by
  have htick := h
  obtain ⟨w, hw, h⟩ := Run.result_bind_eq_ok.mp h
  obtain ⟨memory, hm, h⟩ := Run.result_bind_eq_ok.mp h
  obtain ⟨readArbiter, hr, h⟩ := Run.result_bind_eq_ok.mp h
  obtain ⟨writeArbiter, hwa, h⟩ := Run.result_bind_eq_ok.mp h
  obtain ⟨ports, hp, h⟩ := Run.result_bind_eq_ok.mp h
  cases h
  obtain ⟨slave, hs, rfl⟩ := wires_eq_ok hw
  obtain ⟨hlen, hport⟩ := tick_port htick hs
  refine ⟨slave, hs, rfl, hm, hr, hwa, hlen, fun i p hi => ?_⟩
  obtain ⟨p', hp', hedge⟩ := hport i p hi
  obtain ⟨rstep, wstep, hedge⟩ := Port.tick_edge hedge
  exact ⟨rstep, wstep, p', hp', hedge⟩

/-- A port of the next state was there before the cycle. -/
theorem Edge.port' {s s' : Machine} {slave : ReadSlave} (h : s.Edge slave s') {i : Nat}
    {p' : Port} (hp' : s'.ports[i]? = some p') :
    ∃ p rstep wstep, s.ports[i]? = some p
      ∧ p.Edge (s.readBus slave i p) (s.writeBus i p) rstep wstep p' := by
  have hlt : i < s.ports.length := by
    obtain ⟨hlt, _⟩ := List.getElem?_eq_some_iff.mp hp'
    rwa [h.length] at hlt
  obtain ⟨rstep, wstep, q, hq, hedge⟩ := h.port i _ (List.getElem?_eq_getElem hlt)
  rw [hp'] at hq
  cases hq
  exact ⟨_, rstep, wstep, List.getElem?_eq_getElem hlt, hedge⟩

end Machine

/-! ## The memory -/

namespace Memory

/-- What a clock edge makes of the write that the memory collects: it waits for the rest
of it, or it stores it and has an answer ready. -/
inductive WriteEdge (m : Memory) (bus : WriteBus) (m' : Memory) : Prop where
  | wait : m.completes? bus = none → m'.store = m.store → m'.aw = (m.collect bus).aw →
      m'.collected = (m.collect bus).collected → m'.dataDone = (m.collect bus).dataDone →
      m'.response = (m.collect bus).response → WriteEdge m bus m'
  | store (aw : AddrReq) (beats : List WriteBeat) (resp : Resp) (due : Nat) :
      m.completes? bus = some (aw, beats) →
      m'.store = m.store.putAll (burstWrites m.store.geometry aw.addr beats) →
      m'.aw = none → m'.collected = [] → m'.dataDone = false →
      m'.response = some (⟨aw.id, resp⟩, due) → WriteEdge m bus m'

theorem tickReads_writes (m : Memory) (reads : ReadBus) (bus : WriteBus) :
    (m.tickReads reads).store = m.store
      ∧ (m.tickReads reads).completes? bus = m.completes? bus
      ∧ ((m.tickReads reads).collect bus).store = m.store
      ∧ ((m.tickReads reads).collect bus).aw = (m.collect bus).aw
      ∧ ((m.tickReads reads).collect bus).collected = (m.collect bus).collected
      ∧ ((m.tickReads reads).collect bus).dataDone = (m.collect bus).dataDone
      ∧ ((m.tickReads reads).collect bus).response = (m.collect bus).response := by
  unfold completes? tickReads collect
  cases reads.rFired <;> cases reads.arFired <;> cases bus.bFired <;> cases bus.awFired <;>
    cases bus.wFired <;> exact ⟨rfl, rfl, rfl, rfl, rfl, rfl, rfl⟩

/-- Collecting a write leaves the rest of the memory as it is. -/
theorem collect_kept (m : Memory) (bus : WriteBus) :
    (m.collect bus).params = m.params ∧ (m.collect bus).store = m.store
      ∧ (m.collect bus).cycle = m.cycle ∧ (m.collect bus).reads = m.reads
      ∧ (m.collect bus).stats = m.stats := by
  unfold collect
  cases bus.bFired <;> cases bus.awFired <;> cases bus.wFired <;>
    exact ⟨rfl, rfl, rfl, rfl, rfl⟩

/-- **The write side of a clock edge.** What is collected waits for the rest of its write, or
the write is complete; then it is stored, counted and answered. -/
theorem tickWrites_cases {m m' : Memory} {bus : WriteBus}
    (h : (m.tickWrites bus).result = .ok m') :
    (m.completes? bus = none ∧ m' = m.collect bus)
      ∨ ∃ aw store resp, m.completes? bus = some (aw, (m.collect bus).collected)
        ∧ storeBeats aw.addr 0 m.store .okay (m.collect bus).collected = .ok (store, resp)
        ∧ m' = { m with
          store
          aw := none
          collected := []
          dataDone := false
          response := some (⟨aw.id, resp⟩, m.cycle + max m.params.writeLatency 1)
          stats := { m.stats with
            writeBursts := m.stats.writeBursts + 1
            writeWords := m.stats.writeWords + (m.collect bus).collected.length
            errors := m.stats.errors + if resp.isError then 1 else 0 } } := by
  obtain ⟨hparams, hstore, hcycle, hreads, hstats⟩ := m.collect_kept bus
  unfold tickWrites at h
  dsimp only at h
  split at h
  · rename_i aw hd ha
    obtain ⟨_, _, h⟩ := Run.result_bind_eq_ok.mp h
    obtain ⟨⟨store, resp⟩, hst, h⟩ := Run.result_bind_eq_ok.mp h
    obtain ⟨_, _, h⟩ := Run.result_bind_eq_ok.mp h
    cases h
    rw [hstore] at hst
    refine Or.inr ⟨aw, store, resp, ?_, hst, ?_⟩
    · unfold completes?
      dsimp only
      rw [hd, ha]
    · dsimp only
      rw [hparams, hcycle, hreads, hstats]
  · rename_i hnot
    cases h
    refine Or.inl ⟨?_, rfl⟩
    unfold completes?
    dsimp only
    split
    · rename_i hd ha
      exact absurd ha (hnot _ hd)
    · rfl

theorem tick_writeEdge {m m' : Memory} {reads : ReadBus} {bus : WriteBus}
    (h : (m.tick reads bus).result = .ok m') : m.WriteEdge bus m' := by
  obtain ⟨m₁, hw, h⟩ := Run.result_bind_eq_ok.mp h
  cases h
  obtain ⟨hkept, hcomp, hstore, haw, hcol, hdone, hresp⟩ := tickReads_writes m reads bus
  rcases tickWrites_cases hw with ⟨hnone, rfl⟩ | ⟨aw, store, resp, hsome, hst, rfl⟩
  · exact .wait (hcomp.symm.trans hnone) hstore haw hcol hdone hresp
  · refine .store aw _ resp _ (hcomp.symm.trans hsome) ?_ rfl rfl rfl rfl
    have hput := storeBeats_eq hst
    rw [hkept] at hput
    exact hput

end Memory

/-! ## What the readings of a moment are -/

namespace Moment

variable {s s' : Machine} {slave : ReadSlave} {i : Nat} {p p' : Port} {rstep : ReadStep}
  {wstep : WriteStep}

theorem wires?_tick (hs : s.memory.readWires = .ok slave) :
    wires? (s, .tick) = some ⟨s.reads slave, s.writes⟩ := by
  show s.wires.toOption = _
  rw [Machine.wires_of_slave hs]
  rfl

theorem readerEdge_tick (hs : s.memory.readWires = .ok slave) (hp : s.ports[i]? = some p)
    (h : p.Edge (s.readBus slave i p) (s.writeBus i p) rstep wstep p') :
    readerEdge i (s, .tick) = some (p.readInputs (s.readBus slave i p), rstep) := by
  unfold readerEdge
  rw [wires?_tick hs]
  simp only [Option.bind_eq_bind, Option.bind_some, hp, Machine.reads_up_getElem? hp, h.reader]
  rfl

theorem writerEdge_tick (hs : s.memory.readWires = .ok slave) (hp : s.ports[i]? = some p)
    (h : p.Edge (s.readBus slave i p) (s.writeBus i p) rstep wstep p') :
    writerEdge i (s, .tick) = some (p.writeInputs (s.writeBus i p), wstep) := by
  unfold writerEdge
  rw [wires?_tick hs]
  simp only [Option.bind_eq_bind, Option.bind_some, hp, Machine.writes_up_getElem? hp, h.writer]
  rfl

/-- What a writer did is what its step says and what reached it. -/
theorem writer_tick (hs : s.memory.readWires = .ok slave) (hp : s.ports[i]? = some p)
    (h : p.Edge (s.readBus slave i p) (s.writeBus i p) rstep wstep p') :
    writerTakes i (s, .tick)
        = (if wstep.taken then (p.writeInputs (s.writeBus i p)).desc else none).toList
      ∧ writerIssues i (s, .tick) = wstep.issued.toList
      ∧ writerAnswers i (s, .tick) = (s.writeBus i p).bFired.toList := by
  unfold writerTakes writerIssues writerAnswers
  rw [writerEdge_tick hs hp h]
  exact ⟨rfl, rfl, rfl⟩

theorem memoryStores?_tick (hs : s.memory.readWires = .ok slave) :
    memoryStores? (s, .tick)
      = (s.memory.completes? s.writes.down).map fun (aw, beats) =>
          (aw.id, burstWrites s.memory.store.geometry aw.addr beats) := by
  unfold memoryStores?
  rw [wires?_tick hs]
  simp only [Option.bind_eq_bind, Option.bind_some]
  cases s.memory.completes? s.writes.down <;> rfl

theorem memoryStores_tick (hs : s.memory.readWires = .ok slave) (i : Nat) :
    memoryStores i (s, .tick)
      = match s.memory.completes? s.writes.down with
        | some (aw, beats) =>
          if aw.id = i then burstWrites s.memory.store.geometry aw.addr beats else []
        | none => [] := by
  unfold memoryStores
  rw [memoryStores?_tick hs]
  cases s.memory.completes? s.writes.down <;> rfl

end Moment

/-- A tick changes the words that the memory stored. -/
theorem Machine.Edge.store {s s' : Machine} {slave : ReadSlave} (h : s.Edge slave s') :
    s'.memory.store = Moment.storeAfter s.memory.store (s, .tick) := by
  show _ = s.memory.store.putAll _
  rw [Moment.memoryStores?_tick h.drives]
  cases Memory.tick_writeEdge h.memory with
  | wait hnone hstore =>
      rw [hnone, hstore]
      rfl
  | store aw beats resp due hsome hstore =>
      rw [hsome, hstore]
      rfl

end BurstDma
