import BurstDma.Proofs.Access
import BurstDma.Proofs.ClockEdge

/-!
# The clock and the counters change nothing

A machine counts cycles, bursts, words and grants, and its memory measures latencies against
a clock of its own. Nothing is ever decided by such a number alone: what is due is always
compared with the clock. **A machine that is ahead of another one by a constant lead does
what the other one does, and stays ahead by that lead.**

`Machine.ahead` adds a lead. Each part of the machine has a lemma that says that its clock
edge keeps it, and `Machine.ahead_replay` says so about every sequence of operations.
-/

namespace BurstDma

/-! ## Leads -/

/-- What a port has counted more than another. -/
structure PortLead where
  reads : EngineStats := {}
  writes : EngineStats := {}
  pushed : Nat := 0

/-- How far the clock and the counters of a machine are ahead of those of another. -/
structure Lead where
  cycle : Nat := 0
  /-- The lead of the memory's own clock. -/
  clock : Nat := 0
  memory : MemoryStats := {}
  readGrants : Nat → Nat := fun _ => 0
  writeGrants : Nat → Nat := fun _ => 0
  ports : Nat → PortLead := fun _ => {}

def EngineStats.ahead (s o : EngineStats) : EngineStats where
  bursts := s.bursts + o.bursts
  words := s.words + o.words
  transfers := s.transfers + o.transfers
  errors := s.errors + o.errors

def MemoryStats.ahead (s o : MemoryStats) : MemoryStats where
  readBursts := s.readBursts + o.readBursts
  writeBursts := s.writeBursts + o.writeBursts
  readWords := s.readWords + o.readWords
  writeWords := s.writeWords + o.writeWords
  errors := s.errors + o.errors

/-- Counts per requester. -/
def countsAhead (o : Nat → Nat) (counts : List Nat) : List Nat :=
  counts.mapIdx fun i n => n + o i

theorem countsAhead_modify (o : Nat → Nat) (counts : List Nat) (k : Nat) :
    (countsAhead o counts).modify k (· + 1) = countsAhead o (counts.modify k (· + 1)) := by
  unfold countsAhead
  apply List.ext_getElem?
  intro i
  simp only [List.getElem?_modify, List.getElem?_mapIdx]
  by_cases h : k = i
  · cases counts[i]? with
    | none => simp [h]
    | some n => simp [h]; omega
  · cases counts[i]? <;> simp [h]

def ReadEngine.ahead (o : EngineStats) (e : ReadEngine) : ReadEngine :=
  { e with stats := e.stats.ahead o }

def WriteEngine.ahead (o : EngineStats) (e : WriteEngine) : WriteEngine :=
  { e with stats := e.stats.ahead o }

def Source.ahead (n : Nat) (s : Source) : Source :=
  { s with pushed := s.pushed + n }

def Port.ahead (o : PortLead) (p : Port) : Port :=
  { p with
    reader := p.reader.ahead o.reads
    writer := p.writer.ahead o.writes
    source := p.source.ahead o.pushed }

def ReadArbiter.ahead (o : Nat → Nat) (a : ReadArbiter) : ReadArbiter :=
  { a with grants := countsAhead o a.grants }

def WriteArbiter.ahead (o : Nat → Nat) (a : WriteArbiter) : WriteArbiter :=
  { a with grants := countsAhead o a.grants }

def ReadJob.ahead (clock : Nat) (job : ReadJob) : ReadJob :=
  { job with readyAt := job.readyAt + clock }

/-- What is due moves with the clock. -/
def Memory.ahead (clock : Nat) (o : MemoryStats) (m : Memory) : Memory :=
  { m with
    cycle := m.cycle + clock
    reads := m.reads.map (·.ahead clock)
    response := m.response.map fun r => (r.1, r.2 + clock)
    stats := m.stats.ahead o }

def TraceRecord.ahead (cycle : Nat) (r : TraceRecord) : TraceRecord :=
  { r with cycle := r.cycle + cycle }

/-- The machine with its clock and counters ahead by `o`. -/
def Machine.ahead (o : Lead) (s : Machine) : Machine :=
  { s with
    cycle := s.cycle + o.cycle
    ports := s.ports.map fun p => p.ahead (o.ports p.index)
    readArbiter := s.readArbiter.ahead o.readGrants
    writeArbiter := s.writeArbiter.ahead o.writeGrants
    memory := s.memory.ahead o.clock o.memory
    newestEvents := s.newestEvents.map (·.ahead o.cycle) }

/-! ## Ports -/

theorem ReadEngine.ahead_tick (o : EngineStats) (e : ReadEngine) (i : ReadInputs) :
    (e.ahead o).tick i = (fun r => (r.1.ahead o, r.2)) <$> e.tick i := by
  have hcount : ∀ (step : ReadStep) (fin : Bool),
      count (e.stats.ahead o) i step fin = (count e.stats i step fin).ahead o := by
    intro step fin
    simp only [count, EngineStats.ahead, EngineStats.mk.injEq]
    omega
  unfold tick
  rw [map_bind]
  refine bind_congr ?_
  rintro ⟨core, step⟩
  rw [map_bind]
  refine bind_congr fun _ => ?_
  rw [map_pure]
  exact congrArg (fun st => pure (({ e with core, stats := st } : ReadEngine), step))
    (hcount step _)

theorem WriteEngine.ahead_tick (o : EngineStats) (e : WriteEngine) (i : WriteInputs) :
    (e.ahead o).tick i = (fun r => (r.1.ahead o, r.2)) <$> e.tick i := by
  have hcount : ∀ (step : WriteStep) (fin : Bool),
      count (e.stats.ahead o) i step fin = (count e.stats i step fin).ahead o := by
    intro step fin
    simp only [count, EngineStats.ahead, EngineStats.mk.injEq]
    omega
  unfold tick
  rw [map_bind]
  refine bind_congr ?_
  rintro ⟨core, step⟩
  rw [map_bind]
  refine bind_congr fun _ => ?_
  rw [map_pure]
  exact congrArg (fun st => pure (({ e with core, stats := st } : WriteEngine), step))
    (hcount step _)

theorem Source.ahead_tick (n : Nat) (s : Source) (f : Fifo) :
    (s.ahead n).tick f = ((s.tick f).1, (s.tick f).2.1.ahead n, (s.tick f).2.2) := by
  unfold tick
  show (if 0 < s.wait then _ else _) = _
  by_cases hw : 0 < s.wait
  · rw [if_pos hw, if_pos hw]
    rfl
  · rw [if_neg hw, if_neg hw]
    rw [show (s.ahead n).queue = s.queue from rfl]
    cases hq : s.queue with
    | nil => rfl
    | cons b rest =>
        dsimp only
        cases hp : f.push? b with
        | none => rfl
        | some g =>
            have hpushed : s.pushed + n + 1 = s.pushed + 1 + n := by omega
            exact congrArg (fun k => (some b, (⟨s.throttle, rest, s.throttle, k⟩ : Source), g))
              hpushed

namespace Port

theorem ahead_tickReader (o : PortLead) (p : Port) (bus : ReadBus) :
    (p.ahead o).tickReader bus = (·.ahead o) <$> p.tickReader bus := by
  unfold tickReader
  rw [show (p.ahead o).reader = p.reader.ahead o.reads from rfl, ReadEngine.ahead_tick,
    bind_map_left, map_bind]
  refine bind_congr ?_
  rintro ⟨reader, step⟩
  dsimp only
  cases hpush : step.push with
  | none => rfl
  | some beat =>
      dsimp only
      rw [show (p.ahead o).readFifo = p.readFifo from rfl]
      cases p.readFifo.push? beat <;> rfl

theorem ahead_tickWriter (o : PortLead) (p : Port) (bus : WriteBus) :
    (p.ahead o).tickWriter bus = (·.ahead o) <$> p.tickWriter bus := by
  unfold tickWriter
  rw [show (p.ahead o).writer = p.writer.ahead o.writes from rfl, WriteEngine.ahead_tick,
    bind_map_left, map_bind]
  refine bind_congr ?_
  rintro ⟨writer, step⟩
  dsimp only
  rw [map_bind]
  exact bind_congr fun f => rfl

theorem ahead_tickStreams (o : PortLead) (p : Port) :
    (p.ahead o).tickStreams = (·.ahead o) <$> p.tickStreams := by
  unfold tickStreams
  rw [show (p.ahead o).source.tick (p.ahead o).writeFifo = _
    from Source.ahead_tick o.pushed p.source p.writeFifo]
  dsimp only
  rw [map_bind]
  exact bind_congr fun r => rfl

theorem ahead_tick (o : PortLead) (p : Port) (reads : ReadBus) (writes : WriteBus) :
    (p.ahead o).tick reads writes = (·.ahead o) <$> p.tick reads writes := by
  unfold tick
  rw [ahead_tickReader, bind_map_left, map_bind]
  refine bind_congr fun p₁ => ?_
  rw [ahead_tickWriter, bind_map_left, map_bind]
  refine bind_congr fun p₂ => ?_
  rw [ahead_tickStreams]
  cases p₂.tickStreams <;> rfl

end Port

/-! ## Arbiters -/

theorem ReadArbiter.ahead_tick (o : Nat → Nat) (a : ReadArbiter) (w : ReadWires) :
    (a.ahead o).tick w = (·.ahead o) <$> a.tick w := by
  have hgrants : (if w.grant.isSome then (a.ahead o).grants.modify a.selected (· + 1)
        else (a.ahead o).grants)
      = countsAhead o (if w.grant.isSome then a.grants.modify a.selected (· + 1)
        else a.grants) := by
    split
    · exact countsAhead_modify o a.grants a.selected
    · rfl
  unfold tick
  rw [map_bind]
  refine bind_congr fun inputs => ?_
  rw [map_bind]
  refine bind_congr fun _ => ?_
  dsimp only
  rw [map_bind]
  refine bind_congr fun granted => ?_
  rw [map_bind]
  refine bind_congr fun owners => ?_
  rw [map_bind]
  refine bind_congr fun data => ?_
  rw [map_pure]
  exact congrArg (fun grants => pure
    ({ a with turn := a.nextTurn w, owners, inputs, granted, data, grants } : ReadArbiter)) hgrants

theorem WriteArbiter.ahead_tick (o : Nat → Nat) (a : WriteArbiter) (w : WriteWires) :
    (a.ahead o).tick w = (·.ahead o) <$> a.tick w := by
  have hgrants := countsAhead_modify o a.grants a.selected
  have hlock : (a.ahead o).lock = a.lock := rfl
  unfold tick
  dsimp only
  rw [hlock]
  cases a.lock with
  | select =>
      dsimp only
      split
      · rw [map_bind]
        refine bind_congr fun _ => ?_
        rw [map_pure]
        exact congrArg (fun grants => pure ({ a with
          lock := lockFor a.selected w.down.awFired.isSome (w.down.wFired.any (·.last))
          grants } : WriteArbiter)) hgrants
      · split
        · rename_i hnone
          have hnone' : requests w &&& Grant.oneHot a.selected = 0 := hnone
          rw [if_pos hnone']
          rfl
        · rename_i hsome
          have hsome' : ¬ requests w &&& Grant.oneHot a.selected = 0 := hsome
          rw [if_neg hsome']
          rfl
  | writeChannel id addrDone => rfl
  | addressChannel id => rfl
  | responseChannel id =>
      dsimp only
      split <;> rfl

/-! ## The memory -/

namespace Memory

variable (clock : Nat) (o : MemoryStats) (m : Memory)

/-- **What is due is due on both clocks.** -/
theorem due_ahead {α : Type} (x : Option α) (f : α → α) (at_ : α → Nat)
    (hf : ∀ a, at_ (f a) = at_ a + clock) :
    (x.map f).filter (at_ · ≤ m.cycle + clock) = (x.filter (at_ · ≤ m.cycle)).map f := by
  cases x with
  | none => rfl
  | some a =>
      have hiff : at_ (f a) ≤ m.cycle + clock ↔ at_ a ≤ m.cycle := by rw [hf]; omega
      by_cases h : at_ a ≤ m.cycle
      · have hl : Option.filter (at_ · ≤ m.cycle + clock) (some (f a)) = some (f a) :=
          if_pos (decide_eq_true (hiff.mpr h))
        have hr : Option.filter (at_ · ≤ m.cycle) (some a) = some a :=
          if_pos (decide_eq_true h)
        rw [Option.map_some, hl, hr, Option.map_some]
      · have hl : Option.filter (at_ · ≤ m.cycle + clock) (some (f a)) = none :=
          if_neg (by rw [decide_eq_true_iff, hiff]; exact h)
        have hr : Option.filter (at_ · ≤ m.cycle) (some a) = none :=
          if_neg (by rw [decide_eq_true_iff]; exact h)
        rw [Option.map_some, hl, hr, Option.map_none]

theorem ahead_readWires : (m.ahead clock o).readWires = m.readWires := by
  have hdue : (m.ahead clock o).reads.head?.filter (·.readyAt ≤ (m.ahead clock o).cycle)
      = (m.reads.head?.filter (·.readyAt ≤ m.cycle)).map (·.ahead clock) := by
    rw [← due_ahead clock m m.reads.head? _ _ fun _ => rfl, ← List.head?_map]
    rfl
  have hlen : (m.ahead clock o).reads.length = m.reads.length := List.length_map _
  unfold readWires
  rw [hdue, hlen]
  cases m.reads.head?.filter (·.readyAt ≤ m.cycle) <;> rfl

theorem ahead_writeWires : (m.ahead clock o).writeWires = m.writeWires := by
  have hdue : (m.ahead clock o).response.filter (·.2 ≤ (m.ahead clock o).cycle)
      = (m.response.filter (·.2 ≤ m.cycle)).map fun r => (r.1, r.2 + clock) :=
    due_ahead clock m m.response _ _ fun _ => rfl
  have hnone : (m.ahead clock o).response.isNone = m.response.isNone := Option.isNone_map
  unfold writeWires
  rw [hdue, hnone, Option.map_map]
  rfl

/-- The memory after it has sent a beat. -/
def afterBeat (m : Memory) (beat : ReadBeat) : Memory :=
  { m with
    reads :=
      if beat.last then m.reads.tail
      else m.reads.modifyHead fun job => { job with beat := job.beat + 1 }
    stats := { m.stats with
      readWords := m.stats.readWords + 1
      errors := m.stats.errors + if beat.resp.isError then 1 else 0 } }

/-- The memory after it has accepted a read. -/
def afterRequest (m : Memory) (request : AddrReq) : Memory :=
  { m with
    reads := m.reads ++ [⟨request, m.cycle + max m.params.readLatency 1, 0⟩]
    stats := { m.stats with readBursts := m.stats.readBursts + 1 } }

theorem tickReads_eq (bus : ReadBus) :
    m.tickReads bus = bus.arFired.elim (bus.rFired.elim m m.afterBeat)
      (bus.rFired.elim m m.afterBeat).afterRequest := by
  unfold tickReads
  cases bus.rFired <;> cases bus.arFired <;> rfl

theorem ahead_afterBeat (beat : ReadBeat) :
    (m.ahead clock o).afterBeat beat = (m.afterBeat beat).ahead clock o := by
  have hreads : (if beat.last then (m.reads.map (·.ahead clock)).tail
        else (m.reads.map (·.ahead clock)).modifyHead fun job => { job with beat := job.beat + 1 })
      = (if beat.last then m.reads.tail
          else m.reads.modifyHead fun job => { job with beat := job.beat + 1 }).map
        (·.ahead clock) := by
    cases m.reads <;> split <;> rfl
  simp only [afterBeat, ahead, MemoryStats.ahead, hreads, Memory.mk.injEq, MemoryStats.mk.injEq,
    true_and]
  omega

theorem ahead_afterRequest (request : AddrReq) :
    (m.ahead clock o).afterRequest request = (m.afterRequest request).ahead clock o := by
  simp only [afterRequest, ahead, MemoryStats.ahead, ReadJob.ahead, List.map_append,
    List.map_singleton, List.append_cancel_left_eq, Memory.mk.injEq, MemoryStats.mk.injEq,
    List.cons.injEq, ReadJob.mk.injEq, true_and, and_true]
  omega

theorem ahead_tickReads (bus : ReadBus) :
    (m.ahead clock o).tickReads bus = (m.tickReads bus).ahead clock o := by
  rw [tickReads_eq, tickReads_eq]
  cases bus.rFired with
  | none =>
      cases bus.arFired with
      | none => rfl
      | some request => exact ahead_afterRequest clock o m request
  | some beat =>
      have hbeat := ahead_afterBeat clock o m beat
      cases bus.arFired with
      | none => exact hbeat
      | some request =>
          dsimp only [Option.elim]
          rw [hbeat]
          exact ahead_afterRequest clock o (m.afterBeat beat) request

theorem ahead_collect (bus : WriteBus) :
    (m.ahead clock o).collect bus = (m.collect bus).ahead clock o := by
  unfold collect
  cases bus.bFired <;> cases bus.awFired <;> cases bus.wFired <;> rfl

theorem ahead_commit (aw : AddrReq) :
    (m.ahead clock o).commit aw = (·.ahead clock o) <$> m.commit aw := by
  unfold commit
  rw [map_bind]
  refine bind_congr fun _ => ?_
  rw [map_bind]
  refine bind_congr ?_
  rintro ⟨store, resp⟩
  rw [map_bind]
  refine bind_congr fun _ => ?_
  rw [map_pure]
  refine congrArg pure ?_
  have hdue : m.cycle + clock + max m.params.writeLatency 1
      = m.cycle + max m.params.writeLatency 1 + clock := by omega
  simp only [Memory.ahead, MemoryStats.ahead, Memory.mk.injEq, MemoryStats.mk.injEq,
    Option.map_some, hdue]
  refine ⟨trivial, trivial, trivial, trivial, trivial, trivial, trivial, trivial, trivial, ?_,
    trivial, ?_, ?_⟩ <;> omega

theorem ahead_tick (reads : ReadBus) (writes : WriteBus) :
    (m.ahead clock o).tick reads writes = (·.ahead clock o) <$> m.tick reads writes := by
  have hwrites : ∀ k : Memory,
      (k.ahead clock o).tickWrites writes = (·.ahead clock o) <$> k.tickWrites writes := by
    intro k
    unfold tickWrites
    rw [ahead_collect]
    dsimp only
    rw [show ((k.collect writes).ahead clock o).dataDone = (k.collect writes).dataDone from rfl,
      show ((k.collect writes).ahead clock o).aw = (k.collect writes).aw from rfl]
    cases (k.collect writes).dataDone with
    | false => rfl
    | true =>
        cases (k.collect writes).aw with
        | none => rfl
        | some aw => exact ahead_commit clock o _ aw
  unfold tick
  rw [ahead_tickReads, hwrites, bind_map_left, map_bind]
  refine bind_congr fun k => ?_
  rw [map_pure]
  have hclock : k.cycle + clock + 1 = k.cycle + 1 + clock := by omega
  exact congrArg (fun n => pure ({ k.ahead clock o with cycle := n } : Memory)) hclock

end Memory

/-! ## The machine -/

/-- What is made of a result only matters where there is one. -/
theorem Run.map_congr_of_ok {α β : Type} {x : Run α} {f g : α → β}
    (h : ∀ a, x.result = .ok a → f a = g a) : f <$> x = g <$> x := by
  obtain ⟨transcript, result⟩ := x
  cases result with
  | error fault => rfl
  | ok a =>
      rw [map_eq_pure_bind, map_eq_pure_bind]
      show (⟨transcript ++ [], .ok (f a)⟩ : Run β) = ⟨transcript ++ [], .ok (g a)⟩
      rw [h a rfl]

namespace Machine

variable (o : Lead) (s : Machine)

/-- A port with the lead that its number has. -/
def portAhead (p : Port) : Port :=
  p.ahead (o.ports p.index)

theorem ahead_wires : (s.ahead o).wires = s.wires := by
  have hreads : (s.ahead o).ports.map (·.readWires) = s.ports.map (·.readWires) := by
    show (s.ports.map (portAhead o)).map _ = _
    rw [List.map_map]
    rfl
  have hwrites : (s.ahead o).ports.map (·.writeWires) = s.ports.map (·.writeWires) := by
    show (s.ports.map (portAhead o)).map _ = _
    rw [List.map_map]
    rfl
  unfold wires
  rw [hreads, hwrites,
    show (s.ahead o).memory.readWires = _ from Memory.ahead_readWires o.clock o.memory s.memory,
    show (s.ahead o).memory.writeWires = _ from Memory.ahead_writeWires o.clock o.memory s.memory]
  rfl

theorem ahead_cycleEvents (w : MachineWires) :
    (s.ahead o).cycleEvents w = (s.cycleEvents w).map (·.ahead o.cycle) := by
  unfold cycleEvents
  rw [List.map_flatten, List.map_map,
    show (s.ahead o).ports = s.ports.map (portAhead o) from rfl, List.zip_map_left, List.map_map]
  refine congrArg List.flatten (List.map_congr_left ?_)
  rintro ⟨p, reads, writes⟩ _
  show (portEvents (portAhead o p) reads writes).map _ = ((portEvents p reads writes).map _).map _
  rw [List.map_map]
  rfl

theorem ahead_tickPorts (ps : List Port) (rs : List ReadBus) (ws : List WriteBus) :
    tickPorts (ps.map (portAhead o)) rs ws = List.map (portAhead o) <$> tickPorts ps rs ws := by
  induction ps generalizing rs ws with
  | nil =>
      rw [List.map_nil, tickPorts]
      · rfl
      · intro p ps r rs w ws hp; cases hp
  | cons p ps ih =>
      cases rs with
      | nil =>
          unfold tickPorts
          rfl
      | cons r rs =>
          cases ws with
          | nil =>
              unfold tickPorts
              rfl
          | cons w ws =>
              -- a port keeps its number, so its lead stays the same
              have hport : (portAhead o p).tick r w = portAhead o <$> p.tick r w := by
                refine (Port.ahead_tick (o.ports p.index) p r w).trans ?_
                refine Run.map_congr_of_ok fun p' hp' => ?_
                obtain ⟨rstep, wstep, hedge⟩ := Port.tick_edge hp'
                rw [portAhead, hedge.index]
              rw [List.map_cons, tickPorts, tickPorts, hport, bind_map_left, map_bind]
              refine bind_congr fun p' => ?_
              rw [ih, bind_map_left, map_bind]
              exact bind_congr fun rest => rfl

theorem ahead_tick : (s.ahead o).tick = (·.ahead o) <$> s.tick := by
  unfold tick
  rw [ahead_wires, map_bind]
  refine bind_congr fun w => ?_
  have hevents : (if (s.ahead o).capture then
        ((s.ahead o).cycleEvents w).reverse ++ (s.ahead o).newestEvents
        else (s.ahead o).newestEvents)
      = (if s.capture then (s.cycleEvents w).reverse ++ s.newestEvents
          else s.newestEvents).map (·.ahead o.cycle) := by
    rw [ahead_cycleEvents]
    show (if s.capture then _ ++ s.newestEvents.map _ else s.newestEvents.map _) = _
    split
    · rw [List.map_append, List.map_reverse]
    · rfl
  dsimp only
  rw [hevents, show (s.ahead o).memory.tick w.reads.down w.writes.down = _
    from Memory.ahead_tick o.clock o.memory s.memory w.reads.down w.writes.down,
    bind_map_left, map_bind]
  refine bind_congr fun memory => ?_
  rw [show (s.ahead o).readArbiter.tick w.reads = _
    from ReadArbiter.ahead_tick o.readGrants s.readArbiter w.reads, bind_map_left, map_bind]
  refine bind_congr fun readArbiter => ?_
  rw [show (s.ahead o).writeArbiter.tick w.writes = _
    from WriteArbiter.ahead_tick o.writeGrants s.writeArbiter w.writes, bind_map_left, map_bind]
  refine bind_congr fun writeArbiter => ?_
  rw [show tickPorts (s.ahead o).ports w.reads.up w.writes.up = _
    from ahead_tickPorts o s.ports w.reads.up w.writes.up, bind_map_left, map_bind]
  refine bind_congr fun ports => ?_
  rw [map_pure]
  have hcycle : s.cycle + o.cycle + 1 = s.cycle + 1 + o.cycle := by omega
  exact congrArg (fun cycle => pure ({
    cycle
    ports := ports.map (portAhead o)
    readArbiter := readArbiter.ahead o.readGrants
    writeArbiter := writeArbiter.ahead o.writeGrants
    memory := memory.ahead o.clock o.memory
    capture := s.capture
    newestEvents := (if s.capture then (s.cycleEvents w).reverse ++ s.newestEvents
      else s.newestEvents).map (·.ahead o.cycle) } : Machine)) hcycle

/-! ## Between the ticks -/

theorem ahead_port (k : Nat) : (s.ahead o).ports[k]? = (s.ports[k]?).map (portAhead o) :=
  List.getElem?_map

theorem ahead_setPort (q : Port) :
    (s.ahead o).setPort (portAhead o q) = (s.setPort q).ahead o := by
  have hports : (s.ports.map (portAhead o)).set q.index (portAhead o q)
      = (s.ports.set q.index q).map (portAhead o) := List.map_set.symm
  exact congrArg (fun ports => ({ s.ahead o with ports } : Machine)) hports

theorem ahead_decode (addr : UInt32) :
    (s.ahead o).decode addr
      = Option.map (fun found => (portAhead o found.1, found.2)) <$> s.decode addr := by
  unfold decode
  rw [ahead_port]
  cases s.ports[((addr >>> 16) &&& 0xff).toNat]? <;> rfl

theorem ahead_writeRegister (addr value : UInt32) :
    (s.ahead o).writeRegister addr value = (·.ahead o) <$> s.writeRegister addr value := by
  unfold writeRegister
  rw [ahead_decode, bind_map_left, map_bind]
  refine bind_congr fun found => ?_
  cases found with
  | none => rfl
  | some found =>
      obtain ⟨p, side, index⟩ := found
      cases side with
      | reader =>
          dsimp only [Option.map_some]
          rw [map_bind]
          refine bind_congr fun regs => ?_
          rw [map_pure, ← ahead_setPort]
          rfl
      | writer =>
          dsimp only [Option.map_some]
          rw [map_bind]
          refine bind_congr fun regs => ?_
          rw [map_pure, ← ahead_setPort]
          rfl

/-- **Registers show no counter.** -/
theorem ahead_readRegister (addr : UInt32) :
    (s.ahead o).readRegister addr = s.readRegister addr := by
  unfold readRegister
  rw [ahead_decode, bind_map_left]
  refine bind_congr fun found => ?_
  cases found with
  | none => rfl
  | some found =>
      obtain ⟨p, side, index⟩ := found
      cases side <;> rfl

theorem ahead_irq (line : Nat) : (s.ahead o).irq line = s.irq line := by
  unfold irq
  rw [ahead_port]
  cases s.ports[line / 2]? <;> rfl

theorem ahead_isQuiescent : (s.ahead o).isQuiescent = s.isQuiescent := by
  have hports : (s.ahead o).ports.all (fun p => p.isQuiescent && p.source.isDrained)
      = s.ports.all fun p => p.isQuiescent && p.source.isDrained := by
    show (s.ports.map (portAhead o)).all _ = _
    rw [List.all_map]
    rfl
  have hmemory : (s.ahead o).memory.isIdle = s.memory.isIdle := by
    unfold Memory.isIdle
    have hreads : (s.ahead o).memory.reads.isEmpty = s.memory.reads.isEmpty := List.isEmpty_map
    have hresponse : (s.ahead o).memory.response.isNone = s.memory.response.isNone :=
      Option.isNone_map
    rw [hreads, hresponse]
    rfl
  unfold isQuiescent
  rw [hports, hmemory]
  rfl

theorem ahead_events : (s.ahead o).events = s.events.map (·.ahead o.cycle) :=
  List.map_reverse.symm

theorem ahead_pushStream (port : Nat) (beats : List Beat) :
    (s.ahead o).pushStream port beats = (s.pushStream port beats).map (·.ahead o) := by
  unfold pushStream
  rw [ahead_port]
  cases hp : s.ports[port]? with
  | none => rfl
  | some p => exact congrArg Except.ok (ahead_setPort o s { p with source := p.source.extend beats })

theorem ahead_takeOutput (port : Nat) :
    (s.ahead o).takeOutput port = (s.takeOutput port).map fun r => (r.1, r.2.ahead o) := by
  unfold takeOutput
  rw [ahead_port]
  cases hp : s.ports[port]? with
  | none => rfl
  | some p =>
      exact congrArg (fun t => Except.ok (p.sink.received, t))
        (ahead_setPort o s { p with sink := p.sink.take.2 })

theorem ahead_reset : (s.ahead o).reset.result = s.reset.result.map (·.ahead o) := by
  have hports : (s.ports.map (portAhead o)).map (·.reset)
      = (s.ports.map (·.reset)).map (portAhead o) := by
    rw [List.map_map, List.map_map]
    rfl
  exact congrArg (fun ports => Except.ok { s.reset.result.toOption.getD s with
    cycle := s.cycle + o.cycle
    memory := s.memory.reset.ahead o.clock o.memory
    readArbiter := s.readArbiter.reset.ahead o.readGrants
    writeArbiter := s.writeArbiter.reset.ahead o.writeGrants
    ports
    newestEvents := [] }) hports

end Machine

theorem Run.result_map {α β : Type} (f : α → β) (x : Run α) :
    (f <$> x).result = x.result.map f := by
  rw [map_eq_pure_bind, Run.result_bind]
  cases x.result <;> rfl

/-- **No operation sees the lead.** -/
theorem Operation.ahead_apply (o : Lead) (s : Machine) (op : Operation) :
    op.apply (s.ahead o) = (op.apply s).map (·.ahead o) := by
  cases op with
  | write addr value =>
      have h := congrArg Run.result (Machine.ahead_writeRegister o s addr value)
      rwa [Run.result_map] at h
  | read addr =>
      show ((s.ahead o).readRegister addr).result.map (fun _ => s.ahead o)
        = ((s.readRegister addr).result.map fun _ => s).map (·.ahead o)
      rw [Machine.ahead_readRegister]
      cases (s.readRegister addr).result <;> rfl
  | push port beats => exact Machine.ahead_pushStream o s port beats
  | take port =>
      show ((s.ahead o).takeOutput port).map (·.2) = ((s.takeOutput port).map (·.2)).map (·.ahead o)
      rw [Machine.ahead_takeOutput]
      cases s.takeOutput port <;> rfl
  | load base words =>
      have hload : (s.ahead o).loadMemory base words
          = (s.loadMemory base words).map (·.ahead o) := by
        unfold Machine.loadMemory
        show (s.memory.store.load base words).map _ = _
        cases s.memory.store.load base words <;> rfl
      unfold apply
      dsimp only
      rw [hload]
      cases s.loadMemory base words with
      | ok t => rfl
      | error stop => cases stop <;> rfl
  | tick =>
      have h := congrArg Run.result (Machine.ahead_tick o s)
      rwa [Run.result_map] at h
  | reset => exact Machine.ahead_reset o s

/-- **A machine with a lead does what the other one does, and keeps its lead.** -/
theorem Machine.ahead_replay (o : Lead) (s : Machine) (ops : List Operation) :
    (s.ahead o).replay ops
      = (s.replay ops).map fun r => (r.1.map fun e => (e.1.ahead o, e.2), r.2.ahead o) := by
  induction ops generalizing s with
  | nil => rfl
  | cons op ops ih =>
      unfold replay
      rw [Operation.ahead_apply]
      cases op.apply s with
      | error fault => rfl
      | ok next =>
          show ((next.ahead o).replay ops >>= _) = Except.map _ (next.replay ops >>= _)
          rw [ih]
          cases next.replay ops <;> rfl

end BurstDma
