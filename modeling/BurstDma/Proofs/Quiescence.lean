import BurstDma.Proofs.Descriptors
import BurstDma.Proofs.Recording
import BurstDma.Proofs.Rest
import BurstDma.Simulation.Basic

/-!
# A quiescent machine stays as it is

`Machine.isQuiescent` asks every part of the machine for itself whether it has anything left to
do. That is enough: when all of them have nothing, no channel offers anything, and **what a
clock cycle then does is to let the machine age**, `Machine.idled`. The clocks go on, the
throttles of the streams run down, and an engine whose error latch was to be cleared clears it.
Nothing else changes, however many cycles go by, and nothing is said or recorded.
-/

namespace BurstDma

/-! ## Silent wires -/

/-- A read bus on which nothing is offered. -/
def ReadBus.Silent (b : ReadBus) : Prop :=
  b.master.ar = none ∧ b.slave.r = none

/-- A write bus on which nothing is offered. -/
def WriteBus.Silent (b : WriteBus) : Prop :=
  b.master.aw = none ∧ b.master.w = none ∧ b.slave.b = none

/-- No channel of the machine offers anything. -/
structure MachineWires.Silent (w : MachineWires) : Prop where
  reads : ∀ bus ∈ w.reads.up, bus.Silent
  writes : ∀ bus ∈ w.writes.up, bus.Silent
  memoryReads : w.reads.down.Silent
  memoryWrites : w.writes.down.Silent

/-- What is not offered does not move. -/
theorem ReadBus.Silent.fired {b : ReadBus} (h : b.Silent) : b.arFired = none ∧ b.rFired = none := by
  unfold arFired rFired
  rw [h.1, h.2]
  exact ⟨ite_self _, ite_self _⟩

theorem WriteBus.Silent.fired {b : WriteBus} (h : b.Silent) :
    b.awFired = none ∧ b.wFired = none ∧ b.bFired = none := by
  unfold awFired wFired bFired
  rw [h.1, h.2.1, h.2.2]
  exact ⟨ite_self _, ite_self _, ite_self _⟩

/-! ## The parts -/

theorem Grant.ofLines_of_silent {lines : List Bool} (h : ∀ line ∈ lines, line = false) :
    ofLines lines = 0 := by
  have hfold : ∀ (pairs : List (Bool × Nat)) (acc : UInt32), (∀ x ∈ pairs, x.1 = false) →
      pairs.foldl (fun acc x => if x.1 then acc ||| oneHot x.2 else acc) acc = acc := by
    intro pairs
    induction pairs with
    | nil => exact fun _ _ => rfl
    | cons x pairs ih =>
        obtain ⟨line, i⟩ := x
        intro acc hall
        obtain rfl : line = false := hall (line, i) List.mem_cons_self
        exact ih acc fun y hy => hall y (List.mem_cons_of_mem _ hy)
  exact hfold _ 0 fun x hx => h x.1 (List.fst_mem_of_mem_zipIdx hx)

/-- Without a request the turn stays. -/
theorem RoundRobin.advance_zero (r : RoundRobin) : r.advance 0 = r := by
  have hnone : (0 : UInt32).toUInt64 &&& Grant.laneMask r.lanes = 0 := UInt64.zero_and
  unfold advance Grant.pick
  dsimp only
  rw [hnone, if_pos rfl]

/-- The memory when nothing reaches it. -/
theorem Memory.tick_silent {m : Memory} {reads : ReadBus} {writes : WriteBus} (hidle : m.aw = none)
    (hreads : reads.Silent) (hwrites : writes.Silent) :
    m.tick reads writes = pure { m with cycle := m.cycle + 1 } := by
  obtain ⟨har, hr⟩ := hreads.fired
  obtain ⟨haw, hw, hb⟩ := hwrites.fired
  have hstill : m.tickReads reads = m := by
    unfold tickReads
    rw [har, hr]
  have hcollect : m.collect writes = m := by
    unfold collect
    rw [haw, hw, hb]
    rfl
  have hwait : m.tickWrites writes = pure m := by
    unfold tickWrites
    rw [hcollect]
    dsimp only
    rw [hidle]
    cases m.dataDone <;> rfl
  unfold tick
  rw [hstill, hwait]
  rfl

/-- Nobody competes for the read bus. -/
theorem ReadArbiter.offers_silent {a : ReadArbiter} {masters : List ReadMaster}
    (hinputs : ∀ skid ∈ a.inputs, skid = {}) (hmasters : ∀ m ∈ masters, m.ar = none) :
    ∀ offer ∈ a.offers masters, offer = none := by
  intro offer hoffer
  unfold offers at hoffer
  split at hoffer
  · obtain ⟨skid, hskid, rfl⟩ := List.mem_map.mp hoffer
    rw [hinputs skid hskid]
    rfl
  · obtain ⟨m, hm, rfl⟩ := List.mem_map.mp hoffer
    exact hmasters m hm

/-- The read arbiter when nothing reaches it. -/
theorem ReadArbiter.tick_silent {a : ReadArbiter} {w : ReadWires} (hidle : a.isIdle = true)
    (hlen : a.inputs.length = w.up.length) (hup : ∀ bus ∈ w.up, bus.Silent) (hdown : w.down.Silent)
    (hgrant : w.grant = none) : a.tick w = pure a := by
  obtain ⟨howners, hgranted, hdata, hinputs⟩ := isIdle_iff.mp hidle
  obtain ⟨har, hr⟩ := hdown.fired
  have hnone : delivered a.owners w = none := by
    unfold delivered Ownership.head?
    rw [howners]
    rfl
  have hskids : a.nextInputs w = .ok a.inputs := by
    unfold nextInputs
    split
    · have hmap : (a.inputs.zip w.up).zipIdx.map (Prod.fst ∘ Prod.fst) = a.inputs := by
        rw [← List.map_map, List.zipIdx_map_fst, List.map_fst_zip (Nat.le_of_eq hlen)]
      refine (mapM_map fun x hx => ?_).trans (congrArg Except.ok hmap)
      obtain ⟨⟨skid, bus⟩, i⟩ := x
      obtain ⟨hskid, hbus⟩ := List.of_mem_zip (List.fst_mem_of_mem_zipIdx hx)
      dsimp only
      rw [(hup bus hbus).fired.1, hinputs skid hskid]
      cases i == a.selected && w.grant.isSome <;> rfl
    · rfl
  have hmasters : ∀ m ∈ w.up.map (·.master), m.ar = none := by
    intro m hm
    obtain ⟨bus, hbus, rfl⟩ := List.mem_map.mp hm
    exact (hup bus hbus).1
  have hturn : a.nextTurn w = a.turn := by
    have hquiet : a.requests w = 0 := by
      refine Grant.ofLines_of_silent fun line hline => ?_
      obtain ⟨offer, hoffer, rfl⟩ := List.mem_map.mp hline
      rw [offers_silent hinputs hmasters offer hoffer]
      rfl
    unfold nextTurn
    dsimp only
    rw [hquiet, RoundRobin.advance_zero, ite_self]
  have hgranted' : a.granted.tick none w.down.arFired.isSome = .ok a.granted := by
    rw [har, hgranted]
    rfl
  have hdata' : a.data.tick w.down.rFired false = .ok a.data := by
    rw [hr, hdata]
    rfl
  unfold tick
  dsimp only
  rw [hskids, hgrant, Option.isSome_none, if_neg Bool.false_ne_true, if_neg Bool.false_ne_true,
    hnone, hturn, hgranted', ite_self, Option.isSome_none, hdata', ite_self]
  rfl

/-- The write arbiter when nothing reaches it. -/
theorem WriteArbiter.tick_silent {a : WriteArbiter} {w : WriteWires} (hidle : a.isIdle = true)
    (hup : ∀ bus ∈ w.up, bus.Silent) (hdown : w.down.Silent) : a.tick w = pure a := by
  have hlock : a.lock = .select := beq_iff_eq.mp hidle
  obtain ⟨haw, hw, _⟩ := hdown.fired
  have hquiet : requests w = 0 := by
    refine Grant.ofLines_of_silent fun line hline => ?_
    obtain ⟨bus, hbus, rfl⟩ := List.mem_map.mp hline
    rw [(hup bus hbus).1, (hup bus hbus).2.1]
    rfl
  obtain ⟨turn, lock, grants⟩ := a
  cases hlock
  unfold tick
  dsimp only
  rw [hquiet, haw, hw, RoundRobin.advance_zero]
  exact ite_self _

/-! ## Engines and ports -/

/-- The engine with its error latch cleared, if that was asked for. -/
def ReadEngine.relieved (clear : Bool) (e : ReadEngine) : ReadEngine :=
  { e with core := { e.core with error := if clear then .okay else e.core.error } }

/-- The engine with its error latch cleared, if that was asked for. -/
def WriteEngine.relieved (clear : Bool) (e : WriteEngine) : WriteEngine :=
  { e with core := { e.core with error := if clear then .okay else e.core.error } }

/-- What a reader takes in when nothing comes. -/
theorem ReadCore.receive_quiet (c : ReadCore) {i : ReadInputs} (hb : i.beat = none) :
    c.receive i = pure ({ c with error := if i.clearError then .okay else c.error }, none) := by
  unfold receive
  rw [hb]
  cases i.clearError <;> rfl

theorem ReadCore.proceed_idle {c : ReadCore} (g : Geometry) (before : Pending) {i : ReadInputs}
    (hph : c.phase = .idle) (hd : i.desc = none) : proceed g before c i = .ok (c, {}) := by
  unfold proceed
  rw [hph, hd]

/-- An idle reader to which nothing comes. -/
theorem ReadEngine.tick_idle {e : ReadEngine} {i : ReadInputs} (hidle : e.isIdle = true)
    (hd : i.desc = none) (hb : i.beat = none) :
    e.tick i = pure (e.relieved i.clearError, {}) := by
  have hph : e.core.phase = .idle := beq_iff_eq.mp hidle
  have hnext : e.core.next e.geometry i
      = pure ({ e.core with error := if i.clearError then .okay else e.core.error }, {}) := by
    unfold ReadCore.next
    rw [e.core.receive_quiet hb]
    dsimp only
    rw [pure_bind]
    dsimp only
    rw [ReadCore.proceed_idle _ _ (by exact hph) hd]
    rfl
  obtain ⟨name, g, core, stats⟩ := e
  obtain ⟨phase⟩ := core
  cases hph
  unfold tick
  rw [hnext]
  unfold report count
  rw [hd, hb]
  rfl

/-- What a writer takes in when nothing comes. -/
theorem WriteCore.receive_quiet (c : WriteCore) {i : WriteInputs} (hb : i.b = none) :
    c.receive i = pure { c with error := if i.clearError then .okay else c.error } := by
  unfold receive
  rw [hb]
  cases i.clearError <;> rfl

theorem WriteCore.proceed_idle {c : WriteCore} (g : Geometry) {i : WriteInputs}
    (hph : c.phase = .idle) (hd : i.desc = none) : proceed g c i = pure (c, {}) := by
  unfold proceed
  rw [hph, hd]

/-- An idle writer to which nothing comes. -/
theorem WriteEngine.tick_idle {e : WriteEngine} {i : WriteInputs} (hidle : e.isIdle = true)
    (hd : i.desc = none) (hb : i.b = none) :
    e.tick i = pure (e.relieved i.clearError, {}) := by
  have hph : e.core.phase = .idle := beq_iff_eq.mp hidle
  have hnext : e.core.next e.geometry i
      = pure ({ e.core with error := if i.clearError then .okay else e.core.error }, {}) := by
    unfold WriteCore.next
    rw [e.core.receive_quiet hb, pure_bind, WriteCore.proceed_idle _ (by exact hph) hd]
  obtain ⟨name, g, core, stats⟩ := e
  obtain ⟨phase⟩ := core
  cases hph
  unfold tick
  rw [hnext]
  unfold report count
  rw [hd, hb]
  rfl

/-- Without beats, a source only rests. -/
theorem Source.tick_drained {s : Source} {f : Fifo} (h : s.queue = []) :
    s.tick f = (none, { s with wait := s.wait - 1 }, f) := by
  obtain ⟨throttle, queue, wait, pushed⟩ := s
  cases h
  cases wait <;> rfl

/-- So does a sink at an empty buffer. -/
theorem Sink.tick_empty (s : Sink) {f : Fifo} (h : f.beats = []) :
    s.tick f = .ok (none, { s with wait := s.wait - 1 }, f) := by
  obtain ⟨capacity, frameLatch, beats, endsHeld⟩ := f
  obtain ⟨throttle, newestFirst, wait⟩ := s
  cases h
  cases wait <;> rfl

/-- The registers after a number of cycles in which nothing came of them. -/
def RegisterFile.idled (n : Nat) (f : RegisterFile) : RegisterFile :=
  { f with clearError := f.clearError && n == 0 }

/-- The port after a number of cycles in which it had nothing to do. -/
def Port.idled (n : Nat) (p : Port) : Port :=
  { p with
    reader := p.reader.relieved (p.readRegs.clearError && n != 0)
    writer := p.writer.relieved (p.writeRegs.clearError && n != 0)
    readRegs := p.readRegs.idled n
    writeRegs := p.writeRegs.idled n
    source := { p.source with wait := p.source.wait - n }
    sink := { p.sink with wait := p.sink.wait - n } }

/-- The machine after a number of cycles in which it had nothing to do. -/
def Machine.idled (n : Nat) (s : Machine) : Machine :=
  { s with
    cycle := s.cycle + n
    ports := s.ports.map (·.idled n)
    memory := { s.memory with cycle := s.memory.cycle + n } }

namespace Port

variable {p : Port}

theorem Quiet.idled (h : p.Quiet) (n : Nat) : (p.idled n).Quiet :=
  ⟨h.reader, h.writer, h.readHolding, h.writeHolding, h.readFifo, h.writeFifo, h.queue⟩

theorem idled_zero (p : Port) : p.idled 0 = p := by
  unfold idled RegisterFile.idled ReadEngine.relieved WriteEngine.relieved
  simp

theorem idled_succ (p : Port) (n : Nat) : (p.idled 1).idled n = p.idled (n + 1) := by
  obtain ⟨index, reader, writer, readFifo, writeFifo, readRegs, writeRegs, source, sink⟩ := p
  obtain ⟨_, _, _, _, _, clearReader, _⟩ := readRegs
  obtain ⟨_, _, _, _, _, clearWriter, _⟩ := writeRegs
  unfold idled RegisterFile.idled ReadEngine.relieved WriteEngine.relieved
  cases clearReader <;> cases clearWriter <;> simp [Nat.sub_sub, Nat.add_comm]

/-- A port that has nothing to do drives nothing. -/
theorem Quiet.wires (h : p.Quiet) :
    p.readWires.ar = none ∧ p.writeWires.aw = none ∧ p.writeWires.w = none := by
  have hr : p.reader.core.phase = .idle := beq_iff_eq.mp h.reader
  have hw : p.writer.core.phase = .idle := beq_iff_eq.mp h.writer
  refine ⟨?_, ?_, ?_⟩
  · show (if p.reader.core.phase = .issueBurst then some p.reader.core.request else none) = none
    rw [hr, if_neg (by decide)]
  · show (if p.writer.core.phase = .issueBurst then some p.writer.core.request else none) = none
    rw [hw, if_neg (by decide)]
  · show (if p.writer.core.phase = .transferBurst then _ else none) = none
    rw [hw, if_neg (by decide)]

theorem Quiet.tickReader (h : p.Quiet) {bus : ReadBus} (hb : bus.Silent) :
    p.tickReader bus = pure { p with
      reader := p.reader.relieved p.readRegs.clearError
      readRegs := p.readRegs.cleared } := by
  have hph : p.reader.core.phase = .idle := beq_iff_eq.mp h.reader
  have hd : (p.readInputs bus).desc = none := by
    unfold readInputs
    rw [h.readHolding, ite_self]
  unfold Port.tickReader
  rw [ReadEngine.tick_idle h.reader hd hb.fired.2, pure_bind]
  unfold ReadCore.outputs
  rw [hph]
  rfl

theorem Quiet.tickWriter (h : p.Quiet) {bus : WriteBus} (hb : bus.Silent) :
    p.tickWriter bus = pure { p with
      writer := p.writer.relieved p.writeRegs.clearError
      writeRegs := p.writeRegs.cleared } := by
  have hph : p.writer.core.phase = .idle := beq_iff_eq.mp h.writer
  have hd : (p.writeInputs bus).desc = none := by
    unfold writeInputs
    rw [h.writeHolding, ite_self]
  unfold Port.tickWriter
  rw [WriteEngine.tick_idle h.writer hd hb.fired.2.2, pure_bind]
  unfold writeOutputs WriteCore.outputs
  rw [hph]
  rfl

/-- At the ends of the streams only the throttles run. -/
theorem Quiet.tickStreams (h : p.Quiet) :
    p.tickStreams = .ok { p with
      source := { p.source with wait := p.source.wait - 1 }
      sink := { p.sink with wait := p.sink.wait - 1 } } := by
  unfold Port.tickStreams
  rw [Source.tick_drained h.queue, Sink.tick_empty _ h.readFifo]
  rfl

/-- **A port that has nothing to do ages.** -/
theorem Quiet.tick (h : p.Quiet) {reads : ReadBus} {writes : WriteBus} (hr : reads.Silent)
    (hw : writes.Silent) : p.tick reads writes = pure (p.idled 1) := by
  have hread : Quiet { p with
      reader := p.reader.relieved p.readRegs.clearError
      readRegs := p.readRegs.cleared } :=
    ⟨h.reader, h.writer, h.readHolding, h.writeHolding, h.readFifo, h.writeFifo, h.queue⟩
  have hwritten : Quiet { p with
      reader := p.reader.relieved p.readRegs.clearError
      readRegs := p.readRegs.cleared
      writer := p.writer.relieved p.writeRegs.clearError
      writeRegs := p.writeRegs.cleared } :=
    ⟨h.reader, h.writer, h.readHolding, h.writeHolding, h.readFifo, h.writeFifo, h.queue⟩
  unfold Port.tick
  rw [h.tickReader hr, pure_bind, hread.tickWriter hw, pure_bind, hwritten.tickStreams]
  unfold Port.idled RegisterFile.idled
  rw [show (1 == 0) = false from rfl, show (1 != 0) = true from rfl, Bool.and_false,
    Bool.and_false, Bool.and_true, Bool.and_true]
  rfl

end Port

/-! ## The machine -/

namespace Machine

variable {params : MachineParams} {s t : Machine}

/-- The memory drives nothing when it has nothing to answer. -/
theorem AtRest.readWires (h : s.AtRest) : ∃ slave, s.memory.readWires = .ok slave
    ∧ slave.r = none := by
  obtain ⟨hreads, _⟩ := Memory.isIdle_iff.mp h.memory
  refine ⟨⟨decide (s.memory.reads.length < s.memory.params.readOutstanding), none⟩, ?_, rfl⟩
  unfold Memory.readWires
  rw [hreads]
  rfl

/-- The read wires of quiet ports. -/
theorem AtRest.reads_silent (h : s.AtRest) (hports : ∀ p ∈ s.ports, p.Quiet) {slave : ReadSlave}
    (hs : slave.r = none) :
    (∀ bus ∈ (s.reads slave).up, bus.Silent) ∧ (s.reads slave).down.Silent
      ∧ (s.reads slave).grant = none := by
  obtain ⟨howners, hgranted, _, hinputs⟩ := ReadArbiter.isIdle_iff.mp h.readArbiter
  have hnobody : s.readArbiter.owners.head? = none := by
    unfold Ownership.head?
    rw [howners]
    rfl
  have hmasters : ∀ m ∈ s.ports.map (·.readWires), m.ar = none := by
    intro m hm
    obtain ⟨p, hp, rfl⟩ := List.mem_map.mp hm
    exact (hports p hp).wires.1
  have hselected : s.readArbiter.selectedOffer (s.ports.map (·.readWires)) = none := by
    unfold ReadArbiter.selectedOffer
    cases ho : (s.readArbiter.offers (s.ports.map (·.readWires)))[s.readArbiter.selected]? with
    | none => rfl
    | some offer =>
        rw [ReadArbiter.offers_silent hinputs hmasters offer (List.mem_of_getElem? ho)]
        rfl
  refine ⟨?_, ⟨?_, hs⟩, ?_⟩
  · intro bus hbus
    obtain ⟨⟨master, i⟩, hmem, rfl⟩ := List.mem_map.mp hbus
    obtain ⟨p, hp, rfl⟩ := List.mem_map.mp (List.fst_mem_of_mem_zipIdx hmem)
    refine ⟨(hports p hp).wires.1, ?_⟩
    show (if s.readArbiter.owners.head? = some i then _ else none) = none
    rw [hnobody, if_neg (Option.some_ne_none i).symm]
  · show (if s.readArbiter.outputRegister then s.readArbiter.granted.peek
      else if s.readArbiter.owners.isFull then none
      else s.readArbiter.selectedOffer (s.ports.map (·.readWires))) = none
    rw [hselected, hgranted, ite_self]
    exact ite_self _
  · unfold reads ReadArbiter.resolve
    dsimp only
    rw [hselected, ite_self]

/-- The write wires of quiet ports. -/
theorem AtRest.writes_silent (h : s.AtRest) (hports : ∀ p ∈ s.ports, p.Quiet) :
    (∀ bus ∈ s.writes.up, bus.Silent) ∧ s.writes.down.Silent := by
  obtain ⟨_, _, _, hresponse⟩ := Memory.isIdle_iff.mp h.memory
  have hanswer : s.memory.writeWires.b = none := by
    unfold Memory.writeWires
    rw [hresponse]
    rfl
  have howner : (s.writeArbiter.ownerWires (s.ports.map (·.writeWires))).aw = none
      ∧ (s.writeArbiter.ownerWires (s.ports.map (·.writeWires))).w = none := by
    unfold WriteArbiter.ownerWires
    rw [List.getElem?_map]
    cases hp : s.ports[s.writeArbiter.owner]? with
    | none => exact ⟨rfl, rfl⟩
    | some p => exact (hports p (List.mem_of_getElem? hp)).wires.2
  refine ⟨?_, ?_, ?_, hanswer⟩
  · intro bus hbus
    obtain ⟨⟨master, i⟩, hmem, rfl⟩ := List.mem_map.mp hbus
    obtain ⟨p, hp, rfl⟩ := List.mem_map.mp (List.fst_mem_of_mem_zipIdx hmem)
    obtain ⟨_, haw, hw⟩ := (hports p hp).wires
    refine ⟨haw, hw, ?_⟩
    show (s.writeArbiter.toRequester s.memory.writeWires i).b = none
    unfold WriteArbiter.toRequester
    split
    · rw [hanswer, ite_self]
    · rfl
  · show (if s.writeArbiter.lock.addressOpen then Option.map _
      (s.writeArbiter.ownerWires (s.ports.map (·.writeWires))).aw else none) = none
    rw [howner.1, Option.map_none, ite_self]
  · show (if s.writeArbiter.lock.dataOpen then
      (s.writeArbiter.ownerWires (s.ports.map (·.writeWires))).w else none) = none
    rw [howner.2, ite_self]

/-- **No channel of a quiescent machine offers anything.** -/
theorem wires_of_quiescent (h : s.isQuiescent = true) :
    ∃ w, s.wires = .ok w ∧ w.Silent ∧ w.reads.grant = none
      ∧ w.reads.up.length = s.ports.length ∧ w.writes.up.length = s.ports.length := by
  obtain ⟨hrest, hports⟩ := AtRest.of_quiescent h
  obtain ⟨slave, hs, hr⟩ := hrest.readWires
  obtain ⟨hup, hdown, hgrant⟩ := hrest.reads_silent hports hr
  obtain ⟨hwup, hwdown⟩ := hrest.writes_silent hports
  refine ⟨_, wires_of_slave hs, ⟨hup, hwup, hdown, hwdown⟩, hgrant, ?_, ?_⟩
  · simp [reads, ReadArbiter.resolve]
  · simp [writes, WriteArbiter.resolve]

/-- Nothing happens in its cycles. -/
theorem cycleEvents_silent {w : MachineWires} (hports : ∀ p ∈ s.ports, p.Quiet) (hw : w.Silent) :
    s.cycleEvents w = [] := by
  unfold cycleEvents
  rw [List.flatten_eq_nil_iff]
  intro events hevents
  obtain ⟨⟨p, reads, writes⟩, hmem, rfl⟩ := List.mem_map.mp hevents
  obtain ⟨hp, hbuses⟩ := List.of_mem_zip hmem
  obtain ⟨hreads, hwrites⟩ := List.of_mem_zip hbuses
  obtain ⟨har, hr⟩ := (hw.reads reads hreads).fired
  obtain ⟨haw, hwf, hb⟩ := (hw.writes writes hwrites).fired
  have hreader : p.reader.core.phase = .idle := beq_iff_eq.mp (hports p hp).reader
  have hwriter : p.writer.core.phase = .idle := beq_iff_eq.mp (hports p hp).writer
  unfold portEvents ReadCore.outputs Port.writeOutputs WriteCore.outputs
  dsimp only
  rw [har, hr, haw, hwf, hb, hreader, hwriter]
  rfl

theorem tickPorts_quiet {ps : List Port} {rs : List ReadBus} {ws : List WriteBus}
    (hps : ∀ p ∈ ps, p.Quiet) (hrs : ∀ bus ∈ rs, bus.Silent) (hws : ∀ bus ∈ ws, bus.Silent)
    (hr : rs.length = ps.length) (hw : ws.length = ps.length) :
    tickPorts ps rs ws = pure (ps.map (·.idled 1)) := by
  induction ps generalizing rs ws with
  | nil => cases rs <;> rfl
  | cons p ps ih =>
      obtain ⟨r, rs, rfl⟩ : ∃ r rs', rs = r :: rs' := List.exists_cons_of_length_eq_add_one hr
      obtain ⟨w, ws, rfl⟩ : ∃ w ws', ws = w :: ws' := List.exists_cons_of_length_eq_add_one hw
      simp only [List.mem_cons, forall_eq_or_imp] at hps hrs hws
      rw [tickPorts, hps.1.tick hrs.1 hws.1, pure_bind,
        ih hps.2 hrs.2 hws.2 (Nat.succ.inj hr) (Nat.succ.inj hw)]
      rfl

/-- **In a clock cycle a quiescent machine ages**, and says nothing. -/
theorem tick_quiescent (hlen : s.readArbiter.inputs.length = s.ports.length)
    (h : s.isQuiescent = true) : s.tick = pure (s.idled 1) := by
  obtain ⟨w, hwires, hw, hgrant, hreads, hwrites⟩ := wires_of_quiescent h
  obtain ⟨hrest, hports⟩ := AtRest.of_quiescent h
  obtain ⟨_, haw, _⟩ := Memory.isIdle_iff.mp hrest.memory
  have hrecords : (if s.capture then (s.cycleEvents w).reverse ++ s.newestEvents
      else s.newestEvents) = s.newestEvents := by
    rw [cycleEvents_silent hports hw]
    exact ite_self _
  unfold tick
  rw [hwires, show (liftM (Except.ok w : Except Fault MachineWires) : Run MachineWires) = pure w
    from rfl, pure_bind]
  dsimp only
  rw [hrecords, Memory.tick_silent haw hw.memoryReads hw.memoryWrites,
    ReadArbiter.tick_silent hrest.readArbiter (hlen.trans hreads.symm) hw.reads hw.memoryReads
      hgrant,
    WriteArbiter.tick_silent hrest.writeArbiter hw.writes hw.memoryWrites,
    tickPorts_quiet hports hw.reads hw.writes hreads hwrites]
  rfl

theorem isQuiescent_idled (h : s.isQuiescent = true) (n : Nat) :
    (s.idled n).isQuiescent = true := by
  obtain ⟨hrest, hports⟩ := AtRest.of_quiescent h
  have hall : (s.idled n).ports.all (fun p => p.isQuiescent && p.source.isDrained) = true := by
    rw [List.all_eq_true]
    intro p hp
    obtain ⟨q, hq, rfl⟩ := List.mem_map.mp hp
    exact Port.quiet_iff.mpr ((hports q hq).idled n)
  have hreads : (s.idled n).readArbiter.isIdle = true := hrest.readArbiter
  have hwrites : (s.idled n).writeArbiter.isIdle = true := hrest.writeArbiter
  have hmemory : (s.idled n).memory.isIdle = true := hrest.memory
  unfold isQuiescent
  rw [hall, hreads, hwrites, hmemory]
  rfl

theorem idled_zero (s : Machine) : s.idled 0 = s := by
  unfold idled
  rw [List.map_congr_left fun p _ => p.idled_zero, List.map_id']
  rfl

theorem idled_succ (s : Machine) (n : Nat) : (s.idled 1).idled n = s.idled (n + 1) := by
  unfold idled
  dsimp only
  rw [List.map_map, Nat.add_assoc, Nat.add_assoc, Nat.add_comm 1 n]
  congr 1
  exact List.map_congr_left fun p _ => p.idled_succ n

/-- **However many cycles go by, a quiescent machine only ages.** -/
theorem ticks_quiescent (hlen : s.readArbiter.inputs.length = s.ports.length)
    (h : s.isQuiescent = true) (n : Nat) : s.ticks n = pure (s.idled n) := by
  induction n generalizing s with
  | zero => rw [s.idled_zero]; rfl
  | succ n ih =>
      have hrest := ih (s := s.idled 1) (by
        show s.readArbiter.inputs.length = (s.ports.map _).length
        rw [List.length_map, hlen]) (isQuiescent_idled h 1)
      unfold ticks at hrest ⊢
      rw [Run.stepTimes_succ, tick_quiescent hlen h, pure_bind, hrest, idled_succ]

end Machine

end BurstDma
