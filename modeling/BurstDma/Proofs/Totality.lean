import BurstDma.Proofs.Bounds

/-!
# Every clock cycle has a result

Each part of the machine can stop it, and for each part one fact prevents that:

* a skid buffer is pushed only when it said that it is ready, `Skid.tick_ok`;
* a read beat belongs to the oldest owner, `Machine.delivered_owner`;
* the addresses that the memory computes lie within reach;
* a buffer counts its marks, so that no count is taken below zero;
* the registers of the engines fit, `ReadCore.next_ok` and `WriteCore.next_ok`.

What is left is the number of words that a frame-mode engine has written, which only the
stream can bound: `Machine.tick_ok` asks for that bound.
-/

namespace BurstDma

/-! ## The arbiters -/

namespace ReadArbiter

/-- A request enters a register only if the register said that it is ready. -/
theorem nextInputs_ok (a : ReadArbiter) (masters : List ReadMaster) (slave : ReadSlave) :
    ∃ inputs, a.nextInputs (a.resolve masters slave) = .ok inputs := by
  unfold nextInputs
  split
  · rename_i hreg
    refine mapM_ok fun ⟨⟨skid, bus⟩, i⟩ hmem => ?_
    obtain ⟨hskid, hbus⟩ :=
      List.getElem?_zip_eq_some.mp (List.mk_mem_zipIdx_iff_getElem?.mp hmem)
    refine Skid.tick_ok _ fun hfired => ?_
    have hslave : bus.slave = a.toRequester slave i := by
      simp only [resolve, List.getElem?_map, List.getElem?_zipIdx, Option.map_map,
        Option.map_eq_some_iff] at hbus
      obtain ⟨m, _, hbus⟩ := hbus
      rw [← hbus]
      simp
    have hready : bus.slave.arReady = true := by
      unfold ReadBus.arFired at hfired
      split at hfired
      · assumption
      · cases hfired
    rw [hslave] at hready
    unfold toRequester at hready
    rw [hreg, hskid] at hready
    exact hready
  · exact ⟨_, rfl⟩

/-- A beat that belongs to the oldest owner is no broken rule. -/
theorem owners_ok {owners : Ownership} {beat : Option ReadBeat}
    (h : ∀ b, beat = some b → owners.head? = some b.id) :
    ∃ o, (match beat with
      | none => .ok owners
      | some b =>
        if owners.head? = some b.id then .ok (if b.last then owners.pop else owners)
        else .error (.violation .readOutOfOrder) : Except Fault Ownership) = .ok o := by
  cases beat with
  | none => exact ⟨_, rfl⟩
  | some b => exact ⟨_, if_pos (h b rfl)⟩

/-- **A read arbiter has a next state** if the data comes in order. -/
theorem tick_ok (a : ReadArbiter) (masters : List ReadMaster) (slave : ReadSlave)
    (horder : ∀ b, a.deliveredBeat (a.resolve masters slave) = some b →
      (a.ownersAfterGrant (a.resolve masters slave)).head? = some b.id) :
    ∃ a', (a.tick (a.resolve masters slave)).result = .ok a' := by
  have hgranted : ∃ g, (if a.outputRegister then a.granted.tick
      (a.resolve masters slave).grant (a.resolve masters slave).down.arFired.isSome
      else .ok a.granted) = .ok g := by
    split
    · rename_i hreg
      refine Skid.tick_ok _ fun hsome => ?_
      obtain ⟨r, hr⟩ := Option.isSome_iff_exists.mp hsome
      obtain ⟨_, haccepts, _⟩ := grant_eq_some hr
      unfold accepts at haccepts
      rwa [hreg] at haccepts
    · exact ⟨_, rfl⟩
  have hdata : ∃ d, (if a.outputRegister then a.data.tick
      (a.resolve masters slave).down.rFired
      (a.deliveredBeat (a.resolve masters slave)).isSome else .ok a.data) = .ok d := by
    split
    · rename_i hreg
      refine Skid.tick_ok _ fun hsome => ?_
      unfold ReadBus.rFired at hsome
      split at hsome
      · rename_i hready
        have hready' : (a.toMemory masters).rReady = true := hready
        unfold toMemory at hready'
        rwa [hreg] at hready'
      · cases hsome
    · exact ⟨_, rfl⟩
  obtain ⟨inputs, hinputs⟩ := nextInputs_ok a masters slave
  obtain ⟨granted, hgranted⟩ := hgranted
  obtain ⟨data, hdata⟩ := hdata
  obtain ⟨owners, howners⟩ := owners_ok horder
  refine Run.bind_ok hinputs (Run.bind_ok (Run.result_noteIf _ _) ?_)
  refine Run.bind_ok hgranted (Run.bind_ok howners (Run.bind_ok hdata ?_))
  exact ⟨_, rfl⟩

end ReadArbiter

/-- A write arbiter has a next state whatever the wires say. -/
theorem WriteArbiter.tick_ok (a : WriteArbiter) (w : WriteWires) :
    ∃ a', (a.tick w).result = .ok a' := by
  unfold tick
  dsimp only
  cases a.lock with
  | select =>
      dsimp only
      split
      · exact Run.bind_ok (Run.result_note _) ⟨_, rfl⟩
      · split <;> exact ⟨_, rfl⟩
  | writeChannel id addrDone => exact ⟨_, rfl⟩
  | addressChannel id => exact ⟨_, rfl⟩
  | responseChannel id =>
      dsimp only
      split <;> exact ⟨_, rfl⟩

/-! ## The memory -/

namespace Store

variable {s : Store}

theorem locate_ok (hpos : s.geometry.wordBytes ≠ 0) (addr : Nat) :
    ∃ r, s.locate addr = .ok r := by
  unfold locate
  split
  · exact ⟨_, rfl⟩
  · have hindex : s.geometry.wordIndex addr = .ok (addr / s.geometry.wordBytes) := if_neg hpos
    rw [hindex]
    exact ⟨_, rfl⟩

theorem readAt_ok (hpos : s.geometry.wordBytes ≠ 0) (addr : Nat) :
    ∃ r, s.readAt addr = .ok r := by
  obtain ⟨r, hr⟩ := locate_ok hpos addr
  unfold readAt
  rw [hr]
  cases r <;> exact ⟨_, rfl⟩

theorem writeAt_ok (hpos : s.geometry.wordBytes ≠ 0) (addr : Nat) (w : Word) :
    ∃ r, s.writeAt addr w = .ok r := by
  obtain ⟨r, hr⟩ := locate_ok hpos addr
  unfold writeAt
  rw [hr]
  cases r <;> exact ⟨_, rfl⟩

end Store

namespace Memory

variable {m : Memory}

/-- **The memory drives its wires** if the words that it is at have addresses. -/
theorem readWires_ok (hpos : m.store.geometry.wordBytes ≠ 0)
    (hreach : ∀ job ∈ m.reads,
      job.request.addr + job.beat * m.store.geometry.wordBytes < limit64) :
    ∃ slave, m.readWires = .ok slave := by
  unfold readWires
  dsimp only
  split
  · exact ⟨_, rfl⟩
  · rename_i job hjob
    have hmem : job ∈ m.reads := List.mem_of_head? (Option.eq_some_of_filter_eq_some hjob)
    have haddr : m.store.geometry.advance job.request.addr job.beat
        = .ok (job.request.addr + job.beat * m.store.geometry.wordBytes) :=
      Checked.add_ok (hreach job hmem)
    obtain ⟨r, hr⟩ := Store.readAt_ok hpos
      (job.request.addr + job.beat * m.store.geometry.wordBytes)
    have hbeat : ∃ b, m.readBeat job = .ok b := by
      unfold readBeat
      rw [haddr]
      exact ⟨_, except_bind_eq_ok.mpr ⟨_, rfl, except_bind_eq_ok.mpr ⟨r, hr, rfl⟩⟩⟩
    obtain ⟨b, hb⟩ := hbeat
    rw [hb]
    exact ⟨_, rfl⟩

theorem storeBeats_ok (addr : Nat) (beats : List WriteBeat) (i : Nat) (s : Store) (worst : Resp)
    (hpos : s.geometry.wordBytes ≠ 0)
    (hreach : ∀ k < beats.length, addr + (i + k) % limit32 * s.geometry.wordBytes < limit64) :
    ∃ r, storeBeats addr i s worst beats = .ok r := by
  induction beats generalizing i s worst with
  | nil => exact ⟨_, rfl⟩
  | cons b rest ih =>
      rw [List.length_cons] at hreach
      have haddr : s.geometry.advance addr (i % limit32)
          = .ok (addr + i % limit32 * s.geometry.wordBytes) :=
        Checked.add_ok (hreach 0 (Nat.succ_pos _))
      obtain ⟨⟨s', resp⟩, hw⟩ :=
        Store.writeAt_ok hpos (addr + i % limit32 * s.geometry.wordBytes) b.data
      have hgeo : s'.geometry = s.geometry := by
        rw [Store.writeAt_eq hw]
        exact (Store.put_geometry _ _ _).1
      have hrest := ih (i + 1) s' (worst.worse resp) (by rw [hgeo]; exact hpos) fun k hk => by
        rw [hgeo, show i + 1 + k = i + (k + 1) by omega]
        exact hreach (k + 1) (Nat.succ_lt_succ hk)
      obtain ⟨r, hr⟩ := hrest
      refine ⟨r, ?_⟩
      unfold storeBeats
      rw [haddr]
      exact except_bind_eq_ok.mpr ⟨_, rfl, except_bind_eq_ok.mpr ⟨_, hw, hr⟩⟩

/-- **The memory has a next state** if the words of the burst that it completes have
addresses. -/
theorem tick_ok (hpos : m.store.geometry.wordBytes ≠ 0) (reads : ReadBus) (writes : WriteBus)
    (hreach : ∀ r beats, m.completes? writes = some (r, beats) → ∀ k < beats.length,
      r.addr + k % limit32 * m.store.geometry.wordBytes < limit64) :
    ∃ m', (m.tick reads writes).result = .ok m' := by
  obtain ⟨_, hcompletes, hstore, _⟩ := m.tickReads_writes reads writes
  have hwrites : ∃ m', ((m.tickReads reads).tickWrites writes).result = .ok m' := by
    unfold completes? at hcompletes hreach
    unfold tickWrites
    dsimp only at hcompletes hreach ⊢
    rw [← hcompletes] at hreach
    generalize (m.tickReads reads).collect writes = c at hreach hstore
    split
    · rename_i aw hdone haw
      rw [hdone, haw] at hreach
      have hfits := hreach aw c.collected rfl
      obtain ⟨r, hr⟩ := storeBeats_ok aw.addr c.collected 0 c.store .okay
        (by rw [hstore]; exact hpos) fun k hk => by
          rw [hstore, Nat.zero_add]
          exact hfits k hk
      unfold commit
      dsimp only
      refine Run.bind_ok (Run.result_noteIf _ _) (Run.bind_ok hr ?_)
      exact Run.bind_ok (Run.result_noteIf _ _) ⟨_, rfl⟩
    · exact ⟨_, rfl⟩
  obtain ⟨m', hm'⟩ := hwrites
  exact Run.bind_ok hm' ⟨_, rfl⟩

end Memory

/-! ## The ports -/

theorem ReadEngine.tick_ok {e : ReadEngine} {i : ReadInputs}
    (h : ∃ c step, (e.core.next e.geometry i).result = .ok (c, step)) :
    ∃ r, (e.tick i).result = .ok r := by
  obtain ⟨c, step, hnext⟩ := h
  exact Run.bind_ok hnext (Run.bind_ok (e.report_ok i c step) ⟨_, rfl⟩)

theorem WriteEngine.tick_ok {e : WriteEngine} {i : WriteInputs}
    (h : ∃ c step, (e.core.next e.geometry i).result = .ok (c, step)) :
    ∃ r, (e.tick i).result = .ok r := by
  obtain ⟨c, step, hnext⟩ := h
  exact Run.bind_ok hnext (Run.bind_ok (e.report_ok i c step) ⟨_, rfl⟩)

theorem Sink.tick_ok (s : Sink) {f : Fifo} (h : f.Tallied) : ∃ r, s.tick f = .ok r := by
  unfold tick
  split
  · exact ⟨_, rfl⟩
  · obtain ⟨b, f', hpop, _⟩ := h.pop
    rw [hpop]
    cases b <;> exact ⟨_, rfl⟩

/-- The reader's share of an edge leaves the writer's alone. -/
theorem Port.tickReader_ok {p : Port} {reads : ReadBus}
    (hread : ∃ r, (p.reader.tick (p.readInputs reads)).result = .ok r)
    (hfifo : p.readFifo.Tallied) :
    ∃ p', (p.tickReader reads).result = .ok p' ∧ p'.readFifo.Tallied ∧ p'.sink = p.sink
      ∧ p'.writer = p.writer ∧ p'.writeFifo = p.writeFifo ∧ p'.writeRegs = p.writeRegs := by
  obtain ⟨⟨reader, step⟩, hr⟩ := hread
  cases hpush : step.push with
  | none =>
      refine ⟨{ p with
        reader
        readRegs := nextRegs p.readRegs p.reader.core.outputs.done step.taken },
        Run.result_bind_eq_ok.mpr ⟨_, hr, ?_⟩, hfifo, rfl, rfl, rfl, rfl⟩
      dsimp only
      rw [hpush]
      rfl
  | some beat =>
      cases hfit : p.readFifo.push? beat with
      | none =>
          refine ⟨{ p with
            reader
            readRegs := nextRegs p.readRegs p.reader.core.outputs.done step.taken },
            Run.result_bind_eq_ok.mpr ⟨_, hr, ?_⟩, hfifo, rfl, rfl, rfl, rfl⟩
          dsimp only
          rw [hpush]
          dsimp only
          rw [hfit]
          rfl
      | some readFifo =>
          refine ⟨{ p with
            reader
            readRegs := nextRegs p.readRegs p.reader.core.outputs.done step.taken
            readFifo },
            Run.result_bind_eq_ok.mpr ⟨_, hr, ?_⟩, hfifo.push hfit, rfl, rfl, rfl, rfl⟩
          dsimp only
          rw [hpush]
          dsimp only
          rw [hfit]
          rfl

/-- The writer's share of an edge leaves the reader's alone. -/
theorem Port.tickWriter_ok {p : Port} {writes : WriteBus}
    (hwrite : ∃ r, (p.writer.tick (p.writeInputs writes)).result = .ok r)
    (hfifo : p.writeFifo.Tallied) :
    ∃ p', (p.tickWriter writes).result = .ok p' ∧ p'.readFifo = p.readFifo
      ∧ p'.sink = p.sink := by
  obtain ⟨⟨writer, step⟩, hr⟩ := hwrite
  obtain ⟨f, hf⟩ : ∃ f, (if step.pop then p.writeFifo.pop.map (·.2) else .ok p.writeFifo
      : Except Fault Fifo) = .ok f := by
    split
    · obtain ⟨b, f', hpop, _⟩ := hfifo.pop
      exact ⟨f', except_map_eq_ok.mpr ⟨_, hpop, rfl⟩⟩
    · exact ⟨_, rfl⟩
  exact ⟨{ p with
    writer
    writeRegs := nextRegs p.writeRegs p.writeOutputs.done step.taken
    writeFifo := f },
    Run.result_bind_eq_ok.mpr ⟨_, hr, Run.result_bind_eq_ok.mpr ⟨f, hf, rfl⟩⟩, rfl, rfl⟩

/-- **A port has a next state** if its engines have. -/
theorem Port.tick_ok {p : Port} {reads : ReadBus} {writes : WriteBus}
    (hread : ∃ r, (p.reader.tick (p.readInputs reads)).result = .ok r)
    (hwrite : ∃ r, (p.writer.tick (p.writeInputs writes)).result = .ok r)
    (hrf : p.readFifo.Tallied) (hwf : p.writeFifo.Tallied) :
    ∃ p', (p.tick reads writes).result = .ok p' := by
  obtain ⟨q, hq, htallied, hsink, hwriter, hfifo, hregs⟩ := p.tickReader_ok hread hrf
  -- the writer sees what it saw before
  have hinputs : q.writeInputs writes = p.writeInputs writes := by
    unfold writeInputs writeOutputs
    rw [hwriter, hfifo, hregs]
  obtain ⟨r, hr, hkept, hkept'⟩ := q.tickWriter_ok (by rw [hwriter, hinputs]; exact hwrite)
    (by rw [hfifo]; exact hwf)
  obtain ⟨t, ht⟩ := r.sink.tick_ok (f := r.readFifo) (by rw [hkept]; exact htallied)
  refine Run.bind_ok hq (Run.bind_ok hr ?_)
  exact ⟨_, except_bind_eq_ok.mpr ⟨t, ht, rfl⟩⟩

theorem Machine.tickPorts_ok {ps : List Port} {rs : List ReadBus} {ws : List WriteBus}
    (h : ∀ (k : Nat) (p : Port) (r : ReadBus) (w : WriteBus), ps[k]? = some p →
      rs[k]? = some r → ws[k]? = some w → ∃ p', (p.tick r w).result = .ok p') :
    ∃ ps', (tickPorts ps rs ws).result = .ok ps' := by
  induction ps generalizing rs ws with
  | nil => exact ⟨[], rfl⟩
  | cons p ps ih =>
      cases rs with
      | nil => exact ⟨[], rfl⟩
      | cons r rs =>
          cases ws with
          | nil => exact ⟨[], rfl⟩
          | cons w ws =>
              obtain ⟨p', hp'⟩ := h 0 p r w rfl rfl rfl
              obtain ⟨ps', hps'⟩ := ih fun k q r' w' => h (k + 1) q r' w'
              exact Run.bind_ok hp' (Run.bind_ok hps' ⟨_, rfl⟩)

/-! ## The machine -/

namespace Machine

variable {params : MachineParams} {s : Machine} {slave : ReadSlave} {i : Nat} {p : Port}

/-- A burst that was asked for has a word that was not sent yet. -/
theorem bursts_le_awaited {bound : Nat} (hf : s.ReadPathFormed) (hm : s.Mirrored bound)
    (hp : s.ports[i]? = some p) : p.reader.core.pending.bursts ≤ s.awaited i := by
  have hwords : ∀ {α : Type} (f : α → List Nat) (xs : List α), (∀ x ∈ xs, 1 ≤ (f x).length) →
      xs.length ≤ (xs.flatMap f).length := by
    intro α f xs h
    induction xs with
    | nil => exact Nat.le_refl _
    | cons x xs ih =>
        have hx := h x List.mem_cons_self
        have hrest := ih fun y hy => h y (List.mem_cons_of_mem _ hy)
        rw [List.flatMap_cons, List.length_append, List.length_cons]
        omega
  have hreq : ∀ r : AddrReq, 1 ≤ (r.addresses s.memory.store.geometry).length := by
    intro r
    unfold AddrReq.addresses AddrReq.beats
    rw [Geometry.length_span]
    omega
  -- the bursts of the port, place by place
  have hdata : (ReadArbiter.enders s.readArbiter.data.contents).count i ≤ (s.held i).length := by
    unfold ReadArbiter.enders held
    rw [ReadArbiter.count_map_eq, List.filter_filter, ← List.countP_eq_length_filter,
      ← List.countP_eq_length_filter]
    refine List.countP_mono_left fun b _ hb => ?_
    rw [Bool.and_eq_true] at hb
    exact hb.1
  have hreads : (s.memory.reads.map (·.request.id)).count i ≤ (s.memory.unsent i).length := by
    rw [ReadArbiter.count_map_eq]
    refine hwords _ _ fun job hjob => ?_
    have hopen := hf.reads job (List.mem_filter.mp hjob).1
    unfold ReadJob.addresses
    rw [Geometry.length_span]
    omega
  have hgranted : (s.readArbiter.granted.contents.map (·.id)).count i
      ≤ ((s.readArbiter.granted.contents.filter (·.id == i)).flatMap
        (·.addresses s.memory.store.geometry)).length := by
    rw [ReadArbiter.count_map_eq]
    exact hwords _ _ fun r _ => hreq r
  have hwaiting : (s.readArbiter.waiting i).length
      ≤ ((s.readArbiter.waiting i).flatMap
        (·.addresses s.memory.store.geometry)).length := hwords _ _ fun r _ => hreq r
  rw [hm.counted i p hp, hm.owners]
  unfold inFlight awaited unsent
  rw [List.count_append, List.count_append, List.length_append, List.length_append]
  omega

/-- The words that the memory is at lie within reach. -/
theorem jobs_reach (hr : Machine.Reachable params s) :
    ∀ job ∈ s.memory.reads,
      job.request.addr + job.beat * params.geometry.wordBytes ≤ reach params.geometry := by
  obtain ⟨hf, hm⟩ := mirrored_reachable hr
  intro job hjob
  have hlt : job.request.id < s.ports.length := by
    refine inFlight_lt hm ?_
    unfold inFlight
    refine List.mem_append_left _ (List.mem_append_right _ ?_)
    exact List.mem_map_of_mem hjob
  refine (bounded_reachable hr).reach job.request.id _ (List.getElem?_eq_getElem hlt) _ ?_
  unfold unsent Memory.unsent
  refine List.mem_append_left _ (List.mem_append_left _ (List.mem_flatMap.mpr ?_))
  refine ⟨job, List.mem_filter.mpr ⟨hjob, beq_self_eq_true _⟩, ?_⟩
  rw [hf.geometry, Memory.addresses_step _ (hf.reads.reads job hjob)]
  exact List.mem_cons_self

/-- A reachable machine settles its wires. -/
theorem drives_ok (hg : params.geometry.Legal) (hr : Machine.Reachable params s) :
    ∃ slave, s.memory.readWires = .ok slave := by
  have hf := hr.formed
  have hlim := reach_le hg
  have hbytes := hg.wordBytes_le
  refine Memory.readWires_ok ?_ fun job hjob => ?_
  · rw [hf.geometry]
    exact Nat.pos_iff_ne_zero.mp hg.wordBytes_pos
  · rw [hf.geometry]
    exact Nat.lt_of_le_of_lt (jobs_reach hr job hjob) (by omega)

/-- Data moves only while the write bus is open for it. -/
theorem no_data_of_closed (ho : s.WriteOrderly)
    (hl : ∀ id, s.writeArbiter.lock ≠ .writeChannel id true) : s.writes.down.wFired = none := by
  have hstage := ho.stage
  cases hp : s.ports[s.writeArbiter.owner]? with
  | none =>
      cases hlock : s.writeArbiter.lock with
      | select => exact (no_owner_fires hp (by rw [hlock]; rfl)).2.1
      | writeChannel id addrDone =>
          rw [hlock] at hstage
          cases hstage
          exact absurd hlock (hl id)
      | addressChannel id => exact (no_owner_fires hp (by rw [hlock]; rfl)).2.1
      | responseChannel id =>
          rw [hlock] at hstage
          obtain ⟨hlt, _⟩ := hstage.answer_inv
          have howner : s.writeArbiter.owner = id := WriteArbiter.owner_eq hlock
          rw [howner, List.getElem?_eq_getElem hlt] at hp
          cases hp
  | some p =>
      rw [(owner_fires hp).2.1, (s.owner_bus p).2.1]
      cases hlock : s.writeArbiter.lock with
      | select =>
          rw [no_data_of_select ho hlock hp]
          exact ite_self _
      | writeChannel id addrDone =>
          rw [hlock] at hstage
          cases hstage
          exact absurd hlock (hl id)
      | addressChannel id => rfl
      | responseChannel id => rfl

/-- **The burst that the memory completes is that of the requester that holds the bus**, with the
beat that it sends now. -/
theorem completed_burst (ho : s.WriteOrderly) {r : AddrReq} {beats : List WriteBeat}
    (h : s.memory.completes? s.writes.down = some (r, beats)) :
    ∃ (id : Nat) (p : Port), s.ports[id]? = some p ∧ p.writer.core.phase = .transferBurst
      ∧ r.addr = p.writer.core.addr ∧ beats.length ≤ p.writer.core.beat + 1 := by
  obtain ⟨hdone, haw, hbeats⟩ : (s.memory.collect s.writes.down).dataDone = true
      ∧ (s.memory.collect s.writes.down).aw = some r
      ∧ (s.memory.collect s.writes.down).collected = beats := by
    unfold Memory.completes? at h
    dsimp only at h
    split at h
    · rename_i aw hdone haw
      cases h
      exact ⟨hdone, haw, rfl⟩
    · cases h
  by_cases hl : ∃ id, s.writeArbiter.lock = .writeChannel id true
  · obtain ⟨id, hl⟩ := hl
    obtain ⟨p, hp, howner, hnoaw, _, _⟩ := owner_of_data ho hl
    obtain ⟨hdaw, _, _⟩ := owner_fires (howner ▸ hp)
    rw [howner, hnoaw] at hdaw
    obtain ⟨hca, hcc, _, _⟩ := s.memory.collect_eq hdaw rfl rfl
    have hk := ho.port id p hp
    obtain ⟨r', hr', haddr, _, hlen⟩ := hk.burst hl
    rw [hca, hr'] at haw
    cases haw
    refine ⟨id, p, hp, hk.sending.mpr hl, haddr, ?_⟩
    rw [← hbeats, hcc, List.length_append, hlen]
    cases s.writes.down.wFired with
    | none => exact Nat.le_succ _
    | some b => exact Nat.le_refl _
  · have hnone := no_data_of_closed ho fun id hid => hl ⟨id, hid⟩
    obtain ⟨_, _, hcd, _⟩ := s.memory.collect_eq rfl hnone rfl
    rw [hcd, ho.stage.dataDone_eq] at hdone
    cases hdone

/-- It is no longer than a burst may be. -/
theorem completes_short (hr : Machine.Reachable params s) {r : AddrReq} {beats : List WriteBeat}
    (h : s.memory.completes? s.writes.down = some (r, beats)) : beats.length ≤ maxBurstWords := by
  obtain ⟨id, p, hp, hph, _, hmany⟩ := completed_burst (writeOrderly_reachable hr) h
  have hfits := ((bounded_reachable hr).port id p hp).writer
  have hburst := (hfits.burst (Or.inr hph)).2
  have hbeat := hfits.beat hph
  omega

/-- **It lies within reach.** -/
theorem completes_reach (hr : Machine.Reachable params s) {r : AddrReq} {beats : List WriteBeat}
    (h : s.memory.completes? s.writes.down = some (r, beats)) :
    r.addr + beats.length * params.geometry.wordBytes
      ≤ reach params.geometry + params.geometry.wordBytes := by
  obtain ⟨id, p, hp, hph, haddr, hmany⟩ := completed_burst (writeOrderly_reachable hr) h
  have hfits := ((bounded_reachable hr).port id p hp).writer
  -- the beat that comes goes to the next address
  have hnext := hfits.reach
  unfold WriteCore.nextAddr at hnext
  rw [if_pos hph, ← haddr] at hnext
  have hwritten := Nat.mul_le_mul_right params.geometry.wordBytes (Nat.le_of_lt hfits.written)
  have hmul := Nat.mul_le_mul_right params.geometry.wordBytes hmany
  rw [Nat.succ_mul] at hmul
  unfold BurstDma.reach
  omega

/-- **A reachable machine has a next state**, as long as no count of written words runs
over. -/
theorem tick_ok (hg : params.geometry.Legal) (hr : Machine.Reachable params s)
    (hwritten : ∀ (i : Nat) (p : Port), s.ports[i]? = some p →
      p.writer.core.phase = .transferBurst → p.writeFifo.head?.isSome = true →
      p.writer.core.written + 1 < limit32) : ∃ s', s.tick.result = .ok s' := by
  obtain ⟨hf, hm⟩ := mirrored_reachable hr
  obtain ⟨_, hcredit⟩ := credited_reachable hr
  have hb := bounded_reachable hr
  have ho := writeOrderly_reachable hr
  have hpos : s.memory.store.geometry.wordBytes ≠ 0 := by
    rw [hf.geometry]
    exact Nat.pos_iff_ne_zero.mp hg.wordBytes_pos
  have hlim := reach_le hg
  have hbytes := hg.wordBytes_le
  obtain ⟨slave, hslave⟩ := drives_ok hg hr
  -- the parts
  obtain ⟨memory, hmemory⟩ := s.memory.tick_ok hpos (s.reads slave).down s.writes.down
    fun r beats hbeats k hk => by
      have hreach := completes_reach hr hbeats
      have hmul := Nat.mul_le_mul_right params.geometry.wordBytes
        (Nat.le_trans (Nat.mod_le k limit32) (Nat.le_of_lt hk))
      have hmax : maxBurstWords = 16 := rfl
      rw [hf.geometry]
      omega
  obtain ⟨readArbiter, hread⟩ : ∃ a', (s.readArbiter.tick (s.reads slave)).result = .ok a' :=
    s.readArbiter.tick_ok _ slave fun b hb => delivered_owner hf.reads hm hslave hb
  obtain ⟨writeArbiter, hwrite⟩ := s.writeArbiter.tick_ok s.writes
  have hports : ∃ ps, (tickPorts s.ports (s.reads slave).up s.writes.up).result = .ok ps := by
    refine tickPorts_ok fun k p r w hp hrk hwk => ?_
    rw [reads_up_getElem? hp] at hrk
    rw [writes_up_getElem? hp] at hwk
    cases hrk
    cases hwk
    obtain ⟨q, _, hbuilt⟩ := hf.port k p hp
    obtain ⟨hsound, _⟩ := hcredit k p hp
    have hbound := hb.port k p hp
    have hfired := fired_le_awaited hf.reads hslave hread hp
    refine Port.tick_ok (ReadEngine.tick_ok ?_) (WriteEngine.tick_ok ?_) hbound.readFifo
      hbound.writeFifo
    · rw [hbuilt.readGeometry]
      exact ReadCore.next_ok hg hbound.reader hsound hfired (bursts_le_awaited hf.reads hm hp)
    · rw [hbuilt.writeGeometry]
      refine WriteCore.next_ok hg hbound.writer ?_ fun hfire => ?_
      · rw [(ho.port k p hp).outstanding]
        have hone : s.writeArbiter.lock.openFor k ≤ 1 := by
          unfold WriteLock.openFor
          split
          · exact Nat.zero_le _
          all_goals
            split
            · exact Nat.le_refl _
            · exact Nat.zero_le _
        have hlim32 : limit32 = 4294967296 := rfl
        omega
      · obtain ⟨hph, hhead⟩ := (s.phase_of_fires k p).2 hfire
        exact hwritten k p hp hph hhead
  obtain ⟨ports, hports⟩ := hports
  refine Run.bind_ok (wires_of_slave hslave) (Run.bind_ok hmemory ?_)
  exact Run.bind_ok hread (Run.bind_ok hwrite (Run.bind_ok hports ⟨_, rfl⟩))

end Machine

end BurstDma
