import BurstDma.Proofs.WriteTransfer

/-!
# Counters count operations

A machine counts what it does, and counts on through resets: cycles, bursts, words,
transfers, errors, grants, beats, dropped descriptors. **One operation moves a counter on
by one at most**, an error count of the memory by two, so that after `k` operations no
counter is beyond `k` or `2 * k`. A time that the memory writes down lies one latency
behind its clock.
-/

namespace BurstDma

/-- No counter of an engine is beyond `k`. -/
structure EngineStats.Within (k : Nat) (s : EngineStats) : Prop where
  bursts : s.bursts ≤ k
  words : s.words ≤ k
  transfers : s.transfers ≤ k
  errors : s.errors ≤ k

/-- No counter of a port is beyond `k`. -/
structure Port.Counted (k : Nat) (p : Port) : Prop where
  reader : p.reader.stats.Within k
  writer : p.writer.stats.Within k
  readDropped : p.readRegs.dropped ≤ k
  writeDropped : p.writeRegs.dropped ≤ k
  pushed : p.source.pushed ≤ k

/-- No counter of a memory is beyond what `k` operations can bring about. -/
structure Memory.Counted (q : MemoryParams) (k : Nat) (m : Memory) : Prop where
  params : m.params = q
  cycle : m.cycle ≤ k
  readBursts : m.stats.readBursts ≤ k
  readWords : m.stats.readWords ≤ k
  writeBursts : m.stats.writeBursts ≤ k
  writeWords : m.stats.writeWords + m.collected.length ≤ k
  errors : m.stats.errors ≤ 2 * k
  ready : ∀ job ∈ m.reads, job.readyAt ≤ k + max q.readLatency 1
  due : ∀ response, m.response = some response → response.2 ≤ k + max q.writeLatency 1

/-- No counter of a machine is beyond what `k` operations can bring about, and either
arbiter has a counter for every port. -/
structure Machine.Counted (q : MemoryParams) (k : Nat) (s : Machine) : Prop where
  cycle : s.cycle ≤ k
  port : ∀ (i : Nat) (p : Port), s.ports[i]? = some p → p.Counted k
  memory : s.memory.Counted q k
  readGrants : s.readArbiter.grants.length = s.ports.length ∧ ∀ n ∈ s.readArbiter.grants, n ≤ k
  writeGrants : s.writeArbiter.grants.length = s.ports.length
    ∧ ∀ n ∈ s.writeArbiter.grants, n ≤ k

/-! ## Ports -/

theorem EngineStats.Within.mono {k l : Nat} {s : EngineStats} (h : s.Within k) (hl : k ≤ l) :
    s.Within l :=
  ⟨Nat.le_trans h.bursts hl, Nat.le_trans h.words hl, Nat.le_trans h.transfers hl,
    Nat.le_trans h.errors hl⟩

/-- A count that moves on in some cases is one further at most. -/
theorem add_ite_le {n k : Nat} (h : n ≤ k) (b : Bool) : n + (if b then 1 else 0) ≤ k + 1 := by
  cases b with
  | true => exact Nat.succ_le_succ h
  | false => exact Nat.le_succ_of_le h

theorem ReadEngine.within_tick {k : Nat} {e e' : ReadEngine} {i : ReadInputs} {step : ReadStep}
    (hc : e.stats.Within k) (h : (e.tick i).result = .ok (e', step)) :
    e'.stats.Within (k + 1) := by
  obtain ⟨⟨core, step'⟩, _, h⟩ := Run.result_bind_eq_ok.mp h
  obtain ⟨_, _, h⟩ := Run.result_bind_eq_ok.mp h
  cases h
  exact ⟨add_ite_le hc.bursts _, add_ite_le hc.words _, add_ite_le hc.transfers _,
    add_ite_le hc.errors _⟩

theorem WriteEngine.within_tick {k : Nat} {e e' : WriteEngine} {i : WriteInputs}
    {step : WriteStep} (hc : e.stats.Within k) (h : (e.tick i).result = .ok (e', step)) :
    e'.stats.Within (k + 1) := by
  obtain ⟨⟨core, step'⟩, _, h⟩ := Run.result_bind_eq_ok.mp h
  obtain ⟨_, _, h⟩ := Run.result_bind_eq_ok.mp h
  cases h
  exact ⟨add_ite_le hc.bursts _, add_ite_le hc.words _, add_ite_le hc.transfers _,
    add_ite_le hc.errors _⟩

namespace Port

variable {k : Nat} {p p' : Port}

theorem counted_ofParams (g : Geometry) (i : Nat) (q : PortParams) :
    (ofParams g i q).Counted 0 :=
  ⟨⟨Nat.le_refl _, Nat.le_refl _, Nat.le_refl _, Nat.le_refl _⟩,
    ⟨Nat.le_refl _, Nat.le_refl _, Nat.le_refl _, Nat.le_refl _⟩,
    Nat.le_refl _, Nat.le_refl _, Nat.le_refl _⟩

theorem nextRegs_dropped (f : RegisterFile) (done taken : Bool) :
    (nextRegs f done taken).dropped = f.dropped := by
  cases done <;> cases taken <;> rfl

theorem Counted.edge {reads : ReadBus} {writes : WriteBus} {rstep : ReadStep}
    {wstep : WriteStep} (hc : p.Counted k) (h : p.Edge reads writes rstep wstep p') :
    p'.Counted (k + 1) := by
  obtain ⟨_, _, _, hfill⟩ := h.fill
  obtain ⟨hr, hw, hrd, hwd, hpushed⟩ := hc
  refine ⟨ReadEngine.within_tick hr h.reader, WriteEngine.within_tick hw h.writer, ?_, ?_, ?_⟩
  · rw [h.readRegs, nextRegs_dropped]
    exact Nat.le_succ_of_le hrd
  · rw [h.writeRegs, nextRegs_dropped]
    exact Nat.le_succ_of_le hwd
  · rcases Source.tick_cases hfill with ⟨_, hs, _⟩ | ⟨_, _, hs, _⟩ | ⟨_, _, _, _, _, hs⟩
    · rw [hs]
      exact Nat.le_succ_of_le hpushed
    · rw [hs]
      exact Nat.le_succ_of_le hpushed
    · rw [hs]
      exact Nat.succ_le_succ hpushed

theorem Counted.touched {i : Nat} {e : Moment} (hc : p.Counted k)
    (h : Port.Touched i e p p') : p'.Counted (k + 1) := by
  obtain ⟨hr, hw, hrd, hwd, hpushed⟩ := hc
  refine ⟨?_, ?_, ?_, ?_, ?_⟩
  · rw [h.reader]
    exact hr.mono (Nat.le_succ k)
  · rw [h.writer]
    exact hw.mono (Nat.le_succ k)
  · exact Nat.le_trans h.readRegs.dropped (Nat.succ_le_succ hrd)
  · exact Nat.le_trans h.writeRegs.dropped (Nat.succ_le_succ hwd)
  · rw [h.pushed]
    exact Nat.le_succ_of_le hpushed

theorem Counted.reset (hc : p.Counted k) : p.reset.Counted (k + 1) :=
  ⟨hc.reader.mono (Nat.le_succ k), hc.writer.mono (Nat.le_succ k), Nat.zero_le _,
    Nat.zero_le _, Nat.le_succ_of_le hc.pushed⟩

end Port

/-! ## The memory -/

namespace Memory

variable {q : MemoryParams} {k : Nat} {m m' : Memory}

/-- The read side counts bursts, words and errors, and leaves the write side alone. -/
theorem tickReads_counts (m : Memory) (bus : ReadBus) :
    ((m.tickReads bus).params = m.params ∧ (m.tickReads bus).cycle = m.cycle
      ∧ (m.tickReads bus).collected = m.collected ∧ (m.tickReads bus).response = m.response
      ∧ (m.tickReads bus).stats.writeBursts = m.stats.writeBursts
      ∧ (m.tickReads bus).stats.writeWords = m.stats.writeWords)
    ∧ (m.tickReads bus).stats.readBursts ≤ m.stats.readBursts + 1
    ∧ (m.tickReads bus).stats.readWords ≤ m.stats.readWords + 1
    ∧ (m.tickReads bus).stats.errors ≤ m.stats.errors + 1 := by
  unfold tickReads
  cases bus.rFired with
  | none =>
      cases bus.arFired with
      | none =>
          exact ⟨⟨rfl, rfl, rfl, rfl, rfl, rfl⟩, Nat.le_succ _, Nat.le_succ _, Nat.le_succ _⟩
      | some r =>
          exact ⟨⟨rfl, rfl, rfl, rfl, rfl, rfl⟩, Nat.le_refl _, Nat.le_succ _, Nat.le_succ _⟩
  | some b =>
      cases bus.arFired with
      | none =>
          exact ⟨⟨rfl, rfl, rfl, rfl, rfl, rfl⟩, Nat.le_succ _, Nat.le_refl _,
            add_ite_le (Nat.le_refl _) _⟩
      | some r =>
          exact ⟨⟨rfl, rfl, rfl, rfl, rfl, rfl⟩, Nat.le_refl _, Nat.le_refl _,
            add_ite_le (Nat.le_refl _) _⟩

/-- A job of the next state is an old one, or it is new and has its time from the clock. -/
theorem tickReads_ready (m : Memory) (bus : ReadBus) :
    ∀ job ∈ (m.tickReads bus).reads, (∃ old ∈ m.reads, job.readyAt = old.readyAt)
      ∨ job.readyAt = m.cycle + max m.params.readLatency 1 := by
  intro job hjob
  rw [tickReads_reads] at hjob
  rcases List.mem_append.mp hjob with hold | hnew
  · refine Or.inl ?_
    cases hb : bus.rFired with
    | none =>
        rw [hb] at hold
        exact ⟨job, hold, rfl⟩
    | some b =>
        rw [hb] at hold
        dsimp only at hold
        cases hreads : m.reads with
        | nil =>
            rw [hreads] at hold
            cases hl : b.last <;> rw [hl] at hold <;> cases hold
        | cons head rest =>
            rw [hreads] at hold
            cases hl : b.last with
            | true =>
                rw [hl] at hold
                exact ⟨job, List.mem_cons_of_mem _ hold, rfl⟩
            | false =>
                rw [hl] at hold
                rcases List.mem_cons.mp hold with rfl | hold
                · exact ⟨head, List.mem_cons_self, rfl⟩
                · exact ⟨job, List.mem_cons_of_mem _ hold, rfl⟩
  · obtain ⟨r, _, rfl⟩ := List.mem_map.mp hnew
    exact Or.inr rfl

/-- The write side counts bursts, words and errors, and leaves the read side alone. -/
theorem tickWrites_counts {bus : WriteBus} (h : (m.tickWrites bus).result = .ok m') :
    (m'.params = m.params ∧ m'.cycle = m.cycle ∧ m'.stats.readBursts = m.stats.readBursts
      ∧ m'.stats.readWords = m.stats.readWords)
    ∧ m'.stats.writeBursts ≤ m.stats.writeBursts + 1
    ∧ m'.stats.writeWords + m'.collected.length
      ≤ m.stats.writeWords + m.collected.length + 1
    ∧ m'.stats.errors ≤ m.stats.errors + 1
    ∧ ∀ response, m'.response = some response → m.response = some response
      ∨ response.2 = m.cycle + max m.params.writeLatency 1 := by
  obtain ⟨hparams, _, hcycle, _, hstats⟩ := m.collect_kept bus
  obtain ⟨_, hcollected, _, hresponse⟩ := m.collect_eq (rfl : bus.awFired = _) rfl rfl
  have hlen : (m.collect bus).collected.length ≤ m.collected.length + 1 := by
    rw [hcollected, List.length_append]
    cases bus.wFired <;> simp
  rcases tickWrites_cases h with ⟨_, rfl⟩ | ⟨aw, store, resp, _, _, rfl⟩
  · rw [hparams, hcycle, hstats]
    refine ⟨⟨rfl, rfl, rfl, rfl⟩, Nat.le_succ _, by omega, Nat.le_succ _, ?_⟩
    intro response hr
    rw [hresponse] at hr
    split at hr
    · cases hr
    · exact Or.inl hr
  · refine ⟨⟨rfl, rfl, rfl, rfl⟩, Nat.le_refl _, ?_, add_ite_le (Nat.le_refl _) _, ?_⟩
    · show m.stats.writeWords + (m.collect bus).collected.length + 0 ≤ _
      omega
    · intro response hr
      cases hr
      exact Or.inr rfl

theorem tick_cycle {reads : ReadBus} {writes : WriteBus}
    (h : (m.tick reads writes).result = .ok m') : m'.cycle = m.cycle + 1 := by
  obtain ⟨t, ht, h⟩ := Run.result_bind_eq_ok.mp h
  cases h
  obtain ⟨⟨_, hcycle, _⟩, _⟩ := tickWrites_counts ht
  obtain ⟨⟨_, hcycle', _⟩, _⟩ := m.tickReads_counts reads
  exact congrArg (· + 1) (hcycle.trans hcycle')

theorem tick_params {reads : ReadBus} {writes : WriteBus}
    (h : (m.tick reads writes).result = .ok m') : m'.params = m.params := by
  obtain ⟨t, ht, h⟩ := Run.result_bind_eq_ok.mp h
  cases h
  obtain ⟨⟨hparams, _⟩, _⟩ := tickWrites_counts ht
  obtain ⟨⟨hparams', _⟩, _⟩ := m.tickReads_counts reads
  exact hparams.trans hparams'

theorem Counted.tick {reads : ReadBus} {writes : WriteBus} (hc : m.Counted q k)
    (h : (m.tick reads writes).result = .ok m') : m'.Counted q (k + 1) := by
  obtain ⟨t, ht, h⟩ := Run.result_bind_eq_ok.mp h
  cases h
  obtain ⟨⟨hp₁, hc₁, hcol₁, hresp₁, hwb₁, hww₁⟩, hrb₁, hrw₁, he₁⟩ := m.tickReads_counts reads
  obtain ⟨⟨hp₂, hc₂, hrb₂, hrw₂⟩, hwb₂, hww₂, he₂, hdue₂⟩ := tickWrites_counts ht
  have hready := m.tickReads_ready reads
  obtain ⟨hparams, hcycle, hrb, hrw, hwb, hww, he, hold, hdue⟩ := hc
  rw [hcol₁] at hww₂
  refine ⟨?_, ?_, ?_, ?_, ?_, ?_, ?_, ?_, ?_⟩
  · exact hp₂.trans (hp₁.trans hparams)
  · show t.cycle + 1 ≤ k + 1
    omega
  · show t.stats.readBursts ≤ k + 1
    omega
  · show t.stats.readWords ≤ k + 1
    omega
  · show t.stats.writeBursts ≤ k + 1
    omega
  · show t.stats.writeWords + t.collected.length ≤ k + 1
    omega
  · show t.stats.errors ≤ 2 * (k + 1)
    omega
  · intro job hjob
    have hjob' : job ∈ (m.tickReads reads).reads := (tickWrites_reads ht).1 ▸ hjob
    rcases hready job hjob' with ⟨old, hmem, heq⟩ | heq
    · have := hold old hmem
      omega
    · rw [hparams] at heq
      omega
  · intro response hr
    rcases hdue₂ response hr with hkept | hnew
    · have := hdue response (hresp₁ ▸ hkept)
      omega
    · rw [hp₁, hparams] at hnew
      omega

theorem counted_ofParams (q : MemoryParams) (g : Geometry) : (ofParams q g).Counted q 0 :=
  ⟨rfl, Nat.le_refl _, Nat.le_refl _, Nat.le_refl _, Nat.le_refl _, Nat.le_refl _,
    Nat.le_refl _, nofun, nofun⟩

theorem Counted.mono {l : Nat} (hc : m.Counted q k) (hl : k ≤ l) : m.Counted q l := by
  obtain ⟨hparams, hcycle, hrb, hrw, hwb, hww, he, hold, hdue⟩ := hc
  refine ⟨hparams, by omega, by omega, by omega, by omega, by omega, by omega, ?_, ?_⟩
  · intro job hjob
    have := hold job hjob
    omega
  · intro response hr
    have := hdue response hr
    omega

theorem Counted.reset (hc : m.Counted q k) : m.reset.Counted q (k + 1) :=
  (show m.reset.Counted q k from
    ⟨hc.params, hc.cycle, hc.readBursts, hc.readWords, hc.writeBursts,
      Nat.le_trans (Nat.le_add_right _ _) hc.writeWords, hc.errors, nofun, nofun⟩).mono
    (Nat.le_succ k)

end Memory

/-! ## The arbiters -/

/-- Counting one grant moves on one counter by one. -/
theorem modify_succ_le {l : List Nat} {k : Nat} (h : ∀ n ∈ l, n ≤ k) (i : Nat) :
    ∀ n ∈ l.modify i (· + 1), n ≤ k + 1 := by
  intro n hn
  obtain ⟨j, hj, rfl⟩ := List.mem_iff_getElem.mp hn
  rw [List.getElem_modify]
  have hle := h _ (List.getElem_mem (l := l) (by rwa [List.length_modify] at hj))
  split
  · exact Nat.succ_le_succ hle
  · exact Nat.le_succ_of_le hle

theorem ReadArbiter.tick_grants {a a' : ReadArbiter} {w : ReadWires}
    (h : (a.tick w).result = .ok a') :
    a'.grants = if w.grant.isSome then a.grants.modify a.selected (· + 1) else a.grants := by
  obtain ⟨_, _, h⟩ := Run.result_bind_eq_ok.mp h
  obtain ⟨_, _, h⟩ := Run.result_bind_eq_ok.mp h
  obtain ⟨_, _, h⟩ := Run.result_bind_eq_ok.mp h
  obtain ⟨_, _, h⟩ := Run.result_bind_eq_ok.mp h
  obtain ⟨_, _, h⟩ := Run.result_bind_eq_ok.mp h
  cases h
  rfl

theorem WriteArbiter.tick_grants {a a' : WriteArbiter} {w : WriteWires}
    (h : (a.tick w).result = .ok a') :
    a'.grants = if a.lock = .select ∧ (w.down.awFired.isSome || w.down.wFired.isSome) = true
      then a.grants.modify a.selected (· + 1) else a.grants := by
  unfold tick at h
  dsimp only at h
  cases hl : a.lock with
  | select =>
      rw [hl] at h
      dsimp only at h
      split at h
      · rename_i hf
        cases h
        rw [if_pos ⟨rfl, hf⟩]
      · rename_i hf
        rw [if_neg fun hc => hf hc.2]
        split at h <;> cases h <;> rfl
  | writeChannel id addrDone =>
      rw [hl] at h
      cases h
      rfl
  | addressChannel id =>
      rw [hl] at h
      cases h
      rfl
  | responseChannel id =>
      rw [hl] at h
      dsimp only at h
      split at h <;> cases h <;> rfl

/-! ## The machine -/

namespace Machine

variable {params : MachineParams} {q : MemoryParams} {k : Nat} {s s' : Machine}

theorem counted_ofParams (h : ofParams params = .ok s) : s.Counted params.memory 0 := by
  have hget := getElem?_ofParams h
  have hlen := (formed_ofParams h).length
  obtain ⟨ra, wa, hra, hwa, hs⟩ := ofParams_eq_ok h
  obtain ⟨_, _, hra⟩ := except_bind_eq_ok.mp hra
  obtain ⟨_, _, hwa⟩ := except_bind_eq_ok.mp hwa
  cases hra
  cases hwa
  have hzero : ∀ n ∈ List.replicate params.ports.length 0, n ≤ 0 := by
    intro n hn
    exact Nat.le_of_eq (List.eq_of_mem_replicate hn)
  refine ⟨?_, ?_, ?_, ?_, ?_⟩
  · exact Nat.le_of_eq (congrArg Machine.cycle hs)
  · intro i p hp
    rw [hget] at hp
    obtain ⟨q, _, rfl⟩ := Option.map_eq_some_iff.mp hp
    exact Port.counted_ofParams _ _ _
  · rw [hs]
    exact Memory.counted_ofParams _ _
  · rw [hlen, hs]
    exact ⟨List.length_replicate, hzero⟩
  · rw [hlen, hs]
    exact ⟨List.length_replicate, hzero⟩

theorem Counted.edge {slave : ReadSlave} (hc : s.Counted q k) (h : s.Edge slave s') :
    s'.Counted q (k + 1) := by
  obtain ⟨hcycle, hport, hmem, ⟨hrl, hrg⟩, ⟨hwl, hwg⟩⟩ := hc
  refine ⟨?_, ?_, hmem.tick h.memory, ?_, ?_⟩
  · rw [h.cycle]
    exact Nat.succ_le_succ hcycle
  · intro i p' hp'
    obtain ⟨p, _, _, hp, hedge⟩ := h.port' hp'
    exact (hport i p hp).edge hedge
  · rw [ReadArbiter.tick_grants h.readArbiter, h.length]
    split
    · rw [List.length_modify]
      exact ⟨hrl, modify_succ_le hrg _⟩
    · exact ⟨hrl, fun n hn => Nat.le_succ_of_le (hrg n hn)⟩
  · rw [h.length]
    rw [WriteArbiter.tick_grants h.writeArbiter]
    split
    · rw [List.length_modify]
      exact ⟨hwl, modify_succ_le hwg _⟩
    · exact ⟨hwl, fun n hn => Nat.le_succ_of_le (hwg n hn)⟩

theorem Counted.touched {op : Operation} (hc : s.Counted q k) (h : s.Touched op s') :
    s'.Counted q (k + 1) := by
  obtain ⟨hcycle, hport, hmem, ⟨hrl, hrg⟩, ⟨hwl, hwg⟩⟩ := hc
  refine ⟨?_, ?_, ?_, ?_, ?_⟩
  · rw [h.cycle]
    exact Nat.le_succ_of_le hcycle
  · intro i p' hp'
    obtain ⟨p, hp, hedge⟩ := h.port' hp'
    exact (hport i p hp).touched hedge
  · rw [h.memory]
    obtain ⟨h1, h2, h3, h4, h5, h6, h7, h8, h9⟩ := hmem.mono (Nat.le_succ k)
    exact ⟨h1, h2, h3, h4, h5, h6, h7, h8, h9⟩
  · rw [h.readArbiter, h.length]
    exact ⟨hrl, fun n hn => Nat.le_succ_of_le (hrg n hn)⟩
  · rw [h.writeArbiter, h.length]
    exact ⟨hwl, fun n hn => Nat.le_succ_of_le (hwg n hn)⟩

theorem Counted.reset (hc : s.Counted q k) : Counted q (k + 1)
    { s with
      memory := s.memory.reset
      readArbiter := s.readArbiter.reset
      writeArbiter := s.writeArbiter.reset
      ports := s.ports.map (·.reset)
      newestEvents := [] } := by
  obtain ⟨hcycle, hport, hmem, ⟨hrl, hrg⟩, ⟨hwl, hwg⟩⟩ := hc
  refine ⟨Nat.le_succ_of_le hcycle, ?_, hmem.reset, ⟨?_, ?_⟩, ⟨?_, ?_⟩⟩
  · intro i p' hp'
    simp only [List.getElem?_map, Option.map_eq_some_iff] at hp'
    obtain ⟨p, hp, rfl⟩ := hp'
    exact (hport i p hp).reset
  · rw [List.length_map]
    exact hrl
  · exact fun n hn => Nat.le_succ_of_le (hrg n hn)
  · rw [List.length_map]
    exact hwl
  · exact fun n hn => Nat.le_succ_of_le (hwg n hn)

end Machine

/-- **After `k` operations no counter is beyond what `k` operations can bring about.** -/
theorem History.counted {params : MachineParams} {s₀ s : Machine} {past : List Moment}
    (h₀ : Machine.ofParams params = .ok s₀) (h : History s₀ past s) :
    s.Counted params.memory past.length := by
  induction h with
  | start => exact Machine.counted_ofParams h₀
  | @step past s s' op hist hop ih =>
      rw [List.length_append, List.length_singleton]
      have hf := hist.formed h₀
      by_cases ht : op = .tick
      · subst ht
        obtain ⟨slave, hedge⟩ := Machine.tick_edge hop
        exact ih.edge hedge
      · by_cases hreset : op = .reset
        · subst hreset
          rw [Machine.reset_eq_ok hop]
          exact ih.reset
        · exact ih.touched (Machine.touched_of_apply hf.indexed hop ht hreset)

end BurstDma
