import BurstDma.Proofs.Counters
import BurstDma.Proofs.Totality

/-!
# No operation ever stops the machine

A fault of the model is a fault of the hardware model: a sum that does not fit its word, an
index outside its array, a broken protocol rule. `Machine.never_faults` says that no run of
register accesses, stream traffic, clock cycles and resets leads to one, and that the
numbers which the model does not check itself fit as well, `Machine.InRange`.

There is one thing that a user of the machine has to see to. A port in frame mode counts the
words of a frame, and **a frame of 2^32 beats overruns that count**, `FramesFit`.
-/

namespace BurstDma

/-! ## What may be asked of a machine -/

/-- An operation on a port that exists, or an image whose indices are numbers of 64 bits. -/
def Operation.Admissible (params : MachineParams) : Operation → Prop
  | .push port _ => port < params.ports.length
  | .take port => port < params.ports.length
  | .load base words => base + words.length < limit64
  | _ => True

/-- The beats that the source of port `i` is given. -/
def Operation.offers (i : Nat) : Operation → List Beat
  | .push port beats => if port = i then beats else []
  | _ => []

theorem Moment.offers_eq (i : Nat) (s : Machine) (op : Operation) :
    Moment.offers i (s, op) = op.offers i := by
  cases op <;> rfl

/-! ## What is not checked -/

/-- The 64-bit counters of a port. -/
def Port.counters (p : Port) : List Nat :=
  [p.reader.stats.bursts, p.reader.stats.words, p.reader.stats.transfers, p.reader.stats.errors,
    p.writer.stats.bursts, p.writer.stats.words, p.writer.stats.transfers,
    p.writer.stats.errors, p.readRegs.dropped, p.writeRegs.dropped, p.source.pushed]

/-- The 64-bit counters of a memory, and the times that it has written down. -/
def Memory.counters (m : Memory) : List Nat :=
  [m.cycle, m.stats.readBursts, m.stats.readWords, m.stats.writeBursts, m.stats.writeWords,
    m.stats.errors] ++ m.reads.map (·.readyAt) ++ m.response.toList.map (·.2)

/-- The 64-bit counters of a machine. -/
def Machine.counters (s : Machine) : List Nat :=
  s.cycle :: (s.memory.counters ++ s.readArbiter.grants ++ s.writeArbiter.grants
    ++ s.ports.flatMap (·.counters))

/-- Every index that the arbiters use names a port, no buffer holds more than it can or
marks that it does not have, and every counter fits its word. -/
structure Machine.InRange (s : Machine) : Prop where
  lanes : 1 ≤ s.ports.length ∧ s.ports.length ≤ maxRequesters
  selected : s.readArbiter.selected < s.ports.length ∧ s.writeArbiter.selected < s.ports.length
  owner : s.writeArbiter.owner < s.ports.length
  owners : ∀ id ∈ s.readArbiter.owners.ids, id < s.ports.length
  perPort : s.readArbiter.inputs.length = s.ports.length
    ∧ s.readArbiter.grants.length = s.ports.length
    ∧ s.writeArbiter.grants.length = s.ports.length
  buffers : ∀ p ∈ s.ports, ∀ f ∈ [p.readFifo, p.writeFifo],
    f.beats.length ≤ f.capacity ∧ f.endsHeld ≤ f.beats.length
  counters : ∀ n ∈ s.counters, n < limit64

theorem EngineStats.Within.all {k : Nat} {s : EngineStats} (h : s.Within k) :
    ∀ n ∈ [s.bursts, s.words, s.transfers, s.errors], n ≤ k := by
  obtain ⟨h1, h2, h3, h4⟩ := h
  simp only [List.forall_mem_cons, List.not_mem_nil, false_implies, implies_true, and_true]
  exact ⟨h1, h2, h3, h4⟩

theorem Port.Counted.all {k : Nat} {p : Port} (h : p.Counted k) : ∀ n ∈ p.counters, n ≤ k := by
  obtain ⟨hr, hw, hrd, hwd, hp⟩ := h
  obtain ⟨h1, h2, h3, h4⟩ := hr
  obtain ⟨h5, h6, h7, h8⟩ := hw
  unfold counters
  simp only [List.forall_mem_cons, List.not_mem_nil, false_implies, implies_true, and_true]
  exact ⟨h1, h2, h3, h4, h5, h6, h7, h8, hrd, hwd, hp⟩

theorem Memory.Counted.all {q : MemoryParams} {k : Nat} {m : Memory} (h : m.Counted q k) :
    ∀ n ∈ m.counters, n ≤ 2 * k + max q.readLatency 1 + max q.writeLatency 1 := by
  obtain ⟨_, hcycle, hrb, hrw, hwb, hww, herr, hready, hdue⟩ := h
  intro n hn
  unfold counters at hn
  rcases List.mem_append.mp hn with hn | hn
  · rcases List.mem_append.mp hn with hn | hn
    · simp only [List.mem_cons, List.not_mem_nil, or_false] at hn
      omega
    · obtain ⟨job, hjob, rfl⟩ := List.mem_map.mp hn
      have := hready job hjob
      omega
  · obtain ⟨r, hr, rfl⟩ := List.mem_map.mp hn
    have := hdue r (Option.mem_toList.mp hr)
    omega

theorem Machine.Counted.all {q : MemoryParams} {k : Nat} {s : Machine} (h : s.Counted q k) :
    ∀ n ∈ s.counters, n ≤ 2 * k + max q.readLatency 1 + max q.writeLatency 1 := by
  obtain ⟨hcycle, hport, hmem, ⟨_, hrg⟩, ⟨_, hwg⟩⟩ := h
  intro n hn
  unfold counters at hn
  rcases List.mem_cons.mp hn with rfl | hn
  · omega
  rcases List.mem_append.mp hn with hn | hn
  · rcases List.mem_append.mp hn with hn | hn
    · rcases List.mem_append.mp hn with hn | hn
      · exact hmem.all n hn
      · have := hrg n hn
        omega
    · have := hwg n hn
      omega
  · obtain ⟨p, hp, hn⟩ := List.mem_flatMap.mp hn
    obtain ⟨i, hi⟩ := List.mem_iff_getElem?.mp hp
    have := (hport i p hi).all n hn
    omega

section

variable {params : MachineParams} {s₀ s : Machine} {past : List Moment}

/-- The bus is owned by a port. -/
theorem Machine.owner_lt (hr : Machine.Reachable params s) :
    s.writeArbiter.owner < s.ports.length := by
  have hstage := (writeOrderly_reachable hr).stage
  have hturn := (bounded_reachable hr).writeTurn.selected
  unfold WriteArbiter.owner WriteLock.owner
  cases hl : s.writeArbiter.lock with
  | select => exact hturn
  | writeChannel id addrDone =>
      rw [hl] at hstage
      cases hstage
      assumption
  | addressChannel id =>
      rw [hl] at hstage
      cases hstage
  | responseChannel id =>
      rw [hl] at hstage
      exact hstage.answer_inv.1

/-- A run that is not too long leaves every number in range. -/
theorem History.inRange (h₀ : Machine.ofParams params = .ok s₀) (h : History s₀ past s)
    (hcount : past.length < 2 ^ 62)
    (hlatency : params.memory.readLatency < limit32 ∧ params.memory.writeLatency < limit32) :
    s.InRange := by
  have hr : Machine.Reachable params s := ⟨s₀, past, h₀, h⟩
  obtain ⟨hf, hm⟩ := Machine.mirrored_reachable hr
  have hb := Machine.bounded_reachable hr
  have hc := h.counted h₀
  refine ⟨⟨?_, hr.length_le⟩, ⟨hb.readTurn.selected, hb.writeTurn.selected⟩,
    Machine.owner_lt hr, hm.ports, ⟨hf.reads.arbiter.inputs, hc.readGrants.1, hc.writeGrants.1⟩,
    ?_, ?_⟩
  · have := hb.readTurn.selected
    omega
  · intro p hp f hfifo
    obtain ⟨i, hi⟩ := List.mem_iff_getElem?.mp hp
    have htallied : f.Tallied := by
      simp only [List.mem_cons, List.not_mem_nil, or_false] at hfifo
      rcases hfifo with rfl | rfl
      · exact (hb.port i p hi).readFifo
      · exact (hb.port i p hi).writeFifo
    refine ⟨htallied.fits, ?_⟩
    rw [htallied.ends]
    exact List.countP_le_length
  · intro n hn
    have hle := hc.all n hn
    have h32 : limit32 = 4294967296 := rfl
    have h64 : limit64 = 18446744073709551616 := rfl
    omega

/-! ## The machine goes on -/

theorem RegisterFile.write_ok (f : RegisterFile) (index : Nat) (value : UInt32) :
    ∃ f', (f.write index value).result = .ok f' := by
  unfold write
  split
  · exact ⟨_, rfl⟩
  · exact ⟨_, rfl⟩
  · exact ⟨_, rfl⟩
  · split
    · exact ⟨_, rfl⟩
    · unfold submit
      split
      · exact ⟨_, rfl⟩
      · exact Run.bind_ok (Run.result_note _) ⟨_, rfl⟩
  · exact ⟨_, rfl⟩
  · exact ⟨_, rfl⟩
  · exact Run.bind_ok (Run.result_note _) ⟨_, rfl⟩

/-- A register address leads to a port of the machine, or nowhere. -/
theorem Machine.decode_ok (s : Machine) (addr : UInt32) :
    ∃ found, (s.decode addr).result = .ok found
      ∧ ∀ p side index, found = some (p, side, index) → p ∈ s.ports := by
  unfold decode
  split
  · refine ⟨none, Run.result_bind_eq_ok.mpr ⟨(), Run.result_note _, rfl⟩, ?_⟩
    intro p side index hnone
    cases hnone
  · rename_i p hp
    refine ⟨_, rfl, fun q side index hq => ?_⟩
    cases hq
    exact List.mem_of_getElem? hp

theorem Machine.writeRegister_ok (s : Machine) (addr value : UInt32) :
    ∃ s', (s.writeRegister addr value).result = .ok s' := by
  obtain ⟨found, hfound, _⟩ := s.decode_ok addr
  refine Run.bind_ok hfound ?_
  cases found with
  | none => exact ⟨_, rfl⟩
  | some f =>
      obtain ⟨p, side, index⟩ := f
      cases side with
      | reader =>
          obtain ⟨f', hf'⟩ := p.readRegs.write_ok index value
          exact Run.bind_ok hf' ⟨_, rfl⟩
      | writer =>
          obtain ⟨f', hf'⟩ := p.writeRegs.write_ok index value
          exact Run.bind_ok hf' ⟨_, rfl⟩

/-- **Every register can be read at any time**: what is left of a transfer never lies below
zero. -/
theorem Machine.readRegister_ok (hr : Machine.Reachable params s) (addr : UInt32) :
    ∃ v, (s.readRegister addr).result = .ok v := by
  obtain ⟨found, hfound, hport⟩ := s.decode_ok addr
  refine Run.bind_ok hfound ?_
  cases found with
  | none => exact ⟨_, rfl⟩
  | some f =>
      obtain ⟨p, side, index⟩ := f
      obtain ⟨i, hi⟩ := List.mem_iff_getElem?.mp (hport p side index rfl)
      cases side with
      | reader =>
          obtain ⟨hsound, _⟩ := (credited_reachable hr).2 i p hi
          obtain ⟨n, hn⟩ := ReadCore.remainingWords_ok hsound
          have hstatus : p.readStatus = .ok ⟨n, p.reader.core.error, p.readFifo.level⟩ := by
            unfold Port.readStatus
            rw [hn]
            rfl
          exact Run.bind_ok hstatus ⟨_, rfl⟩
      | writer =>
          obtain ⟨n, hn⟩ := WriteCore.remainingWords_ok ((bounded_reachable hr).port i p hi).writer
          have hstatus : p.writeStatus = .ok ⟨n, p.writer.core.error, p.writeFifo.level⟩ := by
            unfold Port.writeStatus
            rw [hn]
            rfl
          exact Run.bind_ok hstatus ⟨_, rfl⟩

/-- **After any run an admissible operation has a result.** -/
theorem History.apply_ok {op : Operation} (hg : params.geometry.Legal)
    (hdepth : ∀ q ∈ params.ports, q.fifoDepth < 2 ^ 31)
    (h₀ : Machine.ofParams params = .ok s₀) (h : History s₀ past s) (hop : op.Admissible params)
    (hframes : ∀ (i : Nat) (q : PortParams), params.ports[i]? = some q → q.frameMode = true →
      FramesFit (past.flatMap (Moment.offers i))) : ∃ s', op.apply s = .ok s' := by
  have hr : Machine.Reachable params s := ⟨s₀, past, h₀, h⟩
  have hf := hr.formed
  cases op with
  | write addr value => exact s.writeRegister_ok addr value
  | read addr =>
      obtain ⟨v, hv⟩ := Machine.readRegister_ok hr addr
      exact ⟨s, except_map_eq_ok.mpr ⟨v, hv, rfl⟩⟩
  | push port beats =>
      have hlt : port < s.ports.length := hf.length.symm ▸ hop
      simp only [Operation.apply, Machine.pushStream, List.getElem?_eq_getElem hlt]
      exact ⟨_, rfl⟩
  | take port =>
      have hlt : port < s.ports.length := hf.length.symm ▸ hop
      simp only [Operation.apply, Machine.takeOutput, List.getElem?_eq_getElem hlt]
      exact ⟨_, rfl⟩
  | load base words =>
      simp only [Operation.apply, Machine.loadMemory, Store.load]
      rw [if_neg (Nat.not_le.mpr hop)]
      by_cases hsize : s.memory.store.size < base + words.length
      · rw [if_pos hsize]
        exact ⟨s, rfl⟩
      · rw [if_neg hsize]
        exact ⟨_, rfl⟩
  | tick =>
      refine Machine.tick_ok hg hr fun i p hp hph hhead => ?_
      obtain ⟨q, hq, hbuilt⟩ := hf.port i p hp
      cases hmode : q.frameMode with
      | true =>
          -- the stream bounds the count
          have hshort : q.fifoDepth < limit32 :=
            Nat.lt_trans (hdepth q (List.mem_of_getElem? hq)) (by decide)
          exact (h.portFramed h₀ hq hmode hshort p hp).written_lt (hframes i q hq hmode) hph hhead
      | false =>
          have hfits := ((Machine.bounded_reachable hr).port i p hp).writer
          exact hfits.written_lt (hbuilt.frameMode.trans hmode) hph
  | reset => exact Run.bind_ok (Run.result_note _) ⟨_, rfl⟩

theorem Machine.replay_ops {ops : List Operation} {t : Machine}
    (h : s.replay ops = .ok (past, t)) : past.map (·.2) = ops := by
  induction ops generalizing s past with
  | nil =>
      cases h
      rfl
  | cons op ops ih =>
      obtain ⟨s', _, h⟩ := except_bind_eq_ok.mp h
      obtain ⟨⟨rest, last⟩, hrest, h⟩ := except_bind_eq_ok.mp h
      cases h
      rw [List.map_cons, ih hrest]

/-- A run goes on with any admissible operations. -/
theorem History.replay_ok {ops : List Operation} (hg : params.geometry.Legal)
    (hdepth : ∀ q ∈ params.ports, q.fifoDepth < 2 ^ 31)
    (h₀ : Machine.ofParams params = .ok s₀) (h : History s₀ past s)
    (hops : ∀ op ∈ ops, op.Admissible params)
    (hframes : ∀ (i : Nat) (q : PortParams), params.ports[i]? = some q → q.frameMode = true →
      FramesFit (past.flatMap (Moment.offers i) ++ ops.flatMap (Operation.offers i))) :
    ∃ rest t, s.replay ops = .ok (rest, t) := by
  induction ops generalizing past s with
  | nil => exact ⟨[], s, rfl⟩
  | cons op ops ih =>
      obtain ⟨s', hs'⟩ := h.apply_ok hg hdepth h₀ (hops op List.mem_cons_self)
        fun i q hq hmode => (hframes i q hq hmode).part (List.prefix_append _ _).isInfix
      obtain ⟨rest, t, hrest⟩ := ih (h.step hs')
        (fun op' hop' => hops op' (List.mem_cons_of_mem _ hop')) fun i q hq hmode => by
          rw [log_concat, Moment.offers_eq, List.append_assoc]
          exact hframes i q hq hmode
      refine ⟨(s, op) :: rest, t, ?_⟩
      exact except_bind_eq_ok.mpr ⟨s', hs', except_bind_eq_ok.mpr ⟨_, hrest, rfl⟩⟩

end

/-- **No run of fewer than 2^62 operations ever faults**, and on its way every number is in
range, those included that the model does not check. Registers take any value at any
address, a status can be read at any time, and nothing is asked of the order in which things
happen. An interrupt line is a function of the state and so has a value for any number.

A frame of a stream has fewer than 2^32 beats, counted with the beat that is marked; the
count of written words holds no more. -/
theorem Machine.never_faults {params : MachineParams} {s₀ : Machine} (ops : List Operation)
    (hg : params.geometry.Legal) (hdepth : ∀ q ∈ params.ports, q.fifoDepth < 2 ^ 31)
    (hlatency : params.memory.readLatency < limit32 ∧ params.memory.writeLatency < limit32)
    (h₀ : ofParams params = .ok s₀) (hcount : ops.length < 2 ^ 62)
    (hops : ∀ op ∈ ops, op.Admissible params)
    (hframes : ∀ (i : Nat) (q : PortParams), params.ports[i]? = some q → q.frameMode = true →
      FramesFit (ops.flatMap (Operation.offers i))) :
    ∃ past s, s₀.replay ops = .ok (past, s) ∧ s.InRange ∧ ∀ e ∈ past, e.1.InRange := by
  obtain ⟨past, s, hrun⟩ := History.start.replay_ok hg hdepth h₀ hops hframes
  have hist := history_of_replay hrun
  have hlen : past.length < 2 ^ 62 := by
    rw [← replay_ops hrun, List.length_map] at hcount
    exact hcount
  refine ⟨past, s, hrun, hist.inRange h₀ hlen hlatency, fun e he => ?_⟩
  obtain ⟨before, after, hcut⟩ := List.append_of_mem he
  obtain ⟨hbefore, _⟩ := hist.moment hcut
  refine hbefore.inRange h₀ ?_ hlatency
  rw [hcut, List.length_append, List.length_cons] at hlen
  omega

/-- A length-mode and a frame-mode port, programmed to the last address and the greatest
length, ticked, read and reset in between. -/
theorem Machine.never_faults_greatest_descriptor :
    ∃ s₀, ofParams { ports := [{}, { frameMode := true }] } = .ok s₀
      ∧ ∃ past s, s₀.replay (Operation.program 0 .writer 0xffffffff 0xffffffff 0xffffffff
          ++ Operation.program 1 .writer 0xffffffff 0 16
          ++ [.push 0 [⟨7, false⟩, ⟨8, true⟩], .push 1 [⟨9, false⟩, ⟨10, true⟩], .tick, .tick,
            .read (Register.address 0 .writer Register.remaining.index), .reset, .tick,
            .take 1]) = .ok (past, s)
        ∧ s.InRange ∧ ∀ e ∈ past, e.1.InRange := by
  obtain ⟨s₀, h₀⟩ : ∃ s₀, ofParams { ports := [{}, { frameMode := true }] } = .ok s₀ := ⟨_, rfl⟩
  refine ⟨s₀, h₀, never_faults _ (by decide) (by decide) (by decide) h₀ (by decide) ?_ ?_⟩
  · simp [Operation.program, Operation.Admissible]
  · intro i q _ _
    refine framesFit_of_length ?_
    simp [Operation.program, Operation.offers, limit32]
    split <;> split <;> decide

end BurstDma
