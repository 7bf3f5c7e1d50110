import BurstDma.Proofs.Lead
import BurstDma.Proofs.ReadOwnership
import BurstDma.Proofs.RoundRobin

/-!
# A reset is a fresh start

A reset clears the engines, the buffers, the streams, the arbiters and what the memory has in
flight, one by one and each by hand. What it leaves alone is what the machine was built as,
the words in memory, the clock and the counters. `Machine.asBuilt` is the first of these, and
no operation changes it. **So a machine after a reset is a new machine with these words, ahead
by what was counted before**, and by `Machine.ahead_replay` nothing that is done to it later
can tell the two apart.
-/

namespace BurstDma

/-! ## What a machine was built as -/

def ReadEngine.asBuilt (e : ReadEngine) : ReadEngine where
  name := e.name
  geometry := e.geometry

def WriteEngine.asBuilt (e : WriteEngine) : WriteEngine where
  name := e.name
  geometry := e.geometry
  core := { frameMode := e.core.frameMode }

def Port.asBuilt (p : Port) : Port where
  index := p.index
  reader := p.reader.asBuilt
  writer := p.writer.asBuilt
  readFifo := p.readFifo.clear
  writeFifo := p.writeFifo.clear
  source := { throttle := p.source.throttle }
  sink := { throttle := p.sink.throttle }

def ReadArbiter.asBuilt (a : ReadArbiter) : ReadArbiter where
  inputRegister := a.inputRegister
  outputRegister := a.outputRegister
  turn := a.turn.reset
  owners := a.owners.clear
  inputs := a.inputs.map fun _ => {}
  grants := a.grants.map fun _ => 0

def WriteArbiter.asBuilt (a : WriteArbiter) : WriteArbiter where
  turn := a.turn.reset
  grants := a.grants.map fun _ => 0

/-- The machine at rest with its clock and its counters at zero, and no words in memory. -/
def Machine.asBuilt (s : Machine) : Machine where
  ports := s.ports.map (·.asBuilt)
  readArbiter := s.readArbiter.asBuilt
  writeArbiter := s.writeArbiter.asBuilt
  memory := {
    params := s.memory.params
    store := ⟨s.memory.store.geometry, s.memory.store.regions, #[]⟩ }

/-- What a list of constants remembers is its length. -/
theorem map_const_eq {α β : Type} {xs ys : List α} (c : β) (h : xs.length = ys.length) :
    xs.map (fun _ => c) = ys.map fun _ => c := by
  rw [List.map_const', List.map_const', h]

theorem ReadEngine.asBuilt_tick {e e' : ReadEngine} {i : ReadInputs} {step : ReadStep}
    (h : (e.tick i).result = .ok (e', step)) : e'.asBuilt = e.asBuilt := by
  obtain ⟨⟨core, st⟩, _, h⟩ := Run.result_bind_eq_ok.mp h
  obtain ⟨_, _, h⟩ := Run.result_bind_eq_ok.mp h
  cases h
  rfl

theorem WriteEngine.asBuilt_tick {e e' : WriteEngine} {i : WriteInputs} {step : WriteStep}
    (h : (e.tick i).result = .ok (e', step)) : e'.asBuilt = e.asBuilt := by
  obtain ⟨⟨core, st⟩, hn, h⟩ := Run.result_bind_eq_ok.mp h
  obtain ⟨_, _, h⟩ := Run.result_bind_eq_ok.mp h
  cases h
  unfold asBuilt
  rw [show core.frameMode = e.core.frameMode from WriteCore.frameMode_next hn]

theorem Port.asBuilt_edge {p p' : Port} {reads : ReadBus} {writes : WriteBus} {rstep : ReadStep}
    {wstep : WriteStep} (h : p.Edge reads writes rstep wstep p') : p'.asBuilt = p.asBuilt := by
  have hreader := ReadEngine.asBuilt_tick h.reader
  have hwriter := WriteEngine.asBuilt_tick h.writer
  obtain ⟨hrc, hrl, hwc, hwl⟩ := h.shape
  obtain ⟨b, hdrain⟩ := h.drain
  obtain ⟨f, a, _, hfill⟩ := h.fill
  have hread : p'.readFifo.clear = p.readFifo.clear := by
    unfold Fifo.clear
    rw [hrc, hrl]
  have hwrite : p'.writeFifo.clear = p.writeFifo.clear := by
    unfold Fifo.clear
    rw [hwc, hwl]
  unfold asBuilt
  rw [h.index, hreader, hwriter, hread, hwrite, (Source.tick_fed hfill).throttle,
    (Sink.tick_drained hdrain).throttle]

theorem ReadArbiter.asBuilt_tick {a a' : ReadArbiter} {w : ReadWires}
    (hlen : a'.inputs.length = a.inputs.length) (h : (a.tick w).result = .ok a') :
    a'.asBuilt = a.asBuilt := by
  have howners : a'.owners.depth = a.owners.depth := by
    rw [tick_owners h]
    have hafter : (a.ownersAfterGrant w).depth = a.owners.depth := by
      unfold ownersAfterGrant Ownership.push?
      split
      · split <;> rfl
      · rfl
    split <;> exact hafter
  obtain ⟨inputs, _, h⟩ := Run.result_bind_eq_ok.mp h
  obtain ⟨_, _, h⟩ := Run.result_bind_eq_ok.mp h
  obtain ⟨granted, _, h⟩ := Run.result_bind_eq_ok.mp h
  obtain ⟨owners, _, h⟩ := Run.result_bind_eq_ok.mp h
  obtain ⟨data, _, h⟩ := Run.result_bind_eq_ok.mp h
  cases h
  have hturn : (a.nextTurn w).reset = a.turn.reset := by
    unfold nextTurn
    dsimp only
    split <;> rfl
  have hgrants : (if w.grant.isSome then a.grants.modify a.selected (· + 1)
      else a.grants).length = a.grants.length := by
    split
    · exact List.length_modify _ _ _
    · rfl
  have hclear : owners.clear = a.owners.clear := by
    unfold Ownership.clear
    rw [show owners.depth = a.owners.depth from howners]
  unfold asBuilt
  rw [hturn, hclear, map_const_eq _ hlen, map_const_eq _ hgrants]

theorem WriteArbiter.asBuilt_tick {a a' : WriteArbiter} {w : WriteWires}
    (h : (a.tick w).result = .ok a') : a'.asBuilt = a.asBuilt := by
  unfold tick at h
  dsimp only at h
  split at h
  · split at h
    · obtain ⟨_, _, h⟩ := Run.result_bind_eq_ok.mp h
      cases h
      unfold asBuilt
      rw [map_const_eq _ (List.length_modify _ _ _)]
    · split at h <;> cases h <;> rfl
  · cases h
    rfl
  · cases h
    rfl
  · split at h <;> cases h <;> rfl

theorem Memory.params_tick {m m' : Memory} {reads : ReadBus} {writes : WriteBus}
    (h : (m.tick reads writes).result = .ok m') : m'.params = m.params := by
  have hreads : (m.tickReads reads).params = m.params := by
    unfold tickReads
    cases reads.rFired <;> cases reads.arFired <;> rfl
  obtain ⟨m₁, hw, h⟩ := Run.result_bind_eq_ok.mp h
  cases h
  rcases tickWrites_cases hw with ⟨_, rfl⟩ | ⟨_, _, _, _, _, rfl⟩
  · exact ((m.tickReads reads).collect_kept writes).1.trans hreads
  · exact hreads

namespace Machine

variable {params : MachineParams} {s s' : Machine}

theorem asBuilt_edge {slave : ReadSlave} (hf : s.Formed params) (h : s.Edge slave s') :
    s'.asBuilt = s.asBuilt := by
  have hf' := hf.edge h
  have hports : s'.ports.map (·.asBuilt) = s.ports.map (·.asBuilt) := by
    apply List.ext_getElem?
    intro i
    rw [List.getElem?_map, List.getElem?_map]
    cases hp : s'.ports[i]? with
    | some p' =>
        obtain ⟨p, rstep, wstep, hp₀, hedge⟩ := h.port' hp
        rw [hp₀, Option.map_some, Option.map_some, Port.asBuilt_edge hedge]
    | none =>
        have hlen := List.getElem?_eq_none_iff.mp hp
        rw [h.length] at hlen
        rw [List.getElem?_eq_none hlen]
  have hinputs : s'.readArbiter.inputs.length = s.readArbiter.inputs.length := by
    rw [hf'.reads.arbiter.inputs, hf.reads.arbiter.inputs, h.length]
  unfold asBuilt
  rw [hports, ReadArbiter.asBuilt_tick hinputs h.readArbiter,
    WriteArbiter.asBuilt_tick h.writeArbiter, Memory.params_tick h.memory, hf'.geometry,
    hf'.regions, hf.geometry, hf.regions]

/-- A port that is replaced by one of the same build. -/
theorem asBuilt_setPort (hi : s.Indexed) {k : Nat} {p q : Port} (hp : s.ports[k]? = some p)
    (hq : q.index = p.index) (hb : q.asBuilt = p.asBuilt) :
    (s.setPort q).asBuilt = s.asBuilt := by
  have hports : (s.setPort q).ports.map (·.asBuilt) = s.ports.map (·.asBuilt) := by
    apply List.ext_getElem?
    intro i
    rw [List.getElem?_map, List.getElem?_map, setPort_getElem? hi hp hq]
    split
    · rename_i hik
      rw [hik, hp, Option.map_some, Option.map_some, hb]
    · rfl
  exact congrArg (fun ports => ({ s.asBuilt with ports } : Machine)) hports

theorem asBuilt_writeRegister {addr value : UInt32} (hi : s.Indexed)
    (h : (s.writeRegister addr value).result = .ok s') : s'.asBuilt = s.asBuilt := by
  obtain ⟨found, hfound, h⟩ := Run.result_bind_eq_ok.mp h
  unfold decode at hfound
  split at hfound
  · cases hfound
    cases h
    rfl
  · rename_i p hp
    cases hfound
    split at h
    · rename_i heq
      cases heq
    · rename_i q index heq
      simp only [Option.some.injEq, Prod.mk.injEq] at heq
      obtain ⟨rfl, _, _⟩ := heq
      obtain ⟨regs, _, h⟩ := Run.result_bind_eq_ok.mp h
      cases h
      exact asBuilt_setPort hi hp rfl rfl
    · rename_i q index heq
      simp only [Option.some.injEq, Prod.mk.injEq] at heq
      obtain ⟨rfl, _, _⟩ := heq
      obtain ⟨regs, _, h⟩ := Run.result_bind_eq_ok.mp h
      cases h
      exact asBuilt_setPort hi hp rfl rfl

/-- **No operation changes what a machine was built as.** -/
theorem asBuilt_apply {op : Operation} (hf : s.Formed params) (h : op.apply s = .ok s') :
    s'.asBuilt = s.asBuilt := by
  cases op with
  | write addr value => exact asBuilt_writeRegister hf.indexed h
  | read addr =>
      obtain ⟨_, _, rfl⟩ := except_map_eq_ok.mp h
      rfl
  | push port beats =>
      simp only [Operation.apply, pushStream] at h
      split at h
      · cases h
      · rename_i p hp
        cases h
        exact asBuilt_setPort hf.indexed hp rfl rfl
  | take port =>
      obtain ⟨⟨beats, t⟩, ht, rfl⟩ := except_map_eq_ok.mp h
      unfold takeOutput at ht
      split at ht
      · cases ht
      · rename_i p hp
        cases ht
        exact asBuilt_setPort hf.indexed hp rfl rfl
  | load base words =>
      have hstore : ∀ store : Store, s.memory.store.load base words = .ok store →
          store.geometry = s.memory.store.geometry ∧ store.regions = s.memory.store.regions := by
        intro store hl
        have hkept := Moment.storeAfter_geometry s.memory.store (s, .load base words)
        simp only [Moment.storeAfter, hl] at hkept
        exact hkept
      simp only [Operation.apply, loadMemory] at h
      cases hl : s.memory.store.load base words with
      | ok store =>
          rw [hl] at h
          cases h
          obtain ⟨hgeo, hreg⟩ := hstore store hl
          unfold asBuilt
          dsimp only
          rw [hgeo, hreg]
      | error stop =>
          rw [hl] at h
          cases stop with
          | fault fault => cases h
          | problem problem =>
              cases h
              rfl
  | tick =>
      obtain ⟨slave, hedge⟩ := tick_edge h
      exact asBuilt_edge hf hedge
  | reset =>
      have hports : (s.ports.map (·.reset)).map (·.asBuilt) = s.ports.map (·.asBuilt) := by
        rw [List.map_map]
        rfl
      have hinputs : (s.readArbiter.inputs.map fun _ => ({} : Skid AddrReq)).map (fun _ => {})
          = s.readArbiter.inputs.map fun _ => ({} : Skid AddrReq) := by
        rw [List.map_map]
        rfl
      rw [reset_eq_ok h]
      unfold asBuilt
      dsimp only
      rw [hports]
      unfold ReadArbiter.reset ReadArbiter.asBuilt
      dsimp only
      rw [hinputs]
      rfl

theorem asBuilt_reachable {s₀ : Machine} (h : Machine.Reachable params s)
    (h₀ : ofParams params = .ok s₀) : s.Formed params ∧ s.asBuilt = s₀.asBuilt := by
  obtain ⟨s₁, past, h₁, hist⟩ := h
  rw [h₀] at h₁
  cases h₁
  refine ⟨hist.formed h₀, ?_⟩
  induction hist with
  | start => rfl
  | step hist hop ih => exact (asBuilt_apply (hist.formed h₀) hop).trans ih

theorem asBuilt_ports (params : MachineParams) :
    (params.ports.zipIdx.map fun (port, i) =>
        Port.ofParams params.geometry i port).map (·.asBuilt)
      = params.ports.zipIdx.map fun (port, i) => Port.ofParams params.geometry i port := by
  rw [List.map_map]
  rfl

/-- A new machine is what it was built as, with its words. -/
theorem asBuilt_ofParams (h : ofParams params = .ok s) :
    s = { s.asBuilt with memory := { s.asBuilt.memory with store := s.memory.store } } := by
  obtain ⟨readArbiter, writeArbiter, hra, hwa, rfl⟩ := ofParams_eq_ok h
  obtain ⟨turn, ht, hra⟩ := except_bind_eq_ok.mp hra
  cases hra
  obtain ⟨turn', ht', hwa⟩ := except_bind_eq_ok.mp hwa
  cases hwa
  have hturn : ∀ turn : RoundRobin, RoundRobin.ofLanes params.ports.length = .ok turn →
      turn.reset = turn := by
    intro turn ht
    obtain ⟨_, rfl⟩ := RoundRobin.ofLanes_eq_ok.mp ht
    rfl
  unfold asBuilt ReadArbiter.asBuilt WriteArbiter.asBuilt
  dsimp only
  rw [asBuilt_ports, hturn turn ht, hturn turn' ht', List.map_replicate, List.map_replicate]
  rfl

/-! ## After a reset -/

end Machine

theorem EngineStats.zero_ahead (o : EngineStats) : ({} : EngineStats).ahead o = o := by
  simp [ahead]

theorem MemoryStats.zero_ahead (o : MemoryStats) : ({} : MemoryStats).ahead o = o := by
  simp [ahead]

/-- Counters at zero that are ahead by some counts show these counts. -/
theorem countsAhead_zero (counts : List Nat) :
    countsAhead (fun i => (counts[i]?).getD 0) (counts.map fun _ => 0) = counts := by
  unfold countsAhead
  apply List.ext_getElem?
  intro i
  rw [List.getElem?_mapIdx, List.getElem?_map]
  cases h : counts[i]? with
  | none => rfl
  | some n => simp [h]

/-- What a port has counted. -/
def Port.lead (p : Port) : PortLead where
  reads := p.reader.stats
  writes := p.writer.stats
  pushed := p.source.pushed

theorem Port.asBuilt_ahead (p : Port) : p.asBuilt.ahead p.lead = p.reset := by
  have hpushed : 0 + p.lead.pushed = p.source.pushed := Nat.zero_add _
  unfold Port.ahead asBuilt ReadEngine.ahead WriteEngine.ahead Source.ahead
  dsimp only [ReadEngine.asBuilt, WriteEngine.asBuilt]
  rw [EngineStats.zero_ahead, EngineStats.zero_ahead, hpushed]
  rfl

namespace Machine

variable {params : MachineParams} {s s' : Machine}

/-- What the clock and the counters of a machine show. -/
def lead (s : Machine) : Lead where
  cycle := s.cycle
  clock := s.memory.cycle
  memory := s.memory.stats
  readGrants i := (s.readArbiter.grants[i]?).getD 0
  writeGrants i := (s.writeArbiter.grants[i]?).getD 0
  ports i := ((s.ports[i]?).map (·.lead)).getD {}

/-- **A reset leaves what the machine was built as, with the words and the counts that it
had.** -/
theorem reset_eq_ahead (hi : s.Indexed) :
    s.reset.result = .ok (ahead s.lead { s.asBuilt with
      capture := s.capture
      memory := { s.asBuilt.memory with store := s.memory.store } }) := by
  have hports : (s.ports.map (·.asBuilt)).map (portAhead s.lead) = s.ports.map (·.reset) := by
    apply List.ext_getElem?
    intro i
    rw [List.map_map, List.getElem?_map, List.getElem?_map]
    cases hp : s.ports[i]? with
    | none => rfl
    | some p =>
        have hlead : s.lead.ports p.asBuilt.index = p.lead := by
          show ((s.ports[p.index]?).map (·.lead)).getD {} = _
          rw [hi i p hp, hp]
          rfl
        rw [Option.map_some, Option.map_some, Function.comp_apply, portAhead, hlead,
          Port.asBuilt_ahead]
  have hreads : s.readArbiter.asBuilt.ahead s.lead.readGrants = s.readArbiter.reset := by
    have hgrants := countsAhead_zero s.readArbiter.grants
    exact congrArg (fun grants => ({ s.readArbiter.reset with grants } : ReadArbiter)) hgrants
  have hwrites : s.writeArbiter.asBuilt.ahead s.lead.writeGrants = s.writeArbiter.reset := by
    have hgrants := countsAhead_zero s.writeArbiter.grants
    exact congrArg (fun grants => ({ s.writeArbiter.reset with grants } : WriteArbiter)) hgrants
  have hmemory : Memory.ahead s.lead.clock s.lead.memory
      { s.asBuilt.memory with store := s.memory.store } = s.memory.reset := by
    have hclock : 0 + s.memory.cycle = s.memory.cycle := Nat.zero_add _
    unfold Memory.ahead asBuilt lead
    dsimp only
    rw [MemoryStats.zero_ahead, hclock]
    rfl
  have hcycle : 0 + s.cycle = s.cycle := Nat.zero_add _
  unfold ahead
  dsimp only
  rw [hmemory, show s.asBuilt.readArbiter = s.readArbiter.asBuilt from rfl, hreads,
    show s.asBuilt.writeArbiter = s.writeArbiter.asBuilt from rfl, hwrites,
    show (s.asBuilt.ports.map fun p => p.ahead (s.lead.ports p.index)) = _ from hports,
    show s.asBuilt.cycle + s.lead.cycle = s.cycle from hcycle]
  rfl

/-! ## Recording

Handshakes can be recorded from any cycle on, and the records taken at any time. Neither
reaches anything but the records. -/

/-- The machine without its records. -/
def unrecorded (s : Machine) : Machine :=
  { s with capture := false, newestEvents := [] }

theorem unrecorded_tick (s : Machine) : s.unrecorded.tick = unrecorded <$> s.tick := by
  unfold tick
  rw [map_bind]
  refine bind_congr fun w => ?_
  dsimp only
  rw [map_bind]
  refine bind_congr fun memory => ?_
  rw [map_bind]
  refine bind_congr fun readArbiter => ?_
  rw [map_bind]
  refine bind_congr fun writeArbiter => ?_
  rw [map_bind]
  exact bind_congr fun ports => rfl

theorem unrecorded_writeRegister (s : Machine) (addr value : UInt32) :
    s.unrecorded.writeRegister addr value = unrecorded <$> s.writeRegister addr value := by
  unfold writeRegister
  rw [map_bind]
  refine bind_congr fun found => ?_
  cases found with
  | none => rfl
  | some found =>
      obtain ⟨p, side, index⟩ := found
      cases side with
      | reader =>
          dsimp only
          rw [map_bind]
          exact bind_congr fun regs => rfl
      | writer =>
          dsimp only
          rw [map_bind]
          exact bind_congr fun regs => rfl

theorem unrecorded_apply {op : Operation} (h : op.apply s = .ok s') :
    op.apply s.unrecorded = .ok s'.unrecorded := by
  cases op with
  | write addr value =>
      have hrun := congrArg Run.result (unrecorded_writeRegister s addr value)
      rw [Run.result_map, show (s.writeRegister addr value).result = .ok s' from h] at hrun
      exact hrun
  | read addr =>
      obtain ⟨value, hv, rfl⟩ := except_map_eq_ok.mp h
      exact except_map_eq_ok.mpr ⟨value, hv, rfl⟩
  | push port beats =>
      simp only [Operation.apply, pushStream] at h ⊢
      rw [show s.unrecorded.ports = s.ports from rfl]
      cases hp : s.ports[port]? with
      | none =>
          rw [hp] at h
          cases h
      | some p =>
          rw [hp] at h
          cases h
          rfl
  | take port =>
      simp only [Operation.apply, takeOutput] at h ⊢
      rw [show s.unrecorded.ports = s.ports from rfl]
      cases hp : s.ports[port]? with
      | none =>
          rw [hp] at h
          cases h
      | some p =>
          rw [hp] at h
          cases h
          rfl
  | load base words =>
      simp only [Operation.apply, loadMemory] at h ⊢
      rw [show s.unrecorded.memory.store = s.memory.store from rfl]
      cases hl : s.memory.store.load base words with
      | ok store =>
          rw [hl] at h
          cases h
          rfl
      | error stop =>
          rw [hl] at h
          cases stop with
          | fault fault => cases h
          | problem problem =>
              cases h
              rfl
  | tick =>
      have hrun := congrArg Run.result (unrecorded_tick s)
      rw [Run.result_map, show s.tick.result = .ok s' from h] at hrun
      exact hrun
  | reset =>
      rw [reset_eq_ok h]
      rfl

/-- A state that a machine can get into while its handshakes are recorded now and then. -/
inductive Watched (params : MachineParams) : Machine → Prop where
  | new {s : Machine} : ofParams params = .ok s → Watched params s
  | step {s s' : Machine} {op : Operation} :
      Watched params s → op.apply s = .ok s' → Watched params s'
  | record {s : Machine} (capture : Bool) : Watched params s → Watched params { s with capture }
  | collect {s : Machine} : Watched params s → Watched params s.takeEvents.2

/-- But for the records it is a state that the machine reaches anyway. -/
theorem Watched.reachable (h : Watched params s) : Machine.Reachable params s.unrecorded := by
  induction h with
  | @new s h =>
      have hquiet : s.unrecorded = s := by
        obtain ⟨_, _, _, _, rfl⟩ := ofParams_eq_ok h
        rfl
      rw [hquiet]
      exact ⟨s, [], h, .start⟩
  | step _ hop ih =>
      obtain ⟨s₀, past, h₀, hist⟩ := ih
      exact ⟨s₀, _, h₀, hist.step (unrecorded_apply hop)⟩
  | record capture _ ih => exact ih
  | collect _ ih => exact ih

theorem watched_of_history {s₀ : Machine} {past : List Moment} (h₀ : ofParams params = .ok s₀)
    (h : History s₀ past s) : Watched params s := by
  induction h with
  | start => exact .new h₀
  | step _ hop ih => exact ih.step hop

/-! ## A fresh start -/

/-- A new machine that was given words, and records its handshakes or not. -/
def freshWith (capture : Bool) (words : Array Word) (s : Machine) : Machine :=
  { s with
    capture
    memory := { s.memory with store := { s.memory.store with words } } }

/-- Nothing tells `t` from `u` but the clock and the counters, and those of `t` are ahead by
`o`. -/
structure Alike (o : Lead) (u t : Machine) : Prop where
  register : ∀ addr, t.readRegister addr = u.readRegister addr
  irq : ∀ line, t.irq line = u.irq line
  /-- The engines, their registers, the buffers and the streams are the same. -/
  port : ∀ i : Nat, t.ports[i]? = (u.ports[i]?).map fun p => p.ahead (o.ports p.index)
  readArbiter : t.readArbiter = u.readArbiter.ahead o.readGrants
  writeArbiter : t.writeArbiter = u.writeArbiter.ahead o.writeGrants
  /-- What everyone drives, which handshakes take place and what is granted. -/
  wires : t.wires = u.wires
  received : ∀ i : Nat, (t.ports[i]?).map (·.sink.received) = (u.ports[i]?).map (·.sink.received)
  words : t.memory.store = u.memory.store
  memory : t.memory = u.memory.ahead o.clock o.memory
  quiescent : t.isQuiescent = u.isQuiescent
  events : t.events = u.events.map (·.ahead o.cycle)
  cycle : t.cycle = u.cycle + o.cycle

theorem alike_ahead (o : Lead) (u : Machine) : Alike o u (u.ahead o) where
  register := ahead_readRegister o u
  irq := ahead_irq o u
  port := ahead_port o u
  readArbiter := rfl
  writeArbiter := rfl
  wires := ahead_wires o u
  received := by
    intro i
    rw [ahead_port]
    cases u.ports[i]? <;> rfl
  words := rfl
  memory := rfl
  quiescent := ahead_isQuiescent o u
  events := ahead_events o u
  cycle := rfl

/-- **A reset is a fresh start.** Take any state of a machine, in the middle of bursts or not,
and a new machine of the same parameters with the words that the reset leaves. Whatever is
done to the two from then on, they end with the same fault or are alike: clock and counters
differ by constants that were fixed at the reset. -/
theorem reset_restarts {f₀ : Machine} (h : Watched params s) (hreset : s.reset.result = .ok s')
    (hnew : ofParams params = .ok f₀) :
    ∃ o : Lead, ∀ ops : List Operation,
      (∀ past u, (freshWith s.capture s'.memory.store.words f₀).replay ops = .ok (past, u) →
        ∃ past' t, s'.replay ops = .ok (past', t) ∧ Alike o u t)
      ∧ ∀ fault, (freshWith s.capture s'.memory.store.words f₀).replay ops = .error fault →
        s'.replay ops = .error fault := by
  obtain ⟨hf, hbuilt⟩ := asBuilt_reachable h.reachable hnew
  have hi : s.Indexed := hf.indexed
  have hwords : s'.memory.store = s.memory.store := by
    rw [reset_eq_ok hreset]
    rfl
  -- the new machine with the words that were left is what the machine was built as
  have hfresh : freshWith s.capture s'.memory.store.words f₀ = { s.asBuilt with
      capture := s.capture
      memory := { s.asBuilt.memory with store := s.memory.store } } := by
    have hgeo : f₀.memory.store.geometry = s.memory.store.geometry :=
      (formed_ofParams hnew).geometry.trans hf.geometry.symm
    have hreg : f₀.memory.store.regions = s.memory.store.regions :=
      (formed_ofParams hnew).regions.trans hf.regions.symm
    have hstore : (⟨f₀.memory.store.geometry, f₀.memory.store.regions,
        s'.memory.store.words⟩ : Store) = s.memory.store := by
      rw [hgeo, hreg, hwords]
    have hbuilt' : s.asBuilt = f₀.asBuilt := hbuilt
    calc freshWith s.capture s'.memory.store.words f₀
        = freshWith s.capture s'.memory.store.words { f₀.asBuilt with
            memory := { f₀.asBuilt.memory with store := f₀.memory.store } } :=
          congrArg _ (asBuilt_ofParams hnew)
      _ = { f₀.asBuilt with
            capture := s.capture
            memory := { f₀.asBuilt.memory with store := ⟨f₀.memory.store.geometry,
              f₀.memory.store.regions, s'.memory.store.words⟩ } } := rfl
      _ = _ := by rw [hstore, hbuilt']
  have hahead := reset_eq_ahead hi
  rw [hreset, ← hfresh] at hahead
  have hs' := Except.ok.inj hahead
  refine ⟨s.lead, fun ops => ?_⟩
  have hreplay := ahead_replay s.lead (freshWith s.capture s'.memory.store.words f₀) ops
  rw [← hs'] at hreplay
  refine ⟨?_, ?_⟩
  · intro past u hu
    rw [hu] at hreplay
    exact ⟨_, _, hreplay, alike_ahead s.lead u⟩
  · intro fault hfault
    rw [hfault] at hreplay
    exact hreplay

/-- A reset between two reads that are in flight, with a write burst half collected. -/
theorem reset_restarts_mid_burst :
    ∃ s s' f₀, Watched { ports := [{}, {}], inputRegister := true, outputRegister := true } s
      ∧ s.capture = true ∧ s.memory.reads.length = 2 ∧ s.memory.collected.length = 7
      ∧ s.reset.result = .ok s'
      ∧ ofParams { ports := [{}, {}], inputRegister := true, outputRegister := true } = .ok f₀
      ∧ ∃ o : Lead, ∀ ops : List Operation,
        (∀ past u, (freshWith true s'.memory.store.words f₀).replay ops = .ok (past, u) →
          ∃ past' t, s'.replay ops = .ok (past', t) ∧ Alike o u t)
        ∧ ∀ fault, (freshWith true s'.memory.store.words f₀).replay ops = .error fault →
          s'.replay ops = .error fault := by
  have hrun : trial { ports := [{}, {}], inputRegister := true, outputRegister := true }
      (.push 1 (List.replicate 8 {}) :: Operation.program 0 .reader 0 32 8
        ++ Operation.program 1 .writer 512 8 8 ++ List.replicate 18 .tick)
      (fun _ s => s.memory.reads.length == 2 && s.memory.collected.length == 7) = true := by
    decide +kernel
  obtain ⟨f₀, past, t, h₀, hist, hlook⟩ := exists_of_trial hrun
  rw [Bool.and_eq_true, beq_iff_eq, beq_iff_eq] at hlook
  obtain ⟨hreads, hcollected⟩ := hlook
  have hwatched : Watched { ports := [{}, {}], inputRegister := true, outputRegister := true }
      { t with capture := true } := (watched_of_history h₀ hist).record true
  exact ⟨_, _, f₀, hwatched, rfl, hreads, hcollected, rfl, h₀, reset_restarts hwatched rfl h₀⟩

end Machine

end BurstDma
