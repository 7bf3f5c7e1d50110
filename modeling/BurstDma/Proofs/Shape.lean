import BurstDma.Proofs.ReadPath
import BurstDma.Proofs.RoundRobin
import BurstDma.Proofs.WriteEngine

/-!
# What a machine stays built like

A machine is wired once. Its ports keep their numbers, their buffers and their mode, the
memory keeps its geometry and the regions that fail, and the read path keeps its form.
`Machine.Formed` collects all of it, and **every machine with a history is formed**. The
laws about what moves through the machine start from there: `History.induction` hands
them a formed machine in every case.
-/

namespace BurstDma

/-- Port `i` is one that was built from `q`. -/
structure Port.Built (g : Geometry) (i : Nat) (q : PortParams) (p : Port) : Prop where
  index : p.index = i
  readGeometry : p.reader.geometry = g
  writeGeometry : p.writer.geometry = g
  readCapacity : p.readFifo.capacity = q.fifoDepth
  writeCapacity : p.writeFifo.capacity = q.fifoDepth
  readLatch : p.readFifo.frameLatch = false
  writeLatch : p.writeFifo.frameLatch = q.frameMode
  frameMode : p.writer.core.frameMode = q.frameMode

namespace Port

variable {g : Geometry} {i : Nat} {q : PortParams} {p p' : Port}

theorem built_ofParams (g : Geometry) (i : Nat) (q : PortParams) :
    (ofParams g i q).Built g i q :=
  ⟨rfl, rfl, rfl, rfl, rfl, rfl, rfl, rfl⟩

/-- A clock edge changes what a buffer holds, but not the buffer. -/
theorem Edge.shape {reads : ReadBus} {writes : WriteBus} {rstep : ReadStep} {wstep : WriteStep}
    (h : p.Edge reads writes rstep wstep p') :
    p'.readFifo.capacity = p.readFifo.capacity ∧ p'.readFifo.frameLatch = p.readFifo.frameLatch
      ∧ p'.writeFifo.capacity = p.writeFifo.capacity
      ∧ p'.writeFifo.frameLatch = p.writeFifo.frameLatch := by
  obtain ⟨b, hdrain⟩ := h.drain
  obtain ⟨_, hdc, hdl, _⟩ := Sink.tick_contents hdrain
  have hpush : ((rstep.push.bind p.readFifo.push?).getD p.readFifo).capacity
        = p.readFifo.capacity
      ∧ ((rstep.push.bind p.readFifo.push?).getD p.readFifo).frameLatch
        = p.readFifo.frameLatch := by
    cases hp : rstep.push.bind p.readFifo.push? with
    | none => exact ⟨rfl, rfl⟩
    | some f =>
        obtain ⟨beat, _, hf⟩ := Option.bind_eq_some_iff.mp hp
        obtain ⟨_, _, hc, hl, _⟩ := Fifo.push?_eq_some hf
        exact ⟨hc, hl⟩
  obtain ⟨f, a, hpop, hfill⟩ := h.fill
  obtain ⟨hfc, hfl⟩ := Source.tick_shape hfill
  have hpopped : f.capacity = p.writeFifo.capacity
      ∧ f.frameLatch = p.writeFifo.frameLatch := by
    split at hpop
    · obtain ⟨⟨a, f'⟩, hf, rfl⟩ := except_map_eq_ok.mp hpop
      obtain ⟨_, _, hc, hl, _⟩ := Fifo.pop_eq_ok hf
      exact ⟨hc, hl⟩
    · cases hpop
      exact ⟨rfl, rfl⟩
  exact ⟨hdc.trans hpush.1, hdl.trans hpush.2, hfc.trans hpopped.1, hfl.trans hpopped.2⟩

theorem Built.edge {reads : ReadBus} {writes : WriteBus} {rstep : ReadStep} {wstep : WriteStep}
    (hb : p.Built g i q) (h : p.Edge reads writes rstep wstep p') : p'.Built g i q := by
  obtain ⟨_, hrg⟩ := ReadEngine.tick_core h.reader
  obtain ⟨hcore, hwg⟩ := WriteEngine.tick_core h.writer
  obtain ⟨hrc, hrl, hwc, hwl⟩ := h.shape
  refine ⟨?_, ?_, ?_, ?_, ?_, ?_, ?_, ?_⟩
  · rw [h.index, hb.index]
  · rw [hrg, hb.readGeometry]
  · rw [hwg, hb.writeGeometry]
  · rw [hrc, hb.readCapacity]
  · rw [hwc, hb.writeCapacity]
  · rw [hrl, hb.readLatch]
  · rw [hwl, hb.writeLatch]
  · rw [WriteCore.frameMode_next hcore, hb.frameMode]

theorem Built.touched {e : Moment} (hb : p.Built g i q) (h : Port.Touched i e p p') :
    p'.Built g i q := by
  refine ⟨?_, ?_, ?_, ?_, ?_, ?_, ?_, ?_⟩
  · rw [h.index, hb.index]
  · rw [h.reader, hb.readGeometry]
  · rw [h.writer, hb.writeGeometry]
  · rw [h.readFifo, hb.readCapacity]
  · rw [h.writeFifo, hb.writeCapacity]
  · rw [h.readFifo, hb.readLatch]
  · rw [h.writeFifo, hb.writeLatch]
  · rw [h.writer, hb.frameMode]

theorem Built.reset (hb : p.Built g i q) : p.reset.Built g i q :=
  ⟨hb.index, hb.readGeometry, hb.writeGeometry, hb.readCapacity, hb.writeCapacity,
    hb.readLatch, hb.writeLatch, hb.frameMode⟩

end Port

namespace Machine

/-- The machine is one that was built from `params`, and its read path is in form. -/
structure Formed (params : MachineParams) (s : Machine) : Prop where
  length : s.ports.length = params.ports.length
  port : ∀ (i : Nat) (p : Port), s.ports[i]? = some p →
    ∃ q, params.ports[i]? = some q ∧ p.Built params.geometry i q
  geometry : s.memory.store.geometry = params.geometry
  regions : s.memory.store.regions = params.memory.errorRegions
  reads : s.ReadPathFormed

variable {params : MachineParams} {s s' : Machine}

theorem Formed.indexed (hf : s.Formed params) : s.Indexed := by
  intro i p hp
  obtain ⟨q, _, hb⟩ := hf.port i p hp
  exact hb.index

/-- What a machine that was just built looks like. -/
theorem ofParams_eq_ok (h : ofParams params = .ok s) :
    ∃ readArbiter writeArbiter,
      ReadArbiter.ofParams {
        requesters := params.ports.length
        maxOutstanding := params.memory.readOutstanding
        inputRegister := params.inputRegister
        outputRegister := params.outputRegister } = .ok readArbiter
      ∧ WriteArbiter.ofRequesters params.ports.length = .ok writeArbiter
      ∧ s = {
        ports := params.ports.zipIdx.map fun (port, i) => Port.ofParams params.geometry i port
        readArbiter
        writeArbiter
        memory := Memory.ofParams params.memory params.geometry } := by
  unfold ofParams at h
  split at h
  · cases h
  · split at h
    · cases h
    · dsimp only at h
      split at h
      · cases h
      · rename_i readArbiter writeArbiter harb
        cases h
        obtain ⟨ra, hra, harb⟩ := except_bind_eq_ok.mp harb
        obtain ⟨wa, hwa, harb⟩ := except_bind_eq_ok.mp harb
        cases harb
        exact ⟨readArbiter, writeArbiter, hra, hwa, rfl⟩

/-- What parameters of a machine need: ports for the lanes of an arbiter, room for a read, and
buffers. -/
theorem refusal?_eq_none_iff : refusal? params = none ↔
    (1 ≤ params.ports.length ∧ params.ports.length ≤ maxRequesters)
      ∧ 1 ≤ params.memory.readOutstanding ∧ ∀ q ∈ params.ports, 1 ≤ q.fifoDepth := by
  have hlanes : ¬ (params.ports.isEmpty || decide (maxRequesters < params.ports.length)) = true ↔
      1 ≤ params.ports.length ∧ params.ports.length ≤ maxRequesters := by
    rw [Bool.or_eq_true, not_or, List.isEmpty_iff, decide_eq_true_eq, Nat.not_lt]
    exact and_congr_left fun _ => List.length_pos_iff.symm
  have hdepths : (params.ports.findIdx? (·.fifoDepth == 0)).map Refusal.zeroDepthFifo = none ↔
      ∀ q ∈ params.ports, 1 ≤ q.fifoDepth := by
    rw [Option.map_eq_none_iff, List.findIdx?_eq_none_iff]
    exact forall₂_congr fun _ _ => beq_eq_false_iff_ne.trans Nat.pos_iff_ne_zero.symm
  unfold refusal?
  rw [ite_some_eq_none_iff, ite_some_eq_none_iff, hlanes, hdepths]
  exact and_congr_right' (and_congr_left' Nat.pos_iff_ne_zero.symm)

/-- A machine is built exactly if its parameters are not refused and its buffers can be
reserved. -/
theorem ofParams_ok_iff :
    (∃ s, ofParams params = .ok s) ↔ refusal? params = none ∧ params.Reservable := by
  constructor
  · rintro ⟨s, h⟩
    unfold ofParams at h
    split at h
    · cases h
    · rename_i hnone
      split at h
      · cases h
      · rename_i hreserved
        exact ⟨hnone, Decidable.not_not.mp hreserved⟩
  · rintro ⟨h, hreserved⟩
    have hturn := RoundRobin.ofLanes_eq_ok.mpr ⟨(refusal?_eq_none_iff.mp h).1, rfl⟩
    unfold ofParams ReadArbiter.ofParams WriteArbiter.ofRequesters
    rw [h]
    dsimp only
    rw [if_neg (not_not_intro hreserved), hturn]
    exact ⟨_, rfl⟩

/-- Parameters that are not refused can still ask for too large a buffer. -/
theorem ofParams_unreservable (h : refusal? params = none) (hlarge : ¬ params.Reservable) :
    ofParams params = .error (.fault (.violation .capacityOverflow)) := by
  unfold ofParams
  rw [h]
  exact if_pos hlarge

/-- Too many ports are refused before anything else. -/
theorem ofParams_crowded (h : maxRequesters < params.ports.length) :
    ofParams params = .error (.problem (.refused (.portCount params.ports.length))) := by
  unfold ofParams refusal?
  rw [decide_eq_true h, Bool.or_true, if_pos rfl]

/-- A machine has no more ports than an arbiter has lanes. -/
theorem length_ofParams (h : ofParams params = .ok s) : params.ports.length ≤ maxRequesters :=
  (refusal?_eq_none_iff.mp (ofParams_ok_iff.mp ⟨s, h⟩).1).1.2

/-- A machine can have a read in flight. -/
theorem readOutstanding_ofParams (h : ofParams params = .ok s) :
    0 < params.memory.readOutstanding :=
  (refusal?_eq_none_iff.mp (ofParams_ok_iff.mp ⟨s, h⟩).1).2.1

theorem getElem?_ofParams (h : ofParams params = .ok s) (i : Nat) :
    s.ports[i]? = (params.ports[i]?).map (Port.ofParams params.geometry i) := by
  obtain ⟨_, _, _, _, rfl⟩ := ofParams_eq_ok h
  simp only [List.getElem?_map, List.getElem?_zipIdx, Option.map_map]
  cases params.ports[i]? with
  | none => rfl
  | some q => simp

/-- A new read arbiter is in form, and nothing is in flight. -/
theorem reads_ofParams (h : ofParams params = .ok s) :
    s.ReadPathFormed ∧ ∀ i, s.unsent i = [] ∧ s.held i = [] := by
  obtain ⟨readArbiter, _, hra, _, rfl⟩ := ofParams_eq_ok h
  obtain ⟨turn, _, hra⟩ := except_bind_eq_ok.mp hra
  cases hra
  have hempty : ∀ skid ∈ List.replicate params.ports.length ({} : Skid AddrReq), skid = {} :=
    fun skid hskid => List.eq_of_mem_replicate hskid
  refine ⟨⟨⟨?_, ?_, Skid.packed_empty, Skid.packed_empty, ?_, fun _ => ⟨rfl, rfl⟩⟩, ?_⟩, ?_⟩
  · simp
  · intro skid hskid
    rw [hempty skid hskid]
    exact Skid.packed_empty
  · intro _ skid hskid
    rw [hempty skid hskid]
    rfl
  · intro job hjob
    cases hjob
  · intro i
    refine ⟨?_, rfl⟩
    unfold unsent ReadArbiter.waiting
    dsimp only
    rw [List.getElem?_replicate]
    split <;> rfl

theorem formed_ofParams (h : ofParams params = .ok s) : s.Formed params := by
  obtain ⟨hreads, _⟩ := reads_ofParams h
  have hget := getElem?_ofParams h
  obtain ⟨_, _, _, _, rfl⟩ := ofParams_eq_ok h
  refine ⟨by simp, ?_, rfl, rfl, hreads⟩
  intro i p hp
  rw [hget] at hp
  obtain ⟨q, hq, rfl⟩ := Option.map_eq_some_iff.mp hp
  exact ⟨q, hq, Port.built_ofParams _ _ _⟩

theorem Formed.edge {slave : ReadSlave} (hf : s.Formed params) (h : s.Edge slave s') :
    s'.Formed params := by
  obtain ⟨hgeo, hreg⟩ := Moment.storeAfter_geometry s.memory.store (s, .tick)
  refine ⟨h.length.trans hf.length, ?_, ?_, ?_, readPathFormed_edge hf.reads h⟩
  · intro i p' hp'
    obtain ⟨p, rstep, wstep, hp, hedge⟩ := h.port' hp'
    obtain ⟨q, hq, hb⟩ := hf.port i p hp
    exact ⟨q, hq, hb.edge hedge⟩
  · rw [h.store]
    exact hgeo.trans hf.geometry
  · rw [h.store]
    exact hreg.trans hf.regions

theorem Formed.touched {op : Operation} (hf : s.Formed params) (h : s.Touched op s') :
    s'.Formed params := by
  obtain ⟨hgeo, hreg⟩ := Moment.storeAfter_geometry s.memory.store (s, op)
  refine ⟨h.length.trans hf.length, ?_, ?_, ?_, h.reads.1 hf.reads⟩
  · intro i p' hp'
    obtain ⟨p, hp, ht⟩ := h.port' hp'
    obtain ⟨q, hq, hb⟩ := hf.port i p hp
    exact ⟨q, hq, hb.touched ht⟩
  · rw [h.memory]
    exact hgeo.trans hf.geometry
  · rw [h.memory]
    exact hreg.trans hf.regions

theorem Formed.reset (hf : s.Formed params) (h : s.reset.result = .ok s') :
    s'.Formed params := by
  obtain ⟨hreads, _⟩ := reset_reads hf.reads h
  have hs := reset_eq_ok h
  subst hs
  refine ⟨by simpa using hf.length, ?_, hf.geometry, hf.regions, hreads⟩
  intro i p' hp'
  simp only [List.getElem?_map, Option.map_eq_some_iff] at hp'
  obtain ⟨p, hp, rfl⟩ := hp'
  obtain ⟨q, hq, hb⟩ := hf.port i p hp
  exact ⟨q, hq, hb.reset⟩

end Machine

/-! ## Along a history -/

variable {params : MachineParams} {s₀ s s' : Machine} {past : List Moment}

theorem Machine.Formed.apply {op : Operation} (hf : s.Formed params)
    (h : op.apply s = .ok s') : s'.Formed params := by
  by_cases ht : op = .tick
  · subst ht
    obtain ⟨slave, hedge⟩ := Machine.tick_edge h
    exact hf.edge hedge
  · by_cases hr : op = .reset
    · subst hr
      exact hf.reset h
    · exact hf.touched (Machine.touched_of_apply hf.indexed h ht hr)

/-- **Every machine with a history is formed.** -/
theorem History.formed (h₀ : Machine.ofParams params = .ok s₀) (h : History s₀ past s) :
    s.Formed params := by
  induction h with
  | start => exact Machine.formed_ofParams h₀
  | step _ hop ih => exact ih.apply hop

theorem Machine.Reachable.formed (h : Machine.Reachable params s) : s.Formed params := by
  obtain ⟨s₀, past, h₀, h⟩ := h
  exact h.formed h₀

/-- What holds of a new machine, and survives the clock and everything that is done
between the ticks, holds after every history without a reset. In every case the state before
was reached itself, so that what is known of reachable machines can be used. -/
theorem History.steps {P : List Moment → Machine → Prop}
    (h₀ : Machine.ofParams params = .ok s₀) (h : History s₀ past s) (hu : Uninterrupted past)
    (hstart : P [] s₀)
    (htick : ∀ {past : List Moment} {s s' : Machine} {slave : ReadSlave},
      Machine.Reachable params s → P past s → s.Edge slave s' → P (past ++ [(s, .tick)]) s')
    (htouch : ∀ {past : List Moment} {s s' : Machine} {op : Operation}, op ≠ .tick →
      Machine.Reachable params s → P past s → s.Touched op s' → P (past ++ [(s, op)]) s') :
    P past s := by
  induction h with
  | start => exact hstart
  | @step past s s' op hist hop ih =>
      obtain ⟨hpast, hreset⟩ := uninterrupted_concat.mp hu
      have hr : Machine.Reachable params s := ⟨s₀, past, h₀, hist⟩
      by_cases ht : op = .tick
      · subst ht
        obtain ⟨slave, hedge⟩ := Machine.tick_edge hop
        exact htick hr (ih hpast) hedge
      · exact htouch ht hr (ih hpast) (Machine.touched_of_apply hr.formed.indexed hop ht hreset)

/-- What only needs the machine to be formed. -/
theorem History.induction {P : List Moment → Machine → Prop}
    (h₀ : Machine.ofParams params = .ok s₀) (h : History s₀ past s) (hu : Uninterrupted past)
    (hstart : P [] s₀)
    (htick : ∀ {past : List Moment} {s s' : Machine} {slave : ReadSlave}, s.Formed params →
      P past s → s.Edge slave s' → P (past ++ [(s, .tick)]) s')
    (htouch : ∀ {past : List Moment} {s s' : Machine} {op : Operation}, op ≠ .tick →
      s.Formed params → P past s → s.Touched op s' → P (past ++ [(s, op)]) s') :
    P past s :=
  h.steps h₀ hu hstart (fun hr => htick hr.formed) fun ht hr => htouch ht hr.formed

/-- The same for what a reset keeps too. -/
theorem Machine.Reachable.steps {P : Machine → Prop} (h : Machine.Reachable params s)
    (hstart : ∀ {s : Machine}, Machine.ofParams params = .ok s → P s)
    (htick : ∀ {s s' : Machine} {slave : ReadSlave}, Machine.Reachable params s → P s →
      s.Edge slave s' → P s')
    (htouch : ∀ {s s' : Machine} {op : Operation}, Machine.Reachable params s → P s →
      s.Touched op s' → P s')
    (hreset : ∀ {s s' : Machine}, Machine.Reachable params s → P s →
      s.reset.result = .ok s' → P s') : P s := by
  obtain ⟨s₀, past, h₀, h⟩ := h
  induction h with
  | start => exact hstart h₀
  | @step past s s' op hist hop ih =>
      have hr : Machine.Reachable params s := ⟨s₀, past, h₀, hist⟩
      by_cases ht : op = .tick
      · subst ht
        obtain ⟨slave, hedge⟩ := Machine.tick_edge hop
        exact htick hr ih hedge
      · by_cases hreset' : op = .reset
        · subst hreset'
          exact hreset hr ih hop
        · exact htouch hr ih (Machine.touched_of_apply hr.formed.indexed hop ht hreset')

/-- What only needs the machine to be formed. -/
theorem Machine.Reachable.induction {P : Machine → Prop} (h : Machine.Reachable params s)
    (hstart : ∀ {s : Machine}, Machine.ofParams params = .ok s → P s)
    (htick : ∀ {s s' : Machine} {slave : ReadSlave}, s.Formed params → P s →
      s.Edge slave s' → P s')
    (htouch : ∀ {s s' : Machine} {op : Operation}, s.Formed params → P s →
      s.Touched op s' → P s')
    (hreset : ∀ {s s' : Machine}, s.Formed params → P s → s.reset.result = .ok s' → P s') :
    s.Formed params ∧ P s :=
  ⟨h.formed, h.steps hstart (fun hr => htick hr.formed) (fun hr => htouch hr.formed)
    fun hr => hreset hr.formed⟩

end BurstDma
