import BurstDma.Proofs.LoopbackData
import BurstDma.Proofs.Rest
import BurstDma.Simulation.Basic

/-!
# A self-check always passes

Vectors are generated, a machine is built for them, every source is given its input, every
sink is told what to see, and the scripts are read from their texts and played until nothing
moves any more. **None of these steps is ever refused, and a run that ends by itself passes**:
the memory is the reference, every sink has seen what its source sent, and every engine has
finished one transfer for every frame. That holds for any options of the machine, and in
whichever order the scripts take their steps.
-/

namespace BurstDma

theorem mapM_forall₂ {ε α β : Type} {f : α → Except ε β} {R : α → β → Prop} {xs : List α}
    (h : ∀ x ∈ xs, ∃ y, f x = .ok y ∧ R x y) : ∃ ys, xs.mapM f = .ok ys ∧ List.Forall₂ R xs ys := by
  induction xs with
  | nil => exact ⟨[], rfl, .nil⟩
  | cons x xs ih =>
      obtain ⟨y, hy, hr⟩ := h x List.mem_cons_self
      obtain ⟨ys, hys, hrs⟩ := ih fun x' hx' => h x' (List.mem_cons_of_mem _ hx')
      rw [List.mapM_cons]
      exact ⟨y :: ys, except_bind_eq_ok.mpr ⟨y, hy, except_bind_eq_ok.mpr ⟨ys, hys, rfl⟩⟩,
        .cons hr hrs⟩

/-! ## Putting it together -/

namespace LoopbackVectors

/-- The text of a script. -/
def scriptText (v : LoopbackVectors) (role : Loopback.Role) : String :=
  match role.2 with
  | .writer => v.writerScripts[role.1]?.getD ""
  | .reader => v.readerScripts[role.1]?.getD ""

/-- Does something with the input of every port, in order. -/
def eachInput {σ : Type} (v : LoopbackVectors) (act : σ → Nat → List Beat → Except Fault σ)
    (x : σ) : Except Fault σ :=
  v.inputs.zipIdx.foldlM (fun x (beats, port) => act x port beats) x

/-- A machine with the inputs at its sources, under the scripts, with all references. -/
def simulation (v : LoopbackVectors) (s : Machine) (scripts : List Script) (maxCycles : Nat) :
    Except Fault Simulation := do
  let s ← v.eachInput Machine.pushStream s
  let sim := Simulation.ofMachine s (scripts.map Player.ofScript) maxCycles
  let sim ← v.eachInput Simulation.setStreamRef sim
  return { sim with memoryRef := some v.memoryRef }

end LoopbackVectors

/-- Runs on by itself, and sums up. -/
def Simulation.runToReport (sim : Simulation) : Run (Simulation × Report) := do
  let sim ← sim.runOn
  return (sim, ← sim.report)

namespace Loopback

/-- The self-check of a machine. The scripts take their steps in the order of `roles`. -/
def selfCheck (l : Loopback) (params : MachineParams) (roles : List Role) (name : Role → String)
    (maxCycles : Nat) : Except Stop (Simulation × Report) := do
  let v ← l.generate
  let s ← Machine.ofParams params
  let scripts ←
    (roles.mapM fun role => Script.read (v.scriptText role) (name role)).mapError .problem
  let sim ← (v.simulation s scripts maxCycles).mapError .fault
  sim.runToReport.result.mapError .fault

/-- Parameters of a machine for some vectors, and an order of all scripts. What keeps a machine
from being built is ruled out; latencies, depths, throttles and registers are free. -/
structure Setting (l : Loopback) (v : LoopbackVectors) (params : MachineParams)
    (roles : List Role) : Prop where
  lanes : 1 ≤ l.ports ∧ l.ports ≤ 32
  legal : params.geometry.Legal
  width : params.geometry.wordBytes = l.wordBytes
  ports : params.ports.length = l.ports
  mode : ∀ q ∈ params.ports, q.frameMode = l.frameMode
  depth : ∀ q ∈ params.ports, 1 ≤ q.fifoDepth
  outstanding : 1 ≤ params.memory.readOutstanding
  reserved : params.Reservable
  size : params.memory.sizeWords = v.memoryWords
  faultless : params.memory.errorRegions = []
  nodup : roles.Nodup
  complete : ∀ role : Role, role ∈ roles ↔ role.1 < l.ports

end Loopback

namespace Loopback

variable {l : Loopback} {v : LoopbackVectors} {params : MachineParams} {roles : List Role}
  {s₀ s s' : Machine} {sim : Simulation} {rep : Report}

theorem Setting.bench (hs : l.Setting v params roles) (hv : l.generate = .ok v) :
    ∃ s₀, l.Bench v params s₀ := by
  have hlanes : 1 ≤ params.ports.length ∧ params.ports.length ≤ maxRequesters := by
    rw [hs.ports]
    exact hs.lanes
  obtain ⟨s₀, h₀⟩ := Machine.ofParams_ok_iff.mpr
    ⟨Machine.refusal?_eq_none_iff.mpr ⟨hlanes, hs.outstanding, hs.depth⟩, hs.reserved⟩
  exact ⟨s₀, hs.legal, hs.width.symm, hs.ports, hs.mode, hs.size, hs.faultless,
    generated_of_ok hv, h₀⟩

/-! ## Before the first cycle -/

/-- What is done with input after input keeps what each of them keeps. -/
theorem eachInput_ok {σ : Type} {act : σ → Nat → List Beat → Except Fault σ} {R : Nat → σ → Prop}
    {x : σ} (h : R 0 x)
    (hstep : ∀ (i : Nat) (beats : List Beat) (x : σ), v.inputs[i]? = some beats → R i x →
      ∃ y, act x i beats = .ok y ∧ R (i + 1) y) :
    ∃ y, v.eachInput act x = .ok y ∧ R v.inputs.length y := by
  have hfrom : ∀ (rest : List (List Beat)) (k : Nat) (x : σ), R k x →
      (∀ j beats, rest[j]? = some beats → v.inputs[k + j]? = some beats) →
      ∃ y, (rest.zipIdx k).foldlM (fun x (beats, port) => act x port beats) x = .ok y
        ∧ R (k + rest.length) y := by
    intro rest
    induction rest with
    | nil => exact fun k x hx _ => ⟨x, rfl, hx⟩
    | cons beats rest ih =>
        intro k x hx hrest
        obtain ⟨y, hy, hnext⟩ := hstep k beats x (hrest 0 beats rfl) hx
        obtain ⟨z, hz, hlast⟩ := ih (k + 1) y hnext fun j beats hj => by
          rw [Nat.add_right_comm, Nat.add_assoc]
          exact hrest (j + 1) beats hj
        refine ⟨z, ?_, ?_⟩
        · rw [List.zipIdx_cons, List.foldlM_cons]
          exact except_bind_eq_ok.mpr ⟨y, hy, hz⟩
        · rw [List.length_cons, Nat.add_comm rest.length, ← Nat.add_assoc]
          exact hlast
  have hall := hfrom v.inputs 0 x h fun j beats hj => by rwa [Nat.zero_add]
  rwa [Nat.zero_add] at hall

/-- The first `n` sources were given their inputs, and nothing else has happened. -/
structure Fed (l : Loopback) (v : LoopbackVectors) (s₀ : Machine) (n : Nat) (past : List Moment)
    (s : Machine) : Prop where
  history : History s₀ past s
  pushes : ∀ e ∈ past, ∃ port beats, e.2 = .push port beats
  offers : ∀ i, past.flatMap (Moment.offers i) = if i < n then v.inputs[i]?.getD [] else []
  fresh : ∀ (i : Nat) (p : Port), s.ports[i]? = some p →
    ∃ q, s₀.ports[i]? = some q ∧ ∀ side, p.view side = q.view side

theorem Fed.init : l.Fed v s₀ 0 [] s₀ :=
  ⟨.start, fun _ he => absurd he List.not_mem_nil, fun i => (if_neg (Nat.not_lt_zero i)).symm,
    fun _ p hp => ⟨p, hp, fun _ => rfl⟩⟩

/-- The next source is given its input. -/
theorem Fed.push (hb : l.Bench v params s₀) {n : Nat} {past : List Moment}
    (h : l.Fed v s₀ n past s) {beats : List Beat} (hin : v.inputs[n]? = some beats) :
    ∃ s', s.pushStream n beats = .ok s' ∧ l.Fed v s₀ (n + 1) (past ++ [(s, .push n beats)]) s' := by
  have hr : Machine.Reachable params s := ⟨s₀, past, hb.machine, h.history⟩
  have hn : n < s.ports.length := by
    rw [hr.formed.length, hb.ports, ← hb.vectors.ports]
    exact (List.getElem?_eq_some_iff.mp hin).1
  obtain ⟨p, hp⟩ : ∃ p, s.ports[n]? = some p := ⟨_, List.getElem?_eq_getElem hn⟩
  have hpush := Machine.apply_push hp beats
  refine ⟨_, hpush, h.history.step hpush, ?_, fun i => ?_, fun i p' hp' => ?_⟩
  · intro e he
    rcases List.mem_append.mp he with he | he
    · exact h.pushes e he
    · rw [List.mem_singleton.mp he]
      exact ⟨n, beats, rfl⟩
  · rw [log_concat, h.offers, Moment.offers]
    by_cases hi : n = i
    · subst hi
      rw [if_neg (Nat.lt_irrefl _), if_pos rfl, if_pos (Nat.lt_succ_self _), hin]
      rfl
    · rw [if_neg hi, List.append_nil]
      by_cases hlt : i < n
      · rw [if_pos hlt, if_pos (by omega)]
      · rw [if_neg hlt, if_neg (by omega)]
  · -- a push changes nothing but a source
    have hport := Machine.setPort_getElem? hr.formed.indexed hp (q := p.extend beats) rfl i
    rw [hport] at hp'
    split at hp'
    · rename_i hi
      subst hi
      cases hp'
      obtain ⟨q, hq, hview⟩ := h.fresh i p hp
      exact ⟨q, hq, fun side => by rw [← hview side]; cases side <;> rfl⟩
    · exact h.fresh i p' hp'

/-- **With all inputs at the sources the scripts can start.** -/
theorem Fed.running (hb : l.Bench v params s₀) {past : List Moment}
    (h : l.Fed v s₀ v.inputs.length past s) :
    l.Running v s₀ (fun _ => 0) past s ∧ l.Fetched v past := by
  have hquiet : ∀ e ∈ past, e.2 ≠ .tick := by
    intro e he hc
    obtain ⟨port, beats, hpush⟩ := h.pushes e he
    rw [hpush] at hc
    cases hc
  have htakes : ∀ i side, past.flatMap (Moment.takes i side) = [] := by
    intro i side
    rw [List.flatMap_eq_nil_iff]
    exact fun e he => Moment.takes_silent (hquiet e he) i side
  refine ⟨⟨h.history, ?_, fun i => ?_, fun i p hp => ?_, fun _ => Nat.zero_le _⟩, ?_⟩
  · intro e he
    obtain ⟨port, beats, hpush⟩ := h.pushes e he
    rw [hpush]
    trivial
  · rw [h.offers]
    split
    · rfl
    · rename_i hi
      rw [List.getElem?_eq_none (Nat.le_of_not_lt hi)]
      rfl
  · obtain ⟨q, hq, hview⟩ := h.fresh i p hp
    rw [Machine.getElem?_ofParams hb.machine] at hq
    obtain ⟨port, _, rfl⟩ := Option.map_eq_some_iff.mp hq
    refine .init ?_ ?_
    · rw [htakes, hview]
      exact .init rfl rfl rfl
    · rw [htakes, hview]
      exact .init rfl rfl rfl
  · have hnone : l.Fetched v [] := .init
    exact hnone.quiet hquiet

/-- The scripts of some roles. -/
def scripts (l : Loopback) (roles : List Role) (name : Role → String) : List Script :=
  roles.map fun role => l.script role.1 role.2 (name role)

/-- The texts of the scripts read as the scripts. -/
theorem scripts_read (hv : l.Generated v) (hlanes : l.ports ≤ 32) (name : Role → String)
    (hroles : ∀ role ∈ roles, role.1 < l.ports) :
    (roles.mapM fun role => Script.read (v.scriptText role) (name role))
      = .ok (l.scripts roles name) := by
  refine mapM_map fun role hrole => ?_
  obtain ⟨i, side⟩ := role
  have hi : i < l.ports := hroles _ hrole
  have hfits : 2 * i + 1 < limit64 := by
    have hlimit : limit64 = 18446744073709551616 := rfl
    omega
  have htext : v.scriptText (i, side) = Script.write (l.scriptLines i side) := by
    cases side with
    | writer =>
        show v.writerScripts[i]?.getD "" = _
        rw [hv.writerScripts, List.getElem?_map, List.getElem?_range hi]
        rfl
    | reader =>
        show v.readerScripts[i]?.getD "" = _
        rw [hv.readerScripts, List.getElem?_map, List.getElem?_range hi]
        rfl
  rw [htext]
  exact script_reads hfits side _

/-- The references of a simulation are those of the vectors. -/
structure Referenced (v : LoopbackVectors) (sim : Simulation) : Prop where
  streams : ∀ i, i < v.inputs.length → sim.streamRefs[i]?.join = v.inputs[i]?
  memory : sim.memoryRef = some v.memoryRef

/-- A simulation under way. -/
structure Underway (l : Loopback) (v : LoopbackVectors) (s₀ : Machine) (roles : List Role)
    (pos : Role → Nat) (past : List Moment) (sim : Simulation) : Prop where
  running : l.Running v s₀ pos past sim.machine
  fetched : l.Fetched v past
  plays : List.Forall₂ (l.Plays pos) roles sim.players
  untraced : sim.traced = false
  referenced : Referenced v sim

/-- The sinks of the first `n` ports were told what to see. -/
def Told (v : LoopbackVectors) (sim : Simulation) (n : Nat) (sim' : Simulation) : Prop :=
  ∃ refs, sim' = { sim with streamRefs := refs } ∧ refs.length = v.inputs.length
    ∧ ∀ i, i < n → refs[i]?.join = v.inputs[i]?

/-- Every sink is told what to see. -/
theorem streamRefs_ok (hlen : sim.streamRefs.length = v.inputs.length) :
    ∃ sim', v.eachInput Simulation.setStreamRef sim = .ok sim' ∧ Told v sim v.inputs.length sim' := by
  refine eachInput_ok ⟨sim.streamRefs, rfl, hlen, fun i hi => absurd hi (Nat.not_lt_zero i)⟩ ?_
  rintro i beats _ hin ⟨refs, rfl, hrefs, hset⟩
  have hi : i < refs.length := hrefs ▸ (List.getElem?_eq_some_iff.mp hin).1
  refine ⟨_, if_pos hi, _, rfl, (List.length_set ..).trans hrefs, fun j hj => ?_⟩
  rw [List.getElem?_set]
  by_cases hij : i = j
  · subst hij
    rw [if_pos rfl, if_pos hi, hin]
    rfl
  · rw [if_neg hij]
    exact hset j (by omega)

/-- **The simulation of the vectors is built**, and nothing has been played yet. -/
theorem simulation_ok (hb : l.Bench v params s₀) (roles : List Role) (name : Role → String)
    (maxCycles : Nat) :
    ∃ sim past, v.simulation s₀ (l.scripts roles name) maxCycles = .ok sim
      ∧ l.Underway v s₀ roles (fun _ => 0) past sim := by
  have hfeed : ∃ s, v.eachInput Machine.pushStream s₀ = .ok s
      ∧ ∃ past, l.Fed v s₀ v.inputs.length past s := by
    refine eachInput_ok (R := fun n s => ∃ past, l.Fed v s₀ n past s) ⟨[], .init⟩ ?_
    rintro i beats s hin ⟨past, h⟩
    obtain ⟨s', hs', h'⟩ := h.push hb hin
    exact ⟨s', hs', _, h'⟩
  obtain ⟨s, hfeed, past, hfed⟩ := hfeed
  obtain ⟨hrunning, hfetched⟩ := hfed.running hb
  have hlen : (Simulation.ofMachine s ((l.scripts roles name).map Player.ofScript)
      maxCycles).streamRefs.length = v.inputs.length := by
    rw [hb.vectors.ports, ← hrunning.length hb]
    exact List.length_map _
  obtain ⟨_, hset, refs, rfl, _, hrefs⟩ := streamRefs_ok hlen
  refine ⟨_, past, except_bind_eq_ok.mpr ⟨s, hfeed, except_bind_eq_ok.mpr ⟨_, hset, rfl⟩⟩,
    hrunning, hfetched, ?_, rfl, hrefs, rfl⟩
  show List.Forall₂ _ roles ((l.scripts roles name).map Player.ofScript)
  unfold scripts
  rw [List.map_map, List.forall₂_map_right_iff, List.forall₂_same]
  exact fun role _ => ⟨l.commands_script role.1 role.2 (name role), rfl⟩

/-! ## The run -/

namespace Underway

variable {pos : Role → Nat} {past : List Moment}

/-- **A cycle**: every script takes a step, and the clock ticks. -/
theorem step (hb : l.Bench v params s₀) (hroles : ∀ role ∈ roles, role.1 < l.ports)
    (hnodup : roles.Nodup) (h : l.Underway v s₀ roles pos past sim) :
    ∃ sim' pos' past', sim.step.result = .ok sim' ∧ l.Underway v s₀ roles pos' past' sim' := by
  obtain ⟨players, s, pos', past', hsteps, hplays, hrunning, ⟨more, rfl, hquiet⟩, _⟩ :=
    h.running.stepAll hb hroles hnodup h.plays
  obtain ⟨s', htick⟩ := hrunning.tick_ok hb
  have hfetched := h.fetched.quiet hquiet
  refine ⟨{ sim with players, machine := s' }, pos', _, ?_, hrunning.tick htick,
    hfetched.tick hb hrunning htick, hplays, h.untraced, h.referenced.streams,
    h.referenced.memory⟩
  refine Run.result_bind_eq_ok.mpr ⟨(players, s), hsteps,
    Run.result_bind_eq_ok.mpr ⟨s', htick, ?_⟩⟩
  unfold Simulation.handOver
  rw [if_neg]
  · rfl
  · rw [Bool.not_eq_true]
    exact h.untraced

/-- **The run.** -/
theorem runOn (hb : l.Bench v params s₀) (hroles : ∀ role ∈ roles, role.1 < l.ports)
    (hnodup : roles.Nodup) (h : l.Underway v s₀ roles pos past sim) :
    ∃ sim' pos' past', sim.runOn.result = .ok sim' ∧ l.Underway v s₀ roles pos' past' sim' := by
  have hrun : ∃ sim', (Run.stepWhile Simulation.goesOn Simulation.step
      (sim.maxCycles - sim.machine.cycle) sim).result = .ok sim'
        ∧ ∃ pos past, l.Underway v s₀ roles pos past sim' := by
    refine Run.stepWhile_ok ?_ _ ⟨pos, past, h⟩
    rintro sim ⟨pos, past, h⟩
    obtain ⟨sim', pos', past', hstep, h'⟩ := h.step hb hroles hnodup
    exact ⟨sim', hstep, pos', past', h'⟩
  obtain ⟨sim', hsim', pos', past', h'⟩ := hrun
  exact ⟨sim', pos', past', Run.result_bind_eq_ok.mpr ⟨(), rfl, hsim'⟩, h'⟩

/-- When a simulation is finished, all scripts are at their end. -/
theorem allPlayed (h : l.Underway v s₀ roles pos past sim)
    (hroles : ∀ role : Role, role.1 < l.ports → role ∈ roles) (hfin : sim.finished = true) :
    l.AllPlayed pos := by
  intro role hrole
  obtain ⟨hdone, _⟩ := Bool.and_eq_true_iff.mp hfin
  obtain ⟨hlen, hplays⟩ := List.forall₂_iff_get.mp h.plays
  obtain ⟨k, hk, rfl⟩ := List.getElem_of_mem (hroles role hrole)
  have hplayer := hplays k hk (hlen ▸ hk)
  have hempty := List.all_eq_true.mp hdone _ (List.get_mem sim.players ⟨k, hlen ▸ hk⟩)
  have hrest := hplayer.todo
  rw [List.isEmpty_iff.mp hempty] at hrest
  exact Nat.le_antisymm (h.running.within _) (List.drop_eq_nil_iff.mp hrest.symm)

end Underway

/-! ## The report -/

theorem firstDifference_self {α : Type} [BEq α] [ReflBEq α] (n : Nat) (as : List α) :
    Simulation.firstDifference n as as = none := by
  induction as generalizing n with
  | nil => rfl
  | cons a as ih =>
      unfold Simulation.firstDifference
      rw [if_pos BEq.rfl]
      exact ih (n + 1)

theorem memoryVerdict_ok (store : Store) (ref : Option (List Word)) :
    ∃ verdict, (Simulation.memoryVerdict store ref).result = .ok verdict := by
  unfold Simulation.memoryVerdict
  split
  · exact ⟨none, rfl⟩
  · split
    · exact ⟨some false, rfl⟩
    · exact ⟨_, rfl⟩

/-- A memory that is the reference agrees with it. -/
theorem memoryVerdict_same (store : Store) :
    (Simulation.memoryVerdict store (some store.words.toList)).result = .ok (some true) := by
  have hlen : store.words.toList.length ≤ store.size := Nat.le_of_eq (Array.length_toList ..)
  unfold Simulation.memoryVerdict
  dsimp only
  rw [firstDifference_self]
  show Except.ok (some (decide _)) = _
  rw [decide_eq_true hlen]

/-- What the report says of a port. -/
structure Reported (sim : Simulation) (p : Port) (r : PortReport) : Prop where
  reader : r.reader = p.reader.stats
  writer : r.writer = p.writer.stats
  dropped : r.droppedDescriptors = p.readRegs.dropped + p.writeRegs.dropped
  sink : r.sinkMatch = (sim.streamRefs[p.index]?.join).map fun beats => decide (beats = p.sink.received)

theorem portReport_ok (sim : Simulation) (p : Port) :
    ∃ r, (sim.portReport p).result = .ok r ∧ Reported sim p r := by
  have hverdict : (Simulation.sinkVerdict p (sim.streamRefs[p.index]?.join)).result
      = .ok ((sim.streamRefs[p.index]?.join).map fun beats => decide (beats = p.sink.received)) := by
    cases sim.streamRefs[p.index]?.join with
    | none => rfl
    | some beats => exact Run.result_bind_eq_ok.mpr ⟨(), Run.result_noteIf _ _, rfl⟩
  exact ⟨_, Run.result_bind_eq_ok.mpr ⟨_, hverdict, rfl⟩, rfl, rfl, rfl, rfl⟩

/-- There is always a report. -/
theorem report_ok (sim : Simulation) :
    ∃ rep, sim.report.result = .ok rep ∧ rep.timedOut = !sim.finished
      ∧ List.Forall₂ (Reported sim) sim.machine.ports rep.ports
      ∧ (Simulation.memoryVerdict sim.machine.memory.store sim.memoryRef).result
        = .ok rep.memoryMatch
      ∧ rep.mismatches = sim.players.flatMap (·.mismatches) := by
  obtain ⟨ports, hports, hreported⟩ := mapM_forall₂ fun p (_ : p ∈ sim.machine.ports) =>
    portReport_ok sim p
  obtain ⟨verdict, hverdict⟩ := memoryVerdict_ok sim.machine.memory.store sim.memoryRef
  refine ⟨_, Run.result_bind_eq_ok.mpr ⟨ports, ?_, Run.result_bind_eq_ok.mpr
    ⟨verdict, hverdict, rfl⟩⟩, rfl, hreported, hverdict, rfl⟩
  rw [Run.result_mapM]
  exact hports

namespace Underway

variable {pos : Role → Nat} {past : List Moment}

/-- In a finished simulation the sinks have seen the inputs. -/
theorem sinks_eq (hb : l.Bench v params s₀) (h : l.Underway v s₀ roles pos past sim)
    (hdone : l.AllPlayed pos) (hfin : sim.finished = true) :
    sim.machine.ports.map (·.sink.received) = v.inputs := by
  obtain ⟨_, hquiescent⟩ := Bool.and_eq_true_iff.mp hfin
  obtain ⟨_, hquiet⟩ := Machine.AtRest.of_quiescent hquiescent
  refine List.ext_getElem? fun i => ?_
  rw [List.getElem?_map]
  cases hp : sim.machine.ports[i]? with
  | none =>
      have hlen := List.getElem?_eq_none_iff.mp hp
      rw [h.running.length hb, ← hb.vectors.ports] at hlen
      exact (List.getElem?_eq_none hlen).symm
  | some p =>
      obtain ⟨beats, hin⟩ := hb.input (h.running.lt_ports hb hp)
      have hempty := (hquiet p (List.mem_of_getElem? hp)).readFifo
      rw [hin, ← h.running.received_eq hb h.fetched hdone hp hin hempty]
      rfl

/-- No script has seen anything wrong. -/
theorem mismatches_eq (h : l.Underway v s₀ roles pos past sim) :
    sim.players.flatMap (·.mismatches) = [] := by
  rw [List.flatMap_eq_nil_iff]
  intro player hplayer
  obtain ⟨hlen, hplays⟩ := List.forall₂_iff_get.mp h.plays
  obtain ⟨k, hk, rfl⟩ := List.getElem_of_mem hplayer
  have hclean := (hplays k (hlen.symm ▸ hk) hk).clean
  unfold Player.mismatches
  rw [List.reverse_eq_nil_iff]
  exact hclean

/-- What the report says of the ports when all scripts are at their end. -/
theorem reported (hb : l.Bench v params s₀) (h : l.Underway v s₀ roles pos past sim)
    (hdone : l.AllPlayed pos) {i : Nat} {p : Port} {r : PortReport}
    (hp : sim.machine.ports[i]? = some p) (hr : Reported sim p r) :
    r.droppedDescriptors = 0 ∧ r.reader.transfers = l.frames ∧ r.writer.transfers = l.frames := by
  have hreader := h.running.handed_all hb hdone hp .reader
  have hwriter := h.running.handed_all hb hdone hp .writer
  have hread : p.readRegs.dropped = 0 := hreader.dropped
  have hwrite : p.writeRegs.dropped = 0 := hwriter.dropped
  rw [hr.reader, hr.writer, hr.dropped, hread, hwrite]
  exact ⟨rfl, hreader.transfers_eq.1, hwriter.transfers_eq.1⟩

/-- The report says that a sink has seen what it should. -/
theorem sinkMatch (hb : l.Bench v params s₀) (h : l.Underway v s₀ roles pos past sim)
    (hsinks : sim.machine.ports.map (·.sink.received) = v.inputs) {i : Nat} {p : Port}
    {r : PortReport} (hp : sim.machine.ports[i]? = some p) (hr : Reported sim p r) :
    r.sinkMatch = some true := by
  have hindex := (h.running.reachable hb).formed.indexed i p hp
  have hi := hb.vectors.ports.symm ▸ h.running.lt_ports hb hp
  have hseen : v.inputs[i]? = some p.sink.received := by
    rw [← hsinks, List.getElem?_map, hp]
    rfl
  rw [hr.sink, hindex, h.referenced.streams i hi, hseen]
  exact congrArg some (decide_eq_true rfl)

end Underway

/-- A self-check is a run of the scripts themselves. -/
theorem selfCheck_eq (hv : l.generate = .ok v) (hs : l.Setting v params roles)
    (h₀ : Machine.ofParams params = .ok s₀) (name : Role → String) (maxCycles : Nat) :
    l.selfCheck params roles name maxCycles
      = ((v.simulation s₀ (l.scripts roles name) maxCycles).bind
        fun sim => sim.runToReport.result).mapError .fault := by
  have hscripts := scripts_read (generated_of_ok hv) hs.lanes.2 name
    fun role => (hs.complete role).mp
  unfold selfCheck
  rw [hv, h₀]
  simp only [bind, Except.bind, hscripts, Except.mapError]
  cases v.simulation s₀ (l.scripts roles name) maxCycles <;> rfl

/-- **A self-check passes.** Whatever vectors are generated, and whatever machine with the
right ports, width and memory they are played against, nothing on the way is refused; and
unless the bound on the cycles comes first, the memory is the reference in the end, every
sink has seen the input of its port with all marks, nothing was dropped, every engine has
finished one transfer for every frame, no script has seen anything wrong, and the report
says that the run has passed. -/
theorem self_check_passes {l : Loopback} {v : LoopbackVectors} {params : MachineParams}
    {roles : List Role} (name : Role → String) (maxCycles : Nat) (hv : l.generate = .ok v)
    (hs : l.Setting v params roles) :
    ∃ sim rep, l.selfCheck params roles name maxCycles = .ok (sim, rep)
      ∧ (rep.timedOut = false →
        sim.machine.memory.store.words.toList = v.memoryRef
          ∧ sim.machine.ports.map (·.sink.received) = v.inputs
          ∧ rep.ports.length = l.ports
          ∧ (∀ r ∈ rep.ports, r.droppedDescriptors = 0 ∧ r.reader.transfers = l.frames
            ∧ r.writer.transfers = l.frames)
          ∧ rep.mismatches = []
          ∧ rep.passed = true) := by
  obtain ⟨s₀, hb⟩ := hs.bench hv
  have hroles : ∀ role ∈ roles, role.1 < l.ports := fun role => (hs.complete role).mp
  obtain ⟨start, _, hstart, hunderway⟩ := simulation_ok hb roles name maxCycles
  obtain ⟨sim, pos, past, hrun, h⟩ := hunderway.runOn hb hroles hs.nodup
  obtain ⟨rep, hrep, htimed, hreported, hverdict, hmismatches⟩ := report_ok sim
  refine ⟨sim, rep, ?_, fun hended => ?_⟩
  · have hreport : start.runToReport.result = .ok (sim, rep) :=
      Run.result_bind_eq_ok.mpr ⟨sim, hrun, Run.result_bind_eq_ok.mpr ⟨rep, hrep, rfl⟩⟩
    rw [selfCheck_eq hv hs hb.machine, hstart]
    exact congrArg _ hreport
  · have hfin : sim.finished = true := by
      rw [hended] at htimed
      simpa using htimed.symm
    have hdone := h.allPlayed (fun role => (hs.complete role).mpr) hfin
    have hmemory := h.running.memory_eq hb hdone
    have hsinks := h.sinks_eq hb hdone hfin
    have hnone := hmismatches.trans h.mismatches_eq
    obtain ⟨hlen, hget⟩ := List.forall₂_iff_get.mp hreported
    have hports : ∀ r ∈ rep.ports, ∃ (i : Nat) (p : Port), sim.machine.ports[i]? = some p
        ∧ Reported sim p r := by
      intro r hr
      obtain ⟨i, hi, rfl⟩ := List.getElem_of_mem hr
      exact ⟨i, _, List.getElem?_eq_getElem (hlen.symm ▸ hi), hget i (hlen.symm ▸ hi) hi⟩
    refine ⟨hmemory, hsinks, ?_, fun r hr => ?_, hnone, ?_⟩
    · rw [← hlen, h.running.length hb]
    · obtain ⟨i, p, hp, hr⟩ := hports r hr
      exact h.reported hb hdone hp hr
    · -- nothing that the report compares differs
      have hmatch : rep.memoryMatch = some true := by
        rw [h.referenced.memory, ← hmemory, memoryVerdict_same] at hverdict
        exact (Except.ok.inj hverdict).symm
      have hsinkMatch : rep.ports.all (fun r => r.sinkMatch != some false) = true := by
        rw [List.all_eq_true]
        intro r hr
        obtain ⟨i, p, hp, hr⟩ := hports r hr
        rw [h.sinkMatch hb hsinks hp hr]
        rfl
      unfold Report.passed
      rw [hended, hnone, hmatch, hsinkMatch]
      rfl

/-- Whether a self-check with a memory of the right size ends by itself. -/
def ends (l : Loopback) (params : MachineParams) (roles : List Role) (maxCycles : Nat) : Bool :=
  match l.generate, Machine.ofParams params with
  | .ok v, .ok s =>
    decide (params.memory.sizeWords = v.memoryWords)
      && match (v.simulation s (l.scripts roles fun _ => "") maxCycles).bind
          fun sim => sim.runToReport.result with
        | .ok (_, rep) => !rep.timedOut
        | .error _ => false
  | _, _ => false

theorem exists_of_ends {maxCycles : Nat} (h : l.ends params roles maxCycles = true) :
    ∃ v s₀ sim rep, l.generate = .ok v ∧ Machine.ofParams params = .ok s₀
      ∧ params.memory.sizeWords = v.memoryWords
      ∧ (v.simulation s₀ (l.scripts roles fun _ => "") maxCycles).bind
        (fun sim => sim.runToReport.result) = .ok (sim, rep)
      ∧ rep.timedOut = false := by
  unfold ends at h
  split at h
  · rename_i v s₀ hv h₀
    obtain ⟨hsize, h⟩ := Bool.and_eq_true_iff.mp h
    split at h
    · rename_i sim rep hrun
      have hended : rep.timedOut = false := by simpa using h
      exact ⟨v, s₀, sim, rep, hv, h₀, of_decide_eq_true hsize, hrun, hended⟩
    · cases h
  · cases h

/-- Two ports in frame mode with two frames of two words each: the run ends by itself, and has
passed. -/
theorem self_check_passes_two_frames :
    ∃ v sim rep,
      generate { ports := 2, frames := 2, words := 2, frameMode := true } = .ok v
        ∧ selfCheck { ports := 2, frames := 2, words := 2, frameMode := true }
            { ports := [{ frameMode := true }, { frameMode := true }]
              memory := { sizeWords := 1024 } }
            [(0, .writer), (0, .reader), (1, .writer), (1, .reader)] (fun _ => "") 100
          = .ok (sim, rep)
        ∧ rep.timedOut = false ∧ sim.machine.memory.store.words.toList = v.memoryRef
        ∧ rep.passed = true := by
  have hends : ends { ports := 2, frames := 2, words := 2, frameMode := true }
      { ports := [{ frameMode := true }, { frameMode := true }]
        memory := { sizeWords := 1024 } }
      [(0, .writer), (0, .reader), (1, .writer), (1, .reader)] 100 = true := by
    decide +kernel
  obtain ⟨v, s₀, sim, rep, hv, h₀, hsize, hrun, hended⟩ := exists_of_ends hends
  have hs : Setting { ports := 2, frames := 2, words := 2, frameMode := true } v
      { ports := [{ frameMode := true }, { frameMode := true }]
        memory := { sizeWords := 1024 } }
      [(0, .writer), (0, .reader), (1, .writer), (1, .reader)] := by
    refine ⟨by decide, by decide, rfl, rfl, by decide, by decide, by decide, by decide, hsize, rfl,
      by decide, ?_⟩
    rintro ⟨i, side⟩
    cases side <;> simp <;> omega
  obtain ⟨sim', rep', hself, hpasses⟩ := self_check_passes (fun _ => "") 100 hv hs
  have hsame := hself
  rw [selfCheck_eq hv hs h₀, hrun] at hsame
  cases hsame
  obtain ⟨hmemory, _, _, _, _, hpassed⟩ := hpasses hended
  exact ⟨v, sim, rep, hv, hself, hended, hmemory, hpassed⟩

end Loopback

end BurstDma
