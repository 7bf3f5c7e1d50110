import BurstDma.Proofs.Quiescence

/-!
# A standstill is the end

A simulation stops of itself when its scripts are at their end and the machine is quiescent.
**Nothing that could be seen of the machine would have changed had it gone on**,
`Machine.StaysAs`: its memory, its lines, its counts and its registers stay, and no channel
ever offers anything again. The one thing still to come is that an engine that was told to
clear its error register clears it.

Nor was anything left behind on the way to the standstill. An engine has said of every
descriptor it took that it is done, except for the one that it is busy with, and here it is
busy with none and none waits.
-/

namespace BurstDma

/-! ## What can be seen -/

/-- The account of a port: what it kept, moved and counted. -/
structure Port.SameAccount (p p' : Port) : Prop where
  received : p'.sink.received = p.sink.received
  pushed : p'.source.pushed = p.source.pushed
  readDropped : p'.readRegs.dropped = p.readRegs.dropped
  writeDropped : p'.writeRegs.dropped = p.writeRegs.dropped
  reader : p'.reader.stats = p.reader.stats
  writer : p'.writer.stats = p.writer.stats

namespace Machine

variable {params : MachineParams} {s t : Machine}

/-- An address that shows the error latch of an engine that was told to clear it. -/
def ClearsError (s : Machine) (addr : UInt32) : Prop :=
  ∃ p side index, (s.decode addr).result = .ok (some (p, side, index))
    ∧ Register.ofIndex? index = some .error ∧ (p.view side).regs.clearError = true

/-- `t` stands still, and all that can be seen of it is as it was at `s`. -/
structure StaysAs (s t : Machine) : Prop where
  quiescent : t.isQuiescent = true
  /-- In its next cycle no channel offers anything, and nothing happens. -/
  silent : ∃ w, t.wires = .ok w ∧ w.Silent ∧ t.cycleEvents w = []
  words : t.memory.store = s.memory.store
  counts : t.memory.stats = s.memory.stats
  /-- Whose turn it is, and how much was granted to whom. -/
  readArbiter : t.readArbiter = s.readArbiter
  writeArbiter : t.writeArbiter = s.writeArbiter
  irq : ∀ line, t.irq line = s.irq line
  ports : List.Forall₂ Port.SameAccount s.ports t.ports
  register : ∀ addr, ¬ s.ClearsError addr → t.readRegister addr = s.readRegister addr

end Machine

/-- A register shows the same after cycles of idleness, unless it is that of an error latch which
was cleared in them. -/
theorem RegisterFile.read_idled {f : RegisterFile} {index n remaining level : Nat} {error : Resp}
    (h : ¬ (Register.ofIndex? index = some .error ∧ f.clearError = true)) :
    (f.idled n).read index
        { remaining, error := if f.clearError && n != 0 then .okay else error, fifoLevel := level }
      = f.read index { remaining, error, fifoLevel := level } := by
  unfold read
  cases hr : Register.ofIndex? index with
  | none => rfl
  | some r =>
      cases r with
      | error =>
          have hkept : f.clearError = false := Bool.eq_false_iff.mpr fun hc => h ⟨hr, hc⟩
          dsimp only
          rw [hkept]
          rfl
      | start | length | burst | valid | remaining | fifo | irq => rfl

/-- What the registers of an engine show, by index. -/
def Port.shows (p : Port) (index : Nat) : Side → Except Fault UInt32
  | .reader => p.readStatus.map (p.readRegs.read index)
  | .writer => p.writeStatus.map (p.writeRegs.read index)

theorem Port.shows_idled {p : Port} {index n : Nat} {side : Side}
    (h : ¬ (Register.ofIndex? index = some .error ∧ (p.view side).regs.clearError = true)) :
    (p.idled n).shows index side = p.shows index side := by
  cases side with
  | reader =>
      have hsame : (p.idled n).reader.core.remainingWords = p.reader.core.remainingWords := rfl
      unfold shows readStatus
      rw [hsame]
      cases p.reader.core.remainingWords with
      | error fault => rfl
      | ok remaining => exact congrArg Except.ok (RegisterFile.read_idled h)
  | writer =>
      have hsame : (p.idled n).writer.core.remainingWords = p.writer.core.remainingWords := rfl
      unfold shows writeStatus
      rw [hsame]
      cases p.writer.core.remainingWords with
      | error fault => rfl
      | ok remaining => exact congrArg Except.ok (RegisterFile.read_idled h)

namespace Machine

variable {params : MachineParams} {s t : Machine}

theorem readRegister_of_decode {addr : UInt32} {p : Port} {side : Side} {index : Nat}
    (h : s.decode addr = pure (some (p, side, index))) :
    s.readRegister addr = liftM (p.shows index side) := by
  unfold readRegister
  rw [h, pure_bind]
  cases side with
  | reader =>
      dsimp only
      unfold Port.shows
      cases p.readStatus <;> rfl
  | writer =>
      dsimp only
      unfold Port.shows
      cases p.writeStatus <;> rfl

/-- **The registers of a machine that idles show the same**, but for an error latch that was to
be cleared. -/
theorem readRegister_idled {n : Nat} {addr : UInt32} (h : ¬ s.ClearsError addr) :
    (s.idled n).readRegister addr = s.readRegister addr := by
  have hport : (s.idled n).ports[((addr >>> 16) &&& 0xff).toNat]?
      = (s.ports[((addr >>> 16) &&& 0xff).toNat]?).map (·.idled n) := List.getElem?_map
  cases hp : s.ports[((addr >>> 16) &&& 0xff).toNat]? with
  | none =>
      unfold readRegister decode
      rw [hport, hp]
      rfl
  | some p =>
      have hdecode : ∀ (u : Machine) (q : Port),
          u.ports[((addr >>> 16) &&& 0xff).toNat]? = some q →
          u.decode addr = pure (some (q,
            if addr &&& Register.readerSelect = 0 then Side.writer else Side.reader,
            Register.indexOfOffset addr)) := by
        intro u q hq
        unfold decode
        rw [hq]
      rw [readRegister_of_decode (hdecode _ _ (hport.trans (congrArg _ hp))),
        readRegister_of_decode (hdecode _ _ hp)]
      refine congrArg _ (Port.shows_idled fun hclears => h ⟨p, _, _, ?_, hclears⟩)
      rw [hdecode s p hp]
      rfl

theorem irq_idled (s : Machine) (n line : Nat) : (s.idled n).irq line = s.irq line := by
  have hport : (s.idled n).ports[line / 2]? = (s.ports[line / 2]?).map (·.idled n) :=
    List.getElem?_map
  unfold irq
  rw [hport]
  cases s.ports[line / 2]? <;> rfl

/-- **A quiescent machine that idles stays as it is**, whatever becomes of its records. -/
theorem staysAs_idled (h : s.isQuiescent = true) (n : Nat) (newestEvents : List TraceRecord) :
    s.StaysAs { s.idled n with newestEvents } := by
  have hquiet : ({ s.idled n with newestEvents } : Machine).isQuiescent = true :=
    isQuiescent_idled h n
  obtain ⟨w, hwires, hw, _⟩ := wires_of_quiescent hquiet
  refine ⟨hquiet, ⟨w, hwires, hw, cycleEvents_silent (AtRest.of_quiescent hquiet).2 hw⟩, rfl, rfl,
    rfl, rfl, s.irq_idled n, ?_, fun addr haddr => readRegister_idled haddr⟩
  show List.Forall₂ _ s.ports (s.ports.map _)
  rw [List.forall₂_map_right_iff, List.forall₂_same]
  exact fun p _ => ⟨rfl, rfl, rfl, rfl, rfl, rfl⟩

/-- The arbiter has a place for the request of every port. -/
theorem Watched.inputs_length (h : Watched params s) :
    s.readArbiter.inputs.length = s.ports.length :=
  h.reachable.formed.reads.arbiter.inputs

end Machine

/-! ## Simulations -/

theorem Machine.writeRegister_cycle {s s' : Machine} {addr value : UInt32}
    (h : (s.writeRegister addr value).result = .ok s') : s'.cycle = s.cycle := by
  obtain ⟨found, _, h⟩ := Run.result_bind_eq_ok.mp h
  split at h
  · cases h
    rfl
  · obtain ⟨regs, _, h⟩ := Run.result_bind_eq_ok.mp h
    cases h
    rfl
  · obtain ⟨regs, _, h⟩ := Run.result_bind_eq_ok.mp h
    cases h
    rfl

section

variable {params : MachineParams}

namespace Player

/-- What a player does to a machine is to write its registers. -/
theorem step_machine {p p' : Player} {s s' : Machine} (h : (p.step s).result = .ok (p', s')) :
    s' = s ∨ ∃ addr value, (s.writeRegister addr value).result = .ok s' := by
  unfold step at h
  cases htodo : p.todo with
  | nil =>
      rw [htodo] at h
      cases h
      exact Or.inl rfl
  | cons entry rest =>
      obtain ⟨line, command⟩ := entry
      rw [htodo] at h
      cases command with
      | write addr value =>
          obtain ⟨t, hwrite, h⟩ := Run.result_bind_eq_ok.mp h
          cases h
          exact Or.inr ⟨addr, value, hwrite⟩
      | read addr expected =>
          obtain ⟨got, _, h⟩ := Run.result_bind_eq_ok.mp h
          obtain ⟨compared, _, h⟩ := Run.result_bind_eq_ok.mp h
          cases h
          exact Or.inl rfl
      | poll addr expected =>
          obtain ⟨got, _, h⟩ := Run.result_bind_eq_ok.mp h
          cases h
          exact Or.inl rfl
      | waitIrq irq | stall cycles =>
          cases h
          exact Or.inl rfl

/-- A property that a register write keeps is kept by a step of every script. -/
theorem stepAll_keeps {P : Machine → Prop}
    (hwrite : ∀ s s' addr value, P s → (s.writeRegister addr value).result = .ok s' → P s')
    {ps ps' : List Player} {s s' : Machine} (hs : P s)
    (h : (stepAll ps s).result = .ok (ps', s')) : P s' := by
  induction ps generalizing s ps' with
  | nil =>
      cases h
      exact hs
  | cons p ps ih =>
      obtain ⟨⟨q, t⟩, hstep, h⟩ := Run.result_bind_eq_ok.mp h
      obtain ⟨⟨qs, u⟩, hrest, h⟩ := Run.result_bind_eq_ok.mp h
      cases h
      rcases step_machine hstep with rfl | ⟨addr, value, hw⟩
      · exact ih hs hrest
      · exact ih (hwrite s t addr value hs hw) hrest

/-- Scripts do not move the clock. -/
theorem stepAll_cycle {ps ps' : List Player} {s s' : Machine}
    (h : (stepAll ps s).result = .ok (ps', s')) : s'.cycle = s.cycle :=
  stepAll_keeps (P := fun t => t.cycle = s.cycle)
    (fun _ _ _ _ ht hw => (Machine.writeRegister_cycle hw).trans ht) rfl h

theorem stepAll_watched {ps ps' : List Player} {s s' : Machine} (hs : Machine.Watched params s)
    (h : (stepAll ps s).result = .ok (ps', s')) : Machine.Watched params s' :=
  stepAll_keeps (fun t _ addr value ht hw =>
    ht.step (show (Operation.write addr value).apply t = _ from hw)) hs h

/-- Players at the end of their scripts do nothing. -/
theorem stepAll_done {ps : List Player} (h : ps.all (·.isDone) = true) (s : Machine) :
    stepAll ps s = pure (ps, s) := by
  induction ps with
  | nil => rfl
  | cons p ps ih =>
      rw [List.all_cons, Bool.and_eq_true] at h
      have hnone : p.todo = [] := List.isEmpty_iff.mp h.1
      have hstep : p.step s = pure (p, s) := by
        unfold step
        rw [hnone]
      unfold stepAll
      rw [hstep, pure_bind]
      dsimp only
      rw [ih h.2]
      rfl

end Player

namespace Simulation

variable {sim sim' stopped : Simulation}

/-- Handing over takes at most the records. -/
theorem handOver_eq (sim : Simulation) :
    sim.handOver.result = .ok sim
      ∨ sim.handOver.result = .ok { sim with machine := sim.machine.takeEvents.2 } := by
  unfold handOver
  split
  · exact Or.inr rfl
  · exact Or.inl rfl

/-- A step is a cycle, and the bound stays. -/
theorem step_clock (h : sim.step.result = .ok sim') :
    sim'.machine.cycle = sim.machine.cycle + 1 ∧ sim'.maxCycles = sim.maxCycles := by
  obtain ⟨⟨players, s⟩, hplayers, h⟩ := Run.result_bind_eq_ok.mp h
  obtain ⟨t, htick, h⟩ := Run.result_bind_eq_ok.mp h
  have hclock : t.cycle = sim.machine.cycle + 1 := by
    obtain ⟨slave, hedge⟩ := Machine.tick_edge htick
    rw [hedge.cycle, Player.stepAll_cycle hplayers]
  rcases handOver_eq { sim with players, machine := t } with hkept | htaken
  · rw [hkept] at h
    cases h
    exact ⟨hclock, rfl⟩
  · rw [htaken] at h
    cases h
    exact ⟨hclock, rfl⟩

/-- A step leads to a machine that can be reached. -/
theorem step_watched (hs : Machine.Watched params sim.machine)
    (h : sim.step.result = .ok sim') : Machine.Watched params sim'.machine := by
  obtain ⟨⟨players, s⟩, hplayers, h⟩ := Run.result_bind_eq_ok.mp h
  obtain ⟨t, htick, h⟩ := Run.result_bind_eq_ok.mp h
  have hop : Operation.tick.apply s = .ok t := htick
  have ht := (Player.stepAll_watched hs hplayers).step hop
  rcases handOver_eq { sim with players, machine := t } with hkept | htaken
  · rw [hkept] at h
    cases h
    exact ht
  · rw [htaken] at h
    cases h
    exact ht.collect

/-- **A run ends where it may not go on**: the cycles that it was given last to the bound. -/
theorem runOn_ends (hs : Machine.Watched params sim.machine)
    (h : sim.runOn.result = .ok stopped) :
    Machine.Watched params stopped.machine ∧ stopped.goesOn = false := by
  obtain ⟨_, _, h⟩ := Run.result_bind_eq_ok.mp h
  refine Run.stepWhile_ends (fun sim : Simulation => Machine.Watched params sim.machine)
    (fun sim => sim.maxCycles - sim.machine.cycle) ?_ ?_ hs (Nat.le_refl _) h
  · intro a b ha hmore hstep
    obtain ⟨hcycle, hmax⟩ := step_clock hstep
    have hbound : a.machine.cycle < a.maxCycles :=
      of_decide_eq_true (Bool.and_eq_true_iff.mp hmore).2
    exact ⟨step_watched ha hstep, by omega⟩
  · intro a _ hzero
    unfold goesOn
    rw [decide_eq_false (by omega), Bool.and_false]

/-- A step of a simulation that is finished. -/
theorem step_finished (hs : Machine.Watched params sim.machine) (hfin : sim.finished = true) :
    ∃ newestEvents, sim.step.result
      = .ok { sim with machine := { sim.machine.idled 1 with newestEvents } } := by
  obtain ⟨hdone, hquiet⟩ := Bool.and_eq_true_iff.mp hfin
  unfold step
  rw [Player.stepAll_done hdone, pure_bind]
  dsimp only
  rw [Machine.tick_quiescent hs.inputs_length hquiet, pure_bind]
  rcases handOver_eq { sim with machine := sim.machine.idled 1 } with hkept | htaken
  · exact ⟨_, hkept⟩
  · exact ⟨_, htaken⟩

/-- **A finished simulation that goes on only idles.** -/
theorem steps_finished (hs : Machine.Watched params sim.machine) (hfin : sim.finished = true)
    (n : Nat) :
    ∃ newestEvents, (Run.stepTimes step n sim).result
      = .ok { sim with machine := { sim.machine.idled n with newestEvents } } := by
  induction n generalizing sim with
  | zero =>
      refine ⟨sim.machine.newestEvents, ?_⟩
      rw [sim.machine.idled_zero]
      rfl
  | succ n ih =>
      obtain ⟨events, hstep⟩ := step_finished hs hfin
      obtain ⟨hdone, hquiet⟩ := Bool.and_eq_true_iff.mp hfin
      have hquiet' : ({ sim.machine.idled 1 with newestEvents := events } : Machine).isQuiescent
          = true := Machine.isQuiescent_idled hquiet 1
      obtain ⟨later, hrest⟩ := ih (step_watched hs hstep)
        (Bool.and_eq_true_iff.mpr ⟨hdone, hquiet'⟩)
      refine ⟨later, ?_⟩
      rw [Run.stepTimes_succ, Run.result_bind, hstep]
      refine hrest.trans ?_
      rw [← sim.machine.idled_succ n]
      rfl

end Simulation

end

/-! ## The end -/

section

variable {params : MachineParams} {s₀ s : Machine} {past : List Moment}

/-- At rest an engine has taken all that it accepted, and has said of all of it that it is
done. -/
theorem History.all_done (h₀ : Machine.ofParams params = .ok s₀) (h : History s₀ past s)
    (hu : Uninterrupted past) (hrest : s.AtRest) {i : Nat} {p : Port} (hp : s.ports[i]? = some p)
    (side : Side) :
    past.flatMap (Moment.takes i side) = past.flatMap (Moment.accepts i side)
      ∧ past.countP (Moment.pulses i side) = (past.flatMap (Moment.accepts i side)).length := by
  have hl := h.descriptorLedger h₀ hu hp side
  obtain ⟨hreader, hwriter, hreadHeld, hwriteHeld, _⟩ := hrest.port p (List.mem_of_getElem? hp)
  have hidle : (p.view side).idle = true := by
    cases side with
    | reader => exact hreader
    | writer => exact hwriter
  have hnone : (p.view side).regs.holding = none := by
    cases side with
    | reader => exact hreadHeld
    | writer => exact hwriteHeld
  have haccepted := hl.accepted
  have hpulses := hl.pulses
  rw [hnone, Option.toList_none, List.append_nil] at haccepted
  rw [hidle, if_pos rfl, Nat.add_zero] at hpulses
  exact ⟨haccepted.symm, hpulses.trans (congrArg List.length haccepted.symm)⟩

/-- **Quiescence is final.** Of a quiescent machine nothing that can be seen changes, in
however many cycles, and nothing is said or recorded in them; and without a reset, everything
that its engines accepted was finished before. So a run of a simulation stops at its bound, or
when its scripts are at their end and nothing would ever come of going on. -/
theorem quiescence_final (h : Machine.Watched params s) :
    (s.isQuiescent = true →
      (∀ n, ∃ t, s.ticks n = pure t ∧ s.StaysAs t ∧ t.events = s.events)
      ∧ ∀ s₀ past, Machine.ofParams params = .ok s₀ → History s₀ past s.unrecorded →
        Uninterrupted past → ∀ (i : Nat) (p : Port) (side : Side), s.ports[i]? = some p →
          past.flatMap (Moment.takes i side) = past.flatMap (Moment.accepts i side)
            ∧ past.countP (Moment.pulses i side)
              = (past.flatMap (Moment.accepts i side)).length)
    ∧ ∀ sim stopped : Simulation, sim.machine = s → sim.runOn.result = .ok stopped →
        (stopped.finished = true ∨ stopped.maxCycles ≤ stopped.machine.cycle)
        ∧ (stopped.finished = true → ∀ n, ∃ later,
          (Run.stepTimes Simulation.step n stopped).result = .ok later
            ∧ later.players = stopped.players ∧ later.finished = true
            ∧ stopped.machine.StaysAs later.machine) := by
  refine ⟨fun hquiet => ⟨fun n => ?_, ?_⟩, ?_⟩
  · exact ⟨_, Machine.ticks_quiescent h.inputs_length hquiet n,
      Machine.staysAs_idled hquiet n s.newestEvents, rfl⟩
  · intro s₀ past h₀ hist hu i p side hp
    obtain ⟨⟨hports, hreads, hwrites, hmemory⟩, _⟩ := Machine.AtRest.of_quiescent hquiet
    exact hist.all_done h₀ hu ⟨hports, hreads, hwrites, hmemory⟩ hp side
  · rintro sim stopped rfl hrun
    obtain ⟨hwatched, hends⟩ := Simulation.runOn_ends h hrun
    refine ⟨?_, fun hfin n => ?_⟩
    · cases hfin : stopped.finished with
      | true => exact Or.inl rfl
      | false =>
          unfold Simulation.goesOn at hends
          rw [hfin, Bool.not_false, Bool.true_and] at hends
          exact Or.inr (Nat.le_of_not_lt (of_decide_eq_false hends))
    · obtain ⟨hdone, hquiet⟩ := Bool.and_eq_true_iff.mp hfin
      obtain ⟨events, hsteps⟩ := Simulation.steps_finished hwatched hfin n
      have hstays := Machine.staysAs_idled hquiet n events
      exact ⟨_, hsteps, rfl, Bool.and_eq_true_iff.mpr ⟨hdone, hstays.quiescent⟩, hstays⟩

end

/-- A script that has the reader of the second port read two words, and waits for it. -/
def twoWords : Player where
  name := "two words"
  todo := [
    ⟨1, .write (Register.address 1 .reader Register.start.index) 32⟩,
    ⟨2, .write (Register.address 1 .reader Register.length.index) 2⟩,
    ⟨3, .write (Register.address 1 .reader Register.burst.index) 2⟩,
    ⟨4, .write (Register.address 1 .reader Register.valid.index) 1⟩,
    ⟨5, .waitIrq 3⟩]

/-- A reader has met a region that fails, and was just told to clear its error register. The
machine is quiescent with a line high. A run of a script stops at the end of it. -/
theorem quiescence_final_error_pending :
    ∃ s stopped, Machine.Watched
        { ports := [{}, {}], memory := { sizeWords := 64, errorRegions := [⟨16, 24, .slvErr⟩] } } s
      ∧ s.isQuiescent = true ∧ s.capture = true ∧ s.irq 1 = true
      ∧ (s.readRegister (Register.address 0 .reader Register.error.index)).result = .ok 2
      ∧ (s.ports[0]?).any (·.readRegs.clearError) = true
      ∧ (∃ t, s.ticks 7 = pure t ∧ s.StaysAs t ∧ t.events = s.events)
      ∧ (Simulation.ofMachine s [twoWords] 100).runOn.result = .ok stopped
      ∧ stopped.machine.irq 3 = true
      ∧ ∃ later, (Run.stepTimes Simulation.step 7 stopped).result = .ok later
        ∧ later.players = stopped.players ∧ later.finished = true
        ∧ stopped.machine.StaysAs later.machine := by
  have hrun : Machine.trial
      { ports := [{}, {}], memory := { sizeWords := 64, errorRegions := [⟨16, 24, .slvErr⟩] } }
      (Operation.program 0 .reader 12 3 2 ++ List.replicate 40 .tick
        ++ [.write (Register.address 0 .reader Register.error.index) 0])
      (fun _ t => t.isQuiescent && t.irq 1
        && decide ((t.readRegister (Register.address 0 .reader Register.error.index)).result
          = .ok 2)
        && (t.ports[0]?).any (·.readRegs.clearError)
        && match (Simulation.ofMachine { t with capture := true } [twoWords] 100).runOn.result with
          | .ok stopped => stopped.finished && stopped.machine.irq 3
          | .error _ => false) = true := by
    decide +kernel
  obtain ⟨s₀, past, t, h₀, hist, hlook⟩ := Machine.exists_of_trial hrun
  simp only [Bool.and_eq_true, decide_eq_true_eq] at hlook
  obtain ⟨⟨⟨⟨hquiet, hline⟩, herror⟩, hclear⟩, hsim⟩ := hlook
  split at hsim
  · rename_i stopped hstopped
    obtain ⟨hfin, hline'⟩ := Bool.and_eq_true_iff.mp hsim
    have hwatched := (Machine.watched_of_history h₀ hist).record true
    obtain ⟨hfinal, hruns⟩ := quiescence_final hwatched
    exact ⟨_, stopped, hwatched, hquiet, rfl, hline, herror, hclear, (hfinal hquiet).1 7, hstopped,
      hline', (hruns _ stopped rfl hstopped).2 hfin 7⟩
  · cases hsim

end BurstDma
