import BurstDma.Proofs.Shape

/-!
# Read credit

A reader asks for a burst only when its buffer has a place for every word of it and for
every word still on its way. The check is made once, some cycles before the request is
accepted, while data of earlier bursts arrives and the sink empties the buffer. **The
places counted then are still free when the words need them**, so the entrance of the
buffer never turns a beat away.
-/

namespace BurstDma

/-! ## The invariant -/

namespace Machine

variable {s s' : Machine} {slave : ReadSlave} {i : Nat} {p p' : Port} {rstep : ReadStep}
  {wstep : WriteStep}

/-- The number of words on their way to port `i`. -/
def awaited (s : Machine) (i : Nat) : Nat :=
  (s.unsent i).length + (s.held i).length

/-- Every reader counts what is on its way, and its buffer has room for it. -/
def Credited (s : Machine) : Prop :=
  ∀ (i : Nat) (p : Port), s.ports[i]? = some p →
    p.reader.core.Sound (s.awaited i) ∧ p.reader.core.Covered p.readFifo.room

/-- A request moves only while the reader offers it. -/
theorem arFired_readBus (s : Machine) (slave : ReadSlave) (i : Nat) (p : Port) :
    ((s.readBus slave i p).arFired.isSome = true → p.reader.core.phase = .issueBurst)
      ∧ (s.readBus slave i p).arFired.toList.flatMap (·.addresses s.memory.store.geometry)
        = if (s.readBus slave i p).arFired.isSome then
            p.reader.core.request.addresses s.memory.store.geometry else [] := by
  have hw : p.readWires.ar
      = if p.reader.core.phase = .issueBurst then some p.reader.core.request else none := rfl
  have hb : (s.readBus slave i p).arFired
      = if (s.readArbiter.toRequester slave i).arReady then p.readWires.ar else none := rfl
  rw [hb, hw]
  split
  · split
    · rename_i hph
      exact ⟨fun _ => hph, by simp⟩
    · exact ⟨(by intro h; cases h), rfl⟩
  · exact ⟨(by intro h; cases h), rfl⟩

/-- A request that moves stands for the words that the reader asks for. -/
theorem asked_length (s : Machine) (slave : ReadSlave) (i : Nat) (p : Port) :
    ((s.readBus slave i p).arFired.toList.flatMap
        (·.addresses s.memory.store.geometry)).length
      = p.reader.core.asked (p.readInputs (s.readBus slave i p)) := by
  rw [(s.arFired_readBus slave i p).2]
  show _ = if (s.readBus slave i p).arFired.isSome then _ else _
  split
  · exact Geometry.length_span _ _ _
  · rfl

/-- What a clock cycle makes of the number of words on their way. -/
theorem awaited_edge (hf : s.ReadPathFormed) (h : s.Edge slave s') (hp : s.ports[i]? = some p) :
    s'.awaited i
      = s.awaited i + p.reader.core.asked (p.readInputs (s.readBus slave i p))
        - (s.readBus slave i p).rFired.toList.length := by
  obtain ⟨sent, _, _, hunsent, hheld⟩ := read_flow hf h hp
  have hlen := congrArg List.length hunsent
  have hlen' := congrArg List.length hheld
  have hwords := s.asked_length slave i p
  -- both queues only move words on, so the sum changes at its two ends
  simp only [List.length_append, List.length_map] at hlen hlen'
  unfold awaited
  omega

/-- A beat that arrives takes one place, and the sink takes none. -/
theorem room_edge (h : p.Edge (s.readBus slave i p) (s.writeBus i p) rstep wstep p') :
    p.readFifo.room - rstep.push.toList.length ≤ p'.readFifo.room := by
  obtain ⟨b, hdrain⟩ := h.drain
  obtain ⟨_, hcap, _, hlen⟩ := Sink.tick_contents hdrain
  unfold Fifo.room
  rw [hcap]
  cases hpush : rstep.push with
  | none =>
      rw [hpush] at hlen
      simp only [Option.bind_none, Option.getD_none, Option.toList_none, List.length_nil] at *
      omega
  | some beat =>
      rw [hpush] at hlen
      cases hfit : p.readFifo.push? beat with
      | none =>
          simp only [Option.bind_some, hfit, Option.getD_none, Option.toList_some,
            List.length_singleton] at *
          omega
      | some f =>
          obtain ⟨_, hbeats, hc, _, _⟩ := Fifo.push?_eq_some hfit
          simp only [Option.bind_some, hfit, Option.getD_some, Option.toList_some,
            List.length_singleton] at *
          rw [hbeats, List.length_append, List.length_singleton] at hlen
          rw [hc]
          omega

theorem credited_edge (hf : s.ReadPathFormed) (hc : s.Credited) (h : s.Edge slave s') :
    s'.Credited := by
  intro i p' hp'
  obtain ⟨p, rstep, wstep, hp, hedge⟩ := h.port' hp'
  obtain ⟨hsound, hcover⟩ := hc i p hp
  obtain ⟨hcore, _⟩ := ReadEngine.tick_core hedge.reader
  obtain ⟨hoffer, _⟩ := s.arFired_readBus slave i p
  -- what arrives was awaited
  have harrive := fired_le_awaited hf h.drives h.readArbiter hp
  have hnext := ReadCore.sound_next hsound harrive hoffer hcore
  have hroom := ReadCore.covered_next hsound harrive hcover (Fifo.free_le_room _) hcore
  obtain ⟨hpush, _⟩ := ReadCore.next_transfer hsound hoffer hcore
  refine ⟨?_, hroom.mono ?_⟩
  · rw [awaited_edge hf h hp]
    exact hnext
  · have hone : rstep.push.toList.length = (s.readBus slave i p).rFired.toList.length := by
      rw [hpush]
      cases hb : (p.readInputs (s.readBus slave i p)).beat with
      | none =>
          have hb' : (s.readBus slave i p).rFired = none := hb
          rw [hb']
          rfl
      | some beat =>
          have hb' : (s.readBus slave i p).rFired = some beat := hb
          rw [hb']
          rfl
    have := room_edge hedge
    rw [hone] at this
    exact this

theorem credited_touched {op : Operation} (hc : s.Credited) (ht : s.Touched op s') :
    s'.Credited := by
  intro i p' hp'
  obtain ⟨p, hp, hport⟩ := ht.port' hp'
  obtain ⟨hu, hh⟩ := ht.reads.2 i
  unfold awaited
  rw [hport.reader, hport.readFifo, hu, hh]
  exact hc i p hp

/-- A new reader has asked for nothing. -/
theorem credited_of_rest (hrest : ∀ i, s.unsent i = [] ∧ s.held i = [])
    (hcore : ∀ (i : Nat) (p : Port), s.ports[i]? = some p → p.reader.core = {}) :
    s.Credited := by
  intro i p hp
  obtain ⟨hu, hh⟩ := hrest i
  unfold awaited
  rw [hcore i p hp, hu, hh]
  exact ⟨ReadCore.sound_init, Nat.zero_le _, fun h => by cases h⟩

/-- **Every reachable machine is credited.** -/
theorem credited_reachable {params : MachineParams} (h : Machine.Reachable params s) :
    s.Formed params ∧ s.Credited := by
  refine h.induction ?_ ?_ ?_ ?_
  · intro s h₀
    obtain ⟨_, hrest⟩ := reads_ofParams h₀
    refine credited_of_rest hrest fun i p hp => ?_
    rw [getElem?_ofParams h₀] at hp
    obtain ⟨q, _, rfl⟩ := Option.map_eq_some_iff.mp hp
    rfl
  · intro s s' slave hf hc hedge
    exact credited_edge hf.reads hc hedge
  · intro s s' op _ hc ht
    exact credited_touched hc ht
  · intro s s' hf _ hreset
    obtain ⟨_, hrest⟩ := reset_reads hf.reads hreset
    refine credited_of_rest hrest fun i p' hp' => ?_
    rw [reset_eq_ok hreset] at hp'
    simp only [List.getElem?_map, Option.map_eq_some_iff] at hp'
    obtain ⟨p, _, rfl⟩ := hp'
    rfl

end Machine

/-! ## No beat is lost -/

/-- The notice that a beat found its buffer full. -/
def Entry.LosesBeat : Entry → Prop
  | .notice (.beatLost _ _) => True
  | _ => False

open Run

theorem Memory.tick_avoids (m : Memory) (reads : ReadBus) (writes : WriteBus) :
    (m.tick reads writes).Avoids Entry.LosesBeat := by
  refine avoids_bind ?_ fun _ _ => avoids_pure _
  unfold tickWrites
  dsimp only
  split
  · refine avoids_bind (avoids_noteIf id) fun _ _ => ?_
    refine avoids_bind (avoids_liftM _) fun _ _ => ?_
    exact avoids_bind (avoids_noteIf id) fun _ _ => avoids_pure _
  · exact avoids_pure _

theorem ReadArbiter.tick_avoids (a : ReadArbiter) (w : ReadWires) :
    (a.tick w).Avoids Entry.LosesBeat := by
  refine avoids_bind (avoids_liftM _) fun _ _ => ?_
  refine avoids_bind (avoids_noteIf id) fun _ _ => ?_
  refine avoids_bind (avoids_liftM _) fun _ _ => ?_
  refine avoids_bind (avoids_liftM _) fun _ _ => ?_
  exact avoids_bind (avoids_liftM _) fun _ _ => avoids_pure _

theorem WriteArbiter.tick_avoids (a : WriteArbiter) (w : WriteWires) :
    (a.tick w).Avoids Entry.LosesBeat := by
  unfold tick
  dsimp only
  split
  · split
    · exact avoids_bind (avoids_note id) fun _ _ => avoids_pure _
    · split <;> exact avoids_pure _
  · exact avoids_pure _
  · exact avoids_pure _
  · split <;> exact avoids_pure _

theorem Pending.retire_avoids (p : Pending) (last : Bool) :
    (p.retire last).Avoids Entry.LosesBeat := by
  refine avoids_bind (avoids_noteIf id) fun _ _ => ?_
  exact avoids_bind (avoids_noteIf id) fun _ _ => avoids_pure _

theorem ReadEngine.report_avoids (e : ReadEngine) (i : ReadInputs) (core : ReadCore)
    (step : ReadStep) : (e.report i core step).Avoids Entry.LosesBeat := by
  unfold report
  dsimp only
  -- every notice stands alone, whichever of them are told
  cases i.desc <;> cases step.issued <;> cases i.beat <;>
    repeat' first
      | exact avoids_noteIf id
      | exact avoids_note id
      | refine avoids_bind ?_ fun _ _ => ?_

theorem ReadEngine.tick_avoids (e : ReadEngine) (i : ReadInputs) :
    (e.tick i).Avoids Entry.LosesBeat := by
  refine avoids_bind (avoids_bind ?_ fun _ _ => ?_) fun _ _ =>
    avoids_bind (e.report_avoids i _ _) fun _ _ => avoids_pure _
  · unfold ReadCore.receive
    dsimp only
    split
    · exact avoids_pure _
    · refine avoids_bind (Pending.retire_avoids _ _) fun _ _ => ?_
      exact avoids_bind (avoids_liftM _) fun _ _ => avoids_pure _
  · exact avoids_bind (avoids_liftM _) fun _ _ => avoids_pure _

theorem WriteEngine.report_avoids (e : WriteEngine) (i : WriteInputs) (core : WriteCore)
    (step : WriteStep) : (e.report i core step).Avoids Entry.LosesBeat := by
  unfold report
  dsimp only
  cases i.desc <;> cases step.issued <;> cases i.b <;>
    repeat' first
      | exact avoids_noteIf id
      | exact avoids_note id
      | refine avoids_bind ?_ fun _ _ => ?_

theorem WriteCore.proceed_avoids (g : Geometry) (c : WriteCore) (i : WriteInputs) :
    (c.proceed g i).Avoids Entry.LosesBeat := by
  unfold proceed
  split
  · split <;> exact avoids_pure _
  · exact avoids_pure _
  · exact avoids_pure _
  · split
    · exact avoids_pure _
    · exact avoids_bind (avoids_liftM _) fun _ _ => avoids_pure _
  · split
    · refine avoids_bind (avoids_liftM _) fun _ _ => ?_
      exact avoids_bind (avoids_liftM _) fun _ _ => avoids_pure _
    · exact avoids_pure _
  · split
    · refine avoids_bind ?_ fun _ _ => avoids_pure _
      refine avoids_bind (Pending.retire_avoids _ _) fun _ _ => ?_
      refine avoids_bind (avoids_liftM _) fun _ _ => ?_
      refine avoids_bind (avoids_liftM _) fun _ _ => ?_
      dsimp only
      split
      · exact avoids_bind (avoids_liftM _) fun _ _ => avoids_pure _
      · exact avoids_pure _
    · exact avoids_pure _
  · exact avoids_pure _
  · exact avoids_pure _

theorem WriteEngine.tick_avoids (e : WriteEngine) (i : WriteInputs) :
    (e.tick i).Avoids Entry.LosesBeat := by
  refine avoids_bind (avoids_bind ?_ fun r _ => r.proceed_avoids _ i) fun _ _ =>
    avoids_bind (e.report_avoids i _ _) fun _ _ => avoids_pure _
  unfold WriteCore.receive
  dsimp only
  split
  · exact avoids_pure _
  · exact avoids_bind (avoids_noteIf id) fun _ _ => avoids_pure _

/-- A beat that arrives finds a place, so nothing is told about it. -/
theorem Port.tick_avoids {p : Port} {reads : ReadBus} {writes : WriteBus}
    (hfit : ∀ reader step beat, (p.reader.tick (p.readInputs reads)).result = .ok (reader, step) →
      step.push = some beat → ∃ f, p.readFifo.push? beat = some f) :
    (p.tick reads writes).Avoids Entry.LosesBeat := by
  refine avoids_bind ?_ fun p₁ _ => avoids_bind ?_ fun p₂ _ => avoids_liftM _
  · refine avoids_bind (p.reader.tick_avoids _) ?_
    rintro ⟨reader, step⟩ hr
    dsimp only
    split
    · exact avoids_pure _
    · rename_i beat hpush
      obtain ⟨f, hf⟩ := hfit reader step beat hr hpush
      rw [hf]
      exact avoids_pure _
  · refine avoids_bind (p₁.writer.tick_avoids _) ?_
    rintro ⟨writer, step⟩ _
    exact avoids_bind (avoids_liftM _) fun _ _ => avoids_pure _

theorem Machine.tickPorts_avoids {ps : List Port} {rs : List ReadBus} {ws : List WriteBus}
    (h : ∀ (k : Nat) (p : Port) (r : ReadBus) (w : WriteBus), ps[k]? = some p → rs[k]? = some r →
      ws[k]? = some w → (p.tick r w).Avoids Entry.LosesBeat) :
    (tickPorts ps rs ws).Avoids Entry.LosesBeat := by
  induction ps generalizing rs ws with
  | nil =>
      rw [tickPorts]
      · exact avoids_pure _
      · intro p ps r rs w ws hp; cases hp
  | cons p ps ih =>
      cases rs with
      | nil =>
          rw [tickPorts]
          · exact avoids_pure _
          · intro p ps r rs w ws _ hr; cases hr
      | cons r rs =>
          cases ws with
          | nil =>
              rw [tickPorts]
              · exact avoids_pure _
              · intro p ps r rs w ws _ _ hw; cases hw
          | cons w ws =>
              rw [tickPorts]
              refine avoids_bind (h 0 p r w rfl rfl rfl) fun _ _ => ?_
              refine avoids_bind (ih ?_) fun _ _ => avoids_pure _
              intro k p' r' w' hp hr hw
              exact h (k + 1) p' r' w' hp hr hw

namespace Machine

variable {params : MachineParams} {s : Machine} {i : Nat} {p : Port}

/-- The buffer of a credited reader takes every beat that arrives. -/
theorem push?_of_credited {slave : ReadSlave} {arbiter : ReadArbiter} {reader : ReadEngine}
    {step : ReadStep} {beat : Beat} (hf : s.Formed params) (hc : s.Credited)
    (hs : s.memory.readWires = .ok slave)
    (ha : (s.readArbiter.tick (s.reads slave)).result = .ok arbiter) (hp : s.ports[i]? = some p)
    (hr : (p.reader.tick (p.readInputs (s.readBus slave i p))).result = .ok (reader, step))
    (hpush : step.push = some beat) : ∃ f, p.readFifo.push? beat = some f := by
  obtain ⟨q, _, hb⟩ := hf.port i p hp
  obtain ⟨hsound, hcover⟩ := hc i p hp
  obtain ⟨hcore, _⟩ := ReadEngine.tick_core hr
  obtain ⟨hoffer, _⟩ := s.arFired_readBus slave i p
  obtain ⟨hstep, _⟩ := ReadCore.next_transfer hsound hoffer hcore
  have harrive := fired_le_awaited hf.reads hs ha hp
  -- a beat is handed over only when one arrives, and that one was counted
  have hone : 1 ≤ (s.readBus slave i p).rFired.toList.length := by
    cases hfire : (s.readBus slave i p).rFired with
    | some b => exact Nat.le_refl _
    | none =>
        have hnone : (p.readInputs (s.readBus slave i p)).beat = none := hfire
        rw [hstep, hnone] at hpush
        cases hpush
  have hpending : p.reader.core.pending.words = s.awaited i := hsound.pending
  have hawaited : (s.unsent i).length + (s.held i).length = s.awaited i := rfl
  refine Fifo.push?_isSome beat hb.readLatch ?_
  have hroom := hcover.1
  omega

theorem tick_avoids (hf : s.Formed params) (hc : s.Credited) :
    s.tick.Avoids Entry.LosesBeat := by
  refine avoids_bind (avoids_liftM _) fun w hw => ?_
  obtain ⟨slave, hs, rfl⟩ := wires_eq_ok hw
  refine avoids_bind (Memory.tick_avoids _ _ _) fun _ _ => ?_
  refine avoids_bind (ReadArbiter.tick_avoids _ _) fun arbiter ha => ?_
  refine avoids_bind (WriteArbiter.tick_avoids _ _) fun _ _ => ?_
  refine avoids_bind (tickPorts_avoids ?_) fun _ _ => avoids_pure _
  intro k p r w hp hr hw
  rw [reads_up_getElem? hp] at hr
  cases hr
  exact Port.tick_avoids fun reader step beat hread hpush =>
    push?_of_credited hf hc hs ha hp hread hpush

/-- **Read credit is sound.** In every reachable state of a machine the buffer of a reader
has a free place for every word that it counts as pending, and for every word of the burst
that it offers; so no clock cycle loses a beat. -/
theorem read_credit_sound (hdepth : ∀ q ∈ params.ports, q.fifoDepth < 2 ^ 31)
    (h : Machine.Reachable params s) :
    (∀ (i : Nat) (p : Port), s.ports[i]? = some p →
      p.reader.core.pending.words ≤ p.readFifo.free ∧
        (p.reader.core.phase = .issueBurst → ∃ request, p.readWires.ar = some request ∧
          p.reader.core.pending.words + request.beats ≤ p.readFifo.free)) ∧
      ∀ port data, Entry.notice (.beatLost port data) ∉ s.tick.transcript := by
  obtain ⟨hf, hc⟩ := credited_reachable h
  refine ⟨?_, ?_⟩
  · intro i p hp
    obtain ⟨q, hq, hb⟩ := hf.port i p hp
    obtain ⟨hsound, hcover⟩ := hc i p hp
    have hfree : p.readFifo.free = p.readFifo.room := by
      refine Fifo.free_eq_room ?_
      rw [hb.readCapacity]
      exact Nat.lt_trans (hdepth q (List.mem_of_getElem? hq)) (by decide)
    rw [hfree]
    refine ⟨hcover.1, fun hph => ⟨p.reader.core.request, if_pos hph, ?_⟩⟩
    rw [(hsound.request (Or.inr hph)).2]
    exact hcover.2 hph
  · intro port data hlost
    exact tick_avoids hf hc _ hlost trivial

/-- A reader that offers its second burst while the first one is on its way has the places
for both. -/
theorem read_credit_sound_second_burst :
    ∃ s p, Machine.Reachable { ports := [{ fifoDepth := 4 }], memory := { readLatency := 20 } } s
      ∧ s.ports[0]? = some p ∧ p.reader.core.phase = .issueBurst
      ∧ p.reader.core.pending.words = 2
      ∧ ∃ request, p.readWires.ar = some request ∧ 2 + request.beats ≤ p.readFifo.free := by
  have hrun : trial { ports := [{ fifoDepth := 4 }], memory := { readLatency := 20 } }
      (Operation.program 0 .reader 8 4 2 ++ List.replicate 11 .tick)
      (fun _ s => (s.ports[0]?).any fun p =>
        p.reader.core.phase == .issueBurst && p.reader.core.pending.words == 2) = true := by
    decide +kernel
  obtain ⟨s₀, past, s, h₀, h, hlook⟩ := exists_of_trial hrun
  obtain ⟨p, hp, hlook⟩ := (Option.any_eq_true _ _).mp hlook
  rw [Bool.and_eq_true, beq_iff_eq, beq_iff_eq] at hlook
  obtain ⟨hph, hwords⟩ := hlook
  have hreach : Machine.Reachable
      { ports := [{ fifoDepth := 4 }], memory := { readLatency := 20 } } s := ⟨s₀, past, h₀, h⟩
  obtain ⟨hcredit, _⟩ := read_credit_sound (by decide) hreach
  obtain ⟨request, har, hfits⟩ := (hcredit 0 p hp).2 hph
  rw [hwords] at hfits
  exact ⟨s, p, hreach, hp, hph, hwords, request, har, hfits⟩

end Machine

end BurstDma
