import BurstDma.Proofs.Rest

/-!
# A payload that has to wait stays

A sender that offers a payload must go on offering it until it is taken. Nothing in the
machine checks this, and most of the wires are not even registers: what the memory sends is
read from the words of that moment, what an arbiter forwards depends on its turn. Yet the
rule holds, since **almost nothing ever has to wait**. The memory has room for every request
that was granted, it is free when the write bus is, and the ports are always ready for data
and answers; so between the arbiters and the memory, and for written data, an offer is taken
in the cycle in which it is made.

Only an address at a port can be refused. It comes from a register of its engine, which
keeps it until the handshake.
-/

namespace BurstDma

/-! ## The channels -/

/-- The channels on which something is offered: at the interface of a port, and between the
arbiters and the memory. -/
inductive BusChannel where
  | portAr (i : Nat)
  | portAw (i : Nat)
  | portW (i : Nat)
  | memoryAr
  | memoryR
  | memoryAw
  | memoryW
  | memoryB
deriving DecidableEq

/-- What is offered on a channel. -/
inductive BusPayload where
  | request (r : AddrReq)
  | data (b : ReadBeat)
  | word (b : WriteBeat)
  | response (b : WriteResp)
deriving DecidableEq

namespace MachineWires

/-- What a channel offers in a cycle. -/
def offered (w : MachineWires) : BusChannel → Option BusPayload
  | .portAr i => (w.reads.up[i]?.bind (·.master.ar)).map .request
  | .portAw i => (w.writes.up[i]?.bind (·.master.aw)).map .request
  | .portW i => (w.writes.up[i]?.bind (·.master.w)).map .word
  | .memoryAr => w.reads.down.master.ar.map .request
  | .memoryR => w.reads.down.slave.r.map .data
  | .memoryAw => w.writes.down.master.aw.map .request
  | .memoryW => w.writes.down.master.w.map .word
  | .memoryB => w.writes.down.slave.b.map .response

/-- What moves on a channel in a cycle. -/
def moved (w : MachineWires) : BusChannel → Option BusPayload
  | .portAr i => (w.reads.up[i]?.bind (·.arFired)).map .request
  | .portAw i => (w.writes.up[i]?.bind (·.awFired)).map .request
  | .portW i => (w.writes.up[i]?.bind (·.wFired)).map .word
  | .memoryAr => w.reads.down.arFired.map .request
  | .memoryR => w.reads.down.rFired.map .data
  | .memoryAw => w.writes.down.awFired.map .request
  | .memoryW => w.writes.down.wFired.map .word
  | .memoryB => w.writes.down.bFired.map .response

end MachineWires

/-! ## What the memory takes and gives -/

/-- A buffer that gives up what it holds never uses its second place. -/
theorem Skid.second_of_drained {α : Type} {s s' : Skid α} {pushed : Option α} {popped : Bool}
    (hs : s.second = none) (hp : s.first.isSome = true → popped = true)
    (h : s.tick pushed popped = .ok s') : s'.second = none := by
  obtain ⟨first, second⟩ := s
  cases hs
  cases first with
  | none => cases popped <;> cases pushed <;> cases h <;> rfl
  | some a =>
      cases hp rfl
      cases pushed <;> cases h <;> rfl

namespace Machine

variable {params : MachineParams} {s s' : Machine} {slave : ReadSlave} {i : Nat} {p p' : Port}

/-- **A granted request finds room in the memory**, because a burst has a place in the queue
of owners as long as the memory has it. -/
theorem request_taken (hr : Machine.Reachable params s) (hs : s.memory.readWires = .ok slave) :
    (s.reads slave).down.arFired = (s.reads slave).down.master.ar := by
  obtain ⟨_, hm⟩ := mirrored_reachable hr
  have hdepth := (readOutstanding_pos hr).2
  have hsize := hm.size
  rw [← hm.depth, hdepth] at hsize
  have hflight := congrArg List.length hm.owners
  unfold inFlight at hflight
  rw [List.length_append, List.length_append, List.length_map, List.length_map] at hflight
  unfold Ownership.size at hsize
  cases hoffer : (s.reads slave).down.master.ar with
  | none =>
      unfold ReadBus.arFired
      rw [hoffer]
      exact ite_self _
  | some r =>
      have har : (s.readArbiter.toMemory (s.ports.map (·.readWires))).ar = some r := hoffer
      have hroom : s.memory.reads.length < s.memory.params.readOutstanding := by
        unfold ReadArbiter.toMemory at har
        dsimp only at har
        split at har
        · have hheld : 0 < s.readArbiter.granted.contents.length := by
            rw [Skid.contents_of_peek har]
            exact Nat.succ_pos _
          omega
        · split at har
          · cases har
          · rename_i hopen
            unfold Ownership.isFull Ownership.size at hopen
            rw [hdepth, decide_eq_true_eq] at hopen
            omega
      have hready : (s.reads slave).down.slave.arReady = true :=
        (Memory.arReady_eq hs).trans (decide_eq_true hroom)
      unfold ReadBus.arFired
      rw [if_pos hready, hoffer]

/-- The port that a beat is for takes it, so a register for data never holds two. -/
theorem data_drained (hr : Machine.Reachable params s) : s.readArbiter.data.second = none := by
  refine hr.steps (P := fun s => s.readArbiter.data.second = none) ?_ ?_ ?_ ?_
  · intro s h₀
    obtain ⟨readArbiter, _, hra, _, rfl⟩ := ofParams_eq_ok h₀
    obtain ⟨turn, _, hra⟩ := except_bind_eq_ok.mp hra
    cases hra
    rfl
  · intro s s' slave hr hnone h
    obtain ⟨hf, hm⟩ := mirrored_reachable hr
    have hedge : s.readArbiter.Edge (s.readArbiter.resolve (s.ports.map (·.readWires)) slave)
        s'.readArbiter := ReadArbiter.tick_edge h.readArbiter
    have hdata := hedge.data
    split at hdata
    · rename_i hreg
      refine Skid.second_of_drained hnone (fun hsome => ?_) hdata
      obtain ⟨b, hb⟩ := Option.isSome_iff_exists.mp hsome
      have hincoming : s.readArbiter.incoming slave = some b := by
        unfold ReadArbiter.incoming
        rw [hreg]
        exact hb
      obtain ⟨⟨p, hp, hfired⟩, _⟩ := beat_delivered hf.reads hm h.drives hincoming
      have hdelivered := (rFired_id hf.reads hm h.drives hp hfired).2
      exact congrArg Option.isSome hdelivered
    · rw [← Except.ok.inj hdata]
      exact hnone
  · intro s s' op _ hnone h
    rw [h.readArbiter]
    exact hnone
  · intro s s' _ _ hreset
    rw [reset_eq_ok hreset]
    rfl

/-- **Data from the memory is taken at once.** -/
theorem data_taken (hr : Machine.Reachable params s) (hs : s.memory.readWires = .ok slave) :
    (s.reads slave).down.rFired = (s.reads slave).down.slave.r := by
  obtain ⟨hf, hm⟩ := mirrored_reachable hr
  cases hoffer : (s.reads slave).down.slave.r with
  | none =>
      unfold ReadBus.rFired
      rw [hoffer]
      exact ite_self _
  | some b =>
      have hready : (s.readArbiter.toMemory (s.ports.map (·.readWires))).rReady = true := by
        unfold ReadArbiter.toMemory
        dsimp only
        split
        · unfold Skid.ready
          rw [data_drained hr]
          rfl
        · rename_i hreg
          have hincoming : s.readArbiter.incoming slave = some b := by
            unfold ReadArbiter.incoming
            rw [if_neg hreg]
            exact hoffer
          obtain ⟨⟨p, hp, hfired⟩, _⟩ := beat_delivered hf.reads hm hs hincoming
          rw [ReadArbiter.owner_of_rFired hfired, Option.bind_some, List.getElem?_map, hp]
          rfl
      unfold ReadBus.rFired
      rw [if_pos (show (s.reads slave).down.master.rReady = true from hready), hoffer]

/-- **What reaches the memory of a write is taken at once, and so is its answer.** -/
theorem writes_taken (ho : s.WriteOrderly) :
    s.writes.down.awFired = s.writes.down.master.aw
      ∧ s.writes.down.wFired = s.writes.down.master.w
      ∧ s.writes.down.bFired = s.writes.down.slave.b := by
  have hstage := ho.stage
  have haw : s.writes.down.master.aw = if s.writeArbiter.lock.addressOpen then
      (s.writeArbiter.ownerWires (s.ports.map (·.writeWires))).aw.map
        fun r => { r with id := s.writeArbiter.owner } else none := rfl
  have hw : s.writes.down.master.w = if s.writeArbiter.lock.dataOpen then
      (s.writeArbiter.ownerWires (s.ports.map (·.writeWires))).w else none := rfl
  have hb : s.writes.down.master.bReady = (s.writeArbiter.lock.responseOpen
      && (s.writeArbiter.ownerWires (s.ports.map (·.writeWires))).bReady) := rfl
  have hslave : s.writes.down.slave = s.memory.writeWires := rfl
  unfold WriteBus.awFired WriteBus.wFired WriteBus.bFired
  rw [haw, hw, hb, hslave]
  unfold Memory.writeWires
  dsimp only
  cases hl : s.writeArbiter.lock with
  | select =>
      rw [hl] at hstage
      cases hstage with
      | select ha _ hd hresp =>
          rw [ha, hd, hresp]
          exact ⟨rfl, rfl, rfl⟩
  | writeChannel id addrDone =>
      rw [hl] at hstage
      cases hstage with
      | data _ r _ _ _ hd hresp =>
          rw [hd, hresp]
          exact ⟨ite_self _, rfl, rfl⟩
  | addressChannel id =>
      rw [hl] at hstage
      cases hstage
  | responseChannel id =>
      rw [hl] at hstage
      obtain ⟨hlt, resp, due, _, _, _, _⟩ := hstage.answer_inv
      have howner : s.writeArbiter.owner = id := WriteArbiter.owner_eq hl
      have hready : (s.writeArbiter.ownerWires (s.ports.map (·.writeWires))).bReady = true := by
        unfold WriteArbiter.ownerWires
        rw [howner, List.getElem?_map, List.getElem?_eq_getElem hlt]
        rfl
      rw [hready]
      exact ⟨ite_self _, ite_self _, rfl⟩

/-- **A port that sends data is connected.** -/
theorem word_taken (ho : s.WriteOrderly) (hp : s.ports[i]? = some p) :
    (s.writeBus i p).wFired = p.writeWires.w := by
  by_cases hph : p.writer.core.phase = .transferBurst
  · obtain ⟨q, hq, _, _, hfired, _⟩ := owner_of_data ho ((ho.port i p hp).sending.mp hph)
    rw [hp] at hq
    cases hq
    rw [hfired]
    exact (if_pos hph).symm
  · have hnone : p.writeWires.w = none := if_neg hph
    unfold WriteBus.wFired writeBus
    dsimp only
    rw [hnone]
    exact ite_self _

end Machine

/-! ## What an engine keeps -/

theorem ReadCore.next_stalled {g : Geometry} {c c' : ReadCore} {i : ReadInputs} {step : ReadStep}
    (hph : c.phase = .issueBurst) (hi : i.arFires = false)
    (h : (c.next g i).result = .ok (c', step)) :
    c'.phase = .issueBurst ∧ c'.request = c.request := by
  obtain ⟨⟨r, push⟩, hrec, h⟩ := Run.result_bind_eq_ok.mp h
  obtain ⟨⟨core, st⟩, hproc, h⟩ := Run.result_bind_eq_ok.mp h
  cases h
  obtain ⟨⟨bursts, error, rfl⟩, _⟩ := receive_eq hrec
  unfold proceed at hproc
  dsimp only at hproc
  rw [hph, hi] at hproc
  cases hproc
  exact ⟨rfl, rfl⟩

theorem WriteCore.next_stalled {g : Geometry} {c c' : WriteCore} {i : WriteInputs}
    {step : WriteStep} (hph : c.phase = .issueBurst) (hi : i.awFires = false)
    (h : (c.next g i).result = .ok (c', step)) :
    c'.phase = .issueBurst ∧ c'.request = c.request := by
  obtain ⟨r, hr, h⟩ := Run.result_bind_eq_ok.mp h
  obtain ⟨error, rfl⟩ := receive_eq hr
  unfold proceed at h
  dsimp only at h
  rw [hph, hi] at h
  cases h
  exact ⟨rfl, rfl⟩

namespace Machine

variable {params : MachineParams} {s s' t : Machine} {slave : ReadSlave} {i : Nat} {p p' : Port}

theorem port_of_reads_up {bus : ReadBus} (h : (s.reads slave).up[i]? = some bus) :
    ∃ p, s.ports[i]? = some p ∧ bus = s.readBus slave i p := by
  cases hp : s.ports[i]? with
  | none => simp [reads, ReadArbiter.resolve, List.getElem?_zipIdx, hp] at h
  | some p =>
      rw [reads_up_getElem? hp, Option.some.injEq] at h
      exact ⟨p, rfl, h.symm⟩

theorem port_of_writes_up {bus : WriteBus} (h : s.writes.up[i]? = some bus) :
    ∃ p, s.ports[i]? = some p ∧ bus = s.writeBus i p := by
  cases hp : s.ports[i]? with
  | none => simp [writes, WriteArbiter.resolve, List.getElem?_zipIdx, hp] at h
  | some p =>
      rw [writes_up_getElem? hp, Option.some.injEq] at h
      exact ⟨p, rfl, h.symm⟩

/-- A read request that is not taken is offered again. -/
theorem ar_kept {rstep : ReadStep} {wstep : WriteStep}
    (h : p.Edge (s.readBus slave i p) (s.writeBus i p) rstep wstep p') {r : AddrReq}
    (hoffer : p.readWires.ar = some r) (hstall : (s.readBus slave i p).arFired = none) :
    p'.readWires.ar = some r := by
  have hwire : ∀ q : Port, q.readWires.ar
      = if q.reader.core.phase = .issueBurst then some q.reader.core.request else none :=
    fun _ => rfl
  rw [hwire] at hoffer
  split at hoffer
  · rename_i hph
    cases hoffer
    obtain ⟨hcore, _⟩ := ReadEngine.tick_core h.reader
    have hi : (p.readInputs (s.readBus slave i p)).arFires = false :=
      congrArg Option.isSome hstall
    obtain ⟨hph', hreq⟩ := ReadCore.next_stalled hph hi hcore
    rw [hwire, if_pos hph', hreq]
  · cases hoffer

/-- A write request that is not taken is offered again. -/
theorem aw_kept {rstep : ReadStep} {wstep : WriteStep}
    (h : p.Edge (s.readBus slave i p) (s.writeBus i p) rstep wstep p') {r : AddrReq}
    (hoffer : p.writeWires.aw = some r) (hstall : (s.writeBus i p).awFired = none) :
    p'.writeWires.aw = some r := by
  have hwire : ∀ q : Port, q.writeWires.aw
      = if q.writer.core.phase = .issueBurst then some q.writer.core.request else none :=
    fun _ => rfl
  rw [hwire] at hoffer
  split at hoffer
  · rename_i hph
    cases hoffer
    obtain ⟨hcore, _⟩ := WriteEngine.tick_core h.writer
    have hi : (p.writeInputs (s.writeBus i p)).awFires = false :=
      congrArg Option.isSome hstall
    obtain ⟨hph', hreq⟩ := WriteCore.next_stalled hph hi hcore
    rw [hwire, if_pos hph', hreq]
  · cases hoffer

end Machine

/-! ## Until the next cycle -/

variable {params : MachineParams} {s₀ s s' t : Machine} {past between : List Moment}

theorem History.trans (h : History s₀ past s) (hmore : History s between t) :
    History s₀ (past ++ between) t := by
  induction hmore with
  | start => rwa [List.append_nil]
  | step _ hop ih =>
      rw [← List.append_assoc]
      exact ih.step hop

/-- Without a clock edge and a reset every engine stays as it is. -/
theorem History.engines (hf : s.Formed params) (h : History s between t)
    (hquiet : ∀ e ∈ between, e.2 ≠ .tick ∧ e.2 ≠ .reset) :
    t.Formed params ∧ ∀ (i : Nat) (p : Port), s.ports[i]? = some p →
      ∃ q, t.ports[i]? = some q ∧ q.reader = p.reader ∧ q.writer = p.writer := by
  induction h with
  | start => exact ⟨hf, fun i p hp => ⟨p, hp, rfl, rfl⟩⟩
  | @step past t t' op _ hop ih =>
      obtain ⟨hft, hports⟩ := ih fun e he => hquiet e (List.mem_append_left _ he)
      obtain ⟨hnt, hnr⟩ := hquiet (t, op) (List.mem_append_right _ (List.mem_singleton_self _))
      have htouch := Machine.touched_of_apply hft.indexed hop hnt hnr
      refine ⟨hft.touched htouch, fun i p hp => ?_⟩
      obtain ⟨q, hq, hreader, hwriter⟩ := hports i p hp
      obtain ⟨q', hq', hport⟩ := htouch.port i q hq
      exact ⟨q', hq', hport.reader.trans hreader, hport.writer.trans hwriter⟩

/-- Every channel but the addresses of the ports moves what it offers. -/
theorem moved_eq_offered (hr : Machine.Reachable params s) {w : MachineWires}
    (hw : s.wires = .ok w) {ch : BusChannel} (hch : ∀ i, ch ≠ .portAr i ∧ ch ≠ .portAw i) :
    w.moved ch = w.offered ch := by
  obtain ⟨slave, hs, rfl⟩ := Machine.wires_eq_ok hw
  have ho := Machine.writeOrderly_reachable hr
  obtain ⟨haw, hword, hb⟩ := Machine.writes_taken ho
  cases ch with
  | portAr i => exact absurd rfl (hch i).1
  | portAw i => exact absurd rfl (hch i).2
  | portW i =>
      show (s.writes.up[i]?.bind (·.wFired)).map BusPayload.word
        = (s.writes.up[i]?.bind (·.master.w)).map BusPayload.word
      cases hp : s.ports[i]? with
      | none => simp [Machine.writes, WriteArbiter.resolve, List.getElem?_zipIdx, hp]
      | some p =>
          rw [Machine.writes_up_getElem? hp, Option.bind_some, Option.bind_some,
            Machine.word_taken ho hp]
          rfl
  | memoryAr => exact congrArg (Option.map BusPayload.request) (Machine.request_taken hr hs)
  | memoryR => exact congrArg (Option.map BusPayload.data) (Machine.data_taken hr hs)
  | memoryAw => exact congrArg (Option.map BusPayload.request) haw
  | memoryW => exact congrArg (Option.map BusPayload.word) hword
  | memoryB => exact congrArg (Option.map BusPayload.response) hb

/-- **A payload that was not taken is offered again.** In between registers may be accessed,
streams be filled and emptied, and words be loaded into the memory. -/
theorem stalled_payload_stays {w : MachineWires} {ch : BusChannel} {x : BusPayload}
    (hg : params.geometry.Legal) (hr : Machine.Reachable params s) (hw : s.wires = .ok w)
    (htick : s.tick.result = .ok s') (hbetween : History s' between t)
    (hquiet : ∀ e ∈ between, e.2 ≠ .tick ∧ e.2 ≠ .reset) (hoffer : w.offered ch = some x)
    (hstall : w.moved ch = none) : ∃ w', t.wires = .ok w' ∧ w'.offered ch = some x := by
  have hr' : Machine.Reachable params t := by
    obtain ⟨s₀, past, h₀, h⟩ := hr
    have hs' : History s₀ (past ++ [(s, .tick)]) s' := h.step htick
    exact ⟨s₀, _, h₀, hs'.trans hbetween⟩
  obtain ⟨slave', hs'⟩ := Machine.drives_ok hg hr'
  refine ⟨_, Machine.wires_of_slave hs', ?_⟩
  by_cases hch : ∀ i, ch ≠ .portAr i ∧ ch ≠ .portAw i
  · -- nothing else ever waits
    rw [moved_eq_offered hr hw hch, hoffer] at hstall
    cases hstall
  obtain ⟨slave, hedge⟩ := Machine.tick_edge htick
  have hset := Machine.wires_of_slave hedge.drives
  rw [hw, Except.ok.injEq] at hset
  subst hset
  obtain ⟨_, hengines⟩ := hbetween.engines (hr.formed.edge hedge) hquiet
  cases ch with
  | portAr i =>
      obtain ⟨r, hr, rfl⟩ := Option.map_eq_some_iff.mp hoffer
      obtain ⟨bus, hbus, har⟩ := Option.bind_eq_some_iff.mp hr
      obtain ⟨p, hp, rfl⟩ := Machine.port_of_reads_up hbus
      obtain ⟨rstep, wstep, p', hp', hport⟩ := hedge.port i p hp
      obtain ⟨q, hq, hreader, _⟩ := hengines i p' hp'
      have hstill : (s.readBus slave i p).arFired = none := by
        have := Option.map_eq_none_iff.mp hstall
        rwa [Machine.reads_up_getElem? hp, Option.bind_some] at this
      have hkept := Machine.ar_kept hport har hstill
      show ((t.reads slave').up[i]?.bind (·.master.ar)).map BusPayload.request = _
      rw [Machine.reads_up_getElem? hq]
      show q.readWires.ar.map BusPayload.request = _
      rw [Port.readWires, hreader]
      exact congrArg (Option.map BusPayload.request) hkept
  | portAw i =>
      obtain ⟨r, hr, rfl⟩ := Option.map_eq_some_iff.mp hoffer
      obtain ⟨bus, hbus, haw⟩ := Option.bind_eq_some_iff.mp hr
      obtain ⟨p, hp, rfl⟩ := Machine.port_of_writes_up hbus
      obtain ⟨rstep, wstep, p', hp', hport⟩ := hedge.port i p hp
      obtain ⟨q, hq, _, hwriter⟩ := hengines i p' hp'
      have hstill : (s.writeBus i p).awFired = none := by
        have := Option.map_eq_none_iff.mp hstall
        rwa [Machine.writes_up_getElem? hp, Option.bind_some] at this
      have hkept := Machine.aw_kept hport haw hstill
      show (t.writes.up[i]?.bind (·.master.aw)).map BusPayload.request = _
      rw [Machine.writes_up_getElem? hq]
      show q.writeOutputs.aw.map BusPayload.request = _
      rw [Port.writeOutputs, hwriter]
      exact congrArg (Option.map BusPayload.request) hkept
  | portW i => exact absurd (fun _ => ⟨nofun, nofun⟩) hch
  | memoryAr => exact absurd (fun _ => ⟨nofun, nofun⟩) hch
  | memoryR => exact absurd (fun _ => ⟨nofun, nofun⟩) hch
  | memoryAw => exact absurd (fun _ => ⟨nofun, nofun⟩) hch
  | memoryW => exact absurd (fun _ => ⟨nofun, nofun⟩) hch
  | memoryB => exact absurd (fun _ => ⟨nofun, nofun⟩) hch

/-- Two writers ask for the bus. The second one is refused, and asks again for the same after
its stream has been filled. -/
theorem stalled_payload_stays_contended :
    ∃ s s' t w w' x, Machine.Reachable { ports := [{}, {}] } s ∧ s.wires = .ok w
      ∧ s.tick.result = .ok s' ∧ Operation.apply s' (.push 1 [⟨9, true⟩]) = .ok t
      ∧ t.wires = .ok w' ∧ w.offered (.portAw 1) = some x ∧ w.moved (.portAw 1) = none
      ∧ w'.offered (.portAw 1) = some x := by
  have hrun : Machine.trial { ports := [{}, {}] }
      ([.push 0 [⟨7, true⟩], .push 1 [⟨8, true⟩]] ++ Operation.program 0 .writer 0 1 1
        ++ Operation.program 1 .writer 64 1 1 ++ List.replicate 4 .tick)
      (fun _ s => (s.wires.toOption.any fun w =>
          (w.offered (.portAw 1)).isSome && (w.moved (.portAw 1)).isNone)
        && s.tick.result.toOption.any fun s' =>
          (Operation.apply s' (.push 1 [⟨9, true⟩])).toOption.isSome) = true := by
    decide +kernel
  obtain ⟨s₀, past, s, h₀, h, hlook⟩ := Machine.exists_of_trial hrun
  rw [Bool.and_eq_true, Option.any_eq_true, Option.any_eq_true] at hlook
  obtain ⟨⟨w, hw, hstalls⟩, s', hs', hpushed⟩ := hlook
  obtain ⟨t, ht⟩ := Option.isSome_iff_exists.mp hpushed
  have hw : s.wires = .ok w := ok_of_toOption hw
  have hs' : s.tick.result = .ok s' := ok_of_toOption hs'
  have ht : Operation.apply s' (.push 1 [⟨9, true⟩]) = .ok t := ok_of_toOption ht
  rw [Bool.and_eq_true, Option.isNone_iff_eq_none] at hstalls
  obtain ⟨x, hx⟩ := Option.isSome_iff_exists.mp hstalls.1
  have hr : Machine.Reachable { ports := [{}, {}] } s := ⟨s₀, past, h₀, h⟩
  obtain ⟨w', hw', hagain⟩ := stalled_payload_stays (by decide) hr hw hs'
    (History.start.step ht) (by simp) hx hstalls.2
  exact ⟨s, s', t, w, w', x, hr, hw, hs', ht, hw', hx, hstalls.2, hagain⟩

end BurstDma
