import BurstDma.Proofs.Shape

/-!
# Writes in flight

At most one write burst is open at any time. The lock of the arbiter says whose it is and
how far it is; the memory and the port that owns it agree with that, and every other port
waits. `Machine.WriteMove` lists what a clock cycle can do to the burst: nothing, open it,
send a word of it, send the last word, answer it. **The memory stores a burst in the cycle
of its last word**, so a word is gathered as long as its burst is open and stored
afterwards.
-/

namespace BurstDma

/-- Which handshakes a port sees in a cycle. -/
structure WriteBus.Fires (b : WriteBus) (aw w : Bool) (resp : Option WriteResp) : Prop where
  aw : b.awFired.isSome = aw
  w : b.wFired.isSome = w
  b : b.bFired = resp

namespace WriteLock

/-- The number of bursts of requester `i` that are open. -/
def openFor (i : Nat) : WriteLock → Nat
  | select => 0
  | writeChannel id _ => if id = i then 1 else 0
  | addressChannel id => if id = i then 1 else 0
  | responseChannel id => if id = i then 1 else 0

theorem ne_of_openFor {i : Nat} {lock : WriteLock} (h : lock.openFor i = 0) :
    lock ≠ .writeChannel i true := by
  rintro rfl
  simp [openFor] at h

end WriteLock

/-- What a memory holds of the open burst, as the lock says it; there are `n` ports. -/
inductive Memory.Stage (n : Nat) (m : Memory) : WriteLock → Prop where
  | select : m.aw = none → m.collected = [] → m.dataDone = false → m.response = none →
      Stage n m .select
  | data (id : Nat) (r : AddrReq) : id < n → m.aw = some r → r.id = id → m.dataDone = false →
      m.response = none → Stage n m (.writeChannel id true)
  | answer (id : Nat) (resp : Resp) (due : Nat) : id < n → m.aw = none → m.collected = [] →
      m.dataDone = false → m.response = some (⟨id, resp⟩, due) → Stage n m (.responseChannel id)

namespace Memory.Stage

variable {n id : Nat} {m : Memory}

theorem data_inv (h : m.Stage n (.writeChannel id true)) :
    id < n ∧ ∃ r, m.aw = some r ∧ r.id = id ∧ m.dataDone = false ∧ m.response = none := by
  cases h with
  | data _ r hid ha hr hd hresp => exact ⟨hid, r, ha, hr, hd, hresp⟩

theorem answer_inv (h : m.Stage n (.responseChannel id)) :
    id < n ∧ ∃ resp due, m.aw = none ∧ m.collected = [] ∧ m.dataDone = false
      ∧ m.response = some (⟨id, resp⟩, due) := by
  cases h with
  | answer _ resp due hid ha hc hd hr => exact ⟨hid, resp, due, ha, hc, hd, hr⟩

theorem dataDone_eq {lock : WriteLock} (h : m.Stage n lock) : m.dataDone = false := by
  cases h with
  | select _ _ hd _ => exact hd
  | data _ _ _ _ _ hd _ => exact hd
  | answer _ _ _ _ _ _ hd _ => exact hd

/-- The stage is a matter of four registers. -/
theorem of_eq {m' : Memory} {lock : WriteLock} (h : m.Stage n lock) (haw : m'.aw = m.aw)
    (hcol : m'.collected = m.collected) (hdone : m'.dataDone = m.dataDone)
    (hresp : m'.response = m.response) : m'.Stage n lock := by
  cases h with
  | select ha hc hd hr =>
      exact .select (haw.trans ha) (hcol.trans hc) (hdone.trans hd) (hresp.trans hr)
  | data id r hid ha hrid hd hr =>
      exact .data id r hid (haw.trans ha) hrid (hdone.trans hd) (hresp.trans hr)
  | answer id resp due hid ha hc hd hr =>
      exact .answer id resp due hid (haw.trans ha) (hcol.trans hc) (hdone.trans hd)
        (hresp.trans hr)

end Memory.Stage

/-- What port `i` knows of the open burst. -/
structure WriteCore.Knows (m : Memory) (lock : WriteLock) (i : Nat) (c : WriteCore) :
    Prop where
  offers : c.Offers
  sending : c.phase = .transferBurst ↔ lock = .writeChannel i true
  outstanding : c.outstanding = lock.openFor i
  burst : lock = .writeChannel i true → ∃ r, m.aw = some r ∧ r.addr = c.addr
    ∧ r.beats = c.burst ∧ m.collected.length = c.beat

namespace Machine

/-- The lock, the memory and the ports agree on the open burst. -/
structure WriteOrderly (s : Machine) : Prop where
  stage : s.memory.Stage s.ports.length s.writeArbiter.lock
  port : ∀ (i : Nat) (p : Port), s.ports[i]? = some p →
    p.writer.core.Knows s.memory s.writeArbiter.lock i

/-- What a clock cycle does to the open burst. -/
inductive WriteMove (s s' : Machine) : Prop where
  | rest : (∀ (i : Nat) (p : Port), s.ports[i]? = some p →
        (s.writeBus i p).Fires false false none) →
      s'.writeArbiter.lock = s.writeArbiter.lock → s'.memory.aw = s.memory.aw →
      s'.memory.collected = s.memory.collected →
      s.memory.completes? s.writes.down = none → WriteMove s s'
  | start (id : Nat) (p : Port) : s.ports[id]? = some p →
      p.writer.core.phase = .issueBurst →
      (∀ (i : Nat) (q : Port), s.ports[i]? = some q →
        (s.writeBus i q).Fires (i == id) false none) →
      s.writeArbiter.lock = .select → s'.writeArbiter.lock = .writeChannel id true →
      s'.memory.aw = some { p.writer.core.request with id } → s'.memory.collected = [] →
      s.memory.completes? s.writes.down = none → WriteMove s s'
  | send (id : Nat) (p : Port) (head : Beat) : s.ports[id]? = some p →
      p.writeFifo.head? = some head → p.writer.core.onLastBeat = false →
      (∀ (i : Nat) (q : Port), s.ports[i]? = some q →
        (s.writeBus i q).Fires false (i == id) none) →
      s.writeArbiter.lock = .writeChannel id true →
      s'.writeArbiter.lock = .writeChannel id true → s'.memory.aw = s.memory.aw →
      s'.memory.collected = s.memory.collected ++ [⟨head.data, false⟩] →
      s.memory.completes? s.writes.down = none → WriteMove s s'
  | close (id : Nat) (p : Port) (head : Beat) (r : AddrReq) : s.ports[id]? = some p →
      p.writeFifo.head? = some head → p.writer.core.onLastBeat = true →
      (∀ (i : Nat) (q : Port), s.ports[i]? = some q →
        (s.writeBus i q).Fires false (i == id) none) →
      s.writeArbiter.lock = .writeChannel id true →
      s'.writeArbiter.lock = .responseChannel id → s.memory.aw = some r → r.id = id →
      s.memory.completes? s.writes.down
        = some (r, s.memory.collected ++ [⟨head.data, true⟩]) → WriteMove s s'
  | answer (id : Nat) (resp : Resp) :
      (∀ (i : Nat) (q : Port), s.ports[i]? = some q →
        (s.writeBus i q).Fires false false (if i = id then some ⟨id, resp⟩ else none)) →
      s.writeArbiter.lock = .responseChannel id → s'.writeArbiter.lock = .select →
      s.memory.completes? s.writes.down = none → WriteMove s s'

end Machine

/-! ## The wires of a cycle -/

namespace WriteArbiter

/-- The lock alone names the owner, except while the arbiter selects. -/
theorem owner_eq {a : WriteArbiter} {lock : WriteLock} (h : a.lock = lock) :
    a.owner = lock.owner a.selected := by
  rw [owner, h]

/-- The lock after a clock edge. -/
def nextLock (a : WriteArbiter) (bus : WriteBus) : WriteLock :=
  match a.lock with
  | .select =>
    if bus.awFired.isSome || bus.wFired.isSome then
      lockFor a.selected bus.awFired.isSome (bus.wFired.any (·.last))
    else .select
  | .writeChannel id addrDone =>
    lockFor id (addrDone || bus.awFired.isSome) (bus.wFired.any (·.last))
  | .addressChannel id => lockFor id bus.awFired.isSome true
  | .responseChannel id => if bus.bFired.isSome then .select else .responseChannel id

theorem tick_lock {a a' : WriteArbiter} {w : WriteWires} (h : (a.tick w).result = .ok a') :
    a'.lock = a.nextLock w.down := by
  unfold tick at h
  unfold nextLock
  dsimp only at h
  cases hl : a.lock with
  | select =>
      rw [hl] at h
      dsimp only at h ⊢
      split at h
      · rename_i hf
        rw [if_pos hf]
        cases h
        rfl
      · rename_i hf
        rw [if_neg hf]
        split at h
        · cases h
          rfl
        · cases h
          exact hl
  | writeChannel id addrDone =>
      rw [hl] at h
      cases h
      rfl
  | addressChannel id =>
      rw [hl] at h
      cases h
      rfl
  | responseChannel id =>
      rw [hl] at h
      dsimp only at h ⊢
      split at h
      · rename_i hf
        rw [if_pos hf]
        cases h
        rfl
      · rename_i hf
        rw [if_neg hf]
        cases h
        exact hl

end WriteArbiter

namespace Memory

variable {m m' : Memory} {bus : WriteBus}

/-- A cycle without the last word of a burst stores nothing. -/
theorem wait_of_open (h : m.WriteEdge bus m')
    (hopen : (m.collect bus).dataDone = false ∨ (m.collect bus).aw = none) :
    m.completes? bus = none ∧ m'.aw = (m.collect bus).aw
      ∧ m'.collected = (m.collect bus).collected ∧ m'.dataDone = (m.collect bus).dataDone
      ∧ m'.response = (m.collect bus).response := by
  have hnone : m.completes? bus = none := by
    unfold completes?
    dsimp only
    split
    · rename_i aw hd ha
      rw [hd, ha] at hopen
      rcases hopen with hc | hc <;> cases hc
    · rfl
  cases h with
  | wait _ _ ha hc hd hr => exact ⟨hnone, ha, hc, hd, hr⟩
  | store aw beats resp due hsome =>
      rw [hnone] at hsome
      cases hsome

/-- The last word of a burst stores it. -/
theorem store_of_complete {r : AddrReq} (h : m.WriteEdge bus m')
    (hdone : (m.collect bus).dataDone = true) (haw : (m.collect bus).aw = some r) :
    m.completes? bus = some (r, (m.collect bus).collected) ∧ m'.aw = none
      ∧ m'.collected = [] ∧ m'.dataDone = false
      ∧ ∃ resp due, m'.response = some (⟨r.id, resp⟩, due) := by
  have hsome : m.completes? bus = some (r, (m.collect bus).collected) := by
    unfold completes?
    dsimp only
    rw [hdone, haw]
  cases h with
  | wait hnone =>
      rw [hsome] at hnone
      cases hnone
  | store aw beats resp due hstore _ ha hc hd hr =>
      rw [hsome] at hstore
      cases hstore
      exact ⟨hsome, ha, hc, hd, resp, due, hr⟩

theorem collect_eq (m : Memory) {bus : WriteBus} {aw : Option AddrReq} {w : Option WriteBeat}
    {b : Option WriteResp} (haw : bus.awFired = aw) (hw : bus.wFired = w) (hb : bus.bFired = b) :
    (m.collect bus).aw = aw.or m.aw
      ∧ (m.collect bus).collected = m.collected ++ w.toList
      ∧ (m.collect bus).dataDone = (w.map (·.last)).getD m.dataDone
      ∧ (m.collect bus).response = if b.isSome then none else m.response := by
  subst haw hw hb
  unfold collect
  cases bus.awFired <;> cases bus.wFired <;> cases bus.bFired <;> simp

end Memory

namespace Machine

variable {s s' : Machine} {slave : ReadSlave} {i : Nat} {p : Port}

/-- A port that is not connected sees nothing. -/
theorem fires_of_ne (hi : i ≠ s.writeArbiter.owner) :
    (s.writeBus i p).Fires false false none := by
  have hslave : s.writeArbiter.toRequester s.memory.writeWires i = {} := if_neg hi
  unfold writeBus
  rw [hslave]
  refine ⟨rfl, rfl, ?_⟩
  show (if p.writeWires.bReady then none else none) = none
  split <;> rfl

/-- What moves between the arbiter and the memory moves at the owner's port. -/
theorem owner_fires (hp : s.ports[s.writeArbiter.owner]? = some p) :
    s.writes.down.awFired
        = ((s.writeBus s.writeArbiter.owner p).awFired.map fun r =>
          { r with id := s.writeArbiter.owner })
      ∧ s.writes.down.wFired = (s.writeBus s.writeArbiter.owner p).wFired
      ∧ s.writes.down.bFired = (s.writeBus s.writeArbiter.owner p).bFired := by
  have howner : s.writeArbiter.ownerWires (s.ports.map (·.writeWires)) = p.writeWires := by
    unfold WriteArbiter.ownerWires
    rw [List.getElem?_map, hp]
    rfl
  have hready : p.writeWires.bReady = true := rfl
  simp only [writes, WriteArbiter.resolve, WriteArbiter.toMemory, howner, writeBus,
    WriteArbiter.toRequester, if_true, WriteBus.awFired, WriteBus.wFired, WriteBus.bFired, hready]
  cases s.writeArbiter.lock.addressOpen <;> cases s.writeArbiter.lock.dataOpen <;>
    cases s.writeArbiter.lock.responseOpen <;> cases s.memory.writeWires.awReady <;>
    cases s.memory.writeWires.wReady <;> simp

/-- Without an owner nothing moves. -/
theorem no_owner_fires (hp : s.ports[s.writeArbiter.owner]? = none)
    (hl : s.writeArbiter.lock.responseOpen = false) :
    s.writes.down.awFired = none ∧ s.writes.down.wFired = none ∧ s.writes.down.bFired = none := by
  have howner : s.writeArbiter.ownerWires (s.ports.map (·.writeWires)) = {} := by
    unfold WriteArbiter.ownerWires
    rw [List.getElem?_map, hp]
    rfl
  simp only [writes, WriteArbiter.resolve, WriteArbiter.toMemory, howner, WriteBus.awFired,
    WriteBus.wFired, WriteBus.bFired, hl]
  simp

/-- What the owner's port sees. -/
theorem owner_bus (s : Machine) (p : Port) :
    (s.writeBus s.writeArbiter.owner p).awFired
        = (if s.writeArbiter.lock.addressOpen && s.memory.writeWires.awReady then
            p.writeWires.aw else none)
      ∧ (s.writeBus s.writeArbiter.owner p).wFired
        = (if s.writeArbiter.lock.dataOpen && s.memory.writeWires.wReady then
            p.writeWires.w else none)
      ∧ (s.writeBus s.writeArbiter.owner p).bFired
        = (if s.writeArbiter.lock.responseOpen then s.memory.writeWires.b else none) := by
  have hslave : s.writeArbiter.toRequester s.memory.writeWires s.writeArbiter.owner
      = { awReady := s.writeArbiter.lock.addressOpen && s.memory.writeWires.awReady
          wReady := s.writeArbiter.lock.dataOpen && s.memory.writeWires.wReady
          b := if s.writeArbiter.lock.responseOpen then s.memory.writeWires.b else none } :=
    if_pos rfl
  unfold writeBus
  rw [hslave]
  exact ⟨rfl, rfl, rfl⟩

/-- If the owner's port sees nothing, no port does, and nothing reaches the memory. -/
theorem rest_of_owner (hl : s.writeArbiter.lock.responseOpen = false)
    (hp : ∀ p, s.ports[s.writeArbiter.owner]? = some p →
      (s.writeBus s.writeArbiter.owner p).Fires false false none) :
    (∀ (i : Nat) (q : Port), s.ports[i]? = some q → (s.writeBus i q).Fires false false none)
      ∧ s.writes.down.awFired = none ∧ s.writes.down.wFired = none
      ∧ s.writes.down.bFired = none := by
  refine ⟨?_, ?_⟩
  · intro i q hq
    by_cases hi : i = s.writeArbiter.owner
    · subst hi
      exact hp q hq
    · exact fires_of_ne hi
  · cases ho : s.ports[s.writeArbiter.owner]? with
    | none => exact no_owner_fires ho hl
    | some p =>
        obtain ⟨haw, hw, hb⟩ := hp p ho
        obtain ⟨hdaw, hdw, hdb⟩ := owner_fires ho
        rw [hdaw, hdw, hdb, hb]
        rw [Option.isSome_eq_false_iff, Option.isNone_iff_eq_none] at haw hw
        rw [haw, hw]
        exact ⟨rfl, rfl, rfl⟩

/-- What the owner sees, the other ports do not. -/
theorem fires_of_owner {id : Nat} {aw w : Bool} {resp : Option WriteResp}
    (howner : s.writeArbiter.owner = id) (hp : s.ports[id]? = some p)
    (hf : (s.writeBus id p).Fires aw w resp) (i : Nat) (q : Port) (hq : s.ports[i]? = some q) :
    (s.writeBus i q).Fires (aw && i == id) (w && i == id) (if i = id then resp else none) := by
  by_cases hi : i = id
  · subst hi
    rw [hp] at hq
    cases hq
    rw [beq_self_eq_true, Bool.and_true, Bool.and_true, if_pos rfl]
    exact hf
  · rw [beq_eq_false_iff_ne.mpr hi, Bool.and_false, Bool.and_false, if_neg hi]
    exact fires_of_ne (by rw [howner]; exact hi)

/-! ## The moves -/

/-- A cycle without a handshake leaves everything as it was. -/
theorem move_of_rest (ho : s.WriteOrderly) (h : s.Edge slave s')
    (hfires : ∀ (i : Nat) (q : Port), s.ports[i]? = some q →
      (s.writeBus i q).Fires false false none)
    (hdown : s.writes.down.awFired = none ∧ s.writes.down.wFired = none
      ∧ s.writes.down.bFired = none)
    (hlock : s'.writeArbiter.lock = s.writeArbiter.lock) :
    WriteMove s s' ∧ s'.memory.Stage s.ports.length s'.writeArbiter.lock := by
  obtain ⟨hdaw, hdw, hdb⟩ := hdown
  obtain ⟨hca, hcc, hcd, hcr⟩ := s.memory.collect_eq hdaw hdw hdb
  obtain ⟨hnone, hma, hmc, hmd, hmr⟩ := Memory.wait_of_open (Memory.tick_writeEdge h.memory)
    (Or.inl (hcd.trans ho.stage.dataDone_eq))
  have haw : s'.memory.aw = s.memory.aw := hma.trans hca
  have hcol : s'.memory.collected = s.memory.collected := by
    rw [hmc, hcc]
    exact List.append_nil _
  refine ⟨.rest hfires hlock haw hcol hnone, ?_⟩
  rw [hlock]
  exact ho.stage.of_eq haw hcol (hmd.trans hcd) (hmr.trans hcr)

/-- Without an open burst no port has data to send. -/
theorem no_data_of_select (ho : s.WriteOrderly) (hl : s.writeArbiter.lock = .select) {i : Nat}
    {p : Port} (hp : s.ports[i]? = some p) : p.writeWires.w = none := by
  refine if_neg fun hph => ?_
  have hlock := (ho.port i p hp).sending.mp hph
  rw [hl] at hlock
  cases hlock

/-- The selected port opens a burst. -/
theorem start_of_select (ho : s.WriteOrderly) (h : s.Edge slave s')
    (hl : s.writeArbiter.lock = .select) (hp : s.ports[s.writeArbiter.owner]? = some p)
    (hph : p.writer.core.phase = .issueBurst) :
    WriteMove s s' ∧ s'.memory.Stage s.ports.length s'.writeArbiter.lock := by
  have hlock := WriteArbiter.tick_lock h.writeArbiter
  have hstage := ho.stage
  rw [hl] at hstage
  obtain ⟨ha, hc, hd, hr⟩ := hstage
  have hready : s.memory.writeWires.awReady = true := by
    simp [Memory.writeWires, ha, hr]
  have hreq : p.writeWires.aw = some p.writer.core.request := if_pos hph
  obtain ⟨haw, hw, hb⟩ := s.owner_bus p
  obtain ⟨hdaw, hdw, hdb⟩ := owner_fires hp
  rw [hl, hready, hreq] at haw
  rw [hl, no_data_of_select ho hl hp, ite_self] at hw
  rw [hl] at hb
  have haw' : (s.writeBus s.writeArbiter.owner p).awFired = some p.writer.core.request := haw
  have hb' : (s.writeBus s.writeArbiter.owner p).bFired = none := hb
  rw [haw'] at hdaw
  rw [hw] at hdw
  rw [hb'] at hdb
  obtain ⟨hca, hcc, hcd, hcr⟩ := s.memory.collect_eq hdaw hdw hdb
  obtain ⟨hnone, hma, hmc, hmd, hmr⟩ := Memory.wait_of_open (Memory.tick_writeEdge h.memory)
    (Or.inl (hcd.trans hd))
  have howner : s.writeArbiter.selected = s.writeArbiter.owner :=
    (WriteArbiter.owner_eq hl).symm
  have hlock' : s'.writeArbiter.lock = .writeChannel s.writeArbiter.owner true := by
    unfold WriteArbiter.nextLock at hlock
    rw [hlock, hl, hdaw, hdw, howner]
    rfl
  have haw'' : s'.memory.aw
      = some { p.writer.core.request with id := s.writeArbiter.owner } := hma.trans hca
  refine ⟨.start s.writeArbiter.owner p hp hph ?_ hl hlock' haw'' ?_ hnone, ?_⟩
  · intro i q hq
    have hf := fires_of_owner rfl hp
      ⟨congrArg Option.isSome haw', congrArg Option.isSome hw, hb'⟩ i q hq
    rwa [ite_self] at hf
  · rw [hmc, hcc, hc]
    rfl
  · rw [hlock']
    refine .data _ _ ?_ haw'' rfl ?_ ?_
    · exact (List.getElem?_eq_some_iff.mp hp).1
    · rw [hmd, hcd, hd]
      rfl
    · rw [hmr, hcr, hr]
      rfl

/-- Without an open burst the selected port may open one. -/
theorem move_of_select (ho : s.WriteOrderly) (h : s.Edge slave s')
    (hl : s.writeArbiter.lock = .select) :
    WriteMove s s' ∧ s'.memory.Stage s.ports.length s'.writeArbiter.lock := by
  by_cases hissue : ∃ p, s.ports[s.writeArbiter.owner]? = some p
      ∧ p.writer.core.phase = .issueBurst
  · obtain ⟨p, hp, hph⟩ := hissue
    exact start_of_select ho h hl hp hph
  · obtain ⟨hfires, hdown⟩ := rest_of_owner (s := s) (by rw [hl]; rfl) (by
      intro p hp
      obtain ⟨haw, hw, hb⟩ := s.owner_bus p
      have hnoreq : p.writeWires.aw = none := if_neg fun hph => hissue ⟨p, hp, hph⟩
      rw [hnoreq, ite_self] at haw
      rw [no_data_of_select ho hl hp, ite_self] at hw
      rw [hl] at hb
      exact ⟨congrArg Option.isSome haw, congrArg Option.isSome hw, hb⟩)
    have hlock := WriteArbiter.tick_lock h.writeArbiter
    unfold WriteArbiter.nextLock at hlock
    rw [hl, hdown.1, hdown.2.1] at hlock
    exact move_of_rest ho h hfires hdown (hlock.trans hl.symm)

/-- While a burst is open, its owner is a port that sends it. -/
theorem owner_of_data {id : Nat} (ho : s.WriteOrderly)
    (hl : s.writeArbiter.lock = .writeChannel id true) :
    ∃ p, s.ports[id]? = some p ∧ s.writeArbiter.owner = id
      ∧ (s.writeBus id p).awFired = none
      ∧ (s.writeBus id p).wFired
        = (p.writeFifo.head?.map fun head => ⟨head.data, p.writer.core.onLastBeat⟩)
      ∧ (s.writeBus id p).bFired = none := by
  have hstage := ho.stage
  rw [hl] at hstage
  obtain ⟨hid, r, ha, hrid, hd, hr⟩ := hstage.data_inv
  have hp := List.getElem?_eq_getElem hid
  have hready : s.memory.writeWires.wReady = true := by
    simp [Memory.writeWires, hd, hr]
  have howner : s.writeArbiter.owner = id := WriteArbiter.owner_eq hl
  have hwire : s.ports[id].writeWires.w = s.ports[id].writeFifo.head?.map fun head =>
      ⟨head.data, s.ports[id].writer.core.onLastBeat⟩ :=
    if_pos ((ho.port id _ hp).sending.mpr hl)
  obtain ⟨haw, hw, hb⟩ := s.owner_bus s.ports[id]
  rw [hl, howner] at haw hb
  rw [hl, hready, hwire, howner] at hw
  exact ⟨s.ports[id], hp, howner, haw, hw, hb⟩

/-- The owner of the open burst may send a word of it, the last one at the end. -/
theorem move_of_data {id : Nat} (ho : s.WriteOrderly) (h : s.Edge slave s')
    (hl : s.writeArbiter.lock = .writeChannel id true) :
    WriteMove s s' ∧ s'.memory.Stage s.ports.length s'.writeArbiter.lock := by
  have hlock := WriteArbiter.tick_lock h.writeArbiter
  have hedge := Memory.tick_writeEdge h.memory
  have hstage := ho.stage
  rw [hl] at hstage
  obtain ⟨hid, r, ha, hrid, hd, hr⟩ := hstage.data_inv
  obtain ⟨p, hp, howner, haw, hw, hb⟩ := owner_of_data ho hl
  -- what the memory sees is what the owner sees
  obtain ⟨hdaw, hdw, hdb⟩ := owner_fires (s := s) (p := p) (by rw [howner]; exact hp)
  rw [howner, haw] at hdaw
  rw [howner, hw] at hdw
  rw [howner, hb] at hdb
  unfold WriteArbiter.nextLock at hlock
  rw [hl, hdaw, hdw] at hlock
  have hfires := fires_of_owner howner hp ⟨congrArg Option.isSome haw, rfl, hb⟩
  rw [hw] at hfires
  cases hhead : p.writeFifo.head? with
  | none =>
      rw [hhead] at hdw hlock hfires
      refine move_of_rest ho h ?_ ⟨hdaw, hdw, hdb⟩ (hlock.trans hl.symm)
      intro i q hq
      have hf := hfires i q hq
      rwa [ite_self] at hf
  | some head =>
      rw [hhead] at hdw hlock hfires
      have hfires' : ∀ (i : Nat) (q : Port), s.ports[i]? = some q →
          (s.writeBus i q).Fires false (i == id) none := by
        intro i q hq
        have hf := hfires i q hq
        rwa [ite_self] at hf
      obtain ⟨hca, hcc, hcd, hcr⟩ := s.memory.collect_eq hdaw hdw hdb
      cases hlast : p.writer.core.onLastBeat with
      | false =>
          rw [hlast] at hcd hcc hlock
          obtain ⟨hnone, hma, hmc, hmd, hmr⟩ := Memory.wait_of_open hedge (Or.inl hcd)
          have hlock' : s'.writeArbiter.lock = .writeChannel id true := hlock
          refine ⟨.send id p head hp hhead hlast hfires' hl hlock' (hma.trans hca)
            (hmc.trans hcc) hnone, ?_⟩
          rw [hlock']
          refine .data id r hid (hma.trans (hca.trans ha)) hrid (hmd.trans hcd) ?_
          rw [hmr, hcr, hr]
          rfl
      | true =>
          rw [hlast] at hcd hcc hlock
          -- the memory stores the burst in this very cycle
          obtain ⟨hsome, hma, hmc, hmd, resp, due, hmr⟩ :=
            Memory.store_of_complete hedge hcd (hca.trans ha)
          have hlock' : s'.writeArbiter.lock = .responseChannel id := hlock
          have hcc' : (s.memory.collect s.writes.down).collected
              = s.memory.collected ++ [⟨head.data, true⟩] := hcc
          rw [hcc'] at hsome
          refine ⟨.close id p head r hp hhead hlast hfires' hl hlock' ha hrid hsome, ?_⟩
          rw [hlock']
          rw [hrid] at hmr
          exact .answer id resp due hid hma hmc hmd hmr

/-- The owner of the burst that was sent may get its answer. -/
theorem move_of_answer {id : Nat} (ho : s.WriteOrderly) (h : s.Edge slave s')
    (hl : s.writeArbiter.lock = .responseChannel id) :
    WriteMove s s' ∧ s'.memory.Stage s.ports.length s'.writeArbiter.lock := by
  have hlock := WriteArbiter.tick_lock h.writeArbiter
  have hstage := ho.stage
  rw [hl] at hstage
  obtain ⟨hid, resp, due, ha, hc, hd, hr⟩ := hstage.answer_inv
  have howner : s.writeArbiter.owner = id := WriteArbiter.owner_eq hl
  obtain ⟨p, hp⟩ : ∃ p, s.ports[id]? = some p := ⟨_, List.getElem?_eq_getElem hid⟩
  obtain ⟨haw, hw, hb⟩ := s.owner_bus p
  obtain ⟨hdaw, hdw, hdb⟩ := owner_fires (s := s) (p := p) (by rw [howner]; exact hp)
  rw [hl, howner] at haw hw hb
  have haw' : (s.writeBus id p).awFired = none := haw
  have hw' : (s.writeBus id p).wFired = none := hw
  have hb' : (s.writeBus id p).bFired = s.memory.writeWires.b := hb
  rw [howner, haw'] at hdaw
  rw [howner, hw'] at hdw
  rw [howner, hb'] at hdb
  unfold WriteArbiter.nextLock at hlock
  rw [hl, hdb] at hlock
  have hfires := fires_of_owner howner hp
    ⟨congrArg Option.isSome haw', congrArg Option.isSome hw', hb'⟩
  have hwire : s.memory.writeWires.b
      = (s.memory.response.filter (·.2 ≤ s.memory.cycle)).map (·.1) := rfl
  -- the answer is shown once it is due
  by_cases hdue : due ≤ s.memory.cycle
  · have hb'' : s.memory.writeWires.b = some ⟨id, resp⟩ := by
      rw [hwire, hr]
      simp [hdue]
    rw [hb''] at hlock hfires hdb
    obtain ⟨hca, hcc, hcd, hcr⟩ := s.memory.collect_eq hdaw hdw hdb
    obtain ⟨hnone, hma, hmc, hmd, hmr⟩ := Memory.wait_of_open (Memory.tick_writeEdge h.memory)
      (Or.inl (hcd.trans hd))
    have hlock' : s'.writeArbiter.lock = .select := hlock
    refine ⟨.answer id resp hfires hl hlock' hnone, ?_⟩
    rw [hlock']
    refine .select (hma.trans (hca.trans ha)) ?_ (hmd.trans (hcd.trans hd)) (hmr.trans hcr)
    rw [hmc, hcc, hc]
    rfl
  · have hb'' : s.memory.writeWires.b = none := by
      rw [hwire, hr]
      simpa using hdue
    rw [hb''] at hlock hfires hdb
    refine move_of_rest ho h ?_ ⟨hdaw, hdw, hdb⟩ (hlock.trans hl.symm)
    intro i q hq
    have hf := hfires i q hq
    rwa [ite_self] at hf

/-- **Every cycle makes one of the moves.** -/
theorem write_move (ho : s.WriteOrderly) (h : s.Edge slave s') :
    WriteMove s s' ∧ s'.memory.Stage s.ports.length s'.writeArbiter.lock := by
  cases hl : s.writeArbiter.lock with
  | select => exact move_of_select ho h hl
  | writeChannel id addrDone =>
      cases addrDone with
      | true => exact move_of_data ho h hl
      | false =>
          have hstage := ho.stage
          rw [hl] at hstage
          cases hstage
  | addressChannel id =>
      have hstage := ho.stage
      rw [hl] at hstage
      cases hstage
  | responseChannel id => exact move_of_answer ho h hl

/-! ## The ports -/

variable {p' : Port} {rstep : ReadStep} {wstep : WriteStep}

/-- An address moves only while it is offered, and data only while a burst is open. -/
theorem phase_of_fires (s : Machine) (i : Nat) (p : Port) :
    ((s.writeBus i p).awFired.isSome = true → p.writer.core.phase = .issueBurst)
      ∧ ((s.writeBus i p).wFired.isSome = true →
        p.writer.core.phase = .transferBurst ∧ p.writeFifo.head?.isSome = true) := by
  -- the wires are driven by the phase alone
  have haw : p.writeWires.aw
      = if p.writer.core.phase = .issueBurst then some p.writer.core.request else none := rfl
  have hw : p.writeWires.w = if p.writer.core.phase = .transferBurst then
      p.writeFifo.head?.map fun head => ⟨head.data, p.writer.core.onLastBeat⟩ else none := rfl
  unfold WriteBus.awFired WriteBus.wFired writeBus
  dsimp only
  rw [haw, hw]
  refine ⟨?_, ?_⟩
  · split
    · split
      · intro _; assumption
      · intro h; cases h
    · intro h; cases h
  · split
    · split
      · rename_i hph
        rw [Option.isSome_map]
        exact fun h => ⟨hph, h⟩
      · intro h; cases h
    · intro h; cases h

theorem served_edge (h : p.Edge (s.readBus slave i p) (s.writeBus i p) rstep wstep p') :
    p.writer.core.Served (p.writeInputs (s.writeBus i p)) p'.writer.core wstep := by
  obtain ⟨haw, hw⟩ := s.phase_of_fires i p
  obtain ⟨hcore, _⟩ := WriteEngine.tick_core h.writer
  exact WriteCore.next_served haw (fun h => (hw h).1) hcore

/-- What the handshakes of a cycle make of a port. -/
theorem fires_edge {aw w : Bool} {resp : Option WriteResp}
    (hf : (s.writeBus i p).Fires aw w resp)
    (h : p.Edge (s.readBus slave i p) (s.writeBus i p) rstep wstep p') :
    p'.writer.core.outstanding
        = p.writer.core.outstanding - resp.toList.length + (if aw then 1 else 0)
      ∧ (p'.writer.core.phase = .transferBurst ↔ aw = true ∨ p.writer.core.phase = .transferBurst
          ∧ ¬ (w = true ∧ p.writer.core.onLastBeat = true))
      ∧ (aw = true → p'.writer.core.beat = 0 ∧ p'.writer.core.addr = p.writer.core.addr
          ∧ p'.writer.core.burst = p.writer.core.burst)
      ∧ (p.writer.core.phase = .transferBurst → p'.writer.core.phase = .transferBurst →
          p'.writer.core.beat = p.writer.core.beat + (if w then 1 else 0)
          ∧ p'.writer.core.addr = p.writer.core.addr
          ∧ p'.writer.core.burst = p.writer.core.burst)
      ∧ wstep.pop = w
      ∧ wstep.issued = if aw then some ⟨p.writer.core.addr, p.writer.core.burst⟩ else none := by
  obtain ⟨rfl, rfl, rfl⟩ := hf
  have hv := served_edge h
  exact ⟨hv.outstanding, hv.sending, hv.opened, hv.kept, hv.pop, hv.issued⟩

/-- A port that sees no handshake knows what it knew. -/
theorem knows_of_quiet (hk : p.writer.core.Knows s.memory s.writeArbiter.lock i)
    (hf : (s.writeBus i p).Fires false false none)
    (h : p.Edge (s.readBus slave i p) (s.writeBus i p) rstep wstep p')
    (hlock : s'.writeArbiter.lock = .writeChannel i true
      ↔ s.writeArbiter.lock = .writeChannel i true)
    (hopen : s'.writeArbiter.lock.openFor i = s.writeArbiter.lock.openFor i)
    (hmem : s.writeArbiter.lock = .writeChannel i true →
      s'.memory.aw = s.memory.aw ∧ s'.memory.collected = s.memory.collected) :
    p'.writer.core.Knows s'.memory s'.writeArbiter.lock i := by
  obtain ⟨hout, hsend, _, hkept, _⟩ := fires_edge hf h
  have hphase : p'.writer.core.phase = .transferBurst
      ↔ p.writer.core.phase = .transferBurst := by
    rw [hsend]
    simp
  refine ⟨(served_edge h).offers hk.offers, ?_, ?_, ?_⟩
  · rw [hphase, hk.sending, hlock]
  · rw [hout, hopen, hk.outstanding]
    rfl
  · intro hl
    have hl' := hlock.mp hl
    obtain ⟨r, hr, haddr, hbeats, hlen⟩ := hk.burst hl'
    obtain ⟨haw, hcol⟩ := hmem hl'
    have hph := hk.sending.mpr hl'
    obtain ⟨hbeat, haddr', hburst'⟩ := hkept hph (hphase.mpr hph)
    refine ⟨r, haw.trans hr, haddr.trans haddr'.symm, hbeats.trans hburst'.symm, ?_⟩
    rw [hcol, hbeat, hlen]
    rfl

/-- Without a burst of its own a port knows little, and that stays true. -/
theorem knows_of_stranger (hk : p.writer.core.Knows s.memory s.writeArbiter.lock i)
    (hf : (s.writeBus i p).Fires false false none)
    (h : p.Edge (s.readBus slave i p) (s.writeBus i p) rstep wstep p')
    (hl : s.writeArbiter.lock.openFor i = 0) (hl' : s'.writeArbiter.lock.openFor i = 0) :
    p'.writer.core.Knows s'.memory s'.writeArbiter.lock i := by
  have hnot := WriteLock.ne_of_openFor hl
  have hnot' := WriteLock.ne_of_openFor hl'
  refine knows_of_quiet hk hf h ?_ (hl'.trans hl.symm) fun hc => absurd hc hnot
  exact ⟨fun hc => absurd hc hnot', fun hc => absurd hc hnot⟩

/-- What a port knows of the open burst stays true. -/
theorem knows_edge (hm : WriteMove s s') (hp : s.ports[i]? = some p)
    (hk : p.writer.core.Knows s.memory s.writeArbiter.lock i)
    (h : p.Edge (s.readBus slave i p) (s.writeBus i p) rstep wstep p') :
    p'.writer.core.Knows s'.memory s'.writeArbiter.lock i := by
  have hoff := (served_edge h).offers hk.offers
  cases hm with
  | rest hfires hlock haw hcol _ =>
      refine knows_of_quiet hk (hfires i p hp) h ?_ ?_ fun _ => ⟨haw, hcol⟩
      · rw [hlock]
      · rw [hlock]
  | start id q hq hph hfires hl hl' haw hcol _ =>
      by_cases hi : i = id
      · subst hi
        rw [hp] at hq
        cases hq
        have hf := hfires i p hp
        rw [beq_self_eq_true] at hf
        -- the address goes, and nothing has been gathered yet
        obtain ⟨hout, hsend, hopened, _⟩ := fires_edge hf h
        obtain ⟨hbeat, haddr, hburst⟩ := hopened rfl
        obtain ⟨hraddr, hrbeats⟩ := hk.offers hph
        refine ⟨hoff, ?_, ?_, fun _ => ⟨_, haw, ?_, ?_, ?_⟩⟩
        · rw [hl', hsend]
          simp
        · rw [hout, hk.outstanding, hl, hl']
          simp [WriteLock.openFor]
        · exact hraddr.trans haddr.symm
        · exact hrbeats.trans hburst.symm
        · rw [hcol, hbeat]
          rfl
      · have hf := hfires i p hp
        rw [beq_eq_false_iff_ne.mpr hi] at hf
        exact knows_of_stranger hk hf h (by rw [hl]; rfl) (by rw [hl']; exact if_neg (Ne.symm hi))
  | send id q head hq hhead hlast hfires hl hl' haw hcol _ =>
      by_cases hi : i = id
      · subst hi
        rw [hp] at hq
        cases hq
        have hf := hfires i p hp
        rw [beq_self_eq_true] at hf
        obtain ⟨hout, hsend, _, hkept, _⟩ := fires_edge hf h
        have hph := hk.sending.mpr hl
        have hph' : p'.writer.core.phase = .transferBurst := by
          rw [hsend, hlast]
          simp [hph]
        -- the memory gathers the word that the port counts
        obtain ⟨hbeat, haddr, hburst⟩ := hkept hph hph'
        obtain ⟨r, hr, hraddr, hrbeats, hlen⟩ := hk.burst hl
        refine ⟨hoff, ?_, ?_, fun _ => ⟨r, haw.trans hr, ?_, ?_, ?_⟩⟩
        · exact ⟨fun _ => hl', fun _ => hph'⟩
        · rw [hout, hk.outstanding, hl, hl']
          simp [WriteLock.openFor]
        · exact hraddr.trans haddr.symm
        · exact hrbeats.trans hburst.symm
        · rw [hcol, hbeat, List.length_append, hlen]
          rfl
      · have hf := hfires i p hp
        rw [beq_eq_false_iff_ne.mpr hi] at hf
        exact knows_of_stranger hk hf h (by rw [hl]; exact if_neg (Ne.symm hi))
          (by rw [hl']; exact if_neg (Ne.symm hi))
  | close id q head r hq hhead hlast hfires hl hl' hr hrid _ =>
      by_cases hi : i = id
      · subst hi
        rw [hp] at hq
        cases hq
        have hf := hfires i p hp
        rw [beq_self_eq_true] at hf
        obtain ⟨hout, hsend, _⟩ := fires_edge hf h
        refine ⟨hoff, ?_, ?_, ?_⟩
        · rw [hsend, hlast, hl']
          simp
        · rw [hout, hk.outstanding, hl, hl']
          simp [WriteLock.openFor]
        · rw [hl']
          intro hc; cases hc
      · have hf := hfires i p hp
        rw [beq_eq_false_iff_ne.mpr hi] at hf
        exact knows_of_stranger hk hf h (by rw [hl]; exact if_neg (Ne.symm hi))
          (by rw [hl']; exact if_neg (Ne.symm hi))
  | answer id resp hfires hl hl' _ =>
      have hf := hfires i p hp
      by_cases hi : i = id
      · subst hi
        rw [if_pos rfl] at hf
        obtain ⟨hout, hsend, _⟩ := fires_edge hf h
        -- an answered burst was sent to its end
        have hph : p.writer.core.phase ≠ .transferBurst := by
          intro hc
          rw [hk.sending, hl] at hc
          cases hc
        refine ⟨hoff, ?_, ?_, ?_⟩
        · rw [hsend, hl']
          simp [hph]
        · rw [hout, hk.outstanding, hl, hl']
          simp [WriteLock.openFor]
        · rw [hl']
          intro hc; cases hc
      · rw [if_neg hi] at hf
        exact knows_of_stranger hk hf h (by rw [hl]; exact if_neg (Ne.symm hi)) (by rw [hl']; rfl)

/-- **The agreement lasts.** -/
theorem writeOrderly_edge (ho : s.WriteOrderly) (h : s.Edge slave s') : s'.WriteOrderly := by
  obtain ⟨hm, hstage⟩ := write_move ho h
  refine ⟨?_, ?_⟩
  · rw [h.length]
    exact hstage
  · intro i p' hp'
    obtain ⟨p, rstep, wstep, hp, hedge⟩ := h.port' hp'
    exact knows_edge hm hp (ho.port i p hp) hedge

theorem writeOrderly_touched {op : Operation} (ho : s.WriteOrderly) (h : s.Touched op s') :
    s'.WriteOrderly := by
  refine ⟨?_, ?_⟩
  · rw [h.length, h.writeArbiter, h.memory]
    exact ho.stage.of_eq rfl rfl rfl rfl
  · intro i p' hp'
    obtain ⟨p, hp, hport⟩ := h.port' hp'
    rw [hport.writer, h.writeArbiter, h.memory]
    exact ⟨(ho.port i p hp).offers, (ho.port i p hp).sending, (ho.port i p hp).outstanding,
      (ho.port i p hp).burst⟩

/-- At rest there is nothing to agree on. -/
theorem writeOrderly_of_rest (hl : s.writeArbiter.lock = .select)
    (hm : s.memory.Stage s.ports.length .select)
    (hcore : ∀ (i : Nat) (p : Port), s.ports[i]? = some p →
      p.writer.core.phase = .idle ∧ p.writer.core.outstanding = 0) : s.WriteOrderly := by
  refine ⟨by rw [hl]; exact hm, ?_⟩
  intro i p hp
  obtain ⟨hph, ho⟩ := hcore i p hp
  rw [hl]
  refine ⟨?_, ?_, ho, ?_⟩
  · intro hc
    rw [hph] at hc
    cases hc
  · rw [hph]
    exact ⟨(by intro hc; cases hc), (by intro hc; cases hc)⟩
  · intro hc; cases hc

theorem writeOrderly_ofParams {params : MachineParams} (h : ofParams params = .ok s) :
    s.WriteOrderly := by
  have hget := getElem?_ofParams h
  obtain ⟨_, _, _, hwa, rfl⟩ := ofParams_eq_ok h
  obtain ⟨turn, _, hwa⟩ := except_bind_eq_ok.mp hwa
  cases hwa
  refine writeOrderly_of_rest rfl (.select rfl rfl rfl rfl) fun i p hp => ?_
  rw [hget] at hp
  obtain ⟨q, _, rfl⟩ := Option.map_eq_some_iff.mp hp
  exact ⟨rfl, rfl⟩

/-! ## Words on their way -/

/-- The words of an open burst of port `i` that the memory has gathered, with their
places. -/
def gathered (s : Machine) (i : Nat) : List (Place × Word) :=
  if s.writeArbiter.lock = .writeChannel i true then
    s.memory.aw.toList.flatMap fun r =>
      burstWrites s.memory.store.geometry r.addr s.memory.collected
  else []

/-- The beat that a port sends in a cycle is the oldest one of its buffer. -/
theorem writerPops_tick (hs : s.memory.readWires = .ok slave) (hp : s.ports[i]? = some p)
    (h : p.Edge (s.readBus slave i p) (s.writeBus i p) rstep wstep p') :
    Moment.writerPops i (s, .tick) = (if wstep.pop then p.writeFifo.head?.toList else [])
      ∧ (Moment.writerPops i (s, .tick)).length = if wstep.pop then 1 else 0 := by
  have hpops : Moment.writerPops i (s, .tick)
      = if wstep.pop then p.writeFifo.head?.toList else [] := by
    unfold Moment.writerPops
    rw [Moment.writerEdge_tick hs hp h]
    dsimp only
    rw [hp]
  refine ⟨hpops, ?_⟩
  rw [hpops]
  cases hpop : wstep.pop with
  | false => rfl
  | true =>
      have hfire : (s.writeBus i p).wFired.isSome = true := (served_edge h).pop.symm.trans hpop
      obtain ⟨_, hhead⟩ := (s.phase_of_fires i p).2 hfire
      obtain ⟨head, hhead⟩ := Option.isSome_iff_exists.mp hhead
      rw [hhead]
      rfl

/-- **What a clock cycle does to the words on their way.** -/
theorem gathered_edge (hm : WriteMove s s') (hs : s.memory.readWires = .ok slave)
    (hg : s'.memory.store.geometry = s.memory.store.geometry) (hp : s.ports[i]? = some p)
    (hk : p.writer.core.Knows s.memory s.writeArbiter.lock i)
    (h : p.Edge (s.readBus slave i p) (s.writeBus i p) rstep wstep p') :
    s.gathered i ++ (Moment.writerPops i (s, .tick)).map (fun b =>
        (s.memory.store.geometry.place (p.writer.core.nextAddr s.memory.store.geometry), b.data))
      = Moment.memoryStores i (s, .tick) ++ s'.gathered i := by
  obtain ⟨hpops, _⟩ := writerPops_tick hs hp h
  unfold gathered
  rw [hpops, Moment.memoryStores_tick hs, hg]
  -- a port that sees no data has no beat to account for
  have quiet : ∀ {aw : Bool} {resp : Option WriteResp}, (s.writeBus i p).Fires aw false resp →
      wstep.pop = false := by
    intro aw resp hf
    obtain ⟨_, _, _, _, hpop, _⟩ := fires_edge hf h
    exact hpop
  have counted : wstep.pop = true → p.writer.core.beat < limit32 := by
    obtain ⟨hcore, _⟩ := WriteEngine.tick_core h.writer
    exact WriteCore.beat_lt_of_pop hcore
  cases hm with
  | rest hfires hlock haw hcol hnone =>
      rw [quiet (hfires i p hp), hnone, hlock, haw, hcol]
      simp
  | start id q hq hph hfires hl hl' haw hcol hnone =>
      rw [quiet (hfires i p hp), hnone, hl, hl', haw, hcol]
      simp
  | send id q head hq hhead hlast hfires hl hl' haw hcol hnone =>
      rw [hnone, hl, hl', haw, hcol]
      have hf := hfires i p hp
      by_cases hi : i = id
      · subst hi
        rw [hp] at hq
        cases hq
        rw [beq_self_eq_true] at hf
        obtain ⟨_, _, _, _, hpop, _⟩ := fires_edge hf h
        obtain ⟨r, hr, haddr, _, hlen⟩ := hk.burst hl
        have hfew := Nat.lt_of_le_of_lt (Nat.le_of_eq hlen) (counted hpop)
        rw [hpop, hhead, hr, WriteCore.nextAddr, if_pos (hk.sending.mpr hl), ← haddr, ← hlen]
        simp [burstWrites_concat _ _ hfew]
      · rw [beq_eq_false_iff_ne.mpr hi] at hf
        rw [quiet hf]
        simp [Ne.symm hi]
  | close id q head r hq hhead hlast hfires hl hl' hr hrid hsome =>
      rw [hsome, hl, hl', hr]
      have hf := hfires i p hp
      by_cases hi : i = id
      · subst hi
        rw [hp] at hq
        cases hq
        rw [beq_self_eq_true] at hf
        obtain ⟨_, _, _, _, hpop, _⟩ := fires_edge hf h
        -- the last word completes what was gathered, and all of it is stored
        obtain ⟨r', hr', haddr, _, hlen⟩ := hk.burst hl
        rw [hr] at hr'
        cases hr'
        have hfew := Nat.lt_of_le_of_lt (Nat.le_of_eq hlen) (counted hpop)
        rw [hpop, hhead, WriteCore.nextAddr, if_pos (hk.sending.mpr hl), ← haddr, ← hlen]
        simp [burstWrites_concat _ _ hfew, hrid]
      · rw [beq_eq_false_iff_ne.mpr hi] at hf
        rw [quiet hf]
        simp [Ne.symm hi, hrid]
  | answer id resp hfires hl hl' hnone =>
      rw [quiet (hfires i p hp), hnone, hl, hl']
      simp

/-- Every answer is for an open burst. -/
theorem outstanding_edge (hm : WriteMove s s') (hs : s.memory.readWires = .ok slave)
    (hp : s.ports[i]? = some p) (hk : p.writer.core.Knows s.memory s.writeArbiter.lock i)
    (h : p.Edge (s.readBus slave i p) (s.writeBus i p) rstep wstep p') :
    (Moment.writerIssues i (s, .tick)).length + p.writer.core.outstanding
      = (Moment.writerAnswers i (s, .tick)).length + p'.writer.core.outstanding := by
  obtain ⟨_, hissues, hanswers⟩ := Moment.writer_tick hs hp h
  rw [hissues, hanswers]
  have count : ∀ {aw w : Bool} {resp : Option WriteResp}, (s.writeBus i p).Fires aw w resp →
      resp.toList.length ≤ p.writer.core.outstanding →
      wstep.issued.toList.length + p.writer.core.outstanding
        = (s.writeBus i p).bFired.toList.length + p'.writer.core.outstanding := by
    intro aw w resp hf hle
    obtain ⟨hout, _, _, _, _, hissued⟩ := fires_edge hf h
    rw [hissued, hf.b, hout]
    cases aw with
    | true =>
        simp only [if_true, Option.toList_some, List.length_singleton]
        omega
    | false =>
        simp only [Bool.false_eq_true, if_false, Option.toList_none, List.length_nil]
        omega
  cases hm with
  | rest hfires => exact count (hfires i p hp) (Nat.zero_le _)
  | start id q _ _ hfires => exact count (hfires i p hp) (Nat.zero_le _)
  | send id q head _ _ _ hfires => exact count (hfires i p hp) (Nat.zero_le _)
  | close id q head r _ _ _ hfires => exact count (hfires i p hp) (Nat.zero_le _)
  | answer id resp hfires hl =>
      refine count (hfires i p hp) ?_
      rw [hk.outstanding, hl]
      by_cases hi : i = id
      · simp [hi, WriteLock.openFor]
      · simp [hi]

/-- What waits at a port to be sent: its oldest beat leaves if it is sent, the rest stays
in order. -/
theorem queue_edge (hs : s.memory.readWires = .ok slave) (hp : s.ports[i]? = some p)
    (h : p.Edge (s.readBus slave i p) (s.writeBus i p) rstep wstep p') :
    p.writeFifo.beats ++ p.source.queue
      = Moment.writerPops i (s, .tick) ++ (p'.writeFifo.beats ++ p'.source.queue) := by
  obtain ⟨hpops, _⟩ := writerPops_tick hs hp h
  obtain ⟨more, hbeats, hqueue⟩ := h.moves
  rw [hpops, hbeats, hqueue]
  split
  · cases hb : p.writeFifo.beats with
    | nil => simp [Fifo.head?, hb]
    | cons head rest => simp [Fifo.head?, hb]
  · exact (List.append_assoc ..).symm

end Machine

end BurstDma
