import BurstDma.Proofs.Access
import BurstDma.Proofs.ClockEdge
import BurstDma.Proofs.ReadArbiter
import BurstDma.Proofs.ReadEngine

/-!
# Reads in flight

Between the reader of a port and the memory lie the arbiter's registers and the memory's
queue of bursts. From the point of view of one port they are two queues: the addresses of
words that were asked for and not sent, `Machine.unsent`, and the beats that were sent and
have not arrived, `Machine.held`. **In a clock cycle an accepted request enters the first
queue, the word that the memory sends moves from the first to the second, and the beat
that arrives leaves the second.** `Machine.read_flow` is that sentence; whatever else
happens on the bus in the same cycle does not show.

The first queue moves in the same way whatever one wants to know of its words, so the law of
it, `Machine.upcoming_flow`, has a function of a request and a position for a parameter. The
address of a word is one such function, whether the word ends its burst is another.
-/

namespace BurstDma

namespace AddrReq

variable {α : Type} (f : AddrReq → Nat → α) {r : AddrReq} {k : Nat}

/-- The words of a burst from the `k`-th one on, each as `f` sees it. -/
def onward (r : AddrReq) (k : Nat) : List α :=
  (List.range' k (r.beats - k)).map (f r)

theorem onward_of_lt (h : k < r.beats) : r.onward f k = f r k :: r.onward f (k + 1) := by
  have hsplit : r.beats - k = (r.beats - (k + 1)) + 1 := by omega
  unfold onward
  rw [hsplit, List.range'_succ, List.map_cons]

theorem onward_of_le (h : r.beats ≤ k) : r.onward f k = [] := by
  unfold onward
  rw [Nat.sub_eq_zero_of_le h]
  rfl

/-- Where a word of a burst lies. -/
def wordAddr (g : Geometry) (r : AddrReq) (k : Nat) : Nat :=
  r.addr + k * g.wordBytes

/-- Whether a word ends its burst. -/
def isEnd (r : AddrReq) (k : Nat) : Bool :=
  k + 1 == r.beats

theorem onward_wordAddr (g : Geometry) (r : AddrReq) (k : Nat) :
    r.onward (wordAddr g) k = g.span (r.addr + k * g.wordBytes) (r.beats - k) := by
  unfold onward wordAddr
  rw [Geometry.span_eq_range, List.range'_eq_map_range, List.map_map]
  refine List.map_congr_left fun j _ => ?_
  rw [Function.comp_apply, Nat.add_mul, Nat.add_assoc]

theorem onward_addresses (g : Geometry) (r : AddrReq) : r.onward (wordAddr g) 0 = r.addresses g := by
  rw [onward_wordAddr, Nat.zero_mul, Nat.add_zero, Nat.sub_zero]
  rfl

end AddrReq

/-- The addresses of the words of a burst that are still to be sent. -/
def ReadJob.addresses (g : Geometry) (job : ReadJob) : List Nat :=
  g.span (job.request.addr + job.beat * g.wordBytes) (job.request.beats - job.beat)

namespace Memory

variable {α : Type} (f : AddrReq → Nat → α)

/-- No burst in the queue is finished. -/
def ReadsOpen (m : Memory) : Prop :=
  ∀ job ∈ m.reads, job.beat < job.request.beats

/-- The addresses of the words that were asked for under a number and not sent. -/
def unsent (m : Memory) (id : Nat) : List Nat :=
  (m.reads.filter (·.request.id == id)).flatMap (·.addresses m.store.geometry)

/-- The words that were asked for under a number and not sent, each as `f` sees it. -/
def upcoming (m : Memory) (id : Nat) : List α :=
  (m.reads.filter (·.request.id == id)).flatMap fun job => job.request.onward f job.beat

theorem unsent_eq (m : Memory) (id : Nat) :
    m.unsent id = m.upcoming (AddrReq.wordAddr m.store.geometry) id := by
  unfold unsent upcoming
  simp only [AddrReq.onward_wordAddr]
  rfl

/-- The beat that the memory sends, with its word as `f` sees it. -/
def sentWord? (m : Memory) (bus : ReadBus) : Option (ReadBeat × α) :=
  match bus.rFired, m.reads.head? with
  | some beat, some job => some (beat, f job.request job.beat)
  | _, _ => none

/-- The beat that the memory sends, with the address of its word. -/
def sends? (m : Memory) (bus : ReadBus) : Option (ReadBeat × Nat) :=
  match bus.rFired, m.reads.head? with
  | some beat, some job =>
    some (beat, job.request.addr + job.beat * m.store.geometry.wordBytes)
  | _, _ => none

/-- What the memory shows is the beat that the oldest burst is at, once that is due. -/
theorem readWires_beat {m : Memory} {slave : ReadSlave} {beat : ReadBeat}
    (hs : m.readWires = .ok slave) (hr : slave.r = some beat) :
    ∃ job rest, m.reads = job :: rest ∧ job.readyAt ≤ m.cycle ∧ m.readBeat job = .ok beat := by
  unfold readWires at hs
  dsimp only at hs
  cases hj : m.reads.head?.filter (·.readyAt ≤ m.cycle) with
  | none =>
      rw [hj] at hs
      cases hs
      cases hr
  | some job =>
      rw [hj] at hs
      obtain ⟨beat', hbeat, hs⟩ := except_bind_eq_ok.mp hs
      cases hs
      cases hr
      obtain ⟨hhead, hdue⟩ := Option.filter_eq_some_iff.mp hj
      obtain ⟨rest, hcons⟩ := List.head?_eq_some_iff.mp hhead
      exact ⟨job, rest, hcons, of_decide_eq_true hdue, hbeat⟩

/-- The memory takes a read burst whenever it has a place for one. -/
theorem arReady_eq {m : Memory} {slave : ReadSlave} (h : m.readWires = .ok slave) :
    slave.arReady = decide (m.reads.length < m.params.readOutstanding) := by
  unfold readWires at h
  dsimp only at h
  split at h
  · cases h
    rfl
  · obtain ⟨b, _, h⟩ := except_bind_eq_ok.mp h
    cases h
    rfl

theorem valid_of_fired {bus : ReadBus} {beat : ReadBeat} (hb : bus.rFired = some beat) :
    bus.slave.r = some beat := by
  unfold ReadBus.rFired at hb
  split at hb
  · exact hb
  · cases hb

/-- What the memory sends is the word that the oldest burst is at. -/
theorem sends?_of_fired {m : Memory} {bus : ReadBus} {beat : ReadBeat}
    (hs : m.readWires = .ok bus.slave) (hb : bus.rFired = some beat) :
    ∃ job rest, m.reads = job :: rest ∧ beat.id = job.request.id
      ∧ beat.last = (job.beat + 1 == job.request.beats)
      ∧ m.sends? bus = some (beat, job.request.addr + job.beat * m.store.geometry.wordBytes)
      ∧ m.store.readAt (job.request.addr + job.beat * m.store.geometry.wordBytes)
        = .ok (beat.data, beat.resp) := by
  obtain ⟨job, rest, hcons, _, hbeat⟩ := readWires_beat hs (valid_of_fired hb)
  obtain ⟨addr, ha, hbeat⟩ := except_bind_eq_ok.mp hbeat
  obtain ⟨⟨data, resp⟩, hdata, hbeat⟩ := except_bind_eq_ok.mp hbeat
  cases hbeat
  have haddr := (Checked.add_eq_ok_iff.mp ha).2
  refine ⟨job, rest, hcons, rfl, rfl, ?_, ?_⟩
  · unfold sends?
    rw [hb, hcons]
    rfl
  · rw [← haddr]
    exact hdata

theorem sentWord?_of_fired {m : Memory} {bus : ReadBus} {beat : ReadBeat}
    (hs : m.readWires = .ok bus.slave) (hb : bus.rFired = some beat) :
    ∃ job rest, m.reads = job :: rest ∧ beat.id = job.request.id
      ∧ beat.last = job.request.isEnd job.beat
      ∧ m.sentWord? f bus = some (beat, f job.request job.beat) := by
  obtain ⟨job, rest, hcons, hid, hlast, _⟩ := sends?_of_fired hs hb
  refine ⟨job, rest, hcons, hid, hlast, ?_⟩
  unfold sentWord?
  rw [hb, hcons]
  rfl

theorem sends?_eq (m : Memory) (bus : ReadBus) :
    m.sends? bus = m.sentWord? (AddrReq.wordAddr m.store.geometry) bus := rfl

/-- The beats that go out under a number, whatever is seen of their words. -/
theorem sentWord?_beats {m : Memory} {bus : ReadBus} (hs : m.readWires = .ok bus.slave)
    (id : Nat) :
    ((m.sentWord? f bus).toList.filter (·.1.id == id)).map (·.1)
      = bus.rFired.toList.filter (·.id == id) := by
  cases hb : bus.rFired with
  | none => simp [sentWord?, hb]
  | some beat =>
      obtain ⟨job, rest, _, _, _, hsend⟩ := sentWord?_of_fired f hs hb
      rw [hsend]
      by_cases hid : beat.id = id <;> simp [hid]

/-- What the memory sends was asked for and not sent. -/
theorem sentWord?_prefix {m : Memory} {bus : ReadBus} (hs : m.readWires = .ok bus.slave)
    (ho : m.ReadsOpen) (id : Nat) :
    ((m.sentWord? f bus).toList.filter (·.1.id == id)).map (·.2) <+: m.upcoming f id := by
  cases hb : bus.rFired with
  | none => simp [sentWord?, hb]
  | some beat =>
      obtain ⟨job, rest, hcons, hid, _, hsend⟩ := sentWord?_of_fired f hs hb
      have hopen : job.beat < job.request.beats := ho job (by rw [hcons]; exact List.mem_cons_self)
      rw [hsend]
      by_cases hmine : job.request.id = id
      · simp [upcoming, hcons, hid, hmine, AddrReq.onward_of_lt f hopen]
      · simp [hid, hmine]

theorem tickWrites_reads {m m' : Memory} {bus : WriteBus}
    (h : (m.tickWrites bus).result = .ok m') :
    m'.reads = m.reads ∧ m'.store.geometry = m.store.geometry := by
  obtain ⟨_, hstore, _, hreads, _⟩ := m.collect_kept bus
  rcases tickWrites_cases h with ⟨_, rfl⟩ | ⟨aw, store, resp, _, hst, rfl⟩
  · exact ⟨hreads, by rw [hstore]⟩
  · refine ⟨rfl, ?_⟩
    show store.geometry = _
    rw [storeBeats_eq hst, (Store.putAll_geometry _ _).1]

/-- The queue of a memory after the read side of a clock edge. -/
theorem tickReads_reads (m : Memory) (bus : ReadBus) :
    (m.tickReads bus).reads
      = (match bus.rFired with
          | none => m.reads
          | some beat =>
            if beat.last then m.reads.tail
            else m.reads.modifyHead fun job => { job with beat := job.beat + 1 })
        ++ bus.arFired.toList.map fun r => ⟨r, m.cycle + max m.params.readLatency 1, 0⟩ := by
  unfold tickReads
  cases bus.rFired <;> cases bus.arFired <;> simp

theorem tickReads_store (m : Memory) (bus : ReadBus) : (m.tickReads bus).store = m.store := by
  unfold tickReads
  cases bus.rFired <;> cases bus.arFired <;> rfl

/-- A burst that is not finished gives up its first word. -/
theorem addresses_step (g : Geometry) {job : ReadJob} (h : job.beat < job.request.beats) :
    job.addresses g = (job.request.addr + job.beat * g.wordBytes)
      :: ReadJob.addresses g { job with beat := job.beat + 1 } := by
  have hstep := AddrReq.onward_of_lt (AddrReq.wordAddr g) h
  rwa [AddrReq.onward_wordAddr, AddrReq.onward_wordAddr] at hstep

/-- The queue of bursts in which the oldest one has given up a word. -/
def advanced : List ReadJob → List ReadJob
  | [] => []
  | job :: rest =>
    if job.beat + 1 = job.request.beats then rest
    else { job with beat := job.beat + 1 } :: rest

/-- What a clock edge makes of the queue. -/
theorem tick_reads {m m' : Memory} {reads : ReadBus} {writes : WriteBus}
    (hs : m.readWires = .ok reads.slave) (h : (m.tick reads writes).result = .ok m') :
    m'.store.geometry = m.store.geometry
      ∧ m'.reads = (if reads.rFired.isSome then advanced m.reads else m.reads)
        ++ reads.arFired.toList.map fun r => ⟨r, m.cycle + max m.params.readLatency 1, 0⟩ := by
  obtain ⟨m₁, hw, h⟩ := Run.result_bind_eq_ok.mp h
  cases h
  obtain ⟨hreads, hgeo⟩ := tickWrites_reads hw
  rw [tickReads_store] at hgeo
  refine ⟨hgeo, ?_⟩
  rw [hreads, tickReads_reads]
  cases hb : reads.rFired with
  | none => rfl
  | some beat =>
      obtain ⟨job, rest, hcons, _, hlast, _⟩ := sends?_of_fired hs hb
      rw [hcons]
      dsimp only [advanced]
      rw [hlast]
      by_cases hdone : job.beat + 1 = job.request.beats
      · simp [hdone]
      · simp [hdone]

theorem readsOpen_tick {m m' : Memory} {reads : ReadBus} {writes : WriteBus}
    (hs : m.readWires = .ok reads.slave) (ho : m.ReadsOpen)
    (h : (m.tick reads writes).result = .ok m') : m'.ReadsOpen := by
  obtain ⟨_, hqueue⟩ := tick_reads hs h
  have hadvanced : ∀ job ∈ advanced m.reads, job.beat < job.request.beats := by
    unfold ReadsOpen at ho
    cases hr : m.reads with
    | nil => intro job hjob; cases hjob
    | cons job rest =>
        rw [hr] at ho
        have hopen := ho job List.mem_cons_self
        intro j hj
        dsimp only [advanced] at hj
        split at hj
        · exact ho j (List.mem_cons_of_mem _ hj)
        · rcases List.mem_cons.mp hj with rfl | hj
          · show job.beat + 1 < job.request.beats
            omega
          · exact ho j (List.mem_cons_of_mem _ hj)
  intro job hjob
  rw [hqueue] at hjob
  rcases List.mem_append.mp hjob with hjob | hjob
  · split at hjob
    · exact hadvanced job hjob
    · exact ho job hjob
  · obtain ⟨r, _, rfl⟩ := List.mem_map.mp hjob
    exact Nat.succ_pos _

/-- **The queue of the memory is a queue of words.** -/
theorem upcoming_tick {m m' : Memory} {reads : ReadBus} {writes : WriteBus}
    (hs : m.readWires = .ok reads.slave) (ho : m.ReadsOpen)
    (h : (m.tick reads writes).result = .ok m') (id : Nat) :
    m.upcoming f id ++ (reads.arFired.toList.filter (·.id == id)).flatMap (·.onward f 0)
      = ((m.sentWord? f reads).toList.filter (·.1.id == id)).map (·.2) ++ m'.upcoming f id := by
  obtain ⟨_, hqueue⟩ := tick_reads hs h
  -- a new burst stands for all its words
  have hnew : ((reads.arFired.toList.map fun r =>
        (⟨r, m.cycle + max m.params.readLatency 1, 0⟩ : ReadJob)).filter
        (·.request.id == id)).flatMap (fun job => job.request.onward f job.beat)
      = (reads.arFired.toList.filter (·.id == id)).flatMap (·.onward f 0) := by
    cases reads.arFired with
    | none => rfl
    | some r => by_cases hid : r.id = id <;> simp [hid]
  unfold upcoming
  rw [hqueue, List.filter_append, List.flatMap_append, hnew]
  cases hb : reads.rFired with
  | none =>
      have hnone : m.sentWord? f reads = none := by
        unfold sentWord?
        rw [hb]
      rw [hnone]
      rfl
  | some beat =>
      obtain ⟨job, rest, hcons, hid, _, hsend⟩ := sentWord?_of_fired f hs hb
      have hhead := AddrReq.onward_of_lt f (ho job (by rw [hcons]; exact List.mem_cons_self))
      rw [hsend, hcons, Option.isSome_some, if_pos rfl]
      dsimp only [advanced]
      by_cases hdone : job.beat + 1 = job.request.beats
      · rw [AddrReq.onward_of_le f (Nat.le_of_eq hdone.symm)] at hhead
        by_cases hmine : job.request.id = id <;> simp [hid, hmine, hhead, hdone]
      · by_cases hmine : job.request.id = id <;> simp [hid, hmine, hhead, hdone]

end Memory

/-! ## From reader to memory and back -/

namespace Machine

/-- The addresses of the words that the reader of port `i` has asked for and that the
memory has not sent, in order. -/
def unsent (s : Machine) (i : Nat) : List Nat :=
  s.memory.unsent i
    ++ (s.readArbiter.granted.contents.filter (·.id == i)).flatMap
        (·.addresses s.memory.store.geometry)
    ++ (s.readArbiter.waiting i).flatMap (·.addresses s.memory.store.geometry)

/-- The words that the reader of port `i` has asked for and that the memory has not sent,
each as `f` sees it. -/
def upcoming {α : Type} (f : AddrReq → Nat → α) (s : Machine) (i : Nat) : List α :=
  s.memory.upcoming f i
    ++ (s.readArbiter.granted.contents.filter (·.id == i)).flatMap (·.onward f 0)
    ++ (s.readArbiter.waiting i).flatMap (·.onward f 0)

theorem unsent_eq (s : Machine) (i : Nat) :
    s.unsent i = s.upcoming (AddrReq.wordAddr s.memory.store.geometry) i := by
  unfold unsent upcoming
  simp only [Memory.unsent_eq, AddrReq.onward_addresses]

/-- The beats that the memory has sent to port `i` and that have not arrived. -/
def held (s : Machine) (i : Nat) : List ReadBeat :=
  s.readArbiter.data.contents.filter (·.id == i)

/-- The read path has the shape it was built with. -/
structure ReadPathFormed (s : Machine) : Prop where
  arbiter : s.readArbiter.WellFormed s.ports.length
  reads : s.memory.ReadsOpen

theorem readPathFormed_edge {s s' : Machine} {slave : ReadSlave} (hf : s.ReadPathFormed)
    (h : s.Edge slave s') : s'.ReadPathFormed := by
  refine ⟨?_, ?_⟩
  · rw [h.length]
    exact ReadArbiter.wellFormed_edge hf.arbiter (by simp) (ReadArbiter.tick_edge h.readArbiter)
  · exact Memory.readsOpen_tick h.drives hf.reads h.memory

theorem edge_geometry {s s' : Machine} {slave : ReadSlave} (h : s.Edge slave s') :
    s'.memory.store.geometry = s.memory.store.geometry := by
  rw [h.store]
  exact (Moment.storeAfter_geometry _ _).1

/-- **What a clock cycle does to the words that a port has asked for.** The number that an
arbiter fills in does not matter to `f`. -/
theorem upcoming_flow {α : Type} {f : AddrReq → Nat → α}
    (hid : ∀ (r : AddrReq) (id k : Nat), f { r with id } k = f r k) {s s' : Machine}
    {slave : ReadSlave} (hf : s.ReadPathFormed) (h : s.Edge slave s') {i : Nat} {p : Port}
    (hp : s.ports[i]? = some p) :
    s.upcoming f i ++ (s.readBus slave i p).arFired.toList.flatMap (·.onward f 0)
      = ((s.memory.sentWord? f (s.reads slave).down).toList.filter (·.1.id == i)).map (·.2)
        ++ s'.upcoming f i := by
  have hedge : s.readArbiter.Edge (s.readArbiter.resolve (s.ports.map (·.readWires)) slave)
      s'.readArbiter := ReadArbiter.tick_edge h.readArbiter
  have hm : (s.ports.map (·.readWires))[i]? = some p.readWires := by simp [hp]
  have hnumber : ∀ (r : AddrReq) (id : Nat), ({ r with id } : AddrReq).onward f 0 = r.onward f 0 :=
    fun r id => List.map_congr_left fun k _ => hid r id k
  -- the three places, from the memory to the port
  have hmem := Memory.upcoming_tick f h.drives hf.reads h.memory i
  obtain ⟨_, _, hgranted⟩ := ReadArbiter.granted_flow hf.arbiter hedge
  obtain ⟨_, _, _, hinputs⟩ := ReadArbiter.inputs_flow hf.arbiter (by simp) hedge
  have hgranted' := congrArg (fun l => (l.filter (fun r : AddrReq => r.id == i)).flatMap
    (·.onward f 0)) hgranted
  have hinputs' := congrArg (fun l => l.flatMap (fun r : AddrReq => r.onward f 0)) (hinputs i _ hm)
  simp only [List.filter_append, List.flatMap_append] at hgranted' hinputs'
  rw [ReadArbiter.grant_filter _ hnumber] at hgranted'
  unfold upcoming
  rw [List.append_assoc, List.append_assoc]
  calc _ = s.memory.upcoming f i
        ++ ((s.readArbiter.granted.contents.filter (·.id == i)).flatMap (·.onward f 0)
          ++ ((s.readArbiter.grantTo (s.ports.map (·.readWires)) slave i).toList.flatMap
                (·.onward f 0)
            ++ (s'.readArbiter.waiting i).flatMap (·.onward f 0))) := by
          rw [← hinputs']; rfl
    _ = s.memory.upcoming f i
        ++ (((s.reads slave).down.arFired.toList.filter (·.id == i)).flatMap (·.onward f 0)
          ++ ((s'.readArbiter.granted.contents.filter (·.id == i)).flatMap (·.onward f 0)
            ++ (s'.readArbiter.waiting i).flatMap (·.onward f 0))) := by
          rw [← List.append_assoc (List.flatMap _ _), hgranted', List.append_assoc]; rfl
    _ = _ := by
          rw [← List.append_assoc (s.memory.upcoming f i), hmem, List.append_assoc,
            List.append_assoc]

/-- The beats that the memory sends to a port queue up behind those that it holds. -/
theorem held_flow {s : Machine} {slave : ReadSlave} {arbiter : ReadArbiter}
    (hf : s.ReadPathFormed) (ha : (s.readArbiter.tick (s.reads slave)).result = .ok arbiter)
    {i : Nat} {p : Port} (hp : s.ports[i]? = some p) :
    s.held i ++ (s.reads slave).down.rFired.toList.filter (·.id == i)
      = (s.readBus slave i p).rFired.toList ++ arbiter.data.contents.filter (·.id == i) := by
  have hedge : s.readArbiter.Edge (s.readArbiter.resolve (s.ports.map (·.readWires)) slave)
      arbiter := ReadArbiter.tick_edge ha
  have hm : (s.ports.map (·.readWires))[i]? = some p.readWires := by simp [hp]
  obtain ⟨_, _, hdata⟩ := ReadArbiter.data_flow hf.arbiter hedge
  have hdata' := congrArg (fun l => l.filter (fun b : ReadBeat => b.id == i)) hdata
  simp only [List.filter_append] at hdata'
  rw [← ReadArbiter.delivered_flow hedge hm] at hdata'
  exact hdata'

/-- **What a clock cycle does to the reads in flight of one port.** `sent` is what the
memory sent to it, at most one beat with the address of its word. -/
theorem read_flow {s s' : Machine} {slave : ReadSlave} (hf : s.ReadPathFormed)
    (h : s.Edge slave s') {i : Nat} {p : Port} (hp : s.ports[i]? = some p) :
    ∃ sent : List (ReadBeat × Nat),
      Moment.memorySends i (s, .tick) = sent.map (fun t => (t.1, s.memory.store))
        ∧ (∀ t ∈ sent, s.memory.store.readAt t.2 = .ok (t.1.data, t.1.resp))
        ∧ s.unsent i
            ++ (s.readBus slave i p).arFired.toList.flatMap
                (·.addresses s.memory.store.geometry)
          = sent.map (·.2) ++ s'.unsent i
        ∧ s.held i ++ sent.map (·.1) = (s.readBus slave i p).rFired.toList ++ s'.held i := by
  have hdown : s.memory.readWires = .ok (s.reads slave).down.slave := h.drives
  have hflow := upcoming_flow (f := AddrReq.wordAddr s.memory.store.geometry)
    (fun _ _ _ => rfl) hf h hp
  refine ⟨(s.memory.sends? (s.reads slave).down).toList.filter (·.1.id == i), ?_, ?_, ?_, ?_⟩
  · unfold Moment.memorySends
    rw [Moment.wires?_tick h.drives, Option.bind_some]
    cases hb : (s.reads slave).down.rFired with
    | none => simp [Memory.sends?, hb]
    | some beat =>
        obtain ⟨job, rest, _, _, _, hsend, _⟩ := Memory.sends?_of_fired hdown hb
        rw [hsend]
        by_cases hid : beat.id = i <;> simp [hid]
  · intro t ht
    obtain ⟨ht, _⟩ := List.mem_filter.mp ht
    cases hb : (s.reads slave).down.rFired with
    | none => simp [Memory.sends?, hb] at ht
    | some beat =>
        obtain ⟨job, rest, _, _, _, hsend, hval⟩ := Memory.sends?_of_fired hdown hb
        rw [hsend, Option.toList_some, List.mem_singleton] at ht
        subst ht
        exact hval
  · rw [s.unsent_eq, s'.unsent_eq, edge_geometry h]
    simp only [← AddrReq.onward_addresses]
    exact hflow
  · rw [show s'.held i = s'.readArbiter.data.contents.filter (·.id == i) from rfl,
      ← held_flow hf h.readArbiter hp, Memory.sends?_eq, Memory.sentWord?_beats _ hdown]

/-- A beat arrives at a port only if one is in flight for it. -/
theorem fired_le_awaited {s : Machine} {slave : ReadSlave} {arbiter : ReadArbiter}
    (hf : s.ReadPathFormed) (hs : s.memory.readWires = .ok slave)
    (ha : (s.readArbiter.tick (s.reads slave)).result = .ok arbiter) {i : Nat} {p : Port}
    (hp : s.ports[i]? = some p) :
    (s.readBus slave i p).rFired.toList.length ≤ (s.unsent i).length + (s.held i).length := by
  have hdown : s.memory.readWires = .ok (s.reads slave).down.slave := hs
  have hsent := (Memory.sentWord?_prefix (AddrReq.wordAddr s.memory.store.geometry) hdown
    hf.reads i).length_le
  have hbeats := congrArg List.length
    (Memory.sentWord?_beats (AddrReq.wordAddr s.memory.store.geometry) hdown i)
  rw [List.length_map, ← Memory.unsent_eq] at hsent
  rw [List.length_map] at hbeats
  have hsum := congrArg List.length (held_flow hf ha hp)
  have hunsent : (s.memory.unsent i).length ≤ (s.unsent i).length := by
    unfold unsent
    rw [List.length_append, List.length_append]
    omega
  rw [List.length_append, List.length_append] at hsum
  omega

/-- Between the ticks nothing in flight moves. -/
theorem Touched.reads {s s' : Machine} {op : Operation} (h : s.Touched op s') :
    (s.ReadPathFormed → s'.ReadPathFormed) ∧
      ∀ i, s'.unsent i = s.unsent i ∧ s'.held i = s.held i := by
  have hgeo : (Moment.storeAfter s.memory.store (s, op)).geometry = s.memory.store.geometry :=
    (Moment.storeAfter_geometry _ _).1
  refine ⟨?_, ?_⟩
  · intro hf
    refine ⟨?_, ?_⟩
    · rw [h.readArbiter, h.length]
      exact hf.arbiter
    · rw [h.memory]
      exact hf.reads
  · intro i
    unfold unsent held Memory.unsent
    rw [h.memory, h.readArbiter]
    dsimp only
    rw [hgeo]
    exact ⟨rfl, rfl⟩

/-- A reset leaves nothing in flight. -/
theorem reset_reads {s s' : Machine} (hf : s.ReadPathFormed) (h : s.reset.result = .ok s') :
    s'.ReadPathFormed ∧ ∀ i, s'.unsent i = [] ∧ s'.held i = [] := by
  have hs := reset_eq_ok h
  have hempty : ∀ skid ∈ s'.readArbiter.inputs, skid = {} := by
    intro skid hskid
    rw [hs] at hskid
    obtain ⟨_, _, rfl⟩ := List.mem_map.mp hskid
    rfl
  have hnothing : ∀ skid ∈ s'.readArbiter.inputs, skid.contents = [] := by
    intro skid hskid
    rw [hempty skid hskid]
    rfl
  refine ⟨⟨⟨?_, ?_, ?_, ?_, ?_, ?_⟩, ?_⟩, ?_⟩
  · rw [hs]
    simpa [ReadArbiter.reset] using hf.arbiter.inputs
  · intro skid hskid
    rw [hempty skid hskid]
    exact Skid.packed_empty
  · rw [hs]
    exact Skid.packed_empty
  · rw [hs]
    exact Skid.packed_empty
  · exact fun _ => hnothing
  · intro _
    rw [hs]
    exact ⟨rfl, rfl⟩
  · rw [hs]
    intro job hjob
    cases hjob
  · intro i
    refine ⟨?_, ?_⟩
    · unfold unsent
      rw [ReadArbiter.waiting_eq_nil hnothing, hs]
      rfl
    · unfold held
      rw [hs]
      rfl

end Machine

end BurstDma
