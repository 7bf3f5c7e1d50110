import BurstDma.Proofs.Counters
import BurstDma.Proofs.RunLedger
import BurstDma.Proofs.Totality

/-!
# The memory answers what it was asked for, in order

A memory takes read requests into a queue, and in every cycle it shows the word that the oldest
of them is at, once its latency has passed. The master decides which cycles move anything, and
writes are stored in between. Seen as words, **the queue is what was asked for and not sent**: a
request that is accepted adds all its words at the back, a beat that moves takes one from the
front. So the beats sent are, one by one, the words asked for, each looked up in the store as it
was when the cycle began.

A word knows the cycle in which its request was accepted, and that is where the latency counts
from.
-/

namespace BurstDma

/-- What a store shows at an address: the response of the first region that declares it faulty,
or the word that lies there, or a decode error. -/
def Store.lookup (s : Store) (addr : Nat) : Word × Resp :=
  match s.regions.find? (·.contains addr) with
  | some region => (0, region.resp)
  | none =>
    match s.get? (addr / s.geometry.wordBytes) with
    | some w => (w, .okay)
    | none => (0, .decErr)

/-- A read access shows what the store shows. -/
theorem Store.readAt_lookup {s : Store} (hpos : s.geometry.wordBytes ≠ 0) (addr : Nat) :
    s.readAt addr = .ok (s.lookup addr) := by
  have hindex : s.geometry.wordIndex addr = .ok (addr / s.geometry.wordBytes) := if_neg hpos
  unfold readAt locate lookup
  cases s.regions.find? (·.contains addr) with
  | some region => rfl
  | none =>
      dsimp only
      rw [hindex]
      by_cases hin : addr / s.geometry.wordBytes < s.size
      · have hget : s.get? (addr / s.geometry.wordBytes)
            = some s.words[addr / s.geometry.wordBytes] := Array.getElem?_eq_getElem hin
        rw [hget]
        simp [bind, Except.bind, pure, Except.pure, hin, hget]
      · have hget : s.get? (addr / s.geometry.wordBytes) = none :=
          Array.getElem?_eq_none (Nat.le_of_not_lt hin)
        rw [hget]
        simp [bind, Except.bind, pure, Except.pure, hin]

/-- A word that a memory was asked for: the cycle in which the request was accepted, the
request, and the position of the word in it. -/
structure ReadWord where
  accepted : Nat
  request : AddrReq
  index : Nat
deriving Repr, DecidableEq

/-- The beat that answers a word from a store. -/
def ReadWord.answer (w : ReadWord) (s : Store) : ReadBeat where
  id := w.request.id
  data := (s.lookup (w.request.addr + w.index * s.geometry.wordBytes)).1
  resp := (s.lookup (w.request.addr + w.index * s.geometry.wordBytes)).2
  last := w.index == w.request.len

/-- All words of a request that was accepted in a cycle. -/
def AddrReq.words (r : AddrReq) (accepted : Nat) : List ReadWord :=
  (List.range (r.len + 1)).map fun k => ⟨accepted, r, k⟩

/-- One clock cycle of a memory: its state, and all wires. -/
structure MemoryCycle where
  state : Memory
  reads : ReadBus
  writes : WriteBus
deriving Repr, DecidableEq

namespace Memory

/-- The clock cycles of a memory; its masters drive what they like. -/
inductive Cycles (m₀ : Memory) : List MemoryCycle → Memory → Prop where
  | start : Cycles m₀ [] m₀
  | cycle {past : List MemoryCycle} {m m' : Memory} {reads : ReadBus} {writes : WriteBus} :
      Cycles m₀ past m → m.readWires = .ok reads.slave → m.writeWires = writes.slave →
      (m.tick reads writes).result = .ok m' → Cycles m₀ (past ++ [⟨m, reads, writes⟩]) m'

/-- The clock cycle that some masters make, if the memory has a next state. -/
def attempt (_ : List MemoryCycle) (m : Memory) (driven : ReadMaster × WriteMaster) :
    Option (MemoryCycle × Memory) := do
  let slave ← m.readWires.toOption
  let reads : ReadBus := ⟨driven.1, slave⟩
  let writes : WriteBus := ⟨driven.2, m.writeWires⟩
  let m' ← (m.tick reads writes).result.toOption
  return (⟨m, reads, writes⟩, m')

theorem Cycles.attempt {m₀ m m' : Memory} {past : List MemoryCycle} {e : MemoryCycle}
    {driven : ReadMaster × WriteMaster} (h : Cycles m₀ past m)
    (ha : Memory.attempt past m driven = some (e, m')) : Cycles m₀ (past ++ [e]) m' := by
  obtain ⟨slave, hs, ha⟩ := Option.bind_eq_some_iff.mp ha
  obtain ⟨next, hnext, ha⟩ := Option.bind_eq_some_iff.mp ha
  cases ha
  exact h.cycle (ok_of_toOption hs) rfl (ok_of_toOption hnext)

/-- The read requests accepted. -/
def accepted (past : List MemoryCycle) : List AddrReq :=
  past.filterMap (·.reads.arFired)

/-- The words asked for, request by request. -/
def asked (past : List MemoryCycle) : List ReadWord :=
  past.flatMap fun e => e.reads.arFired.toList.flatMap (·.words e.state.cycle)

/-- The beats sent, each with the store at the beginning of its cycle. -/
def sent (past : List MemoryCycle) : List (Store × ReadBeat) :=
  past.filterMap fun e => e.reads.rFired.map (e.state.store, ·)

/-- The latency as it counts. -/
def latency (m : Memory) : Nat :=
  max m.params.readLatency 1

end Memory

/-- The words of a burst in the queue that were not sent. -/
def ReadJob.words (job : ReadJob) (latency : Nat) : List ReadWord :=
  job.request.onward (fun r k => ⟨job.readyAt - latency, r, k⟩) job.beat

/-- A burst in the queue stands for the word that it is at and those behind it. -/
theorem ReadJob.words_of_lt {job : ReadJob} (h : job.beat < job.request.beats) (latency : Nat) :
    job.words latency = ⟨job.readyAt - latency, job.request, job.beat⟩
      :: ReadJob.words { job with beat := job.beat + 1 } latency :=
  AddrReq.onward_of_lt _ h

theorem ReadJob.words_of_le {job : ReadJob} (h : job.request.beats ≤ job.beat) (latency : Nat) :
    job.words latency = [] :=
  AddrReq.onward_of_le _ h

/-- A burst that is new stands for all its words. -/
theorem ReadJob.words_new (r : AddrReq) (cycle latency : Nat) :
    ReadJob.words ⟨r, cycle + latency, 0⟩ latency = r.words cycle := by
  unfold words AddrReq.onward AddrReq.words
  dsimp only
  rw [Nat.add_sub_cancel, Nat.sub_zero, ← List.range_eq_range']
  rfl

namespace Memory

/-- The words in the queue. -/
def waiting (m : Memory) : List ReadWord :=
  m.reads.flatMap (·.words m.latency)

variable {m₀ m m' : Memory} {past : List MemoryCycle} {reads : ReadBus} {writes : WriteBus}
  {slave : ReadSlave} {b : ReadBeat}

/-- The beat on the wires is the answer to the word that the oldest burst is at. -/
theorem valid_beat (hpos : m.store.geometry.wordBytes ≠ 0) (hs : m.readWires = .ok slave)
    (hr : slave.r = some b) : ∃ job rest, m.reads = job :: rest ∧ job.readyAt ≤ m.cycle
      ∧ ∀ accepted, b = ReadWord.answer ⟨accepted, job.request, job.beat⟩ m.store := by
  obtain ⟨job, rest, hcons, hdue, hbeat⟩ := readWires_beat hs hr
  obtain ⟨addr, ha, hbeat⟩ := except_bind_eq_ok.mp hbeat
  obtain ⟨_, rfl⟩ := Checked.add_eq_ok_iff.mp ha
  rw [Store.readAt_lookup hpos] at hbeat
  cases hbeat
  refine ⟨job, rest, hcons, hdue, fun accepted => ?_⟩
  have hlast : (job.beat + 1 == job.request.beats) = (job.beat == job.request.len) := by
    rw [Bool.eq_iff_iff, beq_iff_eq, beq_iff_eq]
    exact Nat.add_right_cancel_iff
  rw [hlast]
  rfl

/-- A beat that moves takes the word in front, and leaves the others. -/
theorem waiting_advanced {job : ReadJob} {rest : List ReadJob} (hopen : m.ReadsOpen)
    (hcons : m.reads = job :: rest) :
    m.waiting = ⟨job.readyAt - m.latency, job.request, job.beat⟩
      :: (advanced m.reads).flatMap (·.words m.latency) := by
  have hlt : job.beat < job.request.beats := hopen job (by rw [hcons]; exact List.mem_cons_self)
  rw [waiting, hcons, List.flatMap_cons, ReadJob.words_of_lt hlt, List.cons_append, advanced]
  by_cases hlast : job.beat + 1 = job.request.beats
  · rw [if_pos hlast, ReadJob.words_of_le (Nat.le_of_eq hlast.symm), List.nil_append]
  · rw [if_neg hlast, List.flatMap_cons]

/-- What was asked for is what was sent, looked up in time, and what waits in the queue. -/
structure Serves (m₀ : Memory) (past : List MemoryCycle) (m : Memory) : Prop where
  clock : m.cycle = m₀.cycle + past.length
  params : m.params = m₀.params
  geometry : m.store.geometry = m₀.store.geometry
  unfinished : m.ReadsOpen
  /-- The time of a burst is that of its acceptance and the latency. -/
  times : ∀ job ∈ m.reads, m.latency ≤ job.readyAt
  queue : ∃ done, asked past = done ++ m.waiting ∧ done.length = (sent past).length
    ∧ (sent past).map (·.2) = List.zipWith (fun w s => w.answer s.1) done (sent past)
  /-- A burst is in the queue until its last beat. -/
  bursts : (accepted past).length = (sent past).countP (·.2.last) + m.reads.length
  bound : m.reads.length ≤ m.params.readOutstanding

theorem serves_init (hempty : m₀.reads = []) : Serves m₀ [] m₀ := by
  refine ⟨rfl, rfl, rfl, ?_, ?_, ⟨[], ?_, rfl, rfl⟩, ?_, ?_⟩
  · intro job hjob
    rw [hempty] at hjob
    cases hjob
  · intro job hjob
    rw [hempty] at hjob
    cases hjob
  · rw [waiting, hempty]
    rfl
  · rw [hempty]
    rfl
  · rw [hempty]
    exact Nat.zero_le _

theorem accepted_concat (past : List MemoryCycle) (e : MemoryCycle) :
    accepted (past ++ [e]) = accepted past ++ e.reads.arFired.toList := by
  unfold accepted
  rw [List.filterMap_append]
  cases h : e.reads.arFired <;> simp [h]

theorem asked_concat (past : List MemoryCycle) (e : MemoryCycle) :
    asked (past ++ [e])
      = asked past ++ e.reads.arFired.toList.flatMap (·.words e.state.cycle) := by
  rw [asked, List.flatMap_append, List.flatMap_singleton]
  rfl

theorem sent_concat (past : List MemoryCycle) (e : MemoryCycle) :
    sent (past ++ [e]) = sent past ++ (e.reads.rFired.map (e.state.store, ·)).toList := by
  unfold sent
  rw [List.filterMap_append]
  cases h : e.reads.rFired <;> simp [h]

theorem Serves.wordBytes_ne_zero (hv : Serves m₀ past m) (hg : m₀.store.geometry.Legal) :
    m.store.geometry.wordBytes ≠ 0 := by
  rw [hv.geometry]
  exact Nat.ne_of_gt hg.wordBytes_pos

/-- **A beat that is shown answers the next word**, and not before its latency has passed. -/
theorem Serves.valid (hv : Serves m₀ past m) (hg : m₀.store.geometry.Legal)
    (hs : m.readWires = .ok slave) (hr : slave.r = some b) :
    ∃ w rest, m.waiting = w :: rest ∧ w.accepted + m.latency ≤ m.cycle ∧ b = w.answer m.store := by
  obtain ⟨job, rest, hcons, hdue, hbeat⟩ := valid_beat (hv.wordBytes_ne_zero hg) hs hr
  have htime := hv.times job (by rw [hcons]; exact List.mem_cons_self)
  refine ⟨_, _, waiting_advanced hv.unfinished hcons, ?_, hbeat _⟩
  dsimp only
  omega

/-- **A clock cycle of the queue.** What waits, and the words of a request that is accepted,
is the word that is answered and what waits then. -/
theorem Serves.waiting_next (hv : Serves m₀ past m) (hg : m₀.store.geometry.Legal)
    (hs : m.readWires = .ok reads.slave) (h : (m.tick reads writes).result = .ok m') :
    ∃ answered, m.waiting ++ reads.arFired.toList.flatMap (·.words m.cycle)
        = answered ++ m'.waiting
      ∧ reads.rFired.toList = answered.map (·.answer m.store) := by
  obtain ⟨_, hqueue⟩ := tick_reads hs h
  have hlatency : m'.latency = m.latency := by
    unfold latency
    rw [tick_params h]
  -- a request that is accepted comes with all its words
  have hnew : (reads.arFired.toList.map fun r =>
        (⟨r, m.cycle + m.latency, 0⟩ : ReadJob)).flatMap (·.words m.latency)
      = reads.arFired.toList.flatMap (·.words m.cycle) := by
    rw [List.flatMap_map]
    simp only [ReadJob.words_new]
  have hafter : m'.waiting
      = (if reads.rFired.isSome then advanced m.reads else m.reads).flatMap (·.words m.latency)
        ++ reads.arFired.toList.flatMap (·.words m.cycle) := by
    rw [waiting, hlatency, hqueue, List.flatMap_append, ← hnew]
    rfl
  cases hb : reads.rFired with
  | none =>
      refine ⟨[], ?_, rfl⟩
      rw [hafter, hb]
      rfl
  | some b =>
      obtain ⟨w, rest, hwaiting, _, hanswer⟩ := hv.valid hg hs (valid_of_fired hb)
      obtain ⟨job, others, hcons, _⟩ := readWires_beat hs (valid_of_fired hb)
      have hrest := waiting_advanced hv.unfinished hcons
      rw [hwaiting] at hrest
      obtain ⟨_, hrest⟩ := List.cons.inj hrest
      refine ⟨[w], ?_, ?_⟩
      · rw [hafter, hb, hwaiting, hrest]
        rfl
      · rw [hanswer]
        rfl

/-- A burst leaves the queue with its last beat. -/
theorem length_advanced (hs : m.readWires = .ok reads.slave) :
    m.reads.length = (if reads.rFired.isSome then advanced m.reads else m.reads).length
      + (reads.rFired.toList.countP (·.last)) := by
  cases hb : reads.rFired with
  | none => rfl
  | some b =>
      obtain ⟨job, rest, hcons, _, hlast, _⟩ := sends?_of_fired hs hb
      rw [hcons, Option.isSome_some, if_pos rfl, advanced, Option.toList_some,
        List.countP_singleton, hlast]
      by_cases hdone : job.beat + 1 = job.request.beats
      · rw [if_pos hdone, if_pos (beq_iff_eq.mpr hdone)]
        rfl
      · rw [if_neg hdone, if_neg (by rwa [beq_iff_eq])]
        rfl

/-- The times of the bursts stay, and a new one has its time from the clock. -/
theorem Serves.times_next (hv : Serves m₀ past m) (hs : m.readWires = .ok reads.slave)
    (h : (m.tick reads writes).result = .ok m') : ∀ job ∈ m'.reads, m'.latency ≤ job.readyAt := by
  obtain ⟨_, hqueue⟩ := tick_reads hs h
  have hlatency : m'.latency = m.latency := by
    unfold latency
    rw [tick_params h]
  have hadvanced : ∀ job ∈ advanced m.reads, m.latency ≤ job.readyAt := by
    have htimes := hv.times
    cases hr : m.reads with
    | nil => intro job hjob; cases hjob
    | cons head rest =>
        rw [hr] at htimes
        obtain ⟨hhead, hrest⟩ := List.forall_mem_cons.mp htimes
        dsimp only [advanced]
        split
        · exact hrest
        · exact List.forall_mem_cons.mpr ⟨hhead, hrest⟩
  intro job hjob
  rw [hqueue] at hjob
  rw [hlatency]
  rcases List.mem_append.mp hjob with hjob | hjob
  · split at hjob
    · exact hadvanced job hjob
    · exact hv.times job hjob
  · obtain ⟨r, _, rfl⟩ := List.mem_map.mp hjob
    exact Nat.le_add_left _ _

/-- The queue takes a request only while it has a place for it. -/
theorem Serves.bound_next (hv : Serves m₀ past m) (hs : m.readWires = .ok reads.slave)
    (h : (m.tick reads writes).result = .ok m') :
    m'.reads.length ≤ m'.params.readOutstanding := by
  obtain ⟨_, hqueue⟩ := tick_reads hs h
  have hleave := length_advanced hs
  have hbound := hv.bound
  rw [tick_params h, hqueue, List.length_append, List.length_map]
  cases hfire : reads.arFired with
  | none =>
      rw [Option.toList_none, List.length_nil]
      omega
  | some r =>
      have hready : reads.slave.arReady = true := by
        unfold ReadBus.arFired at hfire
        split at hfire
        · assumption
        · cases hfire
      rw [arReady_eq hs] at hready
      have hfree := of_decide_eq_true hready
      rw [Option.toList_some, List.length_singleton]
      omega

/-- The beat of a clock cycle is the answer to a word that waited. -/
theorem Serves.queue_next (hv : Serves m₀ past m) (hg : m₀.store.geometry.Legal)
    (hs : m.readWires = .ok reads.slave) (h : (m.tick reads writes).result = .ok m') :
    ∃ done, asked (past ++ [⟨m, reads, writes⟩]) = done ++ m'.waiting
      ∧ done.length = (sent (past ++ [⟨m, reads, writes⟩])).length
      ∧ (sent (past ++ [⟨m, reads, writes⟩])).map (·.2)
        = List.zipWith (fun w s => w.answer s.1) done (sent (past ++ [⟨m, reads, writes⟩])) := by
  obtain ⟨done, hasked, hlen, hsent⟩ := hv.queue
  obtain ⟨answered, hwords, hbeats⟩ := hv.waiting_next hg hs h
  -- the beat of this cycle, with the store that it was looked up in
  have hpairs : sent (past ++ [⟨m, reads, writes⟩])
      = sent past ++ answered.map fun w => (m.store, w.answer m.store) := by
    rw [sent_concat]
    dsimp only
    cases hb : reads.rFired with
    | none =>
        rw [hb] at hbeats
        rw [List.map_eq_nil_iff.mp hbeats.symm]
        rfl
    | some b =>
        rw [hb] at hbeats
        have hpaired := congrArg (List.map fun b => (m.store, b)) hbeats
        rw [List.map_map] at hpaired
        rw [Option.map_some, Option.toList_some]
        exact congrArg (sent past ++ ·) hpaired
  refine ⟨done ++ answered, ?_, ?_, ?_⟩
  · rw [asked_concat, hasked, List.append_assoc]
    dsimp only
    rw [hwords, List.append_assoc]
  · rw [hpairs, List.length_append, List.length_append, List.length_map, hlen]
  · rw [hpairs, List.map_append, hsent, List.zipWith_append hlen, List.map_map,
      List.zipWith_map_right, List.zipWith_self]
    rfl

/-- The bursts accepted are those finished and those in the queue. -/
theorem Serves.bursts_next (hv : Serves m₀ past m) (hs : m.readWires = .ok reads.slave)
    (h : (m.tick reads writes).result = .ok m') :
    (accepted (past ++ [⟨m, reads, writes⟩])).length
      = (sent (past ++ [⟨m, reads, writes⟩])).countP (·.2.last) + m'.reads.length := by
  obtain ⟨_, hqueue⟩ := tick_reads hs h
  have hcount := hv.bursts
  have hleave := length_advanced hs
  have hlasts : ((reads.rFired.map (m.store, ·)).toList).countP (·.2.last)
      = reads.rFired.toList.countP (·.last) := by
    cases reads.rFired <;> rfl
  rw [accepted_concat, sent_concat, List.length_append, List.countP_append, hlasts, hqueue,
    List.length_append, List.length_map]
  dsimp only
  omega

theorem Serves.next (hv : Serves m₀ past m) (hg : m₀.store.geometry.Legal)
    (hs : m.readWires = .ok reads.slave) (h : (m.tick reads writes).result = .ok m') :
    Serves m₀ (past ++ [⟨m, reads, writes⟩]) m' := by
  obtain ⟨hgeo, _⟩ := tick_reads hs h
  refine ⟨?_, (tick_params h).trans hv.params, hgeo.trans hv.geometry,
    readsOpen_tick hs hv.unfinished h, hv.times_next hs h, hv.queue_next hg hs h,
    hv.bursts_next hs h, hv.bound_next hs h⟩
  rw [tick_cycle h, hv.clock, List.length_append]
  rfl

theorem Cycles.serves (hg : m₀.store.geometry.Legal) (hempty : m₀.reads = [])
    (h : Cycles m₀ past m) : Serves m₀ past m := by
  induction h with
  | start => exact serves_init hempty
  | cycle _ hs _ hnext ih => exact ih.next hg hs hnext

/-- A burst in the queue was accepted. -/
theorem Serves.known (hv : Serves m₀ past m) : ∀ job ∈ m.reads, job.request ∈ accepted past := by
  intro job hjob
  obtain ⟨done, hasked, _⟩ := hv.queue
  have hopen := hv.unfinished job hjob
  have hword : (⟨job.readyAt - m.latency, job.request, job.beat⟩ : ReadWord) ∈ asked past := by
    rw [hasked]
    refine List.mem_append_right _ (List.mem_flatMap.mpr ⟨job, hjob, ?_⟩)
    rw [ReadJob.words_of_lt hopen]
    exact List.mem_cons_self
  obtain ⟨e, he, hword⟩ := List.mem_flatMap.mp hword
  obtain ⟨r, hr, hword⟩ := List.mem_flatMap.mp hword
  obtain ⟨k, _, hsame⟩ := List.mem_map.mp hword
  have hrequest : r = job.request := congrArg ReadWord.request hsame
  rw [← hrequest]
  exact List.mem_filterMap.mpr ⟨e, he, Option.mem_toList.mp hr⟩

/-- The wires can be driven while the bursts accepted end within the address space. -/
theorem Serves.wires_ok (hv : Serves m₀ past m) (hg : m₀.store.geometry.Legal)
    (hreach : ∀ r ∈ accepted past,
      r.addr + r.len * m₀.store.geometry.wordBytes < limit64) :
    ∃ slave, m.readWires = .ok slave := by
  refine readWires_ok (hv.wordBytes_ne_zero hg) fun job hjob => ?_
  have hlast := hreach job.request (hv.known job hjob)
  have hopen : job.beat < job.request.len + 1 := hv.unfinished job hjob
  have hmul := Nat.mul_le_mul_right m₀.store.geometry.wordBytes (Nat.le_of_lt_succ hopen)
  rw [hv.geometry]
  omega

end Memory

/-- **The memory answers every request in full and in order.** The beats sent are, one by one,
the words of the requests accepted: each has the number of its request, ends the burst exactly if
it is its last word, and shows what the store held there when its cycle began. A beat is shown
only after the latency of its own request, and no more bursts are in flight than allowed. While
the requests end within the address space the memory can drive its wires, and it has a next state
unless a write that is complete leaves the address space. -/
theorem reads_answered {m₀ m : Memory} {past : List MemoryCycle}
    (hg : m₀.store.geometry.Legal) (hempty : m₀.reads = []) (h : m₀.Cycles past m) :
    ((Memory.sent past).length ≤ (Memory.asked past).length
        ∧ (Memory.sent past).map (·.2)
          = List.zipWith (fun w s => w.answer s.1) (Memory.asked past) (Memory.sent past))
      ∧ m.cycle = m₀.cycle + past.length
      ∧ (∀ slave b, m.readWires = .ok slave → slave.r = some b →
        ∃ w, (Memory.asked past)[(Memory.sent past).length]? = some w
          ∧ w.accepted + max 1 m₀.params.readLatency ≤ m.cycle ∧ b = w.answer m.store)
      ∧ (Memory.accepted past).length
        ≤ (Memory.sent past).countP (·.2.last) + m₀.params.readOutstanding
      ∧ ((∀ r ∈ Memory.accepted past,
          r.addr + r.len * m₀.store.geometry.wordBytes < limit64) →
        ∃ slave, m.readWires = .ok slave)
      ∧ ∀ reads writes, (∀ r beats, m.completes? writes = some (r, beats) →
          ∀ k < beats.length, r.addr + k * m₀.store.geometry.wordBytes < limit64) →
        ∃ m', (m.tick reads writes).result = .ok m' := by
  have hv := h.serves hg hempty
  obtain ⟨done, hasked, hlen, hsent⟩ := hv.queue
  refine ⟨⟨?_, ?_⟩, hv.clock, ?_, ?_, hv.wires_ok hg, ?_⟩
  · rw [hasked, List.length_append, hlen]
    exact Nat.le_add_right _ _
  · -- the words that wait have no partner yet
    have hpaired : List.zipWith (fun (w : ReadWord) (s : Store × ReadBeat) => w.answer s.1)
          (done ++ m.waiting) (Memory.sent past ++ [])
        = List.zipWith (fun w s => w.answer s.1) done (Memory.sent past)
          ++ List.zipWith (fun w s => w.answer s.1) m.waiting ([] : List (Store × ReadBeat)) :=
      List.zipWith_append hlen
    rw [List.append_nil, List.zipWith_nil_right, List.append_nil] at hpaired
    rw [hasked, hpaired, hsent]
  · intro slave b hs hr
    obtain ⟨w, rest, hwaiting, htime, hanswer⟩ := hv.valid hg hs hr
    refine ⟨w, ?_, ?_, hanswer⟩
    · rw [hasked, hwaiting, ← hlen, List.getElem?_append_right (Nat.le_refl _), Nat.sub_self]
      rfl
    · rw [Memory.latency, hv.params, Nat.max_comm] at htime
      exact htime
  · have hbound := hv.bound
    rw [hv.params] at hbound
    rw [hv.bursts]
    omega
  · intro reads writes hreach
    refine Memory.tick_ok (hv.wordBytes_ne_zero hg) reads writes fun r beats hdone k hk => ?_
    rw [hv.geometry]
    have hmul := Nat.mul_le_mul_right m₀.store.geometry.wordBytes (Nat.mod_le k limit32)
    exact Nat.lt_of_le_of_lt (Nat.add_le_add_left hmul _) (hreach r beats hdone k hk)

/-- A memory of eight words, the third of them declared faulty. A write is stored before the
first beat is due, that beat is kept waiting for a cycle, and the second request asks for a word
behind the last one. -/
theorem reads_answered_two_requests :
    ∃ (past : List MemoryCycle) (m : Memory) (slave : ReadSlave) (b : ReadBeat),
      (Memory.ofParams ⟨8, 2, 2, 2, [⟨16, 24, .slvErr⟩]⟩ {}).Cycles past m
        ∧ (Memory.sent past).map (·.2)
          = [⟨3, 42, .okay, false⟩, ⟨3, 0, .slvErr, true⟩, ⟨5, 0, .okay, false⟩]
        ∧ (Memory.sent past).length ≤ (Memory.asked past).length
        ∧ m.readWires = .ok slave ∧ slave.r = some b
        ∧ ∃ w, (Memory.asked past)[3]? = some w ∧ w.accepted + 2 ≤ m.cycle
          ∧ b = w.answer m.store := by
  obtain ⟨past, m, hrun, hseen⟩ := exists_run_of_seen
    (Memory.ofParams ⟨8, 2, 2, 2, [⟨16, 24, .slvErr⟩]⟩ {}).Cycles Memory.attempt
    (fun _ _ _ _ _ => Memory.Cycles.attempt)
    .start
    [({ ar := some { id := 3, addr := 8, len := 1 } },
        { aw := some { addr := 8 }, w := some ⟨42, true⟩ }),
      ({ ar := some { id := 5, addr := 56, len := 1 } }, {}), ({}, {}),
      ({ rReady := true }, {}), ({ rReady := true }, {}), ({ rReady := true }, {})]
    (fun (past, m) => (Memory.sent past).map (·.2)
        = [⟨3, 42, .okay, false⟩, ⟨3, 0, .slvErr, true⟩, ⟨5, 0, .okay, false⟩]
      ∧ (m.readWires.toOption.bind (·.r)).isSome)
    (by decide +kernel)
  obtain ⟨hsent, hvalid⟩ := hseen
  have hthree : (Memory.sent past).length = 3 := by
    rw [← List.length_map (f := (·.2)), hsent]
    rfl
  obtain ⟨⟨hlen, _⟩, _, hnext, _⟩ := reads_answered (by decide) rfl hrun
  obtain ⟨b, hb⟩ := Option.isSome_iff_exists.mp hvalid
  obtain ⟨slave, hs, hr⟩ := Option.bind_eq_some_iff.mp hb
  obtain ⟨w, hw, htime, hanswer⟩ := hnext slave b (ok_of_toOption hs) hr
  rw [hthree] at hw
  exact ⟨past, m, slave, b, hrun, hsent, hlen, ok_of_toOption hs, hr, w, hw, htime, hanswer⟩

end BurstDma
