import BurstDma.Proofs.Stall

/-!
# An open burst has its words

A writer asks for a burst when its buffer holds all of it, and only the writer itself takes
beats out of that buffer. So in both modes **an open burst never waits for its stream**: the
words that it still has to send are in the buffer, and one of them goes in every cycle.

The whole bus depends on this, since the lock of the arbiter shuts out every other port. With
the credit of the owner the lock runs like a clock: `Machine.hold` is the number of cycles until
it is released, and it counts down whatever is pushed, or not pushed, in the meantime. While
the answer of the memory is awaited the owner may already wait for the words of its next burst;
the lock does not wait for them.
-/

namespace BurstDma

/-- The number of clock cycles among some moments. -/
def cyclesOf (past : List Moment) : Nat :=
  past.countP (·.2 == .tick)

theorem cyclesOf_tick (past : List Moment) (s : Machine) :
    cyclesOf (past ++ [(s, .tick)]) = cyclesOf past + 1 := by
  unfold cyclesOf
  rw [List.countP_append, List.countP_singleton]
  rfl

theorem cyclesOf_of_ne_tick {op : Operation} (h : op ≠ .tick) (past : List Moment) (s : Machine) :
    cyclesOf (past ++ [(s, op)]) = cyclesOf past := by
  unfold cyclesOf
  rw [List.countP_append, List.countP_singleton, if_neg (by simpa using h)]
  rfl

namespace Memory

variable {m m' : Memory}

/-- The response that waits is shown when it is due. -/
theorem b_of_response {resp : WriteResp} {due : Nat} (h : m.response = some (resp, due)) :
    m.writeWires.b = if due ≤ m.cycle then some resp else none := by
  have hwire : m.writeWires.b = (m.response.filter (·.2 ≤ m.cycle)).map (·.1) := rfl
  rw [hwire, h]
  by_cases hdue : due ≤ m.cycle
  · simp [hdue]
  · simp [hdue, Nat.lt_of_not_le hdue]

/-- A new response is due after the latency. -/
theorem tick_due {reads : ReadBus} {writes : WriteBus}
    (h : (m.tick reads writes).result = .ok m') :
    m'.params = m.params ∧ ∀ response, m'.response = some response →
      m.response = some response
        ∨ response.2 = m.cycle + max m.params.writeLatency 1 := by
  obtain ⟨t, ht, h⟩ := Run.result_bind_eq_ok.mp h
  cases h
  obtain ⟨⟨hreads, hclock, _, hresponse, _⟩, _⟩ := m.tickReads_counts reads
  obtain ⟨⟨hwrites, _⟩, _, _, _, hdue⟩ := tickWrites_counts ht
  rw [hreads, hclock, hresponse] at hdue
  exact ⟨hwrites.trans hreads, hdue⟩

end Memory

namespace Machine

variable {params : MachineParams} {s s' t : Machine} {slave : ReadSlave} {i id : Nat} {p p' : Port}

/-! ## The credit -/

/-- **What a burst still has to send is in the buffer**, and while it is open that is not
nothing. -/
theorem words_held (hr : Machine.Reachable params s) (hp : s.ports[i]? = some p) :
    (p.writer.core.phase = .issueBurst → p.writer.core.burst ≤ p.writeFifo.beats.length)
      ∧ (p.writer.core.phase = .transferBurst →
        1 ≤ p.writer.core.burst - p.writer.core.beat
          ∧ p.writer.core.burst - p.writer.core.beat ≤ p.writeFifo.beats.length) := by
  obtain ⟨hissue, hopen⟩ := backed_reachable hr i p hp
  refine ⟨hissue, fun hph => ?_⟩
  have hbeat := ((bounded_reachable hr).port i p hp).writer.beat hph
  unfold WriteCore.openWords at hopen
  rw [if_pos hph] at hopen
  exact ⟨Nat.sub_pos_of_lt hbeat, hopen⟩

/-- So an open burst offers a word in every cycle. -/
theorem word_offered (hr : Machine.Reachable params s) (hp : s.ports[i]? = some p)
    (hph : p.writer.core.phase = .transferBurst) : ∃ head, p.writeFifo.head? = some head
      ∧ p.writeWires.w = some ⟨head.data, p.writer.core.onLastBeat⟩ := by
  obtain ⟨hone, hheld⟩ := (words_held hr hp).2 hph
  obtain ⟨head, rest, hcons⟩ := List.exists_cons_of_length_pos (Nat.le_trans hone hheld)
  have hhead : p.writeFifo.head? = some head := by
    unfold Fifo.head?
    rw [hcons, List.head?_cons]
  have hwire : p.writeWires.w = if p.writer.core.phase = .transferBurst then
      p.writeFifo.head?.map fun head => ⟨head.data, p.writer.core.onLastBeat⟩ else none := rfl
  rw [hwire, if_pos hph, hhead]
  exact ⟨head, rfl, rfl⟩

/-- **A word that is sent leaves the front of the buffer**, and nothing else does. -/
theorem word_sent {rstep : ReadStep} {wstep : WriteStep}
    (h : p.Edge (s.readBus slave i p) (s.writeBus i p) rstep wstep p') :
    ∃ (sent : Option Beat) (kept entered : List Beat),
      (s.writeBus i p).wFired = sent.map (fun b => ⟨b.data, p.writer.core.onLastBeat⟩)
        ∧ p.writeFifo.beats = sent.toList ++ kept ∧ p'.writeFifo.beats = kept ++ entered
        ∧ p.source.queue = entered ++ p'.source.queue := by
  obtain ⟨entered, hbeats, hqueue⟩ := h.moves
  have hpop := (served_edge h).pop
  cases hfired : (s.writeBus i p).wFired with
  | none =>
      have hstill : wstep.pop = false := hpop.trans (congrArg Option.isSome hfired)
      rw [hstill, if_neg Bool.false_ne_true] at hbeats
      exact ⟨none, p.writeFifo.beats, entered, rfl, rfl, hbeats, hqueue⟩
  | some w =>
      have hsends : wstep.pop = true := hpop.trans (congrArg Option.isSome hfired)
      obtain ⟨head, hhead, _, hph⟩ := Port.sends_head hsends h
      obtain ⟨rest, hrest⟩ := List.head?_eq_some_iff.mp hhead
      -- what moves is what is offered
      have hwire : p.writeWires.w = some ⟨head.data, p.writer.core.onLastBeat⟩ := by
        show (if p.writer.core.phase = .transferBurst then
          p.writeFifo.head?.map fun head => (⟨head.data, p.writer.core.onLastBeat⟩ : WriteBeat)
            else none) = _
        rw [if_pos hph, hhead]
        rfl
      have hw : some w = p.writeWires.w := by
        unfold WriteBus.wFired at hfired
        split at hfired
        · exact hfired.symm
        · cases hfired
      rw [hsends, if_pos rfl, hrest, List.tail_cons] at hbeats
      exact ⟨some head, rest, entered, hw.trans hwire, hrest, hbeats, hqueue⟩

/-! ## The lock -/

/-- **A locked bus waits for nothing but the clock**: its owner sends a word in this cycle, or
the memory has the whole burst and keeps the answer until it is due. -/
theorem lock_served (hr : Machine.Reachable params s) (hl : s.writeArbiter.lock ≠ .select) :
    (∃ id p, s.writeArbiter.lock = .writeChannel id true ∧ s.ports[id]? = some p
        ∧ p.writer.core.phase = .transferBurst ∧ (s.writeBus id p).wFired.isSome = true)
      ∨ ∃ id resp due, s.writeArbiter.lock = .responseChannel id
        ∧ s.memory.response = some (⟨id, resp⟩, due) := by
  have ho := writeOrderly_reachable hr
  have hstage := ho.stage
  cases hlock : s.writeArbiter.lock with
  | select => exact absurd hlock hl
  | writeChannel id addrDone =>
      rw [hlock] at hstage
      cases hstage with
      | data _ r hid _ _ _ _ =>
          have hp := List.getElem?_eq_getElem hid
          have hph := (ho.port id _ hp).sending.mpr hlock
          obtain ⟨_, _, hoffer⟩ := word_offered hr hp hph
          refine Or.inl ⟨id, _, rfl, hp, hph, ?_⟩
          rw [word_taken ho hp, hoffer]
          rfl
  | addressChannel id =>
      rw [hlock] at hstage
      cases hstage
  | responseChannel id =>
      rw [hlock] at hstage
      obtain ⟨_, resp, due, _, _, _, hresponse⟩ := hstage.answer_inv
      exact Or.inr ⟨id, resp, due, rfl, hresponse⟩

/-- The cycles until the write bus is free: one for each word that the open burst still sends,
and those until the memory has answered. -/
def hold (s : Machine) : Nat :=
  match s.writeArbiter.lock with
  | .select => 0
  | .writeChannel id _ =>
    (s.ports[id]?).elim 0 (·.writer.core.openWords) + max s.memory.params.writeLatency 1
  | .addressChannel _ => max s.memory.params.writeLatency 1
  | .responseChannel _ => s.memory.writeDelay + 1

theorem hold_of_data (hl : s.writeArbiter.lock = .writeChannel id true)
    (hp : s.ports[id]? = some p) :
    s.hold = p.writer.core.openWords + max s.memory.params.writeLatency 1 := by
  unfold hold
  rw [hl]
  dsimp only
  rw [hp]
  rfl

theorem hold_of_answer {resp : WriteResp} {due : Nat}
    (hl : s.writeArbiter.lock = .responseChannel id) (hr : s.memory.response = some (resp, due)) :
    s.hold = due - s.memory.cycle + 1 := by
  unfold hold Memory.writeDelay
  rw [hl, hr]
  rfl

/-- Only a free bus is not held. -/
theorem hold_eq_zero_iff : s.hold = 0 ↔ s.writeArbiter.lock = .select := by
  unfold hold
  cases s.writeArbiter.lock with
  | select => exact ⟨fun _ => rfl, fun _ => rfl⟩
  | writeChannel id addrDone =>
      refine ⟨fun h => ?_, fun h => by cases h⟩
      dsimp only at h
      omega
  | addressChannel id =>
      refine ⟨fun h => ?_, fun h => by cases h⟩
      dsimp only at h
      omega
  | responseChannel id =>
      refine ⟨fun h => ?_, fun h => by cases h⟩
      dsimp only at h
      omega

/-- A word that is sent is one less to send. -/
theorem openWords_sent {rstep : ReadStep} {wstep : WriteStep} (hr : Machine.Reachable params s)
    (hp : s.ports[i]? = some p) (hf : (s.writeBus i p).Fires false true none)
    (h : p.Edge (s.readBus slave i p) (s.writeBus i p) rstep wstep p') :
    p.writer.core.openWords = p'.writer.core.openWords + 1 := by
  obtain ⟨hcore, _⟩ := WriteEngine.tick_core h.writer
  obtain ⟨haw, hw⟩ := s.phase_of_fires i p
  obtain ⟨_, _, _, _, hpop, hissued⟩ := fires_edge hf h
  have hwords := WriteCore.openWords_next ((bounded_reachable hr).port i p hp).writer.beat haw
    (fun hc => (hw hc).1) hcore
  rw [hissued, hpop, if_pos rfl] at hwords
  simpa using hwords

/-- While the answer is awaited, it comes one cycle closer. -/
theorem hold_answer (hr : Machine.Reachable params s) (h : s.Edge slave s')
    (hl : s.writeArbiter.lock = .responseChannel id) : s'.hold + 1 = s.hold := by
  have ho := writeOrderly_reachable hr
  have hcycle := Memory.tick_cycle h.memory
  obtain ⟨hm, _⟩ := write_move ho h
  obtain ⟨_, _, hanswer⟩ := writes_taken ho
  have hstage := ho.stage
  rw [hl] at hstage
  obtain ⟨_, resp, due, _, _, _, hdue⟩ := hstage.answer_inv
  have howner := List.getElem?_eq_getElem (owner_lt hr)
  obtain ⟨_, _, hdb⟩ := owner_fires howner
  have hshown := hanswer.trans (Memory.b_of_response hdue)
  rw [hold_of_answer hl hdue]
  cases hm with
  | rest hfires hlock _ _ hnone =>
      -- it is not due yet
      have hsilent := hdb.trans (hfires _ _ howner).b
      have hlate : ¬ due ≤ s.memory.cycle := by
        intro hc
        rw [hsilent, if_pos hc] at hshown
        cases hshown
      have hkept := Memory.response_kept (Memory.tick_writeEdge h.memory) hnone hsilent
      rw [hold_of_answer (hlock.trans hl) (hkept.trans hdue), hcycle]
      omega
  | answer id resp hfires hlock hlock' _ =>
      have hid : s.writeArbiter.owner = id := WriteArbiter.owner_eq hlock
      have hgiven := hdb.trans (hfires _ _ howner).b
      have hready : due ≤ s.memory.cycle := by
        by_contra hc
        rw [hgiven, if_pos hid, if_neg hc] at hshown
        cases hshown
      rw [hold_eq_zero_iff.mpr hlock']
      omega
  | start id q _ _ _ hfree =>
      rw [hl] at hfree
      cases hfree
  | send id q head _ _ _ _ hopen =>
      rw [hl] at hopen
      cases hopen
  | close id q head r _ _ _ _ hopen =>
      rw [hl] at hopen
      cases hopen

/-- While words are sent, there is one less in every cycle, and behind the last of them the
memory has all it needs for its answer. -/
theorem hold_data (hr : Machine.Reachable params s) (h : s.Edge slave s')
    (hl : s.writeArbiter.lock = .writeChannel id true) (hp : s.ports[id]? = some p)
    (hword : (s.writeBus id p).wFired.isSome = true) : s'.hold + 1 = s.hold := by
  have ho := writeOrderly_reachable hr
  obtain ⟨hparams, hdue⟩ := Memory.tick_due h.memory
  obtain ⟨hm, hstage'⟩ := write_move ho h
  rw [hold_of_data hl hp]
  cases hm with
  | rest hfires _ _ _ _ =>
      rw [(hfires id p hp).w] at hword
      cases hword
  | send id' q head hq _ _ hfires hlock hlock' _ _ _ =>
      rw [hl] at hlock
      cases hlock
      rw [hp] at hq
      cases hq
      obtain ⟨rstep, wstep, p', hp', hport⟩ := h.port id p hp
      have hf := hfires id p hp
      rw [beq_self_eq_true] at hf
      rw [hold_of_data hlock' hp', openWords_sent hr hp hf hport, hparams]
      omega
  | close id' q head r hq _ hlast _ hlock hlock' _ _ _ =>
      rw [hl] at hlock
      cases hlock
      rw [hp] at hq
      cases hq
      have hone : p.writer.core.openWords = 1 := by
        have hbeat : p.writer.core.beat + 1 = p.writer.core.burst := beq_iff_eq.mp hlast
        unfold WriteCore.openWords
        rw [if_pos ((ho.port id p hp).sending.mpr hl)]
        omega
      have hstage := ho.stage
      rw [hl] at hstage
      rw [hlock'] at hstage'
      obtain ⟨_, _, _, _, _, hnone⟩ := hstage.data_inv
      obtain ⟨_, resp, due, _, _, _, hresponse⟩ := hstage'.answer_inv
      rcases hdue _ hresponse with hold | hdue
      · rw [hnone] at hold
        cases hold
      · dsimp only at hdue
        rw [hold_of_answer hlock' hresponse, Memory.tick_cycle h.memory, hdue, hone]
        omega
  | start id' q _ _ _ hfree =>
      rw [hl] at hfree
      cases hfree
  | answer id' resp _ hlock =>
      rw [hl] at hlock
      cases hlock

/-- **In every cycle of a locked bus its release comes one cycle closer.** -/
theorem hold_edge (hr : Machine.Reachable params s) (h : s.Edge slave s')
    (hl : s.writeArbiter.lock ≠ .select) : s'.hold + 1 = s.hold := by
  rcases lock_served hr hl with ⟨id, p, hlock, hp, _, hword⟩ | ⟨id, _, _, hlock, _⟩
  · exact hold_data hr h hlock hp hword
  · exact hold_answer hr h hlock

/-- Between the cycles nothing happens to the lock. -/
theorem hold_touched {op : Operation} (h : s.Touched op s') : s'.hold = s.hold := by
  have hmemory : s'.memory.params = s.memory.params
      ∧ s'.memory.writeDelay = s.memory.writeDelay := by
    rw [h.memory]
    exact ⟨rfl, rfl⟩
  have hwords : ∀ id : Nat, (s'.ports[id]?).elim 0 (fun p : Port => p.writer.core.openWords)
      = (s.ports[id]?).elim 0 fun p : Port => p.writer.core.openWords := by
    intro id
    cases hp : s.ports[id]? with
    | none =>
        rw [List.getElem?_eq_none_iff] at hp
        rw [List.getElem?_eq_none_iff.mpr (h.length ▸ hp)]
    | some p =>
        obtain ⟨p', hp', hport⟩ := h.port id p hp
        rw [hp']
        exact congrArg (·.core.openWords) hport.writer
  unfold hold
  rw [h.writeArbiter, hmemory.1, hmemory.2]
  simp only [hwords]

end Machine

section

variable {params : MachineParams} {s t : Machine} {between : List Moment}

/-- **A locked bus is released on time**, whatever is done between the cycles. -/
theorem History.hold_eq (hr : Machine.Reachable params s) (h : History s between t)
    (hu : Uninterrupted between) (hle : cyclesOf between ≤ s.hold) :
    t.hold + cyclesOf between = s.hold := by
  induction h with
  | start => rfl
  | @step past u u' op hist hop ih =>
      obtain ⟨hpast, hreset⟩ := uninterrupted_concat.mp hu
      have hru : Machine.Reachable params u := by
        obtain ⟨s₀, before, h₀, h⟩ := hr
        exact ⟨s₀, _, h₀, h.trans hist⟩
      by_cases ht : op = .tick
      · subst ht
        rw [cyclesOf_tick] at hle ⊢
        have hheld := ih hpast (Nat.le_of_succ_le hle)
        have hlocked : u.writeArbiter.lock ≠ .select := by
          intro hc
          rw [Machine.hold_eq_zero_iff.mpr hc] at hheld
          omega
        obtain ⟨slave, hedge⟩ := Machine.tick_edge hop
        have hnext := Machine.hold_edge hru hedge hlocked
        omega
      · rw [cyclesOf_of_ne_tick ht] at hle ⊢
        rw [Machine.hold_touched (Machine.touched_of_apply hru.formed.indexed hop ht hreset)]
        exact ih hpast hle

/-- **Write credit is sound**, in either mode, in every state and whatever is done to the
machine. When a writer asks for a burst its buffer holds the whole of it, and while the burst is
open it holds the rest, which is not empty. So an open burst offers a word in every cycle, and
what moves is the oldest beat, which leaves the buffer as the only one. The lock is never held up
by a stream: its owner sends a word in this cycle, or all words of the burst are stored and the
memory keeps the answer until it is due. And so the lock is released after exactly `hold`
cycles, whatever the streams bring, or fail to bring, between them. -/
theorem write_credit (hr : Machine.Reachable params s) :
    (∀ (i : Nat) (p : Port), s.ports[i]? = some p →
      (p.writer.core.phase = .issueBurst → p.writer.core.burst ≤ p.writeFifo.beats.length)
        ∧ (p.writer.core.phase = .transferBurst →
          1 ≤ p.writer.core.burst - p.writer.core.beat
            ∧ p.writer.core.burst - p.writer.core.beat ≤ p.writeFifo.beats.length
            ∧ p.writeWires.w.isSome = true)
        ∧ ∀ s', s.tick.result = .ok s' →
          ∃ (p' : Port) (sent : Option Beat) (kept entered : List Beat),
            s'.ports[i]? = some p'
              ∧ (s.writeBus i p).wFired
                = sent.map (fun b => ⟨b.data, p.writer.core.beat + 1 == p.writer.core.burst⟩)
              ∧ p.writeFifo.beats = sent.toList ++ kept
              ∧ p'.writeFifo.beats = kept ++ entered
              ∧ p.source.queue = entered ++ p'.source.queue)
      ∧ (s.writeArbiter.lock ≠ .select →
        (∃ id p, s.writeArbiter.lock = .writeChannel id true ∧ s.ports[id]? = some p
            ∧ p.writer.core.phase = .transferBurst ∧ (s.writeBus id p).wFired.isSome = true)
          ∨ ∃ id resp due, s.writeArbiter.lock = .responseChannel id
            ∧ s.memory.response = some (⟨id, resp⟩, due))
      ∧ ∀ between t, History s between t → Uninterrupted between →
        cyclesOf between ≤ s.hold →
        (t.writeArbiter.lock = .select ↔ cyclesOf between = s.hold) := by
  refine ⟨?_, Machine.lock_served hr, ?_⟩
  · intro i p hp
    obtain ⟨hissue, hopen⟩ := Machine.words_held hr hp
    refine ⟨hissue, ?_, ?_⟩
    · intro hph
      obtain ⟨_, _, hoffer⟩ := Machine.word_offered hr hp hph
      exact ⟨(hopen hph).1, (hopen hph).2, by rw [hoffer]; rfl⟩
    · intro s' htick
      obtain ⟨slave, hedge⟩ := Machine.tick_edge htick
      obtain ⟨rstep, wstep, p', hp', hport⟩ := hedge.port i p hp
      obtain ⟨sent, kept, entered, hfired, hbeats, hnext, hqueue⟩ := Machine.word_sent hport
      exact ⟨p', sent, kept, entered, hp', hfired, hbeats, hnext, hqueue⟩
  · intro between t h hu hle
    have hheld := h.hold_eq hr hu hle
    rw [← Machine.hold_eq_zero_iff]
    omega

end

/-- In the middle of a burst in frame mode, while a writer in length mode asks for the bus: a
word is offered, the other buffer holds its burst, and four cycles later the bus is free. -/
theorem write_credit_contended :
    ∃ s between t p q, Machine.Reachable { ports := [{ frameMode := true }, {}] } s
      ∧ s.ports[0]? = some p ∧ p.writer.core.phase = .transferBurst ∧ p.writer.core.beat = 1
      ∧ p.writeWires.w.isSome = true ∧ s.ports[1]? = some q
      ∧ q.writer.core.phase = .issueBurst
      ∧ q.writer.core.burst ≤ q.writeFifo.beats.length ∧ History s between t
      ∧ cyclesOf between = 4 ∧ t.writeArbiter.lock = .select := by
  have hrun : Machine.trial { ports := [{ frameMode := true }, {}] }
      ([.push 0 [⟨5, false⟩, ⟨6, false⟩, ⟨7, true⟩], .push 1 [⟨9, false⟩, ⟨8, true⟩]]
        ++ Operation.program 0 .writer 0 0 16 ++ Operation.program 1 .writer 40 2 2
        ++ List.replicate 6 .tick)
      (fun _ s => decide (s.hold = 4)
        && (s.ports[0]?).any (fun p => decide (p.writer.core.phase = .transferBurst)
          && decide (p.writer.core.beat = 1))
        && (s.ports[1]?).any (fun q => decide (q.writer.core.phase = .issueBurst))
        && (s.replay (List.replicate 4 .tick)).toOption.any fun run =>
          decide (Uninterrupted run.1) && decide (cyclesOf run.1 = 4)) = true := by
    decide +kernel
  obtain ⟨s₀, past, s, h₀, h, hlook⟩ := Machine.exists_of_trial hrun
  simp only [Bool.and_eq_true, decide_eq_true_eq, Option.any_eq_true] at hlook
  obtain ⟨⟨⟨hhold, p, hp, hph, hbeat⟩, q, hq, hqph⟩, ⟨between, t⟩, hreplay, hu, hcycles⟩ := hlook
  have hr : Machine.Reachable { ports := [{ frameMode := true }, {}] } s := ⟨s₀, past, h₀, h⟩
  have hmore : History s between t := Machine.history_of_replay (ok_of_toOption hreplay)
  obtain ⟨hports, _, hlock⟩ := write_credit hr
  obtain ⟨_, hopen, _⟩ := hports 0 p hp
  obtain ⟨hissue, _⟩ := hports 1 q hq
  have hfree := (hlock between t hmore hu (Nat.le_of_eq (hcycles.trans hhold.symm))).mpr
    (hcycles.trans hhold.symm)
  exact ⟨s, between, t, p, q, hr, hp, hph, hbeat, (hopen hph).2.2, hq, hqph, hissue hqph, hmore,
    hcycles, hfree⟩

end BurstDma
