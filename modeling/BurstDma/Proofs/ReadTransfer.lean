import BurstDma.Proofs.ReadCredit

/-!
# What a reader delivers

The beats that a reader hands to its buffer are the words of its transfers, in order and
one by one. `ReadLedger` says where every word of every accepted transfer is: delivered,
on its way back, on its way to the memory, or not asked for. **A word never leaves that
order**, whatever the other ports do on the same bus, and so the finished part of the
ledger is the theorem.
-/

namespace BurstDma

/-- The beats that some transfers ask for, each with the word that its place held in the
store that it was read from. -/
def expectedBeats (g : Geometry) (accepted : List Descriptor) (stores : List Store) :
    List Beat :=
  List.zipWith (fun t store => ⟨store.valueAt (t.1.place g t.2), t.2 + 1 == t.1.words⟩)
    (wordsOf (whole accepted)) stores

/-! ## The ledger -/

/-- Where the words are that the reader of port `i` was asked for. -/
structure ReadLedger (g : Geometry) (i : Nat) (past : List Moment) (s : Machine) (p : Port) :
    Prop where
  /-- The memory has sent the first words, each read at its own address. -/
  sent : ∃ addrs,
    addressesOf g (whole (past.flatMap (Moment.readerTakes i)))
        = addrs ++ (s.unsent i ++ p.reader.core.toAsk g)
      ∧ addrs.length = (past.flatMap (Moment.memorySends i)).length
      ∧ (past.flatMap (Moment.memorySends i)).map (·.1.data)
        = List.zipWith (fun a t => t.2.valueAt (g.place a)) addrs
            (past.flatMap (Moment.memorySends i))
      ∧ (past.flatMap (Moment.memorySends i)).map (fun t => .ok (t.1.data, t.1.resp))
        = List.zipWith (fun a t => t.2.readAt a) addrs (past.flatMap (Moment.memorySends i))
  /-- What was sent has been delivered or is on its way. -/
  arrived : (past.flatMap (Moment.memorySends i)).map (·.1.data)
    = (past.flatMap (Moment.readerPushes i)).map (·.data) ++ (s.held i).map (·.data)
  /-- The marks on the beats are those of the words they stand for. -/
  marks : marksOf (whole (past.flatMap (Moment.readerTakes i)))
    = (past.flatMap (Moment.readerPushes i)).map (·.last) ++ p.reader.core.marksLeft
  /-- The reader is busy with the newest descriptor. -/
  length : p.reader.core.length
    = (((past.flatMap (Moment.readerTakes i)).getLast?).map (·.words)).getD 0
  /-- What was delivered is in the buffer, in the sink or collected. -/
  stream : past.flatMap (Moment.collects i) ++ p.sink.received ++ p.readFifo.beats
    = past.flatMap (Moment.readerPushes i)

namespace Moment

variable {s s' : Machine} {slave : ReadSlave} {i : Nat} {p p' : Port} {rstep : ReadStep}
  {wstep : WriteStep}

theorem reader_tick (hs : s.memory.readWires = .ok slave) (hp : s.ports[i]? = some p)
    (h : p.Edge (s.readBus slave i p) (s.writeBus i p) rstep wstep p') :
    readerTakes i (s, .tick) = ReadCore.taken (p.readInputs (s.readBus slave i p)) rstep
      ∧ readerPushes i (s, .tick) = rstep.push.toList := by
  unfold readerTakes readerPushes
  rw [readerEdge_tick hs hp h]
  exact ⟨rfl, rfl⟩

theorem reader_silent {op : Operation} (h : op ≠ .tick) (i : Nat) :
    readerTakes i (s, op) = [] ∧ readerPushes i (s, op) = [] ∧ memorySends i (s, op) = [] := by
  unfold readerTakes readerPushes memorySends readerEdge
  rw [wires?_of_ne_tick h]
  exact ⟨rfl, rfl, rfl⟩

end Moment

section

variable {params : MachineParams} {past : List Moment} {s s' : Machine} {slave : ReadSlave}
  {i : Nat} {p p' : Port} {rstep : ReadStep} {wstep : WriteStep}

/-- The beat that a reader hands over enters its buffer. -/
theorem stream_edge (hf : s.Formed params) (hc : s.Credited) (h : s.Edge slave s')
    (hp : s.ports[i]? = some p)
    (hedge : p.Edge (s.readBus slave i p) (s.writeBus i p) rstep wstep p') :
    p'.sink.received ++ p'.readFifo.beats
      = p.sink.received ++ p.readFifo.beats ++ rstep.push.toList := by
  obtain ⟨b, hdrain⟩ := hedge.drain
  obtain ⟨hbeats, _⟩ := Sink.tick_contents hdrain
  rw [hbeats]
  cases hpush : rstep.push with
  | none => simp
  | some beat =>
      obtain ⟨f, hfit⟩ :=
        Machine.push?_of_credited hf hc h.drives h.readArbiter hp hedge.reader hpush
      obtain ⟨_, hf', _⟩ := Fifo.push?_eq_some hfit
      simp [hfit, hf']

theorem readLedger_edge (hf : s.Formed params) (hc : s.Credited)
    (hl : ReadLedger params.geometry i past s p) (h : s.Edge slave s')
    (hp : s.ports[i]? = some p)
    (hedge : p.Edge (s.readBus slave i p) (s.writeBus i p) rstep wstep p') :
    ReadLedger params.geometry i (past ++ [(s, .tick)]) s' p' := by
  obtain ⟨q, _, hb⟩ := hf.port i p hp
  obtain ⟨hsound, _⟩ := hc i p hp
  obtain ⟨hcore, _⟩ := ReadEngine.tick_core hedge.reader
  rw [hb.readGeometry] at hcore
  obtain ⟨hoffer, hasked⟩ := s.arFired_readBus slave i p
  have harrive := Machine.fired_le_awaited hf.reads h.drives h.readArbiter hp
  obtain ⟨haddrs, hmarks, hdata, hlength⟩ :=
    ReadCore.next_flow hsound harrive hoffer hcore
  -- what the memory sent in this cycle, and where it was in the queues of the path
  obtain ⟨sent, hsends, hvalues, hunsent, hheld⟩ := Machine.read_flow hf.reads h hp
  rw [hasked, hf.geometry] at hunsent
  have hdata' : ∀ t ∈ sent, t.1.data = s.memory.store.valueAt (params.geometry.place t.2) := by
    intro t ht
    rw [← hf.geometry]
    exact Store.readAt_eq (hvalues t ht)
  obtain ⟨htakes, hpushes⟩ := Moment.reader_tick h.drives hp hedge
  obtain ⟨addrs, hall, hlen, hread, hanswers⟩ := hl.sent
  refine ⟨⟨addrs ++ sent.map (·.2), ?_, ?_, ?_, ?_⟩, ?_, ?_, ?_, ?_⟩
  · rw [log_concat, htakes, whole_append, addressesOf_append, hall]
    have hmoved : s.unsent i ++ (if (p.readInputs (s.readBus slave i p)).arFires = true then
        p.reader.core.request.addresses params.geometry else [])
          = sent.map (·.2) ++ s'.unsent i := hunsent
    rw [List.append_assoc, List.append_assoc, haddrs, ← List.append_assoc (s.unsent i), hmoved]
    simp
  · rw [log_concat, hsends]
    simp [hlen]
  · rw [log_concat, hsends, List.map_append, hread, List.zipWith_append hlen]
    -- the beats of this cycle carry what their places hold now
    congr 1
    rw [List.map_map, List.zipWith_map, List.zipWith_self]
    exact List.map_congr_left hdata'
  · rw [log_concat, hsends, List.map_append, hanswers, List.zipWith_append hlen]
    congr 1
    rw [List.map_map, List.zipWith_map, List.zipWith_self]
    exact List.map_congr_left fun t ht => (hvalues t ht).symm
  · have hheld' := congrArg (List.map (·.data)) hheld
    rw [log_concat, log_concat, hsends, hpushes, List.map_append, List.map_append, hl.arrived,
      hdata]
    have hback : (s.held i).map (·.data) ++ (sent.map (fun t => (t.1, s.memory.store))).map
          (·.1.data)
        = (p.readInputs (s.readBus slave i p)).beat.toList.map (·.data)
          ++ (s'.held i).map (·.data) := by
      rw [List.map_append, List.map_append, List.map_map] at hheld'
      rw [List.map_map]
      exact hheld'
    rw [List.append_assoc, hback, List.append_assoc]
  · rw [log_concat, log_concat, htakes, hpushes, whole_append, marksOf_append, hl.marks,
      List.append_assoc, hmarks, List.map_append, List.append_assoc]
  · rw [log_concat, htakes, hlength, hl.length, List.getLast?_append]
    cases (ReadCore.taken (p.readInputs (s.readBus slave i p)) rstep).getLast? <;> rfl
  · rw [log_concat, log_concat, hpushes, List.append_assoc, stream_edge hf hc h hp hedge,
      ← hl.stream]
    simp [Moment.collects]

theorem readLedger_touched {op : Operation} (ht : op ≠ .tick)
    (hl : ReadLedger params.geometry i past s p) (h : s.Touched op s')
    (hp : Port.Touched i (s, op) p p') :
    ReadLedger params.geometry i (past ++ [(s, op)]) s' p' := by
  obtain ⟨htakes, hpushes, hsends⟩ := Moment.reader_silent (s := s) ht i
  obtain ⟨hunsent, hheld⟩ := h.reads.2 i
  refine ⟨?_, ?_, ?_, ?_, ?_⟩
  · rw [log_concat, log_concat, htakes, hsends, hp.reader, hunsent, List.append_nil,
      List.append_nil]
    exact hl.sent
  · rw [log_concat, log_concat, hpushes, hsends, hheld, List.append_nil, List.append_nil]
    exact hl.arrived
  · rw [log_concat, log_concat, htakes, hpushes, hp.reader, List.append_nil, List.append_nil]
    exact hl.marks
  · rw [log_concat, htakes, hp.reader, List.append_nil]
    exact hl.length
  · rw [log_concat, log_concat, hpushes, hp.readFifo, List.append_nil, ← hl.stream, hp.sink]
    simp

end

theorem readLedger_init {params : MachineParams} {s : Machine}
    (h : Machine.ofParams params = .ok s) {i : Nat} {p : Port} (hp : s.ports[i]? = some p) :
    ReadLedger params.geometry i [] s p := by
  obtain ⟨_, hrest⟩ := Machine.reads_ofParams h
  obtain ⟨hunsent, hheld⟩ := hrest i
  rw [Machine.getElem?_ofParams h] at hp
  obtain ⟨q, _, rfl⟩ := Option.map_eq_some_iff.mp hp
  refine ⟨⟨[], ?_, rfl, rfl, rfl⟩, ?_, rfl, rfl, rfl⟩
  · rw [hunsent]
    rfl
  · rw [hheld]
    rfl

/-- **The ledger is kept along every history.** -/
theorem History.readLedger {params : MachineParams} {s₀ s : Machine} {past : List Moment}
    (h₀ : Machine.ofParams params = .ok s₀) (h : History s₀ past s) (hu : Uninterrupted past)
    {i : Nat} {p : Port} (hp : s.ports[i]? = some p) :
    ReadLedger params.geometry i past s p ∧ s.Credited := by
  have hrun : s.Credited ∧ ∀ p, s.ports[i]? = some p →
      ReadLedger params.geometry i past s p := by
    refine h.induction (P := fun past s => s.Credited ∧ ∀ p, s.ports[i]? = some p →
      ReadLedger params.geometry i past s p) h₀ hu ?_ ?_ ?_
    · exact ⟨(Machine.credited_reachable ⟨s₀, [], h₀, .start⟩).2,
        fun p hp => readLedger_init h₀ hp⟩
    · rintro past s s' slave hf ⟨hc, hl⟩ hedge
      refine ⟨Machine.credited_edge hf.reads hc hedge, fun p' hp' => ?_⟩
      obtain ⟨p, rstep, wstep, hp, hport⟩ := hedge.port' hp'
      exact readLedger_edge hf hc (hl p hp) hedge hp hport
    · rintro past s s' op ht hf ⟨hc, hl⟩ htouch
      refine ⟨Machine.credited_touched hc htouch, fun p' hp' => ?_⟩
      obtain ⟨p, hp, hport⟩ := htouch.port' hp'
      exact readLedger_touched ht (hl p hp) htouch hport
  exact ⟨hrun.2 p hp, hrun.1⟩

/-! ## The finished part of the ledger -/

/-- Two streams with the same words and the same marks are the same. -/
theorem beats_ext {bs cs : List Beat} (hd : bs.map (·.data) = cs.map (·.data))
    (hl : bs.map (·.last) = cs.map (·.last)) : bs = cs := by
  induction bs generalizing cs with
  | nil =>
      rw [List.map_nil] at hd
      exact (List.map_eq_nil_iff.mp hd.symm).symm
  | cons b bs ih =>
      cases cs with
      | nil => cases hd
      | cons c cs =>
          obtain ⟨bdata, blast⟩ := b
          obtain ⟨cdata, clast⟩ := c
          simp only [List.map_cons, List.cons.injEq] at hd hl
          rw [ih hd.2 hl.2, hd.1, hl.1]

/-- Of the longer list only the front counts. -/
theorem zipWith_front {α β γ : Type} (f : α → γ) {xs : List α} {ys : List β}
    (h : ys.length ≤ xs.length) :
    List.zipWith (fun x _ => f x) xs ys = (xs.take ys.length).map f := by
  induction ys generalizing xs with
  | nil => simp
  | cons y ys ih =>
      cases xs with
      | nil => cases h
      | cons x xs => simp [ih (Nat.le_of_succ_le_succ h)]

section

variable {g : Geometry} {i : Nat} {past : List Moment} {s : Machine} {p : Port}

/-- Everything that was delivered had been asked for and sent. -/
theorem ReadLedger.delivered_le (hl : ReadLedger g i past s p) :
    (past.flatMap (Moment.readerPushes i)).length
        ≤ wordCount (whole (past.flatMap (Moment.readerTakes i)))
      ∧ (past.flatMap (Moment.readerPushes i)).length
        ≤ (past.flatMap (Moment.memorySends i)).length := by
  have hmarks := congrArg List.length hl.marks
  have hdata := congrArg List.length hl.arrived
  simp only [length_marksOf, List.length_append, List.length_map] at hmarks hdata
  omega

/-- Only the newest transfer is unfinished. -/
theorem ReadLedger.finished_le (hl : ReadLedger g i past s p) :
    wordCount (whole (past.flatMap (Moment.readerTakes i)).dropLast)
      ≤ (past.flatMap (Moment.readerPushes i)).length := by
  have hmarks := congrArg List.length hl.marks
  have hlast := wordCount_dropLast (past.flatMap (Moment.readerTakes i))
  rw [← hl.length] at hlast
  simp only [length_marksOf, List.length_append, List.length_map, ReadCore.marksLeft,
    length_endMarks] at hmarks
  omega

/-- A reader between two transfers has nothing left. -/
theorem ReadLedger.all_of_rest {awaited : Nat} (hl : ReadLedger g i past s p)
    (hs : p.reader.core.Sound awaited)
    (hph : p.reader.core.phase = .idle ∨ p.reader.core.phase = .done) :
    (past.flatMap (Moment.readerPushes i)).length
      = wordCount (whole (past.flatMap (Moment.readerTakes i))) := by
  have hmarks := congrArg List.length hl.marks
  -- it awaits nothing, so every mark has been used up
  obtain ⟨hrem, hzero⟩ := hs.resting hph
  have hacc := hs.account
  simp only [length_marksOf, List.length_append, List.length_map, ReadCore.marksLeft,
    length_endMarks] at hmarks
  omega

/-- **The delivered beats are the expected ones**, each with the word that the memory sent
for it. -/
theorem ReadLedger.pushed_eq (hg : g.Legal) (hl : ReadLedger g i past s p) :
    past.flatMap (Moment.readerPushes i)
      = expectedBeats g (past.flatMap (Moment.readerTakes i))
          (((past.flatMap (Moment.memorySends i)).take
            (past.flatMap (Moment.readerPushes i)).length).map (·.2)) := by
  obtain ⟨addrs, hall, hlen, hread, _⟩ := hl.sent
  obtain ⟨hwords, hsent⟩ := hl.delivered_le
  have harrived := hl.arrived
  have hmarks := hl.marks
  generalize past.flatMap (Moment.readerPushes i) = pushed at *
  generalize past.flatMap (Moment.memorySends i) = sent at *
  generalize past.flatMap (Moment.readerTakes i) = accepted at *
  have hseen : (sent.take pushed.length).length = pushed.length :=
    List.length_take_of_le hsent
  refine beats_ext ?_ ?_
  · unfold expectedBeats
    rw [List.map_zipWith, List.zipWith_map_right]
    -- the place of a word is where its address leads
    have hplaces : List.zipWith (fun t x => x.2.valueAt (t.1.place g t.2))
          (wordsOf (whole accepted)) (sent.take pushed.length)
        = List.zipWith (fun a x => x.2.valueAt (g.place a))
          (addressesOf g (whole accepted)) (sent.take pushed.length) := by
      have hmap := congrArg (List.zipWith (fun q x => x.2.valueAt q) · (sent.take pushed.length))
        (map_place_wordsOf hg (whole accepted))
      rw [List.zipWith_map_left, List.zipWith_map_left] at hmap
      exact hmap
    -- only the addresses of the delivered words matter
    have hfront : addressesOf g (whole accepted) = addrs.take pushed.length
        ++ (addrs.drop pushed.length ++ (s.unsent i ++ p.reader.core.toAsk g)) := by
      rw [hall, ← List.append_assoc (addrs.take _), List.take_append_drop]
    have hdata : pushed.map (·.data)
        = List.zipWith (fun a x => x.2.valueAt (g.place a)) (addrs.take pushed.length)
            (sent.take pushed.length) := by
      rw [← List.take_zipWith, ← hread, harrived]
      exact (List.take_left' (List.length_map _)).symm
    rw [hdata]
    refine Eq.trans ?_ hplaces.symm
    rw [hfront, ← List.append_nil (sent.take pushed.length), List.zipWith_append]
    · simp
    · rw [List.length_take_of_le (by omega), hseen]
  · unfold expectedBeats
    rw [List.map_zipWith]
    dsimp only
    rw [zipWith_front]
    · rw [List.length_map, hseen, List.map_take, ← marksOf_whole, hmarks]
      exact (List.take_left' (List.length_map _)).symm
    · rw [List.length_map, hseen, length_wordsOf]
      exact hwords

end

/-- **What a reader hands to its buffer is what its descriptors ask for**: of every
transfer all its words in order, each with the value that its place in memory had in the
cycle in which it was sent, and the last one marked. Only the newest transfer can be
unfinished, and it is not when the reader says that it is done. -/
theorem read_transfer {params : MachineParams} {s₀ s : Machine} {past : List Moment}
    {i : Nat} {p : Port} (hg : params.geometry.Legal) (h₀ : Machine.ofParams params = .ok s₀)
    (h : History s₀ past s) (hu : Uninterrupted past) (hp : s.ports[i]? = some p) :
    let accepted := past.flatMap (Moment.readerTakes i)
    let pushed := past.flatMap (Moment.readerPushes i)
    let sent := (past.flatMap (Moment.memorySends i)).take pushed.length
    pushed = expectedBeats params.geometry accepted (sent.map (·.2))
      ∧ pushed.map (·.data) = sent.map (·.1.data)
      ∧ pushed.length = sent.length
      ∧ (accepted.dropLast.map (·.words)).sum ≤ pushed.length
      ∧ pushed.length ≤ (accepted.map (·.words)).sum
      ∧ (p.reader.core.outputs.done = true → pushed.length = (accepted.map (·.words)).sum)
      ∧ past.flatMap (Moment.collects i) ++ p.sink.received ++ p.readFifo.beats = pushed := by
  intro accepted pushed sent
  obtain ⟨hl, hc⟩ := h.readLedger h₀ hu hp
  obtain ⟨hwords, hsent⟩ := hl.delivered_le
  have hfinished := hl.finished_le
  rw [wordCount_whole] at hwords hfinished
  refine ⟨hl.pushed_eq hg, ?_, (List.length_take_of_le hsent).symm, hfinished, hwords, ?_,
    hl.stream⟩
  · show _ = ((past.flatMap (Moment.memorySends i)).take pushed.length).map (·.1.data)
    rw [List.map_take, hl.arrived]
    exact (List.take_left' (List.length_map _)).symm
  · intro hd
    rw [← wordCount_whole]
    exact hl.all_of_rest (hc i p hp).1 (Or.inr (beq_iff_eq.mp hd))

/-- With registers in all paths and a second port at work, a reader that was asked for two
words and says that it is done has handed over two. -/
theorem read_transfer_two_words :
    ∃ s₀ past s p, Machine.ofParams
        { ports := [{}, {}], inputRegister := true, outputRegister := true } = .ok s₀
      ∧ History s₀ past s ∧ s.ports[0]? = some p ∧ p.reader.core.outputs.done = true
      ∧ past.flatMap (Moment.readerTakes 0) = [⟨11, 2, 2⟩]
      ∧ (past.flatMap (Moment.readerPushes 0)).length = 2 := by
  have hrun : Machine.trial { ports := [{}, {}], inputRegister := true, outputRegister := true }
      (Operation.program 0 .reader 11 2 2 ++ Operation.program 1 .reader 0 3 1
        ++ List.replicate 14 .tick)
      (fun past s => decide (Uninterrupted past)
        && decide (past.flatMap (Moment.readerTakes 0) = [⟨11, 2, 2⟩])
        && (s.ports[0]?).any (·.reader.core.outputs.done)) = true := by
    decide +kernel
  obtain ⟨s₀, past, s, h₀, h, hlook⟩ := Machine.exists_of_trial hrun
  rw [Bool.and_eq_true, Bool.and_eq_true, decide_eq_true_eq, decide_eq_true_eq] at hlook
  obtain ⟨⟨hu, htakes⟩, hdone⟩ := hlook
  obtain ⟨p, hp, hdone⟩ := (Option.any_eq_true _ _).mp hdone
  obtain ⟨_, _, _, _, _, hall, _⟩ := read_transfer (by decide) h₀ h hu hp
  refine ⟨s₀, past, s, p, h₀, h, hp, hdone, htakes, ?_⟩
  rw [hall hdone, htakes]
  rfl

end BurstDma
