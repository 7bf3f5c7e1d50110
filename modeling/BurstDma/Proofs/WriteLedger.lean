import BurstDma.Proofs.WritePath

/-!
# Where the written words are

The beats of a stream become words in memory, in order and one by one. `WriteLedger` says
where each of them is: still in the stream, gathered for an open burst, or stored. The
number of words that a transfer takes is known from its descriptor in length mode and from
the stream in frame mode; here it is any function of the position of the transfer, and
**the ledger is kept as long as bursts are sized right for it**.
-/

namespace BurstDma

/-- The words that some transfers store, each with its place, taken from the stream. -/
def expectedWrites (g : Geometry) (ts : List (Descriptor × Nat)) (beats : List Beat) :
    List (Place × Word) :=
  List.zipWith (fun t b => (t.1.place g t.2, b.data)) (wordsOf ts) beats

/-- The transfers that the writer of port `i` has taken, with their lengths. -/
def transfersOf (size : Nat → Descriptor → Nat) (i : Nat) (past : List Moment) :
    List (Descriptor × Nat) :=
  sized size (past.flatMap (Moment.writerTakes i))

/-- The words that the writer of port `i` still has to send. -/
def wordsLeft (size : Nat → Descriptor → Nat) (i : Nat) (past : List Moment) : Nat :=
  wordCount (transfersOf size i past) - (past.flatMap (Moment.writerPops i)).length

/-- How far port `i` is with its transfers. -/
structure TransferLedger (size : Nat → Descriptor → Nat) (g : Geometry) (i : Nat)
    (past : List Moment) (c : WriteCore) : Prop where
  sound : c.Sound g (wordsLeft size i past)
  fits : (past.flatMap (Moment.writerPops i)).length ≤ wordCount (transfersOf size i past)
  /-- All transfers but the newest one are stored. -/
  finished : wordCount (transfersOf size i past).dropLast
    ≤ (past.flatMap (Moment.memoryStores i)).length
  written : wordCount (transfersOf size i past).dropLast + c.written
    = (past.flatMap (Moment.writerPops i)).length
  limit : ∀ d, (past.flatMap (Moment.writerTakes i)).getLast? = some d →
    c.maxBurst = clampBurst d.maxBurst

/-- Where the words of the transfers of port `i` are. -/
structure WriteLedger (size : Nat → Descriptor → Nat) (g : Geometry) (i : Nat)
    (past : List Moment) (s : Machine) (p : Port) : Prop
    extends TransferLedger size g i past p.writer.core where
  /-- What was queued has been sent, or waits in order. -/
  stream : past.flatMap (Moment.offers i)
    = past.flatMap (Moment.writerPops i) ++ (p.writeFifo.beats ++ p.source.queue)
  /-- What was sent is stored or gathered, each word for its own address. -/
  sent : ∃ addrs,
    addressesOf g (transfersOf size i past)
        = addrs ++ g.span (p.writer.core.nextAddr g) (wordsLeft size i past)
      ∧ addrs.length = (past.flatMap (Moment.writerPops i)).length
      ∧ past.flatMap (Moment.memoryStores i) ++ s.gathered i
        = List.zipWith (fun a b => (g.place a, b.data)) addrs
            (past.flatMap (Moment.writerPops i))
  /-- Every burst but the open one is answered. -/
  answered : (past.flatMap (Moment.writerIssues i)).length
    = (past.flatMap (Moment.writerAnswers i)).length + p.writer.core.outstanding
  /-- The bursts cut what was sent, and what the open one still sends. -/
  cut : ((past.flatMap (Moment.writerIssues i)).map (·.words)).sum
    = (past.flatMap (Moment.writerPops i)).length + p.writer.core.openWords
  backed : p.writer.core.Backed p.writeFifo.beats.length
  settled : p.writer.core.Settled

namespace Moment

variable {s : Machine}

/-- Between the clock cycles a writer and the memory do nothing. -/
theorem writer_silent {op : Operation} (h : op ≠ .tick) (i : Nat) :
    writerTakes i (s, op) = [] ∧ writerPops i (s, op) = [] ∧ writerIssues i (s, op) = []
      ∧ writerAnswers i (s, op) = [] ∧ memoryStores i (s, op) = [] := by
  unfold writerTakes writerPops writerIssues writerAnswers memoryStores memoryStores? writerEdge
  rw [wires?_of_ne_tick h]
  exact ⟨rfl, rfl, rfl, rfl, rfl⟩

end Moment

section

variable {size : Nat → Descriptor → Nat} {params : MachineParams} {past : List Moment}
  {s s' : Machine} {slave : ReadSlave} {i : Nat} {p p' : Port} {rstep : ReadStep}
  {wstep : WriteStep}

/-- A new descriptor adds its words. -/
theorem transfersOf_take {e : Moment} {d : Descriptor} (h : Moment.writerTakes i e = [d]) :
    transfersOf size i (past ++ [e]) = transfersOf size i past
      ++ [(d, size (past.flatMap (Moment.writerTakes i)).length d)] := by
  unfold transfersOf
  rw [log_concat, h, sized_concat]

theorem transfersOf_keep {e : Moment} (h : Moment.writerTakes i e = []) :
    transfersOf size i (past ++ [e]) = transfersOf size i past := by
  unfold transfersOf
  rw [log_concat, h, List.append_nil]

/-- As long as no burst is open, nothing is gathered. -/
theorem gathered_of_closed (hk : p.writer.core.Knows s.memory s.writeArbiter.lock i)
    (hph : p.writer.core.phase ≠ .transferBurst) : s.gathered i = [] := by
  unfold Machine.gathered
  exact if_neg fun hl => hph (hk.sending.mpr hl)

/-- What is stored and what is gathered is all that was sent. -/
theorem WriteLedger.stored_length (hl : WriteLedger size params.geometry i past s p) :
    (past.flatMap (Moment.memoryStores i)).length + (s.gathered i).length
      = (past.flatMap (Moment.writerPops i)).length := by
  obtain ⟨addrs, _, hlen, hstored⟩ := hl.sent
  have hboth := congrArg List.length hstored
  rw [List.length_append, List.length_zipWith, hlen, Nat.min_self] at hboth
  exact hboth

/-- A cycle sends at most one beat, to the address that is next. -/
theorem zipWith_sent {g : Geometry} {a : Nat} {pop : Bool} {beats : List Beat}
    (h : beats.length = if pop then 1 else 0) :
    (if pop then [a] else []).length = beats.length
      ∧ List.zipWith (fun a b => (g.place a, b.data)) (if pop then [a] else []) beats
        = beats.map fun b => (g.place a, b.data) := by
  cases pop with
  | true =>
      obtain ⟨b, rfl⟩ := List.length_eq_one_iff.mp h
      exact ⟨rfl, rfl⟩
  | false =>
      rw [List.eq_nil_of_length_eq_zero h]
      exact ⟨rfl, rfl⟩

/-- The beats that leave a buffer are those that were sent. -/
theorem writeFifo_length (h : p.Edge (s.readBus slave i p) (s.writeBus i p) rstep wstep p') :
    p.writeFifo.beats.length - (if wstep.pop then 1 else 0) ≤ p'.writeFifo.beats.length := by
  obtain ⟨more, hbeats, _⟩ := h.moves
  rw [hbeats, List.length_append]
  refine Nat.le_trans ?_ (Nat.le_add_right _ _)
  split
  · exact Nat.le_of_eq List.length_tail.symm
  · exact Nat.le_refl _

/-- A buffer keeps what an open burst needs: what leaves it is sent. -/
theorem backed_edge
    (hbeat : p.writer.core.phase = .transferBurst → p.writer.core.beat < p.writer.core.burst)
    (hb : p.writer.core.Backed p.writeFifo.beats.length)
    (h : p.Edge (s.readBus slave i p) (s.writeBus i p) rstep wstep p') :
    p'.writer.core.Backed p'.writeFifo.beats.length := by
  obtain ⟨hcore, _⟩ := WriteEngine.tick_core h.writer
  obtain ⟨haw, hw⟩ := s.phase_of_fires i p
  have hbacked := WriteCore.backed_next hbeat hb (Fifo.level_le _) haw (fun hc => (hw hc).1) hcore
  have hlevel := writeFifo_length h
  exact ⟨fun hph => Nat.le_trans (hbacked.1 hph) hlevel, Nat.le_trans hbacked.2 hlevel⟩

/-- What a clock edge makes of the words that are to be sent: `new` are those that a
descriptor adds. -/
def SendsNext (size : Nat → Descriptor → Nat) (g : Geometry) (i : Nat) (past : List Moment)
    (e : Moment) (c c' : WriteCore) (step : WriteStep) : Prop :=
  ∃ new, addressesOf g (transfersOf size i past) ++ new
      = addressesOf g (transfersOf size i (past ++ [e]))
    ∧ g.span (c.nextAddr g) (wordsLeft size i past) ++ new
      = (if step.pop then [c.nextAddr g] else [])
        ++ g.span (c'.nextAddr g) (wordsLeft size i (past ++ [e]))

/-- The next descriptor begins a transfer when the one before is stored. -/
theorem transferLedger_begin {e : Moment} {c c' : WriteCore} {inputs : WriteInputs}
    {d : Descriptor} {g : Geometry} (hl : TransferLedger size g i past c) (hph : c.phase = .idle)
    (hbegin : WriteCore.Begins g c inputs d c' wstep)
    (htake : Moment.writerTakes i e = [d]) (hpops : Moment.writerPops i e = [])
    (hstored : (past.flatMap (Moment.memoryStores i)).length
      = (past.flatMap (Moment.writerPops i)).length)
    (hsize : ∀ k d, c.Begun d (size k d)) :
    TransferLedger size g i (past ++ [e]) c' ∧ SendsNext size g i past e c c' wstep := by
  have hts : transfersOf size i (past ++ [e]) = transfersOf size i past
      ++ [(d, size (past.flatMap (Moment.writerTakes i)).length d)] := transfersOf_take htake
  -- an idle writer has sent all that was asked for, and the memory has it
  have hrest := hl.sound.resting (Or.inl hph)
  have hfits := hl.fits
  have hall : (past.flatMap (Moment.writerPops i)).length
      = wordCount (transfersOf size i past) := by
    unfold wordsLeft at hrest
    omega
  have hcount : ((past ++ [e]).flatMap (Moment.writerPops i)).length
      = wordCount (transfersOf size i past) := by
    rw [log_concat, hpops, List.append_nil]
    exact hall
  have hleft : wordsLeft size i (past ++ [e])
      = size (past.flatMap (Moment.writerTakes i)).length d := by
    unfold wordsLeft
    rw [hcount, hts, wordCount_append, Nat.add_sub_cancel_left]
    simp [wordCount]
  refine ⟨⟨?_, ?_, ?_, ?_, ?_⟩, addressesOf g
    [(d, size (past.flatMap (Moment.writerTakes i)).length d)], ?_, ?_⟩
  · rw [hleft]
    exact hbegin.sound _ (hsize _ d)
  · rw [hcount, hts, wordCount_append]
    exact Nat.le_add_right _ _
  · rw [hts, List.dropLast_concat, log_concat, List.length_append]
    omega
  · rw [hts, List.dropLast_concat, hcount, hbegin.written, Nat.add_zero]
  · intro d' hd'
    rw [log_concat, htake, List.getLast?_concat] at hd'
    cases hd'
    exact hbegin.maxBurst
  · rw [hts, addressesOf_append]
  · rw [addressesOf_singleton, hrest, hleft, hbegin.nextAddr, hbegin.still.1]
    rfl

/-- In the other cycles a transfer goes on, by one word at most. -/
theorem transferLedger_go {e : Moment} {c c' : WriteCore} {g : Geometry}
    (hl : TransferLedger size g i past c)
    (hgo : WriteCore.Continues g (wordsLeft size i past) c c' wstep)
    (htake : Moment.writerTakes i e = [])
    (hpops : (Moment.writerPops i e).length = if wstep.pop then 1 else 0) :
    TransferLedger size g i (past ++ [e]) c' ∧ SendsNext size g i past e c c' wstep := by
  have hts : transfersOf size i (past ++ [e]) = transfersOf size i past :=
    transfersOf_keep htake
  have hfits := hl.fits
  have hfin := hl.finished
  have hwritten := hl.written
  have hcount : ((past ++ [e]).flatMap (Moment.writerPops i)).length
      = (past.flatMap (Moment.writerPops i)).length + if wstep.pop then 1 else 0 := by
    rw [log_concat, List.length_append, hpops]
  have hleft : wordsLeft size i (past ++ [e])
      = wordsLeft size i past - if wstep.pop then 1 else 0 := by
    unfold wordsLeft
    rw [hcount, hts]
    omega
  refine ⟨⟨?_, ?_, ?_, ?_, ?_⟩, [], ?_, ?_⟩
  · rw [hleft]
    exact hgo.sound
  · rw [hcount, hts]
    cases hpop : wstep.pop with
    | true =>
        obtain ⟨_, hpos⟩ := hgo.fits hpop
        unfold wordsLeft at hpos
        rw [if_pos rfl]
        omega
    | false => exact hfits
  · rw [hts, log_concat, List.length_append]
    omega
  · rw [hts, hcount, hgo.written]
    omega
  · intro d hd
    rw [log_concat, htake, List.append_nil] at hd
    rw [hgo.maxBurst]
    exact hl.limit d hd
  · rw [hts, List.append_nil]
  · rw [hleft, List.append_nil]
    exact hgo.toSend

theorem transferLedger_edge (hf : s.Formed params) (ho : s.WriteOrderly)
    (hl : WriteLedger size params.geometry i past s p) (h : s.Edge slave s')
    (hp : s.ports[i]? = some p)
    (hedge : p.Edge (s.readBus slave i p) (s.writeBus i p) rstep wstep p')
    (hsize : ∀ k d, p.writer.core.Begun d (size k d))
    (hr : p.writer.core.SizedRight (wordsLeft size i past)
      (p.writeInputs (s.writeBus i p))) :
    TransferLedger size params.geometry i (past ++ [(s, .tick)]) p'.writer.core
      ∧ SendsNext size params.geometry i past (s, .tick) p.writer.core p'.writer.core wstep := by
  obtain ⟨q, _, hb⟩ := hf.port i p hp
  obtain ⟨hcore, _⟩ := WriteEngine.tick_core hedge.writer
  rw [hb.writeGeometry] at hcore
  obtain ⟨htakes, _⟩ := Moment.writer_tick h.drives hp hedge
  obtain ⟨_, hone⟩ := Machine.writerPops_tick h.drives hp hedge
  rcases WriteCore.next_transfer hl.sound hr hcore with ⟨hph, d, hbegin⟩ | hgo
  · obtain ⟨hdesc, htaken⟩ := hbegin.taken
    obtain ⟨hpop, _⟩ := hbegin.still
    rw [hpop] at hone
    rw [htaken, if_pos rfl, hdesc] at htakes
    have hstored := hl.stored_length
    rw [gathered_of_closed (ho.port i p hp) (by rw [hph]; nofun)] at hstored
    exact transferLedger_begin hl.toTransferLedger hph hbegin htakes
      (List.eq_nil_of_length_eq_zero hone) hstored hsize
  · rw [hgo.taken] at htakes
    exact transferLedger_go hl.toTransferLedger hgo htakes hone

theorem writeLedger_edge (hf : s.Formed params) (ho : s.WriteOrderly)
    (hl : WriteLedger size params.geometry i past s p) (h : s.Edge slave s')
    (hp : s.ports[i]? = some p)
    (hedge : p.Edge (s.readBus slave i p) (s.writeBus i p) rstep wstep p')
    (hsize : ∀ k d, p.writer.core.Begun d (size k d))
    (hr : p.writer.core.SizedRight (wordsLeft size i past)
      (p.writeInputs (s.writeBus i p))) :
    WriteLedger size params.geometry i (past ++ [(s, .tick)]) s' p' := by
  obtain ⟨htransfers, new, hnew, htoSend⟩ := transferLedger_edge hf ho hl h hp hedge hsize hr
  obtain ⟨q, _, hb⟩ := hf.port i p hp
  obtain ⟨hcore, _⟩ := WriteEngine.tick_core hedge.writer
  rw [hb.writeGeometry] at hcore
  obtain ⟨hm, _⟩ := Machine.write_move ho h
  have hk := ho.port i p hp
  -- a word that is sent is gathered, and gathered words are stored together
  have hgather := Machine.gathered_edge hm h.drives (Machine.edge_geometry h) hp hk hedge
  rw [hf.geometry] at hgather
  have hout := Machine.outstanding_edge hm h.drives hp hk hedge
  have hqueue := Machine.queue_edge h.drives hp hedge
  obtain ⟨_, hissues, _⟩ := Moment.writer_tick h.drives hp hedge
  obtain ⟨_, hone⟩ := Machine.writerPops_tick h.drives hp hedge
  obtain ⟨haw, hw⟩ := s.phase_of_fires i p
  have hw' := fun hc => (hw hc).1
  have hbeat := fun hph => (hl.sound.sending hph).1
  have hwords := WriteCore.openWords_next hbeat haw hw' hcore
  obtain ⟨addrs, hall, hcount, hstored⟩ := hl.sent
  refine ⟨htransfers, ?_, ?_, ?_, ?_, ?_, WriteCore.settled_next hl.settled hcore⟩
  · rw [log_concat, log_concat, hl.stream, hqueue]
    simp [Moment.offers]
  · -- the address that was next joins those that were used
    obtain ⟨hlen, hzip⟩ := zipWith_sent (g := params.geometry)
      (a := p.writer.core.nextAddr params.geometry) hone
    refine ⟨addrs ++ (if wstep.pop then [p.writer.core.nextAddr params.geometry] else []),
      ?_, ?_, ?_⟩
    · rw [← hnew, hall, List.append_assoc, htoSend, List.append_assoc]
    · rw [log_concat, List.length_append, List.length_append, hcount, hlen]
    · rw [log_concat, log_concat, List.zipWith_append hcount, ← hstored, hzip,
        List.append_assoc, List.append_assoc, hgather]
  · have hans := hl.answered
    rw [log_concat, log_concat, List.length_append, List.length_append]
    omega
  · have hcut := hl.cut
    rw [log_concat, log_concat, hissues, List.map_append, List.sum_append, List.length_append, hone]
    omega
  · exact backed_edge hbeat hl.backed hedge

theorem writeLedger_touched {op : Operation} (ht : op ≠ .tick)
    (hl : WriteLedger size params.geometry i past s p) (h : s.Touched op s')
    (hp : Port.Touched i (s, op) p p') :
    WriteLedger size params.geometry i (past ++ [(s, op)]) s' p' := by
  -- the engines and the memory do nothing, so of these logs none grows
  obtain ⟨htakes, hpops, hissues, hanswers, hstores⟩ := Moment.writer_silent (s := s) ht i
  have hts : transfersOf size i (past ++ [(s, op)]) = transfersOf size i past :=
    transfersOf_keep htakes
  have hgathered : s'.gathered i = s.gathered i := by
    have hgeo := (Moment.storeAfter_geometry s.memory.store (s, op)).1
    unfold Machine.gathered
    rw [h.writeArbiter, h.memory]
    dsimp only
    rw [hgeo]
  have hleft : wordsLeft size i (past ++ [(s, op)]) = wordsLeft size i past := by
    unfold wordsLeft
    rw [hts, log_concat, hpops, List.append_nil]
  refine ⟨⟨?_, ?_, ?_, ?_, ?_⟩, ?_, ?_, ?_, ?_, ?_, ?_⟩
  · rw [hleft, hp.writer]
    exact hl.sound
  · rw [hts, log_concat, hpops, List.append_nil]
    exact hl.fits
  · rw [hts, log_concat, hstores, List.append_nil]
    exact hl.finished
  · rw [hts, hp.writer, log_concat, hpops, List.append_nil]
    exact hl.written
  · rw [log_concat, htakes, hp.writer, List.append_nil]
    exact hl.limit
  · rw [log_concat, log_concat, hpops, hp.writeFifo, hp.source, hl.stream]
    simp
  · rw [hleft, hts, hgathered, hp.writer, log_concat, log_concat, hpops, hstores,
      List.append_nil, List.append_nil]
    exact hl.sent
  · rw [log_concat, log_concat, hissues, hanswers, hp.writer, List.append_nil, List.append_nil]
    exact hl.answered
  · rw [log_concat, log_concat, hissues, hpops, hp.writer, List.append_nil, List.append_nil]
    exact hl.cut
  · rw [hp.writer, hp.writeFifo]
    exact hl.backed
  · rw [hp.writer]
    exact hl.settled

theorem writeLedger_init (h : Machine.ofParams params = .ok s) (hp : s.ports[i]? = some p) :
    WriteLedger size params.geometry i [] s p := by
  have hget := Machine.getElem?_ofParams h i
  have hgathered : s.gathered i = [] := by
    obtain ⟨_, _, _, hwa, rfl⟩ := Machine.ofParams_eq_ok h
    obtain ⟨turn, _, hwa⟩ := except_bind_eq_ok.mp hwa
    cases hwa
    exact if_neg (by intro hc; cases hc)
  rw [hget] at hp
  obtain ⟨q, _, rfl⟩ := Option.map_eq_some_iff.mp hp
  refine ⟨⟨WriteCore.sound_init _ _, Nat.le_refl _, Nat.le_refl _, rfl, ?_⟩, rfl,
    ⟨[], rfl, rfl, ?_⟩, rfl, rfl, ⟨?_, Nat.le_refl _⟩, fun _ => rfl⟩
  · intro d hd; cases hd
  · rw [hgathered]
    rfl
  · intro hc; cases hc

/-! ## What the ledger says in the end -/

/-- **The stored words are the expected ones.** -/
theorem WriteLedger.stored_eq (hg : params.geometry.Legal)
    (hl : WriteLedger size params.geometry i past s p) :
    past.flatMap (Moment.memoryStores i)
      = expectedWrites params.geometry (transfersOf size i past)
          ((past.flatMap (Moment.writerPops i)).take
            (past.flatMap (Moment.memoryStores i)).length) := by
  obtain ⟨addrs, hall, hcount, hstored⟩ := hl.sent
  -- the addresses that were used are the front of the expected ones
  have hexpected : expectedWrites params.geometry (transfersOf size i past)
        (past.flatMap (Moment.writerPops i))
      = List.zipWith (fun a b => (params.geometry.place a, b.data)) addrs
          (past.flatMap (Moment.writerPops i)) := by
    have hmap := congrArg (List.zipWith (fun q b => (q, b.data)) ·
        (past.flatMap (Moment.writerPops i)))
      (map_place_wordsOf hg (transfersOf size i past))
    rw [List.zipWith_map_left, List.zipWith_map_left, hall,
      ← List.append_nil (past.flatMap (Moment.writerPops i)), List.zipWith_append hcount] at hmap
    simpa [expectedWrites] using hmap
  have htake := zipWith_take (fun (t : Descriptor × Nat) (b : Beat) =>
    (t.1.place params.geometry t.2, b.data)) (wordsOf (transfersOf size i past))
    (past.flatMap (Moment.writerPops i)) (past.flatMap (Moment.memoryStores i)).length
  unfold expectedWrites at hexpected ⊢
  rw [htake, hexpected, ← hstored, List.take_left]

/-- When nothing is left to send, everything that was asked for was sent. -/
theorem WriteLedger.all_sent (hl : WriteLedger size params.geometry i past s p)
    (hph : p.writer.core.phase = .idle ∨ p.writer.core.phase = .done) :
    (past.flatMap (Moment.writerPops i)).length = wordCount (transfersOf size i past) := by
  have hnone : wordsLeft size i past = 0 := by
    refine hl.sound.resting ?_
    rcases hph with hph | hph
    · exact Or.inl hph
    · exact Or.inr (Or.inl hph)
  have hfits := hl.fits
  unfold wordsLeft at hnone
  omega

/-- At rest everything is stored and answered. -/
theorem WriteLedger.all_stored (hl : WriteLedger size params.geometry i past s p)
    (hk : p.writer.core.Knows s.memory s.writeArbiter.lock i)
    (hph : p.writer.core.phase = .idle ∨ p.writer.core.phase = .done) :
    (past.flatMap (Moment.memoryStores i)).length = wordCount (transfersOf size i past)
      ∧ (past.flatMap (Moment.writerAnswers i)).length
        = (past.flatMap (Moment.writerIssues i)).length := by
  have hclosed : p.writer.core.phase ≠ .transferBurst := by
    intro hc
    rw [hc] at hph
    rcases hph with hph | hph <;> cases hph
  have hstored := hl.stored_length
  have hsent := hl.all_sent hph
  have hanswered := hl.answered
  rw [gathered_of_closed hk hclosed, List.length_nil] at hstored
  rw [hl.settled hph] at hanswered
  omega

end

end BurstDma
