import BurstDma.Proofs.ReadTransfer
import BurstDma.Proofs.Rest
import BurstDma.Proofs.Tally

/-!
# The counters at rest

`Machine.Tally` tells two counters apart by what is on the way between them. **At rest nothing
is on the way, so the counters of the engines, of the arbiters and of the memory are equal**:
those of a port one by one, and those of the one memory with the sums over all ports.

What an engine counts as words is what it moved, `WordsCounted`, and at rest that is what its
descriptors ask for.
-/

namespace BurstDma

section

variable {params : MachineParams} {s₀ s s' : Machine} {past : List Moment} {slave : ReadSlave}
  {i : Nat} {p p' : Port} {rstep : ReadStep} {wstep : WriteStep}

/-- **The tally is kept along every history.** -/
theorem History.tally (h₀ : Machine.ofParams params = .ok s₀) (h : History s₀ past s)
    (hu : Uninterrupted past) : s.Tally := by
  have hrun : s.Tally ∧ s.readArbiter.grants.length = s.ports.length := by
    refine h.steps (P := fun _ s => s.Tally ∧ s.readArbiter.grants.length = s.ports.length)
      h₀ hu ⟨Machine.tally_ofParams h₀, (History.start.counted h₀).readGrants.1⟩ ?_ ?_
    · rintro past s s' slave hr ⟨ht, hlen⟩ hedge
      refine ⟨ht.edge hr hlen hedge, ?_⟩
      rw [ReadArbiter.tick_grants hedge.readArbiter, hedge.length, ← hlen]
      split
      · exact List.length_modify ..
      · rfl
    · rintro past s s' op _ _ ⟨ht, hlen⟩ htouch
      refine ⟨ht.touched htouch, ?_⟩
      rw [htouch.readArbiter, htouch.length]
      exact hlen
  exact hrun.1

/-! ## The words of a port -/

/-- The words that the engines of port `i` count are those that they moved. -/
structure WordsCounted (i : Nat) (past : List Moment) (p : Port) : Prop where
  reads : p.reader.stats.words = (past.flatMap (Moment.readerPushes i)).length
  writes : p.writer.stats.words = (past.flatMap (Moment.writerPops i)).length

/-- A reader hands on exactly what arrives. -/
theorem ReadCore.next_push {g : Geometry} {c c' : ReadCore} {inputs : ReadInputs}
    (h : (c.next g inputs).result = .ok (c', rstep)) :
    rstep.push.toList.length = inputs.beat.toList.length := by
  obtain ⟨⟨r, push⟩, hr, h⟩ := Run.result_bind_eq_ok.mp h
  obtain ⟨⟨core, step⟩, _, h⟩ := Run.result_bind_eq_ok.mp h
  cases h
  obtain ⟨_, rfl⟩ := receive_eq hr
  rw [Option.toList_map, List.length_map]

theorem WordsCounted.edge (hc : WordsCounted i past p) (h : s.Edge slave s')
    (hp : s.ports[i]? = some p)
    (hedge : p.Edge (s.readBus slave i p) (s.writeBus i p) rstep wstep p') :
    WordsCounted i (past ++ [(s, .tick)]) p' := by
  constructor
  · obtain ⟨_, hpushes⟩ := Moment.reader_tick h.drives hp hedge
    obtain ⟨hcore, _⟩ := ReadEngine.tick_core hedge.reader
    rw [hedge.reads_counted.words, hc.reads, log_concat, List.length_append, hpushes,
      ReadCore.next_push hcore]
    rfl
  · obtain ⟨_, hpops⟩ := Machine.writerPops_tick h.drives hp hedge
    rw [hedge.writes_counted.words, hc.writes, log_concat, List.length_append, hpops,
      (Machine.served_edge hedge).pop, length_toList_eq]
    rfl

theorem History.wordsCounted (h₀ : Machine.ofParams params = .ok s₀) (h : History s₀ past s)
    (hu : Uninterrupted past) (hp : s.ports[i]? = some p) : WordsCounted i past p := by
  have hrun : ∀ p, s.ports[i]? = some p → WordsCounted i past p := by
    refine h.steps (P := fun past s => ∀ p, s.ports[i]? = some p → WordsCounted i past p)
      h₀ hu ?_ ?_ ?_
    · intro p hp
      rw [Machine.getElem?_ofParams h₀] at hp
      obtain ⟨q, _, rfl⟩ := Option.map_eq_some_iff.mp hp
      exact ⟨rfl, rfl⟩
    · intro past s s' slave _ hc hedge p' hp'
      obtain ⟨p, rstep, wstep, hp, hport⟩ := hedge.port' hp'
      exact (hc p hp).edge hedge hp hport
    · intro past s s' op ht _ hc htouch p' hp'
      obtain ⟨p, hp, hport⟩ := htouch.port' hp'
      obtain ⟨_, hpushes, _⟩ := Moment.reader_silent (s := s) ht i
      obtain ⟨_, hpops, _⟩ := Moment.writer_silent (s := s) ht i
      constructor
      · rw [hport.reader, log_concat, hpushes, List.append_nil]
        exact (hc p hp).reads
      · rw [hport.writer, log_concat, hpops, List.append_nil]
        exact (hc p hp).writes
  exact hrun p hp

/-- An idle reader has counted the words of its descriptors. -/
theorem History.reader_words (h₀ : Machine.ofParams params = .ok s₀) (h : History s₀ past s)
    (hu : Uninterrupted past) (hp : s.ports[i]? = some p) (hidle : p.reader.isIdle = true) :
    p.reader.stats.words = ((past.flatMap (Moment.readerTakes i)).map (·.words)).sum := by
  obtain ⟨hl, hc⟩ := h.readLedger h₀ hu hp
  rw [(h.wordsCounted h₀ hu hp).reads, ← wordCount_whole]
  exact hl.all_of_rest (hc i p hp).1 (Or.inl (beq_iff_eq.mp hidle))

/-- So has an idle writer in length mode. -/
theorem History.writer_words {q : PortParams} (h₀ : Machine.ofParams params = .ok s₀)
    (h : History s₀ past s) (hu : Uninterrupted past) (hq : params.ports[i]? = some q)
    (hmode : q.frameMode = false) (hp : s.ports[i]? = some p) (hidle : p.writer.isIdle = true) :
    p.writer.stats.words = ((past.flatMap (Moment.writerTakes i)).map (·.words)).sum := by
  have hl := h.lengthLedger h₀ hu hq hmode hp
  have hts : transfersOf (fun _ d => d.words) i past = whole (past.flatMap (Moment.writerTakes i)) :=
    sized_words _
  rw [(h.wordsCounted h₀ hu hp).writes, ← wordCount_whole, ← hts]
  exact hl.all_sent (Or.inl (beq_iff_eq.mp hidle))

end

/-! ## At rest -/

/-- A list is a map of another one if it is that element by element. -/
theorem eq_map_of_getElem? {α β : Type} {f : α → β} {xs : List α} {ys : List β}
    (hlen : ys.length = xs.length)
    (h : ∀ (i : Nat) (x : α), xs[i]? = some x → ys[i]? = some (f x)) : ys = xs.map f := by
  apply List.ext_getElem?
  intro i
  rw [List.getElem?_map]
  cases hx : xs[i]? with
  | none =>
      rw [List.getElem?_eq_none_iff] at hx
      exact List.getElem?_eq_none (hlen ▸ hx)
  | some x => exact h i x hx

namespace Machine

variable {s : Machine}

/-- At rest nothing is between the places that the tally compares. -/
theorem AtRest.nothing_between (h : s.AtRest) :
    (∀ i, s.readArbiter.waiting i = []) ∧ s.readArbiter.granted.contents = []
      ∧ s.readArbiter.data.contents = [] ∧ s.memory.aw = none ∧ s.memory.collected = []
      ∧ s.memory.answers = [] := by
  obtain ⟨_, hgranted, hdata, hinputs⟩ := ReadArbiter.isIdle_iff.mp h.readArbiter
  obtain ⟨_, haw, hcollected, hresponse⟩ := Memory.isIdle_iff.mp h.memory
  refine ⟨fun i => ReadArbiter.waiting_eq_nil fun skid hskid => ?_, ?_, ?_, haw, hcollected, ?_⟩
  · rw [hinputs skid hskid]
    rfl
  · rw [hgranted]
    rfl
  · rw [hdata]
    rfl
  · unfold Memory.answers
    rw [hresponse]
    rfl

/-- At rest the read grants are what the readers count. -/
theorem AtRest.readGrants (h : s.AtRest) (ht : s.Tally) {i : Nat} {p : Port}
    (hp : s.ports[i]? = some p) : s.readArbiter.grants[i]? = some p.reader.stats.bursts := by
  obtain ⟨n, hn, hcount⟩ := ht.readGrants i p hp
  obtain ⟨hwaiting, _⟩ := h.nothing_between
  rw [hwaiting i, List.length_nil, Nat.add_zero] at hcount
  rw [hcount]
  exact hn

end Machine

/-- **At rest all counters agree.** A burst is counted by its engine, by the arbiter that
grants it and by the memory that serves it; a word and an error by its engine and by the
memory; and an engine has counted the words of its descriptors, except that in frame mode the
stream says how many there are. -/
theorem counters_agree {params : MachineParams} {s₀ s : Machine} {past : List Moment}
    (h₀ : Machine.ofParams params = .ok s₀) (h : History s₀ past s) (hu : Uninterrupted past)
    (hquiet : s.isQuiescent = true) :
    s.readArbiter.grants = s.ports.map (·.reader.stats.bursts)
      ∧ s.writeArbiter.grants = s.ports.map (·.writer.stats.bursts)
      ∧ (s.ports.map (·.reader.stats.bursts)).sum = s.memory.stats.readBursts
      ∧ (s.ports.map (·.writer.stats.bursts)).sum = s.memory.stats.writeBursts
      ∧ (s.ports.map (·.reader.stats.words)).sum = s.memory.stats.readWords
      ∧ (s.ports.map (·.writer.stats.words)).sum = s.memory.stats.writeWords
      ∧ (s.ports.map (·.reader.stats.errors)).sum + (s.ports.map (·.writer.stats.errors)).sum
        = s.memory.stats.errors
      ∧ ∀ (i : Nat) (p : Port), s.ports[i]? = some p →
        p.reader.stats.words = ((past.flatMap (Moment.readerTakes i)).map (·.words)).sum
          ∧ ∀ q, params.ports[i]? = some q → q.frameMode = false →
            p.writer.stats.words = ((past.flatMap (Moment.writerTakes i)).map (·.words)).sum := by
  obtain ⟨hrest, _⟩ := Machine.AtRest.of_quiescent hquiet
  have ht := h.tally h₀ hu
  obtain ⟨_, hgranted, hdata, haw, hcollected, hanswers⟩ := hrest.nothing_between
  have hc := h.counted h₀
  have hreadGrants := eq_map_of_getElem? hc.readGrants.1 fun i p hp => hrest.readGrants ht hp
  have hwriteGrants := eq_map_of_getElem? hc.writeGrants.1 ht.writeGrants
  have hreads := ht.readBursts
  have hwords := ht.readWords
  have hbursts := ht.writeBursts
  have hwritten := ht.writeWords
  have herrors := ht.errors
  rw [hgranted, hreadGrants] at hreads
  rw [hdata] at hwords
  rw [haw] at hbursts
  rw [hcollected] at hwritten
  rw [hdata, hanswers] at herrors
  refine ⟨hreadGrants, hwriteGrants, hreads, hbursts, hwords.symm, hwritten, herrors.symm, ?_⟩
  intro i p hp
  obtain ⟨hreader, hwriter, _⟩ := hrest.port p (List.mem_of_getElem? hp)
  exact ⟨h.reader_words h₀ hu hp hreader,
    fun q hq hmode => h.writer_words h₀ hu hq hmode hp hwriter⟩

/-- Of two readers and two writers, one of them in frame mode, a reader and a writer meet a
region that fails. With registers in all paths both errors are counted twice. -/
theorem counters_agree_two_errors :
    ∃ s₀ past s, Machine.ofParams
        { ports := [{}, { frameMode := true }], inputRegister := true, outputRegister := true,
          memory := { sizeWords := 64, errorRegions := [⟨16, 24, .slvErr⟩] } } = .ok s₀
      ∧ History s₀ past s ∧ Uninterrupted past ∧ s.isQuiescent = true
      ∧ s.memory.stats.errors = 2
      ∧ (s.ports.map (·.reader.stats.errors)).sum + (s.ports.map (·.writer.stats.errors)).sum = 2
    := by
  have hrun : Machine.trial
      { ports := [{}, { frameMode := true }], inputRegister := true, outputRegister := true,
        memory := { sizeWords := 64, errorRegions := [⟨16, 24, .slvErr⟩] } }
      ([.push 0 [⟨5, false⟩, ⟨6, true⟩, ⟨7, false⟩], .push 1 [⟨9, false⟩, ⟨8, true⟩]]
        ++ Operation.program 0 .reader 12 3 2 ++ Operation.program 0 .writer 40 3 2
        ++ Operation.program 1 .writer 16 0 4 ++ Operation.program 1 .reader 0 2 1
        ++ List.replicate 40 .tick)
      (fun past s => decide (Uninterrupted past) && s.isQuiescent
        && decide (s.memory.stats.errors = 2)) = true := by
    decide +kernel
  obtain ⟨s₀, past, s, h₀, h, hlook⟩ := Machine.exists_of_trial hrun
  rw [Bool.and_eq_true, Bool.and_eq_true, decide_eq_true_eq, decide_eq_true_eq] at hlook
  obtain ⟨⟨hu, hquiet⟩, htwo⟩ := hlook
  obtain ⟨_, _, _, _, _, _, herrors, _⟩ := counters_agree h₀ h hu hquiet
  exact ⟨s₀, past, s, h₀, h, hu, hquiet, htwo, herrors.trans htwo⟩

end BurstDma
