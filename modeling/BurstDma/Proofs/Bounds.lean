import BurstDma.Proofs.FrameCut
import BurstDma.Proofs.Range
import BurstDma.Proofs.RoundRobin
import BurstDma.Proofs.ReadOwnership
import BurstDma.Proofs.WriteTransfer

/-!
# Numbers that stay in range

What every reachable machine keeps within bounds:

* the registers of either engine fit their words, and so does a descriptor that waits;
* a buffer counts the marks that are in it, and holds no more than it can;
* the addresses of the words that were asked for lie within reach;
* either turn names a port.

`Machine.Bounded` holds them together, because the engines hand the numbers to each other:
an address is in reach because the request was, and the request because the engine's
registers fit. What a frame-mode engine counts is bounded by what its source was given,
`History.portFramed`.
-/

namespace BurstDma

/-! ## Ports -/

/-- The numbers of a port are in range. -/
structure Port.Bounded (g : Geometry) (p : Port) : Prop where
  reader : p.reader.core.Fits g
  writer : p.writer.core.Fits g
  readHeld : ∀ d, p.readRegs.holding = some d → d.Fits
  writeHeld : ∀ d, p.writeRegs.holding = some d → d.Fits
  readFifo : p.readFifo.Tallied
  writeFifo : p.writeFifo.Tallied

/-- A port handed over by a register access keeps a descriptor that fits. -/
theorem RegisterFile.Handed.fits {f f' : RegisterFile} (h : f.Handed f')
    (hf : ∀ d, f.holding = some d → d.Fits) : ∀ d, f'.holding = some d → d.Fits := by
  intro d hd
  rcases h.holding with hsame | hstaged
  · exact hf d (hsame.symm.trans hd)
  · rw [hstaged] at hd
    cases hd
    exact f.staged_fits

namespace Port

variable {g : Geometry} {i : Nat} {q : PortParams} {p p' : Port}

theorem bounded_ofParams (g : Geometry) (i : Nat) (q : PortParams) :
    (ofParams g i q).Bounded g where
  reader := ReadCore.fits_init g
  writer := WriteCore.fits_init g q.frameMode
  readHeld := nofun
  writeHeld := nofun
  readFifo := Fifo.tallied_empty _ _
  writeFifo := Fifo.tallied_empty _ _

theorem nextRegs_holding (f : RegisterFile) (done taken : Bool) :
    (nextRegs f done taken).holding = if taken then none else f.holding := by
  cases done <;> cases taken <;> rfl

theorem Bounded.edge {s : Machine} {slave : ReadSlave} {rstep : ReadStep} {wstep : WriteStep}
    (hf : p.Bounded g) (hb : p.Built g i q)
    (h : p.Edge (s.readBus slave i p) (s.writeBus i p) rstep wstep p') : p'.Bounded g := by
  obtain ⟨hread, _⟩ := ReadEngine.tick_core h.reader
  obtain ⟨hwrite, _⟩ := WriteEngine.tick_core h.writer
  rw [hb.readGeometry] at hread
  rw [hb.writeGeometry] at hwrite
  obtain ⟨haw, hw⟩ := s.phase_of_fires i p
  obtain ⟨_, hdrain⟩ := h.drain
  obtain ⟨f, _, hpop, hfill⟩ := h.fill
  refine ⟨?_, ?_, ?_, ?_, ?_, ?_⟩
  · refine ReadCore.fits_next hf.reader (fun d hd => ?_) hread
    dsimp only [readInputs] at hd
    split at hd
    · exact hf.readHeld d hd
    · cases hd
  · refine WriteCore.fits_next hf.writer (fun d hd => ?_) haw (fun hfire => (hw hfire).1) hwrite
    dsimp only [writeInputs] at hd
    split at hd
    · exact hf.writeHeld d hd
    · cases hd
  · intro d hd
    rw [h.readRegs, nextRegs_holding] at hd
    split at hd
    · cases hd
    · exact hf.readHeld d hd
  · intro d hd
    rw [h.writeRegs, nextRegs_holding] at hd
    split at hd
    · cases hd
    · exact hf.writeHeld d hd
  · have hpushed : ((rstep.push.bind p.readFifo.push?).getD p.readFifo).Tallied := by
      cases hp : rstep.push.bind p.readFifo.push? with
      | none => exact hf.readFifo
      | some f' =>
          obtain ⟨b, _, hpush⟩ := Option.bind_eq_some_iff.mp hp
          exact hf.readFifo.push hpush
    rcases Sink.tick_eq hdrain with ⟨_, _, hsame⟩ | ⟨_, _, _, hsame⟩ | ⟨_, _, a, hpop'⟩
    · rw [hsame]
      exact hpushed
    · rw [hsame]
      exact hpushed
    · obtain ⟨b, f', hok, htallied, _⟩ := hpushed.pop
      rw [hpop'] at hok
      cases hok
      exact htallied
  · have hpopped : f.Tallied := by
      split at hpop
      · obtain ⟨⟨b, f'⟩, hok, rfl⟩ := except_map_eq_ok.mp hpop
        obtain ⟨b', f'', hok', htallied, _⟩ := hf.writeFifo.pop
        rw [hok] at hok'
        cases hok'
        exact htallied
      · cases hpop
        exact hf.writeFifo
    rcases Source.tick_eq hfill with ⟨_, hsame⟩ | ⟨_, _, hpush⟩
    · rw [hsame]
      exact hpopped
    · exact hpopped.push hpush

theorem Bounded.touched {e : Moment} (hf : p.Bounded g) (h : Port.Touched i e p p') :
    p'.Bounded g := by
  refine ⟨?_, ?_, h.readRegs.fits hf.readHeld, h.writeRegs.fits hf.writeHeld, ?_, ?_⟩
  · rw [h.reader]
    exact hf.reader
  · rw [h.writer]
    exact hf.writer
  · rw [h.readFifo]
    exact hf.readFifo
  · rw [h.writeFifo]
    exact hf.writeFifo

theorem Bounded.reset (p : Port) : p.reset.Bounded g where
  reader := ReadCore.fits_init g
  writer := WriteCore.fits_init g p.writer.core.frameMode
  readHeld := nofun
  writeHeld := nofun
  readFifo := Fifo.tallied_empty _ _
  writeFifo := Fifo.tallied_empty _ _

end Port

/-! ## Turns -/

theorem ReadArbiter.tick_turn {a a' : ReadArbiter} {w : ReadWires}
    (h : (a.tick w).result = .ok a') : a'.turn = a.nextTurn w := by
  obtain ⟨_, _, h⟩ := Run.result_bind_eq_ok.mp h
  obtain ⟨_, _, h⟩ := Run.result_bind_eq_ok.mp h
  obtain ⟨_, _, h⟩ := Run.result_bind_eq_ok.mp h
  obtain ⟨_, _, h⟩ := Run.result_bind_eq_ok.mp h
  obtain ⟨_, _, h⟩ := Run.result_bind_eq_ok.mp h
  cases h
  rfl

/-- The turn of the write bus moves on when a burst is answered, and when the bus is free
and the selected requester asks for nothing. -/
def WriteArbiter.nextTurn (a : WriteArbiter) (w : WriteWires) : RoundRobin :=
  match a.lock with
  | .select =>
    if w.down.awFired.isSome || w.down.wFired.isSome then a.turn
    else if requests w &&& Grant.oneHot a.selected = 0 then a.turn.advance (requests w)
    else a.turn
  | .responseChannel _ =>
    if w.down.bFired.isSome then a.turn.advance (requests w) else a.turn
  | _ => a.turn

theorem WriteArbiter.tick_turn {a a' : WriteArbiter} {w : WriteWires}
    (h : (a.tick w).result = .ok a') : a'.turn = a.nextTurn w := by
  unfold tick at h
  unfold nextTurn
  dsimp only at h
  cases hl : a.lock with
  | select =>
      rw [hl] at h
      dsimp only at h ⊢
      split at h
      · rename_i hf
        rw [if_pos hf]
        cases h
        rfl
      · rename_i hf
        rw [if_neg hf]
        split at h
        · rename_i hr
          rw [if_pos hr]
          cases h
          rfl
        · rename_i hr
          rw [if_neg hr]
          cases h
          rfl
  | writeChannel id addrDone =>
      rw [hl] at h
      cases h
      rfl
  | addressChannel id =>
      rw [hl] at h
      cases h
      rfl
  | responseChannel id =>
      rw [hl] at h
      dsimp only at h ⊢
      split at h
      · rename_i hf
        rw [if_pos hf]
        cases h
        rfl
      · rename_i hf
        rw [if_neg hf]
        cases h
        rfl

/-- Whose request is visible to the read arbiter has its bit set. -/
theorem ReadArbiter.asks_offers {n i : Nat} {a : ReadArbiter} {masters : List ReadMaster}
    {slave : ReadSlave} (hn : n ≤ maxRequesters) (hw : a.WellFormed n)
    (hlen : masters.length = n) (hi : i < n) :
    Grant.asks (a.requests (a.resolve masters slave)) i
      = ((a.offers masters)[i]?.join).isSome := by
  have hmasters : (a.resolve masters slave).up.map (·.master) = masters := by
    simp [resolve, List.map_map, Function.comp_def]
  have hlength : (a.offers masters).length = n := by
    unfold offers
    split
    · rw [List.length_map, hw.inputs]
    · rw [List.length_map, hlen]
  unfold requests
  rw [hmasters, Grant.asks_ofLines (by rw [List.length_map, hlength]; exact hn)
    (Nat.lt_of_lt_of_le hi hn), List.getElem?_map]
  cases (a.offers masters)[i]? <;> rfl

namespace RoundRobin

variable {n : Nat}

theorem Granting.nextRead {a : ReadArbiter} (hn : n ≤ maxRequesters) (h : a.turn.Granting n)
    (w : ReadWires) : (a.nextTurn w).Granting n := by
  unfold ReadArbiter.nextTurn
  dsimp only
  split
  · exact (h.advance hn _).1
  · exact h

theorem Granting.nextWrite {a : WriteArbiter} (hn : n ≤ maxRequesters) (h : a.turn.Granting n)
    (w : WriteWires) : (a.nextTurn w).Granting n := by
  unfold WriteArbiter.nextTurn
  have hadvance := (h.advance hn (WriteArbiter.requests w)).1
  cases a.lock with
  | select =>
      dsimp only
      split
      · exact h
      · split
        · exact hadvance
        · exact h
  | writeChannel id addrDone => exact h
  | addressChannel id => exact h
  | responseChannel id =>
      dsimp only
      split
      · exact hadvance
      · exact h

end RoundRobin

/-! ## Machines -/

namespace Machine

/-- The numbers of a machine are in range. -/
structure Bounded (g : Geometry) (s : Machine) : Prop where
  port : ∀ (i : Nat) (p : Port), s.ports[i]? = some p → p.Bounded g
  /-- What a port asked for and was not sent lies within reach. -/
  reach : ∀ (i : Nat) (p : Port), s.ports[i]? = some p → ∀ a ∈ s.unsent i, a ≤ reach g
  readTurn : s.readArbiter.turn.Granting s.ports.length
  writeTurn : s.writeArbiter.turn.Granting s.ports.length

variable {params : MachineParams} {s s' : Machine} {slave : ReadSlave}

theorem bounded_ofParams (h : ofParams params = .ok s) : s.Bounded params.geometry := by
  obtain ⟨_, hrest⟩ := reads_ofParams h
  have hlen := (formed_ofParams h).length
  have hget := getElem?_ofParams h
  obtain ⟨ra, wa, hra, hwa, hs⟩ := ofParams_eq_ok h
  obtain ⟨rturn, hrturn, hra⟩ := except_bind_eq_ok.mp hra
  obtain ⟨wturn, hwturn, hwa⟩ := except_bind_eq_ok.mp hwa
  cases hra
  cases hwa
  refine ⟨?_, ?_, ?_, ?_⟩
  · intro i p hp
    rw [hget] at hp
    obtain ⟨q, _, rfl⟩ := Option.map_eq_some_iff.mp hp
    exact Port.bounded_ofParams _ _ _
  · intro i p _ a ha
    rw [(hrest i).1] at ha
    cases ha
  · rw [hlen, hs]
    exact RoundRobin.granting_ofLanes hrturn
  · rw [hlen, hs]
    exact RoundRobin.granting_ofLanes hwturn

/-- A port has no more ports beside it than an arbiter has lanes. -/
theorem Reachable.length_le (h : Machine.Reachable params s) :
    s.ports.length ≤ maxRequesters := by
  rw [h.formed.length]
  obtain ⟨_, _, h₀, _⟩ := h
  exact length_ofParams h₀

theorem bounded_edge (hr : Machine.Reachable params s) (hb : s.Bounded params.geometry)
    (h : s.Edge slave s') : s'.Bounded params.geometry := by
  have hf := hr.formed
  have hlanes := hr.length_le
  refine ⟨?_, ?_, ?_, ?_⟩
  · intro i p' hp'
    obtain ⟨p, rstep, wstep, hp, hedge⟩ := h.port' hp'
    obtain ⟨q, _, hbuilt⟩ := hf.port i p hp
    exact (hb.port i p hp).edge hbuilt hedge
  · intro i p' hp' a ha
    obtain ⟨p, rstep, wstep, hp, hedge⟩ := h.port' hp'
    obtain ⟨sent, _, _, hflow, _⟩ := read_flow hf.reads h hp
    obtain ⟨hsound, _⟩ := (credited_reachable hr).2 i p hp
    have hmem : a ∈ s.unsent i ++ (s.readBus slave i p).arFired.toList.flatMap
        (·.addresses s.memory.store.geometry) := by
      rw [hflow]
      exact List.mem_append_right _ ha
    rcases List.mem_append.mp hmem with hold | hnew
    · exact hb.reach i p hp a hold
    · -- a new address is one of the request that the reader offers
      obtain ⟨hoffer, haddr⟩ := s.arFired_readBus slave i p
      rw [haddr] at hnew
      split at hnew
      · rename_i hfire
        rw [hf.geometry] at hnew
        exact ReadCore.request_reach (hb.port i p hp).reader hsound (hoffer hfire) a hnew
      · cases hnew
  · rw [ReadArbiter.tick_turn h.readArbiter, h.length]
    exact hb.readTurn.nextRead hlanes _
  · rw [WriteArbiter.tick_turn h.writeArbiter, h.length]
    exact hb.writeTurn.nextWrite hlanes _

theorem bounded_touched {op : Operation} (hb : s.Bounded params.geometry)
    (h : s.Touched op s') : s'.Bounded params.geometry := by
  refine ⟨?_, ?_, ?_, ?_⟩
  · intro i p' hp'
    obtain ⟨p, hp, hport⟩ := h.port' hp'
    exact (hb.port i p hp).touched hport
  · intro i p' hp'
    obtain ⟨p, hp, _⟩ := h.port' hp'
    rw [(h.reads.2 i).1]
    exact hb.reach i p hp
  · rw [h.readArbiter, h.length]
    exact hb.readTurn
  · rw [h.writeArbiter, h.length]
    exact hb.writeTurn

theorem bounded_reset (hr : Machine.Reachable params s) (hb : s.Bounded params.geometry)
    (h : s.reset.result = .ok s') : s'.Bounded params.geometry := by
  obtain ⟨_, hrest⟩ := reset_reads hr.formed.reads h
  have hlanes := hr.length_le
  have hs := reset_eq_ok h
  have hlen : s'.ports.length = s.ports.length := by rw [hs]; exact List.length_map _
  refine ⟨?_, ?_, ?_, ?_⟩
  · intro i p' hp'
    rw [hs] at hp'
    simp only [List.getElem?_map, Option.map_eq_some_iff] at hp'
    obtain ⟨p, _, rfl⟩ := hp'
    exact Port.Bounded.reset p
  · intro i p' _ a ha
    rw [(hrest i).1] at ha
    cases ha
  · rw [hlen, hs]
    exact hb.readTurn.reset hlanes
  · rw [hlen, hs]
    exact hb.writeTurn.reset hlanes

/-- **In every reachable machine all numbers are in range.** -/
theorem bounded_reachable (h : Machine.Reachable params s) : s.Bounded params.geometry :=
  h.steps bounded_ofParams bounded_edge (fun _ => bounded_touched) bounded_reset

end Machine

/-! ## What a frame-mode engine counts -/

namespace Port

variable {p p' : Port} {i : Nat}

theorem framed_of_rest {given : List Beat} (hfifo : p.writeFifo.beats = [])
    (hends : p.writeFifo.endsHeld = 0) (hqueue : p.source.queue = [])
    (hphase : p.writer.core.phase = .idle) (hwritten : p.writer.core.written = 0) :
    p.Framed given := by
  refine ⟨⟨?_, ?_⟩, ?_, given, [], ?_, hwritten.symm, fun _ b hb => by cases hb⟩
  · rw [hfifo, hends]
    rfl
  · intro j b hb
    rw [hfifo] at hb
    cases hb
  · exact WriteCore.cutRight_of_closed (by rw [hphase]; nofun) (by rw [hphase]; nofun)
  · rw [hfifo, hqueue, List.append_nil, List.append_nil, List.append_nil]

theorem Framed.touched {given : List Beat} {e : Moment} (hf : p.Framed given)
    (h : Port.Touched i e p p') : p'.Framed (given ++ e.offers i) := by
  obtain ⟨before, sent, hgiven, hlen, hclean⟩ := hf.stream
  refine ⟨?_, ?_, before, sent, ?_, ?_, ?_⟩
  · rw [h.writeFifo]
    exact hf.latched
  · rw [h.writer, h.writeFifo]
    exact hf.cut
  · rw [h.writeFifo, h.source, hgiven]
    simp
  · rw [h.writer]
    exact hlen
  · rw [h.writer]
    exact hclean

end Port

/-- **What a frame-mode port sends in one transfer stands in a row in what its source was
given**, whatever happened in between. -/
theorem History.portFramed {params : MachineParams} {s₀ s : Machine} {past : List Moment} {i : Nat}
    {q : PortParams} (h₀ : Machine.ofParams params = .ok s₀) (h : History s₀ past s)
    (hq : params.ports[i]? = some q) (hmode : q.frameMode = true) (hdepth : q.fifoDepth < limit32) :
    ∀ p, s.ports[i]? = some p → p.Framed (past.flatMap (Moment.offers i)) := by
  induction h with
  | start =>
      intro p hp
      rw [Machine.getElem?_ofParams h₀, hq] at hp
      cases hp
      exact Port.framed_of_rest rfl rfl rfl rfl rfl
  | @step past s s' op hist hop ih =>
      have hr : Machine.Reachable params s := ⟨s₀, past, h₀, hist⟩
      have hf := hr.formed
      intro p' hp'
      rw [log_concat]
      by_cases ht : op = .tick
      · subst ht
        obtain ⟨slave, h⟩ := Machine.tick_edge hop
        obtain ⟨p, rstep, wstep, hp, hedge⟩ := h.port' hp'
        obtain ⟨q', hq', hbuilt⟩ := hf.port i p hp
        rw [hq] at hq'
        cases hq'
        have hbounded := (Machine.bounded_reachable hr).port i p hp
        have hshort : p.writeFifo.beats.length < limit32 := by
          have hfits := hbounded.writeFifo.fits
          rw [hbuilt.writeCapacity] at hfits
          omega
        rw [show Moment.offers i (s, .tick) = [] from rfl, List.append_nil]
        exact (ih p hp).edge hbuilt hmode hbounded.writer.beat hshort hedge
      · by_cases hreset : op = .reset
        · subst hreset
          rw [Machine.reset_eq_ok hop] at hp'
          simp only [List.getElem?_map, Option.map_eq_some_iff] at hp'
          obtain ⟨p, _, rfl⟩ := hp'
          exact Port.framed_of_rest rfl rfl rfl rfl rfl
        · have htouch := Machine.touched_of_apply hf.indexed hop ht hreset
          obtain ⟨p, hp, hport⟩ := htouch.port' hp'
          exact (ih p hp).touched hport

end BurstDma
