import BurstDma.Proofs.Configuration
import BurstDma.Proofs.ErrorLatch
import BurstDma.Proofs.OkayAnswers
import BurstDma.Proofs.ReadTransfer
import BurstDma.Proofs.WriteTransfer

/-!
# An engine without an error has lost nothing

Every response of the memory reaches the engine that it is for, and an error among them reaches
its latch. So **an engine whose latch stays clear has heard of successes only**, and as long as a
success means that the data moved, all of its data did.

A response is not heard at once. What an engine has not heard is on its way: a beat to a reader
in the buffer of the arbiter, the answer to a writer in the memory. There is at most one such
answer, because no other burst is opened before it is taken.
-/

namespace BurstDma

/-! ## What the engines hear -/

/-- A reader whose latch is clear after a cycle has heard no error in it. -/
theorem ReadCore.heard_okay {g : Geometry} {c c' : ReadCore} {i : ReadInputs} {step : ReadStep}
    (h : (c.next g i).result = .ok (c', step)) (hokay : c'.error = .okay) :
    ∀ b ∈ i.beat, b.resp = .okay := fun b hb =>
  (ReadCore.latches g).heard_okay h hokay b.resp (Option.mem_map_of_mem _ hb)

/-- A reader hands over what it hears. -/
theorem ReadCore.length_push {g : Geometry} {c c' : ReadCore} {i : ReadInputs} {step : ReadStep}
    (h : (c.next g i).result = .ok (c', step)) :
    step.push.toList.length = i.beat.toList.length := by
  obtain ⟨⟨r, push⟩, hreceive, h⟩ := Run.result_bind_eq_ok.mp h
  obtain ⟨⟨core, st⟩, _, h⟩ := Run.result_bind_eq_ok.mp h
  cases h
  obtain ⟨_, rfl⟩ := receive_eq hreceive
  cases i.beat <;> rfl

/-- A writer whose latch is clear after a cycle has heard no error in it. -/
theorem WriteCore.heard_okay {g : Geometry} {c c' : WriteCore} {i : WriteInputs}
    {step : WriteStep} (h : (c.next g i).result = .ok (c', step)) (hokay : c'.error = .okay) :
    ∀ b ∈ i.b, b.resp = .okay := fun b hb =>
  (WriteCore.latches g).heard_okay h hokay b.resp (Option.mem_map_of_mem _ hb)

/-- The latch that `error` reads was clear in port `i` all the time. -/
def StaysOkay (error : Port → Resp) (i : Nat) (past : List Moment) (s : Machine) : Prop :=
  ∀ t ∈ past.map (·.1) ++ [s], ∀ p ∈ t.ports[i]?, error p = .okay

instance (error : Port → Resp) (i : Nat) (past : List Moment) (s : Machine) :
    Decidable (StaysOkay error i past s) :=
  inferInstanceAs (Decidable (∀ t ∈ past.map (·.1) ++ [s], ∀ p ∈ t.ports[i]?, error p = .okay))

section

variable {error : Port → Resp} {params : MachineParams} {past : List Moment} {e : Moment}
  {s₀ s s' : Machine} {slave : ReadSlave} {i : Nat} {p p' : Port} {rstep : ReadStep}
  {wstep : WriteStep}

theorem StaysOkay.before (h : StaysOkay error i (past ++ [e]) s') :
    StaysOkay error i past e.1 := by
  intro t ht
  refine h t (List.mem_append_left _ ?_)
  rw [List.map_append]
  exact ht

theorem StaysOkay.now (h : StaysOkay error i past s) (hp : s.ports[i]? = some p) :
    error p = .okay :=
  h s (List.mem_append_right _ List.mem_cons_self) p hp

/-! ## Readers -/

/-- What the memory sent to a reader is on its way, or was heard as a success and handed over. -/
def HeardOkay (i : Nat) (past : List Moment) (s : Machine) : Prop :=
  ∃ heard : List ReadBeat, (past.flatMap (Moment.memorySends i)).map (·.1) = heard ++ s.held i
    ∧ heard.length = (past.flatMap (Moment.readerPushes i)).length
    ∧ ∀ b ∈ heard, b.resp = .okay

theorem heardOkay_edge (hf : s.Formed params) (hl : HeardOkay i past s) (h : s.Edge slave s')
    (hp : s.ports[i]? = some p)
    (hedge : p.Edge (s.readBus slave i p) (s.writeBus i p) rstep wstep p')
    (hokay : p'.reader.core.error = .okay) : HeardOkay i (past ++ [(s, .tick)]) s' := by
  obtain ⟨heard, hsends, hlen, hgood⟩ := hl
  obtain ⟨sent, hnew, _, _, hheld⟩ := Machine.read_flow hf.reads h hp
  obtain ⟨hcore, _⟩ := ReadEngine.tick_core hedge.reader
  obtain ⟨_, hpushes⟩ := Moment.reader_tick h.drives hp hedge
  refine ⟨heard ++ (s.readBus slave i p).rFired.toList, ?_, ?_, fun b hb => ?_⟩
  · rw [log_concat, hnew, List.map_append, hsends, List.map_map, List.append_assoc,
      List.append_assoc]
    exact congrArg (heard ++ ·) hheld
  · rw [log_concat, hpushes, List.length_append, List.length_append, hlen,
      ReadCore.length_push hcore]
    rfl
  · rcases List.mem_append.mp hb with hb | hb
    · exact hgood b hb
    · exact ReadCore.heard_okay hcore hokay b (Option.mem_toList.mp hb)

/-- **A reader without an error has heard of successes only.** -/
theorem History.heardOkay (h₀ : Machine.ofParams params = .ok s₀) (h : History s₀ past s)
    (hu : Uninterrupted past) (hokay : StaysOkay (·.reader.core.error) i past s)
    (hp : s.ports[i]? = some p) : HeardOkay i past s := by
  refine h.induction (P := fun past s => StaysOkay (·.reader.core.error) i past s →
    ∀ p, s.ports[i]? = some p → HeardOkay i past s) h₀ hu ?_ ?_ ?_ hokay p hp
  · intro _ p hp
    obtain ⟨_, hrest⟩ := Machine.reads_ofParams h₀
    obtain ⟨_, hheld⟩ := hrest i
    refine ⟨[], ?_, rfl, nofun⟩
    rw [hheld]
    rfl
  · intro past s s' slave hf ih hedge hokay p' hp'
    obtain ⟨p, rstep, wstep, hp, hport⟩ := hedge.port' hp'
    exact heardOkay_edge hf (ih hokay.before p hp) hedge hp hport (hokay.now hp')
  · intro past s s' op ht hf ih htouch hokay p' hp'
    obtain ⟨p, hp, _⟩ := htouch.port' hp'
    obtain ⟨heard, hsends, hlen, hgood⟩ := ih hokay.before p hp
    obtain ⟨_, hpushes, hnone⟩ := Moment.reader_silent (s := s) ht i
    obtain ⟨_, hheld⟩ := htouch.reads.2 i
    refine ⟨heard, ?_, ?_, hgood⟩
    · rw [log_concat, hnone, hheld, List.append_nil]
      exact hsends
    · rw [log_concat, hpushes, List.append_nil]
      exact hlen

/-- The stores that were read from have the shape that the machine was built with. -/
theorem History.sends_shape (h₀ : Machine.ofParams params = .ok s₀) (h : History s₀ past s) :
    ∀ x ∈ past.flatMap (Moment.memorySends i),
      x.2.geometry = params.geometry ∧ x.2.regions = params.memory.errorRegions := by
  intro x hx
  obtain ⟨e, he, hx⟩ := List.mem_flatMap.mp hx
  obtain ⟨before, after, hpast⟩ := List.append_of_mem he
  obtain ⟨hbefore, _⟩ := h.moment hpast
  have hf := hbefore.formed h₀
  have hstore : x.2 = e.1.memory.store := by
    unfold Moment.memorySends at hx
    split at hx
    · split at hx
      · rw [List.mem_singleton.mp hx]
      · cases hx
    · cases hx
  rw [hstore]
  exact ⟨hf.geometry, hf.regions⟩

/-- Accesses that all succeed show what is stored. -/
theorem zipWith_stored {addrs : List Nat} {sends : List (ReadBeat × Store)}
    (hanswers : sends.map (fun t => .ok (t.1.data, t.1.resp))
      = List.zipWith (fun a t => t.2.readAt a) addrs sends)
    (hokay : ∀ t ∈ sends, t.1.resp = .okay)
    (hcandid : ∀ t ∈ sends, t.2.geometry.wordBytes ≠ 0 ∧ t.2.Candid) :
    List.zipWith (fun a t => t.2.stored? a) addrs sends = sends.map fun t => some t.1.data := by
  induction sends generalizing addrs with
  | nil => rw [List.zipWith_nil_right, List.map_nil]
  | cons t sends ih =>
      cases addrs with
      | nil => cases hanswers
      | cons a addrs =>
          obtain ⟨hanswer, hanswers⟩ := List.cons.inj hanswers
          obtain ⟨hresp, hokay⟩ := List.forall_mem_cons.mp hokay
          obtain ⟨⟨hpos, hwhole⟩, hcandid⟩ := List.forall_mem_cons.mp hcandid
          have hread : t.2.readAt a = .ok (t.1.data, .okay) := by
            rw [← hresp]
            exact hanswer.symm
          rw [List.zipWith_cons_cons, List.map_cons, ih hanswers hokay hcandid,
            hwhole.readAt hpos hread]

/-- **A reader without an error has handed over stored words**: each of them was stored at its
address when the memory sent it. -/
theorem History.okay_pushes (hg : params.geometry.Legal)
    (hcandid : ∀ r ∈ params.memory.errorRegions, r.resp ≠ .okay)
    (h₀ : Machine.ofParams params = .ok s₀) (h : History s₀ past s) (hu : Uninterrupted past)
    (hp : s.ports[i]? = some p) (hokay : StaysOkay (·.reader.core.error) i past s) :
    (past.flatMap (Moment.readerPushes i)).map (fun b => some b.data)
      = List.zipWith (fun a t => t.2.stored? a)
          (addressesOf params.geometry (whole (past.flatMap (Moment.readerTakes i))))
          ((past.flatMap (Moment.memorySends i)).take
            (past.flatMap (Moment.readerPushes i)).length) := by
  obtain ⟨hl, _⟩ := h.readLedger h₀ hu hp
  obtain ⟨heard, hsends, hlen, hgood⟩ := h.heardOkay h₀ hu hokay hp
  obtain ⟨addrs, hall, hcount, _, hanswers⟩ := hl.sent
  obtain ⟨_, hsent⟩ := hl.delivered_le
  have hshape := h.sends_shape (i := i) h₀
  have hdata := hl.arrived
  generalize past.flatMap (Moment.readerPushes i) = pushed at *
  generalize past.flatMap (Moment.memorySends i) = sends at *
  have hfront : (sends.take pushed.length).length = (addrs.take pushed.length).length := by
    rw [List.length_take, List.length_take, hcount]
  -- of the addresses only those of the words that arrived count
  rw [hall, ← List.take_append_drop pushed.length addrs, List.append_assoc,
    ← List.append_nil (sends.take _), List.zipWith_append hfront.symm, List.zipWith_nil_right,
    List.append_nil, zipWith_stored]
  · have htake := congrArg (List.take pushed.length) hdata
    rw [List.take_left' (List.length_map _), ← List.map_take] at htake
    have hsome := congrArg (List.map some) htake
    rw [List.map_map, List.map_map] at hsome
    exact hsome.symm
  · rw [← List.take_zipWith, ← hanswers, List.map_take]
  · intro t ht
    have hmem : t.1 ∈ (sends.take pushed.length).map (·.1) := List.mem_map_of_mem ht
    rw [List.map_take, hsends, List.take_left' hlen] at hmem
    exact hgood _ hmem
  · intro t ht
    obtain ⟨hgeo, hregions⟩ := hshape t (List.mem_of_mem_take ht)
    refine ⟨?_, fun r hr => hcandid r (hregions ▸ hr)⟩
    rw [hgeo]
    exact Nat.ne_of_gt hg.wordBytes_pos

end

/-! ## Writers -/

section

variable {params : MachineParams} {past : List Moment} {s₀ s s' : Machine} {slave : ReadSlave}
  {i due : Nat} {p : Port} {b : WriteResp}

/-- The answer that a port hears is the one that waits in the memory. -/
theorem Machine.response_of_fired (hb : (s.writeBus i p).bFired = some b) :
    ∃ due, s.memory.response = some (b, due) := by
  by_cases hi : i = s.writeArbiter.owner
  · subst hi
    rw [(s.owner_bus p).2.2] at hb
    split at hb
    · obtain ⟨⟨_, due⟩, hwaits, rfl⟩ := Option.map_eq_some_iff.mp hb
      exact ⟨due, (Option.filter_eq_some_iff.mp hwaits).1⟩
    · cases hb
  · rw [(Machine.fires_of_ne hi).b] at hb
    cases hb

/-- The lock says whom the answer that waits is for. -/
theorem Machine.WriteOrderly.lock_of_response (ho : s.WriteOrderly)
    (hr : s.memory.response = some (b, due)) :
    s.writeArbiter.lock = .responseChannel b.id := by
  have hstage := ho.stage
  generalize s.writeArbiter.lock = lock at hstage ⊢
  cases hstage with
  | select _ _ _ hnone =>
      rw [hnone] at hr
      cases hr
  | data _ _ _ _ _ _ hnone =>
      rw [hnone] at hr
      cases hr
  | answer _ _ _ _ _ _ _ hsome =>
      rw [hsome] at hr
      cases hr
      rfl

/-- **An answer waits until it is heard**, and in the meantime nothing is stored. -/
theorem Machine.response_edge (ho : s.WriteOrderly) (h : s.Edge slave s')
    (hr : s.memory.response = some (b, due)) :
    s.memory.completes? s.writes.down = none
      ∧ (s'.memory.response = some (b, due)
        ∨ ∃ p, s.ports[b.id]? = some p ∧ (s.writeBus b.id p).bFired = some b) := by
  have hlock := ho.lock_of_response hr
  have hstage := ho.stage
  rw [hlock] at hstage
  obtain ⟨hid, _⟩ := hstage.answer_inv
  obtain ⟨hm, hstage'⟩ := Machine.write_move ho h
  cases hm with
  | rest _ hsame _ _ hnone =>
      refine ⟨hnone, Or.inl ?_⟩
      -- the lock still waits for an answer, so the one that was there was not taken
      rw [hsame, hlock] at hstage'
      obtain ⟨_, resp, due', _, _, _, hsome⟩ := hstage'.answer_inv
      cases Memory.tick_writeEdge h.memory with
      | wait _ _ _ _ _ hafter =>
          obtain ⟨_, _, _, hcollect⟩ := s.memory.collect_eq rfl rfl (rfl : s.writes.down.bFired = _)
          rw [hcollect] at hafter
          split at hafter
          · cases hsome.symm.trans hafter
          · exact hafter.trans hr
      | store _ _ _ _ hcomplete => cases hnone.symm.trans hcomplete
  | start _ _ _ _ _ hl => cases hl.symm.trans hlock
  | send _ _ _ _ _ _ _ hl => cases hl.symm.trans hlock
  | close _ _ _ _ _ _ _ _ hl => cases hl.symm.trans hlock
  | answer id resp hfires hl _ hnone =>
      cases hl.symm.trans hlock
      have hp : s.ports[b.id]? = some s.ports[b.id] := List.getElem?_eq_getElem hid
      have hfired := (hfires _ _ hp).b
      rw [if_pos rfl] at hfired
      obtain ⟨_, hsome⟩ := Machine.response_of_fired hfired
      have hb : b = ⟨b.id, resp⟩ := congrArg Prod.fst (Option.some.inj (hr.symm.trans hsome))
      exact ⟨hnone, Or.inr ⟨_, hp, hfired.trans (congrArg some hb.symm)⟩⟩

/-- **A write that is complete is answered**, and if with a success then all its words are in the
store. -/
theorem Machine.answer_edge (hpos : s.memory.store.geometry.wordBytes ≠ 0)
    (hcandid : s.memory.store.Candid) (h : s.Edge slave s') {r : AddrReq}
    {beats : List WriteBeat} (hsome : s.memory.completes? s.writes.down = some (r, beats))
    (hfew : beats.length ≤ limit32) :
    ∃ b due, s'.memory.response = some (b, due) ∧ b.id = r.id
      ∧ (b.resp = .okay → ∀ x ∈ burstWrites s.memory.store.geometry r.addr beats,
        (Moment.storeAfter s.memory.store (s, .tick)).get? x.1.index = some x.2) := by
  rcases Memory.tick_write hpos h.memory with
    ⟨hnone, _⟩ | ⟨w, hcomplete, _, hstore, _, _, _, hresponse⟩
  · cases hnone.symm.trans hsome
  · cases hcomplete.symm.trans hsome
    refine ⟨_, _, hresponse, rfl, fun hokay x hx => ?_⟩
    obtain ⟨⟨a, d⟩, hplaced, rfl⟩ := List.mem_map.mp hx
    obtain ⟨k, beat, hbeat, rfl, rfl⟩ := mem_placedFrom.mp hplaced
    have hlate := Nat.le_trans hfew (Nat.le_add_left limit32 k)
    rw [Nat.zero_add, ← h.store, hstore, ← Store.get?_commit_okay hcandid hpos hokay hbeat hlate]
    exact congrArg _ (Nat.add_mul_div_right _ _ (Nat.pos_of_ne_zero hpos))

/-- The words that the memory took for port `i` were all in the store when their cycle was
over. -/
def AllStored (i : Nat) (past : List Moment) : Prop :=
  ∀ e ∈ past, ∀ x ∈ e.memoryStores i,
    (Moment.storeAfter e.1.memory.store e).get? x.1.index = some x.2

/-- An error to port `i` waits to be heard. -/
def ErrorWaits (i : Nat) (s : Machine) : Prop :=
  ∃ b due, s.memory.response = some (b, due) ∧ b.id = i ∧ b.resp ≠ .okay

theorem AllStored.concat {e : Moment} (h : AllStored i past)
    (he : ∀ x ∈ e.memoryStores i,
      (Moment.storeAfter e.1.memory.store e).get? x.1.index = some x.2) :
    AllStored i (past ++ [e]) := by
  intro e' he'
  rcases List.mem_append.mp he' with he' | he'
  · exact h e' he'
  · rw [List.mem_singleton.mp he']
    exact he

/-- **What the memory could not store is told in the next answer**, before anything else is
stored. -/
theorem allStored_edge (hg : params.geometry.Legal)
    (hcandid : ∀ r ∈ params.memory.errorRegions, r.resp ≠ .okay)
    (hr : Machine.Reachable params s) (hl : AllStored i past ∨ ErrorWaits i s)
    (h : s.Edge slave s')
    (hokay : ∀ p', s'.ports[i]? = some p' → p'.writer.core.error = .okay) :
    AllStored i (past ++ [(s, .tick)]) ∨ ErrorWaits i s' := by
  have hstores := Moment.memoryStores_tick h.drives i
  have hf := hr.formed
  rcases hl with hl | ⟨b, due, hwaits, rfl, hbad⟩
  · cases hsome : s.memory.completes? s.writes.down with
    | none =>
        rw [hsome] at hstores
        refine Or.inl (hl.concat ?_)
        rw [hstores]
        nofun
    | some write =>
        obtain ⟨r, beats⟩ := write
        rw [hsome] at hstores
        replace hstores : Moment.memoryStores i (s, .tick)
          = if r.id = i then burstWrites s.memory.store.geometry r.addr beats else [] := hstores
        have hfew : beats.length ≤ limit32 :=
          Nat.le_trans (Machine.completes_short hr hsome) (by decide)
        obtain ⟨b, due, hwaits, hid, hall⟩ := Machine.answer_edge (by
          rw [hf.geometry]
          exact Nat.ne_of_gt hg.wordBytes_pos) (fun r hr => hcandid r (hf.regions ▸ hr)) h hsome
          hfew
        by_cases hmine : r.id = i
        · by_cases hgood : b.resp = .okay
          · refine Or.inl (hl.concat ?_)
            rw [hstores, if_pos hmine]
            exact hall hgood
          · exact Or.inr ⟨b, due, hwaits, hid.trans hmine, hgood⟩
        · refine Or.inl (hl.concat ?_)
          rw [hstores, if_neg hmine]
          nofun
  · obtain ⟨_, hwaits | ⟨p, hp, hfired⟩⟩ :=
      Machine.response_edge (Machine.writeOrderly_reachable hr) h hwaits
    · exact Or.inr ⟨b, due, hwaits, rfl, hbad⟩
    · -- the port has heard the error
      obtain ⟨_, _, p', hp', hport⟩ := h.port b.id p hp
      obtain ⟨hcore, _⟩ := WriteEngine.tick_core hport.writer
      exact absurd (WriteCore.heard_okay hcore (hokay p' hp') b hfired) hbad

/-- **A writer without an error has lost nothing**: while none of its bursts is open, every word
that the memory took from it has been in the store. -/
theorem History.okay_stores (hg : params.geometry.Legal)
    (hcandid : ∀ r ∈ params.memory.errorRegions, r.resp ≠ .okay)
    (h₀ : Machine.ofParams params = .ok s₀) (h : History s₀ past s) (hu : Uninterrupted past)
    (hp : s.ports[i]? = some p) (hokay : StaysOkay (·.writer.core.error) i past s)
    (hclosed : p.writer.core.outstanding = 0) : AllStored i past := by
  have hl : AllStored i past ∨ ErrorWaits i s := by
    refine h.steps (P := fun past s => StaysOkay (·.writer.core.error) i past s →
      AllStored i past ∨ ErrorWaits i s) h₀ hu ?_ ?_ ?_ hokay
    · exact fun _ => Or.inl fun _ he => absurd he List.not_mem_nil
    · intro past s s' slave hr ih hedge hokay
      exact allStored_edge hg hcandid hr (ih hokay.before) hedge fun _ => hokay.now
    · intro past s s' op ht hr ih htouch hokay
      rcases ih hokay.before with hl | ⟨b, due, hwaits, herror⟩
      · obtain ⟨_, _, _, _, hnone⟩ := Moment.writer_silent (s := s) ht i
        refine Or.inl (hl.concat ?_)
        rw [hnone]
        nofun
      · refine Or.inr ⟨b, due, ?_, herror⟩
        rw [htouch.memory]
        exact hwaits
  refine hl.resolve_right ?_
  rintro ⟨b, due, hr, rfl, _⟩
  have ho := Machine.writeOrderly_reachable ⟨s₀, past, h₀, h⟩
  have hopen := (ho.port b.id p hp).outstanding
  rw [ho.lock_of_response hr, hclosed, WriteLock.openFor, if_pos rfl] at hopen
  cases hopen

end

/-! ## What a success means -/

/-- A memory as it is built, with an image in it. -/
def Memory.withImage (params : MachineParams) (base : Nat) (image : List Word) : Memory :=
  { Memory.ofParams params.memory params.geometry with
    store := (Store.zeros params.geometry params.memory).fill base image }

/-- **A success means that the data moved**, in every machine of a configuration that passes the
checks and has no region that refuses with a success. Whatever the masters of its memory do, a
write that is answered so has every one of its words in the store once it is stored (but for those
that a beat of the same write replaces, 2^32 beats later), and a beat that is sent so carries the
word that is stored at its address. So a reader whose latch stays clear has handed over stored
words only, and of a writer whose latch stays clear every word has been in the store when none of
its bursts is open. -/
theorem okay_moves_data {c : Config} {sandbox : Sandbox}
    (hvalid : (ExceptT.run (c.validate : Task (StateM Sandbox) Unit) sandbox).1 = .ok ())
    (hcandid : ∀ r ∈ c.memory.errorRegions, r.resp ≠ .okay) :
    ∃ params, c.params = .ok params
      ∧ (∀ (base : Nat) (image : List Word) (past : List MemoryCycle) (m : Memory),
        (Memory.withImage params base image).Cycles past m →
        (∀ (k : Nat) (b : WriteResp), (Memory.answered past)[k]? = some b → b.resp = .okay →
          ∃ w, (Memory.completed past)[k]? = some w ∧ b.id = w.request.id
            ∧ ∀ i beat, w.beats[i]? = some beat →
              (Memory.withImage params base image).store.target
                  (w.request.addr + i % limit32 * params.geometry.wordBytes)
                = .ok (w.request.addr / params.geometry.wordBytes + i % limit32)
              ∧ (w.beats.length ≤ i + limit32 →
                (((Memory.completed past).take (k + 1)).foldl Store.commit
                  (Memory.withImage params base image).store).get?
                    (w.request.addr / params.geometry.wordBytes + i % limit32) = some beat.data))
        ∧ ∀ (k : Nat) (s : Store) (b : ReadBeat), (Memory.sent past)[k]? = some (s, b) →
          b.resp = .okay → ∃ w, (Memory.asked past)[k]? = some w ∧ b.id = w.request.id
            ∧ s.stored? (w.request.addr + w.index * params.geometry.wordBytes) = some b.data)
      ∧ ∀ (s₀ s : Machine) (past : List Moment) (i : Nat) (p : Port),
        Machine.ofParams params = .ok s₀ → History s₀ past s → Uninterrupted past →
        s.ports[i]? = some p →
        (StaysOkay (·.reader.core.error) i past s →
          (past.flatMap (Moment.readerPushes i)).map (fun b => some b.data)
            = List.zipWith (fun a t => t.2.stored? a)
                (addressesOf params.geometry (whole (past.flatMap (Moment.readerTakes i))))
                ((past.flatMap (Moment.memorySends i)).take
                  (past.flatMap (Moment.readerPushes i)).length))
        ∧ (StaysOkay (·.writer.core.error) i past s → p.writer.core.outstanding = 0 →
          ∀ e ∈ past, ∀ x ∈ e.memoryStores i,
            (Moment.storeAfter e.1.memory.store e).get? x.1.index = some x.2) := by
  have haccepted := Config.refusal?_eq_none_iff.mp (Config.validated_iff.mp hvalid)
  obtain ⟨params, hparams, _⟩ := Config.params_ok haccepted.width
  obtain ⟨hg, hregions⟩ := Config.params_memory hparams
  rw [← hregions] at hcandid
  refine ⟨params, hparams, fun base image past m h => ?_, fun s₀ s past i p h₀ h hu hp =>
    ⟨h.okay_pushes hg hcandid h₀ hu hp, h.okay_stores hg hcandid h₀ hu hp⟩⟩
  obtain ⟨hgeo, hfailing⟩ :=
    (Store.zeros params.geometry params.memory).fill_geometry base image
  have hshape : (Memory.withImage params base image).store.geometry = params.geometry := hgeo
  have hwhole : (Memory.withImage params base image).store.Candid := fun r hr =>
    hcandid r ((congrArg (r ∈ ·) hfailing).mp hr)
  refine ⟨fun k b hb hokay => ?_, fun k s b hb hokay => ?_⟩
  · have hanswer := h.okay_answer (by
      rw [hshape]
      exact Nat.ne_of_gt hg.wordBytes_pos) rfl hwhole hb hokay
    rwa [hshape] at hanswer
  · have hbeat := h.okay_beat (by rwa [hshape]) rfl hwhole hb hokay
    rwa [hshape] at hbeat

/-! ## A word there and back -/

/-- A machine of one port over eight words, with a region that fails. -/
def MachineParams.withRegion (r : ErrorRegion) : MachineParams where
  ports := [{}]
  memory := { sizeWords := 8, readLatency := 1, writeLatency := 1, errorRegions := [r] }

/-- The configuration of it. -/
def Config.withRegion (r : ErrorRegion) : Config where
  memory := { sizeWords := 8, readLatency := 1, writeLatency := 1, errorRegions := [r] }

/-- The masters of a memory that write the word 5 at address 16, and read it. -/
def Memory.thereAndBack : List (ReadMaster × WriteMaster) :=
  [({}, { aw := some { id := 4, addr := 16, len := 0 }, w := some ⟨5, true⟩ }),
    ({ ar := some { id := 4, addr := 16, len := 0 } }, { bReady := true }),
    ({ rReady := true }, {})]

/-- The same for the two engines of a port. -/
def Operation.thereAndBack : List Operation :=
  [.push 0 [⟨5, true⟩]] ++ Operation.program 0 .writer 16 1 1 ++ List.replicate 14 .tick
    ++ Operation.program 0 .reader 16 1 1 ++ List.replicate 16 .tick

/-- Beside a region that fails, the memory answers both with a success. -/
theorem Memory.thereAndBack_run : ∃ (past : List MemoryCycle) (m : Memory) (s : Store),
    (Memory.withImage (.withRegion ⟨8, 16, .slvErr⟩) 2 [7]).Cycles past m
      ∧ Memory.completed past = [⟨{ id := 4, addr := 16, len := 0 }, [⟨5, true⟩], 0⟩]
      ∧ Memory.answered past = [⟨4, .okay⟩]
      ∧ Memory.asked past = [⟨1, { id := 4, addr := 16, len := 0 }, 0⟩]
      ∧ Memory.sent past = [(s, ⟨4, 5, .okay, true⟩)] := by
  obtain ⟨past, m, hrun, hcompleted, hanswered, hasked, hsent⟩ := exists_run_of_seen
    (Memory.withImage (.withRegion ⟨8, 16, .slvErr⟩) 2 [7]).Cycles Memory.attempt
    (fun _ _ _ _ _ => Memory.Cycles.attempt) .start Memory.thereAndBack
    (fun (past, _) =>
      Memory.completed past = [⟨{ id := 4, addr := 16, len := 0 }, [⟨5, true⟩], 0⟩]
        ∧ Memory.answered past = [⟨4, .okay⟩]
        ∧ Memory.asked past = [⟨1, { id := 4, addr := 16, len := 0 }, 0⟩]
        ∧ (Memory.sent past).map (·.2) = [⟨4, 5, .okay, true⟩])
    (by decide +kernel)
  obtain ⟨⟨s, _⟩, hsent, rfl⟩ := List.map_eq_singleton_iff.mp hsent
  exact ⟨past, m, s, hrun, hcompleted, hanswered, hasked, hsent⟩

/-- Beside a region that fails, the engines hear of no error. -/
theorem Machine.thereAndBack_run : ∃ (s₀ s : Machine) (past : List Moment) (p : Port),
    Machine.ofParams (.withRegion ⟨8, 16, .slvErr⟩) = .ok s₀ ∧ History s₀ past s
      ∧ Uninterrupted past ∧ s.ports[0]? = some p
      ∧ StaysOkay (·.reader.core.error) 0 past s ∧ StaysOkay (·.writer.core.error) 0 past s
      ∧ p.writer.core.outstanding = 0
      ∧ past.flatMap (Moment.memoryStores 0) = [(⟨2, 16⟩, 5)]
      ∧ past.flatMap (Moment.readerTakes 0) = [⟨16, 1, 1⟩]
      ∧ past.flatMap (Moment.readerPushes 0) = [⟨5, true⟩]
      ∧ ∃ t, past.flatMap (Moment.memorySends 0) = [t] := by
  have hplay : Machine.trial (.withRegion ⟨8, 16, .slvErr⟩) Operation.thereAndBack
      (fun past s => decide (Uninterrupted past
        ∧ StaysOkay (·.reader.core.error) 0 past s ∧ StaysOkay (·.writer.core.error) 0 past s
        ∧ past.flatMap (Moment.memoryStores 0) = [(⟨2, 16⟩, 5)]
        ∧ past.flatMap (Moment.readerTakes 0) = [⟨16, 1, 1⟩]
        ∧ past.flatMap (Moment.readerPushes 0) = [⟨5, true⟩]
        ∧ (past.flatMap (Moment.memorySends 0)).length = 1)
        && (s.ports[0]?).any (·.writer.core.outstanding == 0)) = true := by
    decide +kernel
  obtain ⟨s₀, past, s, h₀, h, hlook⟩ := Machine.exists_of_trial hplay
  obtain ⟨hlook, hclosed⟩ := Bool.and_eq_true_iff.mp hlook
  obtain ⟨hu, hreader, hwriter, hstores, htakes, hpushes, hsends⟩ := of_decide_eq_true hlook
  obtain ⟨p, hp, hclosed⟩ := (Option.any_eq_true _ _).mp hclosed
  exact ⟨s₀, s, past, p, h₀, h, hu, hp, hreader, hwriter, beq_iff_eq.mp hclosed, hstores, htakes,
    hpushes, List.length_eq_one_iff.mp hsends⟩

/-- And so the word is in the store, and comes back. -/
theorem okay_moves_data_one_word :
    ∃ params, (Config.withRegion ⟨8, 16, .slvErr⟩).params = .ok params
      ∧ (∃ (past : List MemoryCycle) (m : Memory) (s : Store),
        (Memory.withImage params 2 [7]).Cycles past m
          ∧ Memory.answered past = [⟨4, .okay⟩]
          ∧ (((Memory.completed past).take 1).foldl Store.commit
            (Memory.withImage params 2 [7]).store).get? 2 = some 5
          ∧ Memory.sent past = [(s, ⟨4, 5, .okay, true⟩)] ∧ s.stored? 16 = some 5)
      ∧ ∃ (s₀ s : Machine) (past : List Moment) (p : Port),
        Machine.ofParams params = .ok s₀ ∧ History s₀ past s ∧ Uninterrupted past
          ∧ s.ports[0]? = some p ∧ StaysOkay (·.reader.core.error) 0 past s
          ∧ StaysOkay (·.writer.core.error) 0 past s ∧ p.writer.core.outstanding = 0
          ∧ past.flatMap (Moment.memoryStores 0) = [(⟨2, 16⟩, 5)]
          ∧ (∀ e ∈ past, ∀ x ∈ e.memoryStores 0,
            (Moment.storeAfter e.1.memory.store e).get? x.1.index = some x.2)
          ∧ past.flatMap (Moment.readerPushes 0) = [⟨5, true⟩]
          ∧ ∃ t, past.flatMap (Moment.memorySends 0) = [t] ∧ t.2.stored? 16 = some 5 := by
  have hvalid : (ExceptT.run
      ((Config.withRegion ⟨8, 16, .slvErr⟩).validate : Task (StateM Sandbox) Unit) {}).1
        = .ok () := rfl
  obtain ⟨params, hparams, hmemory, hmachine⟩ := okay_moves_data hvalid (by decide)
  have hsame : (Config.withRegion ⟨8, 16, .slvErr⟩).params
      = .ok (.withRegion ⟨8, 16, .slvErr⟩) := rfl
  cases hsame.symm.trans hparams
  refine ⟨_, rfl, ?_, ?_⟩
  · obtain ⟨past, m, s, hrun, hcompleted, hanswered, hasked, hsent⟩ := Memory.thereAndBack_run
    obtain ⟨hwrite, hread⟩ := hmemory _ _ _ _ hrun
    obtain ⟨w, hw, _, hstored⟩ := hwrite 0 ⟨4, .okay⟩ (by rw [hanswered]; rfl) rfl
    obtain ⟨word, hword, _, hshown⟩ := hread 0 s _ (by rw [hsent]; rfl) rfl
    rw [hcompleted] at hw
    cases hw
    rw [hasked] at hword
    cases hword
    obtain ⟨_, hkept⟩ := hstored 0 _ rfl
    exact ⟨past, m, s, hrun, hanswered, hkept (by decide), hsent, hshown⟩
  · obtain ⟨s₀, s, past, p, h₀, h, hu, hp, hreader, hwriter, hclosed, hstores, htakes, hpushes, t,
      hsends⟩ := Machine.thereAndBack_run
    obtain ⟨hdelivered, hkept⟩ := hmachine s₀ s past 0 p h₀ h hu hp
    refine ⟨s₀, s, past, p, h₀, h, hu, hp, hreader, hwriter, hclosed, hstores,
      hkept hwriter hclosed, hpushes, t, hsends, ?_⟩
    have hall := hdelivered hreader
    rw [hpushes, htakes, hsends] at hall
    exact (List.cons.inj hall).1.symm

/-- **A region that fails with a success hides the loss**, and the checks let it pass. The word
is written and read in it: nothing is stored, another word is read, and no latch tells of it. -/
theorem okay_region_loses_data :
    (ExceptT.run ((Config.withRegion ⟨16, 24, .okay⟩).validate : Task (StateM Sandbox) Unit) {}).1
        = .ok ()
      ∧ ∃ params, (Config.withRegion ⟨16, 24, .okay⟩).params = .ok params
        ∧ (∃ past m, (Memory.withImage params 2 [7]).Cycles past m
          ∧ Memory.completed past = [⟨{ id := 4, addr := 16, len := 0 }, [⟨5, true⟩], 0⟩]
          ∧ Memory.answered past = [⟨4, .okay⟩]
          ∧ (Memory.sent past).map (·.2) = [⟨4, 0, .okay, true⟩]
          ∧ m.store.get? 2 = some 7)
        ∧ ∃ s₀ past s, Machine.ofParams params = .ok s₀ ∧ History s₀ past s
          ∧ StaysOkay (·.reader.core.error) 0 past s ∧ StaysOkay (·.writer.core.error) 0 past s
          ∧ past.flatMap (Moment.writerAnswers 0) = [⟨0, .okay⟩]
          ∧ past.flatMap (Moment.memoryStores 0) = [(⟨2, 16⟩, 5)]
          ∧ s.memory.store.get? 2 = some 0 := by
  refine ⟨rfl, .withRegion ⟨16, 24, .okay⟩, rfl, ?_, ?_⟩
  · exact exists_run_of_seen (Memory.withImage (.withRegion ⟨16, 24, .okay⟩) 2 [7]).Cycles
      Memory.attempt (fun _ _ _ _ _ => Memory.Cycles.attempt) .start Memory.thereAndBack
      (fun (past, m) =>
        Memory.completed past = [⟨{ id := 4, addr := 16, len := 0 }, [⟨5, true⟩], 0⟩]
          ∧ Memory.answered past = [⟨4, .okay⟩]
          ∧ (Memory.sent past).map (·.2) = [⟨4, 0, .okay, true⟩] ∧ m.store.get? 2 = some 7)
      (by decide +kernel)
  · have hplay : Machine.trial (.withRegion ⟨16, 24, .okay⟩) Operation.thereAndBack
        (fun past s => decide (StaysOkay (·.reader.core.error) 0 past s
          ∧ StaysOkay (·.writer.core.error) 0 past s
          ∧ past.flatMap (Moment.writerAnswers 0) = [⟨0, .okay⟩]
          ∧ past.flatMap (Moment.memoryStores 0) = [(⟨2, 16⟩, 5)]
          ∧ s.memory.store.get? 2 = some 0)) = true := by
      decide +kernel
    obtain ⟨s₀, past, s, h₀, h, hlook⟩ := Machine.exists_of_trial hplay
    exact ⟨s₀, past, s, h₀, h, of_decide_eq_true hlook⟩

end BurstDma
