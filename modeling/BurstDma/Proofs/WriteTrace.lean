import BurstDma.Proofs.Bounds
import BurstDma.Proofs.Recording

/-!
# The write channels of a trace

All ports share one write bus, and a trace shows what passes on it. Since at most one write
burst is open at any time, the write events of a trace are the bursts one after the other,
each of them an address, its words and an answer at one port, and of the newest burst perhaps
only a part. **What has been recorded of the open burst is what the memory holds of it**;
`Memory.Opened` says so for every state of the lock, and each of the five moves of
`Machine.WriteMove` takes that along.
-/

namespace BurstDma

/-- A write burst as a trace shows it. -/
structure TracedWrite where
  port : Nat
  addr : Nat
  len : Nat
  /-- The words but the last one. -/
  data : List Word
  final : Word
  resp : Resp
  full : data.length = len

namespace TracedWrite

/-- The address and the words, of which exactly the last one is marked. -/
def sent (t : TracedWrite) : List (Nat × BusEvent) :=
  (t.port, .aw t.addr t.len) :: t.data.map (fun d => (t.port, .w d false))
    ++ [(t.port, .w t.final true)]

/-- The whole burst, with its answer. -/
def events (t : TracedWrite) : List (Nat × BusEvent) :=
  t.sent ++ [(t.port, .b t.resp)]

end TracedWrite

/-- Words that are not the last ones of their burst, as a trace shows them. -/
theorem words_of_unmarked {id : Nat} {beats : List WriteBeat} (h : ∀ b ∈ beats, b.last = false) :
    beats.map (fun b => ((id, .w b.data b.last) : Nat × BusEvent))
      = (beats.map (·.data)).map fun d => (id, .w d false) := by
  rw [List.map_map]
  exact List.map_congr_left fun b hb => by rw [Function.comp_apply, h b hb]

/-- What has been recorded of the open burst, as the lock says it. -/
inductive Memory.Opened (m : Memory) : WriteLock → List (Nat × BusEvent) → Prop where
  | select : Opened m .select []
  | data (id : Nat) (r : AddrReq) : m.aw = some r → m.collected.length < r.beats →
      (∀ b ∈ m.collected, b.last = false) →
      Opened m (.writeChannel id true)
        ((id, .aw r.addr r.len) :: m.collected.map fun b => (id, .w b.data b.last))
  | answer (t : TracedWrite) : Opened m (.responseChannel t.port) t.sent

namespace Memory.Opened

variable {m : Memory} {lock : WriteLock} {id : Nat} {opened : List (Nat × BusEvent)}

theorem select_inv (h : m.Opened .select opened) : opened = [] := by
  cases h with
  | select => rfl

theorem data_inv (h : m.Opened (.writeChannel id true) opened) :
    ∃ r, m.aw = some r ∧ m.collected.length < r.beats ∧ (∀ b ∈ m.collected, b.last = false)
      ∧ opened = (id, .aw r.addr r.len) :: m.collected.map fun b => (id, .w b.data b.last) := by
  cases h with
  | data _ r ha hlen hlast => exact ⟨r, ha, hlen, hlast, rfl⟩

theorem answer_inv (h : m.Opened (.responseChannel id) opened) :
    ∃ t : TracedWrite, t.port = id ∧ opened = t.sent := by
  cases h with
  | answer t => exact ⟨t, rfl, rfl⟩

/-- Only the address and the words that were gathered matter. -/
theorem congr {m' : Memory} (h : m.Opened lock opened) (haw : m'.aw = m.aw)
    (hcol : m'.collected = m.collected) : m'.Opened lock opened := by
  cases h with
  | select => exact .select
  | data id r ha hlen hlast =>
      rw [← haw] at ha
      rw [← hcol] at hlen hlast ⊢
      exact .data id r ha hlen hlast
  | answer t => exact .answer t

/-- What was recorded of the open burst is the front of a burst. -/
theorem front (h : m.Opened lock opened) : ∃ t : TracedWrite, opened <+: t.events := by
  cases h with
  | select => exact ⟨⟨0, 0, 0, [], 0, .okay, rfl⟩, List.nil_prefix⟩
  | data id r ha hlen hlast =>
      have hbeats : r.beats = r.len + 1 := rfl
      -- the words that are missing do not matter
      refine ⟨⟨id, r.addr, r.len,
        m.collected.map (·.data) ++ List.replicate (r.len - m.collected.length) 0, 0, .okay, ?_⟩, ?_⟩
      · rw [List.length_append, List.length_map, List.length_replicate]
        omega
      · rw [words_of_unmarked hlast, TracedWrite.events, TracedWrite.sent, List.map_append]
        simp only [List.cons_append, List.append_assoc]
        exact List.cons_prefix_cons.mpr ⟨rfl, List.prefix_append _ _⟩
  | answer t => exact ⟨t, List.prefix_append _ _⟩

end Memory.Opened

namespace Machine

variable {params : MachineParams} {s s' : Machine} {slave : ReadSlave} {i id : Nat} {p : Port}

/-! ## What a cycle records -/

/-- The address that moves at a port is the one that its writer offers. -/
theorem awFired_eq {r : AddrReq} (h : (s.writeBus i p).awFired = some r) :
    p.writer.core.phase = .issueBurst ∧ p.writer.core.request = r := by
  obtain ⟨_, hoffer⟩ := Option.ite_none_right_eq_some.mp h
  have hwire : p.writeWires.aw
      = if p.writer.core.phase = .issueBurst then some p.writer.core.request else none := rfl
  obtain ⟨hph, hr⟩ := Option.ite_none_right_eq_some.mp (hwire.symm.trans hoffer)
  exact ⟨hph, Option.some.inj hr⟩

/-- The word that moves at a port is the oldest one of its buffer. -/
theorem wFired_eq {w : WriteBeat} (h : (s.writeBus i p).wFired = some w) {head : Beat}
    (hhead : p.writeFifo.head? = some head) : w = ⟨head.data, p.writer.core.onLastBeat⟩ := by
  obtain ⟨_, hoffer⟩ := Option.ite_none_right_eq_some.mp h
  have hwire : p.writeWires.w = if p.writer.core.phase = .transferBurst then
      p.writeFifo.head?.map fun head => ⟨head.data, p.writer.core.onLastBeat⟩ else none := rfl
  obtain ⟨_, hw⟩ := Option.ite_none_right_eq_some.mp (hwire.symm.trans hoffer)
  rw [hhead] at hw
  exact (Option.some.inj hw).symm

theorem events_of_quiet {bus : WriteBus} (h : bus.Fires false false none) : bus.events = [] := by
  obtain ⟨haw, hw, hb⟩ := h
  rw [Option.isSome_eq_false_iff, Option.isNone_iff_eq_none] at haw hw
  unfold WriteBus.events
  rw [haw, hw, hb]
  rfl

theorem events_of_address (h : (s.writeBus i p).Fires true false none) :
    (s.writeBus i p).events = [.aw p.writer.core.request.addr p.writer.core.request.len] := by
  obtain ⟨haw, hw, hb⟩ := h
  rw [Option.isSome_eq_false_iff, Option.isNone_iff_eq_none] at hw
  obtain ⟨r, haw⟩ := Option.isSome_iff_exists.mp haw
  obtain ⟨_, rfl⟩ := awFired_eq haw
  unfold WriteBus.events
  rw [haw, hw, hb]
  rfl

theorem events_of_word (h : (s.writeBus i p).Fires false true none) {head : Beat}
    (hhead : p.writeFifo.head? = some head) :
    (s.writeBus i p).events = [.w head.data p.writer.core.onLastBeat] := by
  obtain ⟨haw, hw, hb⟩ := h
  rw [Option.isSome_eq_false_iff, Option.isNone_iff_eq_none] at haw
  obtain ⟨w, hw⟩ := Option.isSome_iff_exists.mp hw
  obtain rfl := wFired_eq hw hhead
  unfold WriteBus.events
  rw [haw, hw, hb]
  rfl

theorem events_of_answer {bus : WriteBus} {resp : WriteResp}
    (h : bus.Fires false false (some resp)) : bus.events = [.b resp.resp] := by
  obtain ⟨haw, hw, hb⟩ := h
  rw [Option.isSome_eq_false_iff, Option.isNone_iff_eq_none] at haw hw
  unfold WriteBus.events
  rw [haw, hw, hb]
  rfl

/-- A cycle without a handshake records none. -/
theorem writes_of_rest (hi : s.Indexed) (hs : s.memory.readWires = .ok slave)
    (hfires : ∀ (i : Nat) (q : Port), s.ports[i]? = some q →
      (s.writeBus i q).Fires false false none) :
    TraceRecord.writes (Moment.records (s, .tick)) = [] := by
  rw [Moment.writes_tick hi hs, List.flatMap_eq_nil_iff]
  intro x hx
  obtain ⟨i, hx⟩ := List.getElem?_of_mem hx
  rw [List.getElem?_zipIdx, Nat.zero_add] at hx
  obtain ⟨q, hq, rfl⟩ := Option.map_eq_some_iff.mp hx
  rw [events_of_quiet (hfires i q hq)]
  rfl

/-- A cycle with a handshake at one port records that one. -/
theorem writes_of_one (hi : s.Indexed) (hs : s.memory.readWires = .ok slave)
    (hp : s.ports[id]? = some p) {event : BusEvent} (hone : (s.writeBus id p).events = [event])
    (hfires : ∀ (i : Nat) (q : Port), s.ports[i]? = some q → (i == id) = false →
      (s.writeBus i q).Fires false false none) :
    TraceRecord.writes (Moment.records (s, .tick)) = [(id, event)] := by
  rw [Moment.writes_tick hi hs, flatMap_eq_of_only (i := id)]
  · rw [List.getElem?_zipIdx, Nat.zero_add, hp]
    show (s.writeBus id p).events.map _ = _
    rw [hone]
    rfl
  · intro i x hx hne
    rw [List.getElem?_zipIdx, Nat.zero_add] at hx
    obtain ⟨q, hq, rfl⟩ := Option.map_eq_some_iff.mp hx
    rw [events_of_quiet (hfires i q hq (beq_eq_false_iff_ne.mpr hne))]
    rfl

/-! ## The bursts of a trace -/

/-- The word that a port sends joins those that were gathered. -/
theorem opened_of_send {r : AddrReq} {head : Beat} (hr : Machine.Reachable params s)
    (hp : s.ports[id]? = some p) (hl : s.writeArbiter.lock = .writeChannel id true)
    (ha : s.memory.aw = some r) (hlast : p.writer.core.onLastBeat = false)
    (hold : ∀ b ∈ s.memory.collected, b.last = false) (haw : s'.memory.aw = s.memory.aw)
    (hcol : s'.memory.collected = s.memory.collected ++ [⟨head.data, false⟩]) :
    s'.memory.Opened (.writeChannel id true)
      (((id, .aw r.addr r.len) :: s.memory.collected.map fun b => (id, .w b.data b.last))
        ++ [(id, .w head.data false)]) := by
  have hknows := (writeOrderly_reachable hr).port id p hp
  obtain ⟨r', hr', _, hbeats, hcount⟩ := hknows.burst hl
  rw [ha] at hr'
  cases hr'
  -- it is not the last one, so the burst has room for another
  have hbeat := ((bounded_reachable hr).port id p hp).writer.beat (hknows.sending.mpr hl)
  have hmore : p.writer.core.beat + 1 ≠ p.writer.core.burst := beq_eq_false_iff_ne.mp hlast
  have hlen : s'.memory.collected.length < r.beats := by
    rw [hcol, List.length_append, List.length_singleton, hcount, hbeats]
    omega
  have hopen : s'.memory.Opened (.writeChannel id true) ((id, .aw r.addr r.len)
      :: s'.memory.collected.map fun b => (id, .w b.data b.last)) := by
    refine .data id r (haw.trans ha) hlen ?_
    intro b hb
    rw [hcol] at hb
    rcases List.mem_append.mp hb with hb | hb
    · exact hold b hb
    · rw [List.mem_singleton.mp hb]
  rwa [hcol, List.map_append] at hopen

/-- The last word completes the burst that was gathered. -/
theorem opened_of_close {r : AddrReq} (head : Beat) (hr : Machine.Reachable params s)
    (hp : s.ports[id]? = some p) (hl : s.writeArbiter.lock = .writeChannel id true)
    (ha : s.memory.aw = some r) (hlast : p.writer.core.onLastBeat = true)
    (hold : ∀ b ∈ s.memory.collected, b.last = false) :
    ∃ t : TracedWrite, t.port = id ∧ t.sent
      = ((id, .aw r.addr r.len) :: s.memory.collected.map fun b => (id, .w b.data b.last))
        ++ [(id, .w head.data true)] := by
  have hknows := (writeOrderly_reachable hr).port id p hp
  obtain ⟨r', hr', _, hbeats, hcount⟩ := hknows.burst hl
  rw [ha] at hr'
  cases hr'
  have hend : p.writer.core.beat + 1 = p.writer.core.burst := beq_iff_eq.mp hlast
  have hlen : (s.memory.collected.map (·.data)).length = r.len := by
    have hsum : r.beats = r.len + 1 := rfl
    rw [List.length_map]
    omega
  refine ⟨⟨id, r.addr, r.len, s.memory.collected.map (·.data), head.data, .okay, hlen⟩, rfl, ?_⟩
  rw [words_of_unmarked hold]
  rfl

/-- **Every cycle goes on with the open burst**, and it closes at most that one. -/
theorem opened_edge (hr : Machine.Reachable params s) (h : s.Edge slave s')
    {opened : List (Nat × BusEvent)} (ho : s.memory.Opened s.writeArbiter.lock opened) :
    ∃ (closed : List TracedWrite) (opened' : List (Nat × BusEvent)),
      opened ++ TraceRecord.writes (Moment.records (s, .tick))
        = closed.flatMap (·.events) ++ opened'
      ∧ s'.memory.Opened s'.writeArbiter.lock opened' := by
  have hi : s.Indexed := hr.formed.indexed
  have hw := writeOrderly_reachable hr
  obtain ⟨hmove, _⟩ := write_move hw h
  cases hmove with
  | rest hfires hlock haw hcol _ =>
      rw [writes_of_rest hi h.drives hfires, List.append_nil, hlock]
      exact ⟨[], opened, rfl, ho.congr haw hcol⟩
  | start id p hp hph hfires hl hl' haw hcol _ =>
      have hf := hfires id p hp
      rw [beq_self_eq_true] at hf
      rw [hl] at ho
      rw [ho.select_inv, hl', writes_of_one hi h.drives hp (events_of_address hf)
        fun i q hq hne => hne ▸ hfires i q hq]
      have hopen : s'.memory.Opened (.writeChannel id true) _ :=
        .data id _ haw (by rw [hcol]; exact Nat.succ_pos _) (by rw [hcol]; nofun)
      rw [hcol] at hopen
      exact ⟨[], _, rfl, hopen⟩
  | send id p head hp hhead hlast hfires hl hl' haw hcol _ =>
      have hf := hfires id p hp
      rw [beq_self_eq_true] at hf
      rw [hl] at ho
      obtain ⟨r, ha, _, hold, rfl⟩ := ho.data_inv
      have hevent := events_of_word hf hhead
      rw [hlast] at hevent
      rw [hl', writes_of_one hi h.drives hp hevent fun i q hq hne => hne ▸ hfires i q hq]
      exact ⟨[], _, rfl, opened_of_send hr hp hl ha hlast hold haw hcol⟩
  | close id p head r hp hhead hlast hfires hl hl' _ _ _ =>
      have hf := hfires id p hp
      rw [beq_self_eq_true] at hf
      rw [hl] at ho
      obtain ⟨r, ha, _, hold, rfl⟩ := ho.data_inv
      have hevent := events_of_word hf hhead
      rw [hlast] at hevent
      rw [hl', writes_of_one hi h.drives hp hevent fun i q hq hne => hne ▸ hfires i q hq]
      obtain ⟨t, rfl, hsent⟩ := opened_of_close head hr hp hl ha hlast hold
      exact ⟨[], _, hsent.symm, .answer t⟩
  | answer id resp hfires hl hl' _ =>
      have hstage := hw.stage
      rw [hl] at ho hstage
      obtain ⟨hid, _⟩ := hstage.answer_inv
      have hp := List.getElem?_eq_getElem hid
      have hf := hfires id _ hp
      rw [if_pos rfl] at hf
      obtain ⟨t, rfl, rfl⟩ := ho.answer_inv
      rw [hl', writes_of_one hi h.drives hp (events_of_answer hf) fun i q hq hne => by
        have hf := hfires i q hq
        rwa [if_neg (beq_eq_false_iff_ne.mp hne)] at hf]
      -- the answer closes the burst, whatever it says
      refine ⟨[{ t with resp }], [], ?_, .select⟩
      rw [List.flatMap_singleton, List.append_nil]
      rfl

theorem opened_touched {op : Operation} (h : s.Touched op s') {opened : List (Nat × BusEvent)}
    (ho : s.memory.Opened s.writeArbiter.lock opened) :
    s'.memory.Opened s'.writeArbiter.lock opened := by
  rw [h.writeArbiter, h.memory]
  exact ho.congr rfl rfl

end Machine

section

variable {params : MachineParams} {s₀ s : Machine} {past : List Moment}

/-- **The write events of a history are whole bursts, and what has passed of one more.** -/
theorem History.writes_opened (h₀ : Machine.ofParams params = .ok s₀) (h : History s₀ past s)
    (hu : Uninterrupted past) :
    ∃ (closed : List TracedWrite) (opened : List (Nat × BusEvent)),
      TraceRecord.writes (past.flatMap Moment.records) = closed.flatMap (·.events) ++ opened
      ∧ s.memory.Opened s.writeArbiter.lock opened := by
  refine h.steps (P := fun past s => ∃ (closed : List TracedWrite)
    (opened : List (Nat × BusEvent)),
    TraceRecord.writes (past.flatMap Moment.records) = closed.flatMap (·.events) ++ opened
      ∧ s.memory.Opened s.writeArbiter.lock opened) h₀ hu ?_ ?_ ?_
  · obtain ⟨_, _, _, hwa, rfl⟩ := Machine.ofParams_eq_ok h₀
    obtain ⟨turn, _, hwa⟩ := except_bind_eq_ok.mp hwa
    cases hwa
    exact ⟨[], [], rfl, .select⟩
  · rintro past s s' slave hr ⟨closed, opened, hwrites, ho⟩ hedge
    obtain ⟨more, opened', hnext, ho'⟩ := Machine.opened_edge hr hedge ho
    refine ⟨closed ++ more, opened', ?_, ho'⟩
    rw [log_concat, TraceRecord.writes_append, hwrites, List.append_assoc, hnext,
      List.flatMap_append, List.append_assoc]
  · rintro past s s' op ht hr ⟨closed, opened, hwrites, ho⟩ htouch
    refine ⟨closed, opened, ?_, Machine.opened_touched htouch ho⟩
    rw [log_concat, Moment.records_of_ne_tick ht, List.append_nil, hwrites]

end

end BurstDma
