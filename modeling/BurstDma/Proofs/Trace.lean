import BurstDma.Proofs.BurstWindow
import BurstDma.Proofs.WriteTrace

/-!
# The form of a trace

What a machine records while its handshakes are captured has the form that the bus protocol
asks for. The writes of all ports are whole bursts one after the other (`WriteTrace`), no burst
leaves its window (`BurstWindow`), and what is left is the reads of a port: its beats come in
groups, one for each of its requests and in their order.

The beats and the requests of a port balance: **what was asked for is what has come, what is
held on the way back, and what the memory has still to send**. A beat that arrives in a cycle
was therefore asked for in an earlier one, and that is more than that its request was recorded
before it.
-/

namespace BurstDma

namespace BusEvent

/-- Whether a beat of read data says that it ends its burst. -/
def endMark? : BusEvent → Option Bool
  | .r _ _ last => some last
  | _ => none

/-- The beats that a request asks for, each by whether it ends the burst. -/
def awaits : BusEvent → List Bool
  | .ar _ len => endMarks 0 (len + 1)
  | _ => []

/-- The beats of read data among some events, each by whether it ends its burst. -/
def marks (events : List BusEvent) : List Bool :=
  events.filterMap (·.endMark?)

/-- The beats that all requests among some events ask for. -/
def asked (events : List BusEvent) : List Bool :=
  events.flatMap (·.awaits)

/-- At every time the beats so far are the first ones of those that the requests so far ask
for. So they come in groups of the length that their request says, the last one of a group
marked, one group for a request, and no beat before its request. -/
def ReadsInTurn (events : List BusEvent) : Prop :=
  ∀ before, before <+: events → marks before <+: asked before

theorem marks_append (before after : List BusEvent) :
    marks (before ++ after) = marks before ++ marks after :=
  List.filterMap_append

theorem asked_append (before after : List BusEvent) :
    asked (before ++ after) = asked before ++ asked after :=
  List.flatMap_append

/-- Beats that were asked for before they are recorded come in turn. -/
theorem ReadsInTurn.append {events more : List BusEvent} (h : ReadsInTurn events)
    (hmore : marks events ++ marks more <+: asked events) : ReadsInTurn (events ++ more) := by
  intro before hbefore
  rcases List.prefix_or_prefix_of_prefix hbefore (List.prefix_append events more) with
    hold | ⟨new, rfl⟩
  · exact h before hold
  · have hnew : marks new <+: marks more :=
      ((List.prefix_append_right_inj events).mp hbefore).filterMap _
    have hearlier : marks events ++ marks new <+: asked events :=
      ((List.prefix_append_right_inj _).mpr hnew).trans hmore
    rw [marks_append, asked_append]
    exact hearlier.trans (List.prefix_append _ _)

end BusEvent

/-! ## The reads of a cycle -/

namespace Machine

theorem marks_portEvents (p : Port) (reads : ReadBus) (writes : WriteBus) :
    BusEvent.marks (portEvents p reads writes) = reads.rFired.toList.map (·.last) := by
  have silent : ∀ {β : Type} (l : List β), l.filterMap (fun _ => (none : Option Bool)) = [] :=
    fun l => List.filterMap_eq_nil_iff.mpr fun _ _ => rfl
  unfold portEvents BusEvent.marks
  simp only [List.filterMap_append, Option.toList_map, List.filterMap_map, Function.comp_def,
    BusEvent.endMark?, silent, List.filterMap_eq_map', apply_ite (List.filterMap _),
    List.filterMap_cons, List.filterMap_nil, ite_self, List.append_nil, List.nil_append]

theorem asked_portEvents (p : Port) (reads : ReadBus) (writes : WriteBus) :
    BusEvent.asked (portEvents p reads writes)
      = reads.arFired.toList.flatMap (·.onward AddrReq.isEnd 0) := by
  have silent : ∀ {β : Type} (l : List β), l.flatMap (fun _ => ([] : List Bool)) = [] :=
    fun l => List.flatMap_eq_nil_iff.mpr fun _ _ => rfl
  unfold portEvents BusEvent.asked
  simp only [List.flatMap_append, Option.toList_map, List.flatMap_map, BusEvent.awaits, silent,
    apply_ite (List.flatMap _), List.flatMap_cons, List.flatMap_nil, ite_self, List.append_nil]
  rfl

variable {params : MachineParams} {s s' : Machine} {slave : ReadSlave} {i : Nat} {p : Port}
  {events : List BusEvent}

/-- The address that moves at a port is the one that its reader offers. -/
theorem arFired_eq {r : AddrReq} (h : (s.readBus slave i p).arFired = some r) :
    p.reader.core.phase = .issueBurst ∧ p.reader.core.request = r := by
  obtain ⟨_, hoffer⟩ := Option.ite_none_right_eq_some.mp h
  have hwire : p.readWires.ar
      = if p.reader.core.phase = .issueBurst then some p.reader.core.request else none := rfl
  obtain ⟨hph, hr⟩ := Option.ite_none_right_eq_some.mp (hwire.symm.trans hoffer)
  exact ⟨hph, Option.some.inj hr⟩

/-- The marks of the beats that port `i` still awaits: those on the way back, and those that
the memory has to send. -/
def awaitedMarks (s : Machine) (i : Nat) : List Bool :=
  (s.held i).map (·.last) ++ s.upcoming AddrReq.isEnd i

/-- **What a clock cycle does to the beats that a port awaits**: those it asks for come in
behind, and the one that arrives was awaited before. -/
theorem awaitedMarks_edge (hf : s.ReadPathFormed) (h : s.Edge slave s')
    (hp : s.ports[i]? = some p) :
    s.awaitedMarks i ++ (s.readBus slave i p).arFired.toList.flatMap (·.onward AddrReq.isEnd 0)
        = (s.readBus slave i p).rFired.toList.map (·.last) ++ s'.awaitedMarks i
      ∧ (s.readBus slave i p).rFired.toList.map (·.last) <+: s.awaitedMarks i := by
  have hdown : s.memory.readWires = .ok (s.reads slave).down.slave := h.drives
  have hflow := upcoming_flow (f := AddrReq.isEnd) (fun _ _ _ => rfl) hf h hp
  have hheld := congrArg (List.map (·.last)) (held_flow hf h.readArbiter hp)
  have hsent := Memory.sentWord?_prefix AddrReq.isEnd hdown hf.reads i
  have hupcoming : s.memory.upcoming AddrReq.isEnd i <+: s.upcoming AddrReq.isEnd i := by
    unfold upcoming
    rw [List.append_assoc]
    exact List.prefix_append _ _
  -- a beat carries the mark of the word that the memory sends with it
  have hmarks : ((s.memory.sentWord? AddrReq.isEnd (s.reads slave).down).toList.filter
        (·.1.id == i)).map (·.2)
      = ((s.reads slave).down.rFired.toList.filter (·.id == i)).map (·.last) := by
    rw [← Memory.sentWord?_beats AddrReq.isEnd hdown, List.map_map]
    refine List.map_congr_left fun t ht => ?_
    obtain ⟨ht, _⟩ := List.mem_filter.mp ht
    cases hb : (s.reads slave).down.rFired with
    | none => simp [Memory.sentWord?, hb] at ht
    | some beat =>
        obtain ⟨job, rest, _, _, hlast, hsend⟩ := Memory.sentWord?_of_fired AddrReq.isEnd hdown hb
        rw [hsend, Option.toList_some, List.mem_singleton] at ht
        rw [ht]
        exact hlast.symm
  rw [hmarks] at hflow hsent
  rw [List.map_append, List.map_append] at hheld
  unfold awaitedMarks
  refine ⟨?_, ?_⟩
  · rw [List.append_assoc, hflow, ← List.append_assoc, hheld, List.append_assoc]
    rfl
  · have hall := (List.prefix_append_right_inj ((s.held i).map (·.last))).mpr
      (hsent.trans hupcoming)
    rw [hheld] at hall
    exact (List.prefix_append _ _).trans hall

/-! ## The reads of a history -/

/-- The reads of port `i` that were recorded are in turn, and they balance. -/
structure ReadTraced (i : Nat) (events : List BusEvent) (s : Machine) : Prop where
  balance : BusEvent.asked events = BusEvent.marks events ++ s.awaitedMarks i
  inTurn : BusEvent.ReadsInTurn events

theorem readTraced_ofParams (h : ofParams params = .ok s) (i : Nat) : ReadTraced i [] s := by
  obtain ⟨_, hrest⟩ := reads_ofParams h
  obtain ⟨readArbiter, _, hra, _, rfl⟩ := ofParams_eq_ok h
  obtain ⟨turn, _, hra⟩ := except_bind_eq_ok.mp hra
  cases hra
  refine ⟨?_, ?_⟩
  · unfold awaitedMarks
    rw [(hrest i).2]
    unfold upcoming ReadArbiter.waiting
    dsimp only
    rw [List.getElem?_replicate]
    split <;> rfl
  · intro before hbefore
    rw [List.prefix_nil.mp hbefore]
    exact List.nil_prefix

theorem readTraced_edge (hr : Machine.Reachable params s) (hl : ReadTraced i events s)
    (h : s.Edge slave s') (hp : s.ports[i]? = some p) :
    ReadTraced i (events ++ TraceRecord.eventsOf i (Moment.records (s, .tick))) s' := by
  obtain ⟨hflow, harrived⟩ := awaitedMarks_edge hr.formed.reads h hp
  rw [Moment.eventsOf_tick hr.formed.indexed h.drives hp]
  refine ⟨?_, hl.inTurn.append ?_⟩
  · rw [BusEvent.asked_append, BusEvent.marks_append, marks_portEvents, asked_portEvents,
      hl.balance, List.append_assoc, hflow, List.append_assoc]
  · rw [marks_portEvents, hl.balance]
    exact (List.prefix_append_right_inj _).mpr harrived

theorem readTraced_touched {op : Operation} (hl : ReadTraced i events s) (h : s.Touched op s') :
    ReadTraced i events s' := by
  have hsame : s'.awaitedMarks i = s.awaitedMarks i := by
    unfold awaitedMarks held upcoming Memory.upcoming
    rw [h.memory, h.readArbiter]
  refine ⟨?_, hl.inTurn⟩
  rw [hsame]
  exact hl.balance

end Machine

section

variable {params : MachineParams} {s₀ s : Machine} {past : List Moment}

/-- **The reads of a port are recorded in turn.** -/
theorem History.readTraced (h₀ : Machine.ofParams params = .ok s₀) (h : History s₀ past s)
    (hu : Uninterrupted past) {i : Nat} (hi : i < params.ports.length) :
    Machine.ReadTraced i (TraceRecord.eventsOf i (past.flatMap Moment.records)) s := by
  refine h.steps (P := fun past s =>
    Machine.ReadTraced i (TraceRecord.eventsOf i (past.flatMap Moment.records)) s) h₀ hu ?_ ?_ ?_
  · exact Machine.readTraced_ofParams h₀ i
  · intro past s s' slave hr hl hedge
    have hlt : i < s.ports.length := by rwa [hr.formed.length]
    rw [log_concat, TraceRecord.eventsOf_append]
    exact Machine.readTraced_edge hr hl hedge (List.getElem?_eq_getElem hlt)
  · intro past s s' op ht _ hl htouch
    rw [log_concat, Moment.records_of_ne_tick ht, List.append_nil]
    exact Machine.readTraced_touched hl htouch

/-! ## The bursts of a history -/

/-- A request that is recorded may be offered: at most 16 words, in one window. -/
def BusEvent.Contained (g : Geometry) (event : BusEvent) : Prop :=
  ∀ addr len, event = .ar addr len ∨ event = .aw addr len →
    len ≤ 15 ∧ g.InWindow addr (len + 1)

/-- What a port shows in a cycle is contained, because either engine offers only what is. -/
theorem Machine.contained_portEvents {slave : ReadSlave} {i : Nat} {p : Port} {event : BusEvent}
    (hg : params.geometry.Legal) (hr : Machine.Reachable params s) (hp : s.ports[i]? = some p)
    (he : event ∈ portEvents p (s.readBus slave i p) (s.writeBus i p)) :
    event.Contained params.geometry := by
  rintro addr len (rfl | rfl)
  · have hfired : ∃ r, (s.readBus slave i p).arFired = some r ∧ r.addr = addr ∧ r.len = len := by
      simpa [portEvents] using he
    obtain ⟨r, hr', rfl, rfl⟩ := hfired
    obtain ⟨hph, rfl⟩ := arFired_eq hr'
    obtain ⟨hshort, hwindow⟩ := read_contained hg hr hp hph
    exact ⟨hshort, hwindow⟩
  · have hfired : ∃ r, (s.writeBus i p).awFired = some r ∧ r.addr = addr ∧ r.len = len := by
      simpa [portEvents] using he
    obtain ⟨r, hr', rfl, rfl⟩ := hfired
    obtain ⟨hph, rfl⟩ := awFired_eq hr'
    obtain ⟨hshort, hwindow⟩ := write_contained hg hr hp hph
    exact ⟨hshort, hwindow⟩

theorem History.contained (hg : params.geometry.Legal) (h₀ : Machine.ofParams params = .ok s₀)
    (h : History s₀ past s) :
    ∀ r ∈ past.flatMap Moment.records, r.event.Contained params.geometry := by
  intro r hr
  obtain ⟨⟨t, op⟩, he, hr⟩ := List.mem_flatMap.mp hr
  obtain ⟨before, after, hpast⟩ := List.append_of_mem he
  obtain ⟨hbefore, t', hop⟩ := h.moment hpast
  have hreach : Machine.Reachable params t := ⟨s₀, before, h₀, hbefore⟩
  by_cases ht : op = .tick
  · subst ht
    obtain ⟨slave, hedge⟩ := Machine.tick_edge hop
    rw [Moment.records_tick hreach.formed.indexed hedge.drives] at hr
    obtain ⟨⟨p, i⟩, hx, hr⟩ := List.mem_flatMap.mp hr
    obtain ⟨event, hevent, rfl⟩ := List.mem_map.mp hr
    exact Machine.contained_portEvents hg hreach (List.mem_zipIdx_iff_getElem?.mp hx) hevent
  · rw [Moment.records_of_ne_tick ht] at hr
    cases hr

/-- **The recorded trace is well formed**, whatever is done to a machine short of a reset. The
writes of all ports are whole bursts, one after the other, and the front of at most one more.
The read data of every port comes in groups, one for each of its requests and in their order,
and none of it before it was asked for. No burst is longer than 16 words or leaves its
window. -/
theorem trace_well_formed (hg : params.geometry.Legal) (h₀ : Machine.ofParams params = .ok s₀)
    (h : History { s₀ with capture := true } past s) (hu : Uninterrupted past) :
    (∃ (closed : List TracedWrite) (opened : List (Nat × BusEvent)) (newest : TracedWrite),
        TraceRecord.writes s.events = closed.flatMap (·.events) ++ opened
          ∧ opened <+: newest.events)
      ∧ (∀ i < params.ports.length, BusEvent.ReadsInTurn (TraceRecord.eventsOf i s.events))
      ∧ ∀ r ∈ s.events, r.event.Contained params.geometry := by
  obtain ⟨past', hist, hu', hevents⟩ := h.traced h₀ hu
  obtain ⟨closed, opened, hwrites, hopened⟩ := hist.writes_opened h₀ hu'
  obtain ⟨newest, hfront⟩ := hopened.front
  rw [hevents]
  exact ⟨⟨closed, opened, newest, hwrites, hfront⟩,
    fun i hi => (hist.readTraced h₀ hu' hi).inTurn, hist.contained hg h₀⟩

/-- Two ports, with registers before and behind the read arbiter. -/
def MachineParams.registered : MachineParams :=
  { ports := [{}, {}], inputRegister := true, outputRegister := true }

/-- Both ports write at the same time, the first of them two bursts, and it reads as well. -/
def Operation.writesAndReads : List Operation :=
  .push 0 (List.replicate 4 {}) :: .push 1 (List.replicate 3 {})
    :: Operation.program 0 .writer 512 4 2 ++ Operation.program 1 .writer 64 3 8
      ++ Operation.program 0 .reader 0 5 4 ++ List.replicate 17 .tick

/-- Of what is written the second burst of the first port is on its way; of what is read the
first burst has come and the second one not. -/
theorem trace_well_formed_second_burst :
    ∃ s₀ past s, Machine.ofParams .registered = .ok s₀
      ∧ History { s₀ with capture := true } past s ∧ Uninterrupted past
      ∧ (TraceRecord.writes s.events).map (·.1) = [0, 0, 0, 0, 1, 1, 1, 1, 1, 0, 0]
      ∧ BusEvent.marks (TraceRecord.eventsOf 0 s.events) = [false, false, false, true]
      ∧ BusEvent.asked (TraceRecord.eventsOf 0 s.events) = [false, false, false, true, true]
      ∧ (∃ (closed : List TracedWrite) (opened : List (Nat × BusEvent)) (newest : TracedWrite),
        TraceRecord.writes s.events = closed.flatMap (·.events) ++ opened
          ∧ opened <+: newest.events)
      ∧ (∀ i < 2, BusEvent.ReadsInTurn (TraceRecord.eventsOf i s.events))
      ∧ ∀ r ∈ s.events, r.event.Contained {} := by
  have hrun : ((Machine.ofParams .registered).toOption.any fun s₀ =>
      (Machine.replay { s₀ with capture := true } Operation.writesAndReads).toOption.any fun run =>
        decide (Uninterrupted run.1)
          && (TraceRecord.writes run.2.events).map (·.1) == [0, 0, 0, 0, 1, 1, 1, 1, 1, 0, 0]
          && BusEvent.marks (TraceRecord.eventsOf 0 run.2.events) == [false, false, false, true]
          && BusEvent.asked (TraceRecord.eventsOf 0 run.2.events)
            == [false, false, false, true, true]) = true := by
    decide +kernel
  obtain ⟨s₀, h₀, hrun⟩ := (Option.any_eq_true _ _).mp hrun
  obtain ⟨⟨past, s⟩, hreplay, hlook⟩ := (Option.any_eq_true _ _).mp hrun
  simp only [Bool.and_eq_true, decide_eq_true_eq, beq_iff_eq] at hlook
  obtain ⟨⟨⟨hu, hwrites⟩, hmarks⟩, hasked⟩ := hlook
  have h₀ := ok_of_toOption h₀
  have hist := Machine.history_of_replay (ok_of_toOption hreplay)
  exact ⟨s₀, past, s, h₀, hist, hu, hwrites, hmarks, hasked,
    trace_well_formed (by decide) h₀ hist hu⟩

end

end BurstDma
