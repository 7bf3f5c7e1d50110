import Mathlib.Data.List.Forall2
import BurstDma.Proofs.Descriptors

/-!
# The two ends of the streams

In one clock edge of a port up to four beats move: the reader puts one into its buffer and the
writer takes one out of its own, then the source and the sink do the opposite at the same two
buffers. Any of the two pushes can be refused, for want of room or by the frame latch.

**No beat is lost on the way and none overtakes another**, whatever the wires and the registers
of the port are made to do. `PortMoment.Leads` says so of one moment, and a course of a port is
what its clock edges make with everything that can happen between them. The pace of a source or
a sink is a second account of the same course: `Paced` counts the clock edges since each beat,
and the rest that is still to go makes up for what is missing.

The ports of a machine are on such courses, each with the wires that the arbiters give it.
-/

namespace BurstDma

/-! ## What happens at a port -/

/-- The engines' share of a clock edge. -/
def Port.tickEngines (p : Port) (reads : ReadBus) (writes : WriteBus) : Run Port := do
  let p ← p.tickReader reads
  p.tickWriter writes

/-- What can happen at a port. Between clock edges its registers may become anything. -/
inductive PortAction where
  | edge (reads : ReadBus) (writes : WriteBus)
  | registers (readRegs writeRegs : RegisterFile)
  | offer (beats : List Beat)
  | collect

/-- The port after an action. -/
def PortAction.apply (p : Port) : PortAction → Except Fault Port
  | .edge reads writes => (p.tick reads writes).result
  | .registers readRegs writeRegs => .ok { p with readRegs, writeRegs }
  | .offer beats => .ok { p with source := p.source.extend beats }
  | .collect => .ok { p with sink := p.sink.take.2 }

/-- An action and the port that it found. -/
abbrev PortMoment := Port × PortAction

namespace PortMoment

def isEdge : PortMoment → Bool
  | (_, .edge _ _) => true
  | _ => false

/-- The beats that are queued at the source. -/
def offers : PortMoment → List Beat
  | (_, .offer beats) => beats
  | _ => []

/-- The beat that goes from the source into the buffer. The streams find the port as its engines
left it. -/
def feeds : PortMoment → List Beat
  | (p, .edge reads writes) =>
    match (p.tickEngines reads writes).result with
    | .ok served => (served.source.tick served.writeFifo).1.toList
    | .error _ => []
  | _ => []

/-- The beat that the writer takes out of its buffer. -/
def pops : PortMoment → List Beat
  | (p, .edge _ writes) =>
    match (p.writer.tick (p.writeInputs writes)).result with
    | .ok (_, step) => if step.pop then p.writeFifo.head?.toList else []
    | .error _ => []
  | _ => []

/-- The beat that the reader gets into its buffer. -/
def delivers : PortMoment → List Beat
  | (p, .edge reads _) =>
    match (p.reader.tick (p.readInputs reads)).result with
    | .ok (_, step) => (step.push.filter fun beat => (p.readFifo.push? beat).isSome).toList
    | .error _ => []
  | _ => []

/-- The beat that goes from the buffer into the sink. -/
def drains : PortMoment → List Beat
  | (p, .edge reads writes) =>
    match (p.tickEngines reads writes).result.bind fun served =>
      served.sink.tick served.readFifo with
    | .ok (beat, _) => beat.toList
    | .error _ => []
  | _ => []

/-- The beats that are collected from the sink. -/
def collects : PortMoment → List Beat
  | (p, .collect) => p.sink.received
  | _ => []

end PortMoment

/-- What a moment makes of the streams of its port: every beat that leaves one place arrives at
the next. -/
structure PortMoment.Leads (e : PortMoment) (p' : Port) : Prop where
  queue : e.1.source.queue ++ e.offers = e.feeds ++ p'.source.queue
  pushed : p'.source.pushed = e.1.source.pushed + e.feeds.length
  writeFifo : e.1.writeFifo.beats ++ e.feeds = e.pops ++ p'.writeFifo.beats
  readFifo : e.1.readFifo.beats ++ e.delivers = e.drains ++ p'.readFifo.beats
  received : e.1.sink.received ++ e.drains = e.collects ++ p'.sink.received
  sourceThrottle : p'.source.throttle = e.1.source.throttle
  sinkThrottle : p'.sink.throttle = e.1.sink.throttle
  sourceRest : Rests e.1.source.throttle e.1.source.wait e.isEdge e.feeds p'.source.wait
  sinkRest : Rests e.1.sink.throttle e.1.sink.wait e.isEdge e.drains p'.sink.wait

namespace Port

variable {p p' : Port} {reads : ReadBus} {writes : WriteBus}

/-- What the reader does to its buffer. -/
theorem tickReader_moves {q : Port} (h : (p.tickReader reads).result = .ok q)
    (writes : WriteBus) :
    q.readFifo.beats = p.readFifo.beats ++ PortMoment.delivers (p, .edge reads writes)
      ∧ q.writer = p.writer ∧ q.writeFifo = p.writeFifo
      ∧ q.writeInputs writes = p.writeInputs writes ∧ q.source = p.source ∧ q.sink = p.sink := by
  obtain ⟨⟨reader, rstep⟩, hr, h⟩ := Run.result_bind_eq_ok.mp h
  unfold PortMoment.delivers
  dsimp only
  rw [hr]
  dsimp only
  cases hpush : rstep.push with
  | none =>
      simp only [hpush] at h
      cases h
      exact ⟨(List.append_nil _).symm, rfl, rfl, rfl, rfl, rfl⟩
  | some beat =>
      simp only [hpush] at h
      rw [Option.filter_some]
      cases hfit : p.readFifo.push? beat with
      | some g =>
          simp only [hfit] at h
          cases h
          exact ⟨(Fifo.push?_eq_some hfit).2.1, rfl, rfl, rfl, rfl, rfl⟩
      | none =>
          simp only [hfit] at h
          cases h
          exact ⟨(List.append_nil _).symm, rfl, rfl, rfl, rfl, rfl⟩

/-- What the writer does to its buffer. -/
theorem tickWriter_moves (h : (p.tickWriter writes).result = .ok p') (reads : ReadBus) :
    p.writeFifo.beats = PortMoment.pops (p, .edge reads writes) ++ p'.writeFifo.beats
      ∧ p'.readFifo = p.readFifo ∧ p'.source = p.source ∧ p'.sink = p.sink := by
  obtain ⟨⟨writer, wstep⟩, hw, h⟩ := Run.result_bind_eq_ok.mp h
  obtain ⟨f, hf, h⟩ := Run.result_bind_eq_ok.mp h
  cases h
  unfold PortMoment.pops
  dsimp only
  rw [hw]
  dsimp only
  refine ⟨?_, rfl, rfl, rfl⟩
  cases hpop : wstep.pop with
  | false =>
      rw [hpop] at hf
      cases hf
      rw [if_neg Bool.false_ne_true, List.nil_append]
  | true =>
      rw [hpop] at hf
      rw [if_pos rfl]
      obtain ⟨⟨a, g⟩, hpopped, hg⟩ := except_map_eq_ok.mp hf
      cases hg
      obtain ⟨hbeats, rfl, _⟩ := Fifo.pop_eq_ok hpopped
      exact hbeats

/-- The streams do what the source and the sink do. -/
theorem tickStreams_moves (h : p.tickStreams = .ok p') :
    ∃ fed drained, p.source.tick p.writeFifo = (fed, p'.source, p'.writeFifo)
      ∧ p.sink.tick p.readFifo = .ok (drained, p'.sink, p'.readFifo) := by
  unfold tickStreams at h
  generalize hfeed : p.source.tick p.writeFifo = feed at h
  obtain ⟨fed, source, writeFifo⟩ := feed
  obtain ⟨⟨drained, sink, readFifo⟩, hdrain, h⟩ := except_bind_eq_ok.mp h
  cases h
  exact ⟨fed, drained, rfl, hdrain⟩

/-- **In a clock edge every beat that leaves one place arrives at the next.** -/
theorem tick_leads (h : (p.tick reads writes).result = .ok p') :
    PortMoment.Leads (p, .edge reads writes) p' := by
  obtain ⟨q, hq, h⟩ := Run.result_bind_eq_ok.mp h
  obtain ⟨served, hserved, h⟩ := Run.result_bind_eq_ok.mp h
  have hengines : (p.tickEngines reads writes).result = .ok served :=
    Run.result_bind_eq_ok.mpr ⟨q, hq, hserved⟩
  obtain ⟨hread, hwriter, hwriteFifo, hinputs, hsource, hsink⟩ := tickReader_moves hq writes
  obtain ⟨hwrite, hreadFifo, hsource', hsink'⟩ := tickWriter_moves hserved reads
  obtain ⟨fed, drained, hfeed, hdrain⟩ := tickStreams_moves h
  have hfeeds : PortMoment.feeds (p, .edge reads writes) = fed.toList := by
    unfold PortMoment.feeds
    dsimp only
    rw [hengines]
    dsimp only
    rw [hfeed]
  have hdrains : PortMoment.drains (p, .edge reads writes) = drained.toList := by
    unfold PortMoment.drains
    dsimp only
    rw [hengines]
    dsimp only [Except.bind]
    rw [hdrain]
  -- the reader moves first, and the writer neither sees nor touches what it moved
  have hpops : PortMoment.pops (q, .edge reads writes) = PortMoment.pops (p, .edge reads writes) := by
    unfold PortMoment.pops
    dsimp only
    rw [hwriter, hinputs, hwriteFifo]
  obtain ⟨hqueue, hfed, hpushed, hthrottle, hrest⟩ := Source.tick_fed hfeed
  obtain ⟨hdrained, hreceived, hthrottle', hrest'⟩ := Sink.tick_drained hdrain
  rw [hsource', hsource] at hqueue hpushed hthrottle hrest
  rw [hsink', hsink] at hreceived hthrottle' hrest'
  rw [hreadFifo, hread] at hdrained
  rw [hwriteFifo, hpops] at hwrite
  exact {
    queue := by rw [hfeeds, ← hqueue]; exact List.append_nil _
    pushed := by rw [hfeeds]; exact hpushed
    writeFifo := by rw [hfeeds, hfed, ← List.append_assoc, ← hwrite]
    readFifo := by rw [hdrains, ← hdrained]
    received := by rw [hdrains, hreceived]; rfl
    sourceThrottle := hthrottle
    sinkThrottle := hthrottle'
    sourceRest := by rw [hfeeds]; exact hrest
    sinkRest := by rw [hdrains]; exact hrest' }

/-- No beat is lost between clock edges either: beats move at the far ends only. -/
theorem apply_leads {a : PortAction} (h : a.apply p = .ok p') : PortMoment.Leads (p, a) p' := by
  cases a with
  | edge reads writes => exact tick_leads h
  | registers readRegs writeRegs =>
      cases h
      exact ⟨List.append_nil _, rfl, List.append_nil _, List.append_nil _, List.append_nil _,
        rfl, rfl, .stands, .stands⟩
  | offer beats =>
      cases h
      exact ⟨rfl, rfl, List.append_nil _, List.append_nil _, List.append_nil _, rfl, rfl,
        .stands, .stands⟩
  | collect =>
      cases h
      exact ⟨List.append_nil _, rfl, List.append_nil _, List.append_nil _, rfl, rfl, rfl,
        .stands, .stands⟩

end Port

/-! ## Courses -/

/-- `Course p₀ past p`: the moments `past`, oldest first, led from `p₀` to `p`. -/
inductive Port.Course (p₀ : Port) : List PortMoment → Port → Prop where
  | start : Course p₀ [] p₀
  | step {past : List PortMoment} {p p' : Port} {a : PortAction} :
      Course p₀ past p → a.apply p = .ok p' → Course p₀ (past ++ [(p, a)]) p'

/-- The number of clock edges among some moments. -/
def edgesOf (past : List PortMoment) : Nat :=
  past.countP (·.isEdge)

/-- Any two moments in which beats move are at least `n` clock edges apart. -/
def Apart (n : Nat) (moves : PortMoment → List Beat) (past : List PortMoment) : Prop :=
  ∀ before e between e' after, past = before ++ e :: (between ++ e' :: after) →
    moves e ≠ [] → moves e' ≠ [] → n ≤ edgesOf (e :: between)

section

variable {past : List PortMoment} {e : PortMoment} {moves : PortMoment → List Beat}
  {throttle wait wait' : Nat}

theorem edgesOf_concat : edgesOf (past ++ [e]) = edgesOf past + edgesOf [e] :=
  List.countP_append

/-- The pace of a source or a sink that still has to rest for `wait` clock edges: with these,
every beat so far is far enough behind for the next one. -/
structure Paced (throttle wait : Nat) (moves : PortMoment → List Beat) (past : List PortMoment) :
    Prop where
  apart : Apart (throttle + 1) moves past
  since : ∀ before e after, past = before ++ e :: after → moves e ≠ [] →
    throttle + 1 ≤ wait + edgesOf (e :: after)

namespace Paced

theorem init : Paced throttle wait moves [] :=
  ⟨fun before e between e' after h => absurd (congrArg List.length h) (by simp),
    fun before e after h => absurd (congrArg List.length h) (by simp)⟩

/-- The newest moment is one of the two, or they are both older. -/
theorem concat (h : Paced throttle wait moves past) (hold : wait ≤ wait' + edgesOf [e])
    (hnew : moves e ≠ [] → wait = 0 ∧ throttle + 1 ≤ wait' + edgesOf [e]) :
    Paced throttle wait' moves (past ++ [e]) := by
  constructor
  · intro before e₁ between e₂ after hpast h₁ h₂
    rcases List.eq_nil_or_concat after with rfl | ⟨init, last, rfl⟩
    · rw [← List.cons_append, ← List.append_assoc] at hpast
      obtain ⟨hinit, hlast⟩ := List.append_inj' hpast rfl
      cases hlast
      have hsince := h.since before e₁ between hinit h₁
      rwa [(hnew h₂).1, Nat.zero_add] at hsince
    · have hsplit : before ++ e₁ :: (between ++ e₂ :: (init.concat last))
          = (before ++ e₁ :: (between ++ e₂ :: init)) ++ [last] := by simp
      exact h.apart before e₁ between e₂ init (List.append_inj' (hpast.trans hsplit) rfl).1 h₁ h₂
  · intro before e₁ after hpast h₁
    rcases List.eq_nil_or_concat after with rfl | ⟨init, last, rfl⟩
    · obtain ⟨_, hlast⟩ := List.append_inj' hpast rfl
      cases hlast
      exact (hnew h₁).2
    · rw [List.concat_eq_append, ← List.cons_append, ← List.append_assoc] at hpast
      obtain ⟨hinit, hlast⟩ := List.append_inj' hpast rfl
      cases hlast
      have hsince := h.since before e₁ init hinit h₁
      rw [List.concat_eq_append, ← List.cons_append, edgesOf_concat]
      omega

/-- **The rest that is to go makes up for the beats so far.** -/
theorem step (h : Paced throttle wait moves past)
    (hrests : Rests throttle wait e.isEdge (moves e) wait') :
    Paced throttle wait' moves (past ++ [e]) := by
  have hcount : edgesOf [e] = if e.isEdge then 1 else 0 := List.countP_singleton
  generalize e.isEdge = edge at hrests hcount
  generalize hb : moves e = beats at hrests
  cases hrests with
  | goes_on =>
      rw [if_pos rfl] at hcount
      exact h.concat (by omega) fun hc => absurd hb hc
  | begins b hzero =>
      rw [if_pos rfl] at hcount
      exact h.concat (by omega) fun _ => ⟨hzero, by omega⟩
  | stands => exact h.concat (Nat.le_add_right _ _) fun hc => absurd hb hc

end Paced

end

/-- The account of the streams of a port over a course. -/
structure Port.Streams (q : PortParams) (past : List PortMoment) (p : Port) : Prop where
  queue : past.flatMap (·.feeds) ++ p.source.queue = past.flatMap (·.offers)
  pushed : p.source.pushed = (past.flatMap (·.feeds)).length
  writeFifo : past.flatMap (·.pops) ++ p.writeFifo.beats = past.flatMap (·.feeds)
  readFifo : past.flatMap (·.delivers) = past.flatMap (·.drains) ++ p.readFifo.beats
  received : past.flatMap (·.drains) = past.flatMap (·.collects) ++ p.sink.received
  sourceThrottle : p.source.throttle = q.sourceThrottle
  sinkThrottle : p.sink.throttle = q.sinkThrottle
  sourcePace : Paced q.sourceThrottle p.source.wait (·.feeds) past
  sinkPace : Paced q.sinkThrottle p.sink.wait (·.drains) past

namespace Port.Streams

variable {q : PortParams} {past : List PortMoment} {p p' : Port}

theorem init (g : Geometry) (index : Nat) (q : PortParams) :
    Port.Streams q [] (.ofParams g index q) :=
  ⟨rfl, rfl, rfl, rfl, rfl, rfl, rfl, .init, .init⟩

/-- **Every moment keeps the account.** -/
theorem step (h : Port.Streams q past p) {a : PortAction} (hleads : PortMoment.Leads (p, a) p') :
    Port.Streams q (past ++ [(p, a)]) p' where
  queue := by
    rw [log_concat, log_concat, List.append_assoc, ← hleads.queue, ← List.append_assoc, h.queue]
  pushed := by rw [log_concat, List.length_append, hleads.pushed, h.pushed]
  writeFifo := by
    rw [log_concat, log_concat, List.append_assoc, ← hleads.writeFifo, ← List.append_assoc,
      h.writeFifo]
  readFifo := by
    rw [log_concat, log_concat, List.append_assoc, ← hleads.readFifo, ← List.append_assoc,
      h.readFifo]
  received := by
    rw [log_concat, log_concat, List.append_assoc, ← hleads.received, ← List.append_assoc,
      h.received]
  sourceThrottle := hleads.sourceThrottle.trans h.sourceThrottle
  sinkThrottle := hleads.sinkThrottle.trans h.sinkThrottle
  sourcePace := h.sourcePace.step (h.sourceThrottle ▸ hleads.sourceRest)
  sinkPace := h.sinkPace.step (h.sinkThrottle ▸ hleads.sinkRest)

theorem of_course {g : Geometry} {index : Nat}
    (h : Port.Course (.ofParams g index q) past p) : Port.Streams q past p := by
  induction h with
  | start => exact init g index q
  | step _ happly ih => exact ih.step (Port.apply_leads happly)

end Port.Streams

/-- **The streams of a port lose nothing and keep their order**, whatever happens at the port. The
beats that were offered are those that the writer took out of its buffer, then those in the
buffer, then those still queued. The beats that the reader got into its buffer are those that the
sink recorded, collected or not, then those in the buffer. And a beat moves out of the queue, or
into the sink, only a rest and a clock edge after the one before. -/
theorem streams_keep_every_beat {g : Geometry} {index : Nat} {q : PortParams}
    {past : List PortMoment} {p : Port} (h : Port.Course (.ofParams g index q) past p) :
    past.flatMap (·.pops) ++ p.writeFifo.beats ++ p.source.queue = past.flatMap (·.offers)
      ∧ past.flatMap (·.delivers)
        = past.flatMap (·.collects) ++ p.sink.received ++ p.readFifo.beats
      ∧ past.flatMap (·.drains) = past.flatMap (·.collects) ++ p.sink.received
      ∧ past.flatMap (·.feeds) ++ p.source.queue = past.flatMap (·.offers)
      ∧ p.source.pushed = (past.flatMap (·.feeds)).length
      ∧ Apart (q.sourceThrottle + 1) (·.feeds) past
      ∧ Apart (q.sinkThrottle + 1) (·.drains) past := by
  have hs := Port.Streams.of_course h
  refine ⟨?_, ?_, hs.received, hs.queue, hs.pushed, hs.sourcePace.apart, hs.sinkPace.apart⟩
  · rw [hs.writeFifo, hs.queue]
  · rw [← hs.received, hs.readFifo]

/-! ## Ports of a machine -/

/-- The moment `f` of a port is its part in the moment `e` of the machine. -/
structure PortMoment.PartOf (i : Nat) (f : PortMoment) (e : Moment) : Prop where
  port : e.1.ports[i]? = some f.1
  edge : f.isEdge = (e.2 == .tick)
  offers : f.offers = e.offers i
  collects : f.collects = e.collects i
  pops : f.pops = e.writerPops i

namespace Machine

variable {params : MachineParams} {s s' : Machine} {i k : Nat} {p q q' : Port} {op : Operation}
  {a : PortAction}

/-- Between two ticks a port takes part in what is done to it. -/
theorem partOf_access (hp : s.ports[i]? = some p) (hop : op ≠ .tick)
    (ha : PortMoment.isEdge (p, a) = false)
    (hoffers : PortMoment.offers (p, a) = Moment.offers i (s, op))
    (hcollects : PortMoment.collects (p, a) = Moment.collects i (s, op)) :
    PortMoment.PartOf i (p, a) (s, op) where
  port := hp
  edge := ha.trans (beq_eq_false_iff_ne.mpr hop).symm
  offers := hoffers
  collects := hcollects
  pops := by
    cases op with
    | tick => exact absurd rfl hop
    | write | read | push | take | load | reset =>
        cases a with
        | edge => cases ha
        | registers | offer | collect => rfl

/-- Nothing happens to a port. -/
theorem part_self (hp : s.ports[i]? = some p) (hp' : s'.ports[i]? = some p) (hop : op ≠ .tick)
    (hoffers : Moment.offers i (s, op) = []) (hcollects : Moment.collects i (s, op) = []) :
    ∃ a p', s'.ports[i]? = some p' ∧ a.apply p = .ok p' ∧ PortMoment.PartOf i (p, a) (s, op) :=
  ⟨.registers p.readRegs p.writeRegs, p, hp', rfl,
    partOf_access hp hop rfl hoffers.symm hcollects.symm⟩

/-- Something happens to port `k`. -/
theorem part_setPort (hi : s.Indexed) (hk : s.ports[k]? = some q) (hindex : q'.index = q.index)
    (ha : a.apply q = .ok q') (hop : op ≠ .tick) (hedge : PortMoment.isEdge (q, a) = false)
    (hoffers : PortMoment.offers (q, a) = Moment.offers k (s, op))
    (hcollects : PortMoment.collects (q, a) = Moment.collects k (s, op))
    (hothers : ∀ j, j ≠ k → Moment.offers j (s, op) = [] ∧ Moment.collects j (s, op) = [])
    (hp : s.ports[i]? = some p) :
    ∃ a p', (s.setPort q').ports[i]? = some p' ∧ a.apply p = .ok p'
      ∧ PortMoment.PartOf i (p, a) (s, op) := by
  have hget := setPort_getElem? hi hk hindex i
  by_cases hik : i = k
  · subst hik
    rw [if_pos rfl] at hget
    obtain rfl : q = p := Option.some.inj (hk.symm.trans hp)
    exact ⟨a, q', hget, ha, partOf_access hp hop hedge hoffers hcollects⟩
  · rw [if_neg hik] at hget
    obtain ⟨ho, hc⟩ := hothers i hik
    exact part_self hp (hget.trans hp) hop ho hc

/-- In a tick every port goes through a clock edge. -/
theorem part_tick (h : s.tick.result = .ok s') (hp : s.ports[i]? = some p) :
    ∃ a p', s'.ports[i]? = some p' ∧ a.apply p = .ok p'
      ∧ PortMoment.PartOf i (p, a) (s, .tick) := by
  obtain ⟨slave, hedge⟩ := tick_edge h
  obtain ⟨p', hp', htick⟩ := (tick_port h hedge.drives).2 i p hp
  obtain ⟨rstep, wstep, hport⟩ := Port.tick_edge htick
  refine ⟨.edge (s.readBus slave i p) (s.writeBus i p), p', hp', htick, hp, rfl, rfl, rfl, ?_⟩
  unfold PortMoment.pops Moment.writerPops
  dsimp only
  rw [hport.writer, Moment.writerEdge_tick hedge.drives hp hport, hp]

/-- **Every port takes part in whatever is done to the machine**, except that it is not reset. -/
theorem part_apply (hi : s.Indexed) (h : op.apply s = .ok s') (hr : op ≠ .reset)
    (hp : s.ports[i]? = some p) :
    ∃ a p', s'.ports[i]? = some p' ∧ a.apply p = .ok p'
      ∧ PortMoment.PartOf i (p, a) (s, op) := by
  cases op with
  | tick => exact part_tick h hp
  | reset => exact absurd rfl hr
  | read addr =>
      obtain ⟨_, _, rfl⟩ := except_map_eq_ok.mp h
      exact part_self hp hp (by simp) rfl rfl
  | write addr value =>
      obtain ⟨found, hf, hrest⟩ := Run.result_bind_eq_ok.mp h
      cases found with
      | none =>
          cases hrest
          exact part_self hp hp (by simp) rfl rfl
      | some found =>
          obtain ⟨q, side, index⟩ := found
          obtain ⟨k, hk⟩ := exists_port_of_decode hf
          obtain ⟨regs, hregs, rfl⟩ := writeRegister_found hf h
          have hindex := q.withRegs_index regs side
          cases side with
          | reader =>
              exact part_setPort (a := .registers regs q.writeRegs) hi hk hindex rfl (by simp)
                rfl rfl rfl (fun j _ => ⟨rfl, rfl⟩) hp
          | writer =>
              exact part_setPort (a := .registers q.readRegs regs) hi hk hindex rfl (by simp)
                rfl rfl rfl (fun j _ => ⟨rfl, rfl⟩) hp
  | push port beats =>
      simp only [Operation.apply, pushStream] at h
      split at h
      · cases h
      · rename_i q hq
        cases h
        exact part_setPort (a := .offer beats) hi hq rfl rfl (by simp) rfl (if_pos rfl).symm rfl
          (fun j hj => ⟨if_neg (Ne.symm hj), rfl⟩) hp
  | take port =>
      obtain ⟨⟨beats, t⟩, ht, rfl⟩ := except_map_eq_ok.mp h
      unfold takeOutput at ht
      split at ht
      · cases ht
      · rename_i q hq
        cases ht
        have hcollects : Moment.collects port (s, .take port) = q.sink.received := by
          unfold Moment.collects
          dsimp only
          rw [if_pos rfl, hq]
          rfl
        exact part_setPort (a := .collect) hi hq rfl rfl (by simp) rfl rfl hcollects.symm
          (fun j hj => ⟨rfl, if_neg (Ne.symm hj)⟩) hp
  | load base words =>
      refine part_self hp ?_ (by simp) rfl rfl
      simp only [Operation.apply, loadMemory] at h
      cases hl : s.memory.store.load base words with
      | ok store =>
          rw [hl] at h
          cases h
          exact hp
      | error stop =>
          rw [hl] at h
          cases stop with
          | fault fault => cases h
          | problem problem =>
              cases h
              exact hp

end Machine

/-- **The ports of a machine are on courses.** What a port has gone through since the machine was
built is its part in what was done to the machine, moment by moment. -/
theorem History.course {params : MachineParams} {s₀ s : Machine} {past : List Moment} {i : Nat}
    {q : PortParams} (h₀ : Machine.ofParams params = .ok s₀) (h : History s₀ past s)
    (hu : Uninterrupted past) (hq : params.ports[i]? = some q) :
    ∃ p course, s.ports[i]? = some p ∧ Port.Course (.ofParams params.geometry i q) course p
      ∧ List.Forall₂ (PortMoment.PartOf i) course past := by
  induction h with
  | start =>
      refine ⟨_, [], ?_, .start, .nil⟩
      rw [Machine.getElem?_ofParams h₀, hq]
      rfl
  | @step past s s' op hist hop ih =>
      obtain ⟨hu, hreset⟩ := uninterrupted_concat.mp hu
      obtain ⟨p, course, hp, hcourse, hparts⟩ := ih hu
      have hr : Machine.Reachable params s := ⟨s₀, past, h₀, hist⟩
      obtain ⟨a, p', hp', ha, hpart⟩ := Machine.part_apply hr.formed.indexed hop hreset hp
      exact ⟨p', course ++ [(p, a)], hp', hcourse.step ha,
        List.rel_append hparts (.cons hpart .nil)⟩

/-- A log of a port is that of its part in the machine. -/
theorem flatMap_parts {α : Type} {i : Nat} {course : List PortMoment} {past : List Moment}
    {f : PortMoment → List α} {g : Moment → List α}
    (h : List.Forall₂ (PortMoment.PartOf i) course past)
    (hsame : ∀ c e, PortMoment.PartOf i c e → f c = g e) : course.flatMap f = past.flatMap g := by
  induction h with
  | nil => rfl
  | cons hpart _ ih => rw [List.flatMap_cons, List.flatMap_cons, hsame _ _ hpart, ih]

/-- Three beats go into the memory and out again, at a port whose ends both rest. When the first
of them has been collected, the second is in the buffer of the reader. -/
theorem streams_keep_every_beat_three :
    ∃ past p, Port.Course
        (.ofParams {} 0 { fifoDepth := 4, sourceThrottle := 1, sinkThrottle := 2 }) past p
      ∧ past.flatMap (·.offers) = [⟨5, false⟩, ⟨6, false⟩, ⟨7, true⟩]
      ∧ past.flatMap (·.collects) = [⟨5, false⟩]
      ∧ p.source.pushed = 3 ∧ p.readFifo.beats = [⟨6, false⟩]
      ∧ past.flatMap (·.pops) ++ p.writeFifo.beats ++ p.source.queue = past.flatMap (·.offers)
      ∧ past.flatMap (·.delivers)
        = past.flatMap (·.collects) ++ p.sink.received ++ p.readFifo.beats
      ∧ past.flatMap (·.drains) = past.flatMap (·.collects) ++ p.sink.received
      ∧ past.flatMap (·.feeds) ++ p.source.queue = past.flatMap (·.offers)
      ∧ p.source.pushed = (past.flatMap (·.feeds)).length
      ∧ Apart 2 (·.feeds) past ∧ Apart 3 (·.drains) past := by
  have hrun : Machine.trial
      { ports := [{ fifoDepth := 4, sourceThrottle := 1, sinkThrottle := 2 }],
        memory := { sizeWords := 16 } }
      (.push 0 [⟨5, false⟩, ⟨6, false⟩, ⟨7, true⟩] :: Operation.program 0 .writer 0 3 2
        ++ List.replicate 16 .tick ++ Operation.program 0 .reader 0 3 2
        ++ List.replicate 11 .tick ++ [.take 0, .tick])
      (fun past t => decide (Uninterrupted past)
        && decide (past.flatMap (Moment.offers 0) = [⟨5, false⟩, ⟨6, false⟩, ⟨7, true⟩])
        && decide (past.flatMap (Moment.collects 0) = [⟨5, false⟩])
        && t.ports.all fun p => decide (p.source.pushed = 3)
          && decide (p.readFifo.beats = [⟨6, false⟩])) = true := by
    decide +kernel
  obtain ⟨s₀, past, t, h₀, hist, hlook⟩ := Machine.exists_of_trial hrun
  simp only [Bool.and_eq_true, decide_eq_true_eq, List.all_eq_true] at hlook
  obtain ⟨⟨⟨hu, hoffers⟩, hcollects⟩, hports⟩ := hlook
  obtain ⟨p, course, hp, hcourse, hparts⟩ := hist.course (i := 0) h₀ hu rfl
  obtain ⟨hpushed, hbuffer⟩ := hports p (List.mem_of_getElem? hp)
  exact ⟨course, p, hcourse, (flatMap_parts hparts fun _ _ h => h.offers).trans hoffers,
    (flatMap_parts hparts fun _ _ h => h.collects).trans hcollects, hpushed, hbuffer,
    streams_keep_every_beat hcourse⟩

end BurstDma
