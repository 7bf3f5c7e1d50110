import BurstDma.Proofs.ReadTraffic
import BurstDma.Proofs.Safety

/-!
# The counters agree

Whatever moves is counted where it leaves and counted again where it arrives: bursts, words
and error responses, by the engines, the arbiters and the memory. In between it is in one of
the registers on the way. **So two counters differ by what lies between them**, in every cycle,
and at rest nothing does. `Machine.Tally` is one equation for each pair of places.

An engine is one of many, while the memory is one, so that most of the equations are about
sums over the ports. What moves in a cycle moves at one port only.
-/

namespace BurstDma

/-! ## Sums -/

/-- If every element of a list adds to its value what it contributes, the sum grows by all the
contributions. -/
theorem sum_map_add_flatMap {α β γ : Type} {f : α → Nat} {g : β → List γ} {xs ys : List α}
    {zs : List β} (hys : ys.length = xs.length) (hzs : zs.length = xs.length)
    (h : ∀ (i : Nat) (x y : α) (z : β), xs[i]? = some x → ys[i]? = some y → zs[i]? = some z →
      f y = f x + (g z).length) :
    (ys.map f).sum = (xs.map f).sum + (zs.flatMap g).length := by
  induction xs generalizing ys zs with
  | nil =>
      rw [List.length_nil, List.length_eq_zero_iff] at hys hzs
      rw [hys, hzs]
      rfl
  | cons x xs ih =>
      obtain ⟨y, ys, rfl⟩ := List.exists_cons_of_length_eq_add_one hys
      obtain ⟨z, zs, rfl⟩ := List.exists_cons_of_length_eq_add_one hzs
      have hhead := h 0 x y z rfl rfl rfl
      have hrest := ih (Nat.succ.inj hys) (Nat.succ.inj hzs)
        fun i x y z hx hy hz => h (i + 1) x y z hx hy hz
      rw [List.map_cons, List.sum_cons, List.map_cons, List.sum_cons, List.flatMap_cons,
        List.length_append, hhead, hrest]
      omega

/-- Counting once more adds one to the sum of some counts. -/
theorem sum_modify_succ {l : List Nat} {i : Nat} (h : i < l.length) :
    (l.modify i (· + 1)).sum = l.sum + 1 := by
  induction l generalizing i with
  | nil => cases h
  | cons n l ih =>
      cases i with
      | zero =>
          rw [List.modify_zero_cons, List.sum_cons, List.sum_cons]
          omega
      | succ i =>
          rw [List.modify_succ_cons, List.sum_cons, List.sum_cons, ih (Nat.lt_of_succ_lt_succ h)]
          omega

/-! ## What the memory counts -/

/-- The errors among some beats of read data. -/
def badBeats (beats : List ReadBeat) : List ReadBeat :=
  beats.filter (·.resp.isError)

/-- The errors among some write responses. -/
def badAnswers (answers : List WriteResp) : List WriteResp :=
  answers.filter (·.resp.isError)

theorem badBeats_append (xs ys : List ReadBeat) :
    badBeats (xs ++ ys) = badBeats xs ++ badBeats ys :=
  List.filter_append ..

theorem badBeats_flatMap {α : Type} (f : α → List ReadBeat) (xs : List α) :
    badBeats (xs.flatMap f) = xs.flatMap fun x => badBeats (f x) :=
  List.filter_flatMap ..

theorem badAnswers_append (xs ys : List WriteResp) :
    badAnswers (xs ++ ys) = badAnswers xs ++ badAnswers ys :=
  List.filter_append ..

theorem badAnswers_flatMap {α : Type} (f : α → List WriteResp) (xs : List α) :
    badAnswers (xs.flatMap f) = xs.flatMap fun x => badAnswers (f x) :=
  List.filter_flatMap ..

namespace Memory

variable {m m' : Memory} {reads : ReadBus} {writes : WriteBus}

/-- The response that waits. -/
def answers (m : Memory) : List WriteResp :=
  m.response.toList.map (·.1)

/-- The counters of the read side. -/
theorem tickReads_stats (m : Memory) (bus : ReadBus) :
    (m.tickReads bus).stats = { m.stats with
      readBursts := m.stats.readBursts + bus.arFired.toList.length
      readWords := m.stats.readWords + bus.rFired.toList.length
      errors := m.stats.errors + (badBeats bus.rFired.toList).length } := by
  unfold tickReads badBeats
  cases bus.rFired with
  | none => cases bus.arFired <;> rfl
  | some b => cases bus.arFired <;> cases hb : b.resp.isError <;> simp [hb]

theorem length_badAnswers (b : WriteResp) :
    (badAnswers [b]).length = if b.resp.isError then 1 else 0 := by
  unfold badAnswers
  cases hr : b.resp.isError <;> simp [hr]

/-- What a clock edge moves into the memory or out of it is counted, unless it is still
there. -/
structure Tallied (m : Memory) (reads : ReadBus) (writes : WriteBus) (m' : Memory) : Prop where
  readBursts : m'.stats.readBursts = m.stats.readBursts + reads.arFired.toList.length
  readWords : m'.stats.readWords = m.stats.readWords + reads.rFired.toList.length
  writeBursts : m'.stats.writeBursts + m'.aw.toList.length
    = m.stats.writeBursts + m.aw.toList.length + writes.awFired.toList.length
  writeWords : m'.stats.writeWords + m'.collected.length
    = m.stats.writeWords + m.collected.length + writes.wFired.toList.length
  errors : m'.stats.errors + (badAnswers m.answers).length
    = m.stats.errors + (badBeats reads.rFired.toList).length
      + (badAnswers writes.bFired.toList).length + (badAnswers m'.answers).length

/-- The memory gives the response that waits, and takes an address or data only when none
does. -/
theorem fired_of_wires (hslave : writes.slave = m.writeWires) :
    (∀ b, writes.bFired = some b → m.answers = [b])
      ∧ (writes.awFired.isSome = true → m.aw = none)
      ∧ (writes.wFired.isSome = true → m.answers = []) := by
  unfold WriteBus.bFired WriteBus.awFired WriteBus.wFired
  rw [hslave]
  unfold writeWires answers
  refine ⟨?_, ?_, ?_⟩
  · intro b hb
    split at hb
    · obtain ⟨r, hr, rfl⟩ := Option.map_eq_some_iff.mp hb
      obtain ⟨hr, _⟩ := Option.filter_eq_some_iff.mp hr
      rw [hr]
      rfl
    · cases hb
  · intro hs
    split at hs
    · rename_i hready
      exact Option.isNone_iff_eq_none.mp (Bool.and_eq_true_iff.mp hready).1
    · cases hs
  · intro hs
    split at hs
    · rename_i hready
      rw [Option.isNone_iff_eq_none.mp (Bool.and_eq_true_iff.mp hready).2]
      rfl
    · cases hs

/-- What a clock edge collects, and the response that it gives away. -/
theorem collect_flow (hslave : writes.slave = m.writeWires) :
    (m.collect writes).aw.toList.length = m.aw.toList.length + writes.awFired.toList.length
      ∧ (m.collect writes).collected.length
        = m.collected.length + writes.wFired.toList.length
      ∧ m.answers = writes.bFired.toList ++ (m.collect writes).answers := by
  obtain ⟨haw, hcollected, _, hresponse⟩ := m.collect_eq (rfl : writes.awFired = _) rfl rfl
  obtain ⟨hanswer, hfree, _⟩ := fired_of_wires hslave
  refine ⟨?_, ?_, ?_⟩
  · rw [haw]
    cases hf : writes.awFired with
    | none => rfl
    | some r =>
        rw [hfree (by rw [hf]; rfl)]
        rfl
  · rw [hcollected, List.length_append]
  · have hleft : (m.collect writes).answers = if writes.bFired.isSome then [] else m.answers := by
      unfold answers
      rw [hresponse]
      split <;> rfl
    rw [hleft]
    cases hb : writes.bFired with
    | none => rfl
    | some b => exact hanswer b hb

/-- A write is complete with its address and its last word, and a word is taken only while no
response waits. -/
theorem complete_of_some (hdone : m.dataDone = false) (hslave : writes.slave = m.writeWires)
    {aw : AddrReq} {beats : List WriteBeat} (h : m.completes? writes = some (aw, beats)) :
    (m.collect writes).aw = some aw ∧ m.answers = [] := by
  obtain ⟨_, _, hlast, _⟩ := m.collect_eq (rfl : writes.awFired = _) rfl rfl
  obtain ⟨_, _, hquiet⟩ := fired_of_wires hslave
  unfold completes? at h
  dsimp only at h
  split at h
  · rename_i hd ha
    cases h
    refine ⟨ha, hquiet ?_⟩
    rw [hd, hdone] at hlast
    cases hw : writes.wFired with
    | none =>
        rw [hw] at hlast
        cases hlast
    | some w => rfl
  · cases h

/-- **The memory counts what it takes in and what it gives out**, once it has all of it. -/
theorem tick_tallied (hdone : m.dataDone = false) (hslave : writes.slave = m.writeWires)
    (h : (m.tick reads writes).result = .ok m') : m.Tallied reads writes m' := by
  obtain ⟨t, ht, h⟩ := Run.result_bind_eq_ok.mp h
  cases h
  obtain ⟨_, hcompletes, _, haw, hcollected, _, hresponse⟩ := m.tickReads_writes reads writes
  obtain ⟨haws, hwords, hanswers⟩ := collect_flow hslave
  have hstats := m.tickReads_stats reads
  rcases tickWrites_cases ht with ⟨_, rfl⟩ | ⟨aw, store, resp, hsome, _, rfl⟩
  · -- nothing is complete: what was taken in waits
    obtain ⟨_, _, _, _, hkept⟩ := (m.tickReads reads).collect_kept writes
    have hleft : ((m.tickReads reads).collect writes).answers = (m.collect writes).answers :=
      congrArg (fun response => response.toList.map (·.1)) hresponse
    refine ⟨?_, ?_, ?_, ?_, ?_⟩
    · rw [hkept, hstats]
    · rw [hkept, hstats]
    · show _ + ((m.tickReads reads).collect writes).aw.toList.length = _
      rw [hkept, hstats, haw, haws]
      exact (Nat.add_assoc ..).symm
    · show _ + ((m.tickReads reads).collect writes).collected.length = _
      rw [hkept, hstats, hcollected, hwords]
      exact (Nat.add_assoc ..).symm
    · show _ = _ + (badAnswers ((m.tickReads reads).collect writes).answers).length
      rw [hkept, hstats, hleft, hanswers, badAnswers_append, List.length_append]
      exact (Nat.add_assoc ..).symm
  · -- what was taken in is counted, and the response is a new one
    obtain ⟨hopen, hnone⟩ := complete_of_some hdone hslave (hcompletes.symm.trans hsome)
    have hunanswered : writes.bFired.toList = [] :=
      (List.append_eq_nil_iff.mp (hanswers.symm.trans hnone)).1
    rw [hopen, Option.toList_some, List.length_singleton] at haws
    rw [← hcollected] at hwords
    refine ⟨?_, ?_, ?_, ?_, ?_⟩
    · show (m.tickReads reads).stats.readBursts = _
      rw [hstats]
    · show (m.tickReads reads).stats.readWords = _
      rw [hstats]
    · show (m.tickReads reads).stats.writeBursts + 1 + 0 = _
      rw [hstats]
      show m.stats.writeBursts + 1 + 0 = _
      omega
    · show (m.tickReads reads).stats.writeWords
        + ((m.tickReads reads).collect writes).collected.length + 0 = _
      rw [hstats, hwords]
      exact (Nat.add_assoc ..).symm
    · show (m.tickReads reads).stats.errors + (if resp.isError then 1 else 0) + _
        = _ + (badAnswers [⟨aw.id, resp⟩]).length
      rw [hstats, hnone, hunanswered, length_badAnswers]
      rfl

end Memory

/-! ## What the engines count -/

theorem ReadEngine.tick_count {e e' : ReadEngine} {i : ReadInputs} {step : ReadStep}
    (h : (e.tick i).result = .ok (e', step)) :
    e'.stats = count e.stats i step (finishes e.core.phase e'.core.phase) := by
  obtain ⟨⟨core, step'⟩, _, h⟩ := Run.result_bind_eq_ok.mp h
  obtain ⟨_, _, h⟩ := Run.result_bind_eq_ok.mp h
  cases h
  rfl

theorem WriteEngine.tick_count {e e' : WriteEngine} {i : WriteInputs} {step : WriteStep}
    (h : (e.tick i).result = .ok (e', step)) :
    e'.stats = count e.stats i step (finishes e.core.phase e'.core.phase) := by
  obtain ⟨⟨core, step'⟩, _, h⟩ := Run.result_bind_eq_ok.mp h
  obtain ⟨_, _, h⟩ := Run.result_bind_eq_ok.mp h
  cases h
  rfl

/-- What an engine counts of a cycle. -/
structure EngineStats.Grows (s : EngineStats) (bursts words errors : Nat) (s' : EngineStats) :
    Prop where
  bursts : s'.bursts = s.bursts + bursts
  words : s'.words = s.words + words
  errors : s'.errors = s.errors + errors

namespace Port

variable {s : Machine} {slave : ReadSlave} {i : Nat} {p p' : Port} {rstep : ReadStep}
  {wstep : WriteStep}

/-- A reader counts the requests that leave its port, and the beats that reach it. -/
theorem Edge.reads_counted
    (h : p.Edge (s.readBus slave i p) (s.writeBus i p) rstep wstep p') :
    p.reader.stats.Grows (s.readBus slave i p).arFired.toList.length
      (s.readBus slave i p).rFired.toList.length
      (badBeats (s.readBus slave i p).rFired.toList).length p'.reader.stats := by
  obtain ⟨hoffer, _⟩ := s.arFired_readBus slave i p
  obtain ⟨hcore, _⟩ := ReadEngine.tick_core h.reader
  have hissued : rstep.issued.isSome = (s.readBus slave i p).arFired.isSome := by
    rw [ReadCore.next_issued hoffer hcore]
    show (if (s.readBus slave i p).arFired.isSome then
      some (⟨p.reader.core.addr, p.reader.core.burst⟩ : Burst) else none).isSome = _
    cases (s.readBus slave i p).arFired <;> rfl
  rw [ReadEngine.tick_count h.reader]
  refine ⟨?_, ?_, ?_⟩
  · unfold ReadEngine.count
    dsimp only
    rw [hissued, length_toList_eq]
  · rw [length_toList_eq]
    rfl
  · show _ + (if (s.readBus slave i p).rFired.any (·.resp.isError) then 1 else 0) = _
    unfold badBeats
    cases (s.readBus slave i p).rFired with
    | none => rfl
    | some b => cases hb : b.resp.isError <;> simp [hb]

/-- A writer counts the requests and the words that leave its port, and the answers that reach
it. -/
theorem Edge.writes_counted
    (h : p.Edge (s.readBus slave i p) (s.writeBus i p) rstep wstep p') :
    p.writer.stats.Grows (s.writeBus i p).awFired.toList.length
      (s.writeBus i p).wFired.toList.length
      (badAnswers (s.writeBus i p).bFired.toList).length p'.writer.stats := by
  have hserved := Machine.served_edge h
  rw [WriteEngine.tick_count h.writer]
  refine ⟨?_, ?_, ?_⟩
  · unfold WriteEngine.count
    dsimp only
    rw [hserved.issued, length_toList_eq]
    show _ + (if (if (s.writeBus i p).awFired.isSome then _ else none).isSome then 1 else 0) = _
    cases (s.writeBus i p).awFired.isSome <;> rfl
  · unfold WriteEngine.count
    dsimp only
    rw [hserved.pop, length_toList_eq]
    rfl
  · show _ + (if (s.writeBus i p).bFired.any (·.resp.isError) then 1 else 0) = _
    unfold badAnswers
    cases (s.writeBus i p).bFired with
    | none => rfl
    | some b => cases hb : b.resp.isError <;> simp [hb]

end Port

/-! ## What the ports move together -/

namespace Machine

variable {params : MachineParams} {s s' : Machine} {slave : ReadSlave} {i : Nat} {p p' : Port}

/-- A count of all ports together. -/
def total (f : Port → Nat) (s : Machine) : Nat :=
  (s.ports.map f).sum

/-- What the ports count of their read wires. -/
theorem total_reads {α : Type} {f : Port → Nat} {g : ReadBus → List α} (h : s.Edge slave s')
    (hport : ∀ (i : Nat) (p p' : Port) (rstep : ReadStep) (wstep : WriteStep),
      p.Edge (s.readBus slave i p) (s.writeBus i p) rstep wstep p' →
      f p' = f p + (g (s.readBus slave i p)).length) :
    s'.total f = s.total f + ((s.reads slave).up.flatMap g).length := by
  refine sum_map_add_flatMap h.length (by simp [reads, ReadArbiter.resolve]) ?_
  intro i p p' bus hp hp' hbus
  obtain ⟨rstep, wstep, q, hq, hedge⟩ := h.port i p hp
  rw [hp'] at hq
  cases hq
  rw [reads_up_getElem? hp] at hbus
  cases hbus
  exact hport i p p' rstep wstep hedge

/-- What the ports count of their write wires. -/
theorem total_writes {α : Type} {f : Port → Nat} {g : WriteBus → List α} (h : s.Edge slave s')
    (hport : ∀ (i : Nat) (p p' : Port) (rstep : ReadStep) (wstep : WriteStep),
      p.Edge (s.readBus slave i p) (s.writeBus i p) rstep wstep p' →
      f p' = f p + (g (s.writeBus i p)).length) :
    s'.total f = s.total f + (s.writes.up.flatMap g).length := by
  refine sum_map_add_flatMap h.length (by simp [writes, WriteArbiter.resolve]) ?_
  intro i p p' bus hp hp' hbus
  obtain ⟨rstep, wstep, q, hq, hedge⟩ := h.port i p hp
  rw [hp'] at hq
  cases hq
  rw [writes_up_getElem? hp] at hbus
  cases hbus
  exact hport i p p' rstep wstep hedge

/-- **What moves at the ports of the write bus moves at the memory.** -/
theorem writes_flow (howner : s.writeArbiter.owner < s.ports.length) :
    (s.writes.up.flatMap (·.awFired.toList)).length = s.writes.down.awFired.toList.length
      ∧ s.writes.up.flatMap (·.wFired.toList) = s.writes.down.wFired.toList
      ∧ s.writes.up.flatMap (·.bFired.toList) = s.writes.down.bFired.toList := by
  have hp := List.getElem?_eq_getElem howner
  obtain ⟨haw, hw, hb⟩ := owner_fires hp
  have hup := writes_up_getElem? hp
  -- the ports that are not connected move nothing
  have quiet : ∀ (j : Nat) (bus : WriteBus), s.writes.up[j]? = some bus →
      j ≠ s.writeArbiter.owner →
      bus.awFired = none ∧ bus.wFired = none ∧ bus.bFired = none := by
    intro j bus hbus hj
    have hlt : j < s.ports.length := by
      obtain ⟨hlt, _⟩ := List.getElem?_eq_some_iff.mp hbus
      simpa [writes, WriteArbiter.resolve] using hlt
    rw [writes_up_getElem? (List.getElem?_eq_getElem hlt)] at hbus
    cases hbus
    obtain ⟨haw, hw, hb⟩ := fires_of_ne (p := s.ports[j]) hj
    rw [Option.isSome_eq_false_iff, Option.isNone_iff_eq_none] at haw hw
    exact ⟨haw, hw, hb⟩
  refine ⟨?_, ?_, ?_⟩
  · rw [flatMap_eq_of_only (i := s.writeArbiter.owner), hup, haw, Option.toList_map,
      List.length_map]
    · rfl
    · intro j bus hbus hj
      rw [(quiet j bus hbus hj).1]
      rfl
  · rw [flatMap_eq_of_only (i := s.writeArbiter.owner), hup, hw]
    · rfl
    · intro j bus hbus hj
      rw [(quiet j bus hbus hj).2.1]
      rfl
  · rw [flatMap_eq_of_only (i := s.writeArbiter.owner), hup, hb]
    · rfl
    · intro j bus hbus hj
      rw [(quiet j bus hbus hj).2.2]
      rfl

/-! ## The tally -/

/-- Two counters differ by what is on the way between them. -/
structure Tally (s : Machine) : Prop where
  /-- A request that a reader counts waits for its grant, or it was granted. -/
  readGrants : ∀ (i : Nat) (p : Port), s.ports[i]? = some p →
    ∃ n, s.readArbiter.grants[i]? = some n
      ∧ p.reader.stats.bursts = n + (s.readArbiter.waiting i).length
  /-- A granted request waits for the memory, or the memory has taken it. -/
  readBursts : s.readArbiter.grants.sum
    = s.memory.stats.readBursts + s.readArbiter.granted.contents.length
  readWords : s.memory.stats.readWords
    = s.total (·.reader.stats.words) + s.readArbiter.data.contents.length
  writeGrants : ∀ (i : Nat) (p : Port), s.ports[i]? = some p →
    s.writeArbiter.grants[i]? = some p.writer.stats.bursts
  /-- The memory counts a burst, and its words, when it stores them. -/
  writeBursts : s.total (·.writer.stats.bursts)
    = s.memory.stats.writeBursts + s.memory.aw.toList.length
  writeWords : s.total (·.writer.stats.words)
    = s.memory.stats.writeWords + s.memory.collected.length
  /-- An error that the memory counts has reached its engine, or it is on its way back. -/
  errors : s.memory.stats.errors
    = s.total (·.reader.stats.errors) + s.total (·.writer.stats.errors)
      + (badBeats s.readArbiter.data.contents).length + (badAnswers s.memory.answers).length

/-- A new machine has counted nothing. -/
theorem tally_ofParams (h : ofParams params = .ok s) : s.Tally := by
  have hget := getElem?_ofParams h
  have hzero : ∀ f : Port → Nat, (∀ i q, f (Port.ofParams params.geometry i q) = 0) →
      s.total f = 0 := by
    intro f hf
    refine List.sum_eq_zero_iff_forall_eq_nat.mpr fun n hn => ?_
    obtain ⟨p, hp, rfl⟩ := List.mem_map.mp hn
    obtain ⟨i, hi⟩ := List.mem_iff_getElem?.mp hp
    rw [hget] at hi
    obtain ⟨q, _, rfl⟩ := Option.map_eq_some_iff.mp hi
    exact hf i q
  obtain ⟨ra, wa, hra, hwa, hs⟩ := ofParams_eq_ok h
  obtain ⟨_, _, hra⟩ := except_bind_eq_ok.mp hra
  obtain ⟨_, _, hwa⟩ := except_bind_eq_ok.mp hwa
  cases hra
  cases hwa
  have hlane : ∀ (i : Nat) (p : Port), s.ports[i]? = some p →
      (List.replicate params.ports.length 0)[i]? = some 0 ∧ p.reader.stats.bursts = 0
        ∧ p.writer.stats.bursts = 0 := by
    intro i p hp
    rw [hget] at hp
    obtain ⟨q, hq, rfl⟩ := Option.map_eq_some_iff.mp hp
    obtain ⟨hlt, _⟩ := List.getElem?_eq_some_iff.mp hq
    exact ⟨by rw [List.getElem?_replicate, if_pos hlt], rfl, rfl⟩
  refine ⟨?_, ?_, ?_, ?_, ?_, ?_, ?_⟩
  · intro i p hp
    obtain ⟨hn, hread, _⟩ := hlane i p hp
    have hempty : ∀ skid ∈ s.readArbiter.inputs, skid.contents = [] := by
      rw [hs]
      intro skid hskid
      rw [List.eq_of_mem_replicate hskid]
      rfl
    refine ⟨0, by rw [hs]; exact hn, ?_⟩
    rw [hread, ReadArbiter.waiting_eq_nil hempty]
    rfl
  · rw [hs]
    exact List.sum_replicate_nat
  · rw [hzero _ fun _ _ => rfl, hs]
    rfl
  · intro i p hp
    obtain ⟨hn, _, hwrite⟩ := hlane i p hp
    rw [hwrite, hs]
    exact hn
  · rw [hzero _ fun _ _ => rfl, hs]
    rfl
  · rw [hzero _ fun _ _ => rfl, hs]
    rfl
  · rw [hzero _ fun _ _ => rfl, hzero _ fun _ _ => rfl, hs]
    rfl

/-- Nothing is counted between the ticks. -/
theorem Tally.touched {op : Operation} (ht : s.Tally) (h : s.Touched op s') : s'.Tally := by
  have hsame : ∀ f : Port → Nat, (∀ {p p' : Port}, p'.reader = p.reader → p'.writer = p.writer →
      f p' = f p) → s'.total f = s.total f := by
    intro f hf
    have hmap : s'.ports.map f = s.ports.map f := by
      apply List.ext_getElem?
      intro i
      rw [List.getElem?_map, List.getElem?_map]
      cases hp : s.ports[i]? with
      | none =>
          rw [List.getElem?_eq_none_iff] at hp
          rw [List.getElem?_eq_none_iff.mpr (h.length ▸ hp)]
      | some p =>
          obtain ⟨p', hp', hport⟩ := h.port i p hp
          rw [hp', Option.map_some, Option.map_some, hf hport.reader hport.writer]
    exact congrArg List.sum hmap
  refine ⟨?_, ?_, ?_, ?_, ?_, ?_, ?_⟩
  · intro i p' hp'
    obtain ⟨p, hp, hport⟩ := h.port' hp'
    rw [h.readArbiter, hport.reader]
    exact ht.readGrants i p hp
  · rw [h.readArbiter, h.memory]
    exact ht.readBursts
  · rw [hsame _ fun hr _ => by rw [hr], h.readArbiter, h.memory]
    exact ht.readWords
  · intro i p' hp'
    obtain ⟨p, hp, hport⟩ := h.port' hp'
    rw [h.writeArbiter, hport.writer]
    exact ht.writeGrants i p hp
  · rw [hsame _ fun _ hw => by rw [hw], h.memory]
    exact ht.writeBursts
  · rw [hsame _ fun _ hw => by rw [hw], h.memory]
    exact ht.writeWords
  · rw [hsame (·.reader.stats.errors) fun hr _ => by rw [hr],
      hsame (·.writer.stats.errors) fun _ hw => by rw [hw], h.readArbiter, h.memory]
    exact ht.errors

/-! ### A clock cycle -/

/-- The requests of a reader, from its port to its grants. -/
theorem readGrants_edge (hf : s.ReadPathFormed) (h : s.Edge slave s') (hp : s.ports[i]? = some p)
    {n : Nat} (hn : s.readArbiter.grants[i]? = some n) :
    ∃ n', s'.readArbiter.grants[i]? = some n'
      ∧ n + (s.readArbiter.waiting i).length + (s.readBus slave i p).arFired.toList.length
        = n' + (s'.readArbiter.waiting i).length := by
  have hedge : s.readArbiter.Edge (s.readArbiter.resolve (s.ports.map (·.readWires)) slave)
      s'.readArbiter := ReadArbiter.tick_edge h.readArbiter
  have hm : (s.ports.map (·.readWires))[i]? = some p.readWires := by simp [hp]
  obtain ⟨_, _, _, hinputs⟩ := ReadArbiter.inputs_flow hf.arbiter (by simp) hedge
  have hflow := congrArg List.length (hinputs i _ hm)
  rw [List.length_append, List.length_append] at hflow
  refine ⟨n + (s.readArbiter.grantTo (s.ports.map (·.readWires)) slave i).toList.length, ?_, ?_⟩
  · rw [ReadArbiter.tick_grants h.readArbiter]
    unfold ReadArbiter.grantTo
    cases hg : (s.reads slave).grant with
    | none =>
        have hnone : (s.readArbiter.resolve (s.ports.map (·.readWires)) slave).grant = none := hg
        rw [hnone]
        simpa using hn
    | some r =>
        have hsome : (s.readArbiter.resolve (s.ports.map (·.readWires)) slave).grant = some r := hg
        obtain ⟨_, _, offer, hoffer, _⟩ := ReadArbiter.grant_eq_some hsome
        rw [hsome, Option.isSome_some, if_pos rfl, List.getElem?_modify, hn]
        by_cases hi : i = s.readArbiter.selected
        · subst hi
          rw [hoffer]
          simp
        · simp [hi, Ne.symm hi]
  · have hfired : (s.readBus slave i p).arFired
        = ReadBus.arFired ⟨p.readWires, s.readArbiter.toRequester slave i⟩ := rfl
    rw [hfired]
    omega

/-- The grants of a writer are the bursts that it has opened. -/
theorem writeGrants_edge (hr : Machine.Reachable params s) (h : s.Edge slave s')
    (hp : s.ports[i]? = some p) {n : Nat} (hn : s.writeArbiter.grants[i]? = some n) :
    s'.writeArbiter.grants[i]? = some (n + (s.writeBus i p).awFired.toList.length) := by
  have ho := writeOrderly_reachable hr
  have howner := List.getElem?_eq_getElem (owner_lt hr)
  obtain ⟨hdaw, hdw, _⟩ := owner_fires howner
  obtain ⟨hmove, _⟩ := write_move ho h
  rw [WriteArbiter.tick_grants h.writeArbiter, length_toList_eq]
  -- outside of a selection nobody gets an address through
  have locked : s.writeArbiter.lock ≠ .select → (s.writeBus i p).awFired.isSome = false →
      (if s.writeArbiter.lock = .select ∧ (s.writes.down.awFired.isSome
          || s.writes.down.wFired.isSome) = true then
        s.writeArbiter.grants.modify s.writeArbiter.selected (· + 1)
      else s.writeArbiter.grants)[i]?
        = some (n + if (s.writeBus i p).awFired.isSome then 1 else 0) := by
    intro hl hf
    rw [if_neg fun hc => hl hc.1, hf]
    exact hn
  cases hmove with
  | rest hfires _ _ _ _ =>
      have hf := hfires _ _ howner
      rw [hdaw, hdw, Option.isSome_map, hf.aw, hf.w, (hfires i p hp).aw,
        if_neg fun hc => Bool.false_ne_true hc.2]
      exact hn
  | start id q hq hph hfires hl _ _ _ _ =>
      -- the address comes from the selected port
      have hsel : s.writeArbiter.owner = s.writeArbiter.selected := WriteArbiter.owner_eq hl
      have hid : s.writeArbiter.owner = id := by
        by_contra hne
        have hquiet := (fires_of_ne (p := q) (Ne.symm hne)).aw
        rw [(hfires id q hq).aw, beq_self_eq_true] at hquiet
        cases hquiet
      have hfired : s.writes.down.awFired.isSome = true := by
        rw [hdaw, Option.isSome_map, (hfires _ _ howner).aw, hid, beq_self_eq_true]
      rw [if_pos ⟨hl, by rw [hfired, Bool.true_or]⟩, List.getElem?_modify, hn, ← hsel, hid,
        (hfires i p hp).aw]
      by_cases hi : i = id
      · simp [hi]
      · simp [hi, Ne.symm hi]
  | send id q head _ _ _ hfires hl _ _ _ _ =>
      exact locked (by rw [hl]; exact fun hc => by cases hc) (hfires i p hp).aw
  | close id q head r _ _ _ hfires hl _ _ _ _ =>
      exact locked (by rw [hl]; exact fun hc => by cases hc) (hfires i p hp).aw
  | answer id resp hfires hl _ _ =>
      exact locked (by rw [hl]; exact fun hc => by cases hc) (hfires i p hp).aw

/-- A grant of the read arbiter is counted once. -/
theorem readGrants_sum (hr : Machine.Reachable params s) (h : s.Edge slave s')
    (hlen : s.readArbiter.grants.length = s.ports.length) :
    s'.readArbiter.grants.sum
      = s.readArbiter.grants.sum + (s.reads slave).grant.toList.length := by
  have hturn := (bounded_reachable hr).readTurn.selected
  rw [ReadArbiter.tick_grants h.readArbiter, length_toList_eq]
  cases (s.reads slave).grant.isSome with
  | true => exact sum_modify_succ (hlen ▸ hturn)
  | false => rfl

/-- **A cycle moves what it counts.** -/
theorem Tally.edge (hr : Machine.Reachable params s) (ht : s.Tally)
    (hlen : s.readArbiter.grants.length = s.ports.length) (h : s.Edge slave s') : s'.Tally := by
  have hf := hr.formed.reads
  have ho := writeOrderly_reachable hr
  have hedge : s.readArbiter.Edge (s.readArbiter.resolve (s.ports.map (·.readWires)) slave)
      s'.readArbiter := ReadArbiter.tick_edge h.readArbiter
  -- what passes the arbiters
  have hgranted : s.readArbiter.granted.contents ++ (s.reads slave).grant.toList
      = (s.reads slave).down.arFired.toList ++ s'.readArbiter.granted.contents :=
    (ReadArbiter.granted_flow hf.arbiter hedge).2.2
  have hdata : s.readArbiter.data.contents ++ (s.reads slave).down.rFired.toList
      = (s.readArbiter.deliveredBeat (s.reads slave)).toList ++ s'.readArbiter.data.contents :=
    (ReadArbiter.data_flow hf.arbiter hedge).2.2
  have hreceived : (s.reads slave).up.flatMap (·.rFired.toList)
      = (s.readArbiter.deliveredBeat (s.reads slave)).toList := ReadArbiter.received_eq
  obtain ⟨hup_aw, hup_w, hup_b⟩ := writes_flow (owner_lt hr)
  -- what passes the memory
  have hmem := Memory.tick_tallied ho.stage.dataDone_eq (rfl : s.writes.down.slave = _) h.memory
  have hwords := congrArg List.length hdata
  have hbad := congrArg (fun beats => (badBeats beats).length) hdata
  have hbursts := congrArg List.length hgranted
  rw [List.length_append, List.length_append] at hwords hbursts
  simp only [badBeats_append, List.length_append] at hbad
  have hgrants := readGrants_sum hr h hlen
  refine ⟨?_, ?_, ?_, ?_, ?_, ?_, ?_⟩
  · intro i p' hp'
    obtain ⟨p, rstep, wstep, hp, hport⟩ := h.port' hp'
    obtain ⟨n, hn, hold⟩ := ht.readGrants i p hp
    obtain ⟨n', hn', hflow⟩ := readGrants_edge hf h hp hn
    refine ⟨n', hn', ?_⟩
    rw [hport.reads_counted.bursts]
    omega
  · have hold := ht.readBursts
    have htaken := hmem.readBursts
    omega
  · have hold := ht.readWords
    have hsum := total_reads (f := (·.reader.stats.words)) (g := (·.rFired.toList)) h
      fun _ _ _ _ _ hport => hport.reads_counted.words
    have hgave := hmem.readWords
    rw [hreceived] at hsum
    omega
  · intro i p' hp'
    obtain ⟨p, rstep, wstep, hp, hport⟩ := h.port' hp'
    rw [hport.writes_counted.bursts]
    exact writeGrants_edge hr h hp (ht.writeGrants i p hp)
  · have hold := ht.writeBursts
    have hsum := total_writes (f := (·.writer.stats.bursts)) (g := (·.awFired.toList)) h
      fun _ _ _ _ _ hport => hport.writes_counted.bursts
    have htaken := hmem.writeBursts
    omega
  · have hold := ht.writeWords
    have hsum := total_writes (f := (·.writer.stats.words)) (g := (·.wFired.toList)) h
      fun _ _ _ _ _ hport => hport.writes_counted.words
    have htaken := hmem.writeWords
    rw [hup_w] at hsum
    omega
  · have hold := ht.errors
    have hreads := total_reads (f := (·.reader.stats.errors))
      (g := fun bus => badBeats bus.rFired.toList) h
      fun _ _ _ _ _ hport => hport.reads_counted.errors
    have hwrites := total_writes (f := (·.writer.stats.errors))
      (g := fun bus => badAnswers bus.bFired.toList) h
      fun _ _ _ _ _ hport => hport.writes_counted.errors
    have hcounted := hmem.errors
    rw [← badBeats_flatMap, hreceived] at hreads
    rw [← badAnswers_flatMap, hup_b] at hwrites
    omega

end Machine

end BurstDma
