import BurstDma.Proofs.Bounds
import BurstDma.Proofs.Work

/-!
# Streams that hold what is wanted

A writer that was asked for more than its stream has waits for ever. In length mode it wants
the words that its descriptors say, in frame mode a frame for each of them. `Port.Supplied`
says that the stream holds all of it, in the buffer and in the queue of the source, and
**that stays so while nobody asks for more**: what a writer sends it no longer wants.

The point of it is `Port.Supplied.candidate_le`. A writer that is supplied never waits for its
buffer once the source has done what it can.
-/

namespace BurstDma

/-! ## Complete frames -/

/-- Behind its first beat a frame is a frame. -/
theorem IsFrame.tail {b : Beat} {beats : List Beat} (h : IsFrame (b :: beats))
    (hne : beats ≠ []) : IsFrame beats := by
  have hmarked := h.marked
  rw [List.length_cons, endMarks_of_lt (Nat.zero_lt_succ _), List.map_cons, endMarks_succ] at hmarked
  exact ⟨hne, Nat.lt_of_succ_lt h.short, (List.cons.inj hmarked).2⟩

/-- A frame has its marked beat. -/
theorem IsFrame.exists_last {beats : List Beat} (h : IsFrame beats) :
    ∃ b ∈ beats, b.last = true := by
  have hpos := List.length_pos_iff.mpr h.nonempty
  have hget := List.getElem?_eq_getElem (Nat.sub_lt hpos Nat.one_pos)
  refine ⟨_, List.mem_of_getElem? hget, (h.last_iff hget).mpr ?_⟩
  omega

/-! ## Ports -/

instance (c : WriteCore) : Decidable c.Midway :=
  inferInstanceAs (Decidable (_ ∧ _ ∧ _))

namespace Port

variable {g : Geometry} {s : Machine} {slave : ReadSlave} {i : Nat} {q : PortParams}
  {p p' : Port} {rstep : ReadStep} {wstep : WriteStep}

/-- The beats that wait at a port to be sent, oldest first. -/
def backlog (p : Port) : List Beat :=
  p.writeFifo.beats ++ p.source.queue

/-- The backlog begins with complete frames: the rest of the one that is being sent, and one
for the descriptor that waits. The count of the writer has room for the first. -/
structure HasFrames (p : Port) (frames : List (List Beat)) : Prop where
  many : (if p.writer.core.Midway then 1 else 0) + p.writeRegs.holding.toList.length
    ≤ frames.length
  front : frames.flatten <+: p.backlog
  complete : ∀ f ∈ frames, IsFrame f
  counted : p.writer.core.Midway → ∀ f ∈ frames.head?,
    p.writer.core.written + f.length < limit32

instance (p : Port) (frames : List (List Beat)) : Decidable (p.HasFrames frames) :=
  decidable_of_iff
    ((if p.writer.core.Midway then 1 else 0) + p.writeRegs.holding.toList.length
        ≤ frames.length
      ∧ frames.flatten <+: p.backlog ∧ (∀ f ∈ frames, IsFrame f)
      ∧ (p.writer.core.Midway → ∀ f ∈ frames.head?,
        p.writer.core.written + f.length < limit32))
    ⟨fun h => ⟨h.1, h.2.1, h.2.2.1, h.2.2.2⟩, fun h => ⟨h.many, h.front, h.complete, h.counted⟩⟩

/-- What the transfer of a writer still takes, and the one that waits, is in the backlog: in
length mode that many words, in frame mode that many frames. -/
inductive Supplied (p : Port) : Prop where
  | words : p.writer.core.frameMode = false →
      p.writer.core.length - p.writer.core.written
          + (p.writeRegs.holding.toList.map (·.words)).sum ≤ p.backlog.length →
      Supplied p
  | frames (frames : List (List Beat)) : p.writer.core.frameMode = true → p.HasFrames frames →
      Supplied p

/-- A beat that is sent was the oldest one. -/
theorem backlog_edge (h : p.Edge (s.readBus slave i p) (s.writeBus i p) rstep wstep p') :
    p.backlog = (if wstep.pop then p.writeFifo.beats.take 1 else []) ++ p'.backlog := by
  obtain ⟨more, hbeats, hqueue⟩ := h.moves
  unfold backlog
  rw [hbeats, hqueue]
  cases wstep.pop with
  | false => simp
  | true =>
      rw [if_pos rfl, if_pos rfl, ← List.append_assoc, ← List.append_assoc, ← List.append_assoc,
        ← List.drop_one, List.take_append_drop]

/-- A word goes only while a burst is open, and it is the oldest of the backlog. -/
theorem sends_head (hpop : wstep.pop = true)
    (h : p.Edge (s.readBus slave i p) (s.writeBus i p) rstep wstep p') :
    ∃ head, p.writeFifo.head? = some head ∧ p.backlog = head :: p'.backlog
      ∧ p.writer.core.phase = .transferBurst := by
  obtain ⟨hph, hhead⟩ := (s.phase_of_fires i p).2 ((Machine.served_edge h).pop.symm.trans hpop)
  obtain ⟨head, hhead⟩ := Option.isSome_iff_exists.mp hhead
  obtain ⟨rest, hrest⟩ := List.head?_eq_some_iff.mp hhead
  refine ⟨head, hhead, ?_, hph⟩
  rw [backlog_edge h, hpop, if_pos rfl, hrest]
  rfl

/-- What a writer takes is the descriptor that waited. -/
theorem holding_of_taken (ht : wstep.taken = true)
    (h : p.Edge (s.readBus slave i p) (s.writeBus i p) rstep wstep p') :
    ∃ d, p.writeRegs.holding = some d ∧ (p.writeInputs (s.writeBus i p)).desc = some d := by
  obtain ⟨hcore, _⟩ := WriteEngine.tick_core h.writer
  obtain ⟨d, hd⟩ := WriteCore.desc_of_taken hcore ht
  have hheld := hd
  dsimp only [writeInputs] at hheld
  split at hheld
  · exact ⟨d, hheld, hd⟩
  · cases hheld

/-- In length mode: a word that is sent is one that was left of the transfer. -/
theorem words_edge (hf : p.writer.core.Fits g) (hmode : p.writer.core.frameMode = false)
    (h : p.Edge (s.readBus slave i p) (s.writeBus i p) rstep wstep p')
    (hs : p.writer.core.length - p.writer.core.written
      + (p.writeRegs.holding.toList.map (·.words)).sum ≤ p.backlog.length) :
    p'.writer.core.length - p'.writer.core.written
      + (p'.writeRegs.holding.toList.map (·.words)).sum ≤ p'.backlog.length := by
  obtain ⟨hcore, _⟩ := WriteEngine.tick_core h.writer
  obtain ⟨hwritten, hquiet⟩ := WriteCore.written_next hcore
  have hlength := WriteCore.length_next hcore
  have hbacklog := backlog_edge h
  rw [h.writeRegs, nextRegs_holding]
  cases ht : wstep.taken with
  | true =>
      -- the descriptor that waited is now the transfer
      obtain ⟨d, hheld, hd⟩ := holding_of_taken ht h
      rw [hheld, Option.toList_some, List.map_singleton, List.sum_singleton] at hs
      rw [hquiet ht, if_neg Bool.false_ne_true, List.nil_append] at hbacklog
      rw [hlength.2 d hd ht, hwritten, ht, if_pos rfl, if_pos rfl, ← hbacklog]
      exact Nat.le_trans (Nat.le_add_left _ _) hs
  | false =>
      rw [hlength.1 ht, hwritten, ht, if_neg Bool.false_ne_true, if_neg Bool.false_ne_true]
      cases hpop : wstep.pop with
      | false =>
          rw [hpop, if_neg Bool.false_ne_true, List.nil_append] at hbacklog
          rw [← hbacklog]
          exact hs
      | true =>
          obtain ⟨head, _, hcons, hph⟩ := sends_head hpop h
          obtain ⟨_, hsound⟩ := hf.account hmode
          obtain ⟨hbeat, hleft, _⟩ := hsound.sending hph
          rw [hcons, List.length_cons] at hs
          rw [if_pos rfl]
          omega

section

variable {frames : List (List Beat)}

/-- The frame of a descriptor that is taken is the first one. -/
theorem HasFrames.taken (hs : p.HasFrames frames) (hmode : p.writer.core.frameMode = true)
    (ht : wstep.taken = true)
    (h : p.Edge (s.readBus slave i p) (s.writeBus i p) rstep wstep p') : p'.HasFrames frames := by
  obtain ⟨hcore, _⟩ := WriteEngine.tick_core h.writer
  have hmid := (WriteCore.midway_next hmode hcore).mpr (Or.inl ht)
  obtain ⟨hwritten, hquiet⟩ := WriteCore.written_next hcore
  have hbacklog := backlog_edge h
  rw [hquiet ht, if_neg Bool.false_ne_true, List.nil_append] at hbacklog
  refine ⟨?_, hbacklog ▸ hs.front, hs.complete, fun _ f hf => ?_⟩
  · obtain ⟨d, hheld, _⟩ := holding_of_taken ht h
    have hmany := hs.many
    rw [hheld] at hmany
    rw [h.writeRegs, nextRegs_holding, ht, if_pos rfl, if_pos hmid]
    exact Nat.le_trans (Nat.le_add_left _ _) hmany
  · rw [hwritten, ht, if_pos rfl, Nat.zero_add]
    exact (hs.complete f (List.mem_of_mem_head? hf)).short

/-- Without a beat that is sent the frames stay as they are. -/
theorem HasFrames.kept (hs : p.HasFrames frames) (hmode : p.writer.core.frameMode = true)
    (ht : wstep.taken = false) (hpop : wstep.pop = false)
    (h : p.Edge (s.readBus slave i p) (s.writeBus i p) rstep wstep p') : p'.HasFrames frames := by
  obtain ⟨hcore, _⟩ := WriteEngine.tick_core h.writer
  have hmid : p'.writer.core.Midway ↔ p.writer.core.Midway := by
    rw [WriteCore.midway_next hmode hcore, ht, hpop]
    simp
  have hwritten := (WriteCore.written_next hcore).1
  rw [ht, hpop] at hwritten
  have hbacklog := backlog_edge h
  rw [hpop, if_neg Bool.false_ne_true, List.nil_append] at hbacklog
  refine ⟨?_, hbacklog ▸ hs.front, hs.complete, fun hm => ?_⟩
  · rw [h.writeRegs, nextRegs_holding, ht, if_neg Bool.false_ne_true, if_congr hmid rfl rfl]
    exact hs.many
  · rw [hwritten]
    exact hs.counted (hmid.mp hm)

/-- A beat that is sent leaves the rest of its frame, and with the marked beat the frame is
over. -/
theorem HasFrames.sent (hs : p.HasFrames frames) (hmode : p.writer.core.frameMode = true)
    (hf : p.writer.core.Fits g) (hcut : p.writer.core.CutRight p.writeFifo.beats)
    (hpop : wstep.pop = true)
    (h : p.Edge (s.readBus slave i p) (s.writeBus i p) rstep wstep p') :
    ∃ frames', p'.HasFrames frames' := by
  obtain ⟨hcore, _⟩ := WriteEngine.tick_core h.writer
  obtain ⟨hwritten, hquiet⟩ := WriteCore.written_next hcore
  have ht : wstep.taken = false := by
    cases ht : wstep.taken with
    | false => rfl
    | true => rw [hquiet ht] at hpop; cases hpop
  obtain ⟨head, hhead, hcons, hph⟩ := sends_head hpop h
  have hm := WriteCore.midway_of_phase hph (by decide)
  have hmid := WriteCore.midway_next hmode hcore
  rw [ht, hpop, ← head_of_cut hcut hf.beat hph hhead] at hmid
  rw [ht, hpop] at hwritten
  have hholding : p'.writeRegs.holding = p.writeRegs.holding := by
    rw [h.writeRegs, nextRegs_holding, ht]
    rfl
  obtain ⟨hmany, hfront, hcomplete, hcounted⟩ := hs
  rw [if_pos hm] at hmany
  obtain ⟨frame, rest, rfl⟩ := List.exists_cons_of_length_pos (l := frames) (by omega)
  have hframe := hcomplete frame List.mem_cons_self
  have hrest : ∀ f ∈ rest, IsFrame f := fun f hf => hcomplete f (List.mem_cons_of_mem _ hf)
  have hroom := hcounted hm frame rfl
  obtain ⟨b, more, rfl⟩ := List.exists_cons_of_ne_nil hframe.nonempty
  rw [List.flatten_cons, List.cons_append, hcons, List.cons_prefix_cons] at hfront
  obtain ⟨rfl, hfront⟩ := hfront
  rw [List.length_cons] at hmany hroom
  have hlast : b.last = true ↔ more = [] := by
    rw [hframe.last_iff (k := 0) rfl, List.length_cons, ← List.length_eq_zero_iff]
    omega
  by_cases hover : more = []
  · subst hover
    have hnot : ¬ p'.writer.core.Midway := by
      rw [hmid]
      simp [hlast]
    refine ⟨rest, ?_, hfront, hrest, fun hc => absurd hc hnot⟩
    rw [hholding, if_neg hnot]
    omega
  · have hgoes : p'.writer.core.Midway := by
      rw [hmid]
      simp [hlast, hover, hm]
    refine ⟨more :: rest, ?_, hfront, ?_, fun _ f hf => ?_⟩
    · rw [hholding, if_pos hgoes, List.length_cons]
      omega
    · intro f hf
      rcases List.mem_cons.mp hf with rfl | hf
      · exact hframe.tail hover
      · exact hrest f hf
    · cases hf
      rw [hwritten]
      simp only [Bool.false_eq_true, if_false, if_true]
      omega

end

/-- **A stream that holds what is wanted goes on to hold it.** -/
theorem Supplied.edge (hs : p.Supplied) (hf : p.writer.core.Fits g)
    (hcut : p.writer.core.frameMode = true → p.writer.core.CutRight p.writeFifo.beats)
    (h : p.Edge (s.readBus slave i p) (s.writeBus i p) rstep wstep p') : p'.Supplied := by
  obtain ⟨hcore, _⟩ := WriteEngine.tick_core h.writer
  have hkept := WriteCore.frameMode_next hcore
  cases hs with
  | words hmode hle => exact .words (hkept.trans hmode) (words_edge hf hmode h hle)
  | frames frames hmode hframes =>
      cases hpop : wstep.pop with
      | true =>
          obtain ⟨frames', hframes'⟩ := hframes.sent hmode hf (hcut hmode) hpop h
          exact .frames frames' (hkept.trans hmode) hframes'
      | false =>
          cases ht : wstep.taken with
          | true => exact .frames frames (hkept.trans hmode) (hframes.taken hmode ht h)
          | false => exact .frames frames (hkept.trans hmode) (hframes.kept hmode ht hpop h)

/-- A transfer that goes on has the rest of its frame in the backlog, and counts it. -/
theorem HasFrames.first {frames : List (List Beat)} (hs : p.HasFrames frames)
    (hm : p.writer.core.Midway) :
    ∃ frame, IsFrame frame ∧ frame <+: p.backlog
      ∧ p.writer.core.written + frame.length < limit32 := by
  have hmany := hs.many
  rw [if_pos hm] at hmany
  obtain ⟨frame, rest, rfl⟩ := List.exists_cons_of_length_pos (l := frames) (by omega)
  refine ⟨frame, hs.complete frame List.mem_cons_self, ?_, hs.counted hm frame rfl⟩
  exact (List.prefix_append _ _).trans hs.front

/-- The count of a supplied writer does not run over. -/
theorem Supplied.written_lt (hs : p.Supplied) (hf : p.writer.core.Fits g)
    (hph : p.writer.core.phase = .transferBurst) : p.writer.core.written + 1 < limit32 := by
  cases hs with
  | words hmode _ => exact hf.written_lt hmode hph
  | frames frames _ hframes =>
      obtain ⟨frame, hframe, _, hroom⟩ :=
        hframes.first (WriteCore.midway_of_phase hph (by decide))
      have hpos := List.length_pos_iff.mpr hframe.nonempty
      omega

/-- Where the source has done what it can and the buffer still holds less than a burst, there is
nothing else. -/
theorem backlog_of_short (hf : p.writer.core.Fits g) (hb : p.Built g i q)
    (hdepth : maxBurstWords ≤ q.fifoDepth)
    (hfed : p.source.queue = [] ∨ p.writeFifo.canPush = false)
    (hph : p.writer.core.phase = .waitForCredit) (hopen : p.writeFifo.frameHeld = false)
    (hshort : p.writeFifo.beats.length < p.writer.core.candidate) :
    p.backlog = p.writeFifo.beats := by
  obtain ⟨_, hmax⟩ := hf.candidate (Or.inr hph)
  have hcapacity := hb.writeCapacity
  have hpush : p.writeFifo.canPush = true := by
    unfold Fifo.canPush
    rw [hopen, Bool.not_false, Bool.and_true, decide_eq_true_eq]
    omega
  unfold backlog
  rcases hfed with hq | hc
  · rw [hq, List.append_nil]
  · rw [hpush] at hc
    cases hc

/-- So there is no end of a frame in the backlog that is not in the buffer. -/
theorem candidate_le_of_last {b : Beat} (hf : p.writer.core.Fits g) (hb : p.Built g i q)
    (hmode : p.writer.core.frameMode = true)
    (hlatched : q.frameMode = true → p.writeFifo.Latched) (hdepth : maxBurstWords ≤ q.fifoDepth)
    (hfed : p.source.queue = [] ∨ p.writeFifo.canPush = false)
    (hph : p.writer.core.phase = .waitForCredit) (hmem : b ∈ p.backlog) (hlast : b.last = true)
    (hopen : p.writeFifo.frameHeld = false) :
    p.writer.core.candidate ≤ p.writeFifo.beats.length := by
  have hmode' := hb.frameMode.symm.trans hmode
  by_contra hshort
  rw [backlog_of_short hf hb hdepth hfed hph hopen (Nat.lt_of_not_le hshort)] at hmem
  rw [(hlatched hmode').open (hb.writeLatch.trans hmode') hopen b hmem] at hlast
  cases hlast

/-- **A supplied writer finds its burst in the buffer** once the source has done what it
can, unless the buffer is closed behind the end of a frame. -/
theorem Supplied.candidate_le (hs : p.Supplied) (hf : p.writer.core.Fits g)
    (hb : p.Built g i q) (hlatched : q.frameMode = true → p.writeFifo.Latched)
    (hdepth : maxBurstWords ≤ q.fifoDepth)
    (hfed : p.source.queue = [] ∨ p.writeFifo.canPush = false)
    (hph : p.writer.core.phase = .waitForCredit) (hopen : p.writeFifo.frameHeld = false) :
    p.writer.core.candidate ≤ p.writeFifo.beats.length := by
  cases hs with
  | words hmode hle =>
      by_contra hshort
      have hbacklog := backlog_of_short hf hb hdepth hfed hph hopen (Nat.lt_of_not_le hshort)
      obtain ⟨_, hsound⟩ := hf.account hmode
      obtain ⟨_, _, hleft⟩ := hsound.candidate (Or.inr hph)
      have hless := hleft hmode
      rw [hbacklog] at hle
      omega
  | frames frames hmode hframes =>
      obtain ⟨frame, hframe, hfront, _⟩ :=
        hframes.first (WriteCore.midway_of_phase hph (by decide))
      obtain ⟨b, hmem, hlast⟩ := hframe.exists_last
      exact candidate_le_of_last hf hb hmode hlatched hdepth hfed hph (hfront.subset hmem) hlast
        hopen

/-- **A writer never waits for a buffer that holds its burst**, or the end of a frame. -/
theorem sized_of_candidate_le (hf : p.writer.core.Fits g) (hb : p.Built g i q)
    (htallied : p.writeFifo.Tallied) (hlatched : q.frameMode = true → p.writeFifo.Latched)
    (hdepth : q.fifoDepth < limit32) (hph : p.writer.core.phase = .waitForCredit)
    (henough : p.writeFifo.frameHeld = false →
      p.writer.core.candidate ≤ p.writeFifo.beats.length) (bus : WriteBus) :
    p.writer.core.sized? (p.writeInputs bus) ≠ none := by
  have hlevel : p.writeFifo.level = p.writeFifo.beats.length := by
    have hfits := htallied.fits
    have hcapacity := hb.writeCapacity
    exact Nat.mod_eq_of_lt (by omega)
  unfold WriteCore.sized?
  show (if p.writer.core.frameMode && p.writeFifo.frameHeld then _ else _) ≠ none
  cases hheld : p.writeFifo.frameHeld with
  | true =>
      -- only a frame-mode buffer looks for ends, and one that found an end is not empty
      have hlatch : p.writeFifo.frameLatch = true := by
        unfold Fifo.frameHeld at hheld
        exact (Bool.and_eq_true_iff.mp hheld).1
      have hmode : q.frameMode = true := hb.writeLatch.symm.trans hlatch
      obtain ⟨b, hlast, _⟩ := (hlatched hmode).held hheld
      have hlt := (List.getElem?_eq_some_iff.mp hlast).1
      have hpos : 0 < min p.writer.core.candidate p.writeFifo.level := by
        have hone := (hf.candidate (Or.inr hph)).1
        rw [hlevel]
        omega
      rw [hb.frameMode.trans hmode, Bool.and_true, if_pos rfl]
      dsimp only [writeInputs]
      rw [if_pos hpos]
      exact Option.some_ne_none _
  | false =>
      have hgrant : Pending.writeCredit (p.writeInputs bus).fifoLevel p.writer.core.candidate
          = true := decide_eq_true (Nat.le_trans (henough hheld) (Nat.le_of_eq hlevel.symm))
      rw [Bool.and_false, if_neg Bool.false_ne_true, if_pos hgrant]
      exact Option.some_ne_none _

end Port

/-! ## Open bursts -/

/-- The buffer of port `i` holds every word of the burst that its writer offers or sends. -/
def Machine.Backed (s : Machine) : Prop :=
  ∀ (i : Nat) (p : Port), s.ports[i]? = some p →
    p.writer.core.Backed p.writeFifo.beats.length

/-- **In every reachable machine the words of an open burst are in the buffer**: they were
there when the burst was sized, and only the writer takes words out. -/
theorem Machine.backed_reachable {params : MachineParams} {s : Machine}
    (h : Machine.Reachable params s) : s.Backed := by
  have rest : ∀ {c : WriteCore} (held : Nat), c.phase = .idle → c.Backed held := by
    intro c held hph
    unfold WriteCore.Backed WriteCore.openWords
    rw [hph]
    exact ⟨(by intro hc; cases hc), Nat.zero_le _⟩
  refine h.steps ?_ ?_ ?_ ?_
  · intro s h₀ i p hp
    rw [getElem?_ofParams h₀] at hp
    obtain ⟨q, _, rfl⟩ := Option.map_eq_some_iff.mp hp
    exact rest _ rfl
  · intro s s' slave hr hb hedge i p' hp'
    obtain ⟨p, rstep, wstep, hp, hport⟩ := hedge.port' hp'
    have hbeat := ((bounded_reachable hr).port i p hp).writer.beat
    exact backed_edge hbeat (hb i p hp) hport
  · intro s s' op _ hb htouch i p' hp'
    obtain ⟨p, hp, hport⟩ := htouch.port' hp'
    rw [hport.writer, hport.writeFifo]
    exact hb i p hp
  · intro s s' _ _ hreset i p' hp'
    rw [reset_eq_ok hreset] at hp'
    simp only [List.getElem?_map, Option.map_eq_some_iff] at hp'
    obtain ⟨p, _, rfl⟩ := hp'
    exact rest _ rfl

end BurstDma
